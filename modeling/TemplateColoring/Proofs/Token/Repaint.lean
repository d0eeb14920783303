import TemplateColoring.Proofs.Region.Map
import TemplateColoring.Proofs.Token.Total

/-!
# Repainting what an edit has changed

An update of the regions names the stretch of the new document whose regions were found anew. It is
enough to repaint this stretch (`RegionMap.update_damage`): it covers the edit, no region lies
across one of its ends, and the regions on both sides are those of the old document with the tokens
that they had, on the far side moved by as much as the edit lengthens the text.
-/

set_option autoImplicit false

namespace TemplateColoring

open Bytes Region TemplateColoring.Span

/-- Outside the stretch from `a` to `b` of the new document an edit changes nothing. -/
structure Damage (d : Dialect) (e : Edit) (old new : Template) (a b : Nat) : Prop where
  before : a ≤ e.offset
  behind : e.offset + e.inserted ≤ b
  within : b ≤ new.length
  not_across : ∀ r ∈ new.regions d, (r.stop ≤ a ∨ a ≤ r.start) ∧ (r.stop ≤ b ∨ b ≤ r.start)
  front : (new.regions d).filter (·.stop ≤ a) = (old.regions d).filter (·.stop ≤ a)
  back : (new.regions d).filter (b ≤ ·.start) =
    ((old.regions d).filter (b - e.inserted + e.removed ≤ ·.start)).map e.move

namespace RegionMap

variable {d : Dialect} {e : Edit} {old new : Template}

/-- An update that keeps parts of the old regions names a stretch between them. -/
theorem Parts.damage {front rebuilt kept : List Region} {a b : Nat}
    (h : Parts d e old new front rebuilt kept a b) : Damage d e old new a b := by
  have hbehind : Tiles a (rebuilt ++ kept) new.length :=
    tiles_append.mpr ⟨b, h.rebuilt_tiles, h.kept_tiles⟩
  have hbefore : Tiles 0 (front ++ rebuilt) b :=
    tiles_append.mpr ⟨a, h.front_tiles, h.rebuilt_tiles⟩
  have hab := h.rebuilt_tiles.le
  constructor
  · exact h.before
  · exact h.behind
  · exact h.kept_tiles.le
  · intro r hr
    rw [h.regions, List.mem_append, List.mem_append] at hr
    rcases hr with (hr | hr) | hr
    · have := h.front_tiles.bounds hr
      omega
    · have := h.rebuilt_tiles.bounds hr
      omega
    · have := h.kept_tiles.bounds hr
      omega
  · -- both documents have the regions `front` up to `a`
    obtain ⟨rest, hold⟩ := h.front_prefix
    have htiles := tiles_regions d old
    rw [← hold] at htiles
    obtain ⟨m, hfront, hrest⟩ := tiles_append.mp htiles
    rw [hfront.stop_unique h.front_tiles] at hrest
    rw [h.regions, List.append_assoc, h.front_tiles.filter_stop hbehind, ← hold,
      h.front_tiles.filter_stop hrest]
  · obtain ⟨front', back', hold, hfront', hback', hkept⟩ := h.moved
    rw [h.regions, hbefore.filter_start h.kept_tiles, hold, hfront'.filter_start hback', hkept]

/-- A document without regions is empty, so that all of the new document is damaged. -/
theorem damage_of_regions_eq_nil (h : e.Turns old new) (hnil : old.regions d = []) :
    Damage d e old new 0 new.length := by
  have hgrowth := h.length_eq
  have hfit : e.offset + e.removed ≤ old.length := h.1
  have hold : old.length = 0 := by
    have htiles := tiles_regions d old
    rw [hnil] at htiles
    exact htiles.symm
  constructor
  · exact Nat.zero_le _
  · omega
  · exact Nat.le_refl _
  · intro r hr
    have hbounds := (tiles_regions d new).bounds hr
    omega
  · rw [hnil, List.filter_nil, List.filter_eq_nil_iff]
    intro r hr
    have hbounds := (tiles_regions d new).bounds hr
    rw [decide_eq_true_eq]
    omega
  · rw [hnil, List.filter_nil, List.map_nil, List.filter_eq_nil_iff]
    intro r hr
    have hbounds := (tiles_regions d new).bounds hr
    rw [decide_eq_true_eq]
    omega

/-- The stretch that an update names. -/
theorem exists_damage (d : Dialect) (h : e.Turns old new) (hold : old.length ≤ Offset.max)
    (hnew : new.length ≤ Offset.max) :
    ∃ a b, (ofTemplate d old).update d new e = .ok (ofTemplate d new, (a, b)) ∧
      Damage d e old new a b ∧ (old.regions d = [] → a = 0 ∧ b = new.length) := by
  rw [update_of_fits (fits?_ofTemplate h hold hnew)]
  by_cases hne : old.regions d = []
  · refine ⟨0, new.length, ?_, damage_of_regions_eq_nil h hne, fun _ => ⟨rfl, rfl⟩⟩
    simp [ofTemplate, hne]
  · obtain ⟨front, rebuilt, kept, a, b, hparts, hsplice⟩ := exists_parts_of_splice h hne
    refine ⟨a, b, ?_, hparts.damage, fun hnil => absurd hnil hne⟩
    have hnonempty : (true && !(ofTemplate d old).regions.isEmpty) = true := by
      simpa [ofTemplate] using hne
    rw [if_pos hnonempty, ← splice_eq_ofTemplate h hne, hsplice]

end RegionMap

/-! ## The tokens outside the stretch -/

/-- Tokens behind an edit are moved as their text is. -/
theorem Coloring.map_move_tokens (c : Coloring) {e : Edit} {start : Nat} (h : e.removed ≤ start)
    (s : List UInt8) : (c.tokens start s).map e.move =
      c.tokens (start - e.removed + e.inserted) s := by
  calc (c.tokens start s).map e.move
      = ((c.tokens (start - e.removed) s).map
          fun p => { p with start := p.start + e.removed }).map e.move := by
        rw [map_tokens, Nat.sub_add_cancel h]
    _ = (c.tokens (start - e.removed) s).map
          fun p => { p with start := p.start + e.inserted } := by
        rw [List.map_map]
        refine List.map_congr_left fun p _ => ?_
        simp [Edit.move]
    _ = c.tokens (start - e.removed + e.inserted) s := c.map_tokens e.inserted _ s

namespace Damage

variable {d : Dialect} {e : Edit} {old new : String} {a b : Nat}

/-- In front of the stretch the tokens stay. -/
theorem color_front (h : Damage d e (.ofString old) (.ofString new) a b)
    (hturns : e.Turns (.ofString old) (.ofString new)) {r : Region}
    (hr : r ∈ (Template.ofString old).regions d) (hstop : r.stop ≤ a) :
    (Template.ofString new).color d r = (Template.ofString old).color d r := by
  have hmem : r ∈ (Template.ofString new).regions d := by
    have hold : r ∈ ((Template.ofString old).regions d).filter (·.stop ≤ a) :=
      List.mem_filter.mpr ⟨hr, decide_eq_true hstop⟩
    rw [← h.front] at hold
    exact (List.mem_filter.mp hold).1
  obtain ⟨x, y, z, hbytes, hstart, hlength, -⟩ := Template.exists_parts_of_mem hr
  have hbefore := h.before
  rw [stop, hstart, hlength] at hstop
  -- the text of the region lies in the common front of the documents
  have htake : (Template.ofString new).bytes.toList.take (x ++ y).length = x ++ y := by
    rw [List.length_append, ← take_eq_of_take_eq hturns.take_eq (Nat.le_trans hstop hbefore),
      hbytes, ← List.append_assoc, ← List.length_append, List.take_left]
  have hnew : (Template.ofString new).bytes.toList =
      x ++ (y ++ (Template.ofString new).bytes.toList.drop (x ++ y).length) :=
    calc (Template.ofString new).bytes.toList
        = (Template.ofString new).bytes.toList.take (x ++ y).length ++
            (Template.ofString new).bytes.toList.drop (x ++ y).length :=
          (List.take_append_drop _ _).symm
      _ = x ++ (y ++ (Template.ofString new).bytes.toList.drop (x ++ y).length) := by
          rw [htake, List.append_assoc]
  rw [Template.color_of_parts hmem hnew hstart hlength,
    Template.color_of_parts hr hbytes hstart hlength]

/-- Behind the stretch the tokens move with the text. -/
theorem color_back (h : Damage d e (.ofString old) (.ofString new) a b)
    (hturns : e.Turns (.ofString old) (.ofString new)) {r : Region}
    (hr : r ∈ (Template.ofString old).regions d) (hstart : b - e.inserted + e.removed ≤ r.start) :
    (Template.ofString new).color d (e.move r) =
      ((Template.ofString old).color d r).map e.move := by
  have hbehind := h.behind
  have hmem : e.move r ∈ (Template.ofString new).regions d := by
    have hold : r ∈ ((Template.ofString old).regions d).filter
        (b - e.inserted + e.removed ≤ ·.start) :=
      List.mem_filter.mpr ⟨hr, decide_eq_true hstart⟩
    have hmoved := List.mem_map_of_mem (f := e.move) hold
    rw [← h.back] at hmoved
    exact (List.mem_filter.mp hmoved).1
  obtain ⟨x, y, z, hbytes, hx, hlength, -⟩ := Template.exists_parts_of_mem hr
  -- what is ahead of the region is the same in the new document
  have hahead : (Template.ofString new).bytes.toList.drop (e.move r).start = y ++ z := by
    have hfar : e.offset + e.inserted ≤ (e.move r).start := by
      simp only [Edit.move]
      omega
    have hback : (e.move r).start - e.inserted + e.removed = x.length := by
      simp only [Edit.move]
      omega
    rw [← hturns.drop_eq hfar, hback, hbytes, List.drop_left]
  have hnew : (Template.ofString new).bytes.toList =
      (Template.ofString new).bytes.toList.take (e.move r).start ++ (y ++ z) := by
    rw [← hahead, List.take_append_drop]
  have hmove : (e.move r).start =
      ((Template.ofString new).bytes.toList.take (e.move r).start).length := by
    have hbounds := (RegionMap.tiles_regions d (.ofString new)).bounds hmem
    have hsize : (Template.ofString new).bytes.toList.length = (Template.ofString new).length :=
      Array.length_toList
    rw [List.length_take]
    omega
  rw [Template.color_of_parts hmem hnew hmove hlength,
    Template.color_of_parts hr hbytes hx hlength]
  exact ((Coloring.ofRegion d r.kind).map_move_tokens (by omega) y).symm

end Damage

/-- **Repainting the damaged stretch is enough.** An update after an edit that is reported truly
names a stretch of the new document outside of which nothing has changed: there the regions are
those of the old document, in front unmoved and behind moved, and so are their tokens. -/
theorem RegionMap.update_damage (d : Dialect) {e : Edit} {old new : String}
    (h : e.Turns (.ofString old) (.ofString new))
    (hold : (Template.ofString old).length ≤ Offset.max)
    (hnew : (Template.ofString new).length ≤ Offset.max) :
    ∃ a b, (ofTemplate d (.ofString old)).update d (.ofString new) e =
        .ok (ofTemplate d (.ofString new), (a, b)) ∧
      Damage d e (.ofString old) (.ofString new) a b ∧
      ((Template.ofString old).regions d = [] → a = 0 ∧ b = (Template.ofString new).length) ∧
      (∀ r ∈ (Template.ofString old).regions d, r.stop ≤ a →
        (Template.ofString new).color d r = (Template.ofString old).color d r) ∧
      ∀ r ∈ (Template.ofString old).regions d, b - e.inserted + e.removed ≤ r.start →
        (Template.ofString new).color d (e.move r) =
          ((Template.ofString old).color d r).map e.move := by
  obtain ⟨a, b, hupdate, hdamage, hempty⟩ := exists_damage d h hold hnew
  refine ⟨a, b, hupdate, hdamage, hempty, ?_, ?_⟩
  · intro r hr hstop
    exact hdamage.color_front h hr hstop
  · intro r hr hstart
    exact hdamage.color_back h hr hstart

/-- A comment is opened in front of a macro call, which is no region of the new document. -/
theorem RegionMap.update_damage_comment : ∃ a b,
    (ofTemplate {} (.ofString "a<b>c<@d/>")).update {} (.ofString "a<b>c<#--<@d/>")
        (.insertion 5 4) = .ok (ofTemplate {} (.ofString "a<b>c<#--<@d/>"), (a, b)) ∧
      Damage {} (.insertion 5 4) (.ofString "a<b>c<@d/>") (.ofString "a<b>c<#--<@d/>") a b := by
  have hturns : (Edit.insertion 5 4).Turns (.ofString "a<b>c<@d/>")
      (.ofString "a<b>c<#--<@d/>") :=
    ⟨by decide, "<#--".toUTF8.data.toList, by decide, by decide⟩
  obtain ⟨a, b, hupdate, hdamage, -⟩ :=
    RegionMap.update_damage {} hturns (by decide) (by decide)
  exact ⟨a, b, hupdate, hdamage⟩

end TemplateColoring

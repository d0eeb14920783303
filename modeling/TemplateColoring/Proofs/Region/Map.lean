import TemplateColoring.Proofs.Region.Scanner
import TemplateColoring.Region.Map

/-!
# Keeping regions is finding them anew

`RegionMap.update` scans as little of an edited document as it can. The regions in front of the
edit stay because a region is decided by its own bytes and `RegionMap.lookahead` more; the regions
behind it stay, moved, because a scan depends only on what is ahead of it. So the map that is kept
along a history of edits is at each step the map of the whole document (`RegionMap.follow_eq`).
-/

set_option autoImplicit false

namespace TemplateColoring

open Region TemplateColoring.Span

/-! ## Texts with a common front -/

/-- **Bounded look-ahead.** The regions of a document that end `lookahead` bytes before the end of
a front of it, or earlier, are the first regions of every document with that front. -/
theorem Template.regions_prefix_of_take_eq (d : Dialect) (t t' : Template) {n : Nat}
    (h : t.bytes.toList.take n = t'.bytes.toList.take n) :
    (t.regions d).filter (fun r => r.stop + RegionMap.lookahead ≤ n) <+: t'.regions d := by
  have hprefix := filter_scanBy_prefix_of_take_eq d.rules d h 0
  rw [Nat.zero_add] at hprefix
  rwa [regions_eq_scan, regions_eq_scan]

/-- What follows the name of an end tag does not matter to the regions in front of it. -/
theorem Template.regions_prefix_before_end_tag :
    [⟨.plain, 0, 1⟩, ⟨.directiveStart, 1, 7⟩, ⟨.plain, 8, 1⟩] <+:
      (Template.ofString "a<#if b>c</#listing [").regions {} := by
  have hprefix := Template.regions_prefix_of_take_eq {} (.ofString "a<#if b>c</#list>x")
    (.ofString "a<#if b>c</#listing [") (n := 16) (by decide)
  have hregions : ((Template.ofString "a<#if b>c</#list>x").regions {}).filter
      (fun r => r.stop + RegionMap.lookahead ≤ 16) =
        [⟨.plain, 0, 1⟩, ⟨.directiveStart, 1, 7⟩, ⟨.plain, 8, 1⟩] := by
    rw [Template.regions_eq_scan]
    decide
  rwa [hregions] at hprefix

/-! ## Edits and their histories -/

namespace Edit

/-- The edit says truly how one document becomes another: some bytes of the length it names stand
in the place of those it removes. -/
def Turns (e : Edit) (old new : Template) : Prop :=
  e.offset + e.removed ≤ old.length ∧
    ∃ inserted : List UInt8, inserted.length = e.inserted ∧
      new.bytes.toList = old.bytes.toList.take e.offset ++ inserted ++
        old.bytes.toList.drop (e.offset + e.removed)

/-- Edits one after the other, each with the document it leads to. The length of a document is
always an offset. -/
inductive History : Template → List (Edit × Template) → Prop
  | nil (t : Template) : History t []
  | cons {t t' : Template} {e : Edit} {steps : List (Edit × Template)} :
      e.Turns t t' → t'.length ≤ Offset.max → History t' steps → History t ((e, t') :: steps)

variable {e : Edit} {old new : Template}

/-- A span behind the changed bytes, at its place after the edit. -/
def move {κ : Type} (e : Edit) (p : Span κ) : Span κ :=
  { p with start := p.start - e.removed + e.inserted }

/-- In front of the edit the documents are the same. -/
theorem Turns.take_eq (h : e.Turns old new) :
    old.bytes.toList.take e.offset = new.bytes.toList.take e.offset := by
  obtain ⟨hfit, inserted, -, hnew⟩ := h
  rw [Template.length, ← Array.length_toList] at hfit
  have hlen : (old.bytes.toList.take e.offset).length = e.offset := by
    rw [List.length_take]
    omega
  rw [hnew, List.append_assoc, List.take_append, hlen, Nat.sub_self, List.take_zero,
    List.append_nil, List.take_take, Nat.min_self]

/-- Behind the edit the documents are the same, at other offsets. -/
theorem Turns.drop_eq (h : e.Turns old new) {stop : Nat} (hstop : e.offset + e.inserted ≤ stop) :
    old.bytes.toList.drop (stop - e.inserted + e.removed) = new.bytes.toList.drop stop := by
  obtain ⟨hfit, inserted, hlen, hnew⟩ := h
  rw [Template.length, ← Array.length_toList] at hfit
  have hfront : (old.bytes.toList.take e.offset ++ inserted).length = e.offset + e.inserted := by
    rw [List.length_append, List.length_take, hlen]
    omega
  obtain ⟨k, rfl⟩ := Nat.exists_eq_add_of_le hstop
  have hoffset : e.offset + e.inserted + k - e.inserted + e.removed = e.offset + e.removed + k := by
    omega
  rw [hoffset, hnew]
  calc old.bytes.toList.drop (e.offset + e.removed + k)
      = (old.bytes.toList.drop (e.offset + e.removed)).drop k := (List.drop_drop ..).symm
    _ = (old.bytes.toList.take e.offset ++ inserted ++
          old.bytes.toList.drop (e.offset + e.removed)).drop (e.offset + e.inserted + k) := by
        rw [← hfront, List.drop_length_add_append]

theorem Turns.length_eq (h : e.Turns old new) :
    new.length = old.length - e.removed + e.inserted := by
  obtain ⟨hfit, inserted, hlen, hnew⟩ := h
  have hnew' := congrArg List.length hnew
  simp only [List.length_append, List.length_take, List.length_drop, Array.length_toList,
    hlen] at hnew'
  simp only [Template.length] at hfit ⊢
  omega

end Edit

namespace RegionMap

variable {d : Dialect} {e : Edit} {old new : Template}

/-! ## The parts of an updated map -/

theorem takeWhile_prefix_filter {α : Type} {p q : α → Bool} {l : List α}
    (h : ∀ a ∈ l, p a = true → q a = true) : l.takeWhile p <+: l.filter q := by
  induction l with
  | nil => exact List.nil_prefix
  | cons a l ih =>
      by_cases hp : p a = true
      · rw [List.takeWhile_cons_of_pos hp, List.filter_cons_of_pos (h a List.mem_cons_self hp),
          List.cons_prefix_cons]
        exact ⟨rfl, ih fun b hb => h b (List.mem_cons_of_mem a hb)⟩
      · rw [List.takeWhile_cons_of_neg hp]
        exact List.nil_prefix

/-- The regions that end far enough in front of an edit stay. -/
theorem untouched_prefix_regions (h : e.Turns old new) :
    (old.regions d).takeWhile (fun r => r.stop ≤ e.offset - lookahead) <+: new.regions d := by
  have hprefix := filter_scanBy_prefix_of_take_eq d.rules d h.take_eq 0
  rw [Template.regions_eq_scan, Template.regions_eq_scan]
  refine (takeWhile_prefix_filter fun r hr hstop => ?_).trans hprefix
  -- every region stops behind zero, so the subtraction loses nothing
  have hbounds := (tiles_scanBy d.rules d 0 old.bytes.toList).bounds hr
  have hmargin := of_decide_eq_true hstop
  simp only [lookahead, decide_eq_true_eq] at hmargin ⊢
  omega

/-- The scan restarts where one of the old regions starts, and what is in front of it stays. -/
theorem exists_restart (h : e.Turns old new) (hne : old.regions d ≠ []) {first : Nat}
    (hfirst : first = min (((old.regions d).takeWhile fun r =>
      r.stop ≤ e.offset - lookahead).length - 1) ((old.regions d).length - 1)) :
    ∃ x r, new.bytes.toList = x ++ r ∧ ((old.regions d)[first]?.map start).getD 0 = x.length ∧
      x.length ≤ e.offset ∧ Tiles 0 ((old.regions d).take first) x.length ∧
      new.regions d = (old.regions d).take first ++ scan d x.length r := by
  have hpos := List.length_pos_iff.mpr hne
  have hlt : first < (old.regions d).length := by omega
  have huntouched : (old.regions d).take first <+:
      (old.regions d).takeWhile fun r => r.stop ≤ e.offset - lookahead := by
    have hle := (List.takeWhile_prefix (l := old.regions d)
      fun r => decide (r.stop ≤ e.offset - lookahead)).length_le
    refine List.prefix_of_prefix_length_le (List.take_prefix _ _) (List.takeWhile_prefix _) ?_
    rw [List.length_take]
    omega
  obtain ⟨back, hback⟩ := huntouched.trans (untouched_prefix_regions h)
  have hscan := hback.symm
  rw [Template.regions_eq_scan new] at hscan
  obtain ⟨x, r, hbytes, htiles, hscan⟩ := scanBy_eq_append hscan
  rw [Nat.zero_add] at htiles hscan
  refine ⟨x, r, hbytes, ?_, ?_, htiles, ?_⟩
  · -- the old regions are cut in the same place
    have hcut : scanBy d.rules d 0 old.bytes.toList =
        (old.regions d).take first ++ (old.regions d)[first] :: (old.regions d).drop (first + 1) := by
      rw [List.getElem_cons_drop, List.take_append_drop]
      exact (old.regions_eq_scan d).symm
    have hold := tiles_scanBy d.rules d 0 old.bytes.toList
    rw [hcut] at hold
    obtain ⟨m, hfront, hrest⟩ := tiles_append.mp hold
    rw [List.getElem?_eq_getElem hlt, Option.map_some, Option.getD_some, hrest.head_start,
      hfront.stop_unique htiles]
  · apply htiles.le_of_forall (Nat.zero_le _)
    intro p hp
    have hstop := List.all_eq_true.mp List.all_takeWhile p (huntouched.subset hp)
    rw [decide_eq_true_eq] at hstop
    omega
  · rw [← hback, hscan]
    rfl

theorem tiles_regions (d : Dialect) (t : Template) : Tiles 0 (t.regions d) t.length := by
  have htiles := tiles_scanBy d.rules d 0 t.bytes.toList
  rw [Nat.zero_add] at htiles
  rwa [Template.regions_eq_scan]

/-- Regions behind an old offset are moved by as much as the offset is. -/
theorem map_move {stop c : Nat} {back : List Region} (hstop : e.inserted ≤ stop)
    (h : Tiles (stop - e.inserted + e.removed) back c) :
    back.map (fun r => { r with start := r.start - (stop - e.inserted + e.removed) + stop }) =
      back.map e.move := by
  refine List.map_congr_left fun r hr => ?_
  have hbounds := h.bounds hr
  rw [Edit.move, Span.mk.injEq]
  refine ⟨rfl, ?_, rfl⟩
  omega

/-- Where an old region starts behind the edit, the old regions can be cut, and from there on they
are, moved, those of the new document. -/
theorem exists_cut_behind (h : e.Turns old new) {stop : Nat} (hstop : e.offset + e.inserted ≤ stop)
    (hany : (old.regions d).any (·.start == stop - e.inserted + e.removed) = true) :
    ∃ front back, old.regions d = front ++ back ∧
      Tiles 0 front (stop - e.inserted + e.removed) ∧
      Tiles (stop - e.inserted + e.removed) back old.length ∧
      scan d stop (new.bytes.toList.drop stop) = back.map e.move := by
  obtain ⟨p, hp, hstart⟩ := List.any_eq_true.mp hany
  obtain ⟨front, back, hsplit⟩ := List.append_of_mem hp
  have hscan := hsplit
  rw [Template.regions_eq_scan] at hscan
  obtain ⟨x, r, hbytes, htiles, hback⟩ := scanBy_eq_append hscan
  rw [Nat.zero_add] at htiles hback
  have htiles' := tiles_scanBy d.rules d x.length r
  have hx : x.length = stop - e.inserted + e.removed := by
    rw [← hback] at htiles'
    exact htiles'.head_start.symm.trans (by simpa using hstart)
  have hsize : x.length + r.length = old.length := (Bytes.size_eq_add hbytes).symm
  rw [← hback, hsize, hx] at htiles'
  rw [hx] at htiles
  refine ⟨front, p :: back, hsplit, htiles, htiles', ?_⟩
  have hr : new.bytes.toList.drop stop = r :=
    calc new.bytes.toList.drop stop
        = old.bytes.toList.drop (stop - e.inserted + e.removed) := (h.drop_eq hstop).symm
      _ = r := by rw [hbytes, ← hx, List.drop_left]
  calc scan d stop (new.bytes.toList.drop stop)
      = (p :: back).map fun q =>
          { q with start := q.start - (stop - e.inserted + e.removed) + stop } := by
        rw [hr, hback, ← hx, map_scanBy]
        rfl
    _ = (p :: back).map e.move := map_move (by omega) htiles'

/-- At the end of the new document the old regions are cut behind all of them. -/
theorem exists_cut_end (d : Dialect) (h : e.Turns old new) :
    e.offset + e.inserted ≤ new.length ∧
      ∃ front back, old.regions d = front ++ back ∧
        Tiles 0 front (new.length - e.inserted + e.removed) ∧
        Tiles (new.length - e.inserted + e.removed) back old.length ∧ back.map e.move = [] := by
  have hgrowth := h.length_eq
  have hfit : e.offset + e.removed ≤ old.length := h.1
  have hall : new.length - e.inserted + e.removed = old.length := by omega
  refine ⟨by omega, old.regions d, [], (List.append_nil _).symm, ?_, ?_, rfl⟩
  · rw [hall]
    exact tiles_regions d old
  · exact hall

/-- Nothing is put together where plain text does not stand next to plain text. -/
theorem join_eq_append {front back : List Region} (h : Separated (front ++ back)) :
    join front back = front ++ back := by
  simp only [join]
  split
  · next p q rest hp =>
    obtain ⟨init, rfl⟩ := List.getLast?_eq_some_iff.mp hp
    rw [List.append_assoc] at h
    have hpq := (separated_cons.mp h.of_append).1 q rfl
    rw [if_neg]
    simpa [RegionKind.isPlain] using hpq
  · rfl

/-! ## One edit -/

/-- What an update by an edit leaves, finds anew and keeps: the regions in front of the stretch
from `a` to `b`, those of the stretch, and those behind it. -/
structure Parts (d : Dialect) (e : Edit) (old new : Template) (front rebuilt kept : List Region)
    (a b : Nat) : Prop where
  before : a ≤ e.offset
  behind : e.offset + e.inserted ≤ b
  front_prefix : front <+: old.regions d
  front_tiles : Tiles 0 front a
  rebuilt_tiles : Tiles a rebuilt b
  kept_tiles : Tiles b kept new.length
  regions : new.regions d = front ++ rebuilt ++ kept
  moved : ∃ front' back', old.regions d = front' ++ back' ∧
    Tiles 0 front' (b - e.inserted + e.removed) ∧
    Tiles (b - e.inserted + e.removed) back' old.length ∧ kept = back'.map e.move

/-- An update by an edit puts the parts together and names the stretch between them. -/
theorem exists_parts_of_splice (h : e.Turns old new) (hne : old.regions d ≠ []) :
    ∃ front rebuilt kept a b, Parts d e old new front rebuilt kept a b ∧
      (ofTemplate d old).splice d new e =
        (⟨join front rebuilt ++ kept, new.length⟩, (a, b)) := by
  unfold splice
  extract_lets untouched first restart oldOffset settled rebuilt stop kept
  obtain ⟨x, r, hbytes, hfirst, hbefore, hfront, hnew⟩ :=
    exists_restart h hne (show first = _ from rfl)
  have hrestart : restart = x.length := hfirst
  have hsize := Bytes.size_eq_add hbytes
  have hpoint : new.restartPoint (.outside restart) = restart :=
    Nat.min_eq_left (by show restart ≤ new.bytes.size; omega)
  have hahead : new.bytes.toList.drop restart = r := by rw [hbytes, hrestart, List.drop_left]
  obtain ⟨y, z, hr, htiles, hscan, hend⟩ := scan_eq_scanUntil_append settled d restart r
  -- `y` is scanned anew, and `z` is what is left when the scan stops
  have hrebuilt : rebuilt = scanUntil settled d restart r := by
    rw [← hahead, ← hpoint]
    exact new.collectUntil_scannerFrom settled d (.outside restart)
  rw [← hrebuilt] at htiles hscan
  have hstop : stop = restart + y.length := htiles.getLast_stop
  have hz : new.bytes.toList.drop stop = z := by
    rw [hstop, hrestart, hbytes, hr, List.drop_length_add_append, List.drop_left]
  have hlength : new.length = stop + z.length := by
    rw [hr, List.length_append] at hsize
    show new.bytes.size = _
    omega
  rw [← hstop] at htiles hscan
  have hregions : new.regions d = (old.regions d).take first ++ rebuilt ++ scan d stop z := by
    rw [hnew, ← hrestart, hscan, List.append_assoc]
  -- the scan stops where an old region starts behind the edit, or it goes on to the end
  have hcut : e.offset + e.inserted ≤ stop ∧ kept = scan d stop z ∧
      ∃ front' back', old.regions d = front' ++ back' ∧
        Tiles 0 front' (stop - e.inserted + e.removed) ∧
        Tiles (stop - e.inserted + e.removed) back' old.length ∧
        scan d stop z = back'.map e.move := by
    by_cases hsettled : (settled stop && !rebuilt.isEmpty) = true
    · obtain ⟨hfar, hany⟩ := Bool.and_eq_true_iff.mp (Bool.and_eq_true_iff.mp hsettled).1
      have hbehind := of_decide_eq_true hfar
      obtain ⟨front', back', hold, hfront', hback', hmoved⟩ := exists_cut_behind h hbehind hany
      rw [hz] at hmoved
      refine ⟨hbehind, ?_, front', back', hold, hfront', hback', hmoved⟩
      calc kept
          = ((front' ++ back').dropWhile (·.start < oldOffset stop)).map fun r =>
              { r with start := r.start - oldOffset stop + stop } := by
            rw [← hold]
            exact if_pos hsettled
        _ = back'.map e.move := by
            rw [hfront'.dropWhile_start hback']
            exact map_move (by omega) hback'
        _ = scan d stop z := hmoved.symm
    · have hnil : z = [] := by
        refine hend.resolve_right ?_
        rintro ⟨hy, hset⟩
        apply hsettled
        have hne' : rebuilt ≠ [] := by
          intro hnil
          rw [hnil] at htiles
          have hlen : restart = stop := htiles
          exact hy (List.eq_nil_of_length_eq_zero (by omega))
        rw [hstop, hset]
        simpa using hne'
      subst hnil
      rw [List.length_nil, Nat.add_zero] at hlength
      obtain ⟨hbehind, front', back', hold, hfront', hback', hmoved⟩ := exists_cut_end d h
      rw [hlength] at hbehind hfront' hback'
      exact ⟨hbehind, if_neg hsettled, front', back', hold, hfront', hback', hmoved.symm⟩
  obtain ⟨hbehind, hkept, hmoved⟩ := hcut
  have hlast := tiles_scanBy d.rules d stop z
  rw [← hkept] at hregions hmoved
  refine ⟨(old.regions d).take first, rebuilt, kept, restart, stop, ?_, rfl⟩
  exact {
    before := by rw [hrestart]; exact hbefore
    behind := hbehind
    front_prefix := List.take_prefix _ _
    front_tiles := by rw [hrestart]; exact hfront
    rebuilt_tiles := htiles
    kept_tiles := by rw [hkept, hlength]; exact hlast
    regions := hregions
    moved := hmoved }

/-- The map of a document, brought up to date, is the map of the edited document. -/
theorem splice_eq_ofTemplate (h : e.Turns old new) (hne : old.regions d ≠ []) :
    ((ofTemplate d old).splice d new e).1 = ofTemplate d new := by
  obtain ⟨front, rebuilt, kept, a, b, hparts, hsplice⟩ := exists_parts_of_splice h hne
  have hseparated : Separated (new.regions d) := by
    rw [Template.regions_eq_scan]
    exact separated_scanBy (plain_not_mem_rules d) 0 new.bytes.toList
  rw [hparts.regions] at hseparated
  rw [hsplice, ofTemplate, hparts.regions, join_eq_append hseparated.of_append_left]

theorem fits?_ofTemplate (h : e.Turns old new) (hold : old.length ≤ Offset.max)
    (hnew : new.length ≤ Offset.max) : (ofTemplate d old).fits? new e = .ok true := by
  have hlen := h.length_eq
  have hfit : e.offset + e.removed ≤ old.length := h.1
  have hstop : e.oldStop? = .ok (e.offset + e.removed) := Offset.add_eq_ok (by omega)
  have hadd : Offset.add (old.length - e.removed) e.inserted = .ok new.length := by
    rw [hlen] at hnew ⊢
    exact Offset.add_eq_ok hnew
  simp [fits?, hstop, ofTemplate, hfit, hadd, Bind.bind, Except.bind, Pure.pure, Except.pure]

theorem exists_fits?_empty (h : e.Turns old new) (hold : old.length ≤ Offset.max)
    (hnew : new.length ≤ Offset.max) : ∃ fits, empty.fits? new e = .ok fits := by
  have hlen := h.length_eq
  have hfit : e.offset + e.removed ≤ old.length := h.1
  have hstop : e.oldStop? = .ok (e.offset + e.removed) := Offset.add_eq_ok (by omega)
  have hadd : Offset.add (empty.length - e.removed) e.inserted =
      .ok (empty.length - e.removed + e.inserted) :=
    Offset.add_eq_ok (by simp only [empty]; omega)
  by_cases hzero : e.offset + e.removed ≤ empty.length
  · exact ⟨_, by
      simp only [fits?, hstop, hadd, hzero, Bind.bind, Except.bind, Pure.pure, Except.pure,
        if_true]
      rfl⟩
  · exact ⟨false, by
      simp [fits?, hstop, hzero, Bind.bind, Except.bind, Pure.pure, Except.pure]⟩

theorem update_of_fits {m : RegionMap} {fits : Bool} (h : m.fits? new e = .ok fits) :
    m.update d new e =
      .ok (if fits && !m.regions.isEmpty then m.splice d new e
        else (ofTemplate d new, (0, new.length))) := by
  simp only [update, h, Bind.bind, Except.bind, Pure.pure, Except.pure]
  split <;> rfl

/-- An edit that is reported truly is never a fault, and it brings the map up to date. -/
theorem update_eq (d : Dialect) {m : RegionMap} (hm : m = ofTemplate d old ∨ m = empty)
    (hold : old.length ≤ Offset.max) (hnew : new.length ≤ Offset.max) (h : e.Turns old new) :
    ∃ scanned, m.update d new e = .ok (ofTemplate d new, scanned) := by
  rcases hm with rfl | rfl
  · rw [update_of_fits (fits?_ofTemplate h hold hnew)]
    by_cases hne : old.regions d = []
    · refine ⟨(0, new.length), ?_⟩
      simp [ofTemplate, hne]
    · refine ⟨((ofTemplate d old).splice d new e).2, ?_⟩
      have hnonempty : (true && !(ofTemplate d old).regions.isEmpty) = true := by
        simpa [ofTemplate] using hne
      rw [if_pos hnonempty, ← splice_eq_ofTemplate h hne]
  · obtain ⟨fits, hfits⟩ := exists_fits?_empty h hold hnew
    refine ⟨(0, new.length), ?_⟩
    rw [update_of_fits hfits]
    simp [empty]

/-! ## A history of edits -/

/-- The maps that are kept along edits, one after each. -/
def follow (d : Dialect) : RegionMap → List (Edit × Template) →
    Except Offset.Fault (List RegionMap)
  | _, [] => .ok []
  | m, (e, t) :: steps => do
      let (m, _) ← m.update d t e
      return m :: (← follow d m steps)

/-- **Keeping the regions up to date is finding them anew.** Along every history of edits, from the
map of a document or from the empty map, the map is after each edit that of the whole document. -/
theorem follow_eq (d : Dialect) {m : RegionMap} {t : Template} {steps : List (Edit × Template)}
    (hm : m = ofTemplate d t ∨ m = empty) (ht : t.length ≤ Offset.max)
    (h : Edit.History t steps) :
    m.follow d steps = .ok (steps.map fun step => ofTemplate d step.2) := by
  induction h generalizing m with
  | nil t => rfl
  | cons hturns hlen _ ih =>
      obtain ⟨scanned, hupdate⟩ := update_eq d hm ht hlen hturns
      rw [follow, hupdate]
      show (do return _ :: (← follow d _ _)) = _
      rw [ih (.inl rfl) hlen]
      rfl

/-- A comment is opened, which takes the rest of the document, and is closed again. -/
theorem follow_comment :
    (ofTemplate {} (.ofString "a<b>c<@d/>")).follow {}
        [(.insertion 1 4, .ofString "a<#--<b>c<@d/>"),
          (.insertion 5 3, .ofString "a<#----><b>c<@d/>")] =
      .ok [⟨[⟨.plain, 0, 1⟩, ⟨.comment, 1, 13⟩], 14⟩,
        ⟨[⟨.plain, 0, 1⟩, ⟨.comment, 1, 7⟩, ⟨.markupTag, 8, 3⟩, ⟨.plain, 11, 1⟩,
          ⟨.macroStart, 12, 5⟩], 17⟩] := by
  have hopened : (Edit.insertion 1 4).Turns (.ofString "a<b>c<@d/>")
      (.ofString "a<#--<b>c<@d/>") :=
    ⟨by decide, "<#--".toUTF8.data.toList, by decide, by decide⟩
  have hclosed : (Edit.insertion 5 3).Turns (.ofString "a<#--<b>c<@d/>")
      (.ofString "a<#----><b>c<@d/>") :=
    ⟨by decide, "-->".toUTF8.data.toList, by decide, by decide⟩
  rw [follow_eq {} (.inl rfl) (by decide)
    (.cons hopened (by decide) (.cons hclosed (by decide) (.nil _)))]
  simp only [List.map_cons, List.map_nil, ofTemplate, Template.regions_eq_scan]
  exact congrArg _ (by decide)

end RegionMap

end TemplateColoring

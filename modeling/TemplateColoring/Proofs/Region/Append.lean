import TemplateColoring.Proofs.Region.Characters

/-!
# Texts put together

Where the last region of a text is closed, another text may follow: the regions of both together are
those of the first and, moved behind them, those of the second (`Template.regions_append`). The
last region is closed whatever follows. It ends with a byte behind which no other region looks, so
that those before it stay the same too (`scanBy_append_of_alike`).
-/

set_option autoImplicit false

namespace TemplateColoring

open Ascii Bytes TemplateColoring.Span

namespace Region

variable {rules : List RegionKind} {d : Dialect} {kind : RegionKind} {o : Opening}

/-! ## A region that is closed -/

/-- What ends with its needle ends with the last byte of the needle. -/
theorem exists_of_through {needle v x : List UInt8} {c : UInt8} (hneedle : needle = v ++ [c])
    (h : through needle x = ⟨x.length, true⟩) : ∃ u, x = u ++ [c] := by
  rcases through_cases needle x with ⟨hall, -⟩ | ⟨hfit, -, hp⟩
  · exact absurd (hall.symm.trans h) (by simp)
  · obtain ⟨z, hz⟩ := List.isPrefixOf_iff_prefix.mp hp
    have hlen : distanceTo needle x + needle.length = x.length :=
      congrArg Extent.length (hfit.symm.trans h)
    have hnil : z = [] := by
      have := congrArg List.length hz
      rw [List.length_append, List.length_drop] at this
      apply List.eq_nil_of_length_eq_zero
      omega
    refine ⟨x.take (distanceTo needle x) ++ v, ?_⟩
    calc x = x.take (distanceTo needle x) ++ x.drop (distanceTo needle x) :=
          (List.take_append_drop _ x).symm
      _ = x.take (distanceTo needle x) ++ v ++ [c] := by
          rw [← hz, hnil, List.append_nil, hneedle, List.append_assoc]

/-- A region that is closed ends with a byte that no rule looks beyond. -/
theorem exists_isCloser_of_closingOf {x : List UInt8}
    (h : closingOf d kind o x = ⟨x.length, true⟩) :
    ∃ u c, x = u ++ [c] ∧ isCloser c = true := by
  cases kind with
  | comment =>
      obtain ⟨u, hu⟩ := exists_of_through (v := [hyphen, hyphen]) rfl h
      exact ⟨u, _, hu, by cases o.bracket <;> decide⟩
  | markupComment =>
      obtain ⟨u, hu⟩ := exists_of_through (v := [hyphen, hyphen]) rfl h
      exact ⟨u, _, hu, by decide⟩
  | markupTag =>
      obtain ⟨u, hu, -⟩ := exists_of_markupExtent_closed h
      exact ⟨u, greater, hu, by decide⟩
  | directiveStart | directiveEnd | macroStart | macroEnd | interpolation =>
      replace h : Expression.extent o.terminator (x ++ []) = ⟨x.length, true⟩ := by
        rwa [List.append_nil]
      exact Expression.exists_isCloser_of_closed (congrArg Extent.length h)
        (congrArg Extent.closed h)
  | plain => exact absurd (congrArg Extent.closed h) (by simp [closingOf])

theorem Ruled.append_of_closed {w y : List UInt8} (h : Ruled rules d kind w y [] o)
    (hclosed : closingOf d kind o y = ⟨y.length, true⟩) (r : List UInt8) :
    Ruled rules d kind w y r o := by
  obtain ⟨u, c, rfl, -⟩ := exists_isCloser_of_closingOf hclosed
  have hclosing := congrArg Extent.length (closingOf_append_of_closed hclosed r)
  exact h.append (.of_front (by simp) [] r) hclosing

/-! ## The scan of both texts -/

theorem eq_nil_of_scanBy_eq_nil {start : Nat} {s : List UInt8}
    (h : scanBy rules d start s = []) : s = [] := by
  have htiles := tiles_scanBy rules d start s
  rw [h] at htiles
  apply List.eq_nil_of_length_eq_zero
  exact Nat.left_eq_add.mp htiles

/-- The regions up to a place are the same before rests that look alike. -/
theorem scanBy_append_of_alike {front back : List Region} {x r r' : List UInt8} {start : Nat}
    (h : scanBy rules d start (x ++ r) = front ++ back)
    (hfront : Tiles start front (start + x.length)) (hr : Alike r r') :
    scanBy rules d start (x ++ r') = front ++ scanBy rules d (start + x.length) r' := by
  induction front generalizing x start with
  | nil =>
      obtain rfl : x = [] := List.eq_nil_of_length_eq_zero (Nat.left_eq_add.mp hfront)
      rfl
  | cons p front ih =>
      have hne : x ++ r ≠ [] := by
        intro hnil
        rw [hnil] at h
        exact absurd h (by simp)
      obtain ⟨kind, y, s, hcut, hy, hfirst⟩ := exists_firstBy rules d hne
      rw [hcut, scanBy_of_firstBy hy hfirst] at h
      obtain ⟨rfl, hrest⟩ := List.cons.inj h
      obtain ⟨-, -, htiles⟩ := hfront
      -- the first region `y` lies in `x`, and `z` is what is left of `x`
      obtain ⟨z, rfl, rfl⟩ : ∃ z, x = y ++ z ∧ s = z ++ r := by
        have hle := htiles.le
        simp only [stop] at hle
        have hprefix : y <+: x := List.prefix_of_prefix_length_le ⟨s, hcut.symm⟩
          (List.prefix_append x r) (by omega)
        obtain ⟨z, rfl⟩ := hprefix
        rw [List.append_assoc] at hcut
        exact ⟨z, rfl, (List.append_cancel_left hcut).symm⟩
      rw [List.length_append, ← Nat.add_assoc] at htiles ⊢
      rw [List.append_assoc, scanBy_of_firstBy hy (firstBy_append hfirst (hr.append z)),
        ih hrest htiles, List.cons_append]

/-- The last region of a text is the first region of what is ahead of it, and takes all of that. -/
theorem exists_of_scanBy_eq_concat {front : List Region} {p : Region} {s : List UInt8}
    {start : Nat} (h : scanBy rules d start s = front ++ [p]) :
    ∃ x y, s = x ++ y ∧ Tiles start front (start + x.length) ∧ y ≠ [] ∧
      firstBy rules d (y ++ []) = ⟨p.kind, y.length⟩ ∧
      p = ⟨p.kind, start + x.length, y.length⟩ := by
  obtain ⟨x, t, rfl, htiles, hlast⟩ := scanBy_eq_append h
  have ht : t ≠ [] := by
    rintro rfl
    exact absurd hlast (by simp)
  obtain ⟨kind, y, r, rfl, hy, hfirst⟩ := exists_firstBy rules d ht
  rw [scanBy_of_firstBy hy hfirst] at hlast
  obtain ⟨rfl, hnil⟩ := List.cons.inj hlast
  obtain rfl := eq_nil_of_scanBy_eq_nil hnil.symm
  exact ⟨x, y, by rw [List.append_nil], htiles, hy, hfirst, rfl⟩

/-- A region that is closed by the end of the text is the same whatever follows, and what follows
is not seen by the regions before it. -/
theorem firstBy_append_of_closed {s : List UInt8} (h : firstBy rules d (s ++ []) = ⟨kind, s.length⟩)
    (ho : openingOf? d kind s = some o)
    (hclosed : (closingOf d kind o (s.drop o.length)).closed = true) (r : List UInt8) :
    firstBy rules d (s ++ r) = ⟨kind, s.length⟩ ∧ Alike s (s ++ r) := by
  rcases firstBy_cases h with ⟨rfl, -⟩ | ⟨w, y, o', rfl, hruled⟩
  · exact absurd ho (by simp [openingOf?])
  · -- the region is its opener `w` and `y`, which ends with the byte `c` that closes it
    have hsame : o = o' := by
      have ho' := hruled.opening
      rw [List.append_nil, ho] at ho'
      exact Option.some.inj ho'
    subst hsame
    have hclosing : closingOf d kind o y = ⟨y.length, true⟩ := by
      have hlength := hruled.closing
      rw [List.append_nil] at hlength
      rw [hruled.length, List.drop_left] at hclosed
      rw [← hlength, ← hclosed]
    obtain ⟨u, c, rfl, hc⟩ := exists_isCloser_of_closingOf hclosing
    refine ⟨(hruled.append_of_closed hclosing r).firstBy_eq, ?_⟩
    simpa using (Alike.of_closer hc [] r).append (w ++ u)

/-- **Behind a region that is closed a scan starts anew.** -/
theorem scanBy_append {front : List Region} {p : Region} {s : List UInt8} {start : Nat}
    (h : scanBy rules d start s = front ++ [p])
    (ho : openingOf? d p.kind (s.drop (p.start - start)) = some o)
    (hclosed : (closingOf d p.kind o (s.drop (p.start - start + o.length))).closed = true)
    (r : List UInt8) :
    scanBy rules d start (s ++ r) =
      scanBy rules d start s ++ scanBy rules d (start + s.length) r := by
  obtain ⟨x, y, rfl, htiles, hy, hfirst, hp⟩ := exists_of_scanBy_eq_concat h
  have hstart : p.start - start = x.length := by rw [hp, Nat.add_sub_cancel_left]
  rw [hstart, List.drop_left] at ho
  rw [hstart, List.drop_length_add_append] at hclosed
  obtain ⟨hlast, halike⟩ := firstBy_append_of_closed hfirst ho hclosed r
  rw [← List.append_nil (x ++ y), List.append_assoc, List.append_nil] at h
  calc scanBy rules d start (x ++ y ++ r)
      = front ++ scanBy rules d (start + x.length) (y ++ r) := by
        rw [List.append_assoc]
        exact scanBy_append_of_alike h htiles halike
    _ = front ++ [p] ++ scanBy rules d (start + x.length + y.length) r := by
        rw [scanBy_of_firstBy hy hlast, ← hp, List.append_assoc, List.singleton_append]
    _ = scanBy rules d start (x ++ y) ++ scanBy rules d (start + (x ++ y).length) r := by
        rw [h, List.length_append, Nat.add_assoc]

end Region

/-! ## The regions of both texts -/

namespace Template

open Region

/-- The template has no last region, or the last one is closed: its rule finds the end behind the
opener. -/
def EndsClosed (t : Template) (d : Dialect) : Prop :=
  ∀ p ∈ (t.regions d).getLast?, ∃ o,
    (Cursor.ofOffset t.bytes p.start).opener? d p.kind = some o ∧
    ((Cursor.ofOffset t.bytes (o.start + o.length)).close d p.kind o).1.terminated = true

/-- Behind a template that ends closed the regions are those of what follows. -/
theorem regions_append {t t₁ t₂ : Template} {d : Dialect} (h : t₁.EndsClosed d)
    (hbytes : t.bytes.toList = t₁.bytes.toList ++ t₂.bytes.toList) :
    t.regions d = t₁.regions d ++ (t₂.regions d).map (moveBy t₁.length) := by
  have hmoved (n : Nat) : (scan d 0 t₂.bytes.toList).map (moveBy n) = scan d n t₂.bytes.toList :=
    map_scanBy 0 n t₂.bytes.toList
  have hlength : t₁.bytes.toList.length = t₁.length := Array.length_toList
  rw [regions_eq_scan t, regions_eq_scan t₂, hbytes, hmoved]
  rcases List.eq_nil_or_concat (t₁.regions d) with hnil | ⟨front, p, hlast⟩
  · have hempty : t₁.bytes.toList = [] := by
      rw [regions_eq_scan] at hnil
      exact eq_nil_of_scanBy_eq_nil hnil
    rw [hnil, ← hlength, hempty]
    rfl
  · rw [List.concat_eq_append] at hlast
    obtain ⟨o, ho, hclosed⟩ := h p (by simp [hlast])
    have hp : p ∈ t₁.regions d := by simp [hlast]
    obtain ⟨x, y, z, hsplit, hstart, -⟩ := exists_parts_of_mem hp
    have hsize := size_eq_add hsplit
    obtain ⟨hostart, hof⟩ := (Cursor.opener?_eq_some_iff (by omega)).mp ho
    have hole := (openingOf?_bounds hof).2
    rw [List.length_drop, Array.length_toList] at hole
    rw [Cursor.close_ofOffset d p.kind o (by omega), hostart] at hclosed
    rw [regions_eq_scan] at hlast ⊢
    have happend := scanBy_append hlast hof hclosed t₂.bytes.toList
    rw [Nat.zero_add, hlength] at happend
    exact happend

end Template

end TemplateColoring

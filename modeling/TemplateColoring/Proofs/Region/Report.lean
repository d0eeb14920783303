import TemplateColoring.Proofs.Region.Revision

/-!
# Runs of reports, and reports of any numbers

Regions that lie end to end are all that a report of an edit needs, and it leaves such regions
again. So along any run of reports, true or not, every offset is looked up in the region in which it
lies (`RegionMap.whole_of_reports`).

A report may name any numbers. Before anything else is done it is held against the lengths of the
two documents, and if it does not fit them, all regions are found anew. The sums that are compared
with the lengths have to be offsets, though. In a document whose brackets can be counted this is the
one way for a report to be a fault (`RegionMap.revision_of_report`).
-/

set_option autoImplicit false

namespace TemplateColoring

open TemplateColoring.Span

namespace RegionMap

variable {d : Dialect} {m : RegionMap} {t : Template} {e : Edit}

/-! ## Any run of reports -/

/-- The regions lie end to end from the start of a document to its end, and every offset is looked
up in the one in which it lies. -/
structure Whole (m : RegionMap) : Prop where
  tiles : Tiles 0 m.regions m.length
  inside : ∀ offset < m.length, ∃ r ∈ m.regions, m.lookup? offset = .ok (some r) ∧
    r.start ≤ offset ∧ offset < r.stop
  behind : ∀ offset, m.length ≤ offset → m.lookup? offset = .ok none

theorem regionAt?_eq (m : RegionMap) (offset : Nat) :
    m.regionAt? offset = (m.regions.dropWhile (·.stop ≤ offset)).head? := by
  rw [regionAt?]
  induction m.regions with
  | nil => rfl
  | cons r regions ih =>
    by_cases hr : offset < r.stop
    · rw [List.find?_cons_of_pos (by simpa using hr),
        List.dropWhile_cons_of_neg (by simpa using hr), List.head?_cons]
    · rw [List.find?_cons_of_neg (by simpa using hr),
        List.dropWhile_cons_of_pos (by simpa using hr), ih]

/-- Halving finds the region in which an offset lies. -/
theorem lookup?_eq (h : Tiles 0 m.regions m.length) (hmax : m.length ≤ Offset.max)
    (offset : Nat) : m.lookup? offset = .ok (m.regionAt? offset) := by
  rw [lookup?, h.countBefore_stop hmax offset, regionAt?_eq]
  exact congrArg Except.ok (getElem?_length_takeWhile _ _)

theorem whole_of_tiles (h : Tiles 0 m.regions m.length) (hmax : m.length ≤ Offset.max) :
    m.Whole := by
  refine ⟨h, fun offset hoffset => ?_, fun offset hoffset => ?_⟩
  · obtain ⟨r, hhead, hr, hbounds⟩ := h.exists_of_lt_stop (Nat.zero_le _) hoffset
    exact ⟨r, hr, by rw [lookup?_eq h hmax, regionAt?_eq, hhead], hbounds⟩
  · rw [lookup?_eq h hmax, regionAt?_eq, h.dropWhile_stop_eq_nil hoffset]
    rfl

/-- The maps that are kept along reports of edits, one after each. -/
def reviseAll? (d : Dialect) : RegionMap → List (Edit × Template) →
    Except Offset.Fault (List RegionMap)
  | _, [] => .ok []
  | m, (e, t) :: steps => do
      let (m, _) ← m.revise? d t e
      return m :: (← reviseAll? d m steps)

end RegionMap

/-- Reports of edits one after the other, each with the document it comes with, from a document of
`n` bytes on. The documents may be any, and so may the edits, except that their sums are offsets. -/
inductive Edit.Reports : Nat → List (Edit × Template) → Prop
  | nil (n : Nat) : Reports n []
  | cons {n : Nat} {e : Edit} {t : Template} {steps : List (Edit × Template)} :
      (t.length : Int) ≤ Offset.maxDistance → e.offset + e.removed ≤ Offset.max →
      (e.offset + e.removed ≤ n → n - e.removed + e.inserted ≤ Offset.max) →
      Reports t.length steps → Reports n ((e, t) :: steps)

namespace RegionMap

/-- After each step the map is whole and speaks of the document of that step. -/
def WholeAlong (steps : List (Edit × Template)) (maps : List RegionMap) : Prop :=
  maps.length = steps.length ∧
    ∀ e t m, ((e, t), m) ∈ steps.zip maps → m.length = t.length ∧ m.Whole

theorem WholeAlong.cons {t : Template} {m : RegionMap} {steps : List (Edit × Template)}
    {maps : List RegionMap} (e : Edit) (hlength : m.length = t.length) (hm : m.Whole)
    (h : WholeAlong steps maps) : WholeAlong ((e, t) :: steps) (m :: maps) := by
  refine ⟨congrArg (· + 1) h.1, fun e' t' m' hmem => ?_⟩
  rw [List.zip_cons_cons] at hmem
  rcases List.mem_cons.mp hmem with heq | hmem
  · obtain ⟨hstep, rfl⟩ := Prod.mk.inj heq
    obtain ⟨-, rfl⟩ := Prod.mk.inj hstep
    exact ⟨hlength, hm⟩
  · exact h.2 e' t' m' hmem

/-- Along reports of edits whole maps are left, and the brackets of a document are the only thing
that may be too many. -/
theorem wholeAlong_reviseAll? (d : Dialect) {m : RegionMap} {steps : List (Edit × Template)}
    (hm : Tiles 0 m.regions m.length) (hlength : (m.length : Int) ≤ Offset.maxDistance)
    (h : Edit.Reports m.length steps) :
    (∀ maps, m.reviseAll? d steps = .ok maps → WholeAlong steps maps) ∧
      ((∀ step ∈ steps, step.2.length ≤ Lexer.maxDepth) →
        ∃ maps, m.reviseAll? d steps = .ok maps) := by
  induction steps generalizing m with
  | nil =>
    refine ⟨fun maps hmaps => ?_, fun _ => ⟨[], rfl⟩⟩
    obtain rfl := Except.ok.inj hmaps
    exact ⟨rfl, fun _ _ _ hmem => absurd hmem (by simp)⟩
  | cons step steps ih =>
    cases h with
    | @cons _ e t _ ht hstop hfit hrest =>
      obtain ⟨m', scanned, hrevise, hm', htiles⟩ :=
        exists_revise?_agrees d hm hlength ht hstop hfit
      have hlength' : (m'.length : Int) ≤ Offset.maxDistance := hm' ▸ ht
      obtain ⟨hwhole, hreturns⟩ := ih htiles hlength' (hm' ▸ hrest)
      constructor
      · intro maps hmaps
        obtain ⟨found, hfound, hmaps⟩ := exists_of_bind_eq_ok hmaps
        obtain rfl := hrevise.eq_of_ok hfound
        obtain ⟨rest, hrest, hmaps⟩ := exists_of_bind_eq_ok hmaps
        obtain rfl := Except.ok.inj hmaps
        exact (hwhole rest hrest).cons e hm'
          (whole_of_tiles htiles (Offset.le_max_of_le_maxDistance hlength'))
      · intro hsize
        obtain ⟨rest, hrest⟩ := hreturns fun step hstep => hsize step (List.mem_cons_of_mem _ hstep)
        refine ⟨m' :: rest, ?_⟩
        rw [reviseAll?, hrevise.eq_of_le (hsize (e, t) List.mem_cons_self), ok_bind]
        dsimp only
        rw [hrest]
        rfl

/-- **Untrue reports never break the regions.** From the map of a document or from the empty map,
along any reports of edits with any documents, after each step the regions lie end to end from the
start of the document of that step to its end; so every offset in it is looked up in the region in
which it lies, and there is none behind the end. As long as the documents have fewer than `2 ^ 32`
bytes, there is a map of the first, and no step is a fault. -/
theorem whole_of_reports (d : Dialect) (t : Template)
    (ht : (t.length : Int) ≤ Offset.maxDistance) :
    (t.length < 0x100000000 → ∃ m, ofTemplate? d t = .ok m) ∧
    ∀ m, ofTemplate? d t = .ok m ∨ m = empty → ∀ steps, Edit.Reports m.length steps →
      (∀ maps, m.reviseAll? d steps = .ok maps → WholeAlong steps maps) ∧
        ((∀ step ∈ steps, step.2.length < 0x100000000) →
          ∃ maps, m.reviseAll? d steps = .ok maps) := by
  refine ⟨fun hsize => ⟨_, (ofTemplate?_agrees d t).eq_of_lt hsize⟩, ?_⟩
  intro m hm steps h
  have hstart : Tiles 0 m.regions m.length ∧ (m.length : Int) ≤ Offset.maxDistance := by
    rcases hm with hm | rfl
    · obtain rfl := (ofTemplate?_agrees d t).eq_of_ok hm
      exact ⟨tiles_regions d t, ht⟩
    · exact ⟨rfl, by decide⟩
  obtain ⟨hwhole, hreturns⟩ := wholeAlong_reviseAll? d hstart.1 hstart.2 h
  exact ⟨hwhole, fun hsize => hreturns fun step hstep => Nat.le_of_lt_succ (hsize step hstep)⟩

/-- One byte is said to have been put in front of the old text, but all of it is new: the macro call
of the old text is kept, one byte further on, where the new text has none. A second report speaks of
more bytes than there are. -/
theorem whole_of_reports_untrue :
    (ofTemplate {} (.ofString "a<b>c<@d/>")).revise? {} (.ofString "${abc}zzzzz")
        (.insertion 0 1) =
      .ok (⟨[⟨.interpolation, 0, 6⟩, ⟨.macroStart, 6, 5⟩], 11⟩, (0, 6)) ∧
    ∃ m maps, ofTemplate? {} (.ofString "a<b>c<@d/>") = .ok m ∧ m.reviseAll? {}
        [(.insertion 0 1, .ofString "${abc}zzzzz"), (.deletion 3 100, .ofString "é")] = .ok maps ∧
      WholeAlong [(.insertion 0 1, .ofString "${abc}zzzzz"), (.deletion 3 100, .ofString "é")]
        maps := by
  constructor
  · have hold : (Template.ofString "a<b>c<@d/>").regions {} =
        [⟨.plain, 0, 1⟩, ⟨.markupTag, 1, 3⟩, ⟨.plain, 4, 1⟩, ⟨.macroStart, 5, 5⟩] := by
      rw [Template.regions_eq_scan]
      decide
    have hfits : (ofTemplate {} (.ofString "a<b>c<@d/>")).fits? (.ofString "${abc}zzzzz")
        (.insertion 0 1) = .ok true := rfl
    have hupdate := (revise?_agrees (d := {}) (m := ofTemplate {} (.ofString "a<b>c<@d/>"))
      (t := .ofString "${abc}zzzzz") (tiles_regions {} _) (by decide) (by decide)
      (.insertion 0 1)).eq_of_le (by decide)
    rw [hupdate, update_of_fits hfits,
      splice_eq, found, Template.regionsFrom_eq_scan, restart, restartIndex, ofTemplate, hold]
    exact congrArg Except.ok (by decide)
  · obtain ⟨hstart, hreports⟩ :=
      whole_of_reports {} (.ofString "a<b>c<@d/>") (by decide)
    obtain ⟨m, hm⟩ := hstart (by decide)
    have hlength : m.length = 10 := by
      obtain rfl := (ofTemplate?_agrees {} (.ofString "a<b>c<@d/>")).eq_of_ok hm
      rfl
    have hrescan : Edit.Reports 11 [(.deletion 3 100, .ofString "é")] :=
      .cons (by decide) (by decide) (by decide) (.nil _)
    have hsteps : Edit.Reports m.length
        [(.insertion 0 1, .ofString "${abc}zzzzz"), (.deletion 3 100, .ofString "é")] := by
      rw [hlength]
      exact .cons (by decide) (by decide) (by decide) hrescan
    obtain ⟨hwhole, hreturns⟩ := hreports m (.inl hm) _ hsteps
    obtain ⟨maps, hmaps⟩ := hreturns (by decide)
    exact ⟨m, maps, hm, hmaps, hwhole maps hmaps⟩

/-- An empty document is filled with `2 ^ 32` open brackets, and reported to be: this is a fault. -/
theorem whole_of_reports_unclosed :
    Edit.Reports 0 [(.insertion 0 0x100000002, .ofString (unclosed 0x100000000))] ∧
      ∀ maps, empty.reviseAll? {}
        [(.insertion 0 0x100000002, .ofString (unclosed 0x100000000))] ≠ .ok maps := by
  constructor
  · refine .cons ?_ (by decide) (by decide) (.nil _)
    rw [length_unclosed]
    decide
  · intro maps h
    obtain ⟨found, hfound, -⟩ := exists_of_bind_eq_ok h
    obtain ⟨fits, hfits⟩ := exists_fits? (m := empty) (t := .ofString (unclosed 0x100000000))
      (e := .insertion 0 0x100000002) (by decide) (by decide)
    rw [revise?_eq_rescan hfits (Bool.and_false fits), ofTemplate?,
      Sweep.divide?_unclosed (by decide)] at hfound
    exact absurd hfound (by simp)

end RegionMap

/-! ## Reports of any numbers -/

/-- The sums that are compared with the lengths of two documents, the old one of `n` bytes, are
offsets. The second sum is made only if the first lies in the old document. -/
structure Edit.Comparable (e : Edit) (n : Nat) : Prop where
  oldStop_le : e.offset + e.removed ≤ Offset.max
  length_le : e.offset + e.removed ≤ n → n - e.removed + e.inserted ≤ Offset.max

namespace RegionMap

variable {d : Dialect} {m : RegionMap} {t : Template} {e : Edit}

/-! ## The comparison with the lengths -/

theorem fits?_eq_false (h : e.Comparable m.length) (hfits : ¬ e.Fits m.length t.length) :
    m.fits? t e = .ok false := by
  obtain ⟨fits, heq⟩ := exists_fits? (t := t) h.oldStop_le h.length_le
  cases fits with
  | false => exact heq
  | true => exact absurd (fits?_eq_true heq).2 hfits

theorem fits?_eq_error (h : ¬ e.Comparable m.length) : m.fits? t e = .error .tooLarge := by
  by_cases hstop : e.offset + e.removed ≤ Offset.max
  · have holdStop : e.oldStop? = .ok (e.offset + e.removed) := Offset.add_eq_ok hstop
    by_cases hle : e.offset + e.removed ≤ m.length
    · have hlength : Offset.max < m.length - e.removed + e.inserted := by
        apply Nat.lt_of_not_le
        intro hlength
        exact h ⟨hstop, fun _ => hlength⟩
      have hadd := Offset.add_eq_error hlength
      simp only [fits?, holdStop, hadd, hle, bind, Except.bind, if_true]
    · exact absurd ⟨hstop, fun hle' => absurd hle' hle⟩ h
  · have holdStop : e.oldStop? = .error .tooLarge := Offset.add_eq_error (Nat.lt_of_not_le hstop)
    simp only [fits?, holdStop, bind, Except.bind]

/-! ## What becomes of a report -/

theorem revise?_of_fault {fault : Offset.Fault} (h : m.fits? t e = .error fault) :
    m.revise? d t e = .error fault := by
  simp only [revise?, h, bind, Except.bind]

/-- **A report is a fault exactly if a sum that is compared with a length is no offset**, as long as
the new document has fewer than `2 ^ 32` bytes. Any other report that does not fit the lengths of
the documents has all regions of the new document found anew, however large its numbers are: it
comes to what finding them comes to. -/
theorem revision_of_report (d : Dialect) (hm : Tiles 0 m.regions m.length) (t : Template)
    (e : Edit) :
    ((m.length : Int) ≤ Offset.maxDistance → t.length < 0x100000000 →
      ((∃ result, m.revise? d t e = .ok result) ↔ e.Comparable m.length)) ∧
    (¬ e.Comparable m.length → m.revise? d t e = .error .tooLarge) ∧
    (e.Comparable m.length → ¬ e.Fits m.length t.length →
      m.revise? d t e = (ofTemplate? d t).map (·, (0, t.length)) ∧
        (t.length < 0x100000000 → m.revise? d t e = .ok (ofTemplate d t, (0, t.length)))) := by
  have hfault (h : ¬ e.Comparable m.length) : m.revise? d t e = .error .tooLarge :=
    revise?_of_fault (fits?_eq_error h)
  refine ⟨?_, hfault, ?_⟩
  · intro hlength hsize
    constructor
    · rintro ⟨result, hresult⟩
      apply Classical.byContradiction
      intro h
      rw [hfault h] at hresult
      exact absurd hresult (by simp)
    · intro h
      have ht : (t.length : Int) ≤ Offset.maxDistance := by
        simp only [Offset.maxDistance]
        omega
      obtain ⟨m', scanned, hresult, -⟩ :=
        exists_revise?_agrees d hm hlength ht h.oldStop_le h.length_le
      exact ⟨(m', scanned), hresult.eq_of_lt hsize⟩
  · intro h hfits
    have hrescan : m.revise? d t e = (ofTemplate? d t).map (·, (0, t.length)) :=
      revise?_eq_rescan (fits?_eq_false h hfits) rfl
    refine ⟨hrescan, fun hsize => ?_⟩
    rw [hrescan, (ofTemplate?_agrees d t).eq_of_lt hsize, map_ok]

/-- A report of more removed bytes than the old document has. -/
theorem revision_of_report_misfit :
    Tiles 0 (ofTemplate {} (.ofString "abc")).regions 3 ∧
    (Edit.replacement 1 Offset.maxDistance.toNat 1).Comparable 3 ∧
    (ofTemplate {} (.ofString "abc")).revise? {} (.ofString "${é}")
      (.replacement 1 Offset.maxDistance.toNat 1) =
        .ok (ofTemplate {} (.ofString "${é}"), (0, 5)) := by
  have hm := tiles_regions {} (.ofString "abc")
  have hcomparable : (Edit.replacement 1 Offset.maxDistance.toNat 1).Comparable 3 :=
    ⟨by decide, by decide⟩
  refine ⟨hm, hcomparable, ?_⟩
  have hfits : ¬ (Edit.replacement 1 Offset.maxDistance.toNat 1).Fits 3
      (Template.ofString "${é}").length := by
    rintro ⟨holdStop, -⟩
    exact absurd holdStop (by decide)
  exact ((revision_of_report {} hm (.ofString "${é}") _).2.2 hcomparable hfits).2 (by decide)

/-- Many bytes are said to have been put in front of a text, far more than the new text has: the
report does not fit, and yet the regions are not found anew. -/
theorem revision_of_report_tooLarge :
    ¬ (Edit.insertion 0 Offset.max).Fits 3 4 ∧
    (ofTemplate {} (.ofString "abc")).revise? {} (.ofString "abcd") (.insertion 0 Offset.max) =
      .error .tooLarge := by
  constructor
  · rintro ⟨-, hlength⟩
    exact absurd hlength (by decide)
  · apply revise?_of_fault
    apply fits?_eq_error
    rintro ⟨-, hlength⟩
    exact absurd (hlength (Nat.zero_le 3)) (by decide)

end RegionMap

end TemplateColoring

import TemplateColoring.Proofs.Region.AtCursor
import TemplateColoring.Proofs.Region.Scan
import TemplateColoring.Region.Restart

/-!
# A scanner gives out the regions of the scan

A scanner moves from character to character and carries the start of pending plain text, the
opening it stands in front of, and the offset where no rule is tried. The scan goes from region to
region and carries nothing. `collectUntil_eq_cut` shows that both find the same: what has been
passed since the last region given out is always the plain text that the scan cuts off there, and
an opening that a rule has found is always closed, so that no rule is ever suppressed.
-/

set_option autoImplicit false

namespace TemplateColoring.Scanner

open Bytes Region TemplateColoring.Span

variable {rules : List RegionKind} {d : Dialect} {settled : Nat → Bool}

/-! ## The moves of a run -/

theorem collectFrom_of_done {acc : List Region} {s : Scanner} (h : s.step rules d = .done) :
    s.collectFrom settled rules d acc = acc.reverse := by
  rw [collectFrom]
  split <;> simp_all

theorem collectFrom_of_goOn {acc : List Region} {s s' : Scanner}
    (h : s.step rules d = .goOn s') :
    s.collectFrom settled rules d acc = s'.collectFrom settled rules d acc := by
  rw [collectFrom]
  split <;> simp_all

theorem collectFrom_of_give {acc : List Region} {s s' : Scanner} {r : Region}
    (h : s.step rules d = .give r s') :
    s.collectFrom settled rules d acc = if settled r.stop then (r :: acc).reverse
      else s'.collectFrom settled rules d (r :: acc) := by
  rw [collectFrom]
  split <;> simp_all

theorem next_of_done {s : Scanner} (h : s.step rules d = .done) : s.next rules d = (none, s) := by
  rw [next]
  split <;> simp_all

theorem next_of_goOn {s s' : Scanner} (h : s.step rules d = .goOn s') :
    s.next rules d = s'.next rules d := by
  rw [next]
  split <;> simp_all

theorem next_of_give {s s' : Scanner} {r : Region} (h : s.step rules d = .give r s') :
    s.next rules d = (some r, s') := by
  rw [next]
  split <;> simp_all

theorem calls_of_next {s s' : Scanner} {answer : Option Region}
    (h : s.next rules d = (answer, s')) (n : Nat) :
    s.calls rules d (n + 1) = (answer, s'.offset) :: s'.calls rules d n := by
  rw [calls, h]

theorem collectFrom_eq_append (acc : List Region) (s : Scanner) :
    s.collectFrom settled rules d acc = acc.reverse ++ s.collectUntil settled rules d := by
  induction h : s.rank using Nat.strongRecOn generalizing s acc with
  | _ n ih =>
      subst h
      rw [collectUntil]
      cases hstep : s.step rules d with
      | done => rw [collectFrom_of_done hstep, collectFrom_of_done hstep]; simp
      | goOn s' =>
          have hrank := rank_lt_of_step (congrArg Outcome.scanner? hstep)
          rw [collectFrom_of_goOn hstep, collectFrom_of_goOn hstep, ih _ hrank acc _ rfl,
            ih _ hrank [] _ rfl]
          rfl
      | give r s' =>
          have hrank := rank_lt_of_step (congrArg Outcome.scanner? hstep)
          rw [collectFrom_of_give hstep, collectFrom_of_give hstep, ih _ hrank (r :: acc) _ rfl,
            ih _ hrank [r] _ rfl]
          split <;> simp

theorem collectUntil_of_done {s : Scanner} (h : s.step rules d = .done) :
    s.collectUntil settled rules d = [] := collectFrom_of_done h

theorem collectUntil_of_goOn {s s' : Scanner} (h : s.step rules d = .goOn s') :
    s.collectUntil settled rules d = s'.collectUntil settled rules d := collectFrom_of_goOn h

theorem collectUntil_of_give {s s' : Scanner} {r : Region} (h : s.step rules d = .give r s') :
    s.collectUntil settled rules d =
      r :: if settled r.stop then [] else s'.collectUntil settled rules d := by
  rw [collectUntil, collectFrom_of_give h, collectFrom_eq_append]
  split <;> rfl

/-- The next region is the first of those that a scanner gives out, and the scanner that is left
gives out the others. -/
theorem collect_eq (s : Scanner) : s.collect rules d =
    match s.next rules d with
    | (some r, s') => r :: s'.collect rules d
    | (none, _) => [] := by
  fun_induction next rules d s with
  | case1 s hstep => exact collectUntil_of_done hstep
  | case2 s s' hstep ih => exact (collectUntil_of_goOn hstep).trans ih
  | case3 s r s' hstep => exact collectUntil_of_give hstep

/-! ## What the moves find -/

/-- **An opening that a rule has found is closed**, so no place is ever suppressed. -/
theorem close?_of_openingBy? {s : Scanner} {o : Opening} (h : openingBy? rules d s.ahead = some o) :
    s.close? rules d o = some (⟨o.kind, s.offset, (extentOf d o s.ahead).length⟩,
      s.pass (extentOf d o s.ahead).length) := by
  obtain ⟨hmem, ho⟩ := openingBy?_eq_some_iff.mp h
  have hpos := openingOf?_length_pos ho
  have hle := (extentOf_bounds ho).1
  exact if_pos ⟨hmem, by omega, hle⟩

section Moves

variable {offset start : Nat} {t : List UInt8} {o : Opening} {pending : Option Nat}

theorem step_of_openingBy? (h : openingBy? rules d t = some o) :
    step rules d { offset, ahead := t, pending } =
      match pending with
      | some start =>
          .give ⟨.plain, start, offset - start⟩ { offset, ahead := t, phase := .inside o }
      | none => .goOn { offset, ahead := t, phase := .inside o } := by
  have ht : t.isEmpty = false := by
    cases t with
    | nil => exact absurd h (by simp [openingBy?])
    | cons b t => rfl
  cases pending <;> simp [step, opening?, plain?, ht, h]

theorem step_of_openingBy?_eq_none (ht : t ≠ []) (h : openingBy? rules d t = none) :
    step rules d { offset, ahead := t, pending } =
      .goOn { offset := offset + charLength t, ahead := t.drop (charLength t)
              pending := some (pending.getD offset) } := by
  have hle := charLength_le_length t
  simp [step, opening?, pass, ht, h, List.length_take_of_le hle]

/-- In front of an opening the first region of what is ahead is given out. -/
theorem collectUntil_inside (h : openingBy? rules d t = some o) {n : Nat}
    (hn : n = (extentOf d o t).length) :
    collectUntil settled rules d { offset, ahead := t, phase := .inside o } =
      ⟨o.kind, offset, n⟩ :: if settled (offset + n) then []
        else collectUntil settled rules d { offset := offset + n, ahead := t.drop n } := by
  have hle := (extentOf_bounds (openingBy?_eq_some_iff.mp h).2).2
  have hclose := close?_of_openingBy? (s := { offset, ahead := t, phase := .inside o }) h
  refine collectUntil_of_give ?_
  simp only [step, hclose, pass, List.length_take_of_le hle, hn]

/-- **Pending plain text goes on to the next opening**, or to the end of the document. -/
theorem collectUntil_pending (hstart : start ≤ offset) {n : Nat}
    (hn : n = walk (plainStep rules d) t) :
    collectUntil settled rules d { offset, ahead := t, pending := some start } =
      ⟨.plain, start, offset + n - start⟩ :: if settled (offset + n) then []
        else collectUntil settled rules d { offset := offset + n, ahead := t.drop n } := by
  induction t using walk_induction (bounded_plainStep rules d) generalizing offset n with
  | stop t hstop =>
      rw [walk_eq_zero hstop] at hn
      subst hn
      have hgive {s : Scanner}
          (h : step rules d { offset, ahead := t, pending := some start } =
            .give ⟨.plain, start, offset - start⟩ s)
          (hs : s.collectUntil settled rules d =
            collectUntil settled rules d { offset, ahead := t }) :
          collectUntil settled rules d { offset, ahead := t, pending := some start } =
            ⟨.plain, start, offset - start⟩ :: if settled offset then []
              else collectUntil settled rules d { offset, ahead := t } := by
        rw [collectUntil_of_give h, hs, stop, Nat.add_sub_cancel' hstart]
      rcases hstop with rfl | hopens
      · exact hgive (s := { offset, ahead := [] }) rfl rfl
      · obtain ⟨o, ho⟩ := Option.ne_none_iff_exists'.mp (plainStep_eq_none_iff.mp hopens)
        exact hgive (step_of_openingBy? ho) (collectUntil_of_goOn (step_of_openingBy? ho)).symm
  | pass t k ht hk ih =>
      obtain ⟨hnone, rfl⟩ := plainStep_eq_some_iff.mp hk
      rw [walk_eq_add (bounded_plainStep rules d) ht hk] at hn
      rw [collectUntil_of_goOn (step_of_openingBy?_eq_none ht hnone)]
      have hrest := ih (show start ≤ offset + charLength t by omega) rfl
      rw [List.drop_drop, Nat.add_assoc, ← hn] at hrest
      exact hrest

end Moves

/-! ## Runs -/

/-- **A scanner gives out the regions of the scan**, up to the first that ends at a settled
offset. -/
theorem collectUntil_eq_cut (offset : Nat) (t : List UInt8) :
    collectUntil settled rules d { offset, ahead := t } =
      cut (cutRegion rules d settled) offset t := by
  induction t using scan_induction rules d generalizing offset with
  | nil => exact collectUntil_of_done rfl
  | region kind x r hx hfirst ih =>
      rw [cut_of_firstBy hx hfirst, ← ih]
      cases ho : openingBy? rules d (x ++ r) with
      | some o =>
          rw [firstBy_of_openingBy? ho] at hfirst
          obtain ⟨rfl, hlen⟩ := Run.mk.inj hfirst
          rw [collectUntil_of_goOn (step_of_openingBy? ho), collectUntil_inside ho hlen.symm,
            List.drop_left]
      | none =>
          rw [firstBy_of_none ho] at hfirst
          obtain ⟨rfl, hlen⟩ := Run.mk.inj hfirst
          have hxr : x ++ r ≠ [] := by simp [hx]
          -- the first character is passed, and from then on its place is pending
          have hwalk := walk_eq_add (bounded_plainStep rules d) hxr
            (plainStep_eq_some_iff.mpr ⟨ho, rfl⟩)
          rw [hlen] at hwalk
          rw [collectUntil_of_goOn (step_of_openingBy?_eq_none hxr ho), Option.getD_none,
            collectUntil_pending (Nat.le_add_right _ _) rfl, List.drop_drop, Nat.add_assoc,
            ← hwalk, List.drop_left, Nat.add_sub_cancel_left]

/-- A scanner that is taken up gives out the regions of what is ahead, also where a region was
expected to open and does. -/
theorem collectUntil_resume (expected : Option RegionKind) (offset : Nat) (t : List UInt8) :
    (resume d expected offset t).collectUntil settled d.rules d = scanUntil settled d offset t := by
  rw [scanUntil, ← collectUntil_eq_cut]
  simp only [resume]
  split
  · next o ho =>
    split
    · exact (collectUntil_of_goOn (step_of_openingBy? ho)).symm
    · rfl
  · rfl

end TemplateColoring.Scanner

namespace TemplateColoring.Template

open Region

theorem regions_eq_scan (t : Template) (d : Dialect) :
    t.regions d = scan d 0 t.bytes.toList :=
  Scanner.collectUntil_eq_cut 0 t.bytes.toList

theorem collectUntil_scannerFrom (t : Template) (settled : Nat → Bool) (d : Dialect)
    (r : Restart) : (t.scannerFrom d r).collectUntil settled d.rules d =
      scanUntil settled d (t.restartPoint r) (t.bytes.toList.drop (t.restartPoint r)) := by
  rw [scannerFrom, Scanner.collectUntil_resume, length, toList_extract_size]

end TemplateColoring.Template

import TemplateColoring.Proofs.Span.Tiling
import TemplateColoring.Span.Search

/-!
# Searching in a tiling

Halving finds how many elements at the front of a list satisfy a test, where those that do stand in
front of those that do not (`countBefore_eq`). The spans of a tiling stand in such an order for
every test that compares their ends with an offset, and none of their ends is too large an offset
if the last is not; so a search in a tiling gives the cut of the tiling at the offset.
-/

set_option autoImplicit false

namespace TemplateColoring.Span

/-! ## Halving -/

section Halving

variable {α ε : Type} {test : α → Except ε Bool} {front back : List α}

/-- Narrowing keeps the end of the front in sight. -/
theorem exists_narrow (hfront : ∀ x ∈ front, test x = .ok true)
    (hback : ∀ x ∈ back, test x = .ok false) {base size : Nat} (hle : base ≤ front.length)
    (hsize : front.length ≤ base + size) (hpos : 0 < size)
    (hfit : base + size ≤ (front ++ back).length) :
    ∃ n, narrow test (front ++ back).toArray base size = .ok n ∧ n ≤ front.length ∧
      front.length ≤ n + 1 ∧ n < (front ++ back).length := by
  induction size using Nat.strongRecOn generalizing base with
  | _ size ih =>
      rw [narrow]
      split
      · next hmany =>
        have hmiddle : base + size / 2 < (front ++ back).length := by omega
        have hpassed : test (front ++ back)[base + size / 2] =
            .ok (decide (base + size / 2 < front.length)) := by
          by_cases hlt : base + size / 2 < front.length
          · rw [List.getElem_append_left hlt, decide_eq_true hlt]
            exact hfront _ (List.getElem_mem _)
          · rw [List.getElem_append_right (Nat.le_of_not_lt hlt), decide_eq_false hlt]
            exact hback _ (List.getElem_mem _)
        simp only [List.getElem?_toArray, List.getElem?_eq_getElem hmiddle, hpassed, bind,
          Except.bind]
        by_cases hlt : base + size / 2 < front.length
        · rw [if_pos (decide_eq_true hlt)]
          exact ih _ (by omega) (by omega) (by omega) (by omega) (by omega)
        · rw [if_neg (by simpa using hlt)]
          exact ih _ (by omega) hle (by omega) (by omega) (by omega)
      · exact ⟨base, rfl, hle, by omega, by omega⟩

/-- **Halving counts the elements at the front that satisfy the test.** -/
theorem countBefore_eq (hfront : ∀ x ∈ front, test x = .ok true)
    (hback : ∀ x ∈ back, test x = .ok false) :
    countBefore test (front ++ back).toArray = .ok front.length := by
  by_cases hnil : front ++ back = []
  · obtain ⟨rfl, rfl⟩ := List.append_eq_nil_iff.mp hnil
    simp [countBefore, narrow, bind, Except.bind]
  · have hsize : front.length ≤ 0 + (front ++ back).length := by simp
    obtain ⟨n, hn, hle, hlast, hin⟩ := exists_narrow hfront hback (Nat.zero_le _) hsize
      (List.length_pos_iff.mpr hnil) (Nat.le_of_eq (Nat.zero_add _))
    simp only [countBefore, List.size_toArray, hn, bind, Except.bind, List.getElem?_toArray,
      List.getElem?_eq_getElem hin]
    by_cases hlt : n < front.length
    · have hall : n + 1 = front.length := by omega
      rw [List.getElem_append_left hlt, hfront _ (List.getElem_mem hlt), ← hall]
      rfl
    · have hall : n = front.length := by omega
      rw [List.getElem_append_right (Nat.le_of_not_lt hlt), hback _ (List.getElem_mem _), ← hall]
      rfl

theorem countBefore_eq_takeWhile {p : α → Bool} {l : List α} (htest : ∀ x ∈ l, test x = .ok (p x))
    (hback : ∀ x ∈ l.dropWhile p, p x = false) :
    countBefore test l.toArray = .ok (l.takeWhile p).length := by
  have hfront : ∀ x ∈ l.takeWhile p, test x = .ok true := by
    intro x hx
    rw [htest x ((List.takeWhile_prefix p).subset hx),
      List.all_eq_true.mp List.all_takeWhile x hx]
  have hbehind : ∀ x ∈ l.dropWhile p, test x = .ok false := by
    intro x hx
    rw [htest x ((List.dropWhile_suffix p).subset hx), hback x hx]
  have hcount := countBefore_eq hfront hbehind
  rwa [List.takeWhile_append_dropWhile] at hcount

end Halving

/-! ## Cutting a tiling -/

theorem drop_length_takeWhile {α : Type} (test : α → Bool) (l : List α) :
    l.drop (l.takeWhile test).length = l.dropWhile test := by
  calc l.drop (l.takeWhile test).length
      = (l.takeWhile test ++ l.dropWhile test).drop (l.takeWhile test).length := by
        rw [List.takeWhile_append_dropWhile]
    _ = l.dropWhile test := List.drop_left

theorem getElem?_length_takeWhile {α : Type} (test : α → Bool) (l : List α) :
    l[(l.takeWhile test).length]? = (l.dropWhile test).head? := by
  induction l with
  | nil => rfl
  | cons a l ih =>
      by_cases ha : test a = true
      · rw [List.takeWhile_cons_of_pos ha, List.dropWhile_cons_of_pos ha, List.length_cons,
          List.getElem?_cons_succ, ih]
      · rw [List.takeWhile_cons_of_neg ha, List.dropWhile_cons_of_neg ha]
        rfl

namespace Tiles

variable {κ : Type} {a b offset : Nat} {ps : List (Span κ)} {p : Span κ}

/-- A tiling is cut where a test fails for the first time. -/
theorem exists_cut (h : Tiles a ps b) (test : Span κ → Bool) :
    ∃ m, Tiles a (ps.takeWhile test) m ∧ Tiles m (ps.dropWhile test) b := by
  rw [← List.takeWhile_append_dropWhile (p := test) (l := ps)] at h
  exact tiles_append.mp h

/-- A test that fails behind every span at which it fails fails at all that stand behind the
cut. -/
theorem dropWhile_eq_false {test : Span κ → Bool} (h : Tiles a ps b)
    (htest : ∀ p q : Span κ, p.stop ≤ q.start → test p = false → test q = false) :
    ∀ p ∈ ps.dropWhile test, test p = false := by
  intro p hp
  obtain ⟨m, -, hback⟩ := h.exists_cut test
  have hhead := List.head?_dropWhile_not test ps
  generalize ps.dropWhile test = back at hp hback hhead
  cases back with
  | nil => exact absurd hp (by simp)
  | cons q back =>
      have hq : test q = false := by simpa using hhead
      rcases List.mem_cons.mp hp with rfl | hp
      · exact hq
      · exact htest q p (hback.2.2.bounds hp).1 hq

/-- The spans behind the first that stops behind an offset stop behind it too. -/
theorem dropWhile_stop_eq_false (h : Tiles a ps b) :
    ∀ p ∈ ps.dropWhile (·.stop ≤ offset), decide (p.stop ≤ offset) = false := by
  refine h.dropWhile_eq_false fun p q hpq hp => ?_
  rw [decide_eq_false_iff_not] at hp ⊢
  have hq : q.start ≤ q.stop := Nat.le_add_right _ _
  omega

/-- The spans behind the first that starts at an offset or behind it start there too. -/
theorem dropWhile_start_eq_false (h : Tiles a ps b) :
    ∀ p ∈ ps.dropWhile (·.start < offset), decide (p.start < offset) = false := by
  refine h.dropWhile_eq_false fun p q hpq hp => ?_
  rw [decide_eq_false_iff_not] at hp ⊢
  have hp' : p.start ≤ p.stop := Nat.le_add_right _ _
  omega

theorem lt_stop_of_mem_dropWhile (h : Tiles a ps b)
    (hp : p ∈ ps.dropWhile (·.stop ≤ offset)) : offset < p.stop :=
  Nat.lt_of_not_le (of_decide_eq_false (h.dropWhile_stop_eq_false p hp))

/-- In a tiling the ends of the spans are offsets if its own end is. -/
theorem stop?_eq (h : Tiles a ps b) (hb : b ≤ Offset.max) (hp : p ∈ ps) : p.stop? = .ok p.stop :=
  Offset.add_eq_ok (Nat.le_trans (h.bounds hp).2.2 hb)

/-- A search for an offset counts the spans that stop there or before. -/
theorem countBefore_stop (h : Tiles a ps b) (hb : b ≤ Offset.max) (offset : Nat) :
    countBefore (fun p => p.stop?.map (decide <| · ≤ offset)) ps.toArray =
      .ok (ps.takeWhile (·.stop ≤ offset)).length := by
  refine countBefore_eq_takeWhile (fun p hp => ?_) h.dropWhile_stop_eq_false
  rw [h.stop?_eq hb hp]
  rfl

/-- A search by starts counts the spans that start in front of an offset. -/
theorem countBefore_start {ε : Type} (h : Tiles a ps b) (offset : Nat) :
    countBefore (ε := ε) (fun p => .ok (p.start < offset)) ps.toArray =
      .ok (ps.takeWhile (·.start < offset)).length :=
  countBefore_eq_takeWhile (fun _ _ => rfl) h.dropWhile_start_eq_false

/-- Behind the spans that stop at an offset or before stands the one in which the offset lies. -/
theorem exists_of_lt_stop (h : Tiles a ps b) (ha : a ≤ offset) (hb : offset < b) :
    ∃ p, (ps.dropWhile (·.stop ≤ offset)).head? = some p ∧ p ∈ ps ∧ p.start ≤ offset ∧
      offset < p.stop := by
  obtain ⟨m, hfront, hback⟩ := h.exists_cut (·.stop ≤ offset)
  have hm : m ≤ offset := hfront.le_of_forall ha fun q hq => by
    simpa using List.all_eq_true.mp List.all_takeWhile q hq
  cases hdrop : ps.dropWhile (·.stop ≤ offset) with
  | nil =>
      rw [hdrop] at hback
      have hend : m = b := hback
      omega
  | cons p back =>
      have hp : p ∈ ps.dropWhile (·.stop ≤ offset) := by
        rw [hdrop]
        exact List.mem_cons_self
      rw [hdrop] at hback
      refine ⟨p, rfl, (List.dropWhile_suffix _).subset hp, ?_, h.lt_stop_of_mem_dropWhile hp⟩
      rw [hback.head_start]
      exact hm

/-- All spans of a tiling stop at its end or before. -/
theorem dropWhile_stop_eq_nil (h : Tiles a ps b) (hb : b ≤ offset) :
    ps.dropWhile (·.stop ≤ offset) = [] := by
  cases hdrop : ps.dropWhile (·.stop ≤ offset) with
  | nil => rfl
  | cons p back =>
      have hp : p ∈ ps.dropWhile (·.stop ≤ offset) := by
        rw [hdrop]
        exact List.mem_cons_self
      have hbehind := h.lt_stop_of_mem_dropWhile hp
      have hbounds := h.bounds ((List.dropWhile_suffix _).subset hp)
      omega

/-- Of the spans that do not start in front of an offset only the first may start there. -/
theorem any_start (h : Tiles a ps b) (offset : Nat) :
    (ps.dropWhile (·.start < offset)).head?.any (·.start == offset) =
      ps.any (·.start == offset) := by
  obtain ⟨m, -, hback⟩ := h.exists_cut (·.start < offset)
  have hbehind (p : Span κ) (hp : p ∈ ps.dropWhile (·.start < offset)) : offset ≤ p.start :=
    Nat.le_of_not_lt (of_decide_eq_false (h.dropWhile_start_eq_false p hp))
  have hfront : (ps.takeWhile (·.start < offset)).any (·.start == offset) = false := by
    rw [List.any_eq_false]
    intro p hp
    have hlt := List.all_eq_true.mp List.all_takeWhile p hp
    simp only [decide_eq_true_eq] at hlt
    simpa using Nat.ne_of_lt hlt
  have hany : ps.any (·.start == offset) =
      (ps.dropWhile (·.start < offset)).any (·.start == offset) := by
    calc ps.any (·.start == offset)
        = (ps.takeWhile (·.start < offset) ++ ps.dropWhile (·.start < offset)).any
            (·.start == offset) := by rw [List.takeWhile_append_dropWhile]
      _ = (ps.dropWhile (·.start < offset)).any (·.start == offset) := by
          rw [List.any_append, hfront, Bool.false_or]
  rw [hany]
  generalize ps.dropWhile (·.start < offset) = back at hback hbehind
  cases back with
  | nil => rfl
  | cons p back =>
      have hp := hbehind p List.mem_cons_self
      have hrest : back.any (·.start == offset) = false := by
        rw [List.any_eq_false]
        intro q hq
        have hbounds := hback.2.2.bounds hq
        have hlength := hback.2.1
        simp only [stop] at hbounds
        simp only [beq_iff_eq]
        omega
      rw [List.head?_cons, Option.any_some, List.any_cons, hrest, Bool.or_false]

/-- Where a span starts a tiling can be cut. -/
theorem dropWhile_of_any_start (h : Tiles a ps b) (hany : ps.any (·.start == offset) = true) :
    Tiles offset (ps.dropWhile (·.start < offset)) b := by
  obtain ⟨m, -, hback⟩ := h.exists_cut (·.start < offset)
  rw [← h.any_start] at hany
  cases hdrop : ps.dropWhile (·.start < offset) with
  | nil =>
      rw [hdrop] at hany
      exact absurd hany (by simp)
  | cons p back =>
      rw [hdrop] at hany hback
      have hstart : p.start = offset := by simpa using hany
      rwa [← hback.head_start, hstart] at hback

end Tiles

end TemplateColoring.Span

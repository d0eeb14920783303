import TemplateColoring.Bytes.Step
import TemplateColoring.Proofs.Region.AtCursor

/-!
# Steps of a cursor are walks over what is ahead

What a cursor sees is what is ahead of it, and where it goes is told by the length of a walk over
that. So a loop that moves a cursor byte by byte ends where the walk over the text in front of it
ends: `stepWhile` behind the longest run of the class, `stepThrough` behind the first needle.
-/

set_option autoImplicit false

namespace TemplateColoring

/-! ## Walks, one step at a time -/

namespace Bytes

section WalkThrough

variable {step : List UInt8 → Option Nat} {close : UInt8} {s : List UInt8}

theorem walkThrough_of_step (hb : Bounded step) {k : Nat} (hs : s ≠ []) (h : step s = some k) :
    walkThrough step close s =
      ⟨k + (walkThrough step close (s.drop k)).length,
        (walkThrough step close (s.drop k)).closed⟩ := by
  simp only [walkThrough, walk_eq_add hb hs h, List.drop_drop, Nat.add_assoc]

theorem walkThrough_close (h : step (close :: s) = none) :
    walkThrough step close (close :: s) = ⟨1, true⟩ :=
  walkThrough_of_closed (u := []) (walk_eq_zero (.inr h))

theorem walkThrough_stop {b : UInt8} (h : step (b :: s) = none) (hb : b ≠ close) :
    walkThrough step close (b :: s) = ⟨0, true⟩ :=
  walkThrough_of_stopped (x := []) (walk_eq_zero (.inr h)) (by simpa using hb)

end WalkThrough

theorem through_of_not_isPrefixOf {needle s : List UInt8} (hs : s ≠ [])
    (h : needle.isPrefixOf s = false) :
    through needle s =
      ⟨charLength s + (through needle (s.drop (charLength s))).length,
        (through needle (s.drop (charLength s))).closed⟩ := by
  have hwalk : distanceTo needle s =
      charLength s + distanceTo needle (s.drop (charLength s)) :=
    walk_eq_add (bounded_searchStep needle) hs (by simp [searchStep, h])
  simp only [through, hwalk, ← List.drop_drop]
  split <;> simp only [Nat.add_assoc]

theorem through_of_isPrefixOf {needle s : List UInt8} (hs : s ≠ [])
    (h : needle.isPrefixOf s = true) : through needle s = ⟨needle.length, true⟩ := by
  have hwalk : distanceTo needle s = 0 := walk_eq_zero (.inr (by simp [searchStep, h]))
  simp only [through, hwalk, List.drop_zero, Nat.zero_add]
  rw [if_neg (by simpa using hs)]

theorem runLength_cons (p : UInt8 → Bool) (b : UInt8) (s : List UInt8) :
    runLength p (b :: s) = if p b then runLength p s + 1 else 0 := by
  simp only [runLength, List.takeWhile_cons]
  split <;> simp

theorem runLength_take_one (p : UInt8 → Bool) (s : List UInt8) :
    runLength p (s.take 1) = if s.head?.any p then 1 else 0 := by
  cases s with
  | nil => rfl
  | cons b s => rw [List.take_succ_cons, List.take_zero, runLength_cons]; rfl

theorem runLength_take_two (p : UInt8 → Bool) (s : List UInt8) :
    runLength p (s.take 2) =
      runLength p (s.take 1) + runLength p ((s.drop (runLength p (s.take 1))).take 1) := by
  cases s with
  | nil => rfl
  | cons b s =>
      have hnil : runLength p [] = 0 := rfl
      cases h : p b <;> simp [runLength_cons, h, hnil, Nat.add_comm]

end Bytes

namespace Cursor

open Bytes

variable {c c' : Cursor} {n : Nat} {b : UInt8} {s : List UInt8}

/-! ## What a cursor sees -/

theorem ahead_eq_drop (c : Cursor) : c.ahead = c.bytes.toList.drop c.position :=
  toList_extract_size c.bytes c.position

theorem within_start (bytes : Array UInt8) : (start bytes).Within := Nat.zero_le _

theorem ahead_start (s : List UInt8) : (start s.toArray).ahead = s := by
  rw [ahead_eq_drop, List.toList_toArray]
  rfl

theorem peek?_eq (c : Cursor) (n : Nat) : c.peek? n = c.ahead[n]? := by
  rw [ahead_eq_drop, List.getElem?_drop, Array.getElem?_toList]
  rfl

theorem current?_eq (c : Cursor) : c.current? = c.ahead.head? := by
  rw [current?, peek?_eq, List.head?_eq_getElem?]

theorem length_ahead (c : Cursor) : c.ahead.length = c.left := by
  rw [ahead_eq_drop, List.length_drop]
  rfl

theorem standsAt_eq (c : Cursor) (n : Nat) (needle : List UInt8) :
    c.standsAt n needle = needle.isPrefixOf (c.ahead.drop n) := by
  induction needle generalizing n with
  | nil => simp [standsAt]
  | cons b needle ih =>
      rw [standsAt, ih, peek?_eq]
      by_cases hn : n < c.ahead.length
      · rw [List.drop_eq_getElem_cons hn, List.getElem?_eq_getElem hn,
          List.isPrefixOf_cons_cons, Option.some_beq_some, BEq.comm]
      · rw [List.drop_eq_nil_of_le (Nat.le_of_not_lt hn),
          List.getElem?_eq_none (Nat.le_of_not_lt hn)]
        rfl

theorem ahead_eq_nil_iff (c : Cursor) : c.ahead = [] ↔ c.current? = none := by
  rw [current?_eq, List.head?_eq_none_iff]

/-! ## Where a cursor goes -/

theorem ahead_advance (c : Cursor) (n : Nat) : (c.advance n).ahead = c.ahead.drop n := by
  rw [ahead_eq_drop, ahead_eq_drop, List.drop_drop]
  simp only [advance, moveTo, limit]
  by_cases h : c.position + n ≤ c.bytes.size
  · rw [Nat.min_eq_left h]
  · rw [List.drop_eq_nil_of_le (by simp; omega), List.drop_eq_nil_of_le (by simp; omega)]

theorem advance_advance (c : Cursor) (m n : Nat) :
    (c.advance m).advance n = c.advance (m + n) := by
  simp only [advance, moveTo, limit]
  congr 1
  omega

theorem Within.advance_zero (h : c.Within) : c.advance 0 = c := by
  simp only [Within] at h
  simp only [advance, moveTo, Nat.add_zero, Nat.min_eq_left h]

theorem Within.position_advance (h : c.Within) (hn : n ≤ c.left) :
    (c.advance n).position = c.position + n := by
  simp only [Within, left] at h hn
  simp only [advance, moveTo]
  omega

/-- The distance to where a cursor goes, as it is computed from the two places. -/
theorem Within.sub_position_advance (h : c.Within) (hn : n ≤ c.left) :
    Offset.sub (c.advance n).position c.position = .ok n := by
  rw [h.position_advance hn, Offset.sub_eq_ok (Nat.le_add_right _ _), Nat.add_sub_cancel_left]

theorem within_of_current? (h : c.current? = some b) : c.Within := by
  have hpos := left_pos h
  simp only [left, Within] at hpos ⊢
  omega

/-- Two cursors in one document that have the same in front of them stand at the same place. -/
theorem Within.ext (h : c.Within) (h' : c'.Within) (hbytes : c.bytes = c'.bytes)
    (hleft : c.left = c'.left) : c = c' := by
  simp only [Within, left, limit] at h h' hleft
  obtain ⟨bytes, position⟩ := c
  obtain ⟨bytes', position'⟩ := c'
  simp only at hbytes
  subst hbytes
  simp only at h h' hleft
  congr 1
  omega

theorem LeadsTo.moveTo_eq (h : c.LeadsTo c') (hc : c.Within) : c.moveTo c'.position = c' :=
  (within_moveTo _ _).ext (h.within hc) h.bytes.symm <| by
    have hbounds := h.position_bounds hc
    simp only [Cursor.left, Cursor.moveTo, Cursor.limit, h.bytes] at hbounds ⊢
    omega

/-- A cursor that goes on in a document is told by where it stands. -/
theorem LeadsTo.eq_advance (h : c.LeadsTo c') (hw : c.Within) (hn : c.position + n = c'.position) :
    c' = c.advance n := by
  rw [advance, hn, h.moveTo_eq hw]

theorem Within.advanceChar_eq (h : c.Within) : c.advanceChar = c.advance (charLength c.ahead) := by
  cases hb : c.current? with
  | none =>
      rw [(ahead_eq_nil_iff c).mpr hb, charLength, h.advance_zero, advanceChar, hb]
  | some b =>
      have hlen := length_ahead c
      rw [current?_eq] at hb
      obtain ⟨s, hs⟩ := List.head?_eq_some_iff.mp hb
      have hwidth := charWidth_pos b
      rw [hs, List.length_cons] at hlen
      simp only [advanceChar, current?_eq, hs, List.head?_cons, charLength, List.length_take]
      refine (within_moveTo _ _).ext (within_advance _ _) rfl ?_
      show (c.advance _).left = (c.advance _).left
      rw [left_advance, left_advance]
      omega

/-! ## Loops -/

theorem Within.stepWhile_eq_advance (h : c.Within) (p : UInt8 → Bool) :
    c.stepWhile p = c.advance (runLength p c.ahead) := by
  fun_induction stepWhile p c with
  | case1 c b hb hp ih =>
      obtain ⟨s, hs⟩ := List.head?_eq_some_iff.mp (current?_eq c ▸ hb)
      rw [ih (within_advance _ _), advance_advance, ahead_advance, hs, List.drop_one, List.tail_cons,
        runLength_cons, if_pos hp, Nat.add_comm]
  | case2 c b hb hp =>
      obtain ⟨s, hs⟩ := List.head?_eq_some_iff.mp (current?_eq c ▸ hb)
      rw [hs, runLength_cons, if_neg hp, h.advance_zero]
  | case3 c hb =>
      rw [(ahead_eq_nil_iff c).mpr hb]
      exact h.advance_zero.symm

theorem Within.stepThrough_eq (h : c.Within) (needle : List UInt8) :
    c.stepThrough needle =
      ((through needle c.ahead).closed, c.advance (through needle c.ahead).length) := by
  fun_induction stepThrough needle c with
  | case1 c hend =>
      have hnil : c.ahead = [] := by
        rw [← List.length_eq_zero_iff, length_ahead, ← isAtEnd_iff]
        exact hend
      rw [hnil]
      exact Prod.ext rfl h.advance_zero.symm
  | case2 c hend hp =>
      obtain ⟨b, hb⟩ := exists_current? (Bool.eq_false_iff.mpr hend)
      rw [standsAt_eq, List.drop_zero] at hp
      rw [through_of_isPrefixOf (by simp [ahead_eq_nil_iff, hb]) hp]
  | case3 c hend hp ih =>
      obtain ⟨b, hb⟩ := exists_current? (Bool.eq_false_iff.mpr hend)
      rw [standsAt_eq, List.drop_zero, Bool.not_eq_true] at hp
      rw [h.advanceChar_eq] at ih ⊢
      rw [ih (within_advance _ _), ahead_advance, advance_advance,
        through_of_not_isPrefixOf (s := c.ahead) (by simp [ahead_eq_nil_iff, hb]) hp]

end Cursor

end TemplateColoring

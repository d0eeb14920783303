import TemplateColoring.Bytes.Cursor

/-!
# Stepping through a document

A reader goes through a document with a cursor: it looks at the bytes at hand, moves the cursor on
and looks again, until there is nothing left.  `LeadsTo` says that a cursor has been moved forward
only.  Every reader of this library ends because a step leaves fewer bytes in front of the cursor.
-/

set_option autoImplicit false

namespace TemplateColoring.Cursor

open Bytes

/-! ## Going forward -/

/-- The number of bytes that are left in front of the cursor. -/
def left (c : Cursor) : Nat := c.limit - c.position

/-- A cursor that is not behind the end of the document. -/
def Within (c : Cursor) : Prop := c.position ≤ c.limit

/-- The second cursor is reached from the first by going forward in the document. -/
structure LeadsTo (c c' : Cursor) : Prop where
  bytes : c'.bytes = c.bytes
  left : c'.left ≤ c.left
  within : c.Within → c'.Within

namespace LeadsTo

variable {c c' c'' : Cursor}

@[refl] theorem refl (c : Cursor) : c.LeadsTo c := ⟨rfl, Nat.le_refl _, id⟩

theorem trans (h : c.LeadsTo c') (h' : c'.LeadsTo c'') : c.LeadsTo c'' :=
  ⟨h'.bytes.trans h.bytes, Nat.le_trans h'.left h.left, h'.within ∘ h.within⟩

theorem limit (h : c.LeadsTo c') : c'.limit = c.limit := congrArg Array.size h.bytes

/-- What is reached lies between the cursor and the end of the document. -/
theorem position_bounds (h : c.LeadsTo c') (hc : c.Within) :
    c.position ≤ c'.position ∧ c'.position ≤ c.limit := by
  have hc' := h.within hc
  have hleft := h.left
  simp only [Within, Cursor.left, h.limit] at hc hc' hleft
  omega

end LeadsTo

theorem left_advance (c : Cursor) (n : Nat) : (c.advance n).left = c.left - n := by
  simp only [left, advance, moveTo, limit]
  omega

theorem within_moveTo (c : Cursor) (offset : Nat) : (c.moveTo offset).Within :=
  Nat.min_le_right _ _

theorem within_advance (c : Cursor) (n : Nat) : (c.advance n).Within := within_moveTo c _

theorem leadsTo_advance (c : Cursor) (n : Nat) : c.LeadsTo (c.advance n) where
  bytes := rfl
  left := by rw [left_advance]; exact Nat.sub_le _ _
  within _ := within_advance c n

theorem leadsTo_advanceChar (c : Cursor) : c.LeadsTo c.advanceChar := by
  unfold advanceChar
  split
  · exact leadsTo_advance c _
  · exact .refl c

/-- A cursor that is moved to where another one stands. -/
theorem LeadsTo.moveTo {c c' : Cursor} (h : c.LeadsTo c') : c.LeadsTo (c.moveTo c'.position) where
  bytes := rfl
  left := by
    have hleft := h.left
    simp only [Cursor.left, h.limit] at hleft
    simp only [Cursor.left, Cursor.moveTo, Cursor.limit] at hleft ⊢
    omega
  within _ := within_moveTo c _

/-! ## Every step makes progress -/

/-- The second cursor is reached from the first by passing at least one byte. -/
structure Passes (c c' : Cursor) : Prop extends c.LeadsTo c' where
  left_lt : c'.left < c.left

theorem Passes.then {c c' c'' : Cursor} (h : c.Passes c') (h' : c'.LeadsTo c'') : c.Passes c'' :=
  ⟨h.toLeadsTo.trans h', Nat.lt_of_le_of_lt h'.left h.left_lt⟩

theorem left_pos {c : Cursor} {b : UInt8} (h : c.current? = some b) : 0 < c.left := by
  obtain ⟨hlt, -⟩ := Array.getElem?_eq_some_iff.mp h
  simp only [left, limit]
  omega

theorem passes_advance {c : Cursor} {b : UInt8} {n : Nat} (h : c.current? = some b)
    (hn : 0 < n) : c.Passes (c.advance n) := by
  refine ⟨leadsTo_advance c n, ?_⟩
  have hpos := left_pos h
  rw [left_advance]
  omega

theorem charWidth_pos (b : UInt8) : 0 < charWidth b := by
  unfold charWidth
  repeat' split
  all_goals decide

theorem passes_advanceChar {c : Cursor} {b : UInt8} (h : c.current? = some b) :
    c.Passes c.advanceChar := by
  simp only [advanceChar, h]
  exact passes_advance h (charWidth_pos b)

theorem isAtEnd_iff {c : Cursor} : c.isAtEnd = true ↔ c.left = 0 := by
  rw [isAtEnd, decide_eq_true_iff, left, Nat.sub_eq_zero_iff_le]

theorem exists_current? {c : Cursor} (h : c.isAtEnd = false) : ∃ b, c.current? = some b := by
  have hlt : c.position < c.bytes.size := Nat.lt_of_not_le (of_decide_eq_false h)
  exact ⟨c.bytes[c.position], by simp [current?, peek?, hlt]⟩

/-! ## Passing bytes of a class -/

/-- Passes bytes as long as they are of a class. -/
def stepWhile (p : UInt8 → Bool) (c : Cursor) : Cursor :=
  match _ : c.current? with
  | some b => if p b then stepWhile p (c.advance 1) else c
  | none => c
termination_by c.left
decreasing_by exact (passes_advance ‹_› Nat.one_pos).left_lt

theorem stepWhile_eq (p : UInt8 → Bool) (c : Cursor) : c.stepWhile p =
    if c.current?.any p then (c.advance 1).stepWhile p else c := by
  rw [stepWhile]
  split <;> simp_all

theorem leadsTo_stepWhile (p : UInt8 → Bool) (c : Cursor) : c.LeadsTo (c.stepWhile p) := by
  fun_induction stepWhile p c with
  | case1 c b _ _ ih => exact (leadsTo_advance c 1).trans ih
  | case2 | case3 => exact .refl _

/-- A byte of the class at the cursor is passed. -/
theorem passes_stepWhile {p : UInt8 → Bool} {c : Cursor} {b : UInt8} (h : c.current? = some b)
    (hb : p b = true) : c.Passes (c.stepWhile p) := by
  rw [stepWhile_eq, if_pos (by simp [h, hb])]
  exact (passes_advance h Nat.one_pos).then (leadsTo_stepWhile p _)

/-! ## Passing what ends with a needle -/

/-- Goes on, character by character, until a needle is passed or the document is at its end; and
whether the needle was there. -/
def stepThrough (needle : List UInt8) (c : Cursor) : Bool × Cursor :=
  if _ : c.isAtEnd then (false, c)
  else if c.standsAt 0 needle then (true, c.advance needle.length)
  else stepThrough needle c.advanceChar
termination_by c.left
decreasing_by
  obtain ⟨b, hb⟩ := exists_current? (Bool.eq_false_iff.mpr ‹_›)
  exact (passes_advanceChar hb).left_lt

theorem leadsTo_stepThrough (needle : List UInt8) (c : Cursor) :
    c.LeadsTo (c.stepThrough needle).2 := by
  fun_induction stepThrough needle c with
  | case1 c => exact .refl c
  | case2 c => exact leadsTo_advance c _
  | case3 c _ _ ih => exact (leadsTo_advanceChar c).trans ih

end TemplateColoring.Cursor

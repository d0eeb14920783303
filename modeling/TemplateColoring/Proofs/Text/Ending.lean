import Mathlib.Algebra.Group.Nat.Even

/-!
# Runs at the end of a text

A character is escaped if a backslash stands in front of it that is not escaped itself. Read from
the front, this is a state that is carried along; read from the back, it is the parity of the run of
backslashes in front of the character. `ending` counts such a run, and `even_ending_append` lets the
one reading follow the other: what ends in an even run makes no difference to what follows it.
-/

set_option autoImplicit false

namespace TemplateColoring.Text

variable {α : Type} [DecidableEq α] {c : α} {s : List α}

/-- How many times `c` stands at the end of a text. -/
def ending (c : α) (s : List α) : Nat := (s.reverse.takeWhile (· == c)).length

theorem ending_of_not_mem (h : c ∉ s) : ending c s = 0 := by
  rw [ending, List.length_eq_zero_iff, List.eq_nil_iff_forall_not_mem]
  intro b hb
  have hall := List.all_eq_true.mp List.all_takeWhile b hb
  obtain rfl := beq_iff_eq.mp hall
  exact h (List.mem_reverse.mp ((List.takeWhile_sublist _).mem hb))

/-- A run goes on in front of a text that consists of it. -/
theorem ending_append_of_eq {r : List α} (h : ending c r = r.length) (s : List α) :
    ending c (s ++ r) = r.length + ending c s := by
  rw [ending, List.reverse_append, List.takeWhile_append, if_pos (by rwa [List.length_reverse]),
    List.length_append, List.length_reverse]
  rfl

/-- A run ends in front of anything else. -/
theorem ending_append_of_ne {r : List α} (h : ending c r ≠ r.length) (s : List α) :
    ending c (s ++ r) = ending c r := by
  rw [ending, List.reverse_append, List.takeWhile_append, if_neg (by rwa [List.length_reverse])]
  rfl

/-- **Behind an even run every run counts as if it stood alone.** -/
theorem even_ending_append (h : Even (ending c s)) (r : List α) :
    Even (ending c (s ++ r)) ↔ Even (ending c r) := by
  by_cases hr : ending c r = r.length
  · rw [ending_append_of_eq hr, hr, Nat.even_add, iff_true_right h]
  · rw [ending_append_of_ne hr]

theorem even_ending_cons {b : α} (hb : b ≠ c) (r : List α) :
    Even (ending c (b :: r)) ↔ Even (ending c r) := by
  have heven : Even (ending c [b]) := by simp [ending, hb]
  exact even_ending_append heven r

/-- An escaped character is passed together with what escapes it. -/
theorem even_ending_escaped (b : α) (r : List α) :
    Even (ending c (c :: b :: r)) ↔ Even (ending c r) := by
  have heven : Even (ending c [c, b]) := by
    by_cases hb : b = c
    · subst hb
      exact ⟨1, by simp [ending]⟩
    · simp [ending, hb]
  exact even_ending_append heven r

theorem not_even_ending_singleton (c : α) : ¬Even (ending c [c]) := by simp [ending]

end TemplateColoring.Text

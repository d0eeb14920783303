import Mathlib.Data.List.DropRight
import TemplateColoring.Text.Blank

/-!
# Texts without blanks at their ends

What is blank at an end of a text makes no difference once the text is trimmed, and a text that is
not blank keeps what stands on its far side.
-/

set_option autoImplicit false

namespace TemplateColoring.Text

variable {s x : List Char}

/-! ## The start -/

theorem trimStart_eq_nil_iff : trimStart s = [] ↔ ∀ c ∈ s, isBlank c = true :=
  List.dropWhile_eq_nil_iff

theorem trimStart_blank_append (h : ∀ c ∈ x, isBlank c = true) (s : List Char) :
    trimStart (x ++ s) = trimStart s :=
  List.dropWhile_append_of_pos h

theorem trimStart_append (h : trimStart s ≠ []) (r : List Char) :
    trimStart (s ++ r) = trimStart s ++ r := by
  have hne : ¬ (s.dropWhile isBlank).isEmpty = true := fun hnil => h (List.isEmpty_iff.mp hnil)
  rw [trimStart, List.dropWhile_append, if_neg hne]
  rfl

/-- A text is blanks and what is left without them. -/
theorem exists_trimStart (s : List Char) : ∃ x, s = x ++ trimStart s ∧ ∀ c ∈ x, isBlank c = true :=
  ⟨s.takeWhile isBlank, List.takeWhile_append_dropWhile.symm,
    List.all_eq_true.mp List.all_takeWhile⟩

/-- What is left without the blanks at the start has none there. -/
theorem trimStart_trimStart (s : List Char) : trimStart (trimStart s) = trimStart s :=
  List.dropWhile_idempotent isBlank s

/-! ## The end -/

theorem trimEnd_eq_nil_iff : trimEnd s = [] ↔ ∀ c ∈ s, isBlank c = true :=
  List.rdropWhile_eq_nil_iff

/-- A text is what is left without the blanks at its end, and those blanks. -/
theorem exists_trimEnd (s : List Char) : ∃ x, s = trimEnd s ++ x ∧ ∀ c ∈ x, isBlank c = true :=
  ⟨s.rtakeWhile isBlank, List.rdropWhile_append_rtakeWhile.symm,
    fun _ hc => List.mem_rtakeWhile_imp hc⟩

theorem trimEnd_isPrefix (s : List Char) : trimEnd s <+: s := List.rdropWhile_prefix isBlank s

theorem trimEnd_append_blank (h : ∀ c ∈ x, isBlank c = true) (s : List Char) :
    trimEnd (s ++ x) = trimEnd s := by
  have hrev : ∀ c ∈ x.reverse, isBlank c = true := fun c hc => h c (List.mem_reverse.mp hc)
  rw [trimEnd, List.reverse_append, List.dropWhile_append_of_pos hrev, trimEnd]

theorem trimEnd_append_of_ne_nil (h : trimEnd x ≠ []) (s : List Char) :
    trimEnd (s ++ x) = s ++ trimEnd x := by
  have hne : trimStart x.reverse ≠ [] := fun hnil => h (List.reverse_eq_nil_iff.mpr hnil)
  have hstart := trimStart_append hne s.reverse
  calc trimEnd (s ++ x)
      = (trimStart (x.reverse ++ s.reverse)).reverse := by rw [← List.reverse_append]; rfl
    _ = s ++ trimEnd x := by rw [hstart, List.reverse_append, List.reverse_reverse]; rfl

/-- A text that does not end in a blank is kept in front of any other. -/
theorem trimEnd_append_of_eq (h : trimEnd s = s) (x : List Char) :
    trimEnd (s ++ x) = s ++ trimEnd x := by
  by_cases hx : trimEnd x = []
  · rw [hx, trimEnd_append_blank (trimEnd_eq_nil_iff.mp hx), h, List.append_nil]
  · exact trimEnd_append_of_ne_nil hx s

/-! ## Both ends -/

theorem trim_eq_nil_iff : trim s = [] ↔ trimStart s = [] := by
  rw [trim, trimEnd_eq_nil_iff, ← trimStart_eq_nil_iff, trimStart_trimStart]

theorem trim_blank_append (h : ∀ c ∈ x, isBlank c = true) (s : List Char) :
    trim (x ++ s) = trim s := by
  rw [trim, trimStart_blank_append h, trim]

theorem trim_append_blank (h : ∀ c ∈ x, isBlank c = true) (s : List Char) :
    trim (s ++ x) = trim s := by
  by_cases hs : trimStart s = []
  · have hall : trimStart (s ++ x) = [] := by
      rw [trimStart_blank_append (trimStart_eq_nil_iff.mp hs)]
      exact trimStart_eq_nil_iff.mpr h
    rw [trim_eq_nil_iff.mpr hall, trim_eq_nil_iff.mpr hs]
  · rw [trim, trimStart_append hs, trimEnd_append_blank h, trim]

end TemplateColoring.Text

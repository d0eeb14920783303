import TemplateColoring.Proofs.Text.Blank
import TemplateColoring.Recognition.PropertyList

/-!
# Tidied lines

A text is tidied line by line: the blanks at the ends of the lines are dropped, and then the lines
that are empty. Whether a line is tidied before it is put among others or not makes no difference
to the text in full, once that is trimmed (`trim_unlines_concat`, `trim_unlines_cons`).
-/

set_option autoImplicit false

namespace TemplateColoring.Header

open Text PropertyList

/-- Lines as one text. -/
def unlines (lines : List (List Char)) : List Char := (lines.intersperse ['\n']).flatten

/-- Lines without the blanks at their ends, and without those that are blank. -/
def tidied (lines : List (List Char)) : List (List Char) :=
  (lines.map trimEnd).filter fun line => !line.isEmpty

/-- A text, tidied line by line. -/
def tidy (s : List Char) : List Char := unlines (tidied (physicalLines s))

/-- A text as it is written, but for the carriage returns in front of newlines. -/
def asWritten (s : List Char) : List Char := unlines (physicalLines s)

variable {l : List Char} {lines : List (List Char)}

/-! ## One text of lines -/

theorem unlines_singleton (l : List Char) : unlines [l] = l := List.intercalate_singleton

theorem unlines_cons (h : lines ≠ []) (l : List Char) :
    unlines (l :: lines) = l ++ '\n' :: unlines lines := by
  cases lines with
  | nil => exact absurd rfl h
  | cons l' lines =>
      calc unlines (l :: l' :: lines)
          = l ++ ['\n'] ++ unlines (l' :: lines) := List.intercalate_cons_cons
        _ = l ++ '\n' :: unlines (l' :: lines) := List.append_assoc _ _ _

/-- A text may be put behind its last line. -/
theorem unlines_concat (lines : List (List Char)) (l x : List Char) :
    unlines (lines ++ [l ++ x]) = unlines (lines ++ [l]) ++ x := by
  induction lines with
  | nil => rw [List.nil_append, List.nil_append, unlines_singleton, unlines_singleton]
  | cons l' lines ih =>
      have hne : ∀ l, lines ++ [l] ≠ [] := fun l => List.append_ne_nil_of_right_ne_nil _ (by simp)
      rw [List.cons_append, List.cons_append, unlines_cons (hne _), unlines_cons (hne _), ih,
        List.append_assoc, List.cons_append]

theorem unlines_concat_nil (h : lines ≠ []) :
    unlines (lines ++ [[]]) = unlines lines ++ ['\n'] := by
  induction lines with
  | nil => exact absurd rfl h
  | cons l lines ih =>
      cases lines with
      | nil =>
          rw [List.singleton_append, unlines_cons (List.cons_ne_nil [] []), unlines_singleton,
            unlines_singleton]
      | cons l' lines =>
          have hne : l' :: lines ≠ [] := List.cons_ne_nil l' lines
          rw [List.cons_append, unlines_cons (List.append_ne_nil_of_left_ne_nil hne _), ih hne,
            unlines_cons hne l, List.append_assoc, List.cons_append]

/-! ## Lines of a text -/

theorem linesFrom_append {line x : List Char} (hx : '\n' ∉ x) (s : List Char) :
    PropertyList.linesFrom line (x ++ s) = PropertyList.linesFrom (x.reverse ++ line) s := by
  induction x generalizing line with
  | nil => rfl
  | cons c x ih =>
      have hc : ¬ (c == '\n') = true := fun hc => hx (beq_iff_eq.mp hc ▸ List.mem_cons_self)
      rw [List.cons_append, PropertyList.linesFrom, if_neg hc,
        ih fun hmem => hx (List.mem_cons_of_mem c hmem), List.reverse_cons, List.append_assoc]
      rfl

theorem physicalLines_append (hl : '\n' ∉ l) (r : List Char) :
    physicalLines (l ++ '\n' :: r) = endedLine l.reverse :: physicalLines r := by
  rw [physicalLines, linesFrom_append hl, PropertyList.linesFrom, if_pos (by decide),
    List.append_nil, physicalLines]

theorem physicalLines_of_not_mem (hl : '\n' ∉ l) :
    physicalLines l = if l.isEmpty then [] else [l] := by
  rw [physicalLines, ← List.append_nil l, linesFrom_append hl, List.append_nil,
    PropertyList.linesFrom]
  simp

/-! ## Tidying -/

theorem tidied_append (lines lines' : List (List Char)) :
    tidied (lines ++ lines') = tidied lines ++ tidied lines' := by
  rw [tidied, List.map_append, List.filter_append]
  rfl

theorem tidied_of_blank (h : trimEnd l = []) : tidied [l] = [] := by
  simp [tidied, h]

theorem tidied_of_not_blank (h : trimEnd l ≠ []) : tidied [l] = [trimEnd l] := by
  simp [tidied, h]

/-- A carriage return at the end of a line is a blank. -/
theorem tidied_endedLine (l : List Char) : tidied [endedLine l.reverse] = tidied [l] := by
  have htrim : trimEnd (endedLine l.reverse) = trimEnd l := by
    unfold endedLine
    split
    · next s hs =>
      have hl : l = s.reverse ++ ['\r'] := by
        rw [← List.reverse_reverse l, hs, List.reverse_cons]
      rw [hl, trimEnd_append_blank (List.forall_mem_singleton.mpr rfl)]
    · rw [List.reverse_reverse]
  rw [tidied, tidied, List.map_singleton, List.map_singleton, htrim]

/-- Lines are tidied one by one. -/
theorem tidied_physicalLines_append (hl : '\n' ∉ l) (r : List Char) :
    tidied (physicalLines (l ++ '\n' :: r)) = tidied [l] ++ tidied (physicalLines r) := by
  rw [physicalLines_append hl, ← List.singleton_append, tidied_append, tidied_endedLine]

theorem tidied_physicalLines_of_not_mem (hl : '\n' ∉ l) :
    tidied (physicalLines l) = tidied [l] := by
  rw [physicalLines_of_not_mem hl]
  cases l with
  | nil => exact (tidied_of_blank rfl).symm
  | cons c l => rfl

/-- The last line may be tidied. -/
theorem trim_unlines_concat (lines : List (List Char)) (l : List Char) :
    trim (unlines (lines ++ [l])) = trim (unlines (lines ++ tidied [l])) := by
  by_cases hl : trimEnd l = []
  · -- a blank line leaves a newline and blanks at the end, unless it is the only one
    have hblank := trimEnd_eq_nil_iff.mp hl
    have hlast := unlines_concat lines [] l
    rw [List.nil_append] at hlast
    rw [tidied_of_blank hl, List.append_nil, hlast, trim_append_blank hblank]
    by_cases hlines : lines = []
    · subst hlines
      rfl
    · rw [unlines_concat_nil hlines, trim_append_blank (List.forall_mem_singleton.mpr rfl)]
  · obtain ⟨x, hx, hblank⟩ := exists_trimEnd l
    have hlast := unlines_concat lines (trimEnd l) x
    rw [← hx] at hlast
    rw [tidied_of_not_blank hl, hlast, trim_append_blank hblank]

/-- A single line is tidied once it is trimmed. -/
theorem trim_tidy (hl : '\n' ∉ l) : trim (tidy l) = trim l := by
  calc trim (tidy l)
      = trim (unlines ([] ++ tidied [l])) := by rw [tidy, tidied_physicalLines_of_not_mem hl]; rfl
    _ = trim (unlines ([] ++ [l])) := (trim_unlines_concat [] l).symm
    _ = trim l := congrArg trim (unlines_singleton l)

/-- The first line may be left out if it is blank. -/
theorem trim_unlines_cons (l : List Char) (lines : List (List Char)) :
    trim (unlines (trimEnd l :: lines)) = trim (unlines (tidied [l] ++ lines)) := by
  by_cases hl : trimEnd l = []
  · rw [tidied_of_blank hl, hl, List.nil_append]
    by_cases hlines : lines = []
    · subst hlines
      rfl
    · rw [unlines_cons hlines]
      exact trim_blank_append (List.forall_mem_singleton.mpr rfl) (unlines lines)
  · rw [tidied_of_not_blank hl]
    rfl

end TemplateColoring.Header

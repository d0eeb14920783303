import TemplateColoring.Proofs.Text.Ending
import TemplateColoring.Recognition.PropertyList

/-!
# The lines of a property list

The reader of a property list takes the lines as they are written one by one and carries the line
that is to be continued. `Logical` says without such a state which lines belong together: comments
and blank lines belong to none, and any other line starts an entry that goes on as long as its lines
end in an odd number of backslashes. It tells the lines that are read, and their numbers, completely
(`logicalLines_eq_iff`).
-/

set_option autoImplicit false

namespace TemplateColoring.PropertyList

open Text

variable {line last : List Char} {lines front rest : List (List Char)} {number : Nat}

/-! ## Lines as they are written -/

theorem isBlank_iff {c : Char} : isBlank c = true ↔ c ∈ [' ', '\t', '\x0c'] := by
  simp [isBlank, or_assoc]

theorem endedLine_of_not_mem (h : '\r' ∉ line) : endedLine line.reverse = line := by
  unfold endedLine
  split
  · next s hs =>
    have hmem : '\r' ∈ line.reverse := hs ▸ List.mem_cons_self
    exact absurd (List.mem_reverse.mp hmem) h
  · exact List.reverse_reverse line

/-- Lines behind a newline are lines of their own. -/
theorem linesFrom_newline (line x s : List Char) :
    linesFrom line (x ++ '\n' :: s) = linesFrom line (x ++ ['\n']) ++ linesFrom [] s := by
  induction x generalizing line with
  | nil => simp [linesFrom]
  | cons c x ih =>
      by_cases hc : c = '\n'
      · simp [linesFrom, hc, ih]
      · simp [linesFrom, hc, ih]

/-- What ends in a newline, or is empty, is whole lines. -/
theorem physicalLines_append_of_whole {x : List Char} (h : x = [] ∨ ∃ front, x = front ++ ['\n'])
    (s : List Char) : physicalLines (x ++ s) = physicalLines x ++ physicalLines s := by
  rcases h with rfl | ⟨front, rfl⟩
  · rfl
  · rw [List.append_assoc, List.singleton_append]
    exact linesFrom_newline [] front s

/-! ## Which lines belong together -/

/-- The next line belongs to the same entry. -/
def GoesOn (line : List Char) : Prop := continues (line.dropWhile isBlank) = true

/-- What a line gives to its entry: blanks at its start are dropped, and the backslash that
continues it. -/
def piece (line : List Char) : List Char :=
  if continues (line.dropWhile isBlank) then (line.dropWhile isBlank).dropLast
  else line.dropWhile isBlank

/-- `Logical number lines entries`: the lines, of which the first has the given number, hold these
entries, each with the number of its first line. -/
inductive Logical : Nat → List (List Char) → List (Nat × List Char) → Prop
  | nil {number : Nat} : Logical number [] []
  | skipped {number : Nat} {line : List Char} {lines : List (List Char)}
      {entries : List (Nat × List Char)} : isSkipped (line.dropWhile isBlank) = true →
      Logical (number + 1) lines entries → Logical number (line :: lines) entries
  /-- All lines of an entry but the last go on, and the last may do so at the end of the text. -/
  | entry {number : Nat} {front : List (List Char)} {last : List Char} {lines : List (List Char)}
      {entries : List (Nat × List Char)} :
      (∀ first ∈ (front ++ [last]).head?, isSkipped (first.dropWhile isBlank) = false) →
      (∀ line ∈ front, GoesOn line) → (GoesOn last → lines = []) →
      Logical (number + front.length + 1) lines entries →
      Logical number (front ++ last :: lines)
        ((number, (front ++ [last]).flatMap piece) :: entries)

/-- A line is continued if it does not end in an even number of backslashes. -/
theorem continues_eq_false_iff : continues line = false ↔ Even (ending '\\' line) := by
  rw [continues, beq_eq_false_iff_ne, ne_eq, Nat.mod_two_not_eq_one, Nat.even_iff]
  rfl

/-- What is not continued makes no difference to what follows it. -/
theorem continues_append (h : continues line = false) (r : List Char) :
    continues (line ++ r) = continues r := by
  have heven := even_ending_append (continues_eq_false_iff.mp h) r
  rw [← continues_eq_false_iff, ← continues_eq_false_iff] at heven
  rw [Bool.eq_iff_iff, ← not_iff_not, Bool.not_eq_true, Bool.not_eq_true]
  exact heven

/-! ## Reading them -/

theorem logicalFrom_skipped (h : isSkipped (line.dropWhile isBlank) = true) (number : Nat)
    (rest : List (List Char)) :
    logicalFrom number none (line :: rest) = logicalFrom (number + 1) none rest := by
  simp [logicalFrom, h]

/-- The first line of an entry is added to nothing. -/
theorem logicalFrom_first (h : isSkipped (line.dropWhile isBlank) = false) (number : Nat)
    (rest : List (List Char)) : logicalFrom number none (line :: rest) =
      logicalFrom number (some (number, [])) (line :: rest) := by
  simp [logicalFrom, h]

theorem logicalFrom_goesOn (h : GoesOn line) (number : Nat) (p : Nat × List Char)
    (rest : List (List Char)) : logicalFrom number (some p) (line :: rest) =
      logicalFrom (number + 1) (some (p.1, p.2 ++ piece line)) rest := by
  have hcontinues : continues (line.dropWhile isBlank) = true := h
  simp [logicalFrom, piece, hcontinues]

theorem logicalFrom_last (h : ¬GoesOn line) (number : Nat) (p : Nat × List Char)
    (rest : List (List Char)) : logicalFrom number (some p) (line :: rest) =
      (p.1, p.2 ++ piece line) :: logicalFrom (number + 1) none rest := by
  have hcontinues : continues (line.dropWhile isBlank) = false := Bool.eq_false_iff.mpr h
  simp [logicalFrom, piece, hcontinues]

/-- A line that is continued is read up to the first that does not go on. -/
theorem logicalFrom_pending (hfront : ∀ line ∈ front, GoesOn line) (hlast : GoesOn last → rest = [])
    (number : Nat) (p : Nat × List Char) :
    logicalFrom number (some p) (front ++ last :: rest) =
      (p.1, p.2 ++ (front ++ [last]).flatMap piece) ::
        logicalFrom (number + front.length + 1) none rest := by
  induction front generalizing number p with
  | nil =>
      rw [List.nil_append, List.nil_append, List.flatMap_singleton]
      by_cases hgoes : GoesOn last
      · rw [hlast hgoes, logicalFrom_goesOn hgoes]
        rfl
      · exact logicalFrom_last hgoes number p rest
  | cons line front ih =>
      rw [List.cons_append, logicalFrom_goesOn (hfront line List.mem_cons_self),
        ih fun l hl => hfront l (List.mem_cons_of_mem line hl)]
      simp [Nat.add_right_comm, Nat.add_assoc]

/-- Lines that are not at their end are cut behind the first that does not go on, or else behind
all of them. -/
theorem exists_front (h : lines ≠ []) : ∃ front last rest, lines = front ++ last :: rest ∧
    (∀ line ∈ front, GoesOn line) ∧ (GoesOn last → rest = []) := by
  induction lines with
  | nil => exact absurd rfl h
  | cons line lines ih =>
      by_cases hgoes : GoesOn line ∧ lines ≠ []
      · obtain ⟨front, last, rest, rfl, hfront, hlast⟩ := ih hgoes.2
        refine ⟨line :: front, last, rest, rfl, ?_, hlast⟩
        rintro l (_ | ⟨_, hl⟩)
        · exact hgoes.1
        · exact hfront l hl
      · refine ⟨[], line, lines, rfl, by simp, fun hline => ?_⟩
        exact Classical.byContradiction fun hne => hgoes ⟨hline, hne⟩

theorem logical_logicalFrom (number : Nat) (lines : List (List Char)) :
    Logical number lines (logicalFrom number none lines) := by
  induction h : lines.length using Nat.strongRecOn generalizing number lines with
  | _ n ih =>
      cases lines with
      | nil => exact .nil
      | cons line lines =>
          cases hskipped : isSkipped (line.dropWhile isBlank) with
          | true =>
              rw [logicalFrom_skipped hskipped]
              exact .skipped hskipped (ih lines.length (by simp [← h]) _ _ rfl)
          | false =>
              -- an entry starts here: its lines are cut off, and what is left is shorter
              obtain ⟨front, last, rest, hlines, hfront, hlast⟩ :=
                exists_front (List.cons_ne_nil line lines)
              have hhead : (front ++ [last]).head? = some line := by
                have hhead' := congrArg List.head? hlines
                cases front <;> exact hhead'.symm
              rw [logicalFrom_first hskipped, hlines, logicalFrom_pending hfront hlast,
                List.nil_append]
              refine .entry (by simpa [hhead] using hskipped) hfront hlast (ih rest.length ?_ _ _ rfl)
              rw [← h, hlines, List.length_append, List.length_cons]
              omega

theorem Logical.eq_logicalFrom {entries : List (Nat × List Char)}
    (h : Logical number lines entries) : entries = logicalFrom number none lines := by
  induction h with
  | nil => rfl
  | skipped hskipped _ ih => rw [logicalFrom_skipped hskipped, ih]
  | @entry number front last lines entries hfirst hfront hlast _ ih =>
      obtain ⟨line, rest, hlines⟩ : ∃ line rest, front ++ last :: lines = line :: rest :=
        List.exists_cons_of_ne_nil (by simp)
      have hhead : (front ++ [last]).head? = some line := by
        have hhead' := congrArg List.head? hlines
        cases front <;> exact hhead'
      have hskipped := hfirst line hhead
      -- the entry is read as one that is pending with nothing in it
      have hread := logicalFrom_pending hfront hlast number (number, [])
      rw [hlines] at hread ⊢
      rw [logicalFrom_first hskipped, hread, ← ih, List.nil_append]

/-- **What is read is what belongs together**, in one way only, and with the numbers of the lines as
they are written. -/
theorem logicalLines_eq_iff {s : List Char} {entries : List (Nat × List Char)} :
    Logical 1 (physicalLines s) entries ↔ entries = logicalLines s := by
  constructor
  · exact Logical.eq_logicalFrom
  · rintro rfl
    exact logical_logicalFrom 1 (physicalLines s)

end TemplateColoring.PropertyList

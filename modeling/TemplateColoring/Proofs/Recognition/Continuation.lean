import TemplateColoring.Proofs.Recognition.Lines
import TemplateColoring.Proofs.Recognition.Tidy

/-!
# Continued lines

A line of a property list that starts an entry may be broken in two with a backslash, anywhere but
behind a backslash that escapes something, and the second part may be indented. Nothing is read
differently: the property list is the same, or it is malformed in both cases (`parse_continued`).

The lines in front of the broken one are read as before, and none of them is continued by it
(`exists_entries_of_starts`). It is put together again from its parts (`Breakable.piece_append`),
and behind it only the numbers of the lines have changed, which no property depends on
(`addLines_eq_ok_iff`).
-/

set_option autoImplicit false

namespace TemplateColoring.PropertyList

open Text Header

variable {a b blanks post pre : List Char} {lines rest : List (List Char)} {number : Nat}
  {pending : Option (Nat × List Char)}

/-- A line `a ++ b` that may be broken behind `a`. -/
structure Breakable (a b : List Char) : Prop where
  /-- The line is neither blank nor a comment, and the first part shows it. -/
  first : ∃ c, (a.dropWhile isBlank).head? = some c ∧ c ∉ ['#', '!']
  /-- No backslash at the end of the first part escapes what follows. -/
  even : Even (ending '\\' a)
  /-- Blanks at the start of the second part would be dropped. -/
  unindented : b.head?.any isBlank = false
  one_line : '\n' ∉ a ++ b ∧ '\r' ∉ a ++ b

/-! ## The two parts of a line -/

theorem dropWhile_blanks (hblanks : ∀ c ∈ blanks, isBlank c = true)
    (h : Breakable a b) : (blanks ++ b).dropWhile isBlank = b := by
  rw [List.dropWhile_append_of_pos hblanks]
  cases b with
  | nil => rfl
  | cons c b =>
      have hc : isBlank c = false := h.unindented
      exact List.dropWhile_cons_of_neg (Bool.eq_false_iff.mp hc)

namespace Breakable

theorem dropWhile_ne_nil (h : Breakable a b) : a.dropWhile isBlank ≠ [] := by
  obtain ⟨c, hc, -⟩ := h.first
  intro hnil
  rw [hnil] at hc
  exact absurd hc (by simp)

/-- The line starts with its first part. -/
theorem dropWhile_append (h : Breakable a b) (r : List Char) :
    (a ++ r).dropWhile isBlank = a.dropWhile isBlank ++ r := by
  rw [List.dropWhile_append, if_neg (by simpa using h.dropWhile_ne_nil)]

theorem isSkipped_append (h : Breakable a b) (r : List Char) :
    isSkipped ((a ++ r).dropWhile isBlank) = false := by
  obtain ⟨c, hc, hmark⟩ := h.first
  obtain ⟨s, hs⟩ := List.head?_eq_some_iff.mp hc
  rw [h.dropWhile_append, hs]
  simpa [isSkipped] using hmark

/-- Its first part does not go on by itself; the blanks at its start do not count for that. -/
theorem continues_dropWhile (h : Breakable a b) : continues (a.dropWhile isBlank) = false := by
  have hblanks : '\\' ∉ a.takeWhile isBlank := by
    intro hmem
    have hblank := List.all_eq_true.mp List.all_takeWhile _ hmem
    exact absurd hblank (by decide)
  have hzero : Even (ending '\\' (a.takeWhile isBlank)) := by
    rw [ending_of_not_mem hblanks]
    exact Even.zero
  have heven := h.even
  rw [← List.takeWhile_append_dropWhile (p := isBlank) (l := a)] at heven
  exact continues_eq_false_iff.mpr ((even_ending_append hzero _).mp heven)

/-- **The line goes on as its second part does.** -/
theorem goesOn_iff (h : Breakable a b) (hblanks : ∀ c ∈ blanks, isBlank c = true) :
    GoesOn (a ++ b) ↔ GoesOn (blanks ++ b) := by
  rw [GoesOn, GoesOn, h.dropWhile_append, continues_append h.continues_dropWhile,
    dropWhile_blanks hblanks h]

/-- **It gives to its entry what its parts give.** -/
theorem piece_append (h : Breakable a b) (hblanks : ∀ c ∈ blanks, isBlank c = true) :
    piece (a ++ b) = a.dropWhile isBlank ++ piece (blanks ++ b) := by
  rw [piece, piece, h.dropWhile_append, continues_append h.continues_dropWhile,
    dropWhile_blanks hblanks h]
  split
  · next hcontinues =>
    have hne : b ≠ [] := by
      rintro rfl
      exact absurd hcontinues (by decide)
    rw [List.dropLast_append_of_ne_nil hne]
  · rfl

theorem goesOn_backslash (h : Breakable a b) : GoesOn (a ++ ['\\']) := by
  rw [GoesOn, h.dropWhile_append, continues_append h.continues_dropWhile]
  decide

theorem piece_backslash (h : Breakable a b) : piece (a ++ ['\\']) = a.dropWhile isBlank := by
  have hgoes : continues ((a ++ ['\\']).dropWhile isBlank) = true := h.goesOn_backslash
  rw [piece, if_pos hgoes, h.dropWhile_append, List.dropLast_concat]

end Breakable

/-! ## The lines behind it -/

/-- What may stand behind a line: nothing, or a newline, with a carriage return in front or
without. -/
def EndsLine (post : List Char) : Prop :=
  post = [] ∨ ∃ r, post = '\n' :: r ∨ post = '\r' :: '\n' :: r

/-- What stands behind a line are the same lines whatever the line is. A last line is none if it is
empty. -/
theorem exists_lines (hpost : EndsLine post) : ∃ rest, ∀ l : List Char, '\n' ∉ l ∧ '\r' ∉ l →
    physicalLines (l ++ post) = l :: rest ∨
      l = [] ∧ rest = [] ∧ physicalLines (l ++ post) = [] := by
  obtain rfl | ⟨r, rfl | rfl⟩ := hpost
  · refine ⟨[], fun l hl => ?_⟩
    rw [List.append_nil, physicalLines_of_not_mem hl.1]
    cases l with
    | nil => exact .inr ⟨rfl, rfl, rfl⟩
    | cons c l => exact .inl rfl
  · refine ⟨physicalLines r, fun l hl => .inl ?_⟩
    rw [physicalLines_append hl.1, endedLine_of_not_mem hl.2]
  · refine ⟨physicalLines r, fun l hl => .inl ?_⟩
    have hnewline : '\n' ∉ l ++ ['\r'] := by simpa using hl.1
    calc physicalLines (l ++ '\r' :: '\n' :: r)
        = physicalLines ((l ++ ['\r']) ++ '\n' :: r) := by simp
      _ = endedLine (l ++ ['\r']).reverse :: physicalLines r := physicalLines_append hnewline r
      _ = l :: physicalLines r := by simp [endedLine]

/-! ## One line after the other -/

/-- What a line gives to the entries, and the entry that it leaves to be continued. Both have the
number of the line that is continued, or else that of the line itself. -/
def readLine (number : Nat) (pending : Option (Nat × List Char)) (line : List Char) :
    List (Nat × List Char) × Option (Nat × List Char) :=
  let entry := ((pending.map Prod.fst).getD number, (pending.map Prod.snd).getD [] ++ piece line)
  if pending.isNone && isSkipped (line.dropWhile isBlank) then ([], none)
  else if continues (line.dropWhile isBlank) then ([], some entry)
  else ([entry], none)

/-- **Lines are read one after the other**, and a line says what is done with it. -/
theorem logicalFrom_cons (number : Nat) (pending : Option (Nat × List Char)) (line : List Char)
    (rest : List (List Char)) : logicalFrom number pending (line :: rest) =
      (readLine number pending line).1 ++
        logicalFrom (number + 1) (readLine number pending line).2 rest := by
  cases pending with
  | none =>
      cases hskipped : isSkipped (line.dropWhile isBlank) with
      | true => simp [readLine, logicalFrom_skipped hskipped, hskipped]
      | false =>
          rw [logicalFrom_first hskipped]
          by_cases hgoes : continues (line.dropWhile isBlank) = true
          · rw [logicalFrom_goesOn hgoes]
            simp [readLine, hskipped, hgoes]
          · rw [logicalFrom_last hgoes]
            simp [readLine, hskipped, hgoes]
  | some p =>
      by_cases hgoes : continues (line.dropWhile isBlank) = true
      · rw [logicalFrom_goesOn hgoes]
        simp [readLine, hgoes]
      · rw [logicalFrom_last hgoes]
        simp [readLine, hgoes]

theorem number_of_readLine {line : List Char} {e : Nat × List Char}
    (he : e ∈ (readLine number pending line).1 ++ (readLine number pending line).2.toList) :
    e.1 = (pending.map Prod.fst).getD number := by
  unfold readLine at he
  split at he
  · exact absurd he (by simp)
  · split at he
    · rw [List.mem_singleton.mp he]
    · rw [List.mem_singleton.mp he]

/-- The texts do not depend on the numbers. -/
theorem text_of_readLine {number' : Nat} {pending' : Option (Nat × List Char)}
    (h : pending.map Prod.snd = pending'.map Prod.snd) (line : List Char) :
    (readLine number pending line).1.map Prod.snd = (readLine number' pending' line).1.map Prod.snd ∧
      (readLine number pending line).2.map Prod.snd =
        (readLine number' pending' line).2.map Prod.snd := by
  have hnone : pending.isNone = pending'.isNone := by
    have hmap := congrArg Option.isNone h
    rwa [Option.isNone_map, Option.isNone_map] at hmap
  unfold readLine
  rw [h, hnone]
  split
  · exact ⟨rfl, rfl⟩
  · split
    · exact ⟨rfl, rfl⟩
    · exact ⟨rfl, rfl⟩

theorem map_snd_logicalFrom {number' : Nat} {pending' : Option (Nat × List Char)}
    (h : pending.map Prod.snd = pending'.map Prod.snd) (lines : List (List Char)) :
    (logicalFrom number pending lines).map Prod.snd =
      (logicalFrom number' pending' lines).map Prod.snd := by
  induction lines generalizing number number' pending pending' with
  | nil => rw [logicalFrom, logicalFrom, ← Option.toList_map, h, Option.toList_map]
  | cons line lines ih =>
      obtain ⟨hentries, hpending⟩ := text_of_readLine h line
      rw [logicalFrom_cons, logicalFrom_cons, List.map_append, List.map_append, hentries,
        ih hpending]

/-- **What is read depends on the texts only**, but for the line of an error. -/
theorem addLines_eq_ok_iff (p q : PropertyList) (entries : List (Nat × List Char)) :
    p.addLines entries = .ok q ↔
      (entries.map Prod.snd).foldlM
        (fun p line => entry? line |>.map fun e => p.insert e.1 e.2) p = some q := by
  induction entries generalizing p with
  | nil => simp [addLines]
  | cons e entries ih =>
      obtain ⟨number, line⟩ := e
      rw [addLines, List.map_cons, List.foldlM_cons]
      cases entry? line with
      | none => simp
      | some e => exact ih (p.insert e.1 e.2)

/-! ## The lines in front of it -/

/-- **Lines give entries that start on one of them**, but for one that they continue. -/
theorem exists_entries (number : Nat) (pending : Option (Nat × List Char))
    (lines : List (List Char)) : ∃ entries pending', (∀ e ∈ entries ++ pending'.toList,
        (∃ p ∈ pending, e.1 = p.1) ∨ number ≤ e.1 ∧ e.1 < number + lines.length) ∧
      ∀ rest, logicalFrom number pending (lines ++ rest) =
        entries ++ logicalFrom (number + lines.length) pending' rest := by
  induction lines generalizing number pending with
  | nil =>
      refine ⟨[], pending, fun e he => .inl ⟨e, ?_, rfl⟩, fun rest => rfl⟩
      exact Option.mem_toList.mp he
  | cons line lines ih =>
      obtain ⟨entries, pending', hnumbers, hread⟩ := ih (number + 1) (readLine number pending line).2
      have hfirst : ∀ e ∈ (readLine number pending line).1 ++
          (readLine number pending line).2.toList, (∃ p ∈ pending, e.1 = p.1) ∨
            number ≤ e.1 ∧ e.1 < number + (line :: lines).length := by
        intro e he
        rw [number_of_readLine he, List.length_cons]
        cases pending with
        | none => exact .inr (by simp)
        | some p => exact .inl ⟨p, rfl, rfl⟩
      refine ⟨(readLine number pending line).1 ++ entries, pending', fun e he => ?_, fun rest => ?_⟩
      · rw [List.append_assoc] at he
        rcases List.mem_append.mp he with he | he
        · exact hfirst e (List.mem_append_left _ he)
        · -- what the lines behind it continue is an entry of the line
          rcases hnumbers e he with ⟨p, hp, hep⟩ | hbound
          · rw [hep]
            exact hfirst p (List.mem_append_right _ (Option.mem_toList.mpr hp))
          · rw [List.length_cons]
            omega
      · rw [List.cons_append, logicalFrom_cons, hread, List.append_assoc, List.length_cons,
          Nat.add_assoc, Nat.add_comm 1]

/-- **Where an entry starts, no line is continued.** -/
theorem exists_entries_of_starts {front : List (List Char)} {line : List Char}
    (hstart : front.length + 1 ∈ (logicalFrom 1 none (front ++ line :: rest)).map Prod.fst) :
    ∃ entries, ∀ rest, logicalFrom 1 none (front ++ rest) =
      entries ++ logicalFrom (front.length + 1) none rest := by
  obtain ⟨entries, pending, hnumbers, hread⟩ := exists_entries 1 none front
  rw [Nat.add_comm 1] at hread
  have hbefore : ∀ e ∈ entries ++ pending.toList, e.1 ≠ front.length + 1 := by
    intro e he
    rcases hnumbers e he with ⟨p, hp, -⟩ | hbound
    · exact absurd hp (by simp)
    · omega
  cases hpending : pending with
  | none => exact ⟨entries, by rwa [hpending] at hread⟩
  | some p =>
      -- the line would go on with an entry of the lines in front of it
      have hp : p.1 ≠ front.length + 1 := hbefore p (by simp [hpending])
      have hline : ∀ e ∈ (readLine (front.length + 1) pending line).1 ++
          (readLine (front.length + 1) pending line).2.toList, e.1 ≠ front.length + 1 := by
        intro e he
        rw [number_of_readLine he, hpending]
        exact hp
      obtain ⟨entries', pending', hnumbers', hread'⟩ := exists_entries (front.length + 1 + 1)
        (readLine (front.length + 1) pending line).2 rest
      have hlast := hread' []
      rw [List.append_nil] at hlast
      rw [hread, logicalFrom_cons, hlast] at hstart
      obtain ⟨e, he, hnumber⟩ := List.mem_map.mp hstart
      have hne : e.1 ≠ front.length + 1 := by
        rcases List.mem_append.mp he with he | he
        · exact hbefore e (List.mem_append_left _ he)
        rcases List.mem_append.mp he with he | he
        · exact hline e (List.mem_append_left _ he)
        rcases hnumbers' e he with ⟨q, hq, heq⟩ | hbound
        · rw [heq]
          exact hline q (List.mem_append_right _ (Option.mem_toList.mpr hq))
        · omega
      exact absurd hnumber hne

/-! ## Breaking a line -/

/-- **A line and its two parts are read alike.** -/
theorem map_snd_logicalFrom_continued (h : Breakable a b)
    (hblanks : ∀ c ∈ blanks, isBlank c = true) (hlines : lines = (blanks ++ b) :: rest ∨
      blanks ++ b = [] ∧ rest = [] ∧ lines = []) (number : Nat) :
    (logicalFrom number none ((a ++ ['\\']) :: lines)).map Prod.snd =
      (logicalFrom number none ((a ++ b) :: rest)).map Prod.snd := by
  rw [logicalFrom_first (h.isSkipped_append ['\\']), logicalFrom_goesOn h.goesOn_backslash,
    h.piece_backslash, logicalFrom_first (h.isSkipped_append b)]
  obtain rfl | ⟨hnil, rfl, rfl⟩ := hlines
  · by_cases hgoes : GoesOn (a ++ b)
    · rw [logicalFrom_goesOn ((h.goesOn_iff hblanks).mp hgoes), logicalFrom_goesOn hgoes,
        h.piece_append hblanks]
      exact map_snd_logicalFrom (by simp) rest
    · rw [logicalFrom_last (mt (h.goesOn_iff hblanks).mpr hgoes), logicalFrom_last hgoes,
        h.piece_append hblanks, List.map_cons, List.map_cons]
      exact congrArg₂ List.cons (by simp) (map_snd_logicalFrom rfl rest)
  · -- the second part is nothing at all, and no line
    obtain ⟨rfl, rfl⟩ := List.append_eq_nil_iff.mp hnil
    have hgoes : ¬GoesOn (a ++ []) := mt (h.goesOn_iff hblanks).mp (by simp [GoesOn, continues])
    rw [logicalFrom_last hgoes, h.piece_append hblanks]
    simp [logicalFrom, piece, continues]

/-- Neither part of the line holds the end of one. -/
theorem Breakable.not_mem_parts (h : Breakable a b) (hblanks : ∀ c ∈ blanks, isBlank c = true) :
    ('\n' ∉ a ++ ['\\'] ∧ '\r' ∉ a ++ ['\\']) ∧ '\n' ∉ blanks ++ b ∧ '\r' ∉ blanks ++ b := by
  have hnot : ∀ c, c ∉ a ++ b → c ≠ '\\' → isBlank c = false →
      c ∉ a ++ ['\\'] ∧ c ∉ blanks ++ b := by
    intro c hc hbackslash hblank
    have hb : c ∉ blanks := fun hmem => by
      rw [hblanks c hmem] at hblank
      exact absurd hblank (by decide)
    rw [List.mem_append, not_or] at hc
    simp [hc.1, hc.2, hb, hbackslash]
  have hnewline := hnot '\n' h.one_line.1 (by decide) (by decide)
  have hreturn := hnot '\r' h.one_line.2 (by decide) (by decide)
  exact ⟨⟨hnewline.1, hreturn.1⟩, hnewline.2, hreturn.2⟩

/-- The lines of a text in which a line is broken. -/
theorem exists_lines_continued (hpre : pre = [] ∨ ∃ front, pre = front ++ ['\n'])
    (h : Breakable a b) (hpost : EndsLine post) (hblanks : ∀ c ∈ blanks, isBlank c = true) :
    ∃ rest lines, physicalLines (pre ++ (a ++ b) ++ post) =
        physicalLines pre ++ (a ++ b) :: rest ∧
      physicalLines (pre ++ (a ++ '\\' :: '\n' :: (blanks ++ b)) ++ post) =
        physicalLines pre ++ (a ++ ['\\']) :: lines ∧
      (lines = (blanks ++ b) :: rest ∨ blanks ++ b = [] ∧ rest = [] ∧ lines = []) := by
  obtain ⟨hfirst, hsecond⟩ := h.not_mem_parts hblanks
  have hne : a ++ b ≠ [] := List.append_ne_nil_of_left_ne_nil
    (fun ha => h.dropWhile_ne_nil (by rw [ha]; rfl)) b
  obtain ⟨rest, hrest⟩ := exists_lines hpost
  refine ⟨rest, physicalLines ((blanks ++ b) ++ post), ?_, ?_, hrest _ hsecond⟩
  · rw [List.append_assoc, physicalLines_append_of_whole hpre,
      (hrest (a ++ b) h.one_line).resolve_right fun hnil => hne hnil.1]
  · have htext : a ++ '\\' :: '\n' :: (blanks ++ b) ++ post =
        (a ++ ['\\']) ++ '\n' :: ((blanks ++ b) ++ post) := by simp
    rw [List.append_assoc, physicalLines_append_of_whole hpre, htext,
      physicalLines_append hfirst.1, endedLine_of_not_mem hfirst.2]

/-- **Continued lines are read as one.** A line on which an entry starts may be broken where no
backslash escapes what follows: if one of the two texts is a property list, so is the other, and it
is the same. -/
theorem parse_continued (hpre : pre = [] ∨ ∃ front, pre = front ++ ['\n']) (h : Breakable a b)
    (hpost : EndsLine post) (hblanks : ∀ c ∈ blanks, isBlank c = true)
    (hstart : (physicalLines pre).length + 1 ∈
      (logicalLines (pre ++ (a ++ b) ++ post)).map Prod.fst) (p : PropertyList) :
    parse (pre ++ (a ++ '\\' :: '\n' :: (blanks ++ b)) ++ post) = .ok p ↔
      parse (pre ++ (a ++ b) ++ post) = .ok p := by
  obtain ⟨rest, lines, hwhole, hbroken, hlines⟩ := exists_lines_continued hpre h hpost hblanks
  rw [logicalLines, hwhole] at hstart
  obtain ⟨entries, hread⟩ := exists_entries_of_starts hstart
  -- the two texts give the same entries, but for their numbers
  rw [parse, parse, addLines_eq_ok_iff, addLines_eq_ok_iff, logicalLines, logicalLines, hwhole,
    hbroken, hread, hread, List.map_append, List.map_append,
    map_snd_logicalFrom_continued h hblanks hlines]

/-- An entry may be broken in an escape. Here it stands behind a comment that looks as if it were
continued, and its second part goes on with the next line. -/
theorem parse_continued_escape :
    parse ("#c\\\n".toList ++ ("k=\\u00".toList ++ '\\' :: '\n' :: ([' '] ++ "41\\".toList)) ++
        "\r\nd=1".toList) = .ok ⟨[("k".toList, "Ad=1".toList)]⟩ :=
  (parse_continued (.inr ⟨"#c\\".toList, rfl⟩)
    ⟨⟨'k', by decide, by decide⟩, by decide, by decide, by decide⟩ (.inr ⟨"d=1".toList, .inr rfl⟩)
    (List.forall_mem_singleton.mpr rfl) (by decide) _).mpr (by decide)

end TemplateColoring.PropertyList

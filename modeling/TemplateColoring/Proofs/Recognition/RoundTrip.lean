import Mathlib.Data.List.Dedup
import TemplateColoring.Proofs.Recognition.Lines
import TemplateColoring.Proofs.Recognition.Tidy

/-!
# Written property lists

Entries may be written one on a line, `key=value`, with a backslash in front of every character that
would be taken for something else. Whatever the keys and the values are, and whatever blank lines
and comments stand among the entries, reading the document gives the entries back
(`parse_document`).

A text and what is written for it are related character by character (`Writes`). What each pass of
the reader makes of a written text is told by induction on that: no line of it ends in an odd number
of backslashes, no separator in it ends the key, and its escapes stand for the text.
-/

set_option autoImplicit false

namespace TemplateColoring.PropertyList

open Text

variable {c x : Char} {s l r key value k v : List Char}

/-! ## Writing -/

/-- The characters that get a backslash in front and stay as they are. -/
def specials : List Char := ['\\', '=', ':', ' ', '#', '!']

/-- A character of a key or of a value, as it is written. -/
def escapeChar (c : Char) : List Char :=
  match c with
  | '\t' => ['\\', 't']
  | '\n' => ['\\', 'n']
  | '\r' => ['\\', 'r']
  | '\x0c' => ['\\', 'f']
  | c => if c ∈ specials then ['\\', c] else [c]

/-- A key or a value, as it is written. -/
def escape (s : List Char) : List Char := s.flatMap escapeChar

/-- A line of a document: an entry, or one that holds none. -/
inductive Line where
  | entry (key value : List Char)
  | blank (blanks : List Char) (hblanks : ∀ c ∈ blanks, c ∈ [' ', '\t', '\x0c'])
  | comment (blanks : List Char) (hblanks : ∀ c ∈ blanks, c ∈ [' ', '\t', '\x0c'])
      (mark : Char) (hmark : mark ∈ ['#', '!']) (text : List Char) (htext : '\n' ∉ text)

/-- A line as it is written. -/
def Line.written : Line → List Char
  | .entry key value => escape key ++ '=' :: escape value
  | .blank blanks _ => blanks
  | .comment blanks _ mark _ text _ => blanks ++ mark :: text

/-- The entries that a line holds. -/
def Line.entries : Line → List (List Char × List Char)
  | .entry key value => [(key, value)]
  | .blank _ _ => []
  | .comment _ _ _ _ _ _ => []

/-- The entries of lines, in their order. -/
def entriesOf (lines : List Line) : List (List Char × List Char) := lines.flatMap Line.entries

/-- Lines as one text, with newlines between them. -/
def document (lines : List Line) : List Char := Header.unlines (lines.map Line.written)

/-- The value of the last of some entries that has a key. -/
def lastValue? (entries : List (List Char × List Char)) (key : List Char) : Option (List Char) :=
  entries.reverse.lookup key

/-! ## Written texts -/

/-- A character that is read as itself wherever it stands in an entry. -/
structure IsPlain (c : Char) : Prop where
  not_special : c ∉ specials
  not_blank : isBlank c = false
  ne_newline : c ≠ '\n'
  ne_return : c ≠ '\r'

/-- A character that may stand behind a backslash: it starts no hexadecimal escape and ends no
line. -/
structure IsEscapable (c : Char) : Prop where
  ne_u : c ≠ 'u'
  ne_newline : c ≠ '\n'
  ne_return : c ≠ '\r'

/-- `Writes l s`: in `l` there is, for each character of `s`, that character or a backslash and one
that stands for it. -/
inductive Writes : List Char → List Char → Prop
  | nil : Writes [] []
  | plain {c : Char} {l s : List Char} (hc : IsPlain c) (h : Writes l s) : Writes (c :: l) (c :: s)
  | escaped {x : Char} {l s : List Char} (hx : IsEscapable x) (h : Writes l s) :
      Writes ('\\' :: x :: l) (unescapeChar x :: s)

theorem IsPlain.ne_of_special (h : IsPlain c) (hx : x ∈ specials) : c ≠ x :=
  fun heq => h.not_special (heq ▸ hx)

theorem escapable_of_special (hc : c ∈ specials) : unescapeChar c = c ∧ IsEscapable c := by
  simp only [specials, List.mem_cons, List.not_mem_nil, or_false] at hc
  rcases hc with rfl | rfl | rfl | rfl | rfl | rfl <;>
    exact ⟨rfl, by decide, by decide, by decide⟩

theorem writes_escapeChar (h : Writes l s) (c : Char) : Writes (escapeChar c ++ l) (c :: s) := by
  unfold escapeChar
  split
  · exact .escaped (x := 't') ⟨by decide, by decide, by decide⟩ h
  · exact .escaped (x := 'n') ⟨by decide, by decide, by decide⟩ h
  · exact .escaped (x := 'r') ⟨by decide, by decide, by decide⟩ h
  · exact .escaped (x := 'f') ⟨by decide, by decide, by decide⟩ h
  · next htab hnewline hreturn hfeed =>
    by_cases hc : c ∈ specials
    · obtain ⟨hself, hx⟩ := escapable_of_special hc
      rw [if_pos hc]
      have hwrites := Writes.escaped hx h
      rw [hself] at hwrites
      exact hwrites
    · have hspace : c ≠ ' ' := fun hspace => hc (hspace ▸ by decide)
      have hblank : isBlank c = false := by
        simp only [isBlank, Bool.or_eq_false_iff, beq_eq_false_iff_ne]
        exact ⟨⟨hspace, htab⟩, hfeed⟩
      rw [if_neg hc]
      exact .plain ⟨hc, hblank, hnewline, hreturn⟩ h

/-- **Every text can be written.** -/
theorem writes_escape (s : List Char) : Writes (escape s) s := by
  induction s with
  | nil => exact .nil
  | cons c s ih =>
      rw [escape, List.flatMap_cons]
      exact writes_escapeChar ih c

/-! ## Passes over a written text -/

/-- A written text ends no line. -/
theorem Writes.not_mem (h : Writes l s) : '\n' ∉ l ∧ '\r' ∉ l := by
  induction h with
  | nil => exact ⟨List.not_mem_nil, List.not_mem_nil⟩
  | plain hc _ ih =>
      exact ⟨List.not_mem_cons_of_ne_of_not_mem hc.ne_newline.symm ih.1,
        List.not_mem_cons_of_ne_of_not_mem hc.ne_return.symm ih.2⟩
  | escaped hx _ ih =>
      exact ⟨List.not_mem_cons_of_ne_of_not_mem (by decide)
          (List.not_mem_cons_of_ne_of_not_mem hx.ne_newline.symm ih.1),
        List.not_mem_cons_of_ne_of_not_mem (by decide)
          (List.not_mem_cons_of_ne_of_not_mem hx.ne_return.symm ih.2)⟩

/-- A written text does not continue a line. -/
theorem Writes.continues_eq_false (h : Writes l s) : continues l = false := by
  rw [continues_eq_false_iff]
  induction h with
  | nil => decide
  | plain hc _ ih => exact (even_ending_cons (hc.ne_of_special (by decide)) _).mpr ih
  | escaped _ _ ih => exact (even_ending_escaped _ _).mpr ih

/-- A written text starts with no blank. -/
theorem Writes.dropWhile_append (h : Writes l s) (hr : r.dropWhile isBlank = r) :
    (l ++ r).dropWhile isBlank = l ++ r := by
  cases h with
  | nil => exact hr
  | plain hc _ => simp [hc.not_blank]
  | escaped _ _ => simp [isBlank]

/-- A written text starts with no mark of a comment. -/
theorem Writes.isSkipped_append (h : Writes l s) (hr : isSkipped r = false) :
    isSkipped (l ++ r) = false := by
  cases h with
  | nil => exact hr
  | @plain c _ _ hc _ =>
      have hmark : c ≠ '#' ∧ c ≠ '!' :=
        ⟨hc.ne_of_special (by decide), hc.ne_of_special (by decide)⟩
      simp [isSkipped, hmark]
  | escaped _ _ => simp [isSkipped]

/-- No separator in a written text ends the key. -/
theorem Writes.splitKey_append (h : Writes l s) (r : List Char) :
    splitKey (l ++ '=' :: r) = (l, '=' :: r) := by
  induction h with
  | nil => simp [splitKey]
  | @plain c l s hc _ ih =>
      have hne : c ≠ '\\' ∧ c ≠ '=' ∧ c ≠ ':' :=
        ⟨hc.ne_of_special (by decide), hc.ne_of_special (by decide), hc.ne_of_special (by decide)⟩
      simp [splitKey, hne, hc.not_blank, ih]
  | @escaped x l s _ _ ih => simp [splitKey, ih]

/-- The escapes in a written text stand for the text. -/
theorem Writes.unescape_eq (h : Writes l s) : unescape l = some s := by
  induction h with
  | nil => rfl
  | @plain c l s hc _ ih =>
      have hne : c ≠ '\\' := hc.ne_of_special (by decide)
      simp [unescape, hne, ih]
  | @escaped x l s hx _ ih => simp [unescape, hx.ne_u, ih]

/-- **A written entry is read back.** -/
theorem entry?_written (hk : Writes k key) (hv : Writes v value) :
    entry? (k ++ '=' :: v) = some (key, value) := by
  have hraw : rawValue ('=' :: v) = v := by
    have hdrop := hv.dropWhile_append (r := []) rfl
    rw [List.append_nil] at hdrop
    simp [rawValue, isBlank, hdrop]
  simp [hk.splitKey_append, entry?, hraw, hk.unescape_eq, hv.unescape_eq]

/-! ## Lines -/

/-- The end of a line is behind all characters that are no carriage returns. -/
theorem exists_endedLine (hc : c ≠ '\r') (s text : List Char) :
    ∃ text', endedLine (s ++ c :: text).reverse = s ++ c :: text' := by
  unfold endedLine
  split
  · next t ht =>
    have hline : s ++ c :: text = t.reverse ++ ['\r'] := by
      rw [← List.reverse_reverse (s ++ c :: text), ht, List.reverse_cons]
    rcases text.eq_nil_or_concat with rfl | ⟨text, x, rfl⟩
    · exact absurd (List.append_inj' hline rfl).2 (by simpa using hc)
    · rw [List.concat_eq_append, ← List.cons_append, ← List.append_assoc] at hline
      exact ⟨text, (List.append_inj' hline rfl).1.symm⟩
  · exact ⟨text, List.reverse_reverse _⟩

theorem Line.newline_not_mem (line : Line) : '\n' ∉ line.written := by
  cases line with
  | entry key value =>
      simp only [Line.written, List.mem_append, List.mem_cons, not_or]
      exact ⟨(writes_escape key).not_mem.1, by decide, (writes_escape value).not_mem.1⟩
  | blank blanks hblanks => exact fun hmem => absurd (hblanks _ hmem) (by decide)
  | comment blanks hblanks mark hmark text htext =>
      simp only [Line.written, List.mem_append, List.mem_cons, not_or]
      exact ⟨fun hmem => absurd (hblanks _ hmem) (by decide),
        fun hnewline => absurd (hnewline ▸ hmark) (by decide), htext⟩

/-- A comment behind blanks holds no entry. -/
theorem isSkipped_comment (hs : ∀ c ∈ s, isBlank c = true) (hc : c ∈ ['#', '!'])
    (text : List Char) : isSkipped ((s ++ c :: text).dropWhile isBlank) = true := by
  rw [List.dropWhile_append_of_pos hs]
  simp only [List.mem_cons, List.not_mem_nil, or_false] at hc
  rcases hc with rfl | rfl <;> rfl

/-- A line of the text, with or without a carriage return at its end, holds the entry that was
written, or it is skipped. -/
theorem Line.shown (line : Line) (hl : l = line.written ∨ l = endedLine line.written.reverse) :
    (∃ key value, line.entries = [(key, value)] ∧ l = escape key ++ '=' :: escape value) ∨
      line.entries = [] ∧ isSkipped (l.dropWhile isBlank) = true := by
  cases line with
  | entry key value =>
      refine .inl ⟨key, value, rfl, ?_⟩
      have hreturn : '\r' ∉ escape key ++ '=' :: escape value := by
        simp only [List.mem_append, List.mem_cons, not_or]
        exact ⟨(writes_escape key).not_mem.2, by decide, (writes_escape value).not_mem.2⟩
      rcases hl with rfl | rfl
      · rfl
      · exact endedLine_of_not_mem hreturn
  | blank blanks hblanks =>
      have hl' : l = blanks := by
        rcases hl with rfl | rfl
        · rfl
        · exact endedLine_of_not_mem fun hmem => absurd (hblanks _ hmem) (by decide)
      refine .inr ⟨rfl, ?_⟩
      rw [hl', List.dropWhile_eq_nil_iff.mpr fun c hc => isBlank_iff.mpr (hblanks c hc)]
      rfl
  | comment blanks hblanks mark hmark text htext =>
      have hreturn : mark ≠ '\r' := fun hreturn => absurd (hreturn ▸ hmark) (by decide)
      have hl' : ∃ text', l = blanks ++ mark :: text' := by
        rcases hl with rfl | rfl
        · exact ⟨text, rfl⟩
        · exact exists_endedLine hreturn blanks text
      obtain ⟨text', rfl⟩ := hl'
      exact .inr ⟨rfl, isSkipped_comment (fun c hc => isBlank_iff.mpr (hblanks c hc)) hmark text'⟩

/-- A written entry is a line of its own. -/
theorem logicalFrom_written (hk : Writes k key) (hv : Writes v value) (number : Nat)
    (rest : List (List Char)) : logicalFrom number none ((k ++ '=' :: v) :: rest) =
      (number, k ++ '=' :: v) :: logicalFrom (number + 1) none rest := by
  have hblank : (k ++ '=' :: v).dropWhile isBlank = k ++ '=' :: v :=
    hk.dropWhile_append (by simp [isBlank])
  have hcontinues : continues (k ++ '=' :: v) = false := by
    have hvalue : continues ('=' :: v) = false := continues_eq_false_iff.mpr
      ((even_ending_cons (by decide) v).mpr (continues_eq_false_iff.mp hv.continues_eq_false))
    rw [continues_append hk.continues_eq_false, hvalue]
  have hskipped : isSkipped (k ++ '=' :: v) = false := hk.isSkipped_append (by rfl)
  simp [logicalFrom, hblank, hskipped, hcontinues]

/-! ## Adding entries -/

/-- A list with entries added one after the other. -/
def insertAll (p : PropertyList) (entries : List (List Char × List Char)) : PropertyList :=
  entries.foldl (fun p entry => p.insert entry.1 entry.2) p

/-- A line of the text gives the entries that were written on it. -/
theorem Line.read (line : Line) (hl : l = line.written ∨ l = endedLine line.written.reverse)
    (number : Nat) (rest : List (List Char)) (p : PropertyList) :
    p.addLines (logicalFrom number none (l :: rest)) =
      (p.insertAll line.entries).addLines (logicalFrom (number + 1) none rest) := by
  rcases line.shown hl with ⟨key, value, hentries, rfl⟩ | ⟨hentries, hskipped⟩
  · have hk := writes_escape key
    have hv := writes_escape value
    rw [logicalFrom_written hk hv, addLines, entry?_written hk hv, hentries]
    rfl
  · rw [logicalFrom_skipped hskipped, hentries]
    rfl

/-- The lines of a document give their entries. -/
theorem addLines_document (lines : List Line) (number : Nat) (p : PropertyList) :
    p.addLines (logicalFrom number none (physicalLines (document lines))) =
      .ok (p.insertAll (entriesOf lines)) := by
  induction lines generalizing number p with
  | nil => rfl
  | cons line lines ih =>
      have hall : p.insertAll (entriesOf (line :: lines)) =
          (p.insertAll line.entries).insertAll (entriesOf lines) := by
        rw [entriesOf, List.flatMap_cons, insertAll, List.foldl_append]
        rfl
      have hline := line.newline_not_mem
      by_cases hlast : lines = []
      · -- the last line ends with the text, which does not show it if it is empty
        subst hlast
        have hdocument : document [line] = line.written := Header.unlines_singleton _
        rw [hdocument, Header.physicalLines_of_not_mem hline, hall]
        by_cases hempty : line.written = []
        · have hentries : line.entries = [] := by
            rcases line.shown (.inl rfl) with ⟨key, value, -, hwritten⟩ | ⟨hentries, -⟩
            · rw [hempty] at hwritten
              exact absurd hwritten (by simp)
            · exact hentries
          rw [hempty, hentries]
          rfl
        · rw [if_neg (by simpa using hempty), line.read (.inl rfl)]
          rfl
      · have hdocument : document (line :: lines) = line.written ++ '\n' :: document lines :=
          Header.unlines_cons (by simpa using hlast) _
        rw [hdocument, Header.physicalLines_append hline, line.read (.inr rfl), ih, hall]

/-! ## Keys and values -/

/-- The keys that have a value. -/
def keys (p : PropertyList) : List (List Char) := p.entries.map Prod.fst

theorem lookup_filter_ne (hk : k ≠ key) (entries : List (List Char × List Char)) :
    (entries.filter (·.1 != key)).lookup k = entries.lookup k := by
  induction entries with
  | nil => rfl
  | cons entry entries ih =>
      by_cases hentry : entry.1 = key
      · have hne : (k == entry.1) = false := by simpa [hentry] using hk
        rw [List.filter_cons_of_neg (by simpa using hentry), ih, List.lookup_cons, hne]
      · rw [List.filter_cons_of_pos (by simpa using hentry), List.lookup_cons, List.lookup_cons, ih]

theorem get?_insert (p : PropertyList) (key value k : List Char) :
    (p.insert key value).get? k = if k = key then some value else p.get? k := by
  by_cases hk : k = key
  · simp [get?, insert, hk]
  · have hne : (k == key) = false := by simpa using hk
    rw [if_neg hk, get?, insert, List.lookup_cons, hne]
    exact lookup_filter_ne hk p.entries

theorem keys_insert (p : PropertyList) (key value : List Char) :
    (p.insert key value).keys = key :: p.keys.filter (· != key) := by
  rw [keys, keys, List.filter_map]
  rfl

theorem nodup_keys_insert {p : PropertyList} (hp : p.keys.Nodup) (key value : List Char) :
    (p.insert key value).keys.Nodup := by
  rw [keys_insert]
  exact List.nodup_cons.mpr ⟨by simp, hp.filter _⟩

theorem mem_keys_insert (p : PropertyList) (key value k : List Char) :
    k ∈ (p.insert key value).keys ↔ k = key ∨ k ∈ p.keys := by
  rw [keys_insert, List.mem_cons, List.mem_filter, bne_iff_ne]
  constructor
  · rintro (hk | ⟨hk, -⟩)
    · exact .inl hk
    · exact .inr hk
  · rintro (hk | hk)
    · exact .inl hk
    · exact (eq_or_ne k key).imp_right fun hne => ⟨hk, hne⟩

/-- The value of a key is the last that was added for it, or the one that it had. -/
theorem get?_insertAll (p : PropertyList) (entries : List (List Char × List Char))
    (key : List Char) :
    (p.insertAll entries).get? key = (lastValue? entries key).or (p.get? key) := by
  induction entries generalizing p with
  | nil => rfl
  | cons entry entries ih =>
      have hlast : lastValue? (entry :: entries) key =
          (lastValue? entries key).or (if key = entry.1 then some entry.2 else none) := by
        rw [lastValue?, List.reverse_cons, List.lookup_append, List.lookup_singleton]
        simp [lastValue?]
      calc (p.insertAll (entry :: entries)).get? key
          = ((p.insert entry.1 entry.2).insertAll entries).get? key := rfl
        _ = (lastValue? entries key).or
              (if key = entry.1 then some entry.2 else p.get? key) := by rw [ih, get?_insert]
        _ = (lastValue? (entry :: entries) key).or (p.get? key) := by
              rw [hlast, Option.or_assoc]
              split <;> rfl

/-- The keys are those that were added, and those that were there; none is there twice. -/
theorem keys_insertAll {p : PropertyList} (hp : p.keys.Nodup)
    (entries : List (List Char × List Char)) :
    (p.insertAll entries).keys.Nodup ∧
      ∀ k, k ∈ (p.insertAll entries).keys ↔ k ∈ entries.map Prod.fst ∨ k ∈ p.keys := by
  induction entries generalizing p with
  | nil => exact ⟨hp, by simp [insertAll]⟩
  | cons entry entries ih =>
      obtain ⟨hnodup, hmem⟩ := ih (nodup_keys_insert hp entry.1 entry.2)
      refine ⟨hnodup, fun k => (hmem k).trans ?_⟩
      rw [mem_keys_insert, List.map_cons, List.mem_cons]
      tauto

/-- **A written document is read back.** Whatever entries it holds, and whatever blank lines and
comments are among them, it is read, each key is there once, and its value is that of its last
entry. -/
theorem parse_document (lines : List Line) :
    ∃ p, parse (document lines) = .ok p ∧
      p.keys.Perm ((entriesOf lines).map Prod.fst).dedup ∧
      ∀ key, p.get? key = lastValue? (entriesOf lines) key := by
  refine ⟨empty.insertAll (entriesOf lines), addLines_document lines 1 empty, ?_, fun key => ?_⟩
  · obtain ⟨hnodup, hmem⟩ := keys_insertAll (p := empty) List.nodup_nil (entriesOf lines)
    refine (List.perm_ext_iff_of_nodup hnodup (List.nodup_dedup _)).mpr fun k => ?_
    rw [hmem, List.mem_dedup]
    exact or_iff_left List.not_mem_nil
  · rw [get?_insertAll]
    exact Option.or_none

end TemplateColoring.PropertyList

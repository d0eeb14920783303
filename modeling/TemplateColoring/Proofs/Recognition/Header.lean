import TemplateColoring.Proofs.Recognition.Feed
import TemplateColoring.Proofs.Recognition.Tidy
import TemplateColoring.Proofs.Text.Lossy
import TemplateColoring.Proofs.Text.Search
import TemplateColoring.Recognition.Document

/-!
# Reading header comments

What reading a content line by line comes to is told by its text as a whole (`readAll_decision`):
nothing while there are only blanks or the comment is not closed, that there is no header comment,
or the tidied text between `<#--` and the first `-->`. So a content is taken for a template of
markup if and only if the tidied text declares a type of markup (`isMarkupTemplate_iff_declares`).
The text as it is written may declare another one (`isMarkupTemplate_not_asWritten`).
-/

set_option autoImplicit false

namespace TemplateColoring

namespace Header

open Text Ascii

variable {s x r l : List Char} {line : List UInt8} {body : List (List Char)}

/-! ## Lines as texts -/

theorem exists_dropped {c : Char} (hc : isBlank c = true) (s : List Char) :
    ∃ x, s = x ++ (if s.head? == some c then s.tail else s) ∧ ∀ b ∈ x, isBlank b = true := by
  by_cases h : s.head? == some c
  · rw [if_pos h]
    cases s with
    | nil => exact ⟨[], rfl, by simp⟩
    | cons b s =>
        have hb : b = c := by simpa using h
        exact ⟨[b], rfl, by simpa [hb] using hc⟩
  · exact ⟨[], (if_neg h).symm, by simp⟩

/-- A line as text is what is decoded of it, without some blanks at the end. -/
theorem exists_lineText (line : List UInt8) :
    ∃ x, decodeLossy line = lineText line ++ x ∧ ∀ c ∈ x, isBlank c = true := by
  obtain ⟨x, hx, hblank⟩ := exists_dropped (c := '\n') (by decide) (decodeLossy line).reverse
  -- the carriage return is looked for where the newline has been dropped
  obtain ⟨y, hy, hblank'⟩ := exists_dropped (c := '\r') (by decide)
    (if (decodeLossy line).reverse.head? == some '\n' then (decodeLossy line).reverse.tail
      else (decodeLossy line).reverse)
  refine ⟨y.reverse ++ x.reverse, ?_, ?_⟩
  · calc decodeLossy line
        = (decodeLossy line).reverse.reverse := (List.reverse_reverse _).symm
      _ = lineText line ++ (y.reverse ++ x.reverse) := by
          rw [hx, hy]
          simp [lineText]
  · intro c hc
    rcases List.mem_append.mp hc with hc | hc
    · exact hblank' c (List.mem_reverse.mp hc)
    · exact hblank c (List.mem_reverse.mp hc)

/-- Blanks at the end of a line are not read. -/
theorem read_append_blank (h : ∀ c ∈ x, isBlank c = true) (state : State) (s : List Char) :
    read state (s ++ x) = read state s := by
  cases state with
  | blank => rw [read, trim_append_blank h, read]
  | inside body => rw [read, trimEnd_append_blank h, read]

theorem readAll_cons (state : State) (line : List UInt8)
    (rest : List (Except String (List UInt8))) : readAll state (.ok line :: rest) =
      match read state (decodeLossy line) with
      | .more state => readAll state rest
      | decided => .ok decided := by
  obtain ⟨x, hx, hblank⟩ := exists_lineText line
  have hread : read state (decodeLossy line) = read state (lineText line) := by
    rw [hx, read_append_blank hblank]
  rw [hread]
  rfl

/-- A line may be read without its newline. -/
theorem readAll_cons_newline (state : State) (line : List UInt8)
    (rest : List (Except String (List UInt8))) :
    readAll state (.ok (line ++ [newline]) :: rest) = readAll state (.ok line :: rest) := by
  rw [readAll_cons, readAll_cons, decodeLossy_append_newline, decodeLossy_nil,
    read_append_blank (List.forall_mem_singleton.mpr rfl)]

/-- Lines are read until some decide, and then no others are. -/
theorem readAll_append (state : State) (lines lines' : List (Except String (List UInt8))) :
    readAll state (lines ++ lines') =
      match readAll state lines with
      | .ok (.more state) => readAll state lines'
      | decided => decided := by
  induction lines generalizing state with
  | nil => rfl
  | cons line lines ih =>
      cases line with
      | error reason => rfl
      | ok line =>
          rw [List.cons_append, readAll_cons, readAll_cons]
          cases read state (decodeLossy line) with
          | more state => exact ih state
          | absent => rfl
          | complete body => rfl

/-! ## One line -/

theorem before?_closer_trimEnd (s : List Char) :
    before? closer (trimEnd s) = before? closer s := by
  obtain ⟨x, hx, hblank⟩ := exists_trimEnd s
  have hcloser : ∀ c ∈ x, c ∉ closer := by
    intro c hc hmem
    have hno : closer.all (fun c => !isBlank c) = true := rfl
    have hc' := List.all_eq_true.mp hno c hmem
    rw [hblank c hc] at hc'
    exact absurd hc' (by decide)
  calc before? closer (trimEnd s)
      = before? closer (trimEnd s ++ x) := (before?_append_of_forall (by decide) hcloser _).symm
    _ = before? closer s := by rw [← hx]

theorem read_inside (body : List (List Char)) (s : List Char) : read (.inside body) s =
    match before? closer s with
    | some last => .complete (trim (unlines (body.reverse ++ [last])))
    | none => .more (.inside ((tidied [s]).reverse ++ body)) := by
  by_cases hs : trimEnd s = []
  · -- a blank line is not looked at, and holds no `-->` anyway
    have hnone : before? closer s = none := by
      rw [← before?_closer_trimEnd, hs]
      rfl
    rw [read, hs, hnone, tidied_of_blank hs]
    rfl
  · have hne : ¬ (trimEnd s).isEmpty = true := fun h => hs (List.isEmpty_iff.mp h)
    rw [read, if_neg hne, readInside, before?_closer_trimEnd, tidied_of_not_blank hs]
    cases before? closer s with
    | some last =>
        have hlines : (last :: body).reverse = body.reverse ++ [last] := List.reverse_cons
        dsimp only
        rw [← hlines]
        rfl
    | none => rfl

theorem read_blank (h : trimStart s = []) : read .blank s = .more .blank := by
  rw [read, trim_eq_nil_iff.mpr h]
  rfl

theorem opener_prefix_trim : opener <+: trim s ↔ opener <+: trimStart s := by
  constructor
  · exact fun h => h.trans (trimEnd_isPrefix (trimStart s))
  · rintro ⟨r, hr⟩
    exact ⟨trimEnd r, by rw [trim, ← hr, trimEnd_append_of_eq rfl]⟩

theorem read_absent (hs : trimStart s ≠ []) (h : ¬ opener <+: trimStart s) :
    read .blank s = .absent := by
  have hne : ¬ (trim s).isEmpty = true := fun hnil =>
    hs (trim_eq_nil_iff.mp (List.isEmpty_iff.mp hnil))
  have hno : ¬ opener.isPrefixOf (trim s) = true := fun hp =>
    h (opener_prefix_trim.mp (List.isPrefixOf_iff_prefix.mp hp))
  rw [read, if_neg hne, if_neg hno]

theorem read_opener (h : trimStart s = opener ++ r) : read .blank s =
    match before? closer r with
    | some last => .complete (trim last)
    | none => .more (.inside [trimEnd r]) := by
  have htrim : trim s = opener ++ trimEnd r := by rw [trim, h, trimEnd_append_of_eq rfl]
  have hread : read .blank s = readInside [] (trimEnd r) := by
    rw [read, htrim]
    rfl
  rw [hread, readInside, before?_closer_trimEnd]
  cases before? closer r with
  | some last => exact congrArg (fun s => Outcome.complete (trim s)) (unlines_singleton last)
  | none => rfl

/-! ## All lines -/

/-- What reading more of the comment's inside comes to. -/
def insideOutcome (body : List (List Char)) (s : List Char) : Outcome :=
  match before? closer s with
  | some b => .complete (trim (unlines (body.reverse ++ tidied (PropertyList.physicalLines b))))
  | none => .more (.inside ((tidied (PropertyList.physicalLines s)).reverse ++ body))

/-- What a text decides about the header comment: nothing yet, that there is none, or what it
holds, tidied. -/
def decision (s : List Char) : Option (Option (List Char)) :=
  let s := trimStart s
  if s.isEmpty then none
  else if opener.isPrefixOf s then
    (before? closer (s.drop opener.length)).map fun body => some (trim (tidy body))
  else some none

/-- What an outcome decides. -/
def Outcome.decision : Outcome → Option (Option (List Char))
  | .more _ => none
  | .absent => some none
  | .complete body => some (some body)

/-- Inside the comment a line is read as such. -/
theorem read_inside_eq (hl : '\n' ∉ l) (body : List (List Char)) :
    read (.inside body) l = insideOutcome body l := by
  rw [read_inside, insideOutcome]
  cases h : before? closer l with
  | some last =>
      dsimp only
      rw [trim_unlines_concat, tidied_physicalLines_of_not_mem (not_mem_of_before? h hl)]
  | none =>
      dsimp only
      rw [tidied_physicalLines_of_not_mem hl]

theorem insideOutcome_of_closed (h : before? closer s = some l) (body : List (List Char)) :
    insideOutcome body s =
      .complete (trim (unlines (body.reverse ++ tidied (PropertyList.physicalLines l)))) := by
  rw [insideOutcome, h]

theorem insideOutcome_of_open (h : before? closer s = none) (body : List (List Char)) :
    insideOutcome body s =
      .more (.inside ((tidied (PropertyList.physicalLines s)).reverse ++ body)) := by
  rw [insideOutcome, h]

/-- A line and what comes behind it are read one after the other. -/
theorem insideOutcome_append (hl : '\n' ∉ l) (body : List (List Char)) (r : List Char) :
    insideOutcome body (l ++ '\n' :: r) =
      match insideOutcome body l with
      | .more (.inside body) => insideOutcome body r
      | decided => decided := by
  unfold insideOutcome
  rw [before?_append_cons (by decide) (by decide)]
  cases h : before? closer l with
  | some b => rfl
  | none =>
      dsimp only
      cases before? closer r with
      | some b =>
          dsimp only [Option.map_some]
          rw [tidied_physicalLines_append hl, tidied_physicalLines_of_not_mem hl,
            List.reverse_append, List.reverse_reverse, List.append_assoc]
      | none =>
          dsimp only [Option.map_none]
          rw [tidied_physicalLines_append hl, tidied_physicalLines_of_not_mem hl,
            List.reverse_append, List.append_assoc]

/-- **The inside of a comment is read as one text**, whose lines are tidied. -/
theorem readAll_inside (bytes : List UInt8) (body : List (List Char)) :
    readAll (.inside body) (Feed.linesFrom none [] (bytes.map some)) =
      .ok (insideOutcome body (decodeLossy bytes)) := by
  induction bytes using Feed.lines_induction generalizing body with
  | last line hline =>
      have hl := newline_not_mem_decodeLossy hline
      rw [Feed.linesFrom_last hline]
      cases line with
      | nil => rfl
      | cons b line =>
          rw [if_neg (by simp), readAll_cons, read_inside_eq hl]
          cases insideOutcome body (decodeLossy (b :: line)) <;> rfl
  | line line r hline ih =>
      have hl := newline_not_mem_decodeLossy hline
      rw [Feed.linesFrom_cons_line hline, readAll_cons_newline, readAll_cons, read_inside_eq hl,
        decodeLossy_append_newline, insideOutcome_append hl]
      cases h : before? closer (decodeLossy line) with
      | some last => rw [insideOutcome_of_closed h]
      | none =>
          rw [insideOutcome_of_open h]
          exact ih _

/-! ## From the first line on -/

theorem decision_of_blank (h : trimStart s = []) : decision s = none := by
  rw [decision, h]
  rfl

theorem decision_of_absent (hs : trimStart s ≠ []) (h : ¬ opener <+: trimStart s) :
    decision s = some none := by
  have hne : ¬ (trimStart s).isEmpty = true := fun hnil => hs (List.isEmpty_iff.mp hnil)
  have hno : ¬ opener.isPrefixOf (trimStart s) = true := fun hp =>
    h (List.isPrefixOf_iff_prefix.mp hp)
  rw [decision, if_neg hne, if_neg hno]

theorem decision_of_opener (h : trimStart s = opener ++ r) :
    decision s = (before? closer r).map fun body => some (trim (tidy body)) := by
  rw [decision, h]
  rfl

/-- Blank lines in front decide nothing. -/
theorem decision_blank_append (h : trimStart l = []) (r : List Char) :
    decision (l ++ '\n' :: r) = decision r := by
  have hblank : ∀ c ∈ l ++ ['\n'], isBlank c = true := by
    intro c hc
    rcases List.mem_append.mp hc with hc | hc
    · exact trimStart_eq_nil_iff.mp h c hc
    · exact List.mem_singleton.mp hc ▸ rfl
  have hstart := trimStart_blank_append hblank r
  rw [List.append_assoc, List.singleton_append] at hstart
  rw [decision, hstart, decision]

theorem newline_not_mem_of_trimStart (hl : '\n' ∉ l) (h : trimStart l = opener ++ r) :
    '\n' ∉ r := by
  obtain ⟨x, hx, -⟩ := exists_trimStart l
  intro hmem
  refine hl (hx ▸ ?_)
  rw [h]
  exact List.mem_append_right x (List.mem_append_right opener hmem)

/-- The first line is read as a text of its own. -/
theorem read_decision (hl : '\n' ∉ l) : (read .blank l).decision = decision l := by
  by_cases hblank : trimStart l = []
  · rw [read_blank hblank, decision_of_blank hblank]
    rfl
  · by_cases hopener : opener <+: trimStart l
    · obtain ⟨r, hr⟩ := hopener
      rw [read_opener hr.symm, decision_of_opener hr.symm]
      cases h : before? closer r with
      | some b =>
          have hb : '\n' ∉ b := not_mem_of_before? h (newline_not_mem_of_trimStart hl hr.symm)
          exact congrArg (some ∘ some) (trim_tidy hb).symm
      | none => rfl
    · rw [read_absent hblank hopener, decision_of_absent hblank hopener]
      rfl

/-- The text behind the first line of the comment, which is blank if that is all the line. -/
theorem insideOutcome_decision (hl : '\n' ∉ l) (r : List Char) :
    (insideOutcome [trimEnd l] r).decision =
      (before? closer r).map fun body => some (trim (tidy (l ++ '\n' :: body))) := by
  cases h : before? closer r with
  | none =>
      rw [insideOutcome_of_open h]
      rfl
  | some b =>
      have htidy : trim (tidy (l ++ '\n' :: b)) =
          trim (unlines (trimEnd l :: tidied (PropertyList.physicalLines b))) := by
        rw [tidy, tidied_physicalLines_append hl, trim_unlines_cons]
      rw [insideOutcome_of_closed h, Option.map_some, htidy]
      rfl

/-- **What reading a content comes to is what its text decides.** -/
theorem readAll_decision (bytes : List UInt8) : ∃ outcome,
    readAll .blank (Feed.linesFrom none [] (bytes.map some)) = .ok outcome ∧
      outcome.decision = decision (decodeLossy bytes) := by
  induction bytes using Feed.lines_induction with
  | last line hline =>
      rw [Feed.linesFrom_last hline]
      cases line with
      | nil => exact ⟨.more .blank, rfl, rfl⟩
      | cons b line =>
          refine ⟨read .blank (decodeLossy (b :: line)), ?_,
            read_decision (newline_not_mem_decodeLossy hline)⟩
          rw [if_neg (by simp), readAll_cons]
          cases read .blank (decodeLossy (b :: line)) <;> rfl
  | line line r hline ih =>
      have hl := newline_not_mem_decodeLossy hline
      rw [Feed.linesFrom_cons_line hline, readAll_cons_newline, readAll_cons,
        decodeLossy_append_newline]
      by_cases hblank : trimStart (decodeLossy line) = []
      · -- a blank line is passed over
        rw [read_blank hblank, decision_blank_append hblank]
        exact ih
      · have hstart := trimStart_append hblank ('\n' :: decodeLossy r)
        by_cases hopener : opener <+: trimStart (decodeLossy line)
        · obtain ⟨l, h⟩ := hopener
          have hl' : '\n' ∉ l := newline_not_mem_of_trimStart hl h.symm
          rw [← h, List.append_assoc] at hstart
          rw [read_opener h.symm, decision_of_opener hstart,
            before?_append_cons (by decide) (by decide)]
          -- the comment is closed in its first line or read on to where it is
          cases hclosed : before? closer l with
          | some b =>
              have hb : '\n' ∉ b := not_mem_of_before? hclosed hl'
              exact ⟨_, rfl, congrArg (some ∘ some) (trim_tidy hb).symm⟩
          | none =>
              refine ⟨_, readAll_inside r [trimEnd l], ?_⟩
              rw [insideOutcome_decision hl', Option.map_map]
              rfl
        · -- what comes behind the line cannot complete `<#--`, which has no newline
          have hopener' : ¬ opener <+: trimStart (decodeLossy line ++ '\n' :: decodeLossy r) := by
            rw [hstart, Bytes.prefix_append_cons_iff (by decide)]
            exact hopener
          have hblank' : trimStart (decodeLossy line ++ '\n' :: decodeLossy r) ≠ [] := by
            rw [hstart]
            exact List.append_ne_nil_of_left_ne_nil hblank _
          rw [read_absent hblank hopener, decision_of_absent hblank' hopener']
          exact ⟨.absent, rfl, rfl⟩

/-! ## The declared type -/

/-- Behind blanks a text has a header comment, and `body` is what stands between `<#--` and the
first `-->` behind it. -/
def HasComment (s body : List Char) : Prop :=
  ∃ blanks rest, s = blanks ++ (opener ++ (body ++ (closer ++ rest))) ∧
    (∀ c ∈ blanks, isBlank c = true) ∧
    ∀ y, y ++ closer <+: body ++ (closer ++ rest) → body.length ≤ y.length

/-- A property list is well-formed and declares a type of markup. -/
def DeclaresMarkup (body : List Char) : Prop :=
  ∃ properties, PropertyList.parse body = .ok properties ∧
    ∃ type, properties.get? contentTypeKey = some type ∧
      ("xml".toList <:+: trim type ∨ "html".toList <:+: trim type)

/-- A text has a header comment that declares a type of markup, in a certain reading. -/
def Declares (reading : List Char → List Char) (s : List Char) : Prop :=
  ∃ body, HasComment s body ∧ DeclaresMarkup (trim (reading body))

/-- What the header comment of a text holds, if there is one. -/
def comment? (s : List Char) : Option (List Char) :=
  if opener <+: trimStart s then before? closer ((trimStart s).drop opener.length) else none

theorem hasComment_iff {b : List Char} : HasComment s b ↔ comment? s = some b := by
  constructor
  · rintro ⟨blanks, rest, rfl, hblank, hfirst⟩
    have hstart : trimStart (blanks ++ (opener ++ (b ++ (closer ++ rest)))) =
        opener ++ (b ++ (closer ++ rest)) := by
      rw [trimStart_blank_append hblank]
      rfl
    rw [comment?, hstart, if_pos (List.prefix_append _ _), List.drop_left]
    refine before?_eq_some_iff.mpr ⟨⟨rest, List.append_assoc _ _ _⟩, hfirst⟩
  · intro h
    unfold comment? at h
    split at h
    · next hopener =>
      obtain ⟨r, hr⟩ := hopener
      rw [← hr, List.drop_left] at h
      obtain ⟨⟨rest, hrest⟩, hfirst⟩ := before?_eq_some_iff.mp h
      obtain ⟨blanks, hs, hblank⟩ := exists_trimStart s
      rw [List.append_assoc] at hrest
      rw [← hrest] at hr hfirst
      exact ⟨blanks, rest, by rw [hr]; exact hs, hblank, hfirst⟩
    · exact absurd h (by simp)

theorem decision_eq_some_some_iff {b : List Char} :
    decision s = some (some b) ↔ ∃ body, HasComment s body ∧ trim (tidy body) = b := by
  simp only [hasComment_iff]
  by_cases hblank : trimStart s = []
  · have hnone : comment? s = none := by
      rw [comment?, hblank, if_neg (by decide)]
    simp [decision_of_blank hblank, hnone]
  · by_cases hopener : opener <+: trimStart s
    · obtain ⟨r, hr⟩ := hopener
      have hcomment : comment? s = before? closer r := by
        rw [comment?, ← hr, if_pos (List.prefix_append _ _), List.drop_left]
      rw [decision_of_opener hr.symm, hcomment]
      simp
    · have hnone : comment? s = none := if_neg hopener
      simp [decision_of_absent hblank hopener, hnone]

theorem isMarkupType_iff (type : List Char) : isMarkupType type = true ↔
    "xml".toList <:+: trim type ∨ "html".toList <:+: trim type := by
  rw [isMarkupType, Bool.or_eq_true, holds_iff, holds_iff]
  rfl

instance (body : List Char) : Decidable (DeclaresMarkup body) :=
  match hparse : PropertyList.parse body with
  | .error e => isFalse (by simp [DeclaresMarkup, hparse])
  | .ok properties =>
    match htype : properties.get? contentTypeKey with
    | none => isFalse (by simp [DeclaresMarkup, hparse, htype])
    | some type =>
      decidable_of_iff (isMarkupType type = true)
        (by simp [DeclaresMarkup, hparse, htype, isMarkupType_iff])

instance (reading : List Char → List Char) (s : List Char) : Decidable (Declares reading s) :=
  match hcomment : comment? s with
  | none => isFalse (by simp [Declares, hasComment_iff, hcomment])
  | some body =>
    decidable_of_iff (DeclaresMarkup (trim (reading body)))
      (by simp [Declares, hasComment_iff, hcomment])

theorem declaresMarkup_iff {f : Feed} {outcome : Outcome}
    (h : readAll .blank f.lines = .ok outcome) :
    declaresMarkup f = true ↔
      ∃ body, outcome.decision = some (some body) ∧ DeclaresMarkup body := by
  rw [declaresMarkup, contentType?, h]
  cases outcome with
  | more state => simp [Outcome.decision]
  | absent => simp [Outcome.decision]
  | complete body =>
      simp only [Outcome.decision, Option.some.injEq, exists_eq_left', DeclaresMarkup]
      cases hparse : PropertyList.parse body with
      | error e => simp
      | ok properties =>
          cases htype : properties.get? contentTypeKey with
          | none => simp [htype]
          | some type => simp [htype, isMarkupType_iff]

end Header

variable {name : Option (List Char)}

/-- The content is read if the name does not decide. -/
theorem isMarkupTemplate_eq (hname : name.any FileName.isTemplate = false) (f : Feed) :
    isMarkupTemplate name f = Header.declaresMarkup f := by
  rw [isMarkupTemplate, hname, Bool.false_or]

open Header in
/-- **A content is taken for a template of markup if and only if its header comment declares one**,
where the text of the comment is tidied: the name does not decide, and the reads, whichever they
are, yield the text to its end. -/
theorem isMarkupTemplate_iff_declares {f : Feed} {s : String}
    (hname : name.any FileName.isTemplate = false) (hf : Feed.Chunks f.reads s.toUTF8.data.toList)
    (hend : f.failure = none) :
    isMarkupTemplate name f = true ↔ Declares tidy s.toList := by
  obtain ⟨outcome, hread, hdecision⟩ := readAll_decision s.toUTF8.data.toList
  rw [Text.decodeLossy_toUTF8] at hdecision
  have hlines : readAll .blank f.lines = .ok outcome := by
    rw [hf.lines_eq, hend, hread]
  rw [isMarkupTemplate_eq hname, declaresMarkup_iff hlines, hdecision]
  simp only [decision_eq_some_some_iff]
  constructor
  · rintro ⟨b, ⟨body, hbody, rfl⟩, hmarkup⟩
    exact ⟨body, hbody, hmarkup⟩
  · rintro ⟨body, hbody, hmarkup⟩
    exact ⟨_, ⟨body, hbody, rfl⟩, hmarkup⟩

/-- A comment over three lines, of which the second comes in two reads. -/
theorem isMarkupTemplate_of_declared :
    isMarkupTemplate (some "notes.txt".toList)
      { reads := ["\n <#--\n ContentType: te".toUTF8.data.toList,
          "xt/html \n-->".toUTF8.data.toList] } = true :=
  (isMarkupTemplate_iff_declares (s := "\n <#--\n ContentType: text/html \n-->") (by decide)
    ⟨by decide, by decide⟩ rfl).mpr (by decide +kernel)

/-- **Tidying is seen**: a backslash comes to stand at the end of its line when the blank behind it
is dropped, and continues another line when the empty line behind it is. As they are written, the
two comments declare `plain`. -/
theorem isMarkupTemplate_not_asWritten :
    (isMarkupTemplate none
        (.ofBytes "<#--\nContentType=plain\\ \nhtml\n-->".toUTF8.data.toList) = true ∧
      ¬ Header.Declares Header.asWritten "<#--\nContentType=plain\\ \nhtml\n-->".toList) ∧
    (isMarkupTemplate none
        (.ofBytes "<#--\nContentType=plain\\\n\nhtml\n-->".toUTF8.data.toList) = true ∧
      ¬ Header.Declares Header.asWritten "<#--\nContentType=plain\\\n\nhtml\n-->".toList) := by
  decide +kernel

end TemplateColoring

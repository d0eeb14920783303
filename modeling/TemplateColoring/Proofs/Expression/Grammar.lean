import TemplateColoring.Proofs.Bytes.Search
import TemplateColoring.Proofs.Expression.Characters

/-!
# What the items of an expression look like

`Lexical t item x r` says, by the bytes of `x` and of what follows it, that `x` is one item in front
of `r`: names, numbers and blanks as long as they can be, a literal up to its closing quote, a
comment up to the first closer, and else one operator. It says nothing of open brackets, and nothing
of where an expression ends. The lexing goes by these items wherever it goes on (`Lexical.reads`,
`Reads.lexical`), and so every text begins with one item only (`exists_lexical`, `Lexical.unique`).
-/

set_option autoImplicit false

namespace TemplateColoring.Expression

open Ascii Bytes

/-! ## String literals -/

/-- `x` is what belongs to a string literal behind its opening quote, in front of `r`. A backslash
takes the byte behind it along, unless the literal is raw. Without a closing quote the literal goes
to the end of the text. -/
inductive Literal (raw : Bool) (quote : UInt8) : List UInt8 → List UInt8 → Prop
  | closed (r : List UInt8) : Literal raw quote [quote] r
  | unclosed : Literal raw quote [] []
  /-- A backslash at the end of the text has nothing to take along. -/
  | torn : raw = false → Literal raw quote [backslash] []
  | plain {b : UInt8} {x r : List UInt8} : b ≠ quote → (b = backslash → raw = true) →
      Literal raw quote x r → Literal raw quote (b :: x) r
  | escaped {b : UInt8} {x r : List UInt8} : raw = false → Literal raw quote x r →
      Literal raw quote (backslash :: b :: x) r

section Literal

variable {raw : Bool} {quote : UInt8} {s x r x' r' : List UInt8}

theorem ne_backslash_of_isQuote {q : UInt8} (h : isQuote q = true) : q ≠ backslash := by
  rintro rfl
  exact absurd h (by decide)

/-- A literal ends in one place only. -/
theorem Literal.unique (hquote : quote ≠ backslash) (h : Literal raw quote x r)
    (h' : Literal raw quote x' r') (hs : x ++ r = x' ++ r') : x = x' := by
  induction h generalizing x' with
  | closed r =>
      cases h' with
      | closed _ => rfl
      | unclosed => exact absurd hs (by simp)
      | torn _ => exact absurd (List.cons.inj hs).1 hquote
      | plain hb _ _ => exact absurd (List.cons.inj hs).1.symm hb
      | escaped _ _ => exact absurd (List.cons.inj hs).1 hquote
  | unclosed =>
      cases h' with
      | unclosed => rfl
      | closed _ | torn _ | plain _ _ _ | escaped _ _ => exact absurd hs (by simp)
  | torn hraw =>
      cases h' with
      | torn _ => rfl
      | closed _ => exact absurd (List.cons.inj hs).1.symm hquote
      | unclosed => exact absurd hs (by simp)
      | plain _ hesc _ =>
          exact absurd (hesc (List.cons.inj hs).1.symm) (by simp [hraw])
      | escaped _ _ => exact absurd (List.cons.inj hs).2 (by simp)
  | plain hb hesc _ ih =>
      cases h' with
      | closed _ => exact absurd (List.cons.inj hs).1 hb
      | unclosed => exact absurd hs (by simp)
      | torn hraw => exact absurd (hesc (List.cons.inj hs).1) (by simp [hraw])
      | plain _ _ h' =>
          obtain ⟨rfl, htail⟩ := List.cons.inj hs
          rw [ih h' htail]
      | escaped hraw _ => exact absurd (hesc (List.cons.inj hs).1) (by simp [hraw])
  | escaped hraw _ ih =>
      cases h' with
      | closed _ => exact absurd (List.cons.inj hs).1.symm hquote
      | unclosed => exact absurd hs (by simp)
      | torn _ => exact absurd (List.cons.inj hs).2 (by simp)
      | plain _ hesc _ => exact absurd (hesc (List.cons.inj hs).1.symm) (by simp [hraw])
      | escaped _ h' =>
          simp only [List.cons_append, List.cons.injEq] at hs
          obtain ⟨-, rfl, htail⟩ := hs
          rw [ih h' htail]

/-- The bytes that continue a character are like any other in a literal. -/
theorem Literal.pass (hquote : quote < 0x80) {tail : List UInt8}
    (htail : ∀ c ∈ tail, isContinuation c = true) (h : Literal raw quote x r) :
    Literal raw quote (tail ++ x) r := by
  induction tail with
  | nil => exact h
  | cons c tail ih =>
      have hc := le_of_isContinuation c (htail c List.mem_cons_self)
      refine .plain ?_ ?_ (ih fun d hd => htail d (List.mem_cons_of_mem c hd))
      · rintro rfl
        exact absurd hquote (UInt8.not_lt.mpr hc)
      · rintro rfl
        exact absurd hc (by decide)

/-- A step inside a literal passes what belongs to it. -/
theorem Literal.of_step (hquote : quote < 0x80) (hs : Characters s) {k : Nat}
    (hstep : stringStep raw quote s = some k) (htorn : raw = false → s ≠ [backslash])
    (h : Literal raw quote x r) : Literal raw quote (s.take k ++ x) r := by
  cases hs with
  | nil => exact absurd hstep (by simp [stringStep])
  | @cons b rest tail hb htail hwidth hrest =>
      have hall : Characters (b :: (tail ++ rest)) := .cons tail hb htail hwidth hrest
      simp only [stringStep] at hstep
      split at hstep
      · exact absurd hstep (by simp)
      next hne =>
      have hne : b ≠ quote := by simpa using hne
      split at hstep
      · next hesc =>
        obtain rfl := Option.some.inj hstep
        obtain ⟨hb', hraw⟩ := Bool.and_eq_true_iff.mp hesc
        obtain rfl := beq_iff_eq.mp hb'
        have hraw : raw = false := by simpa using hraw
        have hbehind := hall.tail_of_ascii (by decide)
        rw [Nat.add_comm, List.take_succ_cons, List.cons_append]
        generalize tail ++ rest = s' at hbehind htorn ⊢
        cases hbehind with
        | nil => exact absurd rfl (htorn hraw)
        | @cons c rest' tail' _ htail' hwidth' _ =>
            rw [Characters.take_charLength hwidth', List.cons_append]
            exact .escaped hraw (h.pass hquote htail')
      · next hesc =>
        obtain rfl := Option.some.inj hstep
        rw [Characters.take_charLength hwidth, List.cons_append]
        refine .plain hne ?_ (h.pass hquote htail)
        rintro rfl
        simpa using hesc

theorem stringBodyLength_of_step {k : Nat} (hs : s ≠ []) (hstep : stringStep raw quote s = some k) :
    stringBodyLength raw quote s = k + stringBodyLength raw quote (s.drop k) := by
  simp only [stringBodyLength, walk_eq_add (bounded_stringStep raw quote) hs hstep,
    List.drop_drop]
  split <;> omega

/-- **A string literal is lexed up to its closing quote.** -/
theorem literal_stringBodyLength (raw : Bool) (hquote : quote < 0x80) (hs : Characters s) :
    Literal raw quote (s.take (stringBodyLength raw quote s))
      (s.drop (stringBodyLength raw quote s)) := by
  induction s using walk_induction (bounded_stringStep raw quote) with
  | stop s hstop =>
      cases s with
      | nil => exact .unclosed
      | cons b s =>
          obtain rfl := stringStep_eq_none_iff.mp (hstop.resolve_left (by simp))
          have hbody : stringBodyLength raw b (b :: s) = 1 := by
            simp [stringBodyLength, walk_eq_zero hstop]
          rw [hbody]
          exact .closed s
  | pass s k hne hstep ih =>
      rw [stringBodyLength_of_step hne hstep, List.take_add, ← List.drop_drop]
      by_cases htorn : raw = false ∧ s = [backslash]
      · obtain ⟨rfl, rfl⟩ := htorn
        have hk := bounded_stringStep false quote _ _ hne hstep
        obtain rfl : k = 1 := by
          rw [List.length_singleton] at hk
          omega
        exact .torn rfl
      · exact (ih (characters_drop_stringStep hs hstep)).of_step hquote hs hstep
          fun hraw heq => htorn ⟨hraw, heq⟩

/-- How long a literal is lexed is told by where it ends. -/
theorem Literal.length_eq (hquote : isQuote quote = true) (hs : Characters (x ++ r))
    (h : Literal raw quote x r) : stringBodyLength raw quote (x ++ r) = x.length := by
  have hsame := (literal_stringBodyLength raw (lt_of_isQuote quote hquote) hs).unique
    (ne_backslash_of_isQuote hquote) h (List.take_append_drop _ _)
  have hle := stringBodyLength_le raw quote (x ++ r)
  rw [← congrArg List.length hsame, List.length_take, Nat.min_eq_left hle]

end Literal

/-! ## Items -/

/-- `x` is one item in front of `r`. -/
inductive Lexical (t : Terminator) : Item → List UInt8 → List UInt8 → Prop
  | blank {b : UInt8} {x r : List UInt8} : (∀ c ∈ b :: x, isBlank c = true) →
      r.head?.any isBlank = false → Lexical t .blank (b :: x) r
  | string {q : UInt8} {x r : List UInt8} : isQuote q = true → Literal false q x r →
      Lexical t .string (q :: x) r
  | rawString {q : UInt8} {x r : List UInt8} : isQuote q = true → Literal true q x r →
      Lexical t .string (letterR :: q :: x) r
  | comment {x r : List UInt8} : UpTo t.comments.commentClose x r →
      Lexical t .comment ([t.comments.openByte, hash, hyphen, hyphen] ++ x) r
  /-- A name, unless it is the `r` in front of a raw string. -/
  | identifier {b : UInt8} {x r : List UInt8} : isNameStart b = true →
      (∀ c ∈ x, isNameContinue c = true) → r.head?.any isNameContinue = false →
      (b = letterR → (x ++ r).head?.any isQuote = false) → Lexical t .identifier (b :: x) r
  /-- Digits, in front of no digit and no fraction. -/
  | integer {b : UInt8} {x r : List UInt8} : (∀ c ∈ b :: x, isDigit c = true) →
      r.head?.any isDigit = false → (∀ c r', r = dot :: c :: r' → isDigit c = false) →
      Lexical t .number (b :: x) r
  | fraction {b c : UInt8} {x y r : List UInt8} : (∀ d ∈ b :: x, isDigit d = true) →
      (∀ d ∈ c :: y, isDigit d = true) → r.head?.any isDigit = false →
      Lexical t .number (b :: x ++ dot :: c :: y) r
  | builtIn {b : UInt8} {x r : List UInt8} : isNameStart b = true →
      (∀ c ∈ x, isNameContinue c = true) → r.head?.any isNameContinue = false →
      Lexical t .builtIn (question :: b :: x) r
  /-- One byte with which nothing else starts. -/
  | operator {b : UInt8} {r : List UInt8} : isMark b = true →
      t.comments.opensComment (b :: r) = false →
      (b = question → r.head?.any isNameStart = false) → Lexical t .operator [b] r

variable {t : Terminator} {depth : Nat} {item item' : Item} {x r x' r' : List UInt8}

theorem Lexical.ne_nil (h : Lexical t item x r) : x ≠ [] := by
  cases h <;> simp

theorem commentClose_eq (b : Bracket) : b.commentClose = hyphen :: [hyphen, b.closeByte] := rfl

theorem fractionLength_eq_zero (h : ∀ c r', r = dot :: c :: r' → isDigit c = false) :
    fractionLength r = 0 := by
  match r with
  | [] => rfl
  | [_] => rfl
  | point :: c :: r' =>
      simp only [fractionLength]
      refine if_neg fun hfraction => ?_
      obtain ⟨hpoint, hdigit⟩ := Bool.and_eq_true_iff.mp hfraction
      obtain rfl := beq_iff_eq.mp hpoint
      rw [h c r' rfl] at hdigit
      exact Bool.false_ne_true hdigit

/-- **The lexing goes by the items** where it is not at a tag behind open brackets, and not at the
terminator outside of brackets. -/
theorem Lexical.reads (h : Lexical t item x r) (hs : Characters (x ++ r))
    (htag : 0 < depth → t.comments.opensComment (x ++ r) = false →
      t.comments.opensTag (x ++ r) = false)
    (hclose : depth = 0 → t.lengthAt? (x ++ r) = none) :
    Reads t depth (x ++ r) item x.length := by
  cases h with
  | @blank b x r hx hr =>
      rw [← runLength_append_iff.mpr ⟨hx, hr⟩]
      exact .blank (hx b List.mem_cons_self)
  | @string q x r hq hx =>
      have hbehind := hs.tail_of_ascii (lt_of_isQuote q hq)
      rw [List.length_cons, ← hx.length_eq hq hbehind, Nat.add_comm]
      exact .string hq
  | @rawString q x r hq hx =>
      have hbehind := (hs.tail_of_ascii (by decide)).tail_of_ascii (lt_of_isQuote q hq)
      rw [List.length_cons, List.length_cons, ← hx.length_eq hq hbehind, Nat.add_assoc,
        Nat.add_comm]
      exact .rawString hq
  | @comment x r hx =>
      rw [List.append_assoc] at hs ⊢
      have hopens : t.comments.opensComment
          ([t.comments.openByte, hash, hyphen, hyphen] ++ (x ++ r)) = true :=
        List.isPrefixOf_iff_prefix.mpr (List.prefix_append _ _)
      have hbehind : Characters (x ++ r) := characters_drop_commentOpener hopens hs
      have hthrough := through_length_of_upTo (by decide) hbehind (commentClose_eq _ ▸ hx)
      have hlength : commentLength t.comments
          ([t.comments.openByte, hash, hyphen, hyphen] ++ (x ++ r)) =
            ([t.comments.openByte, hash, hyphen, hyphen] ++ x).length := by
        rw [commentLength, commentClose_eq, List.length_append]
        exact congrArg (4 + ·) hthrough
      rw [← hlength]
      exact .comment hopens
  | @identifier b x r hb hx hr hraw =>
      have hall : ∀ c ∈ b :: x, isNameContinue c = true := by
        rintro c (_ | ⟨_, hc⟩)
        · simp [isNameContinue, hb]
        · exact hx c hc
      have hstart : (b == letterR && (x ++ r).head?.any isQuote) = false := by
        by_cases hletter : b = letterR
        · rw [hraw hletter, Bool.and_false]
        · rw [beq_eq_false_iff_ne.mpr hletter, Bool.false_and]
      rw [← runLength_append_iff.mpr ⟨hall, hr⟩]
      exact .identifier hb hstart
  | @integer b x r hx hr hfraction =>
      have hlength : numberLength (b :: x ++ r) = (b :: x).length := by
        rw [numberLength, runLength_append_iff.mpr ⟨hx, hr⟩, List.drop_left,
          fractionLength_eq_zero hfraction]
        rfl
      rw [← hlength]
      exact .number (hx b List.mem_cons_self)
  | @fraction b c x y r hx hy hr =>
      have hlength : numberLength (b :: x ++ dot :: c :: y ++ r) =
          (b :: x ++ dot :: c :: y).length := by
        have hwhole : runLength isDigit (b :: x ++ (dot :: c :: y ++ r)) = (b :: x).length :=
          runLength_append_iff.mpr ⟨hx, rfl⟩
        have hbehind : runLength isDigit (c :: y ++ r) = (c :: y).length :=
          runLength_append_iff.mpr ⟨hy, hr⟩
        rw [List.append_assoc, numberLength, hwhole, List.drop_left, List.length_append]
        simp only [List.cons_append] at hbehind ⊢
        rw [fractionLength, if_pos (by simp [hy c List.mem_cons_self]), hbehind]
        simp only [List.length_cons]
        omega
      rw [← hlength]
      exact .number (hx b List.mem_cons_self)
  | @builtIn b x r hb hx hr =>
      have hall : ∀ c ∈ b :: x, isNameContinue c = true := by
        rintro c (_ | ⟨_, hc⟩)
        · simp [isNameContinue, hb]
        · exact hx c hc
      rw [List.length_cons, ← runLength_append_iff.mpr ⟨hall, hr⟩, Nat.add_comm]
      exact .builtIn (by simpa using hb)
  | @operator b r hmark hcomment hname =>
      have hstart : (b == question && r.head?.any isNameStart) = false := by
        by_cases hquestion : b = question
        · rw [hname hquestion, Bool.and_false]
        · rw [beq_eq_false_iff_ne.mpr hquestion, Bool.false_and]
      exact .operator hmark hcomment (fun hdepth => htag hdepth hcomment) hstart hclose

/-- A run is cut where its class ends. -/
theorem run_spec (p : UInt8 → Bool) (s : List UInt8) :
    (∀ c ∈ s.take (runLength p s), p c = true) ∧
      (s.drop (runLength p s)).head?.any p = false := by
  have hle := runLength_le_length p s
  refine runLength_append_iff.mp ?_
  rw [List.take_append_drop, List.length_take, Nat.min_eq_left hle]

theorem exists_runLength {p : UInt8 → Bool} {b : UInt8} {s : List UInt8} (h : p b = true) :
    ∃ k, runLength p (b :: s) = k + 1 :=
  Nat.exists_eq_succ_of_ne_zero (Nat.ne_of_gt (runLength_pos h))

theorem lexical_number {b : UInt8} {s : List UInt8} (hb : isDigit b = true) :
    Lexical t .number ((b :: s).take (numberLength (b :: s)))
      ((b :: s).drop (numberLength (b :: s))) := by
  obtain ⟨hdigits, hbehind⟩ := run_spec isDigit (b :: s)
  obtain ⟨k, hk⟩ := exists_runLength (s := s) hb
  rw [hk, List.take_succ_cons] at hdigits
  rw [hk, List.drop_succ_cons] at hbehind
  rw [numberLength, List.take_add, ← List.drop_drop, hk, List.take_succ_cons, List.drop_succ_cons]
  generalize s.drop k = rest at hbehind ⊢
  by_cases hfraction : ∃ c r', rest = dot :: c :: r' ∧ isDigit c = true
  · obtain ⟨c, r', rfl, hc⟩ := hfraction
    obtain ⟨hdigits', hbehind'⟩ := run_spec isDigit (c :: r')
    obtain ⟨j, hj⟩ := exists_runLength (s := r') hc
    have hlength : fractionLength (dot :: c :: r') = j + 2 := by
      rw [fractionLength, if_pos (by simp [hc]), hj]
      omega
    rw [hj] at hdigits' hbehind'
    rw [hlength]
    exact .fraction hdigits hdigits' hbehind'
  · have hnone : ∀ c r', rest = dot :: c :: r' → isDigit c = false := by
      intro c r' hrest
      exact Bool.eq_false_iff.mpr fun hc => hfraction ⟨c, r', hrest, hc⟩
    rw [fractionLength_eq_zero hnone, List.take_zero, List.append_nil, List.drop_zero]
    exact .integer hdigits hbehind hnone

/-- **What the lexing reads are items**, but for the terminator. -/
theorem Reads.lexical {k : Nat} {s : List UInt8} (h : Reads t depth s item k)
    (hitem : item ≠ .close) (hs : Characters s) : Lexical t item (s.take k) (s.drop k) := by
  cases h with
  | @blank b s hb =>
      obtain ⟨hblank, hbehind⟩ := run_spec isBlank (b :: s)
      obtain ⟨k, hk⟩ := exists_runLength (s := s) hb
      rw [hk] at hblank hbehind ⊢
      exact .blank hblank hbehind
  | @string b s hb =>
      have hquote := lt_of_isQuote b hb
      rw [Nat.add_comm]
      exact .string hb (literal_stringBodyLength false hquote (hs.tail_of_ascii hquote))
  | @rawString q s hq =>
      have hquote := lt_of_isQuote q hq
      have hbehind := (hs.tail_of_ascii (by decide)).tail_of_ascii hquote
      rw [Nat.add_comm]
      exact .rawString hq (literal_stringBodyLength true hquote hbehind)
  | comment hc =>
      have hbehind := characters_drop_commentOpener hc hs
      obtain ⟨z, rfl⟩ := List.isPrefixOf_iff_prefix.mp hc
      rw [commentLength, List.take_add, ← List.drop_drop]
      exact .comment (upTo_through (by decide) hbehind)
  | @identifier b s hb hraw =>
      have hcontinues : isNameContinue b = true := by simp [isNameContinue, hb]
      obtain ⟨hname, hbehind⟩ := run_spec isNameContinue (b :: s)
      obtain ⟨k, hk⟩ := exists_runLength (s := s) hcontinues
      rw [hk, List.take_succ_cons] at hname
      rw [hk] at hbehind ⊢
      refine .identifier hb (fun c hc => hname c (List.mem_cons_of_mem b hc)) hbehind ?_
      rintro rfl
      rw [List.drop_succ_cons, List.take_append_drop]
      simpa using hraw
  | number hb => exact lexical_number hb
  | @builtIn s hb =>
      cases s with
      | nil => exact absurd hb (by simp)
      | cons b s =>
          have hb : isNameStart b = true := by simpa using hb
          have hcontinues : isNameContinue b = true := by simp [isNameContinue, hb]
          obtain ⟨hname, hbehind⟩ := run_spec isNameContinue (b :: s)
          obtain ⟨k, hk⟩ := exists_runLength (s := s) hcontinues
          rw [hk, List.take_succ_cons] at hname
          rw [hk] at hbehind ⊢
          rw [Nat.add_comm]
          exact .builtIn hb (fun c hc => hname c (List.mem_cons_of_mem b hc)) hbehind
  | close _ _ => exact absurd rfl hitem
  | @operator b s hmark hcomment _ hname _ =>
      refine .operator hmark hcomment ?_
      rintro rfl
      simpa using hname

/-! ## Every text begins with one item -/

/-- No tag opens where a terminator stands. -/
theorem lengthAt?_of_opensTag {s : List UInt8} (h : t.comments.opensTag s = true) :
    t.lengthAt? s = none := by
  cases s with
  | nil => rfl
  | cons b s =>
      have hb : b = t.comments.openByte := Option.some.inj (head?_of_opensTag h)
      cases hlength : t.lengthAt? (b :: s) with
      | none => rfl
      | some k => exact absurd hb (isMark_of_lengthAt? hlength).2.2

/-- With some number of open brackets nothing keeps the lexing from going on. -/
theorem exists_depth (t : Terminator) (s : List UInt8) : ∃ depth : Nat,
    (0 < depth → t.comments.opensComment s = false → t.comments.opensTag s = false) ∧
      (depth = 0 → t.lengthAt? s = none) := by
  by_cases htag : t.comments.opensTag s = true
  · exact ⟨0, fun h => absurd h (Nat.lt_irrefl 0), fun _ => lengthAt?_of_opensTag htag⟩
  · exact ⟨1, fun _ _ => Bool.eq_false_iff.mpr htag, fun h => absurd h Nat.one_ne_zero⟩

theorem exists_lexical (t : Terminator) {s : List UInt8} (hs : Characters s) (hne : s ≠ []) :
    ∃ item x r, s = x ++ r ∧ Lexical t item x r := by
  obtain ⟨depth, htag, hclose⟩ := exists_depth t s
  have hsome : itemAt? t depth s ≠ none := by
    rw [Ne, itemAt?_eq_none_iff]
    rintro (hnil | ⟨hdepth, hcomment, hopens⟩)
    · exact hne hnil
    · rw [htag hdepth hcomment] at hopens
      exact Bool.false_ne_true hopens
  obtain ⟨⟨item, k⟩, hitem⟩ := Option.ne_none_iff_exists'.mp hsome
  have hreads := reads_of_itemAt? hitem
  refine ⟨item, s.take k, s.drop k, (List.take_append_drop k s).symm, hreads.lexical ?_ hs⟩
  rintro rfl
  obtain ⟨hdepth, hlength⟩ := reads_close_iff.mp hreads
  rw [hclose hdepth] at hlength
  exact absurd hlength (by simp)

theorem Lexical.unique (h : Lexical t item x r) (h' : Lexical t item' x' r')
    (hs : Characters (x ++ r)) (heq : x ++ r = x' ++ r') : item = item' ∧ x = x' ∧ r = r' := by
  obtain ⟨depth, htag, hclose⟩ := exists_depth t (x ++ r)
  have hreads := itemAt?_of_reads (h.reads hs htag hclose)
  rw [heq] at hs htag hclose hreads
  have hreads' := itemAt?_of_reads (h'.reads hs htag hclose)
  rw [hreads] at hreads'
  obtain ⟨rfl, hlength⟩ := Prod.mk.inj (Option.some.inj hreads')
  exact ⟨rfl, List.append_inj heq hlength⟩

/-- Behind an item whole characters follow. -/
theorem Lexical.characters (h : Lexical t item x r) (hs : Characters (x ++ r)) : Characters r := by
  obtain ⟨depth, htag, hclose⟩ := exists_depth t (x ++ r)
  have hbehind := (h.reads hs htag hclose).characters hs
  rwa [List.drop_left] at hbehind

end TemplateColoring.Expression

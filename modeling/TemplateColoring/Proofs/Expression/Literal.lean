import TemplateColoring.Proofs.Expression.Grammar
import TemplateColoring.Proofs.Expression.Lookahead
import TemplateColoring.Proofs.Text.Ending

/-!
# Where a string literal ends

Read from the front, a literal goes by its escapes: a backslash takes along what follows it.
`LiteralEnds` says the same by looking back from the quotes: the first one closes the literal that
has an even number of backslashes in front. The two agree (`Literal.ends`).

What is inside a literal matters to nothing else. Whatever other literal is put in its place, the
lexemes in front of it and behind it are the same ones (`lex_literal`). In front of it they are so
because no rule looks beyond a quote (`quiet_literalOpener`, `exists_front`).
-/

set_option autoImplicit false

namespace TemplateColoring.Expression

open Ascii Bytes Template Text

/-- In a text behind the opening quote of a literal, the quote behind `n` bytes closes it: in front
of it stands an even number of backslashes, or the literal is raw. -/
structure ClosesLiteral (raw : Bool) (q : UInt8) (s : List UInt8) (n : Nat) : Prop where
  quote : s[n]? = some q
  even : raw = false → Even (ending backslash (s.take n))

/-- How much of a text behind its opening quote a literal takes. -/
inductive LiteralEnds (raw : Bool) (q : UInt8) (s : List UInt8) : Nat → Prop
  /-- It ends behind the first quote that closes it. -/
  | quote {n : Nat} : ClosesLiteral raw q s n → (∀ m < n, ¬ClosesLiteral raw q s m) →
      LiteralEnds raw q s (n + 1)
  /-- Without one it goes to the end of the text. -/
  | text : (∀ n, ¬ClosesLiteral raw q s n) → LiteralEnds raw q s s.length

/-- What a literal starts with: its quote, behind an `r` if the literal is raw. -/
def literalOpener (raw : Bool) (q : UInt8) : List UInt8 := if raw then [letterR, q] else [q]

variable {t : Terminator} {depth n n' : Nat} {raw : Bool} {q : UInt8} {s u x y r : List UInt8}
  {pre post : List Lexeme}

/-! ## The closing quote -/

/-- Where no escape is cut, quotes are judged as if the text started there. -/
theorem closesLiteral_append_iff (hy : raw = false → Even (ending backslash y)) (n : Nat) :
    ClosesLiteral raw q (y ++ s) (y.length + n) ↔ ClosesLiteral raw q s n := by
  have hquote : (y ++ s)[y.length + n]? = s[n]? := by
    rw [List.getElem?_append_right (Nat.le_add_right _ _), Nat.add_sub_cancel_left]
  have htake : (y ++ s).take (y.length + n) = y ++ s.take n := List.take_length_add_append n
  constructor
  · rintro ⟨hq, heven⟩
    rw [hquote] at hq
    rw [htake] at heven
    exact ⟨hq, fun hraw => (even_ending_append (hy hraw) _).mp (heven hraw)⟩
  · rintro ⟨hq, heven⟩
    rw [← hquote] at hq
    refine ⟨hq, fun hraw => ?_⟩
    rw [htake]
    exact (even_ending_append (hy hraw) _).mpr (heven hraw)

/-- A literal ends where it would if it started later, if no quote in between closes it. -/
theorem LiteralEnds.append (h : LiteralEnds raw q s n)
    (hy : raw = false → Even (ending backslash y))
    (hno : ∀ m < y.length, ¬ClosesLiteral raw q (y ++ s) m) :
    LiteralEnds raw q (y ++ s) (y.length + n) := by
  -- whatever closes the literal stands behind `y`
  have hbehind : ∀ m, ClosesLiteral raw q (y ++ s) m →
      ∃ k, m = y.length + k ∧ ClosesLiteral raw q s k := by
    intro m hm
    have hle : y.length ≤ m := Nat.le_of_not_lt fun hlt => hno m hlt hm
    obtain ⟨k, rfl⟩ := Nat.exists_eq_add_of_le hle
    exact ⟨k, rfl, (closesLiteral_append_iff hy k).mp hm⟩
  cases h with
  | quote hcloses hfirst =>
      refine .quote ((closesLiteral_append_iff hy _).mpr hcloses) fun m hm hm' => ?_
      obtain ⟨k, rfl, hk⟩ := hbehind m hm'
      exact hfirst k (Nat.lt_of_add_lt_add_left hm) hk
  | text hnone =>
      rw [← List.length_append]
      refine .text fun m hm => ?_
      obtain ⟨k, -, hk⟩ := hbehind m hm
      exact hnone k hk

/-- A literal ends in one place only. -/
theorem LiteralEnds.unique (h : LiteralEnds raw q s n) (h' : LiteralEnds raw q s n') :
    n = n' := by
  cases h with
  | @quote n hcloses hfirst =>
      cases h' with
      | @quote n' hcloses' hfirst' =>
          rw [first_unique hfirst (not_not_intro hcloses) hfirst' (not_not_intro hcloses')]
      | text hnone => exact absurd hcloses (hnone n)
  | text hnone =>
      cases h' with
      | @quote n' hcloses' _ => exact absurd hcloses' (hnone n')
      | text _ => rfl

/-- **Escapes come to the parity of the backslashes**: passed by its escapes, a literal ends behind
the first quote with an even number of backslashes in front. -/
theorem Literal.ends (hq : q ≠ backslash) (h : Literal raw q x r) :
    LiteralEnds raw q (x ++ r) x.length := by
  -- what is passed in one step, a byte or an escape, leaves an even run of backslashes behind
  induction h with
  | closed r =>
      exact .quote ⟨rfl, fun _ => Even.zero⟩ fun m hm => absurd hm (Nat.not_lt_zero m)
  | unclosed => exact .text fun n hn => absurd hn.quote (by simp)
  | torn _ =>
      refine .text fun n hn => ?_
      have hmem : q ∈ [backslash] ++ [] := List.mem_of_getElem? hn.quote
      exact hq (List.mem_singleton.mp hmem)
  | @plain b x r hb hesc _ ih =>
      have hends := ih.append (y := [b]) ?_ ?_
      · rwa [List.length_singleton, Nat.add_comm] at hends
      · intro hraw
        have hne : b ≠ backslash := fun hbackslash => by simp [hesc hbackslash] at hraw
        exact (even_ending_cons hne []).mpr Even.zero
      · intro m hm hcloses
        obtain rfl : m = 0 := Nat.lt_one_iff.mp hm
        exact hb (Option.some.inj hcloses.quote)
  | @escaped b x r hraw _ ih =>
      have hends := ih.append (y := [backslash, b]) ?_ ?_
      · rwa [Nat.add_comm] at hends
      · exact fun _ => (even_ending_escaped b []).mpr Even.zero
      · intro m hm hcloses
        have hm : m = 0 ∨ m = 1 := by
          rw [List.length_cons, List.length_singleton] at hm
          omega
        rcases hm with rfl | rfl
        · exact hq (Option.some.inj hcloses.quote).symm
        · exact not_even_ending_singleton backslash (hcloses.even hraw)

/-- **A literal is lexed up to the quote that closes it.** -/
theorem stringBodyLength_eq_iff (raw : Bool) (hq : isQuote q = true) (hs : Characters s) :
    stringBodyLength raw q s = n ↔ LiteralEnds raw q s n := by
  have hends := (literal_stringBodyLength raw (lt_of_isQuote q hq) hs).ends
    (ne_backslash_of_isQuote hq)
  rw [List.take_append_drop, List.length_take, Nat.min_eq_left (stringBodyLength_le raw q s)]
    at hends
  constructor
  · rintro rfl
    exact hends
  · exact hends.unique

/-! ## The lexemes around a literal -/

/-- Where a literal opens it is the next lexeme, in front of what it does not take. -/
theorem lexFrom_literalOpener (t : Terminator) (depth : Nat) (raw : Bool) (hq : isQuote q = true)
    (u : List UInt8) : lexFrom t depth (literalOpener raw q ++ u) =
      ⟨.string, literalOpener raw q ++ u.take (stringBodyLength raw q u)⟩ ::
        lexFrom t depth (u.drop (stringBodyLength raw q u)) := by
  cases raw with
  | false =>
      have hreads : Reads t depth (q :: u) .string (1 + stringBodyLength false q u) := .string hq
      have hlex := lexFrom_of_reads hreads
      rw [Nat.add_comm] at hlex
      exact hlex
  | true =>
      have hreads : Reads t depth (letterR :: q :: u) .string (2 + stringBodyLength true q u) :=
        .rawString hq
      have hlex := lexFrom_of_reads hreads
      rw [Nat.add_comm] at hlex
      exact hlex

/-- Behind an opening quote whole characters follow. -/
theorem characters_behind_opener (hq : isQuote q = true)
    (hs : Characters (y ++ (literalOpener raw q ++ u))) : Characters u := by
  cases raw with
  | false => exact hs.of_append_cons (lt_of_isQuote q hq)
  | true =>
      have hsplit : y ++ (literalOpener true q ++ u) = y ++ [letterR] ++ q :: u := by
        rw [List.append_assoc]
        rfl
      rw [hsplit] at hs
      exact hs.of_append_cons (lt_of_isQuote q hq)

/-- No rule that is tried in front of a literal looks beyond its opening quote. -/
theorem quiet_literalOpener (raw : Bool) (hq : isQuote q = true) (u u' : List UInt8) :
    Quiet (literalOpener raw q ++ u) (literalOpener raw q ++ u') := by
  have hquote := Alike.of_quote hq u u'
  cases raw with
  | false => exact hquote.toQuiet
  | true => exact (hquote.append [letterR]).toQuiet

/-- What is read at the front of a text that has a lexeme. -/
theorem exists_reads_of_cons {lexeme : Lexeme} (h : lexFrom t depth s = lexeme :: post) :
    ∃ k, Reads t depth s lexeme.item k ∧ lexeme.text = s.take k ∧
      post = if lexeme.item = .close then []
        else lexFrom t (depthAfter depth lexeme.item s) (s.drop k) := by
  cases hitem : itemAt? t depth s with
  | none =>
      rw [lexFrom_of_none hitem] at h
      exact absurd h (by simp)
  | some found =>
      obtain ⟨item, k⟩ := found
      have hreads := reads_of_itemAt? hitem
      rw [lexFrom_of_reads hreads] at h
      obtain ⟨rfl, rfl⟩ := List.cons.inj h
      exact ⟨k, hreads, rfl, rfl⟩

/-- **The lexemes in front of a literal do not depend on it**, and neither do the brackets that are
open where it stands. -/
theorem exists_front (h : lexFrom t depth s = pre ++ ⟨.string, x⟩ :: post) :
    ∃ raw q u depth', isQuote q = true ∧
      s = (pre.map (·.text)).flatten ++ (literalOpener raw q ++ u) ∧
      ∀ u', lexFrom t depth ((pre.map (·.text)).flatten ++ (literalOpener raw q ++ u')) =
        pre ++ lexFrom t depth' (literalOpener raw q ++ u') := by
  induction pre generalizing depth s with
  | nil =>
      obtain ⟨k, hreads, -, -⟩ := exists_reads_of_cons h
      generalize hitem : (⟨.string, x⟩ : Lexeme).item = item at hreads
      cases hreads with
      | @string q u hq => exact ⟨false, q, u, depth, hq, rfl, fun u' => rfl⟩
      | @rawString q u hq => exact ⟨true, q, u, depth, hq, rfl, fun u' => rfl⟩
      | blank _ | comment _ | identifier _ _ | number _ | builtIn _ | close _ _
      | operator _ _ _ _ _ => exact absurd hitem (by simp)
  | cons lexeme pre ih =>
      obtain ⟨k, hreads, htext, hpost⟩ := exists_reads_of_cons h
      have hclose : lexeme.item ≠ .close := by
        intro hclose
        rw [if_pos hclose] at hpost
        exact absurd hpost (by simp)
      rw [if_neg hclose] at hpost
      obtain ⟨raw, q, u, depth', hq, hrest, hfront⟩ := ih hpost.symm
      refine ⟨raw, q, u, depth', hq, ?_, fun u' => ?_⟩
      · rw [List.map_cons, List.flatten_cons, List.append_assoc, ← hrest, htext,
          List.take_append_drop]
      · -- the lexeme is read again, and leaves as many brackets open as before
        have hk : lexeme.text.length = k := by
          rw [htext, List.length_take, Nat.min_eq_left hreads.bounds.2]
        have hs : s = lexeme.text ++ ((pre.map (·.text)).flatten ++ (literalOpener raw q ++ u)) := by
          rw [← hrest, htext, List.take_append_drop]
        have hquiet := (quiet_literalOpener raw hq u u').append (pre.map (·.text)).flatten
        rw [hs, ← hk] at hreads
        have hne : lexeme.text ≠ [] := List.ne_nil_of_length_pos hreads.bounds.1
        rw [hs, depthAfter_append hne _
          ((pre.map (·.text)).flatten ++ (literalOpener raw q ++ u'))] at hfront
        rw [List.map_cons, List.flatten_cons, List.append_assoc,
          lexFrom_of_reads (hreads.append hquiet), if_neg hclose, List.take_left, List.drop_left,
          hfront, List.cons_append]

/-- **A string literal ends at its closing quote, and nothing inside it matters.** Wherever it
stands, it takes the text behind its opening quote up to the first quote that closes it, or else to
the end; and with any other literal in its place, all other lexemes are the same. -/
theorem lex_literal (t : Terminator) (text : String)
    (h : lex t (ofString text).bytes.toList = pre ++ ⟨.string, x⟩ :: post) :
    ∃ raw q body rest, isQuote q = true ∧ x = literalOpener raw q ++ body ∧
      (ofString text).bytes.toList =
        (pre.map (·.text)).flatten ++ (literalOpener raw q ++ (body ++ rest)) ∧
      LiteralEnds raw q (body ++ rest) body.length ∧
      ∀ (text' : String) (body' : List UInt8), (ofString text').bytes.toList =
          (pre.map (·.text)).flatten ++ (literalOpener raw q ++ (body' ++ rest)) →
        LiteralEnds raw q (body' ++ rest) body'.length →
          lex t (ofString text').bytes.toList =
            pre ++ ⟨.string, literalOpener raw q ++ body'⟩ :: post := by
  obtain ⟨raw, q, u, depth, hq, htext, hfront⟩ := exists_front h
  -- the same number of brackets is open where the literal stands, whatever it is
  have hlex := hfront u
  rw [← htext, ← lex_eq_lexFrom, h, List.append_cancel_left_eq, lexFrom_literalOpener t depth raw hq]
    at hlex
  obtain ⟨hx, rfl⟩ := List.cons.inj hlex
  have hcharacters : ∀ (text : String) (u : List UInt8), (ofString text).bytes.toList =
      (pre.map (·.text)).flatten ++ (literalOpener raw q ++ u) → Characters u := by
    intro text u htext
    have hs : Characters (ofString text).bytes.toList := characters_toUTF8 text
    rw [htext] at hs
    exact characters_behind_opener hq hs
  refine ⟨raw, q, u.take (stringBodyLength raw q u), u.drop (stringBodyLength raw q u), hq,
    (Lexeme.mk.inj hx).2, ?_, ?_, fun text' body' htext' hends => ?_⟩
  · rw [List.take_append_drop]
    exact htext
  · rw [List.take_append_drop, List.length_take, Nat.min_eq_left (stringBodyLength_le raw q u)]
    exact (stringBodyLength_eq_iff raw hq (hcharacters text u htext)).mp rfl
  · have hlength := (stringBodyLength_eq_iff raw hq (hcharacters text' _ htext')).mpr hends
    rw [lex_eq_lexFrom, htext', hfront, lexFrom_literalOpener t depth raw hq, hlength,
      List.take_left, List.drop_left]

/-- An escaped quote, a closing character and a bracket stand inside this literal. -/
theorem lex_literal_escaped :
    lex (.tag .angle) (ofString "f('\\'>(')>").bytes.toList =
        [⟨.identifier, (ofString "f").bytes.toList⟩, ⟨.operator, (ofString "(").bytes.toList⟩] ++
          ⟨.string, (ofString "'\\'>('").bytes.toList⟩ ::
          [⟨.operator, (ofString ")").bytes.toList⟩, ⟨.close, (ofString ">").bytes.toList⟩] ∧
      ∃ raw q body rest,
        (ofString "'\\'>('").bytes.toList = literalOpener raw q ++ body ∧
        (ofString "f('\\'>(')>").bytes.toList =
          (ofString "f(").bytes.toList ++ (literalOpener raw q ++ (body ++ rest)) ∧
        LiteralEnds raw q (body ++ rest) body.length := by
  refine (and_iff_left_of_imp fun h => ?_).mpr (by decide)
  obtain ⟨raw, q, body, rest, -, hx, htext, hends, -⟩ := lex_literal (.tag .angle) _ h
  exact ⟨raw, q, body, rest, hx, htext, hends⟩

end TemplateColoring.Expression

import TemplateColoring.Proofs.Bytes.Characters
import TemplateColoring.Proofs.Expression.Lexeme

/-!
# Expressions stop between characters

In a text of whole characters every item of an expression takes whole characters, and so does the
expression. The delimiters are ASCII, names and numbers are runs of classes that tear no character,
and strings are passed character by character.
-/

set_option autoImplicit false

namespace TemplateColoring.Expression

open Ascii Bytes

/-! ## Strings, numbers and comments -/

theorem characters_drop_stringStep {raw : Bool} {quote : UInt8} {s : List UInt8} {k : Nat}
    (h : Characters s) (hk : stringStep raw quote s = some k) : Characters (s.drop k) := by
  cases s with
  | nil => exact absurd hk (by simp [stringStep])
  | cons b s =>
      simp only [stringStep] at hk
      split at hk
      · exact absurd hk (by simp)
      split at hk
      · next hesc =>
        -- the backslash takes a whole character along
        obtain rfl := Option.some.inj hk
        have hb : b = backslash := beq_iff_eq.mp (Bool.and_eq_true_iff.mp hesc).1
        have hs := h.tail_of_ascii (by rw [hb]; decide)
        rw [Nat.add_comm, List.drop_succ_cons]
        exact hs.drop_charLength
      · obtain rfl := Option.some.inj hk
        exact h.drop_charLength

theorem characters_drop_stringBodyLength {raw : Bool} {quote : UInt8} {s : List UInt8}
    (hquote : quote < 0x80) (h : Characters s) :
    Characters (s.drop (stringBodyLength raw quote s)) := by
  rw [stringBodyLength_eq]
  exact h.drop_walkThrough (bounded_stringStep raw quote)
    (fun _ _ => characters_drop_stringStep) hquote

theorem characters_drop_fractionLength {s : List UInt8} (h : Characters s) :
    Characters (s.drop (fractionLength s)) := by
  match s, h with
  | [], h => exact h
  | [_], h => exact h
  | point :: b :: rest, h =>
      simp only [fractionLength]
      split
      · next hfraction =>
        have hpoint : point = dot := beq_iff_eq.mp (Bool.and_eq_true_iff.mp hfraction).1
        rw [Nat.add_comm, List.drop_succ_cons]
        exact (h.tail_of_ascii (by rw [hpoint]; decide)).drop_runLength uniform_isDigit
      · exact h

theorem characters_drop_numberLength {s : List UInt8} (h : Characters s) :
    Characters (s.drop (numberLength s)) := by
  rw [numberLength, ← List.drop_drop]
  exact characters_drop_fractionLength (h.drop_runLength uniform_isDigit)

theorem ascii_openByte (b : Bracket) : b.openByte < 0x80 := by cases b <;> decide

theorem isAscii_commentClose (b : Bracket) : isAscii b.commentClose = true := by
  cases b <;> decide

theorem characters_drop_commentOpener {b : Bracket} {s : List UInt8} (hc : b.opensComment s = true)
    (h : Characters s) : Characters (s.drop 4) := by
  obtain ⟨z, rfl⟩ := List.isPrefixOf_iff_prefix.mp hc
  exact h.of_ascii_append (by cases b <;> decide)

theorem characters_drop_commentLength {b : Bracket} {s : List UInt8}
    (hc : b.opensComment s = true) (h : Characters s) :
    Characters (s.drop (commentLength b s)) := by
  rw [commentLength, ← List.drop_drop]
  exact (characters_drop_commentOpener hc h).drop_through (isAscii_commentClose b)

theorem isAscii_spellings (t : Terminator) : t.spellings.all isAscii = true := by
  cases t with
  | tag b => cases b <;> decide
  | brace | bracket => decide

theorem characters_drop_lengthAt? {t : Terminator} {s : List UInt8} {k : Nat}
    (hk : t.lengthAt? s = some k) (h : Characters s) : Characters (s.drop k) := by
  obtain ⟨w, hw, r, rfl, rfl⟩ := exists_of_lengthAt? hk
  rw [List.drop_left]
  exact h.of_ascii_append (List.all_eq_true.mp (isAscii_spellings t) w hw)

/-! ## Items and expressions -/

/-- An item takes whole characters. -/
theorem Reads.characters {t : Terminator} {depth : Nat} {s : List UInt8} {item : Item} {k : Nat}
    (h : Reads t depth s item k) (hs : Characters s) : Characters (s.drop k) := by
  cases h with
  | blank _ => exact hs.drop_runLength uniform_isBlank
  | @string b s hb =>
      have hquote := lt_of_isQuote b hb
      rw [Nat.add_comm, List.drop_succ_cons]
      exact characters_drop_stringBodyLength hquote (hs.tail_of_ascii hquote)
  | @rawString q s hq =>
      have hquote := lt_of_isQuote q hq
      rw [Nat.add_comm, List.drop_succ_cons, List.drop_succ_cons]
      exact characters_drop_stringBodyLength hquote
        ((hs.tail_of_ascii (by decide)).tail_of_ascii hquote)
  | comment hc => exact characters_drop_commentLength hc hs
  | identifier _ _ => exact hs.drop_runLength uniform_isNameContinue
  | number _ => exact characters_drop_numberLength hs
  | builtIn _ =>
      rw [Nat.add_comm, List.drop_succ_cons]
      exact (hs.tail_of_ascii (by decide)).drop_runLength uniform_isNameContinue
  | close _ hclose => exact characters_drop_lengthAt? hclose hs
  | operator hmark _ _ _ _ => exact hs.tail_of_ascii (lt_of_isMark _ hmark)

theorem characters_drop_lexFrom (t : Terminator) (depth : Nat) {s : List UInt8}
    (h : Characters s) : Characters (s.drop (reach (lexFrom t depth s)).length) := by
  induction depth, s using lex_induction (t := t) with
  | stop depth s hnone =>
      rw [lexFrom_of_none hnone]
      exact h
  | close depth s k hreads =>
      rw [lexFrom_of_reads hreads, if_pos rfl, reach_cons, List.length_take,
        Nat.min_eq_left hreads.bounds.2]
      exact hreads.characters h
  | item depth s item k hreads hclose ih =>
      rw [lexFrom_of_reads hreads, if_neg hclose, reach_cons, List.length_take,
        Nat.min_eq_left hreads.bounds.2, ← List.drop_drop]
      exact ih (hreads.characters h)

/-- An expression takes whole characters. -/
theorem characters_drop_extent (t : Terminator) {s : List UInt8} (h : Characters s) :
    Characters (s.drop (extent t s).length) :=
  characters_drop_lexFrom t 0 h

theorem characters_drop_interpolationOpener {style : InterpolationStyle} {s : List UInt8}
    (hopens : style.opens s = true) (h : Characters s) : Characters (s.drop 2) := by
  obtain ⟨a, b, z, rfl, ha, hb⟩ := exists_of_opens hopens
  have ha' : a < 0x80 := by rcases ha with rfl | rfl | rfl <;> decide
  have hb' : b < 0x80 := by rcases hb with rfl | rfl <;> decide
  exact (h.tail_of_ascii ha').tail_of_ascii hb'

theorem characters_drop_interpolationLength? {style : InterpolationStyle} {s : List UInt8} {k : Nat}
    (hk : interpolationLength? style s = some k) (h : Characters s) : Characters (s.drop k) := by
  unfold interpolationLength? at hk
  split at hk
  · next hopens =>
    obtain rfl := Option.some.inj hk
    rw [← List.drop_drop]
    exact characters_drop_extent _ (characters_drop_interpolationOpener hopens h)
  · exact absurd hk (by simp)

end TemplateColoring.Expression

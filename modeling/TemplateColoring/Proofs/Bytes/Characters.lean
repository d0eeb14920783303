import TemplateColoring.Proofs.Bytes.Classes
import TemplateColoring.Proofs.Bytes.Lookahead
import TemplateColoring.Template

/-!
# Whole characters

The bytes of a text are whole UTF-8 characters: leading bytes, each with the continuation bytes
that it announces. A scanner that starts in front of a character stops in front of one, since it
passes single ASCII bytes, runs of a class that does not tear multi-byte characters, and characters
as a whole. Offsets between whole characters are boundaries of the text.
-/

set_option autoImplicit false

namespace TemplateColoring.Bytes

open Ascii

/-- The text consists of whole characters. -/
inductive Characters : List UInt8 → Prop
  | nil : Characters []
  | cons {b : UInt8} {rest : List UInt8} (tail : List UInt8) : isContinuation b = false →
      (∀ c ∈ tail, isContinuation c = true) → charWidth b = tail.length + 1 → Characters rest →
      Characters (b :: (tail ++ rest))

/-! ## The bytes of a string -/

theorem leading_two : ∀ b : UInt8, isContinuation (b &&& 0x1f ||| 0xc0) = false ∧
    charWidth (b &&& 0x1f ||| 0xc0) = 2 := forall_byte (by decide +kernel)

theorem leading_three : ∀ b : UInt8, isContinuation (b &&& 0x0f ||| 0xe0) = false ∧
    charWidth (b &&& 0x0f ||| 0xe0) = 3 := forall_byte (by decide +kernel)

theorem leading_four : ∀ b : UInt8, isContinuation (b &&& 0x07 ||| 0xf0) = false ∧
    charWidth (b &&& 0x07 ||| 0xf0) = 4 := forall_byte (by decide +kernel)

theorem continuation : ∀ b : UInt8, isContinuation (b &&& 0x3f ||| 0x80) = true :=
  forall_byte (by decide +kernel)

theorem le_of_isContinuation : ∀ b : UInt8, isContinuation b = true → 0x80 ≤ b :=
  forall_byte (by decide +kernel)

theorem ascii_not_continuation : ∀ b : UInt8, b < 0x80 →
    isContinuation b = false ∧ charWidth b = 1 := forall_byte (by decide +kernel)

/-- A character is a leading byte and the continuation bytes that it announces. -/
theorem exists_encode (c : Char) : ∃ b tail, String.utf8EncodeChar c = b :: tail ∧
    isContinuation b = false ∧ (∀ e ∈ tail, isContinuation e = true) ∧
      charWidth b = tail.length + 1 := by
  match hsize : c.utf8Size, c.utf8Size_pos, c.utf8Size_le_four with
  | 1, _, _ =>
      have hlt : c.val.toUInt8 < 0x80 := by
        have hle := Char.utf8Size_eq_one_iff.mp hsize
        rw [UInt32.le_iff_toNat_le] at hle
        rw [UInt8.lt_iff_toNat_lt, UInt32.toNat_toUInt8]
        simp at hle ⊢
        omega
      obtain ⟨hb, hwidth⟩ := ascii_not_continuation _ hlt
      exact ⟨_, [], String.utf8EncodeChar_eq_singleton hsize, hb, by simp, hwidth⟩
  | 2, _, _ =>
      obtain ⟨hb, hwidth⟩ := leading_two (c.val >>> 6).toUInt8
      exact ⟨_, [_], String.utf8EncodeChar_eq_cons_cons hsize, hb, by simp [continuation], hwidth⟩
  | 3, _, _ =>
      obtain ⟨hb, hwidth⟩ := leading_three (c.val >>> 12).toUInt8
      exact ⟨_, [_, _], String.utf8EncodeChar_eq_cons_cons_cons hsize, hb,
        by simp [continuation], hwidth⟩
  | 4, _, _ =>
      obtain ⟨hb, hwidth⟩ := leading_four (c.val >>> 18).toUInt8
      exact ⟨_, [_, _, _], String.utf8EncodeChar_eq_cons_cons_cons_cons hsize, hb,
        by simp [continuation], hwidth⟩

/-- The bytes of one character are whole. -/
theorem Characters.encode (c : Char) {rest : List UInt8} (h : Characters rest) :
    Characters (String.utf8EncodeChar c ++ rest) := by
  obtain ⟨b, tail, hc, hb, htail, hwidth⟩ := exists_encode c
  rw [hc]
  exact .cons tail hb htail hwidth h

/-- Valid UTF-8 consists of whole characters. -/
theorem characters_of_isValidUTF8 {bytes : Array UInt8} (h : (ByteArray.mk bytes).IsValidUTF8) :
    Characters bytes.toList := by
  obtain ⟨cs, hcs⟩ := h
  obtain rfl : bytes = cs.utf8Encode.data := congrArg ByteArray.data hcs
  rw [List.utf8Encode, List.toList_data_toByteArray]
  clear hcs
  induction cs with
  | nil => exact .nil
  | cons c cs ih =>
      rw [List.flatMap_cons]
      exact .encode c ih

/-- The bytes of a string are whole characters. -/
theorem characters_toUTF8 (s : String) : Characters s.toUTF8.data.toList :=
  characters_of_isValidUTF8 s.isValidUTF8

/-! ## Passing whole characters -/

namespace Characters

variable {s : List UInt8}

theorem head_not_continuation (h : Characters s) : s.head?.any isContinuation = false := by
  cases h with
  | nil => rfl
  | cons _ hb _ _ _ => simpa using hb

/-- The character at the front of a text is a leading byte and its continuation bytes. -/
theorem charLength_cons {b : UInt8} {tail : List UInt8} (h : charWidth b = tail.length + 1)
    (rest : List UInt8) : charLength (b :: (tail ++ rest)) = (b :: tail).length := by
  rw [charLength, h, Nat.add_sub_cancel, List.take_left, List.length_cons, Nat.add_comm]

theorem take_charLength {b : UInt8} {tail : List UInt8} (h : charWidth b = tail.length + 1)
    (rest : List UInt8) :
    (b :: (tail ++ rest)).take (charLength (b :: (tail ++ rest))) = b :: tail := by
  rw [charLength_cons h, ← List.cons_append, List.take_left]

theorem append {t : List UInt8} (h : Characters s) (ht : Characters t) : Characters (s ++ t) := by
  induction h with
  | nil => exact ht
  | cons tail hb htail hwidth _ ih =>
      rw [List.cons_append, List.append_assoc]
      exact .cons tail hb htail hwidth ih

theorem drop_charLength (h : Characters s) : Characters (s.drop (charLength s)) := by
  cases h with
  | nil => exact .nil
  | cons _ _ _ hwidth hrest =>
      rw [charLength_cons hwidth, ← List.cons_append, List.drop_left]
      exact hrest

/-- What stands behind whole characters is whole characters too. -/
theorem of_append {x t : List UInt8} (hx : Characters x) (h : Characters (x ++ t)) :
    Characters t := by
  induction hx with
  | nil => exact h
  | @cons b rest tail _ _ hwidth _ ih =>
      have hdrop := h.drop_charLength
      rw [List.cons_append, List.append_assoc, charLength_cons hwidth, ← List.cons_append,
        List.drop_left] at hdrop
      exact ih hdrop

/-- Inside a character there are continuation bytes only. -/
theorem drop_inside (h : Characters s) {n : Nat} (hpos : 0 < n) (hn : n < charLength s) :
    ∃ c r, s.drop n = c :: r ∧ isContinuation c = true := by
  cases h with
  | nil => exact absurd hn (by simp [charLength])
  | @cons b rest tail _ htail hwidth _ =>
      obtain ⟨n, rfl⟩ : ∃ m, n = m + 1 := ⟨n - 1, by omega⟩
      rw [charLength_cons hwidth, List.length_cons, Nat.add_lt_add_iff_right] at hn
      refine ⟨tail[n], tail.drop (n + 1) ++ rest, ?_, htail _ (List.getElem_mem hn)⟩
      rw [List.drop_succ_cons, List.drop_append_of_le_length (Nat.le_of_lt hn),
        List.drop_eq_getElem_cons hn, List.cons_append]

/-- Behind an ASCII byte a new character starts. -/
theorem tail_of_ascii {b : UInt8} (h : Characters (b :: s)) (hb : b < 0x80) : Characters s := by
  generalize hs : b :: s = s' at h
  cases h with
  | nil => exact absurd hs (by simp)
  | @cons _ rest tail _ _ hwidth hrest =>
      obtain ⟨rfl, rfl⟩ := List.cons.inj hs
      rw [(ascii_not_continuation _ hb).2] at hwidth
      have htail : tail = [] := List.eq_nil_of_length_eq_zero (by omega)
      rwa [htail, List.nil_append]

theorem of_ascii_append {x r : List UInt8} (h : Characters (x ++ r)) (hx : isAscii x = true) :
    Characters r := by
  induction x with
  | nil => exact h
  | cons b x ih =>
      rw [isAscii, List.all_cons, Bool.and_eq_true] at hx
      exact ih (h.tail_of_ascii (of_decide_eq_true hx.1)) hx.2

/-- A character belongs to a run as a whole, for a class that treats all multi-byte characters
alike. -/
theorem runLength_character {p : UInt8 → Bool} (hp : Uniform p) {b : UInt8} {tail : List UInt8}
    (htail : ∀ c ∈ tail, isContinuation c = true) (hwidth : charWidth b = tail.length + 1)
    (hpb : p b = true) (rest : List UInt8) :
    runLength p (b :: tail ++ rest) = (b :: tail).length + runLength p rest := by
  have hall : ∀ c ∈ b :: tail, p c = true := by
    rintro c (_ | ⟨_, hc⟩)
    · exact hpb
    · -- the character has more than one byte, so its first is like the others
      have hhigh : 0x80 ≤ b := by
        refine UInt8.not_lt.mp fun hlt => ?_
        have := List.length_pos_of_mem hc
        rw [(ascii_not_continuation b hlt).2] at hwidth
        omega
      rwa [hp c (le_of_isContinuation c (htail c hc)), ← hp b hhigh]
  rw [runLength, List.takeWhile_append_of_pos hall, List.length_append, runLength]

/-- A run of a class that treats all multi-byte characters alike tears none of them. -/
theorem drop_runLength {p : UInt8 → Bool} (hp : Uniform p) (h : Characters s) :
    Characters (s.drop (runLength p s)) := by
  induction h with
  | nil => exact .nil
  | @cons b rest tail hb htail hwidth hrest ih =>
      rw [← List.cons_append]
      by_cases hpb : p b = true
      · rwa [runLength_character hp htail hwidth hpb, List.drop_length_add_append]
      · have hrun : runLength p (b :: tail ++ rest) = 0 := by
          simp [runLength, hpb]
        rw [hrun]
        exact .cons tail hb htail hwidth hrest

/-- A walk that passes the characters of a class one by one passes a run of the class. -/
theorem walk_runLength {step : List UInt8 → Option Nat} {p : UInt8 → Bool} (hb : Bounded step)
    (hp : Uniform p)
    (hstep : ∀ b s, p b = true → step (b :: s) = some (charLength (b :: s)))
    (h : Characters s) :
    walk step s = runLength p s + walk step (s.drop (runLength p s)) := by
  induction h with
  | nil => rfl
  | @cons b rest tail _ htail hwidth hrest ih =>
      by_cases hpb : p b = true
      · have hchar := charLength_cons hwidth rest
        have hfirst := hstep b (tail ++ rest) hpb
        calc walk step (b :: (tail ++ rest))
            = charLength (b :: (tail ++ rest)) +
                walk step ((b :: tail ++ rest).drop (charLength (b :: (tail ++ rest)))) :=
              walk_eq_add hb (by simp) hfirst
          _ = (b :: tail).length + walk step rest := by rw [hchar, List.drop_left]
          _ = (b :: tail).length + (runLength p rest + walk step (rest.drop (runLength p rest))) := by
              rw [← ih]
          _ = runLength p (b :: tail ++ rest) +
                walk step ((b :: tail ++ rest).drop (runLength p (b :: tail ++ rest))) := by
              rw [runLength_character hp htail hwidth hpb, List.drop_length_add_append,
                Nat.add_assoc]
      · have hrun : runLength p (b :: (tail ++ rest)) = 0 := by
          simp [runLength, hpb]
        rw [hrun, Nat.zero_add, List.drop_zero]

/-- A walk whose steps pass whole characters does so. -/
theorem drop_walk {step : List UInt8 → Option Nat} (hb : Bounded step)
    (hstep : ∀ s k, Characters s → step s = some k → Characters (s.drop k)) (h : Characters s) :
    Characters (s.drop (walk step s)) := by
  induction s using walk_induction hb with
  | stop s hs =>
      rw [walk_eq_zero hs]
      exact h
  | pass s k hs hk ih =>
      rw [walk_eq_add hb hs hk, ← List.drop_drop]
      exact ih (hstep s k h hk)

/-- So does a walk that goes on over an ASCII byte. -/
theorem drop_walkThrough {step : List UInt8 → Option Nat} {close : UInt8} (hb : Bounded step)
    (hstep : ∀ s k, Characters s → step s = some k → Characters (s.drop k))
    (hclose : close < 0x80) (h : Characters s) :
    Characters (s.drop (walkThrough step close s).length) := by
  have hwalk := h.drop_walk hb hstep
  simp only [walkThrough]
  split
  · next hhead =>
    obtain ⟨rest, hrest⟩ := List.head?_eq_some_iff.mp hhead
    rw [hrest] at hwalk
    rw [← List.drop_drop, hrest]
    exact hwalk.tail_of_ascii hclose
  · exact hwalk

theorem drop_distanceTo (needle : List UInt8) (h : Characters s) :
    Characters (s.drop (distanceTo needle s)) := by
  refine h.drop_walk (bounded_searchStep needle) fun s k hs hk => ?_
  unfold searchStep at hk
  split at hk
  · exact absurd hk (by simp)
  · obtain rfl := Option.some.inj hk
    exact hs.drop_charLength

theorem drop_through {needle : List UInt8} (hn : isAscii needle = true) (h : Characters s) :
    Characters (s.drop (through needle s).length) := by
  rcases through_cases needle s with ⟨hall, -⟩ | ⟨hfit, -, hp⟩
  · rw [hall, List.drop_length]
    exact .nil
  · obtain ⟨r, hr⟩ := List.isPrefixOf_iff_prefix.mp hp
    have hdist := h.drop_distanceTo needle
    rw [← hr] at hdist
    rw [hfit, ← List.drop_drop, ← hr, List.drop_left]
    exact hdist.of_ascii_append hn

end Characters

/-! ## Boundaries -/

theorem isBoundary_iff {bytes : Array UInt8} {n : Nat} (hn : n ≤ bytes.size) :
    Template.isBoundary bytes n = true ↔
      (bytes.toList.drop n).head?.any isContinuation = false := by
  have hbyte : ∀ b : UInt8, (decide (b < 0x80) || decide (0xC0 ≤ b)) = !isContinuation b :=
    forall_byte (by decide +kernel)
  rw [List.head?_drop, Array.getElem?_toList, Template.isBoundary]
  cases h : bytes[n]? with
  | none =>
      have := Array.getElem?_eq_none_iff.mp h
      simp only [Option.any_none, beq_iff_eq, iff_true]
      omega
  | some b => simp [hbyte]

/-- Where whole characters follow there is a boundary. -/
theorem Characters.isBoundary {bytes : Array UInt8} {n : Nat} (hn : n ≤ bytes.size)
    (h : Characters (bytes.toList.drop n)) : Template.isBoundary bytes n = true :=
  (isBoundary_iff hn).mpr h.head_not_continuation

/-- Behind a byte that continues no character whole characters follow. -/
theorem Characters.drop_of_head {s : List UInt8} (h : Characters s) {n : Nat}
    (hhead : (s.drop n).head?.any isContinuation = false) : Characters (s.drop n) := by
  induction h generalizing n with
  | nil =>
      rw [List.drop_nil]
      exact .nil
  | @cons b rest tail hb htail hwidth hrest ih =>
      have hall : Characters (b :: (tail ++ rest)) := .cons tail hb htail hwidth hrest
      by_cases hin : n < charLength (b :: (tail ++ rest))
      · cases n with
        | zero => exact hall
        | succ n =>
            obtain ⟨c, r, hdrop, hc⟩ := hall.drop_inside (Nat.succ_pos n) hin
            rw [hdrop, List.head?_cons, Option.any_some, hc] at hhead
            exact absurd hhead (by simp)
      · -- the place lies behind the first character
        obtain ⟨m, rfl⟩ := Nat.exists_eq_add_of_le (Nat.le_of_not_lt hin)
        rw [charLength_cons hwidth, ← List.cons_append, List.drop_length_add_append] at hhead ⊢
        exact ih hhead

/-- Behind an ASCII byte whole characters follow, wherever it stands. -/
theorem Characters.of_append_cons {y u : List UInt8} {b : UInt8} (h : Characters (y ++ b :: u))
    (hb : b < 0x80) : Characters u := by
  have hhead : ((y ++ b :: u).drop y.length).head?.any isContinuation = false := by
    rw [List.drop_left, List.head?_cons, Option.any_some]
    exact (ascii_not_continuation b hb).1
  have hbehind := h.drop_of_head hhead
  rw [List.drop_left] at hbehind
  exact hbehind.tail_of_ascii hb

/-- Behind a boundary of a text whole characters follow. -/
theorem Characters.drop_of_isBoundary {bytes : Array UInt8} {n : Nat} (hn : n ≤ bytes.size)
    (h : Characters bytes.toList) (hboundary : Template.isBoundary bytes n = true) :
    Characters (bytes.toList.drop n) :=
  h.drop_of_head ((isBoundary_iff hn).mp hboundary)

/-! ## Cutting a text -/

/-- Between the bytes of characters there is a cut where whole characters follow, and nowhere
else. -/
theorem exists_chars_of_append {chars : List Char} {x t : List UInt8}
    (h : chars.flatMap String.utf8EncodeChar = x ++ t) (ht : Characters t) :
    ∃ front back : List Char, front.flatMap String.utf8EncodeChar = x ∧
      back.flatMap String.utf8EncodeChar = t := by
  induction chars generalizing x with
  | nil =>
      obtain ⟨rfl, rfl⟩ := List.append_eq_nil_iff.mp h.symm
      exact ⟨[], [], rfl, rfl⟩
  | cons c chars ih =>
      obtain ⟨b, tail, hc, -, htail, -⟩ := exists_encode c
      cases x with
      | nil => exact ⟨[], c :: chars, rfl, h⟩
      | cons b' x =>
          rw [List.flatMap_cons, hc, List.cons_append, List.cons_append] at h
          obtain ⟨rfl, htails⟩ := List.cons.inj h
          rcases List.append_eq_append_iff.mp htails with ⟨y, rfl, hy⟩ | ⟨y, rfl, rfl⟩
          · -- the cut lies behind the first character
            obtain ⟨front, back, rfl, hback⟩ := ih hy
            exact ⟨c :: front, back, by simp [hc], hback⟩
          · cases y with
            | nil => exact ⟨[c], chars, by simp [hc], rfl⟩
            | cons e y =>
                -- it would lie inside, where `t` starts with a continuation byte
                have hcontinues := htail e (by simp)
                have hno := ht.head_not_continuation
                rw [List.cons_append, List.head?_cons, Option.any_some, hcontinues] at hno
                exact absurd hno (by simp)

theorem toList_toUTF8_ofList (chars : List Char) :
    (String.ofList chars).toUTF8.data.toList = chars.flatMap String.utf8EncodeChar := by
  rw [String.toUTF8_eq_toByteArray, String.toByteArray_ofList, List.utf8Encode,
    List.toList_data_toByteArray]

/-- A text that is cut in front of whole characters falls into two texts. -/
theorem exists_strings_of_append {s : String} {x t : List UInt8}
    (h : s.toUTF8.data.toList = x ++ t) (ht : Characters t) :
    ∃ front back : String, front.toUTF8.data.toList = x ∧ back.toUTF8.data.toList = t := by
  rw [← String.ofList_toList (s := s), toList_toUTF8_ofList] at h
  obtain ⟨front, back, hfront, hback⟩ := exists_chars_of_append h ht
  exact ⟨.ofList front, .ofList back, (toList_toUTF8_ofList front).trans hfront,
    (toList_toUTF8_ofList back).trans hback⟩

end TemplateColoring.Bytes

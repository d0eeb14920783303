import TemplateColoring.Proofs.Recognition.Lines

/-!
# Escapes that name no character

Reading a property list fails at the first entry that has, in its key or in its value, an escape
`\u` that names no character, and the failure tells the line on which that entry starts. In any
other case it succeeds (`parse_malformed`). Four hexadecimal digits name a character by its code
point; a plus sign and three digits are taken for the same (`Accepted`), though they are no digits
(`parse_plus_sign`).

Whether a backslash escapes what follows it is told by the backslashes in front of it (`Escapes`),
and so is where a key ends (`KeyEnds`). The passes over a line carry this as they go.
-/

set_option autoImplicit false

namespace TemplateColoring.PropertyList

open Text

variable {accepted : List Char → Prop} {b c : Char} {s x y line key rest key' rest' : List Char}

/-! ## Keys -/

/-- The characters that end a key. -/
def separators : List Char := ['=', ':', ' ', '\t', '\x0c']

/-- `key` is what stands in the line in front of the first separator that is not escaped. -/
structure KeyEnds (line key rest : List Char) : Prop where
  parts : line = key ++ rest
  inside : ∀ x c y, key = x ++ c :: y → c ∈ separators → ¬Even (ending '\\' x)
  behind : ∀ c y, rest = c :: y → c ∈ separators ∧ Even (ending '\\' key)

theorem mem_separators_iff : c ∈ separators ↔ (c == '=' || c == ':' || isBlank c) = true := by
  simp [separators, isBlank, or_assoc]

/-- A key ends in one place only. -/
theorem KeyEnds.unique (h : KeyEnds line key rest) (h' : KeyEnds line key' rest') :
    key = key' ∧ rest = rest' := by
  -- what one key has more than the other starts with a separator, and so the longer one escapes it
  have hshort {key rest key' rest' more : List Char} (h : KeyEnds line key rest)
      (h' : KeyEnds line key' rest') (hkey : key' = key ++ more) (hrest : rest = more ++ rest') :
      key = key' ∧ rest = rest' := by
    cases more with
    | nil => exact ⟨by rw [hkey, List.append_nil], hrest⟩
    | cons c y =>
        obtain ⟨hc, heven⟩ := h.behind c (y ++ rest') hrest
        exact absurd heven (h'.inside key c y hkey hc)
  rcases List.append_eq_append_iff.mp (h.parts.symm.trans h'.parts) with
    ⟨more, hkey, hrest⟩ | ⟨more, hkey, hrest⟩
  · exact hshort h h' hkey hrest
  · obtain ⟨hkey, hrest⟩ := hshort h' h hkey hrest
    exact ⟨hkey.symm, hrest.symm⟩

theorem KeyEnds.nil : KeyEnds [] [] [] where
  parts := rfl
  inside x c y hkey := absurd hkey (by simp)
  behind c y hrest := absurd hrest (by simp)

/-- A separator at the front of a line ends an empty key. -/
theorem KeyEnds.separator (hc : c ∈ separators) (s : List Char) : KeyEnds (c :: s) [] (c :: s) where
  parts := rfl
  inside x c y hkey := absurd hkey (by simp)
  behind d y hrest := by
    obtain ⟨rfl, -⟩ := List.cons.inj hrest
    exact ⟨hc, Even.zero⟩

theorem KeyEnds.plain (hb : b ≠ '\\') (hsep : b ∉ separators) (h : KeyEnds line key rest) :
    KeyEnds (b :: line) (b :: key) rest where
  parts := by rw [h.parts, List.cons_append]
  inside x c y hkey hc := by
    cases x with
    | nil =>
        obtain ⟨rfl, -⟩ := List.cons.inj hkey
        exact absurd hc hsep
    | cons d x =>
        obtain ⟨rfl, hback⟩ := List.cons.inj hkey
        rw [even_ending_cons hb]
        exact h.inside x c y hback hc
  behind c y hrest := by
    rw [even_ending_cons hb]
    exact h.behind c y hrest

theorem KeyEnds.escaped (b : Char) (h : KeyEnds line key rest) :
    KeyEnds ('\\' :: b :: line) ('\\' :: b :: key) rest where
  parts := by rw [h.parts, List.cons_append, List.cons_append]
  inside x c y hkey hc := by
    match x, hkey with
    | [], hkey =>
        obtain ⟨rfl, -⟩ := List.cons.inj hkey
        exact absurd hc (by decide)
    | [d], hkey =>
        obtain ⟨rfl, -⟩ := List.cons.inj hkey
        exact not_even_ending_singleton '\\'
    | d :: e :: x, hkey =>
        simp only [List.cons_append, List.cons.injEq] at hkey
        obtain ⟨rfl, rfl, hback⟩ := hkey
        rw [even_ending_escaped]
        exact h.inside x c y hback hc
  behind c y hrest := by
    rw [even_ending_escaped]
    exact h.behind c y hrest

/-- A backslash at the end of a line belongs to the key. -/
theorem KeyEnds.backslash : KeyEnds ['\\'] ['\\'] [] where
  parts := rfl
  inside x c y hkey hc := by
    cases x with
    | nil =>
        obtain ⟨rfl, -⟩ := List.cons.inj hkey
        exact absurd hc (by decide)
    | cons d x => exact absurd (congrArg List.length hkey) (by simp)
  behind c y hrest := absurd hrest (by simp)

/-- **The key that is split off ends at the first separator that is not escaped.** -/
theorem keyEnds_splitKey (line : List Char) :
    KeyEnds line (splitKey line).1 (splitKey line).2 := by
  induction line using splitKey.induct with
  | case1 => exact .nil
  | case2 => exact .backslash
  | case3 c s key rest hs ih =>
      rw [splitKey]
      exact .escaped c ih
  | case4 c s hlone hpair hsep =>
      rw [splitKey.eq_4 c s hlone hpair, if_pos hsep]
      exact .separator (mem_separators_iff.mpr hsep) s
  | case5 c s hlone hpair hsep key rest hs ih =>
      have hc : c ≠ '\\' := by
        rintro rfl
        cases s with
        | nil => exact hlone rfl rfl
        | cons d s => exact hpair d s rfl rfl
      rw [splitKey.eq_4 c s hlone hpair, if_neg hsep]
      exact .plain hc (fun hmem => hsep (mem_separators_iff.mp hmem)) ih

/-! ## Hexadecimal digits -/

/-- The hexadecimal digits, the capital ones last. -/
def hexDigits : List Char :=
  ['0', '1', '2', '3', '4', '5', '6', '7', '8', '9', 'a', 'b', 'c', 'd', 'e', 'f',
    'A', 'B', 'C', 'D', 'E', 'F']

/-- The value of a digit. A capital stands six places behind the small letter of its value. -/
def digitValue (c : Char) : Nat :=
  if hexDigits.idxOf c < 16 then hexDigits.idxOf c else hexDigits.idxOf c - 6

/-- The number that digits write. -/
def numberOf (digits : List Char) : Nat := digits.foldl (fun n c => n * 16 + digitValue c) 0

/-- The text starts with `n` hexadecimal digits, and the number that they write is the code point of
a character, which no surrogate is. -/
def StartsHex (n : Nat) (s : List Char) : Prop :=
  ∃ digits rest, s = digits ++ rest ∧ digits.length = n ∧ (∀ c ∈ digits, c ∈ hexDigits) ∧
    (numberOf digits).isValidChar

theorem hexDigit?_eq (c : Char) :
    hexDigit? c = if c ∈ hexDigits then some (digitValue c) else none := by
  by_cases hc : c.toNat < 128
  · have hall : ∀ n < 128, hexDigit? (Char.ofNat n) =
        if Char.ofNat n ∈ hexDigits then some (digitValue (Char.ofNat n)) else none := by
      decide +kernel
    simpa using hall c.toNat hc
  · have hall : hexDigits.all (·.toNat < 128) = true := by decide
    have hmem : c ∉ hexDigits := fun hmem => hc (by simpa using List.all_eq_true.mp hall c hmem)
    have hle (d : Char) (hd : d.toNat < 128) : ¬c ≤ d := by
      intro h
      have hle : c.toNat ≤ d.toNat := h
      omega
    rw [if_neg hmem]
    simp [hexDigit?, hle '9' (by decide), hle 'f' (by decide), hle 'F' (by decide)]

theorem hexNumber?_eq_some_iff (value n : Nat) (digits : List Char) :
    hexNumber? value digits = some n ↔ (∀ c ∈ digits, c ∈ hexDigits) ∧
      digits.foldl (fun n c => n * 16 + digitValue c) value = n := by
  induction digits generalizing value with
  | nil => simp [hexNumber?]
  | cons c digits ih =>
      rw [hexNumber?, hexDigit?_eq, List.forall_mem_cons, List.foldl_cons]
      by_cases hc : c ∈ hexDigits
      · rw [if_pos hc, Option.bind_some, ih, and_iff_right hc]
      · simp [hc]

/-- The number that some characters write is taken for a character if all of them are digits and it
is the code point of one. -/
theorem isSome_ofNumber_iff (digits : List Char) : ((hexNumber? 0 digits).bind fun n =>
    if n.isValidChar then some (Char.ofNat n) else none).isSome = true ↔
      (∀ c ∈ digits, c ∈ hexDigits) ∧ (numberOf digits).isValidChar := by
  rw [Option.isSome_iff_exists]
  constructor
  · rintro ⟨x, hx⟩
    obtain ⟨n, hn, hchar⟩ := Option.bind_eq_some_iff.mp hx
    obtain ⟨hhex, rfl⟩ := (hexNumber?_eq_some_iff 0 n digits).mp hn
    split at hchar
    · next hvalid => exact ⟨hhex, hvalid⟩
    · exact absurd hchar (by simp)
  · rintro ⟨hhex, hvalid⟩
    have hn := (hexNumber?_eq_some_iff 0 _ digits).mpr ⟨hhex, rfl⟩
    exact ⟨_, Option.bind_eq_some_iff.mpr ⟨_, hn, if_pos hvalid⟩⟩

theorem startsHex_append_iff (digits s : List Char) : StartsHex digits.length (digits ++ s) ↔
    (∀ c ∈ digits, c ∈ hexDigits) ∧ (numberOf digits).isValidChar := by
  constructor
  · rintro ⟨digits', rest, hs, hlength, hhex⟩
    obtain ⟨rfl, -⟩ := List.append_inj hs hlength.symm
    exact hhex
  · intro hhex
    exact ⟨digits, s, rfl, rfl, hhex⟩

theorem StartsHex.le_length {n : Nat} (h : StartsHex n s) : n ≤ s.length := by
  obtain ⟨digits, rest, rfl, rfl, -⟩ := h
  simp

/-! ## Escapes -/

/-- In `s` there is `\u` in front of `rest`, and the backslash is not escaped itself. -/
def Escapes (s rest : List Char) : Prop := ∃ x, Even (ending '\\' x) ∧ s = x ++ '\\' :: 'u' :: rest

/-- What follows some escape `\u` is not as it should be. -/
def BadEscape (accepted : List Char → Prop) (s : List Char) : Prop :=
  ∃ rest, Escapes s rest ∧ ¬accepted rest

/-- The key or the value of a line has a bad escape. -/
def Malformed (accepted : List Char → Prop) (line : List Char) : Prop :=
  ∃ key rest, KeyEnds line key rest ∧
    (BadEscape accepted key ∨ BadEscape accepted (rawValue rest))

/-- What the reader takes behind `\u`: four digits that name a character, or a plus sign and
three. -/
def Accepted (s : List Char) : Prop := StartsHex 4 s ∨ ∃ rest, s = '+' :: rest ∧ StartsHex 3 rest

theorem malformed_iff : Malformed accepted line ↔
    BadEscape accepted (splitKey line).1 ∨ BadEscape accepted (rawValue (splitKey line).2) := by
  constructor
  · rintro ⟨key, rest, hends, hbad⟩
    obtain ⟨rfl, rfl⟩ := hends.unique (keyEnds_splitKey line)
    exact hbad
  · intro hbad
    exact ⟨_, _, keyEnds_splitKey line, hbad⟩

theorem Accepted.le_length (h : Accepted s) : 4 ≤ s.length := by
  rcases h with h | ⟨rest, rfl, h⟩
  · exact h.le_length
  · exact Nat.succ_le_succ h.le_length

theorem plus_not_mem_hexDigits : '+' ∉ hexDigits := by decide

/-- Four characters name one just if they are accepted behind `\u`. -/
theorem isSome_escapedChar?_iff {a b c d : Char} :
    (escapedChar? a b c d).isSome = true ↔ Accepted (a :: b :: c :: d :: s) := by
  have hfour := startsHex_append_iff [a, b, c, d] s
  have hthree := startsHex_append_iff [b, c, d] s
  by_cases ha : a = '+'
  · subst ha
    have hno : ¬StartsHex 4 ('+' :: b :: c :: d :: s) := fun h =>
      plus_not_mem_hexDigits ((hfour.mp h).1 '+' List.mem_cons_self)
    rw [escapedChar?, if_pos (beq_self_eq_true _), isSome_ofNumber_iff, ← hthree]
    constructor
    · exact fun h => .inr ⟨_, rfl, h⟩
    · rintro (h | ⟨rest, hrest, h⟩)
      · exact absurd h hno
      · obtain ⟨-, rfl⟩ := List.cons.inj hrest
        exact h
  · rw [escapedChar?, if_neg (by simpa using ha), isSome_ofNumber_iff, ← hfour]
    constructor
    · exact fun h => .inl h
    · rintro (h | ⟨rest, hrest, -⟩)
      · exact h
      · exact absurd (List.cons.inj hrest).1 ha

/-- What is accepted behind `\u` starts with four characters that escape nothing. -/
theorem Accepted.ne_backslash {a b c d : Char} (h : Accepted (a :: b :: c :: d :: s)) :
    a ≠ '\\' ∧ b ≠ '\\' ∧ c ≠ '\\' ∧ d ≠ '\\' := by
  have hne {c : Char} (hc : c ∈ hexDigits) : c ≠ '\\' := fun heq => absurd (heq ▸ hc) (by decide)
  rcases h with h | ⟨rest, hrest, h⟩
  · obtain ⟨hhex, -⟩ := (startsHex_append_iff [a, b, c, d] s).mp h
    exact ⟨hne (hhex a (by simp)), hne (hhex b (by simp)), hne (hhex c (by simp)),
      hne (hhex d (by simp))⟩
  · obtain ⟨rfl, rfl⟩ := List.cons.inj hrest
    obtain ⟨hhex, -⟩ := (startsHex_append_iff [b, c, d] s).mp h
    exact ⟨by decide, hne (hhex b (by simp)), hne (hhex c (by simp)), hne (hhex d (by simp))⟩

/-! ### Escapes at the front of a text -/

theorem escapes_cons_iff (hb : b ≠ '\\') : Escapes (b :: s) rest ↔ Escapes s rest := by
  constructor
  · rintro ⟨x, heven, hs⟩
    cases x with
    | nil => exact absurd (List.cons.inj hs).1 hb
    | cons d x =>
        obtain ⟨rfl, hback⟩ := List.cons.inj hs
        exact ⟨x, (even_ending_cons hb x).mp heven, hback⟩
  · rintro ⟨x, heven, rfl⟩
    exact ⟨b :: x, (even_ending_cons hb x).mpr heven, rfl⟩

/-- Behind a backslash and what it escapes everything is as if it stood alone. -/
theorem escapes_escaped_iff : Escapes ('\\' :: b :: s) rest ↔
    b = 'u' ∧ s = rest ∨ Escapes s rest := by
  constructor
  · rintro ⟨x, heven, hs⟩
    match x, hs with
    | [], hs =>
        obtain ⟨-, hs⟩ := List.cons.inj hs
        exact .inl (List.cons.inj hs)
    | [d], hs =>
        obtain ⟨rfl, -⟩ := List.cons.inj hs
        exact absurd heven (not_even_ending_singleton '\\')
    | d :: e :: x, hs =>
        simp only [List.cons_append, List.cons.injEq] at hs
        obtain ⟨rfl, rfl, hback⟩ := hs
        exact .inr ⟨x, (even_ending_escaped b x).mp heven, hback⟩
  · rintro (⟨rfl, rfl⟩ | ⟨x, heven, rfl⟩)
    · exact ⟨[], Even.zero, rfl⟩
    · exact ⟨'\\' :: b :: x, (even_ending_escaped b x).mpr heven, rfl⟩

theorem badEscape_cons_iff (hb : b ≠ '\\') :
    BadEscape accepted (b :: s) ↔ BadEscape accepted s := by
  simp only [BadEscape, escapes_cons_iff hb]

theorem badEscape_escaped_iff : BadEscape accepted ('\\' :: b :: s) ↔
    b = 'u' ∧ ¬accepted s ∨ BadEscape accepted s := by
  simp only [BadEscape, escapes_escaped_iff]
  constructor
  · rintro ⟨rest, ⟨rfl, rfl⟩ | hescapes, hbad⟩
    · exact .inl ⟨rfl, hbad⟩
    · exact .inr ⟨rest, hescapes, hbad⟩
  · rintro (⟨rfl, hbad⟩ | ⟨rest, hescapes, hbad⟩)
    · exact ⟨s, .inl ⟨rfl, rfl⟩, hbad⟩
    · exact ⟨rest, .inr hescapes, hbad⟩

/-- A text without an escape of two characters has no bad one. -/
theorem not_badEscape_of_length (hs : s.length < 2) : ¬BadEscape accepted s := by
  rintro ⟨rest, ⟨x, -, rfl⟩, -⟩
  simp only [List.length_append, List.length_cons] at hs
  omega

/-! ## Reading -/

/-- **Escapes are replaced unless one is bad.** -/
theorem unescape_eq_none_iff (s : List Char) : unescape s = none ↔ BadEscape Accepted s := by
  induction s using unescape.induct with
  | case1 => exact iff_of_false (by simp [unescape]) (not_badEscape_of_length (by simp))
  | case2 => exact iff_of_false (by simp [unescape]) (not_badEscape_of_length (by simp))
  | case3 a b c d s ih =>
      rw [badEscape_escaped_iff, unescape]
      cases hchar : escapedChar? a b c d with
      | none =>
          have hbad : ¬Accepted (a :: b :: c :: d :: s) := fun h =>
            absurd (isSome_escapedChar?_iff.mpr h) (by simp [hchar])
          exact iff_of_true rfl (.inl ⟨rfl, hbad⟩)
      | some x =>
          have hgood : Accepted (a :: b :: c :: d :: s) :=
            isSome_escapedChar?_iff.mp (by rw [hchar]; rfl)
          -- none of the four characters escapes what follows them
          obtain ⟨ha, hb, hc, hd⟩ := hgood.ne_backslash
          rw [badEscape_cons_iff ha, badEscape_cons_iff hb, badEscape_cons_iff hc,
            badEscape_cons_iff hd, ← ih]
          cases unescape s <;> simp [hgood]
  | case4 c s hshort hc =>
      obtain rfl := beq_iff_eq.mp hc
      have hbad : ¬Accepted s := by
        intro h
        match s, h.le_length with
        | a :: b :: c :: d :: s, _ => exact hshort a b c d s rfl rfl
      rw [badEscape_escaped_iff, unescape.eq_4 'u' s hshort, if_pos hc]
      exact iff_of_true rfl (.inl ⟨rfl, hbad⟩)
  | case5 c s hshort hc ih =>
      have hc' : c ≠ 'u' := by simpa using hc
      rw [badEscape_escaped_iff, unescape.eq_4 c s hshort, if_neg hc, Option.map_eq_none_iff, ih]
      simp [hc']
  | case6 c s hlone hshort hpair ih =>
      have hc : c ≠ '\\' := by
        rintro rfl
        cases s with
        | nil => exact hlone rfl rfl
        | cons d s => exact hpair d s rfl rfl
      rw [badEscape_cons_iff hc, unescape.eq_5 c s hlone hshort hpair, Option.map_eq_none_iff, ih]

/-- A line holds an entry unless it is malformed. -/
theorem entry?_eq_none_iff (line : List Char) : entry? line = none ↔ Malformed Accepted line := by
  rw [malformed_iff, ← unescape_eq_none_iff, ← unescape_eq_none_iff]
  unfold entry?
  cases hkey : unescape (splitKey line).1 <;>
    cases hvalue : unescape (rawValue (splitKey line).2) <;> simp [hkey, hvalue]

/-- The first of some entries that is malformed starts on a line with the given number. -/
def FirstMalformed (entries : List (Nat × List Char)) (number : Nat) : Prop :=
  ∃ front line back, entries = front ++ (number, line) :: back ∧ Malformed Accepted line ∧
    ∀ entry ∈ front, ¬Malformed Accepted entry.2

/-- Entries are added up to the first that is malformed. -/
theorem addLines_cases (p : PropertyList) (entries : List (Nat × List Char)) :
    (∃ q, p.addLines entries = .ok q ∧ ∀ entry ∈ entries, ¬Malformed Accepted entry.2) ∨
      ∃ e, p.addLines entries = .error e ∧ FirstMalformed entries e.line := by
  induction entries generalizing p with
  | nil => exact .inl ⟨p, rfl, by simp⟩
  | cons entry entries ih =>
      obtain ⟨number, line⟩ := entry
      cases hentry : entry? line with
      | none =>
          have hbad := (entry?_eq_none_iff line).mp hentry
          exact .inr ⟨⟨number⟩, by rw [addLines, hentry], [], line, entries, rfl, hbad, by simp⟩
      | some kv =>
          have hgood : ¬Malformed Accepted line := fun hbad =>
            absurd ((entry?_eq_none_iff line).mpr hbad) (by simp [hentry])
          have hadd : p.addLines ((number, line) :: entries) =
              (p.insert kv.1 kv.2).addLines entries := by rw [addLines, hentry]
          rw [hadd]
          rcases ih (p.insert kv.1 kv.2) with
            ⟨q, hq, hall⟩ | ⟨e, he, front, line', back, rfl, hbad, hfront⟩
          · exact .inl ⟨q, hq, List.forall_mem_cons.mpr ⟨hgood, hall⟩⟩
          · exact .inr ⟨e, he, (number, line) :: front, line', back, rfl, hbad,
              List.forall_mem_cons.mpr ⟨hgood, hfront⟩⟩

/-- The first malformed entry is one only. -/
theorem FirstMalformed.unique {entries : List (Nat × List Char)} {number number' : Nat}
    (h : FirstMalformed entries number) (h' : FirstMalformed entries number') :
    number = number' := by
  obtain ⟨front, line, back, rfl, hbad, hfront⟩ := h
  obtain ⟨front', line', back', heq, hbad', hfront'⟩ := h'
  rcases List.append_eq_append_iff.mp heq with ⟨more, hmore, hback⟩ | ⟨more, hmore, hback⟩
  · cases more with
    | nil => exact congrArg Prod.fst (List.cons.inj hback).1
    | cons entry more =>
        obtain ⟨rfl, -⟩ := List.cons.inj hback
        exact absurd hbad (hfront' (number, line) (by simp [hmore]))
  · cases more with
    | nil => exact (congrArg Prod.fst (List.cons.inj hback).1).symm
    | cons entry more =>
        obtain ⟨rfl, -⟩ := List.cons.inj hback
        exact absurd hbad' (hfront (number', line') (by simp [hmore]))

/-- **When reading fails, and where.** The lines of a text hold their entries in one way only.
Reading the text fails just if some entry is malformed, with the number of the line on which the
first such entry starts, and in every other case it succeeds. -/
theorem parse_malformed (s : List Char) :
    ∃ entries, Logical 1 (physicalLines s) entries ∧
      (∀ others, Logical 1 (physicalLines s) others → others = entries) ∧
      (∀ e, parse s = .error e ↔ FirstMalformed entries e.line) ∧
      ((∃ p, parse s = .ok p) ↔ ∀ entry ∈ entries, ¬Malformed Accepted entry.2) := by
  refine ⟨logicalLines s, logicalLines_eq_iff.mpr rfl, fun _ => logicalLines_eq_iff.mp, ?_⟩
  rcases addLines_cases empty (logicalLines s) with ⟨q, hq, hall⟩ | ⟨e, he, hfirst⟩
  · have hparse : parse s = .ok q := hq
    rw [hparse]
    refine ⟨fun e => iff_of_false (by simp) ?_, iff_of_true ⟨q, rfl⟩ hall⟩
    rintro ⟨front, line, back, hentries, hbad, -⟩
    exact hall (e.line, line) (by simp [hentries]) hbad
  · have hparse : parse s = .error e := he
    rw [hparse]
    refine ⟨fun e' => ?_, iff_of_false (by simp) ?_⟩
    · constructor
      · intro h
        rwa [← Except.error.inj h]
      · intro hfirst'
        have hnumber := hfirst.unique hfirst'
        cases e
        cases e'
        exact congrArg _ (congrArg MalformedEscape.mk hnumber)
    · intro hall
      obtain ⟨front, line, back, hentries, hbad, -⟩ := hfirst
      exact hall (e.line, line) (by simp [hentries]) hbad

/-- The escape in `a=\u+123` is not followed by four digits, and yet the line is read. -/
theorem parse_plus_sign :
    logicalLines ['a', '=', '\\', 'u', '+', '1', '2', '3'] =
        [(1, ['a', '=', '\\', 'u', '+', '1', '2', '3'])] ∧
      Malformed (StartsHex 4) ['a', '=', '\\', 'u', '+', '1', '2', '3'] ∧
      ∃ p, parse ['a', '=', '\\', 'u', '+', '1', '2', '3'] = .ok p := by
  refine ⟨by decide, ?_, ⟨[(['a'], [Char.ofNat 0x123])]⟩, by decide⟩
  refine malformed_iff.mpr (.inr ⟨['+', '1', '2', '3'], ⟨[], Even.zero, by decide⟩, fun h => ?_⟩)
  have hhex := (startsHex_append_iff ['+', '1', '2', '3'] []).mp h
  exact plus_not_mem_hexDigits (hhex.1 '+' (by simp))

end TemplateColoring.PropertyList

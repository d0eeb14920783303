import TemplateColoring.Bytes.Walk

/-!
# Reading bytes that may not be UTF-8

Bytes are decoded as UTF-8, and what is not well-formed becomes U+FFFD: one for each longest front
of a well-formed sequence that is cut short, and one for each byte that starts no such sequence.
-/

set_option autoImplicit false

namespace TemplateColoring.Text

/-- The character that stands for malformed bytes. -/
def replacement : Char := '\ufffd'

/-- What may follow a leading byte: the range of the second byte, and how many bytes come after
that one. -/
def following? (lead : UInt8) : Option (UInt8 × UInt8 × Nat) :=
  if 0xC2 ≤ lead && lead ≤ 0xDF then some (0x80, 0xBF, 0)
  else if lead == 0xE0 then some (0xA0, 0xBF, 1)
  else if lead == 0xED then some (0x80, 0x9F, 1)
  else if 0xE1 ≤ lead && lead ≤ 0xEF then some (0x80, 0xBF, 1)
  else if lead == 0xF0 then some (0x90, 0xBF, 2)
  else if 0xF1 ≤ lead && lead ≤ 0xF3 then some (0x80, 0xBF, 2)
  else if lead == 0xF4 then some (0x80, 0x8F, 2)
  else none

/-- The payload of a leading byte that announces `count` more bytes. -/
def leadBits (lead : UInt8) (count : Nat) : Nat := lead.toNat % (0x40 >>> count)

/-- Takes up to `count` bytes between `low` and `high`, and then between `0x80` and `0xBF`: the
number of bytes taken and the code point so far. -/
def takeContinuations (low high : UInt8) (taken code : Nat) : Nat → List UInt8 → Nat × Nat
  | count + 1, b :: s =>
    if low ≤ b && b ≤ high then
      takeContinuations 0x80 0xBF (taken + 1) (code * 64 + b.toNat % 64) count s
    else (taken, code)
  | _, _ => (taken, code)

/-- The character at the front of the bytes, and how many bytes it takes. -/
def decodeChar (b : UInt8) (s : List UInt8) : Char × Nat :=
  if b < 0x80 then (Char.ofNat b.toNat, 1)
  else
    match following? b with
    | none => (replacement, 1)
    | some (low, high, more) =>
      let (taken, code) := takeContinuations low high 0 (leadBits b (more + 1)) (more + 1) s
      if taken = more + 1 then (Char.ofNat code, 1 + taken) else (replacement, 1 + taken)

/-- Cuts the character at the front of the bytes. -/
def cutChar (_ : Unit) : List UInt8 → Option (Bytes.Cut Char Unit)
  | [] => none
  | b :: s =>
    let (piece, length) := decodeChar b s
    some { piece, length, next := some () }

/-- The text of bytes, with U+FFFD for what is malformed. -/
def decodeLossy (s : List UInt8) : List Char := Bytes.cut cutChar () s

end TemplateColoring.Text

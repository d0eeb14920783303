import TemplateColoring.Bytes.Ascii

/-!
# The byte classes

Facts about single bytes, checked on each of the 256. The classes with which the items of an
expression start are disjoint, and every class treats the bytes of multi-byte characters alike.
-/

set_option autoImplicit false

namespace TemplateColoring.Ascii

/-- A decidable property of bytes is checked on each of the 256. -/
theorem forall_byte {p : UInt8 → Prop} [DecidablePred p] (h : ∀ n < 256, p (UInt8.ofNat n))
    (b : UInt8) : p b := by
  simpa using h b.toNat b.toNat_lt

/-- The classes with which items start are disjoint. -/
theorem disjoint_classes : ∀ b : UInt8,
    (isQuote b = true → isBlank b = false) ∧
      (isNameStart b = true → isBlank b = false ∧ isQuote b = false) ∧
      (isDigit b = true → isBlank b = false ∧ isQuote b = false ∧ isNameStart b = false) :=
  forall_byte (by decide +kernel)

/-- A class that has all bytes of multi-byte characters or none of them. -/
def Uniform (p : UInt8 → Bool) : Prop := ∀ b, 0x80 ≤ b → p b = p 0x80

theorem uniform_isBlank : Uniform isBlank := forall_byte (by decide +kernel)

theorem uniform_isDigit : Uniform isDigit := forall_byte (by decide +kernel)

theorem uniform_isNameContinue : Uniform isNameContinue := forall_byte (by decide +kernel)

theorem uniform_isTagNameContinue : Uniform isTagNameContinue := forall_byte (by decide +kernel)

theorem uniform_isMarkupNameContinue : Uniform isMarkupNameContinue :=
  forall_byte (by decide +kernel)

/-- Whether a text has no byte of a multi-byte character. -/
def isAscii (s : List UInt8) : Bool := s.all (· < 0x80)

theorem lt_of_isQuote : ∀ b : UInt8, isQuote b = true → b < 0x80 := forall_byte (by decide +kernel)

end TemplateColoring.Ascii

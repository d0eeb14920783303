/-!
# ASCII bytes and the byte classes of template text

Templates are scanned as bytes of UTF-8.  Every delimiter is ASCII, so a delimiter is compared as
one byte.  The classes below decide how far names and blanks run; a byte of a multi-byte character
(`0x80` and above) always counts as part of a name, so a name in any script is one unit and a run
of name bytes never stops inside a character.
-/

set_option autoImplicit false

namespace TemplateColoring.Ascii

/-! ## Named bytes -/

abbrev tab : UInt8 := 0x09
abbrev newline : UInt8 := 0x0A
abbrev carriageReturn : UInt8 := 0x0D
abbrev space : UInt8 := 0x20
abbrev exclamation : UInt8 := 0x21
abbrev quotation : UInt8 := 0x22
abbrev hash : UInt8 := 0x23
abbrev dollar : UInt8 := 0x24
abbrev apostrophe : UInt8 := 0x27
abbrev parenOpen : UInt8 := 0x28
abbrev parenClose : UInt8 := 0x29
abbrev hyphen : UInt8 := 0x2D
abbrev dot : UInt8 := 0x2E
abbrev slash : UInt8 := 0x2F
abbrev colon : UInt8 := 0x3A
abbrev less : UInt8 := 0x3C
abbrev equals : UInt8 := 0x3D
abbrev greater : UInt8 := 0x3E
abbrev question : UInt8 := 0x3F
abbrev commercialAt : UInt8 := 0x40
abbrev squareOpen : UInt8 := 0x5B
abbrev backslash : UInt8 := 0x5C
abbrev squareClose : UInt8 := 0x5D
abbrev underscore : UInt8 := 0x5F
abbrev letterR : UInt8 := 0x72
abbrev braceOpen : UInt8 := 0x7B
abbrev braceClose : UInt8 := 0x7D

/-! ## Classes -/

/-- ASCII letters. -/
def isAlpha (b : UInt8) : Bool := (0x41 ≤ b && b ≤ 0x5A) || (0x61 ≤ b && b ≤ 0x7A)

/-- ASCII digits. -/
def isDigit (b : UInt8) : Bool := 0x30 ≤ b && b ≤ 0x39

/-- Space, tab, carriage return and newline. -/
def isBlank (b : UInt8) : Bool := b == space || b == tab || b == carriageReturn || b == newline

/-- The two quotes that open a string literal or an attribute value. -/
def isQuote (b : UInt8) : Bool := b == quotation || b == apostrophe

/-- Bytes that may start an identifier. -/
def isNameStart (b : UInt8) : Bool := isAlpha b || b == underscore || b == dollar || 0x80 ≤ b

/-- Bytes that may continue an identifier. -/
def isNameContinue (b : UInt8) : Bool := isNameStart b || isDigit b

/-- Bytes that may continue the name of a directive or macro, which may be qualified: `ns.layout`. -/
def isTagNameContinue (b : UInt8) : Bool := isNameContinue b || b == dot

/-- Bytes that may start the name of a host markup tag or attribute. -/
def isMarkupNameStart (b : UInt8) : Bool := isAlpha b || b == underscore || b == colon || 0x80 ≤ b

/-- Bytes that may continue the name of a host markup tag or attribute. -/
def isMarkupNameContinue (b : UInt8) : Bool :=
  isMarkupNameStart b || isDigit b || b == hyphen || b == dot

/-- The brackets that nest inside an expression: those that open. -/
def isOpening (b : UInt8) : Bool := b == parenOpen || b == squareOpen || b == braceOpen

/-- The brackets that nest inside an expression: those that close. -/
def isClosing (b : UInt8) : Bool := b == parenClose || b == squareClose || b == braceClose

/-- A byte that continues a multi-byte UTF-8 character. -/
def isContinuation (b : UInt8) : Bool := 0x80 ≤ b && b < 0xC0

end TemplateColoring.Ascii

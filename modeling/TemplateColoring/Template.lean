/-!
# Template documents

A template is a sequence of bytes that is read byte by byte and sliced into texts.  A document that
comes as text yields a slice only between character boundaries; one that comes as raw bytes yields
a slice only where the bytes happen to be valid UTF-8.
-/

set_option autoImplicit false

namespace TemplateColoring

/-- How the bytes of a template came in. -/
inductive Encoding
  /-- As text: the bytes are valid UTF-8 as a whole. -/
  | text
  /-- As raw bytes, of which any part may be invalid UTF-8. -/
  | raw
deriving DecidableEq, Repr

structure Template where
  bytes : Array UInt8
  encoding : Encoding
deriving DecidableEq, Repr

namespace Template

/-- The document that holds a text. -/
def ofString (s : String) : Template := ⟨s.toUTF8.data, .text⟩

/-- The document that holds raw bytes. -/
def ofBytes (bytes : Array UInt8) : Template := ⟨bytes, .raw⟩

def length (t : Template) : Nat := t.bytes.size

def isEmpty (t : Template) : Bool := t.length == 0

def byteAt? (t : Template) (offset : Nat) : Option UInt8 := t.bytes[offset]?

/-- An offset between two characters of a text, or at one of its ends. -/
def isBoundary (bytes : Array UInt8) (offset : Nat) : Bool :=
  match bytes[offset]? with
  | none => offset == bytes.size
  | some b => b < 0x80 || 0xC0 ≤ b

/-- The bytes of the text from `start` up to `stop`, if there is such a text. -/
def slice? (t : Template) (start stop : Nat) : Option (List UInt8) :=
  if start ≤ stop ∧ stop ≤ t.length then
    match t.encoding with
    | .text =>
      if isBoundary t.bytes start && isBoundary t.bytes stop then
        some (t.bytes.extract start stop).toList
      else none
    | .raw =>
      let part := t.bytes.extract start stop
      if (ByteArray.mk part).validateUTF8 then some part.toList else none
  else none

end Template

end TemplateColoring

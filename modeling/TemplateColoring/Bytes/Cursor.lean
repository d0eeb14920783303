import TemplateColoring.Bytes.Walk

/-!
# Cursors

A cursor is a place in a document from which bytes are read ahead.  It may be asked to go anywhere
and stays within the document; only `moveTo` takes it back.
-/

set_option autoImplicit false

namespace TemplateColoring

structure Cursor where
  bytes : Array UInt8
  position : Nat
deriving DecidableEq, Repr

namespace Cursor

open Bytes

/-- A cursor at the start of a document. -/
def start (bytes : Array UInt8) : Cursor := ⟨bytes, 0⟩

/-- The length of the document. -/
def limit (c : Cursor) : Nat := c.bytes.size

/-- The cursor at an offset of the same document, or at its end. -/
def moveTo (c : Cursor) (offset : Nat) : Cursor := { c with position := min offset c.limit }

/-- A cursor at an offset of a document, or at its end. -/
def ofOffset (bytes : Array UInt8) (offset : Nat) : Cursor := (start bytes).moveTo offset

def isAtEnd (c : Cursor) : Bool := c.limit ≤ c.position

/-- The byte `n` places ahead. -/
def peek? (c : Cursor) (n : Nat) : Option UInt8 := c.bytes[c.position + n]?

/-- The byte at the cursor. -/
def current? (c : Cursor) : Option UInt8 := c.peek? 0

/-- What is ahead of the cursor. -/
def ahead (c : Cursor) : List UInt8 := (c.bytes.extract c.position c.limit).toList

/-- Whether the bytes `n` places ahead are those of `needle`. -/
def standsAt (c : Cursor) (n : Nat) : List UInt8 → Bool
  | [] => true
  | b :: needle => c.peek? n == some b && c.standsAt (n + 1) needle

/-- The cursor `n` bytes on. -/
def advance (c : Cursor) (n : Nat) : Cursor := c.moveTo (c.position + n)

/-- The cursor behind the character at hand. -/
def advanceChar (c : Cursor) : Cursor :=
  match c.current? with
  | some b => c.advance (charWidth b)
  | none => c

/-- A cursor as it is shown when a scan is traced. -/
def describe (c : Cursor) : String :=
  "Cursor \x7b pos: " ++ toString c.position ++ ", end: " ++ toString c.limit ++ " \x7d"

end Cursor

end TemplateColoring

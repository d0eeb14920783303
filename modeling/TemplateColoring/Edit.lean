import TemplateColoring.Offset
import TemplateColoring.Template

/-!
# Edits

An edit replaces some bytes at an offset of a text by others; only the numbers of bytes matter
here.  `Edit.between?` finds the smallest edit that turns one text into another.
-/

set_option autoImplicit false

namespace TemplateColoring

inductive EditKind
  | insertion
  | deletion
  | replacement
deriving DecidableEq, Repr

/-- `removed` bytes at `offset` give way to `inserted` bytes. -/
structure Edit where
  kind : EditKind
  offset : Nat
  removed : Nat
  inserted : Nat
deriving DecidableEq, Repr

namespace Edit

def insertion (offset inserted : Nat) : Edit := ⟨.insertion, offset, 0, inserted⟩

def deletion (offset removed : Nat) : Edit := ⟨.deletion, offset, removed, 0⟩

def replacement (offset removed inserted : Nat) : Edit := ⟨.replacement, offset, removed, inserted⟩

/-- The end of the changed bytes in the text before the edit. -/
def oldStop? (e : Edit) : Except Offset.Fault Nat := Offset.add e.offset e.removed

/-- The end of the changed bytes in the text after the edit. -/
def newStop? (e : Edit) : Except Offset.Fault Nat := Offset.add e.offset e.inserted

/-- By how many bytes the edit lengthens the text. -/
def growth? (e : Edit) : Except Offset.Fault Int := Offset.distance e.removed e.inserted

/-- Where the byte at an offset behind the changed bytes stands after the edit. -/
def map? (e : Edit) (offset : Nat) : Except Offset.Fault Nat := do
  Offset.add (← Offset.sub offset e.removed) e.inserted

/-! ## The smallest edit -/

/-- The length of the longest common front. -/
def commonLength : Nat → List UInt8 → List UInt8 → Nat
  | n, a :: s, b :: t => if a == b then commonLength (n + 1) s t else n
  | n, _, _ => n

/-- The largest number up to `n` with a property, or zero. -/
def largestUpTo (p : Nat → Bool) : Nat → Nat
  | 0 => 0
  | n + 1 => if p (n + 1) then n + 1 else largestUpTo p n

/-- The smallest edit between two texts whose ends are character boundaries of both, or nothing if
they are equal.  What is common at the front stays in front of the edit, and what is common at the
end of the rest stays behind it. -/
def between? (before after : Array UInt8) : Option Edit :=
  if before = after then none
  else
    let aligned (front : Nat) := Template.isBoundary before front && Template.isBoundary after front
    let front := largestUpTo aligned (commonLength 0 before.toList after.toList)
    let room := min before.size after.size - front
    let alignedBack (back : Nat) :=
      Template.isBoundary before (before.size - back) && Template.isBoundary after (after.size - back)
    let back := largestUpTo alignedBack
      (min room (commonLength 0 before.toList.reverse after.toList.reverse))
    let removed := before.size - front - back
    let inserted := after.size - front - back
    if removed = 0 then some (insertion front inserted)
    else if inserted = 0 then some (deletion front removed)
    else some (replacement front removed inserted)

end Edit

end TemplateColoring

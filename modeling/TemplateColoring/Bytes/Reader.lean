import TemplateColoring.Bytes.Step
import TemplateColoring.Fallible
import TemplateColoring.Offset

/-!
# Readers

A reader is a cursor whose places are computed as offsets.  It may be told to go, and asked to
look, as many bytes ahead as can be said, and no such place need have an offset: a look finds
nothing there, and a move ends with the document.  The places at which a needle is compared are
plain sums, and one that is no offset is a fault.
-/

set_option autoImplicit false

namespace TemplateColoring

open Bytes

/-- A cursor in a document whose length is an offset. -/
structure Reader extends Cursor where
  limit_le : toCursor.limit ≤ Offset.max
deriving DecidableEq, Repr

namespace Reader

/-- A reader at an offset of a document, or at its end. -/
def ofOffset (bytes : Array UInt8) (h : bytes.size ≤ Offset.max) (offset : Nat) : Reader :=
  ⟨.ofOffset bytes offset, h⟩

/-- The reader at an offset of the same document, or at its end. -/
def moveTo (r : Reader) (offset : Nat) : Reader := ⟨r.toCursor.moveTo offset, r.limit_le⟩

/-- The byte `n` places ahead. -/
def peek? (r : Reader) (n : Nat) : Option UInt8 :=
  (Offset.add? r.position n).bind fun offset =>
    if offset < r.limit then r.bytes[offset]? else none

/-- The byte at the reader. -/
def current? (r : Reader) : Option UInt8 := r.peek? 0

/-- Whether the bytes `n` places ahead are those of a needle, of which `i` bytes stand in front of
those given.  The place of a byte is computed only if the bytes in front of it are equal. -/
def standsFrom? (r : Reader) (n i : Nat) : List UInt8 → Except Offset.Fault Bool
  | [] => .ok true
  | b :: needle => do
    let place ← Offset.add n i
    if r.peek? place == some b then r.standsFrom? n (i + 1) needle else .ok false

/-- Whether the bytes `n` places ahead are those of `needle`. -/
def standsAt? (r : Reader) (n : Nat) (needle : List UInt8) : Except Offset.Fault Bool :=
  r.standsFrom? n 0 needle

/-- The reader `n` bytes on. -/
def advance (r : Reader) (n : Nat) : Reader := r.moveTo (Offset.addClamped r.position n)

/-- The reader behind the character at hand. -/
def advanceChar (r : Reader) : Reader :=
  match r.current? with
  | some b => r.advance (charWidth b)
  | none => r

/-! ## A reader looks and goes as its cursor does -/

variable {r : Reader}

@[simp] theorem toCursor_moveTo (r : Reader) (offset : Nat) :
    (r.moveTo offset).toCursor = r.toCursor.moveTo offset := rfl

/-- A place that has no offset is not in the document. -/
theorem peek?_eq (r : Reader) (n : Nat) : r.peek? n = r.toCursor.peek? n := by
  have hlimit := r.limit_le
  by_cases h : r.position + n < r.limit
  · have hsum : Offset.add? r.position n = some (r.position + n) := Offset.add?_eq_some (by omega)
    rw [peek?, hsum, Option.bind_some, if_pos h]
    rfl
  · have hnone : r.toCursor.peek? n = none := Array.getElem?_eq_none (Nat.le_of_not_lt h)
    rw [peek?, hnone, Option.bind_eq_none_iff]
    intro offset hoffset
    rw [Offset.eq_of_add? hoffset, if_neg h]

@[simp] theorem current?_eq (r : Reader) : r.current? = r.toCursor.current? := r.peek?_eq 0

@[simp] theorem toCursor_advance (r : Reader) (n : Nat) :
    (r.advance n).toCursor = r.toCursor.advance n := by
  have hlimit := r.limit_le
  simp only [advance, toCursor_moveTo, Cursor.advance, Cursor.moveTo, Offset.addClamped]
  congr 1
  omega

@[simp] theorem toCursor_advanceChar (r : Reader) :
    r.advanceChar.toCursor = r.toCursor.advanceChar := by
  simp only [advanceChar, Cursor.advanceChar, current?_eq]
  split <;> simp_all

/-! ## Loops -/

/-- Passes bytes as long as they are wanted.  Whether a byte is may depend on how many are passed
in front of it, and `passed` of them are so far. -/
def stepWhileFrom (wanted : Nat → UInt8 → Bool) (passed : Nat) (r : Reader) : Reader :=
  match _ : r.current? with
  | some b => if wanted passed b then stepWhileFrom wanted (passed + 1) (r.advance 1) else r
  | none => r
termination_by r.left
decreasing_by
  rw [toCursor_advance]
  exact (Cursor.passes_advance (r.current?_eq.symm.trans ‹_›) Nat.one_pos).left_lt

/-- Passes bytes as long as they are wanted. -/
def stepWhile (r : Reader) (wanted : Nat → UInt8 → Bool) : Reader := stepWhileFrom wanted 0 r

/-- Goes on, character by character, until a needle is passed or the document is at its end; and
whether the needle was there. -/
def stepThrough? (needle : List UInt8) (r : Reader) : Except Offset.Fault (Bool × Reader) :=
  if _ : r.isAtEnd then .ok (false, r)
  else
    match r.standsAt? 0 needle with
    | .error e => .error e
    | .ok true => .ok (true, r.advance needle.length)
    | .ok false => stepThrough? needle r.advanceChar
termination_by r.left
decreasing_by
  rw [toCursor_advanceChar]
  obtain ⟨b, hb⟩ := Cursor.exists_current? (Bool.eq_false_iff.mpr ‹_›)
  exact (Cursor.passes_advanceChar hb).left_lt

/-! ## Going as told -/

/-- What a reader can be told to do.  Up to a byte it goes by passing the others. -/
inductive Move
  /-- To go to an offset, back or on. -/
  | moveTo (offset : Nat)
  | advance (n : Nat)
  | advanceChar
  | stepWhile (wanted : Nat → UInt8 → Bool)
  | stepThrough (needle : List UInt8)

/-- The reader when it has done what it is told. -/
def move? (r : Reader) : Move → Except Offset.Fault Reader
  | .moveTo offset => .ok (r.moveTo offset)
  | .advance n => .ok (r.advance n)
  | .advanceChar => .ok r.advanceChar
  | .stepWhile wanted => .ok (r.stepWhile wanted)
  | .stepThrough needle => (r.stepThrough? needle).map (·.2)

/-- The reader when it has done everything that it is told, one after the other. -/
def follow? (r : Reader) : List Move → Except Offset.Fault Reader
  | [] => .ok r
  | m :: moves => r.move? m >>= (·.follow? moves)

end Reader

end TemplateColoring

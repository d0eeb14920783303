import TemplateColoring.Region.Closing

/-!
# The regions of a text

At the front of a text either a region opens, or plain text runs up to the next place where one
does.  Cutting off this first region again and again divides the text into regions, which `scan`
gives.  This is what a scanner finds in its moves from character to character, said region by
region: the state of a scanner is gone, and nothing is looked at behind the front of the text.
-/

set_option autoImplicit false

namespace TemplateColoring

namespace Region

open Bytes

/-- One step through plain text, which stops where a region opens. -/
def plainStep (rules : List RegionKind) (d : Dialect) (s : List UInt8) : Option Nat :=
  if (openingBy? rules d s).isSome then none else some (charLength s)

/-- The first region of a text. -/
def firstBy (rules : List RegionKind) (d : Dialect) (s : List UInt8) : Run RegionKind :=
  match openingBy? rules d s with
  | some o => ⟨o.kind, (extentOf d o s).length⟩
  | none => ⟨.plain, walk (plainStep rules d) s⟩

/-- Cuts the first region off a text that starts at an offset.  `settled` tells from the offset
where a region ends whether the regions behind it are of no interest. -/
def cutRegion (rules : List RegionKind) (d : Dialect) (settled : Nat → Bool) (start : Nat)
    (s : List UInt8) : Option (Cut Region Nat) :=
  let first := firstBy rules d s
  let stop := start + first.length
  some
    { piece := ⟨first.kind, start, first.length⟩
      length := first.length
      next := if settled stop then none else some stop }

/-- The regions of a text that starts at an offset, up to the first that ends at a settled
offset. -/
def scanUntil (settled : Nat → Bool) (d : Dialect) (start : Nat) (s : List UInt8) : List Region :=
  cut (cutRegion d.rules d settled) start s

/-- The regions of a text that starts at an offset, by rules tried in the given order. -/
def scanBy (rules : List RegionKind) (d : Dialect) (start : Nat) (s : List UInt8) : List Region :=
  cut (cutRegion rules d fun _ => false) start s

/-- The regions of a text that starts at an offset. -/
def scan (d : Dialect) (start : Nat) (s : List UInt8) : List Region := scanBy d.rules d start s

/-- The first region of a text that is not empty has bytes. -/
theorem firstBy_length_pos (rules : List RegionKind) (d : Dialect) (b : UInt8) (s : List UInt8) :
    0 < (firstBy rules d (b :: s)).length := by
  unfold firstBy
  split
  · next o h =>
    obtain ⟨kind, _, ho⟩ := exists_of_openingBy? h
    exact Nat.lt_of_lt_of_le (openingOf?_length_pos ho) (Nat.le_add_right _ _)
  · next h =>
    simp only [walk_cons, plainStep, h, Option.isSome_none, Bool.false_eq_true, ite_false,
      Nat.add_assoc]
    exact Nat.lt_of_lt_of_le Nat.one_pos (Nat.le_add_right _ _)

@[simp] theorem scanBy_nil (rules : List RegionKind) (d : Dialect) (start : Nat) :
    scanBy rules d start [] = [] := rfl

end Region

end TemplateColoring

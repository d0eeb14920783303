/-!
# Offsets

Offsets and lengths are byte counts, and a document or a caller may name any that fits in 64 bits.
They are natural numbers here.  Where a caller's numbers meet in a sum or a difference, the result
has to fit in 64 bits again, and `Offset.add` and `Offset.sub` say so when it does not.
-/

set_option autoImplicit false

namespace TemplateColoring

namespace Offset

/-- The largest offset. -/
def max : Nat := 0xFFFFFFFFFFFFFFFF

/-- Why an offset could not be computed. -/
inductive Fault
  /-- The sum is larger than every offset. -/
  | tooLarge
  /-- The difference is negative. -/
  | negative
  /-- A change of length is too far from zero for a signed 64-bit number. -/
  | shiftTooLarge
deriving DecidableEq, Repr

/-- The sum of two offsets. -/
def add (a b : Nat) : Except Fault Nat :=
  if a + b ≤ max then .ok (a + b) else .error .tooLarge

/-- The sum of two offsets, if there is such an offset. -/
def add? (a b : Nat) : Option Nat := if a + b ≤ max then some (a + b) else none

/-- The sum of two offsets, or the largest offset. -/
def addClamped (a b : Nat) : Nat := min (a + b) max

/-- The difference of two offsets. -/
def sub (a b : Nat) : Except Fault Nat :=
  if b ≤ a then .ok (a - b) else .error .negative

/-- An offset moved by a signed distance, unless that leaves the range of offsets. -/
def shift? (a : Nat) (distance : Int) : Option Nat :=
  let moved := (a : Int) + distance
  if 0 ≤ moved ∧ moved ≤ (max : Int) then some moved.toNat else none

/-- The largest signed distance. -/
def maxDistance : Int := 0x7FFFFFFFFFFFFFFF

/-- An offset or length read as a signed 64-bit number. -/
def signed (a : Nat) : Int := Int.bmod (a : Int) (max + 1)

/-- The signed distance from `a` to `b`, each read as a signed 64-bit number. -/
def distance (a b : Nat) : Except Fault Int :=
  let d := signed b - signed a
  if -maxDistance - 1 ≤ d ∧ d ≤ maxDistance then .ok d else .error .shiftTooLarge

theorem add_eq_ok {a b : Nat} (h : a + b ≤ max) : add a b = .ok (a + b) := if_pos h

theorem add_eq_error {a b : Nat} (h : max < a + b) : add a b = .error .tooLarge :=
  if_neg (Nat.not_le_of_lt h)

theorem add?_eq_some {a b : Nat} (h : a + b ≤ max) : add? a b = some (a + b) := if_pos h

theorem eq_of_add? {a b n : Nat} (h : add? a b = some n) : n = a + b := by
  unfold add? at h
  split at h
  · exact (Option.some.inj h).symm
  · exact absurd h (by simp)

theorem sub_eq_ok {a b : Nat} (h : b ≤ a) : sub a b = .ok (a - b) := if_pos h

theorem eq_of_add {a b n : Nat} (h : add a b = .ok n) : n ≤ max ∧ n = a + b := by
  unfold add at h
  split at h
  · next hle =>
    obtain rfl := Except.ok.inj h
    exact ⟨hle, rfl⟩
  · exact absurd h (by simp)

theorem eq_of_sub {a b n : Nat} (h : sub a b = .ok n) : b ≤ a ∧ n = a - b := by
  unfold sub at h
  split at h
  · next hle => exact ⟨hle, (Except.ok.inj h).symm⟩
  · exact absurd h (by simp)

end Offset

end TemplateColoring

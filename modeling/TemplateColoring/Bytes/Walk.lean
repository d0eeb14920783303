import TemplateColoring.Bytes.Ascii

/-!
# Walking over bytes

The scanners of this library share two ways to go over a text.  `walk` counts the bytes it passes
in steps until a step declines, and `cut` takes the text apart into pieces with a state carried
from piece to piece.  Both look only at what is still ahead, never at an offset, so what they
find does not depend on where the text stands in a document.  Both recurse on the text itself
(a step of several bytes is a count of bytes still to pass), and the laws `walk_cons` and
`cut_cons` restate them with `drop`.
-/

set_option autoImplicit false

namespace TemplateColoring

/-- How far something reaches from where it starts, and whether its end was found there; without
an end it reaches to the end of the text. -/
structure Extent where
  length : Nat
  closed : Bool
deriving DecidableEq, Repr

namespace Bytes

/-! ## Characters -/

/-- The length in bytes of the UTF-8 character that a leading byte announces.  A byte that leads
no character counts as one by itself. -/
def charWidth (b : UInt8) : Nat :=
  if 0xC0 ≤ b && b ≤ 0xDF then 2
  else if 0xE0 ≤ b && b ≤ 0xEF then 3
  else if 0xF0 ≤ b && b ≤ 0xF7 then 4
  else 1

/-- The length of the character at the front of a text, cut at the end of the text. -/
def charLength : List UInt8 → Nat
  | [] => 0
  | b :: s => 1 + (s.take (charWidth b - 1)).length

theorem charLength_pos {s : List UInt8} (h : s ≠ []) : 0 < charLength s := by
  cases s with
  | nil => exact absurd rfl h
  | cons b s => simp only [charLength]; omega

theorem charLength_le_length (s : List UInt8) : charLength s ≤ s.length := by
  cases s with
  | nil => simp [charLength]
  | cons b s => simp only [charLength, List.length_take, List.length_cons]; omega

/-- The length of the longest front of the text made of bytes of one class. -/
def runLength (p : UInt8 → Bool) (s : List UInt8) : Nat := (s.takeWhile p).length

/-! ## Walking in steps -/

/-- `walkFrom step n k s` passes `k` bytes and goes on in steps; `n` bytes are behind already. -/
def walkFrom (step : List UInt8 → Option Nat) : Nat → Nat → List UInt8 → Nat
  | n, _, [] => n
  | n, k + 1, _ :: s => walkFrom step (n + 1) k s
  | n, 0, b :: s =>
    match step (b :: s) with
    | none => n
    | some k => walkFrom step (n + 1) (k - 1) s

/-- The number of bytes passed until `step` declines or the text ends.  `step` is asked at the
front of what is ahead how many bytes to pass; a step passes at least one byte. -/
def walk (step : List UInt8 → Option Nat) (s : List UInt8) : Nat := walkFrom step 0 0 s

theorem walkFrom_eq_add (step : List UInt8 → Option Nat) (n k : Nat) (s : List UInt8) :
    walkFrom step n k s = n + walkFrom step 0 k s := by
  induction s generalizing n k with
  | nil => cases k <;> simp [walkFrom]
  | cons b s ih =>
    cases k with
    | zero =>
      simp only [walkFrom]
      cases step (b :: s) with
      | none => simp
      | some k => simp only []; rw [ih (n + 1), ih (0 + 1)]; omega
    | succ k => simp only [walkFrom]; rw [ih (n + 1), ih (0 + 1)]; omega

/-- Passing bytes is walking on what is left after them. -/
theorem walkFrom_eq_drop (step : List UInt8 → Option Nat) (k : Nat) (s : List UInt8) :
    walkFrom step 0 k s = min k s.length + walk step (s.drop k) := by
  induction s generalizing k with
  | nil => cases k <;> simp [walkFrom, walk]
  | cons b s ih =>
    cases k with
    | zero => simp [walk]
    | succ k =>
      simp only [walkFrom, List.length_cons, List.drop_succ_cons]
      rw [walkFrom_eq_add, ih k]
      omega

@[simp] theorem walk_nil (step : List UInt8 → Option Nat) : walk step [] = 0 := rfl

/-- A walk is its first step and the walk over the rest. -/
theorem walk_cons (step : List UInt8 → Option Nat) (b : UInt8) (s : List UInt8) :
    walk step (b :: s) =
      match step (b :: s) with
      | none => 0
      | some k => 1 + min (k - 1) s.length + walk step (s.drop (k - 1)) := by
  rw [walk, walkFrom]
  cases step (b :: s) with
  | none => rfl
  | some k => simp only []; rw [walkFrom_eq_add, walkFrom_eq_drop]; omega

/-- A walk stays within the text. -/
theorem walk_le_length (step : List UInt8 → Option Nat) (s : List UInt8) :
    walk step s ≤ s.length := by
  suffices h : ∀ n k, walkFrom step n k s ≤ n + s.length by simpa [walk] using h 0 0
  induction s with
  | nil => intro n k; cases k <;> simp [walkFrom]
  | cons b s ih =>
    intro n k
    cases k with
    | succ k =>
      have := ih (n + 1) k
      simp only [walkFrom, List.length_cons]; omega
    | zero =>
      simp only [walkFrom]
      cases step (b :: s) with
      | none => simp
      | some k =>
        have := ih (n + 1) (k - 1)
        simp only [List.length_cons]; omega

/-! ## Searching -/

/-- One step of a search: it stops where `needle` stands and passes a character elsewhere. -/
def searchStep (needle s : List UInt8) : Option Nat :=
  if needle.isPrefixOf s then none else some (charLength s)

/-- How far it is, character by character, to the first place where `needle` stands. -/
def distanceTo (needle s : List UInt8) : Nat := walk (searchStep needle) s

/-- The extent of what ends with the first `needle`, the needle included. -/
def through (needle s : List UInt8) : Extent :=
  let ahead := distanceTo needle s
  if (s.drop ahead).isEmpty then ⟨ahead, false⟩ else ⟨ahead + needle.length, true⟩

/-! ## Cutting into pieces -/

/-- A piece cut from the front of a text: what it is, how many bytes it takes, and the state to
go on with.  Without a next state it is the last piece. -/
structure Cut (α σ : Type) where
  piece : α
  length : Nat
  next : Option σ

/-- `cutFrom next acc k state s` passes `k` bytes and goes on cutting; `acc` holds the pieces cut
so far, last first. -/
def cutFrom {α σ : Type} (next : σ → List UInt8 → Option (Cut α σ)) :
    List α → Nat → Option σ → List UInt8 → List α
  | acc, _, _, [] => acc.reverse
  | acc, k + 1, state, _ :: s => cutFrom next acc k state s
  | acc, 0, none, _ :: _ => acc.reverse
  | acc, 0, some state, b :: s =>
    match next state (b :: s) with
    | none => acc.reverse
    | some c => cutFrom next (c.piece :: acc) (c.length - 1) c.next s

/-- The pieces of a text, front to back.  `next` cuts one piece at a time and stops the cutting
by declining; a piece takes at least one byte. -/
def cut {α σ : Type} (next : σ → List UInt8 → Option (Cut α σ)) (state : σ) (s : List UInt8) :
    List α :=
  cutFrom next [] 0 (some state) s

theorem cutFrom_eq_append {α σ : Type} (next : σ → List UInt8 → Option (Cut α σ))
    (acc : List α) (k : Nat) (state : Option σ) (s : List UInt8) :
    cutFrom next acc k state s = acc.reverse ++ cutFrom next [] k state s := by
  induction s generalizing acc k state with
  | nil => cases k <;> cases state <;> simp [cutFrom]
  | cons b s ih =>
    cases k with
    | succ k => simp only [cutFrom]; exact ih acc k state
    | zero =>
      cases state with
      | none => simp [cutFrom]
      | some state =>
        simp only [cutFrom]
        cases next state (b :: s) with
        | none => simp
        | some c => simp only []; rw [ih (c.piece :: acc), ih [c.piece]]; simp

/-- Passing bytes is cutting what is left after them. -/
theorem cutFrom_eq_drop {α σ : Type} (next : σ → List UInt8 → Option (Cut α σ))
    (k : Nat) (state : σ) (s : List UInt8) :
    cutFrom next [] k (some state) s = cut next state (s.drop k) := by
  induction s generalizing k with
  | nil => cases k <;> rfl
  | cons b s ih =>
    cases k with
    | zero => rfl
    | succ k => simp only [cutFrom, List.drop_succ_cons]; exact ih k

theorem cutFrom_none {α σ : Type} (next : σ → List UInt8 → Option (Cut α σ))
    (k : Nat) (s : List UInt8) : cutFrom next [] k none s = [] := by
  induction s generalizing k with
  | nil => cases k <;> rfl
  | cons b s ih =>
    cases k with
    | zero => rfl
    | succ k => simp only [cutFrom]; exact ih k

@[simp] theorem cut_nil {α σ : Type} (next : σ → List UInt8 → Option (Cut α σ)) (state : σ) :
    cut next state [] = [] := rfl

/-- Cutting a text is cutting its first piece and then the rest. -/
theorem cut_cons {α σ : Type} (next : σ → List UInt8 → Option (Cut α σ)) (state : σ)
    (b : UInt8) (s : List UInt8) :
    cut next state (b :: s) =
      match next state (b :: s) with
      | none => []
      | some c =>
        c.piece :: match c.next with
          | none => []
          | some state => cut next state (s.drop (c.length - 1)) := by
  rw [cut, cutFrom]
  cases next state (b :: s) with
  | none => rfl
  | some c =>
    simp only []
    rw [cutFrom_eq_append]
    cases c.next with
    | none => simp [cutFrom_none]
    | some state => rw [cutFrom_eq_drop]; simp

end Bytes

end TemplateColoring

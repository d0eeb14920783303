import TemplateColoring.Offset
import TemplateColoring.Total

/-!
# Runs and spans

A *run* is a length of text of one kind; a *span* is a run with the place where it starts.  A list
of runs describes how a text is divided, wherever the text stands, and `Span.place` lays the runs
end to end from a given offset.  Regions of a template and coloring tokens are both spans.
-/

set_option autoImplicit false

namespace TemplateColoring

/-- `length` bytes of one kind. -/
structure Run (κ : Type) where
  kind : κ
  length : Nat
deriving DecidableEq, Repr

/-- `length` bytes of one kind from the offset `start` on. -/
structure Span (κ : Type) where
  kind : κ
  start : Nat
  length : Nat
deriving DecidableEq, Repr

/-- The number of bytes that runs cover together. -/
def Run.total {κ : Type} (runs : List (Run κ)) : Nat := totalOf Run.length runs

namespace Span

variable {κ : Type}

/-- The offset just past a span. -/
def stop (p : Span κ) : Nat := p.start + p.length

/-- The offset just past a span, if there is such an offset. -/
def stop? (p : Span κ) : Except Offset.Fault Nat := Offset.add p.start p.length

/-- Whether an offset lies inside a span.  The far end is looked at only for an offset that is not
before the span. -/
def contains? (p : Span κ) (offset : Nat) : Except Offset.Fault Bool :=
  if p.start ≤ offset then p.stop?.map (offset < ·) else .ok false

/-- A span moved by a signed distance, unless its start would not be an offset. -/
def shift? (p : Span κ) (distance : Int) : Option (Span κ) :=
  (Offset.shift? p.start distance).map fun start => { p with start }

/-- `placeFrom acc start runs` lays runs end to end from `start` on after the spans of `acc`, which
stand last first. -/
def placeFrom : List (Span κ) → Nat → List (Run κ) → List (Span κ)
  | acc, _, [] => acc.reverse
  | acc, start, r :: runs => placeFrom (⟨r.kind, start, r.length⟩ :: acc) (start + r.length) runs

/-- Runs laid end to end from `start` on. -/
def place (start : Nat) (runs : List (Run κ)) : List (Span κ) := placeFrom [] start runs

theorem placeFrom_eq_append (acc : List (Span κ)) (start : Nat) (runs : List (Run κ)) :
    placeFrom acc start runs = acc.reverse ++ placeFrom [] start runs := by
  induction runs generalizing acc start with
  | nil => simp [placeFrom]
  | cons r runs ih =>
    simp only [placeFrom]
    rw [ih (_ :: acc), ih [_]]
    simp

@[simp] theorem place_nil (start : Nat) : place start ([] : List (Run κ)) = [] := rfl

@[simp] theorem place_cons (start : Nat) (r : Run κ) (runs : List (Run κ)) :
    place start (r :: runs) = ⟨r.kind, start, r.length⟩ :: place (start + r.length) runs := by
  rw [place, placeFrom, placeFrom_eq_append]
  rfl

end Span

end TemplateColoring

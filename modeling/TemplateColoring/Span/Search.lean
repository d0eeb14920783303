import TemplateColoring.Span

/-!
# Searching in ordered spans

`countBefore` finds by halving how many elements at the front of a list satisfy a test, where those
that do stand in front of those that do not.  The test may fail; it is made at a few elements only,
and the search is total on lists that are not ordered by the test too.
-/

set_option autoImplicit false

namespace TemplateColoring.Span

/-- Narrows the search to one element: of the `size` elements from `base` on, the last that may
satisfy the test. -/
def narrow {α ε : Type} (test : α → Except ε Bool) (xs : Array α) (base size : Nat) :
    Except ε Nat :=
  if h : 1 < size then do
    let middle := base + size / 2
    let passed ← match xs[middle]? with
      | some x => test x
      | none => .ok false
    narrow test xs (if passed then middle else base) (size - size / 2)
  else .ok base
termination_by size
decreasing_by omega

/-- The number of elements at the front that satisfy the test. -/
def countBefore {α ε : Type} (test : α → Except ε Bool) (xs : Array α) : Except ε Nat := do
  let base ← narrow test xs 0 xs.size
  match xs[base]? with
  | none => .ok 0
  | some x => do
    let passed ← test x
    .ok (if passed then base + 1 else base)

end TemplateColoring.Span

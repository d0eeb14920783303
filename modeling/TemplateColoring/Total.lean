/-!
# Totals
-/

set_option autoImplicit false

namespace TemplateColoring

/-- The sum of a measure over the elements of a list. -/
def totalOf {α : Type} (measure : α → Nat) (xs : List α) : Nat :=
  xs.foldl (fun n x => n + measure x) 0

@[simp] theorem totalOf_nil {α : Type} (measure : α → Nat) : totalOf measure [] = 0 := rfl

@[simp] theorem totalOf_cons {α : Type} (measure : α → Nat) (x : α) (xs : List α) :
    totalOf measure (x :: xs) = measure x + totalOf measure xs := by
  suffices h : ∀ n, xs.foldl (fun n x => n + measure x) n = n + totalOf measure xs by
    simp only [totalOf, List.foldl_cons, Nat.zero_add]
    exact h (measure x)
  induction xs with
  | nil => intro n; rfl
  | cons y ys ih =>
    intro n
    have h := ih (0 + measure y)
    simp only [totalOf, List.foldl_cons] at h ⊢
    rw [ih, h]
    simp only [totalOf]
    omega

theorem totalOf_append {α : Type} (measure : α → Nat) (xs ys : List α) :
    totalOf measure (xs ++ ys) = totalOf measure xs + totalOf measure ys := by
  induction xs with
  | nil => simp
  | cons x xs ih => simp [ih, Nat.add_assoc]

theorem totalOf_map {α β : Type} (measure : β → Nat) (f : α → β) (xs : List α) :
    totalOf measure (xs.map f) = totalOf (fun x => measure (f x)) xs := by
  induction xs with
  | nil => rfl
  | cons x xs ih => rw [List.map_cons, totalOf_cons, totalOf_cons, ih]

theorem totalOf_reverse {α : Type} (measure : α → Nat) (xs : List α) :
    totalOf measure xs.reverse = totalOf measure xs := by
  induction xs with
  | nil => rfl
  | cons x xs ih =>
    rw [List.reverse_cons, totalOf_append, totalOf_cons, totalOf_cons, totalOf_nil, ih]
    omega

theorem totalOf_replicate {α : Type} (measure : α → Nat) (n : Nat) (x : α) :
    totalOf measure (List.replicate n x) = n * measure x := by
  induction n with
  | zero => rw [List.replicate_zero, totalOf_nil, Nat.zero_mul]
  | succ n ih => rw [List.replicate_succ, totalOf_cons, ih, Nat.succ_mul, Nat.add_comm]

end TemplateColoring

/-!
# Steps that may fail

What a sequence of steps comes to, of which each may fail: the first failure, or the result of the
last step.
-/

set_option autoImplicit false

namespace TemplateColoring

variable {ε α β : Type}

@[simp] theorem ok_bind (a : α) (f : α → Except ε β) : (Except.ok a >>= f) = f a := rfl

@[simp] theorem error_bind (e : ε) (f : α → Except ε β) :
    (Except.error e >>= f) = .error e := rfl

@[simp] theorem map_ok (f : α → β) (a : α) : (Except.ok a : Except ε α).map f = .ok (f a) := rfl

@[simp] theorem map_error (f : α → β) (e : ε) : (Except.error e).map f = .error e := rfl

theorem exists_of_bind_eq_ok {x : Except ε α} {f : α → Except ε β} {b : β}
    (h : x >>= f = .ok b) : ∃ a, x = .ok a ∧ f a = .ok b := by
  cases x with
  | error e => exact absurd h (by simp)
  | ok a => exact ⟨a, rfl, h⟩

theorem exists_of_map_eq_ok {x : Except ε α} {f : α → β} {b : β} (h : x.map f = .ok b) :
    ∃ a, x = .ok a ∧ f a = b := by
  cases x with
  | error e => exact absurd h (by simp)
  | ok a => exact ⟨a, rfl, Except.ok.inj h⟩

/-- A search finds what it finds at some place. -/
theorem exists_of_findSomeM?_eq_ok {f : α → Except ε (Option β)} {xs : List α} {b : β}
    (h : xs.findSomeM? f = .ok (some b)) : ∃ a ∈ xs, f a = .ok (some b) := by
  induction xs with
  | nil => exact absurd h (by simp [List.findSomeM?, pure, Except.pure])
  | cons x xs ih =>
    obtain ⟨found, hx, hrest⟩ := exists_of_bind_eq_ok h
    cases found with
    | some b' => exact ⟨x, List.mem_cons_self, by rw [hx]; exact hrest⟩
    | none =>
      obtain ⟨a, ha, hf⟩ := ih hrest
      exact ⟨a, List.mem_cons_of_mem x ha, hf⟩

/-- A search in which no step fails finds the first that there is. -/
theorem findSomeM?_eq_ok {f : α → Except ε (Option β)} {g : α → Option β} {xs : List α}
    (h : ∀ a ∈ xs, f a = .ok (g a)) : xs.findSomeM? f = .ok (xs.findSome? g) := by
  induction xs with
  | nil => rfl
  | cons x xs ih =>
    have hrest := ih fun a ha => h a (List.mem_cons_of_mem x ha)
    rw [List.findSomeM?, h x List.mem_cons_self, ok_bind, List.findSome?_cons]
    cases g x with
    | some b => rfl
    | none => exact hrest

/-- Where no step fails, each element has its result. -/
theorem mapM_eq_ok {f : α → Except ε β} {g : α → β} {xs : List α}
    (h : ∀ a ∈ xs, f a = .ok (g a)) : xs.mapM f = .ok (xs.map g) := by
  induction xs with
  | nil => rfl
  | cons x xs ih =>
    rw [List.mapM_cons, h x List.mem_cons_self, ok_bind,
      ih fun a ha => h a (List.mem_cons_of_mem x ha)]
    rfl

end TemplateColoring

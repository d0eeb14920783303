import TemplateColoring.Expression.Lexer

/-!
# Results that agree as far as brackets can be counted

A computation that reads a document can fail at one open bracket too many, and so can whatever it
is part of. It is compared with a computation that counts without end: `Lexer.Agrees left x y` says
that `x` is `y`, unless `left` bytes can hold too many brackets and `x` is this failure. A result of
`x` is then one of `y` (`Agrees.eq_of_ok`), in a document of any length, and in a short document
both are the same (`Agrees.eq_of_le`).
-/

set_option autoImplicit false

namespace TemplateColoring.Lexer

variable {α β : Type} {left left' : Nat} {x y z : Except Offset.Fault α}

/-- A text whose brackets can be counted has an offset for each of its places. -/
theorem maxDepth_le_max : maxDepth ≤ Offset.max := by decide

/-- `x` agrees with `y`, unless it fails as `left` bytes can open more brackets than can be
counted. -/
def Agrees (left : Nat) (x y : Except Offset.Fault α) : Prop :=
  x = y ∨ x = .error .tooLarge ∧ maxDepth < left

namespace Agrees

theorem refl (left : Nat) (x : Except Offset.Fault α) : Agrees left x x := .inl rfl

theorem of_eq (h : x = y) : Agrees left x y := .inl h

/-- A failure of more bytes than brackets can be counted agrees with everything. -/
theorem tooLarge (h : maxDepth < left) : Agrees left (.error .tooLarge) y := .inr ⟨rfl, h⟩

theorem mono (h : Agrees left x y) (hle : left ≤ left') : Agrees left' x y :=
  h.imp_right fun ⟨hx, hlt⟩ => ⟨hx, Nat.lt_of_lt_of_le hlt hle⟩

theorem trans (h : Agrees left x y) (h' : Agrees left y z) : Agrees left x z := by
  obtain rfl | hfault := h
  · exact h'
  · exact .inr hfault

theorem map (h : Agrees left x y) (f : α → β) : Agrees left (x.map f) (y.map f) := by
  obtain rfl | ⟨rfl, hlt⟩ := h
  · exact .refl _ _
  · exact .tooLarge hlt

theorem bind {f g : α → Except Offset.Fault β} (h : Agrees left x y)
    (hf : ∀ a, y = .ok a → Agrees left (f a) (g a)) : Agrees left (x >>= f) (y >>= g) := by
  obtain rfl | ⟨rfl, hlt⟩ := h
  · cases x with
    | error e => exact .refl _ _
    | ok a => exact hf a rfl
  · exact .tooLarge hlt

theorem mapM {f g : α → Except Offset.Fault β} {xs : List α}
    (h : ∀ a ∈ xs, Agrees left (f a) (g a)) : Agrees left (xs.mapM f) (xs.mapM g) := by
  induction xs with
  | nil => exact .refl _ _
  | cons a xs ih =>
    simp only [List.mapM_cons]
    refine (h a List.mem_cons_self).bind fun b _ => ?_
    exact (ih fun a' ha' => h a' (List.mem_cons_of_mem a ha')).bind fun bs _ => .refl _ _

/-- A sum that lies among `left` bytes is an offset, unless they are more than brackets can be
counted. -/
theorem add {a b : Nat} (h : a + b ≤ left) : Agrees left (Offset.add a b) (.ok (a + b)) := by
  by_cases hle : a + b ≤ Offset.max
  · exact .of_eq (Offset.add_eq_ok hle)
  · have hmax := maxDepth_le_max
    rw [Offset.add, if_neg hle]
    exact .tooLarge (by omega)

/-! ## What agreeing tells -/

/-- Brackets that few bytes open can be counted. -/
theorem eq_of_le (h : Agrees left x y) (hle : left ≤ maxDepth) : x = y := by
  obtain rfl | ⟨-, hlt⟩ := h
  · exact rfl
  · exact absurd hle (Nat.not_le_of_lt hlt)

theorem eq_of_lt (h : Agrees left x y) (hlt : left < 0x100000000) : x = y :=
  h.eq_of_le (Nat.le_of_lt_succ hlt)

/-- **A result is right**, however many bytes there are. -/
theorem eq_of_ok {a b : α} (h : Agrees left x (.ok a)) (hx : x = .ok b) : b = a := by
  obtain rfl | ⟨rfl, -⟩ := h
  · exact (Except.ok.inj hx).symm
  · exact absurd hx (by simp)

/-- What fails where it should not has too many brackets to count. -/
theorem of_error {a : α} {e : Offset.Fault} (h : Agrees left x (.ok a)) (hx : x = .error e) :
    e = .tooLarge ∧ maxDepth < left := by
  obtain rfl | ⟨rfl, hlt⟩ := h
  · exact absurd hx (by simp)
  · exact ⟨(Except.error.inj hx).symm, hlt⟩

end Agrees

end TemplateColoring.Lexer

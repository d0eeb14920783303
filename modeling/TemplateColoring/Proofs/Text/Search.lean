import TemplateColoring.Proofs.Bytes.Rest
import TemplateColoring.Text.Search

/-!
# The first place of a needle

`before?` gives what stands in front of the first place of a needle (`before?_eq_some_iff`). A
character that is not in the needle cuts the search in two: the needle stands in front of the
character, or behind it, and never across it.
-/

set_option autoImplicit false

namespace TemplateColoring.Text

variable {needle s x : List Char} {c : Char}

theorem before?_nil (hn : needle ≠ []) : before? needle [] = none :=
  if_neg fun hnil => hn (List.isEmpty_iff.mp hnil)

theorem before?_of_isPrefix (h : needle <+: c :: s) : before? needle (c :: s) = some [] :=
  if_pos (List.isPrefixOf_iff_prefix.mpr h)

theorem before?_of_not_isPrefix (h : ¬ needle <+: c :: s) :
    before? needle (c :: s) = (before? needle s).map (c :: ·) :=
  if_neg fun hp => h (List.isPrefixOf_iff_prefix.mp hp)

/-- **What is given is what stands in front of the first place of the needle.** -/
theorem before?_eq_some_iff : before? needle s = some x ↔
    x ++ needle <+: s ∧ ∀ y, y ++ needle <+: s → x.length ≤ y.length := by
  induction s generalizing x with
  | nil =>
      by_cases hn : needle = []
      · subst hn
        have hnil : before? [] [] = some [] := rfl
        rw [hnil, Option.some.injEq]
        constructor
        · rintro rfl
          exact ⟨List.prefix_rfl, fun y _ => Nat.zero_le _⟩
        · rintro ⟨hx, -⟩
          rw [List.append_nil, List.prefix_nil] at hx
          exact hx.symm
      · rw [before?_nil hn]
        constructor
        · intro h
          exact absurd h (by simp)
        · rintro ⟨hx, -⟩
          exact absurd (List.append_eq_nil_iff.mp (List.prefix_nil.mp hx)).2 hn
  | cons c s ih =>
      by_cases hp : needle <+: c :: s
      · rw [before?_of_isPrefix hp, Option.some.injEq]
        constructor
        · rintro rfl
          exact ⟨hp, fun y _ => Nat.zero_le _⟩
        · rintro ⟨-, hfirst⟩
          have hlength := hfirst [] hp
          exact (List.eq_nil_of_length_eq_zero (Nat.le_zero.mp hlength)).symm
      · rw [before?_of_not_isPrefix hp, Option.map_eq_some_iff]
        constructor
        · rintro ⟨x, hx, rfl⟩
          obtain ⟨hplace, hfirst⟩ := ih.mp hx
          refine ⟨List.cons_prefix_cons.mpr ⟨rfl, hplace⟩, ?_⟩
          intro y hy
          cases y with
          | nil => exact absurd hy hp
          | cons b y =>
              have hlater := hfirst y (List.cons_prefix_cons.mp hy).2
              exact Nat.succ_le_succ hlater
        · rintro ⟨hplace, hfirst⟩
          cases x with
          | nil => exact absurd hplace hp
          | cons b x =>
              obtain ⟨rfl, hbehind⟩ := List.cons_prefix_cons.mp hplace
              refine ⟨x, ih.mpr ⟨hbehind, ?_⟩, rfl⟩
              intro y hy
              have hlater := hfirst (b :: y) (List.cons_prefix_cons.mpr ⟨rfl, hy⟩)
              exact Nat.le_of_succ_le_succ hlater

theorem isSome_before?_iff : (before? needle s).isSome = true ↔ needle <:+: s := by
  constructor
  · intro h
    obtain ⟨x, hx⟩ := Option.isSome_iff_exists.mp h
    obtain ⟨r, hr⟩ := (before?_eq_some_iff.mp hx).1
    exact ⟨x, r, hr⟩
  · intro h
    induction s with
    | nil =>
        rw [List.eq_nil_of_infix_nil h]
        rfl
    | cons c s ih =>
        by_cases hp : needle <+: c :: s
        · rw [before?_of_isPrefix hp]
          rfl
        · rw [before?_of_not_isPrefix hp, Option.isSome_map]
          exact ih ((List.infix_cons_iff.mp h).resolve_left hp)

/-- What stands in front of the needle is part of the text. -/
theorem not_mem_of_before? (h : before? needle s = some x) (hc : c ∉ s) : c ∉ x := by
  obtain ⟨r, hr⟩ := (before?_eq_some_iff.mp h).1
  intro hmem
  apply hc
  rw [← hr]
  exact List.mem_append_left r (List.mem_append_left needle hmem)

theorem holds_iff : holds needle s = true ↔ needle <:+: s := isSome_before?_iff

/-! ## Cutting the search -/

/-- A needle without `c` stands first in front of `c`, or else behind it. -/
theorem before?_append_cons (hn : needle ≠ []) (hc : c ∉ needle) (x r : List Char) :
    before? needle (x ++ c :: r) =
      match before? needle x with
      | some y => some y
      | none => (before? needle r).map (x ++ c :: ·) := by
  induction x with
  | nil =>
      have hp : ¬ needle <+: c :: r := by
        intro hp
        have hnil := (Bytes.prefix_append_cons_iff (y := []) hc).mp hp
        exact hn (List.prefix_nil.mp hnil)
      rw [List.nil_append, before?_of_not_isPrefix hp, before?_nil hn]
      rfl
  | cons b x ih =>
      rw [List.cons_append]
      have hcut : needle <+: b :: (x ++ c :: r) ↔ needle <+: b :: x :=
        Bytes.prefix_append_cons_iff (y := b :: x) hc
      by_cases hp : needle <+: b :: x
      · rw [before?_of_isPrefix hp, before?_of_isPrefix (hcut.mpr hp)]
      · rw [before?_of_not_isPrefix hp, before?_of_not_isPrefix fun hp' => hp (hcut.mp hp'), ih]
        cases before? needle x with
        | some y => rfl
        | none => exact Option.map_map _ _ _

/-- Characters behind a text that are not in the needle make no difference. -/
theorem before?_append_of_forall (hn : needle ≠ []) {r : List Char} (hr : ∀ c ∈ r, c ∉ needle)
    (x : List Char) : before? needle (x ++ r) = before? needle x := by
  induction r generalizing x with
  | nil => rw [List.append_nil]
  | cons c r ih =>
      have hc := hr c List.mem_cons_self
      have hrest := fun b hb => hr b (List.mem_cons_of_mem c hb)
      have hnone : before? needle r = none := by
        rw [← List.nil_append r, ih hrest, before?_nil hn]
      rw [before?_append_cons hn hc, hnone]
      cases before? needle x <;> rfl

end TemplateColoring.Text

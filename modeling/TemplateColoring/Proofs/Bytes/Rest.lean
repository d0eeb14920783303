import TemplateColoring.Bytes.Walk

/-!
# What stands behind a text

Everything that is recognized in a text is recognized from the front, and little of what stands
behind it is looked at. Three relations say how a rest `r'` may differ from a rest `r`, so that
the text in front of it is still read in the same way:

* `NothingNew n r r'`: what `r'` shows in its first `n` bytes is also what `r` shows.
* `Quiet r r'`: whatever text stands in front of the rests, no rule finds anything before `r'`
  that it does not find before `r`.
* `Alike r r'`: and it finds before `r'` what it finds before `r`, unless nothing is left there.

What a rule looks for is a *probe*. It has four bytes at most, of which none can end a region, none
is a quote and only the first can open a tag. A probe that starts in front of a byte that ends a
region, or of a quote, does therefore not reach behind this byte, and all rests are alike there
(`Alike.of_barrier`).
-/

set_option autoImplicit false

namespace TemplateColoring.Bytes

open Ascii

/-! ## Rests that show nothing new -/

/-- The first `n` bytes of `r'` show nothing that `r` does not show in the same place. -/
def NothingNew (n : Nat) (r r' : List UInt8) : Prop := r'.take n <+: r

namespace NothingNew

variable {n m : Nat} {r r' : List UInt8}

theorem of_take_eq (h : r.take n = r'.take n) : NothingNew n r r' := by
  rw [NothingNew, ← h]
  exact r.take_prefix n

theorem of_nil (n : Nat) (r : List UInt8) : NothingNew n r [] := by simp [NothingNew]

theorem of_front {y : List UInt8} (h : n ≤ y.length) (r r' : List UInt8) :
    NothingNew n (y ++ r) (y ++ r') :=
  of_take_eq (by rw [List.take_append_of_le_length h, List.take_append_of_le_length h])

theorem mono (h : NothingNew n r r') (hm : m ≤ n) : NothingNew m r r' := by
  have hcut : r'.take m <+: r'.take n := by
    rw [List.prefix_take_iff, List.length_take]
    exact ⟨r'.take_prefix m, by omega⟩
  exact hcut.trans h

theorem append_add (h : NothingNew n r r') (y : List UInt8) :
    NothingNew (y.length + n) (y ++ r) (y ++ r') := by
  rw [NothingNew, List.take_append, List.take_of_length_le (Nat.le_add_right _ _),
    Nat.add_sub_cancel_left, List.prefix_append_right_inj]
  exact h

theorem append (h : NothingNew n r r') (y : List UInt8) : NothingNew n (y ++ r) (y ++ r') :=
  (h.append_add y).mono (Nat.le_add_left _ _)

theorem eq_nil (h : NothingNew n r r') (hn : 0 < n) (hr : r = []) : r' = [] := by
  subst hr
  cases r' with
  | nil => rfl
  | cons b s =>
      have := List.prefix_nil.mp h
      rw [List.take_eq_nil_iff] at this
      simp at this
      omega

/-- A short needle that stands at the front of `r'` stands at the front of `r`. -/
theorem isPrefixOf (h : NothingNew n r r') {needle : List UInt8} (hn : needle.length ≤ n)
    (hp : needle.isPrefixOf r' = true) : needle.isPrefixOf r = true := by
  rw [List.isPrefixOf_iff_prefix] at hp ⊢
  have hcut : needle <+: r'.take n := List.prefix_take_iff.mpr ⟨hp, hn⟩
  exact hcut.trans h

theorem head?_eq (h : NothingNew n r r') (hn : 0 < n) (hr : r' ≠ []) : r'.head? = r.head? := by
  obtain ⟨z, rfl⟩ := h
  cases r' with
  | nil => exact absurd rfl hr
  | cons b s =>
      obtain ⟨n, rfl⟩ : ∃ k, n = k + 1 := ⟨n - 1, by omega⟩
      simp

theorem any_head? (h : NothingNew n r r') (hn : 0 < n) {p : UInt8 → Bool}
    (hp : r'.head?.any p = true) : r.head?.any p = true := by
  have hr : r' ≠ [] := by rintro rfl; simp at hp
  rwa [← h.head?_eq hn hr]

end NothingNew

/-- Texts that agree in `n` bytes agree in all shorter fronts. -/
theorem take_eq_of_take_eq {n m : Nat} {s t : List UInt8} (h : s.take n = t.take n) (hm : m ≤ n) :
    s.take m = t.take m := by
  have := congrArg (List.take m) h
  rwa [List.take_take, List.take_take, Nat.min_eq_left hm] at this

theorem take_append_eq {n : Nat} {r r' : List UInt8} (h : r.take n = r'.take n)
    (y : List UInt8) : (y ++ r).take n = (y ++ r').take n := by
  rw [List.take_append, List.take_append, take_eq_of_take_eq h (Nat.sub_le n y.length)]

/-- Whether a needle stands in front of a text is decided by as many bytes as it has. -/
theorem isPrefixOf_congr {needle s t : List UInt8} {n : Nat} (h : s.take n = t.take n)
    (hn : needle.length ≤ n) : needle.isPrefixOf s = needle.isPrefixOf t := by
  rw [Bool.eq_iff_iff]
  exact ⟨(NothingNew.of_take_eq h.symm).isPrefixOf hn, (NothingNew.of_take_eq h).isPrefixOf hn⟩

/-- A needle that fits into `x` stands at the front of `x` or not, whatever follows. -/
theorem isPrefixOf_append {needle x : List UInt8} (h : needle.length ≤ x.length)
    (r r' : List UInt8) : needle.isPrefixOf (x ++ r) = needle.isPrefixOf (x ++ r') := by
  apply isPrefixOf_congr (n := x.length) ?_ h
  simp

/-! ## Probes -/

/-- The bytes that end a tag or an interpolation. -/
def isCloser (b : UInt8) : Bool := b == greater || b == squareClose || b == braceClose

/-- The bytes beyond which no rule looks: the closing ones and the quotes. -/
def isBarrier (b : UInt8) : Bool := isCloser b || isQuote b

/-- The bytes that open a tag. -/
def isBracket (b : UInt8) : Bool := b == less || b == squareOpen

/-- What a rule may look for. -/
def isProbe (needle : List UInt8) : Bool :=
  needle.length ≤ 4 && needle.all (!isBarrier ·) && needle.tail.all (!isBracket ·)

theorem isProbe_iff {needle : List UInt8} : isProbe needle = true ↔
    needle.length ≤ 4 ∧ (∀ b ∈ needle, isBarrier b = false) ∧
      ∀ b ∈ needle.tail, isBracket b = false := by
  simp [isProbe, and_assoc]

/-- A needle without `c` does not reach beyond `c`. -/
theorem prefix_append_cons_iff {α : Type} {needle y s : List α} {c : α} (hc : c ∉ needle) :
    needle <+: y ++ c :: s ↔ needle <+: y := by
  induction y generalizing needle with
  | nil =>
      cases needle with
      | nil => simp
      | cons b needle =>
          have hne : b ≠ c := by rintro rfl; exact hc List.mem_cons_self
          simp [List.cons_prefix_cons, hne]
  | cons a y ih =>
      cases needle with
      | nil => simp
      | cons b needle =>
          rw [List.cons_append, List.cons_prefix_cons, List.cons_prefix_cons,
            ih fun hmem => hc (List.mem_cons_of_mem b hmem)]

/-- A test for which a probe at the front of the text is reason enough. -/
def IsTest (p : List UInt8 → Bool) : Prop :=
  ∀ s, p s = true → ∃ needle, isProbe needle = true ∧ needle.isPrefixOf s = true ∧
    ∀ s', needle.isPrefixOf s' = true → p s' = true

namespace IsTest

theorem of_needle {needle : List UInt8} (hn : isProbe needle = true) :
    IsTest (needle.isPrefixOf ·) :=
  fun _ hp => ⟨needle, hn, hp, fun _ hp' => hp'⟩

theorem congr {p q : List UInt8 → Bool} (hq : IsTest q) (h : ∀ s, p s = q s) : IsTest p := by
  rwa [show p = q from funext h]

theorem any {α : Type} {l : List α} {p : α → List UInt8 → Bool} (h : ∀ a ∈ l, IsTest (p a)) :
    IsTest (fun s => l.any (p · s)) := by
  intro s hs
  obtain ⟨a, ha, hp⟩ := List.any_eq_true.mp hs
  obtain ⟨needle, hn, hneedle, hall⟩ := h a ha s hp
  exact ⟨needle, hn, hneedle, fun s' hs' => List.any_eq_true.mpr ⟨a, ha, hall s' hs'⟩⟩

end IsTest

/-! ## Rests that look alike -/

/-- No probe stands before `r'` that does not stand before `r`. -/
structure Quiet (r r' : List UInt8) : Prop where
  head : NothingNew 1 r r'
  seen : ∀ y needle, isProbe needle = true →
    needle.isPrefixOf (y ++ r') = true → needle.isPrefixOf (y ++ r) = true

/-- The same probes stand before both rests, unless nothing is left before `r'`. -/
structure Alike (r r' : List UInt8) : Prop extends Quiet r r' where
  kept : ∀ y needle, isProbe needle = true → needle.isPrefixOf (y ++ r) = true →
    y ++ r' = [] ∨ needle.isPrefixOf (y ++ r') = true

variable {r r' : List UInt8} {p : List UInt8 → Bool}

namespace Quiet

theorem append (h : Quiet r r') (z : List UInt8) : Quiet (z ++ r) (z ++ r') where
  head := h.head.append z
  seen y needle hn := by
    rw [← List.append_assoc, ← List.append_assoc]
    exact h.seen (y ++ z) needle hn

theorem test (h : Quiet r r') (ht : IsTest p) (hp : p r' = true) : p r = true := by
  obtain ⟨needle, hn, hneedle, hall⟩ := ht r' hp
  exact hall r (h.seen [] needle hn hneedle)

theorem test_eq_false (h : Quiet r r') (ht : IsTest p) (hp : p r = false) : p r' = false :=
  Bool.eq_false_iff.mpr fun hp' => Bool.false_ne_true (hp.symm.trans (h.test ht hp'))

theorem eq_nil (h : Quiet r r') (hr : r = []) : r' = [] := h.head.eq_nil Nat.one_pos hr

/-- Without its rest a text shows nothing new. -/
theorem of_nil (r : List UInt8) : Quiet r [] where
  head := .of_nil 1 r
  seen y needle _ hp := by
    rw [List.append_nil, List.isPrefixOf_iff_prefix] at hp
    exact List.isPrefixOf_iff_prefix.mpr (hp.trans (List.prefix_append y r))

end Quiet

namespace Alike

theorem append (h : Alike r r') (z : List UInt8) : Alike (z ++ r) (z ++ r') where
  toQuiet := h.toQuiet.append z
  kept y needle hn := by
    rw [← List.append_assoc, ← List.append_assoc]
    exact h.kept (y ++ z) needle hn

theorem test (h : Alike r r') (ht : IsTest p) (hp : p r = true) : r' = [] ∨ p r' = true := by
  obtain ⟨needle, hn, hneedle, hall⟩ := ht r hp
  exact (h.kept [] needle hn hneedle).imp_right (hall r')

/-- Four bytes are as many as a probe has. -/
theorem of_take_eq (h : r.take 4 = r'.take 4) : Alike r r' := by
  have hsame (y needle : List UInt8) (hn : isProbe needle = true) :
      needle.isPrefixOf (y ++ r) = needle.isPrefixOf (y ++ r') :=
    isPrefixOf_congr (take_append_eq h y) (isProbe_iff.mp hn).1
  exact {
    head := (NothingNew.of_take_eq h).mono (by omega)
    seen := fun y needle hn hp => (hsame y needle hn).trans hp
    kept := fun y needle hn hp => .inr ((hsame y needle hn).symm.trans hp) }

/-- No probe reaches beyond a byte that ends a region, or beyond a quote. -/
theorem of_barrier {c : UInt8} (hc : isBarrier c = true) (r r' : List UInt8) :
    Alike (c :: r) (c :: r') := by
  have hsame (y needle s : List UInt8) (hn : isProbe needle = true) :
      needle.isPrefixOf (y ++ c :: s) = true ↔ needle <+: y := by
    rw [List.isPrefixOf_iff_prefix]
    refine prefix_append_cons_iff fun hmem => ?_
    rw [(isProbe_iff.mp hn).2.1 c hmem] at hc
    exact absurd hc (by simp)
  exact {
    head := by simp [NothingNew]
    seen := fun y needle hn hp => (hsame y needle r hn).mpr ((hsame y needle r' hn).mp hp)
    kept := fun y needle hn hp =>
      .inr ((hsame y needle r' hn).mpr ((hsame y needle r hn).mp hp)) }

theorem of_closer {c : UInt8} (hc : isCloser c = true) (r r' : List UInt8) :
    Alike (c :: r) (c :: r') :=
  of_barrier (by rw [isBarrier, hc, Bool.true_or]) r r'

theorem of_quote {c : UInt8} (hc : isQuote c = true) (r r' : List UInt8) :
    Alike (c :: r) (c :: r') :=
  of_barrier (by rw [isBarrier, hc, Bool.or_true]) r r'

/-- A text may be cut in front of a bracket: a probe that starts before the bracket ends there. -/
theorem of_bracket (hr : ∀ b ∈ r.head?, isBracket b = true) : Alike r [] where
  toQuiet := .of_nil r
  kept y needle hn hp := by
    cases y with
    | nil => exact .inl rfl
    | cons a y =>
        right
        cases r with
        | nil => exact hp
        | cons b s =>
            cases needle with
            | nil => rfl
            | cons a' needle =>
                have hb : b ∉ needle := fun hmem => by
                  have hno := (isProbe_iff.mp hn).2.2 b hmem
                  rw [hr b rfl] at hno
                  exact absurd hno (by simp)
                rw [List.isPrefixOf_iff_prefix, List.cons_append, List.cons_prefix_cons,
                  prefix_append_cons_iff hb] at hp
                rwa [List.append_nil, List.isPrefixOf_iff_prefix, List.cons_prefix_cons]

end Alike

end TemplateColoring.Bytes

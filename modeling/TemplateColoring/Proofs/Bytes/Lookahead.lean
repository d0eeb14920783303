import TemplateColoring.Proofs.Bytes.Rest

/-!
# How far ahead a scanner looks

Everything that is recognized in a text is recognized from the front, and how far it reaches is
decided by the bytes it takes and little behind them. The laws below all have one shape: if
something takes exactly `x` in front of `r`, it takes exactly `x` in front of `r'` as well.
-/

set_option autoImplicit false

namespace TemplateColoring.Bytes

/-! ## Cutting a text -/

/-- A text can be cut behind any number of its bytes. -/
theorem exists_cut {s : List UInt8} {n : Nat} (h : n ≤ s.length) :
    ∃ x r, s = x ++ r ∧ x.length = n :=
  ⟨s.take n, s.drop n, (s.take_append_drop n).symm, List.length_take_of_le h⟩

theorem size_eq_add {bytes : Array UInt8} {x r : List UInt8} (h : bytes.toList = x ++ r) :
    bytes.size = x.length + r.length := by
  rw [← Array.length_toList, h, List.length_append]

/-! ## Runs and characters -/

/-- A run takes exactly `x` if `x` is of the class and the next byte is not. -/
theorem runLength_append_iff {p : UInt8 → Bool} {x r : List UInt8} :
    runLength p (x ++ r) = x.length ↔ (∀ b ∈ x, p b = true) ∧ r.head?.any p = false := by
  induction x with
  | nil => cases r <;> simp [runLength, List.takeWhile_cons]
  | cons b x ih =>
      by_cases hb : p b = true
      · simpa [runLength, hb] using ih
      · simp [runLength, hb]

theorem runLength_append {p : UInt8 → Bool} {x r r' : List UInt8}
    (h : runLength p (x ++ r) = x.length) (hr : NothingNew 1 r r') :
    runLength p (x ++ r') = x.length := by
  rw [runLength_append_iff] at h ⊢
  refine ⟨h.1, Bool.eq_false_iff.mpr fun hp => ?_⟩
  have hany := hr.any_head? Nat.one_pos hp
  rw [h.2] at hany
  exact Bool.false_ne_true hany

theorem runLength_le_length (p : UInt8 → Bool) (s : List UInt8) : runLength p s ≤ s.length :=
  (List.takeWhile_prefix p).length_le

theorem runLength_pos {p : UInt8 → Bool} {b : UInt8} {s : List UInt8} (h : p b = true) :
    0 < runLength p (b :: s) := by
  simp [runLength, h]

theorem charLength_append {x r r' : List UInt8} (h : charLength (x ++ r) = x.length)
    (hr : NothingNew 1 r r') : charLength (x ++ r') = x.length := by
  cases x with
  | nil =>
      cases r with
      | nil => simp [hr.eq_nil Nat.one_pos rfl, charLength]
      | cons b s => exact absurd h (Nat.ne_of_gt (charLength_pos (by simp)))
  | cons b x =>
      simp only [List.cons_append, charLength, List.length_take, List.length_append,
        List.length_cons] at h ⊢
      cases r with
      | nil => rw [hr.eq_nil Nat.one_pos rfl]; exact h
      | cons c s => rw [List.length_cons] at h; omega

theorem charLength_bounds {s : List UInt8} (hs : s ≠ []) :
    0 < charLength s ∧ charLength s ≤ s.length :=
  ⟨charLength_pos hs, charLength_le_length s⟩

/-! ## Walks -/

/-- A step that passes at least one byte and no more than there are. -/
def Bounded (step : List UInt8 → Option Nat) : Prop :=
  ∀ s k, s ≠ [] → step s = some k → 0 < k ∧ k ≤ s.length

section Walk

variable {step : List UInt8 → Option Nat}

theorem walk_eq_zero {s : List UInt8} (h : s = [] ∨ step s = none) : walk step s = 0 := by
  cases s with
  | nil => rfl
  | cons b s =>
      rcases h with h | h
      · exact absurd h (by simp)
      · rw [walk_cons, h]

theorem walk_eq_add (hb : Bounded step) {s : List UInt8} {k : Nat} (hs : s ≠ [])
    (h : step s = some k) : walk step s = k + walk step (s.drop k) := by
  cases s with
  | nil => exact absurd rfl hs
  | cons b s =>
      obtain ⟨hpos, hle⟩ := hb _ _ hs h
      obtain ⟨k, rfl⟩ : ∃ j, k = j + 1 := ⟨k - 1, by omega⟩
      rw [List.length_cons] at hle
      rw [walk_cons, h]
      simp only [Nat.add_sub_cancel, List.drop_succ_cons]
      omega

/-- Induction over the steps of a walk. -/
theorem walk_induction (hb : Bounded step) {motive : List UInt8 → Prop}
    (stop : ∀ s, s = [] ∨ step s = none → motive s)
    (pass : ∀ s k, s ≠ [] → step s = some k → motive (s.drop k) → motive s) (s : List UInt8) :
    motive s := by
  induction h : s.length using Nat.strongRecOn generalizing s with
  | _ n ih =>
      cases hs : step s with
      | none => exact stop s (.inr hs)
      | some k =>
          by_cases hnil : s = []
          · exact stop s (.inl hnil)
          · obtain ⟨hpos, hle⟩ := hb s k hnil hs
            refine pass s k hnil hs (ih _ ?_ _ rfl)
            rw [List.length_drop]
            omega

/-- Where a walk ends, the text ends or the step declines. -/
theorem step_drop_walk (hb : Bounded step) (s : List UInt8) :
    s.drop (walk step s) = [] ∨ step (s.drop (walk step s)) = none := by
  induction s using walk_induction hb with
  | stop s h => rwa [walk_eq_zero h]
  | pass s k hs hk ih => rwa [walk_eq_add hb hs hk, ← List.drop_drop]

/-- A walk that takes exactly `x` does so in front of `r'` too, if each of its steps does and the
last place is one to stop at. -/
theorem walk_append (hb : Bounded step) {x r r' : List UInt8}
    (h : walk step (x ++ r) = x.length)
    (hpass : ∀ i y, i ≠ [] → step (i ++ (y ++ r)) = some i.length →
      step (i ++ (y ++ r')) = some i.length)
    (hstop : r' = [] ∨ step r' = none) : walk step (x ++ r') = x.length := by
  generalize hs : x ++ r = s at h
  induction s using walk_induction hb generalizing x with
  | stop s hs' =>
      rw [walk_eq_zero hs'] at h
      rw [List.eq_nil_of_length_eq_zero h.symm]
      exact walk_eq_zero hstop
  | pass s k hne hk ih =>
      rw [walk_eq_add hb hne hk] at h
      -- the step takes a front `i` of `x`, and the walk goes on over the rest `y`
      obtain ⟨i, y, rfl, hi⟩ : ∃ i y, x = i ++ y ∧ i.length = k := exists_cut (by omega)
      subst hs
      rw [List.append_assoc] at hk hne ih
      have hine : i ≠ [] := by
        rintro rfl
        have := (hb _ _ hne hk).1
        simp only [List.length_nil] at hi
        omega
      have hrest : walk step (y ++ r) = y.length := by
        rw [List.append_assoc, ← hi, List.drop_left, List.length_append] at h
        omega
      rw [← hi] at hk ih
      rw [List.drop_left] at ih
      have hk' := hpass i y hine hk
      rw [List.append_assoc, walk_eq_add hb (by simp [hine]) hk', List.drop_left, ih rfl hrest,
        List.length_append]

end Walk

/-! ## Walks that end behind a byte -/

section WalkThrough

variable {step : List UInt8 → Option Nat} {close : UInt8}

/-- What a walk passes, together with the byte where it stops if that is the closing one. It is
closed if it stops before the end of the text. -/
def walkThrough (step : List UInt8 → Option Nat) (close : UInt8) (s : List UInt8) : Extent :=
  let rest := s.drop (walk step s)
  ⟨walk step s + if rest.head? = some close then 1 else 0, !rest.isEmpty⟩

theorem walkThrough_le (step : List UInt8 → Option Nat) (close : UInt8) (s : List UInt8) :
    (walkThrough step close s).length ≤ s.length := by
  have hle := walk_le_length step s
  simp only [walkThrough]
  split
  · next hclose =>
    have hne : s.drop (walk step s) ≠ [] := by
      intro hnil
      rw [hnil] at hclose
      exact absurd hclose (by simp)
    rw [ne_eq, List.drop_eq_nil_iff] at hne
    omega
  · exact hle

/-- A walk through `x` ends with the closing byte, or it stops behind `x` without it. -/
theorem walkThrough_cases (hb : Bounded step) {x r : List UInt8}
    (h : (walkThrough step close (x ++ r)).length = x.length) :
    (∃ u, x = u ++ [close] ∧ walk step (u ++ close :: r) = u.length) ∨
      (walk step (x ++ r) = x.length ∧ r.head? ≠ some close ∧ (r = [] ∨ step r = none)) := by
  have hend := step_drop_walk hb (x ++ r)
  simp only [walkThrough] at h
  by_cases hc : ((x ++ r).drop (walk step (x ++ r))).head? = some close
  · rw [if_pos hc] at h
    obtain ⟨u, c, rfl⟩ : ∃ u c, x = u ++ [c] := by
      rcases List.eq_nil_or_concat x with rfl | ⟨u, c, hx⟩
      · simp at h
      · exact ⟨u, c, by simpa using hx⟩
    rw [List.append_assoc] at h hc
    have hu : walk step (u ++ ([c] ++ r)) = u.length := by simpa using h
    rw [hu, List.drop_left] at hc
    obtain rfl : c = close := by simpa using hc
    exact .inl ⟨u, rfl, hu⟩
  · rw [if_neg hc, Nat.add_zero] at h
    rw [h, List.drop_left] at hend hc
    exact .inr ⟨h, hc, hend⟩

theorem walkThrough_of_closed {u r : List UInt8}
    (h : walk step (u ++ close :: r) = u.length) :
    walkThrough step close (u ++ close :: r) = ⟨u.length + 1, true⟩ := by
  rw [walkThrough, h, List.drop_left]
  simp

theorem walkThrough_of_stopped {x r : List UInt8} (h : walk step (x ++ r) = x.length)
    (hr : r.head? ≠ some close) : walkThrough step close (x ++ r) = ⟨x.length, !r.isEmpty⟩ := by
  rw [walkThrough, h, List.drop_left, if_neg hr, Nat.add_zero]

/-- A walk through `x` does not depend on what follows, if its steps do not, if the closing byte
stops it, and if the walk stops behind `x` too where it stops there without the closing byte. -/
theorem walkThrough_append (hb : Bounded step) (hclose : ∀ s, step (close :: s) = none)
    {x r r' : List UInt8} (h : (walkThrough step close (x ++ r)).length = x.length)
    (hpass : ∀ i y, i ≠ [] → step (i ++ (y ++ r)) = some i.length →
      step (i ++ (y ++ r')) = some i.length)
    (hstop : r.head? ≠ some close → (r = [] ∨ step r = none) →
      (r' = [] ∨ step r' = none) ∧ r'.head? ≠ some close) :
    (walkThrough step close (x ++ r')).length = x.length := by
  rcases walkThrough_cases hb h with ⟨u, rfl, hu⟩ | ⟨hwalk, hhead, hend⟩
  · have hwalk : walk step (u ++ close :: r') = u.length := by
      refine walk_append hb hu (fun i y hi hstep => ?_) (.inr (hclose r'))
      have hpass' := hpass i (y ++ [close]) hi
      simp only [List.append_assoc] at hpass'
      exact hpass' hstep
    rw [List.append_assoc]
    exact (congrArg Extent.length (walkThrough_of_closed hwalk)).trans (by simp)
  · obtain ⟨hend', hhead'⟩ := hstop hhead hend
    exact congrArg Extent.length (walkThrough_of_stopped (walk_append hb hwalk hpass hend') hhead')

end WalkThrough

/-! ## Searching -/

theorem bounded_searchStep (needle : List UInt8) : Bounded (searchStep needle) := by
  intro s k hs hk
  unfold searchStep at hk
  split at hk
  · exact absurd hk (by simp)
  · obtain rfl := Option.some.inj hk
    exact charLength_bounds hs

/-- A search passes the whole text, or it ends behind the needle. -/
theorem through_cases (needle s : List UInt8) :
    (through needle s = ⟨s.length, false⟩ ∧ distanceTo needle s = s.length) ∨
      (through needle s = ⟨distanceTo needle s + needle.length, true⟩ ∧
        s.drop (distanceTo needle s) ≠ [] ∧
        needle.isPrefixOf (s.drop (distanceTo needle s)) = true) := by
  have hstop := step_drop_walk (bounded_searchStep needle) s
  rw [← distanceTo] at hstop
  by_cases hend : s.drop (distanceTo needle s) = []
  · have hle : distanceTo needle s ≤ s.length := walk_le_length _ s
    have hge := List.drop_eq_nil_iff.mp hend
    have hlen : distanceTo needle s = s.length := by omega
    refine .inl ⟨?_, hlen⟩
    rw [through, if_pos (List.isEmpty_iff.mpr hend), hlen]
  · rcases hstop with hnil | hnone
    · exact absurd hnil hend
    · unfold searchStep at hnone
      split at hnone
      · next hp =>
        refine .inr ⟨?_, hend, hp⟩
        rw [through, if_neg (by simpa using hend)]
      · exact absurd hnone (by simp)

theorem through_le_length (needle s : List UInt8) : (through needle s).length ≤ s.length := by
  rcases through_cases needle s with ⟨h, -⟩ | ⟨h, -, hp⟩
  · exact Nat.le_of_eq (congrArg Extent.length h)
  · have hle := (List.isPrefixOf_iff_prefix.mp hp).length_le
    have := walk_le_length (searchStep needle) s
    rw [← distanceTo] at this
    rw [List.length_drop] at hle
    rw [h]
    show distanceTo needle s + needle.length ≤ s.length
    omega

/-- A search that finds its needle is decided by what it passes, and one that does not find it
by the end of the text. -/
theorem through_append {needle x r r' : List UInt8} {closed : Bool} (hn : needle ≠ [])
    (h : through needle (x ++ r) = ⟨x.length, closed⟩)
    (hr : closed = true ∨ NothingNew 1 r r') :
    through needle (x ++ r') = ⟨x.length, closed⟩ := by
  rcases through_cases needle (x ++ r) with ⟨hall, -⟩ | ⟨hfit, -, hp⟩
  · obtain ⟨hlen, rfl⟩ := Extent.mk.inj (hall.symm.trans h)
    have hnil : r = [] := List.eq_nil_of_length_eq_zero (by
      rw [List.length_append] at hlen; omega)
    subst hnil
    rw [(hr.resolve_left (by simp)).eq_nil Nat.one_pos rfl]
    exact h
  · obtain ⟨hlen, rfl⟩ := Extent.mk.inj (hfit.symm.trans h)
    -- `x` is what the search passes and then the needle
    obtain ⟨u, v, rfl, hu⟩ : ∃ u v, x = u ++ v ∧ u.length = distanceTo needle (x ++ r) :=
      exists_cut (by omega)
    rw [← hu, List.length_append] at hlen
    rw [← hu, List.append_assoc, List.drop_left] at hp
    have hv : needle.length = v.length := by omega
    have hp' : needle.isPrefixOf (v ++ r') = true := by
      rw [isPrefixOf_append (Nat.le_of_eq hv) r' r, hp]
    have hpos := List.length_pos_iff.mpr hn
    have hwalk : distanceTo needle (u ++ (v ++ r')) = u.length := by
      refine walk_append (r := v ++ r) (bounded_searchStep needle) ?_ ?_ (.inr (if_pos hp'))
      · rw [← List.append_assoc]
        exact hu.symm
      · intro i y hi hstep
        unfold searchStep at hstep ⊢
        split at hstep
        · exact absurd hstep (by simp)
        · next hno =>
          have hsame : needle.isPrefixOf (i ++ (y ++ (v ++ r')))
              = needle.isPrefixOf (i ++ (y ++ (v ++ r))) := by
            have hin : needle.length ≤ (i ++ (y ++ v)).length := by
              simp only [List.length_append]; omega
            simpa only [List.append_assoc] using isPrefixOf_append hin r' r
          have hfront : NothingNew 1 (v ++ r) (v ++ r') := .of_front (by omega) r r'
          have hchar := charLength_append (Option.some.inj hstep) (hfront.append y)
          rw [hsame, if_neg hno, hchar]
    have hv' : v ++ r' ≠ [] := by
      intro hnil
      rw [(List.append_eq_nil_iff.mp hnil).1] at hv
      exact hn (List.eq_nil_of_length_eq_zero hv)
    rw [through, List.append_assoc, hwalk, List.drop_left, List.length_append, ← hv]
    exact if_neg (by simpa using hv')

theorem through_length_append {needle x r r' : List UInt8} (hn : needle ≠ [])
    (h : (through needle (x ++ r)).length = x.length) (hr : NothingNew 1 r r') :
    (through needle (x ++ r')).length = x.length := by
  have hall : through needle (x ++ r) = ⟨x.length, (through needle (x ++ r)).closed⟩ := by
    rw [← h]
  exact congrArg Extent.length (through_append hn hall (.inr hr))

end TemplateColoring.Bytes

import TemplateColoring.Proofs.Bytes.Characters

/-!
# Searches find the first place

A search goes on character by character, so it looks at some places of a text only. A needle whose
first byte continues no character stands only where a character starts, and in a text of whole
characters the search looks there. So `through` goes up to the end of the first needle, wherever
that stands among the bytes (`upTo_through`), and there is one way only to do so (`UpTo.unique`).
-/

set_option autoImplicit false

namespace TemplateColoring.Bytes

open Ascii

/-- There is one first place only where a search does not go on. -/
theorem first_unique {goesOn : Nat → Prop} {n n' : Nat} (hn : ∀ m < n, goesOn m)
    (hstop : ¬goesOn n) (hn' : ∀ m < n', goesOn m) (hstop' : ¬goesOn n') : n = n' := by
  rcases Nat.lt_trichotomy n n' with hlt | heq | hlt
  · exact absurd (hn' n hlt) hstop
  · exact heq
  · exact absurd (hn n' hlt) hstop'

/-- `x`, in front of `r`, goes up to the end of the first needle, or, without a needle, to the end
of the text. -/
inductive UpTo (needle : List UInt8) : List UInt8 → List UInt8 → Prop
  | found {front r : List UInt8} :
      (∀ j < front.length, ¬needle <+: (front ++ needle ++ r).drop j) →
      UpTo needle (front ++ needle) r
  | missing {x : List UInt8} : (∀ j, ¬needle <+: x.drop j) → UpTo needle x []

theorem prefix_drop_length (front needle r : List UInt8) :
    needle <+: (front ++ needle ++ r).drop front.length := by
  rw [List.append_assoc, List.drop_left]
  exact List.prefix_append needle r

/-- A text can be cut behind the first needle in one way only. -/
theorem UpTo.unique {needle x r x' r' : List UInt8} (h : UpTo needle x r) (h' : UpTo needle x' r')
    (hs : x ++ r = x' ++ r') : x = x' := by
  cases h with
  | @found front r hfront =>
      cases h' with
      | @found front' r' hfront' =>
          have hprefix := prefix_drop_length front needle r
          have hprefix' := prefix_drop_length front' needle r'
          rw [← hs] at hfront' hprefix'
          have hlength : front.length = front'.length :=
            first_unique hfront (not_not_intro hprefix) hfront' (not_not_intro hprefix')
          exact List.append_inj_left hs (by simp [hlength])
      | missing hmissing =>
          rw [List.append_nil] at hs
          rw [← hs] at hmissing
          exact absurd (prefix_drop_length front needle r) (hmissing _)
  | missing hmissing =>
      cases h' with
      | @found front' r' hfront' =>
          rw [List.append_nil] at hs
          rw [hs] at hmissing
          exact absurd (prefix_drop_length front' needle r') (hmissing _)
      | missing _ => simpa using hs

variable {n : UInt8} {ns s : List UInt8}

/-- A search passes no place where the needle stands. -/
theorem not_prefix_of_lt_distanceTo (hn : isContinuation n = false) (hs : Characters s) {j : Nat}
    (hj : j < distanceTo (n :: ns) s) : ¬(n :: ns) <+: s.drop j := by
  induction s using walk_induction (bounded_searchStep (n :: ns)) generalizing j with
  | stop s hstop =>
      rw [distanceTo, walk_eq_zero hstop] at hj
      exact absurd hj (Nat.not_lt_zero j)
  | pass s k hne hstep ih =>
      rw [distanceTo, walk_eq_add (bounded_searchStep _) hne hstep, ← distanceTo] at hj
      unfold searchStep at hstep
      split at hstep
      · exact absurd hstep (by simp)
      next hprefix =>
      obtain rfl := Option.some.inj hstep
      by_cases hin : j < charLength s
      · cases j with
        | zero => simpa using hprefix
        | succ j =>
            -- inside a character no needle starts
            obtain ⟨c, r, hdrop, hc⟩ := hs.drop_inside (Nat.succ_pos j) hin
            rw [hdrop, List.cons_prefix_cons]
            rintro ⟨rfl, -⟩
            exact absurd hc (by simp [hn])
      · obtain ⟨j, rfl⟩ := Nat.exists_eq_add_of_le (Nat.le_of_not_lt hin)
        rw [← List.drop_drop]
        exact ih hs.drop_charLength (Nat.lt_of_add_lt_add_left hj)

/-- **What is searched through ends with the first needle.** -/
theorem upTo_through (hn : isContinuation n = false) (hs : Characters s) :
    UpTo (n :: ns) (s.take (through (n :: ns) s).length)
      (s.drop (through (n :: ns) s).length) := by
  have hbefore : ∀ j < distanceTo (n :: ns) s, ¬(n :: ns) <+: s.drop j := fun _ hj =>
    not_prefix_of_lt_distanceTo hn hs hj
  rcases through_cases (n :: ns) s with ⟨hall, hlength⟩ | ⟨hfit, -, hp⟩
  · rw [hall, List.take_length, List.drop_length]
    refine .missing fun j => ?_
    by_cases hj : j < s.length
    · exact hbefore j (hlength ▸ hj)
    · rw [List.drop_of_length_le (Nat.le_of_not_lt hj)]
      simp
  · obtain ⟨r, hr⟩ := List.isPrefixOf_iff_prefix.mp hp
    have hle : distanceTo (n :: ns) s ≤ s.length := walk_le_length _ s
    have htake : (s.take (distanceTo (n :: ns) s)).length = distanceTo (n :: ns) s := by
      rw [List.length_take, Nat.min_eq_left hle]
    have hparts : s.take (distanceTo (n :: ns) s) ++ (n :: ns) ++ r = s := by
      rw [List.append_assoc, hr, List.take_append_drop]
    rw [hfit, List.take_add, ← List.drop_drop, ← hr, List.take_left, List.drop_left]
    refine .found ?_
    rwa [hparts, htake]

/-- How far a search goes is told by what ends with the first needle. -/
theorem through_length_of_upTo {x r : List UInt8} (hn : isContinuation n = false)
    (hs : Characters (x ++ r)) (h : UpTo (n :: ns) x r) :
    (through (n :: ns) (x ++ r)).length = x.length := by
  have hsame := (upTo_through hn hs).unique h (List.take_append_drop _ _)
  have hle := through_le_length (n :: ns) (x ++ r)
  rw [← congrArg List.length hsame, List.length_take, Nat.min_eq_left hle]

end TemplateColoring.Bytes

import TemplateColoring.Proofs.Token.Basic
import TemplateColoring.Token.Sink

/-!
# What is written into a sink

Whoever writes runs into a sink, one behind the other, gets the tokens that the runs describe. The
sink merges a token with the one before it as `Token.merge` does, but it compares places for that:
the place where the last token stops with the place where the next one starts. As long as these
places are offsets, the base from which they are counted makes no difference.
-/

set_option autoImplicit false

namespace TemplateColoring

open TemplateColoring.Span

/-! ## Runs written one behind the other -/

namespace Token

/-- Puts a run behind runs that are merged already. -/
def appendRun (r : Run TokenKind) : List (Run TokenKind) → List (Run TokenKind)
  | [] => if r.length = 0 then [] else [r]
  | [q] =>
    if r.length = 0 then [q]
    else if q.kind = r.kind && r.kind.isMergeable then [⟨q.kind, q.length + r.length⟩]
    else [q, r]
  | q :: p :: rest => q :: appendRun r (p :: rest)

theorem appendRun_concat (r : Run TokenKind) (front : List (Run TokenKind)) (q : Run TokenKind) :
    appendRun r (front ++ [q]) = front ++ appendRun r [q] := by
  induction front with
  | nil => rfl
  | cons p front ih =>
      rw [List.cons_append, List.cons_append, ← ih]
      cases h : front ++ [q] with
      | nil => exact absurd h (by simp)
      | cons p' rest => rfl

theorem mergeRun_cons {x : Run TokenKind} (hx : x.length ≠ 0) (q : Run TokenKind)
    (rest : List (Run TokenKind)) : mergeRun x (q :: rest) =
      if q.kind = x.kind && x.kind.isMergeable then ⟨x.kind, x.length + q.length⟩ :: rest
      else x :: q :: rest := by
  rw [mergeRun, if_neg hx]

theorem appendRun_empty {r : Run TokenKind} (hr : r.length = 0) (merged : List (Run TokenKind)) :
    appendRun r merged = merged := by
  fun_induction appendRun r merged with
  | case1 | case3 => rfl
  | case2 | case4 | case5 => exact absurd hr ‹_›
  | case6 q p rest ih => rw [ih]

/-- Runs are merged at either end alike. -/
theorem mergeRun_appendRun (x r : Run TokenKind) (merged : List (Run TokenKind)) :
    mergeRun x (appendRun r merged) = appendRun r (mergeRun x merged) := by
  by_cases hx : x.length = 0
  · simp [mergeRun, hx]
  by_cases hr : r.length = 0
  · rw [appendRun_empty hr, appendRun_empty hr]
  rcases merged with _ | ⟨q, _ | ⟨p, rest⟩⟩
  · by_cases hkind : r.kind = x.kind
    · simp [appendRun, mergeRun, hr, hx, hkind]
    · simp [appendRun, mergeRun, hr, hx, hkind, Ne.symm hkind]
  · rw [appendRun, if_neg hr, mergeRun_cons hx]
    split
    · next hright =>
      have hkind := of_decide_eq_true (Bool.and_eq_true_iff.mp hright).1
      rw [mergeRun_cons hx]
      split <;> simp_all [appendRun, Nat.add_assoc]
    · next hright =>
      rw [mergeRun_cons hx]
      split <;> simp_all [appendRun]
  · rw [appendRun, mergeRun_cons hx, mergeRun_cons hx]
    split <;> rfl

/-- The last run is merged with what is merged before it. -/
theorem merge_concat (runs : List (Run TokenKind)) (r : Run TokenKind) :
    merge (runs ++ [r]) = appendRun r (merge runs) := by
  induction runs with
  | nil => rfl
  | cons x runs ih =>
      show mergeRun x (merge (runs ++ [r])) = appendRun r (mergeRun x (merge runs))
      rw [ih, mergeRun_appendRun]

end Token

namespace Sink

variable {base n : Nat} {runs : List (Run TokenKind)} {kind : TokenKind} {length : Nat}

/-- The sink into which runs are written from an offset on. -/
def ofRuns (base : Nat) (runs : List (Run TokenKind)) : Sink := ⟨(Token.ofRuns base runs).reverse⟩

@[simp] theorem finish_ofRuns (base : Nat) (runs : List (Run TokenKind)) :
    (ofRuns base runs).finish = Token.ofRuns base runs := List.reverse_reverse _

/-- The first run. -/
theorem push?_empty (base : Nat) (kind : TokenKind) (length : Nat) :
    push? {} kind base length = .ok (ofRuns base [⟨kind, length⟩]) := by
  by_cases hlength : length = 0
  · simp [push?, ofRuns, Token.ofRuns, Token.merge, Token.mergeRun, hlength]
  · simp [push?, ofRuns, Token.ofRuns, Token.merge, Token.mergeRun, hlength]

/-- **A run that is written behind others is a run more**, if it ends at an offset. -/
theorem push?_ofRuns (h : base + Run.total runs + length ≤ Offset.max) :
    (ofRuns base runs).push? kind (base + Run.total runs) length =
      .ok (ofRuns base (runs ++ [⟨kind, length⟩])) := by
  by_cases hlength : length = 0
  · rw [push?, if_pos hlength, hlength, ofRuns, ofRuns, Token.ofRuns_append_empty]
  have htotal := Token.total_merge runs
  rw [push?, if_neg hlength]
  rcases List.eq_nil_or_concat (Token.merge runs) with hnil | ⟨front, q, hconcat⟩
  · rw [hnil] at htotal
    simp only [ofRuns, Token.ofRuns, Token.merge_concat, hnil, Token.appendRun, if_neg hlength,
      ← htotal]
    rfl
  · rw [List.concat_eq_append] at hconcat
    have hlast : (ofRuns base runs).tokens =
        ⟨q.kind, base + Run.total front, q.length⟩ :: (place base front).reverse := by
      rw [ofRuns, Token.ofRuns, hconcat, place_append]
      simp
    have hnew : (ofRuns base (runs ++ [⟨kind, length⟩])).tokens =
        (place (base + Run.total front) (Token.appendRun ⟨kind, length⟩ [q])).reverse ++
          (place base front).reverse := by
      rw [ofRuns, Token.ofRuns, Token.merge_concat, hconcat, Token.appendRun_concat, place_append,
        List.reverse_append]
    have hend : Run.total front + q.length = Run.total runs := by
      rw [← htotal, hconcat, Run.total, Run.total, totalOf_append, totalOf_cons, totalOf_nil,
        Nat.add_zero]
    have hstop : Span.stop? (⟨q.kind, base + Run.total front, q.length⟩ : Token) =
        .ok (base + Run.total runs) := by
      have hfits : base + Run.total front + q.length ≤ Offset.max := by omega
      rw [Span.stop?, Offset.add_eq_ok hfits, Nat.add_assoc, hend]
    have hsum : Offset.add q.length length = .ok (q.length + length) :=
      Offset.add_eq_ok (by omega)
    rw [Token.appendRun, if_neg hlength] at hnew
    simp only [hlast, hstop, hsum, ok_bind, if_true, map_ok]
    split
    · next hmerge =>
      rw [if_pos hmerge] at hnew
      exact congrArg Except.ok (congrArg Sink.mk hnew.symm)
    · next hmerge =>
      rw [if_neg hmerge] at hnew
      have hplace : base + Run.total front + q.length = base + Run.total runs := by omega
      rw [place_cons, place_cons, hplace] at hnew
      exact congrArg Except.ok (congrArg Sink.mk hnew.symm)

/-- A run of a text that starts at `base`, from where the others end. -/
theorem write?_ofRuns {start : Nat} (hstart : Run.total runs = start)
    (h : base + start + length ≤ Offset.max) :
    (ofRuns base runs).write? base kind start length =
      .ok (ofRuns base (runs ++ [⟨kind, length⟩])) := by
  subst hstart
  rw [write?, Offset.add_eq_ok (by omega), ok_bind, push?_ofRuns h]

/-- A run from where the others end up to a place in the text. -/
theorem writeTo?_ofRuns {start stop : Nat} (hstart : Run.total runs = start) (hle : start ≤ stop)
    (h : base + stop ≤ Offset.max) :
    (ofRuns base runs).writeTo? base kind start stop =
      .ok (ofRuns base (runs ++ [⟨kind, stop - start⟩])) := by
  subst hstart
  rw [writeTo?, Offset.add_eq_ok (by omega), ok_bind, Offset.sub_eq_ok hle, ok_bind,
    push?_ofRuns (by omega)]

end Sink

end TemplateColoring

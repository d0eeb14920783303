import TemplateColoring.Proofs.Span.Tiling
import TemplateColoring.Token.Basic

/-!
# Merging runs into tokens

A run of a kind that has inner structure is never merged with its neighbours, so it is found again
among the merged runs, in its place and at its length. Merging keeps the number of bytes that runs
cover, and adds no kind.
-/

set_option autoImplicit false

namespace TemplateColoring.Token

open TemplateColoring.Span

/-! ## Runs that stay alone -/

variable {r : Run TokenKind} {front back : List (Run TokenKind)}

theorem mergeRun_of_not_mergeable (hkind : r.kind.isMergeable = false) (hpos : 0 < r.length)
    (merged : List (Run TokenKind)) : mergeRun r merged = r :: merged := by
  have hne : r.length ≠ 0 := Nat.ne_of_gt hpos
  cases merged with
  | nil => simp [mergeRun, hne]
  | cons q rest => simp [mergeRun, hne, hkind]

theorem mergeRun_append (hkind : r.kind.isMergeable = false) (q : Run TokenKind)
    (merged rest : List (Run TokenKind)) :
    mergeRun q (merged ++ r :: rest) = mergeRun q merged ++ r :: rest := by
  by_cases hq : q.length = 0
  · simp [mergeRun, hq]
  · cases merged with
    | nil =>
        have hne : (decide (r.kind = q.kind) && q.kind.isMergeable) = false := by
          by_cases hk : r.kind = q.kind
          · simp [← hk, hkind]
          · simp [hk]
        simp [mergeRun, hq, hne]
    | cons p merged =>
        simp only [mergeRun, hq, if_false, List.cons_append]
        split <;> rfl

theorem merge_cons (hkind : r.kind.isMergeable = false) (hpos : 0 < r.length) :
    merge (r :: back) = r :: merge back :=
  mergeRun_of_not_mergeable hkind hpos (merge back)

/-- A run that is not mergeable parts the runs before it from those behind it. -/
theorem merge_append_cons (hkind : r.kind.isMergeable = false) (hpos : 0 < r.length) :
    merge (front ++ r :: back) = merge front ++ r :: merge back := by
  induction front with
  | nil => exact merge_cons hkind hpos
  | cons q front ih =>
      show mergeRun q (merge (front ++ r :: back)) = mergeRun q (merge front) ++ r :: merge back
      rw [ih, mergeRun_append hkind]

/-- An empty run at the end vanishes. -/
theorem merge_append_empty (kind : TokenKind) : merge (front ++ [⟨kind, 0⟩]) = merge front := by
  rw [merge, merge, List.foldr_append]
  rfl

/-! ## What merging keeps -/

theorem total_mergeRun (r : Run TokenKind) (merged : List (Run TokenKind)) :
    Run.total (mergeRun r merged) = r.length + Run.total merged := by
  by_cases hr : r.length = 0
  · simp [mergeRun, hr]
  · cases merged with
    | nil => simp [mergeRun, hr, Run.total]
    | cons q rest =>
        simp only [mergeRun, hr, if_false]
        split
        · simp [Run.total, Nat.add_assoc]
        · simp [Run.total]

theorem total_merge (runs : List (Run TokenKind)) : Run.total (merge runs) = Run.total runs := by
  induction runs with
  | nil => rfl
  | cons r runs ih =>
      show Run.total (mergeRun r (merge runs)) = _
      rw [total_mergeRun, ih]
      simp [Run.total]

theorem kind_mem_mergeRun {r q : Run TokenKind} {merged : List (Run TokenKind)}
    (h : q ∈ mergeRun r merged) : q.kind = r.kind ∨ ∃ p ∈ merged, p.kind = q.kind := by
  by_cases hr : r.length = 0
  · simp only [mergeRun, hr, if_true] at h
    exact .inr ⟨q, h, rfl⟩
  · cases merged with
    | nil =>
        simp only [mergeRun, hr, if_false, List.mem_singleton] at h
        exact .inl (congrArg Run.kind h)
    | cons p rest =>
        simp only [mergeRun, hr, if_false] at h
        split at h
        · rcases List.mem_cons.mp h with rfl | h
          · exact .inl rfl
          · exact .inr ⟨q, List.mem_cons_of_mem p h, rfl⟩
        · rcases List.mem_cons.mp h with rfl | h
          · exact .inl rfl
          · exact .inr ⟨q, h, rfl⟩

/-- Every merged run is of the kind of some run. -/
theorem exists_of_mem_merge {q : Run TokenKind} {runs : List (Run TokenKind)}
    (h : q ∈ merge runs) : ∃ r ∈ runs, r.kind = q.kind := by
  induction runs generalizing q with
  | nil => exact absurd h (by simp [merge])
  | cons r runs ih =>
      rcases kind_mem_mergeRun h with hr | ⟨p, hp, hpq⟩
      · exact ⟨r, List.mem_cons_self, hr.symm⟩
      · obtain ⟨r', hmem, hr'⟩ := ih hp
        exact ⟨r', List.mem_cons_of_mem r hmem, hr'.trans hpq⟩

/-! ## The tokens of runs -/

theorem length_pos_of_mem_mergeRun {r q : Run TokenKind} {merged : List (Run TokenKind)}
    (hmerged : ∀ p ∈ merged, 0 < p.length) (h : q ∈ mergeRun r merged) : 0 < q.length := by
  by_cases hr : r.length = 0
  · simp only [mergeRun, hr, if_true] at h
    exact hmerged q h
  · have hpos : 0 < r.length := Nat.pos_of_ne_zero hr
    cases merged with
    | nil =>
        simp only [mergeRun, hr, if_false, List.mem_singleton] at h
        rwa [h]
    | cons p rest =>
        simp only [mergeRun, hr, if_false] at h
        split at h
        · rcases List.mem_cons.mp h with rfl | h
          · exact Nat.lt_of_lt_of_le hpos (Nat.le_add_right _ _)
          · exact hmerged q (List.mem_cons_of_mem p h)
        · rcases List.mem_cons.mp h with rfl | h
          · exact hpos
          · exact hmerged q h

/-- Merged runs are not empty. -/
theorem length_pos_of_mem_merge {q : Run TokenKind} {runs : List (Run TokenKind)}
    (h : q ∈ merge runs) : 0 < q.length := by
  induction runs generalizing q with
  | nil => exact absurd h (by simp [merge])
  | cons r runs ih => exact length_pos_of_mem_mergeRun (fun p hp => ih hp) h

/-- **Tokens tile the text that their runs cover.** -/
theorem tiles_ofRuns (start : Nat) (runs : List (Run TokenKind)) :
    Tiles start (ofRuns start runs) (start + Run.total runs) := by
  have hpos : ∀ q ∈ merge runs, 0 < q.length := fun _ hq => length_pos_of_mem_merge hq
  have htiles := tiles_place hpos start
  rw [total_merge] at htiles
  exact htiles

/-- Every token is of the kind of some run. -/
theorem exists_of_mem_ofRuns {start : Nat} {runs : List (Run TokenKind)} {p : Token}
    (h : p ∈ ofRuns start runs) : ∃ r ∈ runs, r.kind = p.kind := by
  obtain ⟨q, hq, hqp⟩ := exists_of_mem_place h
  obtain ⟨r, hr, hrq⟩ := exists_of_mem_merge hq
  exact ⟨r, hr, hrq.trans hqp⟩

theorem ofRuns_append_empty (start : Nat) (kind : TokenKind) :
    ofRuns start (front ++ [⟨kind, 0⟩]) = ofRuns start front := by
  rw [ofRuns, merge_append_empty, ofRuns]

/-- Runs between an opener and a closer of a kind that is not mergeable are merged among
themselves. -/
theorem ofRuns_delimited {delimiter : TokenKind} {opener : Nat} {inner : List (Run TokenKind)}
    {closer? : Option (Run TokenKind)} (hkind : delimiter.isMergeable = false) (hpos : 0 < opener)
    (hcloser : ∀ c ∈ closer?, c.kind = delimiter ∧ 0 < c.length) (start : Nat) :
    ofRuns start (⟨delimiter, opener⟩ :: (inner ++ closer?.toList)) =
      ⟨delimiter, start, opener⟩ :: (ofRuns (start + opener) inner ++ (closer?.map fun c =>
        ⟨delimiter, start + opener + Run.total inner, c.length⟩).toList) := by
  rw [ofRuns, merge_cons hkind hpos, place_cons, ofRuns]
  congr 1
  cases closer? with
  | none => simp
  | some c =>
      obtain ⟨rfl, hlength⟩ := hcloser c rfl
      rw [Option.toList_some, merge_append_cons hkind hlength, place_append, total_merge]
      rfl

/-- Tokens are the same wherever the text starts. -/
theorem map_ofRuns (base start : Nat) (runs : List (Run TokenKind)) :
    (ofRuns start runs).map (fun p => { p with start := p.start + base }) =
      ofRuns (start + base) runs :=
  map_place base start (merge runs)

end TemplateColoring.Token

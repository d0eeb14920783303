import TemplateColoring.Span

/-!
# Spans end to end

The regions of a template, and the tokens of a text, lie end to end: each starts where the one
before it stops. `Span.Tiles` says so from the first offset to the last. A tiling can be cut at
the start of each of its spans, and the offset where it is cut says which spans go to which side.
-/

set_option autoImplicit false

namespace TemplateColoring.Span

variable {κ : Type}

/-- The spans lie end to end from `start` up to `stop`, and none of them is empty. -/
def Tiles : Nat → List (Span κ) → Nat → Prop
  | start, [], stop => start = stop
  | start, p :: ps, stop => p.start = start ∧ 0 < p.length ∧ Tiles p.stop ps stop

/-- A tiling can be cut between any two of its spans. -/
theorem tiles_append {a c : Nat} {ps qs : List (Span κ)} :
    Tiles a (ps ++ qs) c ↔ ∃ b, Tiles a ps b ∧ Tiles b qs c := by
  induction ps generalizing a with
  | nil => simp [Tiles]
  | cons p ps ih =>
      simp only [List.cons_append, Tiles, ih]
      constructor
      · rintro ⟨hp, hpos, b, hps, hqs⟩
        exact ⟨b, ⟨hp, hpos, hps⟩, hqs⟩
      · rintro ⟨b, ⟨hp, hpos, hps⟩, hqs⟩
        exact ⟨hp, hpos, b, hps, hqs⟩

/-- A span moved to the right. -/
def moveBy (n : Nat) (p : Span κ) : Span κ := { p with start := p.start + n }

namespace Tiles

variable {a b c : Nat} {ps qs : List (Span κ)} {p : Span κ}

theorem le (h : Tiles a ps b) : a ≤ b := by
  induction ps generalizing a with
  | nil => exact Nat.le_of_eq h
  | cons p ps ih =>
      obtain ⟨rfl, -, hps⟩ := h
      exact Nat.le_trans (Nat.le_add_right _ _) (ih hps)

theorem stop_unique (h : Tiles a ps b) (h' : Tiles a ps c) : b = c := by
  induction ps generalizing a with
  | nil => exact h.symm.trans h'
  | cons p ps ih => exact ih h.2.2 h'.2.2

/-- Every span of a tiling has bytes and lies between its two ends. -/
theorem bounds (h : Tiles a ps b) (hp : p ∈ ps) : a ≤ p.start ∧ p.start < p.stop ∧ p.stop ≤ b := by
  obtain ⟨front, back, rfl⟩ := List.append_of_mem hp
  obtain ⟨m, hfront, hstart, hpos, hback⟩ := tiles_append.mp h
  have hm := hfront.le
  have hb := hback.le
  simp only [stop] at hb ⊢
  omega

theorem head_start (h : Tiles a (p :: ps) b) : p.start = a := h.1

/-- A tiling can be cut where one of its spans starts. -/
theorem take_getElem (h : Tiles a ps b) {i : Nat} (hi : i < ps.length) :
    Tiles a (ps.take i) ps[i].start := by
  rw [← List.take_append_drop i ps, ← List.getElem_cons_drop hi] at h
  obtain ⟨m, hfront, hback⟩ := tiles_append.mp h
  rwa [hback.head_start]

/-- The last span of a tiling stops at its end. -/
theorem getLast_stop (h : Tiles a ps b) : (ps.getLast?.map stop).getD a = b := by
  rcases List.eq_nil_or_concat ps with rfl | ⟨front, p, rfl⟩
  · exact h
  · rw [List.concat_eq_append] at h
    obtain ⟨m, -, -, -, hb⟩ := tiles_append.mp h
    simpa [Tiles] using hb

/-- A tiling ends before an offset if it starts before it and all its spans stop before it. -/
theorem le_of_forall {n : Nat} (h : Tiles a ps b) (ha : a ≤ n) (hps : ∀ p ∈ ps, p.stop ≤ n) :
    b ≤ n := by
  induction ps generalizing a with
  | nil => exact Nat.le_trans (Nat.le_of_eq h.symm) ha
  | cons p ps ih =>
      exact ih h.2.2 (hps p List.mem_cons_self) fun q hq => hps q (List.mem_cons_of_mem p hq)

/-- Where each span of a tiling is tiled itself, all the smaller spans tile the whole. -/
theorem flatMap {κ' : Type} {f : Span κ → List (Span κ')} (h : Tiles a ps b)
    (hf : ∀ p ∈ ps, Tiles p.start (f p) p.stop) : Tiles a (ps.flatMap f) b := by
  induction ps generalizing a with
  | nil => exact h
  | cons p ps ih =>
      obtain ⟨rfl, -, hps⟩ := h
      rw [List.flatMap_cons, tiles_append]
      exact ⟨p.stop, hf p List.mem_cons_self, ih hps fun q hq => hf q (List.mem_cons_of_mem p hq)⟩

/-- The spans up to an offset where a tiling can be cut are those that stop there or earlier. -/
theorem filter_stop (hps : Tiles a ps b) (hqs : Tiles b qs c) :
    (ps ++ qs).filter (·.stop ≤ b) = ps := by
  have hfront : ∀ p ∈ ps, decide (p.stop ≤ b) = true := by
    intro p hp
    exact decide_eq_true (hps.bounds hp).2.2
  have hback : ∀ q ∈ qs, ¬decide (q.stop ≤ b) = true := by
    intro q hq
    have hbounds := hqs.bounds hq
    rw [decide_eq_true_eq]
    omega
  rw [List.filter_append, List.filter_eq_self.mpr hfront, List.filter_eq_nil_iff.mpr hback,
    List.append_nil]

/-- The spans behind an offset where a tiling can be cut are those that start there or later. -/
theorem filter_start (hps : Tiles a ps b) (hqs : Tiles b qs c) :
    (ps ++ qs).filter (b ≤ ·.start) = qs := by
  have hfront : ∀ p ∈ ps, ¬decide (b ≤ p.start) = true := by
    intro p hp
    have hbounds := hps.bounds hp
    rw [decide_eq_true_eq]
    omega
  have hback : ∀ q ∈ qs, decide (b ≤ q.start) = true := by
    intro q hq
    exact decide_eq_true (hqs.bounds hq).1
  rw [List.filter_append, List.filter_eq_nil_iff.mpr hfront, List.filter_eq_self.mpr hback,
    List.nil_append]

/-- The spans behind an offset where a tiling can be cut are those that start there or later. -/
theorem dropWhile_start (hps : Tiles a ps b) (hqs : Tiles b qs c) :
    (ps ++ qs).dropWhile (·.start < b) = qs := by
  have hfront : ∀ p ∈ ps, decide (p.start < b) = true := by
    intro p hp
    have := hps.bounds hp
    simp only [decide_eq_true_eq]
    omega
  rw [List.dropWhile_append_of_pos hfront]
  cases qs with
  | nil => rfl
  | cons q qs =>
      have hq : ¬q.start < b := by rw [hqs.head_start]; omega
      simp [hq]

/-- A tiling is moved as a whole. -/
theorem map_start (h : Tiles a ps b) {base : Nat} (hbase : base ≤ a) (c : Nat) :
    Tiles (a - base + c) (ps.map fun p => { p with start := p.start - base + c })
      (b - base + c) := by
  induction ps generalizing a with
  | nil =>
      obtain rfl : a = b := h
      rfl
  | cons p ps ih =>
      obtain ⟨rfl, hpos, hps⟩ := h
      have hrest := ih hps (Nat.le_trans hbase (Nat.le_add_right _ _))
      have hstop : p.stop - base + c = p.start - base + c + p.length := by
        rw [stop]
        omega
      rw [hstop] at hrest
      exact ⟨rfl, hpos, hrest⟩

end Tiles

/-! ## Runs end to end -/

theorem place_append (start : Nat) (runs runs' : List (Run κ)) :
    place start (runs ++ runs') = place start runs ++ place (start + Run.total runs) runs' := by
  induction runs generalizing start with
  | nil => rfl
  | cons r runs ih =>
      rw [List.cons_append, place_cons, place_cons, ih, List.cons_append, Run.total, Run.total,
        totalOf_cons, Nat.add_assoc]

/-- A placed run keeps its kind. -/
theorem exists_of_mem_place {start : Nat} {runs : List (Run κ)} {p : Span κ}
    (h : p ∈ place start runs) : ∃ r ∈ runs, r.kind = p.kind := by
  induction runs generalizing start with
  | nil => exact absurd h (by simp)
  | cons r runs ih =>
      rw [place_cons] at h
      rcases List.mem_cons.mp h with rfl | h
      · exact ⟨r, List.mem_cons_self, rfl⟩
      · obtain ⟨r', hmem, hr'⟩ := ih h
        exact ⟨r', List.mem_cons_of_mem r hmem, hr'⟩

/-- Runs that have bytes, laid end to end, tile what they cover together. -/
theorem tiles_place {runs : List (Run κ)} (h : ∀ r ∈ runs, 0 < r.length) (start : Nat) :
    Tiles start (place start runs) (start + Run.total runs) := by
  induction runs generalizing start with
  | nil => rfl
  | cons r runs ih =>
      rw [place_cons, Run.total, totalOf_cons, ← Nat.add_assoc]
      refine ⟨rfl, h r List.mem_cons_self, ?_⟩
      exact ih (fun q hq => h q (List.mem_cons_of_mem r hq)) (start + r.length)

/-- Runs are laid out alike wherever the text starts. -/
theorem map_place (base start : Nat) (runs : List (Run κ)) :
    (place start runs).map (fun p => { p with start := p.start + base }) =
      place (start + base) runs := by
  induction runs generalizing start with
  | nil => rfl
  | cons r runs ih =>
      have hnext : start + r.length + base = start + base + r.length := by omega
      rw [place_cons, place_cons, List.map_cons, ih, hnext]

end TemplateColoring.Span

import TemplateColoring.Proofs.Region.Lookahead
import TemplateColoring.Proofs.Span.Tiling

/-!
# The scan of a text

A scan divides a text `x ++ r`, whose first region is `x`, into that region and the scan of `r`.
Along this recursion: the regions tile the text, plain text never stands next to plain text, the
same text has the same regions at any offset, and a scan that is cut between two regions goes on
behind the cut as a scan of its own.

`filter_scanBy_prefix_of_take_eq` carries the look-ahead of the first region through the whole scan:
texts with a common front have the same regions in it, up to four bytes before its end.
-/

set_option autoImplicit false

namespace TemplateColoring.Region

open Bytes TemplateColoring.Span

variable {rules : List RegionKind} {d : Dialect}

/-! ## The recursion of a scan -/

/-- The first region of a text is a front `x` of it that is not empty. -/
theorem exists_firstBy (rules : List RegionKind) (d : Dialect) {s : List UInt8} (hs : s ≠ []) :
    ∃ kind x r, s = x ++ r ∧ x ≠ [] ∧ firstBy rules d (x ++ r) = ⟨kind, x.length⟩ := by
  have hle := firstBy_le rules d s
  have hpos : 0 < (firstBy rules d s).length := by
    cases s with
    | nil => exact absurd rfl hs
    | cons b s => exact firstBy_length_pos rules d b s
  obtain ⟨x, r, hcut, hx⟩ := exists_cut hle
  refine ⟨(firstBy rules d s).kind, x, r, hcut, List.ne_nil_of_length_pos (by omega), ?_⟩
  rw [← hcut, hx]

theorem cut_of_firstBy {kind : RegionKind} {x r : List UInt8} (hx : x ≠ [])
    (h : firstBy rules d (x ++ r) = ⟨kind, x.length⟩) (settled : Nat → Bool) (start : Nat) :
    cut (cutRegion rules d settled) start (x ++ r) = ⟨kind, start, x.length⟩ ::
      if settled (start + x.length) then []
      else cut (cutRegion rules d settled) (start + x.length) r := by
  obtain ⟨b, x, rfl⟩ := List.exists_cons_of_ne_nil hx
  simp only [List.cons_append, cut_cons]
  rw [← List.cons_append, cutRegion]
  simp only [h]
  by_cases hsettled : settled (start + (b :: x).length) = true
  · rw [if_pos hsettled, if_pos hsettled]
  · rw [if_neg hsettled, if_neg hsettled]
    simp

theorem scanBy_of_firstBy {kind : RegionKind} {x r : List UInt8} (hx : x ≠ [])
    (h : firstBy rules d (x ++ r) = ⟨kind, x.length⟩) (start : Nat) :
    scanBy rules d start (x ++ r) =
      ⟨kind, start, x.length⟩ :: scanBy rules d (start + x.length) r :=
  cut_of_firstBy hx h (fun _ => false) start

/-- Induction over the regions of a text. -/
theorem scan_induction (rules : List RegionKind) (d : Dialect) {motive : List UInt8 → Prop}
    (nil : motive [])
    (region : ∀ kind x r, x ≠ [] → firstBy rules d (x ++ r) = ⟨kind, x.length⟩ → motive r →
      motive (x ++ r)) (s : List UInt8) : motive s := by
  induction h : s.length using Nat.strongRecOn generalizing s with
  | _ n ih =>
      by_cases hs : s = []
      · subst hs
        exact nil
      · obtain ⟨kind, x, r, rfl, hx, hfirst⟩ := exists_firstBy rules d hs
        have hpos := List.length_pos_iff.mpr hx
        rw [List.length_append] at h
        exact region kind x r hx hfirst (ih r.length (by omega) r rfl)

/-- The regions of a text tile it. -/
theorem tiles_scanBy (rules : List RegionKind) (d : Dialect) (start : Nat) (s : List UInt8) :
    Tiles start (scanBy rules d start s) (start + s.length) := by
  induction s using scan_induction rules d generalizing start with
  | nil => rfl
  | region kind x r hx hfirst ih =>
      rw [scanBy_of_firstBy hx hfirst, List.length_append, ← Nat.add_assoc]
      exact ⟨rfl, List.length_pos_iff.mpr hx, ih _⟩

/-- The regions of a text are the same at any offset. -/
theorem map_scanBy (a b : Nat) (s : List UInt8) :
    (scanBy rules d a s).map (fun r => { r with start := r.start - a + b }) =
      scanBy rules d b s := by
  -- behind the first region both scans are at the same distance `n` from where they started
  suffices h : ∀ n, (scanBy rules d (a + n) s).map (fun r => { r with start := r.start - a + b }) =
      scanBy rules d (b + n) s from h 0
  induction s using scan_induction rules d with
  | nil => intro n; rfl
  | region kind x r hx hfirst ih =>
      intro n
      rw [scanBy_of_firstBy hx hfirst, scanBy_of_firstBy hx hfirst, List.map_cons, Nat.add_assoc,
        Nat.add_assoc, ih]
      congr 2
      show a + n - a + b = b + n
      omega

/-! ## Cutting a scan -/

/-- Behind any of its regions a scan goes on as the scan of what is left. -/
theorem scanBy_eq_append {front back : List Region} {start : Nat} {s : List UInt8}
    (h : scanBy rules d start s = front ++ back) :
    ∃ x r, s = x ++ r ∧ Tiles start front (start + x.length) ∧
      back = scanBy rules d (start + x.length) r := by
  induction s using scan_induction rules d generalizing start front with
  | nil =>
      obtain ⟨rfl, rfl⟩ := List.append_eq_nil_iff.mp h.symm
      exact ⟨[], [], rfl, rfl, rfl⟩
  | region kind x r hx hfirst ih =>
      cases front with
      | nil => exact ⟨[], x ++ r, rfl, rfl, h.symm⟩
      | cons p front =>
          -- `p` is the first region, and the rest of the front is cut off from the scan behind it
          rw [scanBy_of_firstBy hx hfirst, List.cons_append] at h
          obtain ⟨hp, hrest⟩ := List.cons.inj h
          obtain ⟨y, z, rfl, htiles, hback⟩ := ih hrest
          refine ⟨x ++ y, z, (List.append_assoc x y z).symm, ?_, ?_⟩
          · rw [List.length_append, ← Nat.add_assoc]
            subst hp
            exact ⟨rfl, List.length_pos_iff.mpr hx, htiles⟩
          · rwa [List.length_append, ← Nat.add_assoc]

/-- A scan that stops at a settled offset gives the regions up to there. -/
theorem scan_eq_scanUntil_append (settled : Nat → Bool) (d : Dialect) (start : Nat)
    (s : List UInt8) :
    ∃ x r, s = x ++ r ∧ Tiles start (scanUntil settled d start s) (start + x.length) ∧
      scan d start s = scanUntil settled d start s ++ scan d (start + x.length) r ∧
      (r = [] ∨ x ≠ [] ∧ settled (start + x.length) = true) := by
  induction s using scan_induction d.rules d generalizing start with
  | nil => exact ⟨[], [], rfl, rfl, rfl, .inl rfl⟩
  | region kind x r hx hfirst ih =>
      have hscan : scan d start (x ++ r) =
          ⟨kind, start, x.length⟩ :: scan d (start + x.length) r := scanBy_of_firstBy hx hfirst start
      have hpos := List.length_pos_iff.mpr hx
      have huntil : scanUntil settled d start (x ++ r) = ⟨kind, start, x.length⟩ ::
          if settled (start + x.length) then [] else scanUntil settled d (start + x.length) r :=
        cut_of_firstBy hx hfirst settled start
      by_cases hsettled : settled (start + x.length) = true
      · rw [if_pos hsettled] at huntil
        refine ⟨x, r, rfl, ?_, ?_, .inr ⟨hx, hsettled⟩⟩
        · rw [huntil]
          exact ⟨rfl, hpos, rfl⟩
        · rw [huntil, hscan]
          rfl
      · rw [if_neg hsettled] at huntil
        obtain ⟨y, z, rfl, htiles, hsplit, hend⟩ := ih (start + x.length)
        refine ⟨x ++ y, z, (List.append_assoc x y z).symm, ?_, ?_, ?_⟩
        · rw [huntil, List.length_append, ← Nat.add_assoc]
          exact ⟨rfl, hpos, htiles⟩
        · rw [huntil, hscan, hsplit, List.length_append, ← Nat.add_assoc]
          rfl
        · rw [List.length_append, ← Nat.add_assoc]
          exact hend.imp id fun h => ⟨by simp [hx], h.2⟩

/-! ## Plain text -/

/-- Plain text never stands next to plain text. -/
def Separated : List Region → Prop
  | p :: q :: rest => ¬(p.kind = .plain ∧ q.kind = .plain) ∧ Separated (q :: rest)
  | _ => True

theorem separated_cons {p : Region} {rest : List Region} : Separated (p :: rest) ↔
    (∀ q, rest.head? = some q → ¬(p.kind = .plain ∧ q.kind = .plain)) ∧ Separated rest := by
  cases rest with
  | nil => simp [Separated]
  | cons q rest => simp [Separated]

theorem Separated.of_append {front back : List Region} (h : Separated (front ++ back)) :
    Separated back := by
  induction front with
  | nil => exact h
  | cons p front ih => exact ih (separated_cons.mp h).2

theorem Separated.of_append_left {front back : List Region} (h : Separated (front ++ back)) :
    Separated front := by
  induction front with
  | nil => trivial
  | cons p front ih =>
      rw [List.cons_append, separated_cons] at h
      refine separated_cons.mpr ⟨fun q hq => h.1 q ?_, ih h.2⟩
      rw [List.head?_append, hq]
      rfl

/-- Plain text ends where a region opens, or at the end of the text. -/
theorem firstBy_plain (hrules : RegionKind.plain ∉ rules) {x r : List UInt8}
    (h : firstBy rules d (x ++ r) = ⟨.plain, x.length⟩) :
    openingBy? rules d (x ++ r) = none ∧ (r = [] ∨ openingBy? rules d r ≠ none) := by
  cases ho : openingBy? rules d (x ++ r) with
  | some o =>
      rw [firstBy_of_openingBy? ho] at h
      have hmem := (openingBy?_eq_some_iff.mp ho).1
      rw [(Run.mk.inj h).1] at hmem
      exact absurd hmem hrules
  | none =>
      rw [firstBy_of_none ho] at h
      have hend := step_drop_walk (bounded_plainStep rules d) (x ++ r)
      rw [(Run.mk.inj h).2, List.drop_left] at hend
      exact ⟨rfl, hend.imp id plainStep_eq_none_iff.mp⟩

theorem firstBy_kind_ne_plain (hrules : RegionKind.plain ∉ rules) {s : List UInt8}
    (h : openingBy? rules d s ≠ none) : (firstBy rules d s).kind ≠ .plain := by
  cases ho : openingBy? rules d s with
  | none => exact absurd ho h
  | some o =>
      rw [firstBy_of_openingBy? ho]
      intro hk
      have hmem := (openingBy?_eq_some_iff.mp ho).1
      rw [show o.kind = .plain from hk] at hmem
      exact hrules hmem

theorem firstBy_eq_plain_iff (hrules : RegionKind.plain ∉ rules) {s : List UInt8} {n : Nat} :
    firstBy rules d s = ⟨.plain, n⟩ ↔
      openingBy? rules d s = none ∧ walk (plainStep rules d) s = n := by
  constructor
  · intro h
    cases ho : openingBy? rules d s with
    | none =>
        rw [firstBy_of_none ho] at h
        exact ⟨rfl, (Run.mk.inj h).2⟩
    | some o =>
        have hne := firstBy_kind_ne_plain hrules (s := s) (d := d) (by simp [ho])
        rw [h] at hne
        exact absurd rfl hne
  · rintro ⟨hnone, rfl⟩
    exact firstBy_of_none hnone

theorem firstBy_eq_of_openingOf? {s : List UInt8} {o : Opening} (hmem : o.kind ∈ rules)
    (ho : openingOf? d o.kind s = some o) :
    firstBy rules d s =
      ⟨o.kind, o.length + (closingOf d o.kind o (s.drop o.length)).length⟩ :=
  firstBy_of_openingBy? (openingBy?_eq_some_iff.mpr ⟨hmem, ho⟩)

/-- A region that is not plain text is opened and closed by the rule of its kind. -/
theorem exists_opening_of_firstBy {s : List UInt8} {kind : RegionKind} {n : Nat}
    (hne : kind ≠ .plain) (h : firstBy rules d s = ⟨kind, n⟩) :
    kind ∈ rules ∧ ∃ o, openingOf? d kind s = some o ∧
      n = o.length + (closingOf d kind o (s.drop o.length)).length := by
  cases ho : openingBy? rules d s with
  | none =>
      rw [firstBy_of_none ho] at h
      exact absurd (Run.mk.inj h).1.symm hne
  | some o =>
      obtain ⟨hmem, hof⟩ := openingBy?_eq_some_iff.mp ho
      rw [firstBy_eq_of_openingOf? hmem hof] at h
      obtain ⟨rfl, rfl⟩ := Run.mk.inj h
      exact ⟨hmem, o, hof, rfl⟩

theorem separated_scanBy (hrules : RegionKind.plain ∉ rules) (start : Nat) (s : List UInt8) :
    Separated (scanBy rules d start s) := by
  induction s using scan_induction rules d generalizing start with
  | nil => trivial
  | region kind x r hx hfirst ih =>
      rw [scanBy_of_firstBy hx hfirst, separated_cons]
      refine ⟨?_, ih _⟩
      rintro q hq ⟨hkind, hq'⟩
      replace hkind : kind = .plain := hkind
      subst hkind
      rcases (firstBy_plain hrules hfirst).2 with rfl | hopens
      · simp at hq
      · -- a region that opens there is not plain text
        have hr : r ≠ [] := by rintro rfl; exact hopens (by simp [openingBy?])
        obtain ⟨kind', y, z, rfl, hy, hfirst'⟩ := exists_firstBy rules d hr
        rw [scanBy_of_firstBy hy hfirst'] at hq
        have hkind' := firstBy_kind_ne_plain hrules hopens
        rw [hfirst'] at hkind'
        obtain rfl := Option.some.inj hq
        exact hkind' hq'

theorem plain_not_mem_rules (d : Dialect) : RegionKind.plain ∉ d.rules := by
  cases h : d.hostMarkup <;> simp [Dialect.rules, h]

/-! ## Texts with a common front -/

/-- No region of a text stops before the first one does. -/
theorem le_stop_of_mem_scanBy {kind : RegionKind} {x r : List UInt8} (hx : x ≠ [])
    (hfirst : firstBy rules d (x ++ r) = ⟨kind, x.length⟩) {start : Nat} {p : Region}
    (hp : p ∈ scanBy rules d start (x ++ r)) : start + x.length ≤ p.stop := by
  rw [scanBy_of_firstBy hx hfirst] at hp
  rcases List.mem_cons.mp hp with rfl | hp
  · exact Nat.le_refl _
  · have := (tiles_scanBy rules d (start + x.length) r).bounds hp
    omega

/-- The regions that end four bytes before the end of a common front, or earlier, are the first
regions of every text with that front. -/
theorem filter_scanBy_prefix_of_take_eq (rules : List RegionKind) (d : Dialect)
    {s s' : List UInt8} {n : Nat} (h : s.take n = s'.take n) (start : Nat) :
    (scanBy rules d start s).filter (fun p => p.stop + 4 ≤ start + n) <+:
      scanBy rules d start s' := by
  -- along the regions of `s`, while the common front grows shorter by each of them
  induction s using scan_induction rules d generalizing start n s' with
  | nil => exact List.nil_prefix
  | region kind x r hx hfirst ih =>
      by_cases hfit : x.length + 4 ≤ n
      · -- the first region lies in the common front, so `s'` starts with its text too
        obtain ⟨r', rfl⟩ : ∃ r', s' = x ++ r' := by
          have hpre : x <+: s'.take n := by
            rw [← h, List.take_append, List.take_of_length_le (by omega)]
            exact List.prefix_append _ _
          obtain ⟨r', hr'⟩ := hpre.trans (List.take_prefix n s')
          exact ⟨r', hr'.symm⟩
        have hr : r.take (n - x.length) = r'.take (n - x.length) := by
          rw [List.take_append, List.take_append, List.take_of_length_le (by omega)] at h
          exact List.append_cancel_left h
        have hfirst' := firstBy_append hfirst (.of_take_eq (take_eq_of_take_eq hr (by omega)))
        have hstop : (⟨kind, start, x.length⟩ : Region).stop + 4 ≤ start + n := by
          simp only [stop]
          omega
        rw [scanBy_of_firstBy hx hfirst, scanBy_of_firstBy hx hfirst',
          List.filter_cons_of_pos (by simpa using hstop), List.cons_prefix_cons]
        refine ⟨rfl, ?_⟩
        have hn : start + n = start + x.length + (n - x.length) := by omega
        rw [hn]
        exact ih hr _
      · -- the first region ends too late already, and so do the others
        have hnone : (scanBy rules d start (x ++ r)).filter
            (fun p => p.stop + 4 ≤ start + n) = [] := by
          rw [List.filter_eq_nil_iff]
          intro p hp
          have hlate := le_stop_of_mem_scanBy hx hfirst hp
          simp only [decide_eq_true_eq]
          omega
        rw [hnone]
        exact List.nil_prefix

end TemplateColoring.Region

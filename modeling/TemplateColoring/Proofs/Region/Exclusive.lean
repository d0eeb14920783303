import TemplateColoring.Proofs.Region.AtCursor
import TemplateColoring.Proofs.Region.Scanner

/-!
# Rules do not overlap

Wherever a cursor stands, one rule at most finds an opening there, so a document is divided into the
same regions whatever the order in which the rules are tried (`rules_exclusive`). A scanner asks its
rules in two ways only, for an opening and whether one of them is of a given kind, and neither
depends on their order; so none of its moves does (`step_perm`).
-/

set_option autoImplicit false

namespace TemplateColoring

open Region

variable {rules rules' : List RegionKind}

/-! ## One rule at most -/

theorem Dialect.nodup_rules (d : Dialect) : d.rules.Nodup := by
  rw [Dialect.rules]
  cases d.hostMarkup <;> decide

namespace Cursor

/-- Where one rule finds an opening, no other does. -/
theorem opener?_eq_none_of_ne {c : Cursor} {d : Dialect} {kind kind' : RegionKind} {o : Opener}
    (h : c.opener? d kind = some o) (hne : kind' ≠ kind) : c.opener? d kind' = none := by
  obtain ⟨o', ho', -⟩ := Option.map_eq_some_iff.mp h
  rw [opener?, openingOf?_eq_none_of_ne ho' hne, Option.map_none]

/-- **Of any two rules one finds nothing.** -/
theorem pairwise_opener? (c : Cursor) (d : Dialect) : d.rules.Pairwise fun kind kind' =>
    c.opener? d kind = none ∨ c.opener? d kind' = none := by
  refine d.nodup_rules.imp fun {kind kind'} hne => ?_
  cases h : c.opener? d kind with
  | none => exact .inl rfl
  | some o => exact .inr (opener?_eq_none_of_ne h hne.symm)

/-- **No rule is asked in vain**: what opens at a cursor is what some rule finds there, although the
rules are only asked in front of a few bytes. -/
theorem opening?_eq_some_iff (c : Cursor) (d : Dialect) (o : Opener) :
    (opening? d c.ahead).map (fun found => { found with start := c.position }) = some o ↔
      ∃ kind ∈ d.rules, c.opener? d kind = some o := by
  rw [Option.map_eq_some_iff]
  constructor
  · rintro ⟨found, hfound, rfl⟩
    obtain ⟨hmem, ho⟩ := openingBy?_eq_some_iff.mp hfound
    exact ⟨found.kind, hmem, Option.map_eq_some_iff.mpr ⟨found, ho, rfl⟩⟩
  · rintro ⟨kind, hmem, h⟩
    obtain ⟨found, ho, rfl⟩ := Option.map_eq_some_iff.mp h
    obtain rfl := openingOf?_kind ho
    exact ⟨found, openingBy?_eq_some_iff.mpr ⟨hmem, ho⟩, rfl⟩

end Cursor

/-! ## The order of the rules -/

theorem Region.openingBy?_perm (h : rules.Perm rules') (d : Dialect) (s : List UInt8) :
    openingBy? rules d s = openingBy? rules' d s := by
  ext o
  rw [openingBy?_eq_some_iff, openingBy?_eq_some_iff, h.mem_iff]

namespace Scanner

/-- **No move of a scanner depends on the order of its rules**, whatever state the scanner is in. -/
theorem step_perm (h : rules.Perm rules') (d : Dialect) (s : Scanner) :
    s.step rules d = s.step rules' d := by
  have hopening : s.opening? rules d = s.opening? rules' d := by
    rw [opening?, opening?, openingBy?_perm h]
  have hclose : ∀ o, s.close? rules d o = s.close? rules' d o := by
    intro o
    simp only [close?, h.mem_iff]
  simp only [step, hopening, hclose]

theorem collectFrom_perm (h : rules.Perm rules') (settled : Nat → Bool) (d : Dialect)
    (acc : List Region) (s : Scanner) :
    s.collectFrom settled rules d acc = s.collectFrom settled rules' d acc := by
  -- the two runs make the same moves, and every move makes progress
  induction hrank : s.rank using Nat.strongRecOn generalizing s acc with
  | _ n ih =>
      subst hrank
      cases hstep : s.step rules d with
      | done =>
          have hstep' := (step_perm h d s).symm.trans hstep
          rw [collectFrom_of_done hstep, collectFrom_of_done hstep']
      | goOn s' =>
          have hstep' := (step_perm h d s).symm.trans hstep
          have hlt := rank_lt_of_step (congrArg Outcome.scanner? hstep)
          rw [collectFrom_of_goOn hstep, collectFrom_of_goOn hstep', ih _ hlt acc s' rfl]
      | give r s' =>
          have hstep' := (step_perm h d s).symm.trans hstep
          have hlt := rank_lt_of_step (congrArg Outcome.scanner? hstep)
          rw [collectFrom_of_give hstep, collectFrom_of_give hstep', ih _ hlt (r :: acc) s' rfl]

end Scanner

/-- **Rules never overlap, and their order does not matter.** At every cursor of every document one
rule at most finds an opening, and what opens there is what that rule finds. From wherever a scanner
has got to, and as far as it is wanted to go, it gives out the same regions by the rules in any
order, and so does the scanner of a whole template. -/
theorem rules_exclusive (d : Dialect) :
    (∀ c : Cursor,
      (d.rules.Pairwise fun kind kind' => c.opener? d kind = none ∨ c.opener? d kind' = none) ∧
      ∀ o : Opener,
        (opening? d c.ahead).map (fun found => { found with start := c.position }) = some o ↔
          ∃ kind ∈ d.rules, c.opener? d kind = some o) ∧
    ∀ rules : List RegionKind, rules.Perm d.rules →
      (∀ (settled : Nat → Bool) (s : Scanner),
        s.collectUntil settled rules d = s.collectUntil settled d.rules d) ∧
      ∀ t : Template, t.scanner.collect rules d = t.regions d := by
  refine ⟨fun c => ⟨c.pairwise_opener? d, c.opening?_eq_some_iff d⟩, fun rules h => ?_⟩
  have hsame : ∀ (settled : Nat → Bool) (s : Scanner),
      s.collectUntil settled rules d = s.collectUntil settled d.rules d :=
    fun settled s => Scanner.collectFrom_perm h settled d [] s
  exact ⟨hsame, fun t => hsame _ t.scanner⟩

/-- A comment, a tag with an interpolation inside and a directive, by the rules in reverse order. -/
theorem rules_exclusive_reversed :
    (Template.ofString "<#--<b>--><b c='${d}'>[#if e]").scanner.collect
        ({} : Dialect).rules.reverse {} =
      [⟨.comment, 0, 10⟩, ⟨.markupTag, 10, 12⟩, ⟨.directiveStart, 22, 7⟩] := by
  have hreversed := ((rules_exclusive {}).2 _ (List.reverse_perm _)).2
    (Template.ofString "<#--<b>--><b c='${d}'>[#if e]")
  rw [hreversed, Template.regions_eq_scan]
  decide

end TemplateColoring

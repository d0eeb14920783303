import TemplateColoring.Proofs.Region.AtCursor
import TemplateColoring.Proofs.Token.Total

/-!
# The scan and the coloring see the same host tag

The rule of host tags looks for the bracket that closes a tag character by character. It passes
quoted values and interpolations as a whole, and a tag of the template language stops it anywhere.
The coloring reads the text of the region once more, by runs of blanks and names, values,
interpolations and closers of one byte or two, and knows nothing of tags. In the text of a region
both stand at the same places: no tag opens there at a place where the rule looks for one, as the
region would have ended in front of it (`Ends`). So a last token shows the closing bracket just if
the rule found it (`Template.color_markup`).
-/

set_option autoImplicit false

namespace TemplateColoring

open Ascii Bytes Region TemplateColoring.Span

namespace Token

variable {d : Dialect}

/-! ## The values of attributes -/

theorem quotedFrom_eq_drop (style : InterpolationStyle) (quote : UInt8)
    (acc : List (Run TokenKind)) (n k : Nat) (s : List UInt8) :
    quotedFrom style quote acc n k s = quotedFrom style quote acc n 0 (s.drop k) := by
  induction s generalizing k with
  | nil => cases k <;> rfl
  | cons b s ih =>
      cases k with
      | zero => rfl
      | succ k => exact ih k

theorem kind_of_mem_reverse_cons {acc : List (Run TokenKind)}
    (hacc : ∀ r ∈ acc, r.kind ≠ .markupTag) (n : Nat) :
    ∀ r ∈ (⟨.string, n⟩ :: acc).reverse, r.kind ≠ .markupTag := by
  intro r hr
  rcases List.mem_cons.mp (List.mem_reverse.mp hr) with rfl | hr
  · simp
  · exact hacc r hr

/-- A value is colored without the kind of a host tag's delimiters. -/
theorem kind_of_mem_quotedFrom {style : InterpolationStyle} {quote : UInt8}
    {acc : List (Run TokenKind)} (hacc : ∀ r ∈ acc, r.kind ≠ .markupTag) (n k : Nat)
    (s : List UInt8) : ∀ r ∈ quotedFrom style quote acc n k s, r.kind ≠ .markupTag := by
  induction s generalizing acc n k with
  | nil => cases k <;> exact kind_of_mem_reverse_cons hacc n
  | cons b s ih =>
      cases k with
      | succ k => exact ih hacc n k
      | zero =>
          rw [quotedFrom]
          split
          · exact kind_of_mem_reverse_cons hacc (n + 1)
          split
          · refine ih (fun r hr => ?_) 0 _
            rcases List.mem_cons.mp hr with rfl | hr
            · simp
            rcases List.mem_cons.mp hr with rfl | hr
            · simp
            · exact hacc r hr
          · exact ih hacc _ _

theorem quotedLength_eq_add {quote : UInt8} {s : List UInt8} {k : Nat} (hs : s ≠ [])
    (hk : quotedStep d quote s = some k) :
    quotedLength d quote s = k + quotedLength d quote (s.drop k) := by
  simp only [quotedLength, walk_eq_add (bounded_quotedStep d quote) hs hk, ← List.drop_drop]
  split
  · rw [Nat.add_assoc]
  · rfl

/-- A value that no tag cuts short is colored as far as the rule passes it. -/
theorem total_quotedFrom_eq {quote : UInt8} {s : List UInt8}
    (hstop : s.drop (walk (quotedStep d quote) s) = [] ∨
      (s.drop (walk (quotedStep d quote) s)).head? = some quote)
    (acc : List (Run TokenKind)) (n : Nat) :
    Run.total (quotedFrom d.interpolation quote acc n 0 s) =
      Run.total acc + n + quotedLength d quote s := by
  induction s using walk_induction (bounded_quotedStep d quote) generalizing acc n with
  | stop s hs =>
      have hwalk := walk_eq_zero hs
      rw [hwalk, List.drop_zero] at hstop
      simp only [quotedLength, hwalk, List.drop_zero]
      cases s with
      | nil => exact total_reverse_cons .string n acc
      | cons b s =>
          have hb : b = quote := by simpa using hstop
          rw [quotedFrom, if_pos (by simp [hb]), total_reverse_cons]
          simp [hb, Nat.add_assoc]
  | pass s k hs hk ih =>
      have hadd := quotedLength_eq_add hs hk
      rw [walk_eq_add (bounded_quotedStep d quote) hs hk, ← List.drop_drop] at hstop
      cases s with
      | nil => exact absurd rfl hs
      | cons b s =>
          have hpos := (bounded_quotedStep d quote _ _ hs hk).1
          obtain ⟨k, rfl⟩ : ∃ j, k = j + 1 := ⟨k - 1, by omega⟩
          simp only [quotedStep] at hk
          split at hk
          · exact absurd hk (by simp)
          next hgo =>
          have hb : ¬(b == quote) = true := fun h => hgo (by simp [h])
          replace hk := Option.some.inj hk
          rw [quotedFrom, if_neg hb]
          split
          · next length hlength =>
            rw [hlength, Option.getD_some] at hk
            subst hk
            have hrest := ih hstop (⟨.interpolation, k + 1⟩ :: ⟨.string, n⟩ :: acc) 0
            simp only [Run.total, totalOf_cons, List.drop_succ_cons] at hrest hadd ⊢
            rw [quotedFrom_eq_drop, Nat.add_sub_cancel, hrest, hadd]
            omega
          · next hnone =>
            rw [hnone, Option.getD_none] at hk
            dsimp only
            rw [hk, quotedFrom_eq_drop, Nat.add_sub_cancel]
            have hrest := ih hstop acc (n + (k + 1))
            rw [List.drop_succ_cons] at hrest hadd
            omega

/-! ## The steps of the rule -/

theorem of_isBracket : ∀ b : UInt8, isBracket b = true →
    b ≠ greater ∧ isQuote b = false ∧ mayOpen b = true := forall_byte (by decide +kernel)

/-- With a byte that cannot start an opening opens neither a tag nor an interpolation. -/
theorem not_opens_of_not_mayOpen {b : UInt8} (h : mayOpen b = false) (s : List UInt8) :
    d.tags.opensTag (b :: s) = false ∧ d.interpolation.opens (b :: s) = false := by
  constructor
  · refine Bool.eq_false_iff.mpr fun htag => ?_
    obtain ⟨-, -, hmay⟩ := of_isBracket b (TagStyle.isBracket_of_opensTag htag b rfl)
    exact Bool.false_ne_true (h.symm.trans hmay)
  · refine Bool.eq_false_iff.mpr fun hopens => ?_
    obtain ⟨a, c, z, hs, ha, -⟩ := Expression.exists_of_opens hopens
    obtain ⟨rfl, -⟩ := List.cons.inj hs
    rcases ha with rfl | rfl | rfl <;> exact absurd h (by decide)

/-- The rule passes a character that means nothing to it. -/
theorem markupStep_of_not_mayOpen {b : UInt8} (hgreater : b ≠ greater) (hquote : isQuote b = false)
    (hmay : mayOpen b = false) (s : List UInt8) :
    markupStep d (b :: s) = some (charLength (b :: s)) := by
  obtain ⟨htag, hopens⟩ := not_opens_of_not_mayOpen (d := d) hmay s
  have hnone := Expression.interpolationLength?_eq_none_iff.mpr hopens
  simp [markupStep, hgreater, hquote, htag, hnone]

/-- Blanks and the bytes of names mean nothing to the rule. -/
theorem of_isBlank_or_name : ∀ b : UInt8, isBlank b = true ∨ isMarkupNameContinue b = true →
    b ≠ greater ∧ isQuote b = false ∧ mayOpen b = false := forall_byte (by decide +kernel)

theorem markupStep_of_isQuote {b : UInt8} (hquote : isQuote b = true) (s : List UInt8) :
    markupStep d (b :: s) = some (1 + quotedLength d b s) := by
  have hgreater : b ≠ greater := by
    rintro rfl
    exact absurd hquote (by decide)
  simp [markupStep, hgreater, hquote]

/-! ## The inside of a host tag -/

/-- What may close a host tag. -/
def markupClosers : List (List UInt8) := [[greater], [slash, greater], [question, greater]]

/-- The inside of a host tag goes on to the end of the text, or to a bracket that is its last
byte. -/
def Ends (d : Dialect) (s : List UInt8) : Prop :=
  s.drop (walk (markupStep d) s) = [] ∨ s.drop (walk (markupStep d) s) = [greater]

theorem Ends.drop {s : List UInt8} {k : Nat} (h : Ends d s)
    (hk : walk (markupStep d) s = k + walk (markupStep d) (s.drop k)) : Ends d (s.drop k) := by
  rw [Ends, hk, ← List.drop_drop] at h
  exact h

/-- Nothing but the bracket stops the rule in such a text. -/
theorem Ends.of_none {b : UInt8} {s : List UInt8} (h : Ends d (b :: s))
    (hnone : markupStep d (b :: s) = none) :
    walk (markupStep d) (b :: s) = 0 ∧ b = greater ∧ s = [] := by
  have hwalk : walk (markupStep d) (b :: s) = 0 := walk_eq_zero (.inr hnone)
  rw [Ends, hwalk, List.drop_zero] at h
  refine ⟨hwalk, ?_⟩
  simpa using h

/-- The first bracket outside of values and interpolations is the last byte. -/
theorem Ends.of_bracket {s : List UInt8} (h : Ends d (greater :: s)) :
    walk (markupStep d) (greater :: s) = 0 ∧ s = [] := by
  obtain ⟨hwalk, -, hs⟩ := h.of_none (markupStep_eq_none_iff.mpr (.inl rfl))
  exact ⟨hwalk, hs⟩

/-- So is the first bracket behind a slash or a question mark. -/
theorem Ends.of_sigil {b : UInt8} {s : List UInt8} (hb : b = slash ∨ b = question)
    (h : Ends d (b :: greater :: s)) :
    walk (markupStep d) (b :: greater :: s) = 1 ∧ s = [] := by
  have hstep : markupStep d (b :: greater :: s) = some 1 := by
    rcases hb with rfl | rfl <;> exact markupStep_of_not_mayOpen (by decide) rfl rfl _
  have hadd := walk_eq_add (bounded_markupStep d) (by simp) hstep
  obtain ⟨hwalk, hs⟩ := (h.drop hadd).of_bracket
  rw [List.drop_succ_cons, List.drop_zero] at hadd
  exact ⟨by rw [hadd, hwalk], hs⟩

/-- A value in such a text ends with its quote or with the text. -/
theorem Ends.value {b : UInt8} {s : List UInt8} (hquote : isQuote b = true)
    (h : Ends d (b :: s)) : s.drop (walk (quotedStep d b) s) = [] ∨
      (s.drop (walk (quotedStep d b) s)).head? = some b := by
  have hrest := h.drop
    (walk_eq_add (bounded_markupStep d) (by simp) (markupStep_of_isQuote hquote s))
  rw [Nat.add_comm, List.drop_succ_cons] at hrest
  have hend := step_drop_walk (bounded_quotedStep d b) s
  cases hbehind : s.drop (walk (quotedStep d b) s) with
  | nil => exact .inl rfl
  | cons c rest =>
      rw [hbehind] at hend
      refine .inr (Decidable.byContradiction fun hc => ?_)
      -- otherwise a tag stops the value, and behind the value the inside of the host tag
      have hb : c ≠ b := by simpa using hc
      have htag := (quotedStep_eq_none_iff.mp (hend.resolve_left (by simp))).resolve_left hb
      obtain ⟨hne, hno, -⟩ := of_isBracket c (TagStyle.isBracket_of_opensTag htag c rfl)
      have hstop : quotedLength d b s = walk (quotedStep d b) s := by
        rw [quotedLength, hbehind]
        exact if_neg (by simpa using hb)
      have hnone : markupStep d (c :: rest) = none :=
        markupStep_eq_none_iff.mpr (.inr ⟨hno, htag⟩)
      rw [hstop, hbehind] at hrest
      exact hne (hrest.of_none hnone).2.1

/-- Outside of values the rule passes an interpolation or a character, up to the bracket. -/
theorem Ends.markupStep_eq {b : UInt8} {s : List UInt8} (h : Ends d (b :: s)) (hb : b ≠ greater)
    (hquote : isQuote b = false) : markupStep d (b :: s) =
      some ((Expression.interpolationLength? d.interpolation (b :: s)).getD
        (charLength (b :: s))) := by
  have hgo : d.tags.opensTag (b :: s) = false := by
    refine Bool.eq_false_iff.mpr fun htag => ?_
    have hnone : markupStep d (b :: s) = none := markupStep_eq_none_iff.mpr (.inr ⟨hquote, htag⟩)
    exact hb (h.of_none hnone).2.1
  simp [markupStep, hb, hquote, hgo]

/-- Runs at the front of a host tag's inside that the rule passes too, without looking at any
delimiter of the tag. -/
structure Passed (d : Dialect) (s : List UInt8) (runs : List (Run TokenKind)) : Prop where
  kind : ∀ r ∈ runs, r.kind ≠ .markupTag
  characters : Characters (s.drop (Run.total runs))
  walk : walk (markupStep d) s =
    Run.total runs + walk (markupStep d) (s.drop (Run.total runs))

namespace Passed

variable {b : UInt8} {s : List UInt8} {runs : List (Run TokenKind)}

theorem of_step (hkind : ∀ r ∈ runs, r.kind ≠ .markupTag) (h : Characters (b :: s))
    (hstep : markupStep d (b :: s) = some (Run.total runs)) : Passed d (b :: s) runs :=
  ⟨hkind, characters_drop_markupStep h hstep, walk_eq_add (bounded_markupStep d) (by simp) hstep⟩

/-- The rule passes a run of a class one by one. -/
theorem of_run {p : UInt8 → Bool} {kind : TokenKind} (hkind : kind ≠ .markupTag) (hp : Uniform p)
    (hclass : ∀ b, p b = true → isBlank b = true ∨ isMarkupNameContinue b = true)
    (h : Characters s) : Passed d s [⟨kind, runLength p s⟩] := by
  refine ⟨by simpa using hkind, ?_, ?_⟩
  · rw [total_singleton]
    exact h.drop_runLength hp
  · rw [total_singleton]
    refine h.walk_runLength (bounded_markupStep d) hp fun b s hb => ?_
    obtain ⟨hgreater, hquote, hmay⟩ := of_isBlank_or_name b (hclass b hb)
    exact markupStep_of_not_mayOpen hgreater hquote hmay s

theorem of_value (hquote : isQuote b = true) (h : Characters (b :: s)) (hends : Ends d (b :: s)) :
    Passed d (b :: s) (quotedRuns d.interpolation b s) := by
  have htotal : Run.total (quotedRuns d.interpolation b s) = 1 + quotedLength d b s := by
    rw [quotedRuns, total_quotedFrom_eq (hends.value hquote)]
    simp [Run.total]
  refine of_step (kind_of_mem_quotedFrom (by simp) 1 0 s) h ?_
  rw [htotal]
  exact markupStep_of_isQuote hquote s

end Passed

/-- At the front of the inside the coloring reads what closes the tag and ends the text, or runs
that the rule passes too. -/
theorem markupRunsAt_cases {b : UInt8} {s : List UInt8} (h : Characters (b :: s))
    (hends : Ends d (b :: s)) :
    (b :: s ∈ markupClosers ∧
        markupRunsAt d.interpolation b s = [⟨.markupTag, (b :: s).length⟩] ∧
        (b :: s).drop (walk (markupStep d) (b :: s)) = [greater]) ∨
      Passed d (b :: s) (markupRunsAt d.interpolation b s) := by
  unfold markupRunsAt
  split
  · exact .inr (.of_run (by decide) uniform_isBlank (fun _ hc => .inl hc) h)
  split
  · next hquote => exact .inr (.of_value hquote h hends)
  next hquote =>
  have hquote : isQuote b = false := by simpa using hquote
  split
  · next hb =>
    -- the bracket
    obtain rfl : b = greater := by simpa using hb
    obtain ⟨hwalk, rfl⟩ := hends.of_bracket
    exact .inl ⟨by decide, rfl, by rw [hwalk, List.drop_zero]⟩
  next hgreater =>
  have hstep := hends.markupStep_eq (by simpa using hgreater) hquote
  split
  · next hb =>
    -- a slash or a question mark and the bracket
    obtain ⟨hsigil, hs⟩ : (b = slash ∨ b = question) ∧ s.head? = some greater := by
      simpa using hb
    obtain ⟨rest, rfl⟩ := List.head?_eq_some_iff.mp hs
    obtain ⟨hwalk, rfl⟩ := hends.of_sigil hsigil
    refine .inl ⟨?_, rfl, by rw [hwalk, List.drop_succ_cons, List.drop_zero]⟩
    rcases hsigil with rfl | rfl
    · decide
    · decide
  split
  · next length hlength =>
    refine .inr (.of_step (by simp) h ?_)
    rw [hstep, hlength, Option.getD_some, total_singleton]
  next hnone =>
  split
  · refine .inr (.of_run (by decide) uniform_isMarkupNameContinue (fun _ hc => .inr hc) h)
  · refine .inr (.of_step (by simp) h ?_)
    rw [hstep, hnone, Option.getD_none, total_singleton]

/-- The coloring goes on behind the runs at the front of a host tag's inside. -/
theorem flatten_cutMarkup_cons (style : InterpolationStyle) (b : UInt8) (s : List UInt8) :
    (cut (cutMarkup style) () (b :: s)).flatten = markupRunsAt style b s ++
      (cut (cutMarkup style) () ((b :: s).drop (Run.total (markupRunsAt style b s)))).flatten := by
  obtain ⟨k, hk⟩ : ∃ k, Run.total (markupRunsAt style b s) = k + 1 :=
    Nat.exists_eq_add_one_of_ne_zero (Nat.ne_of_gt (total_markupRunsAt style b s).1)
  rw [hk, List.drop_succ_cons]
  simp only [cut_cons, cutMarkup, hk, Nat.add_sub_cancel, List.flatten_cons]

theorem total_flatten_cutMarkup (style : InterpolationStyle) (s : List UInt8) :
    Run.total (cut (cutMarkup style) () s).flatten = s.length :=
  (total_flatten _).trans (total_cutMarkup style s)

/-- **The coloring of a host tag's inside comes to the bracket that the rule finds.** Its runs are
of other kinds, but for a last one if the text ends with that bracket. -/
theorem exists_flatten_cutMarkup {s : List UInt8} (h : Characters s) (hends : Ends d s) :
    ∃ (inner : List (Run TokenKind)) (closer? : Option (List UInt8)),
      (cut (cutMarkup d.interpolation) () s).flatten =
        inner ++ (closer?.map fun c => ⟨.markupTag, c.length⟩).toList ∧
      (∀ r ∈ inner, r.kind ≠ .markupTag) ∧
      (∀ c ∈ closer?, c ∈ markupClosers ∧ c <:+ s) ∧
      (closer?.isSome ↔ s.drop (walk (markupStep d) s) = [greater]) := by
  induction hlen : s.length using Nat.strongRecOn generalizing s with
  | _ n ih =>
      subst hlen
      cases s with
      | nil => exact ⟨[], none, rfl, by simp, by simp, by simp⟩
      | cons b s =>
          rw [flatten_cutMarkup_cons]
          rcases markupRunsAt_cases h hends with ⟨hcloser, hruns, hdrop⟩ | hpassed
          · refine ⟨[], some (b :: s), ?_, by simp, ?_, by simpa using hdrop⟩
            · rw [hruns, total_singleton, List.drop_length, cut_nil]
              rfl
            · rintro c ⟨⟩
              exact ⟨hcloser, List.suffix_refl _⟩
          · have hpos := (total_markupRunsAt d.interpolation b s).1
            have hshort : ((b :: s).drop (Run.total (markupRunsAt d.interpolation b s))).length <
                (b :: s).length := by
              rw [List.length_drop, List.length_cons]
              omega
            obtain ⟨inner, closer?, hruns, hkind, hcloser, hsome⟩ :=
              ih _ hshort hpassed.characters (hends.drop hpassed.walk) rfl
            refine ⟨markupRunsAt d.interpolation b s ++ inner, closer?, ?_, ?_, ?_, ?_⟩
            · rw [hruns, List.append_assoc]
            · intro r hr
              exact (List.mem_append.mp hr).elim (hpassed.kind r) (hkind r)
            · intro c hc
              exact ⟨(hcloser c hc).1, (hcloser c hc).2.trans (List.drop_suffix _ _)⟩
            · rw [hsome, List.drop_drop, ← hpassed.walk]

/-! ## The opener -/

/-- The coloring reads the same opener as the rule of host tags. -/
theorem markupOpenerLength_eq {s : List UInt8} {o : Opening}
    (h : openingOf? d .markupTag s = some o) : markupOpenerLength s = o.length := by
  obtain ⟨n, hn, rfl⟩ := markupTagOpening?_eq_some_iff.mp h
  obtain ⟨b, rest, rfl, hcase⟩ := markupNameAt?_eq_some_iff.mp hn
  have hname : ∀ c, isMarkupNameStart c = true → c ≠ slash ∧ c ≠ question ∧ c ≠ exclamation :=
    forall_byte (by decide +kernel)
  rcases hcase with ⟨rfl, hb⟩ | ⟨rfl, hb, -⟩ | ⟨rfl, rfl, -⟩
  · obtain ⟨h₁, h₂, h₃⟩ := hname b hb
    simp [markupOpenerLength, h₁, h₂, h₃]
  · rcases hb with rfl | rfl
    · simp [markupOpenerLength]
    · simp [markupOpenerLength]
  · simp [markupOpenerLength]

/-- The runs of a host tag's text, which starts with the opener `w` that the rule finds. -/
theorem markupRuns_eq {w y : List UInt8} {o : Opening}
    (h : openingOf? d .markupTag (w ++ y) = some o) (hw : o.length = w.length) :
    markupRuns d.interpolation (w ++ y) =
      ⟨.markupTag, w.length⟩ :: (cut (cutMarkup d.interpolation) () y).flatten := by
  have hpos := openingOf?_length_pos h
  rw [hw] at hpos
  simp only [markupRuns, markupOpenerLength_eq h, hw, List.drop_left]
  exact if_neg (Nat.ne_of_gt hpos)

theorem length_pos_of_mem_markupClosers : ∀ c ∈ markupClosers, 0 < c.length := by decide

/-- The tokens of a host tag's text, from its opener `w` on. -/
theorem exists_tokens_of_markup {w y : List UInt8} {o : Opening}
    (hopening : openingOf? d .markupTag (w ++ y) = some o) (hw : o.length = w.length)
    (h : Characters y) (hends : Ends d y) (start : Nat) :
    ∃ (inner : List Token) (closer? : Option Token),
      ofRuns start (markupRuns d.interpolation (w ++ y)) =
        ⟨.markupTag, start, w.length⟩ :: (inner ++ closer?.toList) ∧
      (∀ p ∈ inner, p.kind ≠ .markupTag) ∧
      (∀ c ∈ closer?, c.kind = .markupTag ∧ ∃ u v, w ++ y = u ++ v ∧ v ∈ markupClosers ∧
        c.start = start + u.length ∧ c.length = v.length) ∧
      (closer?.isSome ↔ y.drop (walk (markupStep d) y) = [greater]) := by
  obtain ⟨inner, closer?, hruns, hinner, hcloser, hclosed⟩ := exists_flatten_cutMarkup h hends
  have htotal := total_flatten_cutMarkup d.interpolation y
  have hpos := openingOf?_length_pos hopening
  have hrun : ∀ c ∈ closer?.map fun c => (⟨.markupTag, c.length⟩ : Run TokenKind),
      c.kind = .markupTag ∧ 0 < c.length := by
    intro c hc
    obtain ⟨v, hv, rfl⟩ := Option.map_eq_some_iff.mp hc
    exact ⟨rfl, length_pos_of_mem_markupClosers v (hcloser v hv).1⟩
  rw [markupRuns_eq hopening hw, hruns, ofRuns_delimited rfl (hw ▸ hpos) hrun]
  refine ⟨_, _, rfl, ?_, ?_, ?_⟩
  · intro p hp
    obtain ⟨r, hr, hrp⟩ := exists_of_mem_ofRuns hp
    exact hrp ▸ hinner r hr
  · intro c hc
    obtain ⟨run, hrun, rfl⟩ := Option.map_eq_some_iff.mp hc
    obtain ⟨v, hv, rfl⟩ := Option.map_eq_some_iff.mp hrun
    obtain ⟨hmem, u, rfl⟩ := hcloser v hv
    obtain rfl : closer? = some v := hv
    -- the closer ends the text, so it starts behind the runs before it
    have hu : Run.total inner = u.length := by
      simpa [hruns, Run.total, totalOf_append] using htotal
    refine ⟨rfl, w ++ u, v, (List.append_assoc w u v).symm, hmem, ?_, rfl⟩
    rw [hu, List.length_append, Nat.add_assoc]
  · rw [Option.isSome_map, Option.isSome_map, hclosed]

end Token

namespace Region

variable {d : Dialect} {s : List UInt8}

/-! ## How the rule ends -/

/-- What the inside of a host tag ends with. -/
inductive MarkupEnd
  /-- The rule takes the closing bracket. -/
  | bracket
  /-- The rule stops in front of a tag of the template language. -/
  | tag
  /-- The text ends. -/
  | document
deriving DecidableEq

/-- What the inside of a host tag ends with if it starts at the front of a text. -/
def markupEnd (d : Dialect) (s : List UInt8) : MarkupEnd :=
  match s.drop (walk (markupStep d) s) with
  | [] => .document
  | b :: _ => if b == greater then .bracket else .tag

theorem markupEnd_eq_bracket_iff :
    markupEnd d s = .bracket ↔ (s.drop (walk (markupStep d) s)).head? = some greater := by
  unfold markupEnd
  split
  · next hnil => simp [hnil]
  · next b rest hcons => by_cases hb : b = greater <;> simp [hcons, hb]

/-- The extent of a host tag tells the end of the text from the other two ends, and it includes the
bracket. -/
theorem markupExtent_eq_markupEnd (d : Dialect) (s : List UInt8) : markupExtent d s =
    ⟨walk (markupStep d) s + (if markupEnd d s = .bracket then 1 else 0),
      decide (markupEnd d s ≠ .document)⟩ := by
  obtain ⟨rest, hrest⟩ : ∃ rest, s.drop (walk (markupStep d) s) = rest := ⟨_, rfl⟩
  cases rest with
  | nil => simp [markupExtent, markupEnd, hrest]
  | cons b rest => by_cases hb : b = greater <;> simp [markupExtent, markupEnd, hrest, hb]

variable {y z : List UInt8}

/-- The inside of a host tag ends with its bracket, in front of a tag or with the text. The inside
alone, cut out of the text, ends with the bracket in the first case and without it in the others. -/
theorem markupEnd_cases (h : (markupExtent d (y ++ z)).length = y.length) :
    (markupEnd d (y ++ z) = .bracket ∧ y.drop (walk (markupStep d) y) = [greater]) ∨
      (markupEnd d (y ++ z) = .tag ∧ y.drop (walk (markupStep d) y) = [] ∧
        d.tags.opensTag z = true) ∨
      (markupEnd d (y ++ z) = .document ∧ y.drop (walk (markupStep d) y) = [] ∧ z = []) := by
  rcases markupExtent_cut h with ⟨u, rfl, hcut, hwalk⟩ | ⟨hcut, hwalk, hhead, hend⟩
  · refine .inl ⟨?_, by rw [hcut, List.drop_left]⟩
    rw [markupEnd_eq_bracket_iff, List.append_assoc, List.singleton_append, hwalk, List.drop_left,
      List.head?_cons]
  · have hinside : y.drop (walk (markupStep d) y) = [] := by rw [hcut, List.drop_length]
    right
    cases z with
    | nil =>
        refine .inr ⟨?_, hinside, rfl⟩
        rw [markupEnd, hwalk, List.drop_left]
    | cons b rest =>
        have hb : b ≠ greater := by simpa using hhead
        refine .inl ⟨?_, hinside, hend.resolve_left (by simp)⟩
        rw [markupEnd, hwalk, List.drop_left]
        exact if_neg (by simpa using hb)

end Region

/-! ## The region seen twice -/

/-- The tokens of a host tag show what its rule found: the first is the opener, the tokens between
are of other kinds, and a last one covers what closes the tag if the rule took the bracket. -/
structure MarkupDelimited (t : Template) (d : Dialect) (r : Region) (o : Opener)
    (inner : List Token) (closer? : Option Token) : Prop where
  opener : (Cursor.ofOffset t.bytes r.start).opener? d r.kind = some o
  tokens : t.color d r = ⟨.markupTag, o.start, o.length⟩ :: (inner ++ closer?.toList)
  inner_kind : ∀ p ∈ inner, p.kind ≠ .markupTag
  closer : ∀ c ∈ closer?, c.kind = .markupTag ∧ c.stop = r.stop ∧
    (t.bytes.extract c.start c.stop).toList ∈ Token.markupClosers
  closing : ((Cursor.ofOffset t.bytes (o.start + o.length)).close d r.kind o).1 =
    ⟨r.stop, decide (markupEnd d (t.bytes.toList.drop (o.start + o.length)) ≠ .document)⟩
  closed : closer?.isSome ↔ markupEnd d (t.bytes.toList.drop (o.start + o.length)) = .bracket
  tag : markupEnd d (t.bytes.toList.drop (o.start + o.length)) = .tag →
    d.tags.opensTag (t.bytes.toList.drop r.stop) = true
  document : markupEnd d (t.bytes.toList.drop (o.start + o.length)) = .document →
    r.stop = t.length

namespace Template

/-- **The scan and the coloring see the same host tag.** The tokens start with the opener that the
rule found, and a last token covers what closes the tag just if the rule took its bracket. -/
theorem color_markup (d : Dialect) (s : String) {r : Region} (hr : r ∈ (ofString s).regions d)
    (hkind : r.kind = .markupTag) :
    ∃ o inner closer?, MarkupDelimited (ofString s) d r o inner closer? := by
  obtain ⟨x, w, y, z, o, hbytes, hstart, hlength, hruled⟩ :=
    exists_ruled_of_mem hr (by simp [hkind])
  have hcolor := color_of_parts hr hbytes hstart hlength
  have hchars := characters_of_parts hr hbytes hstart hlength
  rw [hkind] at hruled hcolor
  -- the opener and the bracket stand in the text of the region as they do in the document
  have hopening : openingOf? d .markupTag (w ++ y) = some o := by
    have hcut := hruled.cut.opening
    rwa [List.append_nil] at hcut
  have hinside : Characters y := by
    have hdrop := characters_drop_openingOf? hopening hchars
    rwa [hruled.length, List.drop_left] at hdrop
  have hend := markupEnd_cases hruled.closing
  have hends : Token.Ends d y := by
    rcases hend with ⟨-, hy⟩ | ⟨-, hy, -⟩ | ⟨-, hy, -⟩
    · exact .inr hy
    · exact .inl hy
    · exact .inl hy
  obtain ⟨inner, closer?, htokens, hinner, hcloser, hclosed⟩ :=
    Token.exists_tokens_of_markup hopening hruled.length hinside hends r.start
  have hahead : (ofString s).bytes.toList.drop r.start = w ++ (y ++ z) := by
    rw [hbytes, hstart, List.drop_left, List.append_assoc]
  have hbehind : (ofString s).bytes.toList.drop (r.start + o.length) = y ++ z := by
    rw [← List.drop_drop, hahead, hruled.length, List.drop_left]
  have hw := hruled.length
  have hsize := size_eq_add hbytes
  simp only [List.length_append] at hlength hsize
  have hstop : r.start + o.length + y.length = r.stop := by
    rw [Span.stop]
    omega
  have hrest : (ofString s).bytes.toList.drop r.stop = z := by
    rw [← hstop, ← List.drop_drop, hbehind, List.drop_left]
  have hfar : (markupExtent d (y ++ z)).length = y.length := hruled.closing
  refine ⟨⟨o, r.start⟩, inner, closer?, ?_, ?_, hinner, ?_, ?_, ?_, ?_, ?_⟩
  · rw [Cursor.opener?_eq_some_iff (by omega), hahead, hkind]
    exact ⟨rfl, hruled.opening⟩
  · rw [hcolor, hw]
    exact htokens
  · intro c hc
    obtain ⟨hckind, u, v, huv, hv, hcstart, hclength⟩ := hcloser c hc
    have hsum := congrArg List.length huv
    rw [List.length_append, List.length_append] at hsum
    have hparts : (ofString s).bytes.toList = (x ++ u) ++ (v ++ z) := by
      rw [hbytes, huv, List.append_assoc, List.append_assoc]
    have hspan : c.start = (x ++ u).length ∧ c.stop = (x ++ u).length + v.length := by
      rw [Span.stop, List.length_append]
      omega
    refine ⟨hckind, by rw [Span.stop, Span.stop]; omega, ?_⟩
    rwa [hspan.1, hspan.2, toList_extract_of_parts hparts]
  · have hfit : r.start + o.length ≤ (ofString s).bytes.size := by omega
    have hended := congrArg Extent.closed (markupExtent_eq_markupEnd d (y ++ z))
    rw [Cursor.close_ofOffset d r.kind _ hfit, hbehind, hkind, ← hstop]
    show (⟨r.start + o.length + (markupExtent d (y ++ z)).length,
      (markupExtent d (y ++ z)).closed⟩ : Closing) = _
    rw [hfar, hended]
  · rw [hclosed, hbehind]
    rcases hend with ⟨h, hy⟩ | ⟨h, hy, -⟩ | ⟨h, hy, -⟩ <;> simp [h, hy]
  · rw [hbehind, hrest]
    intro htag
    rcases hend with ⟨h, -⟩ | ⟨-, -, hopens⟩ | ⟨h, -⟩
    · exact absurd (h.symm.trans htag) (by simp)
    · exact hopens
    · exact absurd (h.symm.trans htag) (by simp)
  · rw [hbehind]
    intro hdocument
    rcases hend with ⟨h, -⟩ | ⟨h, -⟩ | ⟨-, -, rfl⟩
    · exact absurd (h.symm.trans hdocument) (by simp)
    · exact absurd (h.symm.trans hdocument) (by simp)
    · rw [List.length_nil] at hsize
      show r.stop = (ofString s).bytes.size
      omega

/-- The bracket inside a value closes the tag for neither. -/
theorem color_markup_value :
    ∃ o inner closer?, MarkupDelimited (ofString "<a b='>'/>c") {} ⟨.markupTag, 0, 10⟩ o inner
      closer? ∧ closer?.isSome = true := by
  have hmem : (⟨.markupTag, 0, 10⟩ : Region) ∈ (ofString "<a b='>'/>c").regions {} := by
    rw [regions_eq_scan]
    decide
  obtain ⟨o, inner, closer?, hdelimited⟩ := color_markup {} "<a b='>'/>c" hmem rfl
  have ho : o = ⟨⟨.markupTag, .angle, 2⟩, 0⟩ :=
    Option.some.inj (hdelimited.opener.symm.trans (by decide))
  refine ⟨o, inner, closer?, hdelimited, hdelimited.closed.mpr ?_⟩
  rw [ho]
  decide

end Template

end TemplateColoring

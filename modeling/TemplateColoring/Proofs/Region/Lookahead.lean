import TemplateColoring.Proofs.Expression.Lookahead
import TemplateColoring.Proofs.Region.Opening
import TemplateColoring.Region.Scan

/-!
# How far ahead the rules of the regions look

Whether a region opens at the front of a text, and how far it reaches, is the same before rests that
look alike (`firstBy_append`). Two rests always look alike to a region: none at all, since a region
that is cut out of its text stays what it is (`closingOf_cut`), and to a region that is closed
everything (`closingOf_append_of_closed`).
-/

set_option autoImplicit false

namespace TemplateColoring

open Ascii Bytes

theorem TagStyle.isTest_opensTag (style : TagStyle) : IsTest style.opensTag :=
  .any fun b _ => Expression.isTest_opensTag b

theorem TagStyle.isBracket_of_opensTag {style : TagStyle} {s : List UInt8}
    (h : style.opensTag s = true) : ∀ b ∈ s.head?, isBracket b = true := by
  obtain ⟨br, -, hbr⟩ := List.any_eq_true.mp h
  rw [Expression.head?_of_opensTag hbr]
  rintro b ⟨⟩
  cases br <;> decide

namespace Region

/-! ## Host markup tags -/

/-- What is passed at once inside a host tag: an interpolation or a character. -/
theorem unit_bounds {style : InterpolationStyle} {s : List UInt8} (hs : s ≠ []) :
    0 < (Expression.interpolationLength? style s).getD (charLength s) ∧
      (Expression.interpolationLength? style s).getD (charLength s) ≤ s.length := by
  cases h : Expression.interpolationLength? style s with
  | none => exact charLength_bounds hs
  | some k =>
      have := Expression.interpolationLength?_bounds h
      rw [Option.getD_some]
      omega

theorem unit_append {style : InterpolationStyle} {i r r' : List UInt8}
    (h : (Expression.interpolationLength? style (i ++ r)).getD (charLength (i ++ r)) = i.length)
    (hr : Alike r r') :
    (Expression.interpolationLength? style (i ++ r')).getD (charLength (i ++ r')) = i.length := by
  cases hi : Expression.interpolationLength? style (i ++ r) with
  | none =>
      have hnone : Expression.interpolationLength? style (i ++ r') = none := by
        rw [Expression.interpolationLength?_eq_none_iff] at hi ⊢
        exact (hr.append i).test_eq_false (Expression.isTest_opens style) hi
      rw [hi, Option.getD_none] at h
      rw [hnone, Option.getD_none]
      exact charLength_append h hr.head
  | some k =>
      rw [hi, Option.getD_some] at h
      subst h
      rw [Expression.interpolationLength?_append hi hr, Option.getD_some]

/-- Where the text ends or a tag opens, it is the same before a rest that looks alike. -/
theorem stop_append {d : Dialect} {r r' : List UInt8} (h : r = [] ∨ d.tags.opensTag r = true)
    (hr : Alike r r') : r' = [] ∨ d.tags.opensTag r' = true ∧ r'.head? = r.head? := by
  rcases h with rfl | htag
  · exact .inl (hr.eq_nil rfl)
  · by_cases hnil : r' = []
    · exact .inl hnil
    · exact .inr ⟨(hr.test d.tags.isTest_opensTag htag).resolve_left hnil,
        hr.head.head?_eq Nat.one_pos hnil⟩

theorem bounded_quotedStep (d : Dialect) (quote : UInt8) : Bounded (quotedStep d quote) := by
  intro s k hs hk
  cases s with
  | nil => exact absurd rfl hs
  | cons b s =>
      simp only [quotedStep] at hk
      split at hk
      · exact absurd hk (by simp)
      · obtain rfl := Option.some.inj hk
        exact unit_bounds hs

theorem quotedStep_append {d : Dialect} {quote : UInt8} {i r r' : List UInt8} (hi : i ≠ [])
    (h : quotedStep d quote (i ++ r) = some i.length) (hr : Alike r r') :
    quotedStep d quote (i ++ r') = some i.length := by
  cases i with
  | nil => exact absurd rfl hi
  | cons b i =>
      simp only [List.cons_append, quotedStep, Bool.or_eq_true] at h ⊢
      split at h
      · exact absurd h (by simp)
      · next hgo =>
        rw [not_or, Bool.not_eq_true, Bool.not_eq_true] at hgo
        have htag := (hr.append (b :: i)).test_eq_false d.tags.isTest_opensTag hgo.2
        rw [List.cons_append] at htag
        rw [if_neg (by simp [hgo.1, htag])]
        exact congrArg some (unit_append (i := b :: i) (Option.some.inj h) hr)

/-- A value goes on unless its quote or a tag stands ahead. -/
theorem quotedStep_eq_none_iff {d : Dialect} {quote b : UInt8} {s : List UInt8} :
    quotedStep d quote (b :: s) = none ↔ b = quote ∨ d.tags.opensTag (b :: s) = true := by
  simp only [quotedStep]
  split
  · next h => simpa using h
  · next h => simpa using h

/-- The inside of a value and its closing quote. -/
theorem quotedLength_eq (d : Dialect) (quote : UInt8) (s : List UInt8) :
    quotedLength d quote s = (walkThrough (quotedStep d quote) quote s).length := by
  simp only [quotedLength, walkThrough, beq_iff_eq]
  split <;> rfl

theorem quotedLength_le (d : Dialect) (quote : UInt8) (s : List UInt8) :
    quotedLength d quote s ≤ s.length := by
  rw [quotedLength_eq]
  exact walkThrough_le _ _ s

theorem quotedLength_append {d : Dialect} {quote : UInt8} {x r r' : List UInt8}
    (h : quotedLength d quote (x ++ r) = x.length) (hr : Alike r r') :
    quotedLength d quote (x ++ r') = x.length := by
  rw [quotedLength_eq] at h ⊢
  refine walkThrough_append (bounded_quotedStep d quote)
    (fun s => quotedStep_eq_none_iff.mpr (.inl rfl)) h
    (fun i y hi hstep => quotedStep_append hi hstep (hr.append y)) fun hhead hend => ?_
  have htag : r = [] ∨ d.tags.opensTag r = true := by
    cases r with
    | nil => exact .inl rfl
    | cons b s =>
        have hb : b ≠ quote := by simpa using hhead
        exact .inr ((quotedStep_eq_none_iff.mp (hend.resolve_left (by simp))).resolve_left hb)
  rcases stop_append htag hr with rfl | ⟨htag', hhead'⟩
  · exact ⟨.inl rfl, by simp⟩
  · refine ⟨?_, hhead' ▸ hhead⟩
    cases r' with
    | nil => exact .inl rfl
    | cons b s => exact .inr (quotedStep_eq_none_iff.mpr (.inr htag'))

theorem bounded_markupStep (d : Dialect) : Bounded (markupStep d) := by
  intro s k hs hk
  cases s with
  | nil => exact absurd rfl hs
  | cons b s =>
      simp only [markupStep] at hk
      split at hk
      · exact absurd hk (by simp)
      split at hk
      · obtain rfl := Option.some.inj hk
        have := quotedLength_le d b s
        rw [List.length_cons]
        omega
      split at hk
      · exact absurd hk (by simp)
      · obtain rfl := Option.some.inj hk
        exact unit_bounds hs

theorem markupStep_append {d : Dialect} {i r r' : List UInt8} (hi : i ≠ [])
    (h : markupStep d (i ++ r) = some i.length) (hr : Alike r r') :
    markupStep d (i ++ r') = some i.length := by
  cases i with
  | nil => exact absurd rfl hi
  | cons b i =>
      simp only [List.cons_append, markupStep] at h ⊢
      split at h
      · exact absurd h (by simp)
      next hgreater =>
      rw [if_neg hgreater]
      split at h
      · next hquote =>
        have hlen : quotedLength d b (i ++ r) = i.length := by
          have := Option.some.inj h
          rw [List.length_cons] at this
          omega
        rw [if_pos hquote, quotedLength_append hlen hr, List.length_cons, Nat.add_comm]
      next hquote =>
      rw [if_neg hquote]
      split at h
      · exact absurd h (by simp)
      next htag =>
      have htag' := (hr.append (b :: i)).test_eq_false d.tags.isTest_opensTag
        (Bool.eq_false_iff.mpr htag)
      rw [List.cons_append] at htag'
      rw [if_neg (by simp [htag'])]
      exact congrArg some (unit_append (i := b :: i) (Option.some.inj h) hr)

theorem markupStep_eq_none_iff {d : Dialect} {b : UInt8} {s : List UInt8} :
    markupStep d (b :: s) = none ↔
      b = greater ∨ isQuote b = false ∧ d.tags.opensTag (b :: s) = true := by
  simp only [markupStep]
  split
  · next h => simpa using .inl (by simpa using h)
  next h =>
  have hb : b ≠ greater := by simpa using h
  split
  · next hq => simp [hb, hq]
  next hq =>
  split
  · next ht => simpa [hb, ht] using hq
  · next ht => simp [hb, ht]

/-- A walk inside a host tag that stops behind `x` also stops there before a rest alike. -/
theorem walk_markupStep_append {d : Dialect} {x r r' : List UInt8}
    (h : walk (markupStep d) (x ++ r) = x.length) (hr : Alike r r')
    (hstop : r' = [] ∨ markupStep d r' = none) : walk (markupStep d) (x ++ r') = x.length :=
  walk_append (bounded_markupStep d) h
    (fun _ y hi hstep => markupStep_append hi hstep (hr.append y)) hstop

/-- Up to the bracket that closes it a host tag is the same whatever follows the bracket. -/
theorem walk_markupStep_append_of_closed {d : Dialect} {u r : List UInt8}
    (h : walk (markupStep d) (u ++ greater :: r) = u.length) (r' : List UInt8) :
    walk (markupStep d) (u ++ greater :: r') = u.length :=
  walk_markupStep_append h (.of_closer (by decide) r r')
    (.inr (markupStep_eq_none_iff.mpr (.inl rfl)))

/-- The inside of a host tag and the bracket that closes it. -/
theorem markupExtent_eq (d : Dialect) (s : List UInt8) :
    markupExtent d s = walkThrough (markupStep d) greater s := by
  simp only [markupExtent, walkThrough]
  split
  · next h => simp [h]
  · next b t h => by_cases hb : b = greater <;> simp [h, hb]

/-- A host tag ends with its bracket, with the text or in front of a tag. -/
theorem markupExtent_cases {d : Dialect} {x r : List UInt8}
    (h : (markupExtent d (x ++ r)).length = x.length) :
    (∃ u, x = u ++ [greater] ∧ walk (markupStep d) (u ++ greater :: r) = u.length) ∨
      (walk (markupStep d) (x ++ r) = x.length ∧ r.head? ≠ some greater ∧
        (r = [] ∨ d.tags.opensTag r = true ∧ r.head?.any isQuote = false)) := by
  rw [markupExtent_eq] at h
  refine (walkThrough_cases (bounded_markupStep d) h).imp_right ?_
  rintro ⟨hwalk, hhead, hend⟩
  refine ⟨hwalk, hhead, ?_⟩
  cases r with
  | nil => exact .inl rfl
  | cons b s =>
      have hb : b ≠ greater := by simpa using hhead
      obtain ⟨hquote, htag⟩ :=
        (markupStep_eq_none_iff.mp (hend.resolve_left (by simp))).resolve_left hb
      exact .inr ⟨htag, by simpa using hquote⟩

theorem markupExtent_of_closed {d : Dialect} {u r : List UInt8}
    (h : walk (markupStep d) (u ++ greater :: r) = u.length) :
    markupExtent d (u ++ greater :: r) = ⟨u.length + 1, true⟩ := by
  rw [markupExtent_eq, walkThrough_of_closed h]

theorem markupExtent_of_stopped {d : Dialect} {x r : List UInt8}
    (h : walk (markupStep d) (x ++ r) = x.length) (hr : r.head? ≠ some greater) :
    markupExtent d (x ++ r) = ⟨x.length, !r.isEmpty⟩ := by
  rw [markupExtent_eq, walkThrough_of_stopped h hr]

/-- Where no tag follows, only its bracket closes a host tag. -/
theorem exists_of_markupExtent_closed {d : Dialect} {x : List UInt8}
    (h : markupExtent d x = ⟨x.length, true⟩) :
    ∃ u, x = u ++ [greater] ∧ walk (markupStep d) (u ++ [greater]) = u.length := by
  have hall : markupExtent d (x ++ []) = ⟨x.length, true⟩ := by rwa [List.append_nil]
  rcases markupExtent_cases (congrArg Extent.length hall) with hclosed | ⟨hwalk, hhead, -⟩
  · exact hclosed
  · have hopen := (markupExtent_of_stopped hwalk hhead).symm.trans hall
    exact absurd (congrArg Extent.closed hopen) (by simp)

theorem markupExtent_append {d : Dialect} {x r r' : List UInt8}
    (h : (markupExtent d (x ++ r)).length = x.length) (hr : Alike r r') :
    (markupExtent d (x ++ r')).length = x.length := by
  rcases markupExtent_cases h with ⟨u, rfl, hwalk⟩ | ⟨hwalk, hhead, hend⟩
  · rw [List.append_assoc, List.singleton_append,
      markupExtent_of_closed (walk_markupStep_append_of_closed hwalk r'), List.length_append]
    rfl
  · rcases stop_append (hend.imp_right And.left) hr with rfl | ⟨htag', hhead'⟩
    · rw [markupExtent_of_stopped (walk_markupStep_append hwalk hr (.inl rfl)) (by simp)]
    · have hstop : r' = [] ∨ markupStep d r' = none := by
        cases r' with
        | nil => exact .inl rfl
        | cons b s =>
            refine .inr (markupStep_eq_none_iff.mpr (.inr ⟨?_, htag'⟩))
            rcases hend with rfl | ⟨-, hquote⟩
            · exact absurd hhead' (by simp)
            · rwa [← hhead'] at hquote
      rw [markupExtent_of_stopped (walk_markupStep_append hwalk hr hstop) (hhead' ▸ hhead)]

/-- A host tag that is cut out of its text ends with the same bracket, or it has none there
either. -/
theorem markupExtent_cut {d : Dialect} {x r : List UInt8}
    (h : (markupExtent d (x ++ r)).length = x.length) :
    (∃ u, x = u ++ [greater] ∧ walk (markupStep d) (u ++ [greater]) = u.length ∧
        walk (markupStep d) (u ++ greater :: r) = u.length) ∨
      walk (markupStep d) x = x.length ∧ walk (markupStep d) (x ++ r) = x.length ∧
        r.head? ≠ some greater ∧ (r = [] ∨ d.tags.opensTag r = true) := by
  rcases markupExtent_cases h with ⟨u, rfl, hwalk⟩ | ⟨hwalk, hhead, hend⟩
  · exact .inl ⟨u, rfl, walk_markupStep_append_of_closed hwalk [], hwalk⟩
  · replace hend := hend.imp_right And.left
    -- what stands behind it starts with a bracket, on which nothing before depends
    have hbracket : ∀ b ∈ r.head?, isBracket b = true := by
      rcases hend with rfl | htag
      · simp
      · exact TagStyle.isBracket_of_opensTag htag
    have hcut := walk_markupStep_append hwalk (.of_bracket hbracket) (.inl rfl)
    rw [List.append_nil] at hcut
    exact .inr ⟨hcut, hwalk, hhead, hend⟩

/-! ## Where a region ends -/

/-- The kinds whose inside is an expression. -/
def expressionKinds : List RegionKind :=
  [.directiveStart, .directiveEnd, .macroStart, .macroEnd, .interpolation]

theorem closingOf_eq_extent {kind : RegionKind} (hkind : kind ∈ expressionKinds) (d : Dialect)
    (o : Opening) (s : List UInt8) : closingOf d kind o s = Expression.extent o.terminator s := by
  simp only [expressionKinds, List.mem_cons, List.not_mem_nil, or_false] at hkind
  rcases hkind with rfl | rfl | rfl | rfl | rfl <;> rfl

/-- The end of a region is the same before rests that look alike. -/
theorem closingOf_append {d : Dialect} {kind : RegionKind} {o : Opening} {x r r' : List UInt8}
    (h : (closingOf d kind o (x ++ r)).length = x.length) (hr : Alike r r') :
    (closingOf d kind o (x ++ r')).length = x.length := by
  cases kind with
  | comment => exact through_length_append (by simp [Bracket.commentClose]) h hr.head
  | markupComment => exact through_length_append (by simp) h hr.head
  | markupTag => exact markupExtent_append h hr
  | directiveStart | directiveEnd | macroStart | macroEnd | interpolation =>
      exact (congrArg Extent.length (Expression.extent_append h hr)).trans h
  | plain => exact h

/-- A region that ends with the text and is closed there is closed whatever follows. -/
theorem closingOf_append_of_closed {d : Dialect} {kind : RegionKind} {o : Opening}
    {x : List UInt8} (h : closingOf d kind o x = ⟨x.length, true⟩) (r : List UInt8) :
    closingOf d kind o (x ++ r) = ⟨x.length, true⟩ := by
  have hall : closingOf d kind o (x ++ []) = ⟨x.length, true⟩ := by rwa [List.append_nil]
  cases kind with
  | comment => exact through_append (by simp [Bracket.commentClose]) hall (.inl rfl)
  | markupComment => exact through_append (by simp) hall (.inl rfl)
  | markupTag =>
      obtain ⟨u, rfl, hwalk⟩ := exists_of_markupExtent_closed h
      rw [List.append_assoc, List.singleton_append, List.length_append]
      exact markupExtent_of_closed (walk_markupStep_append_of_closed hwalk r)
  | directiveStart | directiveEnd | macroStart | macroEnd | interpolation =>
      exact Expression.extent_append_of_closed hall r
  | plain => exact absurd (congrArg Extent.closed h) (by simp [closingOf])

/-- A region that is cut out of its text ends where it ended there. -/
theorem closingOf_cut {d : Dialect} {kind : RegionKind} {o : Opening} {x r : List UInt8}
    (h : (closingOf d kind o (x ++ r)).length = x.length) :
    (closingOf d kind o x).length = x.length := by
  suffices hcut : (closingOf d kind o (x ++ [])).length = x.length by rwa [List.append_nil] at hcut
  cases kind with
  | comment => exact through_length_append (by simp [Bracket.commentClose]) h (.of_nil 1 r)
  | markupComment => exact through_length_append (by simp) h (.of_nil 1 r)
  | markupTag =>
      rcases markupExtent_cut h with ⟨u, rfl, hwalk, -⟩ | ⟨hwalk, -⟩
      · rw [List.append_assoc, List.singleton_append, List.length_append]
        exact congrArg Extent.length (markupExtent_of_closed hwalk)
      · have hall : walk (markupStep d) (x ++ []) = x.length := by rwa [List.append_nil]
        exact congrArg Extent.length (markupExtent_of_stopped hall (by simp))
  | directiveStart | directiveEnd | macroStart | macroEnd | interpolation =>
      rw [List.append_nil]
      exact (congrArg Extent.length (Expression.extent_cut h)).trans h
  | plain => exact h

theorem closingOf_le (d : Dialect) (kind : RegionKind) (o : Opening) (s : List UInt8) :
    (closingOf d kind o s).length ≤ s.length := by
  cases kind with
  | comment | markupComment => exact through_le_length _ s
  | markupTag =>
      simp only [closingOf, markupExtent_eq]
      exact walkThrough_le (markupStep d) greater s
  | directiveStart | directiveEnd | macroStart | macroEnd | interpolation =>
      exact Expression.extent_le o.terminator s
  | plain => exact Nat.zero_le _

/-! ## Whether a region opens

An opener takes exactly its bytes in front of everything that does not lengthen its name, and four
bytes show whether there is one. -/

theorem tagOpenerLength?_append {sigil : List UInt8} {anonymous : Bool} {b : Bracket}
    {w r r' : List UInt8} (h : tagOpenerLength? sigil anonymous b (w ++ r) = some w.length)
    (hr : NothingNew 1 r r') : tagOpenerLength? sigil anonymous b (w ++ r') = some w.length := by
  obtain ⟨named, hs, hcase⟩ := tagOpenerLength?_eq_some_iff.mp h
  -- the opener is the bracket, the sigil and a front of what stands behind them
  obtain ⟨name, rfl, rfl⟩ : ∃ name, w = b.openByte :: (sigil ++ name) ∧ named = name ++ r := by
    have hlen : 1 + sigil.length ≤ w.length := by
      rcases hcase with ⟨-, hw⟩ | ⟨-, -, hw⟩ <;> omega
    have hprefix : b.openByte :: sigil <+: w :=
      List.prefix_of_prefix_length_le ⟨named, by rw [hs]; rfl⟩ (List.prefix_append w r)
        (by rw [List.length_cons]; omega)
    obtain ⟨name, rfl⟩ := hprefix
    refine ⟨name, rfl, ?_⟩
    rw [List.cons_append, List.cons_append, List.append_assoc] at hs
    exact (List.append_cancel_left (List.cons.inj hs).2).symm
  refine tagOpenerLength?_eq_some_iff.mpr ⟨name ++ r', by simp, ?_⟩
  simp only [List.length_cons, List.length_append] at hcase ⊢
  cases name with
  | nil =>
      rcases hcase with ⟨hname, hrun⟩ | ⟨hname, ha, -⟩
      · -- a name that starts behind the opener would belong to it
        cases r with
        | nil => simp at hname
        | cons c r =>
            have hc : isTagNameContinue c = true := by
              have : isNameStart c = true := by simpa using hname
              simp [isTagNameContinue, isNameContinue, this]
            have := runLength_pos (s := r) hc
            simp only [List.nil_append, List.length_nil] at hrun
            omega
      · refine .inr ⟨Bool.eq_false_iff.mpr fun hp => ?_, ha, by simp; omega⟩
        exact Bool.false_ne_true (hname.symm.trans (hr.any_head? Nat.one_pos hp))
  | cons c name =>
      rcases hcase with ⟨hname, hrun⟩ | ⟨-, -, hlen⟩
      · left
        rw [runLength_append (x := c :: name) (r := r) (by omega) hr]
        exact ⟨by simpa using hname, by omega⟩
      · simp only [List.length_cons] at hlen
        omega

theorem markupNameAt?_append {w r : List UInt8} {n : Nat} (h : markupNameAt? (w ++ r) = some n)
    (hn : n < w.length) (r' : List UInt8) : markupNameAt? (w ++ r') = some n := by
  obtain ⟨b, rest, hs, hcase⟩ := markupNameAt?_eq_some_iff.mp h
  match w with
  | [] => simp at hn
  | [_] => simp only [List.length_cons, List.length_nil] at hn; omega
  | a :: b' :: w =>
      rw [List.cons_append, List.cons_append] at hs
      injection hs with ha hs
      injection hs with hb hs
      subst ha hb hs
      refine markupNameAt?_eq_some_iff.mpr ⟨b', w ++ r', rfl, ?_⟩
      cases w with
      | nil =>
          simp only [List.length_cons, List.length_nil] at hn
          exact hcase.imp id fun h => absurd hn (by omega)
      | cons c w => exact hcase

/-- An opening takes exactly its bytes, whatever comes behind the byte that ends its name. -/
theorem openingOf?_append {d : Dialect} {kind : RegionKind} {w r r' : List UInt8} {o : Opening}
    (h : openingOf? d kind (w ++ r) = some o) (hw : o.length = w.length) (hr : NothingNew 1 r r') :
    openingOf? d kind (w ++ r') = some o := by
  cases kind with
  | comment =>
      obtain ⟨hk, hl, hb, hc⟩ := commentOpening?_eq_some_iff.mp h
      refine commentOpening?_eq_some_iff.mpr ⟨hk, hl, hb, ?_⟩
      rwa [Expression.opensComment_append (by omega) r' r]
  | directiveStart | directiveEnd | macroStart | macroEnd =>
      obtain ⟨hk, hb, hn⟩ := tagOpening?_eq_some_iff.mp h
      rw [hw] at hn
      exact tagOpening?_eq_some_iff.mpr ⟨hk, hb, hw ▸ tagOpenerLength?_append hn hr⟩
  | interpolation =>
      obtain ⟨hopens, rfl⟩ := interpolationOpening?_eq_some_iff.mp h
      refine interpolationOpening?_eq_some_iff.mpr ⟨?_, rfl⟩
      rwa [Expression.opens_append (Nat.le_of_eq hw) r' r]
  | markupComment =>
      obtain ⟨hp, rfl⟩ := markupCommentOpening?_eq_some_iff.mp h
      refine markupCommentOpening?_eq_some_iff.mpr ⟨?_, rfl⟩
      rwa [isPrefixOf_append (by rw [← hw]; simp) r' r]
  | markupTag =>
      obtain ⟨n, hn, rfl⟩ := markupTagOpening?_eq_some_iff.mp h
      have hlt : n < w.length := by
        rw [← hw]
        exact Nat.lt_add_of_pos_right (markupName_length_pos hn)
      refine markupTagOpening?_eq_some_iff.mpr ⟨n, markupNameAt?_append hn hlt r', ?_⟩
      have hrun : runLength isMarkupNameContinue (w.drop n ++ r) = (w.drop n).length := by
        rw [← List.drop_append_of_le_length (Nat.le_of_lt hlt), List.length_drop]
        exact Nat.eq_sub_of_add_eq' hw
      rw [List.drop_append_of_le_length (Nat.le_of_lt hlt),
        List.drop_append_of_le_length (Nat.le_of_lt hlt), hrun, runLength_append hrun hr]
  | plain => exact absurd h (by simp [openingOf?])

/-- A byte that a name may start with neither opens nor closes anything, and is no quote. -/
theorem isProbe_append_name {needle : List UInt8} {c : UInt8} (hneedle : isProbe needle = true)
    (hlen : needle.length ≤ 3) (hpos : needle ≠ [])
    (hc : isNameStart c = true ∨ isMarkupNameStart c = true) : isProbe (needle ++ [c]) = true := by
  have hname : ∀ c, isNameStart c = true → isBarrier c = false ∧ isBracket c = false :=
    forall_byte (by decide +kernel)
  have hmarkup : ∀ c, isMarkupNameStart c = true → isBarrier c = false ∧ isBracket c = false :=
    forall_byte (by decide +kernel)
  obtain ⟨hbarrier, hbracket⟩ := hc.elim (hname c) (hmarkup c)
  obtain ⟨a, needle, rfl⟩ := List.exists_cons_of_ne_nil hpos
  simp only [isProbe, List.cons_append, List.length_cons, List.length_append, List.all_cons,
    List.all_append, List.tail_cons, Bool.and_eq_true, decide_eq_true_eq] at hneedle hlen ⊢
  simp [hneedle, hbarrier, hbracket]
  omega

theorem isTest_tagOpenerLength? {sigil : List UInt8} (b : Bracket) (anonymous : Bool)
    (hsigil : sigil ∈ [[hash], [commercialAt], [slash, hash], [slash, commercialAt]]) :
    IsTest fun s => (tagOpenerLength? sigil anonymous b s).isSome := by
  have hprobe : isProbe (b.openByte :: sigil) = true ∧ (b.openByte :: sigil).length ≤ 3 := by
    revert sigil
    cases b <;> decide
  intro s hs
  obtain ⟨n, hn⟩ := Option.isSome_iff_exists.mp hs
  obtain ⟨named, rfl, ⟨hname, -⟩ | ⟨-, rfl, -⟩⟩ := tagOpenerLength?_eq_some_iff.mp hn
  · cases named with
    | nil => exact absurd hname (by simp)
    | cons c named =>
        have hc : isNameStart c = true := by simpa using hname
        refine ⟨b.openByte :: sigil ++ [c],
          isProbe_append_name hprobe.1 hprobe.2 (by simp) (.inl hc), by simp, fun s' hs' => ?_⟩
        obtain ⟨z, rfl⟩ := List.isPrefixOf_iff_prefix.mp hs'
        exact Option.isSome_iff_exists.mpr
          ⟨_, tagOpenerLength?_eq_some_iff.mpr ⟨c :: z, by simp, .inl ⟨hname, rfl⟩⟩⟩
  · -- an anonymous tag opens with a name and without
    refine ⟨b.openByte :: sigil, hprobe.1, by simp, fun s' hs' => ?_⟩
    simp only [tagOpenerLength?, if_pos hs', if_true]
    split <;> rfl

theorem isTest_tagOpening? {kind : RegionKind} {sigil : List UInt8} {anonymous : Bool}
    {style : TagStyle}
    (hsigil : sigil ∈ [[hash], [commercialAt], [slash, hash], [slash, commercialAt]]) :
    IsTest fun s => (tagOpening? kind sigil anonymous style s).isSome := by
  simp only [tagOpening?, List.isSome_findSome?, Option.isSome_map]
  exact .any fun b _ => isTest_tagOpenerLength? b anonymous hsigil

theorem isTest_markupNameAt? : IsTest fun s => (markupNameAt? s).isSome := by
  intro s hs
  obtain ⟨n, hn⟩ := Option.isSome_iff_exists.mp hs
  obtain ⟨b, rest, rfl, hcase⟩ := markupNameAt?_eq_some_iff.mp hn
  have halpha : ∀ c, isAlpha c = true → isMarkupNameStart c = true := by
    simp +contextual [isMarkupNameStart]
  have hfront {needle : List UInt8} (hp : isProbe needle = true)
      (hneedle : needle.isPrefixOf (less :: b :: rest) = true)
      (hall : ∀ z, (markupNameAt? (needle ++ z)).isSome = true) :
      ∃ needle, isProbe needle = true ∧ needle.isPrefixOf (less :: b :: rest) = true ∧
        ∀ s', needle.isPrefixOf s' = true → (markupNameAt? s').isSome = true := by
    refine ⟨needle, hp, hneedle, fun s' hs' => ?_⟩
    obtain ⟨z, rfl⟩ := List.isPrefixOf_iff_prefix.mp hs'
    exact hall z
  rcases hcase with ⟨-, hb⟩ | ⟨-, hb, hrest⟩ | ⟨-, rfl, hrest⟩
  · have hprobe : isProbe [less] = true := by decide
    refine hfront (isProbe_append_name hprobe (by simp) (by simp) (.inr hb)) (by simp) fun z =>
      Option.isSome_iff_exists.mpr
        ⟨1, markupNameAt?_eq_some_iff.mpr ⟨b, z, rfl, .inl ⟨rfl, hb⟩⟩⟩
  · cases rest with
    | nil => exact absurd hrest (by simp)
    | cons c rest =>
        have hprobe : isProbe [less, b] = true := by rcases hb with rfl | rfl <;> decide
        refine hfront (isProbe_append_name hprobe (by simp) (by simp)
            (.inr (show isMarkupNameStart c = true by simpa using hrest))) (by simp) fun z =>
          Option.isSome_iff_exists.mpr
            ⟨2, markupNameAt?_eq_some_iff.mpr ⟨b, c :: z, rfl, .inr (.inl ⟨rfl, hb, hrest⟩)⟩⟩
  · cases rest with
    | nil => exact absurd hrest (by simp)
    | cons c rest =>
        have hprobe : isProbe [less, exclamation] = true := by decide
        refine hfront (isProbe_append_name hprobe (by simp) (by simp)
            (.inr (halpha c (by simpa using hrest)))) (by simp) fun z =>
          Option.isSome_iff_exists.mpr
            ⟨2, markupNameAt?_eq_some_iff.mpr ⟨_, c :: z, rfl, .inr (.inr ⟨rfl, rfl, hrest⟩)⟩⟩

/-- A probe shows whether a region opens. -/
theorem isTest_openingOf? (d : Dialect) (kind : RegionKind) :
    IsTest fun s => (openingOf? d kind s).isSome := by
  cases kind with
  | comment =>
      refine .congr (.any fun b (_ : b ∈ d.tags.brackets) => Expression.isTest_opensComment b) ?_
      intro s
      rw [openingOf?, commentOpening?, Option.isSome_map, Bool.eq_iff_iff, List.find?_isSome,
        List.any_eq_true]
  | directiveStart | directiveEnd | macroStart | macroEnd => exact isTest_tagOpening? (by simp)
  | interpolation =>
      refine .congr (Expression.isTest_opens d.interpolation) fun s => ?_
      simp only [openingOf?, interpolationOpening?]
      split <;> simp [*]
  | markupComment =>
      refine .congr (.of_needle (show isProbe [less, exclamation, hyphen, hyphen] = true by decide))
        fun s => ?_
      simp only [openingOf?, markupCommentOpening?]
      split <;> simp [*]
  | markupTag =>
      simp only [openingOf?, markupTagOpening?, Option.isSome_map]
      exact isTest_markupNameAt?
  | plain => exact fun s hs => absurd hs (by simp [openingOf?])

theorem isTest_openingBy? (rules : List RegionKind) (d : Dialect) :
    IsTest fun s => (openingBy? rules d s).isSome := by
  refine .congr (.any fun kind (_ : kind ∈ rules) => isTest_openingOf? d kind) fun s => ?_
  rw [Bool.eq_iff_iff, List.any_eq_true, Option.isSome_iff_ne_none, Ne, openingBy?_eq_none_iff]
  simp [Option.isSome_iff_ne_none]

/-! ## The first region of a text -/

theorem bounded_plainStep (rules : List RegionKind) (d : Dialect) : Bounded (plainStep rules d) := by
  intro s k hs hk
  unfold plainStep at hk
  split at hk
  · exact absurd hk (by simp)
  · obtain rfl := Option.some.inj hk
    exact charLength_bounds hs

theorem plainStep_eq_none_iff {rules : List RegionKind} {d : Dialect} {s : List UInt8} :
    plainStep rules d s = none ↔ openingBy? rules d s ≠ none := by
  unfold plainStep
  cases openingBy? rules d s <;> simp

theorem plainStep_eq_some_iff {rules : List RegionKind} {d : Dialect} {s : List UInt8} {k : Nat} :
    plainStep rules d s = some k ↔ openingBy? rules d s = none ∧ charLength s = k := by
  unfold plainStep
  cases openingBy? rules d s <;> simp

theorem extentOf_bounds {d : Dialect} {kind : RegionKind} {s : List UInt8} {o : Opening}
    (h : openingOf? d kind s = some o) :
    o.length ≤ (extentOf d o s).length ∧ (extentOf d o s).length ≤ s.length := by
  have hle := closingOf_le d o.kind o (s.drop o.length)
  have ho := (openingOf?_bounds h).2
  rw [List.length_drop] at hle
  simp only [extentOf]
  omega

theorem firstBy_of_openingBy? {rules : List RegionKind} {d : Dialect} {s : List UInt8}
    {o : Opening} (h : openingBy? rules d s = some o) :
    firstBy rules d s = ⟨o.kind, (extentOf d o s).length⟩ := by
  rw [firstBy, h]

theorem firstBy_of_none {rules : List RegionKind} {d : Dialect} {s : List UInt8}
    (h : openingBy? rules d s = none) :
    firstBy rules d s = ⟨.plain, walk (plainStep rules d) s⟩ := by
  rw [firstBy, h]

theorem firstBy_le (rules : List RegionKind) (d : Dialect) (s : List UInt8) :
    (firstBy rules d s).length ≤ s.length := by
  cases h : openingBy? rules d s with
  | none =>
      rw [firstBy_of_none h]
      exact walk_le_length _ s
  | some o =>
      rw [firstBy_of_openingBy? h]
      exact (extentOf_bounds (openingBy?_eq_some_iff.mp h).2).2

/-- A region by a rule, which finds the opener `w` and behind it the end of `y`, in front of `r`. -/
structure Ruled (rules : List RegionKind) (d : Dialect) (kind : RegionKind)
    (w y r : List UInt8) (o : Opening) : Prop where
  mem : kind ∈ rules
  opening : openingOf? d kind (w ++ (y ++ r)) = some o
  length : o.length = w.length
  closing : (closingOf d kind o (y ++ r)).length = y.length

namespace Ruled

variable {rules : List RegionKind} {d : Dialect} {kind : RegionKind} {w y r r' : List UInt8}
  {o : Opening}

theorem firstBy_eq (h : Ruled rules d kind w y r o) :
    firstBy rules d (w ++ y ++ r) = ⟨kind, (w ++ y).length⟩ := by
  obtain rfl := openingOf?_kind h.opening
  rw [List.append_assoc, firstBy_of_openingBy? (openingBy?_eq_some_iff.mpr ⟨h.mem, h.opening⟩)]
  simp only [extentOf, h.length, List.drop_left, h.closing, List.length_append]

theorem append (h : Ruled rules d kind w y r o) (hr : NothingNew 1 (y ++ r) (y ++ r'))
    (hclosing : (closingOf d kind o (y ++ r')).length = y.length) :
    Ruled rules d kind w y r' o :=
  ⟨h.mem, openingOf?_append h.opening h.length hr, h.length, hclosing⟩

/-- The rule finds the region in the region's own text. -/
theorem cut (h : Ruled rules d kind w y r o) : Ruled rules d kind w y [] o := by
  refine h.append ((Quiet.of_nil r).append y).head ?_
  rw [List.append_nil]
  exact closingOf_cut h.closing

end Ruled

/-- The first region of a text is opened by a rule, or it is plain text up to where one opens. -/
theorem firstBy_cases {rules : List RegionKind} {d : Dialect} {kind : RegionKind}
    {x r : List UInt8} (h : firstBy rules d (x ++ r) = ⟨kind, x.length⟩) :
    (kind = .plain ∧ openingBy? rules d (x ++ r) = none ∧
        walk (plainStep rules d) (x ++ r) = x.length ∧
        (r = [] ∨ (openingBy? rules d r).isSome = true)) ∨
      ∃ w y o, x = w ++ y ∧ Ruled rules d kind w y r o := by
  cases ho : openingBy? rules d (x ++ r) with
  | none =>
      rw [firstBy_of_none ho] at h
      obtain ⟨rfl, hwalk⟩ := Run.mk.inj h
      have hend := step_drop_walk (bounded_plainStep rules d) (x ++ r)
      rw [hwalk, List.drop_left] at hend
      refine .inl ⟨rfl, rfl, hwalk, hend.imp_right fun hstop => ?_⟩
      exact Option.isSome_iff_ne_none.mpr (plainStep_eq_none_iff.mp hstop)
  | some o =>
      right
      obtain ⟨hmem, hof⟩ := openingBy?_eq_some_iff.mp ho
      rw [firstBy_of_openingBy? ho] at h
      obtain ⟨rfl, hlen⟩ := Run.mk.inj h
      have hlong := (extentOf_bounds hof).1
      obtain ⟨w, y, rfl, hw⟩ : ∃ w y, x = w ++ y ∧ w.length = o.length := exists_cut (by omega)
      rw [List.append_assoc] at hof hlen
      refine ⟨w, y, o, rfl, hmem, hof, hw.symm, ?_⟩
      simp only [extentOf, ← hw, List.drop_left, List.length_append] at hlen
      exact Nat.add_left_cancel hlen

/-- Plain text stays plain before a rest that shows nothing new. -/
theorem firstBy_plain_append {rules : List RegionKind} {d : Dialect} {x r r' : List UInt8}
    (h : openingBy? rules d (x ++ r) = none)
    (hwalk : walk (plainStep rules d) (x ++ r) = x.length) (hr : Quiet r r')
    (hend : r' = [] ∨ (openingBy? rules d r').isSome = true) :
    firstBy rules d (x ++ r') = ⟨.plain, x.length⟩ := by
  have hnone {i s s' : List UInt8} (hs : Quiet s s') (h : openingBy? rules d (i ++ s) = none) :
      openingBy? rules d (i ++ s') = none := by
    rw [← Option.isNone_iff_eq_none, ← Option.not_isSome, Bool.not_eq_true'] at h ⊢
    exact (hs.append i).test_eq_false (isTest_openingBy? rules d) h
  have hpass (i y : List UInt8) (_ : i ≠ [])
      (hstep : plainStep rules d (i ++ (y ++ r)) = some i.length) :
      plainStep rules d (i ++ (y ++ r')) = some i.length := by
    obtain ⟨hi, hchar⟩ := plainStep_eq_some_iff.mp hstep
    exact plainStep_eq_some_iff.mpr
      ⟨hnone (hr.append y) hi, charLength_append hchar (hr.append y).head⟩
  have hstop : r' = [] ∨ plainStep rules d r' = none :=
    hend.imp_right fun h => plainStep_eq_none_iff.mpr (Option.isSome_iff_ne_none.mp h)
  rw [firstBy_of_none (hnone hr h), walk_append (bounded_plainStep rules d) hwalk hpass hstop]

/-- **The first region of a text is the same before rests that look alike.** -/
theorem firstBy_append {rules : List RegionKind} {d : Dialect} {kind : RegionKind}
    {x r r' : List UInt8} (h : firstBy rules d (x ++ r) = ⟨kind, x.length⟩) (hr : Alike r r') :
    firstBy rules d (x ++ r') = ⟨kind, x.length⟩ := by
  rcases firstBy_cases h with ⟨rfl, hnone, hwalk, hend⟩ | ⟨w, y, o, rfl, hruled⟩
  · refine firstBy_plain_append hnone hwalk hr.toQuiet ?_
    rcases hend with rfl | hopens
    · exact .inl (hr.eq_nil rfl)
    · exact hr.test (isTest_openingBy? rules d) hopens
  · exact (hruled.append (hr.append y).head (closingOf_append hruled.closing hr)).firstBy_eq

/-- **A region that is cut out of its text is the only region there.** -/
theorem firstBy_cut {rules : List RegionKind} {d : Dialect} {kind : RegionKind}
    {x r : List UInt8} (h : firstBy rules d (x ++ r) = ⟨kind, x.length⟩) :
    firstBy rules d x = ⟨kind, x.length⟩ := by
  suffices hcut : firstBy rules d (x ++ []) = ⟨kind, x.length⟩ by rwa [List.append_nil] at hcut
  rcases firstBy_cases h with ⟨rfl, hnone, hwalk, -⟩ | ⟨w, y, o, rfl, hruled⟩
  · exact firstBy_plain_append hnone hwalk (.of_nil r) (.inl rfl)
  · exact hruled.cut.firstBy_eq

end Region

end TemplateColoring

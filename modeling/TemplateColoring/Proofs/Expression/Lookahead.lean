import TemplateColoring.Proofs.Expression.Lexeme

/-!
# How far ahead the lexer looks

An item of an expression is decided by its own bytes, the byte behind it and what the rules find
there (`Reads.append`): a lone `<` is an operator unless `#--` follows. Where an expression is
closed, all of this lies in front of its last byte, so that nothing behind it matters. Where it
stops in front of a tag, the tag must be seen (`lexFrom_append`).
-/

set_option autoImplicit false

namespace TemplateColoring.Expression

open Ascii Bytes

/-! ## Comments, tags and interpolations in front of a text -/

theorem opensComment_append {b : Bracket} {x : List UInt8} (h : 4 ≤ x.length)
    (r r' : List UInt8) : b.opensComment (x ++ r) = b.opensComment (x ++ r') :=
  isPrefixOf_append (show [b.openByte, hash, hyphen, hyphen].length ≤ x.length from h) r r'

theorem isTest_opensComment (b : Bracket) : IsTest b.opensComment :=
  .of_needle (by cases b <;> decide)

theorem isTest_opensTag (b : Bracket) : IsTest b.opensTag :=
  .any fun sigil hmem => .of_needle (by revert sigil; cases b <;> decide)

theorem isTest_opens (style : InterpolationStyle) : IsTest style.opens :=
  .any fun opener hmem => .of_needle (by revert opener; cases style <;> decide)

/-! ## Terminators -/

theorem lengthAt?_append {t : Terminator} {x : List UInt8} {k : Nat} (r r' : List UInt8)
    (hk : k ≤ x.length) (h : t.lengthAt? (x ++ r) = some k) : t.lengthAt? (x ++ r') = some k := by
  obtain ⟨hpos, -⟩ := lengthAt?_bounds h
  cases x with
  | nil => simp only [List.length_nil] at hk; omega
  | cons b x =>
      cases t with
      | tag br =>
          simp only [List.cons_append, Terminator.lengthAt?] at h ⊢
          split at h
          · next hb => rw [if_pos hb]; exact h
          · next hb =>
            rw [if_neg hb]
            split at h
            · next hs =>
              obtain rfl := Option.some.inj h
              cases x with
              | nil => simp at hk
              | cons c x => exact if_pos hs
            · exact absurd h (by simp)
      | brace | bracket => exact h

theorem lengthAt?_eq_none {t : Terminator} {b : UInt8} {s s' : List UInt8}
    (h : t.lengthAt? (b :: s) = none) (hs : NothingNew 1 s s') : t.lengthAt? (b :: s') = none := by
  cases t with
  | tag br =>
      simp only [Terminator.lengthAt?] at h ⊢
      split at h
      · exact absurd h (by simp)
      · next hb =>
        rw [if_neg hb]
        split at h
        · exact absurd h (by simp)
        · next hslash =>
          refine if_neg fun hc => hslash ?_
          rw [Bool.and_eq_true] at hc ⊢
          refine ⟨hc.1, ?_⟩
          have hne : s' ≠ [] := by rintro rfl; simp at hc
          rw [← hs.head?_eq Nat.one_pos hne]
          exact hc.2
  | brace | bracket => exact h

/-! ## Strings, numbers and comments -/

theorem stringStep_append {raw : Bool} {quote : UInt8} {i r r' : List UInt8} (hi : i ≠ [])
    (h : stringStep raw quote (i ++ r) = some i.length) (hr : NothingNew 1 r r') :
    stringStep raw quote (i ++ r') = some i.length := by
  cases i with
  | nil => exact absurd rfl hi
  | cons b i =>
      simp only [List.cons_append, stringStep] at h ⊢
      split at h
      · exact absurd h (by simp)
      · next hb =>
        rw [if_neg hb]
        split at h
        · next hesc =>
          have hlen : charLength (i ++ r) = i.length := by
            have := Option.some.inj h
            rw [List.length_cons] at this
            omega
          rw [if_pos hesc, charLength_append hlen hr, List.length_cons, Nat.add_comm]
        · next hesc =>
          rw [if_neg hesc, ← List.cons_append,
            charLength_append (x := b :: i) (Option.some.inj h) hr]

theorem stringBodyLength_append {raw : Bool} {quote : UInt8} {x r r' : List UInt8}
    (h : stringBodyLength raw quote (x ++ r) = x.length) (hr : NothingNew 1 r r') :
    stringBodyLength raw quote (x ++ r') = x.length := by
  rw [stringBodyLength_eq] at h ⊢
  refine walkThrough_append (bounded_stringStep raw quote)
    (fun s => stringStep_eq_none_iff.mpr rfl) h
    (fun i y hi hstep => stringStep_append hi hstep (hr.append y)) fun hhead hend => ?_
  -- a literal that is not closed goes on to the end of the text
  cases r with
  | nil =>
      rw [hr.eq_nil Nat.one_pos rfl]
      exact ⟨.inl rfl, by simp⟩
  | cons b r =>
      have hb := stringStep_eq_none_iff.mp (hend.resolve_left (by simp))
      exact absurd (congrArg some hb) hhead

theorem isProbe_fraction {b : UInt8} (hb : isDigit b = true) : isProbe [dot, b] = true := by
  have hne : ∀ b, isDigit b = true → isBarrier b = false ∧ isBracket b = false :=
    forall_byte (by decide +kernel)
  simp [isProbe, hne b hb, show isBarrier dot = false by decide]

theorem fractionLength_append {x r r' : List UInt8} (h : fractionLength (x ++ r) = x.length)
    (hr : Quiet r r') : fractionLength (x ++ r') = x.length := by
  match x with
  | [] =>
      rcases r' with _ | ⟨point, _ | ⟨b, s⟩⟩
      · rfl
      · rfl
      · simp only [List.nil_append, fractionLength]
        split
        · next hp =>
          -- the point and the digit stand in front of `r` too, where there is no fraction
          obtain ⟨hpoint, hdigit⟩ := Bool.and_eq_true_iff.mp hp
          obtain rfl := beq_iff_eq.mp hpoint
          have hseen := hr.test (.of_needle (isProbe_fraction hdigit)) (by simp)
          obtain ⟨z, rfl⟩ := List.isPrefixOf_iff_prefix.mp hseen
          simp [fractionLength, hdigit] at h
        · rfl
  | [point] =>
      cases r with
      | nil => exact absurd h (by simp [fractionLength])
      | cons b s =>
          simp only [List.cons_append, List.nil_append, fractionLength, List.length_cons,
            List.length_nil] at h
          split at h
          · next hp =>
            have := runLength_pos (s := s) (Bool.and_eq_true_iff.mp hp).2
            omega
          · omega
  | point :: b :: x =>
      simp only [List.cons_append, fractionLength] at h ⊢
      split at h
      · next hp =>
        have hrun : runLength isDigit ((b :: x) ++ r) = (b :: x).length := by
          simp only [List.cons_append, List.length_cons] at h ⊢
          omega
        rw [if_pos hp, ← List.cons_append, runLength_append hrun hr.head]
        simp only [List.length_cons]
        omega
      · simp at h

theorem numberLength_append {x r r' : List UInt8} (h : numberLength (x ++ r) = x.length)
    (hr : Quiet r r') : numberLength (x ++ r') = x.length := by
  simp only [numberLength] at h
  -- `x` is the digits `w` and the fraction `f`
  obtain ⟨w, f, rfl, hw⟩ : ∃ w f, x = w ++ f ∧ w.length = runLength isDigit (x ++ r) :=
    exists_cut (by omega)
  replace hw := hw.symm
  rw [hw] at h
  rw [List.append_assoc] at hw h
  rw [List.drop_left, List.length_append] at h
  have hdigits := runLength_append hw (hr.append f).head
  have hfrac := fractionLength_append (Nat.add_left_cancel h) hr
  simp only [numberLength, List.append_assoc, hdigits, List.drop_left, hfrac, List.length_append]

theorem commentLength_append {b : Bracket} {x r r' : List UInt8} (hx : 4 ≤ x.length)
    (h : commentLength b (x ++ r) = x.length) (hr : NothingNew 1 r r') :
    commentLength b (x ++ r') = x.length := by
  rw [commentLength, List.drop_append_of_le_length hx] at h ⊢
  have hlen : (through b.commentClose (x.drop 4 ++ r)).length = (x.drop 4).length := by
    rw [List.length_drop]
    omega
  rw [through_length_append (by simp [Bracket.commentClose]) hlen hr, List.length_drop]
  omega

/-! ## Items -/

/-- **An item is the same before a rest that shows nothing new.** -/
theorem Reads.append {t : Terminator} {depth : Nat} {x r r' : List UInt8} {item : Item}
    (h : Reads t depth (x ++ r) item x.length) (hr : Quiet r r') :
    Reads t depth (x ++ r') item x.length := by
  -- most items look at one byte behind them
  have hr1 := hr.head
  obtain ⟨b, x, rfl⟩ : ∃ b x', x = b :: x' := by
    cases x with
    | nil => exact absurd h.bounds.1 (by simp)
    | cons b x => exact ⟨b, x, rfl⟩
  rw [List.cons_append] at h ⊢
  generalize hs : b :: (x ++ r) = s at h
  generalize hk : (b :: x).length = k at h ⊢
  cases h with
  | blank hb =>
      obtain ⟨rfl, rfl⟩ := List.cons.inj hs
      rw [← hk, ← runLength_append (x := b :: x) hk.symm hr1]
      exact .blank hb
  | @string _ s hb =>
      obtain ⟨rfl, rfl⟩ := List.cons.inj hs
      have hbody : stringBodyLength false b (x ++ r) = x.length := by
        rw [List.length_cons] at hk
        omega
      rw [hbody, ← stringBodyLength_append hbody hr1]
      exact .string hb
  | @rawString q s hq =>
      obtain ⟨rfl, hrest⟩ := List.cons.inj hs
      cases x with
      | nil =>
          rw [List.length_singleton] at hk
          omega
      | cons c x =>
          rw [List.cons_append] at hrest ⊢
          obtain ⟨rfl, rfl⟩ := List.cons.inj hrest
          have hbody : stringBodyLength true c (x ++ r) = x.length := by
            rw [List.length_cons, List.length_cons] at hk
            omega
          rw [hbody, ← stringBodyLength_append hbody hr1]
          exact .rawString hq
  | comment hc =>
      subst hs
      have hx : 4 ≤ (b :: x).length := by rw [hk, commentLength]; omega
      rw [← hk, ← commentLength_append (x := b :: x) hx hk.symm hr1]
      exact .comment ((opensComment_append (x := b :: x) hx r' r).trans hc)
  | @identifier _ s hb hraw =>
      obtain ⟨rfl, rfl⟩ := List.cons.inj hs
      rw [← hk, ← runLength_append (x := b :: x) hk.symm hr1]
      -- a quote that follows in `r'` follows in `r` too, and would make it a raw string
      refine .identifier hb (Bool.eq_false_iff.mpr fun hc => ?_)
      rw [Bool.and_eq_true] at hc
      have hany := (hr1.append x).any_head? Nat.one_pos hc.2
      rw [hc.1, hany] at hraw
      exact absurd hraw (by decide)
  | number hb =>
      obtain ⟨rfl, rfl⟩ := List.cons.inj hs
      rw [← hk, ← numberLength_append (x := b :: x) hk.symm hr]
      exact .number hb
  | @builtIn s hb =>
      obtain ⟨rfl, rfl⟩ := List.cons.inj hs
      have hrun : runLength isNameContinue (x ++ r) = x.length := by
        rw [List.length_cons] at hk
        omega
      cases x with
      | nil =>
          -- the name of the built-in would not end before it starts
          cases r with
          | nil => simp at hb
          | cons c r =>
              have := runLength_pos (s := r) (show isNameContinue c = true by
                simp only [isNameContinue, Bool.or_eq_true]
                exact .inl (by simpa using hb))
              rw [List.nil_append, List.length_nil] at hrun
              omega
      | cons c x =>
          rw [hrun, ← runLength_append hrun hr1]
          exact .builtIn hb
  | close hdepth hclose =>
      subst hs
      exact .close hdepth (lengthAt?_append (x := b :: x) r r' (Nat.le_of_eq hk.symm) hclose)
  | @operator _ s hmark hc ht hbuiltIn hclose =>
      obtain ⟨rfl, rfl⟩ := List.cons.inj hs
      obtain rfl : x = [] := List.eq_nil_of_length_eq_zero (by simpa using hk)
      refine .operator hmark ?_ (fun hdepth => ?_) ?_ (fun hdepth => ?_)
      · exact (hr.append [b]).test_eq_false (isTest_opensComment _) hc
      · exact (hr.append [b]).test_eq_false (isTest_opensTag _) (ht hdepth)
      · refine Bool.eq_false_iff.mpr fun h => ?_
        rw [Bool.and_eq_true] at h
        have hany := hr1.any_head? Nat.one_pos h.2
        rw [List.nil_append, h.1, hany] at hbuiltIn
        exact absurd hbuiltIn (by decide)
      · exact lengthAt?_eq_none (hclose hdepth) hr1

/-- Where no item stands, none stands before a rest that looks alike. -/
theorem itemAt?_eq_none_append {t : Terminator} {depth : Nat} {r r' : List UInt8}
    (h : itemAt? t depth r = none) (hr : r' = [] ∨ Alike r r') : itemAt? t depth r' = none := by
  rw [itemAt?_eq_none_iff] at h ⊢
  rcases hr with rfl | hr
  · exact .inl rfl
  · rcases h with rfl | ⟨hdepth, hcomment, htag⟩
    · exact .inl (hr.eq_nil rfl)
    · exact (hr.test (isTest_opensTag _) htag).imp_right fun htag' =>
        ⟨hdepth, hr.test_eq_false (isTest_opensComment _) hcomment, htag'⟩

/-! ## Expressions and interpolations -/

/-- Only the first byte of a lexeme can open or close a bracket. -/
theorem depthAfter_append {depth : Nat} {item : Item} {i : List UInt8} (hi : i ≠ [])
    (s s' : List UInt8) : depthAfter depth item (i ++ s) = depthAfter depth item (i ++ s') := by
  cases i with
  | nil => exact absurd rfl hi
  | cons b i => cases item <;> rfl

/-- **The lexemes of a closed expression are decided by its own text alone**, and those of any
other before a rest that shows nothing new, if the text ends there or the rest looks alike. -/
theorem lexFrom_append {t : Terminator} {depth : Nat} {x r r' : List UInt8}
    (h : (reach (lexFrom t depth (x ++ r))).length = x.length)
    (hend : (reach (lexFrom t depth (x ++ r))).closed = true ∨
      Quiet r r' ∧ (r' = [] ∨ Alike r r')) :
    lexFrom t depth (x ++ r') = lexFrom t depth (x ++ r) := by
  generalize hs : x ++ r = s at h hend ⊢
  induction depth, s using lex_induction (t := t) generalizing x with
  | stop depth s hnone =>
      rw [lexFrom_of_none hnone] at h hend ⊢
      obtain rfl : x = [] := List.eq_nil_of_length_eq_zero h.symm
      rw [List.nil_append] at hs ⊢
      subst hs
      rcases hend with hclosed | ⟨-, hend⟩
      · exact absurd hclosed (by simp)
      · exact lexFrom_of_none (itemAt?_eq_none_append hnone hend)
  | close depth s k hreads =>
      subst hs
      have hk := hreads.bounds
      rw [lexFrom_of_reads hreads, if_pos rfl, reach_cons, List.length_take] at h
      have hx : k = x.length := by
        rw [reach_nil] at h
        simp only [List.length_append] at h hk
        omega
      subst hx
      obtain ⟨hdepth, hclose⟩ := reads_close_iff.mp hreads
      have hreads' : Reads t depth (x ++ r') .close x.length :=
        .close hdepth (lengthAt?_append r r' (Nat.le_refl _) hclose)
      rw [lexFrom_of_reads hreads, lexFrom_of_reads hreads', if_pos rfl, if_pos rfl,
        List.take_left, List.take_left]
  | item depth s item k hreads hclose ih =>
      subst hs
      have hk := hreads.bounds
      rw [lexFrom_of_reads hreads, if_neg hclose] at h hend ⊢
      rw [reach_cons, List.length_take, Nat.min_eq_left hk.2] at h
      rw [reach_closed_cons hclose] at hend
      -- the item is a front `i` of `x`, and the lexing goes on over the rest `y`
      obtain ⟨i, y, rfl, rfl⟩ : ∃ i y, x = i ++ y ∧ i.length = k := exists_cut (by omega)
      rw [List.append_assoc] at hreads ih h hend hk
      rw [List.append_assoc, List.append_assoc]
      rw [List.drop_left] at ih h hend ⊢
      rw [List.length_append] at h
      have hquiet : Quiet (y ++ r) (y ++ r') := by
        rcases hend with hclosed | ⟨hquiet, -⟩
        · -- the lexeme stands in front of the last byte of the terminator
          obtain ⟨u, c, rfl, hc⟩ := exists_isCloser_of_closed (Nat.add_left_cancel h) hclosed
          simpa using ((Alike.of_closer hc r r').append u).toQuiet
        · exact hquiet.append y
      have hreads' := hreads.append hquiet
      have hi : i ≠ [] := List.ne_nil_of_length_pos hk.1
      rw [lexFrom_of_reads hreads', if_neg hclose, List.take_left, List.take_left, List.drop_left,
        depthAfter_append hi (y ++ r') (y ++ r), ih rfl (Nat.add_left_cancel h) hend]

theorem extent_append {t : Terminator} {x r r' : List UInt8}
    (h : (extent t (x ++ r)).length = x.length) (hr : Alike r r') :
    extent t (x ++ r') = extent t (x ++ r) :=
  congrArg reach (lexFrom_append h (.inr ⟨hr.toQuiet, .inr hr⟩))

/-- A closed expression is closed whatever follows. -/
theorem extent_append_of_closed {t : Terminator} {x r : List UInt8}
    (h : extent t (x ++ r) = ⟨x.length, true⟩) (r' : List UInt8) :
    extent t (x ++ r') = ⟨x.length, true⟩ := by
  rw [← h]
  exact congrArg reach
    (lexFrom_append (congrArg Extent.length h) (.inl (congrArg Extent.closed h)))

/-- An expression, cut out of the text, is the same expression. -/
theorem extent_cut {t : Terminator} {x r : List UInt8}
    (h : (extent t (x ++ r)).length = x.length) : extent t x = extent t (x ++ r) := by
  have hlex := lexFrom_append h (.inr ⟨.of_nil r, .inl rfl⟩)
  rw [List.append_nil] at hlex
  exact congrArg reach hlex

theorem opens_append {style : InterpolationStyle} {x : List UInt8} (hx : 2 ≤ x.length)
    (r r' : List UInt8) : style.opens (x ++ r) = style.opens (x ++ r') := by
  have hprefix {needle : List UInt8} (hn : needle.length ≤ 2) :
      needle.isPrefixOf (x ++ r) = needle.isPrefixOf (x ++ r') :=
    isPrefixOf_append (Nat.le_trans hn hx) r r'
  cases style <;> simp [InterpolationStyle.opens, InterpolationStyle.openers, hprefix]

theorem interpolationLength?_append {style : InterpolationStyle} {x r r' : List UInt8}
    (h : interpolationLength? style (x ++ r) = some x.length) (hr : Alike r r') :
    interpolationLength? style (x ++ r') = some x.length := by
  have hx := (interpolationLength?_bounds h).1
  unfold interpolationLength? at h
  split at h
  · next hopens =>
    have hlen := Option.some.inj h
    rw [List.drop_append_of_le_length hx] at hlen
    have hext : (extent (.ofInterpolation style.bracket) (x.drop 2 ++ r)).length
        = (x.drop 2).length := by
      rw [List.length_drop]
      omega
    rw [interpolationLength?, opens_append hx r' r, if_pos hopens,
      List.drop_append_of_le_length hx, extent_append hext hr, hlen]
  · exact absurd h (by simp)

end TemplateColoring.Expression

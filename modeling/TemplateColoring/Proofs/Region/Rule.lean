import TemplateColoring.Proofs.Expression.Unclosed
import TemplateColoring.Proofs.Region.Lookahead
import TemplateColoring.Region.Rule

/-!
# Rules that read a document answer for the text ahead

At a cursor in a document a rule reads the opener that stands at the front of the text ahead, and
it computes no negative difference on the way. It also finds the end that is told by the text, as
long as it can count the brackets on the way (`Cursor.readCloser?_agrees`). Either way the cursor
goes forward only.
-/

set_option autoImplicit false

namespace TemplateColoring.Cursor

open Ascii Bytes

variable {c c' : Cursor} {d : Dialect} {kind : RegionKind} {style : InterpolationStyle}

/-! ## Openers -/

theorem tagOpenerLength?_eq (hw : c.Within) (sigil : List UInt8) (anonymous : Bool) (b : Bracket) :
    c.tagOpenerLength? sigil anonymous b =
      .ok (Region.tagOpenerLength? sigil anonymous b c.ahead) := by
  have hstands : (c.current? == some b.openByte && c.standsAt 1 sigil) =
      (b.openByte :: sigil).isPrefixOf c.ahead := by
    show c.standsAt 0 (b.openByte :: sigil) = _
    rw [standsAt_eq, List.drop_zero]
  simp only [tagOpenerLength?, Region.tagOpenerLength?, hstands]
  split
  · next hp =>
    have hlen := (List.isPrefixOf_iff_prefix.mp hp).length_le
    rw [length_ahead, List.length_cons] at hlen
    have hnamed : (c.advance (1 + sigil.length)).Within := within_advance _ _
    have hrun := runLength_le_length isTagNameContinue (c.ahead.drop (1 + sigil.length))
    rw [List.length_drop, length_ahead] at hrun
    rw [current?_eq, hnamed.stepWhile_eq_advance, ahead_advance, advance_advance,
      hw.sub_position_advance (by omega), hw.sub_position_advance (by omega)]
    simp only [map_ok]
    split
    · rfl
    · split <;> rfl
  · rfl

theorem readTag?_eq (hw : c.Within) (sigil : List UInt8) (anonymous : Bool) (tags : TagStyle) :
    c.readTag? kind sigil anonymous tags =
      .ok ((Region.tagOpening? kind sigil anonymous tags c.ahead).map
        fun o => { o with start := c.position }) := by
  rw [readTag?, findSomeM?_eq_ok (g := fun b => (Region.tagOpenerLength? sigil anonymous b
    c.ahead).map fun length => { kind, bracket := b, length, start := c.position })]
  · rw [Region.tagOpening?, List.map_findSome?]
    congr 2
    funext b
    rw [Function.comp_apply, Option.map_map]
    rfl
  · intro b _
    rw [tagOpenerLength?_eq hw, map_ok]

theorem interpolation?_eq (c : Cursor) (style : InterpolationStyle) :
    c.interpolation? style = if style.opens c.ahead then some style.bracket else none := by
  have hstands : c.standsAt 0 = (·.isPrefixOf c.ahead) := by
    funext needle
    rw [standsAt_eq, List.drop_zero]
  have hbracket : ∀ opener ∈ style.openers,
      (opener.head?.bind Bracket.ofOpenByte?).getD .angle = style.bracket := by
    cases style <;> decide
  rw [interpolation?, hstands, InterpolationStyle.opens]
  cases h : style.openers.find? (·.isPrefixOf c.ahead) with
  | some opener =>
      have hmem := List.mem_of_find?_eq_some h
      have hopens := List.find?_some h
      rw [if_pos (List.any_eq_true.mpr ⟨opener, hmem, hopens⟩), Option.map_some,
        hbracket opener hmem]
  | none =>
      have hany : ¬style.openers.any (·.isPrefixOf c.ahead) = true := by
        simpa using List.find?_eq_none.mp h
      rw [if_neg hany, Option.map_none]

theorem markupNameAt?_eq (c : Cursor) : c.markupNameAt? = Region.markupNameAt? c.ahead := by
  cases hs : c.ahead with
  | nil => simp [markupNameAt?, Region.markupNameAt?, current?_eq, hs]
  | cons first s =>
      simp only [markupNameAt?, current?_of_ahead hs, peek?_one_of_ahead hs, peek?_two_of_ahead hs,
        Option.some_beq_some]
      cases s with
      | nil => simp [Region.markupNameAt?]
      | cons b s =>
          simp only [Region.markupNameAt?, List.head?_cons, List.tail_cons]
          -- a letter may start a name, and an exclamation mark may not
          have hletter : s.head?.any isAlpha = true → s.head?.any isMarkupNameStart = true := by
            cases s.head? with
            | none => exact id
            | some x => intro hx; simpa [isMarkupNameStart] using .inl (.inl (.inl hx))
          have hexclamation : isMarkupNameStart exclamation = false := by decide
          by_cases hfirst : first = less
          · simp only [hfirst, beq_self_eq_true, if_true, bne_self_eq_false, Bool.false_eq_true,
              if_false]
            split
            · rfl
            by_cases hb : b = exclamation
            · subst hb
              by_cases halpha : s.head?.any isAlpha = true
              · simp [halpha, hletter halpha]
              · simp [halpha, hexclamation]
            · simp [hb]
          · simp [hfirst]

theorem readMarkupTag?_eq (hw : c.Within) :
    c.readMarkupTag? = .ok ((Region.markupTagOpening? c.ahead).map
      fun o => { o with start := c.position }) := by
  rw [readMarkupTag?, markupNameAt?_eq, Region.markupTagOpening?]
  cases hname : Region.markupNameAt? c.ahead with
  | none => rfl
  | some n =>
      have hnamed : (c.advance n).Within := within_advance _ _
      have hrun := runLength_le_length isMarkupNameContinue (c.ahead.drop n)
      have hn := Region.markupName_length_pos hname
      rw [List.length_drop, length_ahead] at hrun
      have hend : (c.advance n).stepWhile isMarkupNameContinue =
          c.advance (n + runLength isMarkupNameContinue (c.ahead.drop n)) := by
        rw [hnamed.stepWhile_eq_advance, ahead_advance, advance_advance]
      dsimp only
      rw [hend, hw.sub_position_advance (by omega)]
      rfl

/-- **A rule reads the opener of the text ahead.** -/
theorem readOpener?_eq (hw : c.Within) (d : Dialect) (kind : RegionKind) :
    c.readOpener? d kind = .ok (c.opener? d kind) := by
  cases kind with
  | comment =>
      have hopens : c.opensComment = (·.opensComment c.ahead) := funext (opensComment_eq c)
      simp only [readOpener?, opener?, Region.openingOf?, Region.commentOpening?, hopens,
        Option.map_map]
      rfl
  | directiveStart | directiveEnd | macroStart | macroEnd => exact readTag?_eq hw _ _ _
  | interpolation =>
      rw [readOpener?, interpolation?_eq, opener?, Region.openingOf?, Region.interpolationOpening?]
      split <;> rfl
  | markupComment =>
      rw [readOpener?, standsAt_eq, List.drop_zero, opener?, Region.openingOf?,
        Region.markupCommentOpening?]
      split <;> rfl
  | markupTag => exact readMarkupTag?_eq hw
  | plain => rfl

theorem readOpenerBy?_eq (hw : c.Within) (rules : List RegionKind) (d : Dialect) :
    c.readOpenerBy? rules d = .ok ((Region.openingBy? rules d c.ahead).map
      fun o => { o with start := c.position }) := by
  rw [readOpenerBy?, findSomeM?_eq_ok (g := c.opener? d) fun kind _ => readOpener?_eq hw d kind,
    current?_eq, Region.openingBy?]
  split
  · rw [List.map_findSome?]
    rfl
  · rfl

/-- **What is read for an opener**: it starts at the cursor, has bytes, and ends in the document. -/
theorem bounds_of_readOpener? {o : Opener} (hw : c.Within)
    (h : c.readOpener? d kind = .ok (some o)) :
    o.kind = kind ∧ o.start = c.position ∧ 0 < o.length ∧ o.length ≤ c.left := by
  rw [readOpener?_eq hw] at h
  obtain ⟨o', ho', rfl⟩ := Option.map_eq_some_iff.mp (Except.ok.inj h)
  obtain ⟨hpos, hle⟩ := Region.openingOf?_bounds ho'
  rw [length_ahead] at hle
  exact ⟨Region.openingOf?_kind ho', rfl, Nat.lt_of_succ_lt hpos, hle⟩

/-! ## Closers -/

theorem any_opensTag_eq (c : Cursor) (tags : TagStyle) :
    tags.brackets.any c.opensTag = tags.opensTag c.ahead := by
  rw [TagStyle.opensTag]
  congr 1
  exact funext (opensTag_eq c)

theorem skipInterpolation?_agrees (c : Cursor) (style : InterpolationStyle) :
    Lexer.Agrees c.left (c.skipInterpolation? style)
      (.ok ((Expression.interpolationLength? style c.ahead).map c.advance)) := by
  rw [skipInterpolation?, interpolation?_eq, Expression.interpolationLength?]
  by_cases hopens : style.opens c.ahead = true
  · rw [if_pos hopens, if_pos hopens]
    have hskip := (skipExpression?_agrees (within_advance c 2)
      (.ofInterpolation style.bracket)).map fun passed => some passed.2
    rw [ahead_advance, map_ok, advance_advance] at hskip
    exact hskip.mono (by rw [left_advance]; omega)
  · rw [if_neg hopens, if_neg hopens]
    exact .refl _ _

theorem interpolationLength?_of_skip_none {b : UInt8} {s : List UInt8} (hs : c.ahead = b :: s)
    (h : c.skipInterpolation? style = .ok none) :
    Expression.interpolationLength? style (b :: s) = none := by
  have hlength := (skipInterpolation?_agrees c style).eq_of_ok h
  rw [hs] at hlength
  exact Option.map_eq_none_iff.mp hlength.symm

theorem interpolationLength?_of_skip_some {b : UInt8} {s : List UInt8} (hs : c.ahead = b :: s)
    (h : c.skipInterpolation? style = .ok (some c')) :
    ∃ length, Expression.interpolationLength? style (b :: s) = some length ∧
      c' = c.advance length ∧ c'.position = c.position + length := by
  have hskip := (skipInterpolation?_agrees c style).eq_of_ok h
  rw [hs] at hskip
  obtain ⟨length, hlength, rfl⟩ := Option.map_eq_some_iff.mp hskip.symm
  have hbounds := (Expression.interpolationLength?_bounds hlength).2
  rw [← hs, length_ahead] at hbounds
  have hw := within_of_current? (current?_of_ahead hs)
  exact ⟨length, hlength, rfl, hw.position_advance hbounds⟩

theorem skipPart?_agrees (hw : c.Within) (style : InterpolationStyle) :
    Lexer.Agrees c.left (c.skipPart? style)
      (.ok (c.advance ((Expression.interpolationLength? style c.ahead).getD
        (charLength c.ahead)))) := by
  have hskip := (skipInterpolation?_agrees c style).map (·.getD c.advanceChar)
  rw [map_ok, hw.advanceChar_eq] at hskip
  rw [skipPart?, hw.advanceChar_eq]
  cases hlength : Expression.interpolationLength? style c.ahead with
  | none => rwa [hlength] at hskip
  | some length => rwa [hlength] at hskip

theorem skipQuoted?_agrees (d : Dialect) (quote : UInt8) (hw : c.Within) :
    Lexer.Agrees c.left (skipQuoted? d quote c)
      (.ok (c.advance (Region.quotedLength d quote c.ahead))) := by
  rw [Region.quotedLength_eq]
  have hb := Region.bounded_quotedStep d quote
  fun_induction skipQuoted? d quote c with
  | case1 c hcur =>
      rw [(c.ahead_eq_nil_iff).mpr hcur]
      exact .of_eq (congrArg Except.ok hw.advance_zero.symm)
  | case2 c b hcur hq =>
      obtain ⟨s, hs⟩ := exists_ahead hcur
      obtain rfl := beq_iff_eq.mp hq
      rw [hs, walkThrough_close (Region.quotedStep_eq_none_iff.mpr (.inl rfl))]
      exact .refl _ _
  | case3 c b hcur hq htag =>
      obtain ⟨s, hs⟩ := exists_ahead hcur
      rw [any_opensTag_eq, hs] at htag
      rw [hs, walkThrough_stop (Region.quotedStep_eq_none_iff.mpr (.inr htag)) (by simpa using hq),
        hw.advance_zero]
      exact .refl _ _
  | case4 c b hcur _ _ e hpart =>
      obtain ⟨rfl, hlt⟩ := (skipPart?_agrees hw _).of_error hpart
      exact .tooLarge hlt
  | case5 c b hcur hq htag c' hpart ih =>
      obtain ⟨s, hs⟩ := exists_ahead hcur
      rw [any_opensTag_eq, hs] at htag
      obtain rfl := (skipPart?_agrees hw _).eq_of_ok hpart
      have hstep : Region.quotedStep d quote c.ahead =
          some ((Expression.interpolationLength? d.interpolation c.ahead).getD
            (charLength c.ahead)) := by
        rw [hs, Region.quotedStep, if_neg (by simp [htag, Bool.eq_false_iff.mpr hq])]
      have hrest := ih (within_advance _ _)
      rw [walkThrough_of_step hb (by simp [hs]) hstep]
      rw [ahead_advance, advance_advance] at hrest
      exact hrest.mono (by rw [left_advance]; omega)

theorem closeMarkup?_agrees (d : Dialect) (hw : c.Within) :
    Lexer.Agrees c.left (closeMarkup? d c) (.ok
      (⟨(c.advance (Region.markupExtent d c.ahead).length).position,
        (Region.markupExtent d c.ahead).closed⟩,
      c.advance (Region.markupExtent d c.ahead).length)) := by
  rw [Region.markupExtent_eq]
  have hb := Region.bounded_markupStep d
  fun_induction closeMarkup? d c with
  | case1 c hcur =>
      rw [(c.ahead_eq_nil_iff).mpr hcur]
      exact .of_eq (congrArg (fun c' : Cursor => Except.ok (Closing.mk c'.position false, c'))
        hw.advance_zero.symm)
  | case2 c b hcur hgreater =>
      obtain ⟨s, hs⟩ := exists_ahead hcur
      obtain rfl := beq_iff_eq.mp hgreater
      rw [hs, walkThrough_close (Region.markupStep_eq_none_iff.mpr (.inl rfl))]
      exact .refl _ _
  | case3 c b hcur hgreater hquote e hvalue =>
      obtain ⟨rfl, hlt⟩ := (skipQuoted?_agrees d b (within_advance c 1)).of_error hvalue
      rw [left_advance] at hlt
      exact .tooLarge (by omega)
  | case4 c b hcur hgreater hquote c' hvalue ih =>
      obtain ⟨s, hs⟩ := exists_ahead hcur
      have hquoted := (skipQuoted?_agrees d b (within_advance c 1)).eq_of_ok hvalue
      rw [ahead_advance, advance_advance, hs] at hquoted
      subst hquoted
      have hstep : Region.markupStep d c.ahead = some (1 + Region.quotedLength d b s) := by
        rw [hs, Region.markupStep, if_neg hgreater, if_pos hquote]
      have hrest := ih (within_advance _ _)
      rw [walkThrough_of_step hb (by simp [hs]) hstep]
      rw [ahead_advance, advance_advance] at hrest
      exact hrest.mono (by rw [left_advance]; omega)
  | case5 c b hcur hgreater hquote htag =>
      obtain ⟨s, hs⟩ := exists_ahead hcur
      rw [any_opensTag_eq, hs] at htag
      have hnone : Region.markupStep d (b :: s) = none :=
        Region.markupStep_eq_none_iff.mpr (.inr ⟨Bool.eq_false_iff.mpr hquote, htag⟩)
      rw [hs, walkThrough_stop hnone (by simpa using hgreater), hw.advance_zero]
      exact .refl _ _
  | case6 c b hcur hgreater hquote htag e hpart =>
      obtain ⟨rfl, hlt⟩ := (skipPart?_agrees hw _).of_error hpart
      exact .tooLarge hlt
  | case7 c b hcur hgreater hquote htag c' hpart ih =>
      obtain ⟨s, hs⟩ := exists_ahead hcur
      rw [any_opensTag_eq, hs] at htag
      obtain rfl := (skipPart?_agrees hw _).eq_of_ok hpart
      have hstep : Region.markupStep d c.ahead =
          some ((Expression.interpolationLength? d.interpolation c.ahead).getD
            (charLength c.ahead)) := by
        rw [hs, Region.markupStep, if_neg hgreater, if_neg hquote, if_neg htag]
      have hrest := ih (within_advance _ _)
      rw [walkThrough_of_step hb (by simp [hs]) hstep]
      rw [ahead_advance, advance_advance] at hrest
      exact hrest.mono (by rw [left_advance]; omega)

theorem closeThrough_eq (hw : c.Within) (needle : List UInt8) :
    c.closeThrough needle = (⟨(c.advance (through needle c.ahead).length).position,
      (through needle c.ahead).closed⟩, c.advance (through needle c.ahead).length) := by
  rw [closeThrough, hw.stepThrough_eq]

/-! ### The cursor goes forward only -/

theorem leadsTo_of_closeMarkup? {closing : Closing} (h : closeMarkup? d c = .ok (closing, c')) :
    closing.stop = c'.position ∧ c.LeadsTo c' := by
  fun_induction closeMarkup? d c with
  | case1 c | case5 c =>
      obtain ⟨rfl, rfl⟩ := Prod.mk.inj (Except.ok.inj h)
      exact ⟨rfl, .refl c⟩
  | case2 c =>
      obtain ⟨rfl, rfl⟩ := Prod.mk.inj (Except.ok.inj h)
      exact ⟨rfl, leadsTo_advance c 1⟩
  | case3 | case6 => exact absurd h (by simp)
  | case4 c b _ _ _ c'' hvalue ih =>
      exact ⟨(ih h).1,
        ((leadsTo_advance c 1).trans (leadsTo_of_skipQuoted? hvalue)).trans (ih h).2⟩
  | case7 c b hcur _ _ _ c'' hpart ih =>
      exact ⟨(ih h).1, (passes_of_skipPart? hcur hpart).toLeadsTo.trans (ih h).2⟩

/-- **What a rule does to find an end**, be the opener its own or not: it goes forward, and the end
is where the cursor is left. -/
theorem leadsTo_of_readCloser? {o : Opener} {closing : Closing}
    (h : c.readCloser? d kind o = .ok (closing, c')) :
    closing.stop = c'.position ∧ c.LeadsTo c' := by
  cases kind with
  | comment | markupComment =>
      obtain ⟨rfl, rfl⟩ := Prod.mk.inj (Except.ok.inj h)
      exact ⟨rfl, leadsTo_stepThrough _ c⟩
  | markupTag => exact leadsTo_of_closeMarkup? h
  | directiveStart | directiveEnd | macroStart | macroEnd | interpolation =>
      obtain ⟨⟨closed, c''⟩, hexpr, hc⟩ := exists_of_map_eq_ok h
      obtain ⟨rfl, rfl⟩ := Prod.mk.inj hc
      exact ⟨rfl, leadsTo_of_skipExpression? hexpr⟩
  | plain =>
      obtain ⟨rfl, rfl⟩ := Prod.mk.inj (Except.ok.inj h)
      exact ⟨rfl, .refl c⟩

/-! ### The end that is found -/

/-- **A rule finds the end that the text ahead tells**, unless it meets more brackets than it can
count. -/
theorem readCloser?_agrees (hw : c.Within) (d : Dialect) (kind : RegionKind) (o : Opener) :
    Lexer.Agrees c.left (c.readCloser? d kind o) (.ok (c.close d kind o)) := by
  cases kind with
  | comment | markupComment =>
      rw [readCloser?, closeThrough_eq hw]
      exact .refl _ _
  | markupTag => exact closeMarkup?_agrees d hw
  | directiveStart | directiveEnd | macroStart | macroEnd | interpolation =>
      exact (skipExpression?_agrees hw _).map _
  | plain =>
      exact .of_eq (congrArg (fun c' : Cursor => Except.ok (Closing.mk c'.position false, c'))
        hw.advance_zero.symm)

/-! ### Too many brackets -/

/-- The opener of `unclosed n`. -/
def unclosedOpener : Opener := ⟨⟨.interpolation, .angle, 2⟩, 0⟩

theorem readOpenerBy?_unclosed (n : Nat) :
    (start (Template.ofString (unclosed n)).bytes).readOpenerBy? (Dialect.rules {}) {} =
      .ok (some unclosedOpener) := by
  have hopens : Region.openingBy? (Dialect.rules {}) {}
      (Template.ofString (unclosed n)).bytes.toList = some unclosedOpener.toOpening := by
    rw [toList_unclosed]
    rfl
  rw [readOpenerBy?_eq (Nat.zero_le _), ahead_eq_drop]
  exact congrArg (fun o => Except.ok (Option.map _ o)) hopens

/-- A rule does not find the end of `unclosed n`. -/
theorem readCloser?_unclosed {n : Nat} (hn : Lexer.maxDepth < n) (d : Dialect) (o : Opener) :
    (ofOffset (Template.ofString (unclosed n)).bytes 2).readCloser? d .interpolation o =
      .error .tooLarge := by
  rw [readCloser?, closeExpression?, skipExpression?_unclosed hn, map_error]

end TemplateColoring.Cursor

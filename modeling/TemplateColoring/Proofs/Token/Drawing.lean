import TemplateColoring.Proofs.Region.Rule
import TemplateColoring.Proofs.Token.Characters
import TemplateColoring.Proofs.Token.Sink
import TemplateColoring.Token.Paint

/-!
# What is drawn

A part of a text is drawn from where the cursor stands, behind what is written already. `Draws` says
what comes of it in one go for all places where the text may start: the same runs are written
everywhere, and they are those of the coloring, or painting fails everywhere, as there are more
brackets ahead than can be counted. Parts that are drawn one behind the other are put together by
`Draws.behind`. So a host tag is drawn as its runs (`Paint.covers_markup?`).
-/

set_option autoImplicit false

namespace TemplateColoring

open Ascii Bytes Expression

variable {c c' : Cursor} {base start n : Nat} {style : InterpolationStyle}

namespace Paint

/-! ## Drawing -/

/-- What painting from a cursor on comes to, while the token at hand starts at `start`: wherever the
text starts, the same runs are written behind those that end at `start`, and they end where the
cursor is left; or painting fails, wherever the text starts. -/
structure Comes (start : Nat) (c : Cursor)
    (paint : Nat → Sink → Except Offset.Fault (Sink × Cursor))
    (drawn : Except Offset.Fault (List (Run TokenKind) × Cursor)) : Prop where
  writes : ∀ base front, base + c.limit ≤ Offset.max → Run.total front = start →
    paint base (.ofRuns base front) =
      drawn.map fun (runs, c') => (.ofRuns base (front ++ runs), c')
  ends : ∀ runs c', drawn = .ok (runs, c') → c.LeadsTo c' ∧ start + Run.total runs = c'.position

/-- **What is drawn from a cursor on** does not depend on where the text starts, and it is the given
runs, unless there are more brackets ahead than can be counted. -/
def Draws (start : Nat) (c : Cursor) (paint : Nat → Sink → Except Offset.Fault (Sink × Cursor))
    (runs : List (Run TokenKind)) : Prop :=
  ∃ drawn, Comes start c paint drawn ∧ Lexer.Agrees c.left (drawn.map (·.1)) (.ok runs)

namespace Draws

variable {paint paint' : Nat → Sink → Except Offset.Fault (Sink × Cursor)}
  {runs : List (Run TokenKind)}

/-- Only where the brackets are too many painting may fail. -/
theorem failed (hleft : Lexer.maxDepth < c.left)
    (h : ∀ base sink, paint base sink = .error .tooLarge) : Draws start c paint runs :=
  ⟨.error .tooLarge, ⟨fun base _ _ _ => h base _, fun _ _ hok => absurd hok (by simp)⟩,
    .tooLarge hleft⟩

theorem of_eq (h : Draws start c paint runs)
    (heq : ∀ base sink, paint' base sink = paint base sink) : Draws start c paint' runs := by
  obtain ⟨drawn, hcomes, hruns⟩ := h
  refine ⟨drawn, ⟨fun base front hbase hfront => ?_, hcomes.ends⟩, hruns⟩
  rw [heq, hcomes.writes base front hbase hfront]

/-- A single token, up to where the cursor is left. -/
theorem written (kind : TokenKind) (hw : c.Within) (hleads : c.LeadsTo c')
    (hstart : start ≤ c'.position) :
    Draws start c (fun base sink => (sink.writeTo? base kind start c'.position).map (·, c'))
      [⟨kind, c'.position - start⟩] := by
  refine ⟨.ok ([⟨kind, c'.position - start⟩], c'), ⟨fun base front hbase hfront => ?_, ?_⟩,
    .refl _ _⟩
  · have hle := (hleads.position_bounds hw).2
    rw [Sink.writeTo?_ofRuns hfront hstart (by omega)]
    rfl
  · rintro runs c'' ⟨⟩
    rw [Token.total_singleton]
    exact ⟨hleads, by omega⟩

/-- A token that takes `n` bytes from the cursor on. -/
theorem stretched (kind : TokenKind) (hw : c.Within) (hn : n ≤ c.left) :
    Draws c.position c (fun base sink => stretch? base sink kind c (c.advance n))
      [⟨kind, n⟩] := by
  have hposition : (c.advance n).position = c.position + n := hw.position_advance hn
  have hdraws := written kind hw (Cursor.leadsTo_advance c n)
    (hposition ▸ Nat.le_add_right c.position n)
  rwa [hposition, Nat.add_sub_cancel_left, ← hposition] at hdraws

/-- A mark of `n` bytes. -/
theorem marked (kind : TokenKind) (hw : c.Within) (hn : n ≤ c.left) :
    Draws c.position c
      (fun base sink => (sink.write? base kind c.position n).map (·, c.advance n))
      [⟨kind, n⟩] := by
  refine ⟨.ok ([⟨kind, n⟩], c.advance n), ⟨fun base front hbase hfront => ?_, ?_⟩, .refl _ _⟩
  · simp only [Cursor.Within, Cursor.left] at hw hn
    rw [Sink.write?_ofRuns hfront (by omega)]
    rfl
  · rintro runs c'' ⟨⟩
    rw [Token.total_singleton, hw.position_advance hn]
    exact ⟨Cursor.leadsTo_advance c n, rfl⟩

/-- What is drawn from a place on that the cursor comes to. -/
theorem after (h : Draws start c' paint runs) (hleads : c.LeadsTo c') :
    Draws start c paint runs := by
  obtain ⟨drawn, hcomes, hruns⟩ := h
  refine ⟨drawn, ⟨fun base front hbase => hcomes.writes base front (by rwa [hleads.limit]), ?_⟩,
    hruns.mono hleads.left⟩
  intro runs c'' hok
  exact ⟨hleads.trans (hcomes.ends runs c'' hok).1, (hcomes.ends runs c'' hok).2⟩

/-- What is drawn behind runs that are written first. -/
theorem behind {next : Nat} {front : List (Run TokenKind)}
    {f g : Nat → Sink → Except Offset.Fault (Sink × Cursor)} (h : Draws next c g runs)
    (hnext : start + Run.total front = next)
    (hpaint : ∀ base runs, base + c.limit ≤ Offset.max → Run.total runs = start →
      f base (.ofRuns base runs) = g base (.ofRuns base (runs ++ front))) :
    Draws start c f (front ++ runs) := by
  obtain ⟨drawn, hcomes, hruns⟩ := h
  refine ⟨drawn.map fun (runs, c') => (front ++ runs, c'),
    ⟨fun base before hbase hbefore => ?_, fun runs c' hok => ?_⟩, ?_⟩
  · have htotal : Run.total (before ++ front) = next := by
      rw [Token.total_append, hbefore, hnext]
    rw [hpaint base before hbase hbefore, hcomes.writes base _ hbase htotal]
    cases drawn with
    | error e => rfl
    | ok drawn => simp only [map_ok, List.append_assoc]
  · obtain ⟨⟨runs', c''⟩, hdrawn, hpair⟩ := exists_of_map_eq_ok hok
    obtain ⟨rfl, rfl⟩ := Prod.mk.inj hpair
    obtain ⟨hleads, htotal⟩ := hcomes.ends runs' _ hdrawn
    exact ⟨hleads, by rw [← htotal, ← hnext, Token.total_append, Nat.add_assoc]⟩
  · refine .trans (.of_eq ?_) (hruns.map (front ++ ·))
    cases drawn <;> rfl

end Draws

/-! ## Quoted values -/

section Quoted

variable {quote b : UInt8} {s : List UInt8} {length : Nat}

theorem drop_pred (hn : 0 < n) : s.drop (n - 1) = (b :: s).drop n := by
  obtain ⟨k, rfl⟩ := Nat.exists_eq_add_of_lt hn
  simp

theorem quotedFrom_of_interpolation (hb : ¬(b == quote) = true)
    (h : interpolationLength? style (b :: s) = some length) :
    Token.quotedFrom style quote [] n 0 (b :: s) =
      [⟨.string, n⟩, ⟨.interpolation, length⟩] ++
        Token.quotedFrom style quote [] 0 0 ((b :: s).drop length) := by
  have hpos := (interpolationLength?_bounds h).1
  rw [Token.quotedFrom, if_neg hb, h]
  dsimp only
  rw [Token.quotedFrom_eq_drop, drop_pred (Nat.zero_lt_of_lt hpos), Token.quotedFrom_eq_append]
  rfl

theorem quotedFrom_of_character (hb : ¬(b == quote) = true)
    (h : interpolationLength? style (b :: s) = none) :
    Token.quotedFrom style quote [] n 0 (b :: s) =
      Token.quotedFrom style quote [] (n + charLength (b :: s)) 0
        ((b :: s).drop (charLength (b :: s))) := by
  have hpos := (charLength_bounds (List.cons_ne_nil b s)).1
  rw [Token.quotedFrom, if_neg hb, h]
  dsimp only
  rw [Token.quotedFrom_eq_drop, drop_pred hpos]

end Quoted

theorem quoted?_eq (style : InterpolationStyle) (quote : UInt8) (base : Nat) (sink : Sink)
    (start : Nat) (c : Cursor) : quoted? style quote base sink start c =
      match c.current? with
      | none => (sink.writeTo? base .string start c.position).map (·, c)
      | some b =>
        if b == quote then
          (sink.writeTo? base .string start (c.advance 1).position).map (·, c.advance 1)
        else (do
          match ← c.skipInterpolation? style with
          | none => quoted? style quote base sink start c.advanceChar
          | some c' =>
            let sink ← sink.writeTo? base .string start c.position
            let sink ← sink.writeTo? base .interpolation c.position c'.position
            quoted? style quote base sink c'.position c') := by
  rw [quoted?]
  split
  · simp_all
  next b hb =>
  simp only [hb]
  split
  · rfl
  split
  · next e he => simp only [he, error_bind]
  · next he => simp only [he, ok_bind]
  · next c'' he =>
    simp only [he, ok_bind]
    cases sink.writeTo? base .string start c.position with
    | error e => rfl
    | ok sink =>
        simp only [ok_bind]
        cases sink.writeTo? base .interpolation c.position c''.position <;> rfl

/-- **A quoted value is drawn** as its runs. -/
theorem draws_quoted? (style : InterpolationStyle) (quote : UInt8) (start : Nat) (c : Cursor)
    (hw : c.Within) (hstart : start ≤ c.position) :
    Draws start c (fun base sink => quoted? style quote base sink start c)
      (Token.quotedFrom style quote [] (c.position - start) 0 c.ahead) := by
  induction hleft : c.left using Nat.strongRecOn generalizing start c with
  | _ m ih =>
      subst hleft
      cases hcur : c.current? with
      | none =>
          rw [(c.ahead_eq_nil_iff).mpr hcur]
          refine (Draws.written .string hw (.refl c) hstart).of_eq fun base sink => ?_
          rw [quoted?_eq, hcur]
      | some b =>
          obtain ⟨s, hs⟩ := Cursor.exists_ahead hcur
          have hpos := Cursor.left_pos hcur
          rw [hs]
          by_cases hb : (b == quote) = true
          · have hposition : (c.advance 1).position = c.position + 1 := hw.position_advance hpos
            have hdraws := Draws.written .string hw (Cursor.leadsTo_advance c 1)
              (show start ≤ (c.advance 1).position by omega)
            rw [hposition, Nat.succ_sub hstart, ← hposition] at hdraws
            rw [Token.quotedFrom, if_pos hb]
            refine hdraws.of_eq fun base sink => ?_
            rw [quoted?_eq, hcur]
            exact if_pos hb
          have hquoted (base : Nat) (sink : Sink) := quoted?_eq style quote base sink start c
          simp only [hcur, if_neg hb] at hquoted
          cases hskip : c.skipInterpolation? style with
          | error e =>
              obtain ⟨rfl, hlt⟩ := (Cursor.skipInterpolation?_agrees c style).of_error hskip
              refine .failed hlt fun base sink => ?_
              rw [hquoted, hskip, error_bind]
          | ok skipped =>
          simp only [hskip, ok_bind] at hquoted
          cases skipped with
          | none =>
              have hpasses := Cursor.passes_advanceChar hcur
              have hon := (hpasses.position_bounds hw).1
              have hrest := ih _ hpasses.left_lt start c.advanceChar (hpasses.within hw)
                (by omega) rfl
              have hdraws := (hrest.after hpasses.toLeadsTo).of_eq hquoted
              have hnone := Cursor.interpolationLength?_of_skip_none hs hskip
              have hstep := (charLength_bounds (List.cons_ne_nil b s)).2
              rw [← hs, Cursor.length_ahead] at hstep
              rw [hw.advanceChar_eq, hw.position_advance hstep, Cursor.ahead_advance, hs,
                Nat.sub_add_comm hstart] at hdraws
              rwa [quotedFrom_of_character hb hnone]
          | some c' =>
              dsimp only at hquoted
              have hpasses := Cursor.passes_of_skipInterpolation? hcur hskip
              obtain ⟨hon, hend⟩ := hpasses.position_bounds hw
              have hrest := ih _ hpasses.left_lt c'.position c' (hpasses.within hw) (Nat.le_refl _)
                rfl
              have hfront : start + Run.total [⟨TokenKind.string, c.position - start⟩,
                  ⟨.interpolation, c'.position - c.position⟩] = c'.position := by
                simp only [Run.total, totalOf_cons, totalOf_nil]
                omega
              have hdraws := (hrest.after hpasses.toLeadsTo).behind hfront
                (f := fun base sink => quoted? style quote base sink start c) ?_
              · obtain ⟨length, hlength, rfl, hposition⟩ :=
                  Cursor.interpolationLength?_of_skip_some hs hskip
                rw [Cursor.ahead_advance, hs, hposition, Nat.sub_self,
                  Nat.add_sub_cancel_left] at hdraws
                rwa [quotedFrom_of_interpolation hb hlength]
              · intro base runs hbase hruns
                have hpiece : Run.total (runs ++ [⟨TokenKind.string, c.position - start⟩]) =
                    c.position := by
                  rw [Token.total_append, Token.total_singleton, hruns]
                  omega
                rw [hquoted, Sink.writeTo?_ofRuns hruns hstart (by omega), ok_bind,
                  Sink.writeTo?_ofRuns hpiece hon (by omega), ok_bind, List.append_assoc]
                rfl

/-! ## The parts of a host tag -/

/-- **A part of a host tag is drawn** as its runs. -/
theorem draws_markupPart? (style : InterpolationStyle) {b : UInt8} {s : List UInt8}
    (hs : c.ahead = b :: s) :
    Draws c.position c (fun base sink => markupPart? style base sink c b)
      (Token.markupRunsAt style b s) := by
  have hcur := Cursor.current?_of_ahead hs
  have hw := Cursor.within_of_current? hcur
  have hpos := Cursor.left_pos hcur
  have hlen := Cursor.length_ahead c
  have hpeek := Cursor.peek?_one_of_ahead hs
  unfold Token.markupRunsAt
  by_cases hblank : isBlank b = true
  · have hrun := runLength_le_length isBlank c.ahead
    rw [if_pos hblank, ← hs]
    refine (Draws.stretched .text hw (hlen ▸ hrun)).of_eq fun base sink => ?_
    rw [markupPart?, if_pos hblank, hw.stepWhile_eq_advance]
  rw [if_neg hblank]
  by_cases hquote : isQuote b = true
  · have hposition : (c.advance 1).position = c.position + 1 := hw.position_advance hpos
    have hvalue := draws_quoted? style b c.position (c.advance 1) (Cursor.within_advance c 1)
      (hposition ▸ Nat.le_succ _)
    rw [hposition, Nat.add_sub_cancel_left, Cursor.ahead_advance, hs, List.drop_one,
      List.tail_cons] at hvalue
    rw [if_pos hquote]
    refine (hvalue.after (Cursor.leadsTo_advance c 1)).of_eq fun base sink => ?_
    rw [markupPart?, if_neg hblank, if_pos hquote]
  rw [if_neg hquote]
  by_cases hgreater : (b == greater) = true
  · rw [if_pos hgreater]
    refine (Draws.marked .markupTag hw hpos).of_eq fun base sink => ?_
    rw [markupPart?, if_neg hblank, if_neg hquote, if_pos hgreater]
  rw [if_neg hgreater]
  by_cases hsigil : ((b == slash || b == question) && s.head? == some greater) = true
  · have htwo : 2 ≤ c.left := by
      rw [← hlen, hs]
      cases s with
      | nil => exact absurd hsigil (by simp)
      | cons _ s => exact Nat.le_add_left 2 s.length
    rw [if_pos hsigil]
    refine (Draws.marked .markupTag hw htwo).of_eq fun base sink => ?_
    rw [markupPart?, if_neg hblank, if_neg hquote, if_neg hgreater, hpeek, if_pos hsigil]
  rw [if_neg hsigil]
  cases hskip : c.skipInterpolation? style with
  | error e =>
      obtain ⟨rfl, hlt⟩ := (Cursor.skipInterpolation?_agrees c style).of_error hskip
      refine .failed hlt fun base sink => ?_
      rw [markupPart?, if_neg hblank, if_neg hquote, if_neg hgreater, hpeek, if_neg hsigil, hskip,
        error_bind]
  | ok skipped =>
  have hpart (base : Nat) (sink : Sink) : markupPart? style base sink c b = skipped.elim
      (if isMarkupNameStart b then
        stretch? base sink .markupAttribute c (c.stepWhile isMarkupNameContinue)
      else stretch? base sink .text c c.advanceChar)
      (stretch? base sink .interpolation c) := by
    rw [markupPart?, if_neg hblank, if_neg hquote, if_neg hgreater, hpeek, if_neg hsigil, hskip,
      ok_bind]
    cases skipped <;> rfl
  cases skipped with
  | some c' =>
      have hpasses := Cursor.passes_of_skipInterpolation? hcur hskip
      have hon := (hpasses.position_bounds hw).1
      have hdraws := (Draws.written .interpolation hw hpasses.toLeadsTo hon).of_eq hpart
      obtain ⟨length, hlength, rfl, hposition⟩ :=
        Cursor.interpolationLength?_of_skip_some hs hskip
      rw [hposition, Nat.add_sub_cancel_left] at hdraws
      rwa [hlength]
  | none =>
      rw [Cursor.interpolationLength?_of_skip_none hs hskip]
      by_cases hname : isMarkupNameStart b = true
      · have hrun := runLength_le_length isMarkupNameContinue c.ahead
        have hdraws := Draws.stretched .markupAttribute hw (hlen ▸ hrun)
        rw [← hw.stepWhile_eq_advance, hs] at hdraws
        simp only [if_pos hname]
        exact hdraws.of_eq fun base sink => (hpart base sink).trans (if_pos hname)
      · have hchar := (charLength_bounds (List.cons_ne_nil b s)).2
        rw [← hs, hlen] at hchar
        have hdraws := Draws.stretched .text hw hchar
        rw [← hw.advanceChar_eq, hs] at hdraws
        simp only [if_neg hname]
        exact hdraws.of_eq fun base sink => (hpart base sink).trans (if_neg hname)

/-! ## Host tags -/

/-- **What is drawn from a cursor on, up to the end of the text**, does not depend on where the text
starts, and it is the given runs, unless there are more brackets ahead than can be counted. -/
def Fills (c : Cursor) (paint : Nat → Sink → Except Offset.Fault Sink)
    (runs : List (Run TokenKind)) : Prop :=
  ∃ drawn : Except Offset.Fault (List (Run TokenKind)),
    (∀ base front, base + c.limit ≤ Offset.max → Run.total front = c.position →
      paint base (.ofRuns base front) = drawn.map fun runs => .ofRuns base (front ++ runs)) ∧
    Lexer.Agrees c.left drawn (.ok runs)

theorem inside?_eq (style : InterpolationStyle) (base : Nat) (sink : Sink) (c : Cursor) :
    inside? style base sink c =
      match c.current? with
      | none => .ok sink
      | some b => markupPart? style base sink c b >>= fun (sink, c') =>
          inside? style base sink c' := by
  rw [inside?]
  split
  · next h => rw [h]
  next b hb =>
  rw [hb]
  split <;> next h => simp only [h, ok_bind, error_bind]

/-- **The inside of a host tag is drawn** as its runs. -/
theorem fills_inside? (style : InterpolationStyle) (c : Cursor) (hw : c.Within)
    (hlimit : c.limit ≤ Offset.max) :
    Fills c (fun base sink => inside? style base sink c)
      (cut (Token.cutMarkup style) () c.ahead).flatten := by
  induction hleft : c.left using Nat.strongRecOn generalizing c with
  | _ m ih =>
      subst hleft
      cases hcur : c.current? with
      | none =>
          rw [(c.ahead_eq_nil_iff).mpr hcur]
          refine ⟨.ok [], fun base front _ _ => ?_, .refl _ _⟩
          refine (inside?_eq style base _ c).trans ?_
          rw [hcur, map_ok, List.append_nil]
      | some b =>
          obtain ⟨s, hs⟩ := Cursor.exists_ahead hcur
          obtain ⟨part, hcomes, hpart⟩ := draws_markupPart? style hs
          have hinside (base : Nat) (sink : Sink) := inside?_eq style base sink c
          simp only [hcur] at hinside
          cases part with
          | error e =>
              refine ⟨.error e, fun base front hbase hfront => ?_, ?_⟩
              · exact (hinside base _).trans
                  (congrArg (· >>= _) (hcomes.writes base front hbase hfront))
              · obtain ⟨rfl, hlt⟩ := hpart.of_error rfl
                exact .tooLarge hlt
          | ok part =>
              obtain ⟨runs, c'⟩ := part
              obtain ⟨hleads, htotal⟩ := hcomes.ends runs c' rfl
              have hpasses : c.Passes c' := passes_of_markupPart? hcur
                (hcomes.writes 0 [⟨.text, c.position⟩] (by omega) (Token.total_singleton _ _))
              obtain ⟨rest, hwrites, hrest⟩ := ih _ hpasses.left_lt c' (hleads.within hw)
                (by rwa [hleads.limit]) rfl
              refine ⟨rest.map (runs ++ ·), fun base front hbase hfront => ?_, ?_⟩
              · have hnext : Run.total (front ++ runs) = c'.position := by
                  rw [Token.total_append, hfront, htotal]
                have hbehind := hwrites base (front ++ runs) (by rwa [hleads.limit]) hnext
                refine (hinside base _).trans
                  ((congrArg (· >>= _) (hcomes.writes base front hbase hfront)).trans
                    (hbehind.trans ?_))
                cases rest with
                | error e => rfl
                | ok rest => simp only [map_ok, List.append_assoc]
              · obtain rfl := hpart.eq_of_ok rfl
                have hall := (hrest.mono hleads.left).map (Token.markupRunsAt style b s ++ ·)
                rwa [hleads.eq_advance hw htotal, Cursor.ahead_advance, map_ok, hs,
                  ← Token.flatten_cutMarkup_cons, ← hs] at hall

/-- **What is drawn of a whole text** does not depend on where the text starts, and it is the given
runs, unless the text has more brackets than can be counted. -/
def Covers (s : List UInt8) (paint : Nat → Except Offset.Fault Sink)
    (runs : List (Run TokenKind)) : Prop :=
  ∃ drawn : Except Offset.Fault (List (Run TokenKind)),
    (∀ base, base + s.length ≤ Offset.max → paint base = drawn.map (.ofRuns base)) ∧
    Lexer.Agrees s.length drawn (.ok runs)

/-- The tokens of what is drawn. -/
theorem Covers.finish {s : List UInt8} {paint : Nat → Except Offset.Fault Sink}
    {runs : List (Run TokenKind)} (h : Covers s paint runs) :
    ∃ drawn : Except Offset.Fault (List (Run TokenKind)),
      (∀ base, base + s.length ≤ Offset.max →
        (paint base).map Sink.finish = drawn.map (Token.ofRuns base)) ∧
      Lexer.Agrees s.length drawn (.ok runs) := by
  obtain ⟨drawn, hpaint, hruns⟩ := h
  refine ⟨drawn, fun base hbase => ?_, hruns⟩
  rw [hpaint base hbase]
  cases drawn with
  | error e => rfl
  | ok runs => exact congrArg Except.ok (Sink.finish_ofRuns base runs)

theorem stepOver_eq (hw : c.Within) (p : UInt8 → Bool) :
    c.stepOver p = c.advance (runLength p (c.ahead.take 1)) := by
  rw [Cursor.stepOver, Cursor.current?_eq, runLength_take_one]
  split
  · rfl
  · exact hw.advance_zero.symm

/-- The cursor behind the opener of a host tag. -/
theorem markup_opener_eq {s : List UInt8} (hs : s.head? = some less) :
    (((Cursor.start s.toArray).advance 1).stepOver
      fun b => b == slash || b == question || b == exclamation).stepWhile isMarkupNameContinue =
      (Cursor.start s.toArray).advance (Token.markupOpenerLength s) := by
  obtain ⟨s, rfl⟩ := List.head?_eq_some_iff.mp hs
  rw [stepOver_eq (Cursor.within_advance _ _), Cursor.advance_advance,
    (Cursor.within_advance _ _).stepWhile_eq_advance, Cursor.advance_advance, Cursor.ahead_advance,
    Cursor.ahead_advance, Cursor.ahead_start, runLength_take_one, ← List.drop_drop]
  rfl

/-- **A host tag is drawn** as its runs. -/
theorem covers_markup? (style : InterpolationStyle) (s : List UInt8)
    (hlimit : s.length ≤ Offset.max) :
    Covers s (fun base => markup? style base s.toArray) (Token.markupRuns style s) := by
  have hstart := Cursor.within_start s.toArray
  have hleft : (Cursor.start s.toArray).left = s.length := rfl
  have hcur : (Cursor.start s.toArray).current? = s.head? := by
    rw [Cursor.current?_eq, Cursor.ahead_start]
  by_cases hs : s.head? = some less
  · have hopener := markup_opener_eq hs
    have hle := Token.markupOpenerLength_le s
    have hpos : Token.markupOpenerLength s ≠ 0 := by
      obtain ⟨s, rfl⟩ := List.head?_eq_some_iff.mp hs
      simp [Token.markupOpenerLength]
    have hposition : ((Cursor.start s.toArray).advance (Token.markupOpenerLength s)).position =
        Token.markupOpenerLength s := (hstart.position_advance (hleft ▸ hle)).trans (Nat.zero_add _)
    obtain ⟨drawn, hwrites, hruns⟩ := fills_inside? style
      ((Cursor.start s.toArray).advance (Token.markupOpenerLength s)) (Cursor.within_advance _ _)
      hlimit
    refine ⟨drawn.map (⟨.markupTag, Token.markupOpenerLength s⟩ :: ·), fun base hbase => ?_, ?_⟩
    · have hrest := hwrites base [⟨.markupTag, Token.markupOpenerLength s⟩] hbase
        ((Token.total_singleton _ _).trans hposition.symm)
      simp only [markup?, hcur, hs, beq_self_eq_true, if_true, hopener, hposition,
        Sink.push?_empty, ok_bind]
      refine hrest.trans ?_
      cases drawn <;> rfl
    · have hbehind : ((Cursor.start s.toArray).advance (Token.markupOpenerLength s)).left ≤
          s.length := by
        rw [Cursor.left_advance]
        omega
      have hall := (hruns.mono hbehind).map (⟨.markupTag, Token.markupOpenerLength s⟩ :: ·)
      rw [Cursor.ahead_advance, Cursor.ahead_start, map_ok] at hall
      rwa [Token.markupRuns, if_neg hpos]
  · have hzero : Token.markupOpenerLength s = 0 := by
      cases s with
      | nil => rfl
      | cons b s => exact if_neg (by simpa using hs)
    obtain ⟨drawn, hwrites, hruns⟩ := fills_inside? style _ hstart hlimit
    refine ⟨drawn, fun base hbase => ?_, ?_⟩
    · simp only [markup?, hcur]
      rw [if_neg (by simpa using hs)]
      exact hwrites base [] hbase rfl
    · rw [Cursor.ahead_start] at hruns
      rwa [Token.markupRuns, if_pos hzero, hzero, List.drop_zero]

end Paint

end TemplateColoring

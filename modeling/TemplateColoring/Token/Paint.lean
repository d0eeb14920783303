import TemplateColoring.Region.Sweep
import TemplateColoring.Token.Region
import TemplateColoring.Token.Sink

/-!
# Painting

To paint a text is to go through it once and to write its tokens into a sink on the way.  The text
starts at an offset `base` of its document, while the reader counts from the start of the text: the
place of every token is a sum of the two, which may be too large for an offset.
-/

set_option autoImplicit false

namespace TemplateColoring

open Ascii Expression

namespace Cursor

/-- Passes one byte, if it is of a class. -/
def stepOver (p : UInt8 → Bool) (c : Cursor) : Cursor :=
  if c.current?.any p then c.advance 1 else c

/-- The length of the opener at the front of an expression region's text, as if the text went on,
and what ends the expression behind it. -/
def expressionOpener (c : Cursor) (shape : Token.ExpressionRegion) : Nat × Terminator :=
  let bracket := (c.current?.bind Bracket.ofOpenByte?).getD .angle
  match shape with
  | .interpolation => (2, .ofInterpolation bracket)
  | .directive | .macroCall =>
    let named := ((c.advance 1).stepOver Token.isSigil).stepOver Token.isSigil
    ((named.stepWhile isTagNameContinue).position, .tag bracket)

end Cursor

namespace Paint

/-! ## Expression regions -/

/-- Writes an item of an expression. -/
def writeItem? (delimiter : TokenKind) (base : Nat) (bytes : Array UInt8) (sink : Sink)
    (x : Span Item) : Except Offset.Fault Sink := do
  let stop ← x.stop?
  let text := (bytes.extract x.start stop).toList
  sink.write? base (Token.lexemeKind delimiter ⟨x.kind, text⟩) x.start x.length

/-- Paints an expression region's text: its opener, its items, and what is left behind them. -/
def expression? (shape : Token.ExpressionRegion) (base : Nat) (bytes : Array UInt8) :
    Except Offset.Fault Sink := do
  let (opener, terminator) := (Cursor.start bytes).expressionOpener shape
  let opener := min opener bytes.size
  let sink ← Sink.push? {} shape.delimiter base opener
  let lexer : Lexer := { cursor := (Cursor.start bytes).moveTo opener, terminator }
  let (sink, lexer) ← lexer.fold? (writeItem? shape.delimiter base bytes) sink
  let tail := lexer.cursor.position
  let place ← Offset.add base tail
  sink.push? .other place (← Offset.sub bytes.size tail)

/-! ## Host tags -/

/-- Paints a quoted value, of which the opening quote is passed: the pieces of string, of which the
one at hand starts at `start`, and the interpolations between them. -/
def quoted? (style : InterpolationStyle) (quote : UInt8) (base : Nat) (sink : Sink) (start : Nat)
    (c : Cursor) : Except Offset.Fault (Sink × Cursor) :=
  match _ : c.current? with
  | none => (sink.writeTo? base .string start c.position).map (·, c)
  | some b =>
    if b == quote then
      (sink.writeTo? base .string start (c.advance 1).position).map (·, c.advance 1)
    else
      match _ : c.skipInterpolation? style with
      | .error e => .error e
      | .ok none => quoted? style quote base sink start c.advanceChar
      | .ok (some c') =>
        match (do
          let sink ← sink.writeTo? base .string start c.position
          sink.writeTo? base .interpolation c.position c'.position) with
        | .error e => .error e
        | .ok sink => quoted? style quote base sink c'.position c'
termination_by c.left
decreasing_by
  · exact (Cursor.passes_advanceChar ‹_›).left_lt
  · exact (Cursor.passes_of_skipInterpolation? ‹_› ‹_›).left_lt

theorem leadsTo_of_quoted? {style : InterpolationStyle} {quote : UInt8} {base start : Nat}
    {sink sink' : Sink} {c c' : Cursor}
    (h : quoted? style quote base sink start c = .ok (sink', c')) : c.LeadsTo c' := by
  fun_induction quoted? style quote base sink start c with
  | case1 sink start c =>
    obtain ⟨_, -, hs⟩ := exists_of_map_eq_ok h
    obtain ⟨-, rfl⟩ := Prod.mk.inj hs
    exact .refl c
  | case2 sink start c =>
    obtain ⟨_, -, hs⟩ := exists_of_map_eq_ok h
    obtain ⟨-, rfl⟩ := Prod.mk.inj hs
    exact Cursor.leadsTo_advance c 1
  | case3 | case5 => exact absurd h (by simp)
  | case4 sink start c b hb _ _ ih => exact (Cursor.leadsTo_advanceChar c).trans (ih h)
  | case6 sink start c b hb _ c'' hskip _ _ ih =>
    exact (Cursor.passes_of_skipInterpolation? hb hskip).trans (ih h)

/-- Paints what lies between two cursors. -/
def stretch? (base : Nat) (sink : Sink) (kind : TokenKind) (c c' : Cursor) :
    Except Offset.Fault (Sink × Cursor) :=
  (sink.writeTo? base kind c.position c'.position).map (·, c')

/-- Paints what starts with the byte `b` at the cursor, behind the opener of a host tag. -/
def markupPart? (style : InterpolationStyle) (base : Nat) (sink : Sink) (c : Cursor) (b : UInt8) :
    Except Offset.Fault (Sink × Cursor) :=
  if isBlank b then stretch? base sink .text c (c.stepWhile isBlank)
  else if isQuote b then quoted? style b base sink c.position (c.advance 1)
  else if b == greater then (sink.write? base .markupTag c.position 1).map (·, c.advance 1)
  else if (b == slash || b == question) && c.peek? 1 == some greater then
    (sink.write? base .markupTag c.position 2).map (·, c.advance 2)
  else do
    match ← c.skipInterpolation? style with
    | some c' => stretch? base sink .interpolation c c'
    | none =>
      if isMarkupNameStart b then
        stretch? base sink .markupAttribute c (c.stepWhile isMarkupNameContinue)
      else stretch? base sink .text c c.advanceChar

theorem passes_of_markupPart? {style : InterpolationStyle} {base : Nat} {sink sink' : Sink}
    {c c' : Cursor} {b : UInt8} (hb : c.current? = some b)
    (h : markupPart? style base sink c b = .ok (sink', c')) : c.Passes c' := by
  have upTo {α : Type} {x : Except Offset.Fault α} {c'' : Cursor} (hc : c.Passes c'')
      {f : α → Sink} (hx : x.map (fun a => (f a, c'')) = .ok (sink', c')) : c.Passes c' := by
    obtain ⟨_, -, hs⟩ := exists_of_map_eq_ok hx
    obtain ⟨-, rfl⟩ := Prod.mk.inj hs
    exact hc
  unfold markupPart? at h
  split at h
  · next hblank => exact upTo (Cursor.passes_stepWhile hb hblank) h
  split at h
  · exact (Cursor.passes_advance hb Nat.one_pos).then (leadsTo_of_quoted? h)
  split at h
  · exact upTo (Cursor.passes_advance hb Nat.one_pos) h
  split at h
  · exact upTo (Cursor.passes_advance hb Nat.two_pos) h
  obtain ⟨skipped, hskip, h⟩ := exists_of_bind_eq_ok h
  cases skipped with
  | some c'' => exact upTo (Cursor.passes_of_skipInterpolation? hb hskip) h
  | none =>
    dsimp only at h
    split at h
    · next hname =>
      exact upTo (Cursor.passes_stepWhile hb (by simp [isMarkupNameContinue, hname])) h
    · exact upTo (Cursor.passes_advanceChar hb) h

/-- Paints what follows the opener of a host tag. -/
def inside? (style : InterpolationStyle) (base : Nat) (sink : Sink) (c : Cursor) :
    Except Offset.Fault Sink :=
  match _ : c.current? with
  | none => .ok sink
  | some b =>
    match _ : markupPart? style base sink c b with
    | .error e => .error e
    | .ok (sink, c') => inside? style base sink c'
termination_by c.left
decreasing_by exact (passes_of_markupPart? ‹_› ‹_›).left_lt

/-- Paints a host tag's text. -/
def markup? (style : InterpolationStyle) (base : Nat) (bytes : Array UInt8) :
    Except Offset.Fault Sink :=
  let c := Cursor.start bytes
  if c.current? == some less then do
    let c := (c.advance 1).stepOver fun b => b == slash || b == question || b == exclamation
    let c := c.stepWhile isMarkupNameContinue
    let sink ← Sink.push? {} .markupTag base c.position
    inside? style base sink c
  else inside? style base {} c

end Paint

namespace Coloring

/-- The tokens that painting a text gives, where the text starts at an offset. -/
def paint? (c : Coloring) (base : Nat) (s : List UInt8) : Except Offset.Fault (List Token) :=
  Except.map Sink.finish <|
    match c with
    | uniform kind => Sink.push? {} kind base s.length
    | expression shape => Paint.expression? shape base s.toArray
    | markup style => Paint.markup? style base s.toArray

end Coloring

namespace Template

/-- The tokens that painting a region of the template gives. -/
def paint? (t : Template) (d : Dialect) (r : Region) : Except Offset.Fault (List Token) := do
  let stop ← r.stop?
  match t.slice? r.start stop with
  | some s => (Coloring.ofRegion d r.kind).paint? r.start s
  | none => .ok [⟨.text, r.start, r.length⟩]

/-- The regions of the template, as a sweep gives them out, with the tokens that are painted. -/
def highlight? (t : Template) (d : Dialect) : Except Offset.Fault (List Highlighted) := do
  (← t.divide? d).mapM fun r => (t.paint? d r).map fun tokens => ⟨r, tokens⟩

end Template

end TemplateColoring

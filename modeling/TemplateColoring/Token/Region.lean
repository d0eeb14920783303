import TemplateColoring.Token.Expression
import TemplateColoring.Token.Markup
import TemplateColoring.Region.Scanner

/-!
# Coloring the regions of a template

Each kind of region has its way of coloring.  `Template.color` colors one region of a template, and
`Template.highlight` divides a template into regions and colors each of them.
-/

set_option autoImplicit false

namespace TemplateColoring

/-- How a text is colored. -/
inductive Coloring
  /-- The whole text is one token. -/
  | uniform (kind : TokenKind)
  | expression (shape : Token.ExpressionRegion)
  | markup (style : InterpolationStyle)
deriving DecidableEq, Repr

namespace Coloring

/-- How the text of a region is colored. -/
def ofRegion (d : Dialect) : RegionKind → Coloring
  | .comment => uniform .comment
  | .directiveStart | .directiveEnd => expression .directive
  | .macroStart | .macroEnd => expression .macroCall
  | .interpolation => expression .interpolation
  | .markupComment => uniform .markupComment
  | .markupTag => markup d.interpolation
  | .plain => uniform .text

/-- The runs into which a text is colored. -/
def runs : Coloring → List UInt8 → List (Run TokenKind)
  | uniform kind, s => [⟨kind, s.length⟩]
  | expression shape, s => Token.expressionRuns shape s
  | markup style, s => Token.markupRuns style s

/-- The tokens of a text that starts at an offset. -/
def tokens (c : Coloring) (start : Nat) (s : List UInt8) : List Token :=
  Token.ofRuns start (c.runs s)

end Coloring

/-- A region with the tokens of its text. -/
structure Highlighted where
  region : Region
  tokens : List Token
deriving DecidableEq, Repr

namespace Template

/-- The tokens of a region of the template.  Where the template has no text at the region's place,
the region is one token of host text. -/
def color (t : Template) (d : Dialect) (r : Region) : List Token :=
  match t.slice? r.start r.stop with
  | some s => (Coloring.ofRegion d r.kind).tokens r.start s
  | none => [⟨.text, r.start, r.length⟩]

/-- The regions of the template with their tokens. -/
def highlight (t : Template) (d : Dialect) : List Highlighted :=
  (t.regions d).map fun r => ⟨r, t.color d r⟩

end Template

end TemplateColoring

import TemplateColoring.Region.Opening

/-!
# Where a region ends

The end of a region is sought behind its opening, by the rule of the region's kind alone, so that a
closing sequence of some other kind is never taken for this one.  A region without an end reaches
to the end of the text, unless the rule lets it stop in front of a tag.
-/

set_option autoImplicit false

namespace TemplateColoring

open Ascii Bytes

/-- What ends the expression behind an opening. -/
def Opening.terminator (o : Opening) : Expression.Terminator :=
  if o.kind = .interpolation then .ofInterpolation o.bracket else .tag o.bracket

namespace Region

/-! ## Host markup tags

A host tag ends at the first `>` outside the quoted values of attributes.  Interpolations are
passed as a whole.  A tag of the template language cuts the host tag short, inside a value too, and
becomes a region of its own. -/

/-- One step inside the quoted value of an attribute. -/
def quotedStep (d : Dialect) (quote : UInt8) : List UInt8 → Option Nat
  | [] => none
  | b :: s =>
    if b == quote || d.tags.opensTag (b :: s) then none
    else some ((Expression.interpolationLength? d.interpolation (b :: s)).getD
      (charLength (b :: s)))

/-- The length of what follows the opening quote of a value, the closing quote included.  The value
stops in front of a tag of the template language. -/
def quotedLength (d : Dialect) (quote : UInt8) (s : List UInt8) : Nat :=
  let value := walk (quotedStep d quote) s
  if (s.drop value).head? == some quote then value + 1 else value

/-- One step inside a host tag. -/
def markupStep (d : Dialect) : List UInt8 → Option Nat
  | [] => none
  | b :: s =>
    if b == greater then none
    else if isQuote b then some (1 + quotedLength d b s)
    else if d.tags.opensTag (b :: s) then none
    else some ((Expression.interpolationLength? d.interpolation (b :: s)).getD
      (charLength (b :: s)))

/-- How far a host tag reaches behind its opening. -/
def markupExtent (d : Dialect) (s : List UInt8) : Extent :=
  let inner := walk (markupStep d) s
  match s.drop inner with
  | [] => ⟨inner, false⟩
  | b :: _ => if b == greater then ⟨inner + 1, true⟩ else ⟨inner, true⟩

/-! ## All rules -/

/-- How far a region reaches behind its opening, by the rule of the given kind.  Plain text has no
end to look for. -/
def closingOf (d : Dialect) (kind : RegionKind) (o : Opening) (s : List UInt8) : Extent :=
  match kind with
  | .comment => through o.bracket.commentClose s
  | .markupComment => through [hyphen, hyphen, greater] s
  | .markupTag => markupExtent d s
  | .directiveStart | .directiveEnd | .macroStart | .macroEnd | .interpolation =>
    Expression.extent o.terminator s
  | .plain => ⟨0, false⟩

/-- How far the region that opens at the front of a text reaches, the opening included. -/
def extentOf (d : Dialect) (o : Opening) (s : List UInt8) : Extent :=
  let behind := closingOf d o.kind o (s.drop o.length)
  { behind with length := o.length + behind.length }

end Region

end TemplateColoring

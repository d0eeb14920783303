import TemplateColoring.Dialect
import TemplateColoring.Span

/-!
# Regions of a template

A template is divided into regions: comments, tags and interpolations of the template language,
comments and tags of the host markup, and the plain text between them.
-/

set_option autoImplicit false

namespace TemplateColoring

inductive RegionKind
  | comment
  | directiveStart
  | directiveEnd
  | macroStart
  | macroEnd
  | interpolation
  | markupComment
  | markupTag
  /-- Text that belongs to no other kind. -/
  | plain
deriving DecidableEq, Repr

namespace RegionKind

/-- All kinds, those that are looked for first in front and plain text last. -/
def all : List RegionKind :=
  [comment, directiveStart, directiveEnd, macroStart, macroEnd, interpolation, markupComment,
    markupTag, plain]

/-- The identifier under which an editor knows a kind of region. -/
def contentType : RegionKind → String
  | comment => "__ftl_comment"
  | directiveStart => "__ftl_directive_start"
  | directiveEnd => "__ftl_directive_end"
  | macroStart => "__ftl_macro_call_start"
  | macroEnd => "__ftl_macro_call_end"
  | interpolation => "__ftl_interpolation"
  | markupComment => "__xml_comment"
  | markupTag => "__xml_tag"
  | plain => "__dftl_partition_content_type"

/-- The kind with a content type. -/
def ofContentType? (id : String) : Option RegionKind := all.find? (·.contentType == id)

/-- The place of a kind in `all`. -/
def index (kind : RegionKind) : Nat := all.idxOf kind

def isPlain (kind : RegionKind) : Bool := kind == plain

/-- Whether a kind belongs to the template language, and not to the text around it. -/
def isTemplate : RegionKind → Bool
  | comment | directiveStart | directiveEnd | macroStart | macroEnd | interpolation => true
  | markupComment | markupTag | plain => false

end RegionKind

abbrev Region := Span RegionKind

namespace Dialect

/-- The kinds of region that open with a delimiter in a dialect, in the order in which their
openings are tried. -/
def rules (d : Dialect) : List RegionKind :=
  [.comment, .directiveStart, .directiveEnd, .macroStart, .macroEnd, .interpolation] ++
    if d.hostMarkup then [.markupComment, .markupTag] else []

/-- The kinds of region that a dialect has, plain text last. -/
def kinds (d : Dialect) : List RegionKind := d.rules ++ [.plain]

end Dialect

end TemplateColoring

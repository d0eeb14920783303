import TemplateColoring.Bytes.Cursor
import TemplateColoring.Region.Closing

/-!
# Rules at a cursor

The rules of the regions work on what is ahead of a cursor.  Here their answers are given as
offsets of the document: where an opener stands, and where the region behind an opener ends.
-/

set_option autoImplicit false

namespace TemplateColoring

/-- An opening delimiter at its place in a document. -/
structure Opener extends Opening where
  start : Nat
deriving DecidableEq, Repr

/-- The offset behind an opener, if there is such an offset. -/
def Opener.stop? (o : Opener) : Except Offset.Fault Nat := Offset.add o.start o.length

/-- Where a region ends, and whether its end was found there. -/
structure Closing where
  stop : Nat
  terminated : Bool
deriving DecidableEq, Repr

namespace Cursor

/-- The opener of a kind of region that stands at the cursor. -/
def opener? (c : Cursor) (d : Dialect) (kind : RegionKind) : Option Opener :=
  (Region.openingOf? d kind c.ahead).map fun o => { o with start := c.position }

/-- Where the region behind an opener ends, by the rule of a kind, if the inside of the region
starts at the cursor; and the cursor at that end.  The opener need not be one of that kind. -/
def close (c : Cursor) (d : Dialect) (kind : RegionKind) (o : Opener) : Closing × Cursor :=
  let e := Region.closingOf d kind o.toOpening c.ahead
  let c := c.advance e.length
  (⟨c.position, e.closed⟩, c)

end Cursor

end TemplateColoring

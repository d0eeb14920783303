import TemplateColoring.Region.Scanner
import TemplateColoring.Span.Search

/-!
# Restarting a scan

A scan can be taken up again in the middle of a template.  A `Restart` names an offset and, if that
lies inside a region, the kind and start of the region; the scan then restarts at the region's
start.  `Restart.derive` finds the restart for an offset in an earlier division of the template.
-/

set_option autoImplicit false

namespace TemplateColoring

/-- Where a scan is taken up. -/
structure Restart where
  offset : Nat := 0
  /-- The kind and the start of the region in which the offset lies. -/
  inside : Option (RegionKind × Nat) := none
deriving DecidableEq, Repr

namespace Restart

/-- The start of the template. -/
def start : Restart := {}

/-- An offset outside of any region. -/
def outside (offset : Nat) : Restart := { offset }

/-- The offset from which the scan really goes on. -/
def point (r : Restart) : Nat :=
  match r.inside with
  | some (_, start) => start
  | none => r.offset

/-- The restart for an offset, from the regions of an earlier scan.  In plain text the scan goes on
from the start of the text, and behind the last region from its end. -/
def derive (regions : Array Region) (offset : Nat) : Except Offset.Fault Restart := do
  let index ← Span.countBefore (fun r => r.stop?.map (· ≤ offset)) regions
  match regions[index]? with
  | some r =>
    if r.kind.isPlain then .ok (outside r.start)
    else .ok { offset, inside := some (r.kind, r.start) }
  | none =>
    match regions.back? with
    | some r => r.stop?.map outside
    | none => .ok start

end Restart

/-- A scanner at an offset where a region of some kind may be expected to open.  If one does, its
end is what the scanner looks for first; if not, it searches like any other. -/
def Scanner.resume (d : Dialect) (expected : Option RegionKind) (offset : Nat)
    (ahead : List UInt8) : Scanner :=
  match Region.opening? d ahead with
  | some o =>
    if expected = some o.kind then { offset, ahead, phase := .inside o } else { offset, ahead }
  | none => { offset, ahead }

namespace Template

/-- The offset in the template from which a restarted scan goes on. -/
def restartPoint (t : Template) (r : Restart) : Nat := min r.point t.length

/-- A scanner that takes up the scan of the template. -/
def scannerFrom (t : Template) (d : Dialect) (r : Restart) : Scanner :=
  let start := t.restartPoint r
  .resume d (r.inside.map (·.1)) start (t.bytes.extract start t.length).toList

/-- The regions of the template from a restart on. -/
def regionsFrom (t : Template) (d : Dialect) (r : Restart) : List Region :=
  (t.scannerFrom d r).collect d.rules d

end Template

end TemplateColoring

import TemplateColoring.Edit
import TemplateColoring.Region.Restart

/-!
# Keeping the regions of an edited document

A `RegionMap` holds the regions of a document, and `RegionMap.update` brings them up to date after
an edit.  The scan restarts a little in front of the edit and goes on until a region ends where,
behind the edit, a region of the old document began; from there on the old regions are kept, moved
by as much as the edit lengthens the text.
-/

set_option autoImplicit false

namespace TemplateColoring

/-- The regions of a document and its length. -/
structure RegionMap where
  regions : List Region
  length : Nat
deriving DecidableEq, Repr

namespace RegionMap

/-- The regions of an empty document. -/
def empty : RegionMap := ⟨[], 0⟩

/-- The regions of a document. -/
def ofTemplate (d : Dialect) (t : Template) : RegionMap := ⟨t.regions d, t.length⟩

/-- The region in which an offset lies. -/
def regionAt? (m : RegionMap) (offset : Nat) : Option Region :=
  m.regions.find? fun r => offset < r.stop

/-- How many bytes behind an offset can decide whether a region opens or ends there. -/
def lookahead : Nat := 4

/-- Whether the lengths an edit speaks of are those of the old and the new document. -/
def fits? (m : RegionMap) (t : Template) (e : Edit) : Except Offset.Fault Bool := do
  if (← e.oldStop?) ≤ m.length then
    return (← Offset.add (m.length - e.removed) e.inserted) == t.length
  else return false

/-- Puts two lists of regions together.  Plain text that ends the first is one region with plain
text that starts the second. -/
def join (front back : List Region) : List Region :=
  match front.getLast?, back with
  | some p, q :: rest =>
    if p.kind.isPlain && q.kind.isPlain then
      front.dropLast ++ { p with length := p.length + q.length } :: rest
    else front ++ back
  | _, _ => front ++ back

/-- Updates the regions by an edit whose lengths fit, and gives the stretch of the new document
that was scanned. -/
def splice (d : Dialect) (m : RegionMap) (t : Template) (e : Edit) : RegionMap × (Nat × Nat) :=
  let untouched := m.regions.takeWhile fun r => r.stop ≤ e.offset - lookahead
  let first := min (untouched.length - 1) (m.regions.length - 1)
  let restart := (m.regions[first]?.map Span.start).getD 0
  -- Where the byte at an offset of the new document, behind the edit, stood in the old one.
  let oldOffset (stop : Nat) := stop - e.inserted + e.removed
  let settled (stop : Nat) :=
    e.offset + e.inserted ≤ stop && m.regions.any (·.start == oldOffset stop)
  let rebuilt := (t.scannerFrom d (.outside restart)).collectUntil settled d.rules d
  let stop := (rebuilt.getLast?.map Span.stop).getD restart
  let kept :=
    if settled stop && !rebuilt.isEmpty then
      (m.regions.dropWhile (·.start < oldOffset stop)).map fun r =>
        { r with start := r.start - oldOffset stop + stop }
    else []
  (⟨join (m.regions.take first) rebuilt ++ kept, t.length⟩, (restart, stop))

/-- Brings the regions up to date with the document after an edit, and gives the stretch of the
new document whose regions were found anew.  If the edit does not fit the two documents, all
regions are. -/
def update (d : Dialect) (m : RegionMap) (t : Template) (e : Edit) :
    Except Offset.Fault (RegionMap × (Nat × Nat)) := do
  if (← m.fits? t e) && !m.regions.isEmpty then return m.splice d t e
  else return (ofTemplate d t, (0, t.length))

end RegionMap

end TemplateColoring

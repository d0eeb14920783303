import TemplateColoring.Region.Map
import TemplateColoring.Region.Sweep

/-!
# Revising regions in 64-bit numbers

`RegionMap.update` says which regions an edit leaves, which are found anew and which are kept.
`RegionMap.revise?` finds them as a machine does: by halving, with a sweep that is asked for one
region after the other, and with sums and differences that have to fit in 64 bits.  Nothing is known
of the edit: it may speak of bytes that never changed.
-/

set_option autoImplicit false

namespace TemplateColoring

/-- Takes in the regions that a sweep of the new document gives out, up to the first that ends
behind the edit where, before the edit, one of the old regions began.  Gives the regions taken in
and, moved, the old ones from there on.  `old` are the old regions that may still be kept. -/
def Edit.resync? (d : Dialect) (e : Edit) (old : List Region) (s : Sweep) :
    Except Offset.Fault (List Region × List Region) :=
  match _ : s.next? d.rules d with
  | .error fault => .error fault
  | .ok (none, _) => .ok ([], [])
  | .ok (some r, s') => do
    let stop ← r.stop?
    if stop < (← e.newStop?) then
      (e.resync? d old s').map fun (found, kept) => (r :: found, kept)
    else
      let oldStop ← Offset.add (← Offset.sub stop e.inserted) e.removed
      let old := old.dropWhile (·.start < oldStop)
      if old.head?.any (·.start == oldStop) then
        let growth ← e.growth?
        return ([r], old.filterMap (·.shift? growth))
      else (e.resync? d old s').map fun (found, kept) => (r :: found, kept)
termination_by s.rank
decreasing_by all_goals exact Sweep.rank_lt_of_next? ‹_›

namespace RegionMap

/-- The regions of a document, as a sweep gives them out. -/
def ofTemplate? (d : Dialect) (t : Template) : Except Offset.Fault RegionMap :=
  (t.divide? d).map fun regions => ⟨regions, t.length⟩

/-- The region in which an offset lies, found by halving. -/
def lookup? (m : RegionMap) (offset : Nat) : Except Offset.Fault (Option Region) := do
  let index ← Span.countBefore (fun r => r.stop?.map (· ≤ offset)) m.regions.toArray
  return m.regions[index]?

/-- Puts two lists of regions together like `join`, if there is an offset where the plain text that
is put together ends. -/
def join? (front back : List Region) : Except Offset.Fault (List Region) :=
  match front.getLast?, back with
  | some p, q :: rest =>
    if p.kind.isPlain && q.kind.isPlain then do
      let length ← Offset.add p.length q.length
      return front.dropLast ++ { p with length } :: rest
    else .ok (front ++ back)
  | _, _ => .ok (front ++ back)

/-- Where regions that start at an offset stop. -/
def stopFrom? (start : Nat) (regions : List Region) : Except Offset.Fault Nat :=
  match regions.getLast? with
  | some r => r.stop?
  | none => .ok start

/-- Brings the regions up to date with the document after an edit, like `update`. -/
def revise? (d : Dialect) (m : RegionMap) (t : Template) (e : Edit) :
    Except Offset.Fault (RegionMap × (Nat × Nat)) := do
  if (← m.fits? t e) && !m.regions.isEmpty then
    let old := m.regions.toArray
    let untouched ← Span.countBefore (fun r => r.stop?.map (· ≤ e.offset - lookahead)) old
    let first := min (untouched - 1) (m.regions.length - 1)
    let restart := (m.regions[first]?.map Span.start).getD 0
    let oldStop ← e.oldStop?
    let reusable ← Span.countBefore (fun r => .ok (r.start < oldStop)) old
    let s ← t.sweepFrom? d (.outside restart)
    let (found, kept) ← e.resync? d (m.regions.drop reusable) s
    let stop ← stopFrom? restart found
    let regions ← join? (m.regions.take first) found
    return (⟨regions ++ kept, t.length⟩, (restart, stop))
  else return (← ofTemplate? d t, (0, t.length))

end RegionMap

end TemplateColoring

import TemplateColoring.Offset

/-!
# Tallies

A tally counts what the highlighting passes over a document did, and adds up how long it took.
Times are in nanoseconds.
-/

set_option autoImplicit false

namespace TemplateColoring

structure Tally where
  /-- The time spent on dividing templates into regions. -/
  scanTime : Nat := 0
  /-- The time spent on coloring regions. -/
  colorTime : Nat := 0
  /-- The longest time spent on one region. -/
  longestTime : Nat := 0
  /-- How many regions were colored. -/
  colored : Nat := 0
  /-- How many tokens that made. -/
  tokens : Nat := 0
  /-- How often the tokens of a region were found in the cache. -/
  hits : Nat := 0
  /-- How often they were not. -/
  misses : Nat := 0
deriving DecidableEq, Repr

namespace Tally

/-- Counts a scan. -/
def scan (t : Tally) (time : Nat) : Tally := { t with scanTime := t.scanTime + time }

/-- Counts the coloring of a region, if the region and its tokens can still be counted. -/
def color? (t : Tally) (time tokens : Nat) : Except Offset.Fault Tally := do
  let colored ← Offset.add t.colored 1
  let tokens ← Offset.add t.tokens tokens
  return { t with
    colorTime := t.colorTime + time
    longestTime := max t.longestTime time
    colored
    tokens }

/-- Counts a region whose tokens were found, if it can still be counted. -/
def hit? (t : Tally) : Except Offset.Fault Tally :=
  (Offset.add t.hits 1).map fun hits => { t with hits }

/-- Counts a region whose tokens were not found, if it can still be counted. -/
def miss? (t : Tally) : Except Offset.Fault Tally :=
  (Offset.add t.misses 1).map fun misses => { t with misses }

/-- The time spent on a region on average, rounded down; zero for no regions, or for more than can
be counted in 32 bits. -/
def averageTime (t : Tally) : Nat := if t.colored ≤ 0xFFFFFFFF then t.colorTime / t.colored else 0

/-- The share of `part` in `total`, and zero if there is nothing to share. -/
def share (part total : Nat) : Float :=
  if total = 0 then 0.0 else part.toUInt64.toFloat / total.toUInt64.toFloat

/-- The share of regions whose tokens were found in the cache, if the regions can be counted. -/
def hitRatio? (t : Tally) : Except Offset.Fault Float :=
  (Offset.add t.hits t.misses).map (share t.hits)

end Tally

end TemplateColoring

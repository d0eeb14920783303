import TemplateColoring.Benchmark.Size
import TemplateColoring.Session.Tally
import TemplateColoring.Total

/-!
# Logs of measurements

A log gathers the times that passes over documents and updates after edits took, with counts of
what they produced.  Times are in nanoseconds.
-/

set_option autoImplicit false

namespace TemplateColoring.Benchmark

/-- The average of times, rounded down; zero for no times, or for more than can be counted in 32
bits. -/
def averageOf (total count : Nat) : Nat := if count ≤ 0xFFFFFFFF then total / count else 0

/-- Passes of one sort over documents. -/
structure PassLog where
  /-- The size of each document and the time its pass took. -/
  times : List (Size × Nat) := []
  /-- How many regions or tokens the passes produced. -/
  items : Nat := 0
  bytes : Nat := 0
deriving DecidableEq, Repr

namespace PassLog

/-- Adds a pass over a document, if items and bytes can still be counted. -/
def record? (p : PassLog) (bytes time items : Nat) : Except Offset.Fault PassLog := do
  let items ← Offset.add p.items items
  let total ← Offset.add p.bytes bytes
  return { times := p.times ++ [(Size.ofBytes bytes, time)], items, bytes := total }

/-- The times of passes over documents of one size. -/
def timesOf (p : PassLog) (size : Size) : List Nat :=
  p.times.filterMap fun (s, time) => if s = size then some time else none

/-- The sizes of which there are documents. -/
def sizes (p : PassLog) : List Size := Size.all.filter fun size => !(p.timesOf size).isEmpty

def averageTime (p : PassLog) (size : Size) : Nat :=
  averageOf (totalOf id (p.timesOf size)) (p.timesOf size).length

def longestTime (p : PassLog) (size : Size) : Nat := (p.timesOf size).foldl max 0

def totalTime (p : PassLog) : Nat := totalOf (·.2) p.times

/-- The throughput in millions of bytes a second, and zero if no time has passed. -/
def throughput (p : PassLog) : Float :=
  let time := p.totalTime
  let seconds := (time / 1000000000).toUInt64.toFloat +
    (time % 1000000000).toUInt64.toFloat / 1000000000.0
  if seconds > 0.0 then p.bytes.toUInt64.toFloat / seconds / 1000000.0 else 0.0

end PassLog

/-- Updates after edits. -/
structure EditLog where
  edits : Nat := 0
  totalTime : Nat := 0
  longestTime : Nat := 0
  /-- How many bytes were scanned again. -/
  damaged : Nat := 0
deriving DecidableEq, Repr

namespace EditLog

/-- Adds an update, if updates and bytes can still be counted. -/
def record? (e : EditLog) (time damaged : Nat) : Except Offset.Fault EditLog := do
  let edits ← Offset.add e.edits 1
  let damaged ← Offset.add e.damaged damaged
  return {
    edits
    totalTime := e.totalTime + time
    longestTime := max e.longestTime time
    damaged }

def averageTime (e : EditLog) : Nat := averageOf e.totalTime e.edits

end EditLog

/-- All that is measured. -/
structure Log where
  scans : PassLog := {}
  colorings : PassLog := {}
  edits : EditLog := {}
  /-- The share of regions whose tokens were found in a cache. -/
  hitRatio : Option Float := none
  /-- Whether time is being taken. -/
  isStarted : Bool := false

namespace Log

def start (l : Log) : Log := { l with isStarted := true }

def scan? (l : Log) (bytes time regions : Nat) : Except Offset.Fault Log :=
  (l.scans.record? bytes time regions).map fun scans => { l with scans }

def coloring? (l : Log) (bytes time tokens : Nat) : Except Offset.Fault Log :=
  (l.colorings.record? bytes time tokens).map fun colorings => { l with colorings }

def edit? (l : Log) (time damaged : Nat) : Except Offset.Fault Log :=
  (l.edits.record? time damaged).map fun edits => { l with edits }

/-- Notes how often a cache was of use, if it was asked at all. -/
def cache? (l : Log) (hits misses : Nat) : Except Offset.Fault Log :=
  (Offset.add hits misses).map fun total =>
    if total = 0 then l else { l with hitRatio := some (Tally.share hits total) }

end Log

end TemplateColoring.Benchmark

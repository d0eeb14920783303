import TemplateColoring.Benchmark.Log
import TemplateColoring.Decimal.Fixed

/-!
# Reports on measurements

`Log.report` writes a log as text, and `Log.issues` lists where the measurements fall short of what
an editor needs to respond at once.
-/

set_option autoImplicit false

namespace TemplateColoring.Benchmark

/-! ## The report -/

/-- Nanoseconds as whole microseconds. -/
def micros (time : Nat) : String := toString (time / 1000) ++ "\u00b5s"

/-- Nanoseconds as whole milliseconds. -/
def millis (time : Nat) : String := toString (time / 1000000) ++ "ms"

/-- A share as a percentage with one decimal place. -/
def percent (share : Float) : String := Decimal.fixed 1 (share * 100.0) ++ "%"

/-- The line on documents of one size. -/
def PassLog.sizeLine (p : PassLog) (size : Size) : String :=
  "  " ++ size.name ++ ": " ++ toString (p.timesOf size).length ++ " documents, avg " ++
    micros (p.averageTime size) ++ ", max " ++ micros (p.longestTime size) ++ "\n"

/-- The lines on passes of one sort. -/
def PassLog.lines (p : PassLog) (title unit : String) : String :=
  title ++ ":\n" ++ String.join (p.sizes.map p.sizeLine) ++
    "  " ++ toString p.items ++ " " ++ unit ++ " produced\n" ++
    "  Throughput: " ++ Decimal.fixed 1 p.throughput ++ " MB/s\n\n"

/-- The lines on updates after edits. -/
def EditLog.lines (e : EditLog) : String :=
  "Incremental Re-partitioning:\n" ++
    "  " ++ toString e.edits ++ " edits, avg " ++ micros e.averageTime ++ ", max " ++
    micros e.longestTime ++ ", " ++ toString e.damaged ++ " bytes re-scanned\n"

/-- A log as text. -/
def Log.report (l : Log) : String :=
  "=== Performance Baseline Report ===\n\n" ++
    l.scans.lines "Partitioning Performance" "partitions" ++
    l.colorings.lines "Coloring Performance" "tokens" ++
    l.edits.lines ++
    (match l.hitRatio with
      | some ratio => "  Cache Hit Ratio: " ++ percent ratio ++ "\n"
      | none => "") ++
    "\n=== End Report ===\n"

/-! ## The requirements -/

/-- The time that an update after an edit may take on average. -/
def editTimeLimit : Nat := 50000000

/-- The share of regions, in percent, whose tokens are to be found in the cache. -/
def leastHitPercent : Nat := 70

/-- A requirement that is not met. -/
inductive Issue
  /-- Passes of a sort over documents of a size take too long on average. -/
  | slowPasses (sort : String) (size : Size) (limit average : Nat)
  /-- Updates after edits take too long on average. -/
  | slowEdits (average : Nat)
  /-- The cache is of use too rarely. -/
  | fewHits (ratio : Float)

def Issue.message : Issue → String
  | slowPasses sort size limit average =>
    sort ++ " of " ++ size.name ++ " documents exceeds " ++ millis limit ++ " requirement: " ++
      millis average
  | slowEdits average =>
    "Incremental re-partitioning exceeds " ++ millis editTimeLimit ++ " requirement: " ++
      millis average
  | fewHits ratio =>
    "Cache hit ratio below " ++ toString leastHitPercent ++ "% requirement: " ++ percent ratio

/-- The sizes of documents for which passes are too slow. -/
def PassLog.issues (p : PassLog) (sort : String) : List Issue :=
  p.sizes.filterMap fun size => do
    let limit ← size.timeLimit?
    if limit < p.averageTime size then some (.slowPasses sort size limit (p.averageTime size))
    else none

/-- All requirements that are not met. -/
def Log.issues (l : Log) : List Issue :=
  l.scans.issues "Partitioning" ++ l.colorings.issues "Coloring" ++
    (if 0 < l.edits.edits ∧ editTimeLimit < l.edits.averageTime then
      [.slowEdits l.edits.averageTime] else []) ++
    match l.hitRatio with
    | some ratio => if ratio < leastHitPercent.toUInt64.toFloat / 100.0 then [.fewHits ratio] else []
    | none => []

/-- The texts of the requirements that are not met, in the order of their characters. -/
def Log.messages (l : Log) : List String :=
  (l.issues.map Issue.message).mergeSort fun a b => a ≤ b

end TemplateColoring.Benchmark

/-!
# Sizes of documents

Times are compared among documents of like size only.  A size comes with the time that a pass over
a document of this size may take on average.  Times are in nanoseconds.
-/

set_option autoImplicit false

namespace TemplateColoring.Benchmark

inductive Size
  | small
  | medium
  | large
  | extraLarge
deriving DecidableEq, Repr

namespace Size

/-- All sizes, the smallest first. -/
def all : List Size := [small, medium, large, extraLarge]

/-- The size of a document by its number of bytes. -/
def ofBytes (bytes : Nat) : Size :=
  if bytes ≤ 10 * 1024 then small
  else if bytes ≤ 100 * 1024 then medium
  else if bytes ≤ 1024 * 1024 then large
  else extraLarge

def name : Size → String
  | small => "Small (< 10KB)"
  | medium => "Medium (10KB - 100KB)"
  | large => "Large (100KB - 1MB)"
  | extraLarge => "Extra Large (> 1MB)"

/-- The time that a pass may take on average. -/
def timeLimit? : Size → Option Nat
  | small | medium => some 100000000
  | large => some 1000000000
  | extraLarge => none

end Size

end TemplateColoring.Benchmark

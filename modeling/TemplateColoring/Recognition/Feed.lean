/-!
# Feeds

The content of a document comes in as a feed: a sequence of reads, each of some bytes, that ends
with the end of the content or with a failure.  Readers of a feed take it line by line.
-/

set_option autoImplicit false

namespace TemplateColoring

structure Feed where
  /-- What the reads yield.  A read that yields nothing ends the line at hand, or else the feed. -/
  reads : List (List UInt8)
  /-- Why the read after the last one fails, unless it finds the end. -/
  failure : Option String := none
deriving DecidableEq, Repr

namespace Feed

/-- A feed that hands out all bytes at once. -/
def ofBytes (bytes : List UInt8) : Feed := { reads := [bytes] }

/-- `linesFrom failure line marks` is what the feed still yields, where `line` is passed already, last
byte first.  A byte comes as itself, and a read without bytes as nothing: it ends the line at hand,
and the feed if no line is. -/
def linesFrom (failure : Option String) (line : List UInt8) :
    List (Option UInt8) → List (Except String (List UInt8))
  | [] =>
    match failure with
    | some reason => [.error reason]
    | none => if line.isEmpty then [] else [.ok line.reverse]
  | none :: marks => if line.isEmpty then [] else .ok line.reverse :: linesFrom failure [] marks
  | some b :: marks =>
    if b == 0x0A then .ok (b :: line).reverse :: linesFrom failure [] marks
    else linesFrom failure (b :: line) marks

/-- What the feed yields line by line: the lines, each with its newline if it has one, and the
failure if there is one.  A line in which the feed fails is lost. -/
def lines (f : Feed) : List (Except String (List UInt8)) :=
  linesFrom f.failure []
    (f.reads.flatMap fun bytes => if bytes.isEmpty then [none] else bytes.map some)

end Feed

end TemplateColoring

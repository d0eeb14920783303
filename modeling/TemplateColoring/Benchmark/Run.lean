import TemplateColoring.Benchmark.Log
import TemplateColoring.Region.Revision
import TemplateColoring.Session.Basic

/-!
# Running a benchmark

The benchmark divides and colors sample templates of given sizes and edits each in its middle.  A
sample is a block of text repeated, in which all kinds of regions occur.  The log holds the counts;
no time passes here.
-/

set_option autoImplicit false

namespace TemplateColoring.Benchmark

/-- The block of which samples are made. -/
def block : String :=
  "<#-- Product listing -->\n" ++
  "<div class=\"products\" data-count=\"$\x7bproducts?size\x7d\">\n" ++
  "  <#list products as product>\n" ++
  "    [#if product.price > 100 && product.name != \"]\"]\n" ++
  "      <@ui.card title=product.name price=(product.price * 1.2)/>\n" ++
  "    [#else]\n" ++
  "      <span class='plain'>$\x7bproduct.name!\"unnamed\"\x7d &mdash; #\x7bproduct.price\x7d</span>\n" ++
  "    [/#if]\n" ++
  "  </#list>\n" ++
  "  <!-- static footer -->\n" ++
  "</div>\n"

/-- The largest number of bytes that a sample can have. -/
def maxSampleBytes : Nat := 0x7FFFFFFFFFFFFFFF

/-- A sample of at least so many bytes, and of one block at least, if a text can be as long. -/
def sample? (bytes : Nat) : Except Offset.Fault String :=
  let blocks := max 1 ((bytes + block.utf8ByteSize - 1) / block.utf8ByteSize)
  if blocks * block.utf8ByteSize ≤ maxSampleBytes then
    .ok (String.join (List.replicate blocks block))
  else .error .tooLarge

/-- What the benchmark inserts in the middle of a sample. -/
def insertion : Array UInt8 := "$\x7bx\x7d".toUTF8.data

/-- Colors a sample and adds the pass to a log. -/
def colorOnce (d : Dialect) (t : Template) (l : Log) (s : Session) :
    Except Offset.Fault (Log × Session) := do
  let (highlighted, s) := s.highlight d t
  let highlighted ← highlighted
  let l ← l.coloring? t.length 0 (totalOf (·.tokens.length) highlighted)
  return (l, s)

/-- Inserts text in the middle of a sample and adds the update to a log. -/
def editOnce (d : Dialect) (t : Template) (l : Log) : Except Offset.Fault Log := do
  let middle := Edit.largestUpTo (Template.isBoundary t.bytes) (t.length / 2)
  let edited : Template :=
    { t with
      bytes := t.bytes.extract 0 middle ++ insertion ++ t.bytes.extract middle t.length }
  let m ← RegionMap.ofTemplate? d t
  let (_, start, stop) ← m.revise? d edited (.insertion middle insertion.size)
  l.edit? 0 (stop - start)

/-- Measures one sample: a scan, two colorings of which the second finds all tokens in the cache,
and an edit.  Besides the log, the hits and misses of the cache are added up. -/
def measure (d : Dialect) (bytes : Nat) (l : Log) (hits misses : Nat) :
    Except Offset.Fault (Log × Nat × Nat) := do
  let t := Template.ofString (← sample? bytes)
  let l ← l.scan? t.length 0 (← t.divide? d).length
  let (l, s) ← colorOnce d t l {}
  let (l, s) ← colorOnce d t l s
  let l ← editOnce d t l
  let hits ← Offset.add hits s.tally.hits
  let misses ← Offset.add misses s.tally.misses
  return (l, hits, misses)

/-- Measures samples one after the other. -/
def runFrom (d : Dialect) (l : Log) (hits misses : Nat) : List Nat → Except Offset.Fault Log
  | [] => l.cache? hits misses
  | bytes :: rest => do
    let (l, hits, misses) ← measure d bytes l hits misses
    runFrom d l hits misses rest

/-- The log of a benchmark over samples of the given sizes. -/
def run (sizes : List Nat) : Except Offset.Fault Log := runFrom {} (Log.start {}) 0 0 sizes

end TemplateColoring.Benchmark

import TemplateColoring.Bytes.Walk
import TemplateColoring.Dialect
import TemplateColoring.Total

/-!
# Lexemes of an expression

A tag of the template language and an interpolation hold an expression.  Its lexemes decide where
the expression ends, and so where the region around it ends; the same lexemes are colored later.
A closing character inside a string literal, a comment or a pair of brackets ends nothing.

`lex` gives the lexemes of the expression at the front of a text and `extent` how far it reaches.
-/

set_option autoImplicit false

namespace TemplateColoring.Expression

open Ascii Bytes

/-! ## What ends an expression -/

inductive Terminator
  /-- The end of a tag: `>` or `/>` with angle brackets, `]` or `/]` with square ones. -/
  | tag (bracket : Bracket)
  /-- The closing brace of an interpolation. -/
  | brace
  /-- The closing square bracket of an interpolation. -/
  | bracket
deriving DecidableEq, Repr

namespace Terminator

/-- What ends an interpolation that counts as written in the given brackets. -/
def ofInterpolation : Bracket → Terminator
  | .angle => brace
  | .square => bracket

/-- The brackets of the comments inside the expression and of the tags that may cut it short. -/
def comments : Terminator → Bracket
  | tag b => b
  | brace => .angle
  | bracket => .square

/-- The length of the terminator at the front of a text, if it stands there. -/
def lengthAt? (t : Terminator) : List UInt8 → Option Nat
  | [] => none
  | b :: s =>
    match t with
    | tag br =>
      if b == br.closeByte then some 1
      else if b == slash && s.head? == some br.closeByte then some 2
      else none
    | brace => if b == braceClose then some 1 else none
    | bracket => if b == squareClose then some 1 else none

end Terminator

/-! ## Lexemes -/

inductive Item
  | blank
  | identifier
  /-- A question mark and the name of a built-in function. -/
  | builtIn
  | number
  | operator
  | string
  | comment
  /-- The terminator, always the last lexeme. -/
  | close
deriving DecidableEq, Repr

structure Lexeme where
  item : Item
  text : List UInt8
deriving DecidableEq, Repr

/-- One step inside a string literal: the closing quote stops it, and a backslash takes the
character after it along unless the literal is raw. -/
def stringStep (raw : Bool) (quote : UInt8) : List UInt8 → Option Nat
  | [] => none
  | b :: s =>
    if b == quote then none
    else if b == backslash && !raw then some (1 + charLength s)
    else some (charLength (b :: s))

/-- The length of what follows the opening quote of a string literal, the closing quote included.
A literal that is not closed takes the rest of the text. -/
def stringBodyLength (raw : Bool) (quote : UInt8) (s : List UInt8) : Nat :=
  let body := walk (stringStep raw quote) s
  if (s.drop body).isEmpty then body else body + 1

/-- The length of the fraction behind the digits of a number: a point, if a digit follows it, and
the digits behind the point. -/
def fractionLength : List UInt8 → Nat
  | point :: b :: rest =>
    if point == dot && isDigit b then 1 + runLength isDigit (b :: rest) else 0
  | _ => 0

/-- The length of a number: digits and a fraction. -/
def numberLength (s : List UInt8) : Nat :=
  let whole := runLength isDigit s
  whole + fractionLength (s.drop whole)

/-- The length of a comment, its opener included. -/
def commentLength (b : Bracket) (s : List UInt8) : Nat :=
  4 + (through b.commentClose (s.drop 4)).length

/-- The item at the front of a text, and its length, where `depth` brackets are open.  With open
brackets a tag of the template language stops the lexing, so that a bracket left open does not
swallow the rest of the document. -/
def itemAt? (t : Terminator) (depth : Nat) : List UInt8 → Option (Item × Nat)
  | [] => none
  | b :: s =>
    let isComment := t.comments.opensComment (b :: s)
    if 0 < depth && !isComment && t.comments.opensTag (b :: s) then none
    else if isBlank b then some (.blank, runLength isBlank (b :: s))
    else if isQuote b then some (.string, 1 + stringBodyLength false b s)
    else if b == letterR && s.head?.any isQuote then
      some (.string, 2 + stringBodyLength true (s.headD 0) s.tail)
    else if isComment then some (.comment, commentLength t.comments (b :: s))
    else if isNameStart b then some (.identifier, runLength isNameContinue (b :: s))
    else if isDigit b then some (.number, numberLength (b :: s))
    else if b == question && s.head?.any isNameStart then
      some (.builtIn, 1 + runLength isNameContinue s)
    else if depth == 0 then
      match t.lengthAt? (b :: s) with
      | some length => some (.close, length)
      | none => some (.operator, 1)
    else some (.operator, 1)

/-- The number of open brackets after a lexeme.  A closing bracket without an opening one counts
for nothing. -/
def depthAfter (depth : Nat) (item : Item) (s : List UInt8) : Nat :=
  match item, s with
  | .operator, b :: _ =>
    if isOpening b then depth + 1 else if isClosing b then depth - 1 else depth
  | _, _ => depth

/-- Cuts the lexeme at the front of a text. -/
def cutLexeme (t : Terminator) (depth : Nat) (s : List UInt8) : Option (Cut Lexeme Nat) :=
  (itemAt? t depth s).map fun (item, length) =>
    { piece := ⟨item, s.take length⟩
      length
      next := if item = .close then none else some (depthAfter depth item s) }

/-- The lexemes of the expression at the front of a text, up to and including its terminator. -/
def lex (t : Terminator) (s : List UInt8) : List Lexeme := cut (cutLexeme t) 0 s

/-- How far lexemes reach together, and whether the last one is a terminator. -/
def reach (lexemes : List Lexeme) : Extent where
  length := totalOf (·.text.length) lexemes
  closed := lexemes.getLast?.any (·.item == .close)

/-- How far the expression at the front of a text reaches, its terminator included. -/
def extent (t : Terminator) (s : List UInt8) : Extent := reach (lex t s)

/-- The length of the interpolation at the front of a text, if one opens there.  One that is not
closed still counts, up to where its lexemes stop. -/
def interpolationLength? (style : InterpolationStyle) (s : List UInt8) : Option Nat :=
  if style.opens s then
    some (2 + (extent (.ofInterpolation style.bracket) (s.drop 2)).length)
  else none

end TemplateColoring.Expression

import TemplateColoring.Token.Basic
import TemplateColoring.Expression.Lexeme

/-!
# Coloring tags and interpolations

The text of a directive, a macro call or an interpolation is colored as its opener, the lexemes of
its expression, and whatever is left behind the terminator.  The text need not be a region of that
kind: every text is colored, and from its own bytes alone.
-/

set_option autoImplicit false

namespace TemplateColoring.Token

open Ascii Bytes Expression

/-- The words that are keywords inside an expression. -/
def keywords : List String := ["true", "false", "as", "in", "using", "gt", "gte", "lt", "lte"]

/-- The keywords as they are compared. -/
def keywordTexts : List (List UInt8) := keywords.map fun word => word.toUTF8.data.toList

/-- The kind of token of a lexeme, in a region whose delimiters are of the given kind. -/
def lexemeKind (delimiter : TokenKind) (x : Lexeme) : TokenKind :=
  match x.item with
  | .identifier => if keywordTexts.contains x.text then .keyword else .variable
  | .string => .string
  | .comment => .comment
  | .close => delimiter
  | .blank | .builtIn | .number | .operator => .other

/-- What an expression region looks like: the kind of its delimiters, and whether it opens like an
interpolation or like a tag. -/
inductive ExpressionRegion
  | directive
  | macroCall
  | interpolation
deriving DecidableEq, Repr

namespace ExpressionRegion

def delimiter : ExpressionRegion → TokenKind
  | directive => .directive
  | macroCall => .macroCall
  | interpolation => .interpolation

end ExpressionRegion

/-- The brackets in which a text is read: square where it starts with a square bracket. -/
def bracketOf (s : List UInt8) : Bracket := (s.head?.bind Bracket.ofOpenByte?).getD .angle

/-- A byte between the bracket and the name of a tag. -/
def isSigil (b : UInt8) : Bool := b == slash || b == hash || b == commercialAt

/-- The length of a tag's opener: one byte, up to two sigils, and a name. -/
def tagOpenerLength (s : List UInt8) : Nat :=
  let sigils := runLength isSigil ((s.drop 1).take 2)
  1 + sigils + runLength isTagNameContinue (s.drop (1 + sigils))

/-- The length of the opener at the front of a text, and what ends the expression behind it. -/
def openerOf (shape : ExpressionRegion) (s : List UInt8) : Nat × Terminator :=
  match shape with
  | .interpolation => (min 2 s.length, .ofInterpolation (bracketOf s))
  | .directive | .macroCall => (min (tagOpenerLength s) s.length, .tag (bracketOf s))

/-- The runs of an expression region's text. -/
def expressionRuns (shape : ExpressionRegion) (s : List UInt8) : List (Run TokenKind) :=
  let (opener, terminator) := openerOf shape s
  let lexemes := lex terminator (s.drop opener)
  let left := s.length - opener - (reach lexemes).length
  ⟨shape.delimiter, opener⟩
    :: lexemes.map (fun x => ⟨lexemeKind shape.delimiter x, x.text.length⟩)
    ++ [⟨.other, left⟩]

end TemplateColoring.Token

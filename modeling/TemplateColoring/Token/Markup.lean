import TemplateColoring.Token.Basic
import TemplateColoring.Expression.Lexeme

/-!
# Coloring host markup tags

The text of a host tag is colored as its opener with the tag's name, attribute names, quoted values
with the interpolations inside them, and closers.  Every text is colored, whether it is a host tag
or not.
-/

set_option autoImplicit false

namespace TemplateColoring.Token

open Ascii Bytes

/-- `quotedFrom style quote acc n k s` passes `k` bytes and goes on through a quoted value; `acc`
holds the runs so far, last first, and the piece of the value at hand has `n` bytes already. -/
def quotedFrom (style : InterpolationStyle) (quote : UInt8) :
    List (Run TokenKind) → Nat → Nat → List UInt8 → List (Run TokenKind)
  | acc, n, _, [] => (⟨.string, n⟩ :: acc).reverse
  | acc, n, k + 1, _ :: s => quotedFrom style quote acc n k s
  | acc, n, 0, b :: s =>
    if b == quote then (⟨.string, n + 1⟩ :: acc).reverse
    else
      match Expression.interpolationLength? style (b :: s) with
      | some length =>
        quotedFrom style quote (⟨.interpolation, length⟩ :: ⟨.string, n⟩ :: acc) 0 (length - 1) s
      | none =>
        let length := charLength (b :: s)
        quotedFrom style quote acc (n + length) (length - 1) s

/-- The runs of a quoted value, of which the opening quote is passed already: pieces of string and
the interpolations between them, string first and last.  A value that is not closed takes the rest
of the text. -/
def quotedRuns (style : InterpolationStyle) (quote : UInt8) (s : List UInt8) :
    List (Run TokenKind) :=
  quotedFrom style quote [] 1 0 s

/-- The runs at the front of what follows the opener of a host tag. -/
def markupRunsAt (style : InterpolationStyle) (b : UInt8) (s : List UInt8) :
    List (Run TokenKind) :=
  if isBlank b then [⟨.text, runLength isBlank (b :: s)⟩]
  else if isQuote b then quotedRuns style b s
  else if b == greater then [⟨.markupTag, 1⟩]
  else if (b == slash || b == question) && s.head? == some greater then [⟨.markupTag, 2⟩]
  else
    match Expression.interpolationLength? style (b :: s) with
    | some length => [⟨.interpolation, length⟩]
    | none =>
      if isMarkupNameStart b then [⟨.markupAttribute, runLength isMarkupNameContinue (b :: s)⟩]
      else [⟨.text, charLength (b :: s)⟩]

/-- Cuts the runs at the front of what follows the opener of a host tag. -/
def cutMarkup (style : InterpolationStyle) (_ : Unit) :
    List UInt8 → Option (Cut (List (Run TokenKind)) Unit)
  | [] => none
  | b :: s =>
    let runs := markupRunsAt style b s
    some { piece := runs, length := Run.total runs, next := some () }

/-- The length of a host tag's opener, with the name; nothing if the text opens no host tag. -/
def markupOpenerLength : List UInt8 → Nat
  | [] => 0
  | b :: s =>
    if b == less then
      let sigil := if s.head?.any fun c => c == slash || c == question || c == exclamation then 1
        else 0
      1 + sigil + runLength isMarkupNameContinue (s.drop sigil)
    else 0

/-- The runs of a host tag's text. -/
def markupRuns (style : InterpolationStyle) (s : List UInt8) : List (Run TokenKind) :=
  let opener := markupOpenerLength s
  let behind := (cut (cutMarkup style) () (s.drop opener)).flatten
  if opener = 0 then behind else ⟨.markupTag, opener⟩ :: behind

end TemplateColoring.Token

import TemplateColoring.Bytes.Ascii

/-!
# Dialects of the template language

Tags of the template language are written with angle or square brackets, and interpolations in one
of three ways.  A dialect says which of these a template uses, and whether the host text is markup
with tags and comments of its own.
-/

set_option autoImplicit false

namespace TemplateColoring

open Ascii

/-- The brackets around a tag of the template language. -/
inductive Bracket
  | angle
  | square
deriving DecidableEq, Repr

namespace Bracket

def openByte : Bracket → UInt8
  | angle => less
  | square => squareOpen

def closeByte : Bracket → UInt8
  | angle => greater
  | square => squareClose

/-- What ends a comment written with these brackets. -/
def commentClose (b : Bracket) : List UInt8 := [hyphen, hyphen, b.closeByte]

/-- The brackets that a byte opens. -/
def ofOpenByte? (b : UInt8) : Option Bracket :=
  if b == less then some angle else if b == squareOpen then some square else none

/-- Whether a comment of the template language opens at the front of a text. -/
def opensComment (b : Bracket) (s : List UInt8) : Bool :=
  [b.openByte, hash, hyphen, hyphen].isPrefixOf s

/-- Whether a directive or macro tag, or what looks like one, opens at the front of a text: `<#`,
`</#`, `<@` or `</@` with angle brackets. -/
def opensTag (b : Bracket) (s : List UInt8) : Bool :=
  [[hash], [commercialAt], [slash, hash], [slash, commercialAt]].any fun sigil =>
    (b.openByte :: sigil).isPrefixOf s

end Bracket

/-- The brackets in which tags are recognized. -/
inductive TagStyle
  | angle
  | square
  | both
deriving DecidableEq, Repr

namespace TagStyle

/-- The brackets of a style, in the order in which they are tried. -/
def brackets : TagStyle → List Bracket
  | angle => [.angle]
  | square => [.square]
  | both => [.angle, .square]

def allows (style : TagStyle) (b : Bracket) : Bool := style.brackets.contains b

/-- Whether a directive or macro tag opens at the front of a text, in any brackets of the style. -/
def opensTag (style : TagStyle) (s : List UInt8) : Bool := style.brackets.any (·.opensTag s)

end TagStyle

/-- How interpolations are written. -/
inductive InterpolationStyle
  /-- With a dollar or hash sign and braces. -/
  | legacy
  /-- With a dollar sign and braces. -/
  | dollar
  /-- With square brackets and an equals sign. -/
  | square
deriving DecidableEq, Repr

namespace InterpolationStyle

def openers : InterpolationStyle → List (List UInt8)
  | legacy => [[Ascii.dollar, braceOpen], [hash, braceOpen]]
  | dollar => [[Ascii.dollar, braceOpen]]
  | square => [[squareOpen, equals]]

/-- The brackets an interpolation counts as: those of the comments and tags inside it. -/
def bracket : InterpolationStyle → Bracket
  | legacy | dollar => .angle
  | square => .square

/-- Whether an interpolation opens at the front of a text.  Its opener is two bytes long. -/
def opens (style : InterpolationStyle) (s : List UInt8) : Bool :=
  style.openers.any (·.isPrefixOf s)

end InterpolationStyle

/-- What a template is written in. -/
structure Dialect where
  tags : TagStyle := .both
  interpolation : InterpolationStyle := .legacy
  hostMarkup : Bool := true
deriving DecidableEq, Repr

end TemplateColoring

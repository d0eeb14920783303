import TemplateColoring.Span

/-!
# Coloring tokens

A token is a span of a template with the kind by which it is displayed.  A coloring describes the
text of one region by runs, and `Token.ofRuns` turns the runs into tokens: empty runs vanish, and
neighbours of a kind that has no inner structure become one token.
-/

set_option autoImplicit false

namespace TemplateColoring

inductive TokenKind
  /-- Brackets, sigil and name of a directive. -/
  | directive
  /-- Brackets, sigil and name of a macro call. -/
  | macroCall
  /-- The delimiters of an interpolation. -/
  | interpolation
  /-- A word with a fixed meaning inside an expression. -/
  | keyword
  /-- An identifier inside an expression. -/
  | variable
  | string
  | comment
  /-- Operators, numbers, brackets, blanks and built-ins inside an expression. -/
  | other
  /-- Host text. -/
  | text
  /-- Delimiters and name of a host tag. -/
  | markupTag
  | markupAttribute
  | markupComment
deriving DecidableEq, Repr

namespace TokenKind

def all : List TokenKind :=
  [directive, macroCall, interpolation, keyword, «variable», string, comment, other, text,
    markupTag, markupAttribute, markupComment]

/-- The name by which a display finds the style of a kind. -/
def name : TokenKind → String
  | directive => "directive"
  | macroCall => "macro-call"
  | interpolation => "interpolation"
  | keyword => "keyword"
  | «variable» => "variable"
  | string => "string"
  | comment => "comment"
  | other => "other-expression-part"
  | text => "text"
  | markupTag => "xml-tag"
  | markupAttribute => "xml-attribute"
  | markupComment => "xml-comment"

def ofName? (s : String) : Option TokenKind := all.find? (·.name == s)

/-- Whether neighbours of a kind are displayed as one token. -/
def isMergeable : TokenKind → Bool
  | other | text => true
  | _ => false

end TokenKind

abbrev Token := Span TokenKind

namespace Token

/-- Puts a run in front of runs that are merged already. -/
def mergeRun (r : Run TokenKind) (merged : List (Run TokenKind)) : List (Run TokenKind) :=
  if r.length = 0 then merged
  else
    match merged with
    | [] => [r]
    | q :: rest =>
      if q.kind = r.kind && r.kind.isMergeable then ⟨r.kind, r.length + q.length⟩ :: rest
      else r :: q :: rest

/-- Runs without empty ones, in which neighbours of a mergeable kind are one run. -/
def merge (runs : List (Run TokenKind)) : List (Run TokenKind) := runs.foldr mergeRun []

/-- The tokens that runs describe, from `start` on. -/
def ofRuns (start : Nat) (runs : List (Run TokenKind)) : List Token := Span.place start (merge runs)

end Token

end TemplateColoring

import TemplateColoring.Recognition.Feed
import TemplateColoring.Recognition.PropertyList
import TemplateColoring.Text.Blank
import TemplateColoring.Text.Lossy
import TemplateColoring.Text.Search

/-!
# Header comments

A template may start with a comment that declares its content type among other properties:

    <#--
      ContentType: text/html
    -->

The comment is read line by line and only as far as it takes to decide.  `Header.contentType?` gives
the declared type, and `Header.declaresMarkup` whether it is a type of markup.
-/

set_option autoImplicit false

namespace TemplateColoring

/-- Why the header of a document could not be read. -/
inductive HeaderError
  /-- The content could not be read. -/
  | unreadable (reason : String)
  /-- An escape in the property list names no character. -/
  | malformedEscape (line : Nat)
deriving DecidableEq, Repr

/-- The text of an error as it is shown. -/
def HeaderError.message : HeaderError → String
  | unreadable reason => "failed to read template content: " ++ reason
  | malformedEscape line => "malformed \\uXXXX escape in properties line " ++ toString line

namespace Header

open Text

/-- What opens a header comment. -/
def opener : List Char := ['<', '#', '-', '-']

/-- What closes a header comment. -/
def closer : List Char := ['-', '-', '>']

/-- The property that holds the content type. -/
def contentTypeKey : List Char := "ContentType".toList

/-- A line as text, without its newline and a carriage return in front of that. -/
def lineText (line : List UInt8) : List Char :=
  let s := (decodeLossy line).reverse
  let s := if s.head? == some '\n' then s.tail else s
  let s := if s.head? == some '\r' then s.tail else s
  s.reverse

/-- What has been read of a header. -/
inductive State
  /-- Nothing but blank lines. -/
  | blank
  /-- The inside of the comment so far, its lines last first. -/
  | inside (body : List (List Char))
deriving DecidableEq, Repr

/-- The outcome of reading lines. -/
inductive Outcome
  /-- No line has decided yet. -/
  | more (state : State)
  /-- The document has no header comment. -/
  | absent
  /-- The header comment is read, and this is its inside. -/
  | complete (body : List Char)
deriving DecidableEq, Repr

/-- Lines of a comment as one text. -/
def joinLines (reversed : List (List Char)) : List Char :=
  (List.intersperse ['\n'] reversed.reverse).flatten

/-- Reads a line of the comment's inside. -/
def readInside (body : List (List Char)) (line : List Char) : Outcome :=
  match before? closer line with
  | some last => .complete (trim (joinLines (last :: body)))
  | none => .more (.inside (line :: body))

/-- Reads one more line.  Blank lines in front of the comment are passed over and blank lines in it
are dropped, as are blanks at the end of a line. -/
def read (state : State) (line : List Char) : Outcome :=
  match state with
  | .blank =>
    let line := trim line
    if line.isEmpty then .more .blank
    else if opener.isPrefixOf line then readInside [] (line.drop opener.length)
    else .absent
  | .inside body =>
    let line := trimEnd line
    if line.isEmpty then .more (.inside body) else readInside body line

/-- Reads lines until one decides, or the feed fails. -/
def readAll (state : State) : List (Except String (List UInt8)) → Except String Outcome
  | [] => .ok (.more state)
  | .error reason :: _ => .error reason
  | .ok line :: rest =>
    match read state (lineText line) with
    | .more state => readAll state rest
    | decided => .ok decided

/-- The content type that the header comment of a document declares, if it has such a comment.  The
feed may fail behind the line that decides. -/
def contentType? (f : Feed) : Except HeaderError (Option (List Char)) :=
  match readAll .blank f.lines with
  | .error reason => .error (.unreadable reason)
  | .ok (.complete body) =>
    match PropertyList.parse body with
    | .ok properties => .ok (properties.get? contentTypeKey)
    | .error e => .error (.malformedEscape e.line)
  | .ok .absent | .ok (.more _) => .ok none

/-- Whether a content type is one of markup. -/
def isMarkupType (type : List Char) : Bool :=
  let type := trim type
  holds ['x', 'm', 'l'] type || holds ['h', 't', 'm', 'l'] type

/-- Whether a document declares a type of markup.  A header that cannot be read declares none. -/
def declaresMarkup (f : Feed) : Bool :=
  match contentType? f with
  | .ok (some type) => isMarkupType type
  | .ok none | .error _ => false

end Header

end TemplateColoring

/-!
# Property lists

A header comment holds `key = value` entries, one on a line.  Lines that start with `#` or `!` are
comments, a backslash at the end of a line continues it, a key ends at the first `=`, `:` or blank
that has no backslash in front, and backslashes escape characters.  Of entries with one key the
last counts.
-/

set_option autoImplicit false

namespace TemplateColoring

/-- An escape that names no character, in the entry that starts on a line counted from one. -/
structure MalformedEscape where
  line : Nat
deriving DecidableEq, Repr

/-- Keys and their values.  No key occurs twice. -/
structure PropertyList where
  entries : List (List Char × List Char)
deriving DecidableEq, Repr

namespace PropertyList

def empty : PropertyList := ⟨[]⟩

def get? (p : PropertyList) (key : List Char) : Option (List Char) := p.entries.lookup key

def size (p : PropertyList) : Nat := p.entries.length

def isEmpty (p : PropertyList) : Bool := p.entries.isEmpty

/-- Gives a key a value in place of any it had. -/
def insert (p : PropertyList) (key value : List Char) : PropertyList :=
  ⟨(key, value) :: p.entries.filter (·.1 != key)⟩

/-! ## Lines -/

/-- The blanks of a property list. -/
def isBlank (c : Char) : Bool := c == ' ' || c == '\t' || c == '\x0c'

/-- A line without its carriage return, given last character first. -/
def endedLine (reversed : List Char) : List Char :=
  match reversed with
  | '\r' :: s => s.reverse
  | s => s.reverse

/-- `linesFrom line s` are the lines of a text of which `line` is passed, last character first.  A
newline ends a line, with a carriage return in front of it or without. -/
def linesFrom (line : List Char) : List Char → List (List Char)
  | [] => if line.isEmpty then [] else [line.reverse]
  | c :: s => if c == '\n' then endedLine line :: linesFrom [] s else linesFrom (c :: line) s

/-- The lines of a text as they are written. -/
def physicalLines (s : List Char) : List (List Char) := linesFrom [] s

/-- Whether a line is continued by the next one: it ends in an odd number of backslashes. -/
def continues (line : List Char) : Bool := (line.reverse.takeWhile (· == '\\')).length % 2 == 1

/-- Whether a line, of which blanks at the start are dropped, holds no entry. -/
def isSkipped : List Char → Bool
  | [] => true
  | c :: _ => c == '#' || c == '!'

/-- `logicalFrom number pending lines` joins continued lines, of which the first to come has the
given number.  `pending` is a line that is continued, with the number of its first line. -/
def logicalFrom (number : Nat) (pending : Option (Nat × List Char)) :
    List (List Char) → List (Nat × List Char)
  | [] => pending.toList
  | line :: rest =>
    let trimmed := line.dropWhile isBlank
    match pending with
    | none =>
      if isSkipped trimmed then logicalFrom (number + 1) none rest
      else if continues trimmed then
        logicalFrom (number + 1) (some (number, trimmed.dropLast)) rest
      else (number, trimmed) :: logicalFrom (number + 1) none rest
    | some (first, front) =>
      if continues trimmed then
        logicalFrom (number + 1) (some (first, front ++ trimmed.dropLast)) rest
      else (first, front ++ trimmed) :: logicalFrom (number + 1) none rest

/-- The lines of a text with continued lines joined, without comments and blank lines.  Each comes
with the number of its first line, counted from one. -/
def logicalLines (s : List Char) : List (Nat × List Char) := logicalFrom 1 none (physicalLines s)

/-! ## Entries -/

/-- Splits a line behind its key, which ends at the first separator without a backslash. -/
def splitKey : List Char → List Char × List Char
  | [] => ([], [])
  | ['\\'] => (['\\'], [])
  | '\\' :: c :: s =>
    let (key, rest) := splitKey s
    ('\\' :: c :: key, rest)
  | c :: s =>
    if c == '=' || c == ':' || isBlank c then ([], c :: s)
    else
      let (key, rest) := splitKey s
      (c :: key, rest)

/-- The value in what follows a key: blanks, at most one `=` or `:`, and blanks again are
dropped. -/
def rawValue (s : List Char) : List Char :=
  match s.dropWhile isBlank with
  | [] => []
  | c :: rest => if c == '=' || c == ':' then rest.dropWhile isBlank else c :: rest

/-- The value of a hexadecimal digit. -/
def hexDigit? (c : Char) : Option Nat :=
  if '0' ≤ c && c ≤ '9' then some (c.toNat - '0'.toNat)
  else if 'a' ≤ c && c ≤ 'f' then some (c.toNat - 'a'.toNat + 10)
  else if 'A' ≤ c && c ≤ 'F' then some (c.toNat - 'A'.toNat + 10)
  else none

/-- The number that hexadecimal digits write after `value`. -/
def hexNumber? (value : Nat) : List Char → Option Nat
  | [] => some value
  | c :: s => (hexDigit? c).bind fun digit => hexNumber? (value * 16 + digit) s

/-- The character that four characters name: four hexadecimal digits, or a plus sign and three of
them.  Surrogates are no characters. -/
def escapedChar? (a b c d : Char) : Option Char :=
  let code := if a == '+' then hexNumber? 0 [b, c, d] else hexNumber? 0 [a, b, c, d]
  code.bind fun n => if n.isValidChar then some (Char.ofNat n) else none

/-- What a character stands for behind a backslash, other than `u`. -/
def unescapeChar (c : Char) : Char :=
  if c == 't' then '\t' else if c == 'n' then '\n' else if c == 'r' then '\r'
  else if c == 'f' then '\x0c' else c

/-- A text with its escapes replaced by what they stand for, unless one names no character.  A lone
backslash at the end is dropped. -/
def unescape : List Char → Option (List Char)
  | [] => some []
  | ['\\'] => some []
  | '\\' :: 'u' :: a :: b :: c :: d :: s => do
    let x ← escapedChar? a b c d
    let rest ← unescape s
    some (x :: rest)
  | '\\' :: c :: s =>
    if c == 'u' then none else (unescape s).map (unescapeChar c :: ·)
  | c :: s => (unescape s).map (c :: ·)

/-- The key and the value in a line. -/
def entry? (line : List Char) : Option (List Char × List Char) :=
  let (key, rest) := splitKey line
  match unescape key, unescape (rawValue rest) with
  | some key, some value => some (key, value)
  | _, _ => none

/-- Adds the entries of lines to a list, up to the first with a malformed escape. -/
def addLines (p : PropertyList) : List (Nat × List Char) → Except MalformedEscape PropertyList
  | [] => .ok p
  | (number, line) :: rest =>
    match entry? line with
    | some (key, value) => (p.insert key value).addLines rest
    | none => .error ⟨number⟩

/-- The property list that a text holds. -/
def parse (s : List Char) : Except MalformedEscape PropertyList := empty.addLines (logicalLines s)

end PropertyList

end TemplateColoring

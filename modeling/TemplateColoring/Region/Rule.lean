import TemplateColoring.Expression.Lexer
import TemplateColoring.Region.AtCursor

/-!
# Rules that read a document

A rule reads its opener at a cursor, and the end of a region behind an opener, by looking at one
byte after the other.  `Cursor.opener?` and `Cursor.close` say the same of the text that is ahead;
here the numbers are computed as they are on the way, where a difference may be negative and the
open brackets may be too many to be counted.
-/

set_option autoImplicit false

namespace TemplateColoring.Cursor

open Ascii

/-! ## Openers -/

/-- The length of the tag opener at the cursor in given brackets. -/
def tagOpenerLength? (c : Cursor) (sigil : List UInt8) (anonymous : Bool) (b : Bracket) :
    Except Offset.Fault (Option Nat) :=
  if c.current? == some b.openByte && c.standsAt 1 sigil then
    let named := c.advance (1 + sigil.length)
    if named.current?.any isNameStart then
      (Offset.sub (named.stepWhile isTagNameContinue).position c.position).map some
    else if anonymous then (Offset.sub named.position c.position).map some
    else .ok none
  else .ok none

/-- The tag opener at the cursor, in the first brackets of the style that fit. -/
def readTag? (c : Cursor) (kind : RegionKind) (sigil : List UInt8) (anonymous : Bool)
    (style : TagStyle) : Except Offset.Fault (Option Opener) :=
  style.brackets.findSomeM? fun b => (c.tagOpenerLength? sigil anonymous b).map fun length? =>
    length?.map fun length => { kind, bracket := b, length, start := c.position }

/-- The brackets that the interpolation at the cursor counts as. -/
def interpolation? (c : Cursor) (style : InterpolationStyle) : Option Bracket :=
  (style.openers.find? (c.standsAt 0)).map fun opener =>
    (opener.head?.bind Bracket.ofOpenByte?).getD .angle

/-- Where the name of the host tag at the cursor starts. -/
def markupNameAt? (c : Cursor) : Option Nat :=
  if c.current? == some less then
    match c.peek? 1 with
    | some b =>
      if b == slash || b == question then
        if (c.peek? 2).any isMarkupNameStart then some 2 else none
      else if b == exclamation && (c.peek? 2).any isAlpha then
        if (c.peek? 2).any isMarkupNameStart then some 2 else none
      else if isMarkupNameStart b then some 1
      else none
    | none => none
  else none

/-- The host tag opener at the cursor. -/
def readMarkupTag? (c : Cursor) : Except Offset.Fault (Option Opener) :=
  match c.markupNameAt? with
  | some n =>
    (Offset.sub ((c.advance n).stepWhile isMarkupNameContinue).position c.position).map
      fun length =>
        some { kind := .markupTag, bracket := .angle, length, start := c.position }
  | none => .ok none

/-- The opener of a kind of region that stands at the cursor. -/
def readOpener? (c : Cursor) (d : Dialect) (kind : RegionKind) :
    Except Offset.Fault (Option Opener) :=
  match kind with
  | .comment => .ok ((d.tags.brackets.find? c.opensComment).map fun b =>
      { kind, bracket := b, length := 4, start := c.position })
  | .directiveStart => c.readTag? kind [hash] false d.tags
  | .directiveEnd => c.readTag? kind [slash, hash] false d.tags
  | .macroStart => c.readTag? kind [commercialAt] false d.tags
  | .macroEnd => c.readTag? kind [slash, commercialAt] true d.tags
  | .interpolation => .ok ((c.interpolation? d.interpolation).map fun b =>
      { kind, bracket := b, length := 2, start := c.position })
  | .markupComment =>
    .ok (if c.standsAt 0 [less, exclamation, hyphen, hyphen] then
      some { kind, bracket := .angle, length := 4, start := c.position } else none)
  | .markupTag => c.readMarkupTag?
  | .plain => .ok none

/-- The opener at the cursor, by the first of the given rules that finds one. -/
def readOpenerBy? (c : Cursor) (rules : List RegionKind) (d : Dialect) :
    Except Offset.Fault (Option Opener) :=
  if c.current?.any Region.mayOpen then rules.findSomeM? (c.readOpener? d) else .ok none

/-- An opener starts at the cursor, by whatever rule it is read. -/
theorem start_of_readOpener? {c : Cursor} {d : Dialect} {kind : RegionKind} {o : Opener}
    (h : c.readOpener? d kind = .ok (some o)) : o.start = c.position := by
  have tag {sigil anonymous style} (h : c.readTag? kind sigil anonymous style = .ok (some o)) :
      o.start = c.position := by
    obtain ⟨b, -, hb⟩ := exists_of_findSomeM?_eq_ok h
    obtain ⟨length?, -, ho⟩ := exists_of_map_eq_ok hb
    obtain ⟨length, -, rfl⟩ := Option.map_eq_some_iff.mp ho
    rfl
  cases kind with
  | comment | interpolation =>
    obtain ⟨b, -, rfl⟩ := Option.map_eq_some_iff.mp (Except.ok.inj h)
    rfl
  | directiveStart | directiveEnd | macroStart | macroEnd => exact tag h
  | markupComment =>
    have ho := Except.ok.inj h
    split at ho
    · obtain rfl := Option.some.inj ho
      rfl
    · exact absurd ho (by simp)
  | markupTag =>
    simp only [readOpener?, readMarkupTag?] at h
    split at h
    · obtain ⟨length, -, ho⟩ := exists_of_map_eq_ok h
      obtain rfl := Option.some.inj ho
      rfl
    · exact absurd h (by simp)
  | plain => exact absurd h (by simp [readOpener?])

theorem exists_of_readOpenerBy? {c : Cursor} {rules : List RegionKind} {d : Dialect} {o : Opener}
    (h : c.readOpenerBy? rules d = .ok (some o)) :
    ∃ kind ∈ rules, c.readOpener? d kind = .ok (some o) := by
  unfold readOpenerBy? at h
  split at h
  · exact exists_of_findSomeM?_eq_ok h
  · exact absurd h (by simp)

/-! ## Inside a host tag -/

/-- The cursor behind the interpolation that opens at it. -/
def skipInterpolation? (c : Cursor) (style : InterpolationStyle) :
    Except Offset.Fault (Option Cursor) :=
  match c.interpolation? style with
  | some b => ((c.advance 2).skipExpression? (.ofInterpolation b)).map fun (_, c) => some c
  | none => .ok none

/-- The cursor behind the interpolation or the character at hand. -/
def skipPart? (c : Cursor) (style : InterpolationStyle) : Except Offset.Fault Cursor :=
  (c.skipInterpolation? style).map (·.getD c.advanceChar)

section Progress

variable {c c' : Cursor} {b : UInt8} {style : InterpolationStyle}

theorem passes_of_skipInterpolation? (h : c.current? = some b)
    (hskip : c.skipInterpolation? style = .ok (some c')) : c.Passes c' := by
  unfold skipInterpolation? at hskip
  split at hskip
  · obtain ⟨⟨closed, c''⟩, hexpr, hc⟩ := exists_of_map_eq_ok hskip
    obtain rfl := Option.some.inj hc
    exact (passes_advance h (by decide)).then (leadsTo_of_skipExpression? hexpr)
  · exact absurd hskip (by simp)

theorem passes_of_skipPart? (h : c.current? = some b)
    (hskip : c.skipPart? style = .ok c') : c.Passes c' := by
  obtain ⟨skipped, hpart, rfl⟩ := exists_of_map_eq_ok hskip
  cases skipped with
  | some c' => exact passes_of_skipInterpolation? h hpart
  | none => exact passes_advanceChar h

end Progress

/-- The cursor behind a host tag's attribute value, of which the opening quote is passed.  It stays
in front of a tag of the template language in the value. -/
def skipQuoted? (d : Dialect) (quote : UInt8) (c : Cursor) : Except Offset.Fault Cursor :=
  match _ : c.current? with
  | none => .ok c
  | some b =>
    if b == quote then .ok (c.advance 1)
    else if d.tags.brackets.any c.opensTag then .ok c
    else
      match _ : c.skipPart? d.interpolation with
      | .error e => .error e
      | .ok c' => skipQuoted? d quote c'
termination_by c.left
decreasing_by exact (passes_of_skipPart? ‹_› ‹_›).left_lt

theorem leadsTo_of_skipQuoted? {d : Dialect} {quote : UInt8} {c c' : Cursor}
    (h : skipQuoted? d quote c = .ok c') : c.LeadsTo c' := by
  fun_induction skipQuoted? d quote c with
  | case1 c =>
    obtain rfl := Except.ok.inj h
    exact .refl c
  | case2 c b hb =>
    obtain rfl := Except.ok.inj h
    exact leadsTo_advance c 1
  | case3 c =>
    obtain rfl := Except.ok.inj h
    exact .refl c
  | case4 => exact absurd h (by simp)
  | case5 c b hb _ _ c'' hpart ih => exact (passes_of_skipPart? hb hpart).trans (ih h)

/-- Where the host tag that the cursor is in ends, and the cursor there. -/
def closeMarkup? (d : Dialect) (c : Cursor) : Except Offset.Fault (Closing × Cursor) :=
  match _ : c.current? with
  | none => .ok (⟨c.position, false⟩, c)
  | some b =>
    if b == greater then .ok (⟨(c.advance 1).position, true⟩, c.advance 1)
    else if isQuote b then
      match _ : skipQuoted? d b (c.advance 1) with
      | .error e => .error e
      | .ok c' => closeMarkup? d c'
    else if d.tags.brackets.any c.opensTag then .ok (⟨c.position, true⟩, c)
    else
      match _ : c.skipPart? d.interpolation with
      | .error e => .error e
      | .ok c' => closeMarkup? d c'
termination_by c.left
decreasing_by
  · exact ((passes_advance ‹_› Nat.one_pos).then (leadsTo_of_skipQuoted? ‹_›)).left_lt
  · exact (passes_of_skipPart? ‹_› ‹_›).left_lt

/-! ## Closers -/

/-- Where the region ends that ends with the first `needle`, and the cursor there. -/
def closeThrough (c : Cursor) (needle : List UInt8) : Closing × Cursor :=
  let (found, c) := c.stepThrough needle
  (⟨c.position, found⟩, c)

/-- Where the region ends that ends with an expression, and the cursor there. -/
def closeExpression? (c : Cursor) (t : Expression.Terminator) :
    Except Offset.Fault (Closing × Cursor) :=
  (c.skipExpression? t).map fun (closed, c) => (⟨c.position, closed⟩, c)

/-- Where the region behind an opener ends, by the rule of a kind, if the inside of the region
starts at the cursor; and the cursor at that end.  The opener need not be one of that kind. -/
def readCloser? (c : Cursor) (d : Dialect) (kind : RegionKind) (o : Opener) :
    Except Offset.Fault (Closing × Cursor) :=
  match kind with
  | .comment => .ok (c.closeThrough o.bracket.commentClose)
  | .markupComment => .ok (c.closeThrough [hyphen, hyphen, greater])
  | .markupTag => closeMarkup? d c
  | .directiveStart | .directiveEnd | .macroStart | .macroEnd | .interpolation =>
    c.closeExpression? o.toOpening.terminator
  | .plain => .ok (⟨c.position, false⟩, c)

end TemplateColoring.Cursor

import TemplateColoring.Region.Basic
import TemplateColoring.Expression.Lexeme

/-!
# Where a region opens

Each kind of region but plain text has a rule that tells from the front of a text whether a region
of that kind opens there.  `openingOf?` is the rule of one kind, and `opening?` tries rules in
order.
-/

set_option autoImplicit false

namespace TemplateColoring

open Ascii Bytes

/-- The opening delimiter of a region. -/
structure Opening where
  kind : RegionKind
  /-- The brackets of a tag; an interpolation with braces and host markup count as angle. -/
  bracket : Bracket
  /-- The length of the delimiter, with the name of a tag. -/
  length : Nat
deriving DecidableEq, Repr

namespace Region

/-! ## The rules -/

/-- The length of a tag's opener in given brackets: the bracket, the sigil and a name.  A tag that
may be anonymous opens without a name too. -/
def tagOpenerLength? (sigil : List UInt8) (anonymous : Bool) (b : Bracket) (s : List UInt8) :
    Option Nat :=
  if (b.openByte :: sigil).isPrefixOf s then
    let named := s.drop (1 + sigil.length)
    if named.head?.any isNameStart then
      some (1 + sigil.length + runLength isTagNameContinue named)
    else if anonymous then some (1 + sigil.length)
    else none
  else none

/-- The opening of a tag in the first brackets of the style that fit. -/
def tagOpening? (kind : RegionKind) (sigil : List UInt8) (anonymous : Bool) (style : TagStyle)
    (s : List UInt8) : Option Opening :=
  style.brackets.findSome? fun b =>
    (tagOpenerLength? sigil anonymous b s).map fun length => ⟨kind, b, length⟩

def commentOpening? (style : TagStyle) (s : List UInt8) : Option Opening :=
  (style.brackets.find? (·.opensComment s)).map fun b => ⟨.comment, b, 4⟩

def interpolationOpening? (style : InterpolationStyle) (s : List UInt8) : Option Opening :=
  if style.opens s then some ⟨.interpolation, style.bracket, 2⟩ else none

def markupCommentOpening? (s : List UInt8) : Option Opening :=
  if [less, exclamation, hyphen, hyphen].isPrefixOf s then some ⟨.markupComment, .angle, 4⟩
  else none

/-- Where the name of a host markup tag starts: after `<`, or after `</`, `<?` or `<!`.  A
declaration, which starts with `<!`, needs a letter there. -/
def markupNameAt? : List UInt8 → Option Nat
  | first :: b :: s =>
    if first != less then none
    else if b == slash || b == question then
      if s.head?.any isMarkupNameStart then some 2 else none
    else if b == exclamation then
      if s.head?.any isAlpha then some 2 else none
    else if isMarkupNameStart b then some 1
    else none
  | _ => none

def markupTagOpening? (s : List UInt8) : Option Opening :=
  (markupNameAt? s).map fun start =>
    ⟨.markupTag, .angle, start + runLength isMarkupNameContinue (s.drop start)⟩

/-- Whether a region of one kind opens at the front of a text.  Plain text has no opening. -/
def openingOf? (d : Dialect) (kind : RegionKind) (s : List UInt8) : Option Opening :=
  match kind with
  | .comment => commentOpening? d.tags s
  | .directiveStart => tagOpening? kind [hash] false d.tags s
  | .directiveEnd => tagOpening? kind [slash, hash] false d.tags s
  | .macroStart => tagOpening? kind [commercialAt] false d.tags s
  | .macroEnd => tagOpening? kind [slash, commercialAt] true d.tags s
  | .interpolation => interpolationOpening? d.interpolation s
  | .markupComment => markupCommentOpening? s
  | .markupTag => markupTagOpening? s
  | .plain => none

theorem openingOf?_length_pos {d : Dialect} {kind : RegionKind} {s : List UInt8} {o : Opening}
    (h : openingOf? d kind s = some o) : 0 < o.length := by
  have tag {sigil anonymous style} (h : tagOpening? kind sigil anonymous style s = some o) :
      0 < o.length := by
    obtain ⟨b, _, hb⟩ := List.exists_of_findSome?_eq_some h
    obtain ⟨n, hn, rfl⟩ := Option.map_eq_some_iff.mp hb
    simp only [tagOpenerLength?] at hn
    split at hn
    · split at hn
      · obtain rfl := Option.some.inj hn
        simp only []; omega
      · split at hn
        · obtain rfl := Option.some.inj hn
          simp only []; omega
        · exact absurd hn (by simp)
    · exact absurd hn (by simp)
  cases kind with
  | comment =>
    obtain ⟨b, _, rfl⟩ := Option.map_eq_some_iff.mp h
    simp
  | directiveStart | directiveEnd | macroStart | macroEnd => exact tag h
  | interpolation =>
    simp only [openingOf?, interpolationOpening?] at h
    split at h
    · obtain rfl := Option.some.inj h
      simp
    · exact absurd h (by simp)
  | markupComment =>
    simp only [openingOf?, markupCommentOpening?] at h
    split at h
    · obtain rfl := Option.some.inj h
      simp
    · exact absurd h (by simp)
  | markupTag =>
    obtain ⟨start, hs, rfl⟩ := Option.map_eq_some_iff.mp h
    have : 0 < start := by
      unfold markupNameAt? at hs
      split at hs
      · repeat' split at hs
        all_goals first | (obtain rfl := Option.some.inj hs; decide) | exact absurd hs (by simp)
      · exact absurd hs (by simp)
    simp only []; omega
  | plain => exact absurd h (by simp [openingOf?])

/-! ## Trying the rules -/

/-- The bytes with which an opening can start. -/
def mayOpen (b : UInt8) : Bool := b == less || b == squareOpen || b == dollar || b == hash

/-- The opening at the front of a text, by the first of the given rules that finds one.  No rule is
tried where the first byte cannot start an opening. -/
def openingBy? (rules : List RegionKind) (d : Dialect) (s : List UInt8) : Option Opening :=
  if s.head?.any mayOpen then rules.findSome? (openingOf? d · s) else none

/-- The opening at the front of a text, by the rules of the dialect. -/
def opening? (d : Dialect) (s : List UInt8) : Option Opening := openingBy? d.rules d s

/-- The opening that is found is that of one of the rules. -/
theorem exists_of_openingBy? {rules : List RegionKind} {d : Dialect} {s : List UInt8} {o : Opening}
    (h : openingBy? rules d s = some o) : ∃ kind ∈ rules, openingOf? d kind s = some o := by
  unfold openingBy? at h
  split at h
  · exact List.exists_of_findSome?_eq_some h
  · exact absurd h (by simp)

end Region

end TemplateColoring

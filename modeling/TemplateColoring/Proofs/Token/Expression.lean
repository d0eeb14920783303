import TemplateColoring.Proofs.Expression.Lexeme
import TemplateColoring.Proofs.Region.AtCursor
import TemplateColoring.Proofs.Region.Characters
import TemplateColoring.Proofs.Token.Basic
import TemplateColoring.Token.Region

/-!
# The scan and the coloring see the same tag

A tag or an interpolation is read twice: once by the rule that finds its region in the document,
and once more when the text of the region, cut out of the document, is colored. The second reading
sees nothing behind the region. It still finds the same opener, the same lexemes and the same
terminator, since none of these is decided by anything behind the region
(`Template.color_expression`).
-/

set_option autoImplicit false

namespace TemplateColoring

open Ascii Bytes Region

namespace Token

/-! ## The tokens of an expression region -/

theorem delimiter_not_mergeable (shape : ExpressionRegion) :
    shape.delimiter.isMergeable = false := by
  cases shape <;> rfl

theorem isSigil_of_isNameStart : ∀ b : UInt8, isNameStart b = true → isSigil b = false :=
  forall_byte (by decide +kernel)

/-- Only a terminator is colored like the opener. -/
theorem lexemeKind_ne_delimiter (shape : ExpressionRegion) {x : Expression.Lexeme}
    (h : x.item ≠ .close) : lexemeKind shape.delimiter x ≠ shape.delimiter := by
  obtain ⟨item, text⟩ := x
  cases item <;> cases shape <;> simp only [lexemeKind, ExpressionRegion.delimiter] <;>
    first | exact absurd rfl h | (split <;> simp) | simp

/-- The run of a lexeme. -/
def lexemeRun (delimiter : TokenKind) (x : Expression.Lexeme) : Run TokenKind :=
  ⟨lexemeKind delimiter x, x.text.length⟩

theorem total_lexemeRun (delimiter : TokenKind) (lexemes : List Expression.Lexeme) :
    Run.total (lexemes.map (lexemeRun delimiter)) = (lexemes.map (·.text)).flatten.length := by
  induction lexemes with
  | nil => rfl
  | cons x lexemes ih =>
      rw [Run.total] at ih ⊢
      rw [List.map_cons, totalOf_cons, ih, List.map_cons, List.flatten_cons, List.length_append]
      rfl

section Runs

variable {shape : ExpressionRegion} {s : List UInt8} {opener : Nat} {t : Expression.Terminator}

/-- Where the lexemes reach to the end of the text, the opener and the terminator stay alone and
only what is between them is merged. -/
theorem ofRuns_expressionRuns {inner : List Expression.Lexeme} {closer? : Option Expression.Lexeme}
    (hopener : openerOf shape s = (opener, t)) (hpos : 0 < opener)
    (hall : opener + (Expression.extent t (s.drop opener)).length = s.length)
    (hlex : Expression.lex t (s.drop opener) = inner ++ closer?.toList)
    (hcloser : ∀ c ∈ closer?, c.item = .close ∧ c.text ∈ t.spellings) (start : Nat) :
    ofRuns start (expressionRuns shape s) = ⟨shape.delimiter, start, opener⟩ ::
      (ofRuns (start + opener) (inner.map (lexemeRun shape.delimiter)) ++
        (closer?.map fun c => ⟨shape.delimiter,
          start + opener + ((inner.map (·.text)).flatten).length, c.text.length⟩).toList) := by
  have hleft : s.length - opener - (Expression.reach (inner ++ closer?.toList)).length = 0 := by
    rw [← hlex, ← Expression.extent]
    omega
  have hruns : expressionRuns shape s = ⟨shape.delimiter, opener⟩ ::
      (inner.map (lexemeRun shape.delimiter) ++
        (closer?.map (lexemeRun shape.delimiter)).toList) ++ [⟨.other, 0⟩] := by
    simp only [expressionRuns, hopener, hlex, hleft]
    cases closer? with
    | none => simp [lexemeRun]
    | some c => simp [lexemeRun]
  have hdelimiter : ∀ run ∈ closer?.map (lexemeRun shape.delimiter),
      run.kind = shape.delimiter ∧ 0 < run.length := by
    intro run hrun
    obtain ⟨c, hc, rfl⟩ := Option.map_eq_some_iff.mp hrun
    obtain ⟨hitem, htext⟩ := hcloser c hc
    exact ⟨by simp [lexemeRun, lexemeKind, hitem], Expression.spellings_length_pos htext⟩
  rw [hruns, ofRuns_append_empty,
    ofRuns_delimited (delimiter_not_mergeable shape) hpos hdelimiter, total_lexemeRun,
    Option.map_map]
  rfl

/-- Where the lexemes reach to the end of the text, its tokens are the opener, tokens of other
kinds and, if the expression is closed, the terminator. -/
theorem exists_tokens (hopener : openerOf shape s = (opener, t)) (hpos : 0 < opener)
    (hall : opener + (Expression.extent t (s.drop opener)).length = s.length) (start : Nat) :
    ∃ (inner : List Token) (closer? : Option Token),
      ofRuns start (expressionRuns shape s) =
        ⟨shape.delimiter, start, opener⟩ :: (inner ++ closer?.toList) ∧
      (∀ p ∈ inner, p.kind ≠ shape.delimiter) ∧
      closer?.isSome = (Expression.extent t (s.drop opener)).closed ∧
      ∀ c ∈ closer?, c.kind = shape.delimiter ∧ start ≤ c.start ∧
        c.stop = start + s.length ∧ s.drop (c.start - start) ∈ t.spellings := by
  obtain ⟨inner, closer?, hlex, hinner, hcloser, hclosed⟩ :=
    Expression.exists_closer t 0 (s.drop opener)
  have htexts := Expression.flatten_text t 0 (s.drop opener)
  rw [← Expression.lex_eq_lexFrom] at hlex hclosed htexts
  have hlen : (Expression.reach (Expression.lex t (s.drop opener))).length =
      (s.drop opener).length := by
    rw [← Expression.extent, List.length_drop]
    omega
  rw [hlen, List.take_length, hlex, List.map_append, List.flatten_append] at htexts
  rw [ofRuns_expressionRuns hopener hpos hall hlex hcloser]
  refine ⟨_, _, rfl, ?_, ?_, ?_⟩
  · intro p hp
    obtain ⟨r, hr, hrp⟩ := exists_of_mem_ofRuns hp
    obtain ⟨x, hx, rfl⟩ := List.mem_map.mp hr
    rw [← hrp]
    exact lexemeKind_ne_delimiter shape (hinner x hx)
  · rw [Option.isSome_map, Expression.extent, hclosed]
  · intro c hc
    obtain ⟨x, rfl, rfl⟩ := Option.map_eq_some_iff.mp hc
    have hdrop := congrArg List.length htexts
    simp only [Option.toList_some, List.map_cons, List.map_nil, List.flatten_cons,
      List.flatten_nil, List.append_nil, List.length_append, List.length_drop] at htexts hdrop
    refine ⟨rfl, by simp only []; omega, by simp only [Span.stop]; omega, ?_⟩
    -- the lexemes in front of the terminator are what lies between it and the opener
    have hstart : start + opener + ((inner.map (·.text)).flatten).length - start =
        opener + ((inner.map (·.text)).flatten).length := by omega
    simp only [hstart]
    rw [← List.drop_drop, ← htexts, List.drop_left]
    exact (hcloser x rfl).2

end Runs

/-! ## The opener seen twice -/

theorem bracketOf_openByte (b : Bracket) (s : List UInt8) : bracketOf (b.openByte :: s) = b := by
  cases b <;> rfl

theorem bracketOf_of_opens {style : InterpolationStyle} {s : List UInt8}
    (h : style.opens s = true) : bracketOf s = style.bracket := by
  obtain ⟨opener, ho, hp⟩ := List.any_eq_true.mp h
  obtain ⟨z, rfl⟩ := List.isPrefixOf_iff_prefix.mp hp
  cases style <;>
    simp only [InterpolationStyle.openers, List.mem_cons, List.not_mem_nil, or_false] at ho
  · rcases ho with rfl | rfl <;> rfl
  · subst ho; rfl
  · subst ho; rfl

/-- A tag's opener is found without knowing its sigil, if a name follows. -/
theorem tagOpenerLength_eq {b : Bracket} {sigil named : List UInt8}
    (hsigil : sigil ∈ [[hash], [slash, hash], [commercialAt]])
    (hname : named.head?.any isNameStart = true) :
    tagOpenerLength (b.openByte :: (sigil ++ named)) =
      1 + sigil.length + runLength isTagNameContinue named := by
  cases named with
  | nil => exact absurd hname (by simp)
  | cons c named =>
      have hc : isSigil c = false := isSigil_of_isNameStart c (by simpa using hname)
      simp only [List.mem_cons, List.not_mem_nil, or_false] at hsigil
      rcases hsigil with rfl | rfl | rfl <;>
        simp [tagOpenerLength, runLength, hc, show isSigil hash = true by decide,
          show isSigil slash = true by decide, show isSigil commercialAt = true by decide]

/-- The coloring reads the same opener as the rule of a tag with a name. -/
theorem tagOpener_eq {kind : RegionKind} {sigil s : List UInt8} {style : TagStyle} {o : Opening}
    (hsigil : sigil ∈ [[hash], [slash, hash], [commercialAt]])
    (h : tagOpening? kind sigil false style s = some o) :
    tagOpenerLength s = o.length ∧ bracketOf s = o.bracket := by
  obtain ⟨-, -, hn⟩ := tagOpening?_eq_some_iff.mp h
  obtain ⟨named, rfl, ⟨hname, hlen⟩ | ⟨-, hfalse, -⟩⟩ := tagOpenerLength?_eq_some_iff.mp hn
  · exact ⟨(tagOpenerLength_eq hsigil hname).trans hlen.symm, bracketOf_openByte _ _⟩
  · exact absurd hfalse (by simp)

/-- The coloring reads the same opener as the rule of the region, and expects the same end. -/
theorem openerOf_eq {d : Dialect} {kind : RegionKind} {shape : ExpressionRegion} {s : List UInt8}
    {o : Opening} (hkind : kind ∈ [.directiveStart, .directiveEnd, .macroStart, .interpolation])
    (hshape : Coloring.ofRegion d kind = .expression shape) (h : openingOf? d kind s = some o) :
    openerOf shape s = (o.length, o.terminator) := by
  have hle := (openingOf?_bounds h).2
  have hokind := openingOf?_kind h
  have htag {sigil : List UInt8} (hsigil : sigil ∈ [[hash], [slash, hash], [commercialAt]])
      (hne : kind ≠ .interpolation) (htag : tagOpening? kind sigil false d.tags s = some o) :
      (min (tagOpenerLength s) s.length, Expression.Terminator.tag (bracketOf s)) =
        (o.length, o.terminator) := by
    obtain ⟨hlen, hbracket⟩ := tagOpener_eq hsigil htag
    rw [hlen, hbracket, Nat.min_eq_left hle, Opening.terminator, hokind, if_neg hne]
  simp only [List.mem_cons, List.not_mem_nil, or_false] at hkind
  rcases hkind with rfl | rfl | rfl | rfl
  · obtain rfl := Coloring.expression.inj hshape
    exact htag (by simp) (by decide) h
  · obtain rfl := Coloring.expression.inj hshape
    exact htag (by simp) (by decide) h
  · obtain rfl := Coloring.expression.inj hshape
    exact htag (by simp) (by decide) h
  · obtain rfl := Coloring.expression.inj hshape
    obtain ⟨hopens, rfl⟩ := interpolationOpening?_eq_some_iff.mp h
    simp only [] at hle
    rw [openerOf, bracketOf_of_opens hopens, Nat.min_eq_left hle]
    rfl

end Token

/-! ## The region seen twice -/

/-- The tokens of a region show what its rule found: the first is the opener, the tokens between
are of other kinds, and a last one covers the terminator if the rule found one. -/
structure Delimited (t : Template) (d : Dialect) (r : Region) (o : Opener) (delimiter : TokenKind)
    (inner : List Token) (closer? : Option Token) : Prop where
  opener : (Cursor.ofOffset t.bytes r.start).opener? d r.kind = some o
  tokens : t.color d r = ⟨delimiter, o.start, o.length⟩ :: (inner ++ closer?.toList)
  inner_kind : ∀ p ∈ inner, p.kind ≠ delimiter
  closer : ∀ c ∈ closer?, c.kind = delimiter ∧ c.stop = r.stop ∧
    (t.bytes.extract c.start c.stop).toList ∈ o.terminator.spellings
  closed : closer?.isSome =
    ((Cursor.ofOffset t.bytes (o.start + o.length)).close d r.kind o).1.terminated

/-- The region of an expression, cut out of the document, has the same opener and the same
expression as in the document. -/
theorem exists_opening_of_expression {d : Dialect} {kind : RegionKind} {t : List UInt8} {n : Nat}
    (hkind : kind ∈ expressionKinds) (h : firstBy d.rules d t = ⟨kind, n⟩) :
    ∃ o, openingOf? d kind t = some o ∧ openingOf? d kind (t.take n) = some o ∧
      closingOf d kind o (t.drop o.length) =
        Expression.extent o.terminator ((t.take n).drop o.length) ∧
      o.length + (Expression.extent o.terminator ((t.take n).drop o.length)).length =
        (t.take n).length := by
  have hne : kind ≠ .plain := by
    rintro rfl
    simp [expressionKinds] at hkind
  have hle : n ≤ t.length := by
    have hfirst := firstBy_le d.rules d t
    rwa [h] at hfirst
  obtain ⟨x, z, rfl, rfl⟩ : ∃ x z, t = x ++ z ∧ x.length = n := exists_cut hle
  rcases firstBy_cases h with ⟨hplain, -⟩ | ⟨w, y, o, rfl, hruled⟩
  · exact absurd hplain hne
  -- `w` is the opener, `y` the expression, and `z` what follows the region
  have hopening := hruled.cut.opening
  have hextent := hruled.closing
  rw [List.append_nil] at hopening
  rw [closingOf_eq_extent hkind] at hextent
  refine ⟨o, ?_⟩
  rw [closingOf_eq_extent hkind, List.take_left, List.append_assoc, hruled.length, List.drop_left,
    List.drop_left, Expression.extent_cut hextent, hextent, List.length_append]
  exact ⟨hruled.opening, hopening, rfl, rfl⟩

theorem exists_opening_of_cut {d : Dialect} {kind : RegionKind} {t : List UInt8} {n : Nat}
    (hkind : kind ∈ [.directiveStart, .directiveEnd, .macroStart, .interpolation])
    (h : firstBy d.rules d t = ⟨kind, n⟩) :
    ∃ o, openingOf? d kind t = some o ∧ openingOf? d kind (t.take n) = some o ∧
      closingOf d kind o (t.drop o.length) =
        Expression.extent o.terminator ((t.take n).drop o.length) ∧
      o.length + (Expression.extent o.terminator ((t.take n).drop o.length)).length =
        (t.take n).length := by
  have hexpression : kind ∈ expressionKinds := by
    revert hkind
    cases kind <;> decide
  exact exists_opening_of_expression hexpression h

/-- **The scan and the coloring see the same tag.** For every directive, macro call and
interpolation of a text, the tokens start with the opener that the rule found, a terminator is
colored as the last token just if the rule found one, and the lexemes of the region's own text
reach to its end. -/
theorem Template.color_expression (d : Dialect) (s : String) {r : Region}
    (hr : r ∈ (ofString s).regions d)
    (hkind : r.kind ∈ [.directiveStart, .directiveEnd, .macroStart, .interpolation]) :
    ∃ (o : Opener) (shape : Token.ExpressionRegion) (inner : List Token)
      (closer? : Option Token) (text : List UInt8),
      Coloring.ofRegion d r.kind = .expression shape ∧
      Delimited (ofString s) d r o shape.delimiter inner closer? ∧
      (ofString s).slice? r.start r.stop = some text ∧
      Token.openerOf shape text = (o.length, o.terminator) ∧
      o.length + (Expression.extent o.terminator (text.drop o.length)).length = text.length := by
  have hscan := hr
  rw [regions_eq_scan] at hscan
  obtain ⟨x, t, hbytes, hx, hfirst, -⟩ := exists_of_mem_scanBy hscan
  obtain ⟨o, ho, ho', hclose, hall⟩ := exists_opening_of_cut hkind hfirst
  rw [Nat.zero_add] at hx
  have hsize := size_eq_add hbytes
  have hle := openingOf?_bounds ho
  have ht : (ofString s).bytes.toList.drop r.start = t := by rw [hx, hbytes, List.drop_left]
  have hslice := slice?_of_mem hr
  rw [ht] at hslice
  obtain ⟨shape, hshape⟩ : ∃ shape, Coloring.ofRegion d r.kind = .expression shape := by
    simp only [List.mem_cons, List.not_mem_nil, or_false] at hkind
    rcases hkind with hk | hk | hk | hk <;> rw [hk] <;> exact ⟨_, rfl⟩
  have hopener := Token.openerOf_eq hkind hshape ho'
  obtain ⟨inner, closer?, htokens, hinner, hclosed, hcloser⟩ :=
    Token.exists_tokens hopener (by omega) hall r.start
  refine ⟨{ o with start := r.start }, shape, inner, closer?, t.take r.length, hshape, ?_,
    hslice, hopener, hall⟩
  have hlen : (t.take r.length).length = r.length := by
    have hfit := firstBy_le d.rules d t
    rw [hfirst] at hfit
    exact (List.length_take).trans (Nat.min_eq_left hfit)
  constructor
  · rw [Cursor.opener?_eq_some_iff (by omega), ht]
    exact ⟨rfl, ho⟩
  · rw [color, hslice, hshape]
    exact htokens
  · exact hinner
  · intro c hc
    obtain ⟨hck, hcs, hce, htext⟩ := hcloser c hc
    rw [hlen] at hce
    refine ⟨hck, hce, ?_⟩
    have hfar : c.stop - c.start = r.length - (c.start - r.start) := by omega
    have hahead : (ofString s).bytes.toList.drop c.start = t.drop (c.start - r.start) := by
      rw [← ht, List.drop_drop, Nat.add_sub_cancel' hcs]
    rw [Array.toList_extract, List.extract_eq_take_drop, hahead, hfar, ← List.drop_take]
    exact htext
  · rw [Cursor.close_ofOffset d r.kind _ (by show r.start + o.length ≤ _; omega)]
    calc closer?.isSome
        = (Expression.extent o.terminator ((t.take r.length).drop o.length)).closed := hclosed
      _ = (closingOf d r.kind o (t.drop o.length)).closed := by rw [hclose]
      _ = (closingOf d r.kind o ((ofString s).bytes.toList.drop (r.start + o.length))).closed := by
          rw [← List.drop_drop, ht]

/-- The bracket that closes the tag is the one behind the parentheses, for both. -/
theorem Template.color_expression_parentheses :
    ∃ o inner closer?, Delimited (.ofString "<#if (a>b)>c") {} ⟨.directiveStart, 0, 11⟩ o
      .directive inner closer? ∧ closer?.isSome = true := by
  have hmem : (⟨.directiveStart, 0, 11⟩ : Region) ∈ (ofString "<#if (a>b)>c").regions {} := by
    rw [regions_eq_scan]
    decide
  obtain ⟨o, shape, inner, closer?, -, hshape, hdelimited, -⟩ :=
    Template.color_expression {} "<#if (a>b)>c" hmem (by decide)
  obtain rfl := Coloring.expression.inj hshape
  have ho : o = ⟨⟨.directiveStart, .angle, 4⟩, 0⟩ :=
    Option.some.inj (hdelimited.opener.symm.trans (by decide))
  refine ⟨o, inner, closer?, hdelimited, ?_⟩
  rw [hdelimited.closed, ho]
  decide

end TemplateColoring

import TemplateColoring.Proofs.Token.Expression

/-!
# End tags of macros

The end tag of a macro may be anonymous, and so its rule takes what stands behind `</@` as a name
only if a name starts there. The coloring takes a digit or a dot for the name as well. It sees the
opener that the rule found just if neither of them follows the sigil (`Template.color_macroEnd`).
Otherwise the two read the expression from different places on, and may even disagree about where
its strings are.
-/

set_option autoImplicit false

namespace TemplateColoring

open Ascii Bytes Region

namespace Token

/-! ## The opener seen twice -/

/-- What goes on as the name of a tag either starts a name, or is a digit or a dot. -/
theorem isTagNameContinue_iff : ∀ c : UInt8, isTagNameContinue c = true ↔
    isNameStart c = true ∨ ¬(isDigit c = false ∧ c ≠ dot) :=
  forall_byte (by decide +kernel)

theorem of_isNameStart : ∀ c : UInt8, isNameStart c = true → isDigit c = false ∧ c ≠ dot :=
  forall_byte (by decide +kernel)

/-- The coloring takes all that goes on as a name for the name of an end tag. -/
theorem openerOf_endTag (b : Bracket) (named : List UInt8) :
    openerOf .macroCall (b.openByte :: ([slash, commercialAt] ++ named)) =
      (3 + runLength isTagNameContinue named, .tag b) := by
  have hle := runLength_le_length isTagNameContinue named
  have hsigils : tagOpenerLength (b.openByte :: ([slash, commercialAt] ++ named)) =
      3 + runLength isTagNameContinue named := rfl
  rw [openerOf, hsigils, bracketOf_openByte, List.length_cons, List.length_append,
    Nat.min_eq_left (by simp only [List.length_cons, List.length_nil]; omega)]

theorem openerOf_endTag_terminator {d : Dialect} {s : List UInt8} {o : Opening}
    (h : openingOf? d .macroEnd s = some o) : (openerOf .macroCall s).2 = o.terminator := by
  obtain ⟨hkind, -, hn⟩ := tagOpening?_eq_some_iff.mp h
  obtain ⟨named, rfl, -⟩ := tagOpenerLength?_eq_some_iff.mp hn
  rw [openerOf_endTag, Opening.terminator, hkind]
  rfl

/-- The coloring reads the opener of an end tag like the rule, but for a digit or a dot behind the
sigil. -/
theorem openerOf_endTag_length_iff {d : Dialect} {s : List UInt8} {o : Opening}
    (h : openingOf? d .macroEnd s = some o) : (openerOf .macroCall s).1 = o.length ↔
      ∀ c, s[3]? = some c → isDigit c = false ∧ c ≠ dot := by
  obtain ⟨-, -, hn⟩ := tagOpening?_eq_some_iff.mp h
  obtain ⟨named, rfl, hcase⟩ := tagOpenerLength?_eq_some_iff.mp hn
  have hbehind : (o.bracket.openByte :: ([slash, commercialAt] ++ named))[3]? = named.head? := by
    rw [List.head?_eq_getElem?]
    rfl
  rw [openerOf_endTag, hbehind]
  rcases hcase with ⟨hname, hlen⟩ | ⟨hname, -, hlen⟩
  · -- with a name both go to its end
    refine ⟨fun _ c hc => of_isNameStart c ?_, fun _ => hlen.symm⟩
    rwa [hc, Option.any_some] at hname
  · -- without one the rule stops behind the sigil
    have hnone : 3 + runLength isTagNameContinue named = o.length ↔
        runLength isTagNameContinue named = 0 := by
      rw [hlen, List.length_cons, List.length_singleton]
      omega
    rw [hnone]
    cases named with
    | nil => exact ⟨fun _ c hc => absurd hc (by simp), fun _ => rfl⟩
    | cons c rest =>
        have hstart : isNameStart c = false := hname
        have hzero : runLength isTagNameContinue (c :: rest) = 0 ↔ isTagNameContinue c = false := by
          cases hc : isTagNameContinue c <;> simp [runLength, hc]
        have hone : isTagNameContinue c = false ↔ isDigit c = false ∧ c ≠ dot := by
          rw [← Bool.not_eq_true, isTagNameContinue_iff c, hstart]
          simp
        rw [hzero, hone, List.head?_cons]
        exact ⟨fun hc c' hc' => Option.some.inj hc' ▸ hc, fun hall => hall c rfl⟩

/-- An expression region's first token is its opener, as the coloring reads it. -/
theorem exists_ofRuns_eq_cons (shape : ExpressionRegion) (start : Nat) {s : List UInt8}
    (hpos : 0 < (openerOf shape s).1) : ∃ rest, ofRuns start (expressionRuns shape s) =
      ⟨shape.delimiter, start, (openerOf shape s).1⟩ :: rest := by
  obtain ⟨runs, hruns⟩ : ∃ runs, expressionRuns shape s =
      ⟨shape.delimiter, (openerOf shape s).1⟩ :: runs := ⟨_, rfl⟩
  rw [ofRuns, hruns, merge_cons (delimiter_not_mergeable shape) hpos, Span.place_cons]
  exact ⟨_, rfl⟩

end Token

namespace Template

/-! ## The end tag seen twice -/

variable {d : Dialect} {s : String} {r : Region} {t : List UInt8} {o : Opening}

/-- A region is seen twice alike if the coloring reads the opener that the rule found. -/
theorem exists_delimited {shape : Token.ExpressionRegion} (hr : r ∈ (ofString s).regions d)
    (hkind : r.kind ∈ expressionKinds) (hshape : Coloring.ofRegion d r.kind = .expression shape)
    (ht : (ofString s).bytes.toList.drop r.start = t) (ho : openingOf? d r.kind t = some o)
    (hopener : Token.openerOf shape (t.take r.length) = (o.length, o.terminator)) :
    ∃ inner closer?,
      Delimited (ofString s) d r { o with start := r.start } shape.delimiter inner closer? := by
  obtain ⟨hfirst, hsize⟩ := firstBy_of_mem hr ht
  obtain ⟨o', ho', -, hclose, hall⟩ := exists_opening_of_expression hkind hfirst
  obtain rfl : o' = o := Option.some.inj (ho'.symm.trans ho)
  have hbounds := openingOf?_bounds ho
  have hfit : r.length ≤ t.length := by
    have hle := firstBy_le d.rules d t
    rwa [hfirst] at hle
  have hlen : (t.take r.length).length = r.length := List.length_take_of_le hfit
  have hslice := slice?_of_mem hr
  rw [ht] at hslice
  obtain ⟨inner, closer?, htokens, hinner, hclosed, hcloser⟩ :=
    Token.exists_tokens hopener (by omega) hall r.start
  refine ⟨inner, closer?, ?_, ?_, hinner, ?_, ?_⟩
  · rw [Cursor.opener?_eq_some_iff (by omega), ht]
    exact ⟨rfl, ho⟩
  · rw [color, hslice, hshape]
    exact htokens
  · intro c hc
    obtain ⟨hck, hcs, hce, htext⟩ := hcloser c hc
    rw [hlen] at hce
    refine ⟨hck, hce, ?_⟩
    have hfar : c.stop - c.start = r.length - (c.start - r.start) := by omega
    have hahead : (ofString s).bytes.toList.drop c.start = t.drop (c.start - r.start) := by
      rw [← ht, List.drop_drop, Nat.add_sub_cancel' hcs]
    rw [Array.toList_extract, List.extract_eq_take_drop, hahead, hfar, ← List.drop_take]
    exact htext
  · rw [Cursor.close_ofOffset d r.kind _ (by show r.start + o'.length ≤ _; omega)]
    calc closer?.isSome
        = (Expression.extent o'.terminator ((t.take r.length).drop o'.length)).closed := hclosed
      _ = (closingOf d r.kind o' (t.drop o'.length)).closed := by rw [hclose]
      _ = (closingOf d r.kind o' ((ofString s).bytes.toList.drop (r.start + o'.length))).closed := by
          rw [← List.drop_drop, ht]

/-- The byte behind the sigil of an end tag belongs to its region. -/
theorem getElem?_take_of_macroEnd {n : Nat} (h : firstBy d.rules d t = ⟨.macroEnd, n⟩) :
    (t.take n)[3]? = t[3]? := by
  by_cases hn : 3 < n
  · exact List.getElem?_take_of_lt hn
  · -- a region this short is all of the text, as an expression takes any byte that is there
    obtain ⟨-, o, ho, hlen⟩ := exists_opening_of_firstBy (by decide) h
    have hlong : 3 ≤ o.length := by
      obtain ⟨named, -, hcase⟩ :=
        tagOpenerLength?_eq_some_iff.mp (tagOpening?_eq_some_iff.mp ho).2.2
      simp only [List.length_cons, List.length_nil] at hcase
      omega
    have hend : t.drop o.length = [] := by
      refine Decidable.byContradiction fun hne => ?_
      have hpos : 0 < (closingOf d .macroEnd o (t.drop o.length)).length :=
        Expression.extent_pos o.terminator hne
      omega
    have hshort : t.length ≤ 3 := by
      have := List.drop_eq_nil_iff.mp hend
      omega
    rw [List.getElem?_eq_none hshort,
      List.getElem?_eq_none (by rw [List.length_take]; omega)]

/-- **An end tag of a macro is seen twice alike** just if neither a digit nor a dot stands behind
its sigil. -/
theorem color_macroEnd (d : Dialect) (s : String) {r : Region} (hr : r ∈ (ofString s).regions d)
    (hkind : r.kind = .macroEnd) :
    (∃ o inner closer?, Delimited (ofString s) d r o .macroCall inner closer?) ↔
      ∀ c, (ofString s).byteAt? (r.start + 3) = some c → isDigit c = false ∧ c ≠ dot := by
  obtain ⟨t, ht⟩ : ∃ t, (ofString s).bytes.toList.drop r.start = t := ⟨_, rfl⟩
  obtain ⟨hfirst, hsize⟩ := firstBy_of_mem hr ht
  have hexpression : r.kind ∈ expressionKinds := by rw [hkind]; decide
  obtain ⟨o, ho, hcut, -⟩ := exists_opening_of_expression hexpression hfirst
  have hbyte : (ofString s).byteAt? (r.start + 3) = (t.take r.length)[3]? := by
    rw [hkind] at hfirst
    rw [getElem?_take_of_macroEnd hfirst, ← ht, List.getElem?_drop, byteAt?, Array.getElem?_toList]
  rw [hkind] at hcut
  rw [hbyte, ← Token.openerOf_endTag_length_iff hcut]
  have hshape : Coloring.ofRegion d r.kind = .expression .macroCall := by
    rw [hkind]
    rfl
  constructor
  · rintro ⟨o', inner, closer?, hdelimited⟩
    obtain ⟨-, ho'⟩ := (Cursor.opener?_eq_some_iff (by omega)).mp hdelimited.opener
    rw [ht] at ho'
    obtain rfl : o = o'.toOpening := Option.some.inj (ho.symm.trans ho')
    have hslice := slice?_of_mem hr
    rw [ht] at hslice
    have hpos : 0 < (Token.openerOf .macroCall (t.take r.length)).1 := by
      have hbounds := openingOf?_bounds hcut
      refine Nat.lt_min.mpr ⟨?_, by omega⟩
      simp only [Token.tagOpenerLength]
      omega
    obtain ⟨rest, hrest⟩ := Token.exists_ofRuns_eq_cons .macroCall r.start hpos
    -- both say what the first token is
    have hcolor := hdelimited.tokens
    rw [color, hslice, hshape] at hcolor
    have hfirst := (List.cons.inj (hrest.symm.trans hcolor)).1
    exact (Span.mk.inj hfirst).2.2
  · intro hlength
    have hopener : Token.openerOf .macroCall (t.take r.length) = (o.length, o.terminator) :=
      Prod.ext hlength (Token.openerOf_endTag_terminator hcut)
    obtain ⟨inner, closer?, hdelimited⟩ := exists_delimited hr hexpression hshape ht ho hopener
    exact ⟨_, inner, closer?, hdelimited⟩

/-- The end tag of a macro with a name is seen twice alike. -/
theorem color_macroEnd_named :
    ∃ o inner closer?, Delimited (ofString "</@a>") {} ⟨.macroEnd, 0, 5⟩ o .macroCall inner
      closer? := by
  have hmem : (⟨.macroEnd, 0, 5⟩ : Region) ∈ (ofString "</@a>").regions {} := by
    rw [regions_eq_scan]
    decide
  refine (color_macroEnd {} "</@a>" hmem rfl).mpr ?_
  intro c hc
  obtain rfl : c = 0x61 := Option.some.inj (hc.symm.trans (by decide))
  decide

/-- Behind a dot the rule finds a raw string and the closing bracket. The coloring takes the sign of
the raw string for the end of the name, and so the string for one that has no end. -/
theorem color_macroEnd_raw_string :
    (⟨.macroEnd, 0, 9⟩ : Region) ∈ (ofString "</@.r'\\'>").regions {} ∧
      ¬∃ o inner closer?, Delimited (ofString "</@.r'\\'>") {} ⟨.macroEnd, 0, 9⟩ o .macroCall inner
        closer? := by
  refine ⟨by rw [regions_eq_scan]; decide, ?_⟩
  rintro ⟨o, inner, closer?, hdelimited⟩
  have ho : o = ⟨⟨.macroEnd, .angle, 3⟩, 0⟩ :=
    Option.some.inj (hdelimited.opener.symm.trans (by decide))
  have htokens : (ofString "</@.r'\\'>").color {} ⟨.macroEnd, 0, 9⟩ =
      [⟨.macroCall, 0, 5⟩, ⟨.string, 5, 4⟩] := by decide
  have hopener := (List.cons.inj (htokens.symm.trans hdelimited.tokens)).1
  rw [ho] at hopener
  exact absurd hopener (by decide)

end Template

end TemplateColoring

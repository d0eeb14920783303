import TemplateColoring.Proofs.Region.AtCursor
import TemplateColoring.Proofs.Region.Scan
import TemplateColoring.Proofs.Region.Scanner

/-!
# Regions that are cut short

An expression with open brackets, and a host tag, stop in front of what looks like a tag of the
template language: a bracket and a sigil, `<#`, `<@`, `</#` or `</@` with angle brackets. The rules
of the openings ask for more. They want the brackets to be those of the dialect, and a name behind
the sigil unless the tag may be anonymous. So the region behind a cut is a tag if it is written out
(`completesTag`) in brackets of the dialect, and plain text otherwise (`Template.cutShort_next`).
-/

set_option autoImplicit false

namespace TemplateColoring

open Ascii Bytes TemplateColoring.Span

namespace Region

variable {d : Dialect} {b : Bracket} {s sigil named : List UInt8}

/-- The sigils of the tags, behind the bracket. -/
def sigils : List (List UInt8) := [[hash], [commercialAt], [slash, hash], [slash, commercialAt]]

/-- The kinds of the tags of the template language, comments included. -/
def tagKinds : List RegionKind :=
  [.comment, .directiveStart, .directiveEnd, .macroStart, .macroEnd]

/-- Whether bracket and sigil belong to a tag: a name follows, or the tag needs none, or two hyphens
make it a comment. -/
def completesTag (sigil named : List UInt8) : Bool :=
  named.head?.any isNameStart || sigil == [slash, commercialAt] ||
    sigil == [hash] && [hyphen, hyphen].isPrefixOf named

/-! ## Where a cut is -/

/-- An expression that is not closed ends where the text ends or where a tag seems to open. -/
theorem cut_of_expression {t : Expression.Terminator} {x z : List UInt8} (hz : z ≠ [])
    (hlen : (Expression.extent t (x ++ z)).length = x.length)
    (hopen : (Expression.extent t (x ++ z)).closed = false) : t.comments.opensTag z = true := by
  have hstop := Expression.drop_reach_of_not_closed
    (show (Expression.reach (Expression.lexFrom t 0 (x ++ z))).closed = false from hopen)
  rw [← Expression.lex_eq_lexFrom, ← Expression.extent, hlen, List.drop_left] at hstop
  rcases hstop with hnil | ⟨-, htag⟩
  · exact absurd hnil hz
  · exact htag

/-- A host tag ends with its bracket, where the text ends, or where a tag seems to open. -/
theorem cut_of_markup {x z : List UInt8} (hz : z ≠ [])
    (hlen : (markupExtent d (x ++ z)).length = x.length) (hopen : x.getLast? ≠ some greater) :
    d.tags.opensTag z = true := by
  rcases markupExtent_cases hlen with ⟨u, rfl, -⟩ | ⟨-, -, hend⟩
  · exact absurd List.getLast?_concat hopen
  · exact (hend.resolve_left hz).1

/-- The comments and tags inside an expression are written in the brackets of its opening. -/
theorem comments_terminator (o : Opening) : o.terminator.comments = o.bracket := by
  rw [Opening.terminator]
  split
  · cases o.bracket <;> rfl
  · rfl

/-- An interpolation goes by brackets of its own, and a tag by brackets of the dialect. -/
theorem bracket_of_openingOf? {kind : RegionKind} {o : Opening} (hkind : kind ∈ expressionKinds)
    (h : openingOf? d kind s = some o) :
    (kind = .interpolation → o.bracket = d.interpolation.bracket) ∧
    (kind ≠ .interpolation → o.bracket ∈ d.tags.brackets) := by
  simp only [expressionKinds, List.mem_cons, List.not_mem_nil, or_false] at hkind
  rcases hkind with rfl | rfl | rfl | rfl | rfl
  · exact ⟨fun hne => absurd hne (by decide), fun _ => (tagOpening?_eq_some_iff.mp h).2.1⟩
  · exact ⟨fun hne => absurd hne (by decide), fun _ => (tagOpening?_eq_some_iff.mp h).2.1⟩
  · exact ⟨fun hne => absurd hne (by decide), fun _ => (tagOpening?_eq_some_iff.mp h).2.1⟩
  · exact ⟨fun hne => absurd hne (by decide), fun _ => (tagOpening?_eq_some_iff.mp h).2.1⟩
  · exact ⟨fun _ => by rw [(interpolationOpening?_eq_some_iff.mp h).2], fun hne => absurd rfl hne⟩

/-- A region that opens with an expression and is not closed is followed by what seems a tag. -/
theorem opensTag_of_expression {kind : RegionKind} {o : Opening} {y z : List UInt8}
    (hkind : kind ∈ expressionKinds) (hfirst : firstBy d.rules d (y ++ z) = ⟨kind, y.length⟩)
    (hz : z ≠ []) (ho : openingOf? d kind (y ++ z) = some o)
    (hopen : (closingOf d kind o ((y ++ z).drop o.length)).closed = false) :
    o.bracket.opensTag z = true := by
  have hne : kind ≠ .plain := by
    rintro rfl
    exact absurd hkind (by decide)
  rcases firstBy_cases hfirst with ⟨hplain, -⟩ | ⟨w, v, o', rfl, hruled⟩
  · exact absurd hplain hne
  rw [List.append_assoc] at ho hopen
  obtain rfl : o = o' := Option.some.inj (ho.symm.trans hruled.opening)
  have hlen := hruled.closing
  rw [hruled.length, List.drop_left, closingOf_eq_extent hkind] at hopen
  rw [closingOf_eq_extent hkind] at hlen
  rw [← comments_terminator]
  exact cut_of_expression hz hlen hopen

/-- A host tag whose text does not end with its bracket is followed by what seems a tag. -/
theorem opensTag_of_markup {y z : List UInt8}
    (hfirst : firstBy d.rules d (y ++ z) = ⟨.markupTag, y.length⟩) (hz : z ≠ [])
    (hlast : y.getLast? ≠ some greater) : ∃ b ∈ d.tags.brackets, b.opensTag z = true := by
  rcases firstBy_cases hfirst with ⟨hplain, -⟩ | ⟨w, v, o, rfl, hruled⟩
  · exact absurd hplain (by decide)
  have hlast' : v.getLast? ≠ some greater := by
    intro hv
    rw [List.getLast?_append, hv] at hlast
    exact hlast rfl
  exact List.any_eq_true.mp (cut_of_markup hz hruled.closing hlast')

/-! ## What opens there -/

theorem exists_sigil (h : b.opensTag s = true) :
    ∃ sigil ∈ sigils, ∃ named, s = b.openByte :: (sigil ++ named) := by
  obtain ⟨sigil, hsigil, hp⟩ := Expression.opensTag_iff.mp h
  obtain ⟨named, rfl⟩ := List.isPrefixOf_iff_prefix.mp hp
  exact ⟨sigil, hsigil, named, rfl⟩

theorem isSome_tagOpening?_iff {kind : RegionKind} {anonymous : Bool} {style : TagStyle} :
    (tagOpening? kind sigil anonymous style (b.openByte :: (sigil ++ named))).isSome = true ↔
      b ∈ style.brackets ∧ (named.head?.any isNameStart = true ∨ anonymous = true) := by
  rw [Option.isSome_iff_exists]
  constructor
  · rintro ⟨o, ho⟩
    obtain ⟨-, hb, hn⟩ := tagOpening?_eq_some_iff.mp ho
    obtain ⟨named', hs, hname⟩ := tagOpenerLength?_eq_some_iff.mp hn
    obtain ⟨hbyte, htail⟩ := List.cons.inj hs
    obtain rfl := openByte_injective hbyte
    obtain rfl := List.append_cancel_left htail
    exact ⟨hb, hname.imp And.left fun h => h.2.1⟩
  · rintro ⟨hb, hname⟩
    obtain ⟨n, hn⟩ : ∃ n, tagOpenerLength? sigil anonymous b (b.openByte :: (sigil ++ named)) =
        some n := by
      by_cases hstart : named.head?.any isNameStart = true
      · exact ⟨_, tagOpenerLength?_eq_some_iff.mpr ⟨named, rfl, .inl ⟨hstart, rfl⟩⟩⟩
      · exact ⟨_, tagOpenerLength?_eq_some_iff.mpr ⟨named, rfl,
          .inr ⟨Bool.eq_false_iff.mpr hstart, hname.resolve_left hstart, rfl⟩⟩⟩
    exact ⟨⟨kind, b, n⟩, tagOpening?_eq_some_iff.mpr ⟨rfl, hb, hn⟩⟩

theorem isSome_commentOpening?_iff {style : TagStyle} :
    (commentOpening? style (b.openByte :: (hash :: named))).isSome = true ↔
      b ∈ style.brackets ∧ [hyphen, hyphen].isPrefixOf named = true := by
  have hopens (b' : Bracket) : b'.opensComment (b.openByte :: (hash :: named)) = true ↔
      b' = b ∧ [hyphen, hyphen].isPrefixOf named = true := by
    rw [Bracket.opensComment, List.isPrefixOf, List.isPrefixOf, Bool.and_eq_true, Bool.and_eq_true,
      beq_iff_eq]
    constructor
    · rintro ⟨hb, -, hp⟩
      exact ⟨openByte_injective hb, hp⟩
    · rintro ⟨rfl, hp⟩
      exact ⟨rfl, rfl, hp⟩
  rw [Option.isSome_iff_exists]
  constructor
  · rintro ⟨o, ho⟩
    obtain ⟨-, -, hb, hc⟩ := commentOpening?_eq_some_iff.mp ho
    obtain ⟨rfl, hp⟩ := (hopens o.bracket).mp hc
    exact ⟨hb, hp⟩
  · rintro ⟨hb, hp⟩
    exact ⟨⟨.comment, b, 4⟩,
      commentOpening?_eq_some_iff.mpr ⟨rfl, rfl, hb, (hopens b).mpr ⟨rfl, hp⟩⟩⟩

/-- Only the rule that the bytes announce has to be asked. -/
theorem isSome_openingBy?_iff {kind : RegionKind} (hmem : kind ∈ d.rules)
    (hkind : kindAhead s = kind) :
    (openingBy? d.rules d s).isSome = true ↔ (openingOf? d kind s).isSome = true := by
  rw [Option.isSome_iff_exists, Option.isSome_iff_exists]
  constructor
  · rintro ⟨o, ho⟩
    obtain ⟨-, hof⟩ := openingBy?_eq_some_iff.mp ho
    rw [(kindAhead_of_openingOf? hof).symm.trans hkind] at hof
    exact ⟨o, hof⟩
  · rintro ⟨o, ho⟩
    obtain rfl := openingOf?_kind ho
    exact ⟨o, openingBy?_eq_some_iff.mpr ⟨hmem, ho⟩⟩

theorem tagKinds_subset_rules {kind : RegionKind} (h : kind ∈ tagKinds) : kind ∈ d.rules := by
  simp only [tagKinds, List.mem_cons, List.not_mem_nil, or_false] at h
  rcases h with rfl | rfl | rfl | rfl | rfl <;> simp [Dialect.rules]

/-- Behind a bracket and a sigil the rule of the sigil decides. -/
theorem opening_of_sigil (kind : RegionKind) {anonymous : Bool} (hmem : kind ∈ tagKinds)
    (hkind : kindAhead (b.openByte :: (sigil ++ named)) = kind)
    (hrule : openingOf? d kind (b.openByte :: (sigil ++ named)) =
      tagOpening? kind sigil anonymous d.tags (b.openByte :: (sigil ++ named)))
    (hname : completesTag sigil named = (named.head?.any isNameStart || anonymous)) :
    kindAhead (b.openByte :: (sigil ++ named)) ∈ tagKinds ∧
    ((openingBy? d.rules d (b.openByte :: (sigil ++ named))).isSome = true ↔
      b ∈ d.tags.brackets ∧ completesTag sigil named = true) := by
  refine ⟨hkind ▸ hmem, ?_⟩
  rw [isSome_openingBy?_iff (tagKinds_subset_rules hmem) hkind, hrule, isSome_tagOpening?_iff,
    hname, Bool.or_eq_true]

/-- A tag opens behind a bracket and a sigil just if it is written out in brackets of the dialect,
and nothing else can open there. -/
theorem opening_behind_sigil (d : Dialect) (b : Bracket) (hsigil : sigil ∈ sigils)
    (named : List UInt8) :
    kindAhead (b.openByte :: (sigil ++ named)) ∈ tagKinds ∧
    ((openingBy? d.rules d (b.openByte :: (sigil ++ named))).isSome = true ↔
      b ∈ d.tags.brackets ∧ completesTag sigil named = true) := by
  simp only [sigils, List.mem_cons, List.not_mem_nil, or_false] at hsigil
  rcases hsigil with rfl | rfl | rfl | rfl
  · by_cases hhyphen : named.head? = some hyphen
    · -- `<#-` opens a comment or nothing, as no name starts with a hyphen
      obtain ⟨rest, rfl⟩ := List.head?_eq_some_iff.mp hhyphen
      have hkind : kindAhead (b.openByte :: ([hash] ++ hyphen :: rest)) = .comment := rfl
      refine ⟨by rw [hkind]; decide, ?_⟩
      rw [isSome_openingBy?_iff (tagKinds_subset_rules (by decide)) hkind]
      exact isSome_commentOpening?_iff
    · have hno : [hyphen, hyphen].isPrefixOf named = false := by
        cases named with
        | nil => rfl
        | cons c rest =>
            have hc : (hyphen == c) = false :=
              beq_eq_false_iff_ne.mpr fun heq => hhyphen (by rw [heq]; rfl)
            rw [List.isPrefixOf, hc, Bool.false_and]
      have hkind : kindAhead (b.openByte :: ([hash] ++ named)) = .directiveStart := by
        show (if named.head? == some hyphen then RegionKind.comment else .directiveStart) = _
        exact if_neg (by simpa using hhyphen)
      refine opening_of_sigil .directiveStart (by decide) hkind rfl ?_
      rw [completesTag, hno]
      cases named.head?.any isNameStart <;> rfl
  · refine opening_of_sigil .macroStart (by decide) rfl rfl ?_
    unfold completesTag
    cases named.head?.any isNameStart <;> rfl
  · refine opening_of_sigil .directiveEnd (by decide) rfl rfl ?_
    unfold completesTag
    cases named.head?.any isNameStart <;> rfl
  · refine opening_of_sigil .macroEnd (by decide) rfl rfl ?_
    unfold completesTag
    cases named.head?.any isNameStart <;> rfl

/-- The region behind a bracket and a sigil is a tag or plain text. -/
theorem firstBy_behind_sigil (hsigil : sigil ∈ sigils) {n : Nat} {kind : RegionKind}
    (h : firstBy d.rules d (b.openByte :: (sigil ++ named)) = ⟨kind, n⟩) :
    (kind ∈ tagKinds ↔ b ∈ d.tags.brackets ∧ completesTag sigil named = true) ∧
    (kind ∉ tagKinds → kind = .plain) := by
  obtain ⟨hahead, hopening⟩ := opening_behind_sigil d b hsigil named
  cases ho : openingBy? d.rules d (b.openByte :: (sigil ++ named)) with
  | none =>
      rw [firstBy_of_none ho] at h
      rw [ho] at hopening
      obtain rfl := (Run.mk.inj h).1
      refine ⟨⟨fun hmem => absurd hmem (by decide), fun hcond => ?_⟩, fun _ => rfl⟩
      exact absurd (hopening.mpr hcond) (by simp)
  | some o =>
      have hkind := kindAhead_of_openingOf? (openingBy?_eq_some_iff.mp ho).2
      rw [firstBy_of_openingBy? ho] at h
      rw [ho] at hopening
      obtain rfl := (Run.mk.inj h).1
      rw [hkind] at hahead
      exact ⟨⟨fun _ => hopening.mp rfl, fun _ => hahead⟩, fun hno => absurd hahead hno⟩

end Region

namespace Template

open Region

variable {t : Template} {d : Dialect} {p q : Region} {front back : List Region}

/-- A region that ends without its end: an expression whose terminator was not found, or a host tag
whose text does not end in a bracket. -/
def CutShort (t : Template) (d : Dialect) (p : Region) : Prop :=
  (p.kind ∈ expressionKinds ∧
    ∃ o, (Cursor.ofOffset t.bytes p.start).opener? d p.kind = some o ∧
      ((Cursor.ofOffset t.bytes (p.start + o.length)).close d p.kind o).1.terminated = false) ∨
  (p.kind = .markupTag ∧ t.byteAt? (p.stop - 1) ≠ some greater)

/-- Where one region stands in front of another: the text of the first, and what is ahead of the
second. -/
theorem exists_of_regions_eq (h : t.regions d = front ++ p :: q :: back) :
    ∃ x y z, t.bytes.toList = x ++ (y ++ z) ∧ p.start = x.length ∧ p.length = y.length ∧
      y ≠ [] ∧ firstBy d.rules d (y ++ z) = ⟨p.kind, y.length⟩ ∧
      z ≠ [] ∧ firstBy d.rules d z = ⟨q.kind, q.length⟩ := by
  rw [regions_eq_scan] at h
  obtain ⟨x, r, hbytes, -, hback⟩ := scanBy_eq_append h
  have hr : r ≠ [] := by
    rintro rfl
    exact absurd hback (by simp)
  obtain ⟨kind, y, z, rfl, hy, hfirst⟩ := exists_firstBy d.rules d hr
  rw [scanBy_of_firstBy hy hfirst] at hback
  obtain ⟨rfl, hrest⟩ := List.cons.inj hback
  have hz : z ≠ [] := by
    rintro rfl
    exact absurd hrest (by simp)
  obtain ⟨kind', w, z, rfl, hw, hfirst'⟩ := exists_firstBy d.rules d hz
  rw [scanBy_of_firstBy hw hfirst'] at hrest
  obtain ⟨rfl, -⟩ := List.cons.inj hrest
  exact ⟨x, y, w ++ z, hbytes, Nat.zero_add _, rfl, hy, hfirst, hz, hfirst'⟩

/-- The tag that seems to open behind a region that is cut short. Its brackets are those of the
dialect, but for an interpolation, which goes by brackets of its own. -/
theorem CutShort.exists_opensTag (hcut : t.CutShort d p)
    (h : t.regions d = front ++ p :: q :: back) :
    ∃ b : Bracket, b.opensTag (t.bytes.toList.drop p.stop) = true ∧
      (p.kind = .interpolation → b = d.interpolation.bracket) ∧
      (p.kind ≠ .interpolation → b ∈ d.tags.brackets) := by
  obtain ⟨x, y, z, hbytes, hstart, hlength, hy, hfirst, hz, -⟩ := exists_of_regions_eq h
  have hsize : t.bytes.size = x.length + (y.length + z.length) := by
    rw [← Array.length_toList, hbytes, List.length_append, List.length_append]
  have hahead : t.bytes.toList.drop p.start = y ++ z := by rw [hbytes, hstart, List.drop_left]
  have hbehind : t.bytes.toList.drop p.stop = z := by
    rw [stop, hlength, ← List.drop_drop, hahead, List.drop_left]
  rw [hbehind]
  rcases hcut with ⟨hkind, o, ho, hopen⟩ | ⟨hkind, hlast⟩
  · obtain ⟨-, hof⟩ := (Cursor.opener?_eq_some_iff (by omega)).mp ho
    have hle := (openingOf?_bounds hof).2
    rw [hahead] at hof hle
    rw [List.length_append] at hle
    rw [Cursor.close_ofOffset d p.kind o (by omega), ← List.drop_drop, hahead] at hopen
    exact ⟨o.bracket, opensTag_of_expression hkind hfirst hz hof hopen,
      bracket_of_openingOf? hkind hof⟩
  · have hbyte : t.byteAt? (p.stop - 1) = y.getLast? := by
      have hpos := List.length_pos_iff.mpr hy
      have hplace : p.stop - 1 = x.length + (y.length - 1) := by
        rw [stop, hstart, hlength]
        omega
      rw [byteAt?, ← Array.getElem?_toList, hbytes, hplace, List.getLast?_eq_getElem?,
        List.getElem?_append_right (Nat.le_add_right _ _), Nat.add_sub_cancel_left,
        List.getElem?_append_left (by omega)]
    rw [hbyte] at hlast
    rw [hkind] at hfirst ⊢
    obtain ⟨b, hb, htag⟩ := opensTag_of_markup hfirst hz hlast
    exact ⟨b, htag, fun hne => absurd hne (by decide), fun _ => hb⟩

/-- **What stands behind a region that is cut short** is a bracket and a sigil. It is a tag of the
template language just if it is written out in brackets of the dialect, and plain text
otherwise. -/
theorem cutShort_next (h : t.regions d = front ++ p :: q :: back) (hcut : t.CutShort d p) :
    ∃ (b : Bracket) (sigil named : List UInt8), sigil ∈ sigils ∧
      t.bytes.toList.drop p.stop = b.openByte :: (sigil ++ named) ∧
      (p.kind = .interpolation → b = d.interpolation.bracket) ∧
      (p.kind ≠ .interpolation → b ∈ d.tags.brackets) ∧
      (q.kind ∈ tagKinds ↔ b ∈ d.tags.brackets ∧ completesTag sigil named = true) ∧
      (q.kind ∉ tagKinds → q.kind = .plain) := by
  obtain ⟨b, htag, hinterpolation, htags⟩ := hcut.exists_opensTag h
  obtain ⟨sigil, hsigil, named, hahead⟩ := exists_sigil htag
  obtain ⟨x, y, z, hbytes, hstart, hlength, -, -, -, hnext⟩ := exists_of_regions_eq h
  have hz : t.bytes.toList.drop p.stop = z := by
    rw [stop, hstart, hlength, hbytes, ← List.drop_drop, List.drop_left, List.drop_left]
  rw [← hz, hahead] at hnext
  obtain ⟨hiff, hplain⟩ := firstBy_behind_sigil hsigil hnext
  exact ⟨b, sigil, named, hsigil, hahead, hinterpolation, htags, hiff, hplain⟩

/-- A directive that is left open makes room for the next one. -/
theorem cutShort_next_directive :
    ∃ (b : Bracket) (sigil named : List UInt8),
      (ofString "<#a (<#b>").bytes.toList.drop 5 = b.openByte :: (sigil ++ named) ∧
      b ∈ TagStyle.both.brackets ∧ completesTag sigil named = true := by
  have hregions : (ofString "<#a (<#b>").regions {} =
      [] ++ ⟨.directiveStart, 0, 5⟩ :: ⟨.directiveStart, 5, 4⟩ :: [] := by
    rw [regions_eq_scan]
    decide
  have hcut : (ofString "<#a (<#b>").CutShort {} ⟨.directiveStart, 0, 5⟩ :=
    .inl ⟨by decide, ⟨⟨.directiveStart, .angle, 3⟩, 0⟩, by decide, by decide⟩
  obtain ⟨b, sigil, named, -, hahead, -, -, hiff, -⟩ := cutShort_next hregions hcut
  exact ⟨b, sigil, named, hahead, hiff.mp (by decide)⟩

/-- A value that starts like a directive has no name in it. It cuts the host tag short, and yet no
directive follows. -/
theorem cutShort_next_plain :
    (ofString "<a b=\"<#\">").regions {} = [⟨.markupTag, 0, 6⟩, ⟨.plain, 6, 4⟩] ∧
      (ofString "<a b=\"<#\">").CutShort {} ⟨.markupTag, 0, 6⟩ ∧ .plain ∉ tagKinds := by
  refine ⟨?_, .inr ⟨rfl, by decide⟩, by decide⟩
  rw [regions_eq_scan]
  decide

/-- An interpolation with braces is cut short in front of angle brackets, even where tags are
written with square ones. -/
example : (ofString "$\x7b(<#a>").regions { tags := .square } =
    [⟨.interpolation, 0, 3⟩, ⟨.plain, 3, 4⟩] := by
  rw [regions_eq_scan]
  decide

end Template

end TemplateColoring

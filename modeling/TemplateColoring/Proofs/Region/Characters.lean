import TemplateColoring.Proofs.Expression.Characters
import TemplateColoring.Proofs.Region.Scanner

/-!
# Regions start and stop between characters

In a text of whole characters every region takes whole characters, whatever the dialect, so its two
ends are boundaries of the text. This is what lets a region be sliced out of a text, and it shows
that an opening is never missed because a step through plain text jumps over it.
-/

set_option autoImplicit false

namespace TemplateColoring.Region

open Ascii Bytes

variable {rules : List RegionKind} {d : Dialect}

/-! ## Host markup tags -/

theorem characters_drop_unit {style : InterpolationStyle} {s : List UInt8} (h : Characters s) :
    Characters (s.drop ((Expression.interpolationLength? style s).getD (charLength s))) := by
  cases hk : Expression.interpolationLength? style s with
  | none => exact h.drop_charLength
  | some k => exact Expression.characters_drop_interpolationLength? hk h

theorem characters_drop_quotedStep {quote : UInt8} {s : List UInt8} {k : Nat}
    (h : Characters s) (hk : quotedStep d quote s = some k) : Characters (s.drop k) := by
  cases s with
  | nil => exact absurd hk (by simp [quotedStep])
  | cons b s =>
      simp only [quotedStep] at hk
      split at hk
      · exact absurd hk (by simp)
      · obtain rfl := Option.some.inj hk
        exact characters_drop_unit h

theorem characters_drop_quotedLength {quote : UInt8} {s : List UInt8}
    (hquote : quote < 0x80) (h : Characters s) : Characters (s.drop (quotedLength d quote s)) := by
  rw [quotedLength_eq]
  exact h.drop_walkThrough (bounded_quotedStep d quote) (fun _ _ => characters_drop_quotedStep)
    hquote

theorem characters_drop_markupStep {s : List UInt8} {k : Nat} (h : Characters s)
    (hk : markupStep d s = some k) : Characters (s.drop k) := by
  cases s with
  | nil => exact absurd hk (by simp [markupStep])
  | cons b s =>
      simp only [markupStep] at hk
      split at hk
      · exact absurd hk (by simp)
      split at hk
      · next hb =>
        -- a value in quotes, which are ASCII
        have hquote := lt_of_isQuote b hb
        obtain rfl := Option.some.inj hk
        rw [Nat.add_comm, List.drop_succ_cons]
        exact characters_drop_quotedLength hquote (h.tail_of_ascii hquote)
      split at hk
      · exact absurd hk (by simp)
      · obtain rfl := Option.some.inj hk
        exact characters_drop_unit h

theorem characters_drop_markupExtent {s : List UInt8} (h : Characters s) :
    Characters (s.drop (markupExtent d s).length) := by
  rw [markupExtent_eq]
  exact h.drop_walkThrough (bounded_markupStep d) (fun _ _ => characters_drop_markupStep)
    (by decide)

/-! ## All rules -/

/-- Behind an opener a region's inside ends between characters. -/
theorem characters_drop_closingOf {kind : RegionKind} {o : Opening} {s : List UInt8}
    (h : Characters s) : Characters (s.drop (closingOf d kind o s).length) := by
  cases kind with
  | comment => exact h.drop_through (Expression.isAscii_commentClose o.bracket)
  | markupComment => exact h.drop_through (by decide)
  | markupTag => exact characters_drop_markupExtent h
  | directiveStart | directiveEnd | macroStart | macroEnd | interpolation =>
      exact Expression.characters_drop_extent o.terminator h
  | plain => exact h

theorem characters_drop_tagOpener {sigil : List UInt8} {anonymous : Bool} {b : Bracket}
    {s : List UInt8} {n : Nat} (hsigil : isAscii sigil = true)
    (hn : tagOpenerLength? sigil anonymous b s = some n) (h : Characters s) :
    Characters (s.drop n) := by
  obtain ⟨named, rfl, hcase⟩ := tagOpenerLength?_eq_some_iff.mp hn
  have hnamed : Characters named :=
    (h.tail_of_ascii (Expression.ascii_openByte b)).of_ascii_append hsigil
  have hdrop : (b.openByte :: (sigil ++ named)).drop (1 + sigil.length) = named := by
    rw [Nat.add_comm, List.drop_succ_cons, List.drop_left]
  rcases hcase with ⟨-, rfl⟩ | ⟨-, -, rfl⟩
  · rw [← List.drop_drop, hdrop]
    exact hnamed.drop_runLength uniform_isTagNameContinue
  · rwa [hdrop]

theorem characters_drop_markupName {s : List UInt8} {n : Nat} (hn : markupNameAt? s = some n)
    (h : Characters s) : Characters (s.drop n) := by
  obtain ⟨b, rest, rfl, hcase⟩ := markupNameAt?_eq_some_iff.mp hn
  have htail : Characters (b :: rest) := h.tail_of_ascii (by decide)
  rcases hcase with ⟨rfl, -⟩ | ⟨rfl, rfl | rfl, -⟩ | ⟨rfl, rfl, -⟩
  · exact htail
  · exact htail.tail_of_ascii (by decide)
  · exact htail.tail_of_ascii (by decide)
  · exact htail.tail_of_ascii (by decide)

/-- An opener takes whole characters. -/
theorem characters_drop_openingOf? {kind : RegionKind} {s : List UInt8} {o : Opening}
    (ho : openingOf? d kind s = some o) (h : Characters s) : Characters (s.drop o.length) := by
  cases kind with
  | comment =>
      obtain ⟨-, hl, -, hc⟩ := commentOpening?_eq_some_iff.mp ho
      rw [hl]
      exact Expression.characters_drop_commentOpener hc h
  | directiveStart | directiveEnd | macroStart | macroEnd =>
      exact characters_drop_tagOpener (by decide) (tagOpening?_eq_some_iff.mp ho).2.2 h
  | interpolation =>
      obtain ⟨hopens, rfl⟩ := interpolationOpening?_eq_some_iff.mp ho
      exact Expression.characters_drop_interpolationOpener hopens h
  | markupComment =>
      obtain ⟨hp, rfl⟩ := markupCommentOpening?_eq_some_iff.mp ho
      obtain ⟨z, rfl⟩ := List.isPrefixOf_iff_prefix.mp hp
      exact h.of_ascii_append (by decide)
  | markupTag =>
      obtain ⟨n, hn, rfl⟩ := markupTagOpening?_eq_some_iff.mp ho
      rw [← List.drop_drop]
      exact (characters_drop_markupName hn h).drop_runLength uniform_isMarkupNameContinue
  | plain => exact absurd ho (by simp [openingOf?])

theorem characters_drop_walk_plainStep (rules : List RegionKind) (d : Dialect) {s : List UInt8}
    (h : Characters s) : Characters (s.drop (walk (plainStep rules d) s)) := by
  refine h.drop_walk (bounded_plainStep rules d) fun s k hs hk => ?_
  obtain ⟨-, rfl⟩ := plainStep_eq_some_iff.mp hk
  exact hs.drop_charLength

/-- The first region of a text takes whole characters. -/
theorem characters_drop_firstBy (rules : List RegionKind) (d : Dialect) {s : List UInt8}
    (h : Characters s) : Characters (s.drop (firstBy rules d s).length) := by
  cases ho : openingBy? rules d s with
  | none =>
      rw [firstBy_of_none ho]
      exact characters_drop_walk_plainStep rules d h
  | some o =>
      rw [firstBy_of_openingBy? ho]
      simp only [extentOf]
      rw [← List.drop_drop]
      exact characters_drop_closingOf (characters_drop_openingOf? (openingBy?_eq_some_iff.mp ho).2 h)

/-! ## Plain text misses no opening -/

theorem ascii_of_mayOpen : ∀ b : UInt8, mayOpen b = true → b < 0x80 :=
  forall_byte (by decide +kernel)

/-- No region opens inside a character. -/
theorem openingBy?_of_continuation {b : UInt8}
    {s : List UInt8} (hb : isContinuation b = true) : openingBy? rules d (b :: s) = none := by
  have hmay : mayOpen b = false := by
    refine Bool.eq_false_iff.mpr fun hmay => ?_
    have hno := (ascii_not_continuation b (ascii_of_mayOpen b hmay)).1
    exact absurd hb (by simp [hno])
  simp [openingBy?, hmay]

/-- **Nothing opens inside plain text**, at whatever byte. -/
theorem openingBy?_of_lt_walk {s : List UInt8}
    (h : Characters s) {n : Nat} (hn : n < walk (plainStep rules d) s) :
    openingBy? rules d (s.drop n) = none := by
  induction s using walk_induction (bounded_plainStep rules d) generalizing n with
  | stop s hs =>
      rw [walk_eq_zero hs] at hn
      exact absurd hn (Nat.not_lt_zero n)
  | pass s k hs hk ih =>
      obtain ⟨hnone, hchar⟩ := plainStep_eq_some_iff.mp hk
      rw [walk_eq_add (bounded_plainStep rules d) hs hk] at hn
      by_cases hpos : 0 < n
      · by_cases hin : n < k
        · obtain ⟨c, r, hdrop, hc⟩ := h.drop_inside hpos (hchar.symm ▸ hin)
          rw [hdrop]
          exact openingBy?_of_continuation hc
        · -- the place lies behind the first character
          obtain ⟨m, rfl⟩ := Nat.exists_eq_add_of_le (Nat.le_of_not_lt hin)
          rw [← List.drop_drop]
          exact ih (hchar ▸ h.drop_charLength) (Nat.lt_of_add_lt_add_left hn)
      · rw [Nat.eq_zero_of_not_pos hpos]
        exact hnone

/-! ## The regions of a scan -/

/-- Every region of a scan is the first region of what is ahead of it, and whole characters are
ahead of it in a text. -/
theorem exists_of_mem_scanBy {start : Nat} {s : List UInt8} {r : Region}
    (hr : r ∈ scanBy rules d start s) : ∃ x t, s = x ++ t ∧ r.start = start + x.length ∧
      firstBy rules d t = ⟨r.kind, r.length⟩ ∧ (Characters s → Characters t) := by
  induction s using scan_induction rules d generalizing start with
  | nil => exact absurd hr (by simp)
  | region kind x t hx hfirst ih =>
      rw [scanBy_of_firstBy hx hfirst] at hr
      rcases List.mem_cons.mp hr with rfl | hr
      · exact ⟨[], x ++ t, rfl, rfl, hfirst, id⟩
      · obtain ⟨y, u, rfl, hstart, hu, hchars⟩ := ih hr
        refine ⟨x ++ y, u, (List.append_assoc x y u).symm, ?_, hu, fun h => hchars ?_⟩
        · rw [hstart, List.length_append, Nat.add_assoc]
        · have hdrop := characters_drop_firstBy rules d h
          rwa [hfirst, List.drop_left] at hdrop

/-- From a place between characters on, every region starts and stops between characters. -/
theorem isBoundary_of_mem_scanBy {bytes : Array UInt8} {n : Nat} {r : Region} (hn : n ≤ bytes.size)
    (h : Characters (bytes.toList.drop n)) (hr : r ∈ scanBy rules d n (bytes.toList.drop n)) :
    Template.isBoundary bytes r.start = true ∧ Template.isBoundary bytes r.stop = true := by
  obtain ⟨x, t, hbytes, hx, hfirst, hchars⟩ := exists_of_mem_scanBy hr
  have hlen := congrArg List.length hbytes
  rw [List.length_drop, Array.length_toList, List.length_append] at hlen
  have hle := firstBy_le rules d t
  have hstop := characters_drop_firstBy rules d (hchars h)
  rw [hfirst] at hle hstop
  have hle' : r.length ≤ t.length := hle
  constructor
  · apply Characters.isBoundary (by omega)
    rw [hx, ← List.drop_drop, hbytes, List.drop_left]
    exact hchars h
  · apply Characters.isBoundary (by rw [Span.stop]; omega)
    rw [Span.stop, hx, ← List.drop_drop, ← List.drop_drop, hbytes, List.drop_left]
    exact hstop

end TemplateColoring.Region

namespace TemplateColoring.Template

open Bytes Region

/-- Every region is the first region of what is ahead of it. -/
theorem firstBy_of_mem {t : Template} {d : Dialect} {r : Region} {ahead : List UInt8}
    (hr : r ∈ t.regions d) (hahead : t.bytes.toList.drop r.start = ahead) :
    firstBy d.rules d ahead = ⟨r.kind, r.length⟩ ∧ r.start + ahead.length = t.bytes.size := by
  rw [regions_eq_scan] at hr
  obtain ⟨x, s, hbytes, hx, hfirst, -⟩ := exists_of_mem_scanBy hr
  rw [Nat.zero_add] at hx
  rw [hx, hbytes, List.drop_left] at hahead
  subst hahead
  exact ⟨hfirst, by rw [size_eq_add hbytes, hx]⟩

/-- A region is the first of what is ahead of it: `x` lies before it, `y` is its text and `z` what
follows. -/
theorem exists_parts_of_mem {t : Template} {d : Dialect} {r : Region} (hr : r ∈ t.regions d) :
    ∃ x y z, t.bytes.toList = x ++ (y ++ z) ∧ r.start = x.length ∧ r.length = y.length ∧ y ≠ [] ∧
      firstBy d.rules d (y ++ z) = ⟨r.kind, y.length⟩ := by
  rw [regions_eq_scan] at hr
  have hpos := ((tiles_scanBy d.rules d 0 t.bytes.toList).bounds hr).2.1
  obtain ⟨x, ahead, hbytes, hx, hfirst, -⟩ := exists_of_mem_scanBy hr
  have hle := firstBy_le d.rules d ahead
  rw [hfirst] at hle
  obtain ⟨y, z, rfl, hy⟩ : ∃ y z, ahead = y ++ z ∧ y.length = r.length := exists_cut hle
  refine ⟨x, y, z, hbytes, by omega, hy.symm, List.ne_nil_of_length_pos ?_, by rw [hfirst, hy]⟩
  rw [Span.stop] at hpos
  omega

/-- A region that is not plain text is found by a rule: its text is the opener `w` and what
follows. -/
theorem exists_ruled_of_mem {t : Template} {d : Dialect} {r : Region} (hr : r ∈ t.regions d)
    (hkind : r.kind ≠ .plain) : ∃ x w y z o, t.bytes.toList = x ++ (w ++ y ++ z) ∧
      r.start = x.length ∧ r.length = (w ++ y).length ∧ Ruled d.rules d r.kind w y z o := by
  obtain ⟨x, t, z, hbytes, hstart, hlength, -, hfirst⟩ := exists_parts_of_mem hr
  rcases firstBy_cases hfirst with ⟨hplain, -⟩ | ⟨w, y, o, rfl, hruled⟩
  · exact absurd hplain hkind
  · exact ⟨x, w, y, z, o, hbytes, hstart, hlength, hruled⟩

/-! ## The texts of regions -/

/-- A text is sliced from within the template. -/
theorem eq_extract_of_slice? {t : Template} {start stop : Nat} {text : List UInt8}
    (h : t.slice? start stop = some text) :
    start ≤ stop ∧ stop ≤ t.length ∧ text = (t.bytes.extract start stop).toList := by
  rw [slice?] at h
  obtain ⟨⟨hle, hfit⟩, h⟩ := Option.ite_none_right_eq_some.mp h
  refine ⟨hle, hfit, ?_⟩
  split at h
  · exact (Option.some.inj (Option.ite_none_right_eq_some.mp h).2).symm
  · exact (Option.some.inj (Option.ite_none_right_eq_some.mp h).2).symm

theorem length_of_slice? {t : Template} {start stop : Nat} {text : List UInt8}
    (h : t.slice? start stop = some text) :
    start + text.length = stop ∧ stop ≤ t.length := by
  obtain ⟨hle, hfit, rfl⟩ := eq_extract_of_slice? h
  have hsize : t.length = t.bytes.size := rfl
  rw [Array.length_toList, Array.size_extract]
  omega

/-- What is sliced out of a text is a text. -/
theorem exists_ofString_of_slice? {s : String} {start stop : Nat} {text : List UInt8}
    (h : (ofString s).slice? start stop = some text) :
    ∃ part : String, (ofString part).bytes.toList = text := by
  have hchars : Characters (ofString s).bytes.toList := characters_toUTF8 s
  obtain ⟨hle, hfit, rfl⟩ := eq_extract_of_slice? h
  rw [slice?] at h
  obtain ⟨-, hslice⟩ := Option.ite_none_right_eq_some.mp h
  obtain ⟨hboundary, -⟩ := Option.ite_none_right_eq_some.mp hslice
  rw [Bool.and_eq_true] at hboundary
  have hstart := hchars.drop_of_isBoundary (Nat.le_trans hle hfit) hboundary.1
  have hstop := hchars.drop_of_isBoundary hfit hboundary.2
  -- first what stands in front of the slice is cut off, then what stands behind it
  obtain ⟨-, back, -, hback⟩ :=
    exists_strings_of_append (List.take_append_drop start (ofString s).bytes.toList).symm hstart
  have hsplit : back.toUTF8.data.toList =
      ((ofString s).bytes.extract start stop).toList ++ (ofString s).bytes.toList.drop stop := by
    rw [hback, Array.toList_extract, List.extract_eq_take_drop]
    calc (ofString s).bytes.toList.drop start
        = ((ofString s).bytes.toList.drop start).take (stop - start) ++
            ((ofString s).bytes.toList.drop start).drop (stop - start) :=
          (List.take_append_drop _ _).symm
      _ = ((ofString s).bytes.toList.drop start).take (stop - start) ++
            (ofString s).bytes.toList.drop stop := by
          rw [List.drop_drop, Nat.add_sub_cancel' hle]
  obtain ⟨part, -, hpart, -⟩ := exists_strings_of_append hsplit hstop
  exact ⟨part, hpart⟩

/-- The text of a region can be sliced out of a text. -/
theorem slice?_of_mem {d : Dialect} {s : String} {r : Region} (hr : r ∈ (ofString s).regions d) :
    (ofString s).slice? r.start r.stop =
      some (((ofString s).bytes.toList.drop r.start).take r.length) := by
  rw [regions_eq_scan] at hr
  have hbounds := (tiles_scanBy d.rules d 0 (ofString s).bytes.toList).bounds hr
  rw [Nat.zero_add, Array.length_toList] at hbounds
  obtain ⟨hstart, hstop⟩ := isBoundary_of_mem_scanBy
    (Nat.zero_le (ofString s).bytes.size) (characters_toUTF8 s) hr
  have hfit : r.start ≤ r.stop ∧ r.stop ≤ (ofString s).length :=
    ⟨Nat.le_of_lt hbounds.2.1, hbounds.2.2⟩
  rw [slice?, if_pos hfit]
  show (if isBoundary (ofString s).bytes r.start && isBoundary (ofString s).bytes r.stop then _
    else none) = _
  rw [hstart, hstop, Bool.and_self, if_pos rfl, Span.stop, toList_extract_add]

/-- The text of a region consists of whole characters. -/
theorem characters_of_parts {d : Dialect} {s : String} {r : Region} {x y z : List UInt8}
    (hr : r ∈ (ofString s).regions d) (hbytes : (ofString s).bytes.toList = x ++ (y ++ z))
    (hstart : r.start = x.length) (hlength : r.length = y.length) : Characters y := by
  have hslice := slice?_of_mem hr
  rw [hbytes, hstart, List.drop_left, hlength, List.take_left] at hslice
  obtain ⟨part, rfl⟩ := exists_ofString_of_slice? hslice
  exact characters_toUTF8 part

end TemplateColoring.Template

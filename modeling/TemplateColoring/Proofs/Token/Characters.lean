import TemplateColoring.Proofs.Region.Map
import TemplateColoring.Proofs.Token.Append
import TemplateColoring.Proofs.Token.Expression
import TemplateColoring.Proofs.Token.Markup
import TemplateColoring.Proofs.Token.Total

/-!
# Tokens start and stop between characters

A text that is colored is cut by its openers, lexemes, names, values and closers. In the text of a
region each of these cuts lies between two characters (`Whole`), and merging runs only takes cuts
away. So every token can be sliced out of the document, and the slices of all tokens, put together,
are the document (`Template.highlight_slices`).
-/

set_option autoImplicit false

namespace TemplateColoring

open Ascii Bytes Region TemplateColoring.Span

namespace Token

/-- Runs cut a text between its characters only. -/
def Whole : List (Run TokenKind) → List UInt8 → Prop
  | [], _ => True
  | r :: runs, s => Characters (s.drop r.length) ∧ Whole runs (s.drop r.length)

/-! ## Cuts of runs put together -/

section Cuts

variable {r : Run TokenKind} {runs runs' : List (Run TokenKind)} {s : List UInt8}

theorem whole_append :
    Whole (runs ++ runs') s ↔ Whole runs s ∧ Whole runs' (s.drop (Run.total runs)) := by
  induction runs generalizing s with
  | nil => simp [Whole, Run.total]
  | cons r runs ih =>
      rw [Run.total] at ih
      simp only [List.cons_append, Whole, ih, List.drop_drop, Run.total, totalOf_cons, and_assoc]

theorem whole_singleton (kind : TokenKind) {n : Nat} :
    Whole [⟨kind, n⟩] s ↔ Characters (s.drop n) := by
  simp [Whole]

/-- Behind the last cut whole characters follow. -/
theorem Whole.drop_total (h : Whole runs s) (hs : Characters s) :
    Characters (s.drop (Run.total runs)) := by
  induction runs generalizing s with
  | nil => exact hs
  | cons r runs ih =>
      rw [Run.total, totalOf_cons, ← List.drop_drop]
      exact ih h.2 h.1

theorem whole_mergeRun (hchars : Characters (s.drop r.length)) (h : Whole runs (s.drop r.length)) :
    Whole (mergeRun r runs) s := by
  by_cases hr : r.length = 0
  · rw [hr, List.drop_zero] at h
    simpa only [mergeRun, hr, if_true] using h
  · cases runs with
    | nil =>
        simp only [mergeRun, hr, if_false]
        exact ⟨hchars, trivial⟩
    | cons q rest =>
        simp only [mergeRun, hr, if_false]
        split
        · -- the cut between the two runs is gone
          obtain ⟨hq, hrest⟩ := h
          rw [List.drop_drop] at hq hrest
          exact ⟨hq, hrest⟩
        · exact ⟨hchars, h⟩

/-- Merging runs only takes cuts away. -/
theorem Whole.merge (h : Whole runs s) : Whole (merge runs) s := by
  induction runs generalizing s with
  | nil => trivial
  | cons r runs ih => exact whole_mergeRun h.1 (ih h.2)

/-- The tokens of such runs start and stop in front of whole characters. -/
theorem Whole.exists_of_mem_place (h : Whole runs s) (hs : Characters s) {start : Nat} {p : Token}
    (hp : p ∈ place start runs) : ∃ i j, p.start = start + i ∧ p.stop = start + j ∧
      Characters (s.drop i) ∧ Characters (s.drop j) := by
  induction runs generalizing s start with
  | nil => exact absurd hp (by simp)
  | cons r runs ih =>
      obtain ⟨hr, hruns⟩ := h
      rw [place_cons] at hp
      rcases List.mem_cons.mp hp with rfl | hp
      · exact ⟨0, r.length, rfl, rfl, hs, hr⟩
      · obtain ⟨i, j, hi, hj, hchars, hchars'⟩ := ih hruns hr hp
        rw [List.drop_drop] at hchars hchars'
        exact ⟨r.length + i, r.length + j, by omega, by omega, hchars, hchars'⟩

end Cuts

/-! ## Expressions -/

theorem ascii_of_isSigil : ∀ b : UInt8, isSigil b = true → b < 0x80 :=
  forall_byte (by decide +kernel)

/-- The opener of a tag takes whole characters. -/
theorem characters_drop_tagOpenerLength {b : UInt8} {s : List UInt8} (hb : b < 0x80)
    (h : Characters (b :: s)) : Characters ((b :: s).drop (tagOpenerLength (b :: s))) := by
  have hsigils : isAscii (s.take (runLength isSigil (s.take 2))) = true := by
    have hall : (s.take 2).takeWhile isSigil = s.take (runLength isSigil (s.take 2)) := by
      have hprefix : (s.take 2).takeWhile isSigil <+: s :=
        (List.takeWhile_prefix _).trans (List.take_prefix _ _)
      exact List.prefix_iff_eq_take.mp hprefix
    rw [← hall, isAscii, List.all_eq_true]
    intro c hc
    exact decide_eq_true (ascii_of_isSigil c (List.all_eq_true.mp List.all_takeWhile c hc))
  have hname : Characters (s.drop (runLength isSigil (s.take 2))) := by
    refine Characters.of_ascii_append ?_ hsigils
    rw [List.take_append_drop]
    exact h.tail_of_ascii hb
  have hdrop : (b :: s).drop (1 + runLength isSigil (s.take 2)) =
      s.drop (runLength isSigil (s.take 2)) := by
    rw [Nat.add_comm, List.drop_succ_cons]
  show Characters ((b :: s).drop (1 + runLength isSigil (s.take 2) +
    runLength isTagNameContinue ((b :: s).drop (1 + runLength isSigil (s.take 2)))))
  rw [← List.drop_drop, hdrop]
  exact hname.drop_runLength uniform_isTagNameContinue

theorem characters_drop_min {s : List UInt8} {n : Nat} (h : Characters (s.drop n)) :
    Characters (s.drop (min n s.length)) := by
  rcases Nat.le_total n s.length with hle | hle
  · rwa [Nat.min_eq_left hle]
  · rw [Nat.min_eq_right hle, List.drop_length]
    exact .nil

/-- Lexemes are cut between characters. -/
theorem whole_lexFrom (delimiter : TokenKind) (t : Expression.Terminator) (depth : Nat)
    {s : List UInt8} (h : Characters s) :
    Whole ((Expression.lexFrom t depth s).map (lexemeRun delimiter)) s := by
  induction depth, s using Expression.lex_induction (t := t) with
  | stop depth s hnone =>
      rw [Expression.lexFrom_of_none hnone]
      trivial
  | close depth s k hreads =>
      rw [Expression.lexFrom_of_reads hreads, if_pos rfl, List.map_singleton, lexemeRun,
        List.length_take, Nat.min_eq_left hreads.bounds.2, whole_singleton]
      exact hreads.characters h
  | item depth s item k hreads hclose ih =>
      have hk := hreads.characters h
      rw [Expression.lexFrom_of_reads hreads, if_neg hclose, List.map_cons, lexemeRun,
        List.length_take, Nat.min_eq_left hreads.bounds.2]
      exact ⟨hk, ih hk⟩

/-- If the opener takes whole characters, so does everything behind it. -/
theorem whole_expressionRuns {shape : ExpressionRegion} {s : List UInt8}
    (h : Characters (s.drop (openerOf shape s).1)) : Whole (expressionRuns shape s) s := by
  have hlexemes := whole_lexFrom shape.delimiter (openerOf shape s).2 0 h
  have hall := total_expressionRuns shape s
  have hruns : expressionRuns shape s = (⟨shape.delimiter, (openerOf shape s).1⟩ ::
      (Expression.lexFrom (openerOf shape s).2 0 (s.drop (openerOf shape s).1)).map
        (lexemeRun shape.delimiter)) ++ [⟨.other, s.length - (openerOf shape s).1 -
          (Expression.extent (openerOf shape s).2 (s.drop (openerOf shape s).1)).length⟩] := rfl
  generalize s.length - (openerOf shape s).1 -
    (Expression.extent (openerOf shape s).2 (s.drop (openerOf shape s).1)).length = left at hruns
  rw [hruns, Run.total, totalOf_append, ← Run.total, ← Run.total, total_singleton] at hall
  rw [hruns, whole_append, whole_singleton, List.drop_drop, hall, List.drop_length]
  exact ⟨⟨h, hlexemes⟩, .nil⟩

/-! ## Host markup tags -/

/-- The runs of a value so far stand in front of the others. -/
theorem quotedFrom_eq_append (style : InterpolationStyle) (quote : UInt8)
    (acc : List (Run TokenKind)) (n k : Nat) (s : List UInt8) :
    quotedFrom style quote acc n k s = acc.reverse ++ quotedFrom style quote [] n k s := by
  induction s generalizing acc n k with
  | nil => cases k <;> simp [quotedFrom]
  | cons b s ih =>
      cases k with
      | succ k =>
          rw [quotedFrom, quotedFrom]
          exact ih acc n k
      | zero =>
          rw [quotedFrom, quotedFrom]
          split
          · simp
          split
          · next length _ =>
            rw [ih, ih [_, _]]
            simp
          · exact ih acc _ _

/-- A value in quotes is cut between characters; `x` is the part of the piece at hand that is
passed already. -/
theorem whole_quotedFrom (style : InterpolationStyle) {quote : UInt8} (hquote : quote < 0x80)
    (x : List UInt8) {s : List UInt8} (h : Characters s) :
    Whole (quotedFrom style quote [] x.length 0 s) (x ++ s) := by
  induction hlen : s.length using Nat.strongRecOn generalizing x s with
  | _ m ih =>
      subst hlen
      cases s with
      | nil =>
          rw [quotedFrom, List.reverse_singleton, whole_singleton, List.drop_left]
          exact h
      | cons b s =>
          rw [quotedFrom]
          split
          · next hb =>
            -- the closing quote belongs to the last piece
            rw [beq_iff_eq] at hb
            rw [List.reverse_singleton, whole_singleton, ← List.drop_drop, List.drop_left]
            exact h.tail_of_ascii (hb ▸ hquote)
          split
          · next length hlength =>
            obtain ⟨hpos, hle⟩ := Expression.interpolationLength?_bounds hlength
            have hbehind := Expression.characters_drop_interpolationLength? hlength h
            have hdrop : s.drop (length - 1) = (b :: s).drop length := by
              obtain ⟨k, rfl⟩ := Nat.exists_eq_add_of_lt hpos
              simp
            have hshort : ((b :: s).drop length).length < (b :: s).length := by
              rw [List.length_drop]
              omega
            have hrest := ih _ hshort [] hbehind rfl
            rw [quotedFrom_eq_append, quotedFrom_eq_drop, hdrop]
            show Whole (⟨.string, x.length⟩ :: ⟨.interpolation, length⟩ ::
              quotedFrom style quote [] 0 0 ((b :: s).drop length)) (x ++ b :: s)
            simp only [Whole, List.drop_left]
            exact ⟨h, hbehind, hrest⟩
          · have hbounds := charLength_bounds (List.cons_ne_nil b s)
            have hbehind := h.drop_charLength
            have hdrop : s.drop (charLength (b :: s) - 1) =
                (b :: s).drop (charLength (b :: s)) := by
              obtain ⟨k, hk⟩ := Nat.exists_eq_add_of_lt hbounds.1
              simp [hk]
            have hshort : ((b :: s).drop (charLength (b :: s))).length < (b :: s).length := by
              rw [List.length_drop]
              omega
            have hrest := ih _ hshort (x ++ (b :: s).take (charLength (b :: s))) hbehind rfl
            rw [List.length_append, List.length_take, Nat.min_eq_left hbounds.2, List.append_assoc,
              List.take_append_drop] at hrest
            rw [quotedFrom_eq_drop, hdrop]
            exact hrest

/-- The runs at the front of a host tag's inside are cut between characters. -/
theorem whole_markupRunsAt (style : InterpolationStyle) {b : UInt8} {s : List UInt8}
    (h : Characters (b :: s)) : Whole (markupRunsAt style b s) (b :: s) := by
  unfold markupRunsAt
  split
  · rw [whole_singleton]
    exact h.drop_runLength uniform_isBlank
  split
  · next hb =>
    have hquote := lt_of_isQuote b hb
    exact whole_quotedFrom style hquote [b] (h.tail_of_ascii hquote)
  split
  · next hb =>
    rw [beq_iff_eq] at hb
    rw [whole_singleton]
    exact h.tail_of_ascii (by rw [hb]; decide)
  split
  · next hb =>
    -- a slash or a question mark, and the bracket behind it
    rw [Bool.and_eq_true, Bool.or_eq_true, beq_iff_eq, beq_iff_eq, beq_iff_eq] at hb
    obtain ⟨hsigil, hbracket⟩ := hb
    obtain ⟨z, rfl⟩ := List.head?_eq_some_iff.mp hbracket
    rw [whole_singleton]
    have hb : b < 0x80 := by rcases hsigil with rfl | rfl <;> decide
    exact (h.tail_of_ascii hb).tail_of_ascii (by decide)
  split
  · next length hlength =>
    rw [whole_singleton]
    exact Expression.characters_drop_interpolationLength? hlength h
  split
  · rw [whole_singleton]
    exact h.drop_runLength uniform_isMarkupNameContinue
  · rw [whole_singleton]
    exact h.drop_charLength

theorem whole_flatten_cutMarkup (style : InterpolationStyle) {s : List UInt8}
    (h : Characters s) : Whole (cut (cutMarkup style) () s).flatten s := by
  induction hlen : s.length using Nat.strongRecOn generalizing s with
  | _ m ih =>
      subst hlen
      cases s with
      | nil => trivial
      | cons b s =>
          have hruns := whole_markupRunsAt style h
          have hpos := (total_markupRunsAt style b s).1
          have hshort : ((b :: s).drop (Run.total (markupRunsAt style b s))).length <
              (b :: s).length := by
            rw [List.length_drop, List.length_cons]
            omega
          rw [flatten_cutMarkup_cons, whole_append]
          exact ⟨hruns, ih _ hshort (hruns.drop_total h) rfl⟩

/-- The opener of a host tag takes whole characters. -/
theorem characters_drop_markupOpenerLength {s : List UInt8} (h : Characters s) :
    Characters (s.drop (markupOpenerLength s)) := by
  cases s with
  | nil => exact h
  | cons b s =>
      rw [markupOpenerLength]
      split
      · next hb =>
        rw [beq_iff_eq] at hb
        have hs : Characters s := h.tail_of_ascii (by rw [hb]; decide)
        dsimp only
        split
        · next hsigil =>
          cases s with
          | nil => exact absurd hsigil (by simp)
          | cons c s =>
              have hc : c < 0x80 := by
                simp only [List.head?_cons, Option.any_some, Bool.or_eq_true, beq_iff_eq] at hsigil
                rcases hsigil with (rfl | rfl) | rfl <;> decide
              have hname : Characters (s.drop (runLength isMarkupNameContinue s)) :=
                (hs.tail_of_ascii hc).drop_runLength uniform_isMarkupNameContinue
              rw [← List.drop_drop]
              exact hname
        · have hname : Characters (s.drop (runLength isMarkupNameContinue s)) :=
            hs.drop_runLength uniform_isMarkupNameContinue
          rw [← List.drop_drop]
          exact hname
      · exact h

theorem whole_markupRuns (style : InterpolationStyle) {s : List UInt8} (h : Characters s) :
    Whole (markupRuns style s) s := by
  have hopener := characters_drop_markupOpenerLength h
  have hbehind := whole_flatten_cutMarkup style hopener
  simp only [markupRuns]
  split
  · next hzero =>
    rw [hzero, List.drop_zero] at hbehind ⊢
    exact hbehind
  · exact ⟨hopener, hbehind⟩

end Token

/-! ## All regions -/

open Token in
/-- A text in which a region of the kind opens, and every plain text, is cut between characters. -/
theorem Coloring.whole_runs {d : Dialect} {kind : RegionKind} {s : List UInt8} (h : Characters s)
    (hopens : kind ≠ .plain → ∃ o, openingOf? d kind s = some o) :
    Whole ((Coloring.ofRegion d kind).runs s) s := by
  have huniform (token : TokenKind) : Whole ((uniform token).runs s) s := by
    rw [runs, whole_singleton, List.drop_length]
    exact .nil
  -- a tag starts with an ASCII byte
  have htag (shape : ExpressionRegion) (hshape : shape ≠ .interpolation)
      (hne : kind ≠ .plain) : Whole (expressionRuns shape s) s := by
    obtain ⟨o, ho⟩ := hopens hne
    have hhead := mayOpen_of_openingOf? ho
    cases s with
    | nil => exact absurd hhead (by simp)
    | cons b s =>
        have hb := ascii_of_mayOpen b (by simpa using hhead)
        have hopener := characters_drop_min (characters_drop_tagOpenerLength hb h)
        refine whole_expressionRuns ?_
        cases shape with
        | directive | macroCall => exact hopener
        | interpolation => exact absurd rfl hshape
  cases kind with
  | comment => exact huniform .comment
  | markupComment => exact huniform .markupComment
  | plain => exact huniform .text
  | directiveStart | directiveEnd => exact htag .directive (by simp) (by simp)
  | macroStart | macroEnd => exact htag .macroCall (by simp) (by simp)
  | interpolation =>
      obtain ⟨o, ho⟩ := hopens (by simp)
      obtain ⟨hstyle, -⟩ := interpolationOpening?_eq_some_iff.mp ho
      exact whole_expressionRuns
        (characters_drop_min (Expression.characters_drop_interpolationOpener hstyle h))
  | markupTag => exact whole_markupRuns d.interpolation h

namespace Template

variable {d : Dialect} {s : String} {r : Region} {p : Token}

/-- The tokens of a region tile it. -/
theorem tiles_color (hr : r ∈ (ofString s).regions d) :
    Tiles r.start ((ofString s).color d r) r.stop := by
  obtain ⟨x, y, z, hbytes, hstart, hlength, -⟩ := exists_parts_of_mem hr
  rw [color_of_parts hr hbytes hstart hlength, stop, hlength]
  exact Coloring.tiles_tokens _ r.start y

/-- Every token of a region starts and stops between characters of the document. -/
theorem isBoundary_of_mem_color (hr : r ∈ (ofString s).regions d)
    (hp : p ∈ (ofString s).color d r) :
    isBoundary (ofString s).bytes p.start = true ∧ isBoundary (ofString s).bytes p.stop = true := by
  obtain ⟨x, y, z, hbytes, hstart, hlength, hy, hfirst⟩ := exists_parts_of_mem hr
  have hbounds := (tiles_color hr).bounds hp
  have hsize : (ofString s).bytes.size = x.length + (y.length + z.length) := by
    rw [size_eq_add hbytes, List.length_append]
  have hchars := characters_of_parts hr hbytes hstart hlength
  have hopens : r.kind ≠ .plain → ∃ o, openingOf? d r.kind y = some o := by
    intro hne
    obtain ⟨-, o, ho, -⟩ := exists_opening_of_firstBy hne (firstBy_cut hfirst)
    exact ⟨o, ho⟩
  rw [color_of_parts hr hbytes hstart hlength] at hp
  obtain ⟨i, j, hi, hj, hchars_i, hchars_j⟩ :=
    (Coloring.whole_runs hchars hopens).merge.exists_of_mem_place hchars hp
  -- behind the region whole characters follow, too
  have hz : Characters z := by
    have hmem := hr
    rw [regions_eq_scan] at hmem
    have hstop := (isBoundary_of_mem_scanBy (Nat.zero_le (ofString s).bytes.size)
      (characters_toUTF8 s) hmem).2
    have hall : Characters (ofString s).bytes.toList := characters_toUTF8 s
    have hdrop := hall.drop_of_isBoundary (by rw [stop, hstart, hlength]; omega) hstop
    rwa [stop, hstart, hlength, ← List.drop_drop, hbytes, List.drop_left, List.drop_left] at hdrop
  have hcut {n : Nat} (hn : n ≤ y.length) (h : Characters (y.drop n)) :
      isBoundary (ofString s).bytes (r.start + n) = true := by
    refine Characters.isBoundary (by omega) ?_
    rw [hstart, ← List.drop_drop, hbytes, List.drop_left, List.drop_append_of_le_length hn]
    exact h.append hz
  have hstop : r.stop = r.start + y.length := by rw [stop, hlength]
  rw [hi, hj]
  exact ⟨hcut (by omega) hchars_i, hcut (by omega) hchars_j⟩

/-- What lies between two boundaries of a text can be sliced out, and is a text. -/
theorem exists_slice?_of_isBoundary {start stop : Nat} (hle : start ≤ stop)
    (hfit : stop ≤ (ofString s).length) (hstart : isBoundary (ofString s).bytes start = true)
    (hstop : isBoundary (ofString s).bytes stop = true) :
    ∃ part : String, (ofString s).slice? start stop = some (ofString part).bytes.toList ∧
      (ofString part).bytes.toList = ((ofString s).bytes.extract start stop).toList := by
  have hslice : (ofString s).slice? start stop =
      some ((ofString s).bytes.extract start stop).toList := by
    rw [slice?, if_pos ⟨hle, hfit⟩]
    show (if isBoundary (ofString s).bytes start && isBoundary (ofString s).bytes stop then _
      else none) = _
    rw [hstart, hstop, Bool.and_self, if_pos rfl]
  obtain ⟨part, hpart⟩ := exists_ofString_of_slice? hslice
  exact ⟨part, by rw [hslice, hpart], hpart⟩

theorem toList_ofString_join (parts : List String) :
    (ofString (String.join parts)).bytes.toList =
      (parts.map fun part => (ofString part).bytes.toList).flatten := by
  induction parts with
  | nil => rfl
  | cons part parts ih =>
      rw [String.join_cons, toList_ofString_append, ih, List.map_cons, List.flatten_cons]

theorem ofString_injective {a b : String}
    (h : (ofString a).bytes.toList = (ofString b).bytes.toList) : a = b := by
  have hbytes : a.toByteArray.data = b.toByteArray.data := Array.toList_inj.mp h
  exact String.toByteArray_inj.mp (ByteArray.ext hbytes)

/-- Spans that tile a stretch of a text and end at its boundaries cut it into texts. -/
theorem exists_slices {κ : Type} {ps : List (Span κ)} {a b : Nat} (h : Tiles a ps b)
    (hb : b ≤ (ofString s).length)
    (hps : ∀ p ∈ ps, isBoundary (ofString s).bytes p.start = true ∧
      isBoundary (ofString s).bytes p.stop = true) :
    ∃ parts : List String, ps.map (fun p => (ofString s).slice? p.start p.stop) =
        parts.map (fun part => some (ofString part).bytes.toList) ∧
      (parts.map fun part => (ofString part).bytes.toList).flatten =
        ((ofString s).bytes.extract a b).toList := by
  induction ps generalizing a with
  | nil =>
      refine ⟨[], rfl, ?_⟩
      rw [show a = b from h]
      simp
  | cons p ps ih =>
      have hbounds := h.bounds List.mem_cons_self
      obtain ⟨hstart, hstop⟩ := hps p List.mem_cons_self
      obtain ⟨part, hslice, hpart⟩ := exists_slice?_of_isBoundary
        (Nat.le_of_lt hbounds.2.1) (Nat.le_trans hbounds.2.2 hb) hstart hstop
      obtain ⟨parts, hslices, hflatten⟩ := ih h.2.2 fun q hq => hps q (List.mem_cons_of_mem p hq)
      refine ⟨part :: parts, by rw [List.map_cons, List.map_cons, hslice, hslices], ?_⟩
      rw [List.map_cons, List.flatten_cons, hflatten, hpart, h.head_start, ← Array.toList_append,
        Array.extract_append_extract, Nat.min_eq_left (by omega), Nat.max_eq_right (by omega)]

/-- **The tokens of a document can be sliced out of it, and their slices are the document.** The
tokens of all regions, in order, lie end to end from the start of the document to its end; each
lies in its region and starts and stops between characters; so each has a text, and these texts
put together are the document. -/
theorem highlight_slices (d : Dialect) (s : String) :
    Tiles 0 (((ofString s).highlight d).flatMap (·.tokens)) (ofString s).length ∧
      (∀ h ∈ (ofString s).highlight d, ∀ p ∈ h.tokens,
        h.region.start ≤ p.start ∧ p.stop ≤ h.region.stop ∧
          isBoundary (ofString s).bytes p.start = true ∧
          isBoundary (ofString s).bytes p.stop = true) ∧
      ∃ parts : List String,
        (((ofString s).highlight d).flatMap (·.tokens)).map
            (fun p => (ofString s).slice? p.start p.stop) =
          parts.map (fun part => some (ofString part).bytes.toList) ∧
        String.join parts = s := by
  have htokens : ((ofString s).highlight d).flatMap (·.tokens) =
      ((ofString s).regions d).flatMap ((ofString s).color d) := by
    rw [highlight, List.flatMap_map]
  have htiles : Tiles 0 (((ofString s).regions d).flatMap ((ofString s).color d))
      (ofString s).length :=
    (RegionMap.tiles_regions d (ofString s)).flatMap fun r hr => tiles_color hr
  have hboundaries : ∀ p ∈ ((ofString s).regions d).flatMap ((ofString s).color d),
      isBoundary (ofString s).bytes p.start = true ∧
        isBoundary (ofString s).bytes p.stop = true := by
    intro p hp
    obtain ⟨r, hr, hp⟩ := List.mem_flatMap.mp hp
    exact isBoundary_of_mem_color hr hp
  rw [htokens]
  refine ⟨htiles, ?_, ?_⟩
  · intro h hh p hp
    obtain ⟨r, hr, rfl⟩ := List.mem_map.mp hh
    have hbounds := (tiles_color hr).bounds hp
    exact ⟨hbounds.1, hbounds.2.2, isBoundary_of_mem_color hr hp⟩
  · obtain ⟨parts, hslices, hflatten⟩ := exists_slices htiles (Nat.le_refl _) hboundaries
    refine ⟨parts, hslices, ofString_injective ?_⟩
    rw [toList_ofString_join, hflatten]
    simp [length]

end Template

end TemplateColoring

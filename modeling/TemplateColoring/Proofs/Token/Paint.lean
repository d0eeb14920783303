import TemplateColoring.Proofs.Token.Drawing

/-!
# The place of a text makes no difference to its tokens

Every place that painting a text computes is the sum of the place where the text starts and of a
place in the text. So it makes no difference where the text starts, if its end is an offset: the
same runs are written, and what fails there fails anywhere (`Coloring.exists_runs_paint?`). The runs
are those of the coloring, and only too many brackets fail.
-/

set_option autoImplicit false

namespace TemplateColoring

open Ascii Bytes Expression

variable {c : Cursor} {base : Nat}

namespace Paint

/-! ## Expressions -/

section Expression

variable {delimiter : TokenKind} {bytes : Array UInt8} {runs runs' : List (Run TokenKind)}
  {l l' : Lexer} {x : Span Item}

/-- The run of an item of a document. -/
def itemRun (delimiter : TokenKind) (bytes : Array UInt8) (x : Span Item) : Run TokenKind :=
  ⟨Token.lexemeKind delimiter ⟨x.kind, (bytes.extract x.start x.stop).toList⟩, x.length⟩

/-- Notes the run of an item behind others. -/
def noteItem (delimiter : TokenKind) (bytes : Array UInt8) (runs : List (Run TokenKind))
    (x : Span Item) : Except Offset.Fault (List (Run TokenKind)) :=
  .ok (runs ++ [itemRun delimiter bytes x])

theorem writeItem?_ofRuns (hstart : Run.total runs = x.start) (hstop : base + x.stop ≤ Offset.max) :
    writeItem? delimiter base bytes (.ofRuns base runs) x =
      .ok (.ofRuns base (runs ++ [itemRun delimiter bytes x])) := by
  have hend : x.stop? = .ok x.stop := Offset.add_eq_ok (Nat.le_trans (Nat.le_add_left _ _) hstop)
  rw [Span.stop] at hstop
  rw [writeItem?, hend, ok_bind, Sink.write?_ofRuns hstart (by omega)]
  rfl

/-- Noted runs end where the lexer stands. -/
theorem total_of_fold?_noteItem (htotal : Run.total runs = l.cursor.position)
    (h : l.fold? (noteItem delimiter bytes) runs = .ok (runs', l')) :
    Run.total runs' = l'.cursor.position := by
  fun_induction Lexer.fold? (noteItem delimiter bytes) runs l with
  | case1 | case3 => exact absurd h (by simp)
  | case2 runs l =>
      obtain ⟨rfl, rfl⟩ := Prod.mk.inj (Except.ok.inj h)
      exact htotal
  | case4 runs l x l'' hnext acc hnote ih =>
      obtain rfl := Except.ok.inj hnote
      obtain ⟨-, hstart, hstop⟩ := Lexer.moves_of_next? hnext
      refine ih ?_ h
      rw [Token.total_append, Token.total_singleton, htotal, ← hstart]
      exact hstop

/-- The items of a lexer are written as they are noted, wherever the text starts. -/
theorem fold?_writeItem? (hw : l.cursor.Within) (hbase : base + l.cursor.limit ≤ Offset.max)
    (htotal : Run.total runs = l.cursor.position) :
    l.fold? (writeItem? delimiter base bytes) (.ofRuns base runs) =
      (l.fold? (noteItem delimiter bytes) runs).map fun (runs, l') => (.ofRuns base runs, l') := by
  fun_induction Lexer.fold? (noteItem delimiter bytes) runs l with
  | case1 runs l e hnext => rw [Lexer.fold?_of_error hnext, map_error]
  | case2 runs l hnext => rw [Lexer.fold?_of_none hnext, map_ok]
  | case3 runs l x l' _ e hnote => exact absurd hnote (by simp [noteItem])
  | case4 runs l x l' hnext acc hnote ih =>
      obtain rfl := Except.ok.inj hnote
      obtain ⟨hmoves, hstart, hstop⟩ := Lexer.moves_of_next? hnext
      have hleads := hmoves.passes.toLeadsTo
      have hend := (hleads.position_bounds hw).2
      have hnext' : Run.total (runs ++ [itemRun delimiter bytes x]) = l'.cursor.position := by
        rw [Token.total_append, Token.total_singleton, htotal, ← hstart]
        exact hstop
      have hplace : base + x.stop ≤ Offset.max := by
        rw [Span.stop, hstop]
        omega
      rw [Lexer.fold?_of_some hnext, writeItem?_ofRuns (htotal.trans hstart.symm) hplace, ok_bind,
        ih (hleads.within hw) (by rwa [hleads.limit]) hnext']

theorem foldlM_noteItem (runs : List (Run TokenKind)) (xs : List (Span Item)) :
    xs.foldlM (noteItem delimiter bytes) runs =
      .ok (runs ++ xs.map (itemRun delimiter bytes)) := by
  induction xs generalizing runs with
  | nil => rw [List.map_nil, List.append_nil]; rfl
  | cons x xs ih => rw [List.foldlM_cons, noteItem, ok_bind, ih, List.append_assoc]; rfl

/-- The items of lexemes that lie in the document have the runs of the lexemes. -/
theorem map_itemRun_place {pos : Nat} {lexemes : List Lexeme} {r : List UInt8}
    (h : bytes.toList.drop pos = (lexemes.map (·.text)).flatten ++ r) :
    (Span.place pos (lexemes.map fun x => (⟨x.item, x.text.length⟩ : Run Item))).map
      (itemRun delimiter bytes) = lexemes.map (Token.lexemeRun delimiter) := by
  induction lexemes generalizing pos with
  | nil => rfl
  | cons x lexemes ih =>
      rw [List.map_cons, List.flatten_cons, List.append_assoc] at h
      have htext : (bytes.extract pos (pos + x.text.length)).toList = x.text := by
        rw [toList_extract_add, h, List.take_left]
      have hrest : bytes.toList.drop (pos + x.text.length) =
          (lexemes.map (·.text)).flatten ++ r := by
        rw [← List.drop_drop, h, List.drop_left]
      rw [List.map_cons, Span.place_cons, List.map_cons, ih hrest, List.map_cons, itemRun,
        Span.stop, htext]
      rfl

theorem map_itemRun_items (hbytes : l.cursor.bytes = bytes) :
    l.items.map (itemRun delimiter bytes) = l.lexemes.map (Token.lexemeRun delimiter) := by
  have htexts := flatten_text l.terminator l.depth l.cursor.ahead
  refine map_itemRun_place (r := l.cursor.ahead.drop (reach l.lexemes).length) ?_
  rw [Lexer.lexemes, htexts, List.take_append_drop, Cursor.ahead_eq_drop, hbytes]

/-- The opener of an expression's text is told by the text. -/
theorem expressionOpener_eq (shape : Token.ExpressionRegion) (s : List UInt8) :
    (min ((Cursor.start s.toArray).expressionOpener shape).1 s.length,
      ((Cursor.start s.toArray).expressionOpener shape).2) = Token.openerOf shape s := by
  have htag : (((((Cursor.start s.toArray).advance 1).stepOver Token.isSigil).stepOver
      Token.isSigil).stepWhile isTagNameContinue).position =
      min (Token.tagOpenerLength s) s.length := by
    have hsigils := runLength_take_two Token.isSigil (s.drop 1)
    rw [stepOver_eq (Cursor.within_advance _ _), Cursor.advance_advance,
      stepOver_eq (Cursor.within_advance _ _), Cursor.advance_advance,
      (Cursor.within_advance _ _).stepWhile_eq_advance, Cursor.advance_advance]
    simp only [Cursor.ahead_advance, Cursor.ahead_start]
    rw [← List.drop_drop, Nat.add_assoc 1, ← hsigils]
    exact congrArg (min · s.length) (Nat.zero_add _)
  cases shape with
  | interpolation =>
      simp only [Cursor.expressionOpener, Cursor.current?_eq, Cursor.ahead_start, Token.openerOf,
        Token.bracketOf]
  | directive | macroCall =>
      simp only [Cursor.expressionOpener, Cursor.current?_eq, Cursor.ahead_start, Token.openerOf,
        Token.bracketOf, htag, Nat.min_assoc, Nat.min_self]

/-- The lexer behind the opener of an expression's text. -/
def lexerOf (shape : Token.ExpressionRegion) (s : List UInt8) : Lexer where
  cursor := (Cursor.start s.toArray).moveTo (Token.openerOf shape s).1
  terminator := (Token.openerOf shape s).2

theorem expression?_eq (shape : Token.ExpressionRegion) (base : Nat) (s : List UInt8) :
    expression? shape base s.toArray = (do
      let sink ← Sink.push? {} shape.delimiter base (Token.openerOf shape s).1
      let (sink, l) ←
        (lexerOf shape s).fold? (writeItem? shape.delimiter base s.toArray) sink
      let place ← Offset.add base l.cursor.position
      sink.push? .other place (← Offset.sub s.length l.cursor.position)) := by
  rw [lexerOf, ← expressionOpener_eq]
  rfl

/-- The runs of an expression region's text, with those of its items as they are noted. -/
def notedRuns (shape : Token.ExpressionRegion) (s : List UInt8) :
    Except Offset.Fault (List (Run TokenKind)) :=
  ((lexerOf shape s).fold? (noteItem shape.delimiter s.toArray)
    [⟨shape.delimiter, (Token.openerOf shape s).1⟩]).map fun (runs, l) =>
      runs ++ [⟨.other, s.length - l.cursor.position⟩]

theorem position_lexerOf (shape : Token.ExpressionRegion) (s : List UInt8) :
    (lexerOf shape s).cursor.position = (Token.openerOf shape s).1 :=
  Nat.min_eq_left (Token.openerOf_le shape s)

/-- An expression region is painted as its runs are noted. -/
theorem expression?_eq_notedRuns (shape : Token.ExpressionRegion) {s : List UInt8}
    (hbase : base + s.length ≤ Offset.max) :
    expression? shape base s.toArray = (notedRuns shape s).map (.ofRuns base) := by
  have hw : (lexerOf shape s).cursor.Within := Cursor.within_moveTo _ _
  have htotal : Run.total [⟨shape.delimiter, (Token.openerOf shape s).1⟩] =
      (lexerOf shape s).cursor.position :=
    (Token.total_singleton _ _).trans (position_lexerOf shape s).symm
  rw [expression?_eq, Sink.push?_empty, ok_bind, fold?_writeItem? hw hbase htotal, notedRuns]
  cases hfold : (lexerOf shape s).fold? (noteItem shape.delimiter s.toArray)
      [⟨shape.delimiter, (Token.openerOf shape s).1⟩] with
  | error e => rfl
  | ok found =>
      obtain ⟨runs, l⟩ := found
      have hend : l.cursor.position ≤ s.length :=
        ((Lexer.leadsTo_of_fold? hfold).position_bounds hw).2
      have htotal' := total_of_fold?_noteItem htotal hfold
      simp only [map_ok, ok_bind]
      rw [Offset.add_eq_ok (by omega), ok_bind, Offset.sub_eq_ok hend, ok_bind, ← htotal',
        Sink.push?_ofRuns (by omega)]

/-- The runs that are noted are those of the region. -/
theorem notedRuns_agrees (shape : Token.ExpressionRegion) (s : List UInt8) :
    Lexer.Agrees s.length (notedRuns shape s) (.ok (Token.expressionRuns shape s)) := by
  have hw : (lexerOf shape s).cursor.Within := Cursor.within_moveTo _ _
  have hposition := position_lexerOf shape s
  have hleft : (lexerOf shape s).cursor.left = s.length - (Token.openerOf shape s).1 := by
    rw [Cursor.left, hposition]
    rfl
  have hlexemes : (lexerOf shape s).lexemes =
      lex (Token.openerOf shape s).2 (s.drop (Token.openerOf shape s).1) := by
    rw [Lexer.lexemes, lex_eq_lexFrom, Cursor.ahead_eq_drop, hposition]
    rfl
  have hreach := extent_le (Token.openerOf shape s).2 (s.drop (Token.openerOf shape s).1)
  rw [List.length_drop, extent, ← hlexemes] at hreach
  obtain ⟨l, hcursor, -, hfold⟩ := Lexer.fold?_agrees hw rfl
  have hdepth : (lexerOf shape s).depth + (lexerOf shape s).cursor.left ≤ s.length := by
    rw [hleft, lexerOf, Nat.zero_add]
    exact Nat.sub_le _ _
  refine (((hfold _ _).mono hdepth).map _).trans (.of_eq ?_)
  have hruns : (lexerOf shape s).items.map (itemRun shape.delimiter s.toArray) =
      (lexerOf shape s).lexemes.map (Token.lexemeRun shape.delimiter) := map_itemRun_items rfl
  rw [foldlM_noteItem, map_ok, map_ok, hruns]
  dsimp only
  rw [hcursor, hw.position_advance (by omega), hposition, hlexemes, Nat.sub_add_eq]
  rfl

/-- **An expression region is drawn** as its runs. -/
theorem covers_expression? (shape : Token.ExpressionRegion) (s : List UInt8) :
    Covers s (fun base => expression? shape base s.toArray) (Token.expressionRuns shape s) :=
  ⟨notedRuns shape s, fun _ => expression?_eq_notedRuns shape, notedRuns_agrees shape s⟩

end Expression

end Paint

namespace Coloring

/-- **What painting a text comes to**: tokens of runs that are the same wherever the text starts, or
a failure that is the same wherever it starts.  The runs are those of the coloring, and it is no
failure, unless the text has more brackets than can be counted. -/
theorem exists_runs_paint? (c : Coloring) (s : List UInt8) :
    ∃ drawn : Except Offset.Fault (List (Run TokenKind)),
      (∀ base, base + s.length ≤ Offset.max →
        c.paint? base s = drawn.map (Token.ofRuns base)) ∧
      Lexer.Agrees s.length drawn (.ok (c.runs s)) := by
  cases c with
  | uniform kind =>
      have hcovers : Paint.Covers s (Sink.push? {} kind · s.length) [⟨kind, s.length⟩] :=
        ⟨.ok [⟨kind, s.length⟩], fun base _ => Sink.push?_empty base kind s.length, .refl _ _⟩
      exact hcovers.finish
  | expression shape => exact (Paint.covers_expression? shape s).finish
  | markup style =>
      by_cases hlimit : s.length ≤ Offset.max
      · exact (Paint.covers_markup? style s hlimit).finish
      · exact ⟨.ok (Token.markupRuns style s), fun base hbase => absurd hbase (by omega),
          .refl _ _⟩

/-- Painting a text gives the tokens of the coloring, unless the text has more brackets than can be
counted. -/
theorem paint?_agrees (c : Coloring) {base : Nat} {s : List UInt8}
    (hbase : base + s.length ≤ Offset.max) :
    Lexer.Agrees s.length (c.paint? base s) (.ok (c.tokens base s)) := by
  obtain ⟨drawn, hdrawn, hruns⟩ := c.exists_runs_paint? s
  rw [hdrawn base hbase]
  exact hruns.map _

/-- An interpolation with too many open brackets is not painted. -/
theorem paint?_unclosed {base n : Nat} (hn : Lexer.maxDepth < n)
    (hbase : base + (Template.ofString (unclosed n)).bytes.toList.length ≤ Offset.max) :
    (expression .interpolation).paint? base (Template.ofString (unclosed n)).bytes.toList =
      .error .tooLarge := by
  have hahead : (Paint.lexerOf .interpolation
      (Template.ofString (unclosed n)).bytes.toList).cursor.ahead =
        List.replicate n parenOpen := by
    rw [Cursor.ahead_eq_drop, Paint.position_lexerOf]
    show (Template.ofString (unclosed n)).bytes.toList.drop
      (min 2 (Template.ofString (unclosed n)).bytes.toList.length) = _
    rw [toList_unclosed, Nat.min_eq_left (by simp)]
    rfl
  have hnoted : Paint.notedRuns .interpolation (Template.ofString (unclosed n)).bytes.toList =
      .error .tooLarge := by
    have hnote (runs : List (Run TokenKind)) (x : Span Item) : ∃ runs',
        Paint.noteItem TokenKind.interpolation
          (Template.ofString (unclosed n)).bytes.toList.toArray runs x = .ok runs' := ⟨_, rfl⟩
    exact congrArg (Except.map _) (Lexer.fold?_of_brackets hnote hahead rfl (Nat.zero_le _)
      (show Lexer.maxDepth < 0 + n by omega))
  exact congrArg (Except.map _) ((Paint.expression?_eq_notedRuns _ hbase).trans
    (congrArg (Except.map _) hnoted))

/-- **The place of a text makes no difference to its tokens** but to move them, if the text ends at
an offset: each token has its kind and its length wherever the text starts, and painting fails at
one place only if it fails at every other.  It does not fail, and gives the tokens of the coloring,
if the text has no more bytes than brackets can be counted. -/
theorem paint?_moved (c : Coloring) (base : Nat) (s : List UInt8)
    (h : base + s.length ≤ Offset.max) :
    c.paint? base s = (c.paint? 0 s).map (List.map (Span.moveBy base)) ∧
      (s.length ≤ Lexer.maxDepth → c.paint? 0 s = .ok (c.tokens 0 s)) := by
  obtain ⟨drawn, hdrawn, -⟩ := c.exists_runs_paint? s
  have hzero : 0 + s.length ≤ Offset.max := by omega
  refine ⟨?_, (c.paint?_agrees hzero).eq_of_le⟩
  rw [hdrawn base h, hdrawn 0 hzero]
  cases drawn with
  | error e => rfl
  | ok runs =>
      have hmoved := Token.map_ofRuns base 0 runs
      rw [Nat.zero_add] at hmoved
      exact congrArg Except.ok hmoved.symm

/-- A host tag that ends at the largest offset: blanks and a mark are one token there too. -/
theorem paint?_moved_to_the_end :
    (Offset.max - 16) + "<a  !b=\"x[=y]\"/>".toUTF8.data.toList.length ≤ Offset.max ∧
      (markup .square).paint? (Offset.max - 16) "<a  !b=\"x[=y]\"/>".toUTF8.data.toList =
        .ok ([⟨.markupTag, 0, 2⟩, ⟨.text, 2, 3⟩, ⟨.markupAttribute, 5, 1⟩, ⟨.text, 6, 1⟩,
          ⟨.string, 7, 2⟩, ⟨.interpolation, 9, 4⟩, ⟨.string, 13, 1⟩, ⟨.markupTag, 14, 2⟩].map
            (Span.moveBy (Offset.max - 16))) := by
  have hfits : (Offset.max - 16) + "<a  !b=\"x[=y]\"/>".toUTF8.data.toList.length ≤ Offset.max := by
    decide
  obtain ⟨hmoved, hzero⟩ := paint?_moved (markup .square) _ _ hfits
  have htokens : (markup .square).tokens 0 "<a  !b=\"x[=y]\"/>".toUTF8.data.toList =
      [⟨.markupTag, 0, 2⟩, ⟨.text, 2, 3⟩, ⟨.markupAttribute, 5, 1⟩, ⟨.text, 6, 1⟩,
        ⟨.string, 7, 2⟩, ⟨.interpolation, 9, 4⟩, ⟨.string, 13, 1⟩, ⟨.markupTag, 14, 2⟩] := by
    decide +kernel
  exact ⟨hfits, by rw [hmoved, hzero (by decide), htokens, map_ok]⟩

end Coloring

/-! ## Regions of a template -/

namespace Template

/-- Painting a span gives its tokens, unless more brackets are open than can be counted. -/
theorem paint?_agrees (t : Template) (d : Dialect) {r : Region} (hr : r.stop ≤ Offset.max) :
    Lexer.Agrees t.length (t.paint? d r) (.ok (t.color d r)) := by
  have hstop : r.stop? = .ok r.stop := Offset.add_eq_ok hr
  rw [paint?, color, hstop, ok_bind]
  cases hslice : t.slice? r.start r.stop with
  | none => exact .refl _ _
  | some s =>
      obtain ⟨hlength, hend⟩ := length_of_slice? hslice
      exact ((Coloring.ofRegion d r.kind).paint?_agrees (by omega)).mono (by omega)

/-- Painting a region of the template gives its tokens, if its brackets can be counted. -/
theorem paint?_eq (t : Template) (d : Dialect) (hsize : t.length ≤ Lexer.maxDepth) {r : Region}
    (hr : r.stop ≤ t.length) : t.paint? d r = .ok (t.color d r) :=
  (t.paint?_agrees d (Nat.le_trans hr (Nat.le_trans hsize Lexer.maxDepth_le_max))).eq_of_le hsize

/-- Whatever painting a region gives, these are the tokens of the region. -/
theorem eq_color_of_paint? {t : Template} {d : Dialect} {r : Region} {tokens : List Token}
    (h : t.paint? d r = .ok tokens) : tokens = t.color d r := by
  obtain ⟨stop, hstop, -⟩ := exists_of_bind_eq_ok h
  obtain ⟨hmax, rfl⟩ := Offset.eq_of_add hstop
  exact (t.paint?_agrees d hmax).eq_of_ok h

end Template

end TemplateColoring

import TemplateColoring.Bytes.Step
import TemplateColoring.Expression.Lexeme
import TemplateColoring.Fallible
import TemplateColoring.Span

/-!
# Lexers

A lexer stands in a document and gives out the items of an expression one after the other, each
with its place.  Where `lex` divides the text in front of it, a lexer moves a cursor and counts the
open brackets in 32 bits, so that it may fail where `lex` cannot: at one bracket too many.
-/

set_option autoImplicit false

namespace TemplateColoring

open Ascii

namespace Cursor

/-- Whether a comment of the template language opens at the cursor. -/
def opensComment (c : Cursor) (b : Bracket) : Bool :=
  c.current? == some b.openByte && c.standsAt 1 [hash, hyphen, hyphen]

/-- Whether a directive or macro tag opens at the cursor. -/
def opensTag (c : Cursor) (b : Bracket) : Bool :=
  c.current? == some b.openByte &&
    match c.peek? 1 with
    | some x => isTagSigil x || x == slash && (c.peek? 2).any isTagSigil
    | none => false
where
  isTagSigil (x : UInt8) : Bool := x == hash || x == commercialAt

end Cursor

namespace Expression

/-- The length of the terminator that stands at the cursor. -/
def Terminator.lengthAtCursor? (t : Terminator) (c : Cursor) : Option Nat :=
  match t with
  | tag b =>
    if c.current? == some b.closeByte then some 1
    else if c.current? == some slash && c.peek? 1 == some b.closeByte then some 2
    else none
  | brace => if c.current? == some braceClose then some 1 else none
  | bracket => if c.current? == some squareClose then some 1 else none

/-! ## Literals and numbers -/

/-- Passes what follows the opening quote of a string literal, the closing quote included. -/
def stepLiteral (raw : Bool) (quote : UInt8) (c : Cursor) : Cursor :=
  match _ : c.current? with
  | some b =>
    if b == quote then c.advance 1
    else if b == backslash && !raw then stepLiteral raw quote (c.advance 1).advanceChar
    else stepLiteral raw quote c.advanceChar
  | none => c
termination_by c.left
decreasing_by
  · exact ((Cursor.passes_advance ‹_› Nat.one_pos).then (Cursor.leadsTo_advanceChar _)).left_lt
  · exact (Cursor.passes_advanceChar ‹_›).left_lt

/-- Passes a string literal, of which the quote at the cursor is the first byte. -/
def readLiteral (raw : Bool) (c : Cursor) : Cursor :=
  match c.current? with
  | some quote => stepLiteral raw quote (c.advance 1)
  | none => c

/-- Passes a number. -/
def readNumber (c : Cursor) : Cursor :=
  let c := c.stepWhile isDigit
  if c.current? == some dot && (c.peek? 1).any isDigit then (c.advance 1).stepWhile isDigit else c

end Expression

open Expression

/-- A lexer on its way through an expression. -/
structure Lexer where
  cursor : Cursor
  terminator : Terminator
  /-- The number of brackets that are open. -/
  depth : Nat := 0
  /-- Whether the terminator is passed. -/
  closed : Bool := false
deriving DecidableEq, Repr

namespace Lexer

/-- The largest number of open brackets. -/
def maxDepth : Nat := 0xFFFFFFFF

/-- One open bracket more, if that many can be counted. -/
def deepen (depth : Nat) : Except Offset.Fault Nat :=
  if depth < maxDepth then .ok (depth + 1) else .error .tooLarge

theorem eq_of_deepen {depth n : Nat} (h : deepen depth = .ok n) : n = depth + 1 := by
  unfold deepen at h
  split at h
  · exact (Except.ok.inj h).symm
  · exact absurd h (by simp)

def opensComment (l : Lexer) : Bool := l.cursor.opensComment l.terminator.comments

def opensTag (l : Lexer) : Bool := l.cursor.opensTag l.terminator.comments

/-- Passes a byte that starts no other item: a bracket, the terminator or some other mark. -/
def readMark? (l : Lexer) (b : UInt8) : Except Offset.Fault (Item × Lexer) :=
  if isOpening b then
    (deepen l.depth).map fun depth => (.operator, { l with depth, cursor := l.cursor.advance 1 })
  else if isClosing b && 0 < l.depth then
    (Offset.sub l.depth 1).map fun depth =>
      (.operator, { l with depth, cursor := l.cursor.advance 1 })
  else
    match if l.depth == 0 then l.terminator.lengthAtCursor? l.cursor else none with
    | some length => .ok (.close, { l with cursor := l.cursor.advance length, closed := true })
    | none => .ok (.operator, { l with cursor := l.cursor.advanceChar })

/-- Passes the item that starts with the byte `b` at the cursor, unless the byte is a mark. -/
def readWord? (l : Lexer) (b : UInt8) : Option (Item × Cursor) :=
  let c := l.cursor
  if isBlank b then some (.blank, c.stepWhile isBlank)
  else if isQuote b then some (.string, readLiteral false c)
  else if b == letterR && (c.peek? 1).any isQuote then some (.string, readLiteral true (c.advance 1))
  else if l.opensComment then
    some (.comment, ((c.advance 4).stepThrough l.terminator.comments.commentClose).2)
  else if isNameStart b then some (.identifier, c.stepWhile isNameContinue)
  else if isDigit b then some (.number, readNumber c)
  else if b == question && (c.peek? 1).any isNameStart then
    some (.builtIn, (c.advance 1).stepWhile isNameContinue)
  else none

/-- Passes the item that starts with the byte `b` at the cursor. -/
def read? (l : Lexer) (b : UInt8) : Except Offset.Fault (Item × Lexer) :=
  match l.readWord? b with
  | some (item, cursor) => .ok (item, { l with cursor })
  | none => l.readMark? b

/-- The next item, and the lexer behind it.  There is none behind the terminator, at the end of the
document, or where a tag of the template language opens while brackets are open. -/
def next? (l : Lexer) : Except Offset.Fault (Option (Span Item × Lexer)) :=
  if l.closed then .ok none
  else
    match l.cursor.current? with
    | none => .ok none
    | some b =>
      if 0 < l.depth && !l.opensComment && l.opensTag then .ok none
      else do
        let (item, l') ← l.read? b
        let length ← Offset.sub l'.cursor.position l.cursor.position
        .ok (some (⟨item, l.cursor.position, length⟩, l'))

/-! ## Every item has bytes -/

end Lexer

namespace Expression

variable {c : Cursor} {b : UInt8}

theorem leadsTo_stepLiteral (raw : Bool) (quote : UInt8) (c : Cursor) :
    c.LeadsTo (stepLiteral raw quote c) := by
  fun_induction stepLiteral raw quote c with
  | case1 c => exact Cursor.leadsTo_advance c 1
  | case2 c _ _ _ _ ih =>
    exact ((Cursor.leadsTo_advance c 1).trans (Cursor.leadsTo_advanceChar _)).trans ih
  | case3 c _ _ _ _ ih => exact (Cursor.leadsTo_advanceChar c).trans ih
  | case4 c => exact .refl c

theorem passes_readLiteral (raw : Bool) (h : c.current? = some b) :
    c.Passes (readLiteral raw c) := by
  simp only [readLiteral, h]
  exact (Cursor.passes_advance h Nat.one_pos).then (leadsTo_stepLiteral raw b _)

theorem leadsTo_readLiteral (raw : Bool) (c : Cursor) : c.LeadsTo (readLiteral raw c) := by
  cases h : c.current? with
  | none => simp only [readLiteral, h]; exact .refl c
  | some b => exact (passes_readLiteral raw h).toLeadsTo

theorem passes_readNumber (h : c.current? = some b) (hb : isDigit b = true) :
    c.Passes (readNumber c) := by
  have hwhole := Cursor.passes_stepWhile h hb
  simp only [readNumber]
  split
  · exact hwhole.then ((Cursor.leadsTo_advance _ 1).trans (Cursor.leadsTo_stepWhile _ _))
  · exact hwhole

theorem Terminator.lengthAtCursor?_pos {t : Terminator} {k : Nat}
    (h : t.lengthAtCursor? c = some k) : 0 < k := by
  unfold Terminator.lengthAtCursor? at h
  repeat' split at h
  all_goals first | (obtain rfl := Option.some.inj h; decide) | exact absurd h (by simp)

end Expression

namespace Lexer

variable {l l' : Lexer} {b : UInt8} {item : Item}

/-- **What reading an item does**: it passes bytes, and opens at most one bracket. -/
structure Moves (l l' : Lexer) : Prop where
  passes : l.cursor.Passes l'.cursor
  terminator : l'.terminator = l.terminator
  depth : l'.depth ≤ l.depth + 1

theorem moves_of_readMark? (h : l.cursor.current? = some b)
    (hread : l.readMark? b = .ok (item, l')) : l.Moves l' := by
  have hstep : l.cursor.Passes (l.cursor.advance 1) := Cursor.passes_advance h Nat.one_pos
  unfold readMark? at hread
  split at hread
  · obtain ⟨depth, hdepth, hl⟩ := exists_of_map_eq_ok hread
    obtain ⟨-, rfl⟩ := Prod.mk.inj hl
    exact ⟨hstep, rfl, Nat.le_of_eq (eq_of_deepen hdepth)⟩
  split at hread
  · obtain ⟨depth, hdepth, hl⟩ := exists_of_map_eq_ok hread
    obtain ⟨-, rfl⟩ := Prod.mk.inj hl
    exact ⟨hstep, rfl, by have := (Offset.eq_of_sub hdepth).2; simp only []; omega⟩
  split at hread
  · next k hk =>
    have hpos : 0 < k := by
      split at hk
      · exact Terminator.lengthAtCursor?_pos hk
      · exact absurd hk (by simp)
    obtain ⟨-, rfl⟩ := Prod.mk.inj (Except.ok.inj hread)
    exact ⟨Cursor.passes_advance h hpos, rfl, Nat.le_succ _⟩
  · obtain ⟨-, rfl⟩ := Prod.mk.inj (Except.ok.inj hread)
    exact ⟨Cursor.passes_advanceChar h, rfl, Nat.le_succ _⟩

theorem passes_of_readWord? {c : Cursor} (h : l.cursor.current? = some b)
    (hread : l.readWord? b = some (item, c)) : l.cursor.Passes c := by
  have hstep : l.cursor.Passes (l.cursor.advance 1) := Cursor.passes_advance h Nat.one_pos
  simp only [readWord?] at hread
  split at hread
  · next hb =>
    obtain ⟨-, rfl⟩ := Prod.mk.inj (Option.some.inj hread)
    exact Cursor.passes_stepWhile h hb
  split at hread
  · obtain ⟨-, rfl⟩ := Prod.mk.inj (Option.some.inj hread)
    exact passes_readLiteral false h
  split at hread
  · obtain ⟨-, rfl⟩ := Prod.mk.inj (Option.some.inj hread)
    exact hstep.then (leadsTo_readLiteral true _)
  split at hread
  · obtain ⟨-, rfl⟩ := Prod.mk.inj (Option.some.inj hread)
    exact (Cursor.passes_advance h (by decide)).then (Cursor.leadsTo_stepThrough _ _)
  split at hread
  · next hb =>
    obtain ⟨-, rfl⟩ := Prod.mk.inj (Option.some.inj hread)
    exact Cursor.passes_stepWhile h (by simp [isNameContinue, hb])
  split at hread
  · next hb =>
    obtain ⟨-, rfl⟩ := Prod.mk.inj (Option.some.inj hread)
    exact passes_readNumber h hb
  split at hread
  · obtain ⟨-, rfl⟩ := Prod.mk.inj (Option.some.inj hread)
    exact hstep.then (Cursor.leadsTo_stepWhile _ _)
  · exact absurd hread (by simp)

theorem moves_of_read? (h : l.cursor.current? = some b)
    (hread : l.read? b = .ok (item, l')) : l.Moves l' := by
  unfold read? at hread
  split at hread
  · next hword =>
    obtain ⟨-, rfl⟩ := Prod.mk.inj (Except.ok.inj hread)
    exact ⟨passes_of_readWord? h hword, rfl, Nat.le_succ _⟩
  · exact moves_of_readMark? h hread

/-- **What a call of a lexer gives**: an item at the lexer, which reaches to the lexer behind it. -/
theorem moves_of_next? {x : Span Item} (h : l.next? = .ok (some (x, l'))) :
    l.Moves l' ∧ x.start = l.cursor.position ∧ x.start + x.length = l'.cursor.position := by
  unfold next? at h
  split at h
  · exact absurd h (by simp)
  split at h
  · exact absurd h (by simp)
  next b hb =>
  split at h
  · exact absurd h (by simp)
  obtain ⟨⟨item, l''⟩, hread, h⟩ := exists_of_bind_eq_ok h
  obtain ⟨length, hlength, h⟩ := exists_of_bind_eq_ok h
  obtain ⟨rfl, rfl⟩ := Prod.mk.inj (Option.some.inj (Except.ok.inj h))
  obtain ⟨hle, rfl⟩ := Offset.eq_of_sub hlength
  exact ⟨moves_of_read? hb hread, rfl, Nat.add_sub_cancel' hle⟩

/-! ## Going on to the end -/

/-- Hands the items that are left to `f`, one after the other, and gives what comes of it and the
lexer at the end. -/
def fold? {σ : Type} (f : σ → Span Item → Except Offset.Fault σ) (acc : σ) (l : Lexer) :
    Except Offset.Fault (σ × Lexer) :=
  match _ : l.next? with
  | .error e => .error e
  | .ok none => .ok (acc, l)
  | .ok (some (x, l')) =>
    match f acc x with
    | .error e => .error e
    | .ok acc => fold? f acc l'
termination_by l.cursor.left
decreasing_by exact (moves_of_next? ‹_›).1.passes.left_lt

theorem leadsTo_of_fold? {σ : Type} {f : σ → Span Item → Except Offset.Fault σ} {acc acc' : σ}
    (h : l.fold? f acc = .ok (acc', l')) : l.cursor.LeadsTo l'.cursor := by
  fun_induction fold? f acc l with
  | case1 | case3 => exact absurd h (by simp)
  | case2 acc l =>
    obtain ⟨-, rfl⟩ := Prod.mk.inj (Except.ok.inj h)
    exact .refl _
  | case4 acc l x l'' hnext acc'' _ ih => exact (moves_of_next? hnext).1.passes.trans (ih h)

end Lexer

namespace Cursor

/-- Passes the expression at the cursor, and says whether its terminator was there. -/
def skipExpression? (c : Cursor) (t : Terminator) : Except Offset.Fault (Bool × Cursor) :=
  (Lexer.fold? (fun _ _ => .ok ()) () { cursor := c, terminator := t }).map fun (_, l) =>
    (l.closed, c.moveTo l.cursor.position)

theorem leadsTo_of_skipExpression? {c c' : Cursor} {t : Terminator} {closed : Bool}
    (h : c.skipExpression? t = .ok (closed, c')) : c.LeadsTo c' := by
  obtain ⟨⟨_, l⟩, hfold, hl⟩ := exists_of_map_eq_ok h
  obtain ⟨-, rfl⟩ := Prod.mk.inj hl
  exact (Lexer.leadsTo_of_fold? hfold).moveTo

end Cursor

end TemplateColoring

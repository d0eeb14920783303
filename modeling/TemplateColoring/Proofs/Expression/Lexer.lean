import Mathlib.Logic.Relation
import TemplateColoring.Proofs.Bytes.Characters
import TemplateColoring.Proofs.Bytes.Step
import TemplateColoring.Proofs.Expression.Agrees
import TemplateColoring.Proofs.Expression.Lexeme

/-!
# A lexer gives out the lexemes of the text ahead

A lexer gives out the lexemes that `lex` cuts off the text, each at its place, and stops behind the
last of them, as long as it can count the open brackets (`Lexer.fold?_agrees`). They are never more
than the bytes passed, so that it can count them wherever few bytes are ahead.
-/

set_option autoImplicit false

namespace TemplateColoring

open Ascii Bytes Expression

/-! ## The tests at a cursor -/

namespace Cursor

variable {c : Cursor} {b : UInt8} {s : List UInt8}

/-- A cursor with bytes in front of it. -/
theorem exists_ahead (h : c.current? = some b) : ∃ s, c.ahead = b :: s :=
  List.head?_eq_some_iff.mp (current?_eq c ▸ h)

theorem current?_of_ahead (h : c.ahead = b :: s) : c.current? = some b := by
  rw [current?_eq, h, List.head?_cons]

theorem peek?_one_of_ahead (h : c.ahead = b :: s) : c.peek? 1 = s.head? := by
  rw [peek?_eq, h, List.getElem?_cons_succ, List.head?_eq_getElem?]

theorem peek?_two_of_ahead (h : c.ahead = b :: s) : c.peek? 2 = s.tail.head? := by
  rw [peek?_eq, h, List.getElem?_cons_succ, List.head?_eq_getElem?, List.getElem?_tail]

theorem opensComment_eq (c : Cursor) (br : Bracket) :
    c.opensComment br = br.opensComment c.ahead := by
  show c.standsAt 0 [br.openByte, Ascii.hash, hyphen, hyphen] = _
  rw [standsAt_eq, List.drop_zero, Bracket.opensComment]

theorem opensTag_eq (c : Cursor) (br : Bracket) : c.opensTag br = br.opensTag c.ahead := by
  cases hs : c.ahead with
  | nil => simp [opensTag, current?_eq, hs, Bracket.opensTag, List.isPrefixOf]
  | cons b s =>
      rw [opensTag, current?_of_ahead hs, peek?_one_of_ahead hs, peek?_two_of_ahead hs,
        Bracket.opensTag, Bool.eq_iff_iff]
      rcases s with _ | ⟨x, _ | ⟨y, s⟩⟩
      · simp [List.isPrefixOf]
      · simp [opensTag.isTagSigil, List.isPrefixOf]
        grind
      · simp [opensTag.isTagSigil, List.isPrefixOf]
        grind

end Cursor

namespace Expression

variable {c : Cursor} {b : UInt8} {s : List UInt8}

theorem Terminator.lengthAtCursor?_eq (t : Terminator) (c : Cursor) :
    t.lengthAtCursor? c = t.lengthAt? c.ahead := by
  cases hs : c.ahead with
  | nil =>
      have hnone := (c.ahead_eq_nil_iff).mp hs
      cases t <;> simp [lengthAtCursor?, lengthAt?, hnone]
  | cons b s =>
      cases t <;>
        simp [lengthAtCursor?, lengthAt?, Cursor.current?_of_ahead hs, Cursor.peek?_one_of_ahead hs]

/-! ## Literals and numbers -/

theorem stepLiteral_eq (raw : Bool) (quote : UInt8) {c : Cursor} (h : c.Within) :
    stepLiteral raw quote c = c.advance (stringBodyLength raw quote c.ahead) := by
  rw [stringBodyLength_eq]
  have hb := bounded_stringStep raw quote
  fun_induction stepLiteral raw quote c with
  | case1 c b hcur hq =>
      obtain ⟨s, hs⟩ := Cursor.exists_ahead hcur
      obtain rfl := beq_iff_eq.mp hq
      rw [hs, walkThrough_close (stringStep_eq_none_iff.mpr rfl)]
  | case2 c b hcur hq hesc ih =>
      obtain ⟨s, hs⟩ := Cursor.exists_ahead hcur
      have hstep : stringStep raw quote c.ahead = some (1 + charLength s) := by
        rw [hs, stringStep, if_neg hq, if_pos hesc]
      have hw : (c.advance 1).Within := Cursor.within_advance _ _
      rw [walkThrough_of_step hb (by simp [hs]) hstep]
      rw [hw.advanceChar_eq, Cursor.advance_advance, Cursor.ahead_advance, hs, List.drop_one,
        List.tail_cons] at ih ⊢
      rw [ih (Cursor.within_advance _ _), Cursor.ahead_advance, Cursor.advance_advance, hs]
  | case3 c b hcur hq hesc ih =>
      obtain ⟨s, hs⟩ := Cursor.exists_ahead hcur
      have hstep : stringStep raw quote c.ahead = some (charLength c.ahead) := by
        rw [hs, stringStep, if_neg hq, if_neg hesc]
      rw [h.advanceChar_eq] at ih ⊢
      rw [walkThrough_of_step hb (by simp [hs]) hstep, ih (Cursor.within_advance _ _),
        Cursor.ahead_advance, Cursor.advance_advance]
  | case4 c hcur =>
      rw [(c.ahead_eq_nil_iff).mpr hcur]
      exact h.advance_zero.symm

theorem readLiteral_eq (raw : Bool) (hs : c.ahead = b :: s) :
    readLiteral raw c = c.advance (1 + stringBodyLength raw b s) := by
  have hw : (c.advance 1).Within := Cursor.within_advance _ _
  simp only [readLiteral, Cursor.current?_of_ahead hs]
  rw [stepLiteral_eq raw b hw, Cursor.ahead_advance, hs, List.drop_one, List.tail_cons,
    Cursor.advance_advance]

theorem readNumber_eq {c : Cursor} (h : c.Within) :
    readNumber c = c.advance (numberLength c.ahead) := by
  have hw : (c.advance (runLength isDigit c.ahead)).Within := Cursor.within_advance _ _
  have hw' : ((c.advance (runLength isDigit c.ahead)).advance 1).Within := Cursor.within_advance _ _
  simp only [readNumber, numberLength, h.stepWhile_eq_advance]
  rw [hw'.stepWhile_eq_advance, Cursor.ahead_advance, Cursor.ahead_advance,
    Cursor.advance_advance, Cursor.advance_advance, Cursor.current?_eq, Cursor.peek?_eq,
    Cursor.ahead_advance]
  generalize c.ahead.drop (runLength isDigit c.ahead) = rest
  rcases rest with _ | ⟨point, _ | ⟨b, rest⟩⟩
  · simp [fractionLength]
  · simp [fractionLength]
  · simp only [fractionLength, List.head?_cons, Option.some_beq_some, List.getElem?_cons_succ,
      List.getElem?_cons_zero, Option.any_some, List.drop_one, List.tail_cons]
    split <;> simp

end Expression

namespace Lexer

variable {l l' : Lexer} {b : UInt8} {s : List UInt8} {item : Item} {k : Nat}

/-- A lexer behind an item of `k` bytes. -/
def behind (l : Lexer) (item : Item) (k : Nat) : Lexer :=
  { l with
    cursor := l.cursor.advance k
    depth := depthAfter l.depth item l.cursor.ahead
    closed := item == .close }

/-- No terminator starts with an opening bracket. -/
theorem lengthAt?_of_isOpening (t : Terminator) (hb : isOpening b = true) (s : List UInt8) :
    t.lengthAt? (b :: s) = none := by
  have hne : b ≠ greater ∧ b ≠ slash ∧ b ≠ squareClose ∧ b ≠ braceClose := by
    refine ⟨?_, ?_, ?_, ?_⟩ <;> rintro rfl <;> exact absurd hb (by decide)
  rcases t with br | _ | _
  · cases br <;> simp [Terminator.lengthAt?, Bracket.closeByte, hne]
  · simp [Terminator.lengthAt?, hne]
  · simp [Terminator.lengthAt?, hne]

/-- A mark is a terminator outside of brackets, or an operator of one byte. -/
theorem readMark?_agrees (hs : l.cursor.ahead = b :: s) (hclosed : l.closed = false)
    (hb : charWidth b = 1)
    (hread : (if l.depth == 0 then
        match l.terminator.lengthAt? (b :: s) with
        | some length => some (Item.close, length)
        | none => some (.operator, 1)
      else some (.operator, 1)) = some (item, k)) :
    Agrees (l.depth + 1) (l.readMark? b) (.ok (item, l.behind item k)) := by
  have hchar : l.cursor.advanceChar = l.cursor.advance 1 := by
    simp only [Cursor.advanceChar, Cursor.current?_of_ahead hs, hb]
  have hlength : l.terminator.lengthAtCursor? l.cursor = l.terminator.lengthAt? (b :: s) := by
    rw [Terminator.lengthAtCursor?_eq, hs]
  unfold readMark?
  by_cases hopening : isOpening b = true
  · have hitem : some (Item.operator, 1) = some (item, k) := by
      rw [lengthAt?_of_isOpening _ hopening] at hread
      split at hread <;> exact hread
    obtain ⟨rfl, rfl⟩ := Prod.mk.inj (Option.some.inj hitem)
    -- the one place where there may be too many brackets to count
    rw [if_pos hopening, deepen]
    split
    · refine .of_eq ?_
      simp [behind, depthAfter, hs, hopening, hclosed]
    · next hdepth => exact .tooLarge (Nat.lt_succ_of_le (Nat.le_of_not_lt hdepth))
  rw [if_neg hopening]
  refine .of_eq ?_
  by_cases hclosing : (isClosing b && decide (0 < l.depth)) = true
  · obtain ⟨hb, hpos⟩ := Bool.and_eq_true_iff.mp hclosing
    have hpos := of_decide_eq_true hpos
    rw [if_neg (by simp only [beq_iff_eq]; omega)] at hread
    obtain ⟨rfl, rfl⟩ := Prod.mk.inj (Option.some.inj hread)
    rw [if_pos hclosing, Offset.sub_eq_ok hpos]
    simp [behind, depthAfter, hs, hopening, hb, hclosed]
  rw [if_neg hclosing, hlength, hchar]
  -- a closing bracket outside of brackets counts for nothing
  have hkept : depthAfter l.depth .operator l.cursor.ahead = l.depth := by
    simp only [depthAfter, hs, hopening, Bool.false_eq_true, if_false]
    split
    · next hb =>
      simp only [hb, Bool.true_and, decide_eq_true_eq] at hclosing
      omega
    · rfl
  have operator : (Except.ok (Item.operator, { l with cursor := l.cursor.advance 1 }) :
      Except Offset.Fault (Item × Lexer)) = .ok (.operator, l.behind .operator 1) := by
    simp [behind, hkept, hclosed]
  by_cases hzero : (l.depth == 0) = true
  · rw [if_pos hzero] at hread ⊢
    cases hterminator : l.terminator.lengthAt? (b :: s) with
    | some length =>
        rw [hterminator] at hread
        obtain ⟨rfl, rfl⟩ := Prod.mk.inj (Option.some.inj hread)
        rfl
    | none =>
        rw [hterminator] at hread
        obtain ⟨rfl, rfl⟩ := Prod.mk.inj (Option.some.inj hread)
        exact operator
  · rw [if_neg hzero] at hread ⊢
    obtain ⟨rfl, rfl⟩ := Prod.mk.inj (Option.some.inj hread)
    exact operator

/-- The item that stands at a lexer is read, unless it is one bracket too many. -/
theorem read?_agrees (hs : l.cursor.ahead = b :: s) (hclosed : l.closed = false)
    (hread : itemAt? l.terminator l.depth (b :: s) = some (item, k)) :
    Agrees (l.depth + 1) (l.read? b) (.ok (item, l.behind item k)) := by
  have hw : l.cursor.Within := Cursor.within_of_current? (Cursor.current?_of_ahead hs)
  have hstep (n : Nat) : (l.cursor.advance n).Within := Cursor.within_advance _ _
  -- a word leaves the brackets as they are
  have word {word : Item} {c : Cursor} {n : Nat} (hword : word ≠ .operator ∧ word ≠ .close)
      (hitem : some (word, n) = some (item, k)) (hc : c = l.cursor.advance n) :
      Agrees (l.depth + 1) (.ok (word, { l with cursor := c })) (.ok (item, l.behind item k)) := by
    obtain ⟨rfl, rfl⟩ := Prod.mk.inj (Option.some.inj hitem)
    have hkept : depthAfter l.depth word l.cursor.ahead = l.depth := by
      unfold depthAfter
      split
      · exact absurd rfl hword.1
      · rfl
    have hopen : (word == Item.close) = l.closed := by
      rw [hclosed, beq_eq_false_iff_ne]
      exact hword.2
    rw [behind, hkept, hopen, hc]
    exact .refl _ _
  simp only [read?, readWord?, opensComment, Cursor.opensComment_eq, hs,
    Cursor.peek?_one_of_ahead hs]
  simp only [itemAt?] at hread
  split at hread
  · exact absurd hread (by simp)
  by_cases hblank : isBlank b = true
  · rw [if_pos hblank] at hread ⊢
    exact word (by decide) hread (by rw [hw.stepWhile_eq_advance, hs])
  rw [if_neg hblank] at hread ⊢
  by_cases hquote : isQuote b = true
  · rw [if_pos hquote] at hread ⊢
    exact word (by decide) hread (readLiteral_eq false hs)
  rw [if_neg hquote] at hread ⊢
  by_cases hraw : (b == letterR && s.head?.any isQuote) = true
  · rw [if_pos hraw] at hread ⊢
    obtain ⟨-, hq⟩ := Bool.and_eq_true_iff.mp hraw
    cases s with
    | nil => simp at hq
    | cons q s =>
        refine word (by decide) hread ?_
        rw [readLiteral_eq true (b := q) (s := s) (by rw [Cursor.ahead_advance, hs]; rfl),
          Cursor.advance_advance, ← Nat.add_assoc]
        rfl
  rw [if_neg hraw] at hread ⊢
  by_cases hcomment : l.terminator.comments.opensComment (b :: s) = true
  · rw [if_pos hcomment] at hread ⊢
    refine word (by decide) hread ?_
    rw [(hstep 4).stepThrough_eq, Cursor.ahead_advance, Cursor.advance_advance, hs, commentLength]
  rw [if_neg hcomment] at hread ⊢
  by_cases hname : isNameStart b = true
  · rw [if_pos hname] at hread ⊢
    exact word (by decide) hread (by rw [hw.stepWhile_eq_advance, hs])
  rw [if_neg hname] at hread ⊢
  by_cases hdigit : isDigit b = true
  · rw [if_pos hdigit] at hread ⊢
    exact word (by decide) hread (by rw [readNumber_eq hw, hs])
  rw [if_neg hdigit] at hread ⊢
  by_cases hbuiltIn : (b == question && s.head?.any isNameStart) = true
  · rw [if_pos hbuiltIn] at hread ⊢
    refine word (by decide) hread ?_
    rw [(hstep 1).stepWhile_eq_advance, Cursor.ahead_advance, Cursor.advance_advance, hs,
      List.drop_one, List.tail_cons]
  rw [if_neg hbuiltIn] at hread ⊢
  have hmark : isMark b = true := by simp [isMark, hblank, hquote, hname, hdigit]
  exact readMark?_agrees hs hclosed (ascii_not_continuation b (lt_of_isMark b hmark)).2 hread

/-! ## The items of a lexer -/

theorem next?_of_closed (h : l.closed = true) : l.next? = .ok none := by
  rw [next?, if_pos h]

/-- Where no item stands a lexer stops, and has nothing to give. -/
theorem next?_of_none (h : itemAt? l.terminator l.depth l.cursor.ahead = none) :
    l.next? = .ok none := by
  unfold next?
  split
  · rfl
  split
  · rfl
  next b hb =>
  obtain ⟨s, hs⟩ := Cursor.exists_ahead hb
  obtain hnil | ⟨hpos, hcomment, htag⟩ := itemAt?_eq_none_iff.mp h
  · exact absurd hnil (by simp [hs])
  · rw [if_pos (by simp [hpos, opensComment, opensTag, Cursor.opensComment_eq, Cursor.opensTag_eq,
      hcomment, htag])]

/-- The item that stands at a lexer is the next that it gives. -/
theorem next?_agrees (hclosed : l.closed = false)
    (h : Reads l.terminator l.depth l.cursor.ahead item k) :
    Agrees (l.depth + 1) l.next?
      (.ok (some (⟨item, l.cursor.position, k⟩, l.behind item k))) := by
  have hitem := itemAt?_of_reads h
  have hbounds := h.bounds
  cases hs : l.cursor.ahead with
  | nil => rw [hs] at hbounds; exact absurd hbounds.2 (by simp; omega)
  | cons b s =>
      rw [hs] at hitem
      have hb := Cursor.current?_of_ahead hs
      have hw := Cursor.within_of_current? hb
      have hstop : ¬(decide (0 < l.depth) && !l.opensComment && l.opensTag) = true := by
        intro hstop
        have hnone : itemAt? l.terminator l.depth (b :: s) = none := by
          rw [itemAt?_eq_none_iff, ← hs, ← Cursor.opensComment_eq, ← Cursor.opensTag_eq]
          simpa [opensComment, opensTag, and_assoc] using Or.inr hstop
        exact absurd (hnone.symm.trans hitem) (by simp)
      have hlength : Offset.sub (l.cursor.advance k).position l.cursor.position = .ok k :=
        hw.sub_position_advance (by rw [← Cursor.length_ahead]; exact hbounds.2)
      simp only [next?, hclosed, Bool.false_eq_true, if_false, hb, if_neg hstop]
      refine ((read?_agrees hs hclosed hitem).bind fun _ _ => .refl _ _).trans (.of_eq ?_)
      simp only [ok_bind, behind, hlength]

theorem depthAfter_le (depth : Nat) (item : Item) (s : List UInt8) :
    depthAfter depth item s ≤ depth + 1 := by
  unfold depthAfter
  repeat' split
  all_goals omega

section Fold

variable {σ : Type} {f : σ → Span Item → Except Offset.Fault σ} {acc : σ}

theorem fold?_of_error {e : Offset.Fault} (h : l.next? = .error e) :
    l.fold? f acc = .error e := by
  rw [fold?]
  split <;> simp_all

theorem fold?_of_none (h : l.next? = .ok none) : l.fold? f acc = .ok (acc, l) := by
  rw [fold?]
  split <;> simp_all

theorem fold?_of_some {x : Span Item} (h : l.next? = .ok (some (x, l'))) :
    l.fold? f acc = f acc x >>= fun acc => l'.fold? f acc := by
  rw [fold?]
  split
  · simp_all
  · simp_all
  next x' l'' h' =>
  obtain ⟨rfl, rfl⟩ := Prod.mk.inj (Option.some.inj (Except.ok.inj (h'.symm.trans h)))
  cases f acc x' <;> rfl

end Fold

/-- The lexemes in front of a lexer. -/
def lexemes (l : Lexer) : List Lexeme := lexFrom l.terminator l.depth l.cursor.ahead

/-- The lexemes in front of a lexer as items at their places. -/
def items (l : Lexer) : List (Span Item) :=
  Span.place l.cursor.position (l.lexemes.map fun x => ⟨x.item, x.text.length⟩)

/-- The items of a lexer are the first one and those of the lexer behind it. -/
theorem items_of_reads (hw : l.cursor.Within)
    (h : Reads l.terminator l.depth l.cursor.ahead item k) :
    l.items = ⟨item, l.cursor.position, k⟩ ::
        (if item = .close then [] else (l.behind item k).items) ∧
      reach l.lexemes = if item = .close then ⟨k, true⟩ else
        ⟨k + (reach (l.behind item k).lexemes).length,
          (reach (l.behind item k).lexemes).closed⟩ := by
  have hle := h.bounds.2
  have hlex := lexFrom_of_reads h
  have htake : (l.cursor.ahead.take k).length = k := by
    rw [List.length_take, Nat.min_eq_left hle]
  rw [Cursor.length_ahead] at hle
  have hbehind : (l.behind item k).lexemes =
      lexFrom l.terminator (depthAfter l.depth item l.cursor.ahead) (l.cursor.ahead.drop k) := by
    rw [lexemes, behind, Cursor.ahead_advance]
  have hplace : (l.behind item k).cursor.position = l.cursor.position + k :=
    hw.position_advance hle
  simp only [items, hbehind, hplace]
  simp only [lexemes, hlex, List.map_cons, htake, Span.place_cons]
  by_cases hclose : item = .close
  · simp [hclose, reach, htake]
  · simp only [if_neg hclose, true_and]
    rw [Extent.mk.injEq]
    exact ⟨by rw [reach_cons, htake], reach_closed_cons hclose⟩

/-! ## Brackets against bytes -/

/-- The second lexer is what calls of the first one leave. -/
def Reaches : Lexer → Lexer → Prop :=
  Relation.ReflTransGen fun l l' => ∃ x, l.next? = .ok (some (x, l'))

/-- **The open brackets are paid for by the bytes passed**: whatever calls open more than they
close, they pass at least as many bytes. -/
theorem Reaches.depth_le (h : l.Reaches l') :
    l.cursor.LeadsTo l'.cursor ∧ l'.depth + l'.cursor.left ≤ l.depth + l.cursor.left := by
  induction h with
  | refl => exact ⟨.refl _, Nat.le_refl _⟩
  | tail _ hstep ih =>
      obtain ⟨x, hnext⟩ := hstep
      have hmoves := (moves_of_next? hnext).1
      have hlt := hmoves.passes.left_lt
      have hdepth := hmoves.depth
      exact ⟨ih.1.trans hmoves.passes.toLeadsTo, by omega⟩

/-! ## All items -/

/-- **A lexer gives out the lexemes ahead**, each at its place, and stops behind the last, unless it
meets more brackets than it can count. -/
theorem fold?_agrees (hw : l.cursor.Within) (hclosed : l.closed = false) :
    ∃ l' : Lexer, l'.cursor = l.cursor.advance (reach l.lexemes).length ∧
      l'.closed = (reach l.lexemes).closed ∧
      ∀ {σ : Type} (f : σ → Span Item → Except Offset.Fault σ) (acc : σ),
        Agrees (l.depth + l.cursor.left) (l.fold? f acc)
          ((l.items.foldlM f acc).map (·, l')) := by
  induction hleft : l.cursor.left using Nat.strongRecOn generalizing l with
  | _ n ih =>
      cases hitem : itemAt? l.terminator l.depth l.cursor.ahead with
      | none =>
          have hnil : l.lexemes = [] := lexFrom_of_none hitem
          refine ⟨l, ?_, ?_, fun f acc => .of_eq ?_⟩
          · rw [hnil, reach_nil, hw.advance_zero]
          · rw [hnil, reach_nil, hclosed]
          · rw [fold?_of_none (next?_of_none hitem), items, hnil]
            rfl
      | some found =>
          obtain ⟨item, k⟩ := found
          have hreads := reads_of_itemAt? hitem
          obtain ⟨hpos, hle⟩ := hreads.bounds
          rw [Cursor.length_ahead] at hle
          obtain ⟨hitems, hreach⟩ := items_of_reads hw hreads
          -- it is enough to go on from the lexer behind the item
          have go_on {l' : Lexer} {rest : List (Span Item)}
              (hlist : l.items = ⟨item, l.cursor.position, k⟩ :: rest)
              (hrest : ∀ {σ : Type} (f : σ → Span Item → Except Offset.Fault σ) (acc : σ),
                Agrees (l.depth + n) ((l.behind item k).fold? f acc)
                  ((rest.foldlM f acc).map (·, l')))
              {σ : Type} (f : σ → Span Item → Except Offset.Fault σ) (acc : σ) :
              Agrees (l.depth + n) (l.fold? f acc) ((l.items.foldlM f acc).map (·, l')) := by
            obtain hnext | ⟨hnext, hlt⟩ := next?_agrees hclosed hreads
            · rw [fold?_of_some hnext, hlist, List.foldlM_cons]
              cases f acc ⟨item, l.cursor.position, k⟩ with
              | error e => exact .refl _ _
              | ok acc' => exact hrest f acc'
            · rw [fold?_of_error hnext]
              exact .tooLarge (by omega)
          by_cases hclose : item = .close
          · rw [if_pos hclose] at hitems hreach
            have hend : (l.behind item k).closed = true := by simp [behind, hclose]
            refine ⟨l.behind item k, by rw [hreach]; rfl, by rw [hreach, hend],
              go_on hitems fun f acc => .of_eq ?_⟩
            exact fold?_of_none (next?_of_closed hend)
          · rw [if_neg hclose] at hitems hreach
            have hopen : (l.behind item k).closed = false := by simp [behind, hclose]
            have hleft' : (l.behind item k).cursor.left = l.cursor.left - k :=
              Cursor.left_advance _ _
            have hdepth' : (l.behind item k).depth ≤ l.depth + 1 := depthAfter_le _ _ _
            obtain ⟨l', hcursor, hclosed', hfold⟩ := ih _ (by omega) (l := l.behind item k)
              (Cursor.within_advance _ _) hopen rfl
            refine ⟨l', ?_, by rw [hclosed', hreach],
              go_on hitems fun f acc => (hfold f acc).mono (by omega)⟩
            rw [hcursor, hreach]
            exact Cursor.advance_advance _ _ _

end Lexer

namespace Cursor

variable {c : Cursor}

/-- **An expression is passed up to its extent**, unless it has more brackets than can be
counted. -/
theorem skipExpression?_agrees (hw : c.Within) (t : Terminator) :
    Lexer.Agrees c.left (c.skipExpression? t)
      (.ok ((extent t c.ahead).closed, c.advance (extent t c.ahead).length)) := by
  obtain ⟨l', hcursor, hclosed, hfold⟩ := Lexer.fold?_agrees
    (l := { cursor := c, terminator := t }) hw rfl
  have hitems (xs : List (Span Item)) :
      xs.foldlM (fun _ _ => (.ok () : Except Offset.Fault Unit)) () = .ok () := by
    induction xs with
    | nil => rfl
    | cons x xs ih => exact ih
  have hskip := (hfold (fun _ _ => .ok ()) ()).map
    fun passed => (passed.2.closed, c.moveTo passed.2.cursor.position)
  rw [hitems, map_ok, map_ok] at hskip
  simp only [hclosed, hcursor, Nat.zero_add, (leadsTo_advance c _).moveTo_eq hw] at hskip
  exact hskip

end Cursor

end TemplateColoring

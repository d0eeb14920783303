import TemplateColoring.Proofs.Expression.Lexer
import TemplateColoring.Template

/-!
# More brackets than can be counted

Brackets are counted in 32 bits, and a document may open more than that. `unclosed n` is the
shortest document in which an interpolation has `n` brackets open: for `n = 2 ^ 32` a lexer that
goes through it fails (`Lexer.fold?_of_brackets`), and with it whatever looks for the end of the
interpolation.
-/

set_option autoImplicit false

namespace TemplateColoring

open Ascii Bytes Expression Template

/-- An interpolation in which `n` brackets are opened and none is closed. -/
def unclosed (n : Nat) : String := String.ofList ('$' :: '{' :: List.replicate n '(')

theorem toList_unclosed (n : Nat) :
    (ofString (unclosed n)).bytes.toList =
      Ascii.dollar :: braceOpen :: List.replicate n parenOpen := by
  have hbrackets : (List.replicate n '(').flatMap String.utf8EncodeChar =
      List.replicate n parenOpen := by
    induction n with
    | zero => rfl
    | succ n ih =>
        rw [List.replicate_succ, List.flatMap_cons, ih, List.replicate_succ]
        rfl
  rw [ofString, unclosed, toList_toUTF8_ofList, List.flatMap_cons, List.flatMap_cons, hbrackets]
  rfl

theorem length_unclosed (n : Nat) : (ofString (unclosed n)).length = n + 2 := by
  rw [length, ← Array.length_toList, toList_unclosed, List.length_cons, List.length_cons,
    List.length_replicate]

/-- The brackets are what is ahead behind the opener. -/
theorem ahead_unclosed (n : Nat) :
    (Cursor.ofOffset (ofString (unclosed n)).bytes 2).ahead = List.replicate n parenOpen := by
  have hopener : 2 ≤ (ofString (unclosed n)).length := by
    rw [length_unclosed]
    exact Nat.le_add_left 2 n
  have hposition : (Cursor.ofOffset (ofString (unclosed n)).bytes 2).position = 2 :=
    Nat.min_eq_left hopener
  rw [Cursor.ahead_eq_drop, hposition]
  show (ofString (unclosed n)).bytes.toList.drop 2 = _
  rw [toList_unclosed]
  rfl

theorem isBoundary_unclosed (n : Nat) : isBoundary (ofString (unclosed n)).bytes 2 = true := by
  have hbyte : (ofString (unclosed n)).bytes[2]? = (List.replicate n parenOpen)[0]? := by
    rw [← Array.getElem?_toList, toList_unclosed]
    rfl
  rw [isBoundary, hbyte]
  cases n with
  | zero => exact beq_iff_eq.mpr (length_unclosed 0).symm
  | succ n => rfl

namespace Lexer

variable {l : Lexer} {s : List UInt8} {n : Nat}

theorem next?_of_bracket (hs : l.cursor.ahead = parenOpen :: s) (hclosed : l.closed = false) :
    l.next? = (deepen l.depth).map fun depth => some (⟨.operator, l.cursor.position, 1⟩,
      { l with depth, cursor := l.cursor.advance 1 }) := by
  have hcur := Cursor.current?_of_ahead hs
  have hw := Cursor.within_of_current? hcur
  have hlength := hw.sub_position_advance (Cursor.left_pos hcur)
  have hopens : l.opensComment = false ∧ l.opensTag = false := by
    rw [opensComment, opensTag, Cursor.opensComment_eq, Cursor.opensTag_eq, hs]
    exact not_opens_of_ne (by cases l.terminator.comments <;> decide) s
  have hword : l.readWord? parenOpen = none := by
    simp only [readWord?, hopens.1]
    rfl
  have hread : l.read? parenOpen = (deepen l.depth).map fun depth =>
      (.operator, { l with depth, cursor := l.cursor.advance 1 }) := by
    rw [read?, hword]
    rfl
  simp only [next?, hclosed, hcur, hopens, hread, Bool.false_eq_true, Bool.and_false, if_false]
  cases deepen l.depth with
  | error e => rfl
  | ok depth => simp only [map_ok, ok_bind, hlength]

/-- **A lexer fails at too many brackets**, whatever is made of the items before. -/
theorem fold?_of_brackets {σ : Type} {f : σ → Span Item → Except Offset.Fault σ} {acc : σ}
    (hf : ∀ acc x, ∃ acc', f acc x = .ok acc') (hs : l.cursor.ahead = List.replicate n parenOpen)
    (hclosed : l.closed = false) (hdepth : l.depth ≤ maxDepth) (hn : maxDepth < l.depth + n) :
    l.fold? f acc = .error .tooLarge := by
  -- on the brackets that are left, of which each takes the depth one nearer to the largest
  induction n generalizing l acc with
  | zero => exact absurd hdepth (Nat.not_le_of_lt hn)
  | succ n ih =>
      rw [List.replicate_succ] at hs
      have hnext := next?_of_bracket hs hclosed
      by_cases hlt : l.depth < maxDepth
      · rw [deepen, if_pos hlt, map_ok] at hnext
        obtain ⟨acc', hacc⟩ := hf acc ⟨.operator, l.cursor.position, 1⟩
        rw [fold?_of_some hnext, hacc, ok_bind]
        have hrest : (l.cursor.advance 1).ahead = List.replicate n parenOpen := by
          rw [Cursor.ahead_advance, hs, List.drop_one, List.tail_cons]
        exact ih hrest hclosed hlt (show maxDepth < l.depth + 1 + n by omega)
      · rw [deepen, if_neg hlt, map_error] at hnext
        exact fold?_of_error hnext

end Lexer

/-- The end of an interpolation is not found behind too many brackets. -/
theorem skipExpression?_unclosed {n : Nat} (hn : Lexer.maxDepth < n) (t : Terminator) :
    (Cursor.ofOffset (ofString (unclosed n)).bytes 2).skipExpression? t = .error .tooLarge := by
  have hfold : Lexer.fold? (fun _ _ => .ok ()) ()
      { cursor := .ofOffset (ofString (unclosed n)).bytes 2, terminator := t } =
      .error .tooLarge :=
    Lexer.fold?_of_brackets (fun _ _ => ⟨(), rfl⟩) (ahead_unclosed n) rfl (Nat.zero_le _)
      (by simpa using hn)
  rw [Cursor.skipExpression?, hfold, map_error]

end TemplateColoring

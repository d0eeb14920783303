import TemplateColoring.Proofs.Region.Characters
import TemplateColoring.Proofs.Expression.Lexeme
import TemplateColoring.Proofs.Token.Basic
import TemplateColoring.Token.Region

/-!
# Every text is colored whole

Every way of coloring gives runs that cover the whole text, be it the text of a region of that kind
or any other (`Coloring.total_runs`). So the tokens of a text tile it, from wherever it starts.
-/

set_option autoImplicit false

namespace TemplateColoring

open Ascii Bytes TemplateColoring.Span

namespace Token

/-! ## Expressions -/

theorem openerOf_le (shape : ExpressionRegion) (s : List UInt8) :
    (openerOf shape s).1 ≤ s.length := by
  cases shape <;> exact Nat.min_le_right _ _

theorem total_expressionRuns (shape : ExpressionRegion) (s : List UInt8) :
    Run.total (expressionRuns shape s) = s.length := by
  have hopener := openerOf_le shape s
  have hreach := Expression.extent_le (openerOf shape s).2 (s.drop (openerOf shape s).1)
  rw [List.length_drop] at hreach
  have hlexemes : totalOf Run.length ((Expression.lex (openerOf shape s).2
      (s.drop (openerOf shape s).1)).map fun x => ⟨lexemeKind shape.delimiter x, x.text.length⟩) =
      (Expression.extent (openerOf shape s).2 (s.drop (openerOf shape s).1)).length :=
    totalOf_map Run.length _ _
  simp only [expressionRuns, Run.total, List.cons_append, totalOf_cons, totalOf_append, totalOf_nil,
    hlexemes]
  rw [Expression.extent] at hreach ⊢
  omega

/-! ## Host markup tags -/

theorem total_reverse_cons (kind : TokenKind) (n : Nat) (acc : List (Run TokenKind)) :
    Run.total ((⟨kind, n⟩ :: acc).reverse) = Run.total acc + n := by
  rw [Run.total, totalOf_reverse, totalOf_cons, Nat.add_comm, Run.total]

theorem total_singleton (kind : TokenKind) (n : Nat) : Run.total [⟨kind, n⟩] = n := by
  simp [Run.total]

theorem total_append (front runs : List (Run TokenKind)) :
    Run.total (front ++ runs) = Run.total front + Run.total runs :=
  totalOf_append _ front runs

/-- In a quoted value, `k` bytes of `s` are counted among the runs before they are passed; the runs
count no more than that and the bytes behind. -/
theorem total_quotedFrom (style : InterpolationStyle) (quote : UInt8) (acc : List (Run TokenKind))
    (n k : Nat) (s : List UInt8) (hk : k ≤ s.length) :
    Run.total acc + n ≤ Run.total (quotedFrom style quote acc n k s) ∧
      Run.total (quotedFrom style quote acc n k s) ≤ Run.total acc + n + (s.length - k) := by
  induction s generalizing acc n k with
  | nil =>
      cases k <;> simp only [quotedFrom, total_reverse_cons] <;> omega
  | cons b s ih =>
      rw [List.length_cons] at hk ⊢
      cases k with
      | succ k =>
          have hrest := ih acc n k (by omega)
          rw [quotedFrom]
          omega
      | zero =>
          rw [quotedFrom]
          split
          · rw [total_reverse_cons]
            omega
          split
          · next length hlength =>
            have hbounds := Expression.interpolationLength?_bounds hlength
            rw [List.length_cons] at hbounds
            have hrest := ih (⟨.interpolation, length⟩ :: ⟨.string, n⟩ :: acc) 0 (length - 1)
              (by omega)
            simp only [Run.total, totalOf_cons] at hrest ⊢
            omega
          · have hbounds := charLength_bounds (List.cons_ne_nil b s)
            rw [List.length_cons] at hbounds
            have hrest := ih acc (n + charLength (b :: s)) (charLength (b :: s) - 1) (by omega)
            dsimp only
            omega

/-- The runs at the front of a host tag's inside have bytes, and no more than there are. -/
theorem total_markupRunsAt (style : InterpolationStyle) (b : UInt8) (s : List UInt8) :
    0 < Run.total (markupRunsAt style b s) ∧
      Run.total (markupRunsAt style b s) ≤ (b :: s).length := by
  unfold markupRunsAt
  split
  · next hb =>
    rw [total_singleton]
    exact ⟨runLength_pos hb, runLength_le_length _ _⟩
  split
  · have hquoted := total_quotedFrom style b [] 1 0 s (Nat.zero_le _)
    rw [Run.total, totalOf_nil] at hquoted
    rw [quotedRuns, List.length_cons]
    omega
  split
  · simp [total_singleton]
  split
  · next hb =>
    have hs : s ≠ [] := by
      rintro rfl
      simp at hb
    have hpos := List.length_pos_iff.mpr hs
    rw [total_singleton, List.length_cons]
    omega
  split
  · next length hlength =>
    have hbounds := Expression.interpolationLength?_bounds hlength
    rw [total_singleton]
    omega
  split
  · next hb =>
    rw [total_singleton]
    exact ⟨runLength_pos (by simp [isMarkupNameContinue, hb]), runLength_le_length _ _⟩
  · rw [total_singleton]
    exact charLength_bounds (List.cons_ne_nil b s)

theorem total_flatten (pieces : List (List (Run TokenKind))) :
    Run.total pieces.flatten = totalOf Run.total pieces := by
  induction pieces with
  | nil => rfl
  | cons runs pieces ih =>
      rw [List.flatten_cons, totalOf_cons, ← ih, Run.total, totalOf_append]
      rfl

/-- The pieces cut from the inside of a host tag cover it. -/
theorem total_cutMarkup (style : InterpolationStyle) (s : List UInt8) :
    totalOf Run.total (cut (cutMarkup style) () s) = s.length := by
  induction h : s.length using Nat.strongRecOn generalizing s with
  | _ n ih =>
      subst h
      cases s with
      | nil => rfl
      | cons b s =>
          have hbounds := total_markupRunsAt style b s
          rw [List.length_cons] at hbounds
          have hrest := ih (s.length - (Run.total (markupRunsAt style b s) - 1))
            (by rw [List.length_cons]; omega) (s.drop (Run.total (markupRunsAt style b s) - 1))
            List.length_drop
          simp only [cut_cons, cutMarkup, totalOf_cons, hrest, List.length_cons]
          omega

theorem markupOpenerLength_le (s : List UInt8) : markupOpenerLength s ≤ s.length := by
  cases s with
  | nil => exact Nat.le_refl 0
  | cons b s =>
      simp only [markupOpenerLength]
      split
      · have hsigil : (if s.head?.any (fun c => c == slash || c == question || c == exclamation)
            then 1 else 0) ≤ s.length := by
          cases s with
          | nil => simp
          | cons c s => split <;> simp
        have hname := runLength_le_length isMarkupNameContinue
          (s.drop (if s.head?.any (fun c => c == slash || c == question || c == exclamation)
            then 1 else 0))
        rw [List.length_drop] at hname
        rw [List.length_cons]
        omega
      · exact Nat.zero_le _

theorem total_markupRuns (style : InterpolationStyle) (s : List UInt8) :
    Run.total (markupRuns style s) = s.length := by
  have hopener := markupOpenerLength_le s
  have hbehind := (total_flatten _).trans (total_cutMarkup style (s.drop (markupOpenerLength s)))
  rw [List.length_drop] at hbehind
  simp only [markupRuns]
  split
  · omega
  · rw [Run.total] at hbehind ⊢
    rw [totalOf_cons, hbehind]
    show markupOpenerLength s + _ = _
    omega

end Token

/-! ## All regions -/

namespace Coloring

/-- **The runs of a text cover it**, however it is colored. -/
theorem total_runs (c : Coloring) (s : List UInt8) : Run.total (c.runs s) = s.length := by
  cases c with
  | uniform kind => simp [runs, Run.total]
  | expression shape => exact Token.total_expressionRuns shape s
  | markup style => exact Token.total_markupRuns style s

theorem tiles_tokens (c : Coloring) (start : Nat) (s : List UInt8) :
    Tiles start (c.tokens start s) (start + s.length) := by
  have htiles := Token.tiles_ofRuns start (c.runs s)
  rw [total_runs] at htiles
  exact htiles

/-- The tokens of a text that is moved are those of the text, moved. -/
theorem map_tokens (c : Coloring) (base start : Nat) (s : List UInt8) :
    (c.tokens start s).map (fun p => { p with start := p.start + base }) =
      c.tokens (start + base) s :=
  Token.map_ofRuns base start (c.runs s)

end Coloring

namespace Template

/-- The tokens of a region are those of its text `y`, wherever that stands. -/
theorem color_of_parts {d : Dialect} {s : String} {r : Region} {x y z : List UInt8}
    (hr : r ∈ (ofString s).regions d) (hbytes : (ofString s).bytes.toList = x ++ (y ++ z))
    (hstart : r.start = x.length) (hlength : r.length = y.length) :
    (ofString s).color d r = (Coloring.ofRegion d r.kind).tokens r.start y := by
  have hslice := slice?_of_mem hr
  rw [hbytes, hstart, List.drop_left, hlength, List.take_left] at hslice
  rw [color, hstart, hslice]

end Template

end TemplateColoring

import Mathlib.Data.List.Chain
import TemplateColoring.Proofs.Token.Paint

/-!
# Neighbouring tokens

Merging leaves no two neighbours that could be one: of two tokens next to each other only one, if
any, is of a kind that has no inner structure, or they are of two such kinds (`Apart`). So every
text, whatever it is colored as, gets tokens that tile it and are as long as they can be
(`Coloring.paint?_tiles`).
-/

set_option autoImplicit false

namespace TemplateColoring

open TemplateColoring.Span

namespace Token

/-- Neighbours of these kinds are displayed as two tokens. -/
def Apart (k l : TokenKind) : Prop := ¬(k = l ∧ k.isMergeable = true)

theorem apart_iff {k l : TokenKind} :
    Apart k l ↔ ¬(k = .other ∧ l = .other) ∧ ¬(k = .text ∧ l = .text) := by
  unfold Apart
  constructor
  · intro h
    constructor
    · rintro ⟨rfl, rfl⟩
      exact h ⟨rfl, rfl⟩
    · rintro ⟨rfl, rfl⟩
      exact h ⟨rfl, rfl⟩
  · rintro ⟨hother, htext⟩ ⟨rfl, hmergeable⟩
    cases k <;> simp_all [TokenKind.isMergeable]

/-- A run that is put in front of merged runs leaves all neighbours apart. -/
theorem isChain_mergeRun (r : Run TokenKind) {merged : List (Run TokenKind)}
    (h : (merged.map Run.kind).IsChain Apart) :
    ((mergeRun r merged).map Run.kind).IsChain Apart := by
  by_cases hr : r.length = 0
  · simpa only [mergeRun, hr, if_true] using h
  · cases merged with
    | nil =>
        simp only [mergeRun, hr, if_false]
        exact List.isChain_singleton _
    | cons q rest =>
        simp only [mergeRun, hr, if_false]
        split
        · next hsame =>
          -- the run that grows keeps its kind, and with it its place in the chain
          have hkind : q.kind = r.kind := of_decide_eq_true (Bool.and_eq_true_iff.mp hsame).1
          rw [List.map_cons, hkind] at h
          exact h
        · next hother =>
          rw [List.map_cons, List.map_cons, List.isChain_cons_cons]
          refine ⟨?_, h⟩
          rintro ⟨hkind, hmergeable⟩
          exact hother (Bool.and_eq_true_iff.mpr ⟨decide_eq_true hkind.symm, hmergeable⟩)

theorem isChain_merge (runs : List (Run TokenKind)) :
    ((merge runs).map Run.kind).IsChain Apart := by
  induction runs with
  | nil => exact List.isChain_nil
  | cons r runs ih => exact isChain_mergeRun r ih

theorem map_kind_place {κ : Type} (start : Nat) (runs : List (Run κ)) :
    (place start runs).map Span.kind = runs.map Run.kind := by
  induction runs generalizing start with
  | nil => rfl
  | cons r runs ih => rw [place_cons, List.map_cons, List.map_cons, ih]

/-- **Neighbouring tokens are apart.** -/
theorem isChain_ofRuns (start : Nat) (runs : List (Run TokenKind)) :
    (ofRuns start runs).IsChain fun p q => Apart p.kind q.kind := by
  rw [← List.isChain_map, ofRuns, map_kind_place]
  exact isChain_merge runs

end Token

namespace Coloring

/-- The tokens of a text lie end to end, and neighbours are apart. -/
structure Tiling (start : Nat) (s : List UInt8) (tokens : List Token) : Prop where
  tiles : Tiles start tokens (start + s.length)
  empty : tokens = [] ↔ s = []
  neighbours : tokens.IsChain fun p q =>
    ¬(p.kind = .other ∧ q.kind = .other) ∧ ¬(p.kind = .text ∧ q.kind = .text)

theorem tiling_tokens (c : Coloring) (start : Nat) (s : List UInt8) :
    Tiling start s (c.tokens start s) where
  tiles := c.tiles_tokens start s
  empty := by
    have htiles := c.tiles_tokens start s
    constructor
    · intro hnil
      rw [hnil] at htiles
      have hempty : start = start + s.length := htiles
      exact List.eq_nil_of_length_eq_zero (by omega)
    · rintro rfl
      cases htokens : c.tokens start [] with
      | nil => rfl
      | cons p ps =>
          rw [htokens] at htiles
          have := htiles.bounds List.mem_cons_self
          rw [List.length_nil] at this
          omega
  neighbours :=
    (Token.isChain_ofRuns start (c.runs s)).imp fun _ _ hapart => Token.apart_iff.mp hapart

/-- **Every text is tiled by its tokens, whatever it is colored as.** If the text ends at an offset,
whatever painting it gives are tokens that have bytes and lie end to end from where the text starts
to where it ends, and no two neighbours are both of the kind of operators and blanks or both host
text. A text of fewer than `2 ^ 32` bytes is painted. -/
theorem paint?_tiles (c : Coloring) (start : Nat) (s : List UInt8)
    (h : start + s.length ≤ Offset.max) :
    (∀ tokens, c.paint? start s = .ok tokens → Tiling start s tokens) ∧
      (s.length < 0x100000000 → ∃ tokens, c.paint? start s = .ok tokens) := by
  have hpaint := c.paint?_agrees h
  refine ⟨fun tokens htokens => ?_, fun hsize => ?_⟩
  · obtain rfl := hpaint.eq_of_ok htokens
    exact c.tiling_tokens start s
  · exact ⟨_, hpaint.eq_of_lt hsize⟩

/-- The opener of what is taken for an interpolation may end inside of a character, and text may
follow the terminator; the last token ends at the last offset. -/
theorem paint?_tiles_torn :
    Offset.max - 5 + [0x61, 0xC3, 0xA9, 0x7D, 0x62].length ≤ Offset.max ∧
      ∃ tokens, (expression .interpolation).paint? (Offset.max - 5)
          [0x61, 0xC3, 0xA9, 0x7D, 0x62] = .ok tokens ∧
        Tiling (Offset.max - 5) [0x61, 0xC3, 0xA9, 0x7D, 0x62] tokens := by
  have hfits : Offset.max - 5 + [0x61, 0xC3, 0xA9, 0x7D, 0x62].length ≤ Offset.max := by decide
  obtain ⟨htiles, hpainted⟩ := paint?_tiles (expression .interpolation) (Offset.max - 5)
    [0x61, 0xC3, 0xA9, 0x7D, 0x62] hfits
  obtain ⟨tokens, htokens⟩ := hpainted (by decide)
  exact ⟨hfits, tokens, htokens, htiles tokens htokens⟩

/-- An interpolation with `2 ^ 32` open brackets is not painted. -/
theorem paint?_tiles_unclosed :
    0 + (Template.ofString (unclosed 0x100000000)).bytes.toList.length ≤ Offset.max ∧
      ∀ tokens, (expression .interpolation).paint? 0
        (Template.ofString (unclosed 0x100000000)).bytes.toList ≠ .ok tokens := by
  have hfits : 0 + (Template.ofString (unclosed 0x100000000)).bytes.toList.length ≤ Offset.max := by
    have hlength := length_unclosed 0x100000000
    rw [Template.length, ← Array.length_toList] at hlength
    rw [hlength]
    decide
  refine ⟨hfits, fun tokens h => ?_⟩
  rw [paint?_unclosed (by decide) hfits] at h
  exact absurd h (by simp)

end Coloring

end TemplateColoring

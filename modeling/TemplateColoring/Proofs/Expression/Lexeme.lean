import TemplateColoring.Proofs.Expression.Item

/-!
# The lexemes of an expression

`lexFrom` gives the lexemes inside a number of open brackets, and `lex_induction` is the induction
over them. The texts of the lexemes, put together, are the front of the text that the expression
takes. The terminator stands at the end of the list or nowhere, and it stands there just if the
expression is closed.
-/

set_option autoImplicit false

namespace TemplateColoring.Expression

open Ascii Bytes

/-! ## The recursion over lexemes -/

/-- The lexemes of a text inside `depth` open brackets. -/
def lexFrom (t : Terminator) (depth : Nat) (s : List UInt8) : List Lexeme :=
  cut (cutLexeme t) depth s

theorem lex_eq_lexFrom (t : Terminator) (s : List UInt8) : lex t s = lexFrom t 0 s := rfl

theorem lexFrom_of_none {t : Terminator} {depth : Nat} {s : List UInt8}
    (h : itemAt? t depth s = none) : lexFrom t depth s = [] := by
  cases s with
  | nil => rfl
  | cons b s => rw [lexFrom, cut_cons, cutLexeme, h]; rfl

theorem lexFrom_of_reads {t : Terminator} {depth : Nat} {s : List UInt8} {item : Item} {k : Nat}
    (h : Reads t depth s item k) :
    lexFrom t depth s = ⟨item, s.take k⟩ ::
      if item = .close then [] else lexFrom t (depthAfter depth item s) (s.drop k) := by
  obtain ⟨hpos, hle⟩ := h.bounds
  obtain ⟨k, rfl⟩ : ∃ j, k = j + 1 := ⟨k - 1, by omega⟩
  cases s with
  | nil => simp at hle
  | cons b s =>
      rw [lexFrom, cut_cons, cutLexeme, itemAt?_of_reads h]
      by_cases hclose : item = .close
      · simp [hclose]
      · simp [hclose, lexFrom]

/-- Induction over the lexemes of a text. -/
theorem lex_induction {t : Terminator} {motive : Nat → List UInt8 → Prop}
    (stop : ∀ depth s, itemAt? t depth s = none → motive depth s)
    (close : ∀ depth s k, Reads t depth s .close k → motive depth s)
    (item : ∀ depth s item k, Reads t depth s item k → item ≠ .close →
      motive (depthAfter depth item s) (s.drop k) → motive depth s)
    (depth : Nat) (s : List UInt8) : motive depth s := by
  induction h : s.length using Nat.strongRecOn generalizing depth s with
  | _ n ih =>
      cases hs : itemAt? t depth s with
      | none => exact stop depth s hs
      | some found =>
          obtain ⟨found, k⟩ := found
          have hreads := reads_of_itemAt? hs
          by_cases hclose : found = .close
          · exact close depth s k (hclose ▸ hreads)
          · have hbounds := hreads.bounds
            refine item depth s found k hreads hclose (ih _ ?_ _ _ rfl)
            rw [List.length_drop]
            omega

@[simp] theorem reach_nil : reach [] = ⟨0, false⟩ := rfl

theorem reach_cons (x : Lexeme) (xs : List Lexeme) :
    (reach (x :: xs)).length = x.text.length + (reach xs).length := by
  simp [reach]

theorem reach_closed_cons {x : Lexeme} {xs : List Lexeme} (hx : x.item ≠ .close) :
    (reach (x :: xs)).closed = (reach xs).closed := by
  cases xs with
  | nil => simp [reach, hx]
  | cons y ys => simp [reach, List.getLast?_cons_cons]

theorem reach_lexFrom_le (t : Terminator) (depth : Nat) (s : List UInt8) :
    (reach (lexFrom t depth s)).length ≤ s.length := by
  induction depth, s using lex_induction (t := t) with
  | stop depth s hnone =>
      rw [lexFrom_of_none hnone]
      exact Nat.zero_le _
  | close depth s k hreads =>
      rw [lexFrom_of_reads hreads, if_pos rfl, reach_cons, List.length_take]
      exact Nat.min_le_right _ _
  | item depth s item k hreads hclose ih =>
      have hk := hreads.bounds
      rw [lexFrom_of_reads hreads, if_neg hclose, reach_cons, List.length_take]
      rw [List.length_drop] at ih
      omega

theorem extent_le (t : Terminator) (s : List UInt8) : (extent t s).length ≤ s.length :=
  reach_lexFrom_le t 0 s

/-- Outside of brackets nothing stops the lexing, so a text that is not empty has a lexeme. -/
theorem extent_pos (t : Terminator) {s : List UInt8} (hs : s ≠ []) : 0 < (extent t s).length := by
  have hsome : itemAt? t 0 s ≠ none := by
    rw [Ne, itemAt?_eq_none_iff]
    rintro (hnil | ⟨hdepth, -⟩)
    · exact hs hnil
    · exact absurd hdepth (Nat.lt_irrefl 0)
  obtain ⟨⟨item, k⟩, hitem⟩ := Option.ne_none_iff_exists'.mp hsome
  have hreads := reads_of_itemAt? hitem
  have hbounds := hreads.bounds
  rw [extent, lex_eq_lexFrom, lexFrom_of_reads hreads, reach_cons, List.length_take]
  omega

/-! ## The list of the lexemes -/

theorem flatten_text (t : Terminator) (depth : Nat) (s : List UInt8) :
    ((lexFrom t depth s).map (·.text)).flatten = s.take (reach (lexFrom t depth s)).length := by
  induction depth, s using lex_induction (t := t) with
  | stop depth s hnone =>
      rw [lexFrom_of_none hnone]
      simp
  | close depth s k hreads =>
      rw [lexFrom_of_reads hreads, if_pos rfl, reach_cons, List.length_take,
        Nat.min_eq_left hreads.bounds.2]
      simp
  | item depth s item k hreads hclose ih =>
      rw [lexFrom_of_reads hreads, if_neg hclose, reach_cons, List.length_take,
        Nat.min_eq_left hreads.bounds.2, List.map_cons, List.flatten_cons, ih, List.take_add]

/-- The terminator of an expression, where it has one, is the last lexeme and no other. -/
theorem exists_closer (t : Terminator) (depth : Nat) (s : List UInt8) :
    ∃ (inner : List Lexeme) (closer? : Option Lexeme),
      lexFrom t depth s = inner ++ closer?.toList ∧ (∀ x ∈ inner, x.item ≠ .close) ∧
        (∀ c ∈ closer?, c.item = .close ∧ c.text ∈ t.spellings) ∧
        (reach (lexFrom t depth s)).closed = closer?.isSome := by
  induction depth, s using lex_induction (t := t) with
  | stop depth s hnone =>
      rw [lexFrom_of_none hnone]
      exact ⟨[], none, rfl, by simp, by simp, rfl⟩
  | close depth s k hreads =>
      rw [lexFrom_of_reads hreads, if_pos rfl]
      refine ⟨[], some ⟨.close, s.take k⟩, rfl, by simp, ?_, rfl⟩
      rintro c ⟨⟩
      cases hreads with
      | close _ hk =>
          obtain ⟨w, hw, r, rfl, rfl⟩ := exists_of_lengthAt? hk
          exact ⟨rfl, by rwa [List.take_left]⟩
  | item depth s item k hreads hclose ih =>
      obtain ⟨inner, closer?, hlex, hinner, hcloser, hclosed⟩ := ih
      rw [lexFrom_of_reads hreads, if_neg hclose, hlex]
      refine ⟨⟨item, s.take k⟩ :: inner, closer?, rfl, ?_, hcloser, ?_⟩
      · rintro x (_ | ⟨_, hx⟩)
        · exact hclose
        · exact hinner x hx
      · rw [reach_closed_cons hclose, ← hlex, hclosed]

/-- The text of a closed expression ends with the last byte of its terminator. -/
theorem exists_isCloser_of_closed {t : Terminator} {depth : Nat} {x r : List UInt8}
    (h : (reach (lexFrom t depth (x ++ r))).length = x.length)
    (hclosed : (reach (lexFrom t depth (x ++ r))).closed = true) :
    ∃ u c, x = u ++ [c] ∧ isCloser c = true := by
  obtain ⟨inner, closer?, hlex, -, hcloser, hsome⟩ := exists_closer t depth (x ++ r)
  rw [hclosed] at hsome
  obtain ⟨close, rfl⟩ := Option.isSome_iff_exists.mp hsome.symm
  obtain ⟨v, c, hv, hc⟩ := exists_isCloser_of_mem_spellings (hcloser close rfl).2
  refine ⟨(inner.map (·.text)).flatten ++ v, c, ?_, hc⟩
  have htexts := flatten_text t depth (x ++ r)
  rw [h, List.take_left, hlex] at htexts
  rw [← htexts, List.append_assoc, ← hv]
  simp

/-- An expression without a terminator reaches to the end of the text or up to a tag. -/
theorem drop_reach_of_not_closed {t : Terminator} {depth : Nat} {s : List UInt8}
    (h : (reach (lexFrom t depth s)).closed = false) :
    s.drop (reach (lexFrom t depth s)).length = [] ∨
      t.comments.opensComment (s.drop (reach (lexFrom t depth s)).length) = false ∧
        t.comments.opensTag (s.drop (reach (lexFrom t depth s)).length) = true := by
  induction depth, s using lex_induction (t := t) with
  | stop depth s hnone =>
      rw [lexFrom_of_none hnone, reach_nil, List.drop_zero]
      exact (itemAt?_eq_none_iff.mp hnone).imp_right And.right
  | close depth s k hreads =>
      rw [lexFrom_of_reads hreads, if_pos rfl] at h
      exact absurd h (by simp [reach])
  | item depth s item k hreads hclose ih =>
      rw [lexFrom_of_reads hreads, if_neg hclose] at h ⊢
      rw [reach_closed_cons hclose] at h
      rw [reach_cons, List.length_take, Nat.min_eq_left hreads.bounds.2, ← List.drop_drop]
      exact ih h

/-! ## Interpolations -/

/-- An interpolation opens with a sign and a brace, or with a bracket and an equals sign. -/
theorem exists_of_opens {style : InterpolationStyle} {s : List UInt8} (h : style.opens s = true) :
    ∃ a b z, s = a :: b :: z ∧ (a = Ascii.dollar ∨ a = hash ∨ a = squareOpen) ∧
      (b = braceOpen ∨ b = equals) := by
  obtain ⟨opener, ho, hp⟩ := List.any_eq_true.mp h
  obtain ⟨z, rfl⟩ := List.isPrefixOf_iff_prefix.mp hp
  cases style <;>
    simp only [InterpolationStyle.openers, List.mem_cons, List.not_mem_nil, or_false] at ho
  · rcases ho with rfl | rfl
    · exact ⟨Ascii.dollar, braceOpen, z, rfl, by simp, by simp⟩
    · exact ⟨hash, braceOpen, z, rfl, by simp, by simp⟩
  · subst ho
    exact ⟨Ascii.dollar, braceOpen, z, rfl, by simp, by simp⟩
  · subst ho
    exact ⟨squareOpen, equals, z, rfl, by simp, by simp⟩

theorem interpolationLength?_eq_none_iff {style : InterpolationStyle} {s : List UInt8} :
    interpolationLength? style s = none ↔ style.opens s = false := by
  simp [interpolationLength?]

theorem interpolationLength?_bounds {style : InterpolationStyle} {s : List UInt8} {k : Nat}
    (h : interpolationLength? style s = some k) : 2 ≤ k ∧ k ≤ s.length := by
  unfold interpolationLength? at h
  split at h
  · next hopens =>
    obtain rfl := Option.some.inj h
    have hlen : 2 ≤ s.length := by
      obtain ⟨a, b, z, rfl, -⟩ := exists_of_opens hopens
      simp
    have hle := extent_le (.ofInterpolation style.bracket) (s.drop 2)
    rw [List.length_drop] at hle
    omega
  · exact absurd h (by simp)

end TemplateColoring.Expression

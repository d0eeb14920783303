import TemplateColoring.Expression.Lexeme
import TemplateColoring.Proofs.Bytes.Classes
import TemplateColoring.Proofs.Bytes.Lookahead

/-!
# The items of an expression

`Reads t depth s item k` says which item stands at the front of a text and how many bytes it takes,
one rule for each kind of item. It is the same as what `itemAt?` computes (`itemAt?_eq_some_iff`),
and the facts about items are proved by cases on it.
-/

set_option autoImplicit false

namespace TemplateColoring.Expression

open Ascii Bytes

/-! ## Comments and tags in front of a text -/

/-- A comment opens with its bracket and is four bytes long at least. -/
theorem head?_of_opensComment {b : Bracket} {s : List UInt8} (h : b.opensComment s = true) :
    s.head? = some b.openByte ∧ 4 ≤ s.length := by
  obtain ⟨z, rfl⟩ := List.isPrefixOf_iff_prefix.mp h
  exact ⟨rfl, by simp⟩

/-- The four ways in which a tag opens behind its bracket. -/
theorem opensTag_iff {b : Bracket} {s : List UInt8} :
    b.opensTag s = true ↔ ∃ sigil ∈ [[hash], [commercialAt], [slash, hash], [slash, commercialAt]],
      (b.openByte :: sigil).isPrefixOf s = true := by
  rw [Bracket.opensTag, List.any_eq_true]

theorem head?_of_opensTag {b : Bracket} {s : List UInt8} (h : b.opensTag s = true) :
    s.head? = some b.openByte := by
  obtain ⟨sigil, -, hp⟩ := opensTag_iff.mp h
  obtain ⟨z, rfl⟩ := List.isPrefixOf_iff_prefix.mp hp
  rfl

theorem not_opens_of_ne {br : Bracket} {b : UInt8} (hb : b ≠ br.openByte) (s : List UInt8) :
    br.opensComment (b :: s) = false ∧ br.opensTag (b :: s) = false := by
  refine ⟨Bool.eq_false_iff.mpr fun h => ?_, Bool.eq_false_iff.mpr fun h => ?_⟩
  · exact hb (Option.some.inj (head?_of_opensComment h).1)
  · exact hb (Option.some.inj (head?_of_opensTag h))

/-- With a byte of a class that leaves out the two opening brackets opens neither a comment nor a
tag. -/
theorem not_opens_of_class {p : UInt8 → Bool} (hless : p less = false)
    (hsquare : p squareOpen = false) {b : UInt8} (hb : p b = true) (br : Bracket) (s : List UInt8) :
    br.opensComment (b :: s) = false ∧ br.opensTag (b :: s) = false := by
  apply not_opens_of_ne
  rintro rfl
  cases br
  · exact absurd hb (by simp [Bracket.openByte, hless])
  · exact absurd hb (by simp [Bracket.openByte, hsquare])

/-! ## Terminators -/

/-- The ways to write a terminator. -/
def Terminator.spellings : Terminator → List (List UInt8)
  | tag b => [[b.closeByte], [slash, b.closeByte]]
  | brace => [[braceClose]]
  | bracket => [[squareClose]]

theorem spellings_length_pos {t : Terminator} {w : List UInt8} (h : w ∈ t.spellings) :
    0 < w.length := by
  refine List.length_pos_iff.mpr ?_
  rintro rfl
  cases t <;> simp [Terminator.spellings] at h

/-- A terminator ends with a byte that ends a tag or an interpolation. -/
theorem exists_isCloser_of_mem_spellings {t : Terminator} {w : List UInt8} (h : w ∈ t.spellings) :
    ∃ v c, w = v ++ [c] ∧ isCloser c = true := by
  cases t with
  | tag b =>
      have hb : isCloser b.closeByte = true := by cases b <;> decide
      simp only [Terminator.spellings, List.mem_cons, List.not_mem_nil, or_false] at h
      rcases h with rfl | rfl
      · exact ⟨[], b.closeByte, rfl, hb⟩
      · exact ⟨[slash], b.closeByte, rfl, hb⟩
  | brace =>
      obtain rfl := List.mem_singleton.mp h
      exact ⟨[], braceClose, rfl, by decide⟩
  | bracket =>
      obtain rfl := List.mem_singleton.mp h
      exact ⟨[], squareClose, rfl, by decide⟩

/-- What counts as a terminator is written like one. -/
theorem exists_of_lengthAt? {t : Terminator} {s : List UInt8} {k : Nat}
    (h : t.lengthAt? s = some k) : ∃ w ∈ t.spellings, ∃ r, s = w ++ r ∧ k = w.length := by
  cases s with
  | nil => exact absurd h (by simp [Terminator.lengthAt?])
  | cons b s =>
      cases t with
      | tag br =>
          simp only [Terminator.lengthAt?] at h
          split at h
          · next hb =>
            obtain rfl := Option.some.inj h
            obtain rfl := beq_iff_eq.mp hb
            exact ⟨[br.closeByte], by simp [Terminator.spellings], s, rfl, rfl⟩
          split at h
          · next hb =>
            obtain rfl := Option.some.inj h
            obtain ⟨hslash, hclose⟩ := Bool.and_eq_true_iff.mp hb
            obtain rfl := beq_iff_eq.mp hslash
            obtain ⟨r, rfl⟩ := List.head?_eq_some_iff.mp (beq_iff_eq.mp hclose)
            exact ⟨[slash, br.closeByte], by simp [Terminator.spellings], r, rfl, rfl⟩
          · exact absurd h (by simp)
      | brace | bracket =>
          simp only [Terminator.lengthAt?] at h
          split at h
          · next hb =>
            obtain rfl := Option.some.inj h
            obtain rfl := beq_iff_eq.mp hb
            exact ⟨_, List.mem_singleton.mpr rfl, s, rfl, rfl⟩
          · exact absurd h (by simp)

/-! ## The items -/

/-- A byte that no blank, string, identifier or number starts with. -/
def isMark (b : UInt8) : Bool := !isBlank b && !isQuote b && !isNameStart b && !isDigit b

/-- The item at the front of a text, and its length, where `depth` brackets are open. -/
inductive Reads (t : Terminator) (depth : Nat) : List UInt8 → Item → Nat → Prop
  | blank {b : UInt8} {s : List UInt8} : isBlank b = true →
      Reads t depth (b :: s) .blank (runLength isBlank (b :: s))
  | string {b : UInt8} {s : List UInt8} : isQuote b = true →
      Reads t depth (b :: s) .string (1 + stringBodyLength false b s)
  | rawString {q : UInt8} {s : List UInt8} : isQuote q = true →
      Reads t depth (letterR :: q :: s) .string (2 + stringBodyLength true q s)
  | comment {s : List UInt8} : t.comments.opensComment s = true →
      Reads t depth s .comment (commentLength t.comments s)
  /-- A name, unless it is the `r` in front of a raw string. -/
  | identifier {b : UInt8} {s : List UInt8} : isNameStart b = true →
      (b == letterR && s.head?.any isQuote) = false →
      Reads t depth (b :: s) .identifier (runLength isNameContinue (b :: s))
  | number {b : UInt8} {s : List UInt8} : isDigit b = true →
      Reads t depth (b :: s) .number (numberLength (b :: s))
  | builtIn {s : List UInt8} : s.head?.any isNameStart = true →
      Reads t depth (question :: s) .builtIn (1 + runLength isNameContinue s)
  | close {s : List UInt8} {k : Nat} : depth = 0 → t.lengthAt? s = some k →
      Reads t depth s .close k
  /-- Whatever else: not a comment, not a tag behind open brackets, not a built-in and not the
  terminator outside of brackets. -/
  | operator {b : UInt8} {s : List UInt8} : isMark b = true →
      t.comments.opensComment (b :: s) = false →
      (0 < depth → t.comments.opensTag (b :: s) = false) →
      (b == question && s.head?.any isNameStart) = false →
      (depth = 0 → t.lengthAt? (b :: s) = none) →
      Reads t depth (b :: s) .operator 1

theorem reads_close_iff {t : Terminator} {depth : Nat} {s : List UInt8} {k : Nat} :
    Reads t depth s .close k ↔ depth = 0 ∧ t.lengthAt? s = some k := by
  constructor
  · intro h
    cases h with
    | close hdepth hclose => exact ⟨hdepth, hclose⟩
  · rintro ⟨hdepth, hclose⟩
    exact .close hdepth hclose

theorem reads_of_itemAt? {t : Terminator} {depth : Nat} {s : List UInt8} {item : Item} {k : Nat}
    (h : itemAt? t depth s = some (item, k)) : Reads t depth s item k := by
  cases s with
  | nil => exact absurd h (by simp [itemAt?])
  | cons b s =>
      -- the tests in their order: every rule also needs that those before it fail
      unfold itemAt? at h
      simp only [] at h
      split at h
      · exact absurd h (by simp)
      next hstop =>
      split at h
      · next hb =>
        obtain ⟨rfl, rfl⟩ := Prod.mk.inj (Option.some.inj h)
        exact .blank hb
      next hblank =>
      split at h
      · next hb =>
        obtain ⟨rfl, rfl⟩ := Prod.mk.inj (Option.some.inj h)
        exact .string hb
      next hquote =>
      split at h
      · next hraw =>
        obtain ⟨rfl, rfl⟩ := Prod.mk.inj (Option.some.inj h)
        rw [Bool.and_eq_true, beq_iff_eq] at hraw
        obtain ⟨rfl, hq⟩ := hraw
        cases s with
        | nil => simp at hq
        | cons q s => exact .rawString (by simpa using hq)
      next hraw =>
      split at h
      · next hcomment =>
        obtain ⟨rfl, rfl⟩ := Prod.mk.inj (Option.some.inj h)
        exact .comment hcomment
      next hcomment =>
      split at h
      · next hb =>
        obtain ⟨rfl, rfl⟩ := Prod.mk.inj (Option.some.inj h)
        exact .identifier hb (Bool.eq_false_iff.mpr hraw)
      next hname =>
      split at h
      · next hb =>
        obtain ⟨rfl, rfl⟩ := Prod.mk.inj (Option.some.inj h)
        exact .number hb
      next hdigit =>
      split at h
      · next hb =>
        obtain ⟨rfl, rfl⟩ := Prod.mk.inj (Option.some.inj h)
        rw [Bool.and_eq_true, beq_iff_eq] at hb
        obtain ⟨rfl, hb⟩ := hb
        exact .builtIn hb
      next hbuiltIn =>
      have hmark : isMark b = true := by simp [isMark, hblank, hquote, hname, hdigit]
      have hopen : 0 < depth → t.comments.opensTag (b :: s) = false := by
        intro hdepth
        simpa [hdepth, hcomment] using hstop
      split at h
      · next hdepth =>
        rw [beq_iff_eq] at hdepth
        split at h
        · next hclose =>
          obtain ⟨rfl, rfl⟩ := Prod.mk.inj (Option.some.inj h)
          exact .close hdepth hclose
        · next hclose =>
          obtain ⟨rfl, rfl⟩ := Prod.mk.inj (Option.some.inj h)
          exact .operator hmark (Bool.eq_false_iff.mpr hcomment) hopen
            (Bool.eq_false_iff.mpr hbuiltIn) (fun _ => hclose)
      · next hdepth =>
        obtain ⟨rfl, rfl⟩ := Prod.mk.inj (Option.some.inj h)
        exact .operator hmark (Bool.eq_false_iff.mpr hcomment) hopen
          (Bool.eq_false_iff.mpr hbuiltIn) (fun h0 => absurd (beq_iff_eq.mpr h0) hdepth)

/-! ### The classes of bytes -/

theorem ne_letterR_of_not_nameStart {b : UInt8} (h : isNameStart b = false) : ¬b = letterR := by
  rintro rfl
  exact absurd h (by decide)

theorem lt_of_isMark : ∀ b : UInt8, isMark b = true → b < 0x80 := forall_byte (by decide +kernel)

theorem isMark_iff {b : UInt8} : isMark b = true ↔
    isBlank b = false ∧ isQuote b = false ∧ isNameStart b = false ∧ isDigit b = false := by
  simp [isMark, and_assoc]

/-- A terminator starts with a mark, and is neither a comment nor a built-in. -/
theorem isMark_of_lengthAt? {t : Terminator} {b : UInt8} {s : List UInt8} {k : Nat}
    (h : t.lengthAt? (b :: s) = some k) :
    isMark b = true ∧ b ≠ question ∧ b ≠ t.comments.openByte := by
  obtain ⟨w, hw, r, hs, -⟩ := exists_of_lengthAt? h
  have hb : b = greater ∨ b = slash ∨ b = squareClose ∨ b = braceClose := by
    rcases t with br | _ | _
    · cases br <;> simp only [Terminator.spellings, Bracket.closeByte, List.mem_cons,
        List.not_mem_nil, or_false] at hw <;> rcases hw with rfl | rfl <;>
        simp [(List.cons.inj hs).1]
    · obtain rfl := List.mem_singleton.mp hw
      simp [(List.cons.inj hs).1]
    · obtain rfl := List.mem_singleton.mp hw
      simp [(List.cons.inj hs).1]
  rcases hb with rfl | rfl | rfl | rfl <;> cases t.comments <;> decide

theorem itemAt?_of_reads {t : Terminator} {depth : Nat} {s : List UInt8} {item : Item} {k : Nat}
    (h : Reads t depth s item k) : itemAt? t depth s = some (item, k) := by
  cases h with
  | @blank b s hb =>
      obtain ⟨hc, ht⟩ := not_opens_of_class (by decide) (by decide) hb t.comments s
      simp [itemAt?, hc, ht, hb]
  | @string b s hb =>
      obtain ⟨hc, ht⟩ := not_opens_of_class (by decide) (by decide) hb t.comments s
      simp [itemAt?, hc, ht, hb, (disjoint_classes b).1 hb]
  | @rawString q s hq =>
      obtain ⟨hc, ht⟩ := not_opens_of_class (p := isAlpha) (by decide) (by decide)
        (show isAlpha letterR = true by decide) t.comments (q :: s)
      simp [itemAt?, hc, ht, hq, show isBlank letterR = false by decide,
        show isQuote letterR = false by decide]
  | @comment s hc =>
      cases s with
      | nil => exact absurd hc (by simp [Bracket.opensComment])
      | cons b s =>
          have hb : b = t.comments.openByte := Option.some.inj (head?_of_opensComment hc).1
          have hblank : isBlank b = false := by rw [hb]; cases t.comments <;> rfl
          have hquote : isQuote b = false := by rw [hb]; cases t.comments <;> rfl
          have hraw : (b == letterR) = false := by rw [hb]; cases t.comments <;> rfl
          simp [itemAt?, hc, hblank, hquote, hraw]
  | @identifier b s hb hraw =>
      obtain ⟨hc, ht⟩ := not_opens_of_class (by decide) (by decide) hb t.comments s
      obtain ⟨hblank, hquote⟩ := (disjoint_classes b).2.1 hb
      simp only [itemAt?, hc, ht, hblank, hquote, hraw, hb, Bool.and_false, if_true,
        Bool.false_eq_true, if_false]
  | @number b s hb =>
      obtain ⟨hc, ht⟩ := not_opens_of_class (by decide) (by decide) hb t.comments s
      obtain ⟨hblank, hquote, hname⟩ := (disjoint_classes b).2.2 hb
      simp [itemAt?, hc, ht, hblank, hquote, hname, ne_letterR_of_not_nameStart hname, hb]
  | @builtIn s hb =>
      obtain ⟨hc, ht⟩ := not_opens_of_class (p := (· == question)) (by decide) (by decide)
        (show (question == question) = true by decide) t.comments s
      simp [itemAt?, hc, ht, hb, show isBlank question = false by decide,
        show isNameStart question = false by decide, show isDigit question = false by decide,
        show isQuote question = false by decide, show ¬question = letterR by decide]
  | @close s k hdepth hclose =>
      cases s with
      | nil => exact absurd hclose (by simp [Terminator.lengthAt?])
      | cons b s =>
          obtain ⟨hmark, hquestion, hopen⟩ := isMark_of_lengthAt? hclose
          obtain ⟨hblank, hquote, hname, hdigit⟩ := isMark_iff.mp hmark
          obtain ⟨hc, -⟩ := not_opens_of_ne hopen s
          simp [itemAt?, hdepth, hc, hblank, hquote, hname, hdigit,
            ne_letterR_of_not_nameStart hname, hquestion, hclose]
  | @operator b s hmark hc ht hbuiltIn hclose =>
      obtain ⟨hblank, hquote, hname, hdigit⟩ := isMark_iff.mp hmark
      have hraw := ne_letterR_of_not_nameStart hname
      by_cases hdepth : depth = 0
      · simp [itemAt?, hdepth, hc, hblank, hquote, hname, hdigit, hraw, hbuiltIn, hclose hdepth]
      · simp [itemAt?, hdepth, hc, ht (Nat.pos_of_ne_zero hdepth), hblank, hquote, hname, hdigit,
          hraw, hbuiltIn]

/-- The rules are what `itemAt?` computes. -/
theorem itemAt?_eq_some_iff {t : Terminator} {depth : Nat} {s : List UInt8} {item : Item}
    {k : Nat} : itemAt? t depth s = some (item, k) ↔ Reads t depth s item k :=
  ⟨reads_of_itemAt?, itemAt?_of_reads⟩

/-- No item stands at the end of a text and, with open brackets, in front of a tag. -/
theorem itemAt?_eq_none_iff {t : Terminator} {depth : Nat} {s : List UInt8} :
    itemAt? t depth s = none ↔ s = [] ∨
      0 < depth ∧ t.comments.opensComment s = false ∧ t.comments.opensTag s = true := by
  cases s with
  | nil => simp [itemAt?]
  | cons b s =>
      by_cases hstop : (decide (0 < depth) && !t.comments.opensComment (b :: s) &&
          t.comments.opensTag (b :: s)) = true
      · rw [itemAt?, if_pos hstop]
        simpa [and_assoc] using hstop
      · rw [itemAt?, if_neg hstop]
        constructor
        · intro h
          repeat' split at h
          all_goals exact absurd h (by simp)
        · rintro (hnil | ⟨hdepth, hcomment, htag⟩)
          · exact absurd hnil (by simp)
          · exact absurd (by simp [hdepth, hcomment, htag]) hstop

/-! ## The lengths of items -/

theorem lengthAt?_bounds {t : Terminator} {s : List UInt8} {k : Nat}
    (h : t.lengthAt? s = some k) : 0 < k ∧ k ≤ s.length := by
  obtain ⟨w, hw, r, rfl, rfl⟩ := exists_of_lengthAt? h
  exact ⟨spellings_length_pos hw, by simp⟩

theorem bounded_stringStep (raw : Bool) (quote : UInt8) : Bounded (stringStep raw quote) := by
  intro s k hs hk
  cases s with
  | nil => exact absurd rfl hs
  | cons b s =>
      simp only [stringStep] at hk
      split at hk
      · exact absurd hk (by simp)
      · split at hk
        · obtain rfl := Option.some.inj hk
          have := charLength_le_length s
          rw [List.length_cons]
          omega
        · obtain rfl := Option.some.inj hk
          exact charLength_bounds hs

theorem stringStep_eq_none_iff {raw : Bool} {quote b : UInt8} {s : List UInt8} :
    stringStep raw quote (b :: s) = none ↔ b = quote := by
  simp only [stringStep]
  by_cases hb : b = quote
  · simp [hb]
  · rw [if_neg (by simpa using hb)]
    split <;> simp [hb]

/-- The inside of a string literal and its closing quote. -/
theorem stringBodyLength_eq (raw : Bool) (quote : UInt8) (s : List UInt8) :
    stringBodyLength raw quote s = (walkThrough (stringStep raw quote) quote s).length := by
  have hstop := step_drop_walk (bounded_stringStep raw quote) s
  simp only [stringBodyLength, walkThrough]
  cases hrest : s.drop (walk (stringStep raw quote) s) with
  | nil => simp
  | cons b rest =>
      rw [hrest] at hstop
      have hb : b = quote := stringStep_eq_none_iff.mp (hstop.resolve_left (by simp))
      simp [hb]

theorem stringBodyLength_le (raw : Bool) (quote : UInt8) (s : List UInt8) :
    stringBodyLength raw quote s ≤ s.length := by
  rw [stringBodyLength_eq]
  exact walkThrough_le _ _ s

theorem fractionLength_le (s : List UInt8) : fractionLength s ≤ s.length := by
  match s with
  | [] => exact Nat.le_refl _
  | [_] => exact Nat.zero_le _
  | point :: b :: s =>
      have := runLength_le_length isDigit (b :: s)
      simp only [fractionLength]
      split <;> simp only [List.length_cons] at this ⊢ <;> omega

theorem numberLength_le (s : List UInt8) : numberLength s ≤ s.length := by
  have hrun := runLength_le_length isDigit s
  have hfrac := fractionLength_le (s.drop (runLength isDigit s))
  rw [List.length_drop] at hfrac
  simp only [numberLength]
  omega

theorem commentLength_le {b : Bracket} {s : List UInt8} (hs : 4 ≤ s.length) :
    commentLength b s ≤ s.length := by
  have := through_le_length b.commentClose (s.drop 4)
  rw [List.length_drop] at this
  rw [commentLength]
  omega

/-- An item takes at least one byte and no more than there are. -/
theorem Reads.bounds {t : Terminator} {depth : Nat} {s : List UInt8} {item : Item} {k : Nat}
    (h : Reads t depth s item k) : 0 < k ∧ k ≤ s.length := by
  cases h with
  | blank hb => exact ⟨runLength_pos hb, runLength_le_length _ _⟩
  | @string b s hb =>
      have := stringBodyLength_le false b s
      rw [List.length_cons]
      omega
  | @rawString q s hq =>
      have := stringBodyLength_le true q s
      rw [List.length_cons, List.length_cons]
      omega
  | comment hc =>
      refine ⟨?_, commentLength_le (head?_of_opensComment hc).2⟩
      rw [commentLength]
      omega
  | identifier hb hraw =>
      exact ⟨runLength_pos (by simp [isNameContinue, hb]), runLength_le_length _ _⟩
  | number hb =>
      exact ⟨Nat.lt_of_lt_of_le (runLength_pos hb) (Nat.le_add_right _ _), numberLength_le _⟩
  | @builtIn s hb =>
      have := runLength_le_length isNameContinue s
      rw [List.length_cons]
      omega
  | close hdepth hclose => exact lengthAt?_bounds hclose
  | operator => simp

end TemplateColoring.Expression

import TemplateColoring.Proofs.Expression.Grammar
import TemplateColoring.Proofs.Expression.Unclosed

/-!
# Where an expression ends

A text is one list of items, whatever ends an expression in it (`Lexed`). Between the items some
brackets are open, and the expression ends at the first place between items where no bracket is open
and the terminator stands, or where a bracket is open and a tag of the template language opens. If
there is no such place, it goes to the end of the text (`Ends`). A cursor that passes the expression
comes to this place (`skipExpression?_ends`), as long as the open brackets can be counted.
-/

set_option autoImplicit false

namespace TemplateColoring.Expression

open Ascii Bytes Template

/-! ## Items and the places between them -/

/-- The lexemes are the items of the text, one after the other. -/
inductive Lexed (t : Terminator) : List UInt8 → List Lexeme → Prop
  | nil : Lexed t [] []
  | cons {item : Item} {x r : List UInt8} {xs : List Lexeme} : Lexical t item x r → Lexed t r xs →
      Lexed t (x ++ r) (⟨item, x⟩ :: xs)

/-- The number of open brackets behind a lexeme, of `depth` in front of it. Brackets count where
they are operators, and a closing one counts for nothing if none is open. -/
def openAfter (depth : Nat) (x : Lexeme) : Nat :=
  if x.item = .operator then depth + x.text.countP isOpening - x.text.countP isClosing else depth

/-- The number of open brackets behind lexemes, of `depth` in front of them. -/
def openBehind (depth : Nat) (xs : List Lexeme) : Nat := xs.foldl openAfter depth

/-- The offset behind the first `n` lexemes. -/
def offsetBehind (xs : List Lexeme) (n : Nat) : Nat := totalOf (·.text.length) (xs.take n)

/-- Behind the first `n` lexemes no bracket is open and the terminator stands, spelled as `w`. -/
structure ClosesAt (t : Terminator) (depth : Nat) (s : List UInt8) (xs : List Lexeme) (n : Nat)
    (w : List UInt8) : Prop where
  depth_eq : openBehind depth (xs.take n) = 0
  spelling : w ∈ t.spellings
  ahead : w <+: s.drop (offsetBehind xs n)

/-- Behind the first `n` lexemes a bracket is open and a tag opens, not a comment. -/
structure CutAt (t : Terminator) (depth : Nat) (s : List UInt8) (xs : List Lexeme) (n : Nat) :
    Prop where
  depth_pos : 0 < openBehind depth (xs.take n)
  not_comment : t.comments.opensComment (s.drop (offsetBehind xs n)) = false
  tag : t.comments.opensTag (s.drop (offsetBehind xs n)) = true

/-- The expression goes on behind the first `n` lexemes. -/
def GoesOnAt (t : Terminator) (depth : Nat) (s : List UInt8) (xs : List Lexeme) (n : Nat) : Prop :=
  (∀ w, ¬ClosesAt t depth s xs n w) ∧ ¬CutAt t depth s xs n

/-- How far the expression at the front of a text reaches, by the items of the text. -/
inductive Ends (t : Terminator) (depth : Nat) (s : List UInt8) (xs : List Lexeme) : Extent → Prop
  /-- Up to the end of the terminator, where it stands first. -/
  | terminator {n : Nat} {w : List UInt8} : (∀ m < n, GoesOnAt t depth s xs m) →
      ClosesAt t depth s xs n w → Ends t depth s xs ⟨offsetBehind xs n + w.length, true⟩
  /-- Up to a tag, where it opens first. -/
  | tag {n : Nat} : (∀ m < n, GoesOnAt t depth s xs m) → CutAt t depth s xs n →
      Ends t depth s xs ⟨offsetBehind xs n, false⟩
  /-- Up to the end of the text. -/
  | text : (∀ n, GoesOnAt t depth s xs n) → Ends t depth s xs ⟨s.length, false⟩

variable {t : Terminator} {depth : Nat} {s r : List UInt8} {x : Lexeme} {xs ys : List Lexeme}

/-! ## The items of a text -/

theorem exists_lexed (t : Terminator) (hs : Characters s) : ∃ xs, Lexed t s xs := by
  induction hlength : s.length using Nat.strongRecOn generalizing s with
  | _ n ih =>
      by_cases hne : s = []
      · subst hne
        exact ⟨[], .nil⟩
      · obtain ⟨item, x, r, rfl, hitem⟩ := exists_lexical t hs hne
        have hpos := List.length_pos_iff.mpr hitem.ne_nil
        obtain ⟨xs, hxs⟩ := ih r.length (by rw [← hlength, List.length_append]; omega)
          (hitem.characters hs) rfl
        exact ⟨⟨item, x⟩ :: xs, .cons hitem hxs⟩

/-- A text is one list of items. -/
theorem Lexed.unique (h : Lexed t s xs) (h' : Lexed t s ys) (hs : Characters s) : xs = ys := by
  induction h generalizing ys with
  | nil =>
      generalize hs' : ([] : List UInt8) = s' at h'
      cases h' with
      | nil => rfl
      | cons hitem _ =>
          exact absurd (List.append_eq_nil_iff.mp hs'.symm).1 hitem.ne_nil
  | @cons item x r xs hitem _ ih =>
      generalize hs' : x ++ r = s' at h'
      cases h' with
      | nil => exact absurd (List.append_eq_nil_iff.mp hs').1 hitem.ne_nil
      | cons hitem' hxs' =>
          obtain ⟨rfl, rfl, rfl⟩ := hitem.unique hitem' hs hs'
          rw [ih hxs' (hitem.characters hs)]

/-- Brackets are counted as the lexing counts them. -/
theorem Lexical.depthAfter_eq {item : Item} {x : List UInt8} (h : Lexical t item x r)
    (depth : Nat) : depthAfter depth item (x ++ r) = openAfter depth ⟨item, x⟩ := by
  cases h with
  | @operator b r _ _ _ =>
      have hdisjoint : ∀ b : UInt8, isOpening b = true → isClosing b = false :=
        forall_byte (by decide +kernel)
      by_cases hopening : isOpening b = true
      · simp [depthAfter, openAfter, hopening, hdisjoint b hopening]
      · by_cases hclosing : isClosing b = true <;>
          simp [depthAfter, openAfter, hopening, hclosing]
  | blank _ _ | string _ _ | rawString _ _ | comment _ | identifier _ _ _ _ | integer _ _ _
  | fraction _ _ _ | builtIn _ _ _ => rfl

/-! ## Places between items -/

/-- The terminator stands where one of its spellings does. -/
theorem lengthAt?_eq_some_iff {k : Nat} :
    t.lengthAt? s = some k ↔ ∃ w ∈ t.spellings, w <+: s ∧ k = w.length := by
  constructor
  · intro h
    obtain ⟨w, hw, r, rfl, rfl⟩ := exists_of_lengthAt? h
    exact ⟨w, hw, List.prefix_append w r, rfl⟩
  · rintro ⟨w, hw, ⟨r, rfl⟩, rfl⟩
    cases t with
    | tag b =>
        simp only [Terminator.spellings, List.mem_cons, List.not_mem_nil, or_false] at hw
        cases b <;> rcases hw with rfl | rfl <;> rfl
    | brace | bracket =>
        obtain rfl := List.mem_singleton.mp hw
        rfl

theorem goesOnAt_zero_iff : GoesOnAt t depth s xs 0 ↔
    (0 < depth → t.comments.opensComment s = false → t.comments.opensTag s = false) ∧
      (depth = 0 → t.lengthAt? s = none) := by
  constructor
  · rintro ⟨hcloses, hcut⟩
    refine ⟨fun hdepth hcomment => ?_, fun hdepth => ?_⟩
    · exact Bool.eq_false_iff.mpr fun htag => hcut ⟨hdepth, hcomment, htag⟩
    · refine Option.eq_none_iff_forall_ne_some.mpr fun k hk => ?_
      obtain ⟨w, hw, hprefix, -⟩ := lengthAt?_eq_some_iff.mp hk
      exact hcloses w ⟨hdepth, hw, hprefix⟩
  · rintro ⟨htag, hclose⟩
    refine ⟨fun w hcloses => ?_, fun hcut => ?_⟩
    · have hsome := lengthAt?_eq_some_iff.mpr ⟨w, hcloses.spelling, hcloses.ahead, rfl⟩
      rw [offsetBehind, List.take_zero, totalOf_nil, List.drop_zero,
        hclose hcloses.depth_eq] at hsome
      exact absurd hsome (by simp)
    · have hfalse := htag hcut.depth_pos hcut.not_comment
      exact Bool.false_ne_true (hfalse.symm.trans hcut.tag)

theorem offsetBehind_cons (n : Nat) (x : Lexeme) (xs : List Lexeme) :
    offsetBehind (x :: xs) (n + 1) = x.text.length + offsetBehind xs n := by
  rw [offsetBehind, List.take_succ_cons, totalOf_cons, offsetBehind]

theorem drop_offsetBehind_cons (n : Nat) (x : Lexeme) (xs : List Lexeme) :
    (x.text ++ r).drop (offsetBehind (x :: xs) (n + 1)) = r.drop (offsetBehind xs n) := by
  rw [offsetBehind_cons, List.drop_length_add_append]

/-- Behind its first lexeme a text is judged like the rest of it. -/
theorem closesAt_cons {n : Nat} {w : List UInt8} :
    ClosesAt t depth (x.text ++ r) (x :: xs) (n + 1) w ↔
      ClosesAt t (openAfter depth x) r xs n w := by
  constructor
  · rintro ⟨hdepth, hw, hahead⟩
    exact ⟨hdepth, hw, by rwa [drop_offsetBehind_cons] at hahead⟩
  · rintro ⟨hdepth, hw, hahead⟩
    exact ⟨hdepth, hw, by rwa [drop_offsetBehind_cons]⟩

theorem cutAt_cons {n : Nat} : CutAt t depth (x.text ++ r) (x :: xs) (n + 1) ↔
    CutAt t (openAfter depth x) r xs n := by
  constructor
  · rintro ⟨hdepth, hcomment, htag⟩
    rw [drop_offsetBehind_cons] at hcomment htag
    exact ⟨hdepth, hcomment, htag⟩
  · rintro ⟨hdepth, hcomment, htag⟩
    rw [← drop_offsetBehind_cons n x xs] at hcomment htag
    exact ⟨hdepth, hcomment, htag⟩

theorem goesOnAt_cons {n : Nat} : GoesOnAt t depth (x.text ++ r) (x :: xs) (n + 1) ↔
    GoesOnAt t (openAfter depth x) r xs n := by
  simp only [GoesOnAt, closesAt_cons, cutAt_cons]

/-- An expression that goes on at the start of a text ends where the rest of the text says. -/
theorem Ends.cons {e : Extent} (hzero : GoesOnAt t depth (x.text ++ r) (x :: xs) 0)
    (h : Ends t (openAfter depth x) r xs e) :
    Ends t depth (x.text ++ r) (x :: xs) ⟨x.text.length + e.length, e.closed⟩ := by
  have hbefore : ∀ {n : Nat}, (∀ m < n, GoesOnAt t (openAfter depth x) r xs m) →
      ∀ m < n + 1, GoesOnAt t depth (x.text ++ r) (x :: xs) m := by
    intro n hn m hm
    cases m with
    | zero => exact hzero
    | succ m => exact goesOnAt_cons.mpr (hn m (Nat.lt_of_succ_lt_succ hm))
  cases h with
  | terminator hn hcloses =>
      have hends := Ends.terminator (hbefore hn) (closesAt_cons.mpr hcloses)
      rwa [offsetBehind_cons, Nat.add_assoc] at hends
  | tag hn hcut =>
      have hends := Ends.tag (hbefore hn) (cutAt_cons.mpr hcut)
      rwa [offsetBehind_cons] at hends
  | text hall =>
      have hends : Ends t depth (x.text ++ r) (x :: xs) ⟨(x.text ++ r).length, false⟩ := by
        refine .text fun n => ?_
        cases n with
        | zero => exact hzero
        | succ n => exact goesOnAt_cons.mpr (hall n)
      rwa [List.length_append] at hends

/-- At the end of a text nothing ends an expression. -/
theorem goesOnAt_end {n : Nat} (h : s.drop (offsetBehind xs n) = []) :
    GoesOnAt t depth s xs n := by
  refine ⟨fun w hcloses => ?_, fun hcut => ?_⟩
  · have hahead := hcloses.ahead
    rw [h, List.prefix_nil] at hahead
    exact absurd (spellings_length_pos hcloses.spelling) (by simp [hahead])
  · have htag := head?_of_opensTag hcut.tag
    rw [h] at htag
    exact absurd htag (by simp)

/-! ## The end -/

theorem Lexical.ne_close {item : Item} {x : List UInt8} (h : Lexical t item x r) :
    item ≠ .close := by
  cases h <;> simp

theorem lexFrom_of_lexical {item : Item} {x : List UInt8} (h : Lexical t item x r)
    (hs : Characters (x ++ r)) (hzero : GoesOnAt t depth (x ++ r) xs 0) :
    lexFrom t depth (x ++ r) = ⟨item, x⟩ :: lexFrom t (openAfter depth ⟨item, x⟩) r := by
  obtain ⟨htag, hclose⟩ := goesOnAt_zero_iff.mp hzero
  rw [lexFrom_of_reads (h.reads hs htag hclose), if_neg h.ne_close, List.take_left,
    List.drop_left, h.depthAfter_eq]

theorem reach_cons_eq (hx : x.item ≠ .close) :
    reach (x :: xs) = ⟨x.text.length + (reach xs).length, (reach xs).closed⟩ := by
  rw [← reach_cons, ← reach_closed_cons hx]

/-- Where an expression does not go on at the start of a text, it ends there. -/
theorem ends_of_not_goesOnAt (h : ¬GoesOnAt t depth s xs 0) :
    Ends t depth s xs (reach (lexFrom t depth s)) := by
  have hbefore : ∀ m < 0, GoesOnAt t depth s xs m := fun m hm => absurd hm (Nat.not_lt_zero m)
  by_cases hcut : CutAt t depth s xs 0
  · have hnone : itemAt? t depth s = none :=
      itemAt?_eq_none_iff.mpr (.inr ⟨hcut.depth_pos, hcut.not_comment, hcut.tag⟩)
    rw [lexFrom_of_none hnone]
    exact .tag hbefore hcut
  · obtain ⟨w, hcloses⟩ : ∃ w, ClosesAt t depth s xs 0 w :=
      Classical.byContradiction fun hnone => h ⟨fun w hw => hnone ⟨w, hw⟩, hcut⟩
    have hlength : t.lengthAt? s = some w.length :=
      lengthAt?_eq_some_iff.mpr ⟨w, hcloses.spelling, hcloses.ahead, rfl⟩
    have hreads : Reads t depth s .close w.length := .close hcloses.depth_eq hlength
    have hle := hreads.bounds.2
    have hreach : reach (lexFrom t depth s) = ⟨offsetBehind xs 0 + w.length, true⟩ := by
      rw [lexFrom_of_reads hreads, if_pos rfl]
      simp [reach, offsetBehind, Nat.min_eq_left hle]
    rw [hreach]
    exact .terminator hbefore hcloses

/-- The lexing ends where the items say. -/
theorem ends_lexFrom (h : Lexed t s xs) (hs : Characters s) (depth : Nat) :
    Ends t depth s xs (reach (lexFrom t depth s)) := by
  induction h generalizing depth with
  | nil => exact .text fun n => goesOnAt_end (List.drop_nil)
  | @cons item x r xs hitem _ ih =>
      by_cases hzero : GoesOnAt t depth (x ++ r) (⟨item, x⟩ :: xs) 0
      · rw [lexFrom_of_lexical hitem hs hzero, reach_cons_eq hitem.ne_close]
        exact Ends.cons (x := ⟨item, x⟩) hzero (ih (hitem.characters hs) _)
      · exact ends_of_not_goesOnAt hzero

theorem ClosesAt.not_goesOnAt {n : Nat} {w : List UInt8} (h : ClosesAt t depth s xs n w) :
    ¬GoesOnAt t depth s xs n := fun hgoes => hgoes.1 w h

theorem CutAt.not_goesOnAt {n : Nat} (h : CutAt t depth s xs n) :
    ¬GoesOnAt t depth s xs n := fun hgoes => hgoes.2 h

/-- An expression has one end only. -/
theorem Ends.unique {e e' : Extent} (h : Ends t depth s xs e) (h' : Ends t depth s xs e') :
    e = e' := by
  cases h with
  | @terminator n w hn hcloses =>
      cases h' with
      | @terminator n' w' hn' hcloses' =>
          obtain rfl := first_unique hn hcloses.not_goesOnAt hn' hcloses'.not_goesOnAt
          have hw := lengthAt?_eq_some_iff.mpr ⟨w, hcloses.spelling, hcloses.ahead, rfl⟩
          have hw' := lengthAt?_eq_some_iff.mpr ⟨w', hcloses'.spelling, hcloses'.ahead, rfl⟩
          rw [Option.some.inj (hw.symm.trans hw')]
      | tag hn' hcut =>
          obtain rfl := first_unique hn hcloses.not_goesOnAt hn' hcut.not_goesOnAt
          exact absurd hcloses.depth_eq (Nat.ne_of_gt hcut.depth_pos)
      | text hall => exact absurd (hall n) hcloses.not_goesOnAt
  | @tag n hn hcut =>
      cases h' with
      | terminator hn' hcloses =>
          obtain rfl := first_unique hn hcut.not_goesOnAt hn' hcloses.not_goesOnAt
          exact absurd hcloses.depth_eq (Nat.ne_of_gt hcut.depth_pos)
      | tag hn' hcut' =>
          rw [first_unique hn hcut.not_goesOnAt hn' hcut'.not_goesOnAt]
      | text hall => exact absurd (hall n) hcut.not_goesOnAt
  | text hall =>
      cases h' with
      | @terminator n _ _ hcloses => exact absurd (hall n) hcloses.not_goesOnAt
      | @tag n _ hcut => exact absurd (hall n) hcut.not_goesOnAt
      | text _ => rfl

/-- The items of a text say where the expression at its front ends, and this is its extent. -/
theorem exists_ends (t : Terminator) {s : List UInt8} (hs : Characters s) :
    ∃ xs, (∀ ys, Lexed t s ys ↔ ys = xs) ∧ ∀ e, Ends t 0 s xs e ↔ e = extent t s := by
  obtain ⟨xs, hxs⟩ := exists_lexed t hs
  have hends := ends_lexFrom hxs hs 0
  refine ⟨xs, fun ys => ⟨fun hys => hys.unique hxs hs, ?_⟩,
    fun e => ⟨fun he => he.unique hends, ?_⟩⟩
  · rintro rfl
    exact hxs
  · rintro rfl
    exact hends

/-- **Where an expression ends.** From every boundary of a text on, the text is one list of items,
and the items say in one way how far the expression reaches and whether it is closed: up to the end
of the terminator, if it stands between two items with no bracket open, and no tag opens between
items in front of it with a bracket open; else up to the first such tag, or to the end of the text.
Whoever passes the expression and does not fail comes to this place, and knows whether the
terminator was there. In a text of fewer than `2 ^ 32` bytes the brackets can be counted, and nobody
fails. -/
theorem skipExpression?_ends (t : Terminator) (text : String) {start : Nat}
    (hstart : start ≤ (ofString text).length)
    (hboundary : isBoundary (ofString text).bytes start = true) :
    ∃ xs, (∀ ys, Lexed t ((ofString text).bytes.toList.drop start) ys ↔ ys = xs) ∧
      ∃ e, (∀ e', Ends t 0 ((ofString text).bytes.toList.drop start) xs e' ↔ e' = e) ∧
        extent t ((ofString text).bytes.toList.drop start) = e ∧
        (∀ result, (Cursor.ofOffset (ofString text).bytes start).skipExpression? t = .ok result →
          result = (e.closed, ⟨(ofString text).bytes, start + e.length⟩)) ∧
        ((ofString text).length < 0x100000000 →
          (Cursor.ofOffset (ofString text).bytes start).skipExpression? t =
            .ok (e.closed, ⟨(ofString text).bytes, start + e.length⟩)) := by
  have hs := (characters_toUTF8 text).drop_of_isBoundary hstart hboundary
  obtain ⟨xs, hlexed, hends⟩ := exists_ends t hs
  have hw : (Cursor.ofOffset (ofString text).bytes start).Within := Cursor.within_moveTo _ _
  have hposition : (Cursor.ofOffset (ofString text).bytes start).position = start :=
    Nat.min_eq_left hstart
  have hahead : (Cursor.ofOffset (ofString text).bytes start).ahead =
      (ofString text).bytes.toList.drop start := by
    rw [Cursor.ahead_eq_drop, hposition]
    rfl
  have hle := extent_le t (Cursor.ofOffset (ofString text).bytes start).ahead
  rw [Cursor.length_ahead] at hle
  have hplace : (Cursor.ofOffset (ofString text).bytes start).advance
      (extent t ((ofString text).bytes.toList.drop start)).length =
        ⟨(ofString text).bytes, start +
          (extent t ((ofString text).bytes.toList.drop start)).length⟩ := by
    have hend := hw.position_advance hle
    rw [hahead, hposition] at hend
    rw [← hend]
    rfl
  have hskip := Cursor.skipExpression?_agrees hw t
  rw [hahead, hplace] at hskip
  refine ⟨xs, hlexed, _, hends, rfl, fun result hresult => ?_, fun hsize => ?_⟩
  · exact hskip.eq_of_ok hresult
  · exact hskip.eq_of_lt (Nat.lt_of_le_of_lt (Nat.sub_le _ _) hsize)

/-- With a bracket open an expression ends at the next tag, whatever terminator follows. -/
theorem skipExpression?_ends_cut :
    2 ≤ (ofString "é(<#if>").length ∧ isBoundary (ofString "é(<#if>").bytes 2 = true ∧
      (ofString "é(<#if>").length < 0x100000000 ∧
      (Cursor.ofOffset (ofString "é(<#if>").bytes 2).skipExpression? (.tag .angle) =
        .ok (false, ⟨(ofString "é(<#if>").bytes, 3⟩) ∧
      ∃ xs, Ends (.tag .angle) 0 ((ofString "é(<#if>").bytes.toList.drop 2) xs ⟨1, false⟩ := by
  have hstart : 2 ≤ (ofString "é(<#if>").length := by decide
  have hboundary : isBoundary (ofString "é(<#if>").bytes 2 = true := by decide
  have hsize : (ofString "é(<#if>").length < 0x100000000 := by decide
  obtain ⟨xs, -, e, hends, hextent, -, hskip⟩ :=
    skipExpression?_ends (.tag .angle) "é(<#if>" hstart hboundary
  obtain rfl : e = ⟨1, false⟩ := hextent.symm.trans (by decide)
  exact ⟨hstart, hboundary, hsize, hskip hsize, xs, (hends _).mpr rfl⟩

/-- Nobody passes an expression that opens `2 ^ 32` brackets: one more is open than can be
counted. -/
theorem skipExpression?_unclosed_fails :
    isBoundary (ofString (unclosed 0x100000000)).bytes 2 = true ∧
      ∀ closed c', (Cursor.ofOffset (ofString (unclosed 0x100000000)).bytes 2).skipExpression?
        .brace ≠ .ok (closed, c') := by
  refine ⟨isBoundary_unclosed _, fun closed c' h => ?_⟩
  rw [skipExpression?_unclosed (by decide)] at h
  exact absurd h (by simp)

end TemplateColoring.Expression

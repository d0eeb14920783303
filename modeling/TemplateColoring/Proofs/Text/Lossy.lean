import TemplateColoring.Proofs.Bytes.Characters
import TemplateColoring.Text.Lossy

/-!
# Decoding texts and lines

A well-formed text is decoded to itself (`decodeLossy_toUTF8`). Any other bytes are decoded line by
line: a newline is no part of a longer sequence, so it is decoded by itself, and nothing else is
decoded to a newline.
-/

set_option autoImplicit false

namespace TemplateColoring.Text

open Bytes Ascii

theorem decodeLossy_nil : decodeLossy [] = [] := rfl

theorem decodeLossy_cons (b : UInt8) (s : List UInt8) : decodeLossy (b :: s) =
    (decodeChar b s).1 :: decodeLossy (s.drop ((decodeChar b s).2 - 1)) :=
  cut_cons cutChar () b s

/-! ## What may follow a leading byte -/

theorem following?_eq (b : UInt8) : following? b =
    if 0xC2 ≤ b.toNat ∧ b.toNat ≤ 0xDF then some (0x80, 0xBF, 0)
    else if b.toNat = 0xE0 then some (0xA0, 0xBF, 1)
    else if b.toNat = 0xED then some (0x80, 0x9F, 1)
    else if 0xE1 ≤ b.toNat ∧ b.toNat ≤ 0xEF then some (0x80, 0xBF, 1)
    else if b.toNat = 0xF0 then some (0x90, 0xBF, 2)
    else if 0xF1 ≤ b.toNat ∧ b.toNat ≤ 0xF3 then some (0x80, 0xBF, 2)
    else if b.toNat = 0xF4 then some (0x80, 0x8F, 2)
    else none := by
  simp [following?, UInt8.le_iff_toNat_le, ← UInt8.toNat_inj]

/-- What follows is no ASCII byte, and the character is none of the first in the code. -/
theorem following?_bounds {b low high : UInt8} {more : Nat}
    (h : following? b = some (low, high, more)) :
    0x80 ≤ low.toNat ∧ ∀ x : UInt8, low.toNat ≤ x.toNat → x.toNat ≤ high.toNat →
      0x0A < leadBits b (more + 1) * 64 + x.toNat % 64 := by
  rw [following?_eq] at h
  repeat' split at h
  all_goals
    cases h
  all_goals
    simp [leadBits]
  all_goals
    omega

theorem takeContinuations_append {c : UInt8} (hc : c < 0x80) (s r : List UInt8) {low : UInt8}
    (hlow : 0x80 ≤ low.toNat) (high : UInt8) (taken code count : Nat) :
    takeContinuations low high taken code count (s ++ c :: r) =
      takeContinuations low high taken code count s := by
  induction s generalizing low high taken code count with
  | nil =>
      cases count with
      | zero => rfl
      | succ count =>
          have hno : ¬ low ≤ c := by
            rw [UInt8.le_iff_toNat_le]
            rw [UInt8.lt_iff_toNat_lt] at hc
            simp at hc
            omega
          simp [takeContinuations, hno]
  | cons b s ih =>
      cases count with
      | zero => rfl
      | succ count =>
          rw [List.cons_append, takeContinuations, takeContinuations, ih (by decide)]

/-- Taking bytes never takes more than there are, and never lowers the code point. -/
theorem takeContinuations_bounds (low high : UInt8) (taken code count : Nat) (s : List UInt8) :
    (takeContinuations low high taken code count s).1 ≤ taken + s.length ∧
      code ≤ (takeContinuations low high taken code count s).2 := by
  induction s generalizing low high taken code count with
  | nil => cases count <;> exact ⟨Nat.le_refl _, Nat.le_refl _⟩
  | cons b s ih =>
      cases count with
      | zero => exact ⟨Nat.le_add_right _ _, Nat.le_refl _⟩
      | succ count =>
          rw [takeContinuations, List.length_cons]
          split
          · have hrest := ih 0x80 0xBF (taken + 1) (code * 64 + b.toNat % 64) count
            omega
          · exact ⟨Nat.le_add_right _ _, Nat.le_refl _⟩

/-! ## One character -/

theorem decodeChar_ascii {b : UInt8} (hb : b < 0x80) (s : List UInt8) :
    decodeChar b s = (Char.ofNat b.toNat, 1) :=
  if_pos hb

theorem decodeChar_length (b : UInt8) (s : List UInt8) :
    1 ≤ (decodeChar b s).2 ∧ (decodeChar b s).2 ≤ 1 + s.length := by
  unfold decodeChar
  split
  · exact ⟨Nat.le_refl _, Nat.le_add_right _ _⟩
  · split
    · exact ⟨Nat.le_refl _, Nat.le_add_right _ _⟩
    · next low high more _ =>
      have hbounds := takeContinuations_bounds low high 0 (leadBits b (more + 1)) (more + 1) s
      dsimp only
      split <;> dsimp only <;> omega

/-- An ASCII byte is not looked at by what is decoded in front of it. -/
theorem decodeChar_append {c : UInt8} (hc : c < 0x80) (b : UInt8) (s r : List UInt8) :
    decodeChar b (s ++ c :: r) = decodeChar b s := by
  unfold decodeChar
  split
  · rfl
  · split
    · rfl
    · next h => rw [takeContinuations_append hc s r (following?_bounds h).1]

theorem eq_of_ofNat_eq_newline {n : Nat} (h : Char.ofNat n = '\n') : n = 0x0A := by
  by_cases hn : n.isValidChar
  · rw [Char.ofNat, dif_pos hn] at h
    exact congrArg (fun c : Char => c.val.toNat) h
  · rw [Char.ofNat, dif_neg hn] at h
    exact absurd h (by decide)

/-- A sequence that is taken as a whole stands for none of the first characters. -/
theorem lt_takeContinuations {b low high : UInt8} {more : Nat} {s : List UInt8}
    (h : following? b = some (low, high, more))
    (htaken : (takeContinuations low high 0 (leadBits b (more + 1)) (more + 1) s).1 = more + 1) :
    0x0A < (takeContinuations low high 0 (leadBits b (more + 1)) (more + 1) s).2 := by
  cases s with
  | nil => exact absurd htaken (Nat.zero_ne_add_one more)
  | cons x s =>
      rw [takeContinuations] at htaken ⊢
      split at htaken
      · next hx =>
        rw [Bool.and_eq_true, decide_eq_true_eq, decide_eq_true_eq, UInt8.le_iff_toNat_le,
          UInt8.le_iff_toNat_le] at hx
        rw [if_pos (by simpa [UInt8.le_iff_toNat_le] using hx)]
        exact Nat.lt_of_lt_of_le ((following?_bounds h).2 x hx.1 hx.2)
          (takeContinuations_bounds _ _ _ _ _ _).2
      · exact absurd htaken (Nat.zero_ne_add_one more)

/-- Nothing but a newline is decoded to one. -/
theorem eq_newline_of_decodeChar {b : UInt8} {s : List UInt8}
    (h : (decodeChar b s).1 = '\n') : b = newline := by
  unfold decodeChar at h
  split at h
  · exact UInt8.toNat_inj.mp (eq_of_ofNat_eq_newline h)
  · split at h
    · exact absurd h (by decide)
    · next low high more hfollowing =>
      dsimp only at h
      split at h
      · next htaken =>
        have hcode := lt_takeContinuations hfollowing htaken
        rw [eq_of_ofNat_eq_newline h] at hcode
        exact absurd hcode (Nat.lt_irrefl _)
      · exact absurd (show replacement = '\n' from h) (by decide)

/-! ## Line by line -/

/-- **An ASCII byte is decoded by itself**, and what stands around it as if it were not there. -/
theorem decodeLossy_append_ascii {c : UInt8} (hc : c < 0x80) (s r : List UInt8) :
    decodeLossy (s ++ c :: r) = decodeLossy s ++ Char.ofNat c.toNat :: decodeLossy r := by
  -- by length, since a character may take several bytes at once
  induction h : s.length using Nat.strongRecOn generalizing s with
  | ind n ih =>
      cases s with
      | nil =>
          rw [List.nil_append, decodeLossy_cons, decodeChar_ascii hc]
          rfl
      | cons b s =>
          obtain ⟨hpos, hle⟩ := decodeChar_length b s
          have hfit : (decodeChar b s).2 - 1 ≤ s.length := by omega
          rw [List.cons_append, decodeLossy_cons, decodeChar_append hc,
            List.drop_append_of_le_length hfit, ih _ _ _ rfl, decodeLossy_cons, List.cons_append]
          rw [List.length_drop, ← h, List.length_cons]
          omega

theorem decodeLossy_append_newline (s r : List UInt8) :
    decodeLossy (s ++ newline :: r) = decodeLossy s ++ '\n' :: decodeLossy r :=
  decodeLossy_append_ascii (by decide) s r

theorem newline_not_mem_decodeLossy {s : List UInt8} (h : newline ∉ s) : '\n' ∉ decodeLossy s := by
  induction hn : s.length using Nat.strongRecOn generalizing s with
  | ind n ih =>
      cases s with
      | nil => exact List.not_mem_nil
      | cons b s =>
          rw [decodeLossy_cons]
          intro hmem
          rcases List.mem_cons.mp hmem with hchar | hrest
          · rw [eq_newline_of_decodeChar hchar.symm] at h
            exact h List.mem_cons_self
          · refine ih _ ?_ (fun hin => h (List.mem_cons_of_mem b (List.mem_of_mem_drop hin))) rfl
              hrest
            rw [List.length_drop, ← hn, List.length_cons]
            omega

/-! ## Well-formed texts -/

/-- Continuation bytes are taken as a whole, six bits from each. -/
theorem takeContinuations_of_forall {tail : List UInt8}
    (h : ∀ c ∈ tail, isContinuation c = true) (taken code : Nat) (r : List UInt8) :
    takeContinuations 0x80 0xBF taken code tail.length (tail ++ r) =
      (taken + tail.length, tail.foldl (fun n c => n * 64 + c.toNat % 64) code) := by
  induction tail generalizing taken code with
  | nil => cases r <;> rfl
  | cons c tail ih =>
      have hrange : ∀ b : UInt8, isContinuation b = true → (0x80 ≤ b && b ≤ 0xBF) = true :=
        forall_byte (by decide +kernel)
      rw [List.cons_append, List.length_cons, takeContinuations, if_pos (hrange c (h c (by simp))),
        ih fun b hb => h b (List.mem_cons_of_mem c hb), Nat.add_assoc, Nat.add_comm 1]
      rfl

/-- A sequence of two bytes or more is decoded as a whole. -/
theorem decodeChar_of_following {a b low high : UInt8} {tail : List UInt8}
    (hfollowing : following? a = some (low, high, tail.length))
    (hb : low.toNat ≤ b.toNat ∧ b.toNat ≤ high.toNat)
    (htail : ∀ c ∈ tail, isContinuation c = true) (r : List UInt8) :
    decodeChar a (b :: (tail ++ r)) =
      (Char.ofNat (tail.foldl (fun n c => n * 64 + c.toNat % 64)
        (leadBits a (tail.length + 1) * 64 + b.toNat % 64)), tail.length + 2) := by
  have hascii : ¬ a < 0x80 := by
    intro hlt
    rw [following?_eq] at hfollowing
    rw [UInt8.lt_iff_toNat_lt] at hlt
    simp at hlt
    repeat' split at hfollowing
    all_goals first | omega | exact absurd hfollowing (by simp)
  have hrange : (low ≤ b && b ≤ high) = true := by
    simpa [UInt8.le_iff_toNat_le] using hb
  rw [decodeChar, if_neg hascii, hfollowing]
  simp only [takeContinuations, hrange, if_true, takeContinuations_of_forall htail]
  rw [if_pos (Nat.add_comm _ _)]
  congr 1
  omega

theorem toNat_two : ∀ b : UInt8, (b &&& 0x1f ||| 0xc0).toNat = b.toNat % 32 + 0xC0 :=
  forall_byte (by decide +kernel)

theorem toNat_three : ∀ b : UInt8, (b &&& 0x0f ||| 0xe0).toNat = b.toNat % 16 + 0xE0 :=
  forall_byte (by decide +kernel)

theorem toNat_four : ∀ b : UInt8, (b &&& 0x07 ||| 0xf0).toNat = b.toNat % 8 + 0xF0 :=
  forall_byte (by decide +kernel)

theorem toNat_continuation : ∀ b : UInt8, (b &&& 0x3f ||| 0x80).toNat = b.toNat % 64 + 0x80 :=
  forall_byte (by decide +kernel)

/-- A code point between `0x800` and `0xFFFF` that is no surrogate is told by the first two of its
bytes. -/
theorem exists_following_three {v : Nat} {a b : UInt8} (hlow : 0x800 ≤ v) (hhigh : v < 0x10000)
    (hvalid : v.isValidChar) (ha : a.toNat = v / 0x1000 + 0xE0)
    (hb : b.toNat = v / 0x40 % 0x40 + 0x80) :
    ∃ low high, following? a = some (low, high, 1) ∧ low.toNat ≤ b.toNat ∧
      b.toNat ≤ high.toNat := by
  unfold Nat.isValidChar at hvalid
  rw [following?_eq, if_neg (by omega)]
  -- the two leading bytes of their own keep out overlong sequences and surrogates
  by_cases hfirst : a.toNat = 0xE0
  · rw [if_pos hfirst]
    exact ⟨0xA0, 0xBF, rfl, by simp; omega, by simp; omega⟩
  · rw [if_neg hfirst]
    by_cases hlast : a.toNat = 0xED
    · rw [if_pos hlast]
      exact ⟨0x80, 0x9F, rfl, by simp; omega, by simp; omega⟩
    · rw [if_neg hlast, if_pos (by omega)]
      exact ⟨0x80, 0xBF, rfl, by simp; omega, by simp; omega⟩

theorem exists_following_four {v : Nat} {a b : UInt8} (hlow : 0x10000 ≤ v) (hhigh : v < 0x110000)
    (ha : a.toNat = v / 0x40000 + 0xF0) (hb : b.toNat = v / 0x1000 % 0x40 + 0x80) :
    ∃ low high, following? a = some (low, high, 2) ∧ low.toNat ≤ b.toNat ∧
      b.toNat ≤ high.toNat := by
  rw [following?_eq, if_neg (by omega), if_neg (by omega), if_neg (by omega), if_neg (by omega)]
  -- here they keep out overlong sequences and what is above the last code point
  by_cases hfirst : a.toNat = 0xF0
  · rw [if_pos hfirst]
    exact ⟨0x90, 0xBF, rfl, by simp; omega, by simp; omega⟩
  · rw [if_neg hfirst]
    by_cases hlast : a.toNat = 0xF4
    · rw [if_neg (by omega), if_pos hlast]
      exact ⟨0x80, 0x8F, rfl, by simp; omega, by simp; omega⟩
    · rw [if_pos (by omega)]
      exact ⟨0x80, 0xBF, rfl, by simp; omega, by simp; omega⟩

/-- A character that is written with more than one byte, from the bytes after the first two. -/
theorem decodeLossy_of_following {a b low high : UInt8} {c : Char} (tail : List UInt8)
    (hfollowing : following? a = some (low, high, tail.length))
    (hb : low.toNat ≤ b.toNat ∧ b.toNat ≤ high.toNat)
    (htail : ∀ x ∈ tail, isContinuation x = true)
    (hcode : tail.foldl (fun n x => n * 64 + x.toNat % 64)
      (leadBits a (tail.length + 1) * 64 + b.toNat % 64) = c.toNat) (r : List UInt8) :
    decodeLossy (a :: b :: (tail ++ r)) = c :: decodeLossy r := by
  rw [decodeLossy_cons, decodeChar_of_following hfollowing hb htail, hcode]
  dsimp only
  rw [Char.ofNat_toNat, Nat.add_sub_assoc (by decide), List.drop_succ_cons,
    List.drop_append_of_le_length (Nat.le_refl _), List.drop_length, List.nil_append]

/-- The character at the front of a text is decoded as it was encoded. -/
theorem decodeLossy_encode_append (c : Char) (r : List UInt8) :
    decodeLossy (String.utf8EncodeChar c ++ r) = c :: decodeLossy r := by
  have hvalid : c.toNat.isValidChar := c.valid
  have hmax : c.toNat < 0x110000 := by
    unfold Nat.isValidChar at hvalid
    omega
  -- the bits that the bytes are made of, as digits of the code point
  have hone : c.val.toUInt8.toNat = c.toNat % 256 := UInt32.toNat_toUInt8 c.val
  have hsix : (c.val >>> 6).toUInt8.toNat = c.toNat / 0x40 % 256 := by
    rw [UInt32.toNat_toUInt8, UInt32.toNat_shiftRight, Nat.shiftRight_eq_div_pow]
    rfl
  have htwelve : (c.val >>> 12).toUInt8.toNat = c.toNat / 0x1000 % 256 := by
    rw [UInt32.toNat_toUInt8, UInt32.toNat_shiftRight, Nat.shiftRight_eq_div_pow]
    rfl
  have heighteen : (c.val >>> 18).toUInt8.toNat = c.toNat / 0x40000 % 256 := by
    rw [UInt32.toNat_toUInt8, UInt32.toNat_shiftRight, Nat.shiftRight_eq_div_pow]
    rfl
  match hsize : c.utf8Size, c.utf8Size_pos, c.utf8Size_le_four with
  | 1, _, _ =>
      have hle : c.toNat ≤ 0x7F := Char.utf8Size_eq_one_iff.mp hsize
      have hcode : c.val.toUInt8.toNat = c.toNat := by omega
      have hascii : c.val.toUInt8 < 0x80 := by
        rw [UInt8.lt_iff_toNat_lt, hcode]
        exact Nat.lt_succ_of_le hle
      rw [String.utf8EncodeChar_eq_singleton hsize, List.singleton_append, decodeLossy_cons,
        decodeChar_ascii hascii, hcode, Char.ofNat_toNat]
      rfl
  | 2, _, _ =>
      obtain ⟨hlow, hhigh⟩ : 0x7F < c.toNat ∧ c.toNat ≤ 0x7FF := Char.utf8Size_eq_two_iff.mp hsize
      rw [String.utf8EncodeChar_eq_cons_cons hsize]
      have hfollowing : following? ((c.val >>> 6).toUInt8 &&& 0x1f ||| 0xc0) =
          some (0x80, 0xBF, 0) := by
        rw [following?_eq, toNat_two, if_pos (by omega)]
      refine decodeLossy_of_following [] hfollowing ?_ ?_ ?_ r
      · rw [toNat_continuation]
        simp
        omega
      · simp
      · simp only [leadBits, List.length_nil, List.foldl_nil, toNat_two, toNat_continuation,
          Nat.reduceAdd, Nat.reduceShiftRight]
        omega
  | 3, _, _ =>
      obtain ⟨hlow, hhigh⟩ : 0x7FF < c.toNat ∧ c.toNat ≤ 0xFFFF :=
        Char.utf8Size_eq_three_iff.mp hsize
      have ha := toNat_three (c.val >>> 12).toUInt8
      have hb := toNat_continuation (c.val >>> 6).toUInt8
      obtain ⟨low, high, hfollowing, hrange⟩ := exists_following_three hlow (by omega) hvalid
        (ha.trans (by omega)) (hb.trans (by omega))
      rw [String.utf8EncodeChar_eq_cons_cons_cons hsize]
      refine decodeLossy_of_following [_] hfollowing hrange ?_ ?_ r
      · simp [continuation]
      · simp only [leadBits, List.length_cons, List.length_nil, List.foldl_cons, List.foldl_nil, ha,
          hb, toNat_continuation, Nat.reduceAdd, Nat.reduceShiftRight]
        omega
  | 4, _, _ =>
      have hlow : 0xFFFF < c.toNat := Char.utf8Size_eq_four_iff.mp hsize
      have ha := toNat_four (c.val >>> 18).toUInt8
      have hb := toNat_continuation (c.val >>> 12).toUInt8
      obtain ⟨low, high, hfollowing, hrange⟩ := exists_following_four hlow hmax
        (ha.trans (by omega)) (hb.trans (by omega))
      rw [String.utf8EncodeChar_eq_cons_cons_cons_cons hsize]
      refine decodeLossy_of_following [_, _] hfollowing hrange ?_ ?_ r
      · simp [continuation]
      · simp only [leadBits, List.length_cons, List.length_nil, List.foldl_cons, List.foldl_nil, ha,
          hb, toNat_continuation, Nat.reduceAdd, Nat.reduceShiftRight]
        omega

theorem decodeLossy_encode (s : List Char) : decodeLossy (s.flatMap String.utf8EncodeChar) = s := by
  induction s with
  | nil => rfl
  | cons c s ih => rw [List.flatMap_cons, decodeLossy_encode_append, ih]

/-- **A well-formed text is decoded to itself.** -/
theorem decodeLossy_toUTF8 (s : String) : decodeLossy s.toUTF8.data.toList = s.toList := by
  rw [← String.ofList_toList (s := s), toList_toUTF8_ofList, decodeLossy_encode,
    String.toList_ofList]

end TemplateColoring.Text

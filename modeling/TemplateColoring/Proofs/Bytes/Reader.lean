import TemplateColoring.Bytes.Reader
import TemplateColoring.Proofs.Bytes.Step

/-!
# Readers are safe

A reader computes its places from offsets near the largest one, some of them in sums that fail. It
still does what a cursor does: a place that is no offset is behind every document, and a sum is
computed only for a byte whose neighbour in front of it stands in the document. So a reader does
whatever it is told, stays in its document, and sees what is there (`follow?_safe`).
-/

set_option autoImplicit false

namespace TemplateColoring

open Bytes

namespace Cursor

variable {c : Cursor} {n : Nat} {b : UInt8}

theorem lt_limit_of_peek? (h : c.peek? n = some b) : c.position + n < c.limit :=
  (Array.getElem?_eq_some_iff.mp h).1

/-- A needle stands where the document has its bytes. The empty needle stands behind the end of the
document too. -/
theorem standsAt_iff (c : Cursor) (n : Nat) (needle : List UInt8) :
    c.standsAt n needle = true ↔ needle = [] ∨
      c.position + n + needle.length ≤ c.limit ∧
        (c.bytes.extract (c.position + n) (c.position + n + needle.length)).toList = needle := by
  rw [standsAt_eq, List.isPrefixOf_iff_prefix, ahead_eq_drop, List.drop_drop, toList_extract_add]
  constructor
  · intro h
    by_cases hnil : needle = []
    · exact .inl hnil
    · right
      have hlength := h.length_le
      have hpos := List.length_pos_iff.mpr hnil
      rw [List.length_drop, c.bytes.length_toList] at hlength
      refine ⟨?_, (List.prefix_iff_eq_take.mp h).symm⟩
      simp only [limit]
      omega
  · rintro (rfl | ⟨-, h⟩)
    · exact List.nil_prefix
    · exact List.prefix_iff_eq_take.mpr h.symm

end Cursor

namespace Reader

variable {r r' : Reader} {n : Nat} {needle : List UInt8}

/-! ## What a reader sees -/

/-- No sum fails: where a byte is equal the document goes on, so the next place is an offset. -/
theorem standsFrom?_eq {i : Nat} (h : n + i ≤ Offset.max) (needle : List UInt8) :
    r.standsFrom? n i needle = .ok (r.toCursor.standsAt (n + i) needle) := by
  induction needle generalizing i with
  | nil => rfl
  | cons b needle ih =>
      rw [standsFrom?, Offset.add_eq_ok h, ok_bind, peek?_eq, Cursor.standsAt]
      by_cases hb : r.toCursor.peek? (n + i) = some b
      · have hlimit := r.limit_le
        have hin := Cursor.lt_limit_of_peek? hb
        rw [hb, beq_self_eq_true, Bool.true_and, if_pos rfl]
        exact ih (by omega)
      · rw [beq_eq_false_iff_ne.mpr hb, Bool.false_and]
        rfl

theorem standsAt?_eq (h : n ≤ Offset.max) (needle : List UInt8) :
    r.standsAt? n needle = .ok (r.toCursor.standsAt n needle) :=
  standsFrom?_eq (i := 0) h needle

/-! ## Where a reader goes -/

theorem leadsTo_stepWhileFrom (wanted : Nat → UInt8 → Bool) (passed : Nat) (r : Reader) :
    r.LeadsTo (stepWhileFrom wanted passed r).toCursor := by
  fun_induction stepWhileFrom wanted passed r with
  | case1 passed r b _ _ ih =>
      rw [toCursor_advance] at ih
      exact (Cursor.leadsTo_advance r.toCursor 1).trans ih
  | case2 | case3 => exact .refl _

/-- A search does not fail, and it comes to what it comes to for a cursor. -/
theorem exists_stepThrough? (needle : List UInt8) (r : Reader) :
    ∃ r', r.stepThrough? needle = .ok ((r.toCursor.stepThrough needle).1, r') ∧
      r'.toCursor = (r.toCursor.stepThrough needle).2 := by
  have hstands (r : Reader) : r.standsAt? 0 needle = .ok (r.toCursor.standsAt 0 needle) :=
    standsAt?_eq (Nat.zero_le _) needle
  fun_induction stepThrough? needle r with
  | case1 r hend =>
      rw [Cursor.stepThrough, dif_pos hend]
      exact ⟨r, rfl, rfl⟩
  | case2 r hend fault hfault => exact absurd ((hstands r).symm.trans hfault) (by simp)
  | case3 r hend hfound =>
      have hp := Except.ok.inj ((hstands r).symm.trans hfound)
      rw [Cursor.stepThrough, dif_neg hend, if_pos hp]
      exact ⟨_, rfl, toCursor_advance r _⟩
  | case4 r hend hmissing ih =>
      have hp := Except.ok.inj ((hstands r).symm.trans hmissing)
      rw [Cursor.stepThrough, dif_neg hend, if_neg (Bool.not_eq_true _ ▸ hp)]
      rwa [toCursor_advanceChar] at ih

/-! ## Whatever a reader is told -/

/-- What a reader comes to that does as it is told: it is in the same document, and it goes on
unless it is told to go to an offset. -/
structure Does (m : Move) (r r' : Reader) : Prop where
  bytes : r'.bytes = r.bytes
  within : r.Within → r'.Within
  onward : (∀ offset, m ≠ .moveTo offset) → r.LeadsTo r'.toCursor

theorem Does.of_leadsTo {m : Move} (h : r.LeadsTo r'.toCursor) : Does m r r' :=
  ⟨h.bytes, h.within, fun _ => h⟩

/-- **A reader does whatever it is told.** -/
theorem exists_move? (r : Reader) (m : Move) : ∃ r', r.move? m = .ok r' ∧ Does m r r' := by
  cases m with
  | moveTo offset =>
      refine ⟨r.moveTo offset, rfl, rfl, fun _ => Cursor.within_moveTo _ _, ?_⟩
      intro h
      exact absurd rfl (h offset)
  | advance n =>
      refine ⟨r.advance n, rfl, .of_leadsTo ?_⟩
      rw [toCursor_advance]
      exact Cursor.leadsTo_advance r.toCursor n
  | advanceChar =>
      refine ⟨r.advanceChar, rfl, .of_leadsTo ?_⟩
      rw [toCursor_advanceChar]
      exact Cursor.leadsTo_advanceChar r.toCursor
  | stepWhile wanted =>
      exact ⟨r.stepWhile wanted, rfl, .of_leadsTo (leadsTo_stepWhileFrom wanted 0 r)⟩
  | stepThrough needle =>
      obtain ⟨r', hstep, hr'⟩ := exists_stepThrough? needle r
      refine ⟨r', by rw [move?, hstep, map_ok], .of_leadsTo ?_⟩
      rw [hr']
      exact Cursor.leadsTo_stepThrough needle r.toCursor

/-- A reader in its document does everything that it is told, and is in its document then. -/
theorem exists_follow? (h : r.Within) (moves : List Move) :
    ∃ r', r.follow? moves = .ok r' ∧ r'.bytes = r.bytes ∧ r'.Within := by
  induction moves generalizing r with
  | nil => exact ⟨r, rfl, rfl, h⟩
  | cons m moves ih =>
      obtain ⟨next, hmove, hdoes⟩ := exists_move? r m
      obtain ⟨last, hfollow, hsame, hlast⟩ := ih (hdoes.within h)
      refine ⟨last, ?_, hsame.trans hdoes.bytes, hlast⟩
      rw [follow?, hmove, ok_bind, hfollow]

/-- What holds of a reader wherever it stands. -/
structure Safe (r : Reader) : Prop where
  within : r.position ≤ r.bytes.size
  /-- It does what it is told, and goes back only if told to go to an offset. -/
  moves : ∀ m, ∃ r', r.move? m = .ok r' ∧
    ((∀ offset, m ≠ .moveTo offset) → r.position ≤ r'.position)
  /-- It sees the bytes of the document and nothing else, however far ahead. -/
  sees : ∀ n, r.peek? n =
    if h : r.position + n < r.bytes.size then some r.bytes[r.position + n] else none
  /-- It compares a needle with the bytes of the document, at any offset ahead. -/
  compares : ∀ n ≤ Offset.max, ∀ needle, ∃ same, r.standsAt? n needle = .ok same ∧
    (same = true ↔ needle = [] ∨ r.position + n + needle.length ≤ r.bytes.size ∧
      (r.bytes.extract (r.position + n) (r.position + n + needle.length)).toList = needle)

theorem safe_of_within (h : r.Within) : r.Safe where
  within := h
  moves := by
    intro m
    obtain ⟨r', hmove, hdoes⟩ := exists_move? r m
    exact ⟨r', hmove, fun hm => ((hdoes.onward hm).position_bounds h).1⟩
  sees := by
    intro n
    rw [peek?_eq]
    exact getElem?_def r.bytes (r.position + n)
  compares := by
    intro n hn needle
    exact ⟨_, standsAt?_eq hn needle, Cursor.standsAt_iff r.toCursor n needle⟩

/-- **A reader is safe wherever it is led.** From any offset of a document, whose bytes may be any,
it does everything that it is told without a fault. Then it is in its document, it goes back only
if told to go to an offset, and what it sees ahead is what stands there. -/
theorem follow?_safe {bytes : Array UInt8} (h : bytes.size ≤ Offset.max) (offset : Nat)
    (moves : List Move) :
    ∃ r, (ofOffset bytes h offset).follow? moves = .ok r ∧ r.bytes = bytes ∧ r.Safe := by
  obtain ⟨r, hfollow, hbytes, hwithin⟩ :=
    exists_follow? (r := ofOffset bytes h offset) (Cursor.within_moveTo _ _) moves
  exact ⟨r, hfollow, hbytes, safe_of_within hwithin⟩

/-- The bytes are no text. A letter of two bytes is announced, and the search steps over the `<` in
its second place. -/
theorem follow?_safe_malformed :
    (#[0xC3, 0x3C, 0xFF] : Array UInt8).size ≤ Offset.max ∧
      ∃ r, (ofOffset #[0xC3, 0x3C, 0xFF] (by decide) Offset.max).follow?
          [.advance Offset.max, .moveTo 0, .stepThrough [0x3C], .moveTo 0, .advanceChar] = .ok r ∧
        r.position = 2 ∧ r.peek? Offset.max = none ∧
        r.standsAt? Offset.max [0x3C] = .ok false := by
  have hsize : (#[0xC3, 0x3C, 0xFF] : Array UInt8).size ≤ Offset.max := by decide
  obtain ⟨r, hfollow, -, hsafe⟩ := follow?_safe hsize Offset.max
    [.advance Offset.max, .moveTo 0, .stepThrough [0x3C], .moveTo 0, .advanceChar]
  -- the search, from the place where it ends to the one where it starts
  have hend : stepThrough? [0x3C] ⟨⟨#[0xC3, 0x3C, 0xFF], 3⟩, hsize⟩ =
      .ok (false, ⟨⟨#[0xC3, 0x3C, 0xFF], 3⟩, hsize⟩) := by
    rw [stepThrough?]
    rfl
  have hlast : stepThrough? [0x3C] ⟨⟨#[0xC3, 0x3C, 0xFF], 2⟩, hsize⟩ =
      .ok (false, ⟨⟨#[0xC3, 0x3C, 0xFF], 3⟩, hsize⟩) := by
    rw [stepThrough?]
    exact hend
  have hsearch : stepThrough? [0x3C] ⟨⟨#[0xC3, 0x3C, 0xFF], 0⟩, hsize⟩ =
      .ok (false, ⟨⟨#[0xC3, 0x3C, 0xFF], 3⟩, hsize⟩) := by
    rw [stepThrough?]
    exact hlast
  have hback : ((ofOffset #[0xC3, 0x3C, 0xFF] hsize Offset.max).advance Offset.max).moveTo 0 =
      ⟨⟨#[0xC3, 0x3C, 0xFF], 0⟩, hsize⟩ := rfl
  have hrun : (ofOffset #[0xC3, 0x3C, 0xFF] hsize Offset.max).follow?
      [.advance Offset.max, .moveTo 0, .stepThrough [0x3C], .moveTo 0, .advanceChar] =
        .ok ⟨⟨#[0xC3, 0x3C, 0xFF], 2⟩, hsize⟩ := by
    rw [follow?, move?, ok_bind, follow?, move?, ok_bind, hback, follow?, move?, hsearch]
    rfl
  obtain rfl := Except.ok.inj (hrun.symm.trans hfollow)
  refine ⟨hsize, _, hfollow, rfl, ?_, ?_⟩
  · rw [hsafe.sees]
    exact dif_neg (show ¬2 + Offset.max < 3 by decide)
  · obtain ⟨same, hsame, hiff⟩ := hsafe.compares Offset.max (Nat.le_refl _) [0x3C]
    have hno : same = false := by
      rw [Bool.eq_false_iff, ne_eq, hiff]
      rintro (hnil | ⟨hfit, -⟩)
      · exact absurd hnil (by simp)
      · have hmax : 3 ≤ Offset.max := by decide
        simp only [List.size_toArray, List.length_cons, List.length_nil] at hfit
        omega
    subst hno
    exact hsame

end Reader

end TemplateColoring

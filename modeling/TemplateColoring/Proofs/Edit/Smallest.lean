import Mathlib.Data.Nat.Find
import TemplateColoring.Proofs.Region.Map
import TemplateColoring.Proofs.Token.Characters

/-!
# The smallest edit between two texts

An edit leaves some bytes at the start of a text and some at its end as they are (`Shares`). The
edit that `Edit.between?` finds leaves as many at the start as it can, and then as many at the end
as are left. No other edit between characters leaves more of them altogether, even if it leaves
fewer at the start: what it gains at the end is what repeats at the start
(`Shares.add_le`). So the edit is the smallest one (`Edit.between?_smallest`).
-/

set_option autoImplicit false

namespace TemplateColoring

open Bytes Template

namespace Edit

/-! ## What `between?` computes -/

theorem add_le_commonLength_iff {s t : List UInt8} {n k : Nat} :
    n + k ≤ commonLength n s t ↔ k ≤ s.length ∧ k ≤ t.length ∧ s.take k = t.take k := by
  induction s generalizing n k t with
  | nil => cases k <;> simp [commonLength]
  | cons a s ih =>
      cases t with
      | nil => cases k <;> simp [commonLength]
      | cons b t =>
          rw [commonLength]
          by_cases hab : a = b
          · subst hab
            rw [if_pos (beq_self_eq_true a)]
            cases k with
            | zero =>
                have hstep := (ih (n := n + 1) (k := 0) (t := t)).mpr (by simp)
                simp only [List.take_zero, Nat.zero_le, and_self, iff_true]
                omega
            | succ k =>
                rw [← Nat.add_assoc, Nat.add_right_comm, ih]
                simp
          · rw [if_neg (by simpa using hab)]
            cases k with
            | zero => simp
            | succ k => simp [hab]

theorem le_commonLength_iff {s t : List UInt8} {k : Nat} :
    k ≤ commonLength 0 s t ↔ k ≤ s.length ∧ k ≤ t.length ∧ s.take k = t.take k := by
  rw [← add_le_commonLength_iff (n := 0), Nat.zero_add]

theorem le_commonLength_reverse_iff {s t : List UInt8} {k : Nat} :
    k ≤ commonLength 0 s.reverse t.reverse ↔
      k ≤ s.length ∧ k ≤ t.length ∧ s.drop (s.length - k) = t.drop (t.length - k) := by
  rw [le_commonLength_iff, List.length_reverse, List.length_reverse, List.take_reverse,
    List.take_reverse, List.reverse_inj]

theorem largestUpTo_eq_findGreatest (p : Nat → Bool) (n : Nat) :
    largestUpTo p n = Nat.findGreatest (fun m => p m = true) n := by
  induction n with
  | zero => rfl
  | succ n ih => rw [largestUpTo, Nat.findGreatest_succ, ih]

/-! ## What edits leave as it is -/

/-- `front` bytes at the start of two texts and `back` bytes at their ends are the same, and they
overlap in neither text. -/
structure Shares (old new : Template) (front back : Nat) : Prop where
  old_le : front + back ≤ old.length
  new_le : front + back ≤ new.length
  take_eq : old.bytes.toList.take front = new.bytes.toList.take front
  drop_eq : old.bytes.toList.drop (old.length - back) = new.bytes.toList.drop (new.length - back)

/-- The bytes that are left at the start and at the end stop between characters of both texts. -/
structure Aligned (old new : Template) (front back : Nat) : Prop where
  start_old : isBoundary old.bytes front = true
  start_new : isBoundary new.bytes front = true
  stop_old : isBoundary old.bytes (old.length - back) = true
  stop_new : isBoundary new.bytes (new.length - back) = true

variable {old new : Template} {e : Edit} {front back : Nat}

/-- A true edit leaves what stands in front of the changed bytes and what stands behind them. -/
theorem Turns.shares (h : e.Turns old new) :
    Shares old new e.offset (old.length - (e.offset + e.removed)) := by
  have hfit := h.1
  have hlen := h.length_eq
  have hdrop := h.drop_eq (Nat.le_refl _)
  have hold : old.length - (old.length - (e.offset + e.removed)) = e.offset + e.removed := by omega
  have hnew : new.length - (old.length - (e.offset + e.removed)) = e.offset + e.inserted := by
    omega
  refine ⟨by omega, by omega, h.take_eq, ?_⟩
  rw [hold, hnew, ← hdrop, Nat.add_sub_cancel]

/-- Whether an offset is a boundary is seen from what follows it. -/
theorem isBoundary_congr {n m : Nat} (hn : n ≤ old.length) (hm : m ≤ new.length)
    (h : old.bytes.toList.drop n = new.bytes.toList.drop m) :
    isBoundary old.bytes n = isBoundary new.bytes m := by
  rw [Bool.eq_iff_iff, isBoundary_iff hn, isBoundary_iff hm, h]

/-- Behind a common start that stops between characters of one text, the other has a boundary
too. -/
theorem isBoundary_of_take_eq {before after : String} {n : Nat}
    (hold : n ≤ (ofString before).length) (hnew : n ≤ (ofString after).length)
    (htake : (ofString before).bytes.toList.take n = (ofString after).bytes.toList.take n)
    (h : isBoundary (ofString before).bytes n = true) :
    isBoundary (ofString after).bytes n = true := by
  have hrest := (characters_toUTF8 before).drop_of_isBoundary hold h
  obtain ⟨front, -, hfront, -⟩ := exists_strings_of_append
    (List.take_append_drop n (ofString before).bytes.toList).symm hrest
  have hwhole : Characters ((ofString after).bytes.toList.take n) := by
    rw [← htake, ← hfront]
    exact characters_toUTF8 front
  refine Characters.isBoundary hnew (hwhole.of_append ?_)
  rw [List.take_append_drop]
  exact characters_toUTF8 after

/-- What stands between characters of the old text does so in the new one. -/
theorem Shares.aligned {before after : String}
    (h : Shares (ofString before) (ofString after) front back)
    (hstart : isBoundary (ofString before).bytes front = true)
    (hstop : isBoundary (ofString before).bytes ((ofString before).length - back) = true) :
    Aligned (ofString before) (ofString after) front back := by
  have hold := h.old_le
  have hnew := h.new_le
  refine ⟨hstart, ?_, hstop, ?_⟩
  · exact isBoundary_of_take_eq (by omega) (by omega) h.take_eq hstart
  · rw [← isBoundary_congr (Nat.sub_le _ _) (Nat.sub_le _ _) h.drop_eq]
    exact hstop

/-! ## The most that can be left -/

/-- The most bytes at the start that two texts share, up to a boundary of both. -/
def sharedFront (old new : Template) : Nat :=
  largestUpTo (fun n => isBoundary old.bytes n && isBoundary new.bytes n)
    (commonLength 0 old.bytes.toList new.bytes.toList)

/-- The most bytes at the end that two texts share behind `front` bytes, from a boundary of both
on. -/
def sharedBack (old new : Template) (front : Nat) : Nat :=
  largestUpTo
    (fun n => isBoundary old.bytes (old.length - n) && isBoundary new.bytes (new.length - n))
    (min (min old.length new.length - front)
      (commonLength 0 old.bytes.toList.reverse new.bytes.toList.reverse))

/-- At the start of a text there is a boundary. -/
theorem isBoundary_zero (s : String) : isBoundary (ofString s).bytes 0 = true :=
  Characters.isBoundary (Nat.zero_le _) (characters_toUTF8 s)

/-- At the end of a text there is a boundary. -/
theorem isBoundary_length (t : Template) : isBoundary t.bytes t.length = true := by
  simp [isBoundary, Template.length]

theorem sharedFront_spec (before after : String) :
    let front := sharedFront (ofString before) (ofString after)
    front ≤ commonLength 0 (ofString before).bytes.toList (ofString after).bytes.toList ∧
      isBoundary (ofString before).bytes front = true ∧
      isBoundary (ofString after).bytes front = true := by
  simp only [sharedFront, largestUpTo_eq_findGreatest]
  have hspec := Nat.findGreatest_spec (P := fun n =>
    (isBoundary (ofString before).bytes n && isBoundary (ofString after).bytes n) = true)
    (Nat.zero_le (commonLength 0 (ofString before).bytes.toList (ofString after).bytes.toList))
    (by simp [isBoundary_zero])
  exact ⟨Nat.findGreatest_le _, Bool.and_eq_true_iff.mp hspec⟩

theorem sharedBack_spec (old new : Template) (front : Nat) :
    let back := sharedBack old new front
    back ≤ min (min old.length new.length - front)
        (commonLength 0 old.bytes.toList.reverse new.bytes.toList.reverse) ∧
      isBoundary old.bytes (old.length - back) = true ∧
      isBoundary new.bytes (new.length - back) = true := by
  simp only [sharedBack, largestUpTo_eq_findGreatest]
  have hspec := Nat.findGreatest_spec (P := fun n =>
    (isBoundary old.bytes (old.length - n) && isBoundary new.bytes (new.length - n)) = true)
    (Nat.zero_le (min (min old.length new.length - front)
      (commonLength 0 old.bytes.toList.reverse new.bytes.toList.reverse)))
    (by simp [isBoundary_length])
  exact ⟨Nat.findGreatest_le _, Bool.and_eq_true_iff.mp hspec⟩

/-- What is left at the start and at the end between two texts. -/
theorem shares_shared (before after : String) {front back : Nat}
    (hfront : front = sharedFront (ofString before) (ofString after))
    (hback : back = sharedBack (ofString before) (ofString after) front) :
    Shares (ofString before) (ofString after) front back ∧
      Aligned (ofString before) (ofString after) front back := by
  obtain ⟨hcommon, hstart⟩ := sharedFront_spec before after
  obtain ⟨hroom, hstop⟩ := sharedBack_spec (ofString before) (ofString after) front
  rw [← hfront] at hcommon hstart
  rw [← hback] at hroom hstop
  obtain ⟨hold, hnew, htake⟩ := le_commonLength_iff.mp hcommon
  obtain ⟨-, -, hdrop⟩ :=
    le_commonLength_reverse_iff.mp (Nat.le_trans hroom (Nat.min_le_right _ _))
  rw [Array.length_toList] at hold hnew
  simp only [Template.length] at hroom ⊢
  refine ⟨⟨?_, ?_, htake, hdrop⟩, ⟨hstart.1, hstart.2, hstop.1, hstop.2⟩⟩
  · simp only [Template.length]
    omega
  · simp only [Template.length]
    omega

theorem Shares.le_sharedFront (h : Shares old new front back) (ha : Aligned old new front back) :
    front ≤ sharedFront old new := by
  have hold := h.old_le
  have hnew := h.new_le
  rw [sharedFront, largestUpTo_eq_findGreatest]
  refine Nat.le_findGreatest (le_commonLength_iff.mpr ⟨?_, ?_, h.take_eq⟩) ?_
  · rw [Array.length_toList]
    exact Nat.le_trans (Nat.le_add_right _ _) hold
  · rw [Array.length_toList]
    exact Nat.le_trans (Nat.le_add_right _ _) hnew
  · rw [ha.start_old, ha.start_new, Bool.and_self]

theorem Shares.le_commonLength_reverse (h : Shares old new front back) :
    back ≤ commonLength 0 old.bytes.toList.reverse new.bytes.toList.reverse := by
  have hold := h.old_le
  have hnew := h.new_le
  refine le_commonLength_reverse_iff.mpr ⟨?_, ?_, h.drop_eq⟩
  · rw [Array.length_toList]
    exact Nat.le_trans (Nat.le_add_left _ _) hold
  · rw [Array.length_toList]
    exact Nat.le_trans (Nat.le_add_left _ _) hnew

/-- Where all that a text has behind a boundary is shared at the end, the shared bytes start
between characters of both texts. -/
theorem isBoundary_room {room : Nat}
    (hroom : room ≤ commonLength 0 old.bytes.toList.reverse new.bytes.toList.reverse)
    (hold : isBoundary old.bytes front = true) (hnew : isBoundary new.bytes front = true)
    (hmin : front + room = min old.length new.length) :
    isBoundary old.bytes (old.length - room) = true ∧
      isBoundary new.bytes (new.length - room) = true := by
  obtain ⟨-, -, hdrop⟩ := le_commonLength_reverse_iff.mp hroom
  have hsame : isBoundary old.bytes (old.length - room) =
      isBoundary new.bytes (new.length - room) :=
    isBoundary_congr (Nat.sub_le _ _) (Nat.sub_le _ _) hdrop
  rcases Nat.le_total old.length new.length with hle | hle
  · have hfront : old.length - room = front := by omega
    rw [← hsame, hfront]
    exact ⟨hold, hold⟩
  · have hfront : new.length - room = front := by omega
    rw [hsame, hfront]
    exact ⟨hnew, hnew⟩

/-- **No edit leaves more bytes** than those left at the start first and at the end then. -/
theorem Shares.add_le {before after : String} {front back : Nat}
    (h : Shares (ofString before) (ofString after) front back)
    (ha : Aligned (ofString before) (ofString after) front back) :
    front + back ≤ sharedFront (ofString before) (ofString after) +
      sharedBack (ofString before) (ofString after)
        (sharedFront (ofString before) (ofString after)) := by
  have hfront := h.le_sharedFront ha
  have hback := h.le_commonLength_reverse
  obtain ⟨hshares, haligned⟩ := shares_shared before after rfl rfl
  generalize sharedFront (ofString before) (ofString after) = most at hfront hshares haligned ⊢
  have hold := hshares.old_le
  have hnew := hshares.new_le
  by_cases hroom : back ≤ min (ofString before).length (ofString after).length - most
  · -- what is left at the end has room behind the longest start
    have hle : back ≤ sharedBack (ofString before) (ofString after) most := by
      rw [sharedBack, largestUpTo_eq_findGreatest]
      refine Nat.le_findGreatest (Nat.le_min.mpr ⟨hroom, hback⟩) ?_
      rw [ha.stop_old, ha.stop_new, Bool.and_self]
    omega
  · -- it reaches into the longest start, so the shorter text is left as a whole
    have hle : min (ofString before).length (ofString after).length - most ≤
        sharedBack (ofString before) (ofString after) most := by
      have hcommon : min (ofString before).length (ofString after).length - most ≤
          commonLength 0 (ofString before).bytes.toList.reverse
            (ofString after).bytes.toList.reverse := by omega
      rw [sharedBack, largestUpTo_eq_findGreatest]
      refine Nat.le_findGreatest (Nat.le_min.mpr ⟨Nat.le_refl _, hcommon⟩) ?_
      obtain ⟨hstop, hstop'⟩ := isBoundary_room hcommon haligned.start_old haligned.start_new
        (by omega)
      rw [hstop, hstop', Bool.and_self]
    have := h.old_le
    have := h.new_le
    omega

/-! ## The edit -/

/-- What an edit is called is told by the numbers of bytes that it removes and inserts. -/
structure Named (e : Edit) : Prop where
  insertion_iff : e.kind = .insertion ↔ e.removed = 0
  deletion_iff : e.kind = .deletion ↔ e.inserted = 0 ∧ 0 < e.removed
  replacement_iff : e.kind = .replacement ↔ 0 < e.inserted ∧ 0 < e.removed

theorem between?_eq_none_iff {before after : String} :
    between? (ofString before).bytes (ofString after).bytes = none ↔ before = after := by
  constructor
  · intro h
    by_cases hbytes : (ofString before).bytes = (ofString after).bytes
    · exact ofString_injective (congrArg Array.toList hbytes)
    · rw [between?, if_neg hbytes] at h
      simp only [] at h
      repeat' split at h
      all_goals exact absurd h (by simp)
  · rintro rfl
    rw [between?, if_pos rfl]

/-- The edit between two texts replaces all that is not left. -/
theorem eq_of_between? (h : between? old.bytes new.bytes = some e) :
    e.offset = sharedFront old new ∧
      e.removed = old.length - e.offset - sharedBack old new e.offset ∧
      e.inserted = new.length - e.offset - sharedBack old new e.offset ∧ e.Named := by
  rw [between?] at h
  split at h
  · exact absurd h (by simp)
  · simp only [] at h
    split at h
    · next hremoved =>
      obtain rfl := Option.some.inj h
      refine ⟨rfl, hremoved.symm, rfl, ⟨?_, ?_, ?_⟩⟩ <;> simp [insertion]
    split at h
    · next hremoved hinserted =>
      obtain rfl := Option.some.inj h
      refine ⟨rfl, rfl, hinserted.symm, ⟨?_, ?_, ?_⟩⟩ <;> simp [deletion] <;> omega
    · next hremoved hinserted =>
      obtain rfl := Option.some.inj h
      refine ⟨rfl, rfl, rfl, ⟨?_, ?_, ?_⟩⟩ <;> simp [replacement] <;> omega

/-- An edit, with the ends of the changed bytes in the old and in the new text, is true of two
texts and the smallest one. -/
structure Smallest (old new : Template) (e : Edit) (oldStop newStop : Nat) : Prop where
  oldStop_eq : e.oldStop? = .ok oldStop
  newStop_eq : e.newStop? = .ok newStop
  old_le : oldStop ≤ old.length
  new_le : newStop ≤ new.length
  /-- The new text is the old one with the changed bytes of the new one in their place. -/
  new_eq : new.bytes.toList = old.bytes.toList.take e.offset ++
    (new.bytes.toList.take newStop).drop e.offset ++ old.bytes.toList.drop oldStop
  start_old : isBoundary old.bytes e.offset = true
  start_new : isBoundary new.bytes e.offset = true
  stop_old : isBoundary old.bytes oldStop = true
  stop_new : isBoundary new.bytes newStop = true
  named : e.Named
  /-- No true edit that removes what stands between two characters removes or inserts fewer
  bytes. -/
  least : ∀ f : Edit, f.Turns old new → isBoundary old.bytes f.offset = true →
    isBoundary old.bytes (f.offset + f.removed) = true →
    e.removed ≤ f.removed ∧ e.inserted ≤ f.inserted
  /-- Behind the changed bytes the texts are the same, at the offsets to which the edit maps. -/
  map_eq : ∀ offset, oldStop ≤ offset → offset ≤ old.length → ∃ moved, e.map? offset = .ok moved ∧
    moved ≤ new.length ∧ old.bytes.toList.drop offset = new.bytes.toList.drop moved

/-- The new text is what is left of the old one and what stands between. -/
theorem Shares.new_eq (h : Shares old new front back) :
    new.bytes.toList = old.bytes.toList.take front ++
      (new.bytes.toList.take (new.length - back)).drop front ++
      old.bytes.toList.drop (old.length - back) := by
  have hle := h.new_le
  have hfront : (new.bytes.toList.take (new.length - back)).take front =
      new.bytes.toList.take front := by
    rw [List.take_take, Nat.min_eq_left (by omega)]
  rw [h.take_eq, h.drop_eq, ← hfront, List.take_append_drop, List.take_append_drop]

/-- Behind the changed bytes an edit maps the offsets to where the same bytes follow. -/
theorem Shares.map_eq (h : Shares old new front back) (hnew : new.length ≤ Offset.max)
    (hoffset : e.offset = front) (hremoved : e.removed = old.length - front - back)
    (hinserted : e.inserted = new.length - front - back) {offset : Nat}
    (hstop : old.length - back ≤ offset) (hend : offset ≤ old.length) :
    ∃ moved, e.map? offset = .ok moved ∧ moved ≤ new.length ∧
      old.bytes.toList.drop offset = new.bytes.toList.drop moved := by
  have hold := h.old_le
  have hle := h.new_le
  obtain ⟨k, rfl⟩ := Nat.exists_eq_add_of_le hstop
  have hmoved : old.length - back + k - e.removed + e.inserted = new.length - back + k := by omega
  refine ⟨new.length - back + k, ?_, by omega, ?_⟩
  · rw [map?, Offset.sub_eq_ok (by omega)]
    show Offset.add (old.length - back + k - e.removed) e.inserted = _
    rw [Offset.add_eq_ok (by omega), hmoved]
  · rw [← List.drop_drop, h.drop_eq, List.drop_drop]

/-- **The edit between two texts is a true one and the smallest.** There is none if and only if the
texts are equal. Otherwise the edit turns the one text into the other and changes whole characters
of both; it is called by what it does; no other edit of whole characters changes fewer bytes; and
it maps the offsets behind the changed bytes to where the same bytes follow. -/
theorem between?_smallest (before after : String) (hold : (ofString before).length ≤ Offset.max)
    (hnew : (ofString after).length ≤ Offset.max) :
    (between? (ofString before).bytes (ofString after).bytes = none ↔ before = after) ∧
      ∀ e, between? (ofString before).bytes (ofString after).bytes = some e →
        ∃ oldStop newStop, Smallest (ofString before) (ofString after) e oldStop newStop := by
  refine ⟨between?_eq_none_iff, fun e he => ?_⟩
  obtain ⟨hoffset, hremoved, hinserted, hnamed⟩ := eq_of_between? he
  obtain ⟨hshares, haligned⟩ := shares_shared before after hoffset rfl
  have hmost : ∀ f : Edit, f.Turns (ofString before) (ofString after) →
      isBoundary (ofString before).bytes f.offset = true →
      isBoundary (ofString before).bytes (f.offset + f.removed) = true →
      f.offset + ((ofString before).length - (f.offset + f.removed)) ≤
        e.offset + sharedBack (ofString before) (ofString after) e.offset := by
    intro f hf hstart hstop
    have hfit := hf.1
    rw [hoffset]
    refine hf.shares.add_le (hf.shares.aligned hstart ?_)
    rwa [Nat.sub_sub_self hfit]
  generalize sharedBack (ofString before) (ofString after) e.offset = back at *
  have holdLe := hshares.old_le
  have hnewLe := hshares.new_le
  have holdStop : (ofString before).length - back = e.offset + e.removed := by omega
  have hnewStop : (ofString after).length - back = e.offset + e.inserted := by omega
  refine ⟨(ofString before).length - back, (ofString after).length - back, ?_⟩
  exact {
    oldStop_eq := by rw [holdStop]; exact Offset.add_eq_ok (by omega)
    newStop_eq := by rw [hnewStop]; exact Offset.add_eq_ok (by omega)
    old_le := Nat.sub_le _ _
    new_le := Nat.sub_le _ _
    new_eq := hshares.new_eq
    start_old := haligned.start_old
    start_new := haligned.start_new
    stop_old := haligned.stop_old
    stop_new := haligned.stop_new
    named := hnamed
    least := by
      intro f hf hstart hstop
      have hfit := hf.1
      have hlength := hf.length_eq
      have := hmost f hf hstart hstop
      omega
    map_eq := fun offset => hshares.map_eq hnew rfl hremoved hinserted }

/-- Two letters that share their first byte are replaced as a whole, although it would do to
replace the last byte, and the letters around them are left. -/
theorem between?_smallest_shared_lead :
    between? (ofString "aéé").bytes (ofString "aèé").bytes = some (replacement 1 2 2) ∧
      ∃ oldStop newStop,
        Smallest (ofString "aéé") (ofString "aèé") (replacement 1 2 2) oldStop newStop := by
  have h : between? (ofString "aéé").bytes (ofString "aèé").bytes = some (replacement 1 2 2) := by
    decide
  exact ⟨h, (between?_smallest "aéé" "aèé" (by decide) (by decide)).2 _ h⟩

end Edit

end TemplateColoring

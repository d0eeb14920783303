import Mathlib.Data.Set.Basic
import Mathlib.Order.Bounds.Defs
import TemplateColoring.Proofs.Bytes.Reader
import TemplateColoring.Proofs.Bytes.Search
import TemplateColoring.Proofs.Region.Calls

/-!
# Comments end with their first closer

A search goes on character by character, and no place at which the needle stands is stepped over:
a needle that is a text starts where a character does, and in a text the search looks at all these
places. So a search finds a needle if there is one, and then it goes just behind the first
(`FindsFirst`). The inside of a comment is searched for its closer in this way, so the closer is in
it once at most, at its very end (`Region.EndsWithFirst`).
-/

set_option autoImplicit false

namespace TemplateColoring

open Ascii Bytes Region

/-- The bytes of a needle stand at an offset of a document. -/
def StandsAt (bytes : Array UInt8) (needle : List UInt8) (offset : Nat) : Prop :=
  needle <+: bytes.toList.drop offset

instance (bytes : Array UInt8) (needle : List UInt8) (offset : Nat) :
    Decidable (StandsAt bytes needle offset) :=
  inferInstanceAs (Decidable (_ <+: _))

/-- What a search from an offset comes to: it tells whether the needle stands there or behind, and
it stops behind the first place where it does, or at the end of the document. -/
structure FindsFirst (bytes : Array UInt8) (needle : List UInt8) (start : Nat) (found : Bool)
    (stop : Nat) : Prop where
  found_iff : found = true ↔ ∃ offset, start ≤ offset ∧ StandsAt bytes needle offset
  behind_first : found = true → ∃ offset,
    IsLeast {o | start ≤ o ∧ StandsAt bytes needle o} offset ∧ stop = offset + needle.length
  at_end : found = false → stop = bytes.size

variable {bytes : Array UInt8} {needle : List UInt8} {start stop offset : Nat} {found : Bool}

/-! ## Searches -/

theorem FindsFirst.of_isLeast (h : IsLeast {o | start ≤ o ∧ StandsAt bytes needle o} offset) :
    FindsFirst bytes needle start true (offset + needle.length) where
  found_iff := ⟨fun _ => ⟨offset, h.1⟩, fun _ => rfl⟩
  behind_first _ := ⟨offset, h, rfl⟩
  at_end h := absurd h (by simp)

theorem FindsFirst.of_forall (h : ∀ offset, start ≤ offset → ¬StandsAt bytes needle offset) :
    FindsFirst bytes needle start false bytes.size where
  found_iff := by
    constructor
    · intro h
      exact absurd h (by simp)
    · rintro ⟨offset, hle, hstands⟩
      exact absurd hstands (h offset hle)
  behind_first h := absurd h (by simp)
  at_end _ := rfl

/-- **A search in a text finds the first needle.** -/
theorem findsFirst_through {n : UInt8} (hn : isContinuation n = false) (ns : List UInt8)
    (hstart : start ≤ bytes.size) (hs : Characters (bytes.toList.drop start)) :
    FindsFirst bytes (n :: ns) start (through (n :: ns) (bytes.toList.drop start)).closed
      (start + (through (n :: ns) (bytes.toList.drop start)).length) := by
  -- what the search passes, byte by byte
  have hpassed : ∀ o, start ≤ o → o < start + distanceTo (n :: ns) (bytes.toList.drop start) →
      ¬StandsAt bytes (n :: ns) o := by
    intro o hle hlt
    obtain ⟨j, rfl⟩ := Nat.exists_eq_add_of_le hle
    rw [StandsAt, ← List.drop_drop]
    exact not_prefix_of_lt_distanceTo hn hs (Nat.lt_of_add_lt_add_left hlt)
  have hsize : start + (bytes.toList.drop start).length = bytes.size := by
    rw [List.length_drop, Array.length_toList]
    omega
  rcases through_cases (n :: ns) (bytes.toList.drop start) with ⟨hall, hend⟩ | ⟨hfit, -, hp⟩
  · rw [hall, hsize]
    refine .of_forall fun o hle hstands => ?_
    by_cases hin : o < bytes.size
    · exact hpassed o hle (by omega) hstands
    · -- behind the end there are no bytes
      rw [StandsAt, List.drop_of_length_le (by simpa using hin)] at hstands
      exact absurd (List.prefix_nil.mp hstands) (by simp)
  · rw [hfit, ← Nat.add_assoc]
    apply FindsFirst.of_isLeast
    constructor
    · refine ⟨Nat.le_add_right _ _, ?_⟩
      rw [StandsAt, ← List.drop_drop]
      exact List.isPrefixOf_iff_prefix.mp hp
    · rintro o ⟨hle, hstands⟩
      exact Nat.le_of_not_lt fun hlt => hpassed o hle hlt hstands

/-- A reader between two characters of a text finds the first needle. -/
theorem Reader.findsFirst_stepThrough? {r : Reader} {n : UInt8} {ns : List UInt8}
    (hn : isContinuation n = false) (hw : r.Within)
    (hs : Characters (r.bytes.toList.drop r.position)) :
    ∃ found r', r.stepThrough? (n :: ns) = .ok (found, r') ∧ r'.bytes = r.bytes ∧
      FindsFirst r.bytes (n :: ns) r.position found r'.position := by
  obtain ⟨r', hstep, hr'⟩ := exists_stepThrough? (n :: ns) r
  have hfirst := findsFirst_through hn ns hw hs
  have hle := through_le_length (n :: ns) r.ahead
  rw [hw.stepThrough_eq] at hstep hr'
  rw [← Cursor.ahead_eq_drop] at hfirst
  rw [Cursor.length_ahead] at hle
  refine ⟨_, r', hstep, by rw [hr']; rfl, ?_⟩
  rw [hr', hw.position_advance hle]
  exact hfirst

/-! ## Comments -/

/-- How the comments of a kind are written: what opens them and what closes them. -/
inductive Region.Delimited (d : Dialect) : RegionKind → List UInt8 → List UInt8 → Prop
  | comment {b : Bracket} : b ∈ d.tags.brackets →
      Delimited d .comment [b.openByte, hash, hyphen, hyphen] b.commentClose
  | markupComment : Delimited d .markupComment [less, exclamation, hyphen, hyphen]
      [hyphen, hyphen, greater]

/-- The places in a region, behind its opener, at which a closer stands. -/
def Region.closers (bytes : Array UInt8) (opener closer : List UInt8) (p : Region) : Set Nat :=
  {o | p.start + opener.length ≤ o ∧ o + closer.length ≤ p.stop ∧ StandsAt bytes closer o}

/-- Behind its opener the region contains the closer as its very end and nowhere else; or it does
not contain the closer and goes to the end of the document. -/
def Region.EndsWithFirst (bytes : Array UInt8) (opener closer : List UInt8) (p : Region) : Prop :=
  (∃ o, o + closer.length = p.stop ∧ p.closers bytes opener closer = {o}) ∨
    (p.closers bytes opener closer = ∅ ∧ p.stop = bytes.size)

/-- A region that stops where a search for its closer does ends with the first closer. -/
theorem FindsFirst.endsWithFirst {opener closer : List UInt8} {p : Region}
    (h : FindsFirst bytes closer (p.start + opener.length) found p.stop) :
    p.EndsWithFirst bytes opener closer := by
  cases found with
  | true =>
      obtain ⟨o, ⟨⟨hle, hstands⟩, hleast⟩, hstop⟩ := h.behind_first rfl
      refine .inl ⟨o, hstop.symm, Set.ext fun o' => ?_⟩
      constructor
      · rintro ⟨hle', hfit, hstands'⟩
        -- the place is not in front of the first, and behind it there is no room
        have hge : o ≤ o' := hleast ⟨hle', hstands'⟩
        show o' = o
        omega
      · rintro rfl
        exact ⟨hle, Nat.le_of_eq hstop.symm, hstands⟩
  | false =>
      refine .inr ⟨Set.eq_empty_of_forall_notMem ?_, h.at_end rfl⟩
      rintro o ⟨hle, -, hstands⟩
      exact absurd (h.found_iff.mpr ⟨o, hle, hstands⟩) (by simp)

namespace Region

variable {d : Dialect} {kind : RegionKind} {opener closer : List UInt8}

theorem Delimited.length_opener (h : Delimited d kind opener closer) : opener.length = 4 := by
  cases h <;> rfl

theorem Delimited.isAscii_opener (h : Delimited d kind opener closer) : isAscii opener = true := by
  cases h with
  | @comment b hb => cases b <;> decide
  | markupComment => decide

theorem Delimited.exists_closer (h : Delimited d kind opener closer) :
    ∃ n ns, closer = n :: ns ∧ isContinuation n = false := by
  cases h with
  | comment hb => exact ⟨hyphen, _, rfl, by decide⟩
  | markupComment => exact ⟨hyphen, _, rfl, by decide⟩

/-- A comment is its opener and what is searched through for its closer. -/
theorem exists_delimited {t : List UInt8} {n : Nat} (h : firstBy d.rules d t = ⟨kind, n⟩)
    (hkind : kind = .comment ∨ kind = .markupComment) :
    ∃ opener closer, Delimited d kind opener closer ∧ opener <+: t ∧
      n = opener.length + (through closer (t.drop opener.length)).length := by
  have hne : kind ≠ .plain := by
    rintro rfl
    simp at hkind
  obtain ⟨-, o, ho, hn⟩ := exists_opening_of_firstBy hne h
  rcases hkind with rfl | rfl
  · obtain ⟨-, hlength, hb, hopens⟩ := commentOpening?_eq_some_iff.mp ho
    refine ⟨_, _, .comment hb, List.isPrefixOf_iff_prefix.mp hopens, ?_⟩
    rw [hn, hlength]
    rfl
  · obtain ⟨hopens, rfl⟩ := markupCommentOpening?_eq_some_iff.mp ho
    exact ⟨_, _, .markupComment, List.isPrefixOf_iff_prefix.mp hopens, hn⟩

/-- An opener starts between two characters, wherever a scan of a text started. -/
theorem characters_drop_of_prefix (h : Characters bytes.toList) (hopener : isAscii opener = true)
    (hpos : 0 < opener.length) (hstands : StandsAt bytes opener start) :
    Characters (bytes.toList.drop (start + opener.length)) := by
  obtain ⟨b, rest, rfl⟩ := List.exists_cons_of_length_pos hpos
  obtain ⟨z, hz⟩ := hstands
  have hb : b < 0x80 := by
    rw [isAscii, List.all_cons, Bool.and_eq_true] at hopener
    exact of_decide_eq_true hopener.1
  have hchars : Characters (bytes.toList.drop start) := by
    apply h.drop_of_head
    rw [← hz, List.cons_append, List.head?_cons, Option.any_some]
    exact (ascii_not_continuation b hb).1
  rw [← hz] at hchars
  rw [← List.drop_drop, ← hz, List.drop_left]
  exact hchars.of_ascii_append hopener

/-- The comments of a scan, taken up anywhere in a text, end with their first closers. -/
theorem exists_delimited_of_mem_scan (h : Characters bytes.toList) {p : Region}
    (hp : p ∈ scan d start (bytes.toList.drop start))
    (hkind : p.kind = .comment ∨ p.kind = .markupComment) :
    ∃ opener closer, Delimited d p.kind opener closer ∧ StandsAt bytes opener p.start ∧
      p.EndsWithFirst bytes opener closer := by
  obtain ⟨x, t, hbytes, hx, hfirst, -⟩ := exists_of_mem_scanBy hp
  have ht : bytes.toList.drop p.start = t := by rw [hx, ← List.drop_drop, hbytes, List.drop_left]
  obtain ⟨opener, closer, hdelimited, hopener, hlength⟩ := exists_delimited hfirst hkind
  obtain ⟨n, ns, rfl, hn⟩ := hdelimited.exists_closer
  have hfour := hdelimited.length_opener
  have hfit := hopener.length_le
  rw [← ht] at hopener
  have hinside := characters_drop_of_prefix h hdelimited.isAscii_opener (by omega) hopener
  have hsize : p.start + opener.length ≤ bytes.size := by
    rw [← ht, List.length_drop, bytes.length_toList] at hfit
    omega
  have hfinds := findsFirst_through hn ns hsize hinside
  rw [← List.drop_drop, ht, Nat.add_assoc, ← hlength] at hfinds
  exact ⟨opener, n :: ns, hdelimited, hopener, hfinds.endsWithFirst⟩

end Region

/-! ## The bytes of a text -/

namespace Template

theorem le_size_of_isBoundary (h : isBoundary bytes offset = true) : offset ≤ bytes.size := by
  unfold isBoundary at h
  split at h
  · exact Nat.le_of_eq (eq_of_beq h)
  · next b hb => exact Nat.le_of_lt (Array.getElem?_eq_some_iff.mp hb).1

/-- The first byte of a text continues no character. -/
theorem exists_leading {text : String} (h : text ≠ "") :
    ∃ n ns, (ofString text).bytes.toList = n :: ns ∧ isContinuation n = false := by
  have hchars : Characters (ofString text).bytes.toList := characters_toUTF8 text
  cases hbytes : (ofString text).bytes.toList with
  | nil =>
      have hnil : text.toByteArray = "".toByteArray := ByteArray.ext (Array.toList_inj.mp hbytes)
      exact absurd (String.toByteArray_inj.mp hnil) h
  | cons n ns =>
      have hhead := hchars.head_not_continuation
      rw [hbytes] at hhead
      exact ⟨n, ns, rfl, by simpa using hhead⟩

/-- **Comments end with their first closers.** Searched from between two characters of a text, a
needle that is a text is found if it stands there or behind, and then the reader is left behind the
first place where it does; or else it is left at the end. So a comment that a scan finds, be it the
scan of the whole text or one that is taken up somewhere, contains its closer behind its opener as
its very end only, or it does not contain it and goes to the end of the text. -/
theorem comments_end_with_first_closer (s : String) :
    (∀ (r : Reader) (needle : String), r.bytes = (ofString s).bytes →
      isBoundary r.bytes r.position = true → needle ≠ "" →
      ∃ found r', r.stepThrough? (ofString needle).bytes.toList = .ok (found, r') ∧
        r'.bytes = r.bytes ∧
        FindsFirst r.bytes (ofString needle).bytes.toList r.position found r'.position) ∧
    ∀ (d : Dialect) (p : Region),
      (p ∈ (ofString s).regions d ∨ ∃ restart, p ∈ (ofString s).regionsFrom d restart) →
      p.kind = .comment ∨ p.kind = .markupComment →
      ∃ opener closer, Delimited d p.kind opener closer ∧
        StandsAt (ofString s).bytes opener p.start ∧
        p.EndsWithFirst (ofString s).bytes opener closer := by
  have hchars : Characters (ofString s).bytes.toList := characters_toUTF8 s
  constructor
  · intro r needle hbytes hboundary hneedle
    obtain ⟨n, ns, hns, hn⟩ := exists_leading hneedle
    have hw := le_size_of_isBoundary hboundary
    rw [← hbytes] at hchars
    rw [hns]
    exact r.findsFirst_stepThrough? hn hw (hchars.drop_of_isBoundary hw hboundary)
  · rintro d p (hp | ⟨restart, hp⟩) hkind
    · rw [regions_eq_scan] at hp
      exact exists_delimited_of_mem_scan hchars hp hkind
    · rw [regionsFrom_eq_scan] at hp
      exact exists_delimited_of_mem_scan hchars hp hkind

/-- The closer stands at the end of a row of hyphens, behind an opener that ends in hyphens too, and
once more behind the comment. -/
theorem comments_end_with_first_closer_hyphens :
    (∃ r', (Reader.ofOffset (ofString "é<#--a--->-->").bytes (by decide) 2).stepThrough?
        (ofString "-->").bytes.toList = .ok (true, r') ∧ r'.position = 11) ∧
      ∃ p ∈ (ofString "é<#--a--->-->").regions {}, p = ⟨.comment, 2, 9⟩ ∧
        p.closers (ofString "é<#--a--->-->").bytes [less, hash, hyphen, hyphen]
          [hyphen, hyphen, greater] = {8} := by
  obtain ⟨hsearch, hcomments⟩ := comments_end_with_first_closer "é<#--a--->-->"
  constructor
  · obtain ⟨found, r', hstep, -, hfinds⟩ := hsearch
      (Reader.ofOffset (ofString "é<#--a--->-->").bytes (by decide) 2) "-->" rfl (by decide)
      (by decide)
    obtain rfl : found = true := hfinds.found_iff.mpr ⟨8, by decide, by decide⟩
    obtain ⟨o, hleast, hstop⟩ := hfinds.behind_first rfl
    have hnone : ∀ o < 8, 2 ≤ o → ¬StandsAt (ofString "é<#--a--->-->").bytes
        (ofString "-->").bytes.toList o := by decide
    have hle : o ≤ 8 := hleast.2 ⟨by decide, by decide⟩
    have hge : ¬o < 8 := fun hlt => hnone o hlt hleast.1.1 hleast.1.2
    obtain rfl : o = 8 := by omega
    exact ⟨r', hstep, hstop⟩
  · have hregions : (ofString "é<#--a--->-->").regions {} =
        [⟨.plain, 0, 2⟩, ⟨.comment, 2, 9⟩, ⟨.plain, 11, 3⟩] := by
      rw [regions_eq_scan]
      decide
    have hmem : (⟨.comment, 2, 9⟩ : Region) ∈ (ofString "é<#--a--->-->").regions {} := by
      rw [hregions]
      simp
    obtain ⟨opener, closer, hdelimited, hopener, hends⟩ := hcomments {} _ (.inl hmem) (.inl rfl)
    refine ⟨_, hmem, rfl, ?_⟩
    cases hdelimited with
    | @comment b hb =>
        cases b with
        | square => exact absurd hopener (by decide)
        | angle =>
            rcases hends with ⟨o, hstop, hclosers⟩ | ⟨-, hend⟩
            · obtain rfl : o = 8 := Nat.add_right_cancel hstop
              exact hclosers
            · exact absurd hend (by decide)

end Template

end TemplateColoring

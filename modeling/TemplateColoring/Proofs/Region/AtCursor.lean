import TemplateColoring.Proofs.Region.Lookahead
import TemplateColoring.Region.AtCursor

/-!
# Rules at a cursor

A rule asked at a cursor answers for what is ahead of it, in offsets of the document.
-/

set_option autoImplicit false

namespace TemplateColoring

/-- What is ahead of an offset of a document. -/
theorem toList_extract_size (bytes : Array UInt8) (start : Nat) :
    (bytes.extract start bytes.size).toList = bytes.toList.drop start := by
  have hall : (bytes.toList.drop start).length ≤ bytes.size - start := by simp
  rw [Array.toList_extract, List.extract_eq_take_drop, List.take_of_length_le hall]

/-- As many bytes as there are from an offset on, and no more than `n`. -/
theorem toList_extract_add (bytes : Array UInt8) (start n : Nat) :
    (bytes.extract start (start + n)).toList = (bytes.toList.drop start).take n := by
  rw [Array.toList_extract, List.extract_eq_take_drop, Nat.add_sub_cancel_left]

/-- The part `y` of a document. -/
theorem toList_extract_of_parts {bytes : Array UInt8} {x y z : List UInt8}
    (h : bytes.toList = x ++ (y ++ z)) :
    (bytes.extract x.length (x.length + y.length)).toList = y := by
  rw [toList_extract_add, h, List.drop_left, List.take_left]

namespace Cursor

open Region

variable {bytes : Array UInt8} {offset : Nat}

theorem position_ofOffset (h : offset ≤ bytes.size) : (ofOffset bytes offset).position = offset :=
  Nat.min_eq_left h

theorem ahead_ofOffset (h : offset ≤ bytes.size) :
    (ofOffset bytes offset).ahead = bytes.toList.drop offset := by
  rw [ahead, position_ofOffset h]
  exact toList_extract_size bytes offset

theorem opener?_eq_some_iff {d : Dialect} {kind : RegionKind} {o : Opener}
    (h : offset ≤ bytes.size) : (ofOffset bytes offset).opener? d kind = some o ↔
      o.start = offset ∧ openingOf? d kind (bytes.toList.drop offset) = some o.toOpening := by
  rw [opener?, ahead_ofOffset h, position_ofOffset h, Option.map_eq_some_iff]
  constructor
  · rintro ⟨o', ho', rfl⟩
    exact ⟨rfl, ho'⟩
  · rintro ⟨rfl, ho⟩
    exact ⟨o.toOpening, ho, rfl⟩

theorem opener?_eq_none_iff {d : Dialect} {kind : RegionKind} (h : offset ≤ bytes.size) :
    (ofOffset bytes offset).opener? d kind = none ↔
      openingOf? d kind (bytes.toList.drop offset) = none := by
  rw [opener?, ahead_ofOffset h, Option.map_eq_none_iff]

/-- The end that a rule finds lies as far behind the cursor as it says. -/
theorem close_ofOffset (d : Dialect) (kind : RegionKind) (o : Opener) (h : offset ≤ bytes.size) :
    ((ofOffset bytes offset).close d kind o).1 =
      ⟨offset + (closingOf d kind o.toOpening (bytes.toList.drop offset)).length,
        (closingOf d kind o.toOpening (bytes.toList.drop offset)).closed⟩ := by
  have hle := closingOf_le d kind o.toOpening (bytes.toList.drop offset)
  rw [List.length_drop, Array.length_toList] at hle
  simp only [close, ahead_ofOffset h, advance, moveTo, position_ofOffset h]
  rw [Closing.mk.injEq]
  refine ⟨Nat.min_eq_left ?_, rfl⟩
  show _ ≤ bytes.size
  omega

end Cursor

end TemplateColoring

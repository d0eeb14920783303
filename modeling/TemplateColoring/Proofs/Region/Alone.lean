import TemplateColoring.Proofs.Region.Characters

/-!
# A region alone

The text of a region, taken as a template of its own, is one region of the same kind. With the
text behind the region every rule loses what it could look ahead to, and still answers the same:
where the region is closed, nothing behind its last byte was looked at, and where it is not, it
ended with the text, in front of a tag or where another region opens. None of these is decided by
a byte of the region (`firstBy_cut`).
-/

set_option autoImplicit false

namespace TemplateColoring

open Bytes Region

/-- What is the first region of a text is the only region when it is cut off. -/
theorem Region.scanBy_cut {rules : List RegionKind} {d : Dialect} {kind : RegionKind}
    {x r : List UInt8} (hx : x ≠ []) (h : firstBy rules d (x ++ r) = ⟨kind, x.length⟩)
    (start : Nat) : scanBy rules d start x = [⟨kind, start, x.length⟩] := by
  have halone : firstBy rules d (x ++ []) = ⟨kind, x.length⟩ := by
    rw [List.append_nil]
    exact firstBy_cut h
  calc scanBy rules d start x
      = scanBy rules d start (x ++ []) := by rw [List.append_nil]
    _ = [⟨kind, start, x.length⟩] := by rw [scanBy_of_firstBy hx halone, scanBy_nil]

/-- **Each region stands alone.** The text of a region of a document, as a document of its own, is
divided into this one region, which covers all of it. -/
theorem Template.regions_of_region (d : Dialect) (s : String) {r : Region}
    (hr : r ∈ (ofString s).regions d) :
    ∃ part : String,
      (ofString s).slice? r.start r.stop = some (ofString part).bytes.toList ∧
      (ofString part).regions d = [⟨r.kind, 0, (ofString part).length⟩] := by
  obtain ⟨x, y, z, hbytes, hstart, hlength, hy, hfirst⟩ := exists_parts_of_mem hr
  have hslice := slice?_of_mem hr
  rw [hbytes, hstart, List.drop_left, hlength, List.take_left] at hslice
  obtain ⟨part, hpart⟩ := exists_ofString_of_slice? hslice
  refine ⟨part, by rw [hpart, hstart, hslice], ?_⟩
  have hsize : (ofString part).length = y.length := by
    rw [← hpart, Array.length_toList]
    rfl
  rw [regions_eq_scan, scan, hpart, Region.scanBy_cut hy hfirst, hsize]

/-- A host tag that a directive cuts short inside the value of an attribute is a host tag without
the directive too. -/
theorem Template.regions_of_region_cut_short : ∃ part : String,
    (ofString "<a b='<#if x>'>").slice? 0 6 = some (ofString part).bytes.toList ∧
      (ofString part).regions {} = [⟨.markupTag, 0, (ofString part).length⟩] := by
  have hmem : (⟨.markupTag, 0, 6⟩ : Region) ∈ (ofString "<a b='<#if x>'>").regions {} := by
    rw [regions_eq_scan]
    decide
  exact Template.regions_of_region {} "<a b='<#if x>'>" hmem

end TemplateColoring

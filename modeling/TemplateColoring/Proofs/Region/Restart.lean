import TemplateColoring.Proofs.Region.Calls
import TemplateColoring.Proofs.Region.Map
import TemplateColoring.Proofs.Span.Search

/-!
# A scan that is taken up goes on as before

A restart that is derived from the regions of a document names the place where one of them starts,
or the end of the document. A scan carries nothing over from one region to the next, so what is
found from there on is the rest of what a scan of the whole document finds
(`Template.regionsFrom_derive`). Which kind of region a restart expects makes no difference.
-/

set_option autoImplicit false

namespace TemplateColoring

open Region TemplateColoring.Span

/-- A restart derived from regions that tile a document lies where they can be cut: in front of it
are those that stop at the offset or before. -/
theorem Restart.exists_derive {regions : List Region} {n : Nat} (h : Tiles 0 regions n)
    (hn : n ≤ Offset.max) (offset : Nat) :
    ∃ r, Restart.derive regions.toArray offset = .ok r ∧
      Tiles 0 (regions.takeWhile (·.stop ≤ offset)) r.point ∧
      Tiles r.point (regions.dropWhile (·.stop ≤ offset)) n := by
  obtain ⟨m, hfront, hback⟩ := h.exists_cut (·.stop ≤ offset)
  have hcount := h.countBefore_stop hn offset
  simp only [Restart.derive, hcount, bind, Except.bind, List.getElem?_toArray,
    getElem?_length_takeWhile]
  cases hdrop : regions.dropWhile (·.stop ≤ offset) with
  | cons p rest =>
      -- the offset lies in `p`, or in front of all regions
      rw [hdrop] at hback
      have hp := hback.head_start
      simp only [List.head?_cons]
      by_cases hplain : p.kind.isPlain = true
      · rw [if_pos hplain]
        refine ⟨_, rfl, ?_, ?_⟩ <;> simpa [Restart.point, Restart.outside, hp]
      · rw [if_neg hplain]
        refine ⟨_, rfl, ?_, ?_⟩ <;> simpa [Restart.point, hp]
  | nil =>
      -- the offset lies behind all regions
      rw [hdrop] at hback
      have hend : m = n := hback
      have hlast := h.getLast_stop
      subst hend
      simp only [List.head?_nil, List.back?_toArray]
      cases hregions : regions.getLast? with
      | none =>
          rw [hregions] at hlast
          have hempty : 0 = m := hlast
          subst hempty
          exact ⟨_, rfl, hfront, rfl⟩
      | some p =>
          rw [hregions] at hlast
          have hstop : p.stop = m := hlast
          simp only [h.stop?_eq hn (List.mem_of_getLast? hregions), Except.map, hstop]
          exact ⟨_, rfl, hfront, rfl⟩

namespace Template

/-- From a place where the regions of a document can be cut a scan gives those behind the cut. -/
theorem regionsFrom_of_tiles {t : Template} {d : Dialect} {r : Restart} {front back : List Region}
    (h : t.regions d = front ++ back) (hfront : Tiles 0 front r.point) :
    t.regionsFrom d r = back := by
  have hscan := h
  rw [regions_eq_scan] at hscan
  obtain ⟨x, ahead, hbytes, htiles, hback⟩ := scanBy_eq_append hscan
  rw [Nat.zero_add] at htiles hback
  have hx : x.length = r.point := htiles.stop_unique hfront
  have hsize : t.length = x.length + ahead.length := Bytes.size_eq_add hbytes
  have hpoint : t.restartPoint r = x.length := by
    rw [restartPoint, ← hx, hsize]
    exact Nat.min_eq_left (Nat.le_add_right _ _)
  rw [regionsFrom_eq_scan, hpoint, hbytes, List.drop_left, hback]
  rfl

/-- The kind of region that a restart expects does not matter. -/
theorem regionsFrom_of_point_eq (t : Template) (d : Dialect) {r r' : Restart}
    (h : r.point = r'.point) : t.regionsFrom d r = t.regionsFrom d r' := by
  rw [regionsFrom_eq_scan, regionsFrom_eq_scan, restartPoint, restartPoint, h]

/-- **A scan that is taken up gives the rest of the full scan.** For every offset the regions of a
document yield a restart, and from there on a scan finds just those of the regions that start at
the restart or behind it. The first of them is the one in which the offset lies; there is none for
an offset behind the end. Whatever a restart says of the region in which it lies, the scan is the
same as from the start of that region. -/
theorem regionsFrom_derive (t : Template) (d : Dialect) (ht : t.length ≤ Offset.max)
    (offset : Nat) :
    (∃ r, Restart.derive (t.regions d).toArray offset = .ok r ∧
      t.regionsFrom d r = (t.regions d).filter (r.point ≤ ·.start) ∧
      (offset < t.length → ∃ p, (t.regionsFrom d r).head? = some p ∧ p.start ≤ offset ∧
        offset < p.stop) ∧
      (t.length ≤ offset → t.regionsFrom d r = [])) ∧
    ∀ kind start, t.regionsFrom d ⟨offset, some (kind, start)⟩ =
      t.regionsFrom d (.outside start) := by
  constructor
  · have htiles := RegionMap.tiles_regions d t
    obtain ⟨r, hderive, hfront, hback⟩ := Restart.exists_derive htiles ht offset
    have hcut : t.regions d = (t.regions d).takeWhile (·.stop ≤ offset) ++
        (t.regions d).dropWhile (·.stop ≤ offset) := (List.takeWhile_append_dropWhile).symm
    have hfrom := regionsFrom_of_tiles hcut hfront
    refine ⟨r, hderive, ?_, ?_, ?_⟩
    · calc t.regionsFrom d r
          = (t.regions d).dropWhile (·.stop ≤ offset) := hfrom
        _ = ((t.regions d).takeWhile (·.stop ≤ offset) ++
              (t.regions d).dropWhile (·.stop ≤ offset)).filter (r.point ≤ ·.start) :=
            (hfront.filter_start hback).symm
        _ = (t.regions d).filter (r.point ≤ ·.start) := by rw [← hcut]
    · intro hoffset
      obtain ⟨p, hhead, -, hstart, hstop⟩ := htiles.exists_of_lt_stop (Nat.zero_le _) hoffset
      rw [hfrom]
      exact ⟨p, hhead, hstart, hstop⟩
    · intro hoffset
      rw [hfrom]
      exact htiles.dropWhile_stop_eq_nil hoffset
  · intro kind start
    exact regionsFrom_of_point_eq t d rfl

/-- The offset lies in a directive, behind plain text with a letter of two bytes. -/
theorem regionsFrom_derive_directive :
    Restart.derive ((ofString "é<#if x>b").regions {}).toArray 6 =
        .ok ⟨6, some (.directiveStart, 2)⟩ ∧
      (ofString "é<#if x>b").regionsFrom {} ⟨6, some (.directiveStart, 2)⟩ =
        [⟨.directiveStart, 2, 7⟩, ⟨.plain, 9, 1⟩] ∧
      (ofString "é<#if x>b").regionsFrom {} ⟨6, some (.comment, 2)⟩ =
        (ofString "é<#if x>b").regionsFrom {} (.outside 2) := by
  obtain ⟨⟨r, hderive, hfrom, -⟩, hkind⟩ :=
    regionsFrom_derive (ofString "é<#if x>b") {} (by decide) 6
  have hregions : (ofString "é<#if x>b").regions {} =
      [⟨.plain, 0, 2⟩, ⟨.directiveStart, 2, 7⟩, ⟨.plain, 9, 1⟩] := by
    rw [regions_eq_scan]
    decide
  have hpoint : Restart.derive ((ofString "é<#if x>b").regions {}).toArray 6 =
      .ok ⟨6, some (.directiveStart, 2)⟩ := by
    rw [hregions]
    simp [Restart.derive, countBefore, narrow, stop?, Offset.add, Offset.max, bind, Except.bind,
      Except.map, RegionKind.isPlain]
  obtain rfl := Except.ok.inj (hderive.symm.trans hpoint)
  rw [hregions] at hfrom
  exact ⟨hpoint, hfrom, hkind .comment 2⟩

end Template

end TemplateColoring

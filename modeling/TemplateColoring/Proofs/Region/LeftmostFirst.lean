import TemplateColoring.Proofs.Region.AtCursor
import TemplateColoring.Proofs.Region.Characters

/-!
# Regions are found leftmost first

`LeftmostFirst` says what a division of a document into regions should be without saying how it is
found: the regions tile the document, plain text never stands next to plain text, no rule finds an
opener inside plain text, and every other region starts with an opener of its kind and ends where
the rule of the kind ends it. In a text exactly one division is like this, the one that a scanner
gives out (`Template.leftmostFirst_iff`).
-/

set_option autoImplicit false

namespace TemplateColoring

open Bytes Region TemplateColoring.Span

namespace Region

/-- No rule of the dialect finds an opener between two characters of the region. -/
def Unopened (d : Dialect) (bytes : Array UInt8) (r : Region) : Prop :=
  ∀ offset, r.start ≤ offset → offset < r.stop → Template.isBoundary bytes offset = true →
    ∀ kind ∈ d.rules, (Cursor.ofOffset bytes offset).opener? d kind = none

/-- The region starts with an opener of its kind, and from behind the opener the rule of the kind
finds its end. -/
def Opened (d : Dialect) (bytes : Array UInt8) (r : Region) : Prop :=
  r.kind ∈ d.rules ∧ ∃ o, (Cursor.ofOffset bytes r.start).opener? d r.kind = some o ∧
    ((Cursor.ofOffset bytes (o.start + o.length)).close d r.kind o).1.stop = r.stop

end Region

/-- A division of a document, found leftmost first by the rules of a dialect. -/
structure LeftmostFirst (d : Dialect) (bytes : Array UInt8) (regions : List Region) : Prop where
  tiles : Tiles 0 regions bytes.size
  separated : Separated regions
  noneMissed : ∀ r ∈ regions, r.kind = .plain → Unopened d bytes r
  noneInvented : ∀ r ∈ regions, r.kind ≠ .plain → Opened d bytes r

namespace LeftmostFirst

variable {d : Dialect}

/-! ## The scan is leftmost first -/

theorem of_scan {bytes : Array UInt8} (h : Characters bytes.toList) :
    LeftmostFirst d bytes (scan d 0 bytes.toList) where
  tiles := by
    have htiles := tiles_scanBy d.rules d 0 bytes.toList
    rwa [Nat.zero_add, Array.length_toList] at htiles
  separated := separated_scanBy (plain_not_mem_rules d) 0 _
  noneMissed := by
    intro r hr hplain offset hstart hstop _ kind hkind
    obtain ⟨x, t, hbytes, hx, hfirst, hchars⟩ := exists_of_mem_scanBy hr
    rw [hplain, firstBy_eq_plain_iff (plain_not_mem_rules d)] at hfirst
    have hsize := size_eq_add hbytes
    have hle := walk_le_length (plainStep d.rules d) t
    obtain ⟨n, rfl⟩ := Nat.exists_eq_add_of_le hstart
    rw [stop, ← hfirst.2, Nat.add_lt_add_iff_left] at hstop
    have hnone := openingBy?_of_lt_walk (hchars h) hstop
    rw [Cursor.opener?_eq_none_iff (by omega), hx, hbytes, Nat.zero_add,
      List.drop_length_add_append]
    exact openingBy?_eq_none_iff.mp hnone kind hkind
  noneInvented := by
    intro r hr hne
    obtain ⟨x, t, hbytes, hx, hfirst, -⟩ := exists_of_mem_scanBy hr
    obtain ⟨hmem, o, ho, hlen⟩ := exists_opening_of_firstBy hne hfirst
    rw [Nat.zero_add] at hx
    have hsize := size_eq_add hbytes
    have hobounds := (openingOf?_bounds ho).2
    have ht : bytes.toList.drop r.start = t := by rw [hx, hbytes, List.drop_left]
    refine ⟨hmem, { o with start := r.start }, ?_, ?_⟩
    · rw [Cursor.opener?_eq_some_iff (by omega), ht]
      exact ⟨rfl, ho⟩
    · rw [Cursor.close_ofOffset d r.kind _ (by show r.start + o.length ≤ _; omega)]
      show r.start + o.length + (closingOf d r.kind o
        (bytes.toList.drop (r.start + o.length))).length = r.start + r.length
      rw [← List.drop_drop, ht, hlen, Nat.add_assoc]

/-! ## Nothing else is leftmost first -/

variable {bytes : Array UInt8} {x t : List UInt8} {p : Region}

/-- What is opened by its rule is the first region of what is ahead. -/
theorem firstBy_of_opened (hbytes : bytes.toList = x ++ t) (hstart : p.start = x.length)
    (h : Opened d bytes p) : firstBy d.rules d t = ⟨p.kind, p.length⟩ := by
  obtain ⟨hmem, o, ho, hclose⟩ := h
  have hsize := size_eq_add hbytes
  have ht : bytes.toList.drop p.start = t := by rw [hstart, hbytes, List.drop_left]
  rw [Cursor.opener?_eq_some_iff (by omega), ht] at ho
  obtain ⟨hostart, hof⟩ := ho
  have hkind := openingOf?_kind hof
  have hle := (openingOf?_bounds hof).2
  rw [Cursor.close_ofOffset d p.kind o (by omega), hostart, ← List.drop_drop, ht] at hclose
  rw [← hkind] at hmem hof
  rw [firstBy_eq_of_openingOf? hmem hof, hkind, Run.mk.injEq]
  refine ⟨rfl, ?_⟩
  simp only [stop] at hclose
  omega

/-- Where plain text misses no opening and ends for a reason, it is the first region of what is
ahead. -/
theorem firstBy_of_unopened (hbytes : bytes.toList = x ++ t) (ht : Characters t)
    (hstart : p.start = x.length) (hpos : 0 < p.length) (hle : p.stop ≤ bytes.size)
    (h : Unopened d bytes p)
    (hend : p.stop = bytes.size ∨ openingBy? d.rules d (t.drop p.length) ≠ none) :
    firstBy d.rules d t = ⟨.plain, p.length⟩ := by
  have hsize := size_eq_add hbytes
  rw [stop] at hle hend
  -- inside the plain text nothing opens in front of a character
  have hnone (n : Nat) (hn : n < p.length) (hchars : Characters (t.drop n)) :
      openingBy? d.rules d (t.drop n) = none := by
    have hdrop : bytes.toList.drop (p.start + n) = t.drop n := by
      rw [hstart, hbytes, List.drop_length_add_append]
    have hboundary : Template.isBoundary bytes (p.start + n) = true :=
      Characters.isBoundary (by omega) (by rwa [hdrop])
    refine openingBy?_eq_none_iff.mpr fun kind hkind => ?_
    have hno := h (p.start + n) (by omega) (by rw [stop]; omega) hboundary kind hkind
    rwa [Cursor.opener?_eq_none_iff (by omega), hdrop] at hno
  rw [firstBy_eq_plain_iff (plain_not_mem_rules d)]
  refine ⟨hnone 0 hpos ht, ?_⟩
  have hwalk := walk_le_length (plainStep d.rules d) t
  rcases Nat.lt_trichotomy (walk (plainStep d.rules d) t) p.length with hlt | heq | hgt
  · -- the walk stops only where something opens or the text ends
    have hno := hnone _ hlt (characters_drop_walk_plainStep d.rules d ht)
    rcases step_drop_walk (bounded_plainStep d.rules d) t with hnil | hstop
    · have := List.drop_eq_nil_iff.mp hnil
      omega
    · exact absurd hno (plainStep_eq_none_iff.mp hstop)
  · exact heq
  · -- the walk would pass the place where the plain text ends
    rcases hend with hall | hopens
    · omega
    · exact absurd (openingBy?_of_lt_walk ht hgt) hopens

theorem openingBy?_of_opened (hbytes : bytes.toList = x ++ t) (hstart : p.start = x.length)
    (h : Opened d bytes p) : openingBy? d.rules d t ≠ none := by
  obtain ⟨hmem, o, ho, -⟩ := h
  have hsize := size_eq_add hbytes
  rw [Cursor.opener?_eq_some_iff (by omega), hstart, hbytes, List.drop_left] at ho
  intro hnone
  rw [openingBy?_eq_none_iff.mp hnone p.kind hmem] at ho
  exact absurd ho.2 (by simp)

/-- From any place on, a division that is leftmost first is the scan from there. -/
theorem eq_scan_of_tiles {regions : List Region} (hbytes : bytes.toList = x ++ t)
    (ht : Characters t) (tiles : Tiles x.length regions bytes.size) (separated : Separated regions)
    (noneMissed : ∀ r ∈ regions, r.kind = .plain → Unopened d bytes r)
    (noneInvented : ∀ r ∈ regions, r.kind ≠ .plain → Opened d bytes r) :
    regions = scan d x.length t := by
  -- on the regions, with `x` the text of those that are done
  induction regions generalizing x t with
  | nil =>
      have hsize := size_eq_add hbytes
      have hlen : x.length = bytes.size := tiles
      rw [List.eq_nil_of_length_eq_zero (l := t) (by omega)]
      rfl
  | cons p back ih =>
      obtain ⟨hstart, hpos, hback⟩ := tiles
      have hsize := size_eq_add hbytes
      have hle : p.stop ≤ bytes.size := hback.le
      -- `y` is the text of `p`, and `z` is what follows
      obtain ⟨y, z, rfl, hy⟩ : ∃ y z, t = y ++ z ∧ y.length = p.length :=
        exists_cut (by rw [stop] at hle; omega)
      have hbytes' : bytes.toList = (x ++ y) ++ z := by rw [hbytes, List.append_assoc]
      have hstop : p.stop = (x ++ y).length := by rw [stop, hstart, List.length_append, hy]
      have hfirst : firstBy d.rules d (y ++ z) = ⟨p.kind, y.length⟩ := by
        rw [hy]
        by_cases hkind : p.kind = .plain
        · rw [hkind]
          refine firstBy_of_unopened hbytes ht hstart hpos hle
            (noneMissed p List.mem_cons_self hkind) ?_
          -- plain text ends with the document, or the region behind it is not plain text and opens
          cases back with
          | nil => exact .inl hback
          | cons q rest =>
              have hq : q.kind ≠ .plain := fun hq => separated.1 ⟨hkind, hq⟩
              right
              rw [← hy, List.drop_left]
              exact openingBy?_of_opened hbytes' (hback.head_start.trans hstop)
                (noneInvented q (by simp) hq)
        · exact firstBy_of_opened hbytes hstart (noneInvented p List.mem_cons_self hkind)
      have hz : Characters z := by
        have hdrop := characters_drop_firstBy d.rules d ht
        rwa [hfirst, List.drop_left] at hdrop
      have hrest : back = scan d (x ++ y).length z :=
        ih hbytes' hz (hstop ▸ hback) (separated_cons.mp separated).2
          (fun r hr => noneMissed r (List.mem_cons_of_mem p hr))
          (fun r hr => noneInvented r (List.mem_cons_of_mem p hr))
      have hy' : y ≠ [] := List.ne_nil_of_length_pos (hy ▸ hpos)
      rw [scan, scanBy_of_firstBy hy' hfirst, ← List.length_append, hy, ← hstart]
      exact congrArg (p :: ·) hrest

theorem eq_scan {regions : List Region} (hchars : Characters bytes.toList)
    (h : LeftmostFirst d bytes regions) : regions = scan d 0 bytes.toList :=
  eq_scan_of_tiles (x := []) rfl hchars h.tiles h.separated h.noneMissed h.noneInvented

end LeftmostFirst

/-- **A text has one division that is leftmost first, the one that a scanner gives out.** -/
theorem Template.leftmostFirst_iff (d : Dialect) (s : String) (regions : List Region) :
    LeftmostFirst d (Template.ofString s).bytes regions ↔
      regions = (Template.ofString s).regions d := by
  have hchars : Characters (Template.ofString s).bytes.toList := characters_toUTF8 s
  rw [Template.regions_eq_scan]
  constructor
  · exact LeftmostFirst.eq_scan hchars
  · rintro rfl
    exact LeftmostFirst.of_scan hchars

end TemplateColoring

import TemplateColoring.Proofs.Region.Calls
import TemplateColoring.Proofs.Region.Map
import TemplateColoring.Proofs.Span.Search
import TemplateColoring.Region.Revision

/-!
# Revising regions by any report of an edit

An edit may be reported wrongly: at another offset, or of other bytes than those that changed. As
long as its lengths fit the two documents, the old regions in front of it are kept in their places
and some of those behind it are moved, whatever the documents hold. Still the regions lie end to
end: the scan restarts where an old region starts, no later than the reported edit, and what is kept
behind it starts, moved, where the last new region stops (`RegionMap.tiles_splice`). No number gets
too large on the way but the number of open brackets, so that `RegionMap.revise?` finds what
`RegionMap.update` says or fails for them (`RegionMap.revise?_agrees`).
-/

set_option autoImplicit false

namespace TemplateColoring

open Region TemplateColoring.Span

/-! ## Signed distances -/

namespace Offset

theorem le_max_of_le_maxDistance {a : Nat} (h : (a : Int) ≤ maxDistance) : a ≤ max := by
  simp only [maxDistance] at h
  simp only [max]
  omega

theorem signed_eq {a : Nat} (h : (a : Int) ≤ maxDistance) : signed a = a := by
  simp only [maxDistance] at h
  apply Int.bmod_eq_of_le <;> simp only [max] <;> omega

theorem distance_eq {a b : Nat} (ha : (a : Int) ≤ maxDistance) (hb : (b : Int) ≤ maxDistance) :
    distance a b = .ok (b - a) := by
  rw [distance, signed_eq ha, signed_eq hb]
  simp only [maxDistance] at ha hb ⊢
  apply if_pos
  omega

theorem shift?_eq {a b : Nat} {distance : Int} (h : (a : Int) + distance = b) (hb : b ≤ max) :
    shift? a distance = some b := by
  simp only [shift?, h]
  rw [if_pos (by omega)]
  rfl

end Offset

/-! ## Taking in the new regions -/

/-- The regions up to the first that ends at a settled offset. -/
def Region.takeUntil (settled : Nat → Bool) : List Region → List Region
  | [] => []
  | r :: rest => r :: if settled r.stop then [] else takeUntil settled rest

/-- A scan that stops at a settled offset takes the regions of the scan up to there. -/
theorem Region.scanUntil_eq_takeUntil (settled : Nat → Bool) (d : Dialect) (start : Nat)
    (s : List UInt8) : scanUntil settled d start s = takeUntil settled (scan d start s) := by
  induction s using scan_induction d.rules d generalizing start with
  | nil => rfl
  | region kind x r hx hfirst ih =>
    have hscan : scan d start (x ++ r) =
        ⟨kind, start, x.length⟩ :: scan d (start + x.length) r := scanBy_of_firstBy hx hfirst start
    have huntil : scanUntil settled d start (x ++ r) = ⟨kind, start, x.length⟩ ::
        if settled (start + x.length) then [] else scanUntil settled d (start + x.length) r :=
      cut_of_firstBy hx hfirst settled start
    rw [huntil, hscan, ih]
    rfl

/-- Takes in new regions like `resync?`, from a list of them. -/
def Edit.resync (e : Edit) :
    List Region → List Region → Except Offset.Fault (List Region × List Region)
  | _, [] => .ok ([], [])
  | old, r :: rest => do
    let stop ← r.stop?
    if stop < (← e.newStop?) then (e.resync old rest).map fun (found, kept) => (r :: found, kept)
    else
      let oldStop ← Offset.add (← Offset.sub stop e.inserted) e.removed
      let old := old.dropWhile (·.start < oldStop)
      if old.head?.any (·.start == oldStop) then
        let growth ← e.growth?
        return ([r], old.filterMap (·.shift? growth))
      else (e.resync old rest).map fun (found, kept) => (r :: found, kept)

/-- **A sweep is asked for the regions of its scanner**, one after the other. -/
theorem Sweep.Sound.resync?_agrees {d : Dialect} {s : Sweep} (hs : s.Sound d.rules d) (e : Edit)
    (old : List Region) : Lexer.Agrees s.cursor.limit (e.resync? d old s)
      (e.resync old (s.scanner.collect d.rules d)) := by
  induction hrank : s.rank using Nat.strongRecOn generalizing s old with
  | _ n ih =>
      subst hrank
      rw [Edit.resync?, Scanner.collect_eq]
      split
      · next fault hnext =>
        obtain ⟨rfl, hlt⟩ := hs.fault_of_next? hnext
        exact .tooLarge hlt
      · next s' hnext =>
        rw [(hs.of_next? hnext).2.2]
        exact .refl _ _
      · next r s' hnext =>
        obtain ⟨hs', hlimit, hscanner⟩ := hs.of_next? hnext
        have hrest (old : List Region) := (ih _ (rank_lt_of_next? hnext) hs' old rfl).map
          fun (found, kept) => (r :: found, kept)
        rw [hlimit] at hrest
        rw [hscanner]
        refine Lexer.Agrees.bind (.refl _ r.stop?) fun stop _ => ?_
        refine Lexer.Agrees.bind (.refl _ e.newStop?) fun newStop _ => ?_
        split
        · exact hrest old
        · refine Lexer.Agrees.bind (.refl _ _) fun x _ => ?_
          refine Lexer.Agrees.bind (.refl _ _) fun oldStop _ => ?_
          dsimp only
          split
          · exact .refl _ _
          · exact hrest _

theorem filterMap_eq_map_of_forall {α β : Type} {f : α → Option β} {g : α → β} {l : List α}
    (h : ∀ a ∈ l, f a = some (g a)) : l.filterMap f = l.map g := by
  induction l with
  | nil => rfl
  | cons a l ih =>
    rw [List.filterMap_cons_some (h a List.mem_cons_self), List.map_cons,
      ih fun b hb => h b (List.mem_cons_of_mem a hb)]

namespace Edit

variable {e : Edit} {old : List Region} {n b : Nat}

/-- Where the byte at an offset of the new document, behind the edit, stood in the old one. -/
def oldOffset (e : Edit) (stop : Nat) : Nat := stop - e.inserted + e.removed

/-- Whether behind the edit an old region starts at an offset of the new document. -/
def settles (e : Edit) (old : List Region) (stop : Nat) : Bool :=
  e.offset + e.inserted ≤ stop && old.any (·.start == e.oldOffset stop)

/-- What is kept of the old regions behind those that were found anew. -/
def kept (e : Edit) (old found : List Region) : List Region :=
  match found.getLast? with
  | some r =>
    if e.settles old r.stop then
      (old.dropWhile (·.start < e.oldOffset r.stop)).map fun p =>
        { p with start := p.start - e.oldOffset r.stop + r.stop }
    else []
  | none => []

/-- The lengths that an edit speaks of are those of documents of `n` and `b` bytes. -/
structure Fits (e : Edit) (n b : Nat) : Prop where
  oldStop_le : e.offset + e.removed ≤ n
  length : n - e.removed + e.inserted = b

namespace Fits

theorem newStop?_eq (h : e.Fits n b) (hb : b ≤ Offset.max) :
    e.newStop? = .ok (e.offset + e.inserted) := by
  obtain ⟨hold, hnew⟩ := h
  exact Offset.add_eq_ok (by omega)

theorem growth?_eq (h : e.Fits n b) (hn : (n : Int) ≤ Offset.maxDistance)
    (hb : (b : Int) ≤ Offset.maxDistance) : e.growth? = .ok ((e.inserted : Int) - e.removed) := by
  obtain ⟨hold, hnew⟩ := h
  exact Offset.distance_eq (by omega) (by omega)

/-- Behind the edit every offset of the new document has one in the old. -/
theorem oldOffset_eq (h : e.Fits n b) (hn : n ≤ Offset.max) {stop : Nat}
    (hstop : e.offset + e.inserted ≤ stop) (hle : stop ≤ b) :
    Offset.sub stop e.inserted = .ok (stop - e.inserted) ∧
      Offset.add (stop - e.inserted) e.removed = .ok (e.oldOffset stop) := by
  obtain ⟨hold, hnew⟩ := h
  exact ⟨Offset.sub_eq_ok (by omega), Offset.add_eq_ok (by omega)⟩

/-- Old regions behind the edit are moved to where the new region before them stops. -/
theorem filterMap_shift? (h : e.Fits n b) (hb : b ≤ Offset.max) {stop : Nat} {back : List Region}
    (hstop : e.offset + e.inserted ≤ stop) (hback : Tiles (e.oldOffset stop) back n) :
    back.filterMap (·.shift? ((e.inserted : Int) - e.removed)) =
      back.map fun p => { p with start := p.start - e.oldOffset stop + stop } := by
  apply filterMap_eq_map_of_forall
  intro p hp
  have hbounds := hback.bounds hp
  obtain ⟨hold, hnew⟩ := h
  simp only [oldOffset] at hbounds ⊢
  rw [shift?, Offset.shift?_eq (b := p.start - (stop - e.inserted + e.removed) + stop)
    (by omega) (by omega)]
  rfl

end Fits

/-- A region that is not settled makes no difference to what is kept. -/
theorem kept_cons {r : Region} (h : e.settles old r.stop = false) (found : List Region) :
    e.kept old (r :: found) = e.kept old found := by
  cases found with
  | nil =>
    show (if e.settles old r.stop then _ else []) = []
    rw [h]
    rfl
  | cons q found => rw [kept, kept, List.getLast?_cons_cons]

theorem dropWhile_dropWhile {α : Type} {p q : α → Bool} (h : ∀ a, p a = true → q a = true)
    (l : List α) : (l.dropWhile p).dropWhile q = l.dropWhile q := by
  induction l with
  | nil => rfl
  | cons a l ih =>
    by_cases hp : p a = true
    · rw [List.dropWhile_cons_of_pos hp, List.dropWhile_cons_of_pos (h a hp), ih]
    · rw [List.dropWhile_cons_of_neg hp]

section Step

variable {r : Region} {rest : List Region} {stop newStop : Nat}

/-- A region that ends in front of the end of the edit is found anew. -/
theorem resync_of_lt (hstop : r.stop? = .ok stop) (hnewStop : e.newStop? = .ok newStop)
    (h : stop < newStop) :
    e.resync old (r :: rest) =
      (e.resync old rest).map fun (found, kept) => (r :: found, kept) := by
  rw [resync, hstop, hnewStop]
  exact if_pos h

/-- A region that ends behind the edit is looked up among the old ones. -/
theorem resync_of_le {oldStop x : Nat} {growth : Int} (hstop : r.stop? = .ok stop)
    (hnewStop : e.newStop? = .ok newStop) (h : newStop ≤ stop)
    (hsub : Offset.sub stop e.inserted = .ok x) (hadd : Offset.add x e.removed = .ok oldStop)
    (hgrowth : e.growth? = .ok growth) :
    e.resync old (r :: rest) =
      let old := old.dropWhile (·.start < oldStop)
      if old.head?.any (·.start == oldStop) then .ok ([r], old.filterMap (·.shift? growth))
      else (e.resync old rest).map fun (found, kept) => (r :: found, kept) := by
  rw [resync, hstop, hnewStop]
  refine (if_neg (Nat.not_lt_of_le h)).trans ?_
  rw [hsub]
  show (do let oldStop ← Offset.add x e.removed; _) = _
  rw [hadd]
  show (if _ then (do let growth ← e.growth?; _) else _) = _
  rw [hgrowth]
  rfl

/-- A region that ends behind the edit is the last that is taken in if it is settled. The old
regions that start in front of `x` can be left out, as they start in front of where the region
ends. -/
theorem Fits.resync_eq (h : e.Fits n b) (hold : Tiles 0 old n)
    (hn : (n : Int) ≤ Offset.maxDistance) (hb : (b : Int) ≤ Offset.maxDistance)
    (hstop : r.stop ≤ b) (hfar : e.offset + e.inserted ≤ r.stop) {x : Nat}
    (hx : x ≤ e.oldOffset r.stop) :
    e.resync (old.dropWhile (·.start < x)) (r :: rest) =
      if e.settles old r.stop then .ok ([r], e.kept old [r])
      else (e.resync (old.dropWhile (·.start < e.oldOffset r.stop)) rest).map
        fun (found, kept) => (r :: found, kept) := by
  have hnmax := Offset.le_max_of_le_maxDistance hn
  have hbmax := Offset.le_max_of_le_maxDistance hb
  have hend : r.stop? = .ok r.stop := Offset.add_eq_ok (Nat.le_trans hstop hbmax)
  obtain ⟨hsub, hadd⟩ := h.oldOffset_eq hnmax hfar hstop
  have hdrop : (old.dropWhile (·.start < x)).dropWhile (·.start < e.oldOffset r.stop) =
      old.dropWhile (·.start < e.oldOffset r.stop) := by
    apply dropWhile_dropWhile
    intro p hp
    simp only [decide_eq_true_eq] at hp ⊢
    omega
  have hsettles : e.settles old r.stop = old.any (·.start == e.oldOffset r.stop) := by
    rw [settles, decide_eq_true hfar, Bool.true_and]
  rw [resync_of_le hend (h.newStop?_eq hbmax) hfar hsub hadd (h.growth?_eq hn hb), hdrop]
  simp only [hold.any_start, ← hsettles]
  by_cases hsettled : e.settles old r.stop = true
  · have hcut := hold.dropWhile_of_any_start (hsettles.symm.trans hsettled)
    have hkept : e.kept old [r] = (old.dropWhile (·.start < e.oldOffset r.stop)).map fun p =>
        { p with start := p.start - e.oldOffset r.stop + r.stop } := if_pos hsettled
    rw [if_pos hsettled, if_pos hsettled, h.filterMap_shift? hbmax hfar hcut, hkept]
  · rw [if_neg hsettled, if_neg hsettled]

end Step

/-- **New regions are taken in up to the first that is settled**, and behind it is kept what the old
regions have there. -/
theorem resync_eq (h : e.Fits n b) (hold : Tiles 0 old n) (hn : (n : Int) ≤ Offset.maxDistance)
    (hb : (b : Int) ≤ Offset.maxDistance) {x a : Nat} {new : List Region} (hnew : Tiles a new b)
    (hx : ∀ stop, a < stop → e.offset + e.inserted ≤ stop → x ≤ e.oldOffset stop) :
    e.resync (old.dropWhile (·.start < x)) new =
      .ok (takeUntil (e.settles old) new, e.kept old (takeUntil (e.settles old) new)) := by
  have hbmax := Offset.le_max_of_le_maxDistance hb
  induction new generalizing a x with
  | nil => rfl
  | cons r rest ih =>
    obtain ⟨-, hstop, hle⟩ := hnew.bounds List.mem_cons_self
    rw [hnew.head_start] at hstop
    have hrest := hnew.2.2
    by_cases hfar : e.offset + e.inserted ≤ r.stop
    · rw [h.resync_eq hold hn hb hle hfar (hx r.stop hstop hfar), takeUntil]
      by_cases hsettled : e.settles old r.stop = true
      · rw [if_pos hsettled, if_pos hsettled]
      · -- the regions behind end further on, so that no more old regions are left out
        have hx' (stop : Nat) (hlt : r.stop < stop) (_ : e.offset + e.inserted ≤ stop) :
            e.oldOffset r.stop ≤ e.oldOffset stop := by
          simp only [oldOffset]
          omega
        rw [if_neg hsettled, if_neg hsettled, kept_cons (Bool.eq_false_iff.mpr hsettled),
          ih hrest hx']
        rfl
    · have hsettles : e.settles old r.stop = false := by
        rw [settles, decide_eq_false hfar, Bool.false_and]
      rw [resync_of_lt (hnew.stop?_eq hbmax List.mem_cons_self) (h.newStop?_eq hbmax)
        (Nat.lt_of_not_le hfar), ih hrest fun stop hlt => hx stop (by omega), takeUntil, hsettles,
        if_neg Bool.false_ne_true, kept_cons hsettles]
      rfl

/-- **What was found anew and what is kept lie end to end**, whether the edit was reported truly or
not. -/
theorem Fits.exists_tiles (h : e.Fits n b) (hold : Tiles 0 old n) {a : Nat} {new : List Region}
    (hnew : Tiles a new b) :
    ∃ stop, Tiles a (takeUntil (e.settles old) new) stop ∧
      Tiles stop (e.kept old (takeUntil (e.settles old) new)) b := by
  induction new generalizing a with
  | nil => exact ⟨a, rfl, hnew⟩
  | cons r rest ih =>
    obtain ⟨hstart, hpos, hrest⟩ := hnew
    by_cases hsettled : e.settles old r.stop = true
    · have hfound : takeUntil (e.settles old) (r :: rest) = [r] := by
        rw [takeUntil, if_pos hsettled]
      have hkept : e.kept old [r] = (old.dropWhile (·.start < e.oldOffset r.stop)).map fun p =>
          { p with start := p.start - e.oldOffset r.stop + r.stop } := if_pos hsettled
      obtain ⟨hfar, hany⟩ := Bool.and_eq_true_iff.mp hsettled
      have hmoved := (hold.dropWhile_of_any_start hany).map_start (Nat.le_refl _) r.stop
      have hend : n - e.oldOffset r.stop + r.stop = b := by
        obtain ⟨hold', hnew'⟩ := h
        have hfar' := of_decide_eq_true hfar
        have hle := hrest.le
        simp only [oldOffset]
        omega
      rw [Nat.sub_self, Nat.zero_add, hend] at hmoved
      rw [hfound, hkept]
      exact ⟨r.stop, ⟨hstart, hpos, rfl⟩, hmoved⟩
    · obtain ⟨stop, hfound, hkept⟩ := ih hrest
      rw [takeUntil, if_neg hsettled, kept_cons (Bool.eq_false_iff.mpr hsettled)]
      exact ⟨stop, ⟨hstart, hpos, hfound⟩, hkept⟩

end Edit

namespace RegionMap

variable {d : Dialect} {m : RegionMap} {t : Template} {e : Edit}

/-! ## Putting the parts together -/

/-- The number of old regions in front of the place where the scan restarts. -/
def restartIndex (m : RegionMap) (e : Edit) : Nat :=
  min ((m.regions.takeWhile fun r => r.stop ≤ e.offset - lookahead).length - 1)
    (m.regions.length - 1)

/-- The place where the scan restarts. -/
def restart (m : RegionMap) (e : Edit) : Nat :=
  (m.regions[m.restartIndex e]?.map Span.start).getD 0

/-- The regions that are found anew. -/
def found (d : Dialect) (m : RegionMap) (t : Template) (e : Edit) : List Region :=
  takeUntil (e.settles m.regions) (t.regionsFrom d (.outside (m.restart e)))

theorem splice_eq (d : Dialect) (m : RegionMap) (t : Template) (e : Edit) :
    m.splice d t e =
      (⟨join (m.regions.take (m.restartIndex e)) (m.found d t e) ++
          e.kept m.regions (m.found d t e), t.length⟩,
        (m.restart e, ((m.found d t e).getLast?.map Span.stop).getD (m.restart e))) := by
  have hfound : (t.scannerFrom d (.outside (m.restart e))).collectUntil (e.settles m.regions)
      d.rules d = m.found d t e := by
    rw [t.collectUntil_scannerFrom, scanUntil_eq_takeUntil, ← t.regionsFrom_eq_scan]
    rfl
  unfold splice
  extract_lets untouched first restart oldOffset settled rebuilt stop kept
  have hrebuilt : rebuilt = m.found d t e := hfound
  have hkept : kept = e.kept m.regions (m.found d t e) := by
    rw [← hrebuilt]
    rcases List.eq_nil_or_concat rebuilt with hnil | ⟨front, r, hconcat⟩
    · rw [hnil]
      show (if settled stop && !rebuilt.isEmpty then _ else _) = _
      rw [hnil, List.isEmpty_nil, Bool.not_true, Bool.and_false]
      rfl
    · rw [List.concat_eq_append] at hconcat
      have hlast : rebuilt.getLast? = some r := by rw [hconcat, List.getLast?_concat]
      have hstop : stop = r.stop := by
        show (rebuilt.getLast?.map Span.stop).getD restart = _
        rw [hlast]
        rfl
      have hnonempty : (!rebuilt.isEmpty) = true := by
        rw [hconcat]
        simp
      rw [Edit.kept, hlast]
      show (if settled stop && !rebuilt.isEmpty then _ else _) = _
      rw [hnonempty, Bool.and_true, hstop]
      rfl
  rw [← hkept, ← hrebuilt]
  rfl

/-- The scan restarts where an old region starts, no later than the edit. -/
theorem tiles_restart (hm : Tiles 0 m.regions m.length) (hne : m.regions ≠ []) (e : Edit) :
    Tiles 0 (m.regions.take (m.restartIndex e)) (m.restart e) ∧ m.restart e ≤ e.offset := by
  have hpos := List.length_pos_iff.mpr hne
  have hlt : m.restartIndex e < m.regions.length := by
    rw [restartIndex]
    omega
  have htiles := hm.take_getElem hlt
  have hrestart : m.restart e = m.regions[m.restartIndex e].start := by
    rw [restart, List.getElem?_eq_getElem hlt]
    rfl
  rw [← hrestart] at htiles
  refine ⟨htiles, htiles.le_of_forall (Nat.zero_le _) fun p hp => ?_⟩
  -- what is in front of the restart ends in front of the edit
  have hfront : m.regions.take (m.restartIndex e) <+:
      m.regions.takeWhile fun r => r.stop ≤ e.offset - lookahead := by
    refine List.prefix_of_prefix_length_le (List.take_prefix _ _) (List.takeWhile_prefix _) ?_
    rw [List.length_take, restartIndex]
    omega
  have hstop := List.all_eq_true.mp List.all_takeWhile p (hfront.subset hp)
  rw [decide_eq_true_eq] at hstop
  omega

theorem tiles_join {front back : List Region} {a b : Nat} (hfront : Tiles 0 front a)
    (hback : Tiles a back b) : Tiles 0 (join front back) b := by
  have happend := tiles_append.mpr ⟨a, hfront, hback⟩
  unfold join
  split
  · next p q rest hp =>
    obtain ⟨init, rfl⟩ := List.getLast?_eq_some_iff.mp hp
    split
    · rw [List.append_assoc] at happend
      obtain ⟨c, hinit, hpstart, hppos, hqstart, hqpos, hrest⟩ := tiles_append.mp happend
      rw [List.dropLast_concat]
      refine tiles_append.mpr ⟨c, hinit, hpstart, by show 0 < p.length + _; omega, ?_⟩
      have hstop : stop { p with length := p.length + q.length } = q.stop := by
        simp only [stop] at hqstart ⊢
        omega
      rwa [hstop]
    · exact happend
  · exact happend

theorem join?_eq {front back : List Region} {a b : Nat} (hfront : Tiles 0 front a)
    (hback : Tiles a back b) (hb : b ≤ Offset.max) : join? front back = .ok (join front back) := by
  cases hlast : front.getLast? with
  | none => simp only [join?, join, hlast]
  | some p =>
    cases back with
    | nil => simp only [join?, join, hlast]
    | cons q rest =>
      have hpbounds := hfront.bounds (List.mem_of_getLast? hlast)
      have hqbounds := hback.bounds List.mem_cons_self
      simp only [stop] at hpbounds hqbounds
      simp only [join?, join, hlast]
      split
      · rw [Offset.add_eq_ok (by omega)]
        rfl
      · rfl

theorem stopFrom?_eq {regions : List Region} {a b : Nat} (h : Tiles a regions b)
    (hb : b ≤ Offset.max) :
    stopFrom? a regions = .ok ((regions.getLast?.map Span.stop).getD a) := by
  unfold stopFrom?
  cases hlast : regions.getLast? with
  | none => rfl
  | some r => exact h.stop?_eq hb (List.mem_of_getLast? hlast)

/-! ## One report -/

/-- An edit that fits speaks of lengths that the two documents have. -/
theorem fits?_eq_true (h : m.fits? t e = .ok true) :
    e.oldStop? = .ok (e.offset + e.removed) ∧ e.Fits m.length t.length := by
  cases hstop : e.oldStop? with
  | error fault => simp [fits?, hstop, bind, Except.bind] at h
  | ok oldStop =>
    obtain ⟨-, rfl⟩ := Offset.eq_of_add hstop
    by_cases hle : e.offset + e.removed ≤ m.length
    · cases hadd : Offset.add (m.length - e.removed) e.inserted with
      | error fault => simp [fits?, hstop, hle, hadd, bind, Except.bind] at h
      | ok length =>
        obtain ⟨-, rfl⟩ := Offset.eq_of_add hadd
        refine ⟨rfl, hle, ?_⟩
        simpa [fits?, hstop, hle, hadd, bind, Except.bind, pure, Except.pure] using h
    · simp [fits?, hstop, hle, bind, Except.bind, pure, Except.pure] at h

/-- Numbers that stay within 64 bits are no fault. -/
theorem exists_fits? (hstop : e.offset + e.removed ≤ Offset.max)
    (hlength : e.offset + e.removed ≤ m.length → m.length - e.removed + e.inserted ≤ Offset.max) :
    ∃ fits, m.fits? t e = .ok fits := by
  have holdStop : e.oldStop? = .ok (e.offset + e.removed) := Offset.add_eq_ok hstop
  by_cases hle : e.offset + e.removed ≤ m.length
  · have hadd := Offset.add_eq_ok (hlength hle)
    exact ⟨m.length - e.removed + e.inserted == t.length, by
      simp only [fits?, holdStop, hadd, hle, bind, Except.bind, pure, Except.pure, if_true]⟩
  · exact ⟨false, by
      simp only [fits?, holdStop, hle, bind, Except.bind, pure, Except.pure, if_false]⟩

/-- What is left in front of the edit, what is found anew and what is kept behind it tile the new
document, wherever the edit was reported. -/
theorem tiles_splice (hm : Tiles 0 m.regions m.length) (hne : m.regions ≠ [])
    (he : e.Fits m.length t.length) :
    ∃ stop, Tiles 0 (m.regions.take (m.restartIndex e)) (m.restart e) ∧
      Tiles (m.restart e) (t.regionsFrom d (.outside (m.restart e))) t.length ∧
      Tiles (m.restart e) (m.found d t e) stop ∧
      Tiles stop (e.kept m.regions (m.found d t e)) t.length := by
  obtain ⟨hfront, hle⟩ := tiles_restart hm hne e
  have hpoint : t.restartPoint (.outside (m.restart e)) = m.restart e := by
    obtain ⟨hold, hnew⟩ := he
    exact Nat.min_eq_left (by show m.restart e ≤ _; omega)
  have hnew := t.tiles_regionsFrom d (.outside (m.restart e))
  rw [hpoint] at hnew
  obtain ⟨stop, hfound, hkept⟩ := he.exists_tiles hm hnew
  exact ⟨stop, hfront, hnew, hfound, hkept⟩

/-- A sweep from where the scan restarts takes in the regions that are found anew, and the old ones
that are kept are moved, unless more brackets are open than can be counted. -/
theorem exists_resync?_agrees (hm : Tiles 0 m.regions m.length)
    (hlength : (m.length : Int) ≤ Offset.maxDistance) (ht : (t.length : Int) ≤ Offset.maxDistance)
    (he : e.Fits m.length t.length)
    (hnew : Tiles (m.restart e) (t.regionsFrom d (.outside (m.restart e))) t.length) :
    ∃ s, t.sweepFrom? d (.outside (m.restart e)) = .ok s ∧ Lexer.Agrees t.length
      (e.resync? d (m.regions.dropWhile (·.start < e.offset + e.removed)) s)
      (.ok (m.found d t e, e.kept m.regions (m.found d t e))) := by
  obtain ⟨s, hsweep, hsound, hlimit, hscanner⟩ := t.exists_sweepFrom? d (.outside (m.restart e))
  refine ⟨s, hsweep, ?_⟩
  rw [← hlimit]
  refine (hsound.resync?_agrees e _).trans (.of_eq ?_)
  rw [hscanner]
  apply Edit.resync_eq he hm hlength ht hnew
  intro stop _ hfar
  simp only [Edit.oldOffset]
  omega

/-- Finding all regions of a template gives its map, unless more brackets are open than can be
counted. -/
theorem ofTemplate?_agrees (d : Dialect) (t : Template) :
    Lexer.Agrees t.length (ofTemplate? d t) (.ok (ofTemplate d t)) :=
  (t.divide?_agrees d).map _

/-- All regions are found anew where the edit does not fit, or there are no old regions. -/
theorem revise?_eq_rescan {fits : Bool} (hfits : m.fits? t e = .ok fits)
    (h : (fits && !m.regions.isEmpty) = false) :
    m.revise? d t e = (ofTemplate? d t).map fun m' => (m', (0, t.length)) := by
  rw [revise?, hfits, ok_bind, h, if_neg Bool.false_ne_true]
  rfl

/-- **No number gets too large** but the number of open brackets. Where the regions of a document
tile it, the revision in 64-bit numbers is the update, for every report of an edit. -/
theorem revise?_agrees (hm : Tiles 0 m.regions m.length)
    (hlength : (m.length : Int) ≤ Offset.maxDistance) (ht : (t.length : Int) ≤ Offset.maxDistance)
    (e : Edit) : Lexer.Agrees t.length (m.revise? d t e) (m.update d t e) := by
  cases hfits : m.fits? t e with
  | error fault =>
    simp only [revise?, update, hfits, error_bind]
    exact .refl _ _
  | ok fits =>
    rw [update_of_fits hfits]
    by_cases hsplice : (fits && !m.regions.isEmpty) = true
    · obtain ⟨rfl, hne⟩ : fits = true ∧ m.regions ≠ [] := by simpa using hsplice
      obtain ⟨holdStop, he⟩ := fits?_eq_true hfits
      obtain ⟨stop, hfront, hnew, hfound, hkept⟩ := tiles_splice (d := d) hm hne he
      have hmmax := Offset.le_max_of_le_maxDistance hlength
      have htmax := Offset.le_max_of_le_maxDistance ht
      have huntouched := hm.countBefore_stop hmmax (e.offset - lookahead)
      have hreusable := hm.countBefore_start (ε := Offset.Fault) (e.offset + e.removed)
      obtain ⟨s, hsweep, hresync⟩ := exists_resync?_agrees hm hlength ht he hnew
      have hdrop := drop_length_takeWhile (·.start < e.offset + e.removed) m.regions
      have hstop := stopFrom?_eq hfound (Nat.le_trans hkept.le htmax)
      have hjoin := join?_eq hfront hfound (Nat.le_trans hkept.le htmax)
      rw [revise?, hfits, ok_bind, if_pos hsplice, if_pos hsplice, splice_eq]
      dsimp only
      rw [huntouched, ok_bind, holdStop, ok_bind, hreusable, ok_bind, hdrop,
        show min _ _ = m.restartIndex e from rfl,
        show (m.regions[m.restartIndex e]?.map Span.start).getD 0 = m.restart e from rfl,
        hsweep, ok_bind]
      refine (hresync.bind fun _ _ => .refl _ _).trans (.of_eq ?_)
      rw [ok_bind]
      dsimp only
      rw [hstop, ok_bind, hjoin]
      rfl
    · rw [if_neg hsplice, revise?_eq_rescan hfits (Bool.eq_false_iff.mpr hsplice)]
      exact (ofTemplate?_agrees d t).map _

/-- **Any report of an edit leaves regions that lie end to end**, and it is a fault only if its own
numbers are too large, or if more brackets are open than can be counted. -/
theorem exists_revise?_agrees (d : Dialect) (hm : Tiles 0 m.regions m.length)
    (hlength : (m.length : Int) ≤ Offset.maxDistance) (ht : (t.length : Int) ≤ Offset.maxDistance)
    (hstop : e.offset + e.removed ≤ Offset.max)
    (hfit : e.offset + e.removed ≤ m.length → m.length - e.removed + e.inserted ≤ Offset.max) :
    ∃ m' scanned, Lexer.Agrees t.length (m.revise? d t e) (.ok (m', scanned)) ∧
      m'.length = t.length ∧ Tiles 0 m'.regions m'.length := by
  obtain ⟨fits, hfits⟩ := exists_fits? (t := t) hstop hfit
  have hagrees := revise?_agrees (d := d) hm hlength ht e
  rw [update_of_fits hfits] at hagrees
  by_cases hsplice : (fits && !m.regions.isEmpty) = true
  · obtain ⟨rfl, hne⟩ : fits = true ∧ m.regions ≠ [] := by simpa using hsplice
    obtain ⟨stop, hfront, -, hfound, hkept⟩ := tiles_splice (d := d) hm hne (fits?_eq_true hfits).2
    rw [if_pos hsplice, splice_eq] at hagrees
    exact ⟨_, _, hagrees, rfl, tiles_append.mpr ⟨stop, tiles_join hfront hfound, hkept⟩⟩
  · rw [if_neg hsplice] at hagrees
    exact ⟨_, _, hagrees, rfl, tiles_regions d t⟩

end RegionMap

end TemplateColoring

import TemplateColoring.Proofs.Region.Characters
import TemplateColoring.Proofs.Region.Sweep

/-!
# A scan, call by call

Whoever asks a scanner for one region after the other gets the regions of what is ahead of it, in
order and without a gap, and from the end of the document on nothing any more. This holds from
wherever the scan is taken up: a restart may name any offset and any kind of region. So the calls of
a sweep are answered, as long as it can count the open brackets (`Template.calls?_sweepFrom?`).

A scanner that is on its way is `Steady`: an opening it stands in front of is one that the rules
find there, and the plain text that is pending starts behind the scanner. Every move keeps this.
-/

set_option autoImplicit false

namespace TemplateColoring.Scanner

open Bytes Region TemplateColoring.Span

variable {rules : List RegionKind} {d : Dialect} {s : Scanner}

/-! ## What every move keeps -/

/-- The offset at which the document ends. -/
def limit (s : Scanner) : Nat := s.offset + s.ahead.length

/-- What holds of a scanner wherever it stands. -/
structure Steady (rules : List RegionKind) (d : Dialect) (s : Scanner) : Prop where
  opens : ∀ o, s.phase = .inside o → openingBy? rules d s.ahead = some o
  passed : ∀ start, s.pending = some start → start ≤ s.offset

theorem limit_pass (s : Scanner) (n : Nat) : (s.pass n).limit = s.limit := by
  simp only [limit, pass, List.length_take, List.length_drop]
  omega

theorem le_offset_pass (s : Scanner) (n : Nat) : s.offset ≤ (s.pass n).offset :=
  Nat.le_add_right _ _

/-- What a move may come to: the scanner stays in its document and is steady, it is behind the
region that it has given out, and it is done at the end of the document only. -/
def Outcome.Keeps (rules : List RegionKind) (d : Dialect) (s : Scanner) : Outcome → Prop
  | .done => s.ahead = []
  | .goOn s' => s'.Steady rules d ∧ s'.limit = s.limit
  | .give r s' => s'.Steady rules d ∧ s'.limit = s.limit ∧ s'.offset = r.stop

/-- The pending plain text, given out, stops at the scanner. -/
theorem Steady.stop_plain (h : s.Steady rules d) {r : Region} (hr : s.plain? = some r) :
    r.stop = s.offset := by
  obtain ⟨start, hstart, rfl⟩ := Option.map_eq_some_iff.mp hr
  have hle := h.passed start hstart
  simp only [stop]
  omega

theorem Steady.keeps_step (h : s.Steady rules d) : (s.step rules d).Keeps rules d s := by
  unfold step
  cases hphase : s.phase with
  | inside o =>
      have ho := h.opens o hphase
      have hle := (extentOf_bounds (openingBy?_eq_some_iff.mp ho).2).2
      simp only [close?_of_openingBy? ho]
      refine ⟨⟨by simp, ?_⟩, limit_pass s _, ?_⟩
      · intro start hstart
        exact Nat.le_trans (h.passed start hstart) (le_offset_pass s _)
      · simp only [pass, stop, List.length_take_of_le hle]
  | searching =>
      simp only []
      split
      · next hend =>
        cases hplain : s.plain? with
        | none => exact List.isEmpty_iff.mp hend
        | some r => exact ⟨⟨by simp, by simp⟩, rfl, (h.stop_plain hplain).symm⟩
      · cases ho : s.opening? rules d with
        | none =>
            refine ⟨⟨by simp [pass, hphase], ?_⟩, limit_pass s _⟩
            intro start hstart
            have hle := le_offset_pass s (charLength s.ahead)
            cases hpending : s.pending with
            | none =>
                rw [hpending] at hstart
                obtain rfl := Option.some.inj hstart
                exact hle
            | some first =>
                rw [hpending] at hstart
                obtain rfl := Option.some.inj hstart
                exact Nat.le_trans (h.passed _ hpending) hle
        | some o =>
            -- rules were tried, and they found the opening in front of which the scanner stops
            have hopens : openingBy? rules d s.ahead = some o := by
              unfold opening? at ho
              split at ho
              · exact absurd ho (by simp)
              · exact ho
            have hinside : Steady rules d
                { s with phase := .inside o, pending := none, suppressed := none } := by
              refine ⟨fun o' ho' => ?_, by simp⟩
              obtain rfl := Phase.inside.inj ho'
              exact hopens
            cases hplain : s.plain? with
            | none => exact ⟨hinside, rfl⟩
            | some r => exact ⟨hinside, rfl, (h.stop_plain hplain).symm⟩

/-- A scanner that is taken up is steady. -/
theorem steady_resume (d : Dialect) (expected : Option RegionKind) (offset : Nat)
    (ahead : List UInt8) : (resume d expected offset ahead).Steady d.rules d := by
  unfold resume
  split
  · next o ho =>
    split
    · refine ⟨fun o' ho' => ?_, by simp⟩
      obtain rfl := Phase.inside.inj ho'
      exact ho
    · exact ⟨by simp, by simp⟩
  · exact ⟨by simp, by simp⟩

/-! ## One call -/

/-- A call gives the first region that the scanner has to give and leaves a scanner for the others,
at the end of that region; without a region it leaves the scanner at the end of the document. -/
theorem Steady.next_cases (h : s.Steady rules d) : ∃ s', s'.Steady rules d ∧ s'.limit = s.limit ∧
    (s.next rules d = (none, s') ∧ s'.offset = s.limit ∧ s.collect rules d = [] ∧
        s'.collect rules d = [] ∨
      ∃ r, s.next rules d = (some r, s') ∧ s'.offset = r.stop ∧
        s.collect rules d = r :: s'.collect rules d) := by
  -- on the moves up to the next region
  induction hrank : s.rank using Nat.strongRecOn generalizing s with
  | _ n ih =>
      subst hrank
      have hkeeps := h.keeps_step
      cases hstep : s.step rules d with
      | done =>
          rw [hstep] at hkeeps
          have hnil : s.collect rules d = [] := collectUntil_of_done hstep
          have hend : s.offset = s.limit := by
            rw [limit, show s.ahead = [] from hkeeps]
            rfl
          exact ⟨s, h, rfl, .inl ⟨next_of_done hstep, hend, hnil, hnil⟩⟩
      | goOn s₁ =>
          rw [hstep] at hkeeps
          obtain ⟨hsteady, hlimit⟩ := hkeeps
          have hrank := rank_lt_of_step (congrArg Outcome.scanner? hstep)
          have hcollect : s.collect rules d = s₁.collect rules d := collectUntil_of_goOn hstep
          rw [next_of_goOn hstep, hcollect, ← hlimit]
          exact ih s₁.rank hrank hsteady rfl
      | give r s₁ =>
          rw [hstep] at hkeeps
          obtain ⟨hsteady, hlimit, hoffset⟩ := hkeeps
          have hcollect : s.collect rules d = r :: s₁.collect rules d := collectUntil_of_give hstep
          exact ⟨s₁, hsteady, hlimit, .inr ⟨r, next_of_give hstep, hoffset, hcollect⟩⟩

/-! ## All calls -/

/-- **The calls of a scanner give its regions one by one**, each with the offset where the region
stops, and then nothing any more. -/
theorem Steady.calls_eq (h : s.Steady rules d) (n : Nat) : s.calls rules d n =
    ((s.collect rules d).take n).map (fun r => (some r, r.stop)) ++
      List.replicate (n - (s.collect rules d).length) (none, s.limit) := by
  induction n generalizing s with
  | zero => simp [calls]
  | succ n ih =>
      obtain ⟨s', hsteady, hlimit, ⟨hnext, hoffset, hnil, hnil'⟩ | ⟨r, hnext, hoffset, hcons⟩⟩ :=
        h.next_cases
      · have hrest := ih hsteady
        simp only [hnil', List.take_nil, List.map_nil, List.nil_append, List.length_nil,
          Nat.sub_zero, hlimit] at hrest
        rw [calls_of_next hnext, hnil, hoffset, hrest]
        rfl
      · rw [calls_of_next hnext, hcons, hoffset, ih hsteady, hlimit, List.take_succ_cons,
          List.map_cons, List.length_cons, Nat.add_sub_add_right, List.cons_append]

end TemplateColoring.Scanner

namespace TemplateColoring.Template

open Bytes Region TemplateColoring.Span

theorem restartPoint_le (t : Template) (r : Restart) : t.restartPoint r ≤ t.length :=
  Nat.min_le_right _ _

theorem regionsFrom_eq_scan (t : Template) (d : Dialect) (r : Restart) : t.regionsFrom d r =
    scan d (t.restartPoint r) (t.bytes.toList.drop (t.restartPoint r)) :=
  t.collectUntil_scannerFrom (fun _ => false) d r

/-- From a restart a scan tiles what is left of the template. -/
theorem tiles_regionsFrom (t : Template) (d : Dialect) (r : Restart) :
    Tiles (t.restartPoint r) (t.regionsFrom d r) t.length := by
  have htiles := tiles_scanBy d.rules d (t.restartPoint r)
    (t.bytes.toList.drop (t.restartPoint r))
  have hend : t.restartPoint r + (t.bytes.toList.drop (t.restartPoint r)).length = t.length := by
    rw [List.length_drop, Array.length_toList]
    exact Nat.add_sub_cancel' (t.restartPoint_le r)
  rw [hend] at htiles
  rw [regionsFrom_eq_scan]
  exact htiles

theorem limit_scannerFrom (t : Template) (d : Dialect) (r : Restart) :
    (t.scannerFrom d r).limit = t.length := by
  have hle := t.restartPoint_le r
  have hlen : (t.bytes.extract (t.restartPoint r) t.length).toList.length =
      t.length - t.restartPoint r := by simp [length]
  have hlimit : (t.scannerFrom d r).limit = t.restartPoint r +
      (t.bytes.extract (t.restartPoint r) t.length).toList.length := by
    simp only [scannerFrom, Scanner.resume]
    repeat' split
    all_goals rfl
  omega

/-- The answers to the calls of a scanner that takes up a scan. -/
theorem calls_scannerFrom (t : Template) (d : Dialect) (r : Restart) (n : Nat) :
    (t.scannerFrom d r).calls d.rules d n =
      ((t.regionsFrom d r).take n).map (fun p => (some p, p.stop)) ++
        List.replicate (n - (t.regionsFrom d r).length) (none, t.length) := by
  have hcalls := (Scanner.steady_resume d (r.inside.map (·.1)) (t.restartPoint r)
    (t.bytes.extract (t.restartPoint r) t.length).toList).calls_eq n
  rw [← t.limit_scannerFrom d r]
  exact hcalls

/-- **From any restart a scan tiles what is left of the document.** Whatever the bytes of the
document are, and whatever offset and kind of region the restart names, there is a sweep that takes
up the scan, and there are regions that lie end to end from the restart to the end of the document,
none of them empty and no plain text next to plain text. The calls of the sweep, if they come to
anything, give these regions one by one, each call leaves the sweep where its region stops, and no
call gives anything behind the last region. They come to something in every document of fewer than
`2 ^ 32` bytes. In a text that is taken up between two characters, every region starts and stops
between characters. -/
theorem calls?_sweepFrom? (t : Template) (d : Dialect) (r : Restart) :
    ∃ s, t.sweepFrom? d r = .ok s ∧
      (∀ n answers, s.calls? d.rules d n = .ok answers →
        answers = ((t.regionsFrom d r).take n).map (fun p => (some p, p.stop)) ++
          List.replicate (n - (t.regionsFrom d r).length) (none, t.length)) ∧
      (t.length < 0x100000000 → ∀ n, ∃ answers, s.calls? d.rules d n = .ok answers) ∧
      Tiles (t.restartPoint r) (t.regionsFrom d r) t.length ∧
      Separated (t.regionsFrom d r) ∧
      ((ByteArray.mk t.bytes).IsValidUTF8 → isBoundary t.bytes (t.restartPoint r) = true →
        ∀ p ∈ t.regionsFrom d r,
          isBoundary t.bytes p.start = true ∧ isBoundary t.bytes p.stop = true) := by
  have hle := t.restartPoint_le r
  obtain ⟨s, hsweep, hsound, hlimit, hscanner⟩ := t.exists_sweepFrom? d r
  have hcalls (n : Nat) := hsound.calls?_agrees n
  simp only [hscanner, hlimit, t.calls_scannerFrom] at hcalls
  refine ⟨s, hsweep, fun n answers hanswers => ?_, fun hsize n => ?_, t.tiles_regionsFrom d r,
    ?_, ?_⟩
  · exact (hcalls n).eq_of_ok hanswers
  · exact ⟨_, (hcalls n).eq_of_lt hsize⟩
  · rw [regionsFrom_eq_scan]
    exact separated_scanBy (plain_not_mem_rules d) _ _
  · intro hvalid hboundary p hp
    rw [regionsFrom_eq_scan] at hp
    have hchars := (characters_of_isValidUTF8 hvalid).drop_of_isBoundary hle hboundary
    exact isBoundary_of_mem_scanBy hle hchars hp

/-- The restart names a comment where in truth an interpolation opens, behind a letter of two
bytes. -/
theorem calls?_sweepFrom?_other_kind : (ofString "é${a}b").length < 0x100000000 ∧
    ∃ s, (ofString "é${a}b").sweepFrom? {} ⟨9, some (.comment, 2)⟩ = .ok s ∧
      s.calls? (Dialect.rules {}) {} 4 =
        .ok [(some ⟨.interpolation, 2, 4⟩, 6), (some ⟨.plain, 6, 1⟩, 7), (none, 7), (none, 7)] ∧
      isBoundary (ofString "é${a}b").bytes 2 = true ∧
        isBoundary (ofString "é${a}b").bytes 6 = true := by
  have hsize : (ofString "é${a}b").length < 0x100000000 := by decide
  obtain ⟨s, hsweep, hanswers, hanswered, -, -, hboundaries⟩ :=
    calls?_sweepFrom? (ofString "é${a}b") {} ⟨9, some (.comment, 2)⟩
  have hregions : (ofString "é${a}b").regionsFrom {} ⟨9, some (.comment, 2)⟩ =
      [⟨.interpolation, 2, 4⟩, ⟨.plain, 6, 1⟩] := by
    rw [regionsFrom_eq_scan]
    decide
  rw [hregions] at hanswers hboundaries
  obtain ⟨answers, hcalls⟩ := hanswered hsize 4
  refine ⟨hsize, s, hsweep, ?_, ?_⟩
  · rw [hcalls, hanswers 4 answers hcalls]
    rfl
  · exact hboundaries (String.isValidUTF8 "é${a}b") (by decide) ⟨.interpolation, 2, 4⟩ (by simp)

/-- The first call of a sweep is not answered where `2 ^ 32` brackets are open. -/
theorem calls?_sweepFrom?_unclosed :
    ∃ s, (ofString (unclosed 0x100000000)).sweepFrom? {} .start = .ok s ∧
      ∀ answers, s.calls? (Dialect.rules {}) {} 1 ≠ .ok answers := by
  refine ⟨_, sweepFrom?_start _ {}, fun answers h => ?_⟩
  rw [Sweep.calls?, Sweep.next?_unclosed (by decide)] at h
  exact absurd h (by simp)

end TemplateColoring.Template

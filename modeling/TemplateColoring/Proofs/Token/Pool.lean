import TemplateColoring.Proofs.Token.Paint
import TemplateColoring.Token.Pool

/-!
# Several workers find what one finds

Whatever moves a pool of workers makes, and in whatever order, nothing is lost and nothing gets into
a wrong place: each result that is still owed, by the queue, by a worker or among those delivered,
is the right one for its number, and every number whose result is not owed any more has the right
one (`Accounts`). The queue is closed behind the last job only, and who leaves leaves an empty queue
behind (`Orderly`). So a pool that is not at its end can always move on, every run ends after the
same number of moves, and at its end all results are in order (`Template.colorAll_eq`).
-/

set_option autoImplicit false

namespace TemplateColoring

namespace Pool

variable {α β : Type} {f : α → β} {jobs : List α} {p p' : Pool α β} {m : Move}

/-! ## Order in the crew -/

/-- The queue is open while there are jobs for it, and workers leave a closed and empty queue. -/
structure Orderly (p : Pool α β) : Prop where
  manned : p.crew ≠ []
  staying : p.stage = .sharing → .gone ∉ p.crew
  shared : p.stage ≠ .sharing → p.unshared = []
  drained : .gone ∈ p.crew → p.queue = []
  dismissed : p.stage = .collecting ∨ p.stage = .finished → ∀ w ∈ p.crew, w = .gone
  collected : p.stage = .finished → p.delivered = []

theorem all_isGone_iff {crew : List (Worker α)} :
    crew.all (·.isGone) = true ↔ ∀ w ∈ crew, w = .gone := by
  rw [List.all_eq_true]
  refine forall₂_congr fun w _ => ?_
  cases w <;> simp [Worker.isGone]

namespace Orderly

/-- Where all workers have left one of them has. -/
theorem gone_mem (h : p.Orderly) (hgone : ∀ w ∈ p.crew, w = .gone) : .gone ∈ p.crew := by
  obtain ⟨w, hw⟩ := List.exists_mem_of_ne_nil _ h.manned
  exact hgone w hw ▸ hw

/-- While somebody is at work the results are not collected. -/
theorem stage_of_mem (h : p.Orderly) {w : Worker α} (hw : w ∈ p.crew) (hgone : w ≠ .gone) :
    p.stage ≠ .collecting ∧ p.stage ≠ .finished :=
  ⟨fun hstage => hgone (h.dismissed (.inl hstage) w hw),
    fun hstage => hgone (h.dismissed (.inr hstage) w hw)⟩

/-- The queue never refuses a job. -/
theorem not_refuse (h : p.Orderly) (hstage : p.stage = .sharing) :
    p.crew.all (·.isGone) ≠ true :=
  fun hgone => h.staying hstage (h.gone_mem (all_isGone_iff.mp hgone))

/-- Order is kept when one worker goes from one job to another or back to none. -/
theorem of_set (h : p.Orderly) {w : Nat} {old new : Worker α} (hcrew : p.crew[w]? = some old)
    (hold : old ≠ .gone) (hnew : new ≠ .gone) {queue : List (Nat × α)}
    (hqueue : p.queue = [] → queue = []) (delivered : List (Nat × β)) :
    Orderly { p with queue := queue, crew := p.crew.set w new, delivered := delivered } := by
  have hstage := h.stage_of_mem (List.mem_of_getElem? hcrew) hold
  have hmem : .gone ∈ p.crew.set w new → .gone ∈ p.crew := by
    intro hgone
    rcases List.mem_or_eq_of_mem_set hgone with hgone | hgone
    · exact hgone
    · exact absurd hgone.symm hnew
  constructor
  case manned => simpa using h.manned
  case staying => exact fun hsharing hgone => h.staying hsharing (hmem hgone)
  case shared => exact h.shared
  case drained => exact fun hgone => hqueue (h.drained (hmem hgone))
  case dismissed => exact fun hends => absurd hends (not_or.mpr hstage)
  case collected => exact fun hfinished => absurd hfinished hstage.2

/-- **Every move keeps order in the crew.** -/
theorem moves (h : p.Orderly) (hmoves : p.Moves f p') : p'.Orderly := by
  cases hmoves with
  | share hstage _ =>
    have hgone := h.staying hstage
    exact ⟨h.manned, h.staying, fun hother => absurd hstage hother, fun hmem => absurd hmem hgone,
      h.dismissed, h.collected⟩
  | refuse hstage hgone => exact absurd hgone (h.not_refuse hstage)
  | close hstage hunshared =>
    exact ⟨h.manned, nofun, fun _ => hunshared, h.drained, nofun, nofun⟩
  | take hcrew hqueue =>
    exact h.of_set hcrew (by simp) (by simp) (fun hnil => absurd hqueue (by simp [hnil])) _
  | deliver hcrew _ => exact h.of_set hcrew (by simp) (by simp) id _
  | abandon hcrew hstage =>
    exact absurd hstage (h.stage_of_mem (List.mem_of_getElem? hcrew) nofun).2
  | leave hcrew hstage hqueue =>
    have hends := h.stage_of_mem (List.mem_of_getElem? hcrew) nofun
    exact ⟨by simpa using h.manned, fun hsharing => absurd hsharing hstage, h.shared,
      fun _ => hqueue, fun hends' => absurd hends' (not_or.mpr hends), h.collected⟩
  | dismiss hstage hgone =>
    exact ⟨h.manned, nofun, fun _ => h.shared (by simp [hstage]), h.drained,
      fun _ => all_isGone_iff.mp hgone, nofun⟩
  | collect hstage _ _ =>
    exact ⟨h.manned, h.staying, h.shared, h.drained, h.dismissed,
      fun hfinished => absurd (hstage.symm.trans hfinished) nofun⟩
  | finish hstage hdelivered =>
    exact ⟨h.manned, nofun, fun _ => h.shared (by simp [hstage]), h.drained,
      fun _ => h.dismissed (.inl hstage), fun _ => hdelivered⟩

/-- Every move is one of those that were to come. -/
theorem left_eq (h : p.Orderly) (hmoves : p.Moves f p') : p.left = p'.left + 1 := by
  rcases left_of_moves hmoves with hleft | ⟨hstage, ⟨job, hbusy⟩, -⟩
  · exact hleft
  · exact absurd hstage (h.stage_of_mem hbusy nofun).2

end Orderly

/-! ## What is owed -/

/-- The results that are still to be put in order. -/
def owed (f : α → β) (p : Pool α β) : List (Nat × β) :=
  let jobs := p.unshared ++ p.queue ++ p.crew.filterMap Worker.job?
  jobs.map (fun (index, job) => (index, f job)) ++ p.delivered

/-- Each result that is owed is right, and so is each that is not owed any more. -/
structure Accounts (f : α → β) (jobs : List α) (p : Pool α β) : Prop where
  right : ∀ r ∈ p.owed f, (jobs.map f)[r.1]? = some r.2
  length : p.results.length = jobs.length
  settled : ∀ i < jobs.length, (∃ y, (i, y) ∈ p.owed f) ∨ p.results[i]? = (jobs.map f)[i]?

/-- Up to the collecting, what is owed goes from hand to hand. -/
theorem mem_owed_of_moves (hmoves : p.Moves f p') (hstage : p.stage ≠ .collecting)
    (hstage' : p.stage ≠ .finished) (r : Nat × β) : r ∈ p'.owed f ↔ r ∈ p.owed f := by
  cases hmoves with
  | share _ hunshared =>
    simp only [owed, hunshared, List.map_append, List.map_cons, List.mem_append, List.mem_cons,
      List.map_nil, List.not_mem_nil]
    simp only [false_or, or_assoc, or_comm, or_left_comm]
  | refuse _ _ | close _ _ | dismiss _ _ => rfl
  | take hcrew hqueue =>
    obtain ⟨front, back, hparts, hset, -⟩ := exists_parts_of_getElem? hcrew
    obtain ⟨front', back', hparts', -, herase⟩ := exists_parts_of_getElem? hqueue
    simp only [owed, hset, herase]
    simp only [hparts, hparts', List.filterMap_append, List.filterMap_cons, Worker.job?,
      List.map_append, List.map_cons, List.mem_append, List.mem_cons]
    simp only [or_assoc, or_comm, or_left_comm]
  | deliver hcrew _ =>
    obtain ⟨front, back, hparts, hset, -⟩ := exists_parts_of_getElem? hcrew
    simp only [owed, hset]
    simp only [hparts, List.filterMap_append, List.filterMap_cons, Worker.job?,
      List.map_append, List.map_cons, List.mem_append, List.mem_cons, List.not_mem_nil]
    simp only [false_or, or_assoc, or_comm, or_left_comm]
  | abandon _ hfinished => exact absurd hfinished hstage'
  | leave hcrew _ _ =>
    obtain ⟨front, back, hparts, hset, -⟩ := exists_parts_of_getElem? hcrew
    simp only [owed, hset]
    simp only [hparts, List.filterMap_append, List.filterMap_cons, Worker.job?]
  | collect hcollecting _ _ | finish hcollecting _ => exact absurd hcollecting hstage

namespace Accounts

theorem index_lt (h : Accounts f jobs p) {index : Nat} {result : β}
    (hr : (index, result) ∈ p.owed f) : index < p.results.length := by
  obtain ⟨hlt, -⟩ := List.getElem?_eq_some_iff.mp (h.right _ hr)
  rwa [List.length_map, ← h.length] at hlt

/-- A result that is put where it belongs is owed no more. -/
theorem collect (h : Accounts f jobs p) {place index : Nat} {result : β}
    (hdelivered : p.delivered[place]? = some (index, result)) :
    Accounts f jobs { p with
      delivered := p.delivered.eraseIdx place
      results := p.results.set index result } := by
  obtain ⟨front, back, hparts, -, herase⟩ := exists_parts_of_getElem? hdelivered
  have howed (r : Nat × β) : r ∈ p.owed f ↔ r = (index, result) ∨
      r ∈ owed f { p with
        delivered := p.delivered.eraseIdx place
        results := p.results.set index result } := by
    simp only [owed, herase]
    simp only [hparts, List.mem_append, List.mem_cons]
    exact (or_congr_right or_left_comm).trans or_left_comm
  have hmem := (howed (index, result)).mpr (.inl rfl)
  constructor
  case right => exact fun r hr => h.right r ((howed r).mpr (.inr hr))
  case length => exact List.length_set.trans h.length
  case settled =>
    intro i hi
    by_cases hindex : index = i
    · subst hindex
      exact .inr ((List.getElem?_set_self (h.index_lt hmem)).trans (h.right _ hmem).symm)
    · -- another number has what it had, and what it is owed is still among the delivered
      rw [List.getElem?_set_ne hindex]
      refine (h.settled i hi).imp_left fun ⟨y, hy⟩ => ⟨y, ?_⟩
      exact ((howed _).mp hy).resolve_left fun heq => hindex (congrArg Prod.fst heq).symm

/-- **Every move keeps the accounts.** -/
theorem moves (h : Accounts f jobs p) (horderly : p.Orderly) (hmoves : p.Moves f p') :
    Accounts f jobs p' := by
  by_cases hends : p.stage = .collecting ∨ p.stage = .finished
  · have hgone {w : Nat} {worker : Worker α} (hw : p.crew[w]? = some worker) : worker = .gone :=
      horderly.dismissed hends worker (List.mem_of_getElem? hw)
    cases hmoves with
    | share hstage _ | refuse hstage _ | close hstage _ | dismiss hstage _ =>
      simp [hstage] at hends
    | take hw _ | deliver hw _ | abandon hw _ | leave hw _ _ => exact absurd (hgone hw) nofun
    | collect _ hdelivered _ => exact h.collect hdelivered
    | finish _ _ => exact ⟨h.right, h.length, h.settled⟩
  · obtain ⟨hcollecting, hfinished⟩ := not_or.mp hends
    have howed := mem_owed_of_moves hmoves hcollecting hfinished
    have hresults : p'.results = p.results := by
      cases hmoves with
      | collect hstage _ _ => exact absurd hstage hcollecting
      | _ => rfl
    refine ⟨fun r hr => h.right r ((howed r).mp hr), hresults ▸ h.length, fun i hi => ?_⟩
    rw [hresults]
    exact (h.settled i hi).imp_left fun ⟨y, hy⟩ => ⟨y, (howed _).mpr hy⟩

/-- **At the end all results are in order.** -/
theorem results_eq (h : Accounts f jobs p) (horderly : p.Orderly) (hstage : p.stage = .finished) :
    p.results = jobs.map f := by
  have hgone := horderly.dismissed (.inr hstage)
  have hcrew : p.crew.filterMap Worker.job? = [] :=
    List.filterMap_eq_nil_iff.mpr fun w hw => by rw [hgone w hw]; rfl
  have howed : p.owed f = [] := by
    simp [owed, hcrew, horderly.shared (by simp [hstage]), horderly.collected hstage,
      horderly.drained (horderly.gone_mem hgone)]
  apply List.ext_getElem?
  intro i
  by_cases hi : i < jobs.length
  · rcases h.settled i hi with ⟨y, hy⟩ | hresult
    · exact absurd hy (by simp [howed])
    · exact hresult
  · rw [List.getElem?_eq_none (by rw [h.length]; omega),
      List.getElem?_eq_none (by rw [List.length_map]; omega)]

end Accounts

/-! ## From the start to the end -/

/-- A pool in which jobs are done in order and nothing is lost. -/
structure Sound (f : α → β) (jobs : List α) (p : Pool α β) : Prop where
  orderly : p.Orderly
  accounts : Accounts f jobs p

/-- At the start all results are owed. -/
theorem mem_owed_start (f : α → β) (jobs : List α) (workers : Nat) (missing : β) (r : Nat × β) :
    r ∈ (start jobs workers missing).owed f ↔ (jobs.map f)[r.1]? = some r.2 := by
  have hcrew : (List.replicate workers (Worker.idle (α := α))).filterMap Worker.job? = [] :=
    List.filterMap_eq_nil_iff.mpr fun w hw => by rw [List.eq_of_mem_replicate hw]; rfl
  obtain ⟨index, result⟩ := r
  simp only [owed, start, hcrew, List.append_nil, List.map_map, List.mem_map, List.getElem?_map,
    Option.map_eq_some_iff]
  constructor
  · rintro ⟨⟨job, i⟩, hmem, heq⟩
    obtain ⟨rfl, rfl⟩ := Prod.mk.inj heq
    exact ⟨job, List.mk_mem_zipIdx_iff_getElem?.mp hmem, rfl⟩
  · rintro ⟨job, hjob, rfl⟩
    exact ⟨(job, index), List.mk_mem_zipIdx_iff_getElem?.mpr hjob, rfl⟩

theorem sound_start (f : α → β) (jobs : List α) {workers : Nat} (hworkers : 0 < workers)
    (missing : β) : Sound f jobs (start jobs workers missing) := by
  have howed := mem_owed_start f jobs workers missing
  constructor
  case orderly =>
    have hcrew (w : Worker α) (hw : w ∈ (start jobs workers missing).crew) : w = .idle :=
      List.eq_of_mem_replicate hw
    refine ⟨?_, fun _ hgone => absurd (hcrew _ hgone) nofun, fun hstage => absurd rfl hstage,
      fun hgone => absurd (hcrew _ hgone) nofun, nofun, nofun⟩
    rw [start, ne_eq, List.replicate_eq_nil_iff]
    omega
  case accounts =>
    refine ⟨fun r hr => (howed r).mp hr, List.length_replicate, fun i hi => .inl ?_⟩
    exact ⟨f jobs[i], (howed _).mpr (by simp [hi])⟩

theorem left_start (jobs : List α) (workers : Nat) (missing : β) :
    (start jobs workers missing).left = 4 * jobs.length + workers + 3 := by
  simp [left, start, Stage.left, totalOf_replicate, Worker.left]

namespace Sound

theorem step (h : Sound f jobs p) (hstep : p.step f m = some p') :
    Sound f jobs p' ∧ p.left = p'.left + 1 := by
  have hmoves := moves_of_step hstep
  exact ⟨⟨h.orderly.moves hmoves, h.accounts.moves h.orderly hmoves⟩, h.orderly.left_eq hmoves⟩

/-- **Nothing that happens in a pool loses a result or gets it into a wrong place**, and of the
moves to come as many are made as happen. -/
theorem perform (h : Sound f jobs p) {moves : List Move} (hmoves : p.perform f moves = some p') :
    Sound f jobs p' ∧ moves.length + p'.left = p.left := by
  induction moves generalizing p with
  | nil =>
    obtain rfl := Option.some.inj hmoves
    exact ⟨h, Nat.zero_add _⟩
  | cons m moves ih =>
    obtain ⟨q, hstep, hrest⟩ := Option.bind_eq_some_iff.mp hmoves
    obtain ⟨hq, hleft⟩ := h.step hstep
    obtain ⟨hend, hlength⟩ := ih hq hrest
    refine ⟨hend, ?_⟩
    rw [List.length_cons]
    omega

/-- **A pool that is not at its end can move on**, and does what is due. -/
theorem isSome_step_due (h : Sound f jobs p) (hstage : p.stage ≠ .finished) :
    (p.step f p.due).isSome := by
  cases hstage' : p.stage with
  | sharing =>
    cases hunshared : p.unshared with
    | nil => simp [due, hstage', hunshared, Pool.step]
    | cons job rest =>
      have hrefuse := h.orderly.not_refuse hstage'
      simp [due, hstage', hunshared, Pool.step, hrefuse]
  | leaving =>
    cases hplace : p.crew.findIdx? (!·.isGone) with
    | none =>
      have hgone : p.crew.all (·.isGone) = true := by
        simpa using List.findIdx?_eq_none_iff.mp hplace
      simp [due, hstage', hplace, Pool.step, hgone]
    | some w =>
      obtain ⟨hlt, hw, -⟩ := List.findIdx?_eq_some_iff_getElem.mp hplace
      have hcrew := List.getElem?_eq_getElem hlt
      cases hworker : p.crew[w] with
      | gone => simp [hworker, Worker.isGone] at hw
      | busy job =>
        rw [hworker] at hcrew
        simp [due, hstage', hplace, hcrew, Pool.step]
      | idle =>
        rw [hworker] at hcrew
        cases hqueue : p.queue with
        | nil => simp [due, hstage', hplace, hcrew, hqueue, Pool.step]
        | cons job queue => simp [due, hstage', hplace, hcrew, hqueue, Pool.step]
  | collecting =>
    cases hdelivered : p.delivered with
    | nil => simp [due, hstage', hdelivered, Pool.step]
    | cons r delivered =>
      have hmem : (r.1, r.2) ∈ p.owed f := List.mem_append_right _ (by simp [hdelivered])
      have hindex := h.accounts.index_lt hmem
      simp [due, hstage', hdelivered, Pool.step, hindex]
  | finished => exact absurd hstage' hstage

/-- At the end nothing is to come. -/
theorem left_eq_zero (h : Sound f jobs p) (hstage : p.stage = .finished) : p.left = 0 := by
  have hgone := h.orderly.dismissed (.inr hstage)
  have hcrew : totalOf Worker.left p.crew = 0 := by
    rw [List.eq_replicate_of_mem hgone, totalOf_replicate, Worker.left, Nat.mul_zero]
  simp [left, hcrew, hstage, Stage.left, h.orderly.shared (by simp [hstage]),
    h.orderly.collected hstage, h.orderly.drained (h.orderly.gone_mem hgone)]

theorem exists_step_iff (h : Sound f jobs p) :
    (∃ m, (p.step f m).isSome) ↔ p.stage ≠ .finished := by
  constructor
  · rintro ⟨m, hm⟩ hstage
    obtain ⟨p', hstep⟩ := Option.isSome_iff_exists.mp hm
    have hleft := (h.step hstep).2
    rw [h.left_eq_zero hstage] at hleft
    omega
  · exact fun hstage => ⟨p.due, h.isSome_step_due hstage⟩

/-- A run by any plan comes to its end. -/
theorem run (h : Sound f jobs p) (plan : Pool α β → Move) :
    Sound f jobs (p.run f plan) ∧ (p.run f plan).stage = .finished := by
  induction p using run.induct f plan with
  | case1 p p' hnext ih =>
    rw [Pool.run, hnext]
    refine ih ?_
    rcases Option.or_eq_some_iff.mp hnext with hstep | ⟨-, hstep⟩
    · exact (h.step hstep).1
    · exact (h.step hstep).1
  | case2 p hnext =>
    rw [Pool.run, hnext]
    refine ⟨h, Decidable.byContradiction fun hstage => ?_⟩
    obtain ⟨p', hdue⟩ := Option.isSome_iff_exists.mp (h.isSome_step_due hstage)
    exact absurd (Option.or_eq_none_iff.mp hnext).2 (by simp [hdue])

end Sound

/-- **Whoever takes which job when, a pool finds what one worker finds.** -/
theorem map_eq (f : α → β) (missing : β) (plan : Pool α β → Move) (workers : Nat) (jobs : List α) :
    map f missing plan workers jobs = jobs.map f := by
  simp only [map]
  split
  · rfl
  · have hstaff : 0 < staff workers jobs.length := by
      rw [staff]
      omega
    obtain ⟨hsound, hstage⟩ := (sound_start f jobs hstaff missing).run plan
    exact hsound.accounts.results_eq hsound.orderly hstage

end Pool

/-! ## Many spans of a template -/

namespace Template

/-- **Any number of workers paints spans as one worker does**: any spans, be they regions of the
template or not. Whatever plan the workers go by, what comes of each span stands in its own place,
and if they end at offsets and the template has fewer than `2 ^ 32` bytes, these are the tokens of
the spans. And whatever the workers do, in whatever order, comes to an end: some move is possible up
to the end, all of them together are so many, and at the end all results are in order. -/
theorem colorAll_eq (t : Template) (d : Dialect) (workers : Nat) {regions : List Region}
    (h : ∀ r ∈ regions, r.stop ≤ Offset.max) :
    (∀ r ∈ regions, Lexer.Agrees t.length (t.paint? d r) (.ok (t.color d r))) ∧
      (∀ plan, t.colorAll? d plan workers regions = regions.mapM (t.paint? d)) ∧
      (t.length < 0x100000000 →
        ∀ plan, t.colorAll? d plan workers regions = .ok (regions.map (t.color d))) ∧
      ∀ moves p,
        (Pool.start regions (Pool.staff workers regions.length) (.ok [])).perform (t.paint? d)
            moves = some p →
          moves.length + p.left =
              4 * regions.length + Pool.staff workers regions.length + 3 ∧
            ((∃ m, (p.step (t.paint? d) m).isSome) ↔ p.stage ≠ .finished) ∧
            (p.stage = .finished → p.results = regions.map (t.paint? d)) := by
  have hpaint (r : Region) (hr : r ∈ regions) := t.paint?_agrees d (h r hr)
  have hall (plan) : t.colorAll? d plan workers regions = regions.mapM (t.paint? d) := by
    rw [colorAll?, Pool.map_eq, List.mapM_map]
    rfl
  refine ⟨hpaint, hall, fun hsize plan => ?_, fun moves p hmoves => ?_⟩
  · rw [hall]
    exact mapM_eq_ok fun r hr => (hpaint r hr).eq_of_lt hsize
  · have hstaff : 0 < Pool.staff workers regions.length := by
      rw [Pool.staff]
      omega
    obtain ⟨hsound, hleft⟩ :=
      (Pool.sound_start (t.paint? d) regions hstaff (.ok [])).perform hmoves
    rw [Pool.left_start] at hleft
    exact ⟨hleft, hsound.exists_step_iff, hsound.accounts.results_eq hsound.orderly⟩

/-- Two workers share three spans, of which two are the same. The job that was taken first is not
the first that is delivered, and what was delivered last is collected first. -/
theorem colorAll_eq_two_workers :
    (∀ r ∈ ([⟨.interpolation, 1, 4⟩, ⟨.plain, 0, 1⟩, ⟨.interpolation, 1, 4⟩] : List Region),
        r.stop ≤ Offset.max) ∧
      (ofString "a${b}").length < 0x100000000 ∧
      (∀ plan, (ofString "a${b}").colorAll? {} plan 2
          [⟨.interpolation, 1, 4⟩, ⟨.plain, 0, 1⟩, ⟨.interpolation, 1, 4⟩] =
        .ok [[⟨.interpolation, 1, 2⟩, ⟨.variable, 3, 1⟩, ⟨.interpolation, 4, 1⟩], [⟨.text, 0, 1⟩],
          [⟨.interpolation, 1, 2⟩, ⟨.variable, 3, 1⟩, ⟨.interpolation, 4, 1⟩]]) ∧
      ∃ p, (Pool.start [⟨.interpolation, 1, 4⟩, ⟨.plain, 0, 1⟩, ⟨.interpolation, 1, 4⟩]
          (Pool.staff 2 3) (.ok [])).perform ((ofString "a${b}").paint? {})
            [.share, .take 1 0, .share, .take 0 0, .share, .deliver 0, .close, .take 0 0,
              .deliver 1, .deliver 0, .leave 1, .leave 0, .dismiss, .collect 2, .collect 0,
              .collect 0, .finish] = some p ∧
        p.results =
          [.ok [⟨.interpolation, 1, 2⟩, ⟨.variable, 3, 1⟩, ⟨.interpolation, 4, 1⟩],
            .ok [⟨.text, 0, 1⟩],
            .ok [⟨.interpolation, 1, 2⟩, ⟨.variable, 3, 1⟩, ⟨.interpolation, 4, 1⟩]] := by
  have hfit : ∀ r ∈ ([⟨.interpolation, 1, 4⟩, ⟨.plain, 0, 1⟩, ⟨.interpolation, 1, 4⟩] :
      List Region), r.stop ≤ Offset.max := by decide
  have hsize : (ofString "a${b}").length < 0x100000000 := by decide
  obtain ⟨hpaint, -, hplan, hmoves⟩ := colorAll_eq (ofString "a${b}") {} 2 hfit
  have hcolor : ([⟨.interpolation, 1, 4⟩, ⟨.plain, 0, 1⟩, ⟨.interpolation, 1, 4⟩] :
      List Region).map ((ofString "a${b}").color {}) =
      [[⟨.interpolation, 1, 2⟩, ⟨.variable, 3, 1⟩, ⟨.interpolation, 4, 1⟩], [⟨.text, 0, 1⟩],
        [⟨.interpolation, 1, 2⟩, ⟨.variable, 3, 1⟩, ⟨.interpolation, 4, 1⟩]] := by decide
  have hresults : ([⟨.interpolation, 1, 4⟩, ⟨.plain, 0, 1⟩, ⟨.interpolation, 1, 4⟩] :
      List Region).map ((ofString "a${b}").paint? {}) =
      [.ok [⟨.interpolation, 1, 2⟩, ⟨.variable, 3, 1⟩, ⟨.interpolation, 4, 1⟩],
        .ok [⟨.text, 0, 1⟩],
        .ok [⟨.interpolation, 1, 2⟩, ⟨.variable, 3, 1⟩, ⟨.interpolation, 4, 1⟩]] := by
    rw [List.map_congr_left fun r hr => (hpaint r hr).eq_of_le (by decide)]
    exact congrArg (List.map Except.ok) hcolor
  refine ⟨hfit, hsize, fun plan => (hplan hsize plan).trans (congrArg Except.ok hcolor), ?_⟩
  have hfinished : ((Pool.start [⟨.interpolation, 1, 4⟩, ⟨.plain, 0, 1⟩, ⟨.interpolation, 1, 4⟩]
      (Pool.staff 2 3) (.ok [])).perform ((ofString "a${b}").paint? {})
        [.share, .take 1 0, .share, .take 0 0, .share, .deliver 0, .close, .take 0 0,
          .deliver 1, .deliver 0, .leave 1, .leave 0, .dismiss, .collect 2, .collect 0,
          .collect 0, .finish]).map Pool.stage = some .finished := by decide
  obtain ⟨p, hp, hstage⟩ := Option.map_eq_some_iff.mp hfinished
  obtain ⟨-, -, hdone⟩ := hmoves _ p hp
  exact ⟨p, hp, (hdone hstage).trans hresults⟩

end Template

end TemplateColoring

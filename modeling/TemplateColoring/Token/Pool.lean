import TemplateColoring.Token.Paint

/-!
# Coloring by several workers

Regions are colored independently of each other, so a crew of workers can share them.  The jobs are
put on a queue one by one, and behind the last the queue is closed.  An idle worker takes a job off
the queue and delivers what it made of it together with the job's number; once the queue is closed
and empty the worker leaves.  When all have left, what was delivered is collected and put in order
by number.

Who moves next is up to the machine.  `Pool.step` is one move, `Pool.perform` a sequence of moves,
and `Pool.run` a whole run, in which a plan names the next move of every pool.
-/

set_option autoImplicit false

namespace TemplateColoring

/-- What a worker is doing. -/
inductive Worker (α : Type)
  | idle
  /-- It has taken a job with a number. -/
  | busy (job : Nat × α)
  | gone
deriving DecidableEq, Repr

namespace Worker

variable {α : Type}

def isGone : Worker α → Bool
  | gone => true
  | idle | busy _ => false

def job? : Worker α → Option (Nat × α)
  | busy job => some job
  | idle | gone => none

/-- The number of moves of a worker who takes no further job. -/
def left : Worker α → Nat
  | busy _ => 3
  | idle => 1
  | gone => 0

end Worker

namespace Pool

/-- How far a run of a pool has come. -/
inductive Stage
  /-- Jobs are put on the queue. -/
  | sharing
  /-- The queue is closed, and the workers leave. -/
  | leaving
  /-- All workers have left, and their results are collected. -/
  | collecting
  | finished
deriving DecidableEq, Repr

namespace Stage

/-- The number of stages that are still to come. -/
def left : Stage → Nat
  | sharing => 3
  | leaving => 2
  | collecting => 1
  | finished => 0

end Stage

/-- What can happen in a pool. -/
inductive Move
  /-- The next job is put on the queue. -/
  | share
  /-- The queue is closed behind the last job. -/
  | close
  /-- A worker takes the job at a place of the queue. -/
  | take (worker place : Nat)
  /-- A worker delivers its result. -/
  | deliver (worker : Nat)
  /-- A worker finds the queue closed and empty. -/
  | leave (worker : Nat)
  /-- All workers have left. -/
  | dismiss
  /-- The result at a place among those delivered is put where it belongs. -/
  | collect (place : Nat)
  /-- Nothing that was delivered is left. -/
  | finish
deriving DecidableEq, Repr

end Pool

/-- Jobs on their way through a pool: still to be put on the queue, on the queue, in the hands of
the crew, delivered, and in order. -/
structure Pool (α β : Type) where
  unshared : List (Nat × α)
  queue : List (Nat × α) := []
  crew : List (Worker α)
  delivered : List (Nat × β) := []
  results : List β
  stage : Pool.Stage := .sharing
deriving DecidableEq, Repr

namespace Pool

variable {α β : Type}

/-- A pool in which nothing has happened, with the jobs numbered from zero on.  A number without a
result keeps `missing`. -/
def start (jobs : List α) (workers : Nat) (missing : β) : Pool α β where
  unshared := jobs.zipIdx.map fun (job, index) => (index, job)
  crew := List.replicate workers .idle
  results := List.replicate jobs.length missing

/-- A pool after a move, if the move is possible. -/
def step (f : α → β) (p : Pool α β) : Move → Option (Pool α β)
  | .share =>
    match p.stage, p.unshared with
    | .sharing, job :: rest =>
      -- a queue from which nobody takes any more refuses the job, and no other job is tried
      if p.crew.all (·.isGone) then some { p with stage := .leaving }
      else some { p with unshared := rest, queue := p.queue ++ [job] }
    | _, _ => none
  | .close =>
    if p.stage = .sharing ∧ p.unshared.isEmpty then some { p with stage := .leaving } else none
  | .take w place =>
    match p.crew[w]?, p.queue[place]? with
    | some .idle, some job =>
      some { p with queue := p.queue.eraseIdx place, crew := p.crew.set w (.busy job) }
    | _, _ => none
  | .deliver w =>
    match p.crew[w]? with
    | some (.busy (index, job)) =>
      -- a worker whose result nobody waits for leaves
      if p.stage = .finished then some { p with crew := p.crew.set w .gone }
      else
        some { p with
          crew := p.crew.set w .idle
          delivered := p.delivered ++ [(index, f job)] }
    | _ => none
  | .leave w =>
    match p.crew[w]? with
    | some .idle =>
      if p.stage ≠ .sharing ∧ p.queue.isEmpty then some { p with crew := p.crew.set w .gone }
      else none
    | _ => none
  | .dismiss =>
    if p.stage = .leaving ∧ p.crew.all (·.isGone) then some { p with stage := .collecting }
    else none
  | .collect place =>
    match p.stage, p.delivered[place]? with
    | .collecting, some (index, result) =>
      if index < p.results.length then
        some { p with
          delivered := p.delivered.eraseIdx place
          results := p.results.set index result }
      else none
    | _, _ => none
  | .finish =>
    if p.stage = .collecting ∧ p.delivered.isEmpty then some { p with stage := .finished }
    else none

/-- A pool after moves, if all of them are possible. -/
def perform (f : α → β) (p : Pool α β) : List Move → Option (Pool α β)
  | [] => some p
  | m :: moves => (p.step f m).bind fun p => p.perform f moves

/-! ## Every move makes progress -/

/-- The number of moves up to the end: four for each job, one for each worker and three between the
stages. -/
def left (p : Pool α β) : Nat :=
  4 * p.unshared.length + 3 * p.queue.length + totalOf Worker.left p.crew + p.delivered.length +
    p.stage.left

/-- Around an element of a list. -/
theorem exists_parts_of_getElem? {γ : Type} {l : List γ} {i : Nat} {x : γ} (h : l[i]? = some x) :
    ∃ front back, l = front ++ x :: back ∧ (∀ y, l.set i y = front ++ y :: back) ∧
      l.eraseIdx i = front ++ back := by
  induction l generalizing i with
  | nil => exact absurd h (by simp)
  | cons a l ih =>
    cases i with
    | zero =>
      obtain rfl := Option.some.inj h
      exact ⟨[], l, rfl, fun _ => rfl, rfl⟩
    | succ i =>
      obtain ⟨front, back, rfl, hset, herase⟩ := ih h
      refine ⟨a :: front, back, rfl, fun y => ?_, ?_⟩
      · rw [List.set_cons_succ, hset, List.cons_append]
      · rw [List.eraseIdx_cons_succ, herase, List.cons_append]

/-- What a pool can become by one move. -/
inductive Moves (f : α → β) (p : Pool α β) : Pool α β → Prop
  | share {job : Nat × α} {rest : List (Nat × α)} (hstage : p.stage = .sharing)
      (hunshared : p.unshared = job :: rest) :
      Moves f p { p with unshared := rest, queue := p.queue ++ [job] }
  | refuse (hstage : p.stage = .sharing) (hgone : p.crew.all (·.isGone)) :
      Moves f p { p with stage := .leaving }
  | close (hstage : p.stage = .sharing) (hunshared : p.unshared = []) :
      Moves f p { p with stage := .leaving }
  | take {w place : Nat} {job : Nat × α} (hcrew : p.crew[w]? = some .idle)
      (hqueue : p.queue[place]? = some job) :
      Moves f p { p with queue := p.queue.eraseIdx place, crew := p.crew.set w (.busy job) }
  | deliver {w index : Nat} {job : α} (hcrew : p.crew[w]? = some (.busy (index, job)))
      (hstage : p.stage ≠ .finished) :
      Moves f p { p with
        crew := p.crew.set w .idle
        delivered := p.delivered ++ [(index, f job)] }
  | abandon {w : Nat} {job : Nat × α} (hcrew : p.crew[w]? = some (.busy job))
      (hstage : p.stage = .finished) :
      Moves f p { p with crew := p.crew.set w .gone }
  | leave {w : Nat} (hcrew : p.crew[w]? = some .idle) (hstage : p.stage ≠ .sharing)
      (hqueue : p.queue = []) :
      Moves f p { p with crew := p.crew.set w .gone }
  | dismiss (hstage : p.stage = .leaving) (hgone : p.crew.all (·.isGone)) :
      Moves f p { p with stage := .collecting }
  | collect {place index : Nat} {result : β} (hstage : p.stage = .collecting)
      (hdelivered : p.delivered[place]? = some (index, result))
      (hindex : index < p.results.length) :
      Moves f p { p with
        delivered := p.delivered.eraseIdx place
        results := p.results.set index result }
  | finish (hstage : p.stage = .collecting) (hdelivered : p.delivered = []) :
      Moves f p { p with stage := .finished }

/-- A move that is possible does one of these things. -/
theorem moves_of_step {f : α → β} {p p' : Pool α β} {m : Move} (h : p.step f m = some p') :
    p.Moves f p' := by
  cases m with
  | share =>
    simp only [step] at h
    split at h
    · next job rest hstage hunshared =>
      split at h <;> obtain rfl := Option.some.inj h
      · next hgone => exact .refuse hstage hgone
      · exact .share hstage hunshared
    · exact absurd h (by simp)
  | close =>
    obtain ⟨⟨hstage, hunshared⟩, h⟩ := Option.ite_none_right_eq_some.mp h
    obtain rfl := Option.some.inj h
    exact .close hstage (List.isEmpty_iff.mp hunshared)
  | take w place =>
    simp only [step] at h
    split at h
    · next job hcrew hqueue =>
      obtain rfl := Option.some.inj h
      exact .take hcrew hqueue
    · exact absurd h (by simp)
  | deliver w =>
    simp only [step] at h
    split at h
    · next index job hcrew =>
      split at h <;> obtain rfl := Option.some.inj h
      · next hstage => exact .abandon hcrew hstage
      · next hstage => exact .deliver hcrew hstage
    · exact absurd h (by simp)
  | leave w =>
    simp only [step] at h
    split at h
    · next hcrew =>
      obtain ⟨⟨hstage, hqueue⟩, h⟩ := Option.ite_none_right_eq_some.mp h
      obtain rfl := Option.some.inj h
      exact .leave hcrew hstage (List.isEmpty_iff.mp hqueue)
    · exact absurd h (by simp)
  | dismiss =>
    obtain ⟨⟨hstage, hgone⟩, h⟩ := Option.ite_none_right_eq_some.mp h
    obtain rfl := Option.some.inj h
    exact .dismiss hstage hgone
  | collect place =>
    simp only [step] at h
    split at h
    · next index result hstage hdelivered =>
      obtain ⟨hindex, h⟩ := Option.ite_none_right_eq_some.mp h
      obtain rfl := Option.some.inj h
      exact .collect hstage hdelivered hindex
    · exact absurd h (by simp)
  | finish =>
    obtain ⟨⟨hstage, hdelivered⟩, h⟩ := Option.ite_none_right_eq_some.mp h
    obtain rfl := Option.some.inj h
    exact .finish hstage (List.isEmpty_iff.mp hdelivered)

/-- Every move is one of those that were to come, except where a worker is left alone with its
result. -/
theorem left_of_moves {f : α → β} {p p' : Pool α β} (h : p.Moves f p') :
    p.left = p'.left + 1 ∨
      p.stage = .finished ∧ (∃ job, .busy job ∈ p.crew) ∧ p.left = p'.left + 3 := by
  cases h with
  | share _ hunshared =>
    left
    simp only [left, hunshared, List.length_cons, List.length_append, List.length_nil]
    omega
  | refuse hstage _ | close hstage _ | dismiss hstage _ | finish hstage _ =>
    left
    simp [left, hstage, Stage.left]
  | take hcrew hqueue =>
    left
    obtain ⟨front, back, hparts, hset, -⟩ := exists_parts_of_getElem? hcrew
    obtain ⟨front', back', hparts', -, herase⟩ := exists_parts_of_getElem? hqueue
    simp only [left, hset, herase]
    simp only [hparts, hparts', totalOf_append, totalOf_cons, List.length_append,
      List.length_cons, Worker.left]
    omega
  | deliver hcrew _ | leave hcrew _ _ =>
    left
    obtain ⟨front, back, hparts, hset, -⟩ := exists_parts_of_getElem? hcrew
    simp only [left, hset]
    simp only [hparts, totalOf_append, totalOf_cons, List.length_append, List.length_cons,
      List.length_nil, Worker.left]
    omega
  | abandon hcrew hstage =>
    right
    obtain ⟨front, back, hparts, hset, -⟩ := exists_parts_of_getElem? hcrew
    refine ⟨hstage, ⟨_, List.mem_of_getElem? hcrew⟩, ?_⟩
    simp only [left, hset]
    simp only [hparts, totalOf_append, totalOf_cons, Worker.left]
    omega
  | collect _ hdelivered _ =>
    left
    obtain ⟨front, back, hparts, -, herase⟩ := exists_parts_of_getElem? hdelivered
    simp only [left, herase]
    simp only [hparts, List.length_append, List.length_cons]
    omega

/-- **Every move that is possible brings a pool nearer to the end.** -/
theorem left_lt_of_step {f : α → β} {p p' : Pool α β} {m : Move} (h : p.step f m = some p') :
    p'.left < p.left := by
  rcases left_of_moves (moves_of_step h) with hleft | ⟨-, -, hleft⟩ <;> omega

/-! ## Whole runs -/

/-- A move that is due, whatever else may happen. -/
def due (p : Pool α β) : Move :=
  match p.stage with
  | .sharing => if p.unshared.isEmpty then .close else .share
  | .leaving =>
    match p.crew.findIdx? (!·.isGone) with
    | none => .dismiss
    | some w =>
      match p.crew[w]? with
      | some (.busy _) => .deliver w
      | _ => if p.queue.isEmpty then .leave w else .take w 0
  | .collecting => if p.delivered.isEmpty then .finish else .collect 0
  | .finished => .finish

/-- The pool after the move that a plan names or, if that is not possible, after one that is
due. -/
def next? (f : α → β) (plan : Pool α β → Move) (p : Pool α β) : Option (Pool α β) :=
  (p.step f (plan p)).or (p.step f p.due)

theorem left_lt_of_next? {f : α → β} {plan : Pool α β → Move} {p p' : Pool α β}
    (h : p.next? f plan = some p') : p'.left < p.left := by
  rcases Option.or_eq_some_iff.mp h with h | ⟨-, h⟩
  · exact left_lt_of_step h
  · exact left_lt_of_step h

/-- A run of a pool by a plan, up to the end. -/
def run (f : α → β) (plan : Pool α β → Move) (p : Pool α β) : Pool α β :=
  match _ : p.next? f plan with
  | some p' => run f plan p'
  | none => p
termination_by p.left
decreasing_by exact left_lt_of_next? ‹_›

/-- The plan by which the workers take the jobs in turn, each as soon as it is on the queue. -/
def inTurn (p : Pool α β) : Move :=
  match p.queue with
  | (index, _) :: _ => .take (index % p.crew.length) 0
  | [] => p.due

/-- The number of workers that are worth starting: at least one, and at most one for each job. -/
def staff (workers jobs : Nat) : Nat := max 1 (min workers (max jobs 1))

/-- The results of all jobs in the order of the jobs, made by a pool of workers that goes by a plan.
One worker needs no queue. -/
def map (f : α → β) (missing : β) (plan : Pool α β → Move) (workers : Nat) (jobs : List α) :
    List β :=
  let workers := staff workers jobs.length
  if workers = 1 then jobs.map f else ((start jobs workers missing).run f plan).results

end Pool

/-- The tokens of many spans of a template, painted by a pool of workers that goes by a plan. -/
def Template.colorAll? (t : Template) (d : Dialect)
    (plan : Pool Region (Except Offset.Fault (List Token)) → Pool.Move) (workers : Nat)
    (regions : List Region) : Except Offset.Fault (List (List Token)) :=
  (Pool.map (t.paint? d) (.ok []) plan workers regions).mapM id

end TemplateColoring

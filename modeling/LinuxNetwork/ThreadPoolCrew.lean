import LinuxNetwork.ThreadPoolInvariants

/-!
# The Thread Pool as a Crew

Who uses the pool sees the queue of tasks and what each worker runs; locks, notifications and
places in a loop do not matter to it. This is a system of its own with three kinds of steps, and
every step of the pool is one of them or invisible.

## Main results

* `Pool.crew_step`: the pool refines the crew.
-/

namespace LinuxNetwork.ThreadPool

/-- The tasks that wait, and the task that each worker runs. -/
structure Crew (n : ℕ) where
  queue : List ℕ
  serving : Fin n → Option ℕ

namespace Crew

variable {n : ℕ}

/-- A task is added, taken by a worker, or completed by it. -/
inductive Act (n : ℕ) where
  | push (task : ℕ)
  | take (i : Fin n)
  | finish (i : Fin n)
deriving DecidableEq, Repr

/-- A crew without tasks. -/
def new : Crew n where
  queue := []
  serving := fun _ => none

/-- One step. -/
def step (c : Crew n) : Act n → Option (Crew n)
  | .push task => some { c with queue := c.queue ++ [task] }
  | .take i =>
      match c.serving i, c.queue with
      | none, task :: queue => some ⟨queue, Function.update c.serving i (some task)⟩
      | none, [] => none
      | some _, _ => none
  | .finish i =>
      match c.serving i with
      | some _ => some { c with serving := Function.update c.serving i none }
      | none => none

end Crew

/-- The task that a worker runs. -/
def WorkerPc.task : WorkerPc → Option ℕ
  | .running task => some task
  | .idle | .testStop | .testEmpty | .blocking | .blocked | .woken | .exitStop | .exitEmpty
  | .popping | .exited => none

namespace Pool

variable {n : ℕ} {s t : Pool n} {a : Act n} {i : Fin n} {pc : WorkerPc}

/-- The crew of a pool. -/
def crew (s : Pool n) : Crew n where
  queue := s.tasks
  serving := fun i => (s.worker i).task

theorem crew_new : (new : Pool n).crew = .new :=
  rfl

/-- What a worker does around its tasks is invisible to the crew. -/
theorem crew_setWorker (hi : (s.worker i).task = none) (hpc : pc.task = none) :
    (s.setWorker i pc).crew = s.crew := by
  have hserving : ∀ j, ((s.setWorker i pc).worker j).task = (s.worker j).task := by
    intro j
    rw [setWorker_worker]
    split
    case isTrue hj => rw [hj, hi, hpc]
    case isFalse => rfl
  exact congrArg (Crew.mk s.tasks) (funext hserving)

theorem crew_setCaller (s : Pool n) (k : ℕ) (cpc : CallerPc) :
    (s.setCaller k cpc).crew = s.crew :=
  rfl

/-- Whom the destructor wakes is invisible to the crew, since a worker that sleeps serves
nothing. -/
theorem crew_notifyAll (s : Pool n) : s.notifyAll.crew = s.crew := by
  have hserving : ∀ i, (s.notifyAll.worker i).task = (s.worker i).task := by
    intro i
    rcases notifyAll_worker s i with ⟨hb, hi⟩ | ⟨-, hi⟩
    · rw [hi, hb]
      rfl
    · rw [hi]
  exact congrArg (Crew.mk s.tasks) (funext hserving)

/-- A worker that begins or ends a task shows it, and the other workers show what they did. -/
theorem serving_setWorker (s : Pool n) (i : Fin n) (pc : WorkerPc) :
    (fun j => ((s.setWorker i pc).worker j).task) =
      Function.update s.crew.serving i pc.task := by
  funext j
  rw [setWorker_worker, Function.update_apply]
  split <;> rfl

/-- **The pool refines the crew.** A push, a pop and the end of a task are steps of the crew,
and all other steps are none. -/
theorem crew_step (hstep : s.step a = some t) :
    t.crew = s.crew ∨ ∃ b, s.crew.step b = some t.crew := by
  cases moves_of_step hstep with
  | lockWorker i hpc =>
      have hnone : (s.worker i).task = none := by rcases hpc with hpc | hpc <;> rw [hpc] <;> rfl
      exact .inl (crew_setWorker (s := { s with owner := some (.worker i) }) hnone rfl)
  | stopped i hpc => exact .inl (crew_setWorker (congrArg WorkerPc.task hpc) rfl)
  | notStopped i hpc => exact .inl (crew_setWorker (congrArg WorkerPc.task hpc) rfl)
  | nothingToDo i hpc => exact .inl (crew_setWorker (congrArg WorkerPc.task hpc) rfl)
  | somethingToDo i hpc => exact .inl (crew_setWorker (congrArg WorkerPc.task hpc) rfl)
  | block i hpc => exact .inl (crew_setWorker (s := s.unlock) (congrArg WorkerPc.task hpc) rfl)
  | leave i hpc => exact .inl (crew_setWorker (congrArg WorkerPc.task hpc) rfl)
  | stay i hpc => exact .inl (crew_setWorker (congrArg WorkerPc.task hpc) rfl)
  | exit i hpc => exact .inl (crew_setWorker (s := s.unlock) (congrArg WorkerPc.task hpc) rfl)
  | drain i hpc => exact .inl (crew_setWorker (congrArg WorkerPc.task hpc) rfl)
  | pop i task tasks hpc htasks =>
      refine .inr ⟨.take i, ?_⟩
      have hnone : s.crew.serving i = none := congrArg WorkerPc.task hpc
      have hqueue : s.crew.queue = task :: tasks := htasks
      rw [Crew.step, hnone, hqueue]
      exact congrArg (fun serving => some (Crew.mk tasks serving))
        (serving_setWorker s i (.running task)).symm
  | run i task hpc =>
      refine .inr ⟨.finish i, ?_⟩
      have hsome : s.crew.serving i = some task := congrArg WorkerPc.task hpc
      rw [Crew.step, hsome]
      exact congrArg (fun serving => some (Crew.mk s.tasks serving))
        (serving_setWorker s i .idle).symm
  | spurious i hpc => exact .inl (crew_setWorker (congrArg WorkerPc.task hpc) rfl)
  | lockCaller k _ => exact .inl rfl
  | reject k _ => exact .inl rfl
  | accept k _ => exact .inl rfl
  | push k _ => exact .inr ⟨.push k, rfl⟩
  | wake k i _ hw =>
      exact .inl ((crew_setCaller _ k _).trans
        (crew_setWorker (congrArg WorkerPc.task hw) rfl))
  | lose k _ => exact .inl rfl
  | store => exact .inl rfl
  | notifyAll => exact .inl (crew_notifyAll s)
  | join j => exact .inl rfl
  | finish j => exact .inl rfl

end Pool

end LinuxNetwork.ThreadPool

import LinuxNetwork.Mutex
import LinuxNetwork.ThreadPool

/-!
# Invariants of the Thread Pool

`Moves` lists what a step can be, with its guard and its effect; all proofs about steps are
case analyses over it. Two invariants come first. Whoever stands in a critical section owns
the mutex, so at most one party does. And every worker satisfies the assertion `Fits` of
the place where it stands, about `stop_` and the queue: assertions about the queue are made
only by the owner of the mutex, except that an exited worker leaves behind a stopped pool
with an empty queue, to which no call can push anymore.

## Main results

* `moves_of_step`: every step is one of the moves.
* `exclusion`: the mutex invariant.
* `assertions`: the local assertions of all workers, and of the calls that push.
-/

open Transition

namespace LinuxNetwork.ThreadPool

namespace Pool

variable {n : ℕ}

/-- **The steps of the pool**, one constructor for each line of the source that a party may
execute next. -/
inductive Moves (s : Pool n) : Act n → Pool n → Prop
  | lockWorker (i : Fin n) : s.worker i = .idle ∨ s.worker i = .woken → s.owner = none →
      Moves s (.worker i) ({ s with owner := some (.worker i) }.setWorker i .testStop)
  | stopped (i : Fin n) : s.worker i = .testStop → s.stop = true →
      Moves s (.worker i) (s.setWorker i .exitStop)
  | notStopped (i : Fin n) : s.worker i = .testStop → s.stop = false →
      Moves s (.worker i) (s.setWorker i .testEmpty)
  | nothingToDo (i : Fin n) : s.worker i = .testEmpty → s.tasks = [] →
      Moves s (.worker i) (s.setWorker i .blocking)
  | somethingToDo (i : Fin n) : s.worker i = .testEmpty → s.tasks ≠ [] →
      Moves s (.worker i) (s.setWorker i .exitStop)
  | block (i : Fin n) : s.worker i = .blocking →
      Moves s (.worker i) (s.unlock.setWorker i .blocked)
  | leave (i : Fin n) : s.worker i = .exitStop → s.stop = true →
      Moves s (.worker i) (s.setWorker i .exitEmpty)
  | stay (i : Fin n) : s.worker i = .exitStop → s.stop = false →
      Moves s (.worker i) (s.setWorker i .popping)
  | exit (i : Fin n) : s.worker i = .exitEmpty → s.tasks = [] →
      Moves s (.worker i) (s.unlock.setWorker i .exited)
  | drain (i : Fin n) : s.worker i = .exitEmpty → s.tasks ≠ [] →
      Moves s (.worker i) (s.setWorker i .popping)
  | pop (i : Fin n) (task : ℕ) (tasks : List ℕ) : s.worker i = .popping →
      s.tasks = task :: tasks →
      Moves s (.worker i) { s.unlock.setWorker i (.running task) with
        tasks := tasks, taken := s.taken ++ [(i, task)] }
  | run (i : Fin n) (task : ℕ) : s.worker i = .running task →
      Moves s (.worker i) { s.setWorker i .idle with executed := s.executed ++ [task] }
  | spurious (i : Fin n) : s.worker i = .blocked →
      Moves s (.spurious i) (s.setWorker i .woken)
  | lockCaller (k : ℕ) : s.caller k = .start → s.owner = none →
      Moves s (.caller k) ({ s with owner := some (.caller k) }.setCaller k .testStop)
  | reject (k : ℕ) : s.caller k = .testStop → s.stop = true →
      Moves s (.caller k) (s.unlock.setCaller k .threw)
  | accept (k : ℕ) : s.caller k = .testStop → s.stop = false →
      Moves s (.caller k) (s.setCaller k .pushing)
  | push (k : ℕ) : s.caller k = .pushing →
      Moves s (.caller k) { s.unlock.setCaller k .notifying with
        tasks := s.tasks ++ [k], pushed := s.pushed ++ [k] }
  | wake (k : ℕ) (i : Fin n) : s.caller k = .notifying → s.worker i = .blocked →
      Moves s (.notifyOne k (some i)) ((s.setWorker i .woken).setCaller k .returned)
  | lose (k : ℕ) : s.caller k = .notifying → (∀ i, s.worker i ≠ .blocked) →
      Moves s (.notifyOne k none) (s.setCaller k .returned)
  | store : s.dtor = .start → Moves s .dtor { s with stop := true, dtor := .notifying }
  | notifyAll : s.dtor = .notifying → Moves s .dtor { s.notifyAll with dtor := .joining 0 }
  | join (j : ℕ) (h : j < n) : s.dtor = .joining j → s.worker ⟨j, h⟩ = .exited →
      Moves s .dtor { s with dtor := .joining (j + 1) }
  | finish (j : ℕ) : s.dtor = .joining j → n ≤ j → Moves s .dtor { s with dtor := .done }

variable {s t : Pool n} {a : Act n}

/-- A party gets the mutex when nobody owns it, and then owns it. -/
theorem lock_eq_some {p : Party n} :
    s.lock p = some t ↔ s.owner = none ∧ t = { s with owner := some p } := by
  simp [lock, eq_comm]

/-- **The steps of a worker**, from each place of its loop. A `lock` leads to a move only when
the mutex is free, and a test to one of two. -/
theorem moves_of_stepWorker {i : Fin n} (h : s.stepWorker i = some t) :
    Moves s (.worker i) t := by
  rw [stepWorker] at h
  split at h
  case h_1 hpc =>
      obtain ⟨u, hu, rfl⟩ := Option.map_eq_some_iff.mp h
      obtain ⟨ho, rfl⟩ := lock_eq_some.mp hu
      exact .lockWorker i (.inl hpc) ho
  case h_2 hpc =>
      obtain rfl := Option.some.inj h
      cases hs : s.stop with
      | true => exact .stopped i hpc hs
      | false => exact .notStopped i hpc hs
  case h_3 hpc =>
      obtain rfl := Option.some.inj h
      cases hs : s.tasks with
      | nil => exact .nothingToDo i hpc hs
      | cons => exact .somethingToDo i hpc (by simp [hs])
  case h_4 hpc =>
      obtain rfl := Option.some.inj h
      exact .block i hpc
  case h_6 hpc =>
      obtain ⟨u, hu, rfl⟩ := Option.map_eq_some_iff.mp h
      obtain ⟨ho, rfl⟩ := lock_eq_some.mp hu
      exact .lockWorker i (.inr hpc) ho
  case h_7 hpc =>
      obtain rfl := Option.some.inj h
      cases hs : s.stop with
      | true => exact .leave i hpc hs
      | false => exact .stay i hpc hs
  case h_8 hpc =>
      cases hs : s.tasks with
      | nil =>
          rw [hs] at h
          obtain rfl := Option.some.inj h
          exact .exit i hpc hs
      | cons =>
          rw [hs] at h
          obtain rfl := Option.some.inj h
          exact .drain i hpc (by simp [hs])
  case h_9 hpc =>
      cases hs : s.tasks with
      | nil => simp [hs] at h
      | cons task tasks =>
          rw [hs] at h
          obtain rfl := Option.some.inj h
          exact .pop i task tasks hpc hs
  case h_10 task hpc =>
      obtain rfl := Option.some.inj h
      exact .run i task hpc
  all_goals cases h

/-- **The steps of a call of `enqueue`**, from each place up to its push. The notification
behind it is a step of its own. -/
theorem moves_of_stepCaller {k : ℕ} (h : s.stepCaller k = some t) : Moves s (.caller k) t := by
  rw [stepCaller] at h
  split at h
  case h_1 hpc =>
      obtain ⟨u, hu, rfl⟩ := Option.map_eq_some_iff.mp h
      obtain ⟨ho, rfl⟩ := lock_eq_some.mp hu
      exact .lockCaller k hpc ho
  case h_2 hpc =>
      cases hs : s.stop with
      | true =>
          rw [hs] at h
          obtain rfl := Option.some.inj h
          exact .reject k hpc hs
      | false =>
          rw [hs] at h
          obtain rfl := Option.some.inj h
          exact .accept k hpc hs
  case h_3 hpc =>
      obtain rfl := Option.some.inj h
      exact .push k hpc
  all_goals cases h

/-- **The steps of the destructor**, from each place. It joins a worker only when that one has
exited. -/
theorem moves_of_stepDtor (h : s.stepDtor = some t) : Moves s .dtor t := by
  rw [stepDtor] at h
  split at h
  case h_1 hpc =>
      obtain rfl := Option.some.inj h
      exact .store hpc
  case h_2 hpc =>
      obtain rfl := Option.some.inj h
      exact .notifyAll hpc
  case h_3 j hpc =>
      by_cases hj : j < n
      · rw [dif_pos hj] at h
        obtain ⟨hw, h⟩ := Option.ite_none_right_eq_some.mp h
        obtain rfl := Option.some.inj h
        exact .join j hj hpc hw
      · rw [dif_neg hj] at h
        obtain rfl := Option.some.inj h
        exact .finish j hpc (not_lt.mp hj)
  case h_4 => cases h

/-- **Every step is one of the moves.** What follows is proved by cases on the moves, and
unfolds no step. -/
theorem moves_of_step (h : s.step a = some t) : Moves s a t := by
  cases a with
  | worker i => exact moves_of_stepWorker h
  | spurious i =>
      obtain ⟨hpc, h⟩ := Option.ite_none_right_eq_some.mp h
      obtain rfl := Option.some.inj h
      exact .spurious i hpc
  | caller k => exact moves_of_stepCaller h
  | notifyOne k woken =>
      obtain ⟨hpc, h⟩ := Option.ite_none_right_eq_some.mp h
      cases woken with
      | some i =>
          obtain ⟨hw, h⟩ := Option.ite_none_right_eq_some.mp h
          obtain rfl := Option.some.inj h
          exact .wake k i hpc hw
      | none =>
          obtain ⟨hw, h⟩ := Option.ite_none_right_eq_some.mp h
          obtain rfl := Option.some.inj h
          exact .lose k hpc hw
  | dtor => exact moves_of_stepDtor h

end Pool

/-! ### Mutual exclusion -/

/-- The places of a worker in which it holds the mutex. -/
def WorkerPc.holds : WorkerPc → Bool
  | .testStop | .testEmpty | .blocking | .exitStop | .exitEmpty | .popping => true
  | .idle | .blocked | .woken | .running _ | .exited => false

/-- The places of a call in which it holds the mutex. -/
def CallerPc.holds : CallerPc → Bool
  | .testStop | .pushing => true
  | .start | .notifying | .returned | .threw => false

namespace Pool

variable {n : ℕ} {s t : Pool n} {a : Act n} {i : Fin n} {k : ℕ} {pc : WorkerPc}
  {cpc : CallerPc}

@[simp] theorem setWorker_worker (s : Pool n) (i j : Fin n) (pc : WorkerPc) :
    (s.setWorker i pc).worker j = if j = i then pc else s.worker j :=
  Function.update_apply ..

@[simp] theorem setWorker_caller (s : Pool n) (i : Fin n) (pc : WorkerPc) :
    (s.setWorker i pc).caller = s.caller := rfl

@[simp] theorem setCaller_worker (s : Pool n) (k : ℕ) (pc : CallerPc) :
    (s.setCaller k pc).worker = s.worker := rfl

@[simp] theorem setCaller_caller (s : Pool n) (k j : ℕ) (pc : CallerPc) :
    (s.setCaller k pc).caller j = if j = k then pc else s.caller j :=
  Function.update_apply ..

/-- Whether a party stands where it holds the mutex. -/
def inside (s : Pool n) : Party n → Bool
  | .worker i => (s.worker i).holds
  | .caller k => (s.caller k).holds

/-- A worker that moves is inside if its new place is in a critical section. -/
theorem inside_setWorker (s : Pool n) (i : Fin n) (pc : WorkerPc) :
    (s.setWorker i pc).inside = Function.update s.inside (.worker i) pc.holds := by
  funext p
  cases p with
  | worker j => by_cases hj : j = i <;> simp [inside, hj]
  | caller k => rfl

/-- A call that moves is inside if its new place is in a critical section. -/
theorem inside_setCaller (s : Pool n) (k : ℕ) (cpc : CallerPc) :
    (s.setCaller k cpc).inside = Function.update s.inside (.caller k) cpc.holds := by
  funext p
  cases p with
  | worker i => rfl
  | caller j => by_cases hj : j = k <;> simp [inside, hj]

/-- **Mutual exclusion.** Whoever stands in a critical section owns the mutex. -/
def Exclusive (s : Pool n) : Prop :=
  Mutex.Exclusive s.owner s.inside

/-- A worker that stays inside, or stays outside, needs nothing of the mutex. -/
theorem Exclusive.moveWorker (h : s.Exclusive) (hpc : pc.holds = (s.worker i).holds) :
    (s.setWorker i pc).Exclusive := by
  rw [Exclusive, inside_setWorker]
  exact h.stay hpc

/-- A worker that gets the free mutex enters a critical section as the only one. -/
theorem Exclusive.lockWorker (h : s.Exclusive) (ho : s.owner = none)
    (hpc : pc.holds = true) :
    ({ s with owner := some (.worker i) }.setWorker i pc).Exclusive := by
  rw [Exclusive, inside_setWorker]
  exact Mutex.Exclusive.acquire (ho ▸ h) hpc

/-- A worker that leaves its critical section owns the mutex, and may release it. -/
theorem Exclusive.unlockWorker (h : s.Exclusive) (hi : (s.worker i).holds = true)
    (hpc : pc.holds = false) : (s.unlock.setWorker i pc).Exclusive := by
  rw [Exclusive, inside_setWorker]
  exact Mutex.Exclusive.release h (show s.inside (.worker i) = true from hi) hpc

/-- A call that stays inside, or stays outside, needs nothing of the mutex. -/
theorem Exclusive.moveCaller (h : s.Exclusive) (hpc : cpc.holds = (s.caller k).holds) :
    (s.setCaller k cpc).Exclusive := by
  rw [Exclusive, inside_setCaller]
  exact h.stay hpc

/-- A call that gets the free mutex enters a critical section as the only one. -/
theorem Exclusive.lockCaller (h : s.Exclusive) (ho : s.owner = none)
    (hpc : cpc.holds = true) :
    ({ s with owner := some (.caller k) }.setCaller k cpc).Exclusive := by
  rw [Exclusive, inside_setCaller]
  exact Mutex.Exclusive.acquire (ho ▸ h) hpc

/-- A call that leaves its critical section owns the mutex, and may release it. -/
theorem Exclusive.unlockCaller (h : s.Exclusive) (hk : (s.caller k).holds = true)
    (hpc : cpc.holds = false) : (s.unlock.setCaller k cpc).Exclusive := by
  rw [Exclusive, inside_setCaller]
  exact Mutex.Exclusive.release h (show s.inside (.caller k) = true from hk) hpc

/-- The workers that `notify_all` wakes are outside, before and after. -/
theorem Exclusive.notifyAll (h : s.Exclusive) : s.notifyAll.Exclusive := by
  have hinside : s.notifyAll.inside = s.inside := by
    funext p
    cases p with
    | worker i =>
        by_cases hi : s.worker i = .blocked <;> simp [inside, Pool.notifyAll, hi, WorkerPc.holds]
    | caller k => rfl
  rw [Exclusive, hinside]
  exact h

/-- Every step keeps mutual exclusion: it enters with the mutex, leaves and releases it, or does
neither. -/
theorem Exclusive.step (h : s.Exclusive) (hstep : s.step a = some t) : t.Exclusive := by
  cases moves_of_step hstep with
  | lockWorker i hpc ho => exact h.lockWorker ho rfl
  | stopped i hpc => exact h.moveWorker (by rw [hpc]; rfl)
  | notStopped i hpc => exact h.moveWorker (by rw [hpc]; rfl)
  | nothingToDo i hpc => exact h.moveWorker (by rw [hpc]; rfl)
  | somethingToDo i hpc => exact h.moveWorker (by rw [hpc]; rfl)
  | block i hpc => exact h.unlockWorker (by rw [hpc]; rfl) rfl
  | leave i hpc => exact h.moveWorker (by rw [hpc]; rfl)
  | stay i hpc => exact h.moveWorker (by rw [hpc]; rfl)
  | exit i hpc => exact h.unlockWorker (by rw [hpc]; rfl) rfl
  | drain i hpc => exact h.moveWorker (by rw [hpc]; rfl)
  | pop i task tasks hpc =>
      exact (h.unlockWorker (by rw [hpc]; rfl) rfl :
        (s.unlock.setWorker i (.running task)).Exclusive)
  | run i task hpc =>
      exact (h.moveWorker (by rw [hpc]; rfl) : (s.setWorker i .idle).Exclusive)
  | spurious i hpc => exact h.moveWorker (by rw [hpc]; rfl)
  | lockCaller k hpc ho => exact h.lockCaller ho rfl
  | reject k hpc => exact h.unlockCaller (by rw [hpc]; rfl) rfl
  | accept k hpc => exact h.moveCaller (by rw [hpc]; rfl)
  | push k hpc =>
      exact (h.unlockCaller (by rw [hpc]; rfl) rfl :
        (s.unlock.setCaller k .notifying).Exclusive)
  | wake k i hpc hw =>
      have hwoken : (s.setWorker i .woken).Exclusive := h.moveWorker (by rw [hw]; rfl)
      exact hwoken.moveCaller (by rw [setWorker_caller, hpc]; rfl)
  | lose k hpc => exact h.moveCaller (by rw [hpc]; rfl)
  | store => exact h
  | notifyAll => exact h.notifyAll
  | join => exact h
  | finish => exact h

end Pool

/-! ### Local assertions -/

/-- What a worker may rely on where it stands, about `stop_` and the queue. -/
def WorkerPc.Fits (stop : Bool) (tasks : List ℕ) : WorkerPc → Prop
  | .blocking => tasks = []
  | .exitStop => stop = true ∨ tasks ≠ []
  | .exitEmpty => stop = true
  | .popping => tasks ≠ []
  | .exited => stop = true ∧ tasks = []
  | _ => True

/-- Outside the critical sections, only an exited worker relies on anything. -/
theorem WorkerPc.fits_of_not_holds {stop : Bool} {tasks : List ℕ} {pc : WorkerPc}
    (hpc : pc.holds = false) (hne : pc ≠ .exited) : pc.Fits stop tasks := by
  cases pc with
  | exited => exact absurd rfl hne
  | idle | blocked | woken | running => trivial
  | testStop | testEmpty | blocking | exitStop | exitEmpty | popping => cases hpc

/-- No assertion says that `stop_` is false, so setting it breaks none. -/
theorem WorkerPc.Fits.stop {stop : Bool} {tasks : List ℕ} {pc : WorkerPc}
    (h : pc.Fits stop tasks) : pc.Fits true tasks := by
  cases pc with
  | exitStop => exact .inl rfl
  | exitEmpty => exact rfl
  | exited => exact ⟨rfl, h.2⟩
  | _ => exact h

namespace Pool

variable {n : ℕ} {s t : Pool n} {a : Act n} {i : Fin n} {k : ℕ} {pc : WorkerPc}
  {cpc : CallerPc}

/-- **The local assertions.** Every worker satisfies that of its place, and no call pushes
once a worker has exited. -/
structure Asserted (s : Pool n) : Prop where
  worker : ∀ i, (s.worker i).Fits s.stop s.tasks
  pushing : ∀ k, s.caller k = .pushing → ∀ i, s.worker i ≠ .exited

/-- A worker that moves on to a place whose assertion holds. It does not exit, so the calls
about to push lose nothing. -/
theorem Asserted.moveWorker (h : s.Asserted) (hpc : pc.Fits s.stop s.tasks)
    (hne : pc ≠ .exited) : (s.setWorker i pc).Asserted where
  worker := (Function.forall_update_iff s.worker fun _ pc => pc.Fits s.stop s.tasks).mpr
    ⟨hpc, fun j _ => h.worker j⟩
  pushing := fun k hk => (Function.forall_update_iff s.worker fun _ pc => pc ≠ .exited).mpr
    ⟨hne, fun j _ => h.pushing k hk j⟩

/-- A call that moves on, but not to its push, where an assertion says that no worker has
exited. -/
theorem Asserted.moveCaller (h : s.Asserted) (hne : cpc ≠ .pushing) :
    (s.setCaller k cpc).Asserted where
  worker := h.worker
  pushing := fun j hj => by
    by_cases hjk : j = k
    · rw [setCaller_caller, if_pos hjk] at hj
      exact absurd hj hne
    · rw [setCaller_caller, if_neg hjk] at hj
      exact h.pushing j hj

/-- The assertion of a worker whose place is known. -/
theorem Asserted.fits (h : s.Asserted) (hpc : s.worker i = pc) : pc.Fits s.stop s.tasks :=
  hpc ▸ h.worker i

/-- While one party is inside, the other workers rely on nothing, unless they have exited. -/
theorem Exclusive.fits_of_outside (hx : s.Exclusive) {p : Party n} (hp : s.inside p = true)
    {j : Fin n} (hj : .worker j ≠ p) (hne : s.worker j ≠ .exited) (stop : Bool)
    (tasks : List ℕ) : (s.worker j).Fits stop tasks :=
  WorkerPc.fits_of_not_holds (hx.outside hp hj) hne

/-- A worker that stands where the mutex is held is inside. -/
theorem inside_of_worker (hpc : s.worker i = pc) (h : pc.holds = true) :
    s.inside (.worker i) = true := by
  rw [← hpc] at h
  exact h

/-- A call that stands where the mutex is held is inside. -/
theorem inside_of_caller (hpc : s.caller k = cpc) (h : cpc.holds = true) :
    s.inside (.caller k) = true := by
  rw [← hpc] at h
  exact h

/-- A worker that exits holds the mutex, so that no call is about to push. -/
theorem Asserted.exit (hx : s.Exclusive) (h : s.Asserted) (hpc : s.worker i = .exitEmpty)
    (htasks : s.tasks = []) : (s.unlock.setWorker i .exited).Asserted where
  worker := (Function.forall_update_iff s.worker fun _ pc => pc.Fits s.stop s.tasks).mpr
    ⟨⟨h.fits hpc, htasks⟩, fun j _ => h.worker j⟩
  pushing := fun k hk => by
    have hout : s.inside (.caller k) = false :=
      hx.outside (inside_of_worker hpc rfl) nofun
    exact absurd (inside_of_caller hk rfl) (Bool.eq_false_iff.mp hout)

/-- A worker that pops finds the queue nonempty, so that no worker has exited. -/
theorem Asserted.pop (hx : s.Exclusive) (h : s.Asserted) {task : ℕ} {tasks : List ℕ}
    (hpc : s.worker i = .popping) (htasks : s.tasks = task :: tasks) :
    Asserted { s.unlock.setWorker i (.running task) with
      tasks := tasks, taken := s.taken ++ [(i, task)] } := by
  have hne : ∀ j, s.worker j ≠ .exited := by
    intro j hj
    exact List.cons_ne_nil _ _ (htasks.symm.trans (h.fits hj).2)
  refine ⟨(Function.forall_update_iff s.worker fun _ pc => pc.Fits s.stop tasks).mpr
    ⟨trivial, fun j hj => ?_⟩, fun k hk => ?_⟩
  · exact hx.fits_of_outside (inside_of_worker hpc rfl)
      (fun heq => hj (Party.worker.inj heq)) (hne j) _ _
  · exact (Function.forall_update_iff s.worker fun _ pc => pc ≠ WorkerPc.exited).mpr
      ⟨nofun, fun j _ => hne j⟩

/-- A call that pushes holds the mutex, so that no worker relies on an empty queue. -/
theorem Asserted.push (hx : s.Exclusive) (h : s.Asserted) (hpc : s.caller k = .pushing) :
    Asserted { s.unlock.setCaller k .notifying with
      tasks := s.tasks ++ [k], pushed := s.pushed ++ [k] } := by
  refine ⟨fun j => ?_, fun _ _ => h.pushing k hpc⟩
  exact hx.fits_of_outside (inside_of_caller hpc rfl) nofun (h.pushing k hpc j) _ _

/-- What `notify_all` does to a worker: it wakes one that is blocked, and leaves any other
alone. -/
theorem notifyAll_worker (s : Pool n) (i : Fin n) :
    s.worker i = .blocked ∧ s.notifyAll.worker i = .woken ∨
      s.worker i ≠ .blocked ∧ s.notifyAll.worker i = s.worker i := by
  by_cases hi : s.worker i = .blocked
  · exact .inl ⟨hi, if_pos hi⟩
  · exact .inr ⟨hi, if_neg hi⟩

/-- A worker that `notify_all` wakes has no assertion to meet, and no other worker moves. -/
theorem Asserted.notifyAll (h : s.Asserted) : s.notifyAll.Asserted where
  worker := fun i => by
    rcases notifyAll_worker s i with ⟨-, hi⟩ | ⟨-, hi⟩
    · rw [hi]
      trivial
    · rw [hi]
      exact h.worker i
  pushing := fun k hk i hex => by
    rcases notifyAll_worker s i with ⟨-, hi⟩ | ⟨-, hi⟩
    · exact nomatch hi.symm.trans hex
    · exact h.pushing k hk i (hi.symm.trans hex)

/-- Every step keeps the local assertions. A call about to push found `stop_` false, and then no
worker has exited. -/
theorem Asserted.step (hx : s.Exclusive) (h : s.Asserted) (hstep : s.step a = some t) :
    t.Asserted := by
  have hown : ∀ o, Asserted { s with owner := o } := fun _ => ⟨h.worker, h.pushing⟩
  cases moves_of_step hstep with
  | lockWorker i => exact (hown _).moveWorker trivial nofun
  | stopped i hpc hs => exact h.moveWorker (.inl hs) nofun
  | notStopped i => exact h.moveWorker trivial nofun
  | nothingToDo i hpc hs => exact h.moveWorker hs nofun
  | somethingToDo i hpc hs => exact h.moveWorker (.inr hs) nofun
  | block i => exact (hown none).moveWorker trivial nofun
  | leave i hpc hs => exact h.moveWorker hs nofun
  | stay i hpc hs =>
      have hfits : s.stop = true ∨ s.tasks ≠ [] := h.fits hpc
      exact h.moveWorker (hfits.resolve_left (by simp [hs])) nofun
  | exit i hpc hs => exact h.exit hx hpc hs
  | drain i hpc hs => exact h.moveWorker hs nofun
  | pop i task tasks hpc hs => exact h.pop hx hpc hs
  | run i task =>
      have hidle : (s.setWorker i .idle).Asserted := h.moveWorker trivial nofun
      exact ⟨hidle.worker, hidle.pushing⟩
  | spurious i => exact h.moveWorker trivial nofun
  | lockCaller k => exact (hown _).moveCaller nofun
  | reject k => exact (hown none).moveCaller nofun
  | accept k hpc hs =>
      refine ⟨h.worker, fun j _ i hi => ?_⟩
      exact Bool.false_ne_true (hs.symm.trans (h.fits hi).1)
  | push k hpc => exact h.push hx hpc
  | wake k i =>
      have hwoken : (s.setWorker i .woken).Asserted := h.moveWorker trivial nofun
      exact hwoken.moveCaller nofun
  | lose k => exact h.moveCaller nofun
  | store => exact ⟨fun i => (h.worker i).stop, h.pushing⟩
  | notifyAll => exact ⟨h.notifyAll.worker, h.notifyAll.pushing⟩
  | join => exact ⟨h.worker, h.pushing⟩
  | finish => exact ⟨h.worker, h.pushing⟩

end Pool

/-! ### Reachable states -/

variable {threadCount : ℕ} {s : Pool (workerCount threadCount)}
  {C : Pool (workerCount threadCount) → Pool.Act (workerCount threadCount) → Prop}

/-- Mutual exclusion holds in every run, by induction on its steps. -/
theorem exclusion (h : (pool threadCount).ReachableWhile C s) : s.Exclusive := by
  refine System.Inductive.holds ⟨?_, fun _ _ _ hx _ hstep => hx.step hstep⟩ h
  rintro _ rfl (i | k) <;> simp [Pool.inside, Pool.new, WorkerPc.holds, CallerPc.holds]

/-- The local assertions hold in every run. The induction has mutual exclusion at hand. -/
theorem assertions (h : (pool threadCount).ReachableWhile C s) : s.Asserted := by
  refine System.Inductive.holds_of (fun _ => exclusion) ?_
    (fun _ _ _ hx _ hs _ hstep => hs.step hx hstep) h
  rintro _ rfl
  exact ⟨fun _ => trivial, fun _ hk => nomatch hk⟩

end LinuxNetwork.ThreadPool

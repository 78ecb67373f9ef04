import LinuxNetwork.ThreadPoolShutdown

/-!
# The Running Thread Pool Drains Its Queue

As long as the destructor has not begun, the workers serve whatever is pushed. For a finite
set `K` of calls, each step of a worker or of one of these calls lowers `load`, which weighs
the places of the parties and the queued tasks; a spurious wake-up raises it by what the worker
needs to fall asleep again. And no party waits for good: while a call of `K` is not over or a
task is queued, some step is possible, since no notification that matters is ever lost.

## Main results

* `Pool.load_step`: what a step does to the load of a running pool.
* `Pool.drained_of_end`: a running pool in which no step is possible is drained.
* `pool_drains`: whatever the order of the steps, they end with every accepted task executed
  and every worker asleep.
-/

open Transition

namespace LinuxNetwork.ThreadPool

/-! ### The load -/

/-- The steps a worker of a running pool has left, up to its sleep or its next `pop`. -/
def WorkerPc.load : WorkerPc → ℕ
  | .running _ => 5
  | .idle | .woken => 4
  | .testStop => 3
  | .testEmpty => 2
  | .blocking | .exitStop => 1
  | .blocked | .popping | .exitEmpty | .exited => 0

/-- The steps a call on a running pool has left, and those its task and its notification will
cause. -/
def CallerPc.load : CallerPc → ℕ
  | .start => 14
  | .testStop => 13
  | .pushing => 12
  | .notifying => 5
  | .returned | .threw => 0

namespace Pool

variable {n : ℕ} {s t : Pool n} {a : Act n} {i : Fin n} {k : ℕ} {K : Finset ℕ}

/-- **The load** of a running pool: the steps left to its workers and to the calls `K`. -/
def load (K : Finset ℕ) (s : Pool n) : ℕ :=
  ∑ i, (s.worker i).load + ∑ k ∈ K, (s.caller k).load + 6 * s.tasks.length

/-- When a worker moves, its old place is taken from the load and its new one added. -/
theorem load_setWorker (s : Pool n) (i : Fin n) (pc : WorkerPc) :
    (s.setWorker i pc).load K + (s.worker i).load = s.load K + pc.load := by
  have hw := total_weight_update (Finset.mem_univ i) WorkerPc.load s.worker pc
  change (∑ j, (Function.update s.worker i pc j).load + ∑ k ∈ K, (s.caller k).load +
    6 * s.tasks.length) + (s.worker i).load = _
  rw [load]
  omega

/-- When one of the calls `K` moves, its old place is taken from the load and its new one added. -/
theorem load_setCaller (s : Pool n) (hk : k ∈ K) (pc : CallerPc) :
    (s.setCaller k pc).load K + (s.caller k).load = s.load K + pc.load := by
  have hw := total_weight_update hk CallerPc.load s.caller pc
  change (∑ i, (s.worker i).load + ∑ j ∈ K, (Function.update s.caller k pc j).load +
    6 * s.tasks.length) + (s.caller k).load = _
  rw [load]
  omega

/-- The queue weighs six for each task. The states agree in the places of the workers and calls. -/
theorem load_tasks (hw : t.worker = s.worker) (hc : t.caller = s.caller) :
    t.load K + 6 * s.tasks.length = s.load K + 6 * t.tasks.length := by
  rw [load, load, hw, hc]
  omega

/-- A worker that moves on to a lighter place lowers the load. -/
theorem load_setWorker_lt {pc pc₀ : WorkerPc} (hi : s.worker i = pc₀) (hpc : pc.load < pc₀.load) :
    (s.setWorker i pc).load K + 1 ≤ s.load K := by
  have hw := load_setWorker (K := K) s i pc
  rw [hi] at hw
  omega

/-- A call that moves on to a lighter place lowers the load. -/
theorem load_setCaller_lt {pc pc₀ : CallerPc} (hk : k ∈ K) (hpc₀ : s.caller k = pc₀)
    (hpc : pc.load < pc₀.load) : (s.setCaller k pc).load K + 1 ≤ s.load K := by
  have hw := load_setCaller s hk pc
  rw [hpc₀] at hw
  omega

/-- Whether a step is a spurious wake-up. -/
def Act.isSpurious : Act n → Bool
  | .spurious _ => true
  | .worker _ | .caller _ | .notifyOne _ _ | .dtor => false

/-- The steps of the workers and of the calls `K`. -/
def Act.Serves (K : Set ℕ) : Act n → Prop
  | .caller k | .notifyOne k _ => k ∈ K
  | .worker _ => True
  | .spurious _ | .dtor => False

/-- The steps of a running pool are those of its workers and of the calls `K`, and none of the
destructor. -/
theorem Act.within_of_serves {K : Set ℕ} (ha : a.isSpurious = true ∨ a.Serves K) :
    a.Within K ∧ a ≠ .dtor := by
  cases a with
  | worker i => exact ⟨trivial, nofun⟩
  | spurious i => exact ⟨trivial, nofun⟩
  | caller k => exact ⟨ha.resolve_left nofun, nofun⟩
  | notifyOne k woken => exact ⟨ha.resolve_left nofun, nofun⟩
  | dtor => exact (ha.resolve_left nofun).elim

/-- **What a step does to the load**: it lowers it, or is a spurious wake-up. A task weighs more in
the queue than with its worker, and a notification pays for the way of the worker it wakes. -/
theorem load_step (h : s.Asserted) (hstop : s.stop = false)
    (ha : a.isSpurious = true ∨ a.Serves K) (hstep : s.step a = some t) :
    t.load K + 1 ≤ s.load K + if a.isSpurious then 5 else 0 := by
  have hk := (Act.within_of_serves ha).1
  have hdtor := (Act.within_of_serves ha).2
  cases moves_of_step hstep with
  | lockWorker i hpc ho =>
      rcases hpc with hpc | hpc <;>
        exact load_setWorker_lt (s := { s with owner := some (.worker i) }) hpc (by decide)
  | stopped i hpc hs => exact nomatch hstop.symm.trans hs
  | notStopped i hpc => exact load_setWorker_lt hpc (by decide)
  | nothingToDo i hpc => exact load_setWorker_lt hpc (by decide)
  | somethingToDo i hpc => exact load_setWorker_lt hpc (by decide)
  | block i hpc => exact load_setWorker_lt (s := s.unlock) hpc (by decide)
  | leave i hpc hs => exact nomatch hstop.symm.trans hs
  | stay i hpc => exact load_setWorker_lt hpc (by decide)
  | exit i hpc => exact nomatch hstop.symm.trans (h.fits hpc)
  | drain i hpc => exact nomatch hstop.symm.trans (h.fits hpc)
  | pop i task tasks hpc htasks =>
      have hw := load_setWorker (K := K) s.unlock i (.running task)
      change _ + (s.worker i).load = s.load K + 5 at hw
      rw [hpc] at hw
      change _ + 0 = _ at hw
      refine Nat.le_trans ?_ (Nat.le_add_right _ _)
      set t : Pool n := { s.unlock.setWorker i (.running task) with
        tasks := tasks, taken := s.taken ++ [(i, task)] }
      have ht := load_tasks (s := s.unlock.setWorker i (.running task)) (t := t) (K := K) rfl rfl
      change _ + 6 * s.tasks.length = _ + 6 * tasks.length at ht
      rw [htasks, List.length_cons] at ht
      omega
  | run i task hpc =>
      exact (load_setWorker_lt hpc (by decide : 4 < 5) : (s.setWorker i .idle).load K + 1 ≤ _)
  | spurious i hpc =>
      have hw := load_setWorker (K := K) s i .woken
      rw [hpc] at hw
      change _ + 0 = s.load K + 4 at hw
      change (s.setWorker i .woken).load K + 1 ≤ s.load K + 5
      omega
  | lockCaller k hpc =>
      exact load_setCaller_lt (s := { s with owner := some (.caller k) }) hk hpc (by decide)
  | reject k hpc hs => exact nomatch hstop.symm.trans hs
  | accept k hpc => exact load_setCaller_lt hk hpc (by decide)
  | push k hpc =>
      have hc := load_setCaller s.unlock hk .notifying
      change _ + (s.caller k).load = s.load K + 5 at hc
      rw [hpc] at hc
      change _ + 12 = _ at hc
      refine Nat.le_trans ?_ (Nat.le_add_right _ _)
      set t : Pool n := { s.unlock.setCaller k .notifying with
        tasks := s.tasks ++ [k], pushed := s.pushed ++ [k] }
      have ht := load_tasks (s := s.unlock.setCaller k .notifying) (t := t) (K := K) rfl rfl
      change _ + 6 * s.tasks.length = _ + 6 * (s.tasks ++ [k]).length at ht
      rw [List.length_append, List.length_singleton] at ht
      omega
  | wake k i hpc hi =>
      have hw := load_setWorker (K := K) s i .woken
      have hc := load_setCaller (s.setWorker i .woken) hk .returned
      rw [hi] at hw
      rw [setWorker_caller, hpc] at hc
      change _ + 0 = s.load K + 4 at hw
      change _ + 5 = _ + 0 at hc
      change ((s.setWorker i .woken).setCaller k .returned).load K + 1 ≤ s.load K
      omega
  | lose k hpc => exact load_setCaller_lt hk hpc (by decide)
  | store | notifyAll | join | finish => exact absurd rfl hdtor

/-! ### The end of all steps -/

/-- **The pool is drained**: all workers sleep, every accepted task was executed, once, and the
calls `K` have returned their futures, whose tasks are among these. -/
structure Drained (K : Finset ℕ) (s : Pool n) : Prop where
  worker : ∀ i, s.worker i = .blocked
  tasks : s.tasks = []
  executed : s.executed.Perm s.pushed
  caller : ∀ k ∈ K, s.caller k = .returned
  served : ∀ k ∈ K, s.executed.count k = 1

/-- A pool whose destructor has not begun is not stopped, and no call has thrown. -/
def Open (s : Pool n) : Prop :=
  s.dtor = .start → s.stop = false ∧ ∀ k, s.caller k ≠ .threw

/-- A call that moves on, but does not throw, keeps the pool open. -/
theorem Open.moveCaller (h : s.Open) {pc : CallerPc} (hpc : pc ≠ .threw) :
    (s.setCaller k pc).Open :=
  fun hd => ⟨(h hd).1, (Function.forall_update_iff s.caller fun _ pc => pc ≠ CallerPc.threw).mpr
    ⟨hpc, fun j _ => (h hd).2 j⟩⟩

/-- Every step keeps the pool open, until the destructor begins. A call throws only when `stop_`
is set. -/
theorem Open.step (h : s.Open) (hstep : s.step a = some t) : t.Open := by
  have hown : ∀ o, Open { s with owner := o } := fun _ => h
  cases moves_of_step hstep with
  | lockCaller k => exact (hown _).moveCaller nofun
  | reject k hpc hs => exact fun hd => nomatch hs.symm.trans (h hd).1
  | accept k => exact h.moveCaller nofun
  | push k =>
      have hpush : (s.unlock.setCaller k .notifying).Open := (hown none).moveCaller nofun
      exact hpush
  | wake k i =>
      have hwoken : (s.setWorker i .woken).Open := h
      exact hwoken.moveCaller nofun
  | lose k => exact h.moveCaller nofun
  | store | notifyAll | join | finish => exact fun hd => nomatch hd
  | _ => exact h

/-- When no step is possible, a worker of a running pool sleeps: from every other place it can
go on. -/
theorem blocked_of_end (hx : s.Exclusive) (h : s.Asserted) (hstop : s.stop = false)
    (ho : s.owner = none) (hend : s.stepWorker i = none) : s.worker i = .blocked := by
  have hout : (s.worker i).holds = false := hx.outside_of_free ho (.worker i)
  cases hpc : s.worker i with
  | blocked => rfl
  | idle => simp [stepWorker, hpc, lock, ho] at hend
  | woken => simp [stepWorker, hpc, lock, ho] at hend
  | running => simp [stepWorker, hpc] at hend
  | exited => exact absurd (hstop.symm.trans (h.fits hpc).1) Bool.false_ne_true
  | testStop | testEmpty | blocking | exitStop | exitEmpty | popping =>
      rw [hpc] at hout
      cases hout

/-- When no step is possible, a call on a running pool is over: its notification finds a worker
that sleeps. -/
theorem returned_of_end (hx : s.Exclusive) (ho : s.owner = none) (hw : s.worker i = .blocked)
    (hthrew : s.caller k ≠ .threw) (hend : s.stepCaller k = none)
    (hwake : s.notifyOne k (some i) = none) : s.caller k = .returned := by
  have hout : (s.caller k).holds = false := hx.outside_of_free ho (.caller k)
  cases hpc : s.caller k with
  | returned => rfl
  | threw => exact absurd hpc hthrew
  | start => simp [stepCaller, hpc, lock, ho] at hend
  | notifying => simp [notifyOne, hpc, hw] at hwake
  | testStop | pushing => rw [hpc] at hout; cases hout

/-- The task of a call that has returned was accepted. -/
theorem History.mem_pushed (h : s.History) (hk : s.caller k = .returned) : k ∈ s.pushed := by
  rw [h.calls, hk]
  rfl

/-- **A running pool in which no step is possible is drained.** The workers sleep and the calls
are over, those of `K` and the others, so a task left in the queue would have nobody to attend
it. -/
theorem drained_of_end (hn : 0 < n) (hx : s.Exclusive) (h : s.Asserted) (hatt : s.Attended)
    (hist : s.History) (hstop : s.stop = false) (hthrew : ∀ k, s.caller k ≠ .threw)
    (hK : ∀ k ∉ K, s.caller k = .start ∨ s.caller k = .returned)
    (hend : ∀ a : Act n, a.Serves K → s.step a = none) : s.Drained K := by
  have ho : s.owner = none := by
    refine owner_of_end hx h fun p hp => hend _ ?_
    cases p with
    | worker i => trivial
    | caller k =>
        by_contra hk
        have hin : (s.caller k).holds = true := hp
        rcases hK k hk with hpc | hpc <;> rw [hpc] at hin <;> cases hin
  have hw : ∀ i, s.worker i = .blocked := fun i =>
    blocked_of_end hx h hstop ho (hend (.worker i) trivial)
  have hcaller : ∀ k ∈ K, s.caller k = .returned := fun k hk =>
    returned_of_end hx ho (hw ⟨0, hn⟩) (hthrew k) (hend (.caller k) hk)
      (hend (.notifyOne k (some ⟨0, hn⟩)) hk)
  have htasks : s.tasks = [] := by
    by_contra hne
    rcases hatt hne with ⟨i, -, hb⟩ | ⟨k, hk⟩
    · exact hb (hw i)
    · by_cases hkK : k ∈ K
      · exact nomatch hk.symm.trans (hcaller k hkK)
      · rcases hK k hkK with hpc | hpc <;> exact nomatch hk.symm.trans hpc
  have hperm := hist.executed_perm htasks fun i k hi => nomatch hi.symm.trans (hw i)
  refine ⟨hw, htasks, hperm, hcaller, fun k hk => ?_⟩
  rw [hperm.count_eq, List.count_eq_one_of_mem hist.nodup (hist.mem_pushed (hcaller k hk))]

/-- In a drained pool no worker and none of the calls `K` has a step left. -/
theorem Drained.step_eq_none (h : s.Drained K) (ha : a.Serves K) : s.step a = none := by
  cases a with
  | worker i =>
      change s.stepWorker i = none
      rw [stepWorker, h.worker i]
  | caller k =>
      change s.stepCaller k = none
      rw [stepCaller, h.caller k ha]
  | notifyOne k woken =>
      change s.notifyOne k woken = none
      simp [notifyOne, h.caller k ha]
  | spurious i => exact ha.elim
  | dtor => exact ha.elim

end Pool

/-! ### Reachable states -/

variable {threadCount : ℕ} {s : Pool (workerCount threadCount)} {K : Finset ℕ}

/-- In every reachable state the pool is open until its destructor begins. -/
theorem stays_open (h : (pool threadCount).Reachable s) : s.Open :=
  System.Inductive.holds ⟨by rintro _ rfl; exact fun _ => ⟨rfl, nofun⟩,
    fun _ _ _ hs _ hstep => hs.step hstep⟩ h

/-- A running pool: the destructor has not begun, and only the calls `K` are under way. -/
structure Serving (K : Finset ℕ) (s : Pool (workerCount threadCount)) : Prop where
  reachable : (pool threadCount).Reachable s
  dtor : s.dtor = .start
  calls : ∀ k ∉ K, s.caller k = .start ∨ s.caller k = .returned

/-- Every step of a running pool lowers its load, unless it is a spurious wake-up, and leaves
the pool running. -/
theorem Serving.step {t : Pool (workerCount threadCount)}
    {a : Pool.Act (workerCount threadCount)} (h : Serving K s)
    (ha : a.isSpurious = true ∨ a.Serves K) (hstep : (pool threadCount).step s a = some t) :
    Serving K t ∧ t.load K + 1 ≤ s.load K + if a.isSpurious then 5 else 0 := by
  obtain ⟨hwithin, hdtor⟩ := Pool.Act.within_of_serves ha
  refine ⟨⟨h.reachable.step hstep, (Pool.dtor_of_step hdtor hstep).trans h.dtor, fun k hk => ?_⟩,
    Pool.load_step (assertions h.reachable) (stays_open h.reachable h.dtor).1 ha hstep⟩
  rw [Pool.caller_of_step hwithin hstep hk]
  exact h.calls k hk

/-- A running pool that can do no more step is drained, by the invariants of its reachable
states. -/
theorem Serving.drained (h : Serving K s)
    (hend : ∀ a, a.Serves K → (pool threadCount).step s a = none) : s.Drained K := by
  obtain ⟨hstop, hthrew⟩ := stays_open h.reachable h.dtor
  exact Pool.drained_of_end (workerCount_pos threadCount) (exclusion h.reachable)
    (assertions h.reachable) (attended h.reachable) (history h.reachable) hstop hthrew h.calls hend

/-- **The running pool drains its queue.** While the destructor has not begun, the workers and
any finite set `K` of calls, the only ones under way, have at most `load` steps left, whatever
their order, and five more for each spurious wake-up. While a step is left to them the pool is
not drained, and when none is, every accepted task was executed, once, those of `K` among them,
and all workers sleep. Such an end can always be reached. -/
theorem pool_drains (h : (pool threadCount).Reachable s) (hd : s.dtor = .start)
    (hK : ∀ k ∉ K, s.caller k = .start ∨ s.caller k = .returned) :
    (∀ as t, (∀ a ∈ as, a.isSpurious = true ∨ a.Serves K) →
      (pool threadCount).run s as = some t →
      as.length ≤ s.load K + 5 * as.countP Pool.Act.isSpurious ∧
        ((∀ a, a.Serves K → (pool threadCount).step t a = none) ↔ t.Drained K)) ∧
      ∃ as t, (∀ a ∈ as, a.Serves K) ∧ (pool threadCount).run s as = some t ∧
        t.Drained K := by
  have hs : Serving K s := ⟨h, hd, hK⟩
  refine ⟨fun as t has hrun => ?_, ?_⟩
  · obtain ⟨ht, hle⟩ := System.length_add_le_of_run_of_raise
      (fun _ _ _ hs ha hstep => Serving.step hs ha hstep) hs has hrun
    exact ⟨by omega, fun hend => ht.drained hend, fun hdone a ha => hdone.step_eq_none ha⟩
  · have hlower : ∀ s a t, Serving K s → a.Serves K → (pool threadCount).step s a = some t →
        Serving K t ∧ t.load K < s.load K := by
      intro s a t hs ha hstep
      obtain ⟨ht, hle⟩ := hs.step (.inr ha) hstep
      cases a with
      | spurious i => exact ha.elim
      | worker | caller | notifyOne | dtor => exact ⟨ht, hle⟩
    obtain ⟨as, t, has, hrun, hend⟩ := System.exists_run_to_end hlower hs
    obtain ⟨ht, -⟩ := System.length_add_le_of_run hlower hs has hrun
    exact ⟨as, t, has, hrun, ht.drained hend⟩

/-- One worker sleeps while a call owes its notification, and two more calls have not begun. -/
theorem pool_drains_example :
    ∃ s : Pool (workerCount 1), s.tasks = [0] ∧ s.worker ⟨0, by decide⟩ = .blocked ∧
      (∀ as t, (∀ a ∈ as, a.isSpurious = true ∨ a.Serves ({0, 1, 2} : Finset ℕ)) →
        (pool 1).run s as = some t →
        as.length ≤ s.load {0, 1, 2} + 5 * as.countP Pool.Act.isSpurious ∧
          ((∀ a, a.Serves ({0, 1, 2} : Finset ℕ) → (pool 1).step t a = none) ↔
            t.Drained {0, 1, 2})) ∧
        ∃ as t, (∀ a ∈ as, a.Serves ({0, 1, 2} : Finset ℕ)) ∧ (pool 1).run s as = some t ∧
          t.Drained {0, 1, 2} := by
  obtain ⟨s, hrun⟩ : ∃ s, (pool 1).run Pool.new [.worker ⟨0, by decide⟩, .worker ⟨0, by decide⟩,
    .worker ⟨0, by decide⟩, .worker ⟨0, by decide⟩, .caller 0, .caller 0, .caller 0] = some s :=
    ⟨_, rfl⟩
  obtain rfl := Option.some.inj hrun
  refine ⟨_, rfl, rfl, pool_drains (System.reachable_of_run _ (.init rfl) hrun) rfl fun k hk => ?_⟩
  have hk0 : k ≠ 0 := fun hk0 => hk (by simp [hk0])
  left
  change Function.update (Function.update (Function.update (fun _ => CallerPc.start) 0
    CallerPc.testStop) 0 CallerPc.pushing) 0 CallerPc.notifying k = CallerPc.start
  simp [hk0]

end LinuxNetwork.ThreadPool

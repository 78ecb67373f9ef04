import Mathlib.Algebra.BigOperators.Fin
import LinuxNetwork.ThreadPoolWakeups

/-!
# The Destructor of the Thread Pool Returns

Once the destructor is past its `notify_all`, and that found no worker falling asleep, the
workers, the destructor and any finite number of calls of `enqueue` have only so many steps
left: each step lowers `work`, which weighs the places of the parties and the queued tasks.
And as long as the destructor has not joined all workers, some step is possible: whoever
holds the mutex goes on, and when it is free a worker can take it, or has exited.

## Main results

* `Pool.work_lt`: every step of a stopped pool lowers its work.
* `Pool.atEnd`: a stopped pool in which no step is possible is shut down.
* `destructor_returns`: whatever the order of the steps, they end with the pool shut down.
-/

open Transition

namespace LinuxNetwork.ThreadPool

/-! ### The work that is left -/

/-- The steps a worker of a stopped pool has left, up to its exit or its next `pop`. -/
def WorkerPc.weight : WorkerPc → ℕ
  | .running _ => 7
  | .idle | .woken => 6
  | .testStop | .testEmpty => 5
  | .exitStop => 4
  | .exitEmpty => 3
  | .popping => 2
  | .blocking | .blocked | .exited => 0

/-- The steps a call on a stopped pool has left, and those its task will cause. -/
def CallerPc.weight : CallerPc → ℕ
  | .pushing => 13
  | .start => 3
  | .testStop | .notifying => 2
  | .returned | .threw => 0

/-- The steps the destructor has left behind its `notify_all`. -/
def DtorPc.weight (n : ℕ) : DtorPc → ℕ
  | .start | .notifying => n + 2
  | .joining j => n - j + 1
  | .done => 0

/-- A total weight in which one party moves: its old weight goes and its new one comes. -/
theorem total_weight_update {ι α : Type*} [DecidableEq ι] {S : Finset ι} {i : ι} (hi : i ∈ S)
    (weight : α → ℕ) (pc : ι → α) (a : α) :
    ∑ j ∈ S, weight (Function.update pc i a j) + weight (pc i) =
      ∑ j ∈ S, weight (pc j) + weight a := by
  have hnew := Finset.sum_update_of_mem hi (weight ∘ pc) (weight a)
  have hold := Finset.sum_eq_add_sum_sdiff_singleton_of_mem hi (weight ∘ pc)
  rw [← Function.comp_update] at hnew
  simp only [Function.comp_apply] at hnew hold
  omega

namespace Pool

variable {n : ℕ} {s t : Pool n} {a : Act n} {i : Fin n} {k : ℕ} {K : Finset ℕ}

/-- The work of the workers. -/
def workerWork (s : Pool n) : ℕ :=
  ∑ i, (s.worker i).weight

/-- The work of the calls `K`. -/
def callerWork (K : Finset ℕ) (s : Pool n) : ℕ :=
  ∑ k ∈ K, (s.caller k).weight

/-- **The work that is left** to a stopped pool and the calls `K`. -/
def work (K : Finset ℕ) (s : Pool n) : ℕ :=
  s.workerWork + s.callerWork K + 10 * s.tasks.length + s.dtor.weight n

/-- When a worker moves, its old place is taken from the work and its new one added. -/
theorem workerWork_setWorker (s : Pool n) (i : Fin n) (pc : WorkerPc) :
    (s.setWorker i pc).workerWork + (s.worker i).weight = s.workerWork + pc.weight :=
  total_weight_update (Finset.mem_univ i) WorkerPc.weight s.worker pc

/-- When one of the calls `K` moves, its old place is taken from the work and its new one added. -/
theorem callerWork_setCaller (s : Pool n) (hk : k ∈ K) (pc : CallerPc) :
    (s.setCaller k pc).callerWork K + (s.caller k).weight = s.callerWork K + pc.weight :=
  total_weight_update hk CallerPc.weight s.caller pc

/-- A worker that moves on to a lighter place lowers the work that is left. -/
theorem work_setWorker_lt {pc pc₀ : WorkerPc} (hi : s.worker i = pc₀)
    (hpc : pc.weight < pc₀.weight) : (s.setWorker i pc).work K < s.work K := by
  have hw := workerWork_setWorker s i pc
  rw [hi] at hw
  change (s.setWorker i pc).workerWork + s.callerWork K + 10 * s.tasks.length +
    s.dtor.weight n < s.work K
  rw [work]
  omega

/-- A call that moves on to a lighter place lowers the work that is left. -/
theorem work_setCaller_lt {pc pc₀ : CallerPc} (hk : k ∈ K) (hpc₀ : s.caller k = pc₀)
    (hpc : pc.weight < pc₀.weight) : (s.setCaller k pc).work K < s.work K := by
  have hw := callerWork_setCaller s hk pc
  rw [hpc₀] at hw
  change s.workerWork + (s.setCaller k pc).callerWork K + 10 * s.tasks.length +
    s.dtor.weight n < s.work K
  rw [work]
  omega

/-- The steps of the workers, of the destructor and of the calls `K`. -/
def Act.Within (K : Set ℕ) : Act n → Prop
  | .caller k | .notifyOne k _ => k ∈ K
  | .worker _ | .spurious _ | .dtor => True

/-- **Every step of a stopped pool lowers its work**, unless a worker can block. A task weighs
more in the queue than with its worker. -/
theorem work_lt (h : s.Roused) (hd : s.dtor.notified = true) (ha : a.Within K)
    (hstep : s.step a = some t) : t.work K < s.work K := by
  have hstop : s.stop = true := h.stop fun hs => by rw [hs] at hd; cases hd
  have hwakeful := h.worker hd
  cases moves_of_step hstep with
  | lockWorker i hpc ho =>
      rcases hpc with hpc | hpc <;>
        exact work_setWorker_lt (s := { s with owner := some (.worker i) }) hpc (by decide)
  | stopped i hpc => exact work_setWorker_lt hpc (by decide)
  | notStopped i hpc hs => exact nomatch hstop.symm.trans hs
  | nothingToDo i hpc hs =>
      have hi := hwakeful i
      rw [hpc] at hi
      exact absurd hs hi
  | somethingToDo i hpc => exact work_setWorker_lt hpc (by decide)
  | block i hpc =>
      have hi := hwakeful i
      rw [hpc] at hi
      exact hi.elim
  | leave i hpc => exact work_setWorker_lt hpc (by decide)
  | stay i hpc hs => exact nomatch hstop.symm.trans hs
  | exit i hpc => exact work_setWorker_lt (s := s.unlock) hpc (by decide)
  | drain i hpc => exact work_setWorker_lt hpc (by decide)
  | pop i task tasks hpc htasks =>
      have hw := workerWork_setWorker s.unlock i (.running task)
      change _ + (s.worker i).weight = s.workerWork + 7 at hw
      rw [hpc] at hw
      change _ + 2 = _ at hw
      change (s.unlock.setWorker i (.running task)).workerWork + s.callerWork K +
        10 * tasks.length + s.dtor.weight n < s.work K
      rw [work, htasks, List.length_cons]
      omega
  | run i task hpc => exact work_setWorker_lt hpc (by decide : 6 < 7)
  | spurious i hpc =>
      have hi := hwakeful i
      rw [hpc] at hi
      exact hi.elim
  | lockCaller k hpc =>
      exact work_setCaller_lt (s := { s with owner := some (.caller k) }) ha hpc (by decide)
  | reject k hpc => exact work_setCaller_lt (s := s.unlock) ha hpc (by decide)
  | accept k hpc hs => exact nomatch hstop.symm.trans hs
  | push k hpc =>
      have hw := callerWork_setCaller s.unlock ha .notifying
      change _ + (s.caller k).weight = s.callerWork K + 2 at hw
      rw [hpc] at hw
      change _ + 13 = _ at hw
      change s.workerWork + (s.unlock.setCaller k .notifying).callerWork K +
        10 * (s.tasks ++ [k]).length + s.dtor.weight n < s.work K
      rw [work, List.length_append, List.length_singleton]
      omega
  | wake k i hpc hi =>
      have hw := hwakeful i
      rw [hi] at hw
      exact hw.elim
  | lose k hpc => exact work_setCaller_lt ha hpc (by decide)
  | store hpc => rw [hpc] at hd; cases hd
  | notifyAll hpc => rw [hpc] at hd; cases hd
  | join j hj hpc =>
      change s.workerWork + s.callerWork K + 10 * s.tasks.length + (n - (j + 1) + 1) < s.work K
      rw [work, hpc, DtorPc.weight]
      omega
  | finish j hpc =>
      change s.workerWork + s.callerWork K + 10 * s.tasks.length + 0 < s.work K
      rw [work, hpc, DtorPc.weight]
      omega

/-! ### The end of all steps -/

/-- **The pool is shut down**: the destructor has joined all workers, every accepted task was
executed, once, and the calls `K` have returned a future or thrown. -/
structure ShutDown (K : Finset ℕ) (s : Pool n) : Prop where
  dtor : s.dtor = .done
  worker : ∀ i, s.worker i = .exited
  tasks : s.tasks = []
  executed : s.executed.Perm s.pushed
  caller : ∀ k ∈ K, s.caller k = .returned ∨ s.caller k = .threw

/-- The step of a party that stands in a critical section. -/
def actOf : Party n → Act n
  | .worker i => .worker i
  | .caller k => .caller k

/-- Whoever stands in a critical section can go on, since no place there waits for anybody. -/
theorem step_of_inside (h : s.Asserted) {p : Party n} (hp : s.inside p = true) :
    s.step (actOf p) ≠ none := by
  cases p with
  | worker i =>
      change s.stepWorker i ≠ none
      have hi : (s.worker i).holds = true := hp
      rw [stepWorker]
      cases hpc : s.worker i with
      | popping =>
          cases hs : s.tasks with
          | nil => exact absurd hs (h.fits hpc)
          | cons => exact Option.some_ne_none _
      | exitEmpty =>
          dsimp only
          split <;> exact Option.some_ne_none _
      | idle | blocked | woken | running | exited => rw [hpc] at hi; cases hi
      | testStop | testEmpty | blocking | exitStop => exact Option.some_ne_none _
  | caller k =>
      change s.stepCaller k ≠ none
      have hk : (s.caller k).holds = true := hp
      rw [stepCaller]
      cases hpc : s.caller k with
      | testStop =>
          dsimp only
          split <;> exact Option.some_ne_none _
      | pushing => exact Option.some_ne_none _
      | start | notifying | returned | threw => rw [hpc] at hk; cases hk

/-- Who stands in a critical section is a worker or one of the calls `K`. -/
theorem within_of_inside (hK : ∀ k ∉ K, (s.caller k).holds = false) {p : Party n}
    (hp : s.inside p = true) : (actOf p).Within K := by
  cases p with
  | worker i => trivial
  | caller k =>
      by_contra hk
      have hout : (s.caller k).holds = true := hp
      rw [hK k hk] at hout
      cases hout

/-- When nobody in a critical section can go on, the mutex is free, since its owner could. -/
theorem owner_of_end (hx : s.Exclusive) (h : s.Asserted)
    (hend : ∀ p : Party n, s.inside p = true → s.step (actOf p) = none) : s.owner = none := by
  by_contra hne
  obtain ⟨p, hp⟩ := Option.ne_none_iff_exists'.mp hne
  have hin : s.inside p = true := (hx p).mpr hp
  exact step_of_inside h hin (hend p hin)

/-- When no step is possible, a worker that cannot block has exited: from every other place it
could go on. -/
theorem exited_of_end (hx : s.Exclusive) (hr : s.Roused) (hd : s.dtor.notified = true)
    (ho : s.owner = none) (hend : ∀ a : Act n, a.Within K → s.step a = none) (i : Fin n) :
    s.worker i = .exited := by
  have hstep : s.stepWorker i = none := hend (.worker i) trivial
  have hout : (s.worker i).holds = false := hx.outside_of_free ho (.worker i)
  have hwakeful := hr.worker hd i
  cases hpc : s.worker i with
  | exited => rfl
  | idle => simp [stepWorker, hpc, lock, ho] at hstep
  | woken => simp [stepWorker, hpc, lock, ho] at hstep
  | running => simp [stepWorker, hpc] at hstep
  | blocked => rw [hpc] at hwakeful; exact hwakeful.elim
  | testStop | testEmpty | blocking | exitStop | exitEmpty | popping =>
      rw [hpc] at hout
      cases hout

/-- When no step is possible and no worker is blocked, a call is over: its notification is lost
at once. -/
theorem caller_of_end (hx : s.Exclusive) (ho : s.owner = none)
    (hw : ∀ i, s.worker i = .exited)
    (hend : ∀ a : Act n, a.Within K → s.step a = none) (hk : k ∈ K) :
    s.caller k = .returned ∨ s.caller k = .threw := by
  have hstep : s.stepCaller k = none := hend (.caller k) hk
  have hlose : s.notifyOne k none = none := hend (.notifyOne k none) hk
  have hout : (s.caller k).holds = false := hx.outside_of_free ho (.caller k)
  cases hpc : s.caller k with
  | returned => exact .inl rfl
  | threw => exact .inr rfl
  | start => simp [stepCaller, hpc, lock, ho] at hstep
  | notifying => simp [notifyOne, hpc, hw] at hlose
  | testStop | pushing => rw [hpc] at hout; cases hout

/-- The destructor stops only behind its last `join`, when all workers have exited. -/
theorem dtor_of_end (hd : s.dtor.notified = true) (hw : ∀ i, s.worker i = .exited)
    (hend : s.stepDtor = none) : s.dtor = .done := by
  cases hpc : s.dtor with
  | done => rfl
  | start | notifying => rw [hpc] at hd; cases hd
  | joining j => by_cases hj : j < n <;> simp [stepDtor, hpc, hj, hw] at hend

/-- All pushed tasks were executed when the queue is empty and no worker runs one. -/
theorem History.executed_perm (h : s.History) (htasks : s.tasks = [])
    (hw : ∀ i k, s.worker i ≠ .running k) : s.executed.Perm s.pushed := by
  have hpushed : s.pushed = s.takenTasks := by rw [h.queue, htasks, List.append_nil]
  refine (List.perm_ext_iff_of_nodup h.executed_nodup h.nodup).mpr fun k => ?_
  rw [hpushed]
  refine ⟨h.executed k, fun hk => ?_⟩
  obtain ⟨⟨i, k'⟩, hik, rfl⟩ := List.mem_map.mp hk
  rcases h.taken i k' hik with hex | hrun
  · exact hex
  · exact absurd hrun (hw i k')

/-- **A stopped pool in which no step is possible is shut down.** The mutex is free, so the
workers have exited, and behind them the calls and the destructor are over. -/
theorem atEnd (hn : 0 < n) (hx : s.Exclusive) (h : s.Asserted) (hr : s.Roused)
    (hist : s.History) (hd : s.dtor.notified = true)
    (hK : ∀ k ∉ K, (s.caller k).holds = false)
    (hend : ∀ a : Act n, a.Within K → s.step a = none) : s.ShutDown K := by
  have ho := owner_of_end hx h fun p hp => hend _ (within_of_inside hK hp)
  have hw := exited_of_end hx hr hd ho hend
  have htasks : s.tasks = [] := (h.fits (hw ⟨0, hn⟩)).2
  have hbusy : ∀ i k, s.worker i ≠ .running k := fun i k hi => nomatch hi.symm.trans (hw i)
  exact ⟨dtor_of_end hd hw (hend .dtor trivial), hw, htasks, hist.executed_perm htasks hbusy,
    fun k hk => caller_of_end hx ho hw hend hk⟩

/-- A pool that is shut down stays as it is, whoever of the parties is asked to move. -/
theorem ShutDown.step_eq_none (h : s.ShutDown K) (ha : a.Within K) : s.step a = none := by
  have hw : ∀ {i pc}, s.worker i = pc → .exited = pc := fun {i pc} hi => (h.worker i).symm.trans hi
  have hc : ∀ {k pc}, k ∈ K → s.caller k = pc → pc = .returned ∨ pc = .threw :=
    fun hk hpc => hpc ▸ h.caller _ hk
  have hd : ∀ {pc}, s.dtor = pc → .done = pc := fun hpc => h.dtor.symm.trans hpc
  refine Option.eq_none_iff_forall_ne_some.mpr fun t hstep => ?_
  cases moves_of_step hstep with
  | lockWorker i hpc => rcases hpc with hpc | hpc <;> exact nomatch hw hpc
  | stopped i hpc => exact nomatch hw hpc
  | notStopped i hpc => exact nomatch hw hpc
  | nothingToDo i hpc => exact nomatch hw hpc
  | somethingToDo i hpc => exact nomatch hw hpc
  | block i hpc => exact nomatch hw hpc
  | leave i hpc => exact nomatch hw hpc
  | stay i hpc => exact nomatch hw hpc
  | exit i hpc => exact nomatch hw hpc
  | drain i hpc => exact nomatch hw hpc
  | pop i task tasks hpc => exact nomatch hw hpc
  | run i task hpc => exact nomatch hw hpc
  | spurious i hpc => exact nomatch hw hpc
  | lockCaller k hpc => rcases hc ha hpc with hpc | hpc <;> cases hpc
  | reject k hpc => rcases hc ha hpc with hpc | hpc <;> cases hpc
  | accept k hpc => rcases hc ha hpc with hpc | hpc <;> cases hpc
  | push k hpc => rcases hc ha hpc with hpc | hpc <;> cases hpc
  | wake k i hpc => rcases hc ha hpc with hpc | hpc <;> cases hpc
  | lose k hpc => rcases hc ha hpc with hpc | hpc <;> cases hpc
  | store hpc => exact nomatch hd hpc
  | notifyAll hpc => exact nomatch hd hpc
  | join j hj hpc => exact nomatch hd hpc
  | finish j hpc => exact nomatch hd hpc

/-- A step of the calls `K` leaves the others where they are. -/
theorem caller_of_step {K : Set ℕ} (ha : a.Within K) (hstep : s.step a = some t) (hk : k ∉ K) :
    t.caller k = s.caller k := by
  have hne : ∀ {j}, j ∈ K → k ≠ j := fun hj hkj => hk (hkj ▸ hj)
  have hset : ∀ {u : Pool n} {j pc}, j ∈ K → (u.setCaller j pc).caller k = u.caller k :=
    fun hj => by rw [setCaller_caller, if_neg (hne hj)]
  cases moves_of_step hstep with
  | lockCaller j => exact hset ha
  | reject j => exact hset ha
  | accept j => exact hset ha
  | push j => exact hset (u := s.unlock) ha
  | wake j i => exact hset ha
  | lose j => exact hset ha
  | _ => rfl

/-- The destructor moves by its own steps, and by no other. -/
theorem dtor_of_step (ha : a ≠ .dtor) (hstep : s.step a = some t) : t.dtor = s.dtor := by
  cases moves_of_step hstep with
  | store | notifyAll | join | finish => exact absurd rfl ha
  | _ => rfl

/-- A task is executed by the worker that runs it, and by nothing else. -/
theorem executed_of_step (hstep : s.step a = some t) :
    (∃ i k, a = .worker i ∧ s.worker i = .running k ∧ t.executed = s.executed ++ [k]) ∨
      (t.executed = s.executed ∧ ∀ i k, a = .worker i → s.worker i ≠ .running k) := by
  have hother : ∀ {i pc}, s.worker i = pc → (∀ k, pc ≠ .running k) →
      ∀ j k, (.worker i : Act n) = .worker j → s.worker j ≠ .running k := by
    intro i pc hpc hne j k heq
    rw [← Act.worker.inj heq, hpc]
    exact hne k
  cases moves_of_step hstep with
  | run i k hpc => exact .inl ⟨i, k, rfl, hpc, rfl⟩
  | lockWorker i hpc =>
      rcases hpc with hpc | hpc <;> exact .inr ⟨rfl, hother hpc nofun⟩
  | stopped i hpc => exact .inr ⟨rfl, hother hpc nofun⟩
  | notStopped i hpc => exact .inr ⟨rfl, hother hpc nofun⟩
  | nothingToDo i hpc => exact .inr ⟨rfl, hother hpc nofun⟩
  | somethingToDo i hpc => exact .inr ⟨rfl, hother hpc nofun⟩
  | block i hpc => exact .inr ⟨rfl, hother hpc nofun⟩
  | leave i hpc => exact .inr ⟨rfl, hother hpc nofun⟩
  | stay i hpc => exact .inr ⟨rfl, hother hpc nofun⟩
  | exit i hpc => exact .inr ⟨rfl, hother hpc nofun⟩
  | drain i hpc => exact .inr ⟨rfl, hother hpc nofun⟩
  | pop i task tasks hpc => exact .inr ⟨rfl, hother hpc nofun⟩
  | _ => exact .inr ⟨rfl, nofun⟩

/-- Past its `notify_all` the destructor stays past it. -/
theorem notified_of_step (hd : s.dtor.notified = true) (hstep : s.step a = some t) :
    t.dtor.notified = true := by
  cases moves_of_step hstep with
  | store hpc => rw [hpc] at hd; cases hd
  | notifyAll => rfl
  | join => rfl
  | finish => rfl
  | _ => exact hd

end Pool

/-! ### Reachable states -/

variable {n threadCount : ℕ} {s : Pool (workerCount threadCount)} {K : Finset ℕ}

/-- The workers that the destructor has joined. -/
def DtorPc.joined : DtorPc → ℕ → Prop
  | .start, _ | .notifying, _ => False
  | .joining j, i => i < j
  | .done, _ => True

/-- **A joined worker has exited.** The destructor joins it only when it has, and no worker
comes back. -/
theorem exited_of_joined (h : (pool threadCount).Reachable s) (i : Fin (workerCount threadCount)) :
    s.dtor.joined i → s.worker i = .exited := by
  refine System.Inductive.holds (I := fun s => s.dtor.joined i → s.worker i = .exited) ⟨?_, ?_⟩ h
  · rintro _ rfl
    exact False.elim
  · intro s a t hs _ hstep hj
    by_cases hsame : s.dtor.joined i
    · exact Pool.exited_step (hs hsame) hstep
    · cases Pool.moves_of_step hstep with
      | store | notifyAll => cases hj
      | join j hlt hpc hw =>
          have hi : (i : ℕ) = j := by
            rw [hpc] at hsame
            have : (i : ℕ) < j + 1 := hj
            have : ¬ (i : ℕ) < j := hsame
            omega
          have hfin : i = ⟨j, hlt⟩ := Fin.ext hi
          rw [← hfin] at hw
          exact hw
      | finish j hpc hle =>
          rw [hpc] at hsame
          exact absurd (Nat.lt_of_lt_of_le i.isLt hle) hsame
      | _ => exact absurd hj hsame

/-- A pool that is shutting down: the `notify_all` is over and was in time, and only the calls
`K` are under way. -/
structure ShuttingDown (K : Finset ℕ) (s : Pool (workerCount threadCount)) : Prop where
  reachable : (pool threadCount).ReachableWhile Pool.NotifiesInTime s
  notified : s.dtor.notified = true
  calls : ∀ k ∉ K, (s.caller k).holds = false

/-- Every step of a pool that is shutting down lowers the work that is left, and the pool goes
on shutting down. -/
theorem ShuttingDown.step {t : Pool (workerCount threadCount)}
    {a : Pool.Act (workerCount threadCount)} (h : ShuttingDown K s) (ha : a.Within K)
    (hstep : (pool threadCount).step s a = some t) :
    ShuttingDown K t ∧ t.work K < s.work K := by
  refine ⟨⟨.step h.reachable ?_ hstep, Pool.notified_of_step h.notified hstep, fun k hk => ?_⟩,
    Pool.work_lt (roused h.reachable) h.notified ha hstep⟩
  · rintro - hd
    have := h.notified
    rw [hd] at this
    cases this
  · rw [Pool.caller_of_step ha hstep hk]
    exact h.calls k hk

/-- A pool that is shutting down and can do no more step is shut down, by the invariants of its
runs. -/
theorem ShuttingDown.atEnd (h : ShuttingDown K s)
    (hend : ∀ a, a.Within K → (pool threadCount).step s a = none) : s.ShutDown K :=
  Pool.atEnd (workerCount_pos threadCount) (exclusion h.reachable) (assertions h.reachable)
    (roused h.reachable) (history (h.reachable.mono fun _ _ _ => trivial)) h.notified h.calls hend

/-- **The destructor returns.** Past a `notify_all` that found no worker falling asleep, the
workers, the destructor and any finite set `K` of calls have at most `work` steps left,
whatever their order; while a step is left to them the pool is not shut down, and when
none is, all workers are joined, every accepted task was executed, once, and the calls are
over. Such an end can always be reached. -/
theorem destructor_returns (h : (pool threadCount).ReachableWhile Pool.NotifiesInTime s)
    (hd : s.dtor.notified = true) (hK : ∀ k ∉ K, (s.caller k).holds = false) :
    (∀ as t, (∀ a ∈ as, a.Within K) → (pool threadCount).run s as = some t →
      as.length ≤ s.work K ∧
        ((∀ a, a.Within K → (pool threadCount).step t a = none) ↔ t.ShutDown K)) ∧
      ∃ as t, (∀ a ∈ as, a.Within K) ∧ (pool threadCount).run s as = some t ∧
        t.ShutDown K := by
  have hs : ShuttingDown K s := ⟨h, hd, hK⟩
  have hstep : ∀ s a t, ShuttingDown K s → a.Within K → (pool threadCount).step s a = some t →
      ShuttingDown K t ∧ t.work K < s.work K := fun _ _ _ hs ha hstep => hs.step ha hstep
  refine ⟨fun as t has hrun => ?_, ?_⟩
  · obtain ⟨ht, hle⟩ := System.length_add_le_of_run hstep hs has hrun
    exact ⟨by omega, fun hend => ht.atEnd hend, fun hdone a ha => hdone.step_eq_none ha⟩
  · obtain ⟨as, t, has, hrun, hend⟩ := System.exists_run_to_end hstep hs
    obtain ⟨ht, -⟩ := System.length_add_le_of_run hstep hs has hrun
    exact ⟨as, t, has, hrun, ht.atEnd hend⟩

instance (s : Pool n) (a : Pool.Act n) : Decidable (s.NotifiesInTime a) :=
  inferInstanceAs (Decidable (a = .dtor → s.dtor = .notifying →
    ¬ ∃ i, s.worker i = .blocking ∨ s.worker i = .testEmpty ∧ s.tasks = []))

/-- One worker blocks; a call pushes its task and wakes it; the destructor stores `stop_` and
notifies, while a second call has not begun. -/
theorem destructor_returns_example :
    ∃ s : Pool (workerCount 1), s.tasks = [0] ∧ s.caller 1 = .start ∧
      (∀ as t, (∀ a ∈ as, a.Within ({1} : Finset ℕ)) → (pool 1).run s as = some t →
        as.length ≤ s.work {1} ∧
          ((∀ a, a.Within ({1} : Finset ℕ) → (pool 1).step t a = none) ↔ t.ShutDown {1})) ∧
        ∃ as t, (∀ a ∈ as, a.Within ({1} : Finset ℕ)) ∧ (pool 1).run s as = some t ∧
          t.ShutDown {1} := by
  obtain ⟨s, hs, hp⟩ := System.exists_reachableWhile
    (.init rfl : (pool 1).ReachableWhile Pool.NotifiesInTime Pool.new)
    [.worker ⟨0, by decide⟩, .worker ⟨0, by decide⟩, .worker ⟨0, by decide⟩,
      .worker ⟨0, by decide⟩, .caller 0, .caller 0, .caller 0,
      .notifyOne 0 (some ⟨0, by decide⟩), .dtor, .dtor]
    (fun s => s.tasks = [0] ∧ s.caller 1 = .start ∧ s.dtor.notified = true ∧ s.owner = none)
    (by decide)
  obtain ⟨htasks, hcall, hd, ho⟩ := of_decide_eq_true hp
  refine ⟨s, htasks, hcall, destructor_returns hs hd fun k _ => Bool.eq_false_iff.mpr fun hk => ?_⟩
  exact nomatch ho.symm.trans ((exclusion hs (.caller k)).mp hk)

end LinuxNetwork.ThreadPool

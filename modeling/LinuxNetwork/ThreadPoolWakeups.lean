import LinuxNetwork.ThreadPoolTasks

/-!
# Wake-Ups of the Thread Pool

A worker that blocks does so under the mutex, with the queue empty, and a call notifies
after every push. So while the queue is not empty, either some worker is about or a
notification is still to come: a notification that is lost finds no worker blocked.

The destructor is different. It stores `stop_` and notifies without the mutex, so both can
fall between a worker's test of the predicate and its blocking. The notification is then
lost, and nobody wakes the worker. `FallingAsleep` is the place where this happens: if no
worker stands there at the `notify_all`, then none blocks anymore, and if one does, it can
block forever.

## Main results

* `no_task_left_asleep`: a nonempty queue never has all workers blocked with no
  notification to come.
* `destructor_strands_worker`: a run in which the destructor strands a worker.
* `destructor_strands_iff_fallingAsleep`: when it does.
-/

open Transition

namespace LinuxNetwork.ThreadPool

namespace Pool

variable {n : ℕ} {s t : Pool n} {a : Act n} {i : Fin n} {k : ℕ} {pc : WorkerPc}
  {cpc : CallerPc}

/-! ### Notifications of calls -/

/-- While tasks are queued, a worker is about or a notification is to come. -/
def Attended (s : Pool n) : Prop :=
  s.tasks ≠ [] →
    (∃ i, s.worker i ≠ .exited ∧ s.worker i ≠ .blocked) ∨ ∃ k, s.caller k = .notifying

/-- The worker that moves is about, unless it moves to be blocked or to exit. -/
theorem exists_about (s : Pool n) (i : Fin n) (hexited : pc ≠ .exited)
    (hblocked : pc ≠ .blocked) :
    ∃ j, (s.setWorker i pc).worker j ≠ .exited ∧ (s.setWorker i pc).worker j ≠ .blocked := by
  refine ⟨i, ?_⟩
  rw [setWorker_worker, if_pos rfl]
  exact ⟨hexited, hblocked⟩

/-- A call that moves on, but not from its notification, leaves whoever attends the queue. -/
theorem Attended.moveCaller (h : s.Attended) {cpc₀ : CallerPc} (hk : s.caller k = cpc₀)
    (hpc₀ : cpc₀ ≠ .notifying) : (s.setCaller k cpc).Attended := by
  intro htasks
  rcases h htasks with hi | ⟨j, hj⟩
  · exact .inl hi
  · have hjk : j ≠ k := fun hjk => hpc₀ (hk.symm.trans (hjk ▸ hj))
    exact .inr ⟨j, by rw [setCaller_caller, if_neg hjk, hj]⟩

/-- Every step keeps the queue attended. A worker that blocks has tested the queue under the
mutex it still holds. A lost notification finds no worker blocked, and none has exited while
tasks are queued. -/
theorem Attended.step (hn : 0 < n) (hassert : s.Asserted) (h : s.Attended)
    (hstep : s.step a = some t) : t.Attended := by
  have hown : ∀ o, Attended { s with owner := o } := fun _ => h
  cases moves_of_step hstep with
  | block i hpc =>
      exact fun htasks => absurd (hassert.fits hpc) htasks
  | exit i hpc hs => exact fun htasks => absurd hs htasks
  | pop i task => exact fun _ => .inl (exists_about s i nofun nofun)
  | run i => exact fun _ => .inl (exists_about s i nofun nofun)
  | lockCaller k hpc => exact (hown _).moveCaller hpc nofun
  | reject k hpc => exact (hown none).moveCaller hpc nofun
  | accept k hpc => exact h.moveCaller hpc nofun
  | push k =>
      refine fun _ => .inr ⟨k, ?_⟩
      change (s.setCaller k .notifying).caller k = _
      rw [setCaller_caller, if_pos rfl]
  | wake k i => exact fun _ => .inl (exists_about s i nofun nofun)
  | lose k hpc hnone =>
      refine fun htasks => .inl ⟨⟨0, hn⟩, fun hex => ?_, hnone _⟩
      exact htasks (hassert.fits hex).2
  | notifyAll =>
      intro htasks
      rcases h htasks with ⟨i, hex, hb⟩ | hk
      · rcases notifyAll_worker s i with ⟨hb', -⟩ | ⟨-, hi⟩
        · exact absurd hb' hb
        · have hi : ({ s.notifyAll with dtor := .joining 0 } : Pool n).worker i = s.worker i := hi
          exact .inl ⟨i, by rw [hi]; exact hex, by rw [hi]; exact hb⟩
      · exact .inr hk
  | store => exact h
  | join => exact h
  | finish => exact h
  | _ => exact fun _ => .inl (exists_about _ _ nofun nofun)

end Pool

/-! ### The notification of the destructor -/

/-- Whether the destructor is past its `notify_all`. -/
def DtorPc.notified : DtorPc → Bool
  | .joining _ | .done => true
  | .start | .notifying => false

namespace Pool

variable {n : ℕ} {s t : Pool n} {a : Act n} {i : Fin n} {k : ℕ} {pc : WorkerPc}

/-- **A stranded worker.** The destructor is past its `notify_all`, the worker is blocked,
and no notification of a call is to come. -/
def Stranded (s : Pool n) : Prop :=
  s.dtor.notified = true ∧ (∃ i, s.worker i = .blocked) ∧ ∀ k, s.caller k ≠ .notifying

/-- A worker that has found the predicate of `wait` false, or has read `stop_` as false with
an empty queue, and does not block yet. -/
def FallingAsleep (s : Pool n) : Prop :=
  ∃ i, s.worker i = .blocking ∨ s.worker i = .testEmpty ∧ s.tasks = []

/-- The steps of the runs in which the `notify_all` finds no worker falling asleep. -/
def NotifiesInTime (s : Pool n) (a : Act n) : Prop :=
  a = .dtor → s.dtor = .notifying → ¬ s.FallingAsleep

end Pool

/-- A place from which a worker cannot come to block on a stopped pool. -/
def WorkerPc.Wakeful (tasks : List ℕ) : WorkerPc → Prop
  | .testEmpty => tasks ≠ []
  | .blocking | .blocked => False
  | _ => True

/-- Outside the critical sections, a worker is wakeful unless it is blocked. -/
theorem WorkerPc.wakeful_of_not_holds {tasks : List ℕ} {pc : WorkerPc}
    (hpc : pc.holds = false) (hne : pc ≠ .blocked) : pc.Wakeful tasks := by
  cases pc with
  | blocked => exact absurd rfl hne
  | idle | woken | running | exited => trivial
  | testStop | testEmpty | blocking | exitStop | exitEmpty | popping => cases hpc

namespace Pool

variable {n : ℕ} {s t : Pool n} {a : Act n} {i : Fin n} {k : ℕ} {pc : WorkerPc}

/-- **The destructor got through to all workers.** Once it has started the pool is stopped,
and past its `notify_all` no worker can come to block. -/
structure Roused (s : Pool n) : Prop where
  stop : s.dtor ≠ .start → s.stop = true
  worker : s.dtor.notified = true → ∀ i, (s.worker i).Wakeful s.tasks

/-- A worker that moves on to a wakeful place leaves the others as wakeful as they were. -/
theorem Roused.moveWorker (h : s.Roused) (hpc : s.dtor.notified = true → pc.Wakeful s.tasks) :
    (s.setWorker i pc).Roused where
  stop := h.stop
  worker := fun hd => (Function.forall_update_iff s.worker fun _ pc => pc.Wakeful s.tasks).mpr
    ⟨hpc hd, fun j _ => h.worker hd j⟩

/-- While one party is inside, the queue may change without harm to the other workers. -/
theorem Roused.wakeful_of_outside (hx : s.Exclusive) (h : s.Roused) {p : Party n}
    (hp : s.inside p = true) (hd : s.dtor.notified = true) {j : Fin n} (hj : .worker j ≠ p)
    (tasks : List ℕ) : (s.worker j).Wakeful tasks := by
  refine WorkerPc.wakeful_of_not_holds (hx.outside hp hj) fun hb => ?_
  have := h.worker hd j
  rw [hb] at this
  exact this

/-- Every step keeps the workers roused, unless the `notify_all` misses one: it wakes those that
are blocked, and the condition excludes those that fall asleep. -/
theorem Roused.step (hx : s.Exclusive) (h : s.Roused) (hC : s.NotifiesInTime a)
    (hstep : s.step a = some t) : t.Roused := by
  have hown : ∀ o, Roused { s with owner := o } := fun _ => ⟨h.stop, h.worker⟩
  have hstop : s.dtor.notified = true → s.stop = true := fun hd =>
    h.stop fun hs => by rw [hs] at hd; cases hd
  have hself : ∀ {i pc}, s.worker i = pc → s.dtor.notified = true → pc.Wakeful s.tasks := by
    intro i pc hpc hd
    exact hpc ▸ h.worker hd i
  cases moves_of_step hstep with
  | lockWorker i => exact (hown _).moveWorker fun _ => trivial
  | stopped i => exact h.moveWorker fun _ => trivial
  | notStopped i hpc hs =>
      exact h.moveWorker fun hd => absurd (hstop hd) (by simp [hs])
  | nothingToDo i hpc hs => exact h.moveWorker fun hd => absurd hs (hself hpc hd)
  | somethingToDo i => exact h.moveWorker fun _ => trivial
  | block i hpc => exact (hown none).moveWorker fun hd => (hself hpc hd).elim
  | leave i => exact h.moveWorker fun _ => trivial
  | stay i => exact h.moveWorker fun _ => trivial
  | exit i => exact (hown none).moveWorker fun _ => trivial
  | drain i => exact h.moveWorker fun _ => trivial
  | pop i task tasks hpc =>
      refine ⟨h.stop, fun hd => ?_⟩
      exact (Function.forall_update_iff s.worker fun _ pc => pc.Wakeful tasks).mpr
        ⟨trivial, fun j hj => h.wakeful_of_outside hx (inside_of_worker hpc rfl) hd
          (fun heq => hj (Party.worker.inj heq)) tasks⟩
  | run i =>
      have hidle : (s.setWorker i .idle).Roused := h.moveWorker fun _ => trivial
      exact ⟨hidle.stop, hidle.worker⟩
  | spurious i => exact h.moveWorker fun _ => trivial
  | push k hpc =>
      refine ⟨h.stop, fun hd j => ?_⟩
      exact h.wakeful_of_outside hx (inside_of_caller hpc rfl) hd nofun _
  | wake k i =>
      have hwoken : (s.setWorker i .woken).Roused := h.moveWorker fun _ => trivial
      exact ⟨hwoken.stop, hwoken.worker⟩
  | store => exact ⟨fun _ => rfl, nofun⟩
  | notifyAll hd =>
      have hstop : s.stop = true := h.stop (by rw [hd]; nofun)
      refine ⟨fun _ => hstop, fun _ i => ?_⟩
      change (s.notifyAll.worker i).Wakeful s.tasks
      have hawake := hC rfl hd
      rcases notifyAll_worker s i with ⟨-, hi⟩ | ⟨hb, hi⟩
      · rw [hi]
        trivial
      · rw [hi]
        cases hpc : s.worker i with
        | testEmpty => exact fun htasks => hawake ⟨i, .inr ⟨hpc, htasks⟩⟩
        | blocking => exact absurd ⟨i, .inl hpc⟩ hawake
        | blocked => exact absurd hpc hb
        | idle | testStop | woken | exitStop | exitEmpty | popping | running | exited => trivial
  | join j hj hd =>
      exact ⟨fun _ => hstop (by rw [hd]; rfl), fun _ => h.worker (by rw [hd]; rfl)⟩
  | finish j hd =>
      exact ⟨fun _ => hstop (by rw [hd]; rfl), fun _ => h.worker (by rw [hd]; rfl)⟩
  | lockCaller | reject | accept | lose => exact ⟨h.stop, h.worker⟩

end Pool

/-! ### Reachable states -/

variable {threadCount : ℕ} {s : Pool (workerCount threadCount)}

/-- A queue with tasks is attended in every reachable state. The induction has the local assertions
at hand. -/
theorem attended (h : (pool threadCount).Reachable s) : s.Attended :=
  System.Inductive.holds_of (fun _ => assertions)
    (by rintro _ rfl; exact fun hne => absurd rfl hne)
    (fun _ _ _ hassert _ hs _ hstep => hs.step (workerCount_pos threadCount) hassert hstep) h

/-- **No task is left with every worker asleep.** In every reachable state with a nonempty
queue some worker has neither exited nor is blocked, or some call has pushed its task and
not yet issued its `notify_one`. -/
theorem no_task_left_asleep (h : (pool threadCount).Reachable s) (htasks : s.tasks ≠ []) :
    (∃ i, s.worker i ≠ .exited ∧ s.worker i ≠ .blocked) ∨
      ∃ k, s.caller k = .notifying :=
  attended h htasks

/-- The state between a push and its notification, with the only worker blocked. -/
theorem no_task_left_asleep_example :
    ∃ s : Pool (workerCount 1),
      (pool 1).run Pool.new [.worker ⟨0, by decide⟩, .worker ⟨0, by decide⟩,
        .worker ⟨0, by decide⟩, .worker ⟨0, by decide⟩, .caller 0, .caller 0, .caller 0] =
          some s ∧
      ((∃ i, s.worker i ≠ .exited ∧ s.worker i ≠ .blocked) ∨
        ∃ k, s.caller k = .notifying) :=
  ⟨_, rfl, no_task_left_asleep (System.reachable_of_run
    [.worker ⟨0, by decide⟩, .worker ⟨0, by decide⟩, .worker ⟨0, by decide⟩,
      .worker ⟨0, by decide⟩, .caller 0, .caller 0, .caller 0] (.init rfl) rfl) nofun⟩

/-- The workers are roused in every run in which the `notify_all` is in time. The induction has
mutual exclusion at hand. -/
theorem roused (h : (pool threadCount).ReachableWhile Pool.NotifiesInTime s) : s.Roused :=
  System.Inductive.holds_of (fun _ => exclusion)
    (by rintro _ rfl; exact ⟨fun hne => absurd rfl hne, fun hd => by cases hd⟩)
    (fun _ _ _ hx _ hs hC hstep => hs.step hx hC hstep) h

/-- While no worker is blocked, the calls can issue their notifications, and lose them.
Induction on the list of calls that may owe one. -/
theorem exists_run_quiet (L : List ℕ) :
    ∀ {s : Pool (workerCount threadCount)}, (∀ i, s.worker i ≠ .blocked) →
      (∀ k, s.caller k = .notifying → k ∈ L) →
      ∃ as t, (pool threadCount).run s as = some t ∧ t.worker = s.worker ∧
        t.tasks = s.tasks ∧ t.dtor = s.dtor ∧ ∀ k, t.caller k ≠ .notifying := by
  induction L with
  | nil =>
      intro s _ hL
      exact ⟨[], s, rfl, rfl, rfl, rfl, fun k hk => nomatch hL k hk⟩
  | cons k L ih =>
      intro s hb hL
      by_cases hk : s.caller k = .notifying
      · obtain ⟨as, t, hrun, hw, ht, hd, hquiet⟩ := ih (s := s.setCaller k .returned) hb (by
          intro j hj
          by_cases hjk : j = k
          · rw [Pool.setCaller_caller, if_pos hjk] at hj
            cases hj
          · rw [Pool.setCaller_caller, if_neg hjk] at hj
            exact (List.mem_cons.mp (hL j hj)).resolve_left hjk)
        have hstep : (pool threadCount).step s (.notifyOne k none) =
            some (s.setCaller k .returned) := by
          change s.notifyOne k none = _
          simp [Pool.notifyOne, hk, hb]
        refine ⟨.notifyOne k none :: as, t, ?_, hw, ht, hd, hquiet⟩
        rw [System.run, hstep]
        exact hrun
      · refine ih hb fun j hj => (List.mem_cons.mp (hL j hj)).resolve_left fun hjk => ?_
        exact hk (hjk ▸ hj)

/-- A worker that falls asleep can come to block, whatever `stop_` is by now, in one step or
two. -/
theorem exists_run_blocked (h : s.FallingAsleep) :
    ∃ as t i, (pool threadCount).run s as = some t ∧ t.worker i = .blocked ∧
      t.dtor = s.dtor ∧ t.caller = s.caller := by
  obtain ⟨i, hi | ⟨hi, htasks⟩⟩ := h
  · have hstep : (pool threadCount).step s (.worker i) =
        some (s.unlock.setWorker i .blocked) := by
      change s.stepWorker i = _
      simp [Pool.stepWorker, hi]
    refine ⟨[.worker i], s.unlock.setWorker i .blocked, i, ?_, by simp, rfl, rfl⟩
    rw [System.run, hstep]
    rfl
  · have hstep : (pool threadCount).step s (.worker i) = some (s.setWorker i .blocking) := by
      change s.stepWorker i = _
      simp [Pool.stepWorker, hi, htasks]
    have hstep' : (pool threadCount).step (s.setWorker i .blocking) (.worker i) =
        some ((s.setWorker i .blocking).unlock.setWorker i .blocked) := by
      change (s.setWorker i .blocking).stepWorker i = _
      simp [Pool.stepWorker]
    refine ⟨[.worker i, .worker i], (s.setWorker i .blocking).unlock.setWorker i .blocked, i,
      ?_, by simp, rfl, rfl⟩
    rw [System.run, hstep, Option.bind_some, System.run, hstep']
    rfl

/-- **A worker that falls asleep can be stranded.** The destructor notifies, the calls that owe a
notification issue it in vain, and then the worker blocks. -/
theorem exists_run_stranded (h : (pool threadCount).Reachable s) (hd : s.dtor = .notifying)
    (hfall : s.FallingAsleep) :
    ∃ as t, (pool threadCount).run s (.dtor :: as) = some t ∧ t.Stranded := by
  set u : Pool (workerCount threadCount) := { s.notifyAll with dtor := .joining 0 } with hu
  have hstep : (pool threadCount).step s .dtor = some u := by
    change s.stepDtor = _
    simp [Pool.stepDtor, hd, hu]
  have hnone : ∀ i, u.worker i ≠ .blocked := by
    intro i hi
    rcases Pool.notifyAll_worker s i with ⟨-, hw⟩ | ⟨hb, hw⟩
    · cases hw.symm.trans hi
    · exact hb (hw.symm.trans hi)
  have hfall' : u.FallingAsleep := by
    obtain ⟨i, hi⟩ := hfall
    rcases Pool.notifyAll_worker s i with ⟨hb, -⟩ | ⟨-, hw⟩
    · rw [hb] at hi
      exact absurd hi (by simp)
    · exact ⟨i, by rw [← hw] at hi; exact hi⟩
  obtain ⟨as, t, hrun, hw, htasks, htd, hquiet⟩ := exists_run_quiet s.pushed hnone
    fun k hk => ((history h).calls k).mpr (by
      rw [show s.caller k = .notifying from hk]; rfl)
  have hfall'' : t.FallingAsleep := by
    rw [Pool.FallingAsleep, hw, htasks]
    exact hfall'
  obtain ⟨bs, v, i, hrun', hi, hvd, hvc⟩ := exists_run_blocked hfall''
  refine ⟨as ++ bs, v, ?_, ?_, ⟨i, hi⟩, by rw [hvc]; exact hquiet⟩
  · rw [System.run, hstep, Option.bind_some, System.run_append hrun, hrun']
  · rw [hvd, htd]
    rfl

/-- **When the destructor strands a worker.** In the runs in which its `notify_all` finds no
worker falling asleep, no worker is ever stranded. In every reachable state in which it is
about to notify and a worker is falling asleep, the run can go on so that one is. -/
theorem destructor_strands_iff_fallingAsleep (threadCount : ℕ) :
    (∀ s, (pool threadCount).ReachableWhile Pool.NotifiesInTime s → ¬ s.Stranded) ∧
      ∀ s, (pool threadCount).Reachable s → s.dtor = .notifying → s.FallingAsleep →
        ∃ as t, (pool threadCount).run s (.dtor :: as) = some t ∧ t.Stranded := by
  refine ⟨fun s h hstranded => ?_, fun s h hd hfall => exists_run_stranded h hd hfall⟩
  obtain ⟨hd, ⟨i, hi⟩, -⟩ := hstranded
  have hwakeful := (roused h).worker hd i
  rw [hi] at hwakeful
  exact hwakeful

/-- **A lost wake-up.** The worker of a pool finds `stop_` false and the queue empty; the
destructor stores `stop_` and notifies; then the worker blocks, and nobody wakes it. -/
theorem destructor_strands_worker : ∃ s, (pool 1).Reachable s ∧ s.Stranded :=
  ⟨_, System.reachable_of_run
    [.worker ⟨0, by decide⟩, .worker ⟨0, by decide⟩, .worker ⟨0, by decide⟩, .dtor, .dtor,
      .worker ⟨0, by decide⟩] (.init rfl) rfl, rfl, ⟨⟨0, by decide⟩, rfl⟩,
    fun _ => (nofun : CallerPc.start ≠ .notifying)⟩

end LinuxNetwork.ThreadPool

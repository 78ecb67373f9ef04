import Mathlib.Data.List.Nodup
import LinuxNetwork.ThreadPoolInvariants

/-!
# The Thread Pool Neither Loses nor Repeats a Task

The history of a pool ties the queue, the places of the calls and the places of the workers
together: what was pushed is what was taken followed by what is still queued, the pushed
tasks are those of the calls past their push, and a taken task is being run by the worker
that took it or was executed, once.

## Main results

* `history`: the history of every reachable state.
* `threadPool_executes_accepted_once`: tasks are taken in the order in which they were
  pushed and none is lost or repeated, whatever the order of the steps.
-/

open Transition

namespace LinuxNetwork.ThreadPool

/-- The places of a call behind its push. -/
def CallerPc.pushed : CallerPc → Bool
  | .notifying | .returned => true
  | .start | .testStop | .pushing | .threw => false

namespace Pool

variable {n : ℕ} {s t : Pool n} {a : Act n} {i : Fin n} {k : ℕ} {pc : WorkerPc}
  {cpc : CallerPc}

/-- The tasks that workers took, in this order. -/
def takenTasks (s : Pool n) : List ℕ :=
  s.taken.map Prod.snd

/-- **The history of the tasks.** -/
structure History (s : Pool n) : Prop where
  /-- The queue is first in, first out. -/
  queue : s.pushed = s.takenTasks ++ s.tasks
  nodup : s.pushed.Nodup
  calls : ∀ k, k ∈ s.pushed ↔ (s.caller k).pushed = true
  /-- A task that is being run was taken by its worker and is not executed yet. -/
  running : ∀ i k, s.worker i = .running k → (i, k) ∈ s.taken ∧ k ∉ s.executed
  taken : ∀ i k, (i, k) ∈ s.taken → k ∈ s.executed ∨ s.worker i = .running k
  executed : ∀ k ∈ s.executed, k ∈ s.takenTasks
  executed_nodup : s.executed.Nodup

/-- No task is taken twice, by one worker or by two, since none was pushed twice. -/
theorem History.taken_once (h : s.History) {j : Fin n} (hi : (i, k) ∈ s.taken)
    (hj : (j, k) ∈ s.taken) : i = j := by
  have hnodup := h.nodup
  rw [h.queue] at hnodup
  exact congrArg Prod.fst (List.inj_on_of_nodup_map hnodup.of_append_left hi hj rfl)

/-- A worker that moves on and neither starts nor ends a task. -/
theorem History.moveWorker (h : s.History) {pc₀ : WorkerPc} (hi : s.worker i = pc₀)
    (hpc₀ : ∀ k, pc₀ ≠ .running k) (hpc : ∀ k, pc ≠ .running k) :
    (s.setWorker i pc).History where
  queue := h.queue
  nodup := h.nodup
  calls := h.calls
  running := fun j k hj => by
    by_cases hji : j = i
    · rw [setWorker_worker, if_pos hji] at hj
      exact absurd hj (hpc k)
    · rw [setWorker_worker, if_neg hji] at hj
      exact h.running j k hj
  taken := fun j k hjk => by
    rcases h.taken j k hjk with hk | hj
    · exact .inl hk
    · have hji : j ≠ i := fun hji => hpc₀ k (hi.symm.trans (hji ▸ hj))
      exact .inr (by rw [setWorker_worker, if_neg hji, hj])
  executed := h.executed
  executed_nodup := h.executed_nodup

/-- A call that moves on, but not past its push, so that its task is where it was. -/
theorem History.moveCaller (h : s.History) (hpc : cpc.pushed = (s.caller k).pushed) :
    (s.setCaller k cpc).History where
  queue := h.queue
  nodup := h.nodup
  calls := fun j => by
    rw [setCaller_caller]
    by_cases hjk : j = k
    · rw [if_pos hjk, hpc, ← hjk]
      exact h.calls j
    · rw [if_neg hjk]
      exact h.calls j
  running := h.running
  taken := h.taken
  executed := h.executed
  executed_nodup := h.executed_nodup

/-- A worker that takes the first task of the queue, the one that was pushed next. -/
theorem History.pop (h : s.History) {task : ℕ} {tasks : List ℕ} (hi : s.worker i = .popping)
    (htasks : s.tasks = task :: tasks) :
    History { s.unlock.setWorker i (.running task) with
      tasks := tasks, taken := s.taken ++ [(i, task)] } := by
  have hnodup := h.nodup
  rw [h.queue, htasks, List.nodup_middle, List.nodup_cons] at hnodup
  have hnew : task ∉ s.takenTasks := fun hm => hnodup.1 (List.mem_append_left _ hm)
  refine ⟨?_, h.nodup, h.calls, fun j k hj => ?_, fun j k hjk => ?_, fun k hk => ?_,
    h.executed_nodup⟩
  · change s.pushed = (s.taken ++ [(i, task)]).map Prod.snd ++ tasks
    rw [h.queue, htasks]
    simp [takenTasks]
  · change (s.unlock.setWorker i (.running task)).worker j = .running k at hj
    by_cases hji : j = i
    · rw [setWorker_worker, if_pos hji] at hj
      obtain rfl := WorkerPc.running.inj hj
      exact ⟨by simp [hji], fun hm => hnew (h.executed _ hm)⟩
    · rw [setWorker_worker, if_neg hji] at hj
      obtain ⟨hmem, hex⟩ := h.running j k hj
      exact ⟨List.mem_append_left _ hmem, hex⟩
  · change _ ∨ (s.unlock.setWorker i (.running task)).worker j = .running k
    rcases List.mem_append.mp hjk with hjk | hjk
    · rcases h.taken j k hjk with hk | hj
      · exact .inl hk
      · have hji : j ≠ i := fun hji => nomatch (hji ▸ hj).symm.trans hi
        exact .inr (by rw [setWorker_worker, if_neg hji]; exact hj)
    · obtain ⟨rfl, rfl⟩ := Prod.mk.inj (List.mem_singleton.mp hjk)
      exact .inr (by rw [setWorker_worker, if_pos rfl])
  · have := h.executed k hk
    simp only [takenTasks, List.map_append, List.mem_append] at this ⊢
    exact .inl this

/-- A worker that completes its task. The task was taken once, so it was not executed before. -/
theorem History.run (h : s.History) {task : ℕ} (hi : s.worker i = .running task) :
    History { s.setWorker i .idle with executed := s.executed ++ [task] } := by
  obtain ⟨hmem, hex⟩ := h.running i task hi
  refine ⟨h.queue, h.nodup, h.calls, fun j k hj => ?_, fun j k hjk => ?_, fun k hk => ?_, ?_⟩
  · change (s.setWorker i .idle).worker j = .running k at hj
    by_cases hji : j = i
    · rw [setWorker_worker, if_pos hji] at hj
      cases hj
    · rw [setWorker_worker, if_neg hji] at hj
      obtain ⟨hjk, hk⟩ := h.running j k hj
      refine ⟨hjk, fun hm => ?_⟩
      rcases List.mem_append.mp hm with hm | hm
      · exact hk hm
      · obtain rfl := List.mem_singleton.mp hm
        exact hji (h.taken_once hjk hmem)
  · change _ ∨ (s.setWorker i .idle).worker j = .running k
    rcases h.taken j k hjk with hk | hj
    · exact .inl (List.mem_append_left _ hk)
    · by_cases hji : j = i
      · obtain rfl := WorkerPc.running.inj ((hji ▸ hj).symm.trans hi)
        exact .inl (by simp)
      · exact .inr (by rw [setWorker_worker, if_neg hji, hj])
  · rcases List.mem_append.mp hk with hk | hk
    · exact h.executed k hk
    · obtain rfl := List.mem_singleton.mp hk
      exact List.mem_map_of_mem hmem
  · rw [List.nodup_append_comm]
    exact List.nodup_cons.mpr ⟨hex, h.executed_nodup⟩

/-- A call that pushes its task, which is new to the pool. -/
theorem History.push (h : s.History) (hk : s.caller k = .pushing) :
    History { s.unlock.setCaller k .notifying with
      tasks := s.tasks ++ [k], pushed := s.pushed ++ [k] } := by
  have hnew : k ∉ s.pushed := fun hm => by
    have := (h.calls k).mp hm
    rw [hk] at this
    cases this
  refine ⟨?_, ?_, fun j => ?_, h.running, h.taken, h.executed, h.executed_nodup⟩
  · change s.pushed ++ [k] = s.takenTasks ++ (s.tasks ++ [k])
    rw [h.queue, List.append_assoc]
  · rw [List.nodup_append_comm]
    exact List.nodup_cons.mpr ⟨hnew, h.nodup⟩
  · change j ∈ s.pushed ++ [k] ↔ ((s.unlock.setCaller k .notifying).caller j).pushed = true
    rw [List.mem_append, List.mem_singleton, setCaller_caller, h.calls j]
    by_cases hjk : j = k
    · simp [hjk, CallerPc.pushed]
    · simp [hjk, unlock]

/-- A step that changes neither the history nor who runs what. -/
theorem History.notifyAll (h : s.History) : s.notifyAll.History := by
  have hrun : ∀ i k, s.notifyAll.worker i = .running k ↔ s.worker i = .running k := by
    intro i k
    rcases notifyAll_worker s i with ⟨hb, hi⟩ | ⟨-, hi⟩
    · simp [hi, hb]
    · rw [hi]
  exact ⟨h.queue, h.nodup, h.calls, fun i k hi => h.running i k ((hrun i k).mp hi),
    fun i k hik => (h.taken i k hik).imp_right (hrun i k).mpr, h.executed, h.executed_nodup⟩

/-- Every step keeps the history. Only a pop, the end of a task and a push write it. -/
theorem History.step (h : s.History) (hstep : s.step a = some t) : t.History := by
  have hown : ∀ o, History { s with owner := o } := fun _ =>
    ⟨h.queue, h.nodup, h.calls, h.running, h.taken, h.executed, h.executed_nodup⟩
  cases moves_of_step hstep with
  | lockWorker i hpc =>
      rcases hpc with hpc | hpc
      · exact (hown _).moveWorker hpc nofun nofun
      · exact (hown _).moveWorker hpc nofun nofun
  | stopped i hpc => exact h.moveWorker hpc nofun nofun
  | notStopped i hpc => exact h.moveWorker hpc nofun nofun
  | nothingToDo i hpc => exact h.moveWorker hpc nofun nofun
  | somethingToDo i hpc => exact h.moveWorker hpc nofun nofun
  | block i hpc => exact (hown none).moveWorker hpc nofun nofun
  | leave i hpc => exact h.moveWorker hpc nofun nofun
  | stay i hpc => exact h.moveWorker hpc nofun nofun
  | exit i hpc => exact (hown none).moveWorker hpc nofun nofun
  | drain i hpc => exact h.moveWorker hpc nofun nofun
  | pop i task tasks hpc hs => exact h.pop hpc hs
  | run i task hpc => exact h.run hpc
  | spurious i hpc => exact h.moveWorker hpc nofun nofun
  | lockCaller k hpc => exact (hown _).moveCaller (by rw [hpc]; rfl)
  | reject k hpc => exact (hown none).moveCaller (by rw [hpc]; rfl)
  | accept k hpc => exact h.moveCaller (by rw [hpc]; rfl)
  | push k hpc => exact h.push hpc
  | wake k i hpc hw =>
      have hwoken : (s.setWorker i .woken).History :=
        h.moveWorker hw nofun nofun
      exact hwoken.moveCaller (by rw [setWorker_caller, hpc]; rfl)
  | lose k hpc => exact h.moveCaller (by rw [hpc]; rfl)
  | store =>
      exact ⟨h.queue, h.nodup, h.calls, h.running, h.taken, h.executed, h.executed_nodup⟩
  | notifyAll =>
      have := h.notifyAll
      exact ⟨this.queue, this.nodup, this.calls, this.running, this.taken, this.executed,
        this.executed_nodup⟩
  | join => exact ⟨h.queue, h.nodup, h.calls, h.running, h.taken, h.executed, h.executed_nodup⟩
  | finish =>
      exact ⟨h.queue, h.nodup, h.calls, h.running, h.taken, h.executed, h.executed_nodup⟩

/-! ### Exits -/

/-- When a worker moves to any place but `exited`, those that have exited had done so before. -/
theorem exited_of_setWorker {j : Fin n} (h : (s.setWorker j pc).worker i = .exited)
    (hpc : pc ≠ .exited) : s.worker i = .exited := by
  by_cases hij : i = j
  · rw [setWorker_worker, if_pos hij] at h
    exact absurd h hpc
  · rwa [setWorker_worker, if_neg hij] at h

/-- A worker has exited before a step, or exits in it from `exitEmpty` with an empty
queue. -/
theorem exited_of_step (hstep : s.step a = some t) (ht : t.worker i = .exited) :
    s.worker i = .exited ∨ s.worker i = .exitEmpty ∧ s.tasks = [] := by
  cases moves_of_step hstep with
  | exit j hpc hs =>
      by_cases hij : i = j
      · exact .inr ⟨hij ▸ hpc, hs⟩
      · rw [setWorker_worker, if_neg hij] at ht
        exact .inl ht
  | notifyAll =>
      rcases notifyAll_worker s i with ⟨-, hi⟩ | ⟨-, hi⟩
      · exact nomatch hi.symm.trans ht
      · exact .inl (hi.symm.trans ht)
  | pop j task =>
      have ht : (s.setWorker j (.running task)).worker i = .exited := ht
      exact .inl (exited_of_setWorker ht nofun)
  | run j =>
      have ht : (s.setWorker j .idle).worker i = .exited := ht
      exact .inl (exited_of_setWorker ht nofun)
  | wake k j =>
      rw [setCaller_worker] at ht
      exact .inl (exited_of_setWorker ht nofun)
  | lockCaller | reject | accept | push | lose | store | join | finish => exact .inl ht
  | _ => exact .inl (exited_of_setWorker ht nofun)

/-- No worker comes back: none of the moves begins at `exited`. -/
theorem exited_step (hi : s.worker i = .exited) (hstep : s.step a = some t) :
    t.worker i = .exited := by
  have hne : ∀ {j pc}, s.worker j = pc → pc ≠ .exited → i ≠ j := by
    intro j pc hj hpc hij
    exact hpc (hj.symm.trans (hij ▸ hi))
  have hkeep : ∀ {j pc pc'}, s.worker j = pc → pc ≠ .exited →
      (s.setWorker j pc').worker i = .exited := by
    intro j pc pc' hj hpc
    rw [setWorker_worker, if_neg (hne hj hpc), hi]
  cases moves_of_step hstep with
  | lockWorker j hpc => rcases hpc with hpc | hpc <;> exact hkeep hpc nofun
  | stopped j hpc => exact hkeep hpc nofun
  | notStopped j hpc => exact hkeep hpc nofun
  | nothingToDo j hpc => exact hkeep hpc nofun
  | somethingToDo j hpc => exact hkeep hpc nofun
  | block j hpc => exact hkeep hpc nofun
  | leave j hpc => exact hkeep hpc nofun
  | stay j hpc => exact hkeep hpc nofun
  | exit j hpc => exact hkeep hpc nofun
  | drain j hpc => exact hkeep hpc nofun
  | pop j task tasks hpc => exact hkeep hpc nofun
  | run j task hpc => exact hkeep hpc nofun
  | spurious j hpc => exact hkeep hpc nofun
  | wake k j hpc hw => exact hkeep hw nofun
  | notifyAll =>
      rcases notifyAll_worker s i with ⟨hb, -⟩ | ⟨-, hw⟩
      · exact nomatch hb.symm.trans hi
      · exact hw.trans hi
  | lockCaller | reject | accept | push | lose | store | join | finish => exact hi

end Pool

/-! ### Reachable states -/

variable {threadCount : ℕ} {s : Pool (workerCount threadCount)}

/-- The history is kept in every run, by induction on its steps. -/
theorem history (h : (pool threadCount).Reachable s) : s.History := by
  refine System.Inductive.holds ⟨?_, fun _ _ _ hs _ hstep => hs.step hstep⟩ h
  rintro _ rfl
  exact ⟨rfl, List.nodup_nil, fun _ => by simp [Pool.new, CallerPc.pushed], nofun, nofun,
    nofun, List.nodup_nil⟩

/-- **Accepted tasks are executed exactly once.** In every reachable state the tasks were
taken in the order in which they were pushed; the task of a call that returned a future is
queued or was taken by one worker, once, and that of a call that threw was never pushed. A
worker pops only from a nonempty queue and exits only when the pool is stopped and the queue
is empty, which stays so. When all workers have exited, every accepted task was taken by one
worker and executed once. -/
theorem threadPool_executes_accepted_once (h : (pool threadCount).Reachable s) :
    s.takenTasks <+: s.pushed ∧
      (∀ k, s.caller k = .returned → s.tasks.count k + s.takenTasks.count k = 1) ∧
      (∀ k, s.executed.count k ≤ 1) ∧
      (∀ k, s.caller k = .threw → k ∉ s.pushed) ∧
      (∀ i, s.worker i = .popping → s.tasks ≠ []) ∧
      (∀ i a t, (pool threadCount).step s a = some t → s.worker i ≠ .exited →
        t.worker i = .exited → s.stop = true ∧ s.tasks = []) ∧
      (∀ i as t, s.worker i = .exited → (pool threadCount).run s as = some t →
        t.stop = true ∧ t.tasks = []) ∧
      ((∀ i, s.worker i = .exited) → ∀ k, s.caller k = .returned →
        (∃! i, (i, k) ∈ s.taken) ∧ s.takenTasks.count k = 1 ∧ s.executed.count k = 1) := by
  have hist := history h
  have hassert := assertions h
  have hpushed : ∀ k, s.caller k = .returned → k ∈ s.pushed := fun k hk =>
    (hist.calls k).mpr (by rw [hk]; rfl)
  have hcount : ∀ k, s.caller k = .returned →
      s.tasks.count k + s.takenTasks.count k = 1 := by
    intro k hk
    have := List.count_eq_one_of_mem hist.nodup (hpushed k hk)
    rw [hist.queue, List.count_append] at this
    omega
  refine ⟨⟨s.tasks, hist.queue.symm⟩, hcount,
    fun k => List.nodup_iff_count_le_one.mp hist.executed_nodup k, fun k hk hmem => ?_,
    fun i hi => hassert.fits hi, fun i a t hstep hi ht => ?_, fun i as t hi hrun => ?_,
    fun hall k hk => ?_⟩
  · have := (hist.calls k).mp hmem
    rw [hk] at this
    cases this
  · obtain ⟨hpc, htasks⟩ := (Pool.exited_of_step hstep ht).resolve_left hi
    exact ⟨hassert.fits hpc, htasks⟩
  · have ht : t.worker i = .exited :=
      System.run_preserves (I := fun s => s.worker i = .exited)
        (fun _ _ _ hi hstep => Pool.exited_step hi hstep) hi hrun
    exact (assertions (System.reachable_of_run as h hrun)).fits ht
  · have htasks : s.tasks = [] := (hassert.fits (hall ⟨0, workerCount_pos threadCount⟩)).2
    have htaken := hcount k hk
    rw [htasks, List.count_nil, Nat.zero_add] at htaken
    have hmem : k ∈ s.takenTasks := List.count_pos_iff.mp (by omega)
    obtain ⟨⟨i, k'⟩, hik, rfl⟩ := List.mem_map.mp hmem
    have hexec : k' ∈ s.executed := by
      rcases hist.taken i k' hik with hk | hi
      · exact hk
      · exact nomatch hi.symm.trans (hall i)
    exact ⟨⟨i, hik, fun j hj => hist.taken_once hj hik⟩, htaken,
      List.count_eq_one_of_mem hist.executed_nodup hexec⟩

/-- A pool asked for no worker gets one. It runs the task of one call, is stopped while a
second call waits for the mutex, and lets it throw. -/
theorem threadPool_executes_accepted_once_example :
    ∃ s : Pool (workerCount 0),
      (pool 0).run Pool.new [.caller 0, .caller 0, .caller 0, .notifyOne 0 none,
          .worker ⟨0, by decide⟩, .worker ⟨0, by decide⟩, .worker ⟨0, by decide⟩, .dtor,
          .worker ⟨0, by decide⟩, .worker ⟨0, by decide⟩, .worker ⟨0, by decide⟩,
          .worker ⟨0, by decide⟩, .caller 1, .caller 1, .worker ⟨0, by decide⟩,
          .worker ⟨0, by decide⟩, .worker ⟨0, by decide⟩, .worker ⟨0, by decide⟩] = some s ∧
        s.takenTasks <+: s.pushed ∧
        (∀ k, s.caller k = .returned → s.tasks.count k + s.takenTasks.count k = 1) ∧
        (∀ k, s.executed.count k ≤ 1) ∧
        (∀ k, s.caller k = .threw → k ∉ s.pushed) ∧
        (∀ i, s.worker i = .popping → s.tasks ≠ []) ∧
        (∀ i a t, (pool 0).step s a = some t → s.worker i ≠ .exited →
          t.worker i = .exited → s.stop = true ∧ s.tasks = []) ∧
        (∀ i as t, s.worker i = .exited → (pool 0).run s as = some t →
          t.stop = true ∧ t.tasks = []) ∧
        ((∀ i, s.worker i = .exited) → ∀ k, s.caller k = .returned →
          (∃! i, (i, k) ∈ s.taken) ∧ s.takenTasks.count k = 1 ∧ s.executed.count k = 1) := by
  obtain ⟨s, hs⟩ := Option.isSome_iff_exists.mp (show ((pool 0).run Pool.new
    [.caller 0, .caller 0, .caller 0, .notifyOne 0 none,
      .worker ⟨0, by decide⟩, .worker ⟨0, by decide⟩, .worker ⟨0, by decide⟩, .dtor,
      .worker ⟨0, by decide⟩, .worker ⟨0, by decide⟩, .worker ⟨0, by decide⟩,
      .worker ⟨0, by decide⟩, .caller 1, .caller 1, .worker ⟨0, by decide⟩,
      .worker ⟨0, by decide⟩, .worker ⟨0, by decide⟩,
      .worker ⟨0, by decide⟩]).isSome = true by decide)
  exact ⟨s, hs, threadPool_executes_accepted_once (System.reachable_of_run _ (.init rfl) hs)⟩

end LinuxNetwork.ThreadPool

import Mathlib.Data.Fintype.Basic
import LinuxNetwork.Transition

/-!
# The Thread Pool

This module embeds `ThreadPool` of `thread_pool_server.h` and `thread_pool_server.cpp` as a
transition system: its worker threads, any number of concurrent calls of `enqueue`, and its
destructor. Every access to `stop_` is a step, and so is every locking of `tasks_mutex_`,
every blocking on `condition_` and every notification; between two of these a party only
touches `tasks_`, which it does under the mutex. The mutex is released by the last step
that needs it.

`condition_.wait(lock, pred)` is `while (!pred()) wait(lock)`: a worker that blocks releases
the mutex in the same step, a notification reaches only workers that are blocked already,
and a woken worker locks the mutex again before it evaluates the predicate anew. A blocked
worker may also wake up spuriously.

The task of the `k`-th call of `enqueue` is called `k`. The fields `pushed`, `taken` and
`executed` of a state record its history and are read by no step.

## Main definitions

* `ThreadPool.Pool`: the states.
* `ThreadPool.Pool.step`: the steps of all parties.
* `ThreadPool.pool`: the transition system of a pool that was asked for `threadCount`
  workers.
-/

open Transition

namespace LinuxNetwork.ThreadPool

/-- Where a worker stands in its loop. -/
inductive WorkerPc where
  /-- At the top of the loop, before `lock(tasks_mutex_)`. -/
  | idle
  /-- In the predicate of `wait`, before `stop_.load()`. -/
  | testStop
  /-- In the predicate, after `stop_` was read as false, before `tasks_.empty()`. -/
  | testEmpty
  /-- In `wait`, after the predicate was false, before the worker blocks. -/
  | blocking
  /-- Blocked on `condition_`. -/
  | blocked
  /-- Woken up, before it locks the mutex again. -/
  | woken
  /-- Behind `wait`, before `stop_.load()`. -/
  | exitStop
  /-- After `stop_` was read as true behind `wait`, before `tasks_.empty()`. -/
  | exitEmpty
  /-- Before `tasks_.front()` and `tasks_.pop()`. -/
  | popping
  /-- In `task()`. -/
  | running (task : ℕ)
  /-- Returned from the thread function. -/
  | exited
deriving DecidableEq, Repr

/-- Where a call of `enqueue` stands. -/
inductive CallerPc where
  /-- Before `lock(tasks_mutex_)`. -/
  | start
  /-- Before `stop_.load()`. -/
  | testStop
  /-- After `stop_` was read as false, before `tasks_.emplace`. -/
  | pushing
  /-- After the mutex was released, before `condition_.notify_one()`. -/
  | notifying
  /-- Returned a future. -/
  | returned
  /-- Threw `std::runtime_error`. -/
  | threw
deriving DecidableEq, Repr

/-- Where the destructor stands. -/
inductive DtorPc where
  /-- Before `stop_.store(true)`. -/
  | start
  /-- Before `condition_.notify_all()`. -/
  | notifying
  /-- In the loop over `workers_`, before the `join()` of the `j`-th. -/
  | joining (j : ℕ)
  /-- All workers are joined. -/
  | done
deriving DecidableEq, Repr

/-- Who can hold the mutex. -/
inductive Party (n : ℕ) where
  | worker (i : Fin n)
  | caller (k : ℕ)
deriving DecidableEq, Repr

/-- The pool with its threads. -/
structure Pool (n : ℕ) where
  worker : Fin n → WorkerPc
  caller : ℕ → CallerPc
  dtor : DtorPc
  /-- `stop_` -/
  stop : Bool
  /-- Who holds `tasks_mutex_`. -/
  owner : Option (Party n)
  /-- `tasks_` -/
  tasks : List ℕ
  /-- The tasks that were pushed, in this order. -/
  pushed : List ℕ
  /-- The tasks that were popped, in this order, with the worker that popped them. -/
  taken : List (Fin n × ℕ)
  /-- The tasks that were executed, in the order of their completion. -/
  executed : List ℕ

namespace Pool

variable {n : ℕ}

/-- The state after the constructor: all workers are at the top of their loop. -/
def new : Pool n where
  worker := fun _ => .idle
  caller := fun _ => .start
  dtor := .start
  stop := false
  owner := none
  tasks := []
  pushed := []
  taken := []
  executed := []

/-- A worker moves on. -/
def setWorker (s : Pool n) (i : Fin n) (pc : WorkerPc) : Pool n :=
  { s with worker := Function.update s.worker i pc }

/-- A call moves on. -/
def setCaller (s : Pool n) (k : ℕ) (pc : CallerPc) : Pool n :=
  { s with caller := Function.update s.caller k pc }

/-- Whoever asks for the mutex gets it when it is free. -/
def lock (s : Pool n) (p : Party n) : Option (Pool n) :=
  if s.owner = none then some { s with owner := some p } else none

/-- The mutex is released. -/
def unlock (s : Pool n) : Pool n :=
  { s with owner := none }

/-- The next step of a worker. A `front()` of an empty queue is undefined behaviour. -/
def stepWorker (s : Pool n) (i : Fin n) : Option (Pool n) :=
  match s.worker i with
  | .idle => (s.lock (.worker i)).map fun s => s.setWorker i .testStop
  | .testStop => some (s.setWorker i (if s.stop then .exitStop else .testEmpty))
  | .testEmpty => some (s.setWorker i (if s.tasks.isEmpty then .blocking else .exitStop))
  | .blocking => some (s.unlock.setWorker i .blocked)
  | .blocked => none
  | .woken => (s.lock (.worker i)).map fun s => s.setWorker i .testStop
  | .exitStop => some (s.setWorker i (if s.stop then .exitEmpty else .popping))
  | .exitEmpty =>
      if s.tasks.isEmpty then some (s.unlock.setWorker i .exited)
      else some (s.setWorker i .popping)
  | .popping =>
      match s.tasks with
      | [] => none
      | task :: tasks =>
          some { s.unlock.setWorker i (.running task) with
            tasks := tasks, taken := s.taken ++ [(i, task)] }
  | .running task => some { s.setWorker i .idle with executed := s.executed ++ [task] }
  | .exited => none

/-- The next step of a call of `enqueue`, up to its notification. -/
def stepCaller (s : Pool n) (k : ℕ) : Option (Pool n) :=
  match s.caller k with
  | .start => (s.lock (.caller k)).map fun s => s.setCaller k .testStop
  | .testStop =>
      if s.stop then some (s.unlock.setCaller k .threw) else some (s.setCaller k .pushing)
  | .pushing =>
      some { s.unlock.setCaller k .notifying with
        tasks := s.tasks ++ [k], pushed := s.pushed ++ [k] }
  | .notifying => none
  | .returned => none
  | .threw => none

/-- `condition_.notify_one()` of a call, which wakes the worker `woken`. It is lost only
when no worker is blocked. -/
def notifyOne (s : Pool n) (k : ℕ) (woken : Option (Fin n)) : Option (Pool n) :=
  if s.caller k = .notifying then
    match woken with
    | some i =>
        if s.worker i = .blocked then some ((s.setWorker i .woken).setCaller k .returned)
        else none
    | none => if ∀ i, s.worker i ≠ .blocked then some (s.setCaller k .returned) else none
  else none

/-- `condition_.notify_all()`. -/
def notifyAll (s : Pool n) : Pool n :=
  { s with worker := fun i => if s.worker i = .blocked then .woken else s.worker i }

/-- The next step of the destructor. -/
def stepDtor (s : Pool n) : Option (Pool n) :=
  match s.dtor with
  | .start => some { s with stop := true, dtor := .notifying }
  | .notifying => some { s.notifyAll with dtor := .joining 0 }
  | .joining j =>
      if h : j < n then
        if s.worker ⟨j, h⟩ = .exited then some { s with dtor := .joining (j + 1) } else none
      else some { s with dtor := .done }
  | .done => none

/-- Whose step is next. A notification comes with the worker it wakes. -/
inductive Act (n : ℕ) where
  | worker (i : Fin n)
  | spurious (i : Fin n)
  | caller (k : ℕ)
  | notifyOne (k : ℕ) (woken : Option (Fin n))
  | dtor
deriving DecidableEq, Repr

/-- One step. -/
def step (s : Pool n) : Act n → Option (Pool n)
  | .worker i => s.stepWorker i
  | .spurious i => if s.worker i = .blocked then some (s.setWorker i .woken) else none
  | .caller k => s.stepCaller k
  | .notifyOne k woken => s.notifyOne k woken
  | .dtor => s.stepDtor

end Pool

/-- The number of workers of `ThreadPool(thread_count)`. -/
def workerCount (threadCount : ℕ) : ℕ :=
  if threadCount = 0 then 1 else threadCount

/-- A pool has a worker, also when none is asked for. -/
theorem workerCount_pos (threadCount : ℕ) : 0 < workerCount threadCount := by
  rw [workerCount]
  split <;> omega

/-- The transition system of `ThreadPool(thread_count)`. -/
def pool (threadCount : ℕ) : System (Pool (workerCount threadCount))
    (Pool.Act (workerCount threadCount)) where
  init := fun s => s = Pool.new
  step := Pool.step

end LinuxNetwork.ThreadPool

import LinuxNetwork.TimeWheel
import LinuxNetwork.Transition

/-!
# The Second Time Wheel

This module embeds `time_wheel` of `linux_server/cpt_11_4_1.h`, a copy of the one of
`linux_server/time_wheel.h` under other names. Its `add_timer` inserts the timer as the other
one does, but has no `return` behind that: a call with a nonnegative timeout flows off the end
of a function that returns a pointer, which is undefined behaviour.

The two wheels are driven in parallel by calls that refer to a timer through the values that
`add_timer` returned for it.

## Main results

* `insertTimer_eq`: the insertion is that of the other wheel.
* `wheels_equivalent_iff`: when the two wheels do the same.
-/

open Transition

namespace LinuxNetwork.TimeWheelCopy

open TimeWheel (N logFired ticksOf)

/-- What `add_timer(timeout)` does with a nonnegative timeout before its end. -/
def insertTimer (w : TimeWheel) (timeout : ℤ) (addr : Ptr) : Option TimeWheel :=
  let ticks := ticksOf timeout
  let rotation := ticks / N
  let ts := (w.curSlot + ticks % N) % N
  let heap := w.heap.alloc addr (TwTimer.new rotation ts)
  match w.slots ts with
  | none => some { w with heap := heap, slots := Function.update w.slots ts (some addr) }
  | some head => do
      let heap ← heap.store (some addr) fun t => { t with next := some head }
      let heap ← heap.store (some head) fun t => { t with prev := some addr }
      some { w with heap := heap, slots := Function.update w.slots ts (some addr) }

/-- `add_timer(timeout)` -/
def addTimer (w : TimeWheel) (timeout : ℤ) (addr : Ptr) : Option (TimeWheel × Option Ptr) :=
  if timeout < 0 then some (w, none)
  else do
    let _ ← insertTimer w timeout addr
    -- there is no value to return
    none

/-- `del_timer(_timer)` -/
def delTimer (w : TimeWheel) (timer : Option Ptr) : Option TimeWheel :=
  w.delTimer timer

/-- `tick()` -/
def tick {W : Type} (cbFunc : Ptr → TimeWheel → W → Option (TimeWheel × W)) (fuel : ℕ)
    (w : TimeWheel) (o : W) : Option (TimeWheel × W) :=
  w.tick cbFunc fuel o

/-- **The insertion** is that of the other wheel, which returns the timer as well. -/
theorem insertTimer_eq {w : TimeWheel} {timeout : ℤ} (htimeout : 0 ≤ timeout) (addr : Ptr) :
    w.addTimer timeout addr =
      (insertTimer w timeout addr).map fun w' => (w', some addr) := by
  rw [TimeWheel.addTimer, if_neg (not_lt.mpr htimeout), insertTimer]
  cases hslot : w.slots ((w.curSlot + ticksOf timeout % N) % N) with
  | none =>
      simp only [hslot]
      rfl
  | some head =>
      simp only [hslot]
      simp [Option.map_bind]

/-! ### Calls in parallel -/

/-- Both wheels, with the values that their `add_timer` calls returned. -/
structure Wheels where
  first : TimeWheel
  second : TimeWheel
  timers : List (Option Ptr × Option Ptr)

/-- A call that is made on both wheels. The two `new` return addresses of their own, and a
timer is deleted through what the `k`-th `add_timer` returned. -/
inductive Call where
  | addTimer (timeout : ℤ) (addr addr' : Ptr)
  | delTimer (k : ℕ)
  | tick
deriving DecidableEq, Repr

/-- What the two wheels return to a call, and the timers that they fire. -/
inductive Outs where
  | added (timer timer' : Option Ptr)
  | deleted
  | fired (timers timers' : List Ptr)
deriving DecidableEq, Repr

/-- One call on both wheels. -/
def parallel (fuel : ℕ) (s : Wheels) : Call → Option (Wheels × Outs)
  | .addTimer timeout addr addr' => do
      let (first, timer) ← s.first.addTimer timeout addr
      let (second, timer') ← addTimer s.second timeout addr'
      some (⟨first, second, s.timers ++ [(timer, timer')]⟩, .added timer timer')
  | .delTimer k => do
      let (timer, timer') ← s.timers[k]?
      let first ← s.first.delTimer timer
      let second ← delTimer s.second timer'
      some (⟨first, second, s.timers⟩, .deleted)
  | .tick => do
      let (first, fired) ← s.first.tick logFired fuel []
      let (second, fired') ← tick logFired fuel s.second []
      some (⟨first, second, s.timers⟩, .fired fired fired')

/-- What the two wheels return and fire corresponds. -/
def Corresponds (timers : List (Option Ptr × Option Ptr)) : Call → Outs → Prop
  | .addTimer timeout addr addr', .added timer timer' =>
      (timeout < 0 → timer = none ∧ timer' = none) ∧
        (0 ≤ timeout → timer = some addr ∧ timer' = some addr')
  | .delTimer _, .deleted => True
  | .tick, .fired fired fired' =>
      List.Forall₂ (fun p p' => (some p, some p') ∈ timers) fired fired'
  | _, _ => False

/-- **The wheels do the same**: all calls succeed on both, and what they return and fire
corresponds. -/
def Equivalent (fuel : ℕ) (calls : List Call) : Prop :=
  ∃ s outs, runCalls (parallel fuel) ⟨.new, .new, []⟩ calls = some (s, outs) ∧
    List.Forall₂ (Corresponds s.timers) calls outs

/-- The call is one of `add_timer`. -/
def Call.isAdd : Call → Bool
  | .addTimer _ _ _ => true
  | .delTimer _ | .tick => false

/-- Timers are deleted through returned values. -/
def Referring (calls : List Call) : Prop :=
  ∀ before k after, calls = before ++ .delTimer k :: after → k < before.countP Call.isAdd

variable {fuel : ℕ} {s s' : Wheels} {calls : List Call} {out : Outs}

/-! ### Calls that insert something -/

/-- Nothing can be inserted into the second wheel: a call that returns has a negative timeout. -/
theorem neg_of_addTimer_eq_some {w : TimeWheel} {timeout : ℤ} {addr : Ptr}
    {r : TimeWheel × Option Ptr} (h : addTimer w timeout addr = some r) : timeout < 0 := by
  by_contra hneg
  rw [addTimer, if_neg hneg] at h
  obtain ⟨_, -, hnone⟩ := Option.bind_eq_some_iff.mp h
  cases hnone

/-- An `add_timer` that returns on both wheels has a negative timeout, on account of the second
one. -/
theorem neg_of_parallel_eq_some {timeout : ℤ} {addr addr' : Ptr}
    (h : parallel fuel s (.addTimer timeout addr addr') = some (s', out)) : timeout < 0 := by
  obtain ⟨_, -, h⟩ := Option.bind_eq_some_iff.mp h
  obtain ⟨r, hadd, -⟩ := Option.bind_eq_some_iff.mp h
  exact neg_of_addTimer_eq_some hadd

/-! ### Calls that insert nothing -/

/-- Neither wheel holds a timer, and none was returned. -/
structure Wheels.Empty (s : Wheels) : Prop where
  first : s.first.slots = fun _ => none
  second : s.second.slots = fun _ => none
  timers : ∀ r ∈ s.timers, r = (none, none)

/-- The tick of an empty wheel fires nothing and moves the cursor. -/
theorem tick_of_empty {w : TimeWheel} (h : w.slots = fun _ => none) :
    w.tick logFired fuel [] = some ({ w with curSlot := (w.curSlot + 1) % N }, []) := by
  simp [TimeWheel.tick, h, TimeWheel.tickLoop]

/-- **A call that inserts nothing** does the same on both wheels, and leaves them empty. A timer
that is deleted is the null pointer that an `add_timer` returned. -/
theorem Wheels.Empty.step {call : Call} (h : s.Empty)
    (hadd : ∀ timeout addr addr', call = .addTimer timeout addr addr' → timeout < 0)
    (hdel : ∀ k, call = .delTimer k → k < s.timers.length) :
    ∃ s' out, parallel fuel s call = some (s', out) ∧ s'.Empty ∧
      s'.timers.length = s.timers.length + (if call.isAdd then 1 else 0) ∧
      ∀ timers, Corresponds timers call out := by
  cases call with
  | addTimer timeout addr addr' =>
      have hneg := hadd timeout addr addr' rfl
      refine ⟨⟨s.first, s.second, s.timers ++ [(none, none)]⟩, .added none none, ?_,
        ⟨h.first, h.second, fun r hr => ?_⟩, by simp [Call.isAdd], fun timers => ?_⟩
      · simp [parallel, TimeWheel.addTimer, addTimer, hneg]
      · exact (List.mem_append.mp hr).elim (h.timers r) List.mem_singleton.mp
      · exact ⟨fun _ => ⟨rfl, rfl⟩, fun hpos => absurd hneg (not_lt.mpr hpos)⟩
  | delTimer k =>
      have hr := List.getElem?_eq_getElem (hdel k rfl)
      have hnone := h.timers _ (List.mem_of_getElem? hr)
      refine ⟨s, .deleted, ?_, h, rfl, fun _ => trivial⟩
      simp [parallel, hr, hnone, TimeWheel.delTimer, delTimer]
  | tick =>
      refine ⟨{ s with
        first := { s.first with curSlot := (s.first.curSlot + 1) % N }
        second := { s.second with curSlot := (s.second.curSlot + 1) % N } }, .fired [] [], ?_,
        ⟨h.first, h.second, h.timers⟩, rfl, fun _ => .nil⟩
      rw [parallel, tick, tick_of_empty h.first, tick_of_empty h.second]
      rfl

/-- The run lemma to `Wheels.Empty.step`. Induction on the calls, which refer to timers returned
before. -/
theorem Wheels.Empty.run (h : s.Empty) (fuel : ℕ)
    (hadd : ∀ timeout addr addr', .addTimer timeout addr addr' ∈ calls → timeout < 0)
    (hdel : ∀ before k after, calls = before ++ .delTimer k :: after →
      k < s.timers.length + before.countP Call.isAdd) :
    ∃ s' outs, runCalls (parallel fuel) s calls = some (s', outs) ∧
      ∀ timers, List.Forall₂ (Corresponds timers) calls outs := by
  induction calls generalizing s with
  | nil => exact ⟨s, [], rfl, fun _ => .nil⟩
  | cons call calls ih =>
      obtain ⟨u, out, hstep, hempty, hlen, hout⟩ := h.step
        (fun t a a' heq => hadd t a a' (heq ▸ List.mem_cons_self))
        (fun k heq => by simpa using hdel [] k calls (heq ▸ rfl))
      obtain ⟨s', outs, hrun, houts⟩ := ih hempty
        (fun t a a' hmem => hadd t a a' (List.mem_cons_of_mem call hmem))
        fun before k after heq => by
          have := hdel (call :: before) k after (heq ▸ rfl)
          rw [List.countP_cons] at this
          omega
      exact ⟨s', out :: outs, runCalls_cons_eq_some.mpr ⟨u, out, outs, hstep, hrun, rfl⟩,
        fun timers => .cons (hout timers) (houts timers)⟩

/-- **When the two wheels are equivalent.** For every sequence of calls that deletes timers
through returned values, the two wheels do the same if and only if no `add_timer` has a
nonnegative timeout. -/
theorem wheels_equivalent_iff (h : Referring calls) :
    Equivalent fuel calls ↔
      ∀ timeout addr addr', .addTimer timeout addr addr' ∈ calls → timeout < 0 := by
  constructor
  · rintro ⟨s, outs, hrun, -⟩ timeout addr addr' hmem
    obtain ⟨before, after, rfl⟩ := List.append_of_mem hmem
    obtain ⟨u, cs, v, out, -, hstep, -⟩ := getElem?_of_runCalls hrun
    exact neg_of_parallel_eq_some hstep
  · intro hneg
    have hempty : Wheels.Empty ⟨.new, .new, []⟩ := ⟨rfl, rfl, nofun⟩
    obtain ⟨s, outs, hrun, houts⟩ := hempty.run fuel hneg
      fun before k after heq => by simpa using h before k after heq
    exact ⟨s, outs, hrun, houts s.timers⟩

/-- A negative timeout, a deletion through the null pointer that it returned, and a tick. -/
theorem wheels_equivalent_iff_example :
    Equivalent 1 [.addTimer (-1) 1 1, .delTimer 0, .tick] ↔
      ∀ timeout addr addr', Call.addTimer timeout addr addr' ∈
        [Call.addTimer (-1) 1 1, .delTimer 0, .tick] → timeout < 0 := by
  refine wheels_equivalent_iff fun before k after heq => ?_
  match before, heq with
  | [_], heq =>
      obtain ⟨rfl, rfl, -⟩ := by simpa using heq
      decide
  | [_, _], heq => simp at heq
  | _ :: _ :: _ :: before, heq => simp at heq

/-- **A timer that is not returned.** `add_timer(0)` on a new wheel of each kind. -/
theorem add_timer_returns_nothing :
    (∃ w, TimeWheel.new.addTimer 0 1 = some (w, some 1)) ∧
      ¬Equivalent 1 [.addTimer 0 1 1] := by
  refine ⟨⟨_, rfl⟩, ?_⟩
  rintro ⟨s, outs, hrun, -⟩
  cases hrun

end LinuxNetwork.TimeWheelCopy

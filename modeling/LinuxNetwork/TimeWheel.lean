import Mathlib.Algebra.Order.Ring.Int
import Mathlib.Data.Int.Notation
import LinuxNetwork.DoublyLinked

/-!
# The Time Wheel

This module embeds `time_wheel` of `linux_server/time_wheel.h`: an array of `N` slots, each
the head pointer of an unordered doubly linked list of timers, and a cursor `curSlot` that
every `tick` advances by one slot. A timer fires when the cursor stands on its slot and its
`rotation` has been counted down to zero.

The timers live in a heap, so every pointer the C++ code follows is followed here, and a
null or dangling access makes an operation return `none`. The address that `new` returns is
an argument of `addTimer`. `tick` walks the list of the current slot while the callbacks it
runs may change that list, so its loop is fueled by the number of nodes it may visit; the
callback is a parameter that receives the firing timer, the wheel and a caller's state.

A timer's `cb_func` and `user_data` are read by `tick` alone, which hands the latter to the
former: both are behind the callback parameter, which may look at the firing timer.

## Main definitions

* `TimeWheel.addTimer`, `TimeWheel.delTimer`: the two list operations.
* `TimeWheel.tickLoop`, `TimeWheel.tick`: the walk over the current slot, and the tick.
-/

open DoublyLinked

namespace LinuxNetwork

/-- A timer of the wheel (`tw_timer`). -/
structure TwTimer where
  /-- Turns of the wheel that still have to pass before the timer fires. -/
  rotation : ℤ
  /-- The slot whose list holds the timer. -/
  timeSlot : ℕ
  next : Option Ptr
  prev : Option Ptr
deriving DecidableEq, Repr

/-- The constructor `tw_timer(rot, ts)`: both links start null. -/
def TwTimer.new (rot : ℤ) (ts : ℕ) : TwTimer where
  rotation := rot
  timeSlot := ts
  next := none
  prev := none

instance : Linked TwTimer where
  next := TwTimer.next
  prev := TwTimer.prev

@[simp] theorem TwTimer.linked_next (t : TwTimer) : Linked.next t = t.next := rfl

@[simp] theorem TwTimer.linked_prev (t : TwTimer) : Linked.prev t = t.prev := rfl

/-- A timer without its links: rotation and slot. -/
def TwTimer.data (t : TwTimer) : ℤ × ℕ :=
  (t.rotation, t.timeSlot)

/-- The wheel (`time_wheel`): the allocated timers, the slot heads and the cursor. -/
structure TimeWheel where
  heap : Heap TwTimer
  slots : ℕ → Option Ptr
  curSlot : ℕ

namespace TimeWheel

/-- The number of slots on the wheel. -/
def N : ℕ := 60

/-- The slot interval in seconds. -/
def SI : ℕ := 1

/-- The constructor `time_wheel()`: every slot is empty and the cursor stands on slot 0. -/
def new : TimeWheel where
  heap := fun _ => none
  slots := fun _ => none
  curSlot := 0

/-- The number of ticks a nonnegative timeout stands for. -/
def ticksOf (timeout : ℤ) : ℕ :=
  if timeout < SI then 1 else (timeout / SI).toNat

/-- `add_timer(timeout)`; `addr` is the address `new tw_timer` returns. -/
def addTimer (w : TimeWheel) (timeout : ℤ) (addr : Ptr) :
    Option (TimeWheel × Option Ptr) :=
  if timeout < 0 then some (w, none)
  else
    let ticks := ticksOf timeout
    let rotation := ticks / N
    let ts := (w.curSlot + ticks % N) % N
    let heap := w.heap.alloc addr (TwTimer.new rotation ts)
    match w.slots ts with
    | none =>
        some ({ w with heap := heap, slots := Function.update w.slots ts (some addr) },
          some addr)
    | some head => do
        let heap ← heap.store (some addr) fun t => { t with next := some head }
        let heap ← heap.store (some head) fun t => { t with prev := some addr }
        some ({ w with heap := heap, slots := Function.update w.slots ts (some addr) },
          some addr)

/-- `del_timer(timer)`. -/
def delTimer (w : TimeWheel) (timer : Option Ptr) : Option TimeWheel :=
  match timer with
  | none => some w
  | some p => do
      let t ← w.heap p
      let ts := t.timeSlot
      if w.slots ts = some p then
        let slots := Function.update w.slots ts t.next
        let heap ← w.heap.storeIf (slots ts) fun t => { t with prev := none }
        let heap ← heap.delete p
        some { w with heap := heap, slots := slots }
      else
        let heap ← w.heap.store t.prev fun q => { q with next := t.next }
        let t ← heap p
        let heap ← heap.storeIf t.next fun q => { q with prev := t.prev }
        let heap ← heap.delete p
        some { w with heap := heap }

/-- The branch of `tick` that follows the callback of the timer `tmp`: it unlinks and frees
`tmp` and returns the timer to visit next. -/
def removeFired (w : TimeWheel) (tmp : Ptr) : Option (TimeWheel × Option Ptr) := do
  let t ← w.heap tmp
  if w.slots w.curSlot = some tmp then
    let slots := Function.update w.slots w.curSlot t.next
    let heap ← w.heap.delete tmp
    let heap ← heap.storeIf (slots w.curSlot) fun q => { q with prev := none }
    some ({ w with heap := heap, slots := slots }, slots w.curSlot)
  else
    let heap ← w.heap.store t.prev fun q => { q with next := t.next }
    let t ← heap tmp
    let heap ← heap.storeIf t.next fun q => { q with prev := t.prev }
    let t ← heap tmp
    let heap ← heap.delete tmp
    some ({ w with heap := heap }, t.next)

variable {W : Type}

/-- The `while (tmp)` loop of `tick`. `cbFunc tmp w o` is the effect of
`tmp->cb_func(tmp->user_data)` on the wheel `w` and on whatever else, `o`, it changes. -/
def tickLoop (cbFunc : Ptr → TimeWheel → W → Option (TimeWheel × W)) :
    ℕ → Option Ptr → TimeWheel → W → Option (TimeWheel × W)
  | _, none, w, o => some (w, o)
  | 0, some _, _, _ => none
  | fuel + 1, some tmp, w, o => do
      let t ← w.heap tmp
      if 0 < t.rotation then
        let heap ← w.heap.store (some tmp) fun q => { q with rotation := q.rotation - 1 }
        let t ← heap tmp
        tickLoop cbFunc fuel t.next { w with heap := heap } o
      else
        let (w, o) ← cbFunc tmp w o
        let (w, tmp) ← removeFired w tmp
        tickLoop cbFunc fuel tmp w o

/-- `tick()`: run the loop over the current slot, then advance the cursor. -/
def tick (cbFunc : Ptr → TimeWheel → W → Option (TimeWheel × W)) (fuel : ℕ)
    (w : TimeWheel) (o : W) : Option (TimeWheel × W) := do
  let (w, o) ← tickLoop cbFunc fuel (w.slots w.curSlot) w o
  some ({ w with curSlot := (w.curSlot + 1) % N }, o)

/-! ### Operation sequences -/

/-- A call on the wheel made from outside the callbacks. An `addTimer` carries the address
its `new` returns. -/
inductive Op where
  | addTimer (timeout : ℤ) (addr : Ptr)
  | delTimer (timer : Ptr)
  | tick
deriving DecidableEq, Repr

/-- What a call lets its caller observe: the returned timer of `add_timer`, nothing for
`del_timer`, and for `tick` the timers whose callback ran, in order. -/
inductive Out where
  | added (timer : Option Ptr)
  | deleted
  | fired (timers : List Ptr)
deriving DecidableEq, Repr

/-- The callback that leaves the wheel alone and records which timer fired. -/
def logFired (tmp : Ptr) (w : TimeWheel) (log : List Ptr) :
    Option (TimeWheel × List Ptr) :=
  some (w, log ++ [tmp])

/-- One call, with callbacks that do not touch the wheel. -/
def exec (fuel : ℕ) (w : TimeWheel) : Op → Option (TimeWheel × Out)
  | .addTimer timeout addr => (w.addTimer timeout addr).map fun r => (r.1, .added r.2)
  | .delTimer timer => (w.delTimer (some timer)).map fun w => (w, .deleted)
  | .tick => (tick logFired fuel w []).map fun r => (r.1, .fired r.2)

end TimeWheel

end LinuxNetwork

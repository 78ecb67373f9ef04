import Mathlib.Algebra.Order.Ring.Int
import Mathlib.Data.Int.Notation
import LinuxNetwork.DoublyLinked

/-!
# The Sorted Timer List

This module embeds `Sort_timer_list` of `linux_server/cpt_11_2_1.h`: a doubly linked list
of timers with a head and a tail pointer, which is meant to be in ascending order of
`expire`. As in the time wheel the timers live in a heap, all pointers are followed as the
C++ code follows them, and a null or dangling access makes an operation return `none`.

`Util_timer` is allocated by the callers of the list, so `addTimer` takes the address of a
timer that exists already. The two functions that walk the list are fueled by the number
of nodes they may pass. A timer's `m_callback` is applied by `tick` alone; it is behind a
parameter that receives the firing timer, the list and a caller's state.

## Main definitions

* `SortTimerList.addTimer`, `SortTimerList.addTimerFrom`: the two overloads of `add_timer`.
* `SortTimerList.adjustTimer`, `SortTimerList.delTimer`, `SortTimerList.tick`.
-/

open DoublyLinked

namespace LinuxNetwork

/-- A timer of the list (`Util_timer`), with user data of type `U`. -/
structure UtilTimer (U : Type) where
  expire : ℤ
  userData : U
  prev : Option Ptr
  next : Option Ptr
deriving DecidableEq, Repr

/-- The constructor `Util_timer()`, with the fields its caller sets: both links are null. -/
def UtilTimer.new {U : Type} (expire : ℤ) (userData : U) : UtilTimer U where
  expire := expire
  userData := userData
  prev := none
  next := none

instance {U : Type} : Linked (UtilTimer U) where
  next := UtilTimer.next
  prev := UtilTimer.prev

@[simp] theorem UtilTimer.linked_next {U : Type} (t : UtilTimer U) :
    Linked.next t = t.next := rfl

@[simp] theorem UtilTimer.linked_prev {U : Type} (t : UtilTimer U) :
    Linked.prev t = t.prev := rfl

/-- A timer without its links: expiry and user data. -/
def UtilTimer.data {U : Type} (t : UtilTimer U) : ℤ × U :=
  (t.expire, t.userData)

/-- The list (`Sort_timer_list`) and the allocated timers. -/
structure SortTimerList (U : Type) where
  heap : Heap (UtilTimer U)
  head : Option Ptr
  tail : Option Ptr

namespace SortTimerList

variable {U : Type}

/-- The constructor `Sort_timer_list()`. -/
def new : SortTimerList U where
  heap := fun _ => none
  head := none
  tail := none

/-- `new Util_timer`, at the address the allocator returns, and its caller's assignments to
`_expire` and `_user_data`. -/
def newTimer (l : SortTimerList U) (addr : Ptr) (expire : ℤ) (userData : U) :
    SortTimerList U :=
  { l with heap := l.heap.alloc addr (UtilTimer.new expire userData) }

/-- The `while (tmp)` loop of `add_timer(timer, lst_head)` and the `if (!tmp)` behind it. -/
def addLoop (timer : Ptr) : ℕ → Ptr → Option Ptr → SortTimerList U → Option (SortTimerList U)
  | _, prev, none, l => do
      let heap ← l.heap.store (some prev) fun n => { n with next := some timer }
      let heap ← heap.store (some timer) fun n => { n with prev := some prev }
      let heap ← heap.store (some timer) fun n => { n with next := none }
      some { l with heap := heap, tail := some timer }
  | 0, _, some _, _ => none
  | fuel + 1, prev, some tmp, l => do
      let t ← l.heap timer
      let n ← l.heap tmp
      if t.expire < n.expire then
        let heap ← l.heap.store (some prev) fun n => { n with next := some timer }
        let heap ← heap.store (some timer) fun n => { n with prev := some prev }
        let heap ← heap.store (some timer) fun n => { n with next := some tmp }
        let heap ← heap.store (some tmp) fun n => { n with prev := some timer }
        some { l with heap := heap }
      else
        addLoop timer fuel tmp n.next l

/-- `add_timer(timer, lst_head)`: insert behind `lst_head`, walking towards the tail. -/
def addTimerFrom (fuel : ℕ) (l : SortTimerList U) (timer : Ptr) (lstHead : Option Ptr) :
    Option (SortTimerList U) := do
  let prev ← lstHead
  let n ← l.heap prev
  addLoop timer fuel prev n.next l

/-- `add_timer(timer)`. -/
def addTimer (fuel : ℕ) (l : SortTimerList U) (timer : Option Ptr) :
    Option (SortTimerList U) :=
  match timer with
  | none => some l
  | some p =>
      match l.head with
      | none => some { l with head := some p, tail := some p }
      | some head => do
          let t ← l.heap p
          let n ← l.heap head
          if t.expire < n.expire then
            let heap ← l.heap.store (some p) fun n => { n with next := some head }
            let heap ← heap.store (some head) fun n => { n with prev := some p }
            some { l with heap := heap, head := some p }
          else
            addTimerFrom fuel l p (some head)

/-- `adjust_timer(timer)`: move a timer whose `expire` has been raised. -/
def adjustTimer (fuel : ℕ) (l : SortTimerList U) (timer : Option Ptr) :
    Option (SortTimerList U) :=
  match timer with
  | none => some l
  | some p => do
      let t ← l.heap p
      match t.next with
      | none => some l
      | some tmp => do
          let n ← l.heap tmp
          if t.expire < n.expire then some l
          else if l.head = some p then
            let head := t.next
            let heap ← l.heap.store head fun n => { n with prev := none }
            let heap ← heap.store (some p) fun n => { n with next := none }
            addTimerFrom fuel { l with heap := heap, head := head } p head
          else
            let heap ← l.heap.store t.prev fun n => { n with next := t.next }
            let t ← heap p
            let heap ← heap.store t.next fun n => { n with prev := t.prev }
            let t ← heap p
            addTimerFrom fuel { l with heap := heap } p t.next

/-- `del_timer(timer)`. -/
def delTimer (l : SortTimerList U) (timer : Option Ptr) : Option (SortTimerList U) :=
  match timer with
  | none => some l
  | some p =>
      if l.head = some p ∧ l.tail = some p then do
        let heap ← l.heap.delete p
        some { l with heap := heap, head := none, tail := none }
      else if l.head = some p then do
        let t ← l.heap p
        let head := t.next
        let heap ← l.heap.store head fun n => { n with prev := none }
        let heap ← heap.delete p
        some { l with heap := heap, head := head }
      else if l.tail = some p then do
        let t ← l.heap p
        let tail := t.prev
        let heap ← l.heap.store tail fun n => { n with next := none }
        let heap ← heap.delete p
        some { l with heap := heap, tail := tail }
      else do
        let t ← l.heap p
        let heap ← l.heap.store t.prev fun n => { n with next := t.next }
        let t ← heap p
        let heap ← heap.store t.next fun n => { n with prev := t.prev }
        let heap ← heap.delete p
        some { l with heap := heap }

variable {W : Type}

/-- The `while (tmp)` loop of `tick` at the clock value `cur`. `callback tmp l o` is the
effect of `tmp->m_callback(tmp->_user_data)` on the list `l` and on whatever else, `o`, it
changes. -/
def tickLoop (callback : Ptr → SortTimerList U → W → Option (SortTimerList U × W))
    (cur : ℤ) : ℕ → Option Ptr → SortTimerList U → W → Option (SortTimerList U × W)
  | _, none, l, o => some (l, o)
  | 0, some _, _, _ => none
  | fuel + 1, some tmp, l, o => do
      let t ← l.heap tmp
      if cur < t.expire then some (l, o)
      else
        let (l, o) ← callback tmp l o
        let t ← l.heap tmp
        let head := t.next
        let heap ← l.heap.storeIf head fun n => { n with prev := none }
        let heap ← heap.delete tmp
        tickLoop callback cur fuel head { l with heap := heap, head := head } o

/-- `tick()`; `cur` is the value that `time(nullptr)` returns in it. -/
def tick (callback : Ptr → SortTimerList U → W → Option (SortTimerList U × W))
    (fuel : ℕ) (cur : ℤ) (l : SortTimerList U) (o : W) : Option (SortTimerList U × W) :=
  match l.head with
  | none => some (l, o)
  | some head => tickLoop callback cur fuel (some head) l o

/-! ### Operation sequences -/

/-- A call on the list. An `addTimer` is preceded by the allocation of its timer at `addr`,
an `adjustTimer` by the assignment of a new `expire` to its timer. -/
inductive Op (U : Type) where
  | addTimer (addr : Ptr) (expire : ℤ) (userData : U)
  | adjustTimer (timer : Ptr) (expire : ℤ)
  | delTimer (timer : Ptr)
  | tick (cur : ℤ)
deriving DecidableEq, Repr

/-- The callback that leaves the list alone and records which timer fired. -/
def logFired (tmp : Ptr) (l : SortTimerList U) (log : List Ptr) :
    Option (SortTimerList U × List Ptr) :=
  some (l, log ++ [tmp])

/-- The assignment `timer->_expire = expire`. -/
def setExpire (l : SortTimerList U) (timer : Ptr) (expire : ℤ) :
    Option (SortTimerList U) := do
  let heap ← l.heap.store (some timer) fun n => { n with expire := expire }
  some { l with heap := heap }

/-- One call, with the timers whose callback it runs; callbacks do not touch the list. -/
def exec (fuel : ℕ) (l : SortTimerList U) : Op U → Option (SortTimerList U × List Ptr)
  | .addTimer addr expire userData => do
      let l ← (l.newTimer addr expire userData).addTimer fuel (some addr)
      some (l, [])
  | .adjustTimer timer expire => do
      let l ← l.setExpire timer expire
      let l ← l.adjustTimer fuel (some timer)
      some (l, [])
  | .delTimer timer => do
      let l ← l.delTimer (some timer)
      some (l, [])
  | .tick cur => tick logFired fuel cur l []

end SortTimerList

end LinuxNetwork

import LinuxNetwork.AllocationLog
import LinuxNetwork.SortTimerListQueue

/-!
# Callbacks That Change the Sorted Timer List

The callbacks that `tick` runs may themselves call `add_timer`, `adjust_timer` and `del_timer`.
The timer that is fired is still in the list while its callback runs, and behind the callback
`tick` moves the head to the timer behind it. So what stands in front of it by then is lost: it is
neither fired nor in the list. A callback puts a timer there by adding one that expires before
the one that is fired.

A callback is given by the calls that it makes, which may depend on the timer that is fired and
on the list. It adds fresh timers, with any expiry, and moves and deletes timers that are in the
list, though not the one that is fired. What happens is recorded as a log of allocations.

## Main definitions

* `Callbacks`: what the callbacks of a tick do.
* `Outstanding`: the timers that a log leaves.
* `StaysFirst`: the callbacks that leave the timer in front that is fired.

## Main results

* `Rep.call`, `Rep.runScript`: what the calls of a callback do to the list.
* `tickLoop_loses`: the timers that the loop of `tick` loses.
* `tick_keeps_iff`: the ticks that lose no timer.
* `Rep.staysFirst`: callbacks whose new timers expire no earlier than the one that is fired.
-/

open AllocationLog DoublyLinked

namespace LinuxNetwork.SortTimerList

variable {U : Type}

/-! ### Calls and callbacks -/

/-- A call of a callback. An `addTimer` is preceded by the allocation of its timer at `addr`, an
`adjustTimer` by the assignment of a new `expire` to its timer. -/
inductive Call (U : Type) where
  | addTimer (addr : Ptr) (expire : ℤ) (userData : U)
  | adjustTimer (timer : Ptr) (expire : ℤ)
  | delTimer (timer : Ptr)
deriving DecidableEq, Repr

/-- The list after a call. -/
def Call.exec (fuel : ℕ) (l : SortTimerList U) : Call U → Option (SortTimerList U)
  | .addTimer addr expire userData => (l.newTimer addr expire userData).addTimer fuel (some addr)
  | .adjustTimer timer expire => do
      let l ← l.setExpire timer expire
      l.adjustTimer fuel (some timer)
  | .delTimer timer => l.delTimer (some timer)

/-- What happens in a call. -/
def Call.events : Call U → List (Event Ptr ℤ)
  | .addTimer addr expire _ => [.added addr expire]
  | .adjustTimer _ _ => []
  | .delTimer timer => [.deleted timer]

/-- The timer can be reached from the head. -/
def Member (l : SortTimerList U) (p : Ptr) : Prop :=
  ∃ es, Rep l es ∧ p ∈ timers es

/-- The calls that may be made while the timer `firing` is fired. -/
def Call.Permitted (firing : Ptr) (l : SortTimerList U) : Call U → Prop
  | .addTimer addr _ _ => l.heap addr = none
  | .adjustTimer timer _ => l.Member timer ∧ timer ≠ firing
  | .delTimer timer => l.Member timer ∧ timer ≠ firing

/-- The list after the calls of a callback. -/
def runScript (fuel : ℕ) : SortTimerList U → List (Call U) → Option (SortTimerList U)
  | l, [] => some l
  | l, c :: cs => (c.exec fuel l).bind fun l => runScript fuel l cs

/-- What happens in the calls of a callback. -/
def scriptEvents (cs : List (Call U)) : List (Event Ptr ℤ) :=
  cs.flatMap Call.events

/-- Each call of a callback may be made when its turn comes. -/
def PermittedAll (firing : Ptr) : SortTimerList U → List (Call U) → Prop
  | _, [] => True
  | l, c :: cs =>
      c.Permitted firing l ∧ ∀ fuel l', c.exec fuel l = some l' → PermittedAll firing l' cs

/-- **What the callbacks of a tick do**: the calls they make, all of which may be made. -/
structure Callbacks (U : Type) where
  /-- The calls that the callback of the timer makes, on this list. -/
  script : Ptr → SortTimerList U → List (Call U)
  permitted : ∀ tmp l, PermittedAll tmp l (script tmp l)

/-- `tmp->m_callback(tmp->_user_data)`, which records what happens. -/
def Callbacks.callback (cb : Callbacks U) (fuel : ℕ) (tmp : Ptr) (l : SortTimerList U)
    (log : List (Event Ptr ℤ)) : Option (SortTimerList U × List (Event Ptr ℤ)) :=
  (runScript fuel l (cb.script tmp l)).map fun l' =>
    (l', log ++ .fired tmp :: scriptEvents (cb.script tmp l))

/-- The list behind the callback of `tmp`: the head moves on, and the timer is freed. -/
def afterCallback (l : SortTimerList U) (tmp : Ptr) : Option (SortTimerList U) := do
  let t ← l.heap tmp
  let heap ← l.heap.storeIf t.next fun n => { n with prev := none }
  let heap ← heap.delete tmp
  some { l with heap := heap, head := t.next }

/-- **The condition.** The callback of each timer that is due leaves that timer at the head, from
the list that the timers in front of it have left. -/
def StaysFirst (cb : Callbacks U) (walk : ℕ) (cur : ℤ) : ℕ → SortTimerList U → Prop
  | 0, _ => True
  | fuel + 1, l =>
      ∀ p t, l.head = some p → l.heap p = some t → t.expire ≤ cur →
        ∀ l', runScript walk l (cb.script p l) = some l' →
          l'.head = some p ∧ ∀ l'', afterCallback l' p = some l'' → StaysFirst cb walk cur fuel l''

/-- The timer is outstanding after the events, from a list with the timers `ps`: it was there or
added once more than it was deleted or fired. -/
def Outstanding (ps : List Ptr) (events : List (Event Ptr ℤ)) (p : Ptr) : Prop :=
  ps.count p + events.countP (Event.adds p) = events.countP (Event.frees p) + 1

/-! ### More fuel -/

variable {l l' : SortTimerList U} {es es₁ es₂ : List (Entry U)} {e : Entry U} {p : Ptr}
  {fuel : ℕ}

/-- More fuel does not change what the walk of `add_timer` does, once it returns. Induction on
the fuel. -/
theorem addLoop_mono {prev : Ptr} {tmp : Option Ptr} (h : addLoop p fuel prev tmp l = some l')
    (more : ℕ) : addLoop p (fuel + more) prev tmp l = some l' := by
  induction fuel generalizing prev tmp l with
  | zero =>
      cases tmp with
      | none => rwa [addLoop] at h ⊢
      | some q => cases h
  | succ fuel ih =>
      cases tmp with
      | none => rwa [addLoop] at h ⊢
      | some q =>
          rw [Nat.add_right_comm]
          obtain ⟨t, ht, h⟩ := Option.bind_eq_some_iff.mp h
          obtain ⟨n, hn, h⟩ := Option.bind_eq_some_iff.mp h
          simp only [addLoop, ht, hn, Option.bind_eq_bind, Option.bind_some]
          by_cases hlt : t.expire < n.expire
          · rw [if_pos hlt] at h ⊢
            exact h
          · rw [if_neg hlt] at h ⊢
            exact ih h

/-- More fuel does not change what `add_timer(timer, lst_head)` does, which walks once. -/
theorem addTimerFrom_mono {lstHead : Option Ptr} (h : l.addTimerFrom fuel p lstHead = some l')
    (more : ℕ) : l.addTimerFrom (fuel + more) p lstHead = some l' := by
  obtain ⟨prev, rfl, h⟩ := Option.bind_eq_some_iff.mp h
  obtain ⟨n, hn, h⟩ := Option.bind_eq_some_iff.mp h
  simp only [SortTimerList.addTimerFrom, hn, Option.bind_eq_bind, Option.bind_some]
  exact addLoop_mono h more

/-- More fuel does not change what `add_timer` does, since a null list and a new head need no
walk. -/
theorem addTimer_mono (h : l.addTimer fuel (some p) = some l') (more : ℕ) :
    l.addTimer (fuel + more) (some p) = some l' := by
  simp only [SortTimerList.addTimer] at h ⊢
  cases hhead : l.head with
  | none => simpa only [hhead] using h
  | some head =>
      simp only [hhead] at h ⊢
      obtain ⟨t, ht, h⟩ := Option.bind_eq_some_iff.mp h
      obtain ⟨n, hn, h⟩ := Option.bind_eq_some_iff.mp h
      simp only [ht, hn, Option.bind_eq_bind, Option.bind_some]
      by_cases hlt : t.expire < n.expire
      · rw [if_pos hlt] at h ⊢
        exact h
      · rw [if_neg hlt] at h ⊢
        exact addTimerFrom_mono h more

/-- More fuel does not change what `adjust_timer` does, which unlinks the timer and adds it
again behind its old place. -/
theorem adjustTimer_mono (h : l.adjustTimer fuel (some p) = some l') (more : ℕ) :
    l.adjustTimer (fuel + more) (some p) = some l' := by
  obtain ⟨t, ht, h⟩ := Option.bind_eq_some_iff.mp h
  simp only [SortTimerList.adjustTimer, ht, Option.bind_eq_bind, Option.bind_some]
  cases hnext : t.next with
  | none => simpa only [hnext] using h
  | some tmp =>
      simp only [hnext] at h ⊢
      obtain ⟨n, hn, h⟩ := Option.bind_eq_some_iff.mp h
      simp only [hn, Option.bind_some]
      by_cases hlt : t.expire < n.expire
      · rw [if_pos hlt] at h ⊢
        exact h
      · rw [if_neg hlt] at h ⊢
        by_cases hhead : l.head = some p
        · rw [if_pos hhead] at h ⊢
          obtain ⟨heap, hheap, h⟩ := Option.bind_eq_some_iff.mp h
          obtain ⟨heap', hheap', h⟩ := Option.bind_eq_some_iff.mp h
          rw [hheap, Option.bind_some, hheap', Option.bind_some]
          exact addTimerFrom_mono h more
        · rw [if_neg hhead] at h ⊢
          obtain ⟨heap, hheap, h⟩ := Option.bind_eq_some_iff.mp h
          obtain ⟨t', ht', h⟩ := Option.bind_eq_some_iff.mp h
          obtain ⟨heap', hheap', h⟩ := Option.bind_eq_some_iff.mp h
          obtain ⟨t'', ht'', h⟩ := Option.bind_eq_some_iff.mp h
          rw [hheap, Option.bind_some, ht', Option.bind_some, hheap', Option.bind_some, ht'',
            Option.bind_some]
          exact addTimerFrom_mono h more

/-! ### The list and what is lost -/

/-- The number of timers at an address, in the list and lost. -/
def own (es : List (Entry U)) (lost : List Ptr) (p : Ptr) : ℕ :=
  (timers es ++ lost).count p

/-- The list holds the entries `es`, and the timers `lost` are allocated outside it. -/
structure Holds (l : SortTimerList U) (es : List (Entry U)) (lost : List Ptr) : Prop where
  rep : Rep l es
  nodup : (timers es ++ lost).Nodup
  allocated : ∀ p ∈ lost, l.heap p ≠ none

variable {lost : List Ptr}

/-- A timer is in the list or lost once at most. -/
theorem Holds.own_le_one (h : Holds l es lost) (p : Ptr) : own es lost p ≤ 1 :=
  List.nodup_iff_count_le_one.mp h.nodup p

/-- What is lost is not in the list. -/
theorem Holds.notMem_of_lost (h : Holds l es lost) (hp : p ∈ lost) : p ∉ timers es := fun hm =>
  List.disjoint_of_nodup_append h.nodup hm hp

/-- The timers of the queue are allocated. -/
theorem Rep.heap_ne_none (h : Rep l es) (hp : p ∈ timers es) : l.heap p ≠ none := by
  obtain ⟨t, ht⟩ := h.allocated p hp
  rw [ht]
  exact Option.some_ne_none t

/-- A member of the list is the timer of an entry. -/
theorem Rep.mem_of_member (h : Rep l es) (hp : l.Member p) : p ∈ timers es := by
  obtain ⟨es', h', hp'⟩ := hp
  rwa [h.unique h']

/-- **`add_timer`** of a fresh timer by a callback: it is inserted, and no other timer outside
the queue is touched. The callback may have had more fuel than the insertion needs. -/
theorem Rep.call_addTimer {addr : Ptr} {expire : ℤ} {userData : U} (h : Rep l es)
    (haddr : l.heap addr = none)
    (hrun : (Call.addTimer addr expire userData).exec fuel l = some l') :
    Rep l' (insertEntry ⟨addr, expire, userData⟩ es) ∧
      ∀ q, q ∉ timers es → q ≠ addr → l'.heap q = l.heap q := by
  have hnot : addr ∉ timers es := fun hm => h.heap_ne_none hm haddr
  have hnew : ∀ q, q ≠ addr → (l.newTimer addr expire userData).heap q = l.heap q := fun q hq =>
    Function.update_of_ne hq _ _
  have hself : (l.newTimer addr expire userData).heap addr =
      some (UtilTimer.new expire userData) := Function.update_self ..
  have hrep : Rep (l.newTimer addr expire userData) es :=
    h.congr_heap fun q hq => hnew q (ne_of_mem_of_not_mem hq hnot)
  obtain ⟨l₁, hrun₁, hrep₁, hoff⟩ := hrep.addTimer (e := ⟨addr, expire, userData⟩) hself rfl hnot
    (Nat.le_add_left _ fuel)
  obtain rfl := Option.some.inj ((addTimer_mono hrun es.length).symm.trans hrun₁)
  exact ⟨hrep₁, fun q hq hqa => (hoff q hq hqa).trans (hnew q hqa)⟩

/-- **`adjust_timer`** of an entry by a callback, with any new expiry. The entry moves towards
the tail only, and no timer outside the queue is touched. -/
theorem Rep.call_adjustTimer {expire : ℤ} (h : Rep l (es₁ ++ e :: es₂))
    (hrun : (Call.adjustTimer e.timer expire).exec fuel l = some l') :
    Rep l' (es₁ ++ insertEntry { e with expire := expire } es₂) ∧
      ∀ q, q ∉ timers (es₁ ++ e :: es₂) → l'.heap q = l.heap q := by
  obtain ⟨l₁, hset, hadjust⟩ := Option.bind_eq_some_iff.mp hrun
  obtain ⟨l₁', hset', hrep₁, -, hoff₁⟩ := h.setExpire expire
  obtain rfl := Option.some.inj (hset.symm.trans hset')
  obtain ⟨l₂, hrun₂, hrep₂, hoff₂⟩ := hrep₁.adjustTimer _ (Nat.le_add_left _ fuel)
  obtain rfl := Option.some.inj ((adjustTimer_mono hadjust es₂.length).symm.trans hrun₂)
  refine ⟨hrep₂, fun q hq => ?_⟩
  have hqe : q ≠ e.timer := fun hqe => hq (by simp [hqe])
  rw [hoff₂ q (by simpa using hq), hoff₁ q hqe]

/-- A timer that is one of the list or lost in `es'` and `lost'`, and not in `es` and `lost`.
The two counts differ at this timer alone. -/
theorem own_eq_of_perm {es' : List (Entry U)} {lost' : List Ptr}
    (hperm : (timers es' ++ lost').Perm (p :: (timers es ++ lost)))
    (hp : p ∉ timers es ++ lost) :
    own es' lost' = Function.update (own es lost) p 1 ∧
      own es lost = Function.update (own es' lost') p 0 := by
  have hzero : own es lost p = 0 := List.count_eq_zero.mpr hp
  have hother : ∀ q, q ≠ p → own es' lost' q = own es lost q := fun q hq => by
    rw [own, own, hperm.count_eq, List.count_cons_of_ne (Ne.symm hq)]
  constructor
  · funext q
    by_cases hq : q = p
    · rw [hq, Function.update_self, own, hperm.count_eq, List.count_cons_self]
      exact congrArg (· + 1) hzero
    · rw [Function.update_of_ne hq, hother q hq]
  · funext q
    by_cases hq : q = p
    · rw [hq, Function.update_self, hzero]
    · rw [Function.update_of_ne hq, hother q hq]

/-- **A fresh timer** goes to the list, and what is lost stays lost. The log has it as added. -/
theorem Holds.call_addTimer {addr : Ptr} {expire : ℤ} {userData : U} (h : Holds l es lost)
    (haddr : l.heap addr = none)
    (hrun : (Call.addTimer addr expire userData).exec fuel l = some l') :
    Holds l' (insertEntry ⟨addr, expire, userData⟩ es) lost ∧
      Balanced (own es lost) (Call.addTimer addr expire userData).events
        (own (insertEntry ⟨addr, expire, userData⟩ es) lost) := by
  obtain ⟨hrep, hoff⟩ := h.rep.call_addTimer haddr hrun
  have hnot : addr ∉ timers es ++ lost := by
    rw [List.mem_append, not_or]
    exact ⟨fun hm => h.rep.heap_ne_none hm haddr, fun hm => h.allocated addr hm haddr⟩
  have hperm : (timers (insertEntry ⟨addr, expire, userData⟩ es) ++ lost).Perm
      (addr :: (timers es ++ lost)) :=
    ((StableQueue.perm_insert _ es).map Entry.timer).append_right lost
  refine ⟨⟨hrep, hperm.nodup_iff.mpr (List.nodup_cons.mpr ⟨hnot, h.nodup⟩), fun q hq => ?_⟩, ?_⟩
  · have hqa : q ≠ addr := fun heq => hnot (heq ▸ List.mem_append_right _ hq)
    rw [hoff q (h.notMem_of_lost hq) hqa]
    exact h.allocated q hq
  · rw [(own_eq_of_perm hperm hnot).1]
    exact balanced_added h.own_le_one (List.count_eq_zero.mpr hnot) expire

/-- **An entry with a new expiry** stays in the list, and nothing is logged. -/
theorem Holds.call_adjustTimer {expire : ℤ} (h : Holds l (es₁ ++ e :: es₂) lost)
    (hrun : (Call.adjustTimer e.timer expire).exec fuel l = some l') :
    Holds l' (es₁ ++ insertEntry { e with expire := expire } es₂) lost ∧
      own (es₁ ++ insertEntry { e with expire := expire } es₂) lost =
        own (es₁ ++ e :: es₂) lost := by
  obtain ⟨hrep, hoff⟩ := h.rep.call_adjustTimer hrun
  have hperm : (timers (es₁ ++ insertEntry { e with expire := expire } es₂) ++ lost).Perm
      (timers (es₁ ++ e :: es₂) ++ lost) := by
    rw [timers_append, timers_append]
    exact (((StableQueue.perm_insert _ es₂).map Entry.timer).append_left _).append_right lost
  refine ⟨⟨hrep, hperm.nodup_iff.mpr h.nodup, fun q hq => ?_⟩, funext hperm.count_eq⟩
  rw [hoff q (h.notMem_of_lost hq)]
  exact h.allocated q hq

/-- **A deleted timer** leaves the list, and the log has it as deleted. -/
theorem Holds.call_delTimer (h : Holds l (es₁ ++ e :: es₂) lost)
    (hrun : (Call.delTimer e.timer).exec fuel l = some l') :
    Holds l' (es₁ ++ es₂) lost ∧
      Balanced (own (es₁ ++ e :: es₂) lost) (Call.delTimer e.timer : Call U).events
        (own (es₁ ++ es₂) lost) := by
  obtain ⟨l₁, hrun₁, hrep, -, hoff⟩ := h.rep.delTimer
  obtain rfl := Option.some.inj (hrun.symm.trans hrun₁)
  have hperm : (timers (es₁ ++ e :: es₂) ++ lost).Perm
      (e.timer :: (timers (es₁ ++ es₂) ++ lost)) := by
    rw [timers_append, timers_cons, timers_append, ← List.cons_append]
    exact List.perm_middle.append_right lost
  obtain ⟨hnot, hnodup⟩ := List.nodup_cons.mp (hperm.nodup_iff.mp h.nodup)
  refine ⟨⟨hrep, hnodup, fun q hq => ?_⟩, ?_⟩
  · rw [hoff q (h.notMem_of_lost hq)]
    exact h.allocated q hq
  · obtain ⟨hone, hzero⟩ := own_eq_of_perm hperm hnot
    rw [hzero]
    exact balanced_deleted h.own_le_one (by rw [hone, Function.update_self])

/-- **A call** that may be made keeps the timer in the list that is fired, and what is lost. -/
theorem Holds.call {c : Call U} (h : Holds l es lost) (he : e ∈ es)
    (hc : c.Permitted e.timer l) (hrun : c.exec fuel l = some l') :
    ∃ es', Holds l' es' lost ∧ e ∈ es' ∧ Balanced (own es lost) c.events (own es' lost) := by
  cases c with
  | addTimer addr expire userData =>
      obtain ⟨h', hbal⟩ := h.call_addTimer hc hrun
      exact ⟨_, h', (StableQueue.perm_insert _ es).mem_iff.mpr (List.mem_cons_of_mem _ he), hbal⟩
  | adjustTimer timer expire =>
      obtain ⟨es₁, f, es₂, rfl, rfl⟩ := exists_split_of_mem (h.rep.mem_of_member hc.1)
      obtain ⟨h', hown⟩ := h.call_adjustTimer hrun
      have hef : e ≠ f := fun heq => hc.2 (by rw [heq])
      refine ⟨_, h', ?_, ?_⟩
      · rw [List.mem_append, List.mem_cons] at he
        rw [List.mem_append]
        rcases he with he | heq | he
        · exact Or.inl he
        · exact absurd heq hef
        · exact Or.inr ((StableQueue.perm_insert _ es₂).mem_iff.mpr (List.mem_cons_of_mem _ he))
      · rw [hown]
        exact balanced_nil h.own_le_one
  | delTimer timer =>
      obtain ⟨es₁, f, es₂, rfl, rfl⟩ := exists_split_of_mem (h.rep.mem_of_member hc.1)
      obtain ⟨h', hbal⟩ := h.call_delTimer hrun
      have hef : e ≠ f := fun heq => hc.2 (by rw [heq])
      refine ⟨_, h', ?_, hbal⟩
      simp only [List.mem_append, List.mem_cons] at he ⊢
      tauto

/-- The calls of a callback fire no timer. They only add timers and delete them. -/
theorem fired_notMem_scriptEvents (cs : List (Call U)) (p : Ptr) :
    .fired p ∉ scriptEvents cs := by
  intro hmem
  obtain ⟨c, -, hc⟩ := List.mem_flatMap.mp hmem
  cases c <;> simp [Call.events] at hc

/-- **The calls of a callback** keep the timer in the list that is fired, and what is lost.
Induction on the calls, each of which may be made where the ones before it lead. -/
theorem Holds.runScript {cs : List (Call U)} (h : Holds l es lost) (he : e ∈ es)
    (hcs : PermittedAll e.timer l cs)
    (hrun : SortTimerList.runScript fuel l cs = some l') :
    ∃ es', Holds l' es' lost ∧ e ∈ es' ∧
      Balanced (own es lost) (scriptEvents cs) (own es' lost) ∧
      .deleted e.timer ∉ scriptEvents cs := by
  induction cs generalizing l es with
  | nil =>
      obtain rfl := Option.some.inj hrun
      exact ⟨es, h, he, balanced_nil h.own_le_one, List.not_mem_nil⟩
  | cons c cs ih =>
      obtain ⟨l₁, hrun₁, hrun⟩ := Option.bind_eq_some_iff.mp hrun
      obtain ⟨es₁, h₁, he₁, hbal₁⟩ := h.call he hcs.1 hrun₁
      obtain ⟨es', h', he', hbal, hdel⟩ := ih h₁ he₁ (hcs.2 fuel l₁ hrun₁) hrun
      refine ⟨es', h', he', hbal₁.trans hbal, ?_⟩
      rw [scriptEvents, List.flatMap_cons, List.mem_append, not_or]
      refine ⟨fun hmem => ?_, hdel⟩
      cases c with
      | addTimer addr expire userData => simp [Call.events] at hmem
      | adjustTimer timer expire => simp [Call.events] at hmem
      | delTimer timer =>
          obtain heq : e.timer = timer := by simpa [Call.events] using hmem
          exact hcs.1.2 heq.symm

/-! ### The loop -/

/-- **Behind a callback** the timer is freed that was fired, and what stands in front of it is
lost. -/
theorem Holds.moveHead {front rest : List (Entry U)} (h : Holds l (front ++ e :: rest) lost)
    {t : UtilTimer U} (ht : l.heap e.timer = some t) :
    ∃ heap heap', l.heap.storeIf t.next (fun n => { n with prev := none }) = some heap ∧
      heap.delete e.timer = some heap' ∧ t.next = (timers rest).head? ∧
      Holds { l with heap := heap', head := t.next } rest (lost ++ timers front) ∧
      own rest (lost ++ timers front) =
        Function.update (own (front ++ e :: rest) lost) e.timer 0 := by
  have hperm : (timers (front ++ e :: rest) ++ lost).Perm
      (e.timer :: (timers rest ++ (lost ++ timers front))) := by
    rw [timers_append, timers_cons, List.append_assoc, List.cons_append, ← List.append_assoc]
    exact List.perm_middle.trans (List.perm_append_comm.cons e.timer)
  obtain ⟨hnot, hnodup'⟩ := List.nodup_cons.mp (hperm.nodup_iff.mp h.nodup)
  obtain ⟨heap, hstore, hrep, hp, hoff⟩ := h.rep.moveHead ht
  have hrest : e.timer ∉ timers rest := fun hm => hnot (List.mem_append_left _ hm)
  refine ⟨heap, _, hstore, Heap.delete_eq hp, h.rep.next_eq ht,
    ⟨hrep.congr_delete hrest, hnodup', fun q hq => ?_⟩, ?_⟩
  · have hqe : q ≠ e.timer := fun heq => hnot (heq ▸ List.mem_append_right _ hq)
    have hqrest : q ∉ timers rest := fun hm => List.disjoint_of_nodup_append hnodup' hm hq
    change Function.update heap e.timer none q ≠ none
    rw [Function.update_of_ne hqe, hoff q hqrest]
    rcases List.mem_append.mp hq with hq | hq
    · exact h.allocated q hq
    · exact h.rep.heap_ne_none (by rw [timers_append]; exact List.mem_append_left _ hq)
  · exact (own_eq_of_perm hperm hnot).2

/-- In an empty list there is no timer to fire, and so none that is not in front. -/
theorem staysFirst_of_head_eq_none {cb : Callbacks U} {walk : ℕ} {cur : ℤ} (h : l.head = none) :
    StaysFirst cb walk cur fuel l := by
  cases fuel with
  | zero => trivial
  | succ fuel =>
      intro p t hp
      rw [h] at hp
      cases hp

/-- A timer at the head that is not due ends the tick, so no callback runs. -/
theorem staysFirst_of_lt {cb : Callbacks U} {walk : ℕ} {cur : ℤ} {t : UtilTimer U}
    (hhead : l.head = some p) (ht : l.heap p = some t) (hlt : cur < t.expire) :
    StaysFirst cb walk cur fuel l := by
  cases fuel with
  | zero => trivial
  | succ fuel =>
      intro q t' hq ht' hle
      obtain rfl := Option.some.inj (hhead.symm.trans hq)
      obtain rfl := Option.some.inj (ht.symm.trans ht')
      omega

/-- A timer at the head that is due stays in front if its callback leaves it at the head, and if
the same holds of the timers that are fired behind it. -/
theorem staysFirst_succ_iff {cb : Callbacks U} {walk : ℕ} {cur : ℤ} {t : UtilTimer U}
    {l₁ l₂ : SortTimerList U} (hhead : l.head = some p) (ht : l.heap p = some t)
    (hle : t.expire ≤ cur) (hscript : runScript walk l (cb.script p l) = some l₁)
    (hafter : afterCallback l₁ p = some l₂) :
    StaysFirst cb walk cur (fuel + 1) l ↔ l₁.head = some p ∧ StaysFirst cb walk cur fuel l₂ := by
  constructor
  · intro h
    obtain ⟨hfirst, hrest⟩ := h p t hhead ht hle l₁ hscript
    exact ⟨hfirst, hrest l₂ hafter⟩
  · rintro ⟨hfirst, hrest⟩ q t' hq _ _ l' hl'
    obtain rfl := Option.some.inj (hhead.symm.trans hq)
    obtain rfl := Option.some.inj (hscript.symm.trans hl')
    refine ⟨hfirst, fun l'' hl'' => ?_⟩
    obtain rfl := Option.some.inj (hafter.symm.trans hl'')
    exact hrest

/-- **What the loop of `tick` loses.** The timers that it holds in the end are those that the
log leaves, and some of them are lost unless the callbacks leave the timer in front that is
fired. Induction on the fuel, for every list and every log. -/
theorem tickLoop_loses (cb : Callbacks U) (walk : ℕ) (cur : ℤ) (fuel : ℕ) :
    ∀ {l l' : SortTimerList U} {es : List (Entry U)} {lost : List Ptr}
      {log log' : List (Event Ptr ℤ)}, Holds l es lost →
      tickLoop (cb.callback walk) cur fuel (timers es).head? l log = some (l', log') →
      ∃ es' more events, Holds l' es' (lost ++ more) ∧ log' = log ++ events ∧
        Balanced (own es lost) events (own es' (lost ++ more)) ∧
        (StaysFirst cb walk cur fuel l ↔ more = []) := by
  have hstop : ∀ {fuel : ℕ} {l : SortTimerList U} {es : List (Entry U)} {lost : List Ptr}
      {log : List (Event Ptr ℤ)}, Holds l es lost → StaysFirst cb walk cur fuel l →
      ∃ es' more events, Holds l es' (lost ++ more) ∧ log = log ++ events ∧
        Balanced (own es lost) events (own es' (lost ++ more)) ∧
        (StaysFirst cb walk cur fuel l ↔ more = []) := by
    intro fuel l es lost log h hfirst
    refine ⟨es, [], [], ?_, (List.append_nil _).symm, ?_, iff_of_true hfirst rfl⟩
    · rwa [List.append_nil]
    · rw [List.append_nil]
      exact balanced_nil h.own_le_one
  induction fuel with
  | zero =>
      intro l l' es lost log log' h hrun
      cases es with
      | nil =>
          obtain ⟨rfl, rfl⟩ := Prod.mk.injEq .. ▸ Option.some.inj hrun
          exact hstop h trivial
      | cons e es => cases hrun
  | succ fuel ih =>
      intro l l' es lost log log' h hrun
      have hhead := h.rep.chain.head_eq
      cases es with
      | nil =>
          obtain ⟨rfl, rfl⟩ := Prod.mk.injEq .. ▸ Option.some.inj hrun
          exact hstop h (staysFirst_of_head_eq_none hhead)
      | cons e es =>
          obtain ⟨t, ht, hrun⟩ := Option.bind_eq_some_iff.mp hrun
          by_cases hlt : cur < t.expire
          · rw [if_pos hlt] at hrun
            obtain ⟨rfl, rfl⟩ := Prod.mk.injEq .. ▸ Option.some.inj hrun
            exact hstop h (staysFirst_of_lt hhead ht hlt)
          · rw [if_neg hlt] at hrun
            obtain ⟨⟨l₁, log₁⟩, hcb, hrun⟩ := Option.bind_eq_some_iff.mp hrun
            obtain ⟨l₁', hscript, heq⟩ := Option.map_eq_some_iff.mp hcb
            obtain ⟨rfl, rfl⟩ := Prod.mk.injEq .. ▸ heq
            obtain ⟨t', ht', hrun⟩ := Option.bind_eq_some_iff.mp hrun
            obtain ⟨heap, hheap, hrun⟩ := Option.bind_eq_some_iff.mp hrun
            obtain ⟨heap', hheap', hrun⟩ := Option.bind_eq_some_iff.mp hrun
            have hafter : afterCallback l₁' e.timer =
                some { l₁' with heap := heap', head := t'.next } := by
              simp only [afterCallback, ht', hheap, hheap', Option.bind_eq_bind, Option.bind_some]
            obtain ⟨es₁, h₁, he₁, hbal₁, hdel⟩ :=
              h.runScript List.mem_cons_self (cb.permitted e.timer l) hscript
            obtain ⟨front, rest, rfl⟩ := List.append_of_mem he₁
            obtain ⟨k, k', hk, hk', hnext, h₂, hown⟩ := h₁.moveHead ht'
            obtain rfl := Option.some.inj (hheap.symm.trans hk)
            obtain rfl := Option.some.inj (hheap'.symm.trans hk')
            rw [hnext] at hrun h₂ hafter
            obtain ⟨es', more, events, h', hevents, hbal, hfirst⟩ := ih h₂ hrun
            have hone : own (e :: es) lost e.timer = 1 :=
              List.count_eq_one_of_mem h.nodup (by simp)
            have hfire : Balanced (own (e :: es) lost)
                (.fired e.timer :: scriptEvents (cb.script e.timer l))
                (own rest (lost ++ timers front)) := by
              rw [hown]
              exact hbal₁.fired hone
                (hbal₁.subject_notMem hone hdel (fired_notMem_scriptEvents _ _))
            rw [List.append_assoc] at h' hbal
            refine ⟨es', timers front ++ more, _, h', ?_, hfire.trans hbal, ?_⟩
            · rw [hevents, List.append_assoc]
            · rw [staysFirst_succ_iff hhead ht (not_lt.mp hlt) hscript hafter, hfirst,
                h₁.rep.head_eq_iff, List.append_eq_nil_iff, timers, List.map_eq_nil_iff]

/-- **A tick loses no timer exactly if its callbacks leave the timer in front that is fired.**
Whenever a tick returns, from a list of any order, every timer that was in the list or was added,
and was neither deleted nor fired, can then be reached from the head, and no timer was freed more
often than it was there. -/
theorem tick_keeps_iff (h : Rep l es) {cb : Callbacks U} {walk : ℕ} {cur : ℤ}
    {events : List (Event Ptr ℤ)}
    (hrun : SortTimerList.tick (cb.callback walk) fuel cur l [] = some (l', events)) :
    ((∀ p, Outstanding (timers es) events p → l'.Member p) ∧
      ∀ pre, pre <+: events → ∀ p,
        pre.countP (Event.frees p) ≤ (timers es).count p + pre.countP (Event.adds p)) ↔
    StaysFirst cb walk cur fuel l := by
  have hholds : Holds l es [] := ⟨h, by simpa using h.nodup, fun p hp => absurd hp
    List.not_mem_nil⟩
  have hloop : tickLoop (cb.callback walk) cur fuel (timers es).head? l [] =
      some (l', events) := by
    rw [SortTimerList.tick] at hrun
    rw [← h.chain.head_eq]
    split at hrun
    · rename_i hhead
      rw [hhead]
      cases fuel <;> exact hrun
    · rename_i head hhead
      rw [hhead]
      exact hrun
  obtain ⟨es', lost, events', h', hevents, hbal, hfirst⟩ :=
    tickLoop_loses cb walk cur fuel hholds hloop
  rw [List.nil_append] at h' hbal hevents
  obtain rfl : events = events' := hevents
  have hown : ∀ p, own es [] p = (timers es).count p := fun p => by rw [own, List.append_nil]
  have hleft : ∀ p, Outstanding (timers es) events p ↔ p ∈ timers es' ++ lost := by
    intro p
    have htotal := hbal.total p
    have hle := h'.own_le_one p
    rw [hown] at htotal
    rw [← List.count_pos_iff, Outstanding]
    change _ ↔ 0 < own es' lost p
    omega
  rw [hfirst]
  constructor
  · rintro ⟨hkeep, -⟩
    refine List.eq_nil_iff_forall_not_mem.mpr fun p hp => ?_
    have hmem := hkeep p ((hleft p).mpr (List.mem_append_right _ hp))
    exact h'.notMem_of_lost hp (h'.rep.mem_of_member hmem)
  · rintro rfl
    refine ⟨fun p hp => ?_, fun pre hpre p => ?_⟩
    · rw [hleft, List.append_nil] at hp
      exact ⟨es', h'.rep, hp⟩
    · rw [← hown]
      exact (hbal.always pre hpre p).1

/-! ### Callbacks that meet the condition -/

/-- The call adds no timer that expires before `expire`. -/
def Call.Late (expire : ℤ) : Call U → Prop
  | .addTimer _ x _ => expire ≤ x
  | .adjustTimer _ _ => True
  | .delTimer _ => True

/-- A late call leaves the timer in front that is fired: it adds behind it, or moves or deletes
another one. -/
theorem Rep.call_late {c : Call U} (h : Rep l (e :: es)) (hc : c.Permitted e.timer l)
    (hlate : c.Late e.expire) (hrun : c.exec fuel l = some l') : ∃ es', Rep l' (e :: es') := by
  have hsplit : ∀ timer, l.Member timer → timer ≠ e.timer →
      ∃ es₁ f es₂, e :: es = (e :: es₁) ++ f :: es₂ ∧ f.timer = timer := by
    intro timer hmem hne
    have hmem' : timer ∈ timers es := by
      refine (List.mem_cons.mp ?_).resolve_left hne
      exact h.mem_of_member hmem
    obtain ⟨es₁, f, es₂, rfl, hf⟩ := exists_split_of_mem hmem'
    exact ⟨es₁, f, es₂, rfl, hf⟩
  cases c with
  | addTimer addr expire userData =>
      have hrep := (h.call_addTimer hc hrun).1
      rw [insertEntry, StableQueue.insert_cons_of_le hlate] at hrep
      exact ⟨_, hrep⟩
  | adjustTimer timer expire =>
      obtain ⟨es₁, f, es₂, heq, rfl⟩ := hsplit timer hc.1 hc.2
      exact ⟨_, ((heq ▸ h).call_adjustTimer hrun).1⟩
  | delTimer timer =>
      obtain ⟨es₁, f, es₂, heq, rfl⟩ := hsplit timer hc.1 hc.2
      obtain ⟨l₁, hrun₁, hrep, -⟩ := (heq ▸ h).delTimer
      obtain rfl := Option.some.inj (hrun.symm.trans hrun₁)
      exact ⟨_, hrep⟩

/-- Late calls leave the timer in front that is fired. Induction on the calls. -/
theorem Rep.runScript_late {cs : List (Call U)} (h : Rep l (e :: es))
    (hcs : PermittedAll e.timer l cs) (hlate : ∀ c ∈ cs, c.Late e.expire)
    (hrun : SortTimerList.runScript fuel l cs = some l') : ∃ es', Rep l' (e :: es') := by
  induction cs generalizing l es with
  | nil =>
      obtain rfl := Option.some.inj hrun
      exact ⟨es, h⟩
  | cons c cs ih =>
      obtain ⟨l₁, hrun₁, hrun⟩ := Option.bind_eq_some_iff.mp hrun
      obtain ⟨hlate, hlates⟩ := List.forall_mem_cons.mp hlate
      obtain ⟨es₁, h₁⟩ := h.call_late hcs.1 hlate hrun₁
      exact ih h₁ (hcs.2 fuel l₁ hrun₁) hlates hrun

/-- **Callbacks that add no timer which expires before the one that is fired** leave that one in
front, whatever else they do. -/
theorem Rep.staysFirst {cb : Callbacks U} {walk : ℕ} {cur : ℤ} (h : Rep l es)
    (hlate : ∀ p l t, l.heap p = some t → ∀ c ∈ cb.script p l, c.Late t.expire) :
    StaysFirst cb walk cur fuel l := by
  induction fuel generalizing l es with
  | zero => trivial
  | succ fuel ih =>
      intro p t hhead ht _ l' hscript
      have hfirst := h.chain.head_eq
      rw [hhead] at hfirst
      cases es with
      | nil => cases hfirst
      | cons e es =>
          obtain rfl : p = e.timer := Option.some.inj hfirst
          obtain ⟨t₁, ht₁, hexpire, -⟩ := h.exists_timer (e := e) List.mem_cons_self
          obtain rfl : t = t₁ := Option.some.inj (ht.symm.trans ht₁)
          obtain ⟨es', h'⟩ := h.runScript_late (cb.permitted e.timer l)
            (fun c hc => hexpire ▸ hlate e.timer l t ht c hc) hscript
          refine ⟨h'.chain.head_eq, fun l'' hafter => ?_⟩
          obtain ⟨t', ht', hrest⟩ := Option.bind_eq_some_iff.mp hafter
          obtain ⟨heap, hheap, hrest⟩ := Option.bind_eq_some_iff.mp hrest
          obtain ⟨heap', hheap', hrest⟩ := Option.bind_eq_some_iff.mp hrest
          obtain rfl := Option.some.inj hrest
          obtain ⟨k, hk, hrep, hp, -⟩ := h'.unlinkHead ht'
          obtain rfl := Option.some.inj (hheap.symm.trans hk)
          obtain rfl := Option.some.inj (hheap'.symm.trans (Heap.delete_eq hp))
          have hnot : e.timer ∉ timers es' := (List.nodup_cons.mp h'.nodup).1
          exact ih (hrep.congr_delete hnot)

/-! ### A list of one timer -/

/-- The callback of the timer 1 adds the timer 2 with the expiry, if the address is free. -/
def addsTwo (expire : ℤ) : Callbacks Unit where
  script := fun tmp l => if tmp = 1 ∧ l.heap 2 = none then [.addTimer 2 expire ()] else []
  permitted := by
    intro tmp l
    split
    · rename_i h
      exact ⟨h.2, fun _ _ _ => trivial⟩
    · trivial

/-- The list of one timer, which expires at 5. -/
def single : SortTimerList Unit where
  heap := fun p => if p = 1 then some (UtilTimer.new 5 ()) else none
  head := some 1
  tail := some 1

/-- The list of one timer represents the queue of its entry. -/
theorem rep_single : Rep single [⟨1, 5, ()⟩] where
  chain := ⟨rfl, rfl, rfl⟩
  nodup := List.nodup_singleton 1
  data := by
    intro e he
    rw [List.mem_singleton.mp he]
    rfl
  tail := fun _ => rfl

/-- A callback adds a timer behind the one that is fired. -/
theorem tick_keeps_iff_example :
    ∃ l' events, SortTimerList.tick ((addsTwo 9).callback 9) 9 5 single [] = some (l', events) ∧
      (((∀ p, Outstanding (timers [(⟨1, 5, ()⟩ : Entry Unit)]) events p → l'.Member p) ∧
        ∀ pre, pre <+: events → ∀ p, pre.countP (Event.frees p) ≤
          (timers [(⟨1, 5, ()⟩ : Entry Unit)]).count p + pre.countP (Event.adds p)) ↔
      StaysFirst (addsTwo 9) 9 5 9 single) := by
  obtain ⟨l', hrun⟩ : ∃ l', SortTimerList.tick ((addsTwo 9).callback 9) 9 5 single [] =
      some (l', [.fired 1, .added 2 9]) := ⟨_, rfl⟩
  exact ⟨l', _, hrun, tick_keeps_iff rep_single hrun⟩

/-- A callback adds a timer in front of the one that is fired, which is neither fired nor in the
list when `tick` returns. -/
theorem not_member_of_added :
    ∃ l', SortTimerList.tick ((addsTwo 3).callback 9) 9 5 single [] =
        some (l', [.fired 1, .added 2 3]) ∧
      Outstanding (timers [(⟨1, 5, ()⟩ : Entry Unit)]) [.fired 1, .added 2 3] 2 ∧
      ¬ l'.Member 2 := by
  refine ⟨_, rfl, rfl, ?_⟩
  rintro ⟨es, h, hmem⟩
  have hnil : timers es = [] := by
    have := h.chain.head_eq
    exact List.head?_eq_none_iff.mp this.symm
  rw [hnil] at hmem
  cases hmem

end LinuxNetwork.SortTimerList

import LinuxNetwork.AllocationLog
import LinuxNetwork.TimeWheelCountdown

/-!
# Callbacks That Change the Wheel

The callbacks that `tick` runs may themselves call `add_timer` and `del_timer`. This module says
what such a tick does. The timer that is fired is still linked in its slot while its callback
runs: a new timer goes to the front of a slot, so the walk never comes to it, and a deleted one
is taken out in front of the walk or behind it. So the walk visits, in order, the timers that
its slot had when it began and that have not been deleted before their turn.

A callback is given by the calls that it makes, which may depend on the timer that is fired and
on the wheel. It deletes outstanding timers only, and not the one that is fired. What happens
is recorded as a sequence of events.

## Main definitions

* `Callbacks`: what the callbacks of a tick do.
* `Run`: sequences of calls and ticks.

## Main results

* `Rep.runScript`: what the calls of a callback do to the wheel.
* `tickLoop_callbacks`: the walk over the current slot.
* `wheel_links`: in every run the wheel is well linked, and every tick succeeds.
-/

open AllocationLog DoublyLinked

namespace LinuxNetwork.TimeWheel

/-! ### Calls and callbacks -/

/-- A call of a list operation. An `addTimer` carries the address its `new` returns. -/
inductive Call where
  | addTimer (timeout : ℤ) (addr : Ptr)
  | delTimer (timer : Ptr)
deriving DecidableEq, Repr

/-- The wheel after a call. -/
def Call.exec (w : TimeWheel) : Call → Option TimeWheel
  | .addTimer timeout addr => (w.addTimer timeout addr).map Prod.fst
  | .delTimer timer => w.delTimer (some timer)

/-- What happens in a call: a negative timeout adds no timer. -/
def Call.events : Call → List (Event Ptr ℤ)
  | .addTimer timeout addr => if timeout < 0 then [] else [.added addr timeout]
  | .delTimer timer => [.deleted timer]

/-- The calls that may be made while `firing`, if any timer, is fired: `new` returns an address
that is free, and outstanding timers are deleted, though not the one that is fired. -/
def Call.Permitted (firing : Option Ptr) (w : TimeWheel) : Call → Prop
  | .addTimer _ addr => w.heap addr = none
  | .delTimer timer => w.heap timer ≠ none ∧ some timer ≠ firing

/-- The wheel after the calls of a callback. -/
def runScript : TimeWheel → List Call → Option TimeWheel
  | w, [] => some w
  | w, c :: cs => (c.exec w).bind fun w => runScript w cs

/-- What happens in the calls of a callback. -/
def scriptEvents (cs : List Call) : List (Event Ptr ℤ) :=
  cs.flatMap Call.events

/-- Each call of a callback may be made when its turn comes. -/
def PermittedAll (firing : Option Ptr) : TimeWheel → List Call → Prop
  | _, [] => True
  | w, c :: cs =>
      c.Permitted firing w ∧ ∀ w', c.exec w = some w' → PermittedAll firing w' cs

/-- **What the callbacks of a tick do**: the calls they make, all of which may be made. -/
structure Callbacks where
  /-- The calls that the callback of the timer makes, on this wheel. -/
  script : Ptr → TimeWheel → List Call
  permitted : ∀ tmp w, PermittedAll (some tmp) w (script tmp w)

/-- `tmp->cb_func(tmp->user_data)`, which records what happens. -/
def Callbacks.cbFunc (cb : Callbacks) (tmp : Ptr) (w : TimeWheel) (log : List (Event Ptr ℤ)) :
    Option (TimeWheel × List (Event Ptr ℤ)) :=
  (runScript w (cb.script tmp w)).map fun w' =>
    (w', log ++ .fired tmp :: scriptEvents (cb.script tmp w))

/-- **A run** from the wheel `w` to the wheel `w'`: calls, and a number of ticks, with all that
happens in them. -/
inductive Run (w : TimeWheel) : ℕ → List (Event Ptr ℤ) → TimeWheel → Prop
  | refl : Run w 0 [] w
  | call {n : ℕ} {history : List (Event Ptr ℤ)} {u u' : TimeWheel} (c : Call) :
      Run w n history u → c.Permitted none u → c.exec u = some u' →
      Run w n (history ++ c.events) u'
  | tick {n fuel : ℕ} {history events : List (Event Ptr ℤ)} {u u' : TimeWheel} (cb : Callbacks) :
      Run w n history u → TimeWheel.tick cb.cbFunc fuel u [] = some (u', events) →
      Run w (n + 1) (history ++ events) u'

/-! ### What events do to the payload -/

/-- The payload after an event, while the cursor stands on the slot `cur`. -/
def effect (cur : ℕ) (pay : Ptr → Option (ℤ × ℕ)) : Event Ptr ℤ → Ptr → Option (ℤ × ℕ)
  | .added p timeout =>
      Function.update pay p
        (some (((ticksOf timeout / N : ℕ) : ℤ), (cur + ticksOf timeout % N) % N))
  | .deleted p => Function.update pay p none
  | .fired p => Function.update pay p none

/-- The payload after a sequence of events. -/
def effects (cur : ℕ) (pay : Ptr → Option (ℤ × ℕ)) (events : List (Event Ptr ℤ)) :
    Ptr → Option (ℤ × ℕ) :=
  events.foldl (effect cur) pay

/-- The timers of a list that the events do not delete. -/
def survivors (events : List (Event Ptr ℤ)) (l : List Ptr) : List Ptr :=
  l.filter fun q => decide (Event.deleted q ∉ events)

/-- The number of timers at an address. -/
def allocs (w : TimeWheel) (p : Ptr) : ℕ :=
  (w.heap p).isSome.toNat

variable {w w' w'' : TimeWheel} {L : ℕ → List Ptr} {p : Ptr} {cur : ℕ}
  {pay pay' : Ptr → Option (ℤ × ℕ)} {events events' : List (Event Ptr ℤ)} {firing : Option Ptr}

theorem effects_append (cur : ℕ) (pay : Ptr → Option (ℤ × ℕ))
    (events events' : List (Event Ptr ℤ)) :
    effects cur pay (events ++ events') = effects cur (effects cur pay events) events' :=
  List.foldl_append

/-- An event leaves the timers alone that it is not about. -/
theorem effect_of_ne {e : Event Ptr ℤ} (hp : p ≠ e.subject) : effect cur pay e p = pay p := by
  cases e with
  | added q t => exact Function.update_of_ne hp _ _
  | deleted q => exact Function.update_of_ne hp _ _
  | fired q => exact Function.update_of_ne hp _ _

/-- Events leave the timers alone that none of them is about. Induction on the events. -/
theorem effects_of_notMem (hp : p ∉ events.map Event.subject) :
    effects cur pay events p = pay p := by
  induction events generalizing pay with
  | nil => rfl
  | cons e events ih =>
      rw [List.map_cons, List.mem_cons, not_or] at hp
      exact (ih hp.2).trans (effect_of_ne hp.1)

/-- An event decides about its timer, whatever the payloads were before. -/
theorem effect_timer (e : Event Ptr ℤ) :
    effect cur pay e e.subject = effect cur pay' e e.subject := by
  cases e with
  | added q t => simp [effect, Event.subject]
  | deleted q => simp [effect, Event.subject]
  | fired q => simp [effect, Event.subject]

/-- Payloads that agree on a timer agree on it after the same events. -/
theorem effects_congr (hp : pay p = pay' p) :
    effects cur pay events p = effects cur pay' events p := by
  induction events generalizing pay pay' with
  | nil => exact hp
  | cons e events ih =>
      refine ih ?_
      by_cases he : p = e.subject
      · rw [he, effect_timer]
      · rw [effect_of_ne he, effect_of_ne he, hp]

/-- The events decide about the timers they are about, whatever the payloads were before. The
first event about a timer makes them agree. -/
theorem effects_of_mem (hp : p ∈ events.map Event.subject) :
    effects cur pay events p = effects cur pay' events p := by
  induction events generalizing pay pay' with
  | nil => exact absurd hp List.not_mem_nil
  | cons e events ih =>
      by_cases he : p = e.subject
      · subst he
        show effects cur (effect cur pay e) events _ = effects cur (effect cur pay' e) events _
        exact effects_congr (effect_timer e)
      · exact ih ((List.mem_cons.mp hp).resolve_left he)

/-- A timer is allocated once at most. -/
theorem allocs_le_one (w : TimeWheel) (p : Ptr) : allocs w p ≤ 1 :=
  Bool.toNat_le _

/-- Allocation is read off the payload, which an allocated timer has and a free address has not. -/
theorem allocs_eq (w : TimeWheel) (p : Ptr) : allocs w p = (payload w p).isSome.toNat := by
  rw [allocs, payload, Heap.view, Option.isSome_map]

/-- A timer that lies in the heap is allocated once. -/
theorem allocs_eq_one (hp : w.heap p ≠ none) : allocs w p = 1 := by
  rw [allocs, Option.isSome_iff_ne_none.mpr hp]
  rfl

/-- The allocation of a timer whose payload is written. -/
theorem allocs_update {o : Option (ℤ × ℕ)}
    (hpay : payload w' = Function.update (payload w) p o) :
    allocs w' = Function.update (allocs w) p o.isSome.toNat := by
  funext q
  rw [allocs_eq, hpay]
  by_cases hq : q = p
  · subst hq
    rw [Function.update_self, Function.update_self]
  · rw [Function.update_of_ne hq, Function.update_of_ne hq, allocs_eq]

/-! ### What the calls of a callback do -/

/-- What calls with the events do, which leave the walked slot `L w.curSlot` as it is but for
new timers in front and deleted ones. -/
structure Leads (w : TimeWheel) (L : ℕ → List Ptr) (events : List (Event Ptr ℤ)) (w' : TimeWheel)
    (L' : ℕ → List Ptr) : Prop where
  rep : Rep w' L'
  cursor : w'.curSlot = w.curSlot
  slot : ∃ front, L' w.curSlot = front ++ survivors events (L w.curSlot)
  payload : TimeWheel.payload w' = effects w.curSlot (TimeWheel.payload w) events
  balanced : Balanced (allocs w) events (allocs w')

variable {L' L'' : ℕ → List Ptr}

theorem survivors_append (events events' : List (Event Ptr ℤ)) (l : List Ptr) :
    survivors (events ++ events') l = survivors events' (survivors events l) := by
  rw [survivors, survivors, survivors, List.filter_filter]
  refine List.filter_congr fun q _ => ?_
  simp [not_or, Bool.and_comm]

/-- No events lead from a wheel to itself. -/
theorem Leads.refl (h : Rep w L) : Leads w L [] w L :=
  ⟨h, rfl, ⟨[], by simp [survivors]⟩, rfl, balanced_nil (allocs_le_one w)⟩

/-- Events that lead from one wheel to the next, and on from there, lead all the way. -/
theorem Leads.trans (h : Leads w L events w' L') (h' : Leads w' L' events' w'' L'') :
    Leads w L (events ++ events') w'' L'' := by
  obtain ⟨front, hfront⟩ := h.slot
  obtain ⟨front', hfront'⟩ := h'.slot
  refine ⟨h'.rep, h'.cursor.trans h.cursor, ⟨front' ++ survivors events' front, ?_⟩, ?_,
    h.balanced.trans h'.balanced⟩
  · rw [← h.cursor, hfront', h.cursor, hfront, survivors_append, survivors, List.filter_append,
      List.append_assoc]
    rfl
  · rw [h'.payload, h.payload, h.cursor, effects_append]

/-- Timers that are not deleted stay in their list. -/
theorem survivors_deleted_of_notMem {l : List Ptr} (hp : p ∉ l) :
    survivors [.deleted p] l = l := by
  rw [survivors, List.filter_eq_self]
  intro q hq
  have : q ≠ p := ne_of_mem_of_not_mem hq hp
  simpa using this

/-- The timer that is deleted leaves the list, and the others keep their order. -/
theorem survivors_deleted {l₁ l₂ : List Ptr} (hp : p ∉ l₁ ++ l₂) :
    survivors [.deleted p] (l₁ ++ p :: l₂) = l₁ ++ l₂ := by
  have hself : survivors [.deleted p] (l₁ ++ p :: l₂) = survivors [.deleted p] (l₁ ++ l₂) := by
    rw [survivors, survivors, List.filter_append, List.filter_append,
      List.filter_cons_of_neg (by simp)]
  rw [hself, survivors_deleted_of_notMem hp]

/-- **`add_timer`** puts a timer at the head of its slot, unless the timeout is negative. Then
nothing is allocated and there is no event. -/
theorem Rep.call_addTimer (h : Rep w L) (timeout : ℤ) {addr : Ptr} (haddr : w.heap addr = none) :
    ∃ w' L', (Call.addTimer timeout addr).exec w = some w' ∧
      Leads w L (Call.addTimer timeout addr).events w' L' := by
  by_cases ht : timeout < 0
  · refine ⟨w, L, by simp [Call.exec, TimeWheel.addTimer, ht], ?_⟩
    rw [Call.events, if_pos ht]
    exact .refl h
  · obtain ⟨w', hrun, hrep, hpay, hcur⟩ := h.addTimer (not_lt.mp ht) haddr
    rw [Call.events, if_neg ht]
    refine ⟨w', _, by rw [Call.exec, hrun]; rfl, hrep, hcur, ?_, hpay, ?_⟩
    · have hall : survivors [.added addr timeout] (L w.curSlot) = L w.curSlot := by
        rw [survivors, List.filter_eq_self]
        simp
      rw [hall]
      by_cases hs : w.curSlot = slotOf w timeout
      · exact ⟨[addr], by rw [← hs, Function.update_self]; rfl⟩
      · exact ⟨[], by rw [Function.update_of_ne hs]; rfl⟩
    · have hfree : allocs w addr = 0 := by
        rw [allocs, haddr]
        rfl
      rw [allocs_update hpay]
      exact balanced_added (allocs_le_one w) hfree timeout

/-- **`del_timer`** takes a timer out of its slot, which may be the one that is walked over. -/
theorem Rep.call_delTimer (h : Rep w L) {t : TwTimer} (ht : w.heap p = some t) :
    ∃ w' L', (Call.delTimer p).exec w = some w' ∧ Leads w L (Call.delTimer p).events w' L' := by
  obtain ⟨hts, -, hmem⟩ := h.owned p _ _ (payload_eq ht)
  obtain ⟨l₁, l₂, hsplit⟩ := List.append_of_mem hmem
  obtain ⟨w', hrun, hrep, hpay, hcur, -⟩ := h.delTimer ht hsplit
  refine ⟨w', _, hrun, hrep, hcur, ⟨[], ?_⟩, hpay, ?_⟩
  · rw [Call.events, List.nil_append]
    by_cases hs : w.curSlot = t.timeSlot
    · have hnot := (List.nodup_middle.mp (hsplit ▸ h.nodup _ hts)).notMem
      rw [hs, Function.update_self, hsplit, survivors_deleted hnot]
    · rw [Function.update_of_ne hs, survivors_deleted_of_notMem]
      exact fun hm => hs (h.slot_unique h.cursor hts hm hmem)
  · have hone : allocs w p = 1 := allocs_eq_one (by rw [ht]; exact Option.some_ne_none t)
    rw [allocs_update hpay]
    exact balanced_deleted (allocs_le_one w) hone

/-- **A call** that may be made succeeds, and leads on by its events. -/
theorem Rep.call (h : Rep w L) {c : Call} (hc : c.Permitted firing w) :
    ∃ w' L', c.exec w = some w' ∧ Leads w L c.events w' L' := by
  cases c with
  | addTimer timeout addr => exact h.call_addTimer timeout hc
  | delTimer timer =>
      obtain ⟨t, ht⟩ := Option.ne_none_iff_exists'.mp hc.1
      exact h.call_delTimer ht

/-- **The calls of a callback** succeed, and do not delete the timer that is fired. Induction on
the calls, each of which may be made where the ones before it lead. -/
theorem Rep.runScript {cs : List Call} (h : Rep w L) (hcs : PermittedAll firing w cs) :
    ∃ w' L', TimeWheel.runScript w cs = some w' ∧ Leads w L (scriptEvents cs) w' L' ∧
      ∀ tmp, firing = some tmp → .deleted tmp ∉ scriptEvents cs := by
  induction cs generalizing w L with
  | nil => exact ⟨w, L, rfl, .refl h, fun _ _ => List.not_mem_nil⟩
  | cons c cs ih =>
      obtain ⟨w₁, L₁, hrun₁, hlead₁⟩ := h.call hcs.1
      obtain ⟨w', L', hrun, hlead, hdel⟩ := ih hlead₁.rep (hcs.2 w₁ hrun₁)
      refine ⟨w', L', by rw [TimeWheel.runScript, hrun₁]; exact hrun, hlead₁.trans hlead, ?_⟩
      rintro tmp rfl
      rw [scriptEvents, List.flatMap_cons, List.mem_append, not_or]
      refine ⟨fun hmem => ?_, hdel tmp rfl⟩
      cases c with
      | addTimer timeout addr =>
          rw [Call.events] at hmem
          split at hmem <;> simp at hmem
      | delTimer timer =>
          obtain rfl : tmp = timer := by simpa [Call.events] using hmem
          exact hcs.1.2 rfl

/-- The calls of a callback fire no timer. They only add timers and delete them. -/
theorem fired_notMem_scriptEvents (cs : List Call) (p : Ptr) : .fired p ∉ scriptEvents cs := by
  intro hmem
  obtain ⟨c, -, hc⟩ := List.mem_flatMap.mp hmem
  cases c with
  | addTimer timeout addr =>
      rw [Call.events] at hc
      split at hc <;> simp at hc
  | delTimer timer => simp [Call.events] at hc

/-! ### The walk -/

/-- **What happens in a walk** over the timers `rest`, of which those that are `due` are fired
when their turn comes. -/
inductive Walked (cb : Callbacks) (due : Ptr → Bool) : List Ptr → List (Event Ptr ℤ) → Prop
  | done : Walked cb due [] []
  | keep {p : Ptr} {rest : List Ptr} {events : List (Event Ptr ℤ)} :
      due p = false → Walked cb due rest events → Walked cb due (p :: rest) events
  /-- The timer is fired, and its callback makes calls. -/
  | fire {p : Ptr} {rest : List Ptr} {calls events : List (Event Ptr ℤ)} {u : TimeWheel} :
      due p = true → calls = scriptEvents (cb.script p u) →
      (∀ q ∈ p :: survivors calls rest, q ∉ calls.map Event.subject) →
      Walked cb due (survivors calls rest) events →
      Walked cb due (p :: rest) (.fired p :: calls ++ events)

variable {cb : Callbacks}

/-- A walk depends on which of its timers are due, and not on others. -/
theorem Walked.congr {due due' : Ptr → Bool} {rest : List Ptr} (h : Walked cb due rest events)
    (hdue : ∀ q ∈ rest, due q = due' q) : Walked cb due' rest events := by
  induction h with
  | done => exact .done
  | keep hp _ ih =>
      rw [List.forall_mem_cons] at hdue
      exact .keep (hdue.1 ▸ hp) (ih hdue.2)
  | fire hp hscript hquiet _ ih =>
      rw [List.forall_mem_cons] at hdue
      exact .fire (hdue.1 ▸ hp) hscript hquiet (ih fun q hq => hdue.2 q (List.mem_filter.mp hq).1)

/-- The payload behind a walk whose first timer is fired: that timer has none, and the calls
decide about those they are about. -/
theorem visited_fire {rest : List Ptr} {calls : List (Event Ptr ℤ)} (hp : p ∉ rest)
    (hcalls : ∀ q ∈ p :: survivors calls rest, q ∉ calls.map Event.subject) :
    visited (Function.update (effects cur pay calls) p none) (survivors calls rest) =
      effects cur (visited pay (p :: rest)) (.fired p :: calls) := by
  rw [List.forall_mem_cons] at hcalls
  funext q
  change _ = effects cur (Function.update (visited pay (p :: rest)) p none) calls q
  by_cases hq : q ∈ calls.map Event.subject
  · have hqp : q ≠ p := fun heq => hcalls.1 (heq ▸ hq)
    rw [visited, if_neg fun hm => hcalls.2 q hm hq, Function.update_of_ne hqp]
    exact effects_of_mem hq
  · rw [effects_of_notMem hq]
    by_cases hqp : q = p
    · subst hqp
      have hnot : q ∉ survivors calls rest := fun hm => hp (List.mem_filter.mp hm).1
      rw [visited, if_neg hnot, Function.update_self, Function.update_self]
    · have hmem : q ∈ survivors calls rest ↔ q ∈ p :: rest := by
        have hdel : .deleted q ∉ calls := fun hm => hq (List.mem_map_of_mem hm)
        simp [survivors, hdel, hqp]
      simp only [visited, hmem, Function.update_of_ne hqp, effects_of_notMem hq]

/-- **A timer is fired**: its callback makes its calls, and the timer is unlinked and freed. It
is still where it was, behind timers that the calls have added to its slot. The walk goes on
with the timers behind it that the calls have not deleted. -/
theorem Rep.fire {done rest : List Ptr} (h : Rep w L) (cb : Callbacks)
    (hL : L w.curSlot = done ++ p :: rest) :
    ∃ calls w₁ w₂ L₂ done₂, (∀ log, cb.cbFunc p w log = some (w₁, log ++ .fired p :: calls)) ∧
      w₁.removeFired p = some (w₂, (survivors calls rest).head?) ∧ Rep w₂ L₂ ∧
      w₂.curSlot = w.curSlot ∧ L₂ w₂.curSlot = done₂ ++ survivors calls rest ∧
      calls = scriptEvents (cb.script p w) ∧
      (∀ q ∈ p :: survivors calls rest, q ∉ calls.map Event.subject) ∧
      payload w₂ = Function.update (effects w.curSlot (payload w) calls) p none ∧
      Balanced (allocs w) (.fired p :: calls) (allocs w₂) := by
  obtain ⟨w₁, L₁, hscript, hlead, hdel⟩ := h.runScript (cb.permitted p w)
  set calls := scriptEvents (cb.script p w) with hcalls
  have hfired : ∀ q, .fired q ∉ calls := fired_notMem_scriptEvents _
  have hquiet : ∀ q ∈ p :: survivors calls rest, q ∉ calls.map Event.subject := by
    intro q hq
    have hq' : q ∈ L w.curSlot ∧ .deleted q ∉ calls := by
      rcases List.mem_cons.mp hq with rfl | hq
      · exact ⟨by simp [hL], hdel q rfl⟩
      · obtain ⟨hmem, hkeep⟩ := List.mem_filter.mp hq
        exact ⟨by simp [hL, hmem], by simpa using hkeep⟩
    obtain ⟨t, ht⟩ := h.allocated h.cursor q hq'.1
    exact hlead.balanced.subject_notMem (allocs_eq_one (by rw [ht]; exact Option.some_ne_none t))
      hq'.2 (hfired q)
  obtain ⟨front, hfront⟩ := hlead.slot
  have hL₁ : L₁ w₁.curSlot = (front ++ survivors calls done) ++ p :: survivors calls rest := by
    rw [hlead.cursor, hfront, hL, survivors, List.filter_append,
      List.filter_cons_of_pos (by simpa using hdel p rfl), List.append_assoc]
    rfl
  obtain ⟨w₂, hrem, hrep, hpay, hcur⟩ := hlead.rep.removeFired hL₁
  rw [← hcur] at hrep
  have hw : allocs w p = 1 := by
    obtain ⟨t, ht⟩ := h.allocated h.cursor p (by simp [hL])
    exact allocs_eq_one (by rw [ht]; exact Option.some_ne_none t)
  refine ⟨calls, w₁, w₂, _, _, fun log => ?_, hrem, hrep, hcur.trans hlead.cursor,
    Function.update_self .., hcalls, hquiet, by rw [hpay, hlead.payload], ?_⟩
  · rw [Callbacks.cbFunc, hscript]
    rfl
  · rw [allocs_update hpay]
    exact hlead.balanced.fired hw (hquiet p List.mem_cons_self)

/-- **The walk over the current slot**, for callbacks that change the wheel: it succeeds, and
fires the timers that are due and have not been deleted before their turn. The induction is on
the timers that may be left to visit. -/
theorem tickLoop_callbacks (cb : Callbacks) (fuel : ℕ) :
    ∀ (done rest : List Ptr) (log : List (Event Ptr ℤ)) {w : TimeWheel} {L : ℕ → List Ptr},
      Rep w L → L w.curSlot = done ++ rest → rest.length ≤ fuel →
      ∃ w' L' events, tickLoop cb.cbFunc fuel rest.head? w log = some (w', log ++ events) ∧
        Rep w' L' ∧ w'.curSlot = w.curSlot ∧ Walked cb (due w) rest events ∧
        payload w' = effects w.curSlot (visited (payload w) rest) events ∧
        Balanced (allocs w) events (allocs w') := by
  have hnone : ∀ (fuel : ℕ) (log : List (Event Ptr ℤ)) {w : TimeWheel} {L : ℕ → List Ptr}, Rep w L →
      ∃ w' L' events, tickLoop cb.cbFunc fuel none w log = some (w', log ++ events) ∧
        Rep w' L' ∧ w'.curSlot = w.curSlot ∧ Walked cb (due w) [] events ∧
        payload w' = effects w.curSlot (visited (payload w) []) events ∧
        Balanced (allocs w) events (allocs w') := fun fuel log w L h =>
    ⟨w, L, [], by simp [tickLoop], h, rfl, .done, by simp [effects], balanced_nil (allocs_le_one w)⟩
  induction fuel with
  | zero =>
      intro done rest log w L h hL hfuel
      obtain rfl : rest = [] := List.length_eq_zero_iff.mp (Nat.le_zero.mp hfuel)
      exact hnone 0 log h
  | succ fuel ih =>
      intro done rest log w L h hL hfuel
      cases rest with
      | nil => exact hnone (fuel + 1) log h
      | cons p rest =>
          have hfuel' : rest.length ≤ fuel := by simpa using hfuel
          have hcur := h.cursor
          have hp : p ∉ done ++ rest :=
            (List.nodup_middle.mp (hL ▸ h.nodup _ hcur)).notMem
          have hprest : p ∉ rest := fun hm => hp (by simp [hm])
          obtain ⟨r, hr⟩ := h.home _ hcur p (by simp [hL])
          obtain ⟨t, ht, rfl, -⟩ := exists_of_payload hr
          by_cases hrot : 0 < t.rotation
          · -- the timer stays for another turn
            obtain ⟨w₁, hstep, h₁, hcur₁, hpay₁⟩ := h.tickLoop_keep hL ht hrot
            have hdue : due w p = false := by simp [due, payload_eq ht, hrot]
            have hsame : allocs w₁ = allocs w := by
              rw [allocs_update hpay₁, Function.update_eq_self_iff, allocs_eq, payload_eq ht]
              rfl
            obtain ⟨w', L', events, hrun, hrep, hcur', hwalk, hpay, hbal⟩ :=
              ih (done ++ [p]) rest log h₁ (by rw [hcur₁, hL, List.append_assoc]; rfl) hfuel'
            refine ⟨w', L', events, ?_, hrep, hcur'.trans hcur₁, ?_, ?_, hsame ▸ hbal⟩
            · rw [List.head?_cons, hstep, hrun]
            · exact .keep hdue (hwalk.congr (due_congr hprest hpay₁))
            · rw [hpay, hpay₁, hcur₁, visited_cons hprest (by simp [payload_eq ht, hrot])]
          · -- the timer is fired
            have hdue : due w p = true := by simpa [due, payload_eq ht] using hrot
            obtain ⟨calls, w₁, w₂, L₂, done₂, hcb, hrem, h₂, hcur₂, hL₂, hscript, hquiet, hpay₂,
              hbal₂⟩ := h.fire cb hL
            obtain ⟨w', L', events, hrun, hrep, hcur', hwalk, hpay, hbal⟩ :=
              ih done₂ (survivors calls rest) (log ++ .fired p :: calls) h₂ hL₂
                ((List.length_filter_le _ _).trans hfuel')
            refine ⟨w', L', .fired p :: calls ++ events, ?_, hrep, hcur'.trans hcur₂,
              .fire hdue hscript hquiet ?_, ?_, hbal₂.trans hbal⟩
            · simp only [List.head?_cons, tickLoop, ht, Option.bind_eq_bind, Option.bind_some,
                hrot, if_false, hcb, hrem, hrun, List.append_assoc]
            · refine hwalk.congr fun q hq => ?_
              have hqp : q ≠ p := fun heq => hprest (heq ▸ (List.mem_filter.mp hq).1)
              rw [due, due, hpay₂, Function.update_of_ne hqp,
                effects_of_notMem (hquiet q (List.mem_cons_of_mem p hq))]
            · rw [hpay, hcur₂, effects_append, hpay₂, visited_fire hprest hquiet]

/-! ### Which timers a walk fires -/

/-- The timer is deleted before its turn: its deletion comes before its firing, if it is fired. -/
def DeletedBefore (p : Ptr) (events : List (Event Ptr ℤ)) : Prop :=
  events.find? (Event.frees p) = some (.deleted p)

instance (p : Ptr) (events : List (Event Ptr ℤ)) : Decidable (DeletedBefore p events) :=
  inferInstanceAs (Decidable (_ = _))

variable {isDue : Ptr → Bool} {rest : List Ptr}

/-- A timer that is fired was to be visited and due. Induction on the walk. -/
theorem Walked.mem_of_fired (h : Walked cb isDue rest events) (hp : .fired p ∈ events) :
    p ∈ rest ∧ isDue p = true := by
  induction h with
  | done => exact absurd hp List.not_mem_nil
  | keep _ _ ih =>
      obtain ⟨hmem, hdue⟩ := ih hp
      exact ⟨List.mem_cons_of_mem _ hmem, hdue⟩
  | fire hdue hscript _ _ ih =>
      rw [List.cons_append, List.mem_cons, List.mem_append] at hp
      rcases hp with heq | hcalls | hrest
      · obtain rfl : p = _ := by injection heq
        exact ⟨List.mem_cons_self, hdue⟩
      · exact absurd (hscript ▸ hcalls) (fired_notMem_scriptEvents _ p)
      · obtain ⟨hmem, hdue'⟩ := ih hrest
        exact ⟨List.mem_cons_of_mem _ (List.mem_filter.mp hmem).1, hdue'⟩

/-- A timer that is added is not fired any more: the walk does not come to it. -/
theorem Walked.pairwise (h : Walked cb isDue rest events) :
    events.Pairwise fun e e' => ∀ p t, e = .added p t → e' ≠ .fired p := by
  induction h with
  | done => exact .nil
  | keep _ _ ih => exact ih
  | fire _ hscript hquiet hwalk ih =>
      rw [List.cons_append, List.pairwise_cons, List.pairwise_append]
      refine ⟨fun e' _ p t heq => (by cases heq), ?_, ih, ?_⟩
      · refine List.pairwise_of_forall_mem_list fun e _ e' he' p t _ heq => ?_
        exact fired_notMem_scriptEvents _ p (hscript ▸ heq ▸ he')
      · rintro e he e' he' p t rfl rfl
        have hmem := (hwalk.mem_of_fired he').1
        exact hquiet p (List.mem_cons_of_mem _ hmem) (List.mem_map_of_mem he)

/-- What a walk deletes is deleted by a call of a callback, since the walk itself only frees
what it fires. -/
theorem Walked.exists_script (h : Walked cb isDue rest events) (hp : .deleted p ∈ events) :
    ∃ q u, .deleted p ∈ scriptEvents (cb.script q u) := by
  induction h with
  | done => exact absurd hp List.not_mem_nil
  | keep _ _ ih => exact ih hp
  | @fire q rest calls events u _ hscript _ _ ih =>
      rw [List.cons_append, List.mem_cons, List.mem_append] at hp
      rcases hp with heq | hcalls | hrest
      · cases heq
      · exact ⟨q, u, hscript ▸ hcalls⟩
      · exact ih hrest

/-- **The timers that a walk fires**, once each, are those that are due and have not been
deleted before their turn. Induction on the walk: the timer at its head is fired first of all,
and one that the calls delete is not visited. -/
theorem Walked.count_fired (h : Walked cb isDue rest events) (hnodup : rest.Nodup) (p : Ptr) :
    events.count (.fired p) =
      if (p ∈ rest ∧ isDue p = true) ∧ ¬ DeletedBefore p events then 1 else 0 := by
  induction h with
  | done => simp
  | @keep q rest events hdue hwalk ih =>
      have hmem : p ∈ q :: rest ∧ isDue p = true ↔ p ∈ rest ∧ isDue p = true := by
        rw [List.mem_cons]
        refine and_congr_left fun hp => or_iff_right ?_
        rintro rfl
        rw [hdue] at hp
        cases hp
      rw [ih (List.nodup_cons.mp hnodup).2]
      simp only [hmem]
  | @fire q rest calls events u hdue hscript hquiet hwalk ih =>
      obtain ⟨hq, hnd⟩ := List.nodup_cons.mp hnodup
      have hfired : ∀ p, .fired p ∉ calls := hscript ▸ fired_notMem_scriptEvents _
      have hnone : calls.count (.fired p) = 0 := List.count_eq_zero.mpr (hfired p)
      have hsub : ∀ {p}, p ∈ survivors calls rest → p ∈ rest := fun hm => (List.mem_filter.mp hm).1
      have ih := ih (hnd.sublist List.filter_sublist)
      rw [List.cons_append, List.count_cons, List.count_append, hnone, ih]
      by_cases hpq : p = q
      · subst hpq
        have hnot : p ∉ survivors calls rest := fun hm => hq (hsub hm)
        simp [DeletedBefore, Event.frees, hnot, hdue]
      · have hne : ¬ (.fired q : Event Ptr ℤ) = .fired p := fun heq => by
          injection heq with heq
          exact hpq heq.symm
        have hskip : ¬ (.fired q : Event Ptr ℤ).frees p = true := by
          simp [Event.frees, Ne.symm hpq]
        by_cases hdel : .deleted p ∈ calls
        · have hnot : p ∉ survivors calls rest := fun hm => by
            simpa [hdel] using (List.mem_filter.mp hm).2
          have hfind : DeletedBefore p (.fired q :: (calls ++ events)) := by
            obtain ⟨e, he⟩ := Option.isSome_iff_exists.mp
              (List.find?_isSome.mpr ⟨_, hdel, Event.frees_iff.mpr (Or.inl rfl)⟩)
            rw [DeletedBefore, List.find?_cons_of_neg hskip, List.find?_append, he,
              Option.some_or]
            rcases Event.frees_iff.mp (List.find?_some he) with rfl | rfl
            · rfl
            · exact absurd (List.mem_of_find?_eq_some he) (hfired p)
          simp [hnot, hfind, hne]
        · have hmem : p ∈ survivors calls rest ↔ p ∈ q :: rest := by
            simp [survivors, hdel, hpq]
          have hfind : DeletedBefore p (.fired q :: (calls ++ events)) ↔
              DeletedBefore p events := by
            have hnone : calls.find? (Event.frees p) = none := by
              rw [List.find?_eq_none]
              intro e he hfrees
              rcases Event.frees_iff.mp hfrees with rfl | rfl
              · exact hdel he
              · exact hfired p he
            rw [DeletedBefore, List.find?_cons_of_neg hskip, List.find?_append, hnone,
              Option.none_or]
            rfl
          simp only [hmem, hfind, beq_iff_eq, hne, if_false, Nat.zero_add, Nat.add_zero]

/-- The timers of the current slot that are due are those with rotation 0. -/
theorem Rep.mem_due_iff (h : Rep w L) :
    (p ∈ L w.curSlot ∧ due w p = true) ↔ payload w p = some (0, w.curSlot) := by
  constructor
  · rintro ⟨hmem, hdue⟩
    obtain ⟨r, hr⟩ := h.home _ h.cursor p hmem
    have := (h.owned p r _ hr).2.1
    obtain rfl : r = 0 := by
      have : r ≤ 0 := by simpa [due, hr] using hdue
      omega
    exact hr
  · intro hpay
    exact ⟨(h.owned p 0 _ hpay).2.2, by simp [due, hpay]⟩

/-! ### Ticks and runs -/

/-- **`tick`**, for callbacks that change the wheel: the walk over the current slot, and the
cursor one slot further. -/
theorem Rep.tickCallbacks (h : Rep w L) (cb : Callbacks) {fuel : ℕ}
    (hfuel : (L w.curSlot).length ≤ fuel) :
    ∃ w' L' events, TimeWheel.tick cb.cbFunc fuel w [] = some (w', events) ∧ Rep w' L' ∧
      w'.curSlot = (w.curSlot + 1) % N ∧ Walked cb (due w) (L w.curSlot) events ∧
      payload w' = effects w.curSlot (visited (payload w) (L w.curSlot)) events ∧
      Balanced (allocs w) events (allocs w') := by
  obtain ⟨w', L', events, hrun, hrep, hcur, hwalk, hpay, hbal⟩ :=
    tickLoop_callbacks cb fuel [] (L w.curSlot) [] h rfl hfuel
  rw [← (h.chain _ h.cursor).head_eq] at hrun
  refine ⟨{ w' with curSlot := (w'.curSlot + 1) % N }, L', events, ?_,
    { hrep with cursor := Nat.mod_lt _ N_pos }, by rw [hcur], hwalk, hpay, hbal.total,
    hbal.always⟩
  simp [TimeWheel.tick, hrun]

/-- More fuel does not change what the loop does, once it returns. Induction on the fuel. -/
theorem tickLoop_mono {W : Type} {cbFunc : Ptr → TimeWheel → W → Option (TimeWheel × W)}
    {fuel : ℕ} {tmp : Option Ptr} {o : W} {r : TimeWheel × W}
    (h : tickLoop cbFunc fuel tmp w o = some r) (more : ℕ) :
    tickLoop cbFunc (fuel + more) tmp w o = some r := by
  induction fuel generalizing tmp w o with
  | zero =>
      cases tmp with
      | none => rwa [tickLoop] at h ⊢
      | some p => cases h
  | succ fuel ih =>
      cases tmp with
      | none => rwa [tickLoop] at h ⊢
      | some p =>
          rw [Nat.add_right_comm]
          cases ht : w.heap p with
          | none => simp [tickLoop, ht] at h
          | some t =>
              simp only [tickLoop, ht, Option.bind_eq_bind, Option.bind_some] at h ⊢
              by_cases hrot : 0 < t.rotation
              · simp only [hrot, if_true, Heap.store_eq ht, Option.bind_some,
                  Function.update_self] at h ⊢
                exact ih h
              · simp only [hrot, if_false] at h ⊢
                obtain ⟨⟨w₁, o₁⟩, hcb, h⟩ := Option.bind_eq_some_iff.mp h
                obtain ⟨⟨w₂, next⟩, hrem, h⟩ := Option.bind_eq_some_iff.mp h
                rw [hcb, Option.bind_some, hrem, Option.bind_some]
                exact ih h

/-- **What a tick does**, with whatever fuel it succeeds. More fuel gives the same, and enough
fuel the walk. -/
theorem Rep.of_tick (h : Rep w L) {cb : Callbacks} {fuel : ℕ}
    (hrun : TimeWheel.tick cb.cbFunc fuel w [] = some (w', events)) :
    ∃ L', Rep w' L' ∧ w'.curSlot = (w.curSlot + 1) % N ∧
      Walked cb (due w) (L w.curSlot) events ∧
      payload w' = effects w.curSlot (visited (payload w) (L w.curSlot)) events ∧
      Balanced (allocs w) events (allocs w') := by
  have hmore : TimeWheel.tick cb.cbFunc (fuel + (L w.curSlot).length) w [] =
      some (w', events) := by
    obtain ⟨⟨w₁, o⟩, hloop, heq⟩ := Option.bind_eq_some_iff.mp hrun
    rw [TimeWheel.tick, tickLoop_mono hloop]
    exact heq
  obtain ⟨w₁, L', events₁, hrun₁, hspec⟩ := h.tickCallbacks cb (Nat.le_add_left _ fuel)
  rw [hmore] at hrun₁
  obtain ⟨rfl, rfl⟩ := Prod.mk.injEq .. ▸ Option.some.inj hrun₁
  exact ⟨L', hspec⟩

/-- **Every run** keeps the wheel well linked, and frees the timers that were allocated.
Induction on the run. -/
theorem Rep.of_run {n : ℕ} {history : List (Event Ptr ℤ)} (h : Rep w L)
    (hrun : Run w n history w') :
    (∃ L', Rep w' L') ∧ Balanced (allocs w) history (allocs w') := by
  induction hrun with
  | refl => exact ⟨⟨L, h⟩, balanced_nil (allocs_le_one w)⟩
  | call c _ hc hexec ih =>
      obtain ⟨⟨L₁, h₁⟩, hbal⟩ := ih
      obtain ⟨u, L₂, hexec', hlead⟩ := h₁.call hc
      obtain rfl := Option.some.inj (hexec.symm.trans hexec')
      exact ⟨⟨L₂, hlead.rep⟩, hbal.trans hlead.balanced⟩
  | tick cb _ htick ih =>
      obtain ⟨⟨L₁, h₁⟩, hbal⟩ := ih
      obtain ⟨L₂, h₂, -, -, -, hbal₂⟩ := h₁.of_tick htick
      exact ⟨⟨L₂, h₂⟩, hbal.trans hbal₂⟩

/-- **The links survive the callbacks.** After every run of calls and of ticks whose callbacks
make calls, the wheel is well linked. A timer is freed once, after it was added, and those that
were not freed are the allocated ones. Every call that may be made then succeeds, and so does
every tick, which fires exactly the timers of the current slot that have rotation 0 and are not
deleted before their turn, once each. -/
theorem wheel_links {n : ℕ} {history : List (Event Ptr ℤ)} (hrun : Run new n history w) :
    (∃ L, Rep w L) ∧
    (∀ p, history.countP (Event.adds p) = allocs w p + history.countP (Event.frees p)) ∧
    (∀ pre, pre <+: history → ∀ p, pre.countP (Event.frees p) ≤ pre.countP (Event.adds p) ∧
      pre.countP (Event.adds p) ≤ pre.countP (Event.frees p) + 1) ∧
    (∀ c : Call, c.Permitted none w → ∃ w', c.exec w = some w') ∧
    ∀ cb : Callbacks, ∃ bound, ∀ fuel ≥ bound, ∃ w' events,
      TimeWheel.tick cb.cbFunc fuel w [] = some (w', events) ∧
      ∀ p, events.count (.fired p) =
        if payload w p = some (0, w.curSlot) ∧ ¬ DeletedBefore p events then 1 else 0 := by
  obtain ⟨⟨L, h⟩, hbal⟩ := rep_new.of_run hrun
  have hnew : ∀ p k, allocs new p + k = k := fun p k => Nat.zero_add k
  refine ⟨⟨L, h⟩, fun p => ?_, fun pre hpre p => ?_, fun c hc => ?_, fun cb => ?_⟩
  · rw [← hbal.total p, hnew]
  · have := hbal.always pre hpre p
    rwa [hnew] at this
  · obtain ⟨w', L', hexec, -⟩ := h.call hc
    exact ⟨w', hexec⟩
  · refine ⟨(L w.curSlot).length, fun fuel hfuel => ?_⟩
    obtain ⟨w', L', events, htick, -, -, hwalk, -, -⟩ := h.tickCallbacks cb hfuel
    refine ⟨w', events, htick, fun p => ?_⟩
    rw [hwalk.count_fired (h.nodup _ h.cursor)]
    simp only [h.mem_due_iff]

/-- The callback of the timer 1 deletes the timer 2, if that is outstanding. -/
def deletesTwo : Callbacks where
  script := fun tmp w => if tmp = 1 ∧ w.heap 2 ≠ none then [.delTimer 2] else []
  permitted := by
    intro tmp w
    split
    · rename_i h
      exact ⟨⟨h.2, by rw [h.1]; decide⟩, fun _ _ => trivial⟩
    · trivial

/-- Three timers share a slot, and the callback of one deletes another in front of the walk. -/
theorem wheel_links_example :
    ∃ w history, Run new 2 history w ∧ (∃ L, Rep w L) ∧
      (∀ p, history.countP (Event.adds p) = allocs w p + history.countP (Event.frees p)) ∧
      (∀ pre, pre <+: history → ∀ p, pre.countP (Event.frees p) ≤ pre.countP (Event.adds p) ∧
        pre.countP (Event.adds p) ≤ pre.countP (Event.frees p) + 1) ∧
      (∀ c : Call, c.Permitted none w → ∃ w', c.exec w = some w') ∧
      ∀ cb : Callbacks, ∃ bound, ∀ fuel ≥ bound, ∃ w' events,
        TimeWheel.tick cb.cbFunc fuel w [] = some (w', events) ∧
        ∀ p, events.count (.fired p) =
          if payload w p = some (0, w.curSlot) ∧ ¬ DeletedBefore p events then 1 else 0 := by
  have hrun : ∃ w history, Run new 2 history w := by
    refine ⟨_, _, .tick deletesTwo (.tick deletesTwo (.call (.addTimer 1 1)
      (.call (.addTimer 1 2) (.call (.addTimer 61 3) .refl rfl rfl) rfl rfl) rfl rfl)
      (show TimeWheel.tick _ 3 _ _ = _ from rfl)) (show TimeWheel.tick _ 3 _ _ = _ from rfl)⟩
  obtain ⟨w, history, hrun⟩ := hrun
  exact ⟨w, history, hrun, wheel_links hrun⟩

end LinuxNetwork.TimeWheel

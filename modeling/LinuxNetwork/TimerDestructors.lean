import LinuxNetwork.SortTimerListCallbacks
import LinuxNetwork.TimeWheelCallbacks

/-!
# The Destructors of the Timer Facilities

This module embeds `~time_wheel` and `~Sort_timer_list`, which free the timers that are still
linked when their container goes. Both run the same loop along the forward links, the one for
every slot and the other from `_head`.

The whole life of a container is then a log of allocations: its calls and ticks, with callbacks
that may change it, and the deletions of its destructor. The wheel frees every timer once. The
list frees what can be reached from its head, so it leaks exactly the timers that its ticks have
lost behind a callback.

## Main results

* `TimeWheel.destroy_frees_all`: the life of a wheel.
* `SortTimerList.destroy_frees_all_iff`: the life of a list, and when it frees every timer.
-/

open AllocationLog DoublyLinked Transition

namespace LinuxNetwork.TimeWheel

/-- The loop of `~time_wheel()` over the slots `is`, with the timers that it frees. The last write
to `slots[i]` is the null that ends the inner loop. -/
def destroySlots (fuel : ℕ) : List ℕ → TimeWheel → Option (TimeWheel × List Ptr)
  | [], w => some (w, [])
  | i :: is, w => do
      let (heap, freed) ← freeChain fuel (w.slots i) w.heap
      let (w, more) ←
        destroySlots fuel is { w with heap := heap, slots := Function.update w.slots i none }
      some (w, freed ++ more)

/-- `~time_wheel()` -/
def destroy (fuel : ℕ) (w : TimeWheel) : Option (TimeWheel × List Ptr) :=
  destroySlots fuel (List.range N) w

variable {w w' : TimeWheel} {L : ℕ → List Ptr} {p : Ptr} {s : ℕ}

/-- **An emptied slot.** Freeing the timers of a slot leaves a wheel with one empty slot more. -/
theorem Rep.free_slot (h : Rep w L) (hs : s < N) {fuel : ℕ} (hfuel : (L s).length ≤ fuel) :
    freeChain fuel (w.slots s) w.heap =
        some (fun q => if q ∈ L s then none else w.heap q, L s) ∧
      Rep { w with
            heap := fun q => if q ∈ L s then none else w.heap q
            slots := Function.update w.slots s none } (Function.update L s []) := by
  refine ⟨(h.chain s hs).freeChain_eq (h.nodup s hs) (h.allocated hs) hfuel, ?_⟩
  refine h.rewire hs [] rfl ?_ ?_ ?_ List.nodup_nil ?_ ?_ ?_
  · exact fun s' hs' => Function.update_of_ne hs' _ _
  · exact fun q hq _ => if_neg hq
  · exact Function.update_self ..
  · exact fun q hq => absurd hq List.not_mem_nil
  · exact fun q hq _ => if_pos hq
  · exact fun q hq => absurd hq List.not_mem_nil

/-- **The loop of the destructor** frees the timers of each slot and leaves the others. The
induction is on the slots still to visit. -/
theorem Rep.destroySlots (is : List ℕ) {fuel : ℕ} :
    ∀ {w : TimeWheel} {L : ℕ → List Ptr}, Rep w L → is.Nodup → (∀ i ∈ is, i < N) →
      (∀ i ∈ is, (L i).length ≤ fuel) →
      ∃ w', TimeWheel.destroySlots fuel is w = some (w', is.flatMap L) ∧
        Rep w' fun i => if i ∈ is then [] else L i := by
  induction is with
  | nil =>
      intro w L h _ _ _
      exact ⟨w, rfl, by simpa using h⟩
  | cons i is ih =>
      intro w L h hnodup hlt hfuel
      obtain ⟨hi, hnodup⟩ := List.nodup_cons.mp hnodup
      obtain ⟨hfree, h₁⟩ := h.free_slot (hlt i List.mem_cons_self) (hfuel i List.mem_cons_self)
      have hother : ∀ j ∈ is, Function.update L i [] j = L j := fun j hj =>
        Function.update_of_ne (ne_of_mem_of_not_mem hj hi) _ _
      obtain ⟨w', hrun, h'⟩ := ih h₁ hnodup (fun j hj => hlt j (List.mem_cons_of_mem i hj))
        fun j hj => by rw [hother j hj]; exact hfuel j (List.mem_cons_of_mem i hj)
      refine ⟨w', ?_, ?_⟩
      · have hsame : is.flatMap (Function.update L i []) = is.flatMap L :=
          List.flatMap_congr hother
        simp only [TimeWheel.destroySlots, hfree, hrun, hsame, Option.bind_eq_bind,
          Option.bind_some, List.flatMap_cons]
      · convert h' using 2 with j
        by_cases hj : j = i
        · subst hj
          simp [hi]
        · simp [hj]

/-- Each timer of a wheel lies in one of its slots, once. -/
theorem Rep.count_slots (h : Rep w L) (p : Ptr) :
    ((List.range N).flatMap L).count p = allocs w p := by
  have hnodup : ((List.range N).flatMap L).Nodup := by
    refine List.nodup_flatMap.mpr ⟨fun s hs => h.nodup s (List.mem_range.mp hs), ?_⟩
    refine List.pairwise_lt_range.imp_of_mem fun {i j} hi hj hlt q hqi hqj => ?_
    have := h.slot_unique (List.mem_range.mp hi) (List.mem_range.mp hj) hqi hqj
    omega
  have hmem : p ∈ (List.range N).flatMap L ↔ w.heap p ≠ none := by
    rw [List.mem_flatMap]
    constructor
    · rintro ⟨s, hs, hp⟩ hnone
      exact h.notMem_of_free (List.mem_range.mp hs) hnone hp
    · intro hp
      obtain ⟨t, ht⟩ := Option.ne_none_iff_exists'.mp hp
      obtain ⟨hs, -, hp⟩ := h.owned p t.rotation t.timeSlot (payload_eq ht)
      exact ⟨t.timeSlot, List.mem_range.mpr hs, hp⟩
  by_cases hp : p ∈ (List.range N).flatMap L
  · rw [List.count_eq_one_of_mem hnodup hp, allocs_eq_one (hmem.mp hp)]
  · rw [List.count_eq_zero.mpr hp, allocs_eq, payload, Heap.view,
      not_not.mp (hmem.not.mp hp)]
    rfl

/-- **`~time_wheel()`** frees every timer of the wheel, slot by slot, and nothing is allocated
behind it. -/
theorem Rep.destroy (h : Rep w L) {fuel : ℕ} (hfuel : ∀ s < N, (L s).length ≤ fuel) :
    ∃ w', TimeWheel.destroy fuel w = some (w', (List.range N).flatMap L) ∧
      ∀ p, w'.heap p = none := by
  obtain ⟨w', hrun, h'⟩ := h.destroySlots (List.range N) List.nodup_range
    (fun i hi => List.mem_range.mp hi) fun i hi => hfuel i (List.mem_range.mp hi)
  refine ⟨w', hrun, fun p => ?_⟩
  by_contra hp
  obtain ⟨t, ht⟩ := Option.ne_none_iff_exists'.mp hp
  obtain ⟨hs, -, hp⟩ := h'.owned p t.rotation t.timeSlot (payload_eq ht)
  rw [if_pos (List.mem_range.mpr hs)] at hp
  exact List.not_mem_nil hp

/-- **A wheel frees every timer once.** After every run of calls and of ticks whose callbacks make
calls, the destructor returns, every pointer that it follows is valid, and nothing is allocated
any more: in the life of the wheel each timer is freed once, by a call, by the tick that fires it
or by the destructor. -/
theorem destroy_frees_all {n : ℕ} {history : List (Event Ptr ℤ)} (hrun : Run new n history w) :
    ∃ bound freed, ∀ fuel ≥ bound, ∃ w', TimeWheel.destroy fuel w = some (w', freed) ∧
      (∀ p, w'.heap p = none) ∧
      Balanced (fun _ => 0) (history ++ freed.map .deleted) fun _ => 0 := by
  obtain ⟨⟨L, h⟩, hbal⟩ := rep_new.of_run hrun
  have hbound : ∀ s < N, (L s).length ≤ ((List.range N).flatMap L).length := fun s hs =>
    (List.sublist_flatten_of_mem (List.mem_map_of_mem (List.mem_range.mpr hs))).length_le
  refine ⟨((List.range N).flatMap L).length, (List.range N).flatMap L, fun fuel hfuel => ?_⟩
  obtain ⟨w', hdestroy, hnone⟩ := h.destroy fun s hs => (hbound s hs).trans hfuel
  refine ⟨w', hdestroy, hnone, hbal.trans (balanced_map_deleted (allocs_le_one w) fun p => ?_)⟩
  rw [h.count_slots p]
  rfl

/-- A timer that its tick fires, one that a callback deletes, and two that are left to the
destructor, in different slots. -/
theorem destroy_frees_all_example :
    ∃ w history, Run new 2 history w ∧
      ∃ bound freed, ∀ fuel ≥ bound, ∃ w', TimeWheel.destroy fuel w = some (w', freed) ∧
        (∀ p, w'.heap p = none) ∧
        Balanced (fun _ => 0) (history ++ freed.map .deleted) fun _ => 0 := by
  have hrun : ∃ w history, Run new 2 history w := by
    refine ⟨_, _, .tick deletesTwo (.tick deletesTwo (.call (.addTimer 1 1)
      (.call (.addTimer 1 2) (.call (.addTimer 61 3) (.call (.addTimer 5 4)
        .refl rfl rfl) rfl rfl) rfl rfl) rfl rfl)
      (show TimeWheel.tick _ 3 _ _ = _ from rfl)) (show TimeWheel.tick _ 3 _ _ = _ from rfl)⟩
  obtain ⟨w, history, hrun⟩ := hrun
  exact ⟨w, history, hrun, destroy_frees_all hrun⟩

end LinuxNetwork.TimeWheel

namespace LinuxNetwork.SortTimerList

variable {U : Type}

/-- `~Sort_timer_list()`, with the timers that it frees. The last write to `_head` is the null that
ends the loop. -/
def destroy (fuel : ℕ) (l : SortTimerList U) : Option (SortTimerList U × List Ptr) := do
  let (heap, freed) ← freeChain fuel l.head l.heap
  some ({ l with heap := heap, head := none }, freed)

/-! ### The life of a list -/

/-- What is done with a list: a call from outside, or a tick at a clock value whose callbacks make
calls. -/
inductive Step (U : Type) where
  | call (c : Call U)
  | tick (cb : Callbacks U) (cur : ℤ)

/-- A step, with what happens in it. -/
def Step.exec (fuel : ℕ) (l : SortTimerList U) :
    Step U → Option (SortTimerList U × List (Event Ptr ℤ))
  | .call c => (c.exec fuel l).map fun l => (l, c.events)
  | .tick cb cur => SortTimerList.tick (cb.callback fuel) fuel cur l []

/-- The steps that may be taken: fresh timers to `add_timer`, members to the other calls. -/
def Step.Permitted (l : SortTimerList U) : Step U → Prop
  | .call (.addTimer addr _ _) => l.heap addr = none
  | .call (.adjustTimer timer _) => l.Member timer
  | .call (.delTimer timer) => l.Member timer
  | .tick _ _ => True

/-- The callbacks of the step leave in front the timer that is fired. -/
def Step.StaysFirst (fuel : ℕ) (l : SortTimerList U) : Step U → Prop
  | .call _ => True
  | .tick cb cur => SortTimerList.StaysFirst cb fuel cur fuel l

variable {l l' : SortTimerList U} {es : List (Entry U)} {lost : List Ptr} {fuel : ℕ}
  {events : List (Event Ptr ℤ)}

/-- The loop of a tick that returns. On an empty list `tick` returns at once, as the loop would. -/
theorem Rep.tickLoop_of_tick {W : Type}
    {callback : Ptr → SortTimerList U → W → Option (SortTimerList U × W)} {cur : ℤ} {o o' : W}
    (h : Rep l es) (hrun : SortTimerList.tick callback fuel cur l o = some (l', o')) :
    SortTimerList.tickLoop callback cur fuel (timers es).head? l o = some (l', o') := by
  rw [← h.chain.head_eq]
  cases hhead : l.head with
  | none =>
      simp only [SortTimerList.tick, hhead] at hrun
      rwa [SortTimerList.tickLoop]
  | some p => simpa only [SortTimerList.tick, hhead] using hrun

/-- **One step** accounts for every timer, and what it loses is what its callbacks put in front of
the timer that is fired. -/
theorem Holds.step (h : Holds l es lost) {s : Step U} (hs : s.Permitted l)
    (hrun : s.exec fuel l = some (l', events)) :
    ∃ es' more, Holds l' es' (lost ++ more) ∧
      Balanced (own es lost) events (own es' (lost ++ more)) ∧
      (s.StaysFirst fuel l ↔ more = []) := by
  cases s with
  | call c =>
      obtain ⟨l', hcall, heq⟩ := Option.map_eq_some_iff.mp hrun
      obtain ⟨rfl, rfl⟩ := Prod.mk.injEq .. ▸ heq
      suffices hsuff : ∃ es', Holds l' es' lost ∧ Balanced (own es lost) c.events (own es' lost) by
        obtain ⟨es', h', hbal⟩ := hsuff
        refine ⟨es', [], ?_, ?_, iff_of_true trivial rfl⟩
        · rwa [List.append_nil]
        · rwa [List.append_nil]
      cases c with
      | addTimer addr expire userData => exact ⟨_, h.call_addTimer hs hcall⟩
      | adjustTimer timer expire =>
          obtain ⟨es₁, e, es₂, rfl, rfl⟩ := exists_split_of_mem (h.rep.mem_of_member hs)
          obtain ⟨h', hown⟩ := h.call_adjustTimer hcall
          exact ⟨_, h', by rw [hown]; exact balanced_nil h.own_le_one⟩
      | delTimer timer =>
          obtain ⟨es₁, e, es₂, rfl, rfl⟩ := exists_split_of_mem (h.rep.mem_of_member hs)
          exact ⟨_, h.call_delTimer hcall⟩
  | tick cb cur =>
      obtain ⟨es', more, events', h', hevents, hbal, hfirst⟩ :=
        tickLoop_loses cb fuel cur fuel h (h.rep.tickLoop_of_tick hrun)
      obtain rfl : events = events' := by rw [hevents, List.nil_append]
      exact ⟨es', more, h', hbal, hfirst⟩

/-- **A life** accounts for every timer. The induction is on the steps. -/
theorem Holds.steps {steps : List (Step U)} {outs : List (List (Event Ptr ℤ))}
    (h : Holds l es lost) (hsteps : AllCalls (Step.exec fuel) Step.Permitted l steps)
    (hrun : runCalls (Step.exec fuel) l steps = some (l', outs)) :
    ∃ es' more, Holds l' es' (lost ++ more) ∧
      Balanced (own es lost) outs.flatten (own es' (lost ++ more)) ∧
      (AllCalls (Step.exec fuel) (Step.StaysFirst fuel) l steps ↔ more = []) := by
  induction steps generalizing l es lost outs with
  | nil =>
      obtain ⟨rfl, rfl⟩ := Prod.mk.injEq .. ▸ Option.some.inj hrun
      refine ⟨es, [], ?_, ?_, iff_of_true trivial rfl⟩
      · rwa [List.append_nil]
      · rw [List.append_nil]
        exact balanced_nil h.own_le_one
  | cons s steps ih =>
      obtain ⟨l₁, events, outs', hstep, hrest, rfl⟩ := runCalls_cons_eq_some.mp hrun
      obtain ⟨hs, hsteps⟩ := (allCalls_cons_iff hstep).mp hsteps
      obtain ⟨es₁, more₁, h₁, hbal₁, hfirst₁⟩ := h.step hs hstep
      obtain ⟨es', more, h', hbal, hfirst⟩ := ih h₁ hsteps hrest
      rw [List.append_assoc] at h' hbal
      refine ⟨es', more₁ ++ more, h', hbal₁.trans hbal, ?_⟩
      rw [allCalls_cons_iff hstep, hfirst₁, hfirst, List.append_eq_nil_iff]

/-- **`~Sort_timer_list()`** frees the timers of the list and leaves those that are lost. -/
theorem Holds.destroy (h : Holds l es lost) (hfuel : es.length ≤ fuel) :
    ∃ l', SortTimerList.destroy fuel l = some (l', timers es) ∧
      (∀ p ∈ timers es, l'.heap p = none) ∧ ∀ p ∈ lost, l'.heap p ≠ none := by
  have hfree := h.rep.chain.freeChain_eq h.rep.nodup h.rep.allocated
    (show (timers es).length ≤ fuel by rwa [timers, List.length_map])
  refine ⟨_, by simp only [SortTimerList.destroy, hfree]; rfl, fun p hp => if_pos hp, ?_⟩
  intro p hp
  change (if p ∈ timers es then none else l.heap p) ≠ none
  rw [if_neg (h.notMem_of_lost hp)]
  exact h.allocated p hp

/-- **A list frees the timers that it has not lost.** After every sequence of calls and ticks that
returns, with callbacks that may change the list, the destructor returns, every pointer that it
follows is valid, and in the life of the list no timer is freed twice. The timers that are never
freed are those that the ticks have lost, and there are none exactly if every callback leaves in
front the timer that is fired. -/
theorem destroy_frees_all_iff {steps : List (Step U)} {outs : List (List (Event Ptr ℤ))}
    (hsteps : AllCalls (Step.exec fuel) Step.Permitted new steps)
    (hrun : runCalls (Step.exec fuel) new steps = some (l, outs)) :
    ∃ bound freed lost, (∀ more ≥ bound, ∃ l', SortTimerList.destroy more l = some (l', freed) ∧
        (∀ p ∈ freed, l'.heap p = none) ∧ ∀ p ∈ lost, l'.heap p ≠ none) ∧
      Balanced (fun _ => 0) (outs.flatten ++ freed.map .deleted) (fun p => lost.count p) ∧
      (AllCalls (Step.exec fuel) (Step.StaysFirst fuel) new steps ↔ lost = []) := by
  have hnew : Holds (new : SortTimerList U) [] [] :=
    ⟨rep_new, List.nodup_nil, fun p hp => absurd hp List.not_mem_nil⟩
  obtain ⟨es, lost, h, hbal, hfirst⟩ := hnew.steps hsteps hrun
  rw [List.nil_append] at h hbal
  refine ⟨es.length, timers es, lost, fun more hmore => h.destroy hmore, ?_, hfirst⟩
  have hzero : own ([] : List (Entry U)) [] = fun _ => 0 := funext fun _ => List.count_nil
  rw [hzero] at hbal
  exact hbal.trans (balanced_map_deleted h.own_le_one fun p => List.count_append)

/-- The callback of the timer 1 adds one that expires before it, which the destructor misses. -/
theorem destroy_frees_all_iff_example :
    ∃ l outs, runCalls (Step.exec 4) new
        [.call (.addTimer 1 5 ()), .call (.addTimer 3 9 ()), .tick (addsTwo 4) 5] =
          some (l, outs) ∧
      ∃ bound freed lost, (∀ more ≥ bound, ∃ l', SortTimerList.destroy more l = some (l', freed) ∧
          (∀ p ∈ freed, l'.heap p = none) ∧ ∀ p ∈ lost, l'.heap p ≠ none) ∧
        Balanced (fun _ => 0) (outs.flatten ++ freed.map .deleted) (fun p => lost.count p) ∧
        (AllCalls (Step.exec 4) (Step.StaysFirst 4) new
          [.call (.addTimer 1 5 ()), .call (.addTimer 3 9 ()), .tick (addsTwo 4) 5] ↔
            lost = []) := by
  refine ⟨_, _, rfl, destroy_frees_all_iff ?_ rfl⟩
  exact ⟨rfl, fun l ev hrun => ⟨by cases hrun; rfl, fun _ _ _ => ⟨trivial, fun _ _ _ => trivial⟩⟩⟩

end LinuxNetwork.SortTimerList

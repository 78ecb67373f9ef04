import LinuxNetwork.TimeWheelCallbacks

/-!
# Timers Added in a Callback

A callback of `tick` adds a timer while the cursor still stands on the slot that is walked. For
most timeouts that is one tick less to wait than for a timer added between ticks. But if the
ticks of the timeout are a multiple of `N`, the timer goes to the front of the slot that is
walked, where the walk does not come to it: its first turn of the wheel begins a whole turn
late, and it has `N` ticks more to wait.

## Main results

* `ticksLeft_rearmed`: the ticks left of a timer that a callback has added.
* `Rep.ticksLeft_of_run`: calls and ticks that do not delete a timer count it down.
* `rearmed_fired_iff`: the timeouts whose timers are fired in time.
-/

open AllocationLog

namespace LinuxNetwork.TimeWheel

variable {w w' : TimeWheel} {L : ℕ → List Ptr} {p : Ptr} {r n : ℕ} {timeout : ℤ}
  {events history : List (Event Ptr ℤ)}

/-- The ticks that a timer waits for which a callback adds: those of the timeout, and a whole turn
if they bring it back to the slot that is walked. -/
def rearmTicks (timeout : ℤ) : ℕ :=
  if ticksOf timeout % N = 0 then ticksOf timeout + N else ticksOf timeout

/-- **A timer that a callback adds** has these ticks left behind the tick, which has moved the
cursor by one slot. -/
theorem ticksLeft_rearmed (hcur' : w'.curSlot = (w.curSlot + 1) % N)
    (hpay : payload w' p = some
      (((ticksOf timeout / N : ℕ) : ℤ), (w.curSlot + ticksOf timeout % N) % N)) :
    ticksLeft w' p = some (rearmTicks timeout) := by
  have hcycle : ((w.curSlot + ticksOf timeout % N) % N + N - (w.curSlot + 1) % N) % N +
      N * (ticksOf timeout / N) + 1 = rearmTicks timeout := by
    rw [rearmTicks]
    by_cases hm : ticksOf timeout % N = 0
    · rw [if_pos hm]
      simp only [N] at hm ⊢
      omega
    · rw [if_neg hm]
      simp only [N] at hm ⊢
      omega
  rw [ticksLeft, hpay, hcur', Option.map_some, Int.toNat_natCast, hcycle]

/-- A timer with ticks left is allocated. -/
theorem heap_ne_none_of_ticksLeft (hp : ticksLeft w p = some r) : w.heap p ≠ none := by
  intro hnone
  rw [ticksLeft, payload_eq_none.mpr hnone] at hp
  cases hp

/-- A call leaves the ticks left alone of a timer that it does not delete. -/
theorem Leads.ticksLeft_eq {L' : ℕ → List Ptr} {c : Call} (h : Leads w L c.events w' L')
    (hp : w.heap p ≠ none) (hdel : .deleted p ∉ c.events) : ticksLeft w' p = ticksLeft w p := by
  have hfired : .fired p ∉ c.events := by
    have := fired_notMem_scriptEvents [c] p
    rwa [scriptEvents, List.flatMap_singleton] at this
  rw [ticksLeft, ticksLeft, h.payload, h.cursor,
    effects_of_notMem (h.balanced.subject_notMem (allocs_eq_one hp) hdel hfired)]

/-- **A tick** fires a timer that it does not delete exactly if it has one tick left, and lowers
the ticks left of the others by one. No event is about these, so they are counted down. -/
theorem Rep.ticksLeft_of_tick (h : Rep w L) {cb : Callbacks} {fuel : ℕ}
    (hrun : TimeWheel.tick cb.cbFunc fuel w [] = some (w', events))
    (hp : ticksLeft w p = some r) (hdel : .deleted p ∉ events) :
    (.fired p ∈ events ↔ r = 1) ∧ (r ≠ 1 → ticksLeft w' p = some (r - 1)) := by
  obtain ⟨L', hrep, hcur, hwalk, hpay, hbal⟩ := h.of_tick hrun
  have hturn : ¬ DeletedBefore p events := fun hbefore =>
    hdel (List.mem_of_find?_eq_some hbefore)
  have hfired : .fired p ∈ events ↔ r = 1 := by
    have hone := mem_filter_due_iff (p := p) h
    rw [List.mem_filter, hp, Option.some.injEq] at hone
    rw [← List.count_pos_iff, hwalk.count_fired (h.nodup _ h.cursor), ← hone]
    split
    · rename_i hand
      exact iff_of_true Nat.one_pos hand.1
    · rename_i hand
      exact iff_of_false (Nat.lt_irrefl 0) fun hdue => hand ⟨hdue, hturn⟩
  refine ⟨hfired, fun hr => ?_⟩
  have hnot : p ∉ events.map Event.subject :=
    hbal.subject_notMem (allocs_eq_one (heap_ne_none_of_ticksLeft hp)) hdel (hfired.not.mpr hr)
  rw [ticksLeft_tick h hcur (by rw [hpay, effects_of_notMem hnot]), hp, Option.bind_some,
    if_neg hr]

/-- **A run** of fewer ticks than a timer has left counts it down, unless it deletes it.
Induction on the run. -/
theorem Rep.ticksLeft_of_run (h : Rep w L) (hrun : Run w n history w')
    (hp : ticksLeft w p = some r) (hdel : .deleted p ∉ history) (hn : n < r) :
    ticksLeft w' p = some (r - n) := by
  induction hrun with
  | refl => exact hp
  | call c hrun hc hexec ih =>
      rw [List.mem_append, not_or] at hdel
      have hu := ih hdel.1 hn
      obtain ⟨⟨L₁, h₁⟩, -⟩ := h.of_run hrun
      obtain ⟨u, L₂, hexec', hlead⟩ := h₁.call hc
      obtain rfl := Option.some.inj (hexec.symm.trans hexec')
      rw [hlead.ticksLeft_eq (heap_ne_none_of_ticksLeft hu) hdel.2, hu]
  | @tick n fuel history events u u' cb hrun htick ih =>
      rw [List.mem_append, not_or] at hdel
      have hu := ih hdel.1 (by omega)
      obtain ⟨⟨L₁, h₁⟩, -⟩ := h.of_run hrun
      rw [(h₁.ticksLeft_of_tick htick hu hdel.2).2 (by omega), Option.some.injEq]
      omega

/-- A timer that a callback of the tick has added, and that is not deleted in the rest of the
tick, has the ticks left that its timeout says. It is not freed in that rest, and so it is not
added again. -/
theorem Rep.ticksLeft_of_added (h : Rep w L) {cb : Callbacks} {fuel : ℕ}
    {before after : List (Event Ptr ℤ)}
    (hrun : TimeWheel.tick cb.cbFunc fuel w [] = some (w', before ++ .added p timeout :: after))
    (hdel : .deleted p ∉ after) : ticksLeft w' p = some (rearmTicks timeout) := by
  obtain ⟨L', hrep, hcur, hwalk, hpay, hbal⟩ := h.of_tick hrun
  have hfired : .fired p ∉ after := fun hmem => by
    have := (List.pairwise_append.mp hwalk.pairwise).2.1
    exact (List.pairwise_cons.mp this).1 _ hmem p timeout rfl rfl
  have hnot : p ∉ after.map Event.subject := by
    intro hmem
    obtain ⟨hadds, hfrees⟩ := countP_adds_pos hmem hdel hfired
    have hbefore := (hbal.always before (List.prefix_append _ _) p).1
    have hall := (hbal.always _ List.prefix_rfl p).2
    have hadd : Event.adds p (.added p timeout) = true := decide_eq_true rfl
    have hfree : ¬ Event.frees p (.added p timeout) = true := Bool.false_ne_true
    rw [List.countP_append, List.countP_append, List.countP_cons_of_pos hadd,
      List.countP_cons_of_neg hfree] at hall
    omega
  refine ticksLeft_rearmed hcur ?_
  rw [hpay, effects_append]
  change effects _ (effect _ _ (.added p timeout)) after p = _
  rw [effects_of_notMem hnot, effect, Function.update_self]

/-- A timer that a callback adds is not fired before its ticks are over, and then it is. -/
theorem Rep.fired_iff_rearmTicks (h : Rep w L) {cb cb' : Callbacks} {fuel fuel' : ℕ}
    {w₁ w₂ w₃ : TimeWheel} {before after : List (Event Ptr ℤ)}
    (htick : TimeWheel.tick cb.cbFunc fuel w [] =
      some (w₁, before ++ .added p timeout :: after))
    (hafter : .deleted p ∉ after) (hrun : Run w₁ n history w₂) (hhistory : .deleted p ∉ history)
    (htick' : TimeWheel.tick cb'.cbFunc fuel' w₂ [] = some (w₃, events))
    (hevents : .deleted p ∉ events) (hn : n < rearmTicks timeout) :
    .fired p ∈ events ↔ n + 1 = rearmTicks timeout := by
  obtain ⟨L₁, h₁, -⟩ := h.of_tick htick
  have hleft := h₁.ticksLeft_of_run hrun (h.ticksLeft_of_added htick hafter) hhistory hn
  obtain ⟨⟨L₂, h₂⟩, -⟩ := h₁.of_run hrun
  rw [(h₂.ticksLeft_of_tick htick' hleft hevents).1]
  omega

/-- **A timer that a callback adds is fired in time exactly if its ticks are not a multiple of
`N`.** A callback of a tick adds the timer with the timeout `t`. Between this tick and the
`max(t, 1)`-th after it there are any calls and ticks, and the timer is not deleted. -/
theorem rearmed_fired_iff (h : Rep w L) {cb cb' : Callbacks} {fuel fuel' : ℕ}
    {w₁ w₂ w₃ : TimeWheel} {before after : List (Event Ptr ℤ)}
    (htick : TimeWheel.tick cb.cbFunc fuel w [] =
      some (w₁, before ++ .added p timeout :: after))
    (hafter : .deleted p ∉ after) (hrun : Run w₁ n history w₂) (hhistory : .deleted p ∉ history)
    (hn : (n : ℤ) + 1 = max timeout 1)
    (htick' : TimeWheel.tick cb'.cbFunc fuel' w₂ [] = some (w₃, events))
    (hevents : .deleted p ∉ events) :
    .fired p ∈ events ↔ ¬ (N : ℤ) ∣ max timeout 1 := by
  have hticks : n + 1 = ticksOf timeout := by
    have := ticksOf_eq timeout
    omega
  have hlt : n < rearmTicks timeout := by
    rw [rearmTicks]
    split <;> omega
  rw [h.fired_iff_rearmTicks htick hafter hrun hhistory htick' hevents hlt, ← ticksOf_eq,
    Int.natCast_dvd_natCast, Nat.dvd_iff_mod_eq_zero, rearmTicks]
  by_cases hm : ticksOf timeout % N = 0
  · have := N_pos
    rw [if_pos hm]
    exact iff_of_false (by omega) (not_not_intro hm)
  · rw [if_neg hm]
    exact iff_of_true hticks hm

/-! ### Re-armed timers -/

/-- The callbacks delete nothing. -/
def Callbacks.Sparing (cb : Callbacks) : Prop :=
  ∀ tmp w p, .deleted p ∉ scriptEvents (cb.script tmp w)

/-- Ticks may go on for ever, and delete nothing if their callbacks do not. Induction on their
number. -/
theorem Rep.exists_ticks (h : Rep w L) {cb : Callbacks} (hcb : cb.Sparing) (n : ℕ) :
    ∃ w' history, Run w n history w' ∧ ∀ p, .deleted p ∉ history := by
  induction n with
  | zero => exact ⟨w, [], .refl, fun _ => List.not_mem_nil⟩
  | succ n ih =>
      obtain ⟨u, history, hrun, hdel⟩ := ih
      obtain ⟨⟨L₁, h₁⟩, -⟩ := h.of_run hrun
      obtain ⟨w', -, events, htick, -, -, hwalk, -⟩ := h₁.tickCallbacks cb (Nat.le_refl _)
      refine ⟨w', history ++ events, .tick cb hrun htick, fun p => ?_⟩
      rw [List.mem_append, not_or]
      refine ⟨hdel p, fun hmem => ?_⟩
      obtain ⟨q, v, hscript⟩ := hwalk.exists_script hmem
      exact hcb q v p hscript

/-- The callback of the timer 1 adds the timer 2 with the timeout, if the address is free. -/
def addsTwo (timeout : ℤ) : Callbacks where
  script := fun tmp w => if tmp = 1 ∧ w.heap 2 = none then [.addTimer timeout 2] else []
  permitted := by
    intro tmp w
    split
    · rename_i h
      exact ⟨h.2, fun _ _ => trivial⟩
    · trivial

/-- The callback that adds the timer 2 deletes nothing. -/
theorem sparing_addsTwo (timeout : ℤ) : (addsTwo timeout).Sparing := by
  intro tmp w p
  simp only [addsTwo]
  split
  · simp only [scriptEvents, List.flatMap_singleton, Call.events]
    split <;> simp
  · exact List.not_mem_nil

/-- A run in which a callback adds the timer 2 with the timeout 60, and the tick that is the
`n + 1`-st after that. -/
theorem exists_rearmed (n : ℕ) :
    ∃ w w₁ w₂ w₃ history₀ history events, Run new 1 history₀ w ∧
      TimeWheel.tick (addsTwo 60).cbFunc 9 w [] =
        some (w₁, [.fired 1] ++ .added 2 60 :: []) ∧
      Run w₁ n history w₂ ∧ .deleted 2 ∉ history ∧
      (∃ fuel, TimeWheel.tick (addsTwo 60).cbFunc fuel w₂ [] = some (w₃, events)) ∧
      .deleted 2 ∉ events := by
  obtain ⟨w, history₀, w₁, hrun₀, htick⟩ : ∃ w history₀ w₁, Run new 1 history₀ w ∧
      TimeWheel.tick (addsTwo 60).cbFunc 9 w [] =
        some (w₁, [.fired 1] ++ .added 2 60 :: []) :=
    ⟨_, _, _, .tick (addsTwo 60) (.call (.addTimer 0 1) .refl rfl rfl)
      (show TimeWheel.tick _ 9 _ _ = _ from rfl), rfl⟩
  obtain ⟨⟨L, h⟩, -⟩ := rep_new.of_run hrun₀
  obtain ⟨L₁, h₁, -⟩ := h.of_tick htick
  obtain ⟨w₂, history, hrun, hdel⟩ := h₁.exists_ticks (sparing_addsTwo 60) n
  obtain ⟨⟨L₂, h₂⟩, -⟩ := h₁.of_run hrun
  obtain ⟨w₃, -, events, htick₃, -, -, hwalk, -⟩ :=
    h₂.tickCallbacks (addsTwo 60) (Nat.le_refl _)
  refine ⟨w, w₁, w₂, w₃, history₀, history, events, hrun₀, htick, hrun, hdel 2, ⟨_, htick₃⟩,
    fun hmem => ?_⟩
  obtain ⟨q, v, hscript⟩ := hwalk.exists_script hmem
  exact sparing_addsTwo 60 q v 2 hscript

/-- A timer is added with the timeout 60 in a callback, and 60 ticks later it is not fired. -/
theorem rearmed_not_fired :
    ∃ w w₁ w₂ w₃ history₀ history events, Run new 1 history₀ w ∧
      TimeWheel.tick (addsTwo 60).cbFunc 9 w [] =
        some (w₁, [.fired 1] ++ .added 2 60 :: []) ∧
      Run w₁ 59 history w₂ ∧ .deleted 2 ∉ history ∧
      (∃ fuel, TimeWheel.tick (addsTwo 60).cbFunc fuel w₂ [] = some (w₃, events)) ∧
      .deleted 2 ∉ events ∧ .fired 2 ∉ events := by
  obtain ⟨w, w₁, w₂, w₃, history₀, history, events, hrun₀, htick, hrun, hdel, ⟨fuel, htick₃⟩,
    hdel₃⟩ := exists_rearmed 59
  refine ⟨w, w₁, w₂, w₃, history₀, history, events, hrun₀, htick, hrun, hdel, ⟨fuel, htick₃⟩,
    hdel₃, ?_⟩
  obtain ⟨⟨L, h⟩, -⟩ := rep_new.of_run hrun₀
  have hlate : rearmTicks 60 = 120 := rfl
  rw [h.fired_iff_rearmTicks htick List.not_mem_nil hrun hdel htick₃ hdel₃ (by omega), hlate]
  omega

/-- In the same run the condition is not met. -/
theorem rearmed_fired_iff_example :
    ∃ w w₁ w₂ w₃ history₀ history events, Run new 1 history₀ w ∧
      TimeWheel.tick (addsTwo 60).cbFunc 9 w [] =
        some (w₁, [.fired 1] ++ .added 2 60 :: []) ∧
      Run w₁ 59 history w₂ ∧
      (∃ fuel, TimeWheel.tick (addsTwo 60).cbFunc fuel w₂ [] = some (w₃, events)) ∧
      (.fired 2 ∈ events ↔ ¬ (N : ℤ) ∣ max 60 1) := by
  obtain ⟨w, w₁, w₂, w₃, history₀, history, events, hrun₀, htick, hrun, hdel, ⟨fuel, htick₃⟩,
    hdel₃⟩ := exists_rearmed 59
  refine ⟨w, w₁, w₂, w₃, history₀, history, events, hrun₀, htick, hrun, ⟨fuel, htick₃⟩, ?_⟩
  obtain ⟨⟨L, h⟩, -⟩ := rep_new.of_run hrun₀
  exact rearmed_fired_iff h htick List.not_mem_nil hrun hdel rfl htick₃ hdel₃

end LinuxNetwork.TimeWheel

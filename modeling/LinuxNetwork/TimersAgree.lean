import LinuxNetwork.SortTimerListQueue
import LinuxNetwork.TimeWheelCountdown

/-!
# The Time Wheel and the Sorted Timer List Agree

The repository has two timer facilities. The wheel of `time_wheel.h` is told a timeout and counts
ticks; the list of `cpt_11_2_1.h` is told an absolute expiry and reads the clock at every tick.
Here both are driven by the same calls: the clock shows `now` and advances by one with every tick,
and a timer with the timeout `t` gets the expiry `now + max(t, 1)` on the list.

Both sides are known to follow a table of their own. The two tables say the same: a timer that has
`r` ticks left on the wheel is the entry of the list that expires at `now + r - 1`.

## Main results

* `SameDue.step`: one call keeps the two tables in step, and they fire the same timers.
* `wheel_agrees_with_list`: every admissible sequence of calls has the same effect on both.
-/

open StableQueue Transition

namespace LinuxNetwork.TimersAgree

open SortTimerList (Entry Follows due pending place refStep removeTimer timers)
open TimeWheel (Admissible Counts Matches ticksOf)

variable {U : Type}

/-- The call on the list that corresponds to a call on the wheel at the clock value `now`. -/
def onList (data : Ptr → U) (now : ℤ) : TimeWheel.Op → SortTimerList.Op U
  | .addTimer timeout p => .addTimer p (now + max timeout 1) (data p)
  | .delTimer p => .delTimer p
  | .tick => .tick now

/-- The clock behind a call. -/
def clockAfter (now : ℤ) : TimeWheel.Op → ℤ
  | .tick => now + 1
  | _ => now

/-- The calls on the list that correspond to a sequence of calls on the wheel. -/
def onListAll (data : Ptr → U) : ℤ → List TimeWheel.Op → List (SortTimerList.Op U)
  | _, [] => []
  | now, op :: ops => onList data now op :: onListAll data (clockAfter now op) ops

@[simp] theorem length_onListAll (data : Ptr → U) (now : ℤ) (ops : List TimeWheel.Op) :
    (onListAll data now ops).length = ops.length := by
  induction ops generalizing now with
  | nil => rfl
  | cons op ops ih => simp [onListAll, ih]

/-! ### The two tables -/

/-- **The relation between the tables**: the timer that has `r` ticks left expires at
`now + r - 1`, and no entry has expired before `now`. -/
structure SameDue (now : ℤ) (T : Countdown.Table Ptr) (es : List (Entry U)) : Prop where
  iff : ∀ p r, (p, r) ∈ T ↔ ∃ e ∈ es, e.timer = p ∧ e.expire + 1 = now + r
  live : ∀ e ∈ es, now ≤ e.expire

theorem sameDue_nil (now : ℤ) : SameDue now [] ([] : List (Entry U)) where
  iff := by simp
  live := by simp

variable {now : ℤ} {T T' : Countdown.Table Ptr} {es : List (Entry U)} {p : Ptr}

/-- The same timers are outstanding in the table and in the reference. -/
theorem SameDue.mem_keys_iff (h : SameDue now T es) : p ∈ T.map Prod.fst ↔ p ∈ timers es := by
  simp only [List.mem_map, Prod.exists, exists_and_right, exists_eq_right, h.iff, timers]
  constructor
  · rintro ⟨r, e, he, rfl, -⟩
    exact ⟨e, he, rfl⟩
  · rintro ⟨e, he, rfl⟩
    have := h.live e he
    exact ⟨(e.expire + 1 - now).toNat, e, he, rfl, by omega⟩

/-- The entries of the reference after an insertion are the new one and the old ones. -/
theorem mem_place_iff {e f : Entry U} : f ∈ place e es ↔ f = e ∨ f ∈ es := by
  simp only [place, List.mem_append, List.mem_cons, List.mem_filter, decide_eq_true_eq]
  rcases le_or_gt f.expire e.expire with hle | hlt
  · simp [hle, not_lt.mpr hle, or_comm]
  · simp [hlt, not_le.mpr hlt]

/-- A started timer has one tick more left than its timeout says, and expires that many units
behind the clock. -/
theorem SameDue.start (h : SameDue now T es) (timeout : ℤ) (u : U) :
    SameDue now ((p, ticksOf timeout + 1) :: T) (place ⟨p, now + max timeout 1, u⟩ es) := by
  have hticks := TimeWheel.ticksOf_eq timeout
  refine ⟨fun q r => ?_, fun e he => ?_⟩
  · simp only [List.mem_cons, Prod.mk.injEq, h.iff, mem_place_iff]
    constructor
    · rintro (⟨rfl, rfl⟩ | ⟨e, he, rfl, heq⟩)
      · exact ⟨_, Or.inl rfl, rfl, by push_cast; omega⟩
      · exact ⟨e, Or.inr he, rfl, heq⟩
    · rintro ⟨e, rfl | he, rfl, heq⟩
      · exact Or.inl ⟨rfl, by simp only at heq; omega⟩
      · exact Or.inr ⟨e, he, rfl, heq⟩
  · rcases mem_place_iff.mp he with rfl | he
    · simp only
      omega
    · exact h.live e he

/-- A stopped timer leaves the table and the reference. -/
theorem SameDue.stop (h : SameDue now T es) (p : Ptr) :
    SameDue now (T.filter (·.1 ≠ p)) (removeTimer p es) := by
  refine ⟨fun q r => ?_, fun e he => h.live e (List.mem_of_mem_filter he)⟩
  simp only [List.mem_filter, decide_eq_true_eq, h.iff, removeTimer]
  constructor
  · rintro ⟨⟨e, he, rfl, heq⟩, hne⟩
    exact ⟨e, ⟨he, hne⟩, rfl, heq⟩
  · rintro ⟨e, ⟨he, hne⟩, rfl, heq⟩
    exact ⟨⟨e, he, rfl, heq⟩, hne⟩

/-- The timers that a tick leaves have one tick less left, and the clock is one unit further. -/
theorem SameDue.tick (h : SameDue now T es) :
    SameDue (now + 1) ((T.filter (·.2 ≠ 1)).map fun e => (e.1, e.2 - 1)) (pending now es) := by
  refine ⟨fun q r => ?_, fun e he => ?_⟩
  · simp only [List.mem_map, List.mem_filter, decide_eq_true_eq, Prod.mk.injEq, Prod.exists,
      h.iff, pending]
    constructor
    · rintro ⟨_, r', ⟨⟨e, he, rfl, heq⟩, hne⟩, rfl, rfl⟩
      have := h.live e he
      exact ⟨e, ⟨he, by omega⟩, rfl, by omega⟩
    · rintro ⟨e, ⟨he, hlt⟩, rfl, heq⟩
      exact ⟨e.timer, r + 1, ⟨⟨e, he, rfl, by push_cast; omega⟩, by omega⟩, rfl, rfl⟩
  · have := (List.mem_filter.mp he).2
    simp only [decide_eq_true_eq] at this
    omega

/-- The timers that a tick fires are those with one tick left, and those that expire by now. -/
theorem SameDue.fired_perm (h : SameDue now T es) (hT : Countdown.Wf T)
    (hes : (timers es).Nodup) :
    ((T.filter (·.2 = 1)).map Prod.fst).Perm (timers (due now es)) := by
  refine (List.perm_ext_iff_of_nodup (hT.keys.sublist (List.filter_sublist.map _))
    (hes.sublist (List.filter_sublist.map _))).mpr fun q => ?_
  simp only [List.mem_map, List.mem_filter, decide_eq_true_eq, Prod.exists, exists_and_right,
    exists_eq_right, h.iff]
  constructor
  · rintro ⟨e, he, rfl, heq⟩
    exact ⟨e, ⟨he, by omega⟩, rfl⟩
  · rintro ⟨e, ⟨he, hle⟩, rfl⟩
    have := h.live e he
    exact ⟨e, he, rfl, by omega⟩

/-- **One call keeps the tables in step**: what the countdown table allows the list's reference
allows as well, and both fire the same timers. -/
theorem SameDue.step (h : SameDue now T es) (hT : Countdown.Wf T) (hes : (timers es).Nodup)
    (data : Ptr → U) {op : TimeWheel.Op} {fired : List Ptr}
    (hstep : Countdown.step T op.spec = some (T', fired)) :
    ∃ es' fired', refStep es (onList data now op) = some (es', fired') ∧
      fired.Perm fired' ∧ SameDue (clockAfter now op) T' es' := by
  cases op with
  | addTimer timeout p =>
      simp only [TimeWheel.Op.spec, Countdown.step, Option.ite_none_left_eq_some, not_or,
        Option.some.injEq, Prod.mk.injEq] at hstep
      obtain ⟨⟨hp, -⟩, rfl, rfl⟩ := hstep
      exact ⟨_, _, if_pos fun hm => hp (h.mem_keys_iff.mpr hm), .refl _, h.start timeout _⟩
  | delTimer p =>
      simp only [TimeWheel.Op.spec, Countdown.step, Option.ite_none_right_eq_some,
        Option.some.injEq, Prod.mk.injEq] at hstep
      obtain ⟨hp, rfl, rfl⟩ := hstep
      exact ⟨_, _, if_pos (h.mem_keys_iff.mp hp), .refl _, h.stop p⟩
  | tick =>
      simp only [TimeWheel.Op.spec, Countdown.step, Option.some.injEq, Prod.mk.injEq] at hstep
      obtain ⟨rfl, rfl⟩ := hstep
      exact ⟨_, _, if_pos trivial, h.fired_perm hT hes, h.tick⟩

/-- **A sequence of calls** keeps the tables in step. Induction on the sequence. -/
theorem SameDue.run (data : Ptr → U) {ops : List TimeWheel.Op} {fired : List (List Ptr)}
    {fs : List (Entry U)} (h : SameDue now T es) (hT : Countdown.Wf T)
    (hes : StableSort Entry.expire es fs) (hnodup : (timers es).Nodup)
    (hrun : Countdown.run T (ops.map TimeWheel.Op.spec) = some (T', fired)) :
    ∃ es' fired' now', runCalls refStep es (onListAll data now ops) = some (es', fired') ∧
      List.Forall₂ List.Perm fired fired' ∧ SameDue now' T' es' := by
  induction ops generalizing now T es fs fired with
  | nil =>
      obtain ⟨rfl, rfl⟩ := Prod.mk.injEq .. ▸ Option.some.inj hrun
      exact ⟨es, [], now, rfl, .nil, h⟩
  | cons op ops ih =>
      rw [List.map_cons] at hrun
      obtain ⟨T₁, out, outs, hstep, hrest, rfl⟩ := runCalls_cons_eq_some.mp hrun
      obtain ⟨es₁, out', hstep', hperm, h₁⟩ := h.step hT hnodup data hstep
      have hone : runCalls refStep es [onList data now op] = some (es₁, [out']) :=
        runCalls_cons_eq_some.mpr ⟨es₁, out', [], hstep', rfl, rfl⟩
      obtain ⟨hes₁, hnodup₁⟩ := SortTimerList.stableSort_of_runCalls hes hnodup hone
      obtain ⟨es', outs', now', hrun', hall, h'⟩ := ih h₁ (hT.step hstep) hes₁ hnodup₁ hrest
      exact ⟨es', out' :: outs', now',
        runCalls_cons_eq_some.mpr ⟨es₁, out', outs', hstep', hrun', rfl⟩, .cons hperm hall, h'⟩

/-! ### The two facilities -/

/-- In which order a tick of the wheel fires does not matter. -/
theorem matches_of_perm {out : TimeWheel.Out} {fired fired' : List Ptr}
    (h : Matches out fired) (hperm : fired.Perm fired') : Matches out fired' := by
  cases out with
  | added timer =>
      obtain rfl : fired = [] := h
      exact List.nil_perm.mp hperm
  | deleted =>
      obtain rfl : fired = [] := h
      exact List.nil_perm.mp hperm
  | fired timers => exact List.Perm.trans h hperm

/-- **The two facilities agree.** Every admissible sequence of calls on the wheel succeeds on both,
from whatever clock value and with whatever user data: every tick fires the same timers on the
wheel and on the list, in some order, and the same timers are allocated in the end. -/
theorem wheel_agrees_with_list {ops : List TimeWheel.Op} (hops : Admissible ops) {fuel : ℕ}
    (hfuel : ops.length ≤ fuel) (data : Ptr → U) (now : ℤ) :
    ∃ w outs l fired, runCalls (TimeWheel.exec fuel) TimeWheel.new ops = some (w, outs) ∧
      runCalls (SortTimerList.exec fuel) SortTimerList.new (onListAll data now ops) =
        some (l, fired) ∧
      List.Forall₂ Matches outs fired ∧ ∀ p, w.heap p ≠ none ↔ l.heap p ≠ none := by
  obtain ⟨T, specOuts, hspec⟩ := hops.run_spec
  obtain ⟨w, outs, hwheel, hcounts, hmatch⟩ := hops.follows hfuel hspec
  obtain ⟨es, fired, now', href, hperm, hsame⟩ := (sameDue_nil now).run data
    Countdown.wf_nil stableSort_nil List.nodup_nil hspec
  have hlen : (onListAll data now ops).length ≤ fuel := by simpa using hfuel
  obtain ⟨l, hlist, hfol⟩ := SortTimerList.follows_of_runCalls href hlen
  refine ⟨w, outs, l, fired, hwheel, hlist, ?_, fun p => ?_⟩
  · refine List.forall₂_iff_get.mpr ⟨hmatch.length_eq.trans hperm.length_eq, fun i h₁ h₂ => ?_⟩
    have hi : i < specOuts.length := hmatch.length_eq ▸ h₁
    exact matches_of_perm (hmatch.get h₁ hi) (hperm.get hi h₂)
  · rw [← hcounts.mem_keys_iff, hsame.mem_keys_iff, ← hfol.owned, Option.isSome_iff_ne_none]

/-- A full turn of timeout, two timers that fire in opposite orders, and one that is deleted. -/
theorem wheel_agrees_with_list_example :
    ∃ w outs l fired,
      runCalls (TimeWheel.exec 8) TimeWheel.new
          [.addTimer 60 1, .addTimer 1 2, .addTimer 0 3, .tick, .addTimer 0 4, .delTimer 1,
            .tick, .tick] = some (w, outs) ∧
      runCalls (SortTimerList.exec 8) SortTimerList.new
          (onListAll (fun _ => ()) 7 [.addTimer 60 1, .addTimer 1 2, .addTimer 0 3, .tick,
            .addTimer 0 4, .delTimer 1, .tick, .tick]) = some (l, fired) ∧
      List.Forall₂ Matches outs fired ∧ ∀ p, w.heap p ≠ none ↔ l.heap p ≠ none :=
  wheel_agrees_with_list (by decide) (by decide) (fun _ => ()) 7

end LinuxNetwork.TimersAgree

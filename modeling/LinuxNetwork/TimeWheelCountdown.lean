import Mathlib.Data.List.Perm.Basic
import LinuxNetwork.Countdown
import LinuxNetwork.TimeWheelLinks

/-!
# The Time Wheel Is a Countdown Table

A timer's due time is spread over its slot, its rotation and the cursor. `ticksLeft` puts
them together: the distance from the cursor to the slot, plus a full turn per rotation,
plus one. Adding a timer sets this number to the ticks of its timeout plus one, and a tick
lowers it by one for every timer but those at one, which it fires.

So the wheel simulates a countdown table, call by call, and every sequence of calls that
deletes outstanding timers only succeeds, with the timers of every tick firing exactly
when the history of calls says they are due.

## Main results

* `tickLoop_logFired`: what the walk over the current slot does to the wheel.
* `ticksLeft_addTimer`, `ticksLeft_delTimer`, `ticksLeft_tick`: the effect of each
  operation on the ticks left.
* `exec_simulates`, `Admissible.follows`: the wheel simulates the countdown table.
* `timeWheel_refines_countdown`: the refinement for sequences of calls.
-/

open DoublyLinked Transition

namespace LinuxNetwork.TimeWheel

variable {w w' : TimeWheel} {L : ℕ → List Ptr} {p : Ptr}

/-! ### The walk over the current slot -/

/-- The timer fires when the walk reaches it. -/
def due (w : TimeWheel) (p : Ptr) : Bool :=
  (payload w p).any fun d => decide (d.1 ≤ 0)

/-- The payload after the timers `l` have been visited: rotations are counted down and
fired timers are gone. -/
def visited (pay : Ptr → Option (ℤ × ℕ)) (l : List Ptr) : Ptr → Option (ℤ × ℕ) := fun q =>
  if q ∈ l then (pay q).bind fun d => if 0 < d.1 then some (d.1 - 1, d.2) else none
  else pay q

@[simp] theorem visited_nil (pay : Ptr → Option (ℤ × ℕ)) : visited pay [] = pay := by
  funext q
  simp [visited]

/-- Visiting a timer first and the others after it is visiting them all. -/
theorem visited_cons {pay : Ptr → Option (ℤ × ℕ)} {l : List Ptr} {o : Option (ℤ × ℕ)}
    (hp : p ∉ l) (ho : o = (pay p).bind fun d => if 0 < d.1 then some (d.1 - 1, d.2) else none) :
    visited (Function.update pay p o) l = visited pay (p :: l) := by
  funext q
  by_cases hqp : q = p
  · subst hqp
    simp [visited, hp, ho]
  · simp [visited, hqp]

/-- Whether a timer is due is unaffected by a change to another one. -/
theorem due_congr {l : List Ptr} {o : Option (ℤ × ℕ)} (hp : p ∉ l)
    (hpay : payload w' = Function.update (payload w) p o) : ∀ q ∈ l, due w' q = due w q := by
  intro q hq
  rw [due, hpay, Function.update_of_ne (ne_of_mem_of_not_mem hq hp), due]

/-- **A timer that stays** for another turn is counted down, and the walk goes on behind it. -/
theorem Rep.tickLoop_keep {done rest : List Ptr} {t : TwTimer} (h : Rep w L)
    (hL : L w.curSlot = done ++ p :: rest) (ht : w.heap p = some t) (hrot : 0 < t.rotation) :
    ∃ w₁, (∀ {W : Type} (cbFunc : Ptr → TimeWheel → W → Option (TimeWheel × W)) (fuel : ℕ) (o : W),
        tickLoop cbFunc (fuel + 1) (some p) w o = tickLoop cbFunc fuel rest.head? w₁ o) ∧
      Rep w₁ L ∧ w₁.curSlot = w.curSlot ∧
      payload w₁ = Function.update (payload w) p (some (t.rotation - 1, t.timeSlot)) := by
  obtain ⟨h₁, hpay₁⟩ := h.countDown ht hrot
  have hseg := h.chain _ h.cursor
  rw [hL] at hseg
  have hnext : t.next = rest.head? := (nextOf_eq ht).symm.trans hseg.next_eq
  refine ⟨_, fun cbFunc fuel o => ?_, h₁, rfl, hpay₁⟩
  simp [tickLoop, ht, hrot, Heap.store_eq ht, hnext]

/-- **The loop of `tick`**, for callbacks that leave the wheel alone: it fires the timers of
the rest of the slot whose rotation is used up, in list order, unlinks them, and counts
down the others. The induction is on the timers still to visit. -/
theorem tickLoop_logFired (rest : List Ptr) :
    ∀ (done log : List Ptr) {w : TimeWheel} {L : ℕ → List Ptr} {fuel : ℕ}, Rep w L →
      L w.curSlot = done ++ rest → rest.length ≤ fuel →
      ∃ w', tickLoop logFired fuel rest.head? w log =
          some (w', log ++ rest.filter fun q => due w q) ∧
        Rep w' (Function.update L w.curSlot (done ++ rest.filter fun q => !due w q)) ∧
        w'.curSlot = w.curSlot ∧ payload w' = visited (payload w) rest := by
  induction rest with
  | nil =>
      intro done log w L fuel h hL _
      refine ⟨w, by simp [tickLoop], ?_, rfl, (visited_nil _).symm⟩
      rw [List.filter_nil, ← hL, Function.update_eq_self]
      exact h
  | cons p rest ih =>
      intro done log w L fuel h hL hfuel
      obtain ⟨fuel, rfl⟩ : ∃ f, fuel = f + 1 := ⟨fuel - 1, by simp at hfuel; omega⟩
      have hfuel' : rest.length ≤ fuel := by simpa using hfuel
      have hcur := h.cursor
      have hp : p ∉ done ++ rest :=
        (List.nodup_middle.mp (hL ▸ h.nodup _ hcur)).notMem
      have hprest : p ∉ rest := fun hm => hp (by simp [hm])
      obtain ⟨r, hr⟩ := h.home _ hcur p (by simp [hL])
      obtain ⟨t, ht, rfl, -⟩ := exists_of_payload hr
      by_cases hrot : 0 < t.rotation
      · -- the timer stays for another turn
        obtain ⟨w₁, hstep, h₁, hcur₁, hpay₁⟩ := h.tickLoop_keep hL ht hrot
        have hdue : due w p = false := by simp [due, payload_eq ht, hrot]
        have hsame := due_congr hprest hpay₁
        have hfire := List.filter_congr hsame
        have hkeep := List.filter_congr fun q hq => congrArg not (hsame q hq)
        obtain ⟨w', hrun, hrep, hcur', hpay⟩ :=
          ih (done ++ [p]) log h₁ (by rw [hcur₁, hL, List.append_assoc]; rfl) hfuel'
        refine ⟨w', ?_, ?_, hcur'.trans hcur₁, ?_⟩
        · rw [hfire] at hrun
          rw [List.head?_cons, hstep, hrun, List.filter_cons_of_neg (by simp [hdue])]
        · rw [hkeep, hcur₁] at hrep
          simpa [hdue] using hrep
        · rw [hpay, hpay₁]
          exact visited_cons hprest (by simp [payload_eq ht, hrot])
      · -- the timer fires and is removed
        have hdue : due w p = true := by simpa [due, payload_eq ht] using hrot
        obtain ⟨w₁, hrem, h₁, hpay₁, hcur₁⟩ := h.removeFired hL
        have hsame := due_congr hprest hpay₁
        have hfire := List.filter_congr hsame
        have hkeep := List.filter_congr fun q hq => congrArg not (hsame q hq)
        obtain ⟨w', hrun, hrep, hcur', hpay⟩ :=
          ih done (log ++ [p]) h₁
            (by rw [hcur₁, Function.update_self]) hfuel'
        refine ⟨w', ?_, ?_, hcur'.trans hcur₁, ?_⟩
        · rw [hfire] at hrun
          simpa [tickLoop, ht, hrot, logFired, hrem, hdue] using hrun
        · rw [hkeep, hcur₁, Function.update_idem] at hrep
          simpa [hdue] using hrep
        · rw [hpay, hpay₁]
          exact visited_cons hprest (by simp [payload_eq ht, hrot])

/-- **`tick`**, for callbacks that leave the wheel alone: it fires the due timers of the current
slot, in list order, and moves the cursor. -/
theorem Rep.tick (h : Rep w L) {fuel : ℕ} (hfuel : (L w.curSlot).length ≤ fuel) :
    ∃ w', TimeWheel.tick logFired fuel w [] =
        some (w', (L w.curSlot).filter fun q => due w q) ∧
      (∃ L', Rep w' L') ∧ w'.curSlot = (w.curSlot + 1) % N ∧
      payload w' = visited (payload w) (L w.curSlot) := by
  obtain ⟨w', hrun, hrep, hcur, hpay⟩ :=
    tickLoop_logFired (L w.curSlot) [] [] h rfl hfuel
  refine ⟨{ w' with curSlot := (w'.curSlot + 1) % N }, ?_,
    ⟨_, { hrep with cursor := Nat.mod_lt _ N_pos }⟩, by rw [hcur], hpay⟩
  rw [← (h.chain _ h.cursor).head_eq] at hrun
  simp [TimeWheel.tick, hrun]

/-! ### The ticks left -/

/-- The number of ticks until the timer fires: **the distance from the cursor to its slot,
a full turn for every rotation, and the tick that fires it.** -/
def ticksLeft (w : TimeWheel) (p : Ptr) : Option ℕ :=
  (payload w p).map fun d => (d.2 + N - w.curSlot) % N + N * d.1.toNat + 1

/-- A timeout takes one tick at least, and as many as it says if these are more. -/
theorem ticksOf_eq (timeout : ℤ) : (ticksOf timeout : ℤ) = max timeout 1 := by
  simp only [ticksOf, SI, Nat.cast_one, Int.ediv_one]
  split <;> omega

/-- A new timer has the ticks of its timeout, and one more, left. -/
theorem ticksLeft_addTimer {timeout : ℤ} {addr : Ptr} (hcur : w.curSlot < N)
    (hcur' : w'.curSlot = w.curSlot)
    (hpay : payload w' = Function.update (payload w) addr
      (some (((ticksOf timeout / N : ℕ) : ℤ), slotOf w timeout))) :
    ticksLeft w' = Function.update (ticksLeft w) addr (some (ticksOf timeout + 1)) := by
  funext q
  by_cases hq : q = addr
  · subst hq
    have hcycle : ((w.curSlot + ticksOf timeout % N) % N + N - w.curSlot) % N +
        N * (ticksOf timeout / N) = ticksOf timeout := by
      simp only [N] at hcur ⊢
      omega
    simp only [ticksLeft, hpay, Function.update_self, Option.map_some, Int.toNat_natCast,
      slotOf, hcur', hcycle]
  · simp [ticksLeft, hpay, hcur', hq]

/-- A deleted timer has no ticks left, and the others have what they had. -/
theorem ticksLeft_delTimer (hcur' : w'.curSlot = w.curSlot)
    (hpay : payload w' = Function.update (payload w) p none) :
    ticksLeft w' = Function.update (ticksLeft w) p none := by
  funext q
  by_cases hq : q = p
  · subst hq; simp [ticksLeft, hpay]
  · simp [ticksLeft, hpay, hcur', hq]

/-- **The measure.** A tick lowers the ticks left of a timer that it visits, or leaves alone, by
one; the timers it fires are those with one tick left. -/
theorem ticksLeft_tick (h : Rep w L) (hcur' : w'.curSlot = (w.curSlot + 1) % N) {q : Ptr}
    (hpay : payload w' q = visited (payload w) (L w.curSlot) q) :
    ticksLeft w' q = (ticksLeft w q).bind fun r => if r = 1 then none else some (r - 1) := by
  have hcur := h.cursor
  cases hq : payload w q with
  | none =>
      have : payload w' q = none := by rw [hpay]; simp [visited, hq]
      simp [ticksLeft, this, hq]
  | some d =>
      obtain ⟨r, s⟩ := d
      obtain ⟨hs, hr, hmem⟩ := h.owned q r s hq
      by_cases hsc : s = w.curSlot
      · subst hsc
        by_cases hr0 : 0 < r
        · have hw' : payload w' q = some (r - 1, w.curSlot) := by
            rw [hpay]; simp [visited, hmem, hq, hr0]
          simp only [ticksLeft, hw', hq, hcur', Option.map_some, Option.bind_some]
          have hne : (w.curSlot + N - w.curSlot) % N + N * r.toNat + 1 ≠ 1 := by
            simp only [N]
            omega
          rw [if_neg hne, Option.some.injEq]
          simp only [N] at hcur ⊢
          omega
        · obtain rfl : r = 0 := by omega
          have hw' : payload w' q = none := by
            rw [hpay]; simp [visited, hmem, hq]
          simp [ticksLeft, hw', hq]
      · have hnot : q ∉ L w.curSlot := fun hm => hsc (h.slot_unique hs hcur hmem hm)
        have hw' : payload w' q = some (r, s) := by
          rw [hpay]; simp [visited, hnot, hq]
        simp only [ticksLeft, hw', hq, hcur', Option.map_some, Option.bind_some]
        have hne : (s + N - w.curSlot) % N + N * r.toNat + 1 ≠ 1 := by
          simp only [N] at hcur hs ⊢
          omega
        rw [if_neg hne, Option.some.injEq]
        simp only [N] at hcur hs ⊢
        omega

/-- The walk fires exactly the timers with one tick left. They are in the current slot, with
rotation 0. -/
theorem mem_filter_due_iff (h : Rep w L) :
    p ∈ (L w.curSlot).filter (fun q => due w q) ↔ ticksLeft w p = some 1 := by
  have hcur := h.cursor
  rw [List.mem_filter]
  constructor
  · rintro ⟨hmem, hdue⟩
    obtain ⟨r, hr⟩ := h.home _ hcur p hmem
    have hr0 : r ≤ 0 := by simpa [due, hr] using hdue
    obtain rfl : r = 0 := by have := (h.owned p r _ hr).2.1; omega
    simp [ticksLeft, hr]
  · intro hone
    obtain ⟨⟨r, s⟩, hr, hval⟩ := Option.map_eq_some_iff.mp hone
    obtain ⟨hs, hr0, hmem⟩ := h.owned p r s hr
    have hzero : s = w.curSlot ∧ r = 0 := by
      simp only [N] at hval hs hcur
      omega
    obtain ⟨rfl, rfl⟩ := hzero
    exact ⟨hmem, by simp [due, hr]⟩

/-! ### The simulation -/

/-- The countdown call a call on the wheel stands for: `max(t, 1) + 1` ticks for a timeout
`t`. -/
def Op.spec : Op → Countdown.Op Ptr
  | .addTimer timeout addr => .start addr (ticksOf timeout + 1)
  | .delTimer timer => .stop timer
  | .tick => .tick

/-- The wheel is well linked and its timers have the ticks left that the table says. -/
structure Counts (w : TimeWheel) (T : Countdown.Table Ptr) : Prop where
  linked : ∃ L, Rep w L
  wf : Countdown.Wf T
  left : ∀ p r, (p, r) ∈ T ↔ ticksLeft w p = some r

/-- What a call returns corresponds to what the table returns: `tick` fires the same timers,
in some order. -/
def Matches : Out → List Ptr → Prop
  | .added _, fired => fired = []
  | .deleted, fired => fired = []
  | .fired timers, fired => timers.Perm fired

/-- A new wheel counts nothing down, and no timer is allocated. -/
theorem counts_new : Counts new [] where
  linked := ⟨_, rep_new⟩
  wf := Countdown.wf_nil
  left := fun p r => by simp [ticksLeft, payload, Heap.view, new]

variable {T T' : Countdown.Table Ptr} {fired : List Ptr} {fuel : ℕ}

/-- A timer runs in the table exactly if it is allocated on the wheel. -/
theorem Counts.mem_keys_iff (h : Counts w T) : p ∈ T.map Prod.fst ↔ w.heap p ≠ none := by
  rw [Ne, ← payload_eq_none]
  simp only [List.mem_map, Prod.exists, exists_and_right, exists_eq_right, h.left, ticksLeft]
  cases payload w p <;> simp

/-- The list of a slot is no longer than the table, in which its timers run as well. -/
theorem Counts.length_le (h : Counts w T) (hL : Rep w L) :
    (L w.curSlot).length ≤ T.length := by
  rw [← List.length_map (f := Prod.fst)]
  refine (List.subperm_of_subset (hL.nodup _ hL.cursor) fun q hq => ?_).length_le
  obtain ⟨t, ht⟩ := hL.allocated hL.cursor q hq
  exact h.mem_keys_iff.mpr (by rw [ht]; exact Option.some_ne_none t)

/-- **The simulation.** Every call the countdown table allows succeeds on the wheel. The
table's size bounds the fuel the walk over a slot needs. -/
theorem exec_simulates (op : Op) (hneg : ∀ t a, op = .addTimer t a → 0 ≤ t)
    (h : Counts w T) (hfuel : T.length ≤ fuel)
    (hspec : Countdown.step T op.spec = some (T', fired)) :
    ∃ w' out, exec fuel w op = some (w', out) ∧ Counts w' T' ∧ Matches out fired := by
  have hwf := h.wf.step hspec
  obtain ⟨L, hL⟩ := h.linked
  cases op with
  | addTimer timeout addr =>
      simp only [Op.spec, Countdown.step, Option.ite_none_left_eq_some, not_or,
        Option.some.injEq, Prod.mk.injEq] at hspec
      obtain ⟨⟨haddr, -⟩, rfl, rfl⟩ := hspec
      have hfree : w.heap addr = none := by
        by_contra hne
        exact haddr (h.mem_keys_iff.mpr hne)
      obtain ⟨w', hrun, hrep, hpay, hcur⟩ := hL.addTimer (hneg timeout addr rfl) hfree
      refine ⟨w', .added (some addr), by simp [exec, hrun], ⟨⟨_, hrep⟩, hwf, ?_⟩, rfl⟩
      intro p r
      rw [ticksLeft_addTimer hL.cursor hcur hpay, List.mem_cons, Prod.mk.injEq]
      by_cases hp : p = addr
      · subst hp
        have hnot : ¬ (p, r) ∈ T := fun hm => haddr (List.mem_map_of_mem (f := Prod.fst) hm)
        simp [hnot, eq_comm]
      · simp [hp, h.left]
  | delTimer timer =>
      simp only [Op.spec, Countdown.step, Option.ite_none_right_eq_some,
        Option.some.injEq, Prod.mk.injEq] at hspec
      obtain ⟨hmem, rfl, rfl⟩ := hspec
      obtain ⟨t, ht⟩ := Option.ne_none_iff_exists'.mp (h.mem_keys_iff.mp hmem)
      obtain ⟨-, -, hin⟩ := hL.owned _ _ _ (payload_eq ht)
      obtain ⟨l₁, l₂, hsplit⟩ := List.append_of_mem hin
      obtain ⟨w', hrun, hrep, hpay, hcur, -⟩ := hL.delTimer ht hsplit
      refine ⟨w', .deleted, by simp [exec, hrun], ⟨⟨_, hrep⟩, hwf, ?_⟩, rfl⟩
      intro p r
      rw [ticksLeft_delTimer hcur hpay, List.mem_filter]
      by_cases hp : p = timer
      · subst hp; simp
      · simp [hp, h.left]
  | tick =>
      simp only [Op.spec, Countdown.step, Option.some.injEq, Prod.mk.injEq] at hspec
      obtain ⟨rfl, rfl⟩ := hspec
      obtain ⟨w', hrun, hrep, hcur, hpay⟩ :=
        hL.tick (Nat.le_trans (h.length_le hL) hfuel)
      have hleft := fun q => ticksLeft_tick hL hcur (congrFun hpay q)
      refine ⟨w', .fired _, by simp only [exec, hrun]; rfl, ⟨hrep, hwf, ?_⟩, ?_⟩
      · intro p r
        simp only [List.mem_map, List.mem_filter, decide_eq_true_eq, Prod.mk.injEq,
          Prod.exists, h.left, hleft, Option.bind_eq_some_iff,
          Option.ite_none_left_eq_some, Option.some.injEq]
        constructor
        · rintro ⟨q, r', ⟨hr', hne⟩, rfl, rfl⟩
          exact ⟨r', hr', hne, rfl⟩
        · rintro ⟨r', hr', hne, rfl⟩
          exact ⟨p, r', ⟨hr', hne⟩, rfl, rfl⟩
      · refine (List.perm_ext_iff_of_nodup ((hL.nodup _ hL.cursor).filter _)
          (h.wf.keys.sublist (List.filter_sublist.map _))).mpr fun q => ?_
        rw [mem_filter_due_iff hL, ← h.left]
        simp

/-! ### Histories of calls -/

/-- In the history `before`, the timer at `p` was added with timeout `t`, has not been
deleted since, and `c` ticks have begun since. -/
def Added (before : List Op) (p : Ptr) (t : ℤ) (c : ℕ) : Prop :=
  ∃ pre post, before = pre ++ .addTimer t p :: post ∧ .delTimer p ∉ post ∧
    post.count .tick = c

/-- The timer at `p` is outstanding: added, not deleted, and not fired yet. -/
def Outstanding (before : List Op) (p : Ptr) : Prop :=
  ∃ t c, Added before p t c ∧ (c : ℤ) ≤ max t 1

/-- A tick begun now is the `(max(t, 1) + 1)`-th since the timer at `p` was added with
timeout `t`, and the timer has not been deleted. -/
def DueNow (before : List Op) (p : Ptr) : Prop :=
  ∃ t c, Added before p t c ∧ (c : ℤ) = max t 1

/-- The calls a user may make: timeouts are nonnegative, `new` returns an address that no
outstanding timer has, and only outstanding timers are deleted. -/
def Admissible (ops : List Op) : Prop :=
  ∀ before op after, ops = before ++ op :: after →
    match op with
    | .addTimer t p => 0 ≤ t ∧ ¬ Outstanding before p
    | .delTimer p => Outstanding before p
    | .tick => True

/-- A timer is stopped in the table where it is deleted on the wheel. -/
theorem stop_mem_map_spec {post : List Op} :
    .stop p ∈ post.map Op.spec ↔ .delTimer p ∈ post := by
  rw [List.mem_map]
  constructor
  · rintro ⟨op, hmem, hop⟩
    cases op with
    | addTimer => cases hop
    | delTimer q =>
        obtain rfl : q = p := by injection hop
        exact hmem
    | tick => cases hop
  · exact fun hmem => ⟨_, hmem, rfl⟩

/-- The table ticks as often as the wheel. -/
theorem count_tick_map_spec (post : List Op) :
    (post.map Op.spec).count .tick = post.count .tick := by
  induction post with
  | nil => rfl
  | cons op post ih => cases op <;> simp [Op.spec, ih]

/-- Histories of calls and of countdown calls say the same: a timer is started with one tick
more than its timeout has. -/
theorem started_map_spec {before : List Op} {d c : ℕ} :
    Countdown.Started (before.map Op.spec) p d c ↔
      ∃ t, Added before p t c ∧ (d : ℤ) = max t 1 + 1 := by
  constructor
  · rintro ⟨pre, post, heq, hstop, rfl⟩
    obtain ⟨pre, rest, rfl, rfl, hrest⟩ := List.map_eq_append_iff.mp heq
    obtain ⟨op, post, rfl, hop, rfl⟩ := List.map_eq_cons_iff.mp hrest
    cases op with
    | addTimer t q =>
        obtain ⟨rfl, rfl⟩ : q = p ∧ ticksOf t + 1 = d := by
          injection hop with h₁ h₂
          exact ⟨h₁, h₂⟩
        refine ⟨t, ⟨pre, post, rfl, ?_, (count_tick_map_spec post).symm⟩, ?_⟩
        · exact fun hm => hstop (stop_mem_map_spec.mpr hm)
        · rw [← ticksOf_eq t]
          rfl
    | delTimer => cases hop
    | tick => cases hop
  · rintro ⟨t, ⟨pre, post, rfl, hdel, rfl⟩, hd⟩
    obtain rfl : ticksOf t + 1 = d := by
      have := ticksOf_eq t
      omega
    refine ⟨pre.map Op.spec, post.map Op.spec, by simp [Op.spec], ?_,
      count_tick_map_spec post⟩
    exact fun hm => hdel (stop_mem_map_spec.mp hm)

/-- The running timers of the table are the outstanding ones of the history. -/
theorem mem_keys_iff_outstanding {before : List Op} {outs : List (List Ptr)}
    (hrun : Countdown.run [] (before.map Op.spec) = some (T, outs)) :
    p ∈ T.map Prod.fst ↔ Outstanding before p := by
  simp only [List.mem_map, Prod.exists, exists_and_right, exists_eq_right,
    Countdown.Table.mem_iff_history hrun, started_map_spec]
  constructor
  · rintro ⟨r, d, c, ⟨t, hadd, hd⟩, hlt, rfl⟩
    exact ⟨t, c, hadd, by omega⟩
  · rintro ⟨t, c, hadd, hle⟩
    exact ⟨_, (max t 1 + 1).toNat, c, ⟨t, hadd, by omega⟩, by omega, rfl⟩

/-- The countdown table accepts every admissible sequence of calls. Induction on the sequence
from behind. -/
theorem Admissible.run_spec {ops : List Op} (hops : Admissible ops) :
    ∃ T outs, Countdown.run [] (ops.map Op.spec) = some (T, outs) := by
  induction ops using List.reverseRecOn with
  | nil => exact ⟨[], [], rfl⟩
  | append_singleton ops op ih =>
      obtain ⟨T, outs, hrun⟩ := ih fun before op' after heq =>
        hops before op' (after ++ [op]) (by rw [heq]; simp)
      have hop := hops ops op [] rfl
      suffices h : ∃ T' fired, Countdown.step T op.spec = some (T', fired) by
        obtain ⟨T', fired, hstep⟩ := h
        refine ⟨T', outs ++ [fired], ?_⟩
        rw [List.map_append, List.map_singleton]
        exact Countdown.run_snoc_eq_some.mpr ⟨T, outs, fired, hrun, hstep, rfl⟩
      cases op with
      | addTimer t q =>
          have hq : q ∉ T.map Prod.fst := fun hm => hop.2 ((mem_keys_iff_outstanding hrun).mp hm)
          exact ⟨_, _, if_neg (not_or.mpr ⟨hq, Nat.succ_ne_zero _⟩)⟩
      | delTimer q => exact ⟨_, _, if_pos ((mem_keys_iff_outstanding hrun).mpr hop)⟩
      | tick => exact ⟨_, _, rfl⟩

/-- The admissible sequences are those the table accepts, so admissibility is decided by
running the table. -/
theorem admissible_iff {ops : List Op} :
    Admissible ops ↔ (∀ op ∈ ops, ∀ t a, op = .addTimer t a → 0 ≤ t) ∧
      (Countdown.run [] (ops.map Op.spec)).isSome = true := by
  constructor
  · intro hops
    refine ⟨?_, ?_⟩
    · rintro _ hop t a rfl
      obtain ⟨before, after, heq⟩ := List.append_of_mem hop
      exact (hops before _ after heq).1
    · obtain ⟨T, outs, hrun⟩ := hops.run_spec
      rw [hrun]
      rfl
  · rintro ⟨hneg, hsome⟩ before op after rfl
    obtain ⟨⟨T, outs⟩, hrun⟩ := Option.isSome_iff_exists.mp hsome
    obtain ⟨U, us, V, fired, hbefore, hstep, -⟩ :=
      getElem?_of_runCalls (show runCalls Countdown.step []
        (before.map Op.spec ++ op.spec :: after.map Op.spec) = _ by simpa using hrun)
    cases op with
    | addTimer t p =>
        simp only [Op.spec, Countdown.step, Option.ite_none_left_eq_some, not_or] at hstep
        exact ⟨hneg _ (by simp) t p rfl,
          fun ho => hstep.1.1 ((mem_keys_iff_outstanding hbefore).mpr ho)⟩
    | delTimer p =>
        simp only [Op.spec, Countdown.step, Option.ite_none_right_eq_some] at hstep
        exact (mem_keys_iff_outstanding hbefore).mp hstep.1
    | tick => trivial

/-- A decision procedure for the timeouts of a sequence of calls. -/
def Op.timeoutOk : Op → Bool
  | .addTimer t _ => decide (0 ≤ t)
  | _ => true

instance (ops : List Op) : Decidable (Admissible ops) :=
  decidable_of_iff (ops.all Op.timeoutOk = true ∧
      (Countdown.run [] (ops.map Op.spec)).isSome = true) (by
    rw [admissible_iff, List.all_eq_true]
    refine and_congr_left fun _ => forall₂_congr fun op _ => ?_
    cases op <;> simp [Op.timeoutOk])

/-- **The wheel follows the countdown table** through every admissible sequence of calls. The
timeouts are nonnegative, so the calls on wheel and table go hand in hand. -/
theorem Admissible.follows {ops : List Op} (hops : Admissible ops) (hfuel : ops.length ≤ fuel)
    {specOuts : List (List Ptr)}
    (hspec : Countdown.run [] (ops.map Op.spec) = some (T, specOuts)) :
    ∃ w outs, runCalls (exec fuel) new ops = some (w, outs) ∧ Counts w T ∧
      List.Forall₂ Matches outs specOuts := by
  rw [Countdown.run, runCalls_map] at hspec
  refine runCalls_simulates_of_mem (O := fun T => T.length ≤ fuel) ?_ counts_new hspec ?_
  · intro w T op T' fired hop hcounts hlen hstep
    refine exec_simulates op ?_ hcounts hlen hstep
    rintro t p rfl
    obtain ⟨before, after, heq⟩ := List.append_of_mem hop
    exact (hops before _ after heq).1
  · intro pre post T' outs heq hpre
    rw [← runCalls_map] at hpre
    have hlen := Countdown.length_le_of_run hpre
    simp only [List.length_map] at hlen
    simp only [heq, List.length_append] at hfuel
    omega

/-- **The time wheel refines a countdown table.** Every admissible sequence of calls
succeeds on the wheel, the wheel agrees with the countdown table after it, and each of its
ticks fires, once each, exactly the timers added with a timeout `t` whose
`(max(t, 1) + 1)`-th tick it is and that were not deleted. -/
theorem timeWheel_refines_countdown {ops : List Op} (hops : Admissible ops) {fuel : ℕ}
    (hfuel : ops.length ≤ fuel) :
    ∃ w outs T specOuts, runCalls (exec fuel) new ops = some (w, outs) ∧
      Countdown.run [] (ops.map Op.spec) = some (T, specOuts) ∧ Counts w T ∧
      List.Forall₂ Matches outs specOuts ∧
      ∀ before after, ops = before ++ .tick :: after →
        ∃ fired, outs[before.length]? = some (.fired fired) ∧ fired.Nodup ∧
          ∀ p, p ∈ fired ↔ DueNow before p := by
  obtain ⟨T, specOuts, hspec⟩ := hops.run_spec
  obtain ⟨w, outs, hrun, hcounts, hall⟩ := hops.follows hfuel hspec
  refine ⟨w, outs, T, specOuts, hrun, hspec, hcounts, hall, ?_⟩
  rintro before after rfl
  obtain ⟨U, us, V, fired, hbefore, hstep, hget⟩ :=
    getElem?_of_runCalls (show runCalls Countdown.step []
      (before.map Op.spec ++ .tick :: after.map Op.spec) = _ by simpa [Op.spec] using hspec)
  have hlen := hall.length_eq
  have hpos : before.length < outs.length := by
    rw [length_of_runCalls hrun]
    simp
  have hget' : specOuts[before.length]? = some fired := by simpa using hget
  have hmatch : Matches outs[before.length] fired := by
    have := hall.get hpos (hlen ▸ hpos)
    rw [List.getElem?_eq_getElem (hlen ▸ hpos), Option.some.injEq] at hget'
    simpa [hget'] using this
  obtain ⟨l, hout, hperm⟩ : ∃ l, outs[before.length] = .fired l ∧ l.Perm fired := by
    obtain ⟨u, cs, v, b, -, hexec, hb⟩ := getElem?_of_runCalls hrun
    rw [List.getElem?_eq_getElem hpos, Option.some.injEq] at hb
    simp only [exec, Option.map_eq_some_iff] at hexec
    obtain ⟨r, -, hr⟩ := hexec
    have hbl : b = .fired r.2 := (congrArg Prod.snd hr).symm
    rw [hb, hbl] at hmatch
    exact ⟨r.2, hb.trans hbl, hmatch⟩
  refine ⟨l, by rw [List.getElem?_eq_getElem hpos, hout], ?_, fun p => ?_⟩
  · exact hperm.nodup_iff.mpr (Countdown.nodup_fired (Countdown.Wf.run hbefore) hstep)
  · rw [hperm.mem_iff, Countdown.Table.fired_iff_history hbefore hstep]
    simp only [started_map_spec]
    constructor
    · rintro ⟨d, t, hadd, hd⟩
      exact ⟨t, d, hadd, by push_cast at hd; omega⟩
    · rintro ⟨t, c, hadd, hc⟩
      exact ⟨c, t, hadd, by push_cast; omega⟩

/-- A timer with a full turn of timeout, one with none that shares its slot for a while, and
one that is deleted. -/
theorem timeWheel_refines_countdown_example :
    ∃ w outs T specOuts,
      runCalls (exec 6) new
          [.addTimer 60 1, .addTimer 0 2, .tick, .addTimer 0 3, .delTimer 1, .tick] =
        some (w, outs) ∧
      Countdown.run [] ([.addTimer 60 1, .addTimer 0 2, .tick, .addTimer 0 3, .delTimer 1,
        .tick].map Op.spec) = some (T, specOuts) ∧ Counts w T ∧
      List.Forall₂ Matches outs specOuts ∧
      ∀ before after,
        [.addTimer 60 1, .addTimer 0 2, .tick, .addTimer 0 3, .delTimer 1, .tick] =
          before ++ Op.tick :: after →
        ∃ fired, outs[before.length]? = some (.fired fired) ∧ fired.Nodup ∧
          ∀ p, p ∈ fired ↔ DueNow before p :=
  timeWheel_refines_countdown (by decide) (by decide)

/-- Two timers share slot 1; the third is deleted before its tick. -/
example :
    (do let (w, _) ← exec 9 new (.addTimer 1 10)
        let (w, _) ← exec 9 w (.addTimer 0 11)
        let (w, _) ← exec 9 w (.addTimer 1 12)
        let (w, _) ← exec 9 w (.delTimer 11)
        let (w, _) ← exec 9 w .tick
        let (_, o) ← exec 9 w .tick
        pure o) = some (.fired [12, 10]) := by rfl

end LinuxNetwork.TimeWheel

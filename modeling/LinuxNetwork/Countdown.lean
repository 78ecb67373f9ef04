import Mathlib.Data.List.Induction
import Mathlib.Data.List.Nodup
import Mathlib.Data.Nat.Notation
import Mathlib.Tactic.Common
import LinuxNetwork.Transition

/-!
# Countdown Tables

What a timer facility is for: a table of running timers, each with the number of ticks it
still has to live. A tick fires the timers that have one tick left and lowers the counter
of every other timer by one.

The table is then read as a function of its history. A timer runs exactly if it was
started and neither stopped nor counted down since, and a tick fires exactly the timers
for which it is the tick their delay names.

## Main results

* `Table.mem_iff_history`: the running timers and their counters, from the history.
* `Table.fired_iff_history`: the timers a tick fires, from the history.
-/

namespace Countdown

variable {κ : Type} [DecidableEq κ]

/-- The calls on a table: start a timer that fires at the `delay`-th tick from now, stop a
running timer, and let one tick pass. -/
inductive Op (κ : Type) where
  | start (key : κ) (delay : ℕ)
  | stop (key : κ)
  | tick
deriving DecidableEq, Repr

/-- The running timers with the number of ticks each has left. -/
abbrev Table (κ : Type) : Type := List (κ × ℕ)

/-- One call on a table, and the timers it fires. Starting a timer that runs or has no
delay, and stopping a timer that does not run, are not allowed. -/
def step (T : Table κ) : Op κ → Option (Table κ × List κ)
  | .start k d => if k ∈ T.map Prod.fst ∨ d = 0 then none else some ((k, d) :: T, [])
  | .stop k => if k ∈ T.map Prod.fst then some (T.filter (·.1 ≠ k), []) else none
  | .tick => some ((T.filter (·.2 ≠ 1)).map (fun e => (e.1, e.2 - 1)),
      (T.filter (·.2 = 1)).map Prod.fst)

/-- In a table every timer has one counter, and no counter has run out. -/
structure Wf (T : Table κ) : Prop where
  keys : (T.map Prod.fst).Nodup
  pos : ∀ e ∈ T, 0 < e.2

omit [DecidableEq κ] in
theorem wf_nil : Wf ([] : Table κ) :=
  ⟨List.nodup_nil, fun _ h => absurd h List.not_mem_nil⟩

/-- Every call keeps a table well formed: a started key is new, and a timer that runs out in a
tick leaves the table. -/
theorem Wf.step {T T' : Table κ} {op : Op κ} {fired : List κ} (h : Wf T)
    (hstep : step T op = some (T', fired)) : Wf T' := by
  cases op with
  | start k d =>
      simp only [Countdown.step, Option.ite_none_left_eq_some, not_or, Option.some.injEq,
        Prod.mk.injEq] at hstep
      obtain ⟨⟨hk, hd⟩, rfl, -⟩ := hstep
      refine ⟨List.nodup_cons.mpr ⟨hk, h.keys⟩, ?_⟩
      intro e he
      rcases List.mem_cons.mp he with rfl | he
      · exact Nat.pos_of_ne_zero hd
      · exact h.pos e he
  | stop k =>
      simp only [Countdown.step, Option.ite_none_right_eq_some, Option.some.injEq,
        Prod.mk.injEq] at hstep
      obtain ⟨-, rfl, -⟩ := hstep
      exact ⟨h.keys.sublist (List.filter_sublist.map _),
        fun e he => h.pos e (List.mem_of_mem_filter he)⟩
  | tick =>
      simp only [Countdown.step, Option.some.injEq, Prod.mk.injEq] at hstep
      obtain ⟨rfl, -⟩ := hstep
      refine ⟨?_, ?_⟩
      · rw [List.map_map]
        exact h.keys.sublist (List.filter_sublist.map _)
      · intro e he
        simp only [List.mem_map, List.mem_filter, decide_eq_true_eq] at he
        obtain ⟨e, ⟨he, hne⟩, rfl⟩ := he
        have := h.pos e he
        show 0 < e.2 - 1
        omega

/-- A call starts at most one timer, so it makes the table longer by one at most. -/
theorem length_step_le {T T' : Table κ} {op : Op κ} {fired : List κ}
    (hstep : step T op = some (T', fired)) : T'.length ≤ T.length + 1 := by
  cases op with
  | start k d =>
      simp only [step, Option.ite_none_left_eq_some, Option.some.injEq,
        Prod.mk.injEq] at hstep
      obtain ⟨-, rfl, -⟩ := hstep
      simp
  | stop k =>
      simp only [step, Option.ite_none_right_eq_some, Option.some.injEq,
        Prod.mk.injEq] at hstep
      obtain ⟨-, rfl, -⟩ := hstep
      exact Nat.le_trans (List.length_filter_le _ _) (Nat.le_succ _)
  | tick =>
      simp only [step, Option.some.injEq, Prod.mk.injEq] at hstep
      obtain ⟨rfl, -⟩ := hstep
      rw [List.length_map]
      exact Nat.le_trans (List.length_filter_le _ _) (Nat.le_succ _)

/-! ### Runs -/

/-- A sequence of calls, with the timers each of them fires. -/
abbrev run : Table κ → List (Op κ) → Option (Table κ × List (List κ)) :=
  Transition.runCalls step

/-- The last call of a run is made on the table that the calls before it have left. -/
theorem run_snoc_eq_some {T T' : Table κ} {ops : List (Op κ)} {op : Op κ}
    {outs : List (List κ)} :
    run T (ops ++ [op]) = some (T', outs) ↔
      ∃ U os fired, run T ops = some (U, os) ∧ step U op = some (T', fired) ∧
        outs = os ++ [fired] := by
  rw [run, Transition.runCalls_append_eq_some]
  constructor
  · rintro ⟨U, os, ds, hrun, hrun', rfl⟩
    obtain ⟨V, fired, ds', hstep, hnil, rfl⟩ := Transition.runCalls_cons_eq_some.mp hrun'
    obtain ⟨rfl, rfl⟩ := Prod.mk.injEq .. ▸ Option.some.inj hnil
    exact ⟨U, os, fired, hrun, hstep, rfl⟩
  · rintro ⟨U, os, fired, hrun, hstep, rfl⟩
    exact ⟨U, os, [fired], hrun,
      Transition.runCalls_cons_eq_some.mpr ⟨T', fired, [], hstep, rfl, rfl⟩, rfl⟩

/-- Every run from the empty table keeps the table well formed. Induction from the end of the
run. -/
theorem Wf.run {T : Table κ} {ops : List (Op κ)} {outs : List (List κ)}
    (hrun : run [] ops = some (T, outs)) : Wf T := by
  induction ops using List.reverseRecOn generalizing T outs with
  | nil =>
      obtain ⟨rfl, -⟩ := Prod.mk.injEq .. ▸ Option.some.inj hrun
      exact wf_nil
  | append_singleton ops op ih =>
      obtain ⟨U, os, fired, hU, hstep, -⟩ := run_snoc_eq_some.mp hrun
      exact (ih hU).step hstep

/-- A run of `n` calls leaves at most `n` timers, so the length of a run bounds the table in
every state of it. -/
theorem length_le_of_run {T : Table κ} {ops : List (Op κ)} {outs : List (List κ)}
    (hrun : run [] ops = some (T, outs)) : T.length ≤ ops.length := by
  simpa using Transition.le_of_runCalls (μ := List.length) (fun _ _ _ _ => length_step_le) hrun

/-! ### The table as a function of its history -/

/-- The timer `k` was started with delay `d`, has not been stopped since, and `c` ticks
have passed since. -/
def Started (ops : List (Op κ)) (k : κ) (d c : ℕ) : Prop :=
  ∃ pre post, ops = pre ++ .start k d :: post ∧ .stop k ∉ post ∧ post.count .tick = c

omit [DecidableEq κ] in
/-- What the last call of a history adds to it: a start is the last call, or stands among the
calls before. -/
private theorem snoc_eq_iff {ops pre post : List (Op κ)} {op : Op κ} {k : κ} {d : ℕ} :
    ops ++ [op] = pre ++ .start k d :: post ↔
      (pre = ops ∧ op = .start k d ∧ post = []) ∨
        ∃ post', ops = pre ++ .start k d :: post' ∧ post = post' ++ [op] := by
  constructor
  · intro h
    rcases List.eq_nil_or_concat' post with rfl | ⟨post', op', rfl⟩
    · obtain ⟨rfl, hop⟩ := List.append_inj' h rfl
      exact Or.inl ⟨rfl, (List.singleton_inj.mp hop), rfl⟩
    · rw [← List.cons_append, ← List.append_assoc] at h
      obtain ⟨rfl, hop⟩ := List.append_inj' h rfl
      exact Or.inr ⟨post', rfl, by rw [List.singleton_inj.mp hop]⟩
  · rintro (⟨rfl, rfl, rfl⟩ | ⟨post', rfl, rfl⟩)
    · rfl
    · simp

/-- A start as the last call adds itself, with no tick behind it, and keeps the starts before. -/
theorem started_snoc_start {ops : List (Op κ)} {k k' : κ} {d d' c : ℕ} :
    Started (ops ++ [.start k' d']) k d c ↔
      (k' = k ∧ d' = d ∧ c = 0) ∨ Started ops k d c := by
  constructor
  · rintro ⟨pre, post, heq, hstop, rfl⟩
    rcases snoc_eq_iff.mp heq with ⟨-, hop, rfl⟩ | ⟨post', hops, rfl⟩
    · injection hop with h₁ h₂
      exact Or.inl ⟨h₁, h₂, rfl⟩
    · refine Or.inr ⟨pre, post', hops, fun h => hstop (by simp [h]), by simp⟩
  · rintro (⟨rfl, rfl, rfl⟩ | ⟨pre, post, rfl, hstop, rfl⟩)
    · exact ⟨ops, [], rfl, by simp, rfl⟩
    · exact ⟨pre, post ++ [.start k' d'], by simp, by simp [hstop], by simp⟩

/-- A stop as the last call takes the starts of its key away, and keeps those of the others. -/
theorem started_snoc_stop {ops : List (Op κ)} {k k' : κ} {d c : ℕ} :
    Started (ops ++ [.stop k']) k d c ↔ k ≠ k' ∧ Started ops k d c := by
  constructor
  · rintro ⟨pre, post, heq, hstop, rfl⟩
    rcases snoc_eq_iff.mp heq with ⟨-, hop, -⟩ | ⟨post', hops, rfl⟩
    · cases hop
    · simp only [List.mem_append, List.mem_singleton, Op.stop.injEq, not_or] at hstop
      exact ⟨hstop.2, pre, post', hops, hstop.1, by simp⟩
  · rintro ⟨hne, pre, post, rfl, hstop, rfl⟩
    exact ⟨pre, post ++ [.stop k'], by simp, by simp [hstop, hne], by simp⟩

/-- A tick as the last call is one more tick behind every start before. -/
theorem started_snoc_tick {ops : List (Op κ)} {k : κ} {d c : ℕ} :
    Started (ops ++ [.tick]) k d c ↔ ∃ c', c = c' + 1 ∧ Started ops k d c' := by
  constructor
  · rintro ⟨pre, post, heq, hstop, rfl⟩
    rcases snoc_eq_iff.mp heq with ⟨-, hop, -⟩ | ⟨post', hops, rfl⟩
    · cases hop
    · exact ⟨post'.count .tick, by simp, pre, post', hops,
        fun h => hstop (by simp [h]), rfl⟩
  · rintro ⟨c', rfl, pre, post, rfl, hstop, rfl⟩
    exact ⟨pre, post ++ [.tick], by simp, by simp [hstop], by simp⟩

/-- **The running timers.** After a run, the timer `k` runs with `r` ticks left exactly if
it was started with a delay that exceeds by `r` the ticks passed since, and not stopped
since. -/
theorem Table.mem_iff_history {T : Table κ} {ops : List (Op κ)} {outs : List (List κ)}
    (hrun : run [] ops = some (T, outs)) {k : κ} {r : ℕ} :
    (k, r) ∈ T ↔ ∃ d c, Started ops k d c ∧ c < d ∧ r = d - c := by
  induction ops using List.reverseRecOn generalizing T outs k r with
  | nil =>
      obtain ⟨rfl, -⟩ := Prod.mk.injEq .. ▸ Option.some.inj hrun
      simp [Started]
  | append_singleton ops op ih =>
      obtain ⟨U, os, fired, hU, hstep, -⟩ := run_snoc_eq_some.mp hrun
      cases op with
      | start k' d' =>
          simp only [Countdown.step, Option.ite_none_left_eq_some, not_or,
            Option.some.injEq, Prod.mk.injEq] at hstep
          obtain ⟨⟨-, hd'⟩, rfl, -⟩ := hstep
          simp only [List.mem_cons, Prod.mk.injEq, ih hU, started_snoc_start]
          constructor
          · rintro (⟨rfl, rfl⟩ | ⟨d, c, hs, hlt, rfl⟩)
            · exact ⟨r, 0, Or.inl ⟨rfl, rfl, rfl⟩, by omega, rfl⟩
            · exact ⟨d, c, Or.inr hs, hlt, rfl⟩
          · rintro ⟨d, c, ⟨rfl, rfl, rfl⟩ | hs, hlt, rfl⟩
            · exact Or.inl ⟨rfl, by omega⟩
            · exact Or.inr ⟨d, c, hs, hlt, rfl⟩
      | stop k' =>
          simp only [Countdown.step, Option.ite_none_right_eq_some, Option.some.injEq,
            Prod.mk.injEq] at hstep
          obtain ⟨-, rfl, -⟩ := hstep
          simp only [List.mem_filter, ih hU, decide_eq_true_eq, started_snoc_stop]
          constructor
          · rintro ⟨⟨d, c, hs, hlt, rfl⟩, hne⟩
            exact ⟨d, c, ⟨hne, hs⟩, hlt, rfl⟩
          · rintro ⟨d, c, ⟨hne, hs⟩, hlt, rfl⟩
            exact ⟨⟨d, c, hs, hlt, rfl⟩, hne⟩
      | tick =>
          simp only [Countdown.step, Option.some.injEq, Prod.mk.injEq] at hstep
          obtain ⟨rfl, -⟩ := hstep
          simp only [List.mem_map, List.mem_filter, decide_eq_true_eq, Prod.mk.injEq,
            Prod.exists, started_snoc_tick]
          constructor
          · rintro ⟨k₀, r₀, ⟨hmem, hne⟩, rfl, rfl⟩
            obtain ⟨d, c, hs, hlt, rfl⟩ := (ih hU).mp hmem
            exact ⟨d, c + 1, ⟨c, rfl, hs⟩, by omega, by omega⟩
          · rintro ⟨d, c, ⟨c', rfl, hs⟩, hlt, rfl⟩
            exact ⟨k, d - c', ⟨(ih hU).mpr ⟨d, c', hs, by omega, rfl⟩, by omega⟩, rfl,
              by omega⟩

/-- **The fired timers.** A tick fires the timer `k` exactly if it is the tick that the
delay of `k` names, counted from the call that started it, and `k` was not stopped. -/
theorem Table.fired_iff_history {T T' : Table κ} {ops : List (Op κ)}
    {outs : List (List κ)} {fired : List κ} (hrun : run [] ops = some (T, outs))
    (hstep : step T .tick = some (T', fired)) {k : κ} :
    k ∈ fired ↔ ∃ d, Started ops k (d + 1) d := by
  simp only [Countdown.step, Option.some.injEq, Prod.mk.injEq] at hstep
  obtain ⟨-, rfl⟩ := hstep
  simp only [List.mem_map, List.mem_filter, decide_eq_true_eq, Prod.exists, exists_and_right,
    exists_eq_right]
  constructor
  · intro hmem
    obtain ⟨d, c, hs, hlt, hr⟩ := (mem_iff_history hrun).mp hmem
    obtain rfl : d = c + 1 := by omega
    exact ⟨c, hs⟩
  · rintro ⟨d, hs⟩
    exact (mem_iff_history hrun).mpr ⟨d + 1, d, hs, by omega, by omega⟩

/-- A tick fires a timer at most once, since no key runs twice in a table. -/
theorem nodup_fired {T T' : Table κ} {fired : List κ} (h : Wf T)
    (hstep : step T .tick = some (T', fired)) : fired.Nodup := by
  simp only [Countdown.step, Option.some.injEq, Prod.mk.injEq] at hstep
  obtain ⟨-, rfl⟩ := hstep
  exact h.keys.sublist (List.filter_sublist.map _)

end Countdown

import Mathlib.Data.List.Forall2
import Mathlib.Tactic.Common

/-!
# Transition Systems and Sequences of Calls

Two ways to talk about everything a program can do. A `System` is a set of initial states
and a partial step function over labels; a label names the party that moves and whatever
its environment decides. `System.ReachableWhile C` are the states of the runs all of whose
steps satisfy `C`, a condition on the state before the step and its label, and
`System.Reachable` are those of all runs. Second, `runCalls` executes a sequence of calls
on a partial machine that returns an output for each of them. The steps that a program has taken
are a log; `Guarded` says that each of them was permitted when it was taken.

## Main results

* `System.Inductive.holds`: an inductive property holds in every reached state.
* `System.reachable_of_run`: what a concrete run reaches is reachable.
* `System.length_add_le_of_run`: a measure that every step lowers bounds all runs.
* `System.traces_subset`: a system that simulates another one shows all that it shows.
* `Guarded.exists_step_between`: what comes about between two steps of a log.
* `runCalls_simulates_of_mem`: a machine that simulates a specification call by call succeeds on
  every sequence the specification accepts, with related outputs.
-/

namespace Transition

/-- A labelled transition system with a partial, executable step function. -/
structure System (σ α : Type*) where
  /-- The initial states. -/
  init : σ → Prop
  /-- The state after a step, if the step is possible. -/
  step : σ → α → Option σ

namespace System

variable {σ α : Type*} (M : System σ α)

/-- The states of the runs in which every step satisfies `C`. -/
inductive ReachableWhile (C : σ → α → Prop) : σ → Prop
  | init {s : σ} : M.init s → ReachableWhile C s
  | step {s t : σ} {a : α} :
      ReachableWhile C s → C s a → M.step s a = some t → ReachableWhile C t

/-- The states of all runs. -/
def Reachable : σ → Prop :=
  M.ReachableWhile fun _ _ => True

variable {M} {C D : σ → α → Prop} {I J : σ → Prop} {s t : σ} {a : α}

/-- A run under one condition is a run under another one that follows from it in the states that
are reached. -/
theorem ReachableWhile.mono_of_reachable (h : M.ReachableWhile C s)
    (hCD : ∀ s a, M.ReachableWhile C s → C s a → D s a) : M.ReachableWhile D s := by
  induction h with
  | init h => exact .init h
  | step hs hC hstep ih => exact .step ih (hCD _ _ hs hC) hstep

/-- A run under a condition is a run under every weaker one, whatever the states. -/
theorem ReachableWhile.mono (h : M.ReachableWhile C s) (hCD : ∀ s a, C s a → D s a) :
    M.ReachableWhile D s :=
  h.mono_of_reachable fun s a _ => hCD s a

/-- One more step of a run, under no condition. -/
theorem Reachable.step (h : M.Reachable s) (hstep : M.step s a = some t) : M.Reachable t :=
  ReachableWhile.step h trivial hstep

/-- A property that holds initially and that every step under `C` preserves. -/
structure Inductive (M : System σ α) (C : σ → α → Prop) (I : σ → Prop) : Prop where
  init : ∀ s, M.init s → I s
  step : ∀ s a t, I s → C s a → M.step s a = some t → I t

/-- **The invariant rule.** An inductive property holds in every reached state. Induction on the
run. -/
theorem Inductive.holds (h : M.Inductive C I) (hs : M.ReachableWhile C s) : I s := by
  induction hs with
  | init hinit => exact h.init _ hinit
  | step _ hC hstep ih => exact h.step _ _ _ ih hC hstep

/-- **The relative invariant rule.** A property may be shown inductive with the help of one
that is already known to hold. -/
theorem Inductive.holds_of (hI : ∀ s, M.ReachableWhile C s → I s)
    (hinit : ∀ s, M.init s → J s)
    (hstep : ∀ s a t, I s → I t → J s → C s a → M.step s a = some t → J t)
    (hs : M.ReachableWhile C s) : J s := by
  induction hs with
  | init h => exact hinit _ h
  | step hs hC h ih => exact hstep _ _ _ (hI _ hs) (hI _ (.step hs hC h)) ih hC h

/-- The state after a sequence of steps. -/
def run (M : System σ α) : σ → List α → Option σ
  | s, [] => some s
  | s, a :: as => (M.step s a).bind fun t => M.run t as

/-- A run may be continued from the state that it has reached. -/
theorem run_append {as bs : List α} (hrun : M.run s as = some t) :
    M.run s (as ++ bs) = M.run t bs := by
  induction as generalizing s with
  | nil => rw [List.nil_append, Option.some.inj hrun]
  | cons a as ih =>
      obtain ⟨u, hu, hrun⟩ := Option.bind_eq_some_iff.mp hrun
      rw [List.cons_append, run, hu]
      exact ih hrun

/-- A property that every step preserves is preserved by runs. -/
theorem run_preserves {as : List α} (hstep : ∀ s a t, I s → M.step s a = some t → I t)
    (hs : I s) (hrun : M.run s as = some t) : I t := by
  induction as generalizing s with
  | nil => exact Option.some.inj hrun ▸ hs
  | cons a as ih =>
      obtain ⟨u, hu, hrun⟩ := Option.bind_eq_some_iff.mp hrun
      exact ih (hstep s a u hs hu) hrun

/-- A concrete run from a reachable state reaches a reachable state. -/
theorem reachable_of_run (as : List α) (hs : M.Reachable s) (hrun : M.run s as = some t) :
    M.Reachable t :=
  run_preserves (fun _ _ _ hs hstep => hs.step hstep) hs hrun

/-- The state after a sequence of steps that satisfy `C`. -/
def runWhile (M : System σ α) (C : σ → α → Prop) [∀ s a, Decidable (C s a)] :
    σ → List α → Option σ
  | s, [] => some s
  | s, a :: as => if C s a then (M.step s a).bind fun t => M.runWhile C t as else none

/-- A concrete run under a condition, from a state reached under it, reaches another such state. -/
theorem reachableWhile_of_runWhile [∀ s a, Decidable (C s a)] (as : List α)
    (hs : M.ReachableWhile C s) (hrun : M.runWhile C s as = some t) : M.ReachableWhile C t := by
  induction as generalizing s with
  | nil => exact Option.some.inj hrun ▸ hs
  | cons a as ih =>
      obtain ⟨hC, hrun⟩ := Option.ite_none_right_eq_some.mp hrun
      obtain ⟨u, hu, hrun⟩ := Option.bind_eq_some_iff.mp hrun
      exact ih (.step hs hC hu) hrun

/-- A run under a condition is a run, when the condition is forgotten. -/
theorem run_of_runWhile [∀ s a, Decidable (C s a)] {as : List α}
    (hrun : M.runWhile C s as = some t) : M.run s as = some t := by
  induction as generalizing s with
  | nil => exact hrun
  | cons a as ih =>
      obtain ⟨-, hrun⟩ := Option.ite_none_right_eq_some.mp hrun
      obtain ⟨u, hu, hrun⟩ := Option.bind_eq_some_iff.mp hrun
      rw [run, hu]
      exact ih hrun

/-- A concrete run under a condition reaches a state as the run shows it. -/
theorem exists_reachableWhile [∀ s a, Decidable (C s a)] (hs : M.ReachableWhile C s)
    (as : List α) (p : σ → Bool) (hrun : (M.runWhile C s as).any p = true) :
    ∃ t, M.ReachableWhile C t ∧ p t = true := by
  obtain ⟨t, ht, hp⟩ := (Option.any_eq_true _ _).mp hrun
  exact ⟨t, reachableWhile_of_runWhile as hs ht, hp⟩

/-- **The amortized variant rule.** A measure that every step of a kind lowers, except that some
steps raise it by less than `c`, bounds the number of steps by that of the exceptions, and what
the steps preserve holds behind them. -/
theorem length_add_le_of_run_of_raise {P : α → Prop} {raises : α → Bool} {c : ℕ} {μ : σ → ℕ}
    {as : List α}
    (hstep : ∀ s a t, I s → P a → M.step s a = some t →
      I t ∧ μ t + 1 ≤ μ s + if raises a then c else 0)
    (hs : I s) (has : ∀ a ∈ as, P a) (hrun : M.run s as = some t) :
    I t ∧ as.length + μ t ≤ μ s + c * as.countP raises := by
  induction as generalizing s with
  | nil =>
      obtain rfl := Option.some.inj hrun
      exact ⟨hs, by simp⟩
  | cons a as ih =>
      obtain ⟨u, hu, hrun⟩ := Option.bind_eq_some_iff.mp hrun
      obtain ⟨hu', hle⟩ := hstep s a u hs (has a List.mem_cons_self) hu
      obtain ⟨ht, hle'⟩ := ih hu' (fun b hb => has b (List.mem_cons_of_mem a hb)) hrun
      refine ⟨ht, ?_⟩
      rw [List.length_cons, List.countP_cons, Nat.mul_add]
      cases ha : raises a with
      | false =>
          simp only [ha, Bool.false_eq_true, if_false] at hle ⊢
          omega
      | true =>
          simp only [ha, if_true, Nat.mul_one] at hle ⊢
          omega

/-- **The variant rule.** A measure that every step of a kind lowers bounds the number of such
steps, and what they preserve holds behind them. -/
theorem length_add_le_of_run {P : α → Prop} {μ : σ → ℕ} {as : List α}
    (hstep : ∀ s a t, I s → P a → M.step s a = some t → I t ∧ μ t < μ s) (hs : I s)
    (has : ∀ a ∈ as, P a) (hrun : M.run s as = some t) : I t ∧ as.length + μ t ≤ μ s := by
  have hnever : ∀ s a t, I s → P a → M.step s a = some t →
      I t ∧ μ t + 1 ≤ μ s + if (fun _ => false) a then 0 else 0 := hstep
  obtain ⟨ht, hle⟩ := length_add_le_of_run_of_raise hnever hs has hrun
  exact ⟨ht, by omega⟩

/-- Steps of a kind that lowers a measure can be taken until none is possible anymore. -/
theorem exists_run_to_end {P : α → Prop} {μ : σ → ℕ}
    (hstep : ∀ s a t, I s → P a → M.step s a = some t → I t ∧ μ t < μ s) (hs : I s) :
    ∃ as t, (∀ a ∈ as, P a) ∧ M.run s as = some t ∧ ∀ a, P a → M.step t a = none := by
  induction hn : μ s using Nat.strongRecOn generalizing s with
  | _ n ih =>
      by_cases hend : ∀ a, P a → M.step s a = none
      · exact ⟨[], s, nofun, rfl, hend⟩
      · push Not at hend
        obtain ⟨a, ha, hne⟩ := hend
        obtain ⟨u, hu⟩ := Option.ne_none_iff_exists'.mp hne
        obtain ⟨hu', hlt⟩ := hstep s a u hs ha hu
        obtain ⟨as, t, has, hrun, ht⟩ := ih (μ u) (hn ▸ hlt) hu' rfl
        refine ⟨a :: as, t, List.forall_mem_cons.mpr ⟨ha, has⟩, ?_, ht⟩
        rw [run, hu]
        exact hrun

/-- What an observer sees of the runs: the labels of their steps, where they have one. -/
def Traces {ℓ : Type*} (M : System σ α) (label : α → Option ℓ) : Set (List ℓ) :=
  {trace | ∃ s as t, M.init s ∧ M.run s as = some t ∧ as.filterMap label = trace}

/-- **Simulation of traces.** If every step of a system is matched by steps of another one that
show the same, then it shows nothing that the other does not show. -/
theorem traces_subset {τ β ℓ : Type*} {N : System τ β} {label : α → Option ℓ}
    {label' : β → Option ℓ} {R : σ → τ → Prop} (hinit : ∀ s, M.init s → ∃ t, N.init t ∧ R s t)
    (hstep : ∀ s t a s', R s t → M.step s a = some s' →
      ∃ bs t', N.run t bs = some t' ∧ bs.filterMap label' = (label a).toList ∧ R s' t') :
    M.Traces label ⊆ N.Traces label' := by
  have hrun : ∀ as s t s', R s t → M.run s as = some s' →
      ∃ bs t', N.run t bs = some t' ∧ bs.filterMap label' = as.filterMap label := by
    intro as
    induction as with
    | nil => exact fun s t _ _ _ => ⟨[], t, rfl, rfl⟩
    | cons a as ih =>
        intro s t s' hR hrun
        obtain ⟨u, hu, hrun⟩ := Option.bind_eq_some_iff.mp hrun
        obtain ⟨bs, v, hbs, hlabel, hR'⟩ := hstep s t a u hR hu
        obtain ⟨cs, t', hcs, htrace⟩ := ih u v s' hR' hrun
        refine ⟨bs ++ cs, t', by rw [run_append hbs, hcs], ?_⟩
        rw [List.filterMap_append, hlabel, htrace, List.filterMap_cons]
        cases label a <;> rfl
  rintro _ ⟨s, as, s', hs, has, rfl⟩
  obtain ⟨t, ht, hR⟩ := hinit s hs
  obtain ⟨bs, t', hbs, htrace⟩ := hrun as s t s' hR has
  exact ⟨t, bs, t', ht, hbs, htrace⟩

end System

/-! ### Logs -/

section Log

variable {σ α : Type*} {play : σ → α → σ} {P : σ → α → Prop} {Q : σ → Prop} {s : σ}
  {as bs pre mid post : List α} {a b : α}

/-- Every step of a log is taken in a state that permits it. -/
def Guarded (play : σ → α → σ) (P : σ → α → Prop) (s : σ) (as : List α) : Prop :=
  ∀ pre a post, as = pre ++ a :: post → P (pre.foldl play s) a

theorem guarded_nil : Guarded play P s [] := by
  rintro pre a post hnil
  exact absurd hnil.symm (List.append_ne_nil_of_right_ne_nil _ (List.cons_ne_nil _ _))

theorem guarded_cons : Guarded play P s (a :: as) ↔ P s a ∧ Guarded play P (play s a) as := by
  constructor
  · intro h
    exact ⟨h [] a as rfl, fun pre b post has => h (a :: pre) b post (by rw [has]; rfl)⟩
  · rintro ⟨ha, has⟩ pre b post heq
    rcases List.cons_eq_append_iff.mp heq with ⟨rfl, hcons⟩ | ⟨pre', rfl, rest⟩
    · obtain ⟨rfl, rfl⟩ := List.cons.inj hcons
      exact ha
    · exact has pre' b post rest

/-- One log after another is guarded if each is, the second one in the state behind the first. -/
theorem guarded_append :
    Guarded play P s (as ++ bs) ↔ Guarded play P s as ∧ Guarded play P (as.foldl play s) bs := by
  induction as generalizing s with
  | nil => exact (and_iff_right guarded_nil).symm
  | cons a as ih =>
      rw [List.cons_append, guarded_cons, ih, guarded_cons, and_assoc, List.foldl_cons]

/-- What does not hold in front of a log and holds behind it comes about in one of its steps. -/
theorem exists_step_of_foldl (hs : ¬ Q s) (has : Q (as.foldl play s)) :
    ∃ t, ∃ a ∈ as, ¬ Q t ∧ Q (play t a) := by
  induction as generalizing s with
  | nil => exact absurd has hs
  | cons a as ih =>
      by_cases ha : Q (play s a)
      · exact ⟨s, a, List.mem_cons_self, hs, ha⟩
      · obtain ⟨t, b, hb, ht⟩ := ih ha has
        exact ⟨t, b, List.mem_cons_of_mem a hb, ht⟩

/-- **Between a step that puts an end to something and a step that needs it** there is one in which
it comes about. -/
theorem Guarded.exists_step_between (h : Guarded play P s (pre ++ a :: (mid ++ b :: post)))
    (hends : ∀ t, ¬ Q (play t a)) (hneeds : ∀ t, P t b → Q t) :
    ∃ t, ∃ c ∈ mid, ¬ Q t ∧ Q (play t c) := by
  have hb := h (pre ++ a :: mid) b post (by simp)
  rw [List.foldl_append, List.foldl_cons] at hb
  exact exists_step_of_foldl (hends _) (hneeds _ hb)

end Log

/-! ### Sequences of calls with outputs -/

variable {σ τ α β γ : Type*}

/-- Make the calls one after another and collect what they return. -/
def runCalls (step : σ → α → Option (σ × β)) : σ → List α → Option (σ × List β)
  | s, [] => some (s, [])
  | s, a :: as =>
      (step s a).bind fun r => (runCalls step r.1 as).map fun q => (q.1, r.2 :: q.2)

variable {step : σ → α → Option (σ × β)} {spec : τ → α → Option (τ × γ)}

/-- The first call of a sequence and the others succeed, and the outputs come in this order. -/
theorem runCalls_cons_eq_some {s t : σ} {a : α} {as : List α} {bs : List β} :
    runCalls step s (a :: as) = some (t, bs) ↔
      ∃ u b bs', step s a = some (u, b) ∧ runCalls step u as = some (t, bs') ∧
        bs = b :: bs' := by
  simp only [runCalls, Option.bind_eq_some_iff, Option.map_eq_some_iff, Prod.mk.injEq,
    Prod.exists]
  constructor
  · rintro ⟨u, b, hstep, t', bs', hrun, rfl, rfl⟩
    exact ⟨u, b, bs', hstep, hrun, rfl⟩
  · rintro ⟨u, b, bs', hstep, hrun, rfl⟩
    exact ⟨u, b, hstep, t, bs', hrun, rfl, rfl⟩

/-- Every call satisfies `P` in the state in which it is made. -/
def AllCalls (step : σ → α → Option (σ × β)) (P : σ → α → Prop) : σ → List α → Prop
  | _, [] => True
  | s, a :: as => P s a ∧ ∀ t b, step s a = some (t, b) → AllCalls step P t as

/-- A condition on the calls of a sequence is one on the first call and on the others, if the
first succeeds. -/
theorem allCalls_cons_iff {P : σ → α → Prop} {s t : σ} {a : α} {as : List α} {b : β}
    (hstep : step s a = some (t, b)) :
    AllCalls step P s (a :: as) ↔ P s a ∧ AllCalls step P t as := by
  refine and_congr_right fun _ => ⟨fun h => h t b hstep, fun h t' b' hstep' => ?_⟩
  obtain ⟨rfl, rfl⟩ := Prod.mk.injEq .. ▸ Option.some.inj (hstep.symm.trans hstep')
  exact h

/-- **Splitting a sequence of calls** in two, with the state between them. Induction on the
first part. -/
theorem runCalls_append_eq_some {s t : σ} {as as' : List α} {bs : List β} :
    runCalls step s (as ++ as') = some (t, bs) ↔
      ∃ u cs ds, runCalls step s as = some (u, cs) ∧ runCalls step u as' = some (t, ds) ∧
        bs = cs ++ ds := by
  induction as generalizing s bs with
  | nil => simp [runCalls]
  | cons a as ih =>
      simp only [List.cons_append, runCalls_cons_eq_some, ih]
      constructor
      · rintro ⟨u, b, bs', hstep, ⟨v, cs, ds, hrun, hrun', rfl⟩, rfl⟩
        exact ⟨v, b :: cs, ds, ⟨u, b, cs, hstep, hrun, rfl⟩, hrun', rfl⟩
      · rintro ⟨v, cs', ds, ⟨u, b, cs, hstep, hrun, rfl⟩, hrun', rfl⟩
        exact ⟨u, b, cs ++ ds, hstep, ⟨v, cs, ds, hrun, hrun', rfl⟩, rfl⟩

/-- Calls may be translated before or while they are made. -/
theorem runCalls_map {δ : Type*} (f : δ → α) (s : σ) (ds : List δ) :
    runCalls step s (ds.map f) = runCalls (fun s d => step s (f d)) s ds := by
  induction ds generalizing s with
  | nil => rfl
  | cons d ds ih => simp only [List.map_cons, runCalls, ih]

/-- There is one output per call. -/
theorem length_of_runCalls {s t : σ} {as : List α} {bs : List β}
    (h : runCalls step s as = some (t, bs)) : bs.length = as.length := by
  induction as generalizing s bs with
  | nil => simp [runCalls] at h; simp [h.2]
  | cons a as ih =>
      obtain ⟨u, b, bs', -, hrun, rfl⟩ := runCalls_cons_eq_some.mp h
      simp [ih hrun]

/-- A measure that no call raises by more than one is bounded by the number of calls. -/
theorem le_of_runCalls {μ : σ → ℕ} {s t : σ} {as : List α} {bs : List β}
    (hμ : ∀ s a t b, step s a = some (t, b) → μ t ≤ μ s + 1)
    (h : runCalls step s as = some (t, bs)) : μ t ≤ μ s + as.length := by
  induction as generalizing s bs with
  | nil =>
      obtain ⟨rfl, -⟩ := Prod.mk.injEq .. ▸ Option.some.inj h
      exact Nat.le_refl _
  | cons a as ih =>
      obtain ⟨u, b, bs', hstep, hrun, -⟩ := runCalls_cons_eq_some.mp h
      have := hμ s a u b hstep
      have := ih hrun
      rw [List.length_cons]
      omega

/-- The output at a position is that of the call made there. -/
theorem getElem?_of_runCalls {s t : σ} {as as' : List α} {a : α} {bs : List β}
    (h : runCalls step s (as ++ a :: as') = some (t, bs)) :
    ∃ u cs v b, runCalls step s as = some (u, cs) ∧ step u a = some (v, b) ∧
      bs[as.length]? = some b := by
  obtain ⟨u, cs, ds, hrun, hrun', rfl⟩ := runCalls_append_eq_some.mp h
  obtain ⟨v, b, ds', hstep, -, rfl⟩ := runCalls_cons_eq_some.mp hrun'
  refine ⟨u, cs, v, b, hrun, hstep, ?_⟩
  rw [← length_of_runCalls hrun, List.getElem?_append_right (Nat.le_refl _)]
  simp

/-- **Simulation of call sequences.** If every call of the sequence that the specification
accepts, in a state that satisfies `O`, is accepted by the machine with a related state
and output, then so is the whole sequence, provided the intermediate states of the
specification satisfy `O`. -/
theorem runCalls_simulates_of_mem {R : σ → τ → Prop} {P : β → γ → Prop} {O : τ → Prop}
    {as : List α} {s : σ} {t t' : τ} {cs : List γ}
    (hsim : ∀ s t a t' c, a ∈ as → R s t → O t → spec t a = some (t', c) →
      ∃ s' b, step s a = some (s', b) ∧ R s' t' ∧ P b c)
    (hR : R s t) (hrun : runCalls spec t as = some (t', cs))
    (hok : ∀ pre post u ds, as = pre ++ post → runCalls spec t pre = some (u, ds) → O u) :
    ∃ s' bs, runCalls step s as = some (s', bs) ∧ R s' t' ∧ List.Forall₂ P bs cs := by
  induction as generalizing s t cs with
  | nil =>
      obtain ⟨rfl, rfl⟩ := Prod.mk.injEq .. ▸ Option.some.inj hrun
      exact ⟨s, [], rfl, hR, .nil⟩
  | cons a as ih =>
      obtain ⟨u, c, cs', hspec, hrun', rfl⟩ := runCalls_cons_eq_some.mp hrun
      obtain ⟨s₁, b, hstep, hR₁, hP⟩ :=
        hsim s t a u c List.mem_cons_self hR (hok [] _ t [] rfl rfl) hspec
      have hsim' := fun s t a' t' c (ha' : a' ∈ as) =>
        hsim s t a' t' c (List.mem_cons_of_mem a ha')
      obtain ⟨s', bs, hrun₁, hR', hall⟩ := ih hsim' hR₁ hrun' fun pre post v ds has hpre =>
        hok (a :: pre) post v (c :: ds) (by rw [has]; rfl)
          (runCalls_cons_eq_some.mpr ⟨u, c, ds, hspec, hpre, rfl⟩)
      exact ⟨s', b :: bs, runCalls_cons_eq_some.mpr ⟨s₁, b, bs, hstep, hrun₁, rfl⟩, hR',
        .cons hP hall⟩

end Transition

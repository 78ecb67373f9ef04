import Mathlib.Data.Set.Basic
import LinuxNetwork.Transition

/-!
# Level- and Edge-Triggered Readiness

One descriptor in an epoll set, and a program that waits for it in a loop and handles each
report. The kernel keeps the descriptor on its list of those that may be ready: it enters when
the descriptor is added or modified while it is ready, and whenever the descriptor wakes the
waiters. A wait looks at the list. It drops a descriptor that is not ready, and reports one that
is; an edge-triggered descriptor leaves the list with its report, a level-triggered one stays.

What the descriptor is, what happens to it from outside and what the handler does with it is left
open. A descriptor becomes ready only with a wake-up, and no handler makes it ready.

## Main results

* `level_due`: a level-triggered descriptor that is ready is reported.
* `level_spins`: if it is handled and left ready, it is reported without end.
* `edge_outputs_le`: each report of an edge-triggered descriptor takes a wake-up of its own.
* `traces_rearmed`: an edge-triggered descriptor that is modified behind each report is reported
  like a level-triggered one.
-/

open Transition

namespace Readiness

/-- A descriptor and its handler. -/
structure Source (σ ε ι ο : Type*) where
  ready : σ → Bool
  /-- What happens to the descriptor from outside. -/
  event : σ → ε → Option σ
  /-- The waiters are woken. -/
  wakes : σ → ε → Bool
  /-- The handler, with what it receives and what it puts out. -/
  handle : σ → ι → Option (σ × ο)
  wakes_of_ready : ∀ {s e t}, event s e = some t → ready t = true →
    ready s = true ∨ wakes s e = true
  ready_of_handle : ∀ {s i t o}, handle s i = some (t, o) → ready t = true → ready s = true

/-- How a descriptor is added to the epoll set. -/
inductive Trigger where
  | level
  | edge
deriving DecidableEq, Repr

/-- Where the program stands. -/
inductive Pc where
  /-- In the wait. -/
  | waiting
  /-- Before the handler of a report. -/
  | handling
  /-- Before the descriptor is modified. -/
  | rearming
deriving DecidableEq, Repr

/-- The descriptor, its place in the epoll set and the program. -/
structure State (σ : Type*) where
  source : σ
  /-- The descriptor is on the list of those that may be ready. -/
  listed : Bool
  pc : Pc

/-- The steps of the environment, of the kernel and of the program. -/
inductive Act (ε ι ο : Type*) where
  | event (e : ε)
  /-- A wait drops the descriptor, which is not ready. -/
  | drop
  | report
  | handle (i : ι) (o : ο)
  | rearm

/-- What an observer sees: what happens from outside, and what is put out. -/
inductive Label (ε ο : Type*) where
  | event (e : ε)
  | output (o : ο)
deriving DecidableEq, Repr

/-- Waits, reports and modifications are not seen. -/
def Act.label {ε ι ο : Type*} : Act ε ι ο → Option (Label ε ο)
  | .event e => some (.event e)
  | .handle _ o => some (.output o)
  | .drop | .report | .rearm => none

variable {σ ε ι ο : Type*} [DecidableEq ο] (S : Source σ ε ι ο) (trigger : Trigger)
  (rearms : Bool)

/-- One step of a program whose handler is followed by a modification if it `rearms`. -/
def step (s : State σ) : Act ε ι ο → Option (State σ)
  | .event e =>
      (S.event s.source e).map fun t =>
        { s with source := t, listed := s.listed || S.wakes s.source e }
  | .drop =>
      if s.pc = .waiting ∧ s.listed = true ∧ S.ready s.source = false then
        some { s with listed := false }
      else none
  | .report =>
      if s.pc = .waiting ∧ s.listed = true ∧ S.ready s.source = true then
        some { s with listed := decide (trigger = .level), pc := .handling }
      else none
  | .handle i o =>
      if s.pc = .handling then
        (S.handle s.source i).bind fun (t, o') =>
          if o = o' then
            some { s with source := t, pc := if rearms = true then .rearming else .waiting }
          else none
      else none
  | .rearm =>
      if rearms = true ∧ s.pc = .rearming then
        some { s with listed := s.listed || S.ready s.source, pc := .waiting }
      else none

/-- The program, behind the addition of the descriptor. -/
def loop (init : σ) : System (State σ) (Act ε ι ο) where
  init := fun s => s = ⟨init, S.ready init, .waiting⟩
  step := step S trigger rearms

variable {S trigger rearms} {init : σ} {s t : State σ} {e : ε} {i : ι} {o : ο}

/-! ### The steps -/

/-- Something happens from outside: it may wake the descriptor, and leaves the program where it
stands. -/
theorem step_event_eq_some : step S trigger rearms s (.event e) = some t ↔
    ∃ x, S.event s.source e = some x ∧
      t = ⟨x, s.listed || S.wakes s.source e, s.pc⟩ :=
  Option.map_eq_some_iff.trans (exists_congr fun _ => and_congr_right fun _ => eq_comm)

/-- A descriptor on the list that is not ready is dropped from it when the program waits. -/
theorem step_drop_eq_some : step S trigger rearms s .drop = some t ↔
    (s.pc = .waiting ∧ s.listed = true ∧ S.ready s.source = false) ∧
      t = ⟨s.source, false, s.pc⟩ :=
  Option.ite_none_right_eq_some.trans (and_congr_right fun _ => Option.some_inj.trans eq_comm)

/-- A descriptor on the list that is ready is reported when the program waits, and stays on the
list if it is level-triggered. -/
theorem step_report_eq_some : step S trigger rearms s .report = some t ↔
    (s.pc = .waiting ∧ s.listed = true ∧ S.ready s.source = true) ∧
      t = ⟨s.source, decide (trigger = .level), .handling⟩ :=
  Option.ite_none_right_eq_some.trans (and_congr_right fun _ => Option.some_inj.trans eq_comm)

/-- A report is handled, and then the program waits again or modifies the descriptor. -/
theorem step_handle_eq_some : step S trigger rearms s (.handle i o) = some t ↔
    s.pc = .handling ∧ ∃ x, S.handle s.source i = some (x, o) ∧
      t = ⟨x, s.listed, if rearms = true then .rearming else .waiting⟩ := by
  simp only [step, Option.ite_none_right_eq_some, Option.bind_eq_some_iff, Prod.exists,
    Option.some.injEq]
  refine and_congr_right fun _ => ⟨?_, ?_⟩
  · rintro ⟨x, o', hx, rfl, rfl⟩
    exact ⟨x, hx, rfl⟩
  · rintro ⟨x, hx, rfl⟩
    exact ⟨x, o, hx, rfl, rfl⟩

/-- The descriptor is modified, which puts it on the list if it is ready. -/
theorem step_rearm_eq_some : step S trigger rearms s .rearm = some t ↔
    (rearms = true ∧ s.pc = .rearming) ∧
      t = ⟨s.source, s.listed || S.ready s.source, .waiting⟩ :=
  Option.ite_none_right_eq_some.trans (and_congr_right fun _ => Option.some_inj.trans eq_comm)

/-- **What a step does to the descriptor**: nothing, if it is not seen, and otherwise what happens
from outside or what the handler does. -/
theorem source_cases {a : Act ε ι ο} (hstep : step S trigger rearms s a = some t) :
    (a.label = none ∧ t.source = s.source) ∨
      (∃ e, a = .event e ∧ S.event s.source e = some t.source) ∨
        ∃ i o, a = .handle i o ∧ S.handle s.source i = some (t.source, o) := by
  cases a with
  | event e =>
      obtain ⟨x, hx, rfl⟩ := step_event_eq_some.mp hstep
      exact .inr (.inl ⟨e, rfl, hx⟩)
  | drop =>
      obtain ⟨-, rfl⟩ := step_drop_eq_some.mp hstep
      exact .inl ⟨rfl, rfl⟩
  | report =>
      obtain ⟨-, rfl⟩ := step_report_eq_some.mp hstep
      exact .inl ⟨rfl, rfl⟩
  | handle i o =>
      obtain ⟨-, x, hx, rfl⟩ := step_handle_eq_some.mp hstep
      exact .inr (.inr ⟨i, o, rfl, hx⟩)
  | rearm =>
      obtain ⟨-, rfl⟩ := step_rearm_eq_some.mp hstep
      exact .inl ⟨rfl, rfl⟩

/-- A program that does not modify the descriptor is never about to do so. -/
theorem pc_ne_rearming (h : (loop S trigger false init).Reachable s) : s.pc ≠ .rearming := by
  refine System.Inductive.holds (I := fun s => s.pc ≠ .rearming) ⟨?_, ?_⟩ h
  · rintro _ rfl
    exact Pc.noConfusion
  · intro s a t hs _ hstep
    change step S trigger false s a = some t at hstep
    cases a with
    | event e =>
        obtain ⟨x, -, rfl⟩ := step_event_eq_some.mp hstep
        exact hs
    | drop =>
        obtain ⟨-, rfl⟩ := step_drop_eq_some.mp hstep
        exact hs
    | report =>
        obtain ⟨-, rfl⟩ := step_report_eq_some.mp hstep
        exact Pc.noConfusion
    | handle i o =>
        obtain ⟨-, x, -, rfl⟩ := step_handle_eq_some.mp hstep
        exact Pc.noConfusion
    | rearm =>
        obtain ⟨⟨hrearms, -⟩, -⟩ := step_rearm_eq_some.mp hstep
        cases hrearms

/-! ### Level-triggered descriptors -/

/-- **A ready descriptor is due**: it is on the list when the program waits, and stays there
while it is handled. -/
def Due (S : Source σ ε ι ο) (s : State σ) : Prop :=
  match s.pc with
  | .waiting => S.ready s.source = true → s.listed = true
  | .handling => s.listed = true
  | .rearming => False

/-- **A level-triggered descriptor is due** in every reached state: if it is ready when the
program waits, it is on the list, and it stays there while it is handled. -/
theorem level_due (h : (loop S .level false init).Reachable s) : Due S s := by
  refine System.Inductive.holds (I := Due S) ⟨?_, ?_⟩ h
  · rintro _ rfl
    exact id
  · intro s a t hs _ hstep
    change step S .level false s a = some t at hstep
    cases a with
    | event e =>
        obtain ⟨x, hx, rfl⟩ := step_event_eq_some.mp hstep
        cases hpc : s.pc with
        | waiting =>
            rw [Due, hpc] at hs
            simp only [Due, Bool.or_eq_true]
            intro hready
            exact (S.wakes_of_ready hx hready).imp_left hs
        | handling =>
            rw [Due, hpc] at hs
            simp only [Due, hs, Bool.true_or]
        | rearming =>
            rw [Due, hpc] at hs
            exact hs.elim
    | drop =>
        obtain ⟨⟨hpc, -, hready⟩, rfl⟩ := step_drop_eq_some.mp hstep
        simp [Due, hpc, hready]
    | report =>
        obtain ⟨-, rfl⟩ := step_report_eq_some.mp hstep
        simp [Due]
    | handle i o =>
        obtain ⟨hpc, x, -, rfl⟩ := step_handle_eq_some.mp hstep
        rw [Due, hpc] at hs
        exact fun _ => hs
    | rearm =>
        obtain ⟨⟨hrearms, -⟩, -⟩ := step_rearm_eq_some.mp hstep
        cases hrearms

/-- **A level-triggered descriptor that stays ready** is reported without end: from a state in
which it is ready the program puts out the same over and over, and nothing has to happen from
outside. Induction on the number of outputs, each of which takes one more report and its
handling. -/
theorem level_spins (hdue : Due S s) (hready : S.ready s.source = true)
    (hhandle : S.handle s.source i = some (s.source, o)) (n : ℕ) :
    ∃ as t, (loop S .level false init).run s as = some t ∧ t.source = s.source ∧
      as.filterMap Act.label = List.replicate n (.output o) := by
  induction n generalizing s with
  | zero => exact ⟨[], s, rfl, rfl, rfl⟩
  | succ n ih =>
      have hstep : ∃ as, (loop S .level false init).run s as =
          some ⟨s.source, true, .waiting⟩ ∧ as.filterMap Act.label = [.output o] := by
        cases hpc : s.pc with
        | waiting =>
            rw [Due, hpc] at hdue
            have hlisted := hdue hready
            refine ⟨[.report, .handle i o], ?_, rfl⟩
            simp [System.run, loop, step, hpc, hlisted, hready, hhandle]
        | handling =>
            rw [Due, hpc] at hdue
            refine ⟨[.handle i o], ?_, rfl⟩
            simp [System.run, loop, step, hpc, hdue, hhandle]
        | rearming =>
            rw [Due, hpc] at hdue
            exact hdue.elim
      obtain ⟨as, hrun, has⟩ := hstep
      obtain ⟨bs, t, hrun', ht, hbs⟩ := ih (s := ⟨s.source, true, .waiting⟩) (fun _ => rfl) hready
        hhandle
      refine ⟨as ++ bs, t, by rw [System.run_append hrun, hrun'], ht, ?_⟩
      rw [List.filterMap_append, has, hbs]
      rfl

/-! ### Edge-triggered descriptors -/

/-- The reports that an edge-triggered descriptor has to its credit. -/
def credit (s : State σ) : ℕ :=
  s.listed.toNat + if s.pc = .handling then 1 else 0

/-- The outputs among the labels. -/
def outputs (trace : List (Label ε ο)) : List ο :=
  trace.filterMap fun
    | .event _ => none
    | .output o => some o

/-- The events among the labels. -/
def events (trace : List (Label ε ο)) : List ε :=
  trace.filterMap fun
    | .event e => some e
    | .output _ => none

/-- One step spends a report for an output, and an event brings one at most, since it is one
edge. -/
theorem credit_step {a : Act ε ι ο} (hstep : step S .edge false s a = some t) :
    credit t + (outputs a.label.toList).length ≤ credit s + (events a.label.toList).length := by
  cases a with
  | event e =>
      obtain ⟨x, -, rfl⟩ := step_event_eq_some.mp hstep
      have hone : (s.listed || S.wakes s.source e).toNat ≤ 1 := Bool.toNat_le _
      simp only [credit, Act.label, Option.toList_some, outputs, events, List.filterMap_cons,
        List.filterMap_nil, List.length_nil, List.length_singleton]
      omega
  | drop =>
      obtain ⟨⟨hpc, -, -⟩, rfl⟩ := step_drop_eq_some.mp hstep
      simp [credit, Act.label, outputs, events, hpc]
  | report =>
      obtain ⟨⟨hpc, hlisted, -⟩, rfl⟩ := step_report_eq_some.mp hstep
      simp [credit, Act.label, outputs, events, hpc, hlisted]
  | handle i o =>
      obtain ⟨hpc, x, -, rfl⟩ := step_handle_eq_some.mp hstep
      simp [credit, Act.label, outputs, events, hpc]
  | rearm =>
      obtain ⟨⟨hrearms, -⟩, -⟩ := step_rearm_eq_some.mp hstep
      cases hrearms

/-- **Each output takes an event of its own**, up to the credit. Induction on the run. -/
theorem edge_outputs_le {as : List (Act ε ι ο)}
    (hrun : (loop S .edge false init).run s as = some t) :
    credit t + (outputs (as.filterMap Act.label)).length ≤
      credit s + (events (as.filterMap Act.label)).length := by
  induction as generalizing s with
  | nil =>
      obtain rfl := Option.some.inj hrun
      exact Nat.le_refl _
  | cons a as ih =>
      obtain ⟨u, hu, hrun⟩ := Option.bind_eq_some_iff.mp hrun
      have hstep := credit_step (show step S .edge false s a = some u from hu)
      have hrest := ih hrun
      have hcons : (a :: as).filterMap Act.label =
          a.label.toList ++ as.filterMap Act.label := by
        rw [List.filterMap_cons]
        cases a.label <;> rfl
      rw [hcons, outputs, events, List.filterMap_append, List.filterMap_append, List.length_append,
        List.length_append]
      rw [outputs, events] at hstep hrest
      omega

/-! ### Edge-triggered descriptors that are modified behind each report -/

/-- The states of a level-triggered descriptor and of an edge-triggered one that is modified
behind each report: on the list is the same for both as far as they are ready. -/
def Alike (S : Source σ ε ι ο) (s t : State σ) : Prop :=
  s.source = t.source ∧
    match t.pc with
    | .waiting => s.pc = .waiting ∧ (S.ready t.source = true → s.listed = t.listed)
    | .handling => s.pc = .handling ∧ s.listed = true
    | .rearming => s.pc = .waiting ∧ s.listed = true

omit [DecidableEq ο] in
/-- What happens from outside happens to both, and keeps them alike. -/
theorem Alike.event {s' t' : State σ} (h : Alike S s t) {x : σ}
    (hevent : S.event t.source e = some x)
    (hs' : s' = ⟨x, s.listed || S.wakes t.source e, s.pc⟩)
    (ht' : t' = ⟨x, t.listed || S.wakes t.source e, t.pc⟩) : Alike S s' t' := by
  subst hs' ht'
  obtain ⟨-, h⟩ := h
  refine ⟨rfl, ?_⟩
  cases hpc : t.pc with
  | waiting =>
      rw [hpc] at h
      refine ⟨h.1, fun hready => ?_⟩
      rcases S.wakes_of_ready hevent hready with hold | hwakes
      · rw [h.2 hold]
      · simp [hwakes]
  | handling | rearming =>
      rw [hpc] at h
      exact ⟨h.1, by simp [h.2]⟩

/-- The modification that is still to come changes nothing that can be seen, so it may be made
at once. -/
theorem Alike.settle (init : σ) (h : Alike S s t) :
    ∃ bs u, (loop S .edge true init).run t bs = some u ∧ bs.filterMap Act.label = [] ∧
      Alike S s u ∧ u.pc ≠ .rearming := by
  cases hpc : t.pc with
  | waiting | handling => exact ⟨[], t, rfl, rfl, h, by simp [hpc]⟩
  | rearming =>
      obtain ⟨hsource, h⟩ := h
      rw [hpc] at h
      refine ⟨[.rearm], ⟨t.source, t.listed || S.ready t.source, .waiting⟩, ?_, rfl,
        ⟨hsource, h.1, fun hready => ?_⟩, nofun⟩
      · simp [System.run, loop, step, hpc]
      · simp [h.2, hready]

/-- **The edge-triggered descriptor follows.** When its modification is made, what is left to be
matched takes one step, or none. -/
theorem Alike.level_step {s' : State σ} {a : Act ε ι ο} (h : Alike S s t)
    (hstep : step S .level false s a = some s') :
    ∃ bs t', (loop S .edge true init).run t bs = some t' ∧
      bs.filterMap Act.label = a.label.toList ∧ Alike S s' t' := by
  obtain ⟨cs, u, hcs, hsilent, h, hpc⟩ := h.settle init
  suffices hone : (a.label = none ∧ Alike S s' u) ∨
      ∃ u', step S .edge true u a = some u' ∧ Alike S s' u' by
    rcases hone with ⟨hlabel, h'⟩ | ⟨u', hu', h'⟩
    · exact ⟨cs, u, hcs, by rw [hsilent, hlabel]; rfl, h'⟩
    · refine ⟨cs ++ [a], u', ?_, ?_, h'⟩
      · rw [System.run_append hcs, System.run, show (loop S .edge true init).step u a = _ from hu']
        rfl
      · rw [List.filterMap_append, hsilent, List.filterMap_cons]
        cases a.label <;> rfl
  obtain ⟨hsource, hpcs⟩ := h
  cases a with
  | event e =>
      obtain ⟨x, hx, hs'⟩ := step_event_eq_some.mp hstep
      rw [hsource] at hx hs'
      exact .inr ⟨_, step_event_eq_some.mpr ⟨x, hx, rfl⟩, Alike.event ⟨hsource, hpcs⟩ hx hs' rfl⟩
  | drop =>
      obtain ⟨⟨hwaiting, -, hready⟩, rfl⟩ := step_drop_eq_some.mp hstep
      refine .inl ⟨rfl, hsource, ?_⟩
      cases hu : u.pc with
      | waiting => exact ⟨hwaiting, fun hready' => by simp [← hsource, hready] at hready'⟩
      | handling =>
          rw [hu] at hpcs
          cases hwaiting.symm.trans hpcs.1
      | rearming => exact absurd hu hpc
  | report =>
      obtain ⟨⟨hwaiting, hlisted, hready⟩, rfl⟩ := step_report_eq_some.mp hstep
      rw [hsource] at hready
      cases hu : u.pc with
      | waiting =>
          rw [hu] at hpcs
          refine .inr ⟨_, step_report_eq_some.mpr ⟨⟨hu, ?_, hready⟩, rfl⟩, hsource, rfl, rfl⟩
          rw [← hpcs.2 hready, hlisted]
      | handling =>
          rw [hu] at hpcs
          cases hwaiting.symm.trans hpcs.1
      | rearming => exact absurd hu hpc
  | handle i o =>
      obtain ⟨hhandling, x, hx, rfl⟩ := step_handle_eq_some.mp hstep
      rw [hsource] at hx
      cases hu : u.pc with
      | waiting =>
          rw [hu] at hpcs
          cases hhandling.symm.trans hpcs.1
      | handling =>
          rw [hu] at hpcs
          exact .inr ⟨_, step_handle_eq_some.mpr ⟨hu, x, hx, rfl⟩, rfl, rfl, hpcs.2⟩
      | rearming => exact absurd hu hpc
  | rearm =>
      obtain ⟨⟨hrearms, -⟩, -⟩ := step_rearm_eq_some.mp hstep
      cases hrearms

/-- **The level-triggered descriptor follows**, and stays where it is when the other one is
modified. -/
theorem Alike.edge_step {t' : State σ} {a : Act ε ι ο} (h : Alike S s t)
    (hstep : step S .edge true t a = some t') :
    ∃ bs s', (loop S .level false init).run s bs = some s' ∧
      bs.filterMap Act.label = a.label.toList ∧ Alike S s' t' := by
  suffices hone : (a.label = none ∧ Alike S s t') ∨
      ∃ s', step S .level false s a = some s' ∧ Alike S s' t' by
    rcases hone with ⟨hlabel, h'⟩ | ⟨s', hs', h'⟩
    · exact ⟨[], s, rfl, by rw [hlabel]; rfl, h'⟩
    · refine ⟨[a], s', ?_, ?_, h'⟩
      · rw [System.run, show (loop S .level false init).step s a = _ from hs']
        rfl
      · rw [List.filterMap_cons]
        cases a.label <;> rfl
  obtain ⟨hsource, hpcs⟩ := h
  cases a with
  | event e =>
      obtain ⟨x, hx, ht'⟩ := step_event_eq_some.mp hstep
      have hx' := hx
      rw [← hsource] at hx'
      refine .inr ⟨_, step_event_eq_some.mpr ⟨x, hx', rfl⟩,
        Alike.event ⟨hsource, hpcs⟩ hx (by rw [hsource]) ht'⟩
  | drop =>
      obtain ⟨⟨hwaiting, -, hready⟩, rfl⟩ := step_drop_eq_some.mp hstep
      rw [hwaiting] at hpcs
      refine .inl ⟨rfl, hsource, ?_⟩
      simp only [hwaiting]
      exact ⟨hpcs.1, fun hready' => by simp [hready] at hready'⟩
  | report =>
      obtain ⟨⟨hwaiting, hlisted, hready⟩, rfl⟩ := step_report_eq_some.mp hstep
      rw [hwaiting] at hpcs
      refine .inr ⟨_, step_report_eq_some.mpr ⟨⟨hpcs.1, ?_, ?_⟩, rfl⟩, hsource, rfl, rfl⟩
      · rw [hpcs.2 hready, hlisted]
      · rw [hsource, hready]
  | handle i o =>
      obtain ⟨hhandling, x, hx, rfl⟩ := step_handle_eq_some.mp hstep
      rw [hhandling] at hpcs
      rw [← hsource] at hx
      exact .inr ⟨_, step_handle_eq_some.mpr ⟨hpcs.1, x, hx, rfl⟩, rfl, rfl, hpcs.2⟩
  | rearm =>
      obtain ⟨⟨-, hrearming⟩, rfl⟩ := step_rearm_eq_some.mp hstep
      rw [hrearming] at hpcs
      exact .inl ⟨rfl, hsource, hpcs.1, fun hready => by simp [hpcs.2, hready]⟩

/-- **Modifying a descriptor is as good as leaving it on the list.** -/
theorem traces_rearmed (S : Source σ ε ι ο) (init : σ) :
    (loop S .level false init).Traces Act.label = (loop S .edge true init).Traces Act.label := by
  have hinit : Alike S ⟨init, S.ready init, .waiting⟩ ⟨init, S.ready init, .waiting⟩ :=
    ⟨rfl, rfl, fun _ => rfl⟩
  refine Set.Subset.antisymm (System.traces_subset (R := fun s t => Alike S s t) ?_ ?_)
    (System.traces_subset (R := fun t s => Alike S s t) ?_ ?_)
  · rintro _ rfl
    exact ⟨_, rfl, hinit⟩
  · exact fun s t a s' h hstep => h.level_step hstep
  · rintro _ rfl
    exact ⟨_, rfl, hinit⟩
  · exact fun t s a t' h hstep => h.edge_step hstep

end Readiness

import Mathlib.Data.Int.Notation
import LinuxNetwork.Custody
import LinuxNetwork.Transition

/-!
# Socket Handles

This module embeds `SocketHandle` of `thread_pool_server.h`: an object that owns a descriptor, or
none when its `fd_` is -1, and closes it when it is destroyed. A handle cannot be copied. It can be
moved from: the descriptor passes to another handle, and `fd_` becomes -1.

A handle is known by its address. The operations are those of a program that uses every object
between its construction and its destruction: `step` returns `none` for any other. What becomes of
the descriptors is recorded in `trace`.

## Main definitions

* `SocketHandle.Handles`, `SocketHandle.step`: the live handles, and the operations.
* `SocketHandle.owned`: the descriptor that a handle owns.

## Main results

* `SocketHandle.custody_step`: what every operation keeps.
* `SocketHandle.closes_once`: every descriptor is closed once, or released.
-/

open Transition

namespace LinuxNetwork.SocketHandle

/-- What becomes of a descriptor. -/
inductive Event where
  /-- `::close(fd)` -/
  | closed (fd : ℤ)
  /-- `release()` returned it. -/
  | released (fd : ℤ)
deriving DecidableEq, Repr

/-- The descriptor of an event. -/
def Event.fd : Event → ℤ
  | .closed fd => fd
  | .released fd => fd

/-- The handles: the field `fd_` of each that is alive. -/
structure Handles where
  fd : ℕ → Option ℤ
  trace : List Event

/-- There are no handles yet. -/
def Handles.new : Handles where
  fd := fun _ => none
  trace := []

/-- An assignment to the field `fd_` of a handle. -/
def Handles.setFd (s : Handles) (h : ℕ) (fd : ℤ) : Handles :=
  { s with fd := Function.update s.fd h (some fd) }

/-- `if (fd_ != -1) ::close(fd_);` -/
def Handles.close (s : Handles) (fd : ℤ) : Handles :=
  if fd ≠ -1 then { s with trace := s.trace ++ [.closed fd] } else s

/-- An operation on handles. -/
inductive Op where
  /-- `SocketHandle(fd)`; the handle is empty if `fd` is -1. -/
  | construct (h : ℕ) (fd : ℤ)
  /-- `SocketHandle(SocketHandle&& other)` -/
  | moveConstruct (h other : ℕ)
  /-- `operator=(SocketHandle&& other)` -/
  | moveAssign (h other : ℕ)
  /-- `release()` -/
  | release (h : ℕ)
  /-- `~SocketHandle()` -/
  | destroy (h : ℕ)
deriving DecidableEq, Repr

/-- The handles after an operation. -/
def step (s : Handles) : Op → Option Handles
  | .construct h fd => if s.fd h = none then some (s.setFd h fd) else none
  | .moveConstruct h other =>
      if s.fd h = none then do
        let fd ← s.fd other
        some ((s.setFd h fd).setFd other (-1))
      else none
  | .moveAssign h other => do
      let fd ← s.fd h
      let fd' ← s.fd other
      if h ≠ other then some (((s.close fd).setFd h fd').setFd other (-1)) else some s
  | .release h => do
      let tmp ← s.fd h
      let s := s.setFd h (-1)
      if tmp ≠ -1 then some { s with trace := s.trace ++ [.released tmp] } else some s
  | .destroy h => do
      let fd ← s.fd h
      some { s.close fd with fd := Function.update s.fd h none }

/-- A program that uses handles. -/
def handles : System Handles Op where
  init := fun s => s = .new
  step := step

/-- The descriptors that operations construct handles from. -/
def enteredBy : List Op → List ℤ
  | [] => []
  | .construct _ fd :: ops => if fd ≠ -1 then fd :: enteredBy ops else enteredBy ops
  | .moveConstruct _ _ :: ops => enteredBy ops
  | .moveAssign _ _ :: ops => enteredBy ops
  | .release _ :: ops => enteredBy ops
  | .destroy _ :: ops => enteredBy ops

/-! ### The descriptors in the hands of handles -/

/-- The descriptor of a field `fd_`, if it is one. -/
def descriptor (fd : ℤ) : Option ℤ :=
  if fd ≠ -1 then some fd else none

/-- The descriptor that a handle owns. -/
def Handles.owned (s : Handles) (h : ℕ) : Option ℤ :=
  (s.fd h).bind descriptor

/-- The descriptors that were closed or released, in order. -/
def Handles.gone (s : Handles) : List ℤ :=
  s.trace.map Event.fd

variable {s t : Handles} {h other : ℕ} {fd : ℤ} {op : Op} {ops : List Op} {entered : List ℤ}

@[simp] theorem descriptor_neg_one : descriptor (-1) = none := rfl

/-- `close` writes the trace and no field `fd_`, so every handle holds what it held before. -/
@[simp] theorem close_fd (s : Handles) (fd : ℤ) : (s.close fd).fd = s.fd := by
  rw [Handles.close]
  split <;> rfl

@[simp] theorem gone_setFd (s : Handles) (h : ℕ) (fd : ℤ) : (s.setFd h fd).gone = s.gone := rfl

/-- What a call of `close` adds to the descriptors that are gone: its argument, unless that is
`-1`. -/
theorem gone_close (s : Handles) (fd : ℤ) :
    (s.close fd).gone = s.gone ++ (descriptor fd).toList := by
  rw [Handles.close, descriptor]
  split
  case isTrue => simp [Handles.gone, Event.fd]
  case isFalse => simp

/-- An assignment to `fd_` fills one hand, with the descriptor that the value stands for, and
leaves the other hands as they are. -/
theorem owned_setFd (s : Handles) (h : ℕ) (fd : ℤ) :
    (s.setFd h fd).owned = Function.update s.owned h (descriptor fd) := by
  funext h'
  by_cases hh : h' = h
  · subst hh
    simp [Handles.owned, Handles.setFd]
  · simp [Handles.owned, Handles.setFd, hh]

/-- A handle that is destroyed has an empty hand. -/
theorem owned_destroyed (s : Handles) (h : ℕ) :
    Handles.owned { s with fd := Function.update s.fd h none } =
      Function.update s.owned h none := by
  funext h'
  by_cases hh : h' = h
  · subst hh
    simp [Handles.owned]
  · simp [Handles.owned, hh]

/-- Who owns what depends on the fields `fd_` alone. -/
theorem owned_congr (hfd : s.fd = t.fd) : s.owned = t.owned := by
  funext h
  rw [Handles.owned, Handles.owned, hfd]

/-- The descriptors that enter in a sequence of operations are those of the first operation,
followed by those of the rest. -/
theorem enteredBy_cons (op : Op) (ops : List Op) :
    enteredBy (op :: ops) = enteredBy [op] ++ enteredBy ops := by
  cases op with
  | construct h fd =>
      simp only [enteredBy]
      split <;> rfl
  | moveConstruct | moveAssign | release | destroy => rfl

/-- What a live handle owns is in its field. -/
theorem owned_of_fd (hfd : s.fd h = some fd) : s.owned h = descriptor fd := by
  rw [Handles.owned, hfd, Option.bind_some]

/-- No handle, no descriptor. -/
theorem owned_of_none (hfd : s.fd h = none) : s.owned h = none := by
  rw [Handles.owned, hfd, Option.bind_none]

/-- **What an operation does with the descriptors.** -/
def Moves (s : Handles) (t : Handles) : Op → Prop
  | .construct h fd =>
      s.owned h = none ∧ t.owned = Function.update s.owned h (descriptor fd) ∧ t.gone = s.gone
  | .moveConstruct h other =>
      s.owned h = none ∧ t.gone = s.gone ∧
        t.owned = Function.update (Function.update s.owned h (s.owned other)) other none
  | .moveAssign h other =>
      (h = other ∧ t = s) ∨ (h ≠ other ∧ t.gone = s.gone ++ (s.owned h).toList ∧
        t.owned = Function.update (Function.update s.owned h (s.owned other)) other none)
  | .release h =>
      t.gone = s.gone ++ (s.owned h).toList ∧ t.owned = Function.update s.owned h none
  | .destroy h =>
      t.gone = s.gone ++ (s.owned h).toList ∧ t.owned = Function.update s.owned h none

/-- Every operation is one of the moves: nothing changes hands, a descriptor enters, it passes
from one hand to another, or it is closed or released. Cases on the operation. -/
theorem moves_of_step (hstep : step s op = some t) : Moves s t op := by
  cases op with
  | construct h fd =>
      obtain ⟨hfree, hstep⟩ := Option.ite_none_right_eq_some.mp hstep
      obtain rfl := Option.some.inj hstep
      exact ⟨owned_of_none hfree, owned_setFd s h fd, rfl⟩
  | moveConstruct h other =>
      obtain ⟨hfree, hstep⟩ := Option.ite_none_right_eq_some.mp hstep
      obtain ⟨fd, hfd, hstep⟩ := Option.bind_eq_some_iff.mp hstep
      obtain rfl := Option.some.inj hstep
      refine ⟨owned_of_none hfree, rfl, ?_⟩
      rw [owned_setFd, owned_setFd, owned_of_fd hfd, descriptor_neg_one]
  | moveAssign h other =>
      obtain ⟨fd, hfd, hstep⟩ := Option.bind_eq_some_iff.mp hstep
      obtain ⟨fd', hfd', hstep⟩ := Option.bind_eq_some_iff.mp hstep
      split at hstep
      case isTrue hne =>
        obtain rfl := Option.some.inj hstep
        refine .inr ⟨hne, ?_, ?_⟩
        · rw [gone_setFd, gone_setFd, gone_close, owned_of_fd hfd]
        · rw [owned_setFd, owned_setFd, owned_congr (close_fd s fd), owned_of_fd hfd',
            descriptor_neg_one]
      case isFalse heq => exact .inl ⟨not_not.mp heq, (Option.some.inj hstep).symm⟩
  | release h =>
      obtain ⟨fd, hfd, hstep⟩ := Option.bind_eq_some_iff.mp hstep
      rw [Moves, owned_of_fd hfd, ← descriptor_neg_one, ← owned_setFd]
      by_cases hempty : fd = -1
      · rw [if_neg (not_not.mpr hempty)] at hstep
        obtain rfl := Option.some.inj hstep
        refine ⟨?_, rfl⟩
        rw [hempty, descriptor_neg_one, Option.toList_none, List.append_nil, gone_setFd]
      · rw [if_pos hempty] at hstep
        obtain rfl := Option.some.inj hstep
        refine ⟨?_, owned_congr rfl⟩
        simp [Handles.gone, Handles.setFd, Event.fd, descriptor, hempty]
  | destroy h =>
      obtain ⟨fd, hfd, hstep⟩ := Option.bind_eq_some_iff.mp hstep
      obtain rfl := Option.some.inj hstep
      refine ⟨?_, owned_destroyed s h⟩
      rw [owned_of_fd hfd, ← gone_close]
      rfl

/-- **Every operation keeps the descriptors in custody**: each that entered is owned by one
handle, or was closed or released once. A handle that is assigned to gives up its descriptor
before it gets the other one. -/
theorem custody_step (hs : Custody s.owned s.gone entered) (hstep : step s op = some t)
    (hnew : ∀ fd ∈ enteredBy [op], fd ∉ entered) :
    Custody t.owned t.gone (entered ++ enteredBy [op]) := by
  have hmoves := moves_of_step hstep
  cases op with
  | construct h fd =>
      obtain ⟨hnone, howned, hgone⟩ := hmoves
      rw [howned, hgone]
      by_cases hfd : fd = -1
      · subst hfd
        have hsame : Function.update s.owned h none = s.owned := by
          rw [← hnone, Function.update_eq_self]
        rw [descriptor_neg_one, hsame]
        exact (List.append_nil entered).symm ▸ hs
      · have hentered : enteredBy [.construct h fd] = [fd] := if_pos hfd
        rw [hentered] at hnew ⊢
        rw [descriptor, if_pos hfd]
        exact hs.enter hnone (hnew fd List.mem_cons_self)
  | moveConstruct h other =>
      obtain ⟨hnone, hgone, howned⟩ := hmoves
      rw [howned, hgone]
      exact (List.append_nil entered).symm ▸ hs.handOn hnone other
  | moveAssign h other =>
      rcases hmoves with ⟨-, rfl⟩ | ⟨hne, hgone, howned⟩
      · exact (List.append_nil entered).symm ▸ hs
      · have hon := (hs.giveUp h).handOn (Function.update_self ..) other
        rw [Function.update_of_ne hne.symm, Function.update_idem] at hon
        rw [howned, hgone]
        exact (List.append_nil entered).symm ▸ hon
  | release h | destroy h =>
      obtain ⟨hgone, howned⟩ := hmoves
      rw [howned, hgone]
      exact (List.append_nil entered).symm ▸ hs.giveUp h

/-- **Sequences of operations keep the descriptors in custody**, if no descriptor enters twice.
Induction on the sequence, with the descriptors that entered so far. -/
theorem custody_run (hs : Custody s.owned s.gone entered) (hrun : handles.run s ops = some t)
    (hdistinct : (enteredBy ops).Nodup) (hnew : ∀ fd ∈ enteredBy ops, fd ∉ entered) :
    Custody t.owned t.gone (entered ++ enteredBy ops) := by
  induction ops generalizing s entered with
  | nil =>
      obtain rfl := Option.some.inj hrun
      exact (List.append_nil entered).symm ▸ hs
  | cons op ops ih =>
      obtain ⟨u, hstep, hrun⟩ := Option.bind_eq_some_iff.mp hrun
      rw [enteredBy_cons] at hdistinct hnew ⊢
      have hdisjoint := List.disjoint_of_nodup_append hdistinct
      rw [← List.append_assoc]
      refine ih (custody_step hs hstep fun fd hfd => hnew fd (List.mem_append_left _ hfd)) hrun
        hdistinct.of_append_right fun fd hfd hmem => ?_
      rcases List.mem_append.mp hmem with hold | hop
      · exact hnew fd (List.mem_append_right _ hfd) hold
      · exact hdisjoint hop hfd

/-- **Every descriptor is closed exactly once, or released.** For every sequence of operations on
handles constructed from distinct descriptors or empty, no two live handles own the same descriptor,
none is closed twice, or closed and released, and when all handles are destroyed, every descriptor
that entered and was not released has been closed once. -/
theorem closes_once (hrun : handles.run .new ops = some t) (hdistinct : (enteredBy ops).Nodup) :
    (∀ h h' fd, fd ≠ -1 → t.fd h = some fd → t.fd h' = some fd → h = h') ∧
      (∀ fd, t.trace.count (.closed fd) ≤ 1) ∧
      (∀ fd pre post, t.trace = pre ++ .released fd :: post → .closed fd ∉ pre ++ post) ∧
      ((∀ h, t.fd h = none) → ∀ fd ∈ enteredBy ops, .released fd ∉ t.trace →
        t.trace.count (.closed fd) = 1) := by
  have hcustody : Custody t.owned t.gone ([] ++ enteredBy ops) :=
    custody_run Custody.empty hrun hdistinct fun _ _ => List.not_mem_nil
  have hnodup : t.trace.Nodup := .of_map Event.fd hcustody.nodup
  refine ⟨fun h h' fd hfd hh hh' => ?_, fun fd => List.nodup_iff_count_le_one.mp hnodup _,
    fun fd pre post htrace hmem => ?_, fun hempty fd hfd hreleased => ?_⟩
  · have hown : descriptor fd = some fd := if_pos hfd
    exact hcustody.unique h h' fd (hown ▸ owned_of_fd hh) (hown ▸ owned_of_fd hh')
  · have hgone := hcustody.nodup
    rw [Handles.gone, htrace, List.map_append, List.map_cons, List.nodup_middle] at hgone
    rw [← List.map_append] at hgone
    exact (List.nodup_cons.mp hgone).1 (List.mem_map.mpr ⟨_, hmem, rfl⟩)
  · obtain ⟨e, he, rfl⟩ := List.mem_map.mp
      (hcustody.gone_of_empty (fun h => owned_of_none (hempty h)) hfd)
    cases e with
    | closed fd => exact List.count_eq_one_of_mem hnodup he
    | released fd => exact absurd he hreleased

/-- The descriptor 7 passes to a second handle and from there to a third, which had 8 and is
assigned to itself; a fourth handle releases 9. -/
theorem closes_once_example :
    ∃ t, handles.run .new [.construct 0 7, .moveConstruct 1 0, .destroy 0, .construct 2 8,
        .moveAssign 2 1, .moveAssign 2 2, .destroy 1, .construct 3 9, .release 3, .destroy 3,
        .destroy 2] = some t ∧
      t.trace.count (.closed 7) = 1 ∧ t.trace.count (.closed 8) = 1 := by
  obtain ⟨t, hrun, hreleased, hempty⟩ : ∃ t, handles.run .new [.construct 0 7, .moveConstruct 1 0,
      .destroy 0, .construct 2 8, .moveAssign 2 1, .moveAssign 2 2, .destroy 1, .construct 3 9,
      .release 3, .destroy 3, .destroy 2] = some t ∧ t.trace = [.closed 8, .released 9, .closed 7] ∧
        ∀ h, t.fd h = none := by
    refine ⟨_, rfl, rfl, fun h => ?_⟩
    simp +contextual [Handles.setFd, Handles.close, Handles.new, Function.update_apply]
  have hall := (closes_once hrun (by decide)).2.2.2 hempty
  refine ⟨t, hrun, hall 7 (by decide) ?_, hall 8 (by decide) ?_⟩
  · simp [hreleased]
  · simp [hreleased]

/-- A connection on its way through `enqueue`: a temporary is moved into the bound call, and that
into the task, which a worker destroys. -/
example : (handles.run .new [.construct 0 7, .moveConstruct 1 0, .moveConstruct 2 1, .destroy 1,
    .destroy 0, .destroy 2]).map Handles.trace = some [.closed 7] := by decide

end LinuxNetwork.SocketHandle

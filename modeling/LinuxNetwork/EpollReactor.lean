import Mathlib.Data.Int.Notation
import Mathlib.Tactic.Common

/-!
# The Handler Map of the Reactor

This module embeds `RegisterIO` and `RemoveIO` of `CEpollReactor` (`epoll_reactor.cc`), with
the epoll instance behind `m_fdEpoll`. A handler is its address, a descriptor an `int`, and
`m_mapEvents` an ordered map from handlers to descriptors.

`GetIds` has an empty body in the header, to be filled in by the classes that derive from
`CEventHandler`: what it stores is part of the call. So is whether the kernel has a reason of
its own to refuse the descriptor of an `EPOLL_CTL_ADD`. It refuses negative descriptors and
those that the instance has already. The error message is left out.

## Main definitions

* `CEpollReactor.registerIo`, `CEpollReactor.removeIo`: the two calls.
* `CEpollReactor.InStep`: the map and the epoll instance hold the same pairs.

## Main results

* `CEpollReactor.InStep.call_iff`: which calls keep map and instance in step.
* `CEpollReactor.inStep_iff_keeps`: the sequences of calls that keep them in step throughout.
-/

namespace LinuxNetwork

/-- A `CEventHandler *`. -/
abbrev CEventHandler : Type := ℕ

/-- A null `CEventHandler *`. -/
def nullHandler : CEventHandler := 0

/-- `EPOLLIN` -/
def EPOLLIN : BitVec 32 := 0x001#32

/-- `EPOLLOUT` -/
def EPOLLOUT : BitVec 32 := 0x004#32

/-- An `epoll_event` whose data is a handler. -/
structure EpollEvent where
  events : BitVec 32
  /-- The field `data.ptr`. -/
  ptr : CEventHandler
deriving DecidableEq, Repr

/-- What `GetIds` stores. Both variables are zero before. -/
structure Ids where
  nReadID : ℤ
  nWriteID : ℤ
deriving DecidableEq, Repr

/-- The descriptor that `RegisterIO` goes on with: the write id where there is no read id. -/
def Ids.registered (ids : Ids) : ℤ :=
  if ids.nWriteID ≠ 0 ∧ ids.nReadID = 0 then ids.nWriteID else ids.nReadID

/-- The reactor (`CEpollReactor`): the handler map, and the descriptors that the epoll instance
watches, each with the event it was added with. -/
structure CEpollReactor where
  mapEvents : Std.TreeMap CEventHandler ℤ
  epoll : ℤ → Option EpollEvent

namespace CEpollReactor

/-- The constructor: nothing is registered. -/
def new : CEpollReactor where
  mapEvents := ∅
  epoll := fun _ => none

/-! ### The epoll instance -/

/-- `EPOLL_CTL_ADD` succeeds. The kernel `admits` a descriptor unless it has a reason of its own
to refuse it. -/
def AddSucceeds (r : CEpollReactor) (fd : ℤ) (admits : Bool) : Prop :=
  0 ≤ fd ∧ r.epoll fd = none ∧ admits = true

instance (r : CEpollReactor) (fd : ℤ) (admits : Bool) : Decidable (r.AddSucceeds fd admits) :=
  inferInstanceAs (Decidable (_ ∧ _ ∧ _))

/-- `epoll_ctl(m_fdEpoll, EPOLL_CTL_ADD, fd, &ev)` -/
def ctlAdd (r : CEpollReactor) (fd : ℤ) (ev : EpollEvent) (admits : Bool) : CEpollReactor :=
  if r.AddSucceeds fd admits then { r with epoll := Function.update r.epoll fd (some ev) }
  else r

/-- `epoll_ctl(m_fdEpoll, EPOLL_CTL_DEL, fd, &ev)` -/
def ctlDel (r : CEpollReactor) (fd : ℤ) : CEpollReactor :=
  { r with epoll := Function.update r.epoll fd none }

/-- `epoll_ctl(m_fdEpoll, EPOLL_CTL_MOD, fd, &ev)` -/
def ctlMod (r : CEpollReactor) (fd : ℤ) (ev : EpollEvent) : CEpollReactor :=
  { r with epoll := Function.update r.epoll fd ((r.epoll fd).map fun _ => ev) }

/-! ### The calls -/

/-- `RegisterIO(pEventHandle)` -/
def registerIo (r : CEpollReactor) (pEventHandle : CEventHandler) (ids : Ids) (admits : Bool) :
    CEpollReactor :=
  let nReadID := ids.registered
  if nReadID ≠ 0 then
    let r := { r with mapEvents := r.mapEvents.insert pEventHandle nReadID }
    r.ctlAdd nReadID ⟨EPOLLIN, pEventHandle⟩ admits
  else r

/-- `RemoveIO(pEventHandle)` -/
def removeIo (r : CEpollReactor) (pEventHandle : CEventHandler) : CEpollReactor :=
  match r.mapEvents[pEventHandle]? with
  | some fd =>
      let r := r.ctlDel fd
      { r with mapEvents := r.mapEvents.erase pEventHandle }
  | none => r

/-- A call, with what `GetIds` stores in it and what the kernel decides. -/
inductive Call where
  | registerIo (pEventHandle : CEventHandler) (ids : Ids) (admits : Bool)
  | removeIo (pEventHandle : CEventHandler)
deriving DecidableEq, Repr

/-- The reactor after a call. -/
def call (r : CEpollReactor) : Call → CEpollReactor
  | .registerIo pEventHandle ids admits => r.registerIo pEventHandle ids admits
  | .removeIo pEventHandle => r.removeIo pEventHandle

/-- The reactor after a sequence of calls. -/
def calls (r : CEpollReactor) (cs : List Call) : CEpollReactor :=
  cs.foldl call r

/-! ### Map and instance -/

/-- The epoll instance watches the descriptor for the handler. -/
def Watches (r : CEpollReactor) (fd : ℤ) (h : CEventHandler) : Prop :=
  ∃ ev, r.epoll fd = some ev ∧ ev.ptr = h

/-- **In step.** The pairs present in the epoll instance are those recorded in the map. -/
def InStep (r : CEpollReactor) : Prop :=
  ∀ fd h, r.Watches fd h ↔ r.mapEvents[h]? = some fd

/-- The calls that keep map and instance in step. A registration does so if `GetIds` stores no
id, if it repeats the registration that the handler has, and if the handler has none and the
kernel adds the descriptor. -/
def Keeps (r : CEpollReactor) : Call → Prop
  | .registerIo h ids admits =>
      ids.registered = 0 ∨ r.mapEvents[h]? = some (ids.registered) ∨
        (r.mapEvents[h]? = none ∧ r.AddSucceeds (ids.registered) admits)
  | .removeIo _ => True

instance (r : CEpollReactor) (c : Call) : Decidable (r.Keeps c) :=
  match c with
  | .registerIo _ _ _ => inferInstanceAs (Decidable (_ ∨ _ ∨ (_ ∧ _)))
  | .removeIo _ => inferInstanceAs (Decidable True)

variable {r : CEpollReactor} {h h' : CEventHandler} {fd : ℤ} {ids : Ids} {admits : Bool}

/-- A new reactor has an empty map and watches nothing. -/
theorem inStep_new : InStep new := by
  intro fd h
  simp [Watches, new]

/-- A descriptor is watched for one handler, the one that its event points to. -/
theorem Watches.unique (h₁ : r.Watches fd h) (h₂ : r.Watches fd h') : h = h' := by
  obtain ⟨ev, hev, rfl⟩ := h₁
  obtain ⟨ev', hev', rfl⟩ := h₂
  rw [hev] at hev'
  rw [Option.some.inj hev']

/-- **A removal** keeps map and instance in step: the handler leaves the map, and the descriptor
recorded for it, which is watched for it alone, leaves the instance. -/
theorem InStep.removeIo (hr : r.InStep) (h : CEventHandler) : (r.removeIo h).InStep := by
  rw [CEpollReactor.removeIo]
  cases hh : r.mapEvents[h]? with
  | none => exact hr
  | some fd =>
      have hwatched : r.Watches fd h := (hr fd h).mpr hh
      intro fd' h'
      simp only [Watches, ctlDel, Std.TreeMap.getElem?_erase, Nat.compare_eq_eq]
      by_cases hfd : fd' = fd
      · subst hfd
        have hgone : ∀ h', h ≠ h' → r.mapEvents[h']? ≠ some fd' := fun h' hne hrec =>
          hne (hwatched.unique ((hr fd' h').mpr hrec))
        simp only [Function.update_self, reduceCtorEq, false_and, exists_false, false_iff]
        split
        · exact fun heq => by cases heq
        · exact hgone h' ‹_›
      · rw [Function.update_of_ne hfd]
        by_cases hh' : h = h'
        · subst hh'
          simp only [if_true, reduceCtorEq, iff_false]
          rintro hw
          have := (hr fd' h).mp hw
          rw [hh] at this
          exact hfd (Option.some.inj this).symm
        · rw [if_neg hh']
          exact hr fd' h'

/-- What a registration with an id records: the id for the handler, whether or not `epoll_ctl`
succeeds. -/
theorem lookup_registerIo (hid : ids.registered ≠ 0) :
    (r.registerIo h ids admits).mapEvents[h']? =
      if h = h' then some ids.registered else r.mapEvents[h']? := by
  have hmap : (r.registerIo h ids admits).mapEvents = r.mapEvents.insert h ids.registered := by
    simp only [CEpollReactor.registerIo, ne_eq, hid, not_false_eq_true, if_true, ctlAdd]
    split <;> rfl
  rw [hmap, Std.TreeMap.getElem?_insert]
  simp only [Nat.compare_eq_eq]

/-- What a registration with an id makes the instance watch: the id for the handler, if
`epoll_ctl` adds it. -/
theorem watches_registerIo (hid : ids.registered ≠ 0) :
    (r.registerIo h ids admits).Watches fd h' ↔
      if r.AddSucceeds ids.registered admits ∧ fd = ids.registered then h = h'
      else r.Watches fd h' := by
  simp only [CEpollReactor.registerIo, ne_eq, hid, not_false_eq_true, if_true, ctlAdd]
  by_cases hadd : r.AddSucceeds ids.registered admits
  · have hadd' : AddSucceeds { r with mapEvents := r.mapEvents.insert h ids.registered }
        ids.registered admits := hadd
    rw [if_pos hadd']
    by_cases hfd : fd = ids.registered
    · rw [if_pos ⟨hadd, hfd⟩]
      subst hfd
      simp [Watches]
    · rw [if_neg fun hand => hfd hand.2]
      simp only [Watches, Function.update_of_ne hfd]
  · have hadd' : ¬ AddSucceeds { r with mapEvents := r.mapEvents.insert h ids.registered }
        ids.registered admits := hadd
    rw [if_neg hadd', if_neg fun hand => hadd hand.1]
    exact Iff.rfl

/-- **A registration with an id** keeps map and instance in step exactly if it is the one that
the handler has, or the first of the handler and successful. A failed one leaves an entry
without a counterpart in the instance, and one with another id leaves the old descriptor
watched. One with the same id adds a descriptor that is watched already, which the kernel
refuses. -/
theorem InStep.registerIo_iff (hr : r.InStep) (hid : ids.registered ≠ 0) :
    (r.registerIo h ids admits).InStep ↔ r.mapEvents[h]? = some ids.registered ∨
      (r.mapEvents[h]? = none ∧ r.AddSucceeds ids.registered admits) := by
  constructor
  · intro hr'
    have hself : (r.registerIo h ids admits).mapEvents[h]? = some ids.registered := by
      rw [lookup_registerIo hid, if_pos rfl]
    cases hh : r.mapEvents[h]? with
    | none =>
        refine Or.inr ⟨rfl, ?_⟩
        by_contra hadd
        have hw := (hr' ids.registered h).mpr hself
        rw [watches_registerIo hid, if_neg fun hand => hadd hand.1, hr ids.registered h, hh] at hw
        cases hw
    | some fd =>
        refine Or.inl ?_
        by_contra hne
        have hfd : fd ≠ ids.registered := fun heq => hne (by rw [heq])
        have hw : (r.registerIo h ids admits).Watches fd h := by
          rw [watches_registerIo hid, if_neg fun hand => hfd hand.2]
          exact (hr fd h).mpr hh
        have := (hr' fd h).mp hw
        rw [hself] at this
        exact hfd (Option.some.inj this).symm
  · rintro hkeep fd h'
    rw [watches_registerIo hid, lookup_registerIo hid]
    rcases hkeep with hsame | ⟨hnone, hadd⟩
    · obtain ⟨ev, hev, -⟩ := (hr ids.registered h).mpr hsame
      have hadd : ¬ r.AddSucceeds ids.registered admits := fun hadd => by
        rw [hadd.2.1] at hev
        cases hev
      rw [if_neg fun hand => hadd hand.1]
      split
      · rename_i heq
        rw [hr fd h', ← heq, hsame]
      · exact hr fd h'
    · by_cases hfd : fd = ids.registered
      · rw [if_pos ⟨hadd, hfd⟩]
        have hfree : r.mapEvents[h']? ≠ some ids.registered := fun hrec => by
          obtain ⟨ev, hev, -⟩ := (hr ids.registered h').mpr hrec
          rw [hadd.2.1] at hev
          cases hev
        split
        · exact iff_of_true ‹_› (by rw [hfd])
        · exact iff_of_false ‹_› (hfd ▸ hfree)
      · rw [if_neg fun hand => hfd hand.2]
        split
        · rename_i heq
          rw [hr fd h', ← heq, hnone]
          simp [Ne.symm hfd]
        · exact hr fd h'

/-- **A call** keeps map and instance in step exactly if it satisfies the condition. -/
theorem InStep.call_iff (hr : r.InStep) (c : Call) : (r.call c).InStep ↔ r.Keeps c := by
  cases c with
  | registerIo h ids admits =>
      by_cases hid : ids.registered = 0
      · have hsame : r.registerIo h ids admits = r := by
          simp [CEpollReactor.registerIo, hid]
        rw [call, hsame]
        exact iff_of_true hr (Or.inl hid)
      · rw [call, hr.registerIo_iff hid, Keeps, or_iff_right hid]
  | removeIo h => exact iff_of_true (hr.removeIo h) trivial

/-! ### Sequences of calls -/

/-- Every call of the sequence satisfies the condition when its turn comes. -/
def KeepsAll : CEpollReactor → List Call → Prop
  | _, [] => True
  | r, c :: cs => r.Keeps c ∧ KeepsAll (r.call c) cs

/-- From a state in step, the sequences that stay in step are those of calls that satisfy the
condition. Induction on the calls. -/
theorem InStep.calls_iff (hr : r.InStep) (cs : List Call) :
    (∀ pre, pre <+: cs → (r.calls pre).InStep) ↔ r.KeepsAll cs := by
  induction cs generalizing r with
  | nil =>
      refine iff_of_true (fun pre hpre => ?_) trivial
      rw [List.prefix_nil.mp hpre]
      exact hr
  | cons c cs ih =>
      rw [KeepsAll, ← hr.call_iff c]
      constructor
      · intro hall
        have hc : (r.call c).InStep := hall [c] ⟨cs, rfl⟩
        refine ⟨hc, (ih hc).mp fun pre hpre => ?_⟩
        exact hall (c :: pre) (List.cons_prefix_cons.mpr ⟨rfl, hpre⟩)
      · rintro ⟨hc, hrest⟩ pre hpre
        rcases List.prefix_cons_iff.mp hpre with rfl | ⟨tail, rfl, htail⟩
        · exact hr
        · exact (ih hc).mpr hrest tail htail

/-- **Map and instance stay in step exactly in the sequences of calls that keep them so.** -/
theorem inStep_iff_keeps (cs : List Call) :
    (∀ pre, pre <+: cs → (new.calls pre).InStep) ↔ new.KeepsAll cs :=
  inStep_new.calls_iff cs

/-- Two handlers are registered with one descriptor: the kernel refuses the second addition,
and the map has a pair that the instance does not have. -/
theorem not_inStep_registerIo_twice :
    ¬ (new.calls [.registerIo 1 ⟨5, 0⟩ true, .registerIo 2 ⟨5, 0⟩ true]).InStep := by
  intro hr
  obtain ⟨ev, hev, hptr⟩ := (hr 5 2).mpr (by decide)
  have hev' : some (⟨EPOLLIN, 1⟩ : EpollEvent) = some ev := hev
  rw [← Option.some.inj hev'] at hptr
  cases hptr

end CEpollReactor

end LinuxNetwork

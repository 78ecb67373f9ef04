import LinuxNetwork.EpollReactorDispatch
import LinuxNetwork.Transition

/-!
# The Removal of a Handler

The batch of `DispatchIOs` holds the addresses of handlers, and goes on holding them when a callback
removes a handler from the map. This module lists what happens in a call of `DispatchIOs`: the
methods of handlers that it invokes, and the calls that the callbacks make meanwhile. Whenever a
method is invoked, the handler is in the map that these calls have made.

The calls of `GetIds` that `RegisterIO` makes are a part of that call, and not listed.

## Main definitions

* `CEpollReactor.steps`: the steps of a call of `DispatchIOs`.
* `CEpollReactor.SparesRemoved`: a removed handler is not called unless it is registered again.

## Main results

* `CEpollReactor.guarded_steps`: the handler of an invoked method is in the map.
* `CEpollReactor.dispatchIOs_sparesRemoved`: a removed handler is never called again.
-/

open Transition

namespace LinuxNetwork.CEpollReactor

/-- The methods of a handler. -/
inductive Method where
  | getIds
  | handleInput
  | handleOutput
deriving DecidableEq, Repr

/-- A step of `DispatchIOs`. -/
inductive Step where
  /-- `DispatchIOs` invokes a method of a handler. -/
  | invoke (h : CEventHandler) (m : Method)
  /-- A callback calls `RegisterIO` or `RemoveIO`. -/
  | call (c : Call)
deriving DecidableEq, Repr

/-- The steps of a callback, if it is run. -/
def callbackSteps (isRun : Bool) (h : CEventHandler) (m : Method) (callback : List Call) :
    List Step :=
  if isRun then .invoke h m :: callback.map .call else []

/-- The steps of an event. -/
def Turn.steps (t : Turn) : List Step :=
  callbackSteps t.input t.occurrence.evRef.ptr .handleInput t.occurrence.handleInput ++
    callbackSteps t.output t.occurrence.evRef.ptr .handleOutput t.occurrence.handleOutput

/-- The steps of the first loop, which passes over a null handler. -/
def rearmSteps (r : CEpollReactor) : List Step :=
  (r.mapEvents.keys.filter fun h => decide (h ≠ nullHandler)).map fun h => .invoke h .getIds

/-- The steps of `DispatchIOs()`. -/
def steps (r : CEpollReactor) (getIds : CEventHandler → Ids) (batch : List Occurrence) :
    List Step :=
  r.rearmSteps ++ (r.dispatchIOs getIds batch).flatMap Turn.steps

/-- The reactor after a step. -/
def play (r : CEpollReactor) : Step → CEpollReactor
  | .invoke _ _ => r
  | .call c => r.call c

/-- The call puts the handler into the map. -/
def Registers (h : CEventHandler) (c : Call) : Prop :=
  ∃ ids admits, c = .registerIo h ids admits ∧ ids.registered ≠ 0

/-- **A removed handler is not called** unless it is registered again: between a removal and a later
invocation of one of its methods there is a call that puts it back into the map. -/
def SparesRemoved (steps : List Step) : Prop :=
  ∀ h m pre mid post, steps = pre ++ .call (.removeIo h) :: (mid ++ .invoke h m :: post) →
    ∃ c, Registers h c ∧ .call c ∈ mid

variable {r : CEpollReactor} {h : CEventHandler} {c : Call} {m : Method}
  {pre mid post : List Step}

/-! ### Calls and the map -/

/-- A removed handler is not in the map, whether or not it was in it before. -/
theorem notMem_removeIo (r : CEpollReactor) (h : CEventHandler) :
    h ∉ (r.removeIo h).mapEvents := by
  rw [removeIo]
  cases hh : r.mapEvents[h]? with
  | none =>
      rw [← Std.TreeMap.isSome_getElem?_iff_mem, hh]
      exact Bool.false_ne_true
  | some fd => simp

/-- A handler comes into the map by its registration, and by no other call. -/
theorem registers_of_mem (hmem : h ∉ r.mapEvents) (hmem' : h ∈ (r.call c).mapEvents) :
    Registers h c := by
  rw [← Std.TreeMap.isSome_getElem?_iff_mem] at hmem hmem'
  cases c with
  | registerIo h' ids admits =>
      by_cases hid : ids.registered = 0
      · have hsame : r.registerIo h' ids admits = r := by simp [registerIo, hid]
        rw [call, hsame] at hmem'
        exact absurd hmem' hmem
      · rw [call, lookup_registerIo hid] at hmem'
        split at hmem'
        case isTrue heq => exact ⟨ids, admits, heq ▸ rfl, hid⟩
        case isFalse => exact absurd hmem' hmem
  | removeIo h' =>
      rw [call, removeIo] at hmem'
      split at hmem'
      case h_1 =>
        rw [Std.TreeMap.getElem?_erase] at hmem'
        split at hmem'
        case isTrue => exact absurd hmem' Bool.false_ne_true
        case isFalse => exact absurd hmem' hmem
      case h_2 => exact absurd hmem' hmem

/-! ### The steps of `DispatchIOs` -/

/-- The state in which a step may be taken: a method is invoked for a handler in the map. -/
def Permits (r : CEpollReactor) : Step → Prop
  | .invoke h _ => h ∈ r.mapEvents
  | .call _ => True

/-- The calls of a callback are made one after another, as the log has them. -/
theorem foldl_play_calls (r : CEpollReactor) (cs : List Call) :
    (cs.map Step.call).foldl play r = r.calls cs := by
  rw [List.foldl_map, calls]
  rfl

/-- Calls are permitted whatever the map holds; only invocations need their handler in the map. -/
theorem guarded_calls (r : CEpollReactor) (cs : List Call) :
    Guarded play Permits r (cs.map Step.call) := by
  induction cs generalizing r with
  | nil => exact guarded_nil
  | cons c cs ih => exact guarded_cons.mpr ⟨trivial, ih (r.call c)⟩

/-- **A callback** leads to the reactor behind it, and is permitted if it is run for a handler in
the map. -/
theorem callbackSteps_spec (r : CEpollReactor) {isRun : Bool} (h : CEventHandler) (m : Method)
    (callback : List Call) (hrun : isRun = true → h ∈ r.mapEvents) :
    (callbackSteps isRun h m callback).foldl play r = r.after isRun callback ∧
      Guarded play Permits r (callbackSteps isRun h m callback) := by
  cases isRun with
  | false => exact ⟨rfl, guarded_nil⟩
  | true =>
      refine ⟨foldl_play_calls r callback, guarded_cons.mpr ⟨hrun rfl, ?_⟩⟩
      exact guarded_calls r callback

/-- **An event**: both lookups find the handler whose method is invoked behind them. -/
theorem steps_turn_spec (r : CEpollReactor) (o : Occurrence) :
    (r.turn o).steps.foldl play r = (r.turn o).next ∧ Guarded play Permits r (r.turn o).steps := by
  obtain ⟨hin, hin'⟩ := callbackSteps_spec r o.evRef.ptr .handleInput o.handleInput
    (input_turn_iff (r := r) (o := o)).mp
  obtain ⟨hout, hout'⟩ := callbackSteps_spec (r.turn o).atOutput o.evRef.ptr .handleOutput
    o.handleOutput output_turn_iff.mp
  rw [Turn.steps, List.foldl_append, guarded_append]
  refine ⟨?_, hin', ?_⟩
  · exact (congrArg (List.foldl play · _) hin).trans hout
  · exact (congrArg (Guarded play Permits · _) hin).mpr hout'

/-- The loop over the events invokes handlers in the map only. Induction on the batch. -/
theorem guarded_dispatch (r : CEpollReactor) (batch : List Occurrence) :
    Guarded play Permits r ((r.dispatch batch).flatMap Turn.steps) := by
  induction batch generalizing r with
  | nil => exact guarded_nil
  | cons o batch ih =>
      obtain ⟨hnext, hguarded⟩ := steps_turn_spec r o
      rw [dispatch, List.flatMap_cons, guarded_append, hnext]
      exact ⟨hguarded, ih _⟩

/-- Invocations alone leave the reactor alone, and are permitted for handlers in the map. -/
theorem invocations_spec (r : CEpollReactor) (m : Method) {hs : List CEventHandler}
    (hmem : ∀ h ∈ hs, h ∈ r.mapEvents) :
    (hs.map fun h => Step.invoke h m).foldl play r = r ∧
      Guarded play Permits r (hs.map fun h => Step.invoke h m) := by
  induction hs with
  | nil => exact ⟨rfl, guarded_nil⟩
  | cons h hs ih =>
      obtain ⟨hplay, hguarded⟩ := ih fun h' hh' => hmem h' (List.mem_cons_of_mem h hh')
      exact ⟨hplay, guarded_cons.mpr ⟨hmem h List.mem_cons_self, hguarded⟩⟩

/-- **Every method is invoked for a handler in the map**, whatever the callbacks do. -/
theorem guarded_steps (r : CEpollReactor) (getIds : CEventHandler → Ids)
    (batch : List Occurrence) :
    Guarded play Permits (r.rearm getIds) (r.steps getIds batch) := by
  have hmem : ∀ h ∈ r.mapEvents.keys.filter fun h => decide (h ≠ nullHandler),
      h ∈ (r.rearm getIds).mapEvents := by
    intro h hh
    rw [mapEvents_rearm]
    exact Std.TreeMap.mem_keys.mp (List.mem_of_mem_filter hh)
  obtain ⟨hplay, hguarded⟩ := (r.rearm getIds).invocations_spec .getIds hmem
  rw [steps, guarded_append, rearmSteps, hplay]
  exact ⟨hguarded, guarded_dispatch _ batch⟩

/-- **A removed handler is never called again.** In a call of `DispatchIOs`, for every batch of
events and whatever the callbacks do, a handler that `RemoveIO` has removed is invoked only if
`RegisterIO` has put it back into the map in between. -/
theorem dispatchIOs_sparesRemoved (r : CEpollReactor) (getIds : CEventHandler → Ids)
    (batch : List Occurrence) : SparesRemoved (r.steps getIds batch) := by
  intro h m pre mid post hsteps
  have hguarded := r.guarded_steps getIds batch
  rw [hsteps] at hguarded
  obtain ⟨t, step, hmid, hout, hin⟩ := hguarded.exists_step_between (Q := fun t => h ∈ t.mapEvents)
    (fun t => t.notMem_removeIo h) (fun t ht => ht)
  cases step with
  | invoke h' m' => exact absurd hin hout
  | call c => exact ⟨c, registers_of_mem hout hin, hmid⟩

/-- Two events name the handler 1, which removes itself in the first; the second is passed over. -/
example : ((new.call (.registerIo 1 ⟨5, 0⟩ true)).steps (fun _ => ⟨5, 0⟩)
    [⟨⟨EPOLLIN, 1⟩, [.removeIo 1], []⟩, ⟨⟨EPOLLIN, 1⟩, [], []⟩]) =
      [.invoke 1 .getIds, .invoke 1 .handleInput, .call (.removeIo 1)] := by decide

end LinuxNetwork.CEpollReactor

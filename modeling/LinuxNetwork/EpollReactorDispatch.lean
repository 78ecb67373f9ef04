import LinuxNetwork.EpollReactor

/-!
# The Callbacks of the Reactor

This module embeds `DispatchIOs` of `CEpollReactor` (`epoll_reactor.cc`): the loop that tells
the epoll instance what each handler waits for, and the loop over the batch of events that
`epoll_wait` returns. The batch is arbitrary. So are the callbacks: each comes with the calls of
`RegisterIO` and `RemoveIO` that it makes if it is run. The timeout of `epoll_wait` is left out.

The tests of the second loop combine the bits of an event with `EPOLLIN` and `EPOLLOUT` by `|`,
which is never zero. So a callback is run whenever the handler is in the map, and the bits play
no part.

## Main definitions

* `CEpollReactor.rearm`, `CEpollReactor.dispatch`: the two loops.
* `CEpollReactor.Turn.Due`: the callbacks run for an event are those that it calls for.

## Main results

* `CEpollReactor.Turn.due_iff`: the events whose callbacks are those that are due.
* `CEpollReactor.dispatch_due_iff`: the batches all of whose callbacks are due.
-/

namespace LinuxNetwork.CEpollReactor

/-! ### The loop over the map -/

/-- The events that the first loop sets for a handler. -/
def mask (ids : Ids) : BitVec 32 :=
  let events := 0
  let events := if 0 < ids.nReadID then events ||| EPOLLIN else events
  if 0 < ids.nWriteID then events ||| EPOLLOUT else events

/-- The body of the first loop, for an entry of the map. -/
def rearmOne (getIds : CEventHandler → Ids) (r : CEpollReactor) (entry : CEventHandler × ℤ) :
    CEpollReactor :=
  if entry.1 = nullHandler then r
  else r.ctlMod entry.2 ⟨mask (getIds entry.1), entry.1⟩

/-- The first loop; `getIds` is what `GetIds` stores in it. -/
def rearm (r : CEpollReactor) (getIds : CEventHandler → Ids) : CEpollReactor :=
  r.mapEvents.toList.foldl (rearmOne getIds) r

/-! ### The loop over the events -/

/-- An event of the batch, with the calls that the callbacks of its handler make if they are
run. -/
structure Occurrence where
  evRef : EpollEvent
  handleInput : List Call
  handleOutput : List Call
deriving DecidableEq, Repr

/-- What happens to an event. -/
structure Turn where
  occurrence : Occurrence
  /-- The reactor at the first lookup. -/
  atInput : CEpollReactor
  /-- `HandleInput` is run. -/
  input : Bool
  /-- The reactor at the second lookup. -/
  atOutput : CEpollReactor
  /-- `HandleOutput` is run. -/
  output : Bool

/-- The condition of a callback: its bit is combined with those of the event. -/
def runs (r : CEpollReactor) (evRef : EpollEvent) (bit : BitVec 32) : Bool :=
  decide (evRef.events ||| bit ≠ 0) && r.mapEvents.contains evRef.ptr

/-- The reactor after a callback, if it is run. -/
def after (r : CEpollReactor) (isRun : Bool) (callback : List Call) : CEpollReactor :=
  if isRun then r.calls callback else r

/-- The body of the second loop. -/
def turn (r : CEpollReactor) (o : Occurrence) : Turn :=
  let input := r.runs o.evRef EPOLLIN
  let r' := r.after input o.handleInput
  { occurrence := o
    atInput := r
    input := input
    atOutput := r'
    output := r'.runs o.evRef EPOLLOUT }

/-- The reactor after the event. -/
def Turn.next (t : Turn) : CEpollReactor :=
  t.atOutput.after t.output t.occurrence.handleOutput

/-- The second loop. -/
def dispatch (r : CEpollReactor) : List Occurrence → List Turn
  | [] => []
  | o :: batch => r.turn o :: (r.turn o).next.dispatch batch

/-- `DispatchIOs()`, with the batch that `epoll_wait` returns in it. -/
def dispatchIOs (r : CEpollReactor) (getIds : CEventHandler → Ids) (batch : List Occurrence) :
    List Turn :=
  (r.rearm getIds).dispatch batch

/-! ### The callbacks that are due -/

/-- The bit is among those of the event. -/
def Has (evRef : EpollEvent) (bit : BitVec 32) : Prop :=
  evRef.events &&& bit ≠ 0

instance (evRef : EpollEvent) (bit : BitVec 32) : Decidable (Has evRef bit) :=
  inferInstanceAs (Decidable (_ ≠ _))

/-- **The callbacks run for the event are those that are due**: each is run exactly if its bit is
among those of the event and the handler is in the map at that moment. -/
structure Turn.Due (t : Turn) : Prop where
  input : t.input = true ↔
    Has t.occurrence.evRef EPOLLIN ∧ t.occurrence.evRef.ptr ∈ t.atInput.mapEvents
  output : t.output = true ↔
    Has t.occurrence.evRef EPOLLOUT ∧ t.occurrence.evRef.ptr ∈ t.atOutput.mapEvents

/-- The condition on an event and the reactor before it: the handler is not in the map, or the
event has `EPOLLIN` and, unless `HandleInput` takes the handler out of the map, `EPOLLOUT`. -/
def Suits (r : CEpollReactor) (o : Occurrence) : Prop :=
  o.evRef.ptr ∈ r.mapEvents →
    Has o.evRef EPOLLIN ∧
      (o.evRef.ptr ∈ (r.calls o.handleInput).mapEvents → Has o.evRef EPOLLOUT)

instance (r : CEpollReactor) (o : Occurrence) : Decidable (r.Suits o) :=
  inferInstanceAs (Decidable (_ → _ ∧ (_ → _)))

variable {r r' : CEpollReactor} {o : Occurrence} {evRef : EpollEvent} {bit : BitVec 32}

/-- A word combined with a nonzero one by `|` is not zero, whatever the word is. -/
theorem or_ne_zero (events : BitVec 32) (hbit : bit ≠ 0) : events ||| bit ≠ 0 := fun hzero =>
  hbit (BitVec.or_eq_zero_iff.mp hzero).2

/-- **The tests of the second loop look at the map alone.** -/
theorem runs_iff (hbit : bit ≠ 0) : r.runs evRef bit = true ↔ evRef.ptr ∈ r.mapEvents := by
  rw [runs, Bool.and_eq_true, decide_eq_true_iff, Std.TreeMap.contains_iff_mem]
  exact and_iff_right (or_ne_zero _ hbit)

/-- `EPOLLIN` is a bit, so the test of the second loop for it always succeeds. -/
theorem EPOLLIN_ne_zero : EPOLLIN ≠ 0 := by decide

/-- `EPOLLOUT` is a bit, so the test of the second loop for it always succeeds. -/
theorem EPOLLOUT_ne_zero : EPOLLOUT ≠ 0 := by decide

/-- `HandleInput` is run for every handler in the map, whatever the event is. -/
theorem input_turn_iff : (r.turn o).input = true ↔ o.evRef.ptr ∈ r.mapEvents :=
  runs_iff EPOLLIN_ne_zero

/-- `HandleOutput` is run for every handler that is in the map behind `HandleInput`, whatever
the event is. -/
theorem output_turn_iff :
    (r.turn o).output = true ↔ o.evRef.ptr ∈ (r.turn o).atOutput.mapEvents :=
  runs_iff EPOLLOUT_ne_zero

/-- The reactor at the second lookup, for a handler that is in the map at the first. -/
theorem atOutput_turn (hmem : o.evRef.ptr ∈ r.mapEvents) :
    (r.turn o).atOutput = r.calls o.handleInput := by
  rw [turn, after, if_pos (runs_iff EPOLLIN_ne_zero |>.mpr hmem)]

/-- The reactor at the second lookup, for a handler that is not in the map at the first. -/
theorem atOutput_turn_of_notMem (hmem : o.evRef.ptr ∉ r.mapEvents) :
    (r.turn o).atOutput = r := by
  rw [turn, after, if_neg (runs_iff EPOLLIN_ne_zero |>.not.mpr hmem)]

/-- **An event's callbacks** are those that are due exactly if the event meets the condition.
Where neither lookup finds the handler, nothing runs and nothing is due. -/
theorem Turn.due_iff : (r.turn o).Due ↔ r.Suits o := by
  by_cases hmem : o.evRef.ptr ∈ r.mapEvents
  · have hin : (r.turn o).input = true := input_turn_iff.mpr hmem
    have hout := output_turn_iff (r := r) (o := o)
    rw [atOutput_turn hmem] at hout
    constructor
    · intro hdue
      refine fun _ => ⟨(hdue.input.mp hin).1, fun hmem' => ?_⟩
      exact (hdue.output.mp (hout.mpr hmem')).1
    · intro hsuits
      obtain ⟨hhas, hhas'⟩ := hsuits hmem
      refine ⟨iff_of_true hin ⟨hhas, hmem⟩, ?_⟩
      rw [atOutput_turn hmem, hout]
      exact ⟨fun hmem' => ⟨hhas' hmem', hmem'⟩, fun hand => hand.2⟩
  · have hin := input_turn_iff.not.mpr hmem
    have hout : ¬ (r.turn o).output = true := by
      rw [output_turn_iff, atOutput_turn_of_notMem hmem]
      exact hmem
    refine iff_of_true ⟨?_, ?_⟩ fun h => absurd h hmem
    · exact iff_of_false hin fun hand => hmem hand.2
    · refine iff_of_false hout fun hand => hmem ?_
      rw [← atOutput_turn_of_notMem hmem]
      exact hand.2

/-- Every event of the batch meets the condition when its turn comes. -/
def SuitsAll : CEpollReactor → List Occurrence → Prop
  | _, [] => True
  | r, o :: batch => r.Suits o ∧ SuitsAll (r.turn o).next batch

/-- The callbacks that the second loop runs are those that are due exactly if every event meets
the condition. Induction on the batch, since a callback changes the map for the events behind
it. -/
theorem dispatch_due_iff (batch : List Occurrence) :
    (∀ t ∈ r.dispatch batch, t.Due) ↔ r.SuitsAll batch := by
  induction batch generalizing r with
  | nil => exact iff_of_true (fun t ht => absurd ht List.not_mem_nil) trivial
  | cons o batch ih =>
      rw [dispatch, List.forall_mem_cons, Turn.due_iff, ih, SuitsAll]

/-! ### The map decides -/

/-- What a call makes of the map depends on the map alone, not on the epoll instance. -/
theorem mapEvents_call_congr (hmap : r.mapEvents = r'.mapEvents) (c : Call) :
    (r.call c).mapEvents = (r'.call c).mapEvents := by
  cases c with
  | registerIo h ids admits =>
      have hstep : ∀ r : CEpollReactor, (r.registerIo h ids admits).mapEvents =
          if ids.registered ≠ 0 then r.mapEvents.insert h ids.registered else r.mapEvents := by
        intro r
        rw [registerIo, ctlAdd]
        split
        · split <;> rfl
        · rfl
      rw [call, call, hstep, hstep, hmap]
  | removeIo h =>
      simp only [call, removeIo, hmap]
      split
      · rw [ctlDel, ctlDel, hmap]
      · exact hmap

/-- What several calls make of the map depends on the map alone. Induction on the calls. -/
theorem mapEvents_calls_congr (hmap : r.mapEvents = r'.mapEvents) (cs : List Call) :
    (r.calls cs).mapEvents = (r'.calls cs).mapEvents := by
  induction cs generalizing r r' with
  | nil => exact hmap
  | cons c cs ih => exact ih (mapEvents_call_congr hmap c)

/-- Whether a callback is run depends on the map alone. -/
theorem runs_congr (hmap : r.mapEvents = r'.mapEvents) (evRef : EpollEvent) (bit : BitVec 32) :
    r.runs evRef bit = r'.runs evRef bit := by
  rw [runs, runs, hmap]

/-- The map behind a callback, if it is run, depends on the map in front of it alone. -/
theorem mapEvents_after_congr (hmap : r.mapEvents = r'.mapEvents) (isRun : Bool)
    (callback : List Call) :
    (r.after isRun callback).mapEvents = (r'.after isRun callback).mapEvents := by
  cases isRun with
  | false => exact hmap
  | true => exact mapEvents_calls_congr hmap callback

/-- The map behind an event depends on the map in front of it alone. -/
theorem mapEvents_next_congr (hmap : r.mapEvents = r'.mapEvents) (o : Occurrence) :
    (r.turn o).next.mapEvents = (r'.turn o).next.mapEvents := by
  have hout : (r.turn o).atOutput.mapEvents = (r'.turn o).atOutput.mapEvents := by
    simp only [turn, runs_congr hmap]
    exact mapEvents_after_congr hmap _ _
  have hrun : (r.turn o).output = (r'.turn o).output := runs_congr hout _ _
  rw [Turn.next, Turn.next, hrun]
  exact mapEvents_after_congr hout _ _

/-- Whether the events meet the condition depends on the map alone, so it may be read off the
map before the first loop. -/
theorem suitsAll_congr (hmap : r.mapEvents = r'.mapEvents) (batch : List Occurrence) :
    r.SuitsAll batch ↔ r'.SuitsAll batch := by
  induction batch generalizing r r' with
  | nil => exact Iff.rfl
  | cons o batch ih =>
      rw [SuitsAll, SuitsAll, ih (mapEvents_next_congr hmap o), Suits, Suits, hmap,
        mapEvents_calls_congr hmap]

/-- The first loop leaves the map alone: it asks the handlers for their ids and modifies the
instance. -/
theorem mapEvents_rearm (getIds : CEventHandler → Ids) :
    (r.rearm getIds).mapEvents = r.mapEvents := by
  have hfold : ∀ (entries : List (CEventHandler × ℤ)) (r : CEpollReactor),
      (entries.foldl (rearmOne getIds) r).mapEvents = r.mapEvents := by
    intro entries
    induction entries with
    | nil => exact fun _ => rfl
    | cons entry entries ih =>
        intro r
        rw [List.foldl_cons, ih, rearmOne]
        split <;> rfl
  exact hfold _ r

/-- **`DispatchIOs` runs the callbacks that are due, and no others, exactly for the batches whose
events meet the condition.** -/
theorem dispatchIOs_due_iff (r : CEpollReactor) (getIds : CEventHandler → Ids)
    (batch : List Occurrence) :
    (∀ t ∈ r.dispatchIOs getIds batch, t.Due) ↔ r.SuitsAll batch := by
  rw [dispatchIOs, dispatch_due_iff, suitsAll_congr (mapEvents_rearm getIds)]

/-- A registered handler, and an event that has `EPOLLIN` alone: `HandleOutput` is run. -/
theorem not_due_epollin :
    ¬ ∀ t ∈ (new.call (.registerIo 1 ⟨5, 0⟩ true)).dispatchIOs (fun _ => ⟨5, 0⟩)
      [⟨⟨EPOLLIN, 1⟩, [], []⟩], t.Due := by
  rw [dispatchIOs, dispatch_due_iff]
  intro hsuits
  have hhas := (hsuits.1 (by decide)).2 (by decide)
  exact absurd hhas (by decide)

end LinuxNetwork.CEpollReactor

import Mathlib.Data.List.Pairwise
import LinuxNetwork.ProcessPool
import LinuxNetwork.RoundRobin
import LinuxNetwork.Transition

/-!
# The Child Table and the Children

The parent handles batches of events while its children exit. `waitpid` returns every exited
child once, in any order; `SIGCHLD` bytes may be merged, and may come when nothing is left to
reap, so the bytes of a batch are arbitrary. An exit during a batch is taken to happen before
it: what the parent does before it calls `waitpid` does not depend on it.

## Main definitions

* `waitBatch`: what becomes of the children when a batch is handled.
* `parentWithChildren`: the exits and the batches as a transition system.

## Main results

* `searchLoop_spec`: the search finds the first live child if there is one.
* `Tracks.handleBatch`: the handling of a batch keeps the table in step with the children.
* `table_follows_children`: the table, the pipe ends and `m_stop` over whole runs.
-/

open RoundRobin Transition

namespace LinuxNetwork.ProcessPool

/-- What has become of a child. -/
inductive Status where
  | running
  | exited
  | reaped
deriving DecidableEq, Repr

/-- The children after the calls of `waitpid` for one byte; `none` where `waitpid` does not
return this. -/
def waitAll (status : ℤ → Status) : List ℤ → Option (ℤ → Status)
  | [] => some status
  | pid :: waited =>
      if 0 < pid then
        if status pid = .exited then waitAll (Function.update status pid .reaped) waited
        else none
      else some status

/-- The children after one byte of the signal pipe. -/
def waitByte (status : ℤ → Status) (byte : SignalByte) : Option (ℤ → Status) :=
  if byte.sig = SIGCHLD then waitAll status byte.waited else some status

/-- The children after the received bytes. -/
def waitBytes (status : ℤ → Status) : List SignalByte → Option (ℤ → Status)
  | [] => some status
  | byte :: bytes => do
      let status ← waitByte status byte
      waitBytes status bytes

/-- The children after one event. -/
def waitEvent (status : ℤ → Status) : Event → Option (ℤ → Status)
  | .signal true (some bytes) => waitBytes status bytes
  | .signal true none => some status
  | .signal false _ => some status
  | .listen => some status
  | .other => some status

/-- The children after a batch. -/
def waitBatch (t : Parent) (status : ℤ → Status) : List Event → Option (ℤ → Status)
  | [] => some status
  | event :: events => do
      let status ← waitEvent status event
      let (t, _, left) ← handleEvent t event
      if left then some status else waitBatch t status events

/-- The parent, its children, and all that the parent has done. -/
structure World where
  parent : Parent
  status : ℤ → Status
  actions : List Action

/-- A child exits, or the parent handles a batch. -/
inductive Move where
  | exit (pid : ℤ)
  | batch (events : List Event)
deriving DecidableEq, Repr

/-- One step. -/
def World.step (pids : List ℤ) (w : World) : Move → Option World
  | .exit pid =>
      if pid ∈ pids ∧ w.status pid = .running then
        some { w with status := Function.update w.status pid .exited }
      else none
  | .batch events => do
      let status ← waitBatch w.parent w.status events
      let (parent, actions) ← handleBatch w.parent events
      some ⟨parent, status, w.actions ++ actions⟩

/-- The parent with the children that the constructor forked. -/
def parentWithChildren (pids : List ℤ) : System World Move where
  init := fun w => w = ⟨Parent.new pids, fun _ => .running, []⟩
  step := World.step pids

variable {pids t : List ℤ} {status status' : ℤ → Status} {actions : List Action} {pid : ℤ}

/-! ### Looking for a live child -/

/-- The slot of a child that was not reaped. -/
def Live (pids : List ℤ) (i : ℕ) : Prop :=
  ∃ pid, pids[i]? = some pid ∧ pid ≠ -1

/-- A slot that holds -1 is not live. -/
theorem not_live_of_dead {i : ℕ} (hi : pids[i]? = some (-1)) : ¬ Live pids i := by
  rintro ⟨pid, hpid, hne⟩
  exact hne (Option.some.inj (hpid.symm.trans hi))

/-- A whole round visits every slot, so if each that is visited holds -1, they all do. -/
theorem all_dead_of_visited {counter : ℕ} (hcounter : counter < pids.length)
    (h : ∀ j < pids.length, pids[(counter + j) % pids.length]? = some (-1)) :
    ∀ p ∈ pids, p = -1 := by
  intro p hp
  obtain ⟨a, ha, rfl⟩ := List.getElem_of_mem hp
  obtain ⟨j, hj, hoffset⟩ := exists_offset hcounter ha
  have hdead := h j hj
  rw [hoffset, List.getElem?_eq_getElem ha] at hdead
  exact Option.some.inj hdead

/-- The search is back at its start only after a whole round, since it visits the slots one
after another. -/
theorem eq_of_add_mod_eq {n counter k : ℕ} (hcounter : counter < n) (hk : 0 < k) (hkn : k ≤ n)
    (h : (counter + k) % n = counter) : k = n := by
  rcases Nat.lt_or_ge (counter + k) n with hlt | hge
  · rw [Nat.mod_eq_of_lt hlt] at h
    omega
  · rw [Nat.mod_eq_sub_mod hge, Nat.mod_eq_of_lt (by omega)] at h
    omega

/-- The search stops at a slot that holds a process id. -/
theorem searchLoop_of_live {counter fuel i : ℕ} (hi : pids[i]? = some pid) (hpid : pid ≠ -1) :
    searchLoop pids counter (fuel + 1) i = some i := by
  simp [searchLoop, hi, hpid]

/-- The search goes on behind a slot that holds -1, unless that brings it back to where it
began. -/
theorem searchLoop_of_dead {counter fuel i : ℕ} (hi : pids[i]? = some (-1)) :
    searchLoop pids counter (fuel + 1) i =
      if (i + 1) % pids.length = counter then some ((i + 1) % pids.length)
      else searchLoop pids counter fuel ((i + 1) % pids.length) := by
  simp [searchLoop, hi]

/-- **The search** visits all slots before it gives up. Induction on the steps it has left; the
slots behind it hold -1. -/
theorem searchLoop_spec {counter : ℕ} (hcounter : counter < pids.length) (fuel : ℕ) :
    ∀ k < pids.length, k + fuel = pids.length →
      (∀ j < k, pids[(counter + j) % pids.length]? = some (-1)) →
      ∃ i pid, searchLoop pids counter fuel ((counter + k) % pids.length) = some i ∧
        pids[i]? = some pid ∧ (pid ≠ -1 → First pids.length (Live pids) counter i) ∧
        (pid = -1 → ∀ p ∈ pids, p = -1) := by
  induction fuel with
  | zero =>
      intro k hlt hk
      omega
  | succ fuel ih =>
      intro k hlt hk hvisited
      have hi : (counter + k) % pids.length < pids.length := Nat.mod_lt _ (by omega)
      have hget := List.getElem?_eq_getElem hi
      by_cases hdead : pids[(counter + k) % pids.length] = -1
      · rw [hdead] at hget
        have hvisited' : ∀ j < k + 1, pids[(counter + j) % pids.length]? = some (-1) := by
          intro j hj
          by_cases hjk : j = k
          · rw [hjk, hget]
          · exact hvisited j (by omega)
        have hnext : ((counter + k) % pids.length + 1) % pids.length =
            (counter + (k + 1)) % pids.length := by
          rw [Nat.mod_add_mod, Nat.add_assoc]
        rw [searchLoop_of_dead hget, hnext]
        by_cases hback : (counter + (k + 1)) % pids.length = counter
        · have hround := eq_of_add_mod_eq hcounter (Nat.succ_pos k) hlt hback
          have hall := all_dead_of_visited hcounter (hround ▸ hvisited')
          rw [if_pos hback, hback]
          exact ⟨counter, _, rfl, List.getElem?_eq_getElem hcounter,
            fun hlive => absurd (hall _ (List.getElem_mem hcounter)) hlive, fun _ => hall⟩
        · rw [if_neg hback]
          have hlt' : k + 1 < pids.length := by
            by_contra hge
            have hround : k + 1 = pids.length := by omega
            exact hback (by rw [hround, Nat.add_mod_right, Nat.mod_eq_of_lt hcounter])
          exact ih (k + 1) hlt' (by omega) hvisited'
      · exact ⟨_, _, searchLoop_of_live hget hdead, hget,
          fun hlive => ⟨k, hlt, rfl, ⟨_, hget, hlive⟩,
            fun j hj => not_live_of_dead (hvisited j hj)⟩,
          fun h => absurd h hdead⟩

/-- **The dispatch** notifies the first live child, or sets `m_stop` when there is none. -/
theorem handleListen_spec {t : Parent} (ht : t.subProcessCounter < t.pids.length) :
    (∃ i pid, t.pids[i]? = some pid ∧ pid ≠ -1 ∧
      First t.pids.length (Live t.pids) t.subProcessCounter i ∧ handleListen t = some
        ({ t with subProcessCounter := (i + 1) % t.pids.length }, [.send i pid], false)) ∨
    (∀ p ∈ t.pids, p = -1) ∧ handleListen t = some ({ t with stop := true }, [], true) := by
  obtain ⟨i, pid, hsearch, hget, hfirst, hdead⟩ := searchLoop_spec ht t.pids.length 0 (by omega)
    (Nat.zero_add _) nofun
  rw [Nat.add_zero, Nat.mod_eq_of_lt ht] at hsearch
  by_cases hpid : pid = -1
  · refine .inr ⟨hdead hpid, ?_⟩
    simp [handleListen, hsearch, hget, hpid]
  · refine .inl ⟨i, pid, hget, hpid, hfirst hpid, ?_⟩
    simp [handleListen, hsearch, hget, hpid]

/-! ### Keeping the table in step -/

/-- What may stand behind an action: a pipe end that was closed is not closed again, and nothing
is sent on it. -/
def Respects (a b : Action) : Prop :=
  ∀ i, a = .closePipe i → b ≠ .closePipe i ∧ ∀ pid, b ≠ .send i pid

/-- **The table is in step with the children**: the slots of the reaped ones hold -1, and their
pipe ends, and no others, were closed. -/
structure Tracks (pids : List ℤ) (status : ℤ → Status) (t : List ℤ) (actions : List Action) :
    Prop where
  table : t = pids.map fun pid => if status pid = .reaped then -1 else pid
  closed : ∀ i, .closePipe i ∈ actions ↔
    ∃ pid, pids[i]? = some pid ∧ status pid = .reaped
  ordered : actions.Pairwise Respects

/-- At first every child runs, the table holds all process ids, and nothing was closed. -/
theorem tracks_new (pids : List ℤ) : Tracks pids (fun _ => .running) pids [] where
  table := by simp
  closed := by simp
  ordered := .nil

/-- The exit of a child changes nothing until it is reaped: the table still holds its process
id. -/
theorem Tracks.exit (h : Tracks pids status t actions) (hrunning : status pid = .running) :
    Tracks pids (Function.update status pid .exited) t actions := by
  have hreaped : ∀ p, Function.update status pid .exited p = .reaped ↔ status p = .reaped := by
    intro p
    rw [Function.update_apply]
    split
    case isTrue hp => simp [hp, hrunning]
    case isFalse => rfl
  refine ⟨?_, ?_, h.ordered⟩
  · simpa only [hreaped] using h.table
  · simpa only [hreaped] using h.closed

/-- A pipe end is closed at most once, since no closing of it respects an earlier one. -/
theorem count_closePipe_le (h : actions.Pairwise Respects) (i : ℕ) :
    actions.count (.closePipe i) ≤ 1 := by
  induction h with
  | nil => exact Nat.zero_le 1
  | @cons a actions hfirst _ ih =>
      rw [List.count_cons]
      split
      case isTrue ha =>
        have hnone : actions.count (.closePipe i) = 0 := by
          refine List.count_eq_zero.mpr fun hmem => ?_
          exact (hfirst _ hmem i (beq_iff_eq.mp ha)).1 rfl
        omega
      case isFalse => exact ih

/-- A slot that holds a process id is open, since its pipe end is closed when -1 is written. -/
theorem Tracks.isOpen (h : Tracks pids status t actions) {i : ℕ} (hi : t[i]? = some pid)
    (hpid : pid ≠ -1) : .closePipe i ∉ actions := by
  rw [h.closed]
  rintro ⟨p, hp, hreaped⟩
  rw [h.table, List.getElem?_map, hp, Option.map_some, if_pos hreaped] at hi
  exact hpid (Option.some.inj hi).symm

/-- Actions that close nothing and send to live children only keep the table in step. -/
theorem Tracks.append (h : Tracks pids status t actions) {new : List Action}
    (hclose : ∀ i, .closePipe i ∉ new)
    (hsend : ∀ i pid, .send i pid ∈ new → t[i]? = some pid ∧ pid ≠ -1) :
    Tracks pids status t (actions ++ new) where
  table := h.table
  closed := by
    intro i
    rw [List.mem_append, or_iff_left (hclose i), h.closed]
  ordered := by
    refine List.pairwise_append.mpr ⟨h.ordered, ?_, fun a ha b hb i hi => ⟨?_, ?_⟩⟩
    · refine List.pairwise_of_forall_mem_list fun a ha b _ i hi => ?_
      exact absurd (hi ▸ ha) (hclose i)
    · exact fun hb' => hclose i (hb' ▸ hb)
    · rintro pid rfl
      obtain ⟨hget, hpid⟩ := hsend i pid hb
      exact h.isOpen hget hpid (hi ▸ ha)

/-- The slots that are collected for a process id are those that hold it. -/
theorem mem_slotsOf {i : ℕ} : i ∈ slotsOf t pid ↔ t[i]? = some pid := by
  rw [slotsOf, List.mem_filter, List.mem_range, decide_eq_true_eq]
  refine and_iff_right_of_imp fun hi => ?_
  obtain ⟨hlt, -⟩ := List.getElem?_eq_some_iff.mp hi
  exact hlt

/-- The slots of a child that was not reaped. -/
theorem Tracks.getElem?_iff (h : Tracks pids status t actions) (hpid : 0 < pid)
    (hstatus : status pid ≠ .reaped) {i : ℕ} : t[i]? = some pid ↔ pids[i]? = some pid := by
  rw [h.table, List.getElem?_map, Option.map_eq_some_iff]
  constructor
  · rintro ⟨p, hp, hslot⟩
    by_cases hreaped : status p = .reaped
    · rw [if_pos hreaped] at hslot
      omega
    · rw [if_neg hreaped] at hslot
      exact hslot ▸ hp
  · exact fun hp => ⟨pid, hp, if_neg hstatus⟩

/-- **A child is reaped**: it leaves the table, and its pipe end is closed. -/
theorem Tracks.reap (h : Tracks pids status t actions) (hpid : 0 < pid)
    (hexited : status pid = .exited) :
    Tracks pids (Function.update status pid .reaped) (reap t pid).1
      (actions ++ (reap t pid).2) where
  table := by
    change t.map (fun p => if p = pid then -1 else p) = _
    rw [h.table, List.map_map]
    refine List.map_congr_left fun p _ => ?_
    by_cases hp : p = pid
    · simp [hp, hexited]
    · by_cases hreaped : status p = .reaped
      · simp [hp, hreaped, show (-1 : ℤ) ≠ pid by omega]
      · simp [hp, hreaped]
  closed := by
    intro i
    have hslot : i ∈ slotsOf t pid ↔ pids[i]? = some pid :=
      mem_slotsOf.trans (h.getElem?_iff hpid (by simp [hexited]))
    have hnew : .closePipe i ∈ (ProcessPool.reap t pid).2 ↔ pids[i]? = some pid := by
      rw [← hslot]
      simp [ProcessPool.reap]
    rw [List.mem_append, h.closed, hnew]
    constructor
    · rintro (⟨p, hp, hreaped⟩ | hp)
      · have hne : p ≠ pid := fun heq => by simp [heq, hexited] at hreaped
        exact ⟨p, hp, by rw [Function.update_of_ne hne, hreaped]⟩
      · exact ⟨pid, hp, Function.update_self ..⟩
    · rintro ⟨p, hp, hreaped⟩
      by_cases heq : p = pid
      · exact .inr (heq ▸ hp)
      · rw [Function.update_of_ne heq] at hreaped
        exact .inl ⟨p, hp, hreaped⟩
  ordered := by
    have hnodup : (slotsOf t pid).Nodup := List.nodup_range.filter _
    refine List.pairwise_append.mpr ⟨h.ordered, ?_, fun a ha b hb i hi => ?_⟩
    · refine List.pairwise_map.mpr (hnodup.imp fun hne i hi => ⟨fun hi' => ?_, nofun⟩)
      exact hne ((Action.closePipe.inj hi).trans (Action.closePipe.inj hi').symm)
    · obtain ⟨j, hj, rfl⟩ := List.mem_map.mp hb
      refine ⟨fun heq => ?_, nofun⟩
      obtain rfl := Action.closePipe.inj heq
      exact h.isOpen (mem_slotsOf.mp hj) (by omega) (hi ▸ ha)

/-- The loop over `waitpid` keeps the table in step with the children that it reaps. Induction
on the results. -/
theorem Tracks.reapLoop {waited : List ℤ} (h : Tracks pids status t actions)
    (hwait : waitAll status waited = some status') :
    Tracks pids status' (reapLoop t waited).1 (actions ++ (reapLoop t waited).2) := by
  induction waited generalizing status t actions with
  | nil =>
      obtain rfl := Option.some.inj hwait
      simpa [ProcessPool.reapLoop] using h
  | cons pid waited ih =>
      rw [waitAll] at hwait
      rw [ProcessPool.reapLoop]
      by_cases hpid : 0 < pid
      · rw [if_pos hpid] at hwait ⊢
        obtain ⟨hexited, hwait⟩ := Option.ite_none_right_eq_some.mp hwait
        have := ih (h.reap hpid hexited) hwait
        rwa [List.append_assoc] at this
      · rw [if_neg hpid] at hwait ⊢
        obtain rfl := Option.some.inj hwait
        simpa using h

/-- One byte of the signal pipe keeps the table in step: `SIGCHLD` reaps, and the other signals
close and send nothing. -/
theorem Tracks.handleByte {t : Parent} {byte : SignalByte}
    (h : Tracks pids status t.pids actions) (hwait : waitByte status byte = some status') :
    Tracks pids status' (handleByte t byte).1.pids (actions ++ (handleByte t byte).2) := by
  rw [waitByte] at hwait
  rw [ProcessPool.handleByte]
  by_cases hchld : byte.sig = SIGCHLD
  · rw [if_pos hchld] at hwait ⊢
    have hact : Tracks pids status t.pids (actions ++ [.handle byte.sig]) :=
      h.append (by simp) (by simp)
    have := hact.reapLoop hwait
    rwa [List.append_assoc] at this
  · rw [if_neg hchld] at hwait ⊢
    obtain rfl := Option.some.inj hwait
    split
    case isTrue => exact h.append (by simp) (by simp)
    case isFalse => exact h.append (by simp) (by simp)

/-- The received bytes keep the table in step. Induction on the bytes. -/
theorem Tracks.handleBytes {t : Parent} {bytes : List SignalByte}
    (h : Tracks pids status t.pids actions) (hwait : waitBytes status bytes = some status') :
    Tracks pids status' (handleBytes t bytes).1.pids (actions ++ (handleBytes t bytes).2) := by
  induction bytes generalizing status t actions with
  | nil =>
      obtain rfl := Option.some.inj hwait
      simpa [ProcessPool.handleBytes] using h
  | cons byte bytes ih =>
      obtain ⟨status₁, hbyte, hwait⟩ := Option.bind_eq_some_iff.mp hwait
      have := ih (h.handleByte hbyte) hwait
      rwa [List.append_assoc] at this

/-! ### Batches -/

/-- `sub_process_counter` is a slot. -/
def Parent.InTable (t : Parent) : Prop :=
  t.subProcessCounter < t.pids.length

/-- Reaping writes into the slots of the table and leaves their number alone. -/
theorem length_reapLoop (t waited : List ℤ) : (reapLoop t waited).1.length = t.length := by
  induction waited generalizing t with
  | nil => rfl
  | cons pid waited ih =>
      rw [reapLoop]
      split
      case isTrue => exact (ih _).trans (List.length_map _)
      case isFalse => rfl

/-- The counter stays in the table when a signal is handled. -/
theorem Parent.InTable.handleByte {t : Parent} (h : t.InTable) (byte : SignalByte) :
    (handleByte t byte).1.InTable := by
  rw [ProcessPool.handleByte]
  split
  case isTrue => exact Nat.lt_of_lt_of_eq h (length_reapLoop t.pids byte.waited).symm
  case isFalse =>
      split
      case isTrue => exact h
      case isFalse => exact h

/-- The counter stays in the table when several signals are handled. Induction on the bytes. -/
theorem Parent.InTable.handleBytes {t : Parent} (h : t.InTable) (bytes : List SignalByte) :
    (handleBytes t bytes).1.InTable := by
  induction bytes generalizing t with
  | nil => exact h
  | cons byte bytes ih => exact ih (h.handleByte byte)

/-- The parent has stopped since no child is left. -/
def Parent.Deserted (t : Parent) : Prop :=
  t.stop = true ∧ ∀ pid ∈ t.pids, pid = -1

/-- **Every event can be handled**; a batch is left only when no child is left. -/
theorem handleEvent_total {t : Parent} (h : t.InTable) (event : Event) :
    ∃ t' new left, handleEvent t event = some (t', new, left) ∧ t'.InTable ∧
      (left = true → t'.Deserted) := by
  have hsame : ∃ t' new left, some (t, ([] : List Action), false) = some (t', new, left) ∧
      t'.InTable ∧ (left = true → t'.Deserted) := ⟨t, [], false, rfl, h, nofun⟩
  cases event with
  | listen =>
      rcases handleListen_spec h with ⟨i, pid, -, -, -, heq⟩ | ⟨hdead, heq⟩
      · exact ⟨_, _, _, heq, Nat.mod_lt _ (Nat.zero_lt_of_lt h), nofun⟩
      · exact ⟨_, _, _, heq, h, fun _ => ⟨rfl, hdead⟩⟩
  | signal epollin received =>
      match epollin, received with
      | true, some bytes => exact ⟨_, _, _, rfl, h.handleBytes bytes, nofun⟩
      | true, none => exact hsame
      | false, _ => exact hsame
  | other => exact hsame

/-- One event keeps the table in step: a notification goes to a live child, and the signals
reap. -/
theorem Tracks.handleEvent {t t' : Parent} {event : Event} {new : List Action} {left : Bool}
    (h : Tracks pids status t.pids actions) (ht : t.InTable)
    (hwait : waitEvent status event = some status')
    (hevent : handleEvent t event = some (t', new, left)) :
    Tracks pids status' t'.pids (actions ++ new) := by
  have hsame : status = status' → some (t, [], false) = some (t', new, left) →
      Tracks pids status' t'.pids (actions ++ new) := by
    rintro rfl heq
    obtain ⟨rfl, rfl, -⟩ := by simpa using heq
    simpa using h
  cases event with
  | listen =>
      obtain rfl := Option.some.inj hwait
      rcases handleListen_spec ht with ⟨i, pid, hi, hpid, -, heq⟩ | ⟨-, heq⟩
      · obtain ⟨rfl, rfl, -⟩ := by simpa using heq.symm.trans hevent
        refine h.append (by simp) fun j p hmem => ?_
        obtain ⟨rfl, rfl⟩ := by simpa using hmem
        exact ⟨hi, hpid⟩
      · obtain ⟨rfl, rfl, -⟩ := by simpa using heq.symm.trans hevent
        simpa using h
  | signal epollin received =>
      match epollin, received with
      | true, some bytes =>
          obtain ⟨rfl, rfl, -⟩ := by simpa [ProcessPool.handleEvent] using hevent
          exact h.handleBytes hwait
      | true, none => exact hsame (Option.some.inj hwait) hevent
      | false, _ => exact hsame (Option.some.inj hwait) hevent
  | other => exact hsame (Option.some.inj hwait) hevent

/-- The rest of a batch is handled unless the event leaves it, which it does when no child is
live. -/
theorem handleBatch_cons_eq_some {t t' : Parent} {event : Event} {events : List Event}
    {new : List Action} :
    handleBatch t (event :: events) = some (t', new) ↔
      (handleEvent t event = some (t', new, true)) ∨
      ∃ u first rest, handleEvent t event = some (u, first, false) ∧
        handleBatch u events = some (t', rest) ∧ new = first ++ rest := by
  rw [handleBatch]
  cases handleEvent t event with
  | none => simp
  | some r =>
      obtain ⟨u, first, left⟩ := r
      cases left with
      | true => simp
      | false =>
          simp only [Option.bind_eq_bind, Option.bind_some, Bool.false_eq_true, if_false,
            Option.bind_eq_some_iff, Option.some.injEq, Prod.mk.injEq, and_false, false_or,
            and_true, Prod.exists]
          constructor
          · rintro ⟨v, rest, hbatch, rfl, rfl⟩
            exact ⟨u, first, rest, ⟨rfl, rfl⟩, hbatch, rfl⟩
          · rintro ⟨_, _, rest, ⟨rfl, rfl⟩, hbatch, rfl⟩
            exact ⟨t', rest, hbatch, rfl, rfl⟩

/-- **Every batch can be handled**, and leaves the counter in the table. Induction on the
events. -/
theorem handleBatch_total {t : Parent} (h : t.InTable) (events : List Event) :
    ∃ t' new, handleBatch t events = some (t', new) ∧ t'.InTable := by
  induction events generalizing t with
  | nil => exact ⟨t, [], rfl, h⟩
  | cons event events ih =>
      obtain ⟨u, first, left, hevent, hu, -⟩ := handleEvent_total h event
      cases left with
      | true => exact ⟨u, first, handleBatch_cons_eq_some.mpr (.inl hevent), hu⟩
      | false =>
          obtain ⟨t', rest, hbatch, ht'⟩ := ih hu
          exact ⟨t', first ++ rest,
            handleBatch_cons_eq_some.mpr (.inr ⟨u, first, rest, hevent, hbatch, rfl⟩), ht'⟩

/-- Two children, of which the first dies: the dispatch goes on with the second. -/
example : handleBatch (Parent.new [101, 102])
    [.listen, .signal true (some [⟨SIGCHLD, [101, 0]⟩]), .listen, .listen] =
      some (⟨[-1, 102], false, 0⟩,
        [.send 0 101, .handle 17, .closePipe 0, .send 1 102, .send 1 102]) := by decide

/-- **The handling of a batch** keeps the table in step. Induction on the events. -/
theorem Tracks.handleBatch {t t' : Parent} {events : List Event} {new : List Action}
    (h : Tracks pids status t.pids actions) (ht : t.InTable)
    (hwait : waitBatch t status events = some status')
    (hbatch : handleBatch t events = some (t', new)) :
    Tracks pids status' t'.pids (actions ++ new) := by
  induction events generalizing t status actions new with
  | nil =>
      obtain rfl := Option.some.inj hwait
      obtain ⟨rfl, rfl⟩ := by simpa [ProcessPool.handleBatch] using hbatch
      simpa using h
  | cons event events ih =>
      obtain ⟨status₁, hevent, hwait⟩ := Option.bind_eq_some_iff.mp hwait
      rcases handleBatch_cons_eq_some.mp hbatch with hleft | ⟨u, first, rest, hgo, hrest, rfl⟩
      · rw [hleft] at hwait
        obtain rfl := Option.some.inj hwait
        exact h.handleEvent ht hevent hleft
      · rw [hgo] at hwait
        obtain ⟨_, _, _, hu, hin, -⟩ := handleEvent_total ht event
        obtain ⟨rfl, rfl, rfl⟩ := by simpa using hu.symm.trans hgo
        have := ih (h.handleEvent ht hevent hgo) hin hwait hrest
        rwa [List.append_assoc] at this

/-- The last byte of a read is handled on the table that the bytes before it have left. -/
theorem handleBytes_concat (t : Parent) (bytes : List SignalByte) (byte : SignalByte) :
    (handleBytes t (bytes ++ [byte])).1 = (handleByte (handleBytes t bytes).1 byte).1 := by
  induction bytes generalizing t with
  | nil => rfl
  | cons b bytes ih => exact ih (handleByte t b).1

/-- **`m_stop` after a `SIGCHLD`**, with the handling of a batch cut off behind it. -/
theorem stop_iff_of_sigchld {t t' : Parent} {events : List Event} {bytes : List SignalByte}
    {byte : SignalByte} {new : List Action} (h : t.InTable) (hbyte : byte.sig = SIGCHLD)
    (hbatch : handleBatch t (events ++ [.signal true (some (bytes ++ [byte]))]) =
      some (t', new)) :
    t'.stop = true ↔ ∀ pid ∈ t'.pids, pid = -1 := by
  induction events generalizing t new with
  | nil =>
      rcases handleBatch_cons_eq_some.mp hbatch with hleft | ⟨u, first, rest, hgo, hrest, -⟩
      · simp [handleEvent] at hleft
      · obtain ⟨rfl, -⟩ := by simpa [handleBatch] using hrest
        obtain ⟨rfl, -⟩ := by simpa [handleEvent] using hgo
        rw [handleBytes_concat, handleByte, if_pos hbyte]
        simp
  | cons event events ih =>
      obtain ⟨u, first, left, hevent, hu, hdeserted⟩ := handleEvent_total h event
      rcases handleBatch_cons_eq_some.mp hbatch with hleft | ⟨v, _, rest, hgo, hrest, -⟩
      · obtain ⟨rfl, -, rfl⟩ := by simpa using hevent.symm.trans hleft
        exact iff_of_true (hdeserted rfl).1 (hdeserted rfl).2
      · obtain ⟨rfl, -, -⟩ := by simpa using hevent.symm.trans hgo
        exact ih hu hrest

/-! ### Runs -/

variable {w : World}

/-- **The table follows the children.** For every number of children and every run of exits and
batches, after each batch a slot holds -1 exactly if its child was reaped, and exactly if its
pipe end was closed, which happened at most once and with no notification after it. Every batch
can be handled, and whenever a `SIGCHLD` was handled, `m_stop` is true exactly if every slot
holds -1. -/
theorem table_follows_children (hn : 1 ≤ pids.length) (hpids : ∀ pid ∈ pids, 0 < pid)
    (h : (parentWithChildren pids).Reachable w) :
    (∀ i pid, pids[i]? = some pid →
      (w.parent.pids[i]? = some (-1) ↔ w.status pid = .reaped) ∧
      (w.parent.pids[i]? = some (-1) ↔ .closePipe i ∈ w.actions)) ∧
    (∀ i, w.actions.count (.closePipe i) ≤ 1) ∧
    (∀ before after i pid, w.actions = before ++ .send i pid :: after →
      .closePipe i ∉ before) ∧
    (∀ events, ∃ t actions, handleBatch w.parent events = some (t, actions)) ∧
    ∀ events bytes byte t actions, byte.sig = SIGCHLD →
      handleBatch w.parent (events ++ [.signal true (some (bytes ++ [byte]))]) =
        some (t, actions) →
      (t.stop = true ↔ ∀ pid ∈ t.pids, pid = -1) := by
  have hinv : Tracks pids w.status w.parent.pids w.actions ∧ w.parent.InTable := by
    refine System.Inductive.holds
      (I := fun w : World => Tracks pids w.status w.parent.pids w.actions ∧ w.parent.InTable)
      ⟨?_, ?_⟩ h
    · rintro _ rfl
      exact ⟨tracks_new pids, hn⟩
    · rintro w m v ⟨htracks, hin⟩ - hstep
      cases m with
      | exit pid =>
          obtain ⟨⟨-, hrunning⟩, heq⟩ := Option.ite_none_right_eq_some.mp hstep
          obtain rfl := Option.some.inj heq
          exact ⟨htracks.exit hrunning, hin⟩
      | batch events =>
          obtain ⟨status, hwait, hbind⟩ := Option.bind_eq_some_iff.mp hstep
          obtain ⟨⟨parent, new⟩, hbatch, heq⟩ := Option.bind_eq_some_iff.mp hbind
          obtain rfl := Option.some.inj heq
          obtain ⟨_, _, hbatch', hin'⟩ := handleBatch_total hin events
          obtain ⟨rfl, -⟩ := by simpa using hbatch'.symm.trans hbatch
          exact ⟨htracks.handleBatch hin hwait hbatch, hin'⟩
  obtain ⟨htracks, hin⟩ := hinv
  refine ⟨fun i pid hi => ?_, fun i => ?_, fun before after i pid heq hmem => ?_,
    fun events => ?_, fun events bytes byte t actions => stop_iff_of_sigchld hin⟩
  · have hslot : w.parent.pids[i]? = some (-1) ↔ w.status pid = .reaped := by
      have hpos := hpids pid (List.mem_of_getElem? hi)
      rw [htracks.table, List.getElem?_map, hi, Option.map_some, Option.some.injEq]
      by_cases hreaped : w.status pid = .reaped
      · simp [hreaped]
      · rw [if_neg hreaped]
        exact iff_of_false (by omega) hreaped
    refine ⟨hslot, hslot.trans ?_⟩
    rw [htracks.closed]
    simp [hi]
  · exact count_closePipe_le htracks.ordered i
  · have hordered := htracks.ordered
    rw [heq] at hordered
    exact ((List.pairwise_append.mp hordered).2.2 _ hmem _ List.mem_cons_self i rfl).2 pid rfl
  · obtain ⟨t, actions, hbatch, -⟩ := handleBatch_total hin events
    exact ⟨t, actions, hbatch⟩

/-- Both children exit; one `SIGCHLD` comes for both, and another one for none. -/
theorem table_follows_children_example :
    ∃ w : World, w.status 102 = .reaped ∧ .closePipe 1 ∈ w.actions ∧
      w.actions.count (.closePipe 1) ≤ 1 ∧ w.parent.stop = true := by
  have hinit : (parentWithChildren [101, 102]).Reachable
      ⟨Parent.new [101, 102], fun _ => .running, []⟩ := .init rfl
  obtain ⟨w, hreach, hw⟩ := System.exists_reachableWhile hinit
    [.batch [.listen, .other], .exit 102, .batch [.listen], .exit 101,
      .batch [.signal true (some [⟨SIGCHLD, [102, 101, -1]⟩]), .listen],
      .batch [.signal true (some [⟨SIGCHLD, [-1]⟩])]]
    (fun w => decide (w.status 102 = .reaped ∧ w.parent.stop = true)) (by decide +kernel)
  obtain ⟨hreaped, hstop⟩ := of_decide_eq_true hw
  obtain ⟨hslots, hcount, -⟩ := table_follows_children (by decide) (by decide) hreach
  obtain ⟨hslot, hclosed⟩ := hslots 1 102 rfl
  exact ⟨w, hreaped, hclosed.mp (hslot.mpr hreaped), hcount 1, hstop⟩

end LinuxNetwork.ProcessPool

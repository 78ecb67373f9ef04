import LinuxNetwork.ProcessPoolReaping

/-!
# The Dispatch is a Round Robin

The search for a live child, and the notifications of a batch of events. A batch may hold other
events between those of the listening socket; a child that is reaped in it is live before it and
not behind it, so the live children change in a batch exactly if they differ at its ends.

## Main definitions

* `notified`: the children that are notified, in order.

## Main results

* `Parent.handleBatch_rounds`: the notifications of a batch are a run of the round robin.
* `dispatch_roundRobin`: the search, the dispatch, and the balance of the notifications.
-/

open RoundRobin

namespace LinuxNetwork.ProcessPool

/-- The slots of the children that are notified of a connection, in order. -/
def notified (actions : List Action) : List ℕ :=
  actions.filterMap fun
    | .send child _ => some child
    | _ => none

variable {pids : List ℤ} {t t' u : Parent} {actions actions' : List Action} {pid : ℤ}
  {counter i : ℕ}

/-! ### The search -/

/-- The loop ends with the same slot, however often it may go round. Induction on the fuel. -/
theorem searchLoop_mono {fuel fuel' j : ℕ} (h : searchLoop pids counter fuel j = some i)
    (hfuel : fuel ≤ fuel') : searchLoop pids counter fuel' j = some i := by
  induction fuel generalizing fuel' j with
  | zero => exact absurd h (by simp [searchLoop])
  | succ fuel ih =>
      obtain ⟨fuel', rfl⟩ : ∃ m, fuel' = m + 1 := ⟨fuel' - 1, by omega⟩
      obtain ⟨pid, hpid, -⟩ := Option.bind_eq_some_iff.mp h
      by_cases hdead : pid = -1
      · subst hdead
        rw [searchLoop_of_dead hpid] at h ⊢
        by_cases hback : (j + 1) % pids.length = counter
        · rw [if_pos hback] at h ⊢
          exact h
        · rw [if_neg hback] at h ⊢
          exact ih h (Nat.le_of_succ_le_succ hfuel)
      · rw [searchLoop_of_live hpid hdead] at h ⊢
        exact h

/-- **The search ends**, with the first live slot if there is one. -/
theorem searchLoop_ends (hcounter : counter < pids.length) :
    ∃ i, (∀ fuel, pids.length ≤ fuel → searchLoop pids counter fuel counter = some i) ∧
      ((∃ j, Live pids j) → First pids.length (Live pids) counter i) := by
  obtain ⟨i, pid, hsearch, hget, hfirst, hdead⟩ := searchLoop_spec hcounter pids.length 0
    (by omega) (Nat.zero_add _) nofun
  rw [Nat.add_zero, Nat.mod_eq_of_lt hcounter] at hsearch
  refine ⟨i, fun fuel hfuel => searchLoop_mono hsearch hfuel, ?_⟩
  rintro ⟨j, q, hq, hlive⟩
  refine hfirst fun hpid => ?_
  exact hlive (hdead hpid q (List.mem_of_getElem? hq))

/-- Where every slot holds -1, none is live. -/
theorem not_live_of_all_dead (h : ∀ p ∈ pids, p = -1) (i : ℕ) : ¬ Live pids i := by
  rintro ⟨p, hp, hne⟩
  exact hne (h p (List.mem_of_getElem? hp))

/-! ### The events -/

theorem notified_append (actions actions' : List Action) :
    notified (actions ++ actions') = notified actions ++ notified actions' :=
  List.filterMap_append

/-- Reaping makes no slot live: it writes -1 into slots and nothing else. -/
theorem live_of_live_reap (h : Live (reap pids pid).1 i) : Live pids i := by
  obtain ⟨p, hp, hne⟩ := h
  rw [reap, List.getElem?_map] at hp
  obtain ⟨q, hq, rfl⟩ := Option.map_eq_some_iff.mp hp
  refine ⟨q, hq, fun hdead => hne ?_⟩
  rw [hdead]
  split <;> rfl

/-- The `while` loop over `waitpid` makes no slot live. Induction on its results. -/
theorem live_of_live_reapLoop {waited : List ℤ} (h : Live (reapLoop pids waited).1 i) :
    Live pids i := by
  induction waited generalizing pids with
  | nil => exact h
  | cons pid waited ih =>
      rw [reapLoop] at h
      split at h
      case isTrue => exact live_of_live_reap (ih h)
      case isFalse => exact h

/-- The `while` loop over `waitpid` notifies nobody: it closes pipe ends only. -/
theorem notified_reapLoop (pids waited : List ℤ) : notified (reapLoop pids waited).2 = [] := by
  induction waited generalizing pids with
  | nil => rfl
  | cons pid waited ih =>
      rw [reapLoop]
      split
      case isTrue =>
        have hreap : notified (reap pids pid).2 = [] := by
          rw [notified, reap, List.filterMap_map]
          exact List.filterMap_eq_nil_iff.mpr fun _ _ => rfl
        refine (notified_append _ _).trans ?_
        rw [hreap, ih, List.append_nil]
      case isFalse => rfl

/-- From the state `t` of the parent to `u`, no slot becomes live, and nobody is notified. -/
structure Parent.Quiet (t u : Parent) (actions : List Action) : Prop where
  length : u.pids.length = t.pids.length
  live : ∀ i, Live u.pids i → Live t.pids i
  counter : u.subProcessCounter = t.subProcessCounter
  notified : notified actions = []

/-- Doing nothing is quiet. -/
theorem Parent.Quiet.refl (t : Parent) : t.Quiet t [] :=
  ⟨rfl, fun _ => id, rfl, rfl⟩

/-- Two quiet pieces of code, one after the other, are quiet. -/
theorem Parent.Quiet.trans (h : t.Quiet u actions) (h' : u.Quiet t' actions') :
    t.Quiet t' (actions ++ actions') where
  length := h'.length.trans h.length
  live := fun i hi => h.live i (h'.live i hi)
  counter := h'.counter.trans h.counter
  notified := by rw [notified_append, h.notified, h'.notified, List.append_nil]

/-- A signal is quiet: it may take live slots away, but notifies nobody and leaves the counter
alone. -/
theorem Parent.quiet_handleByte (t : Parent) (byte : SignalByte) :
    t.Quiet (handleByte t byte).1 (handleByte t byte).2 := by
  rw [handleByte]
  split
  case isTrue =>
    exact ⟨length_reapLoop _ _, fun _ => live_of_live_reapLoop, rfl, notified_reapLoop _ _⟩
  case isFalse =>
    split
    case isTrue => exact ⟨rfl, fun _ => id, rfl, by simp [ProcessPool.notified, List.filterMap_map]⟩
    case isFalse => exact .refl t

/-- The signals of a read are quiet. Induction on the bytes. -/
theorem Parent.quiet_handleBytes (t : Parent) (bytes : List SignalByte) :
    t.Quiet (handleBytes t bytes).1 (handleBytes t bytes).2 := by
  induction bytes generalizing t with
  | nil => exact .refl t
  | cons byte bytes ih => exact (t.quiet_handleByte byte).trans (ih _)

/-- From the state `t` of the parent to `u`, no slot becomes live, and the notifications are a run
of the round robin over the slots that are live in `t`. -/
structure Parent.Turn (t u : Parent) (actions : List Action) : Prop where
  length : u.pids.length = t.pids.length
  live : ∀ i, Live u.pids i → Live t.pids i
  rounds : Rounds t.pids.length (Live t.pids) t.subProcessCounter (notified actions)
    u.subProcessCounter

/-- What is quiet is a run of the round robin in which nothing is chosen. -/
theorem Parent.Quiet.turn (h : t.Quiet u actions) : t.Turn u actions := by
  refine ⟨h.length, h.live, ?_⟩
  rw [h.counter, h.notified]
  exact .nil

/-- One run of the round robin after the other is a run, if the slots that were live still are. -/
theorem Parent.Turn.trans (h : t.Turn u actions) (h' : u.Turn t' actions')
    (hstay : ∀ i, Live t.pids i → Live u.pids i) : t.Turn t' (actions ++ actions') := by
  have hsame : Live u.pids = Live t.pids := funext fun i => propext ⟨h.live i, hstay i⟩
  refine ⟨h'.length.trans h.length, fun i hi => h.live i (h'.live i hi), ?_⟩
  have hrounds := h'.rounds
  rw [h.length, hsame] at hrounds
  rw [notified_append]
  exact h.rounds.append hrounds

/-- **One event** is a run of the round robin: an event of the listening socket chooses a slot,
or none if none is live, and the others are quiet. -/
theorem Parent.InTable.handleEvent_turn {event : Event} {left : Bool} (h : t.InTable)
    (hevent : handleEvent t event = some (u, actions, left)) : t.Turn u actions := by
  have hsame : some (t, ([] : List Action), false) = some (u, actions, left) →
      t.Turn u actions := by
    intro heq
    obtain ⟨rfl, rfl, -⟩ := by simpa using heq
    exact (Quiet.refl t).turn
  cases event with
  | listen =>
      rcases handleListen_spec h with ⟨i, pid, -, -, hfirst, heq⟩ | ⟨-, heq⟩
      · obtain ⟨rfl, rfl, -⟩ := by simpa using heq.symm.trans hevent
        exact ⟨rfl, fun _ => id, .cons hfirst .nil⟩
      · obtain ⟨rfl, rfl, -⟩ := by simpa using heq.symm.trans hevent
        exact ⟨rfl, fun _ => id, .nil⟩
  | signal epollin received =>
      match epollin, received with
      | true, some bytes =>
          obtain ⟨rfl, rfl, -⟩ := by simpa [handleEvent] using hevent
          exact (t.quiet_handleBytes bytes).turn
      | true, none => exact hsame hevent
      | false, _ => exact hsame hevent
  | other => exact hsame hevent

/-- No slot becomes live in a batch. Induction on the events. -/
theorem Parent.InTable.live_of_handleBatch {events : List Event} (h : t.InTable)
    (hbatch : handleBatch t events = some (t', actions)) (hi : Live t'.pids i) :
    Live t.pids i := by
  induction events generalizing t actions with
  | nil =>
      obtain ⟨rfl, -⟩ := by simpa [handleBatch] using hbatch
      exact hi
  | cons event events ih =>
      rcases handleBatch_cons_eq_some.mp hbatch with hleft | ⟨u, first, rest, hgo, hrest, -⟩
      · exact (h.handleEvent_turn hleft).live i hi
      · have hturn := h.handleEvent_turn hgo
        obtain ⟨_, _, _, hu, hin, -⟩ := handleEvent_total h event
        obtain ⟨rfl, -⟩ := by simpa using hu.symm.trans hgo
        exact hturn.live i (ih hin hrest)

/-- **A batch** in which the live slots stay the same is a run of the round robin. Induction on
the events; the slots that are live behind the batch are so in between. -/
theorem Parent.InTable.handleBatch_turn {events : List Event} (h : t.InTable)
    (hbatch : handleBatch t events = some (t', actions))
    (hstay : ∀ i, Live t.pids i → Live t'.pids i) : t.Turn t' actions := by
  induction events generalizing t actions with
  | nil =>
      obtain ⟨rfl, rfl⟩ := by simpa [handleBatch] using hbatch
      exact (Quiet.refl _).turn
  | cons event events ih =>
      rcases handleBatch_cons_eq_some.mp hbatch with hleft | ⟨u, first, rest, hgo, hrest, rfl⟩
      · exact h.handleEvent_turn hleft
      · have hturn := h.handleEvent_turn hgo
        obtain ⟨_, _, _, hu, hin, -⟩ := handleEvent_total h event
        obtain ⟨rfl, -⟩ := by simpa using hu.symm.trans hgo
        refine hturn.trans (ih hin hrest fun i hi => hstay i (hturn.live i hi)) fun i hi => ?_
        exact hin.live_of_handleBatch hrest (hstay i hi)

/-! ### The dispatch -/

/-- **The dispatch is a round robin.** For every number of children, every counter in the table
and every set of live slots, the search ends; the first live slot is notified if there is one, and
otherwise, and only then, `m_stop` is set; the counter stays in the table. In every batch that
leaves the live slots as they are, two live children are notified equally often up to one. -/
theorem dispatch_roundRobin (h : t.subProcessCounter < t.pids.length) :
    (∃ i, (∀ fuel, t.pids.length ≤ fuel →
      searchLoop t.pids t.subProcessCounter fuel t.subProcessCounter = some i) ∧
      ((∃ j, Live t.pids j) → First t.pids.length (Live t.pids) t.subProcessCounter i)) ∧
    (∃ u actions left, handleListen t = some (u, actions, left) ∧
      u.pids = t.pids ∧ u.subProcessCounter < u.pids.length ∧
      (u.stop = true ↔ t.stop = true ∨ ∀ i, ¬ Live t.pids i) ∧
      ((∃ i, Live t.pids i) → ∃ i pid, First t.pids.length (Live t.pids) t.subProcessCounter i ∧
        t.pids[i]? = some pid ∧ actions = [.send i pid]) ∧
      ((∀ i, ¬ Live t.pids i) → actions = [])) ∧
    ∀ events t' actions, handleBatch t events = some (t', actions) →
      (∀ i, Live t'.pids i ↔ Live t.pids i) →
      ∀ i j, Live t.pids i → Live t.pids j →
        (notified actions).count i ≤ (notified actions).count j + 1 := by
  have hlt : ∀ i, Live t.pids i → i < t.pids.length := by
    rintro i ⟨pid, hpid, -⟩
    exact (List.getElem?_eq_some_iff.mp hpid).1
  refine ⟨searchLoop_ends h, ?_, fun events t' actions hbatch hsame i j hi hj => ?_⟩
  · rcases handleListen_spec h with ⟨i, pid, hi, hpid, hfirst, heq⟩ | ⟨hdead, heq⟩
    · have hlive : Live t.pids i := ⟨pid, hi, hpid⟩
      exact ⟨_, _, _, heq, rfl, Nat.mod_lt _ (Nat.zero_lt_of_lt h),
        ⟨.inl, fun hstop => hstop.resolve_right fun hnone => hnone i hlive⟩,
        fun _ => ⟨i, pid, hfirst, hi, rfl⟩, fun hnone => absurd hlive (hnone i)⟩
    · have hnone := not_live_of_all_dead hdead
      exact ⟨_, _, _, heq, rfl, h, iff_of_true rfl (.inr hnone),
        fun ⟨i, hi⟩ => absurd hi (hnone i), fun _ => rfl⟩
  · have hturn := Parent.InTable.handleBatch_turn h hbatch fun i => (hsame i).mpr
    exact hturn.rounds.balanced h (hlt i hi) (hlt j hj) hi hj

/-- Two live children of four, and a counter that designates neither. -/
theorem dispatch_roundRobin_example :
    ∃ t' actions, handleBatch ⟨[101, -1, 102, -1], false, 1⟩ [.listen, .other, .listen, .listen] =
      some (t', actions) ∧ notified actions = [2, 0, 2] ∧
      (notified actions).count 2 ≤ (notified actions).count 0 + 1 := by
  obtain ⟨-, -, hbalance⟩ :=
    dispatch_roundRobin (t := ⟨[101, -1, 102, -1], false, 1⟩) (by decide)
  have hbatch : handleBatch ⟨[101, -1, 102, -1], false, 1⟩ [.listen, .other, .listen, .listen] =
      some (⟨[101, -1, 102, -1], false, 3⟩, [.send 2 102, .send 0 101, .send 2 102]) := rfl
  exact ⟨_, _, hbatch, rfl, hbalance _ _ _ hbatch (fun _ => .rfl) 2 0 ⟨102, rfl, by decide⟩
    ⟨101, rfl, by decide⟩⟩

end LinuxNetwork.ProcessPool

import LinuxNetwork.ProcessPool

/-!
# What the Parent Does With Its Batches

A parent answers a batch when it sends one notification to a live child for each event of
the listening socket, if some child is live, and handles each reported signal byte, all
before it waits again. `run_parent` closes the `while` loop around `epoll_wait` before the
`for` loop over the events, and `m_stop` does not change in between: the batches are
received and dropped, and the `for` loop is reached only after `epoll_wait` has failed, with
no events.

## Main results

* `runParent_eq`: all that `run_parent` ever does.
* `runParent_drops_connection`: a connection that is never dispatched.
* `runParent_answers_iff`: it answers all batches only if there is nothing to answer.
-/

namespace LinuxNetwork.ProcessPool

/-! ### Answering a batch -/

/-- Whether the event is one of the listening socket. -/
def Event.isListen : Event → Bool
  | .listen => true
  | .signal _ _ | .other => false

/-- The bytes of the signal pipe that come with the event, as far as the parent is to handle
them. -/
def Event.signals : Event → List ℤ
  | .signal true (some bytes) => (bytes.map SignalByte.sig).filter fun sig =>
      decide (sig = SIGCHLD ∨ sig = SIGTERM ∨ sig = SIGINT)
  | .signal true none | .signal false _ | .listen | .other => []

/-- Whether the action is the receipt of a batch. -/
def Action.isWait : Action → Bool
  | .wait _ _ => true
  | .send _ _ | .handle _ | .closePipe _ | .kill _ | .closeEpollfd => false

/-- Whether the action is a notification. -/
def Action.isSend : Action → Bool
  | .send _ _ => true
  | .wait _ _ | .handle _ | .closePipe _ | .kill _ | .closeEpollfd => false

/-- The signal that the action handles. -/
def Action.handled : Action → Option ℤ
  | .handle sig => some sig
  | .wait _ _ | .send _ _ | .closePipe _ | .kill _ | .closeEpollfd => none

/-- The actions answer the batch `events`, received while the table held `pids`. -/
structure Answered (pids : List ℤ) (events : List Event) (actions : List Action) : Prop where
  notified : (∃ pid ∈ pids, pid ≠ -1) →
    actions.countP Action.isSend = events.countP Event.isListen
  live : ∀ child pid, .send child pid ∈ actions → pid ≠ -1
  handled : actions.filterMap Action.handled = events.flatMap Event.signals

/-- **Dispatching everything.** Every batch is answered before the next one is waited
for. -/
def Answers (actions : List Action) : Prop :=
  ∀ before pids events after, actions = before ++ .wait pids events :: after →
    Answered pids events (after.takeWhile fun a => !a.isWait)

/-- There is nothing in the batch to answer. -/
def Quiet (events : List Event) : Prop :=
  (∀ event ∈ events, event.isListen = false) ∧ ∀ event ∈ events, event.signals = []

instance (events : List Event) : Decidable (Quiet events) := by
  rw [Quiet]
  infer_instance

/-! ### The run of the parent -/

/-- The batches that `epoll_wait` reports before it fails. -/
def batches : List WaitResult → List (List Event)
  | [] => []
  | .batch events :: results => events :: batches results
  | .interrupted :: results => batches results
  | .failure :: _ => []

/-- Whether `epoll_wait` fails. -/
def fails : List WaitResult → Bool
  | [] => false
  | .batch _ :: results => fails results
  | .interrupted :: results => fails results
  | .failure :: _ => true

variable {t : Parent} {pids pids' : List ℤ} {events : List Event} {results : List WaitResult}

/-- The `while` loop receives all batches, and is left, without a batch, when `epoll_wait`
fails. Induction on the results of `epoll_wait`. -/
theorem waitLoop_eq (ht : t.stop = false) (events : List Event) (results : List WaitResult) :
    waitLoop t events results =
      ((batches results).map (.wait t.pids), if fails results then some [] else none) := by
  induction results generalizing events with
  | nil => simp [waitLoop, ht, batches, fails]
  | cons result results ih =>
      have hgo : ¬ t.stop = true := by simp [ht]
      cases result with
      | batch events' =>
          rw [waitLoop, if_neg hgo]
          simp only [ih]
          rfl
      | interrupted =>
          rw [waitLoop, if_neg hgo]
          exact ih []
      | failure =>
          rw [waitLoop, if_neg hgo]
          rfl

/-- **All that `run_parent` does** is to receive the batches, and to return when
`epoll_wait` fails. -/
theorem runParent_eq (pids : List ℤ) (results : List WaitResult) :
    runParent (Parent.new pids) results =
      if fails results then
        some ((batches results).map (.wait pids) ++ [.closeEpollfd],
          some (Parent.new pids))
      else some ((batches results).map (.wait pids), none) := by
  rw [runParent, waitLoop_eq rfl]
  by_cases hf : fails results = true
  · simp [hf, handleBatch, Parent.new]
  · simp [hf, Parent.new]

/-- Between two receipts of batches nothing happens, and after the last one nothing but the
return. -/
theorem nothing_after_wait {before after : List Action} {batches : List (List Event)}
    {fin : List Action} (hfin : fin = [] ∨ fin = [.closeEpollfd])
    (h : batches.map (.wait pids) ++ fin = before ++ .wait pids' events :: after) :
    pids' = pids ∧ events ∈ batches ∧
      ((after.takeWhile fun a => !a.isWait) = [] ∨
        (after.takeWhile fun a => !a.isWait) = [.closeEpollfd]) := by
  induction batches generalizing before with
  | nil =>
      have hmem : Action.wait pids' events ∈ fin := by
        rw [List.map_nil, List.nil_append] at h
        simp [h]
      rcases hfin with rfl | rfl
      · cases hmem
      · cases List.mem_singleton.mp hmem
  | cons b batches ih =>
      cases before with
      | nil =>
          rw [List.map_cons, List.cons_append, List.nil_append, List.cons.injEq,
            Action.wait.injEq] at h
          obtain ⟨⟨rfl, rfl⟩, rfl⟩ := h
          refine ⟨rfl, List.mem_cons_self, ?_⟩
          cases batches with
          | nil =>
              rcases hfin with rfl | rfl
              · exact .inl rfl
              · exact .inr rfl
          | cons c batches => exact .inl rfl
      | cons a before =>
          rw [List.map_cons, List.cons_append, List.cons_append, List.cons.injEq] at h
          obtain ⟨hpids, hmem, hseg⟩ := ih h.2
          exact ⟨hpids, List.mem_cons_of_mem b hmem, hseg⟩

/-- Doing nothing answers a batch just when there is nothing to answer, as long as a child is
live. -/
theorem answered_iff_quiet {actions : List Action} (hlive : ∃ pid ∈ pids, pid ≠ -1)
    (hactions : actions = [] ∨ actions = [.closeEpollfd]) :
    Answered pids events actions ↔ Quiet events := by
  have hsend : actions.countP Action.isSend = 0 := by
    rcases hactions with rfl | rfl <;> rfl
  have hhandled : actions.filterMap Action.handled = [] := by
    rcases hactions with rfl | rfl <;> rfl
  constructor
  · intro h
    have hnot := h.notified hlive
    have hsig := h.handled
    rw [hsend, eq_comm, List.countP_eq_zero] at hnot
    rw [hhandled, eq_comm, List.flatMap_eq_nil_iff] at hsig
    exact ⟨fun event hevent => Bool.eq_false_iff.mpr (hnot event hevent), hsig⟩
  · rintro ⟨hlisten, hsig⟩
    refine ⟨fun _ => ?_, fun child pid hmem => ?_, ?_⟩
    · rw [hsend, eq_comm, List.countP_eq_zero]
      exact fun event hevent => Bool.eq_false_iff.mp (hlisten event hevent)
    · rcases hactions with rfl | rfl
      · cases hmem
      · cases List.mem_singleton.mp hmem
    · rw [hhandled, eq_comm, List.flatMap_eq_nil_iff]
      exact hsig

/-- **When `run_parent` dispatches everything.** For every number of children, all of them
live, and all results of `epoll_wait`, the parent answers every batch it receives if and
only if none of them holds an event of the listening socket or a signal to handle. -/
theorem runParent_answers_iff {n : ℕ} (hn : 1 ≤ n) {pids : List ℤ} (hlen : pids.length = n)
    (hpids : ∀ pid ∈ pids, 0 < pid) (results : List WaitResult) :
    (∃ actions fin, runParent (Parent.new pids) results = some (actions, fin) ∧
        Answers actions) ↔ ∀ events ∈ batches results, Quiet events := by
  have hlive : ∃ pid ∈ pids, pid ≠ -1 := by
    obtain ⟨pid, hpid⟩ := List.exists_mem_of_length_pos (show 0 < pids.length by omega)
    have := hpids pid hpid
    exact ⟨pid, hpid, by omega⟩
  obtain ⟨fin, last, hlast, hrun⟩ : ∃ fin last, (last = [] ∨ last = [.closeEpollfd]) ∧
      runParent (Parent.new pids) results =
        some ((batches results).map (.wait pids) ++ last, fin) := by
    rw [runParent_eq]
    by_cases hf : fails results = true
    · exact ⟨_, _, .inr rfl, if_pos hf⟩
    · refine ⟨none, [], .inl rfl, ?_⟩
      rw [if_neg hf, List.append_nil]
  constructor
  · rintro ⟨actions, fin', hrun', hanswers⟩ events hevents
    rw [hrun, Option.some.injEq, Prod.mk.injEq] at hrun'
    obtain ⟨before, after, hsplit⟩ := List.append_of_mem hevents
    have hsplit' : actions = before.map (.wait pids) ++ .wait pids events ::
        (after.map (.wait pids) ++ last) := by
      rw [← hrun'.1, hsplit]
      simp
    have hnothing := nothing_after_wait hlast (hrun'.1.trans hsplit')
    exact (answered_iff_quiet hlive hnothing.2.2).mp (hanswers _ _ _ _ hsplit')
  · intro hquiet
    refine ⟨_, fin, hrun, fun before pids' events after h => ?_⟩
    obtain ⟨rfl, hmem, hseg⟩ := nothing_after_wait hlast h
    exact (answered_iff_quiet hlive hseg).mpr (hquiet events hmem)

/-- Two children, a batch without anything to do, an interruption, a connection and a
failure. -/
theorem runParent_answers_iff_example :
    (∃ actions fin, runParent (Parent.new [101, 102])
        [.batch [.other], .interrupted, .batch [.listen], .failure] = some (actions, fin) ∧
        Answers actions) ↔
      ∀ events ∈ batches [.batch [.other], .interrupted, .batch [.listen], .failure],
        Quiet events :=
  runParent_answers_iff (n := 2) (by decide) rfl (by decide) _

/-- **A dropped connection.** With one live child and one connection reported, the parent
sends no notification. -/
theorem runParent_drops_connection :
    ¬ ∀ n, 1 ≤ n → ∀ pids : List ℤ, pids.length = n → (∀ pid ∈ pids, 0 < pid) →
      ∀ results, ∃ actions fin, runParent (Parent.new pids) results = some (actions, fin) ∧
        Answers actions := by
  intro h
  obtain ⟨actions, fin, hrun, hanswers⟩ :=
    h 1 (Nat.le_refl 1) [101] rfl (by decide) [.batch [.listen]]
  obtain rfl : [Action.wait [101] [.listen]] = actions :=
    congrArg Prod.fst (Option.some.inj hrun)
  have hnotified := (hanswers [] _ _ [] rfl).notified (by decide)
  exact absurd hnotified (by decide)

end LinuxNetwork.ProcessPool

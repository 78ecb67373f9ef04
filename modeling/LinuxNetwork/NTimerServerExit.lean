import LinuxNetwork.NTimerServerTimers
import LinuxNetwork.TimerDestructors

/-!
# The Timers at the End of the Server

Behind its loop `test_timer_server` closes the listening socket and the signal pipe and gives
`users` back. It leaves alone the connections that are open, and their timers; but `timer_list`
is static, and when the program ends, `~Sort_timer_list()` frees what is in the list. What it
frees are the timers of these connections, since no timer is ever allocated outside the list.

## Main results

* `Full.step`: every step of the event loop keeps the timers in the list.
* `exit_frees_all`: at the end of the program no timer is left.
-/

open Transition

namespace LinuxNetwork.NTimerServer

open SortTimerList

/-- What is done at the end of the program. -/
structure Exit where
  closed : List ℤ
  freed : List Ptr
  timerList : SortTimerList ℤ

/-- What follows the `while` loop, and the destructor of `timer_list` behind it. -/
def exit (fds : Fds) (pipefd1 : ℤ) (fuel : ℕ) (s : Server) : Option Exit := do
  let (l, freed) ← s.timerList.destroy fuel
  some ⟨[fds.listenfd, pipefd1, fds.pipefd0], freed, l⟩

/-- **No timer is outside the list.** -/
def Full (l : SortTimerList ℤ) (es : List (Entry ℤ)) : Prop :=
  ∀ p, p ∉ timers es → l.heap p = none

variable {fds : Fds} {s s' : Server} {t u : State} {a : Act} {l l' : SortTimerList ℤ}
  {es es' es₁ es₂ : List (Entry ℤ)} {e : Entry ℤ} {fd cur : ℤ} {addr : Ptr}

/-! ### The calls on the list -/

/-- Writing into `users` leaves `timer_list` alone. -/
theorem timerList_setUser {f : ClientData → ClientData} (h : s.setUser fd f = some s') :
    s'.timerList = s.timerList := by
  obtain ⟨u, -, hs'⟩ := Option.bind_eq_some_iff.mp h
  obtain rfl := Option.some.inj hs'
  rfl

/-- The callback leaves `timer_list` alone: it takes the connection off the epoll instance and
closes it. -/
theorem timerList_cbFunc (h : s.cbFunc fd = some s') : s'.timerList = s.timerList := by
  obtain ⟨u, -, hs'⟩ := Option.bind_eq_some_iff.mp h
  obtain rfl := Option.some.inj hs'
  rfl

/-- The branch of the listening socket adds a timer, and does nothing else to `timer_list`. -/
theorem timerList_handleAccept {connfd : ℤ} (h : handleAccept fds s connfd addr cur = some s') :
    (Call.addTimer addr (cur + 3 * TIMESLOT) connfd).exec FD_LIMIT s.timerList =
      some s'.timerList := by
  obtain ⟨s₁, h₁, h⟩ := Option.bind_eq_some_iff.mp h
  obtain ⟨s₂, h₂, h⟩ := Option.bind_eq_some_iff.mp h
  obtain ⟨s₃, h₃, hs'⟩ := Option.bind_eq_some_iff.mp h
  obtain rfl := Option.some.inj hs'
  obtain ⟨l, hadd, hs₃⟩ := Option.bind_eq_some_iff.mp h₃
  obtain rfl := Option.some.inj hs₃
  have hopened : s₁.timerList = s.timerList := by
    rw [timerList_setUser h₁, Server.accept]
    split <;> rfl
  rw [timerList_setUser h₂, hopened] at hadd
  exact hadd

/-- The branch of a client that has sent data moves its timer, and does nothing else to
`timer_list`. -/
theorem timerList_data {bytes : List UInt8} {u : ClientData} {timer : Ptr}
    (hu : s.user fd = some u) (htimer : u.timer = some timer)
    (h : handleClient s fd (.data bytes) cur = some s') :
    (Call.adjustTimer timer (cur + 3 * TIMESLOT)).exec FD_LIMIT s.timerList =
      some s'.timerList := by
  rw [handleClient, hu, Option.bind_eq_bind, Option.bind_some] at h
  simp only [htimer] at h
  obtain ⟨s₁, h₁, hs'⟩ := Option.bind_eq_some_iff.mp h
  obtain rfl := Option.some.inj hs'
  obtain ⟨l₁, hset, h₁⟩ := Option.bind_eq_some_iff.mp h₁
  obtain ⟨l₂, hadjust, hs₁⟩ := Option.bind_eq_some_iff.mp h₁
  obtain rfl := Option.some.inj hs₁
  rw [Call.exec, hset]
  exact hadjust

/-- A client that is closed loses its timer, which `del_timer` frees. -/
theorem timerList_closeClient {timer : Ptr} (h : closeClient s fd (some timer) = some s') :
    s.timerList.delTimer (some timer) = some s'.timerList := by
  obtain ⟨s₁, h₁, h⟩ := Option.bind_eq_some_iff.mp h
  obtain ⟨l, hdel, hs'⟩ := Option.bind_eq_some_iff.mp h
  obtain rfl := Option.some.inj hs'
  rw [timerList_cbFunc h₁] at hdel
  exact hdel

/-! ### The timers stay in the list -/

/-- Inserting an entry adds its timer, wherever the entry comes to stand. -/
theorem mem_timers_insertEntry {p : Ptr} :
    p ∈ timers (insertEntry e es) ↔ p = e.timer ∨ p ∈ timers es := by
  have hperm : (timers (insertEntry e es)).Perm (timers (e :: es)) :=
    (StableQueue.perm_insert e es).map Entry.timer
  rw [hperm.mem_iff, timers_cons, List.mem_cons]

/-- A new connection: its timer is the only one that is allocated, and it is in the list behind
the call. -/
theorem Full.accept (h : Full s.timerList es) (hrep : Rep s.timerList es)
    (haddr : s.timerList.heap addr = none) {connfd : ℤ}
    (hrun : handleAccept fds s connfd addr cur = some s') :
    Full s'.timerList (insertEntry ⟨addr, cur + 3 * TIMESLOT, connfd⟩ es) := by
  intro p hp
  obtain ⟨-, hoff⟩ := hrep.call_addTimer haddr (timerList_handleAccept hrun)
  rw [mem_timers_insertEntry, not_or] at hp
  rw [hoff p hp.2 hp.1]
  exact h p hp.2

/-- A restarted timer is moved within the list, and no timer is allocated or freed. -/
theorem Full.data (h : Full s.timerList (es₁ ++ e :: es₂))
    (hm : Matched s (es₁ ++ e :: es₂)) {bytes : List UInt8}
    (hrun : handleClient s e.userData (.data bytes) cur = some s') :
    Full s'.timerList (es₁ ++ insertEntry { e with expire := cur + 3 * TIMESLOT } es₂) := by
  intro p hp
  obtain ⟨-, hoff⟩ := hm.rep.call_adjustTimer
    (timerList_data (hm.registered.user (by simp)) rfl hrun)
  have hp' : p ∉ timers (es₁ ++ e :: es₂) := by
    rw [timers_append, List.mem_append, mem_timers_insertEntry] at hp
    rwa [timers_append, timers_cons, List.mem_append, List.mem_cons]
  rw [hoff p hp']
  exact h p hp'

/-- A closed connection: the timer that leaves the list is freed. -/
theorem Full.close (h : Full s.timerList (es₁ ++ e :: es₂))
    (hrep : Rep s.timerList (es₁ ++ e :: es₂))
    (hrun : closeClient s e.userData (some e.timer) = some s') :
    Full s'.timerList (es₁ ++ es₂) := by
  intro p hp
  obtain ⟨l, hdel, -, hfreed, hoff⟩ := hrep.delTimer
  obtain rfl := Option.some.inj (hdel.symm.trans (timerList_closeClient hrun))
  by_cases hpe : p = e.timer
  · rw [hpe, hfreed]
  · have hp' : p ∉ timers (es₁ ++ e :: es₂) := by
      rw [timers_append, timers_cons, List.mem_append, List.mem_cons]
      rw [timers_append, List.mem_append] at hp
      tauto
    rw [hoff p hp']
    exact h p hp'

/-- A call of `timer_handler`: the timers that are fired leave the list and are freed, the
others stay. -/
theorem Full.timerHandler (h : Full s.timerList es) (hm : Matched s es)
    (hrun : timerHandler s cur = some s') : Full s'.timerList (leftBy cur es) := by
  intro p hp
  have hsplit : firedBy cur es ++ leftBy cur es = es := List.takeWhile_append_dropWhile
  obtain ⟨s₁, hfold, -⟩ := Registered.foldlM_cbFunc (firedBy cur es) (hsplit.symm ▸ hm.registered)
  have hcb : ∀ p (l : SortTimerList ℤ) (o : Server) t, l.heap p = some t →
      callback p l o = (o.cbFunc t.userData).map fun o => (l, o) := by
    intro p l o t ht
    rw [callback, ht]
    cases hcb : o.cbFunc t.userData <;> simp [hcb]
  obtain ⟨l, htick, -, hfired, hoff⟩ := Rep.tick callback (fun _ u s => s.cbFunc u) hcb cur hm.rep
    hm.registered.length_le hfold
  obtain ⟨⟨l', s₂⟩, htick', hs'⟩ := Option.bind_eq_some_iff.mp hrun
  obtain rfl := Option.some.inj hs'
  obtain ⟨rfl, -⟩ := Prod.mk.inj (Option.some.inj (htick.symm.trans htick'))
  by_cases hin : p ∈ timers es
  · rw [← hsplit, timers_append, List.mem_append] at hin
    obtain ⟨e, he, rfl⟩ := List.mem_map.mp (hin.resolve_right hp)
    exact hfired e he
  · exact (hoff p hin).trans (h p hin)

/-- An input that asks for nothing leaves the list alone, whatever the event is. -/
theorem timerList_of_keeps {event : Report} {input : Input} (hkeeps : input.keeps = true)
    (hrun : handleEvent fds s event input = some s') : s'.timerList = s.timerList := by
  have htakes := takes_of_handleEvent hrun
  unfold handleEvent at hrun
  cases input with
  | accept connfd addr cur => cases hkeeps
  | signals received =>
      obtain ⟨hlisten, hpipe⟩ := htakes
      rw [if_neg hlisten, if_pos hpipe] at hrun
      cases received with
      | none => exact congrArg Server.timerList (Option.some.inj hrun).symm
      | some received =>
          obtain ⟨timeout, stopServer, heq⟩ := handleSignals_eq s received
          obtain rfl := Option.some.inj hrun
          rw [heq]
  | recv result cur =>
      obtain ⟨hlisten, hpipe, hin⟩ := htakes
      rw [if_neg hlisten, if_neg (fun hp => hpipe hp.1), if_pos hin] at hrun
      obtain ⟨u, -, hrun⟩ := Option.bind_eq_some_iff.mp hrun
      cases result with
      | eagain => exact congrArg Server.timerList (Option.some.inj hrun).symm
      | data | error | closed => cases hkeeps
  | none =>
      obtain ⟨hlisten, hin⟩ := htakes
      have hpipe : ¬(event.fd = fds.pipefd0 ∧ event.epollin = true) := by simp [hin]
      rw [if_neg hlisten, if_neg hpipe, if_neg (by simp [hin])] at hrun
      exact congrArg Server.timerList (Option.some.inj hrun).symm

/-- **Every event** keeps the timers in the list: it adds one, moves one, removes and frees one,
or leaves the list alone. -/
theorem Full.event {event : Report} {input : Input} {batch : Option (List Report)}
    (h : Full s.timerList es) (hm : Matched s es) (hassumed : Assumed fds ⟨s, batch⟩ (.event input))
    (hchange : Change event.fd input es es')
    (hrun : handleEvent fds s event input = some s') : Full s'.timerList es' := by
  cases hchange with
  | accept connfd addr cur es =>
      have hlisten : event.fd = fds.listenfd := takes_of_handleEvent hrun
      obtain ⟨-, -, -, -, -, haddr⟩ := hassumed
      unfold handleEvent at hrun
      rw [if_pos hlisten] at hrun
      exact h.accept hm.rep haddr hrun
  | restart bytes cur es₁ es₂ e hfd =>
      obtain ⟨hlisten, hpipe, hin⟩ := takes_of_handleEvent hrun
      unfold handleEvent at hrun
      rw [if_neg hlisten, if_neg (fun hp => hpipe hp.1), if_pos hin, ← hfd] at hrun
      exact h.data hm hrun
  | close result cur es₁ es₂ e hresult hfd =>
      obtain ⟨hlisten, hpipe, hin⟩ := takes_of_handleEvent hrun
      unfold handleEvent at hrun
      rw [if_neg hlisten, if_neg (fun hp => hpipe hp.1), if_pos hin, ← hfd] at hrun
      obtain ⟨u, hu, hrun⟩ := Option.bind_eq_some_iff.mp hrun
      obtain rfl := Option.some.inj (hu.symm.trans (hm.registered.user (by simp)))
      rcases hresult with rfl | rfl
      · exact h.close hm.rep hrun
      · exact h.close hm.rep hrun
  | keep input es hkeeps =>
      rw [timerList_of_keeps hkeeps hrun]
      exact h

/-- **Every step** keeps the timers in the list: the handling of an event, and `timer_handler`
behind a batch. -/
theorem Full.step (h : Full t.server.timerList es) (hm : Matched t.server es)
    (hbatch : BatchOpen fds t) (hassumed : Assumed fds t a)
    (hstep : (server fds).step t a = some u) :
    ∃ es', Matched u.server es' ∧ Full u.server.timerList es' := by
  cases a with
  | wait events =>
      obtain ⟨-, -, rfl⟩ := step_wait_eq_some.mp hstep
      exact ⟨es, hm, h⟩
  | event input =>
      obtain ⟨event, batch, s', hb, hevent, rfl⟩ := step_event_eq_some.mp hstep
      obtain ⟨s₁, hrun, es', acts, hm', hchange, -⟩ :=
        handleEvent_spec hm ((hbatch _ hb).2 event List.mem_cons_self) hassumed
          (takes_of_handleEvent hevent)
      obtain rfl := Option.some.inj (hrun.symm.trans hevent)
      exact ⟨es', hm', h.event hm hassumed hchange hevent⟩
  | endBatch cur =>
      obtain ⟨s', -, hend, rfl⟩ := step_endBatch_eq_some.mp hstep
      rw [NTimerServer.endBatch] at hend
      split at hend
      case isTrue =>
          obtain ⟨s₁, hhandler, hs'⟩ := Option.bind_eq_some_iff.mp hend
          obtain rfl := Option.some.inj hs'
          obtain ⟨s₂, hrun, hm', -⟩ := hm.timerHandler cur
          obtain rfl := Option.some.inj (hrun.symm.trans hhandler)
          have hfull := h.timerHandler hm hhandler
          exact ⟨leftBy cur es, ⟨hm'.rep, hm'.registered.congr [] rfl rfl rfl
            (List.append_nil _).symm (by simp)⟩, hfull⟩
      case isFalse =>
          obtain rfl := Option.some.inj hend
          exact ⟨es, hm, h⟩

/-- **No timer is ever lost.** In every state that the event loop reaches, the allocated timers
are those in the list. Induction on the run. -/
theorem full (h : (server fds).ReachableWhile (Assumed fds) t) :
    ∃ es, Matched t.server es ∧ Full t.server.timerList es := by
  refine System.Inductive.holds_of (I := fun t => Coherent fds t)
    (J := fun t => ∃ es, Matched t.server es ∧ Full t.server.timerList es)
    (fun _ => coherent) ?_ ?_ h
  · rintro _ ⟨users, rfl⟩
    exact ⟨[], matched_new users, fun _ _ => rfl⟩
  · rintro t a u ⟨-, hbatch⟩ - ⟨es, hm, hfull⟩ hassumed hstep
    exact hfull.step hm hbatch hassumed hstep

/-- **At the end of the program no timer is left.** Wherever the event loop ends, the destructor
of `timer_list` returns and frees every timer that is allocated, each once. They are those of the
connections that are still open, one for each. -/
theorem exit_frees_all (pipefd1 : ℤ) (h : (server fds).ReachableWhile (Assumed fds) t) :
    ∃ es, Rep t.server.timerList es ∧ (es.map Entry.userData).Perm t.server.openFds ∧
      ∀ fuel ≥ FD_LIMIT, ∃ x, exit fds pipefd1 fuel t.server = some x ∧ x.freed = timers es ∧
        x.freed.Nodup ∧ ∀ p, x.timerList.heap p = none := by
  obtain ⟨es, hm, hfull⟩ := full h
  refine ⟨es, hm.rep, hm.registered.fds, fun fuel hfuel => ?_⟩
  have hlength : (timers es).length ≤ fuel := by
    rw [timers, List.length_map]
    exact hm.registered.length_le.trans hfuel
  have hfree := hm.rep.chain.freeChain_eq hm.rep.nodup hm.rep.allocated hlength
  refine ⟨_, by simp only [exit, SortTimerList.destroy, hfree]; rfl, rfl, hm.rep.nodup,
    fun p => ?_⟩
  change (if p ∈ timers es then none else t.server.timerList.heap p) = none
  split
  case isTrue => rfl
  case isFalse hp => exact hfull p hp

/-- One of three connections is closed by its peer, and the server ends. -/
theorem exit_frees_all_example :
    ∃ (t : State) (x : Exit), t.server.openFds = [8, 7] ∧
      exit ⟨3, 4, 6⟩ 5 FD_LIMIT t.server = some x ∧ x.freed.length = 2 ∧
        ∀ p, x.timerList.heap p = none := by
  have hinit : (server ⟨3, 4, 6⟩).ReachableWhile (Assumed ⟨3, 4, 6⟩)
      ⟨.new fun _ => ⟨0, none⟩, none⟩ := .init ⟨_, rfl⟩
  obtain ⟨t, hreach, ht⟩ := System.exists_reachableWhile hinit
    [.wait [⟨3, true⟩], .event (.accept 7 1 100), .endBatch 100,
      .wait [⟨3, true⟩], .event (.accept 9 2 102), .endBatch 103,
      .wait [⟨9, true⟩, ⟨3, true⟩, ⟨4, true⟩], .event (.recv .closed 104),
      .event (.accept 8 3 104), .event (.signals (some [SIGTERM])), .endBatch 104]
    (fun t => decide (t.server.openFds = [8, 7])) (by decide +kernel)
  have hopen : t.server.openFds = [8, 7] := of_decide_eq_true ht
  obtain ⟨es, -, hperm, hexit⟩ := exit_frees_all 5 hreach
  obtain ⟨x, hx, hfreed, -, hnone⟩ := hexit FD_LIMIT (Nat.le_refl _)
  refine ⟨t, x, hopen, hx, ?_, hnone⟩
  have hlength := hperm.length_eq
  rw [hopen, List.length_map] at hlength
  rw [hfreed, timers, List.length_map]
  exact hlength

end LinuxNetwork.NTimerServer

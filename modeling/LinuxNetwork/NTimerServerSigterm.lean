import LinuxNetwork.NTimerServerAlarm

/-!
# The End of the Timer Server

`SIGTERM` is a byte in the signal pipe like `SIGALRM`. The event loop reads it behind the bytes
in front of it, at most `SIGNALS_SIZE` of them at once, and a report of the pipe that leaves
bytes behind is not repeated. What has the rest read is the next signal, and the periodic alarm
sees to it that there is one. The flag that the byte raises ends the loop behind the batch.

## Main results

* `Clocked.sigterm_run`: each read of the pipe brings the byte nearer.
* `Clocked.stopped_run`: with the flag raised, what is left is the batch.
* `sigterm_ends_loop`: a `SIGTERM` that finds room in the pipe ends the event loop.
-/

open Transition

namespace LinuxNetwork.NTimerServer

/-- A read of the signal pipe that returns bytes. -/
def Beat.reads : Beat → ℕ
  | .loop (.event (.signals (some _))) => 1
  | .loop _ | .expire | .signal _ => 0

/-- A step of the event loop. -/
def Beat.steps : Beat → ℕ
  | .loop _ => 1
  | .expire | .signal _ => 0

variable {fds : Fds} {capacity : ℕ} {s : Server} {sig : ℤ}

/-! ### The flag -/

/-- `stop_server` is not lowered by a signal. Induction on the bytes received. -/
theorem stopServer_handleSignals (signals : List ℤ) (hs : s.stopServer = true) :
    (handleSignals s signals).stopServer = true := by
  induction signals generalizing s with
  | nil => exact hs
  | cons sig signals ih =>
      rw [handleSignals, List.foldl_cons]
      refine ih ?_
      split
      · exact hs
      · split
        · rfl
        · exact hs

/-- A received `SIGTERM` raises `stop_server`, whatever is received before and behind it. -/
theorem stopServer_of_mem {signals : List ℤ} (hmem : SIGTERM ∈ signals) :
    (handleSignals s signals).stopServer = true := by
  obtain ⟨before, after, rfl⟩ := List.append_of_mem hmem
  rw [handleSignals, List.foldl_append, List.foldl_cons]
  exact stopServer_handleSignals after rfl

/-- Behind a batch the flag is as before: `timer_handler` does not touch it. -/
theorem stopServer_endBatch {s' : Server} {cur : ℤ} (h : endBatch s cur = some s') :
    s'.stopServer = s.stopServer := by
  rw [endBatch] at h
  split at h
  · obtain ⟨s₁, hhandler, hs'⟩ := Option.bind_eq_some_iff.mp h
    obtain rfl := Option.some.inj hs'
    exact (timerHandler_calls_alarm hhandler).1.stopServer
  · exact congrArg Server.stopServer (Option.some.inj h).symm

namespace Clocked

variable {c d : Clocked} {b : Beat} {bs : List Beat}

/-- The steps of the event loop up to the end of the batch. -/
def left (c : Clocked) : ℕ :=
  c.loop.batch.elim 0 fun batch => batch.length + 1

/-- The signal handler touches the pipe only, not the state of the event loop. -/
@[simp] theorem loop_sigHandler (c : Clocked) (sig : ℤ) :
    (c.sigHandler capacity sig).loop = c.loop := by
  rw [sigHandler]
  split <;> rfl

/-- A signal is put behind what the pipe holds, or is lost when the pipe is full. -/
theorem prefix_sigHandler (capacity : ℕ) (c : Clocked) (sig : ℤ) :
    c.signals <+: (c.sigHandler capacity sig).signals := by
  rw [sigHandler]
  split
  · exact List.prefix_append _ _
  · exact List.prefix_rfl

/-- The alarm expires if it is armed, and its signal is handled. -/
theorem step_expire_eq_some : (clocked fds capacity).step c .expire = some d ↔
    c.alarm = true ∧ d = { c with alarm := false }.sigHandler capacity SIGALRM :=
  Option.ite_none_right_eq_some.trans (and_congr_right fun _ => Option.some_inj.trans eq_comm)

/-- A signal from outside may be delivered at any time, and is handled. -/
theorem step_signal_eq_some : (clocked fds capacity).step c (.signal sig) = some d ↔
    (sig = SIGALRM ∨ sig = SIGTERM) ∧ d = c.sigHandler capacity sig :=
  Option.ite_none_right_eq_some.trans (and_congr_right fun _ => Option.some_inj.trans eq_comm)

/-! ### The way of the byte -/

/-- **One step** leaves the byte of a `SIGTERM` where it is, brings it nearer or raises the
flag. -/
theorem sigterm_step (hterm : SIGTERM ∈ c.signals)
    (hstep : (clocked fds capacity).step c b = some d) :
    d.loop.server.stopServer = true ∨ SIGTERM ∈ d.signals ∧
      b.reads + d.signals.idxOf SIGTERM ≤ c.signals.idxOf SIGTERM := by
  have hsent : ∀ {c' : Clocked} (sig : ℤ), c'.signals = c.signals →
      SIGTERM ∈ (c'.sigHandler capacity sig).signals ∧
        0 + (c'.sigHandler capacity sig).signals.idxOf SIGTERM ≤ c.signals.idxOf SIGTERM := by
    intro c' sig heq
    obtain ⟨rest, hrest⟩ := prefix_sigHandler capacity c' sig
    rw [← hrest, heq, List.idxOf_append_of_mem hterm, Nat.zero_add]
    exact ⟨List.mem_append_left _ hterm, Nat.le_refl _⟩
  cases b with
  | expire =>
      obtain ⟨-, rfl⟩ := step_expire_eq_some.mp hstep
      exact .inr (hsent SIGALRM rfl)
  | signal sig =>
      obtain ⟨-, rfl⟩ := step_signal_eq_some.mp hstep
      exact .inr (hsent sig rfl)
  | loop a =>
      obtain ⟨c', t, hanswer, hloop, rfl⟩ := step_loop_eq_some.mp hstep
      cases a with
      | wait events =>
          obtain ⟨-, hc'⟩ := Option.ite_none_right_eq_some.mp hanswer
          obtain rfl := Option.some.inj hc'
          exact .inr ⟨hterm, Nat.le_of_eq (Nat.zero_add _)⟩
      | endBatch cur =>
          obtain rfl := Option.some.inj hanswer
          exact .inr ⟨hterm, Nat.le_of_eq (Nat.zero_add _)⟩
      | event input =>
          cases input with
          | accept | recv | none =>
              obtain rfl := Option.some.inj hanswer
              exact .inr ⟨hterm, Nat.le_of_eq (Nat.zero_add _)⟩
          | signals received =>
              cases received with
              | none =>
                  obtain rfl := Option.some.inj hanswer
                  exact .inr ⟨hterm, Nat.le_of_eq (Nat.zero_add _)⟩
              | some received =>
                  obtain ⟨⟨hne, -, rest, hrest⟩, hc'⟩ :=
                    Option.ite_none_right_eq_some.mp hanswer
                  obtain rfl := Option.some.inj hc'
                  by_cases hmem : SIGTERM ∈ received
                  · obtain ⟨event, batch, s', -, hevent, rfl⟩ := step_event_eq_some.mp hloop
                    obtain ⟨hlisten, hpipe⟩ := takes_of_handleEvent hevent
                    rw [handleEvent, if_neg hlisten, if_pos hpipe] at hevent
                    obtain rfl := Option.some.inj hevent
                    exact .inl (stopServer_of_mem hmem)
                  · have hpos := List.length_pos_of_ne_nil hne
                    rw [← hrest, List.mem_append] at hterm
                    have hrestmem := hterm.resolve_left hmem
                    simp only [Beat.reads, ← hrest, List.drop_left,
                      List.idxOf_append_of_notMem hmem]
                    exact .inr ⟨hrestmem, by omega⟩

/-- **With the flag raised** no batch is begun, and each step of the event loop brings the batch
nearer to its end. -/
theorem stopped_step (hstop : c.loop.server.stopServer = true)
    (hstep : (clocked fds capacity).step c b = some d) :
    d.loop.server.stopServer = true ∧ b.steps + d.left ≤ c.left := by
  have hsent : ∀ {c' : Clocked} (sig : ℤ), c'.loop = c.loop →
      (c'.sigHandler capacity sig).loop.server.stopServer = true ∧
        0 + (c'.sigHandler capacity sig).left ≤ c.left := by
    intro c' sig heq
    rw [left, loop_sigHandler, heq, Nat.zero_add]
    exact ⟨hstop, Nat.le_refl _⟩
  cases b with
  | expire =>
      obtain ⟨-, rfl⟩ := step_expire_eq_some.mp hstep
      exact hsent SIGALRM rfl
  | signal sig =>
      obtain ⟨-, rfl⟩ := step_signal_eq_some.mp hstep
      exact hsent sig rfl
  | loop a =>
      obtain ⟨c', t, -, hloop, rfl⟩ := step_loop_eq_some.mp hstep
      cases a with
      | wait events =>
          obtain ⟨-, hrunning, -⟩ := step_wait_eq_some.mp hloop
          cases hrunning.symm.trans hstop
      | endBatch cur =>
          obtain ⟨s', hb, hend, rfl⟩ := step_endBatch_eq_some.mp hloop
          refine ⟨(stopServer_endBatch hend).trans hstop, ?_⟩
          simp [Beat.steps, left, hb]
      | event input =>
          obtain ⟨event, batch, s', hb, hevent, rfl⟩ := step_event_eq_some.mp hloop
          refine ⟨?_, ?_⟩
          · cases input with
            | accept | recv | none =>
                exact (keeps_handleEvent hevent (by simp)).stopServer.trans hstop
            | signals received =>
                obtain ⟨hlisten, hpipe⟩ := takes_of_handleEvent hevent
                unfold handleEvent at hevent
                rw [if_neg hlisten, if_pos hpipe] at hevent
                cases received with
                | none => exact Option.some.inj hevent ▸ hstop
                | some received =>
                    exact Option.some.inj hevent ▸ stopServer_handleSignals received hstop
          · simp only [Beat.steps, left, hb, Option.elim_some, List.length_cons]
            omega

/-- **A run with the flag raised** takes no more steps of the event loop than the batch has
left. Induction on the run. -/
theorem stopped_run (hstop : c.loop.server.stopServer = true)
    (hrun : (clocked fds capacity).run c bs = some d) :
    d.loop.server.stopServer = true ∧ (bs.map Beat.steps).sum + d.left ≤ c.left := by
  induction bs generalizing c with
  | nil =>
      obtain rfl := Option.some.inj hrun
      exact ⟨hstop, Nat.le_of_eq (Nat.zero_add _)⟩
  | cons b bs ih =>
      obtain ⟨e, he, hrun⟩ := Option.bind_eq_some_iff.mp hrun
      obtain ⟨hstop', hle⟩ := stopped_step hstop he
      obtain ⟨hstop'', hle'⟩ := ih hstop' hrun
      refine ⟨hstop'', ?_⟩
      rw [List.map_cons, List.sum_cons]
      omega

/-- **A run with the byte in the pipe** raises the flag, or the byte has moved on with each
read. Induction on the run. -/
theorem sigterm_run (hterm : SIGTERM ∈ c.signals)
    (hrun : (clocked fds capacity).run c bs = some d) :
    d.loop.server.stopServer = true ∨ SIGTERM ∈ d.signals ∧
      (bs.map Beat.reads).sum + d.signals.idxOf SIGTERM ≤ c.signals.idxOf SIGTERM := by
  induction bs generalizing c with
  | nil =>
      obtain rfl := Option.some.inj hrun
      exact .inr ⟨hterm, Nat.le_of_eq (Nat.zero_add _)⟩
  | cons b bs ih =>
      obtain ⟨e, he, hrun⟩ := Option.bind_eq_some_iff.mp hrun
      rcases sigterm_step hterm he with hstop | ⟨hterm', hle⟩
      · exact .inl (stopped_run hstop hrun).1
      · refine (ih hterm' hrun).imp_right fun ⟨hmem, hle'⟩ => ⟨hmem, ?_⟩
        rw [List.map_cons, List.sum_cons]
        omega

/-- The alarm is on its way in every reached state, so the pipe is read again and again. -/
theorem ringing_of_reachable (hcapacity : 0 < capacity) (hfds : fds.pipefd0 ≠ fds.listenfd)
    (h : (clocked fds capacity).ReachableWhile RecvSucceeds c) : c.Ringing fds capacity := by
  refine System.Inductive.holds ⟨?_, fun c b d hc hrecv hstep => ?_⟩ h
  · rintro _ ⟨users, rfl⟩
    exact ⟨⟨Nat.zero_le _, by simp, fun hfull => absurd hfull hcapacity.ne⟩, fun _ => rfl, .inl rfl⟩
  · exact hc.step hcapacity hfds hrecv hstep

end Clocked

/-- **`SIGTERM` ends the event loop**, if its byte finds room in the pipe: when the pipe has been
read more often than it held bytes in front of it, `stop_server` is set. Until then the byte is in
the pipe, and when the event loop is about to wait, an alarm is armed or the pipe is due to be
reported. From then on only the batch at hand is handled. -/
theorem sigterm_ends_loop {c d : Clocked} {bs : List Beat} (hfds : fds.pipefd0 ≠ fds.listenfd)
    (h : (clocked fds capacity).ReachableWhile Clocked.RecvSucceeds c)
    (hroom : c.signals.length < capacity)
    (hrun : (clocked fds capacity).runWhile Clocked.RecvSucceeds c (.signal SIGTERM :: bs) =
      some d) :
    (c.signals.length < (bs.map Beat.reads).sum → d.loop.server.stopServer = true) ∧
      (d.loop.server.stopServer = false → SIGTERM ∈ d.signals ∧
        (d.loop.batch = none → d.alarm = true ∨ d.edge = true)) ∧
      (d.loop.server.stopServer = true → ∀ as e, (clocked fds capacity).run d as = some e →
        (as.map Beat.steps).sum ≤ d.left) := by
  obtain ⟨e, he, hbs⟩ := Option.bind_eq_some_iff.mp (System.run_of_runWhile hrun)
  have hringing := Clocked.ringing_of_reachable (by omega) hfds
    (System.reachableWhile_of_runWhile _ h hrun)
  have he' : e.signals = c.signals ++ [SIGTERM] := by
    obtain ⟨-, rfl⟩ := Clocked.step_signal_eq_some.mp he
    rw [Clocked.sigHandler, if_pos hroom]
  have hidx : e.signals.idxOf SIGTERM ≤ c.signals.length := by
    rw [he', List.idxOf_append]
    split
    · exact List.idxOf_le_length
    · simp
  have hway := Clocked.sigterm_run (show SIGTERM ∈ e.signals by simp [he']) hbs
  refine ⟨fun hreads => ?_, fun hrunning => ?_, fun hstop as e hrun => ?_⟩
  · rcases hway with hstop | ⟨-, hle⟩
    · exact hstop
    · omega
  · obtain ⟨hmem, -⟩ := hway.resolve_left (by simp [hrunning])
    refine ⟨hmem, fun hwait => ?_⟩
    rcases hringing.way with halarm | htimeout | hstopped | ⟨-, hpending⟩
    · exact .inl halarm
    · cases (hringing.lowered hwait).symm.trans htimeout
    · cases hrunning.symm.trans hstopped
    · exact .inr (by simpa [Clocked.Pending, hwait] using hpending)
  · have := (Clocked.stopped_run hstop hrun).2
    omega

/-- The first read stops short of the byte of the `SIGTERM`, and nothing is due any more until
the alarm that the read has armed expires. -/
theorem sigterm_ends_loop_example :
    ∃ c d : Clocked, c.signals = [SIGALRM] ∧ c.loop.server.stopServer = false ∧
      (clocked ⟨3, 4, 6⟩ 3).ReachableWhile Clocked.RecvSucceeds d ∧
        d.loop.server.stopServer = true := by
  let c : Clocked := ⟨⟨.new fun _ => ⟨0, none⟩, none⟩, [SIGALRM], true, true⟩
  let bs : List Beat := [.loop (.wait [⟨4, true⟩]), .loop (.event (.signals (some [SIGALRM]))),
    .loop (.endBatch 100), .expire, .loop (.wait [⟨4, true⟩]),
    .loop (.event (.signals (some [SIGTERM, SIGALRM])))]
  have hinit : (clocked ⟨3, 4, 6⟩ 3).ReachableWhile Clocked.RecvSucceeds
      ⟨⟨.new fun _ => ⟨0, none⟩, none⟩, [], false, true⟩ := .init ⟨_, rfl⟩
  have hc : (clocked ⟨3, 4, 6⟩ 3).ReachableWhile Clocked.RecvSucceeds c :=
    System.reachableWhile_of_runWhile [.signal SIGALRM] hinit rfl
  have hruns : ((clocked ⟨3, 4, 6⟩ 3).runWhile Clocked.RecvSucceeds c
      (.signal SIGTERM :: bs)).isSome = true := by decide +kernel
  obtain ⟨d, hd⟩ := Option.isSome_iff_exists.mp hruns
  obtain ⟨hstops, -, -⟩ := sigterm_ends_loop (by decide) hc (by decide) hd
  exact ⟨c, d, rfl, rfl, System.reachableWhile_of_runWhile _ hc hd, hstops (by decide)⟩

end LinuxNetwork.NTimerServer

import LinuxNetwork.NTimerServerKernel
import LinuxNetwork.NTimerServerTimers

/-!
# The Periodic Alarm of the Server

`alarm(TIMESLOT)` arms one alarm. When it expires, `sig_handler` sends a byte through the
signal pipe, whose other end is reported to the event loop once for each arrival; the event
loop reads at most `SIGNALS_SIZE` bytes, sets a flag, and calls `timer_handler` behind the
batch, which arms the alarm again. `sig_handler` runs for signals from outside as well, and
its byte is lost when the pipe is full.

A signal is delivered between two steps of the event loop: the handler shares only the pipe
with it, and no step uses the pipe twice. What the other descriptors report and return is
left to them.

## Main results

* `Clocked.Ringing.step`: every step keeps the alarm on its way.
* `alarm_never_dies`: before every wait an alarm is armed or a signal is due to be reported.
-/

open Transition

namespace LinuxNetwork.NTimerServer

/-! ### The event loop, the signal pipe and the alarm -/

/-- The event loop, its signal pipe and the alarm. -/
structure Clocked where
  loop : State
  /-- The unread bytes of the signal pipe. -/
  signals : List ℤ
  /-- An arrival on the signal pipe that `epoll_wait` has not reported. -/
  edge : Bool
  /-- An alarm is armed. -/
  alarm : Bool

/-- A step of the event loop or a signal. -/
inductive Beat where
  | loop (a : Act)
  /-- The alarm expires. -/
  | expire
  /-- A signal is sent from outside. -/
  | signal (sig : ℤ)
deriving DecidableEq, Repr

namespace Clocked

/-- `sig_handler(sig)`: the byte is sent unless the pipe is full. -/
def sigHandler (capacity : ℕ) (c : Clocked) (sig : ℤ) : Clocked :=
  if c.signals.length < capacity then
    { c with signals := c.signals ++ [sig], edge := true }
  else c

/-- The signal pipe after a step of the event loop; `none` where what the step receives is
not what the kernel returns. -/
def answer (fds : Fds) (c : Clocked) : Act → Option Clocked
  | .wait events =>
      if ∀ event ∈ events, event.fd = fds.pipefd0 →
          c.edge = true ∧ (c.signals ≠ [] → event.epollin = true) then
        some { c with edge := c.edge && decide (fds.pipefd0 ∉ events.map Report.fd) }
      else none
  | .event (.signals (some received)) =>
      if received ≠ [] ∧ received.length ≤ SIGNALS_SIZE ∧ received <+: c.signals then
        some { c with signals := c.signals.drop received.length }
      else none
  | .event _ => some c
  | .endBatch _ => some c

/-- One step of the event loop or of the signals; a call of `alarm` arms the alarm, and only
`SIGALRM` and `SIGTERM` have `sig_handler` as their handler. -/
def step (fds : Fds) (capacity : ℕ) (c : Clocked) : Beat → Option Clocked
  | .loop a => do
      let c' ← c.answer fds a
      let loop ← c.loop.step fds a
      let calls := loop.server.trace.drop c.loop.server.trace.length
      some { c' with loop := loop, alarm := c.alarm || decide (Action.alarm ∈ calls) }
  | .expire =>
      if c.alarm then some ({ c with alarm := false }.sigHandler capacity SIGALRM) else none
  | .signal sig =>
      if sig = SIGALRM ∨ sig = SIGTERM then some (c.sigHandler capacity sig) else none

/-- `recv` on the signal pipe succeeds when there is something to read. -/
def RecvSucceeds (c : Clocked) : Beat → Prop
  | .loop (.event (.signals none)) => c.signals = []
  | _ => True

instance (c : Clocked) (b : Beat) : Decidable (c.RecvSucceeds b) := by
  unfold RecvSucceeds
  split <;> infer_instance

end Clocked

/-- The event loop with its signal pipe, which holds `capacity` bytes, and the alarm, which
`test_timer_server` arms before the loop. -/
def clocked (fds : Fds) (capacity : ℕ) : System Clocked Beat where
  init := fun c => ∃ users, c = ⟨⟨.new users, none⟩, [], false, true⟩
  step := Clocked.step fds capacity

/-! ### What the other branches leave alone -/

/-- The flags are the same, and no call is forgotten. -/
structure Server.Keeps (s s' : Server) : Prop where
  timeout : s'.timeout = s.timeout
  stopServer : s'.stopServer = s.stopServer
  trace : s.trace <+: s'.trace

variable {fds : Fds} {s s' s'' : Server} {fd cur : ℤ} {addr : Ptr} {capacity : ℕ}

/-- A server that is left alone keeps its flags and its calls. -/
theorem Server.Keeps.refl (s : Server) : s.Keeps s :=
  ⟨rfl, rfl, List.prefix_rfl⟩

/-- What two pieces of code keep, one after the other does. -/
theorem Server.Keeps.trans (h : s.Keeps s') (h' : s'.Keeps s'') : s.Keeps s'' :=
  ⟨h'.timeout.trans h.timeout, h'.stopServer.trans h.stopServer, h.trace.trans h'.trace⟩

/-- Logging a call adds to the calls and keeps the flags. -/
theorem Server.keeps_log (s : Server) (action : Action) : s.Keeps (s.log action) :=
  ⟨rfl, rfl, List.prefix_append _ _⟩

/-- Closing a descriptor adds to the calls and keeps the flags. -/
theorem Server.keeps_close (s : Server) (fd : ℤ) : s.Keeps (s.close fd) :=
  ⟨rfl, rfl, List.prefix_append _ _⟩

/-- Accepting a connection keeps the flags, and adds nothing if `accept` fails. -/
theorem Server.keeps_accept (s : Server) (connfd : ℤ) : s.Keeps (s.accept connfd) := by
  rw [Server.accept]
  split
  · exact .refl s
  · exact ⟨rfl, rfl, List.prefix_append _ _⟩

/-- Writing into `users` keeps the flags and makes no call. -/
theorem Server.keeps_setUser {f : ClientData → ClientData} (h : s.setUser fd f = some s') :
    s.Keeps s' := by
  obtain ⟨u, -, hs'⟩ := Option.bind_eq_some_iff.mp h
  obtain rfl := Option.some.inj hs'
  exact ⟨rfl, rfl, List.prefix_rfl⟩

/-- The callback makes two calls, of `epoll_ctl` and `close`, and keeps the flags. -/
theorem Server.keeps_cbFunc (h : s.cbFunc fd = some s') : s.Keeps s' := by
  obtain ⟨u, -, hs'⟩ := Option.bind_eq_some_iff.mp h
  obtain rfl := Option.some.inj hs'
  exact (s.keeps_log _).trans (Server.keeps_close _ _)

/-- Adding a timer keeps the flags and forgets no call. -/
theorem Server.keeps_addTimer (h : s.addTimer addr = some s') : s.Keeps s' := by
  obtain ⟨l, -, hs'⟩ := Option.bind_eq_some_iff.mp h
  obtain rfl := Option.some.inj hs'
  exact ⟨rfl, rfl, List.prefix_append _ _⟩

/-- Adjusting a timer keeps the flags and forgets no call. -/
theorem Server.keeps_adjustTimer {expire : ℤ} (h : s.adjustTimer addr expire = some s') :
    s.Keeps s' := by
  obtain ⟨l, -, h⟩ := Option.bind_eq_some_iff.mp h
  obtain ⟨l', -, hs'⟩ := Option.bind_eq_some_iff.mp h
  obtain rfl := Option.some.inj hs'
  exact ⟨rfl, rfl, List.prefix_append _ _⟩

/-- Deleting a timer keeps the flags and forgets no call. -/
theorem Server.keeps_delTimer (h : s.delTimer addr = some s') : s.Keeps s' := by
  obtain ⟨l, -, hs'⟩ := Option.bind_eq_some_iff.mp h
  obtain rfl := Option.some.inj hs'
  exact ⟨rfl, rfl, List.prefix_append _ _⟩

/-- The branch of the listening socket keeps the flags: it accepts, and enters the connection
into `users` and `timer_list`. -/
theorem keeps_handleAccept {connfd : ℤ} (h : handleAccept fds s connfd addr cur = some s') :
    s.Keeps s' := by
  obtain ⟨s₁, h₁, h⟩ := Option.bind_eq_some_iff.mp h
  obtain ⟨s₂, h₂, h⟩ := Option.bind_eq_some_iff.mp h
  obtain ⟨s₃, h₃, hs'⟩ := Option.bind_eq_some_iff.mp h
  obtain rfl := Option.some.inj hs'
  have hopened := ((s.keeps_accept connfd).trans (Server.keeps_log _ _)).trans
    (Server.keeps_setUser h₁)
  have hentered := (Server.keeps_setUser h₂).trans (Server.keeps_addTimer h₃)
  exact ⟨hentered.timeout.trans hopened.timeout, hentered.stopServer.trans hopened.stopServer,
    hopened.trace.trans hentered.trace⟩

/-- Closing a client keeps the flags: the callback is called, and the timer deleted if there is
one. -/
theorem keeps_closeClient {timer : Option Ptr} (h : closeClient s fd timer = some s') :
    s.Keeps s' := by
  obtain ⟨s₁, h₁, h⟩ := Option.bind_eq_some_iff.mp h
  have hclosed := Server.keeps_cbFunc h₁
  cases timer with
  | none => exact Option.some.inj h ▸ hclosed
  | some timer => exact hclosed.trans (Server.keeps_delTimer h)

/-- The branch of a client descriptor keeps the flags, whatever `recv` returns. -/
theorem keeps_handleClient {result : RecvResult} (h : handleClient s fd result cur = some s') :
    s.Keeps s' := by
  obtain ⟨u, -, h⟩ := Option.bind_eq_some_iff.mp h
  cases result with
  | eagain => exact Option.some.inj h ▸ .refl s
  | error | closed => exact keeps_closeClient h
  | data bytes =>
      cases htimer : u.timer with
      | none =>
          simp only [htimer] at h
          exact Option.some.inj h ▸ .refl s
      | some timer =>
          simp only [htimer] at h
          obtain ⟨s₁, h₁, hs'⟩ := Option.bind_eq_some_iff.mp h
          obtain rfl := Option.some.inj hs'
          have hadjusted := Server.keeps_adjustTimer h₁
          exact ⟨hadjusted.timeout, hadjusted.stopServer, hadjusted.trace⟩

/-- `timer_handler` ends with a call of `alarm`, behind the callbacks of the expired timers, and
keeps the flags. -/
theorem timerHandler_calls_alarm (h : timerHandler s cur = some s') :
    s.Keeps s' ∧ Action.alarm ∈ s'.trace.drop s.trace.length := by
  obtain ⟨⟨l, s₁⟩, htick, hs'⟩ := Option.bind_eq_some_iff.mp h
  obtain rfl := Option.some.inj hs'
  have hticked : s.Keeps s₁ := by
    refine SortTimerList.tick_preserves s.Keeps (fun p l o l' o' hcall ho => ?_) htick (.refl s)
    obtain ⟨t, -, hcall⟩ := Option.bind_eq_some_iff.mp hcall
    obtain ⟨o₁, hclosed, hcall⟩ := Option.bind_eq_some_iff.mp hcall
    obtain ⟨-, rfl⟩ := Prod.mk.inj (Option.some.inj hcall)
    exact ho.trans (Server.keeps_cbFunc hclosed)
  have hlogged := hticked.trans (s₁.keeps_log .alarm)
  refine ⟨⟨hlogged.timeout, hlogged.stopServer, hlogged.trace⟩, ?_⟩
  obtain ⟨acts, hacts⟩ := hticked.trace
  simp [Server.log, ← hacts]

/-- Only what the signal pipe holds raises a flag; the branches of the other events keep both. -/
theorem keeps_handleEvent {event : Report} {input : Input}
    (h : handleEvent fds s event input = some s') (hinput : ∀ received, input ≠ .signals received) :
    s.Keeps s' := by
  unfold handleEvent at h
  split at h
  case isTrue =>
      cases input with
      | accept connfd addr cur => exact keeps_handleAccept h
      | signals received => exact absurd rfl (hinput received)
      | recv | none => cases h
  case isFalse =>
      split at h
      case isTrue =>
          cases input with
          | signals received => exact absurd rfl (hinput received)
          | accept | recv | none => cases h
      case isFalse =>
          split at h
          case isTrue =>
              cases input with
              | recv result cur => exact keeps_handleClient h
              | signals received => exact absurd rfl (hinput received)
              | accept | none => cases h
          case isFalse =>
              cases input with
              | none => exact Option.some.inj h ▸ .refl s
              | signals received => exact absurd rfl (hinput received)
              | accept | recv => cases h

/-- A received `SIGALRM` or `SIGTERM` raises its flag, and no flag is taken back. Induction on
the bytes received. -/
theorem handleSignals_raises {signals : List ℤ} {sig : ℤ}
    (hsig : sig = SIGALRM ∨ sig = SIGTERM) (hmem : sig ∈ signals) :
    (handleSignals s signals).timeout = true ∨ (handleSignals s signals).stopServer = true := by
  have hraised : ∀ (signals : List ℤ) {s : Server}, s.timeout = true ∨ s.stopServer = true →
      (handleSignals s signals).timeout = true ∨ (handleSignals s signals).stopServer = true := by
    intro signals
    induction signals with
    | nil => exact id
    | cons sig signals ih =>
        intro s hs
        rw [handleSignals, List.foldl_cons]
        refine ih ?_
        split
        · exact .inl rfl
        · split
          · exact .inr rfl
          · exact hs
  obtain ⟨before, after, rfl⟩ := List.append_of_mem hmem
  rw [handleSignals, List.foldl_append, List.foldl_cons]
  refine hraised after ?_
  rcases hsig with rfl | rfl
  · exact .inl rfl
  · exact .inr rfl

/-! ### The way of a signal -/

namespace Clocked

variable {c d : Clocked} {a : Act} {b : Beat}

/-- The signal pipe is due to be reported, or its report is still to be handled. -/
def Pending (fds : Fds) (c : Clocked) : Prop :=
  c.edge = true ∨ (⟨fds.pipefd0, true⟩ : Report) ∈ c.loop.batch.getD []

/-- **The signal pipe**: it holds what `sig_handler` sent, and it is due to be read when it
is full, which is when a signal is lost. -/
structure Piped (fds : Fds) (capacity : ℕ) (c : Clocked) : Prop where
  length_le : c.signals.length ≤ capacity
  sent : ∀ sig ∈ c.signals, sig = SIGALRM ∨ sig = SIGTERM
  full : c.signals.length = capacity → c.Pending fds

/-- **The alarm is on its way**: it is armed, a byte in the pipe will be read, or a flag is
raised. -/
structure Ringing (fds : Fds) (capacity : ℕ) (c : Clocked) : Prop where
  piped : c.Piped fds capacity
  /-- The flag is lowered behind each batch. -/
  lowered : c.loop.batch = none → c.loop.server.timeout = false
  way : c.alarm = true ∨ c.loop.server.timeout = true ∨ c.loop.server.stopServer = true ∨
    c.signals ≠ [] ∧ c.Pending fds

/-- **A signal** leaves a byte to be read behind it, its own or those that fill the pipe. -/
theorem Piped.sigHandler (h : c.Piped fds capacity) (hcapacity : 0 < capacity) {sig : ℤ}
    (hsig : sig = SIGALRM ∨ sig = SIGTERM) :
    (c.sigHandler capacity sig).Piped fds capacity ∧
      (c.sigHandler capacity sig).signals ≠ [] ∧ (c.sigHandler capacity sig).Pending fds := by
  rw [Clocked.sigHandler]
  split
  case isTrue hroom =>
      refine ⟨⟨?_, fun x hx => ?_, fun _ => .inl rfl⟩, by simp, .inl rfl⟩
      · rw [List.length_append, List.length_singleton]
        exact hroom
      · rcases List.mem_append.mp hx with hx | hx
        · exact h.sent x hx
        · exact List.mem_singleton.mp hx ▸ hsig
  case isFalse hfull =>
      have hlength : c.signals.length = capacity := Nat.le_antisymm h.length_le (by omega)
      exact ⟨h, List.ne_nil_of_length_pos (by omega), h.full hlength⟩

/-- A step of the event loop, with what the signal pipe answers and the alarm that the step
arms. -/
theorem step_loop_eq_some :
    (clocked fds capacity).step c (.loop a) = some d ↔
      ∃ c' t, c.answer fds a = some c' ∧ (server fds).step c.loop a = some t ∧
        d = { c' with
          loop := t
          alarm := c.alarm ||
            decide (Action.alarm ∈ t.server.trace.drop c.loop.server.trace.length) } := by
  simp [clocked, server, Clocked.step, Option.bind_eq_some_iff, eq_comm (b := d)]

/-- **Reports** of the pipe are handed to the event loop. If the pipe holds bytes, the report
has `EPOLLIN`, so it is not passed over. -/
theorem Ringing.wait {events : List Report} (h : c.Ringing fds capacity)
    (hcapacity : 0 < capacity)
    (hstep : (clocked fds capacity).step c (.loop (.wait events)) = some d) :
    d.Ringing fds capacity := by
  obtain ⟨c', t, hanswer, hloop, rfl⟩ := step_loop_eq_some.mp hstep
  obtain ⟨hb, hstop, rfl⟩ := step_wait_eq_some.mp hloop
  obtain ⟨hreports, hc'⟩ := Option.ite_none_right_eq_some.mp hanswer
  obtain rfl := Option.some.inj hc'
  have hhanded : c.signals ≠ [] → c.Pending fds →
      (c.edge && decide (fds.pipefd0 ∉ events.map Report.fd)) = true ∨
        (⟨fds.pipefd0, true⟩ : Report) ∈ events := by
    intro hne hpending
    have hedge : c.edge = true := by simpa [Pending, hb] using hpending
    by_cases hmem : fds.pipefd0 ∈ events.map Report.fd
    · obtain ⟨⟨fd, epollin⟩, hevent, rfl⟩ := List.mem_map.mp hmem
      obtain rfl := (hreports _ hevent rfl).2 hne
      exact .inr hevent
    · exact .inl (by simp [hedge, hmem])
  refine ⟨⟨h.piped.length_le, h.piped.sent, fun hfull => ?_⟩, nofun, ?_⟩
  · exact hhanded (List.ne_nil_of_length_pos (hcapacity.trans_eq hfull.symm))
      (h.piped.full hfull)
  · rcases h.way with halarm | htimeout | hstopped | ⟨hne, hpending⟩
    · exact .inl (by simp [halarm])
    · exact .inr (.inl htimeout)
    · exact .inr (.inr (.inl hstopped))
    · exact .inr (.inr (.inr ⟨hne, hhanded hne hpending⟩))

/-- **The signal pipe is read**: what was in it raises a flag, and it is no longer full. -/
theorem Ringing.signals {received : Option (List ℤ)} (h : c.Ringing fds capacity)
    (hcapacity : 0 < capacity) (hrecv : c.RecvSucceeds (.loop (.event (.signals received))))
    (hstep : (clocked fds capacity).step c (.loop (.event (.signals received))) = some d) :
    d.Ringing fds capacity := by
  obtain ⟨c', t, hanswer, hloop, rfl⟩ := step_loop_eq_some.mp hstep
  obtain ⟨event, batch, s', hb, hevent, rfl⟩ := step_event_eq_some.mp hloop
  obtain ⟨hlisten, hpipe⟩ := takes_of_handleEvent hevent
  unfold handleEvent at hevent
  rw [if_neg hlisten, if_pos hpipe] at hevent
  cases received with
  | none =>
      obtain rfl := Option.some.inj hanswer
      obtain rfl := Option.some.inj hevent
      have hempty : c.signals = [] := hrecv
      refine ⟨⟨h.piped.length_le, h.piped.sent, fun hfull => ?_⟩, nofun, ?_⟩
      · rw [hempty, List.length_nil] at hfull
        omega
      · rcases h.way with halarm | htimeout | hstopped | ⟨hne, -⟩
        · exact .inl (by simp [halarm])
        · exact .inr (.inl htimeout)
        · exact .inr (.inr (.inl hstopped))
        · exact absurd hempty hne
  | some received =>
      obtain ⟨⟨hne, -, hpre⟩, hc'⟩ := Option.ite_none_right_eq_some.mp hanswer
      obtain rfl := Option.some.inj hc'
      obtain rfl := Option.some.inj hevent
      have hpos : 0 < received.length := List.length_pos_of_ne_nil hne
      have hlength := h.piped.length_le
      refine ⟨⟨?_, fun sig hsig => ?_, fun hfull => ?_⟩, nofun, ?_⟩
      · simp only [List.length_drop]
        omega
      · exact h.piped.sent sig (List.mem_of_mem_drop hsig)
      · simp only [List.length_drop] at hfull
        omega
      · obtain ⟨sig, hsig⟩ := List.exists_mem_of_ne_nil received hne
        have hsent := h.piped.sent sig (hpre.subset hsig)
        rcases handleSignals_raises (s := c.loop.server) hsent hsig with htimeout | hstopped
        · exact .inr (.inl htimeout)
        · exact .inr (.inr (.inl hstopped))

/-- **The other events** touch neither the signal pipe nor a flag, so the alarm is on its way as
before. -/
theorem Ringing.event {input : Input} (h : c.Ringing fds capacity)
    (hfds : fds.pipefd0 ≠ fds.listenfd) (hinput : ∀ received, input ≠ .signals received)
    (hstep : (clocked fds capacity).step c (.loop (.event input)) = some d) :
    d.Ringing fds capacity := by
  obtain ⟨c', t, hanswer, hloop, rfl⟩ := step_loop_eq_some.mp hstep
  obtain ⟨event, batch, s', hb, hevent, rfl⟩ := step_event_eq_some.mp hloop
  have htakes := takes_of_handleEvent hevent
  have hkeeps := keeps_handleEvent hevent hinput
  have hother : event ≠ ⟨fds.pipefd0, true⟩ ∧ c' = c := by
    cases input with
    | signals received => exact absurd rfl (hinput received)
    | accept connfd addr cur =>
        refine ⟨fun heq => ?_, (Option.some.inj hanswer).symm⟩
        rw [heq] at htakes
        exact hfds htakes
    | recv result cur => exact ⟨fun heq => htakes.2.1 (heq ▸ rfl), (Option.some.inj hanswer).symm⟩
    | none =>
        refine ⟨fun heq => ?_, (Option.some.inj hanswer).symm⟩
        rw [heq] at htakes
        cases htakes.2
  obtain ⟨hne, rfl⟩ := hother
  have hpending : c'.Pending fds → c'.edge = true ∨ (⟨fds.pipefd0, true⟩ : Report) ∈ batch := by
    rintro (hedge | hmem)
    · exact .inl hedge
    · rw [hb, Option.getD_some] at hmem
      exact .inr ((List.mem_cons.mp hmem).resolve_left hne.symm)
  refine ⟨⟨h.piped.length_le, h.piped.sent, fun hfull => hpending (h.piped.full hfull)⟩, nofun, ?_⟩
  rcases h.way with halarm | htimeout | hstopped | ⟨hunread, hdue⟩
  · exact .inl (by simp [halarm])
  · exact .inr (.inl (hkeeps.timeout.trans htimeout))
  · exact .inr (.inr (.inl (hkeeps.stopServer.trans hstopped)))
  · exact .inr (.inr (.inr ⟨hunread, hpending hdue⟩))

/-- **Behind a batch** the flag becomes an alarm: `timer_handler` is called, which arms the next
one. -/
theorem Ringing.endBatch (h : c.Ringing fds capacity)
    (hstep : (clocked fds capacity).step c (.loop (.endBatch cur)) = some d) :
    d.Ringing fds capacity := by
  obtain ⟨c', t, hanswer, hloop, rfl⟩ := step_loop_eq_some.mp hstep
  obtain ⟨s', hb, hend, rfl⟩ := step_endBatch_eq_some.mp hloop
  obtain rfl := Option.some.inj hanswer
  have hpending : c.Pending fds → c.edge = true := by simp [Pending, hb]
  have hpiped : ∀ {alarm : Bool},
      Piped fds capacity { c with loop := ⟨s', none⟩, alarm := alarm } :=
    fun {alarm} => ⟨h.piped.length_le, h.piped.sent, fun hfull =>
      .inl (hpending (h.piped.full hfull))⟩
  rw [NTimerServer.endBatch] at hend
  split at hend
  case isTrue htimeout =>
      obtain ⟨s₁, hhandler, hs'⟩ := Option.bind_eq_some_iff.mp hend
      obtain rfl := Option.some.inj hs'
      obtain ⟨-, hcalled⟩ := timerHandler_calls_alarm hhandler
      exact ⟨hpiped, fun _ => rfl, .inl (by simp [hcalled])⟩
  case isFalse htimeout =>
      obtain rfl := Option.some.inj hend
      refine ⟨hpiped, fun _ => Bool.eq_false_iff.mpr htimeout, ?_⟩
      rcases h.way with halarm | htimeout' | hstopped | ⟨hunread, hdue⟩
      · exact .inl (by simp [halarm])
      · exact absurd htimeout' htimeout
      · exact .inr (.inr (.inl hstopped))
      · exact .inr (.inr (.inr ⟨hunread, .inl (hpending hdue)⟩))

/-- **Every step** keeps the alarm on its way, from the alarm to the pipe, from there to the
flag and back to the alarm. -/
theorem Ringing.step (h : c.Ringing fds capacity) (hcapacity : 0 < capacity)
    (hfds : fds.pipefd0 ≠ fds.listenfd) (hrecv : c.RecvSucceeds b)
    (hstep : (clocked fds capacity).step c b = some d) : d.Ringing fds capacity := by
  have hsent : ∀ {c' : Clocked} {sig : ℤ}, c'.Piped fds capacity → c'.loop = c.loop →
      sig = SIGALRM ∨ sig = SIGTERM → (c'.sigHandler capacity sig).Ringing fds capacity := by
    intro c' sig hpiped hloop hsig
    obtain ⟨hpiped', hunread, hpending⟩ := hpiped.sigHandler hcapacity hsig
    refine ⟨hpiped', ?_, .inr (.inr (.inr ⟨hunread, hpending⟩))⟩
    rw [Clocked.sigHandler]
    split <;> exact hloop ▸ h.lowered
  cases b with
  | expire =>
      obtain ⟨-, hd⟩ := Option.ite_none_right_eq_some.mp hstep
      obtain rfl := Option.some.inj hd
      exact hsent ⟨h.piped.length_le, h.piped.sent, h.piped.full⟩ rfl (.inl rfl)
  | signal sig =>
      obtain ⟨hsig, hd⟩ := Option.ite_none_right_eq_some.mp hstep
      obtain rfl := Option.some.inj hd
      exact hsent h.piped rfl hsig
  | loop a =>
      cases a with
      | wait events => exact h.wait hcapacity hstep
      | endBatch cur => exact h.endBatch hstep
      | event input =>
          cases input with
          | signals received => exact h.signals hcapacity hrecv hstep
          | accept | recv | none => exact h.event hfds (by simp) hstep

end Clocked

/-- **The periodic alarm never dies out.** Whatever signals are delivered and whatever
`epoll_wait` returns, when the event loop is about to wait, an alarm is armed, or the signal
pipe holds the byte of a `SIGALRM` or `SIGTERM` that `epoll_wait` has still to report. The pipe
holds at least one byte, and `socketpair` returns another descriptor than `socket` did. -/
theorem alarm_never_dies {c : Clocked} (hcapacity : 0 < capacity)
    (hfds : fds.pipefd0 ≠ fds.listenfd)
    (h : (clocked fds capacity).ReachableWhile Clocked.RecvSucceeds c)
    (hwait : c.loop.batch = none) (hstop : c.loop.server.stopServer = false) :
    c.alarm = true ∨ (∃ sig ∈ c.signals, sig = SIGALRM ∨ sig = SIGTERM) ∧ c.edge = true := by
  have hringing : c.Ringing fds capacity := by
    refine System.Inductive.holds ⟨?_, fun c b d hc hrecv hstep => ?_⟩ h
    · rintro _ ⟨users, rfl⟩
      exact ⟨⟨Nat.zero_le _, nofun, fun hfull => absurd hfull hcapacity.ne⟩, fun _ => rfl, .inl rfl⟩
    · exact hc.step hcapacity hfds hrecv hstep
  rcases hringing.way with halarm | htimeout | hstopped | ⟨hunread, hpending⟩
  · exact .inl halarm
  · cases (hringing.lowered hwait).symm.trans htimeout
  · cases hstop.symm.trans hstopped
  · obtain ⟨sig, hsig⟩ := List.exists_mem_of_ne_nil c.signals hunread
    refine .inr ⟨⟨sig, hsig, hringing.piped.sent sig hsig⟩, ?_⟩
    simpa [Clocked.Pending, hwait] using hpending

/-- The alarm expires while the pipe is full, with a report of the pipe still to be handled;
its byte is lost, those read before it raise the flag, and another `SIGALRM` comes in. -/
theorem alarm_never_dies_example :
    ∃ c : Clocked, c.loop.server.trace = [.alarm] ∧ c.signals = [SIGALRM] ∧ (c.alarm = true ∨
      (∃ sig ∈ c.signals, sig = SIGALRM ∨ sig = SIGTERM) ∧ c.edge = true) := by
  have hinit : (clocked ⟨3, 4, 6⟩ 2).ReachableWhile Clocked.RecvSucceeds
      ⟨⟨.new fun _ => ⟨0, none⟩, none⟩, [], false, true⟩ := .init ⟨_, rfl⟩
  obtain ⟨c, hreach, hc⟩ := System.exists_reachableWhile hinit
    [.signal SIGALRM, .signal SIGALRM, .loop (.wait [⟨4, true⟩]), .expire,
      .loop (.event (.signals (some [SIGALRM, SIGALRM]))), .signal SIGALRM,
      .loop (.endBatch 100), .loop (.wait []), .loop (.endBatch 100)]
    (fun c => decide (c.loop.batch = none ∧ c.loop.server.stopServer = false ∧
      c.loop.server.trace = [.alarm] ∧ c.signals = [SIGALRM])) (by decide +kernel)
  obtain ⟨hwait, hstop, htrace, hsignals⟩ := of_decide_eq_true hc
  exact ⟨c, htrace, hsignals, alarm_never_dies (by decide) (by decide) hreach hwait hstop⟩

end LinuxNetwork.NTimerServer

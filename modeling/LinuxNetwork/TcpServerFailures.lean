import LinuxNetwork.TcpConnectionEcho
import LinuxNetwork.TcpServerClients

/-!
# Failures of Connections

An error on a connection stays there if it strikes in `recv`, or in `send` without `SIGPIPE`.
An error of `accept` or of `fcntl` is thrown out of `run()`, and `SIGPIPE` ends the process.

In the runs without the latter, every connection has a conversation of its own: its replies are
what `processRequest()` makes of the results of its own calls, whatever happens on the others,
and its socket is not closed before its own end.

## Main results

* `Conn.Served.recv`, `Conn.Served.send`: the steps of a conversation.
* `Server.Sound.step`: what every harmless step keeps.
* `failures_isolated`: when an error stays on its connection.
-/

open Transition

namespace LinuxNetwork.TcpServer

open TcpConnection (Ends Receiving afterRecv afterSend chunksOf chunksOf_append processRequest
  processRequest_of_ends processRequest_of_receiving response takenOf takenOf_concat
  takenOf_congr)

/-! ### One conversation -/

/-- The result of a call of `send`, by its number. -/
def sendAt (sends : List SendResult) (k : ℕ) : SendResult :=
  sends[k]?.getD .eagain

/-- A further result of `send` changes none of those before it. -/
theorem sendAt_concat_of_lt {sends : List SendResult} {k : ℕ} (result : SendResult)
    (hk : k < sends.length) : sendAt (sends ++ [result]) k = sendAt sends k := by
  rw [sendAt, sendAt, List.getElem?_append_left hk]

/-- A further result of `send` is that of the next call. -/
theorem sendAt_concat_length (sends : List SendResult) (result : SendResult) :
    sendAt (sends ++ [result]) sends.length = result := by
  simp [sendAt]

/-- A call of `send` that was not made counts as one that would block, and takes nothing. -/
theorem sendAt_length (sends : List SendResult) : sendAt sends sends.length = .eagain := by
  simp [sendAt]

/-- **The state of a conversation** goes with its history. -/
def Conn.Served (k : Conn) : Prop :=
  match k.pc with
  | .receiving =>
      Receiving k.results ∧ k.taken = takenOf (sendAt k.sends) (chunksOf k.results) ∧
        k.sends.length = (chunksOf k.results).length
  | .sending offered =>
      Receiving k.results ∧ ∃ chunks chunk, chunksOf k.results = chunks ++ [chunk] ∧
        offered = response chunk ∧ k.taken = takenOf (sendAt k.sends) chunks ∧
        k.sends.length = chunks.length
  | .returned =>
      ∃ results result, k.results = results ++ [result] ∧ Ends result ∧ Receiving results ∧
        k.taken = takenOf (sendAt k.sends) (chunksOf results)

variable {k k' : Conn} {result : RecvResult} {sent : SendResult}

/-- A conversation begins with no results and no replies. -/
theorem Conn.served_new : Conn.new.Served :=
  ⟨nofun, rfl, rfl⟩

/-- One more result of `recv` that does not end the conversation. -/
theorem receiving_concat {results : List RecvResult} (h : Receiving results)
    (hresult : Receiving [result]) : Receiving (results ++ [result]) := by
  intro r hr
  exact (List.mem_append.mp hr).elim (h r) (hresult r)

/-- **Receiving** keeps the conversation: a chunk calls for a reply, `EAGAIN` for nothing, and
the other results end it. -/
theorem Conn.Served.recv (h : k.Served) (hrecv : k.recv result = some k') : k'.Served := by
  obtain ⟨⟨hpc, hmay⟩, hmap⟩ := Option.ite_none_right_eq_some.mp hrecv
  obtain ⟨pc, hafter, rfl⟩ := Option.map_eq_some_iff.mp hmap
  rw [Conn.Served, hpc] at h
  obtain ⟨hreceiving, htaken, hlen⟩ := h
  cases result with
  | data bytes =>
      obtain ⟨hle, hpc'⟩ := Option.ite_none_right_eq_some.mp hafter
      obtain rfl := Option.some.inj hpc'
      refine ⟨receiving_concat hreceiving ?_, chunksOf k.results, bytes, ?_, rfl, htaken, hlen⟩
      · intro r hr
        obtain rfl := List.mem_singleton.mp hr
        exact .inr ⟨bytes, rfl, hmay.1, hle⟩
      · exact chunksOf_append k.results [.data bytes]
  | eagain =>
      obtain rfl := Option.some.inj hafter
      have hchunks : chunksOf (k.results ++ [.eagain]) = chunksOf k.results := by
        rw [chunksOf_append, chunksOf, chunksOf, List.append_nil]
      refine ⟨receiving_concat hreceiving ?_, hchunks ▸ htaken, hchunks ▸ hlen⟩
      exact fun r hr => .inl (List.mem_singleton.mp hr)
  | error =>
      obtain rfl := Option.some.inj hafter
      exact ⟨k.results, .error, rfl, .inr rfl, hreceiving, htaken⟩
  | closed =>
      obtain rfl := Option.some.inj hafter
      exact ⟨k.results, .closed, rfl, .inl rfl, hreceiving, htaken⟩

/-- **Sending** keeps the conversation. What was taken of the reply is added, and the loop
receives again, whatever `send` returned. -/
theorem Conn.Served.send (h : k.Served) (hsend : k.send sent = some k') : k'.Served := by
  rw [Conn.send] at hsend
  split at hsend
  case h_1 offered hpc =>
      obtain ⟨-, heq⟩ := Option.ite_none_right_eq_some.mp hsend
      obtain rfl := Option.some.inj heq
      rw [Conn.Served, hpc] at h
      obtain ⟨hreceiving, chunks, chunk, hchunks, rfl, htaken, hlen⟩ := h
      have hafter : afterSend sent = .receiving := by cases sent <;> rfl
      have hsame : ∀ j < chunks.length, sendAt k.sends j = sendAt (k.sends ++ [sent]) j :=
        fun j hj => (sendAt_concat_of_lt sent (hlen ▸ hj)).symm
      rw [Conn.Served, hafter]
      refine ⟨hreceiving, ?_, by simp [hchunks, hlen]⟩
      rw [hchunks, takenOf_concat, ← takenOf_congr hsame, ← hlen, sendAt_concat_length, htaken]
  all_goals cases hsend

/-- Only a conversation that waits for bytes receives, and it leaves its socket as it is. -/
theorem Conn.recv_frame (hrecv : k.recv result = some k') :
    k.pc = .receiving ∧ k'.socket = k.socket := by
  obtain ⟨⟨hpc, -⟩, hmap⟩ := Option.ite_none_right_eq_some.mp hrecv
  obtain ⟨pc, -, rfl⟩ := Option.map_eq_some_iff.mp hmap
  exact ⟨hpc, rfl⟩

/-- Only a conversation with a reply to send sends, and it leaves its socket as it is. -/
theorem Conn.send_frame (hsend : k.send sent = some k') :
    (∃ offered, k.pc = .sending offered) ∧ k'.socket = k.socket := by
  rw [Conn.send] at hsend
  split at hsend
  case h_1 offered hpc =>
      obtain ⟨-, heq⟩ := Option.ite_none_right_eq_some.mp hsend
      obtain rfl := Option.some.inj heq
      exact ⟨⟨offered, hpc⟩, rfl⟩
  all_goals cases hsend

/-- The replies of a conversation are those that `processRequest()` makes of the results of its
own calls, and of no others. -/
theorem Conn.Served.processRequest_eq (h : k.Served) :
    processRequest (sendAt k.sends) k.results =
      some ⟨k.taken, decide (k.pc = .returned)⟩ := by
  cases hpc : k.pc with
  | receiving =>
      rw [Conn.Served, hpc] at h
      obtain ⟨hreceiving, htaken, -⟩ := h
      rw [processRequest_of_receiving hreceiving, htaken]
      rfl
  | sending offered =>
      rw [Conn.Served, hpc] at h
      obtain ⟨hreceiving, chunks, chunk, hchunks, -, htaken, hlen⟩ := h
      rw [processRequest_of_receiving hreceiving, hchunks, takenOf_concat, ← hlen,
        sendAt_length, SendResult.taken, List.append_nil, htaken]
      rfl
  | returned =>
      rw [Conn.Served, hpc] at h
      obtain ⟨results, result, hresults, hend, hreceiving, htaken⟩ := h
      rw [hresults, processRequest_of_ends hreceiving hend, htaken]
      rfl

/-- A conversation is over when `recv` ended it, and not because of anything `send` returned. -/
theorem Conn.Served.ends (h : k.Served) (hpc : k.pc = .returned) :
    ∃ result, k.results.getLast? = some result ∧ Ends result := by
  rw [Conn.Served, hpc] at h
  obtain ⟨results, result, hresults, hend, -, -⟩ := h
  exact ⟨result, by rw [hresults, List.getLast?_concat], hend⟩

/-! ### The accept loop -/

/-- The accept loop while nobody calls `stop()` and no exception was thrown. -/
structure Loop.Unstopped (s : Loop) : Prop where
  threw : ∀ what, s.run ≠ .threw what
  running : s.run = .creating ∨ s.run = .storing ∨ s.running = true
  returned : s.run = .returned → s.terminate = true

/-- The steps in which no call fails. -/
def Loop.Act.Succeeds : Loop.Act → Prop
  | .accept result => result ≠ .error
  | .construct _ result => result = .done
  | .createListenSocket _ | .store | .test | .testSignal | .enqueue _ | .sleep | .exchange
  | .close | .reset | .interrupt => True

instance : ∀ a : Loop.Act, Decidable a.Succeeds
  | .accept _ => inferInstanceAs (Decidable (_ ≠ _))
  | .construct _ _ => inferInstanceAs (Decidable (_ = _))
  | .createListenSocket _ | .store | .test | .testSignal | .enqueue _ | .sleep | .exchange
  | .close | .reset | .interrupt => inferInstanceAs (Decidable True)

/-- The steps of `stop()`. -/
def Loop.Act.ofStop : Loop.Act → Bool
  | .exchange | .close | .reset => true
  | .createListenSocket _ | .store | .test | .testSignal | .accept _ | .construct _ _
  | .enqueue _ | .sleep | .interrupt => false

/-- The loop moves on to a place that is neither behind it nor an exception. -/
theorem Loop.Unstopped.move {s : Loop} (h : s.Unstopped) {pc : RunPc} {iterations : ℕ}
    (hloop : ¬(s.run = .creating ∨ s.run = .storing)) (hpc : ∀ what, pc ≠ .threw what)
    (hreturned : pc ≠ .returned) :
    Unstopped { s with run := pc, iterations := iterations } where
  threw := hpc
  running := .inr (.inr ((or_assoc.mpr h.running).resolve_left hloop))
  returned := fun heq => absurd heq hreturned

/-- **The loop goes on** as long as no call fails. Only the test of the signal leaves it, when
there was one. -/
theorem Loop.Unstopped.step {s t : Loop} {a : Loop.Act} (h : s.Unstopped)
    (hsucceeds : a.Succeeds) (hstop : a.ofStop = false) (hstep : s.step a = some t) :
    t.Unstopped := by
  cases a with
  | createListenSocket fd =>
      obtain ⟨-, heq⟩ := Option.ite_none_right_eq_some.mp hstep
      obtain rfl := Option.some.inj heq
      exact ⟨nofun, .inr (.inl rfl), nofun⟩
  | store =>
      obtain ⟨-, heq⟩ := Option.ite_none_right_eq_some.mp hstep
      obtain rfl := Option.some.inj heq
      exact ⟨nofun, .inr (.inr rfl), nofun⟩
  | test =>
      obtain ⟨hpc, heq⟩ := Option.ite_none_right_eq_some.mp hstep
      obtain rfl := Option.some.inj heq
      have hrunning : s.running = true := by simpa [hpc] using h.running
      rw [if_pos hrunning]
      exact h.move (by simp [hpc]) nofun nofun
  | testSignal =>
      obtain ⟨hpc, heq⟩ := Option.ite_none_right_eq_some.mp hstep
      split at heq
      case isTrue hterminate =>
        obtain rfl := Option.some.inj heq
        exact ⟨nofun, .inr (.inr (by simpa [hpc] using h.running)), fun _ => hterminate⟩
      case isFalse =>
        obtain rfl := Option.some.inj heq
        exact h.move (by simp [hpc]) nofun nofun
  | accept result =>
      obtain ⟨hpc, heq⟩ := Option.ite_none_right_eq_some.mp hstep
      obtain rfl := Option.some.inj heq
      cases result with
      | connection client => exact h.move (by simp [hpc]) nofun nofun
      | eagain => exact h.move (by simp [hpc]) nofun nofun
      | error => exact absurd rfl hsucceeds
  | construct client result =>
      obtain ⟨hpc, heq⟩ := Option.ite_none_right_eq_some.mp hstep
      obtain rfl := Option.some.inj heq
      obtain rfl : result = .done := hsucceeds
      exact h.move (by simp [hpc]) nofun nofun
  | enqueue client =>
      obtain ⟨hpc, heq⟩ := Option.ite_none_right_eq_some.mp hstep
      obtain rfl := Option.some.inj heq
      exact h.move (by simp [hpc]) nofun nofun
  | sleep =>
      obtain ⟨hpc, heq⟩ := Option.ite_none_right_eq_some.mp hstep
      obtain rfl := Option.some.inj heq
      exact h.move (by simp [hpc]) nofun nofun
  | exchange | close | reset => cases hstop
  | interrupt =>
      obtain ⟨-, heq⟩ := Option.ite_none_right_eq_some.mp hstep
      obtain rfl := Option.some.inj heq
      exact ⟨h.threw, h.running, fun _ => rfl⟩

/-! ### The server -/

namespace Server

variable {n : ℕ} {ignoresSigpipe : Bool} {s t : Server n} {a : Act n} {client : ℕ}

/-- The connection on which a step meets an error. -/
def fails (s : Server n) : Act n → Option ℕ
  | .run (.accept .error) => s.backlog.head?
  | .run (.construct client .getflFailed) => some client
  | .run (.construct client .setflFailed) => some client
  | .recv i .error => s.crew.serving i
  | .send i .brokenPipe => s.crew.serving i
  | .send i .error => s.crew.serving i
  | _ => none

/-- **The harmless steps**: no error is thrown out of `run()`, and no `SIGPIPE` ends the
process. -/
def Act.Harmless (ignoresSigpipe : Bool) : Act n → Prop
  | .run a => a.Succeeds
  | .send _ result => result = .brokenPipe → ignoresSigpipe = true
  | .connect _ | .arrive _ _ | .finish _ | .reset _ | .take _ | .recv _ _ | .close _ => True

instance (ignoresSigpipe : Bool) : ∀ a : Act n, Decidable (a.Harmless ignoresSigpipe)
  | .run a => inferInstanceAs (Decidable a.Succeeds)
  | .send _ _ => inferInstanceAs (Decidable (_ → _))
  | .connect _ | .arrive _ _ | .finish _ | .reset _ | .take _ | .recv _ _ | .close _ =>
      inferInstanceAs (Decidable True)

/-- **A step stays on one connection**: the process runs on, `run()` does not leave its loop,
and nothing changes on any other connection. -/
structure Isolated (s t : Server n) (client : ℕ) : Prop where
  alive : t.alive = true
  threw : ∀ what, t.loop.run ≠ .threw what
  returned : t.loop.run = .returned → s.loop.run = .returned
  others : ∀ other, other ≠ client → t.conn other = s.conn other

/-- The invariant of the harmless runs. -/
structure Sound (s : Server n) : Prop where
  alive : s.alive = true
  loop : s.loop.Unstopped
  served : ∀ client, (s.conn client).Served
  closed : ∀ client, (s.conn client).socket = .closed → (s.conn client).pc = .returned

@[simp] theorem setConn_conn (s : Server n) (client : ℕ) (k : Conn) (other : ℕ) :
    (s.setConn client k).conn other = if other = client then k else s.conn other :=
  Function.update_apply s.conn client k other

/-- The server begins with no conversation and with a loop that was not stopped. -/
theorem sound_new (terminate : Bool) : (new terminate : Server n).Sound where
  alive := rfl
  loop := ⟨nofun, .inl rfl, nofun⟩
  served := fun _ => Conn.served_new
  closed := nofun

/-- A step that changes one connection, which remains served and is closed only when it has
returned. -/
theorem Sound.set (h : s.Sound) {k : Conn} (hk : k.Served)
    (hclosed : k.socket = .closed → k.pc = .returned) : (s.setConn client k).Sound where
  alive := h.alive
  loop := h.loop
  served := by
    intro other
    rw [setConn_conn]
    split
    case isTrue => exact hk
    case isFalse => exact h.served other
  closed := by
    intro other
    rw [setConn_conn]
    split
    case isTrue => exact hclosed
    case isFalse => exact h.closed other

/-- A step that changes no connection and no place of the loop, and does not end the process. -/
theorem Sound.frame (h : s.Sound) (halive : t.alive = s.alive) (hloop : t.loop = s.loop)
    (hconn : t.conn = s.conn) : t.Sound where
  alive := halive.trans h.alive
  loop := hloop ▸ h.loop
  served := hconn ▸ h.served
  closed := hconn ▸ h.closed

/-- What `run()` does outside of its loop when no call fails: it accepts a connection,
constructs its object or hands it to the pool. -/
theorem Sound.effect (h : s.Sound) {act : Loop.Act} (hsucceeds : act.Succeeds)
    (heffect : s.effect act = some t) : t.Sound ∧ t.loop = s.loop ∧ act.ofStop = false := by
  cases act with
  | accept result =>
      obtain ⟨backlog, -, rfl⟩ := Option.map_eq_some_iff.mp heffect
      have hframe : Sound { s with backlog := backlog } := h.frame rfl rfl rfl
      cases result with
      | connection client => exact ⟨hframe.set (h.served client) nofun, rfl, rfl⟩
      | eagain => exact ⟨hframe, rfl, rfl⟩
      | error => exact ⟨hframe, rfl, rfl⟩
  | construct client result =>
      obtain rfl : result = .done := hsucceeds
      obtain rfl := Option.some.inj heffect
      exact ⟨h, rfl, rfl⟩
  | enqueue client =>
      obtain rfl := Option.some.inj heffect
      exact ⟨h.frame rfl rfl rfl, rfl, rfl⟩
  | createListenSocket _ | store | test | testSignal | sleep | interrupt =>
      obtain rfl := Option.some.inj heffect
      exact ⟨h, rfl, rfl⟩
  | exchange | close | reset => cases heffect

/-- **Every harmless step** keeps the invariant. A step is one of a client, of `run()` or of a
worker on its connection. -/
theorem Sound.step (h : s.Sound) (hharmless : a.Harmless ignoresSigpipe)
    (hstep : s.step ignoresSigpipe a = some t) : t.Sound := by
  obtain ⟨-, hstep⟩ := Option.ite_none_right_eq_some.mp hstep
  cases a with
  | connect client =>
      obtain ⟨-, heq⟩ := Option.ite_none_right_eq_some.mp hstep
      obtain rfl := Option.some.inj heq
      have hframe : Sound { s with backlog := s.backlog ++ [client] } := h.frame rfl rfl rfl
      exact hframe.set (h.served client) (h.closed client)
  | arrive client bytes =>
      obtain ⟨-, heq⟩ := Option.ite_none_right_eq_some.mp hstep
      obtain rfl := Option.some.inj heq
      exact h.set (h.served client) (h.closed client)
  | finish client =>
      obtain ⟨-, heq⟩ := Option.ite_none_right_eq_some.mp hstep
      obtain rfl := Option.some.inj heq
      exact h.set (h.served client) (h.closed client)
  | reset client =>
      obtain ⟨-, heq⟩ := Option.ite_none_right_eq_some.mp hstep
      obtain rfl := Option.some.inj heq
      exact h.set (h.served client) (h.closed client)
  | run act =>
      obtain ⟨loop, hloop, hmap⟩ := Option.bind_eq_some_iff.mp hstep
      obtain ⟨u, heffect, rfl⟩ := Option.map_eq_some_iff.mp hmap
      obtain ⟨hu, -, hstop⟩ := h.effect hharmless heffect
      exact ⟨hu.alive, h.loop.step hharmless hstop hloop, hu.served, hu.closed⟩
  | take i =>
      obtain ⟨crew, -, rfl⟩ := Option.map_eq_some_iff.mp hstep
      exact h.frame rfl rfl rfl
  | recv i result =>
      obtain ⟨client, -, hmap⟩ := Option.bind_eq_some_iff.mp hstep
      obtain ⟨k, hk, rfl⟩ := Option.map_eq_some_iff.mp hmap
      refine h.set ((h.served client).recv hk) fun hclosed => ?_
      obtain ⟨hpc, hsocket⟩ := Conn.recv_frame hk
      exact absurd ((h.closed client (hsocket ▸ hclosed)).symm.trans hpc) nofun
  | send i result =>
      obtain ⟨client, -, hmap⟩ := Option.bind_eq_some_iff.mp hstep
      obtain ⟨k, hk, rfl⟩ := Option.map_eq_some_iff.mp hmap
      have hset : (s.setConn client k).Sound := by
        refine h.set ((h.served client).send hk) fun hclosed => ?_
        obtain ⟨⟨offered, hpc⟩, hsocket⟩ := Conn.send_frame hk
        exact absurd ((h.closed client (hsocket ▸ hclosed)).symm.trans hpc) nofun
      have hsurvives : result = .brokenPipe → ignoresSigpipe = true := hharmless
      exact hset.frame ((decide_eq_true hsurvives).trans h.alive.symm) rfl rfl
  | close i =>
      obtain ⟨client, -, hclose⟩ := Option.bind_eq_some_iff.mp hstep
      obtain ⟨hpc, hmap⟩ := Option.ite_none_right_eq_some.mp hclose
      obtain ⟨crew, -, rfl⟩ := Option.map_eq_some_iff.mp hmap
      have hframe : Sound { s with crew := crew } := h.frame rfl rfl rfl
      exact hframe.set (h.served client) fun _ => hpc

/-! ### Errors -/

/-- The accept loop takes the steps of `run()`, whatever they do outside of it. -/
theorem loop_step_of_run {act : Loop.Act} (hstep : s.stepAlive ignoresSigpipe (.run act) = some t) :
    s.loop.step act = some t.loop := by
  obtain ⟨loop, hloop, hmap⟩ := Option.bind_eq_some_iff.mp hstep
  obtain ⟨u, -, rfl⟩ := Option.map_eq_some_iff.mp hmap
  exact hloop

/-- An exception in the loop is no isolated failure, since `run()` serves nobody afterwards. -/
theorem not_isolated_of_threw {what : Thrown} (hthrew : t.loop.run = .threw what) :
    ¬Isolated s t client :=
  fun h => h.threw what hthrew

/-- A step of a worker on its connection is isolated if the process survives it. -/
theorem isolated_setConn (h : s.Sound) (halive : t.alive = true) (hloop : t.loop = s.loop)
    {k : Conn} (hconn : t.conn = (s.setConn client k).conn) : Isolated s t client where
  alive := halive
  threw := hloop ▸ h.loop.threw
  returned := fun hreturned => hloop ▸ hreturned
  others := fun other hother => by rw [hconn, setConn_conn, if_neg hother]

/-- **When an error stays on its connection**: exactly if the step is harmless. The errors are an
aborted connection that `accept` reports, a failing `fcntl`, and those of `recv` and `send`. -/
theorem Sound.isolated_iff (h : s.Sound) (hstep : s.step ignoresSigpipe a = some t)
    (hfails : s.fails a = some client) :
    Isolated s t client ↔ a.Harmless ignoresSigpipe := by
  obtain ⟨-, hstep⟩ := Option.ite_none_right_eq_some.mp hstep
  unfold fails at hfails
  split at hfails
  case h_1 =>
      obtain ⟨-, heq⟩ := Option.ite_none_right_eq_some.mp (loop_step_of_run hstep)
      have hthrew := congrArg Loop.run (Option.some.inj heq)
      exact iff_of_false (not_isolated_of_threw hthrew.symm) fun hharmless => hharmless rfl
  case h_2 =>
      obtain ⟨-, heq⟩ := Option.ite_none_right_eq_some.mp (loop_step_of_run hstep)
      have hthrew := congrArg Loop.run (Option.some.inj heq)
      exact iff_of_false (not_isolated_of_threw hthrew.symm) nofun
  case h_3 =>
      obtain ⟨-, heq⟩ := Option.ite_none_right_eq_some.mp (loop_step_of_run hstep)
      have hthrew := congrArg Loop.run (Option.some.inj heq)
      exact iff_of_false (not_isolated_of_threw hthrew.symm) nofun
  case h_4 i =>
      obtain ⟨c, hc, hmap⟩ := Option.bind_eq_some_iff.mp hstep
      obtain ⟨k, -, rfl⟩ := Option.map_eq_some_iff.mp hmap
      obtain rfl := Option.some.inj (hc.symm.trans hfails)
      exact iff_of_true (isolated_setConn h h.alive rfl rfl) trivial
  case h_5 i =>
      obtain ⟨c, hc, hmap⟩ := Option.bind_eq_some_iff.mp hstep
      obtain ⟨k, -, rfl⟩ := Option.map_eq_some_iff.mp hmap
      obtain rfl := Option.some.inj (hc.symm.trans hfails)
      constructor
      · intro hisolated
        have halive : decide (SendResult.brokenPipe = .brokenPipe → ignoresSigpipe = true) = true :=
          hisolated.alive
        exact of_decide_eq_true halive
      · intro hharmless
        have hsurvives : SendResult.brokenPipe = .brokenPipe → ignoresSigpipe = true := hharmless
        exact isolated_setConn h (decide_eq_true hsurvives) rfl rfl
  case h_6 i =>
      obtain ⟨c, hc, hmap⟩ := Option.bind_eq_some_iff.mp hstep
      obtain ⟨k, -, rfl⟩ := Option.map_eq_some_iff.mp hmap
      obtain rfl := Option.some.inj (hc.symm.trans hfails)
      exact iff_of_true (isolated_setConn h rfl rfl rfl) nofun
  case h_7 => cases hfails

end Server

variable {n : ℕ} {ignoresSigpipe : Bool} {s : Server n}

/-- **When a failure stays its own.** In every run whose steps are harmless, the process runs
on, `run()` leaves its loop only because of a signal, the replies of every connection are what
`processRequest()` makes of the results of that connection's calls, and its socket is closed
only when its own conversation has ended. A step that meets an error on a connection stays on
that connection if and only if it is harmless. -/
theorem failures_isolated
    (h : (tcpServer n ignoresSigpipe).ReachableWhile
      (fun _ a => a.Harmless ignoresSigpipe) s) :
    s.alive = true ∧ (∀ what, s.loop.run ≠ .threw what) ∧
    (s.loop.run = .returned → s.loop.terminate = true) ∧
    (∀ client, processRequest (sendAt (s.conn client).sends) (s.conn client).results =
        some ⟨(s.conn client).taken, decide ((s.conn client).pc = .returned)⟩ ∧
      ((s.conn client).socket = .closed →
        ∃ result, (s.conn client).results.getLast? = some result ∧ Ends result)) ∧
    ∀ a t client, (tcpServer n ignoresSigpipe).step s a = some t → s.fails a = some client →
      (Server.Isolated s t client ↔ a.Harmless ignoresSigpipe) := by
  have hsound : s.Sound := by
    refine System.Inductive.holds (I := Server.Sound) ⟨?_, ?_⟩ h
    · rintro _ ⟨terminate, rfl⟩
      exact Server.sound_new terminate
    · exact fun _ _ _ hs hharmless hstep => hs.step hharmless hstep
  refine ⟨hsound.alive, hsound.loop.threw, hsound.loop.returned, fun client => ?_,
    fun a t client => hsound.isolated_iff⟩
  have hserved := hsound.served client
  exact ⟨hserved.processRequest_eq, fun hclosed => hserved.ends (hsound.closed client hclosed)⟩

/-- Client 0 resets its connection, on which `recv` then fails; client 1 gets its reply. -/
theorem failures_isolated_example :
    ∃ s : Server 2, s.alive = true ∧ (s.conn 0).socket = .closed ∧
      (s.conn 1).taken = response [65] ∧ s.loop.run ≠ .threw .accept := by
  have hinit : (tcpServer 2 false).ReachableWhile (fun _ a => a.Harmless false)
      (.new false) := .init ⟨false, rfl⟩
  obtain ⟨s, hreach, hs⟩ := System.exists_reachableWhile hinit
    [.run (.createListenSocket 3), .run .store, .connect 0, .connect 1, .run .test,
      .run .testSignal, .run (.accept (.connection 0)), .run (.construct 0 .done),
      .run (.enqueue 0), .take 0, .arrive 1 [65], .run .test, .run .testSignal,
      .run (.accept (.connection 1)), .run (.construct 1 .done), .run (.enqueue 1), .take 1,
      .recv 1 (.data [65]), .reset 0, .recv 0 .error, .close 0, .send 1 (.sent 7)]
    (fun s => decide ((s.conn 0).socket = .closed ∧ (s.conn 1).taken = response [65]))
    (by decide +kernel)
  obtain ⟨hclosed, htaken⟩ := of_decide_eq_true hs
  have hmain := failures_isolated hreach
  exact ⟨s, hmain.1, hclosed, htaken, hmain.2.1 .accept⟩

/-- **Failures that are not isolated.** While client 1 waits for its reply, a reset of
client 0 ends the process through `SIGPIPE`, or an error of `accept` or `fcntl` on client 0
is thrown out of `run()`. -/
theorem failures_not_isolated :
    (∃ s a t, (tcpServer 1 false).Reachable s ∧ s.fails a = some 0 ∧
      (s.conn 1).peer = .connected ∧ (tcpServer 1 false).step s a = some t ∧
      t.alive = false) ∧
    (∃ s a t, (tcpServer 1 false).Reachable s ∧ s.fails a = some 0 ∧
      (s.conn 1).peer = .connected ∧ (tcpServer 1 false).step s a = some t ∧
      t.loop.run = .threw .accept) ∧
    ∃ s a t, (tcpServer 1 false).Reachable s ∧ s.fails a = some 0 ∧
      (s.conn 1).peer = .connected ∧ (tcpServer 1 false).step s a = some t ∧
      t.loop.run = .threw .setfl := by
  have hinit : (tcpServer 1 false).Reachable (.new false) := .init ⟨false, rfl⟩
  refine ⟨?_, ?_, ?_⟩
  · obtain ⟨s, hreach, hs⟩ := System.exists_reachableWhile hinit
      [.run (.createListenSocket 3), .run .store, .connect 0, .connect 1, .run .test,
        .run .testSignal, .run (.accept (.connection 0)), .run (.construct 0 .done),
        .run (.enqueue 0), .take 0, .arrive 0 [65], .recv 0 (.data [65]), .reset 0]
      (fun s => decide (s.fails (.send 0 .brokenPipe) = some 0 ∧ (s.conn 1).peer = .connected ∧
        ((tcpServer 1 false).step s (.send 0 .brokenPipe)).any fun t => !t.alive))
      (by decide +kernel)
    obtain ⟨hfails, hpeer, hany⟩ := of_decide_eq_true hs
    obtain ⟨t, hstep, halive⟩ := (Option.any_eq_true _ _).mp hany
    exact ⟨s, _, t, hreach, hfails, hpeer, hstep, by simpa using halive⟩
  · obtain ⟨s, hreach, hs⟩ := System.exists_reachableWhile hinit
      [.run (.createListenSocket 3), .run .store, .connect 0, .connect 1, .reset 0, .run .test,
        .run .testSignal]
      (fun s => decide (s.fails (.run (.accept .error)) = some 0 ∧
        (s.conn 1).peer = .connected ∧
        ((tcpServer 1 false).step s (.run (.accept .error))).any fun t =>
          t.loop.run == .threw .accept))
      (by decide +kernel)
    obtain ⟨hfails, hpeer, hany⟩ := of_decide_eq_true hs
    obtain ⟨t, hstep, hrun⟩ := (Option.any_eq_true _ _).mp hany
    exact ⟨s, _, t, hreach, hfails, hpeer, hstep, beq_iff_eq.mp hrun⟩
  · obtain ⟨s, hreach, hs⟩ := System.exists_reachableWhile hinit
      [.run (.createListenSocket 3), .run .store, .connect 0, .connect 1, .run .test,
        .run .testSignal, .run (.accept (.connection 0))]
      (fun s => decide (s.fails (.run (.construct 0 .setflFailed)) = some 0 ∧
        (s.conn 1).peer = .connected ∧
        ((tcpServer 1 false).step s (.run (.construct 0 .setflFailed))).any fun t =>
          t.loop.run == .threw .setfl))
      (by decide +kernel)
    obtain ⟨hfails, hpeer, hany⟩ := of_decide_eq_true hs
    obtain ⟨t, hstep, hrun⟩ := (Option.any_eq_true _ _).mp hany
    exact ⟨s, _, t, hreach, hfails, hpeer, hstep, beq_iff_eq.mp hrun⟩

end LinuxNetwork.TcpServer

import LinuxNetwork.CgiConnBuffer
import LinuxNetwork.ProcessPoolNotifications

/-!
# The CGI Server in a Child

This module puts `cgi_conn` into `processpool::run_child` of `linux_server/cpt_15_3.h`: the table
`users`, whose entries are initialised when a connection is accepted, and the calls of `process`
on them. A call goes on for as long as `recv` has nothing final to say, and meanwhile the child
handles no other event; the parent and the peers go on.

`accept` returns a descriptor that is not in use and for which `users` has an entry, and
`epoll_wait` reports no descriptor that is closed. The answers of the system to a call are input.

## Main definitions

* `CgiChild.resume`: what `process` does with one more result of `recv`.
* `CgiChild.Server.step`: the child with its connections.

## Main results

* `process_append`: a call of `process` can be cut at any `recv`.
* `Server.Sound.step`: every connection is untouched, served, or removed.
* `serves_alone`: every connection is served as if it were the only one.
-/

open Transition PairScan

namespace LinuxNetwork.CgiConn

variable {env env' : Env} {c c' : CgiConn} {read : List UInt8} {script script' : List RecvResult}
  {actions : List Action} {result : RecvResult}

/-- **A call can be cut** where it is about to call `recv` once more. The system has not been
asked anything by then, so the rest may be run in another environment. -/
theorem process_append (h : process env c script = some ⟨c', actions, [], false⟩)
    (env' : Env) (script' : List RecvResult) :
    process env' c (script ++ script') = (process env' c' script').map fun r =>
      { r with actions := actions ++ r.actions } := by
  induction script generalizing c actions with
  | nil =>
      rw [process] at h
      split at h
      · cases h
      · split at h
        · cases h
        · obtain ⟨rfl, rfl⟩ : c = c' ∧ [] = actions := by simpa using h
          rw [List.nil_append]
          cases process env' c script' <;> rfl
  | cons result script ih =>
      have hneg : ¬ c.asked < 0 := fun hneg => by
        cases result <;> simp [process, hneg] at h
      have hzero : ¬ c.asked = 0 := fun hzero => by
        cases result <;> simp [process, hzero] at h
      rw [List.cons_append]
      cases result with
      | eagain =>
          rw [process, if_neg hneg, if_neg hzero] at h ⊢
          exact ih h
      | error => simp [process, hneg, hzero] at h
      | closed => simp [process, hneg, hzero] at h
      | data bytes =>
          rw [process, if_neg hneg, if_neg hzero] at h ⊢
          simp only [Option.bind_eq_bind] at h ⊢
          obtain ⟨buf, hstore, h⟩ := Option.bind_eq_some_iff.mp h
          obtain ⟨text, htext, h⟩ := Option.bind_eq_some_iff.mp h
          obtain ⟨idx, hidx, h⟩ := Option.bind_eq_some_iff.mp h
          simp only [hstore, htext, hidx, Option.bind_some]
          by_cases hend : idx = c.readIdx + bytes.length
          · rw [if_pos hend] at h ⊢
            obtain ⟨⟨c₁, more, rest, returned⟩, hr, h⟩ := Option.bind_eq_some_iff.mp h
            obtain ⟨rfl, rfl, rfl, rfl⟩ := Result.mk.injEq .. ▸ Option.some.inj h
            rw [ih hr]
            cases process env' c₁ script' <;> rfl
          · rw [if_neg hend] at h
            obtain ⟨served, -, h⟩ := Option.bind_eq_some_iff.mp h
            cases h

/-- **A call that is going on**: the connection holds the bytes read, and there is room for more. -/
structure Going (c : CgiConn) : Prop where
  holds : ∃ read, Holds c read ∧ (∀ k, ¬ PairAt CR LF read k) ∧ read.length < BUFFER_SIZE - 1

/-- A connection that `init` has just set up is about to call `recv`, with the whole buffer
ahead. -/
theorem going_init : Going init :=
  ⟨[], holds_init, fun _ h => absurd h.lt_length (Nat.not_lt_zero _), by decide⟩

/-- A call that is going on and gets no result asks `recv` for more, and does nothing until
then. -/
theorem Going.process_nil (h : Going c) (env : Env) :
    process env c [] = some ⟨c, [], [], false⟩ := by
  obtain ⟨read, hholds, -, hroom⟩ := h.holds
  have hasked := hholds.asked
  rw [process, if_neg (by omega), if_neg (by omega)]

/-- The request of a stream ends with the removal of the connection, in each of its three
outcomes, and it is removed once. -/
theorem count_removefd_request (env : Env) (name : List UInt8) (text : List UInt8) :
    (.print text :: request env name).count .removefd = 1 := by
  rw [request]
  split
  · split <;> simp
  · simp

/-- **One more result of `recv`** either leaves the call going on or ends it, with the removal of
the connection. -/
theorem Going.process_singleton (h : Going c) (env : Env) (hresult : AtMost c.asked result) :
    ∃ c' actions returned, process env c [result] = some ⟨c', actions, [], returned⟩ ∧
      actions.count .removefd = returned.toNat ∧ (returned = false → Going c') := by
  obtain ⟨read, hholds, hnone, hroom⟩ := h.holds
  obtain ⟨heagain, herror, hclosed⟩ := process_cons env hholds hroom []
  cases result with
  | eagain => exact ⟨c, [], false, heagain.trans (h.process_nil env), rfl, fun _ => h⟩
  | error => exact ⟨c, [.removefd], true, herror, rfl, nofun⟩
  | closed => exact ⟨c, [.removefd], true, hclosed, rfl, nofun⟩
  | data bytes =>
      have hasked := hholds.asked
      have hlen : bytes.length ≤ BUFFER_SIZE - 1 - read.length := by
        have hle := hresult.2
        rw [hasked, Int.emod_eq_of_lt (by omega) (by simp only [BUFFER_SIZE]; omega)] at hle
        exact_mod_cast hle
      rcases process_data env hholds hnone hroom hlen [] with
        ⟨c', text, hholds', hnone', hrun⟩ | ⟨c', text, j, -, hrun⟩
      · by_cases hfull : BUFFER_SIZE - 1 ≤ (read ++ bytes).length
        · rw [process_full env hholds' hfull] at hrun
          exact ⟨c', _, true, hrun, by simp, nofun⟩
        · have hgoing : Going c' := ⟨_, hholds', hnone', Nat.lt_of_not_le hfull⟩
          rw [hgoing.process_nil env] at hrun
          exact ⟨c', _, false, hrun, by simp, fun _ => hgoing⟩
      · exact ⟨c', _, true, hrun, count_removefd_request env _ text, nofun⟩

end LinuxNetwork.CgiConn

namespace LinuxNetwork.CgiChild

open CgiConn (AtMost Env Going process)
open ProcessPoolChild (Pc Report Source World childWithPipe skips)

/-- `USER_PER_PROCESS` -/
def USER_PER_PROCESS : ℤ := 65536

/-- An entry of `users` that was initialised: `m_sockfd`, and the buffer with its index. -/
structure User where
  sockfd : ℤ
  conn : CgiConn

/-- `init(epollfd, sockfd, client_addr)` -/
def User.init (sockfd : ℤ) : User where
  sockfd := sockfd
  conn := .init

/-- A connection that was accepted: its descriptor, and whether that is open. The other fields
record what `recv` returned on it and what `process` did for it; no step reads them. -/
structure Connection where
  fd : ℤ
  isOpen : Bool
  script : List RecvResult
  actions : List CgiConn.Action

/-- A connection that has just been accepted. -/
def Connection.new (fd : ℤ) : Connection where
  fd := fd
  isOpen := true
  script := []
  actions := []

/-- The child, its table `users`, the index of the entry whose `process` is running, and the
connections that were accepted. -/
structure Server where
  world : World
  users : ℤ → Option User
  busy : Option ℤ
  conns : List Connection

/-- What happens: a step outside of `process`, the beginning of a call of it, or one more result of
`recv` in a call. -/
inductive Move where
  | other (m : ProcessPoolChild.Move)
  | call (env : Env)
  | recv (env : Env) (result : RecvResult)

/-- The connection that is open at a descriptor. -/
def Connection.At (fd : ℤ) (c : Connection) : Prop :=
  c.fd = fd ∧ c.isOpen = true

instance (fd : ℤ) : DecidablePred (Connection.At fd) := fun _ =>
  inferInstanceAs (Decidable (_ ∧ _))

/-- The descriptor is that of an open connection. -/
def Server.Open (s : Server) (fd : ℤ) : Prop :=
  ∃ c ∈ s.conns, c.At fd

instance (s : Server) (fd : ℤ) : Decidable (s.Open fd) :=
  inferInstanceAs (Decidable (∃ c ∈ _, _))

/-- The descriptor of a client that is reported. -/
def clientOf (event : Report) : Option ℤ :=
  match event.source with
  | .client fd => some fd
  | .pipefd | .signals => none

/-- What may happen outside of `process`. While it runs the child handles no event, but the parent
and the peers go on. Only open descriptors are reported, and a new one is not in use. -/
def Server.Possible (s : Server) : ProcessPoolChild.Move → Prop
  | .send | .arrive _ | .fail | .endBatch => True
  | .wait events => ∀ event ∈ events, ∀ fd ∈ clientOf event, s.Open fd
  | .event .process => False
  | .event (.notification _ (some connfd)) =>
      s.busy = none ∧ 0 ≤ connfd ∧ connfd < USER_PER_PROCESS ∧ ¬ s.Open connfd
  | .event (.notification _ none) | .event (.signals _) | .event .none => s.busy = none

instance (s : Server) : DecidablePred s.Possible
  | .send | .arrive _ | .fail | .endBatch => inferInstanceAs (Decidable True)
  | .wait events => inferInstanceAs (Decidable (∀ event ∈ events, _))
  | .event .process => inferInstanceAs (Decidable False)
  | .event (.notification _ (some _)) => inferInstanceAs (Decidable (_ ∧ _ ∧ _ ∧ _))
  | .event (.notification _ none) | .event (.signals _) | .event .none =>
      inferInstanceAs (Decidable (_ = _))

/-- The descriptor that is accepted in a step. -/
def accepted : ProcessPoolChild.Move → Option ℤ
  | .event (.notification ret (some connfd)) => if skips ret then none else some connfd
  | .event (.notification _ none) | .event (.signals _) | .event .process | .event .none
  | .send | .arrive _ | .wait _ | .fail | .endBatch => none

/-- A step outside of `process`, with `users[connfd].init(m_epollfd, connfd, client_address)` if a
connection is accepted in it. -/
def Server.move (s : Server) (m : ProcessPoolChild.Move) : Option Server :=
  if s.Possible m then do
    let world ← s.world.step m
    match accepted m with
    | none => some { s with world := world }
    | some connfd => some { s with
        world := world
        users := Function.update s.users connfd (some (.init connfd))
        conns := s.conns ++ [.new connfd] }
  else none

/-- What is recorded for a connection. `removefd` closes its descriptor. -/
def Connection.extend (fd : ℤ) (script : List RecvResult) (actions : List CgiConn.Action)
    (c : Connection) : Connection :=
  if c.At fd then
    { c with
      script := c.script ++ script
      actions := c.actions ++ actions
      isOpen := decide (.removefd ∉ actions) }
  else c

/-- `users[sockfd].process()`, from a call of `recv` to the next one, or to its end. -/
def Server.resume (s : Server) (env : Env) (sockfd : ℤ) (script : List RecvResult) :
    Option Server := do
  let user ← s.users sockfd
  let r ← process env user.conn script
  let users := Function.update s.users sockfd (some { user with conn := r.conn })
  let conns := s.conns.map (Connection.extend user.sockfd script r.actions)
  if r.returned then do
    let world ← s.world.step (.event .process)
    some ⟨world, users, none, conns⟩
  else some ⟨s.world, users, some sockfd, conns⟩

/-- The next event is one of a client, and has `EPOLLIN`. -/
def nextClient : Pc → Option ℤ
  | .handling (⟨.client fd, true⟩ :: _) => some fd
  | _ => none

/-- The kernel returns what it may return to the call of `recv`. -/
def Server.Fits (s : Server) (sockfd : ℤ) (result : RecvResult) : Prop :=
  ∀ user ∈ s.users sockfd, AtMost user.conn.asked result

instance (s : Server) (sockfd : ℤ) (result : RecvResult) : Decidable (s.Fits sockfd result) :=
  inferInstanceAs (Decidable (∀ user ∈ s.users sockfd, _))

/-- One step. -/
def Server.step (s : Server) : Move → Option Server
  | .other m => s.move m
  | .call env =>
      match s.busy, nextClient s.world.pc with
      | none, some fd => s.resume env fd []
      | _, _ => none
  | .recv env result =>
      match s.busy with
      | some sockfd => if s.Fits sockfd result then s.resume env sockfd [result] else none
      | none => none

/-- The child with its connections, from the beginning of `run_child` on. -/
def cgiChild : System Server Move where
  init s := childWithPipe.init s.world ∧ s.busy = none ∧ s.conns = []
  step := Server.step

/-! ### The invariant -/

/-- **Served so far as if it were alone**: what was done for the connection is what `process` does
for a new one with these results of `recv`. -/
def Connection.Alone (c : Connection) (conn : CgiConn) (returned : Bool) : Prop :=
  ∃ env, process env .init c.script = some ⟨conn, c.actions, [], returned⟩

/-- What is known of an open connection: it is being served, or untouched. -/
def Server.Serves (s : Server) (c : Connection) : Prop :=
  if s.busy = some c.fd then
    ∃ conn, s.users c.fd = some ⟨c.fd, conn⟩ ∧ Going conn ∧ c.Alone conn false ∧
      .removefd ∉ c.actions
  else s.users c.fd = some (.init c.fd) ∧ c.script = [] ∧ c.actions = []

/-- **The invariant** of the child with its connections. -/
structure Server.Sound (s : Server) : Prop where
  world : childWithPipe.Reachable s.world
  /-- No descriptor is open twice. -/
  fds : ((s.conns.filter Connection.isOpen).map Connection.fd).Nodup
  /-- The reports in hand are about open descriptors. -/
  reported : ∀ events, s.world.pc = .handling events → ∀ event ∈ events,
    ∀ fd ∈ clientOf event, s.Open fd
  /-- A call that goes on belongs to the event in hand. -/
  busy : ∀ fd, s.busy = some fd → nextClient s.world.pc = some fd
  served : ∀ c ∈ s.conns, c.isOpen = true → s.Serves c
  removed : ∀ c ∈ s.conns, c.isOpen = false →
    ∃ conn, c.Alone conn true ∧ c.actions.count .removefd = 1
  clients : s.conns.map Connection.fd = s.world.child.clients

variable {s t : Server} {m : ProcessPoolChild.Move} {w v : World} {fd : ℤ} {env : Env}
  {script : List RecvResult} {result : RecvResult}

/-- The invariant holds when `run_child` enters its loop: nobody is connected, and no call is
under way. -/
theorem Server.sound_of_init (h : cgiChild.init s) : s.Sound := by
  obtain ⟨hworld, hbusy, hconns⟩ := h
  have hworld' := hworld
  obtain ⟨sent, hsent⟩ := hworld'
  refine ⟨.init hworld, ?_, ?_, ?_, ?_, ?_, ?_⟩
  · simp [hconns]
  · intro events hpc
    rw [hsent] at hpc
    cases hpc
  · rw [hbusy]
    nofun
  · simp [hconns]
  · simp [hconns]
  · simp [hconns, hsent, ProcessPoolChild.Child.new]

/-! ### Steps outside of `process` -/

/-- The signals that the child reads change its `m_stop` only, not its clients. -/
theorem clients_foldl_handleSignal (c : ProcessPoolChild.Child) (signals : List ℤ) :
    (signals.foldl ProcessPoolChild.handleSignal c).clients = c.clients := by
  induction signals generalizing c with
  | nil => rfl
  | cons sig signals ih =>
      refine (ih _).trans ?_
      rw [ProcessPoolChild.handleSignal]
      split
      · rfl
      · split <;> rfl

/-- An event adds the descriptor that is accepted in it to the clients, and no event takes one
away. -/
theorem clients_handleEvent {c c' : ProcessPoolChild.Child} {event : Report}
    {input : ProcessPoolChild.Input} (h : ProcessPoolChild.handleEvent c event input = some c') :
    c'.clients = c.clients ++ (accepted (.event input)).toList := by
  obtain ⟨source, epollin⟩ := event
  cases epollin with
  | false =>
      cases input with
      | none =>
          obtain rfl : c = c' := by cases source <;> exact Option.some.inj h
          exact (List.append_nil _).symm
      | notification ret connfd => cases source <;> cases h
      | signals received => cases source <;> cases h
      | process => cases source <;> cases h
  | true =>
      cases input with
      | notification ret connfd =>
          cases source with
          | pipefd =>
              obtain rfl := Option.some.inj h
              cases hskips : skips ret <;> cases connfd <;>
                simp [ProcessPoolChild.handleNotification, accepted, hskips]
          | signals => cases h
          | client fd => cases h
      | signals received =>
          cases source with
          | signals =>
              cases received with
              | none =>
                  obtain rfl := Option.some.inj h
                  exact (List.append_nil _).symm
              | some bytes =>
                  obtain rfl := Option.some.inj h
                  rw [clients_foldl_handleSignal]
                  exact (List.append_nil _).symm
          | pipefd => cases h
          | client fd => cases h
      | process =>
          cases source with
          | client fd =>
              obtain rfl := Option.some.inj h
              exact (List.append_nil _).symm
          | pipefd => cases h
          | signals => cases h
      | none => cases source <;> cases h

/-- Where the child stands before and behind a step. -/
def PcStep (pc pc' : Pc) : ProcessPoolChild.Move → Prop
  | .send | .arrive _ => pc' = pc
  | .wait events => pc = .waiting ∧ pc' = .handling events
  | .fail => pc = .waiting ∧ pc' = .returned
  | .event _ => ∃ event events, pc = .handling (event :: events) ∧ pc' = .handling events
  | .endBatch => pc = .handling [] ∧ (pc' = .waiting ∨ pc' = .returned)

/-- **All that a step can do** to the clients, and where it leads. -/
theorem world_step_cases (h : w.step m = some v) :
    PcStep w.pc v.pc m ∧ v.child.clients = w.child.clients ++ (accepted m).toList := by
  cases m with
  | send =>
      obtain rfl := Option.some.inj h
      exact ⟨rfl, (List.append_nil _).symm⟩
  | arrive source =>
      obtain ⟨-, h⟩ := Option.ite_none_right_eq_some.mp h
      obtain rfl := Option.some.inj h
      exact ⟨rfl, (List.append_nil _).symm⟩
  | wait events =>
      obtain ⟨⟨hpc, -⟩, h⟩ := Option.ite_none_right_eq_some.mp h
      obtain rfl := Option.some.inj h
      exact ⟨⟨hpc, rfl⟩, (List.append_nil _).symm⟩
  | fail =>
      obtain ⟨hpc, h⟩ := Option.ite_none_right_eq_some.mp h
      obtain rfl := Option.some.inj h
      exact ⟨⟨hpc, rfl⟩, (List.append_nil _).symm⟩
  | endBatch =>
      obtain ⟨hpc, h⟩ := Option.ite_none_right_eq_some.mp h
      obtain rfl := Option.some.inj h
      refine ⟨⟨hpc, ?_⟩, (List.append_nil _).symm⟩
      change (if w.child.stop = true then Pc.returned else .waiting) = _ ∨ _ = _
      split
      · exact .inr rfl
      · exact .inl rfl
  | event input =>
      obtain ⟨event, events, hpc⟩ := ProcessPoolChild.handling_of_step h
      rw [World.step, hpc] at h
      obtain ⟨child, hchild, h⟩ := Option.bind_eq_some_iff.mp h
      obtain ⟨bytes, -, h⟩ := Option.bind_eq_some_iff.mp h
      obtain rfl := Option.some.inj h
      refine ⟨⟨event, events, hpc, rfl⟩, ?_⟩
      change child.clients = _
      exact clients_handleEvent hchild

/-- The child keeps the invariant of its pipe, whatever the processing of the clients does in
the meantime. -/
theorem sound_of_reachable (h : childWithPipe.Reachable w) : w.Sound := by
  refine System.Inductive.holds (I := World.Sound) ⟨?_, ?_⟩ h
  · exact fun _ hinit => (World.sound_of_init hinit).1
  · exact fun _ _ _ hs _ hstep => hs.step hstep

/-- A call that goes on keeps the child at its event, so a step that leads elsewhere finds no
call under way. -/
theorem Server.Sound.busy_eq_none (h : s.Sound) (hm : s.Possible m)
    (hstep : s.world.step m = some w) (hpc : w.pc ≠ s.world.pc) : s.busy = none := by
  obtain ⟨hpcs, -⟩ := world_step_cases hstep
  cases hbusy : s.busy with
  | none => rfl
  | some fd =>
      have hnext := h.busy fd hbusy
      exfalso
      cases m with
      | send => exact hpc hpcs
      | arrive source => exact hpc hpcs
      | wait events => simp [hpcs.1, nextClient] at hnext
      | fail => simp [hpcs.1, nextClient] at hnext
      | endBatch => simp [hpcs.1, nextClient] at hnext
      | event input =>
          cases input with
          | notification ret connfd => cases connfd <;> simp [Server.Possible, hbusy] at hm
          | signals received => simp [Server.Possible, hbusy] at hm
          | process => exact hm
          | none => simp [Server.Possible, hbusy] at hm

/-- The reports in hand behind a step are about open descriptors. -/
theorem Server.Sound.reported_of_step (h : s.Sound) (hm : s.Possible m)
    (hstep : s.world.step m = some w) {events : List Report} (hpc : w.pc = .handling events) :
    ∀ event ∈ events, ∀ fd ∈ clientOf event, s.Open fd := by
  obtain ⟨hpcs, -⟩ := world_step_cases hstep
  cases m with
  | send => exact h.reported events (hpcs ▸ hpc)
  | arrive source => exact h.reported events (hpcs ▸ hpc)
  | wait events' =>
      obtain rfl : events' = events := Pc.handling.inj (hpcs.2.symm.trans hpc)
      exact hm
  | fail => exact nomatch hpcs.2.symm.trans hpc
  | endBatch =>
      rcases hpcs.2 with hpc' | hpc'
      · exact nomatch hpc'.symm.trans hpc
      · exact nomatch hpc'.symm.trans hpc
  | event input =>
      obtain ⟨event, events', hbefore, hafter⟩ := hpcs
      obtain rfl : events' = events := Pc.handling.inj (hafter.symm.trans hpc)
      exact fun e he => h.reported _ hbefore e (List.mem_cons_of_mem _ he)

/-- A connection that was open still is when a new one is entered behind it. -/
theorem open_append {conns : List Connection} {c : Connection} {users : ℤ → Option User}
    {busy : Option ℤ} (h : s.Open fd) (hconns : conns = s.conns ++ [c]) :
    Server.Open ⟨w, users, busy, conns⟩ fd := by
  obtain ⟨c', hmem, hat⟩ := h
  exact ⟨c', by rw [hconns]; exact List.mem_append_left _ hmem, hat⟩

/-- **A step outside of `process`**, in which a connection may be accepted. -/
theorem Server.Sound.move (h : s.Sound) (hstep : s.move m = some t) : t.Sound := by
  obtain ⟨hm, hstep⟩ := Option.ite_none_right_eq_some.mp hstep
  obtain ⟨w, hw, hstep⟩ := Option.bind_eq_some_iff.mp hstep
  have hworld : childWithPipe.Reachable w := h.world.step hw
  obtain ⟨hpcs, hclients⟩ := world_step_cases hw
  have hreported : ∀ events, w.pc = .handling events →
      ∀ event ∈ events, ∀ fd ∈ clientOf event, s.Open fd :=
    fun _ hpc => h.reported_of_step hm hw hpc
  have hbusy : ∀ fd, s.busy = some fd → nextClient w.pc = some fd := by
    intro fd hfd
    by_cases hpc : w.pc = s.world.pc
    · rw [hpc]
      exact h.busy fd hfd
    · rw [h.busy_eq_none hm hw hpc] at hfd
      cases hfd
  cases hacc : accepted m with
  | none =>
      rw [hacc] at hstep hclients
      obtain rfl := Option.some.inj hstep
      refine ⟨hworld, h.fds, hreported, hbusy, h.served, h.removed, ?_⟩
      rw [hclients, h.clients]
      exact (List.append_nil _).symm
  | some connfd =>
      rw [hacc] at hstep hclients
      obtain rfl := Option.some.inj hstep
      obtain ⟨hidle, hnot⟩ : s.busy = none ∧ ¬ s.Open connfd := by
        unfold accepted at hacc
        split at hacc
        · obtain ⟨-, hacc⟩ := Option.ite_none_left_eq_some.mp hacc
          obtain rfl := Option.some.inj hacc
          exact ⟨hm.1, hm.2.2.2⟩
        all_goals cases hacc
      refine ⟨hworld, ?_, ?_, hbusy, ?_, ?_, ?_⟩
      · change (((s.conns ++ [Connection.new connfd]).filter Connection.isOpen).map
          Connection.fd).Nodup
        rw [List.filter_append, List.map_append]
        refine List.Nodup.append h.fds (List.nodup_singleton _) ?_
        intro fd hmem hmem'
        obtain ⟨c, hc, rfl⟩ := List.mem_map.mp hmem
        obtain ⟨hc, hopen⟩ := List.mem_filter.mp hc
        exact hnot ⟨c, hc, List.mem_singleton.mp hmem', hopen⟩
      · exact fun events hpc event hevent fd hfd =>
          open_append (c := .new connfd) (hreported events hpc event hevent fd hfd) rfl
      · intro c hc hopen
        change if s.busy = some c.fd then _ else _
        rw [if_neg (by rw [hidle]; nofun)]
        rcases List.mem_append.mp hc with hc | hc
        · have hserves := h.served c hc hopen
          rw [Server.Serves, if_neg (by rw [hidle]; nofun)] at hserves
          have hne : c.fd ≠ connfd := fun heq => hnot ⟨c, hc, heq, hopen⟩
          refine ⟨?_, hserves.2⟩
          exact (Function.update_of_ne hne _ _).trans hserves.1
        · obtain rfl := List.mem_singleton.mp hc
          exact ⟨Function.update_self .., rfl, rfl⟩
      · intro c hc hclosed
        rcases List.mem_append.mp hc with hc | hc
        · exact h.removed c hc hclosed
        · obtain rfl := List.mem_singleton.mp hc
          cases hclosed
      · change (s.conns ++ [Connection.new connfd]).map Connection.fd = _
        rw [List.map_append, h.clients, hclients]
        rfl

/-! ### Steps of `process` -/

variable {c c' : Connection} {actions : List CgiConn.Action}

@[simp] theorem extend_fd (fd : ℤ) (script : List RecvResult) (actions : List CgiConn.Action)
    (c : Connection) : (c.extend fd script actions).fd = c.fd := by
  unfold Connection.extend
  split <;> rfl

/-- A piece of a call is about the open connection at its descriptor and leaves all others as
they are, closed ones at the same number included. -/
theorem extend_of_not_at (hc : ¬ c.At fd) : c.extend fd script actions = c :=
  if_neg hc

/-- A connection that is open after it was extended was open before. -/
theorem isOpen_of_extend (hopen : (c.extend fd script actions).isOpen = true) :
    c.isOpen = true := by
  by_cases hc : c.At fd
  · exact hc.2
  · rwa [extend_of_not_at hc] at hopen

/-- No descriptor is open twice, so an open connection is determined by its number. -/
theorem Server.Sound.eq_of_at (h : s.Sound) (hc : c ∈ s.conns) (hc' : c' ∈ s.conns)
    (hat : c.At fd) (hat' : c'.At fd) : c = c' :=
  List.inj_on_of_nodup_map h.fds (List.mem_filter.mpr ⟨hc, hat.2⟩)
    (List.mem_filter.mpr ⟨hc', hat'.2⟩) (hat.1.trans hat'.1.symm)

/-- No descriptor is open twice behind a step of `process`, which may close a connection and
opens none. -/
theorem Server.Sound.nodup_extend (h : s.Sound) :
    (((s.conns.map (Connection.extend fd script actions)).filter Connection.isOpen).map
      Connection.fd).Nodup := by
  rw [List.filter_map, List.map_map]
  have hfd : (Connection.fd ∘ Connection.extend fd script actions) = Connection.fd :=
    funext fun c => extend_fd ..
  rw [hfd]
  refine h.fds.sublist (List.Sublist.map _ (List.monotone_filter_right _ ?_))
  exact fun c hc => isOpen_of_extend hc

/-- A piece of a call leaves the descriptors of all connections as they were. -/
theorem map_fd_extend (conns : List Connection) :
    (conns.map (Connection.extend fd script actions)).map Connection.fd =
      conns.map Connection.fd := by
  rw [List.map_map]
  exact List.map_congr_left fun c _ => extend_fd ..

/-- Another connection stays open while a piece of a call is carried out. -/
theorem open_extend {users : ℤ → Option User} {busy : Option ℤ} {fd' : ℤ} (h : s.Open fd')
    (hne : fd' ≠ fd) :
    Server.Open ⟨w, users, busy, s.conns.map (Connection.extend fd script actions)⟩ fd' := by
  obtain ⟨c, hc, hat⟩ := h
  have hsame : c.extend fd script actions = c :=
    extend_of_not_at fun hat' => hne (hat.1.symm.trans hat'.1)
  exact ⟨c, by rw [← hsame]; exact List.mem_map_of_mem hc, hat⟩

/-- The event of a client that is handled stands first among the events in hand, and has
`EPOLLIN`. -/
theorem nextClient_eq_some {pc : Pc} (h : nextClient pc = some fd) :
    ∃ events, pc = .handling (⟨.client fd, true⟩ :: events) := by
  unfold nextClient at h
  split at h
  · obtain rfl := Option.some.inj h
    exact ⟨_, rfl⟩
  · cases h

/-- An open connection whose turn it is, is a call that goes on: its object is what `process`
makes of its results so far, and it has not been removed. -/
theorem Server.Serves.going (h : s.Serves c) :
    ∃ conn, s.users c.fd = some ⟨c.fd, conn⟩ ∧ Going conn ∧ c.Alone conn false ∧
      .removefd ∉ c.actions := by
  rw [Server.Serves] at h
  split at h
  · exact h
  · obtain ⟨huser, hscript, hactions⟩ := h
    refine ⟨.init, huser, CgiConn.going_init, ⟨⟨fun _ => false, false⟩, ?_⟩, ?_⟩
    · rw [hscript, hactions]
      exact CgiConn.going_init.process_nil _
    · rw [hactions]
      exact List.not_mem_nil

/-- An open connection whose turn it is not is untouched: its object is the one that `init` has
left, and nothing was done for it. -/
theorem Server.Serves.untouched (h : s.Serves c) (hbusy : s.busy ≠ some c.fd) :
    s.users c.fd = some (.init c.fd) ∧ c.script = [] ∧ c.actions = [] := by
  rwa [Server.Serves, if_neg hbusy] at h

/-- **A piece of a call of `process`**, for the connection whose turn it is. If the call goes
on, the other connections stay as they are. If it returns, the connection is closed, and the
child goes on with its batch, in which the closed descriptor is not reported once more. -/
theorem Server.Sound.resume (h : s.Sound) (hbusy : s.busy = none ∨ s.busy = some fd)
    (hnext : nextClient s.world.pc = some fd) (hc : c ∈ s.conns) (hat : c.At fd)
    {conn conn' : CgiConn} (huser : s.users fd = some ⟨fd, conn⟩) (halone : c.Alone conn false)
    (hkept : .removefd ∉ c.actions) {returned : Bool}
    (hproc : process env conn script = some ⟨conn', actions, [], returned⟩)
    (hcount : actions.count .removefd = returned.toNat) (hgoing : returned = false → Going conn') :
    ∃ t, s.resume env fd script = some t ∧ t.Sound := by
  obtain ⟨events, hpc⟩ := nextClient_eq_some hnext
  have hextend : c.extend fd script actions =
      ⟨c.fd, decide (.removefd ∉ actions), c.script ++ script, c.actions ++ actions⟩ :=
    if_pos hat
  have halone' : (c.extend fd script actions).Alone conn' returned := by
    obtain ⟨env', hrun⟩ := halone
    refine ⟨env, ?_⟩
    rw [hextend, CgiConn.process_append hrun env script, hproc]
    rfl
  have hopen : (c.extend fd script actions).isOpen = !returned := by
    rw [hextend]
    cases returned with
    | false => exact decide_eq_true (List.count_eq_zero.mp hcount)
    | true =>
        refine decide_eq_false (not_not.mpr (List.count_pos_iff.mp ?_))
        rw [hcount]
        exact Nat.one_pos
  have hothers : ∀ c' ∈ s.conns, c'.isOpen = true → ¬ c'.At fd →
      s.users c'.fd = some (.init c'.fd) ∧ c'.script = [] ∧ c'.actions = [] := by
    intro c' hc' hopen' hnot
    refine (h.served c' hc' hopen').untouched fun heq => ?_
    rcases hbusy with hnone | hsome
    · rw [hnone] at heq
      cases heq
    · exact hnot ⟨(Option.some.inj (hsome.symm.trans heq)).symm, hopen'⟩
  set users := Function.update s.users fd (some ⟨fd, conn'⟩) with husers
  set conns := s.conns.map (Connection.extend fd script actions) with hconns
  have hcases : ∀ c' ∈ conns, c' = c.extend fd script actions ∨ c' ∈ s.conns ∧ ¬ c'.At fd := by
    intro c' hc'
    obtain ⟨c₀, hc₀, rfl⟩ := List.mem_map.mp hc'
    by_cases hat₀ : c₀.At fd
    · exact .inl (by rw [h.eq_of_at hc₀ hc hat₀ hat])
    · rw [extend_of_not_at hat₀]
      exact .inr ⟨hc₀, hat₀⟩
  have huntouched : ∀ c' ∈ s.conns, ¬ c'.At fd → c'.isOpen = true →
      users c'.fd = some (.init c'.fd) ∧ c'.script = [] ∧ c'.actions = [] := by
    intro c' hc' hnot hopen'
    have hne : c'.fd ≠ fd := fun heq => hnot ⟨heq, hopen'⟩
    rw [husers, Function.update_of_ne hne]
    exact hothers c' hc' hopen' hnot
  have hremoved : ∀ c' ∈ conns, c'.isOpen = false →
      ∃ conn, c'.Alone conn true ∧ c'.actions.count .removefd = 1 := by
    intro c' hc' hclosed
    rcases hcases c' hc' with rfl | ⟨hold, -⟩
    · have hret : returned = true := by
        rw [hopen] at hclosed
        simpa using hclosed
      subst hret
      refine ⟨conn', halone', ?_⟩
      rw [hextend, List.count_append, hcount, List.count_eq_zero.mpr hkept]
      rfl
    · exact h.removed c' hold hclosed
  have hclients : conns.map Connection.fd = s.world.child.clients :=
    (map_fd_extend s.conns).trans h.clients
  have hresume : s.resume env fd script = if returned = true then do
      let world ← s.world.step (.event .process)
      some ⟨world, users, none, conns⟩
    else some ⟨s.world, users, some fd, conns⟩ := by
    simp only [Server.resume, huser, hproc, Option.bind_eq_bind, Option.bind_some, husers, hconns]
  cases returned with
  | false =>
      refine ⟨⟨s.world, users, some fd, conns⟩, by rw [hresume]; rfl, ?_⟩
      refine ⟨h.world, h.nodup_extend, ?_, ?_, ?_, hremoved, hclients⟩
      · intro events' hpc' event hevent fd' hfd'
        by_cases hne : fd' = fd
        · subst hne
          exact ⟨_, List.mem_map_of_mem hc, by rw [extend_fd]; exact hat.1, hopen⟩
        · exact open_extend (h.reported events' hpc' event hevent fd' hfd') hne
      · rintro fd' heq
        obtain rfl := Option.some.inj heq
        exact hnext
      · intro c' hc' hopen'
        change if some fd = some c'.fd then _ else _
        rcases hcases c' hc' with rfl | ⟨hold, hnot⟩
        · rw [extend_fd, hat.1, if_pos rfl]
          refine ⟨conn', Function.update_self .., hgoing rfl, halone', ?_⟩
          rw [hextend, List.mem_append, not_or]
          exact ⟨hkept, List.count_eq_zero.mp hcount⟩
        · rw [if_neg fun heq => hnot ⟨(Option.some.inj heq).symm, hopen'⟩]
          exact huntouched c' hold hnot hopen'
  | true =>
      have hworld : childWithPipe.step s.world (.event .process) = some ⟨s.world.child,
          .handling events, s.world.pipe, s.world.ready, s.world.sent, s.world.received⟩ := by
        simp [childWithPipe, World.step, hpc, ProcessPoolChild.handleEvent, World.reads]
      have hrun : s.resume env fd script = some ⟨⟨s.world.child, .handling events, s.world.pipe,
          s.world.ready, s.world.sent, s.world.received⟩, users, none, conns⟩ := by
        rw [hresume, if_pos rfl, show s.world.step (.event .process) = _ from hworld]
        rfl
      refine ⟨_, hrun, ?_⟩
      have hnodup := (sound_of_reachable h.world).nodup
      rw [World.reported_of_handling hpc, List.map_cons, List.nodup_cons] at hnodup
      refine ⟨h.world.step hworld, h.nodup_extend, ?_,
        fun fd' hfd' => absurd hfd'.symm (Option.some_ne_none fd'), ?_, hremoved, hclients⟩
      · intro events' hpc' event hevent fd' hfd'
        obtain rfl : events = events' := Pc.handling.inj hpc'
        have hne : fd' ≠ fd := by
          rintro rfl
          refine hnodup.1 (List.mem_map.mpr ⟨event, hevent, ?_⟩)
          unfold clientOf at hfd'
          split at hfd'
          · rename_i hsource
            obtain rfl := Option.some.inj hfd'
            exact hsource
          all_goals cases hfd'
        exact open_extend (h.reported _ hpc event (List.mem_cons_of_mem _ hevent) fd' hfd') hne
      · intro c' hc' hopen'
        change if none = some c'.fd then _ else _
        rw [if_neg (Option.some_ne_none c'.fd).symm]
        rcases hcases c' hc' with rfl | ⟨hold, hnot⟩
        · rw [hopen] at hopen'
          cases hopen'
        · exact huntouched c' hold hnot hopen'

/-- **The beginning of a call** finds the connection as `init` has left it. -/
theorem Server.Sound.call (h : s.Sound) (hidle : s.busy = none)
    (hnext : nextClient s.world.pc = some fd) (env : Env) :
    ∃ t, s.resume env fd [] = some t ∧ t.Sound := by
  obtain ⟨events, hpc⟩ := nextClient_eq_some hnext
  obtain ⟨c, hc, hat⟩ := h.reported _ hpc _ List.mem_cons_self fd rfl
  obtain ⟨conn, huser, hgoing, halone, hkept⟩ := (h.served c hc hat.2).going
  rw [hat.1] at huser
  exact h.resume (.inl hidle) hnext hc hat huser halone hkept (hgoing.process_nil env) rfl
    fun _ => hgoing

/-- **One more result of `recv`** in a call that goes on carries it on by one piece, and the
invariant is kept. -/
theorem Server.Sound.recv (h : s.Sound) (hbusy : s.busy = some fd) (env : Env)
    (hfits : s.Fits fd result) : ∃ t, s.resume env fd [result] = some t ∧ t.Sound := by
  have hnext := h.busy fd hbusy
  obtain ⟨events, hpc⟩ := nextClient_eq_some hnext
  obtain ⟨c, hc, hat⟩ := h.reported _ hpc _ List.mem_cons_self fd rfl
  obtain ⟨conn, huser, hgoing, halone, hkept⟩ := (h.served c hc hat.2).going
  rw [hat.1] at huser
  obtain ⟨conn', actions, returned, hproc, hcount, hgoing'⟩ :=
    hgoing.process_singleton env (hfits _ huser)
  exact h.resume (.inr hbusy) hnext hc hat huser halone hkept hproc hcount hgoing'

/-- **Every step** keeps the invariant: a step outside of `process`, the beginning of a call,
and one more result of `recv` in it. -/
theorem Server.Sound.step (h : s.Sound) {m : Move} (hstep : cgiChild.step s m = some t) :
    t.Sound := by
  cases m with
  | other m => exact h.move hstep
  | call env =>
      simp only [cgiChild, Server.step] at hstep
      split at hstep
      · rename_i fd hidle hnext
        obtain ⟨t', hrun, ht'⟩ := h.call hidle hnext env
        obtain rfl := Option.some.inj (hrun.symm.trans hstep)
        exact ht'
      · cases hstep
  | recv env result =>
      simp only [cgiChild, Server.step] at hstep
      split at hstep
      · rename_i fd hbusy
        obtain ⟨hfits, hstep⟩ := Option.ite_none_right_eq_some.mp hstep
        obtain ⟨t', hrun, ht'⟩ := h.recv hbusy env hfits
        obtain rfl := Option.some.inj (hrun.symm.trans hstep)
        exact ht'
      · cases hstep

/-- The invariant holds in every reachable state, by induction on the run. -/
theorem Server.sound_of_reachable (h : cgiChild.Reachable s) : s.Sound := by
  refine System.Inductive.holds (I := Server.Sound) ⟨?_, ?_⟩ h
  · exact fun _ => Server.sound_of_init
  · exact fun _ _ _ hs _ hstep => hs.step hstep

/-- **Every connection is served as if it were the only one.** In every reachable state of a child,
whatever notifications, signals, events and descriptors have come in which order, what was done for
an accepted connection is what `process` does for a new one with the results of `recv` on this
connection. Its descriptor has been removed exactly if this has returned, and once then. No two open
connections have one descriptor, and only the one whose `process` is running has been touched. A
call of `process` can always begin, and go on with whatever `recv` may return. -/
theorem serves_alone (h : cgiChild.Reachable s) :
    (∀ c ∈ s.conns, ∃ env conn,
      process env .init c.script = some ⟨conn, c.actions, [], !c.isOpen⟩ ∧
      c.actions.count .removefd = (!c.isOpen).toNat) ∧
    ((s.conns.filter Connection.isOpen).map Connection.fd).Nodup ∧
    (∀ c ∈ s.conns, c.isOpen = true → c.script ≠ [] ∨ c.actions ≠ [] → s.busy = some c.fd) ∧
    (∀ env fd, s.busy = none → nextClient s.world.pc = some fd →
      ∃ t, cgiChild.step s (.call env) = some t) ∧
    ∀ env fd result, s.busy = some fd → s.Fits fd result →
      ∃ t, cgiChild.step s (.recv env result) = some t := by
  have hsound := Server.sound_of_reachable h
  refine ⟨fun c hc => ?_, hsound.fds, fun c hc hopen htouched => ?_, ?_, ?_⟩
  · cases hopen : c.isOpen with
    | false =>
        obtain ⟨conn, ⟨env, hrun⟩, hcount⟩ := hsound.removed c hc hopen
        exact ⟨env, conn, hrun, hcount⟩
    | true =>
        obtain ⟨conn, -, -, ⟨env, hrun⟩, hkept⟩ := (hsound.served c hc hopen).going
        exact ⟨env, conn, hrun, List.count_eq_zero.mpr hkept⟩
  · by_contra hbusy
    obtain ⟨-, hscript, hactions⟩ := (hsound.served c hc hopen).untouched hbusy
    exact htouched.elim (· hscript) (· hactions)
  · intro env fd hidle hnext
    obtain ⟨t, hrun, -⟩ := hsound.call hidle hnext env
    exact ⟨t, by simp only [cgiChild, Server.step, hidle, hnext, hrun]⟩
  · intro env fd result hbusy hfits
    obtain ⟨t, hrun, -⟩ := hsound.recv hbusy env hfits
    exact ⟨t, by simp only [cgiChild, Server.step, hbusy, hfits, if_true, hrun]⟩

/-- Two connections, one after another at the same descriptor. The second one asks for a file that
`access` finds, in two pieces. -/
theorem serves_alone_example :
    ∃ s, cgiChild.Reachable s ∧ s.conns.map Connection.isOpen = [false, true] ∧
      (∀ c ∈ s.conns, ∃ env conn,
        process env .init c.script = some ⟨conn, c.actions, [], !c.isOpen⟩ ∧
        c.actions.count .removefd = (!c.isOpen).toNat) := by
  have hinit : cgiChild.Reachable ⟨⟨.new, .waiting, [], [], 0, []⟩, fun _ => none, none, []⟩ :=
    .init ⟨⟨0, rfl⟩, rfl, rfl⟩
  have hrun : (cgiChild.run ⟨⟨.new, .waiting, [], [], 0, []⟩, fun _ => none, none, []⟩
      [.other .send, .other (.wait [⟨.pipefd, true⟩]),
        .other (.event (.notification (.data ProcessPoolChild.newConn) (some 7))),
        .other .endBatch, .other .send, .other (.arrive (.client 7)),
        .other (.wait [⟨.client 7, true⟩, ⟨.pipefd, true⟩]), .call ⟨fun _ => true, true⟩,
        .recv ⟨fun _ => true, true⟩ .closed,
        .other (.event (.notification (.data ProcessPoolChild.newConn) (some 7))),
        .other .endBatch, .other (.arrive (.client 7)), .other (.wait [⟨.client 7, true⟩]),
        .call ⟨fun _ => true, true⟩, .recv ⟨fun _ => true, true⟩ (.data [97, 13])]).map
      (fun s => s.conns.map Connection.isOpen) = some [false, true] := by decide +kernel
  obtain ⟨s, hs, hconns⟩ := Option.map_eq_some_iff.mp hrun
  have hreach := System.reachable_of_run _ hinit hs
  exact ⟨s, hreach, hconns, (serves_alone hreach).1⟩

end LinuxNetwork.CgiChild

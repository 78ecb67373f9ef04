import Mathlib.Data.Finset.Card
import Mathlib.Data.Finset.Range
import LinuxNetwork.AllocationLog
import LinuxNetwork.TcpServer
import LinuxNetwork.ThreadPoolShutdown

/-!
# The Descriptors of the Thread-Pool Server

This module embeds `main` of `thread_pool_main.cpp` with the server it runs: the calls of
`createListenSocket` with their failures, `run()`, and, when `run()` has returned or thrown, the
destructor of `ThreadPoolTcpServer`. That calls `stop()` and then destroys the members:
`listen_socket_` before `pool_`, whose destructor joins the workers.

The pool is the one of `ThreadPool`, step by step. The task of the `k`-th call of `enqueue` owns
the `k`-th connection; it is destroyed behind its execution, and so is its `SocketHandle`. An
exception in the constructor of `TcpConnection` destroys `socket_`. A call of `enqueue` would
throw on a stopped pool, which this one is not before `run()` has ended. The calls of `stop()`
are those of the destructor: nobody else has the server.

The kernel gives a descriptor that is free. Descriptors are opened and closed in `log`, which is
read only to tell which are free.

## Main definitions

* `TcpServer.createListenSocket`: how far the calls get.
* `TcpServer.Process.step`: the steps of all threads.

## Main results

* `Process.Sound.step`: what every step keeps.
* `closes_every_descriptor_once`: the descriptors of a whole run.
-/

open Transition AllocationLog

namespace LinuxNetwork.TcpServer

open ThreadPool (Pool workerCount)

/-- The exceptions of `createListenSocket()`. -/
inductive SetupThrown where
  /-- `socket() failed` -/
  | socket
  /-- `setsockopt(SO_REUSEADDR) failed` -/
  | setsockopt
  /-- `inet_pton() failed: invalid IP address` -/
  | inetPton
  /-- `bind() failed` -/
  | bind
  /-- `listen() failed` -/
  | listen
  | fcntl (what : Thrown)
deriving DecidableEq, Repr

/-- What the calls of `createListenSocket()` return. -/
structure SetupResults where
  /-- The descriptor, if there is one. -/
  socket : Option ℕ
  setsockopt : Bool
  inetPton : Bool
  bind : Bool
  listen : Bool
  fcntl : FcntlResult
deriving DecidableEq, Repr

/-- The calls behind `socket`. -/
def configure (r : SetupResults) : Except SetupThrown Unit := do
  unless r.setsockopt do throw .setsockopt
  unless r.inetPton do throw .inetPton
  unless r.bind do throw .bind
  unless r.listen do throw .listen
  (setNonBlocking r.fcntl).mapError .fcntl

/-- `createListenSocket()`: the descriptor that `listen_socket_` gets, and how it ends. -/
def createListenSocket (r : SetupResults) : Option ℕ × Except SetupThrown Unit :=
  match r.socket with
  | none => (none, .error .socket)
  | some fd => (some fd, configure r)

/-- Where `main` stands. -/
inductive Stage where
  /-- In `server.run()`. -/
  | running
  /-- In `stop()`, called by the destructor. -/
  | stopping
  /-- In the destructor of `pool_`. -/
  | joining
  | returned
deriving DecidableEq, Repr

/-- The process of the server. -/
structure Process (n : ℕ) where
  loop : Loop
  pool : Pool n
  stage : Stage
  /-- What `main` is going to return. -/
  code : ℕ
  /-- The descriptors of the connections, by the calls of `enqueue`. -/
  fds : List ℕ
  log : List (Event ℤ Unit)

namespace Process

variable {n : ℕ}

/-- The state in which `run()` begins. -/
def new : Process n where
  loop := .new false
  pool := .new
  stage := .running
  code := 0
  fds := []
  log := []

/-- The descriptor of a task. -/
def fd (s : Process n) (k : ℕ) : ℕ :=
  s.fds.getD k 0

/-- The kernel may give this descriptor. -/
def Free (s : Process n) (fd : ℤ) : Prop :=
  0 ≤ fd ∧ s.log.countP (Event.adds fd) = s.log.countP (Event.frees fd)

instance (s : Process n) (fd : ℤ) : Decidable (s.Free fd) :=
  inferInstanceAs (Decidable (_ ∧ _))

/-- The steps of `main` and of the pool. -/
inductive Act (n : ℕ) where
  | setup (results : SetupResults)
  /-- A step of `run()` behind `createListenSocket()`. -/
  | run (a : Loop.Act)
  /-- A signal. -/
  | interrupt
  /-- `run()` has returned or thrown. -/
  | leave
  /-- A step of `stop()`. -/
  | stop (a : Loop.Act)
  /-- The destructor of `listen_socket_`. -/
  | destroyListenSocket
  | pool (a : Pool.Act n)
  | exit
deriving DecidableEq, Repr

/-- What follows `createListenSocket()`. -/
def afterSetup (s : Process n) : Option ℕ × Except SetupThrown Unit → Option (Process n)
  | (some fd, .ok ()) =>
      (s.loop.step (.createListenSocket fd)).map fun loop =>
        { s with loop := loop, log := s.log ++ [.added fd ()] }
  | (some fd, .error _) =>
      some { s with
        loop := { s.loop with listenFd := fd }
        stage := .stopping
        code := 1
        log := s.log ++ [.added fd ()] }
  | (none, _) => some { s with stage := .stopping, code := 1 }

/-- What a step of `run()` does outside of the loop. -/
def effect (s : Process n) : Loop.Act → Option (Process n)
  | .accept (.connection fd) =>
      if s.Free fd then some { s with log := s.log ++ [.added fd ()] } else none
  | .construct fd result =>
      match setNonBlocking result with
      | .ok () => some { s with fds := s.fds ++ [fd] }
      | .error _ => some { s with log := s.log ++ [.deleted fd] }
  | .enqueue _ =>
      if s.pool.caller (s.fds.length - 1) = .returned then some s else none
  | .store | .test | .testSignal | .sleep | .accept .eagain | .accept .error => some s
  | .createListenSocket _ | .exchange | .close | .reset | .interrupt => none

/-- The log behind `::close(fd_)` in a `SocketHandle`. -/
def closeHandle (s : Process n) (fd : ℤ) : List (Event ℤ Unit) :=
  if fd = -1 then s.log else s.log ++ [.deleted fd]

/-- The log behind a step of `stop()`. -/
def logOfStop (s : Process n) : Loop.Act → List (Event ℤ Unit)
  | .close => s.closeHandle s.loop.listenFd
  | _ => s.log

/-- The call of `enqueue` that is under way. -/
def Calls (s : Process n) (k : ℕ) : Prop :=
  s.stage = .running ∧ k + 1 = s.fds.length ∧ s.loop.run = .enqueuing (s.fd k)

instance (s : Process n) (k : ℕ) : Decidable (s.Calls k) :=
  inferInstanceAs (Decidable (_ ∧ _))

/-- Whose step the pool may take. -/
def MayMove (s : Process n) : Pool.Act n → Prop
  | .worker _ | .spurious _ => True
  | .caller k | .notifyOne k _ => s.Calls k
  | .dtor => s.stage = .joining

instance (s : Process n) : ∀ a, Decidable (s.MayMove a)
  | .worker _ | .spurious _ => inferInstanceAs (Decidable True)
  | .caller k | .notifyOne k _ => inferInstanceAs (Decidable (s.Calls k))
  | .dtor => inferInstanceAs (Decidable (_ = _))

/-- The log behind a step of the pool: a task that was executed is destroyed. -/
def logOfPool (s : Process n) : Pool.Act n → List (Event ℤ Unit)
  | .worker i =>
      match s.pool.worker i with
      | .running k => s.log ++ [.deleted (s.fd k)]
      | _ => s.log
  | .spurious _ | .caller _ | .notifyOne _ _ | .dtor => s.log

/-- One step. -/
def step (s : Process n) : Act n → Option (Process n)
  | .setup results =>
      if s.stage = .running ∧ s.loop.run = .creating ∧ ∀ fd ∈ results.socket, s.Free fd then
        s.afterSetup (createListenSocket results)
      else none
  | .run a =>
      if s.stage = .running then
        (s.loop.step a).bind fun loop => (s.effect a).map fun t => { t with loop := loop }
      else none
  | .interrupt => (s.loop.step .interrupt).map fun loop => { s with loop := loop }
  | .leave =>
      if s.stage = .running then
        match s.loop.run with
        | .returned => some { s with stage := .stopping, code := 0 }
        | .threw _ => some { s with stage := .stopping, code := 1 }
        | _ => none
      else none
  | .stop a =>
      if s.stage = .stopping ∧ (a = .exchange ∨ a = .close ∨ a = .reset) then
        (s.loop.step a).map fun loop => { s with loop := loop, log := s.logOfStop a }
      else none
  | .destroyListenSocket =>
      if s.stage = .stopping ∧ s.loop.stop = .returned then
        some { s with
          loop := { s.loop with listenFd := -1 }
          stage := .joining
          log := s.closeHandle s.loop.listenFd }
      else none
  | .pool a =>
      if s.MayMove a then
        (s.pool.step a).map fun pool => { s with pool := pool, log := s.logOfPool a }
      else none
  | .exit =>
      if s.stage = .joining ∧ s.pool.dtor = .done then some { s with stage := .returned }
      else none

end Process

/-- The process, on a machine for which `hardware_concurrency()` is `threadCount`. -/
def process (threadCount : ℕ) :
    System (Process (workerCount threadCount)) (Process.Act (workerCount threadCount)) where
  init := fun s => s = .new
  step := Process.step

/-! ### Who holds a descriptor -/

/-- The tasks that own a descriptor and were not executed yet. -/
def owners (fds : List ℕ) (executed : List ℕ) (d : ℤ) : Finset ℕ :=
  {k ∈ Finset.range fds.length | (fds.getD k 0 : ℤ) = d ∧ k ∉ executed}

variable {fds executed : List ℕ} {d : ℤ} {fd k : ℕ}

/-- The owners of a descriptor are the tasks that were given it and not executed. -/
theorem mem_owners : k ∈ owners fds executed d ↔
    k < fds.length ∧ (fds.getD k 0 : ℤ) = d ∧ k ∉ executed := by
  rw [owners, Finset.mem_filter, Finset.mem_range]

/-- A new task owns its descriptor, and the owners of the others are those before. -/
theorem card_owners_concat (hk : fds.length ∉ executed) (d : ℤ) :
    (owners (fds ++ [fd]) executed d).card =
      (owners fds executed d).card + if d = fd then 1 else 0 := by
  have hold : ∀ k < fds.length, (fds ++ [fd]).getD k 0 = fds.getD k 0 := by
    intro k hk
    simp [List.getD, List.getElem?_append_left hk]
  by_cases hd : d = fd
  · have hinsert : owners (fds ++ [fd]) executed d = insert fds.length (owners fds executed d) := by
      ext k
      rw [Finset.mem_insert, mem_owners, mem_owners, List.length_append, List.length_singleton]
      rcases Nat.lt_trichotomy k fds.length with hlt | rfl | hgt
      · rw [hold k hlt]
        constructor
        · exact fun h => .inr ⟨hlt, h.2⟩
        · exact fun h => ⟨by omega, (h.resolve_left hlt.ne).2⟩
      · simp [hk, hd]
      · constructor
        · exact fun h => absurd h.1 (by omega)
        · rintro (rfl | h)
          · omega
          · omega
    rw [hinsert, Finset.card_insert_of_notMem (fun h => absurd (mem_owners.mp h).1 (by omega)),
      if_pos hd]
  · have hsame : owners (fds ++ [fd]) executed d = owners fds executed d := by
      ext k
      rw [mem_owners, mem_owners, List.length_append, List.length_singleton]
      rcases Nat.lt_trichotomy k fds.length with hlt | rfl | hgt
      · rw [hold k hlt]
        exact ⟨fun h => ⟨hlt, h.2⟩, fun h => ⟨by omega, h.2⟩⟩
      · simp [Ne.symm hd]
      · exact ⟨fun h => absurd h.1 (by omega), fun h => absurd h.1 (by omega)⟩
    rw [hsame, if_neg hd, Nat.add_zero]

/-- A task that was executed gives up its descriptor, and no other owner does. -/
theorem card_owners_executed (hk : k < fds.length) (hex : k ∉ executed) (d : ℤ) :
    (owners fds executed d).card =
      (owners fds (executed ++ [k]) d).card + if d = (fds.getD k 0 : ℕ) then 1 else 0 := by
  have herase : owners fds (executed ++ [k]) d = (owners fds executed d).erase k := by
    ext j
    rw [Finset.mem_erase, mem_owners, mem_owners, List.mem_append, List.mem_singleton]
    tauto
  rw [herase]
  split
  case isTrue hd => rw [Finset.card_erase_add_one (mem_owners.mpr ⟨hk, hd.symm, hex⟩)]
  case isFalse hd =>
    rw [Finset.erase_eq_of_notMem fun h => hd (mem_owners.mp h).2.1.symm, Nat.add_zero]

namespace Process

variable {n : ℕ}

/-- What `listen_socket_` holds. -/
def listens (s : Process n) (d : ℤ) : ℕ :=
  if s.loop.listenFd = d ∧ d ≠ -1 ∧ s.loop.stop ≠ .resetting then 1 else 0

/-- What the temporary `TcpConnection` in `run()` holds. -/
def constructs (s : Process n) (d : ℤ) : ℕ :=
  match s.loop.run with
  | .constructing fd => if d = fd then 1 else 0
  | _ => 0

/-- **How many objects hold a descriptor.** -/
def held (s : Process n) (d : ℤ) : ℕ :=
  s.listens d + s.constructs d + (owners s.fds s.pool.executed d).card

/-- Outside of the constructor of a connection, `run()` holds no descriptor of its own. -/
theorem constructs_of_ne {s : Process n} (hpc : ∀ fd, s.loop.run ≠ .constructing fd) (d : ℤ) :
    s.constructs d = 0 := by
  rw [constructs]
  split
  case h_1 fd heq => exact absurd heq (hpc fd)
  case h_2 => rfl

/-- In the constructor of a connection, `run()` holds the one that `accept` returned. -/
theorem constructs_of_eq {s : Process n} {fd : ℕ} (hpc : s.loop.run = .constructing fd) (d : ℤ) :
    s.constructs d = if d = fd then 1 else 0 := by
  rw [constructs, hpc]

/-- What `listen_socket_` holds depends on the handle and on `stop()`, and not on `run()`. -/
theorem listens_congr {s t : Process n} (hfd : t.loop.listenFd = s.loop.listenFd)
    (hstop : t.loop.stop = s.loop.stop) (d : ℤ) : t.listens d = s.listens d := by
  rw [listens, listens, hfd, hstop]

/-- **The invariant** of the process. -/
structure Sound {threadCount : ℕ} (s : Process (workerCount threadCount)) : Prop where
  pool : (ThreadPool.pool threadCount).Reachable s.pool
  /-- Every descriptor was closed as often as it was opened, up to those that are held. -/
  log : Balanced (fun _ => 0) s.log s.held
  unborn : ∀ k, s.fds.length ≤ k → s.pool.caller k = .start
  /-- Every call of `enqueue` but the last has returned. -/
  returned : ∀ k < s.fds.length, s.pool.caller k = .returned ∨ s.Calls k
  fresh : s.stage = .running → s.loop.stop = .start
  creating : s.stage = .running → s.loop.run = .creating → s.loop.listenFd = -1
  looping : s.stage = .running →
    s.loop.run = .creating ∨ s.loop.run = .storing ∨ s.loop.running = true
  terminated : s.loop.run = .returned → s.loop.terminate = true
  ended : s.stage ≠ .running → ∀ fd, s.loop.run ≠ .constructing fd
  code : s.stage ≠ .running → (s.code = 0 ↔ s.loop.run = .returned)
  unjoined : s.stage = .running ∨ s.stage = .stopping → s.pool.dtor = .start
  stopped : s.stage = .joining ∨ s.stage = .returned → s.loop.listenFd = -1
  joined : s.stage = .returned → s.pool.dtor = .done

variable {threadCount : ℕ} {s t : Process (workerCount threadCount)}

/-- The process begins with nothing opened, nothing enqueued and nothing held. -/
theorem sound_new : (new : Process (workerCount threadCount)).Sound where
  pool := .init rfl
  log := by
    have hheld : (new : Process (workerCount threadCount)).held = fun _ => 0 := by
      funext d
      have hlistens : (new : Process (workerCount threadCount)).listens d = 0 :=
        if_neg fun h => h.2.1 h.1.symm
      rw [held, hlistens]
      rfl
    rw [hheld]
    exact balanced_nil fun _ => Nat.zero_le 1
  unborn := fun _ _ => rfl
  returned := nofun
  fresh := fun _ => rfl
  creating := fun _ _ => rfl
  looping := fun _ => .inl rfl
  terminated := nofun
  ended := fun _ => nofun
  code := fun h => absurd rfl h
  unjoined := fun _ => rfl
  stopped := nofun
  joined := nofun

/-- What a closing handle held is closed and held no more. An empty handle closes nothing. -/
theorem balanced_closeHandle {held held' : ℤ → ℕ} {fd : ℤ}
    (h : Balanced (fun _ => 0) s.log held)
    (hheld : ∀ d, held d = held' d + if d = fd ∧ d ≠ -1 then 1 else 0) :
    Balanced (fun _ => 0) (s.closeHandle fd) held' := by
  rw [closeHandle]
  split
  case isTrue hfd =>
    have hsame : held = held' := by
      funext d
      rw [hheld, if_neg fun h => h.2 (h.1.trans hfd), Nat.add_zero]
    exact hsame ▸ h
  case isFalse hfd =>
    refine h.concat_deleted fun d => ?_
    rw [hheld]
    by_cases hd : d = fd
    · rw [if_pos ⟨hd, hd ▸ hfd⟩, if_pos hd]
    · rw [if_neg fun h => hd h.1, if_neg hd]

/-- A task that is being executed owns its descriptor, since it was enqueued and has not been
executed. -/
theorem Sound.running (h : s.Sound) {i : Fin (workerCount threadCount)} {k : ℕ}
    (hpc : s.pool.worker i = .running k) : k < s.fds.length ∧ k ∉ s.pool.executed := by
  have hist := ThreadPool.history h.pool
  obtain ⟨htaken, hex⟩ := hist.running i k hpc
  refine ⟨?_, hex⟩
  by_contra hk
  have hpushed : k ∈ s.pool.pushed := by
    rw [hist.queue]
    exact List.mem_append_left _ (List.mem_map.mpr ⟨(i, k), htaken, rfl⟩)
  have hcall := (hist.calls k).mp hpushed
  rw [h.unborn k (not_lt.mp hk)] at hcall
  cases hcall

/-- **The pool takes a step.** When a task ends it is destroyed, and its descriptor closed; the
other steps change no owner. -/
theorem Sound.pool_step (h : s.Sound) {a : Pool.Act (workerCount threadCount)}
    (hmay : s.MayMove a) {p : Pool (workerCount threadCount)} (hstep : s.pool.step a = some p) :
    Sound { s with pool := p, log := s.logOfPool a } := by
  have hreach : (ThreadPool.pool threadCount).Reachable p := h.pool.step hstep
  have hcaller : ∀ k, ¬ s.Calls k → p.caller k = s.pool.caller k := by
    intro k hk
    refine Pool.caller_of_step (K := {j | s.Calls j}) ?_ hstep hk
    cases a with
    | caller j | notifyOne j => exact hmay
    | worker | spurious | dtor => trivial
  have hdtor : s.stage ≠ .joining → p.dtor = s.pool.dtor := by
    intro hstage
    refine Pool.dtor_of_step ?_ hstep
    rintro rfl
    exact hstage hmay
  refine ⟨hreach, ?_, fun k hk => ?_, fun k hk => ?_, h.fresh, h.creating, h.looping,
    h.terminated, h.ended, h.code, fun hstage => ?_, h.stopped, fun hstage => ?_⟩
  · rcases Pool.executed_of_step hstep with ⟨i, k, rfl, hpc, hex⟩ | ⟨hex, hne⟩
    · obtain ⟨hk, hnew⟩ := h.running hpc
      have hlog : s.logOfPool (.worker i) = s.log ++ [.deleted (s.fd k)] := by
        rw [logOfPool, hpc]
      rw [hlog]
      refine h.log.concat_deleted fun d => ?_
      change s.listens d + s.constructs d + (owners s.fds s.pool.executed d).card =
        s.listens d + s.constructs d + (owners s.fds p.executed d).card + _
      rw [hex, card_owners_executed hk hnew d, ← Nat.add_assoc]
      rfl
    · have hlog : s.logOfPool a = s.log := by
        cases a with
        | worker i =>
            rw [logOfPool]
            split
            case h_1 k hpc => exact absurd hpc (hne i k rfl)
            case h_2 => rfl
        | spurious | caller | notifyOne | dtor => rfl
      have hheld : held { s with pool := p, log := s.logOfPool a } = s.held := by
        funext d
        change s.listens d + s.constructs d + (owners s.fds p.executed d).card = s.held d
        rw [hex]
        rfl
      rw [hheld, hlog]
      exact h.log
  · rw [← h.unborn k hk]
    refine hcaller k fun hcalls => ?_
    have hlen : k + 1 = s.fds.length := hcalls.2.1
    have hge : s.fds.length ≤ k := hk
    omega
  · by_cases hcalls : s.Calls k
    · exact .inr hcalls
    · exact .inl ((hcaller k hcalls).trans ((h.returned k hk).resolve_right hcalls))
  · rw [← h.unjoined hstage]
    exact hdtor (by rcases hstage with hstage | hstage <;> rw [hstage] <;> nofun)
  · rw [← h.joined hstage]
    exact hdtor (by rw [show s.stage = _ from hstage]; nofun)

/-- Outside of `enqueue`, all calls of it have returned, since `run()` makes one at a time. -/
theorem Sound.all_returned (h : s.Sound) (hpc : ∀ fd, s.loop.run ≠ .enqueuing fd) :
    ∀ k < s.fds.length, s.pool.caller k = .returned :=
  fun k hk => (h.returned k hk).resolve_right fun hcalls => hpc _ hcalls.2.2

/-- A task that is still to be enqueued was not executed. -/
theorem Sound.length_notMem (h : s.Sound) : s.fds.length ∉ s.pool.executed := by
  intro hex
  have hist := ThreadPool.history h.pool
  have hpushed : s.fds.length ∈ s.pool.pushed := by
    rw [hist.queue]
    exact List.mem_append_left _ (hist.executed _ hex)
  have hcall := (hist.calls _).mp hpushed
  rw [h.unborn _ (Nat.le_refl _)] at hcall
  cases hcall

/-- **`main` moves on in `run()`**, behind `createListenSocket()`. What the step does to the
descriptors and the callers is left to the hypotheses. -/
theorem Sound.move (h : s.Sound) (hstage : s.stage = .running) (hstage' : t.stage = .running)
    (hpool : t.pool = s.pool) (hstop : t.loop.stop = s.loop.stop)
    (hpc : t.loop.run ≠ .creating) (hrunning : t.loop.run = .storing ∨ t.loop.running = true)
    (hterminate : t.loop.run = .returned → t.loop.terminate = true)
    (hlog : Balanced (fun _ => 0) t.log t.held)
    (hunborn : ∀ k, t.fds.length ≤ k → s.pool.caller k = .start)
    (hreturned : ∀ k < t.fds.length, s.pool.caller k = .returned ∨ t.Calls k) : t.Sound where
  pool := hpool ▸ h.pool
  log := hlog
  unborn := hpool ▸ hunborn
  returned := hpool ▸ hreturned
  fresh := fun _ => hstop.trans (h.fresh hstage)
  creating := fun _ heq => absurd heq hpc
  looping := fun _ => .inr hrunning
  terminated := hterminate
  ended := fun hne => absurd hstage' hne
  code := fun hne => absurd hstage' hne
  unjoined := fun _ => hpool ▸ h.unjoined (.inl hstage)
  stopped := by rw [hstage']; nofun
  joined := by rw [hstage']; nofun

/-- `run()` moves on and no descriptor changes hands, nor does a call of `enqueue` begin or end. -/
theorem Sound.quiet (h : s.Sound) (hstage : s.stage = .running) {loop : Loop}
    (hfd : loop.listenFd = s.loop.listenFd) (hstop : loop.stop = s.loop.stop)
    (hs : ∀ fd, s.loop.run ≠ .constructing fd) (hloop : ∀ fd, loop.run ≠ .constructing fd)
    (hpc : loop.run ≠ .creating) (hrunning : loop.run = .storing ∨ loop.running = true)
    (hterminate : loop.run = .returned → loop.terminate = true)
    (hall : ∀ k < s.fds.length, s.pool.caller k = .returned) :
    Sound { s with loop := loop } := by
  refine h.move hstage hstage rfl hstop hpc hrunning hterminate ?_ h.unborn
    fun k hk => .inl (hall k hk)
  have hheld : held { s with loop := loop } = s.held := by
    funext d
    rw [held, held, listens_congr hfd hstop, constructs_of_ne hloop, constructs_of_ne hs]
  rw [hheld]
  exact h.log

/-- **`run()` takes a step.** `accept` opens a descriptor, the constructor moves it into the
task or closes it, and the other steps are quiet. -/
theorem Sound.run_step (h : s.Sound) (hstage : s.stage = .running) {a : Loop.Act}
    {u : Process (workerCount threadCount)} {loop : Loop} (hloop : s.loop.step a = some loop)
    (heffect : s.effect a = some u) : Sound { u with loop := loop } := by
  have hlooping := h.looping hstage
  cases a with
  | createListenSocket | exchange | close | reset | interrupt => cases heffect
  | store =>
      obtain ⟨hpc, heq⟩ := Option.ite_none_right_eq_some.mp hloop
      obtain rfl := Option.some.inj heq
      obtain rfl := Option.some.inj heffect
      exact h.quiet hstage rfl rfl (by simp [hpc]) nofun nofun (.inr rfl) nofun
        (h.all_returned (by simp [hpc]))
  | test =>
      obtain ⟨hpc, heq⟩ := Option.ite_none_right_eq_some.mp hloop
      obtain rfl := Option.some.inj heq
      obtain rfl := Option.some.inj heffect
      have hrunning : s.loop.running = true := by simpa [hpc] using hlooping
      rw [if_pos hrunning]
      exact h.quiet hstage rfl rfl (by simp [hpc]) nofun nofun (.inr hrunning) nofun
        (h.all_returned (by simp [hpc]))
  | testSignal =>
      obtain ⟨hpc, heq⟩ := Option.ite_none_right_eq_some.mp hloop
      obtain rfl := Option.some.inj heffect
      have hrunning : s.loop.running = true := by simpa [hpc] using hlooping
      have hall := h.all_returned (by simp [hpc])
      split at heq
      case isTrue hterminate =>
        obtain rfl := Option.some.inj heq
        exact h.quiet hstage rfl rfl (by simp [hpc]) nofun nofun (.inr hrunning)
          (fun _ => hterminate) hall
      case isFalse =>
        obtain rfl := Option.some.inj heq
        exact h.quiet hstage rfl rfl (by simp [hpc]) nofun nofun (.inr hrunning) nofun hall
  | sleep =>
      obtain ⟨hpc, heq⟩ := Option.ite_none_right_eq_some.mp hloop
      obtain rfl := Option.some.inj heq
      obtain rfl := Option.some.inj heffect
      have hrunning : s.loop.running = true := by simpa [hpc] using hlooping
      exact h.quiet hstage rfl rfl (by simp [hpc]) nofun nofun (.inr hrunning) nofun
        (h.all_returned (by simp [hpc]))
  | enqueue client =>
      obtain ⟨hpc, heq⟩ := Option.ite_none_right_eq_some.mp hloop
      obtain rfl := Option.some.inj heq
      obtain ⟨hlast, heq⟩ := Option.ite_none_right_eq_some.mp heffect
      obtain rfl := Option.some.inj heq
      have hrunning : s.loop.running = true := by simpa [hpc] using hlooping
      refine h.quiet hstage rfl rfl (by simp [hpc]) nofun nofun (.inr hrunning) nofun fun k hk => ?_
      rcases h.returned k hk with hk' | hcalls
      · exact hk'
      · have hklast : k = s.fds.length - 1 := by
          have := hcalls.2.1
          omega
        rw [hklast]
        exact hlast
  | accept result =>
      obtain ⟨hpc, heq⟩ := Option.ite_none_right_eq_some.mp hloop
      obtain rfl := Option.some.inj heq
      have hrunning : s.loop.running = true := by simpa [hpc] using hlooping
      have hall := h.all_returned (by simp [hpc])
      cases result with
      | connection client =>
          obtain ⟨hfree, heq⟩ := Option.ite_none_right_eq_some.mp heffect
          obtain rfl := Option.some.inj heq
          refine h.move hstage hstage rfl rfl nofun (.inr hrunning) nofun ?_ h.unborn
            fun k hk => .inl (hall k hk)
          refine h.log.concat_added (h.log.eq_zero hfree.2) () fun d => ?_
          change s.listens d + (if d = client then 1 else 0) +
            (owners s.fds s.pool.executed d).card = s.held d + _
          rw [held, constructs_of_ne (by simp [hpc])]
          omega
      | eagain =>
          obtain rfl := Option.some.inj heffect
          exact h.quiet hstage rfl rfl (by simp [hpc]) nofun nofun (.inr hrunning) nofun hall
      | error =>
          obtain rfl := Option.some.inj heffect
          exact h.quiet hstage rfl rfl (by simp [hpc]) nofun nofun (.inr hrunning) nofun hall
  | construct client result =>
      obtain ⟨hpc, heq⟩ := Option.ite_none_right_eq_some.mp hloop
      obtain rfl := Option.some.inj heq
      have hrunning : s.loop.running = true := by simpa [hpc] using hlooping
      have hall := h.all_returned (by simp [hpc])
      rw [effect] at heffect
      split at heffect
      case h_1 hok =>
        obtain rfl := Option.some.inj heffect
        rw [hok]
        refine h.move hstage hstage rfl rfl nofun (.inr hrunning) nofun ?_ (fun k hk => ?_)
          fun k hk => ?_
        · convert h.log using 1
          funext d
          change s.listens d + 0 + (owners (s.fds ++ [client]) s.pool.executed d).card = s.held d
          rw [card_owners_concat h.length_notMem, held, constructs_of_eq hpc]
          omega
        · have hlen : s.fds.length + 1 ≤ k := by simpa using hk
          exact h.unborn k (by omega)
        · have hlen : k < s.fds.length + 1 := by simpa using hk
          by_cases hlt : k < s.fds.length
          · exact .inl (hall k hlt)
          · obtain rfl : k = s.fds.length := by omega
            refine .inr ⟨hstage, by simp, ?_⟩
            simp [Process.fd, afterConstruct]
      case h_2 what herror =>
        obtain rfl := Option.some.inj heffect
        rw [herror]
        refine h.move hstage hstage rfl rfl (by simp [afterConstruct]) (.inr hrunning)
          (by simp [afterConstruct]) ?_ h.unborn
          fun k hk => .inl (hall k hk)
        refine h.log.concat_deleted fun d => ?_
        change s.held d = s.listens d + 0 + (owners s.fds s.pool.executed d).card + _
        rw [held, constructs_of_eq hpc]
        omega

/-- **`main` leaves `run()`**, by its return or by an exception, and has the exit code that goes
with it. -/
theorem Sound.leave (h : s.Sound) (hstage : s.stage = .running) {code : ℕ}
    (hconstruct : ∀ fd, s.loop.run ≠ .constructing fd) (henqueue : ∀ fd, s.loop.run ≠ .enqueuing fd)
    (hcode : code = 0 ↔ s.loop.run = .returned) :
    Sound { s with stage := .stopping, code := code } where
  pool := h.pool
  log := h.log
  unborn := h.unborn
  returned := fun k hk => .inl (h.all_returned henqueue k hk)
  fresh := nofun
  creating := nofun
  looping := nofun
  terminated := h.terminated
  ended := fun _ => hconstruct
  code := fun _ => hcode
  unjoined := fun _ => h.unjoined (.inl hstage)
  stopped := nofun
  joined := nofun

/-- **The listening socket is created**, or an exception is thrown, and `listen_socket_` keeps
what was opened for its destructor to close. -/
theorem Sound.setup (h : s.Sound) (hstage : s.stage = .running) (hpc : s.loop.run = .creating)
    {results : SetupResults} (hfree : ∀ fd ∈ results.socket, s.Free fd)
    (hstep : s.afterSetup (createListenSocket results) = some t) : t.Sound := by
  have hall := h.all_returned (by simp [hpc])
  have hleave : Sound { s with stage := .stopping, code := 1 } :=
    h.leave hstage (by simp [hpc]) (by simp [hpc]) (by simp [hpc])
  rw [createListenSocket] at hstep
  cases hsocket : results.socket with
  | none =>
      rw [hsocket] at hstep
      obtain rfl := Option.some.inj hstep
      exact hleave
  | some client =>
      rw [hsocket] at hstep
      obtain ⟨hnonneg, hfree⟩ := hfree client hsocket
      have hempty : ∀ d, s.listens d = 0 := by
        intro d
        rw [listens, h.creating hstage hpc]
        exact if_neg fun hd => hd.2.1 hd.1.symm
      have hlisten : ∀ d : ℤ, (if (client : ℤ) = d ∧ d ≠ -1 ∧ s.loop.stop ≠ .resetting then 1
          else 0) = if d = (client : ℤ) then 1 else 0 := by
        intro d
        have hne : (client : ℤ) ≠ -1 := by omega
        by_cases hd : d = client
        · subst hd
          simp [hne, h.fresh hstage]
        · rw [if_neg hd, if_neg fun hand => hd hand.1.symm]
      cases hconfigure : configure results with
      | ok =>
          rw [hconfigure] at hstep
          obtain ⟨loop, hloop, rfl⟩ := Option.map_eq_some_iff.mp hstep
          obtain ⟨-, heq⟩ := Option.ite_none_right_eq_some.mp hloop
          obtain rfl := Option.some.inj heq
          refine h.move hstage hstage rfl rfl nofun (.inl rfl) nofun ?_ h.unborn
            fun k hk => .inl (hall k hk)
          refine h.log.concat_added (h.log.eq_zero hfree) () fun d => ?_
          change (if (client : ℤ) = d ∧ d ≠ -1 ∧ s.loop.stop ≠ .resetting then 1 else 0) + 0 +
            (owners s.fds s.pool.executed d).card = s.held d + _
          rw [hlisten, held, hempty, constructs_of_ne (by simp [hpc])]
          omega
      | error what =>
          rw [hconfigure] at hstep
          obtain rfl := Option.some.inj hstep
          refine { hleave with log := ?_, creating := nofun, stopped := nofun }
          refine h.log.concat_added (h.log.eq_zero hfree) () fun d => ?_
          change (if (client : ℤ) = d ∧ d ≠ -1 ∧ s.loop.stop ≠ .resetting then 1 else 0) +
            s.constructs d + (owners s.fds s.pool.executed d).card = s.held d + _
          rw [hlisten, held, hempty]
          omega

/-- The destructor of the server goes on, with the log that it has written so far. -/
theorem Sound.unwind (h : s.Sound) (hstage : s.stage = .stopping) {loop : Loop} {stage : Stage}
    (hrun : loop.run = s.loop.run) (hterminate : loop.terminate = s.loop.terminate)
    (hstage' : stage = .stopping ∨ stage = .joining ∧ loop.listenFd = -1) {log}
    (hlog : Balanced (fun _ => 0) log (held { s with loop := loop, stage := stage, log := log })) :
    Sound { s with loop := loop, stage := stage, log := log } := by
  have hended : s.stage ≠ .running := by rw [hstage]; nofun
  have hne : stage ≠ .running := by rcases hstage' with rfl | ⟨rfl, -⟩ <;> nofun
  refine ⟨h.pool, hlog, h.unborn, fun k hk => ?_, fun heq => absurd heq hne,
    fun heq => absurd heq hne, fun heq => absurd heq hne, ?_, fun _ => ?_, fun _ => ?_,
    fun _ => h.unjoined (.inr hstage), fun hclosed => ?_, fun hdone => ?_⟩
  · exact .inl ((h.returned k hk).resolve_right fun hcalls => hended hcalls.1)
  · rw [hrun, hterminate]
    exact h.terminated
  · rw [hrun]
    exact h.ended hended
  · rw [hrun]
    exact h.code hended
  · rcases hstage' with rfl | ⟨-, hfd⟩
    · rcases hclosed with hclosed | hclosed <;> cases hclosed
    · exact hfd
  · rcases hstage' with rfl | ⟨rfl, -⟩ <;> cases hdone

/-- A handle that is not being reset holds its descriptor, if it has one. -/
theorem listens_of_ne {n : ℕ} {s : Process n} (hstop : s.loop.stop ≠ .resetting) (d : ℤ) :
    s.listens d = if d = s.loop.listenFd ∧ d ≠ -1 then 1 else 0 := by
  rw [listens]
  simp [hstop, eq_comm]

/-- A handle that is empty, or that `stop()` has closed and not yet reset, holds nothing. -/
theorem listens_of_eq {n : ℕ} {s : Process n}
    (hgone : s.loop.listenFd = -1 ∨ s.loop.stop = .resetting) (d : ℤ) : s.listens d = 0 := by
  rw [listens]
  refine if_neg fun ⟨hd, hne, hstop⟩ => ?_
  exact hgone.elim (fun hfd => hne (hd ▸ hfd)) hstop

/-- **`stop()` takes a step.** Its `close` writes the log, and the assignment behind it empties
the handle. -/
theorem Sound.stop_step (h : s.Sound) (hstage : s.stage = .stopping) {a : Loop.Act} {loop : Loop}
    (ha : a = .exchange ∨ a = .close ∨ a = .reset) (hloop : s.loop.step a = some loop) :
    Sound { s with loop := loop, log := s.logOfStop a } := by
  rcases ha with rfl | rfl | rfl
  · obtain ⟨hstart, heq⟩ := Option.ite_none_right_eq_some.mp hloop
    obtain rfl := Option.some.inj heq
    refine h.unwind hstage ?_ ?_ (.inl hstage) ?_
    · rfl
    · rfl
    · convert h.log using 1
      · rfl
      · funext d
        rw [held, held, listens_of_ne (by dsimp only; split <;> nofun),
          listens_of_ne (s := s) (by rw [hstart]; nofun)]
        rfl
  · obtain ⟨hclosing, heq⟩ := Option.ite_none_right_eq_some.mp hloop
    have hclose : loop.run = s.loop.run ∧ loop.terminate = s.loop.terminate ∧
        loop.stop = .resetting := by
      split at heq
      all_goals
        obtain rfl := Option.some.inj heq
        exact ⟨rfl, rfl, rfl⟩
    obtain ⟨hrun, hterminate, hresetting⟩ := hclose
    refine h.unwind hstage hrun hterminate (.inl hstage) (balanced_closeHandle h.log fun d => ?_)
    rw [held, held, listens_of_ne (s := s) (by rw [hclosing]; nofun),
      listens_of_eq (.inr hresetting), constructs, constructs, hrun]
    dsimp only
    omega
  · obtain ⟨hresetting, heq⟩ := Option.ite_none_right_eq_some.mp hloop
    obtain rfl := Option.some.inj heq
    refine h.unwind hstage ?_ ?_ (.inl hstage) ?_
    · rfl
    · rfl
    · convert h.log using 1
      · rfl
      · funext d
        rw [held, held, listens_of_eq (.inl rfl), listens_of_eq (.inr hresetting)]
        rfl

/-- **The destructor of `listen_socket_`** closes it, unless `stop()` did. -/
theorem Sound.destroy (h : s.Sound) (hstage : s.stage = .stopping)
    (hstop : s.loop.stop = .returned) :
    Sound { s with
      loop := { s.loop with listenFd := -1 }
      stage := .joining
      log := s.closeHandle s.loop.listenFd } := by
  refine h.unwind hstage ?_ ?_ (.inr ⟨rfl, rfl⟩) (balanced_closeHandle h.log fun d => ?_)
  · rfl
  · rfl
  · change s.held d =
      (if (-1 : ℤ) = d ∧ d ≠ -1 ∧ s.loop.stop ≠ .resetting then 1 else 0) + s.constructs d +
        (owners s.fds s.pool.executed d).card + _
    rw [if_neg fun hd => hd.2.1 hd.1.symm, held, listens_of_ne (by rw [hstop]; nofun)]
    omega

/-- **Every step keeps the invariant.** Cases on who takes it: `main` in its three stages, the
pool, or the signal. -/
theorem Sound.step (h : s.Sound) {a : Act (workerCount threadCount)}
    (hstep : s.step a = some t) : t.Sound := by
  cases a with
  | setup results =>
      obtain ⟨⟨hstage, hpc, hfree⟩, hstep⟩ := Option.ite_none_right_eq_some.mp hstep
      exact h.setup hstage hpc hfree hstep
  | run a =>
      obtain ⟨hstage, hstep⟩ := Option.ite_none_right_eq_some.mp hstep
      obtain ⟨loop, hloop, hstep⟩ := Option.bind_eq_some_iff.mp hstep
      obtain ⟨u, heffect, rfl⟩ := Option.map_eq_some_iff.mp hstep
      exact h.run_step hstage hloop heffect
  | interrupt =>
      obtain ⟨loop, hloop, rfl⟩ := Option.map_eq_some_iff.mp hstep
      obtain ⟨-, heq⟩ := Option.ite_none_right_eq_some.mp hloop
      obtain rfl := Option.some.inj heq
      exact ⟨h.pool, h.log, h.unborn, h.returned, h.fresh, h.creating, h.looping, fun _ => rfl,
        h.ended, h.code, h.unjoined, h.stopped, h.joined⟩
  | leave =>
      obtain ⟨hstage, hstep⟩ := Option.ite_none_right_eq_some.mp hstep
      split at hstep
      case h_1 hpc =>
        obtain rfl := Option.some.inj hstep
        exact h.leave hstage (by simp [hpc]) (by simp [hpc]) (by simp [hpc])
      case h_2 what hpc =>
        obtain rfl := Option.some.inj hstep
        exact h.leave hstage (by simp [hpc]) (by simp [hpc]) (by simp [hpc])
      case h_3 => cases hstep
  | stop a =>
      obtain ⟨⟨hstage, ha⟩, hstep⟩ := Option.ite_none_right_eq_some.mp hstep
      obtain ⟨loop, hloop, rfl⟩ := Option.map_eq_some_iff.mp hstep
      exact h.stop_step hstage ha hloop
  | destroyListenSocket =>
      obtain ⟨⟨hstage, hstop⟩, hstep⟩ := Option.ite_none_right_eq_some.mp hstep
      obtain rfl := Option.some.inj hstep
      exact h.destroy hstage hstop
  | pool a =>
      obtain ⟨hmay, hstep⟩ := Option.ite_none_right_eq_some.mp hstep
      obtain ⟨p, hp, rfl⟩ := Option.map_eq_some_iff.mp hstep
      exact h.pool_step hmay hp
  | exit =>
      obtain ⟨⟨hstage, hdone⟩, hstep⟩ := Option.ite_none_right_eq_some.mp hstep
      obtain rfl := Option.some.inj hstep
      have hended : s.stage ≠ .running := by rw [hstage]; nofun
      exact ⟨h.pool, h.log, h.unborn,
        fun k hk => .inl ((h.returned k hk).resolve_right fun hcalls => hended hcalls.1), nofun,
        nofun, nofun, h.terminated, fun _ => h.ended hended, fun _ => h.code hended,
        (by rintro (hstage' | hstage') <;> cases hstage'),
        fun _ => h.stopped (.inl hstage), fun _ => hdone⟩

/-- The invariant holds in every run of the process, by induction on its steps. -/
theorem sound (h : (process threadCount).Reachable s) : s.Sound := by
  refine System.Inductive.holds ⟨?_, fun _ _ _ hs _ hstep => hs.step hstep⟩ h
  rintro _ rfl
  exact sound_new

/-- When the pool is joined, every task was executed, since the destructor waits for the workers
and they leave no task behind. -/
theorem Sound.executed_perm (h : s.Sound) (hstage : s.stage = .returned) :
    s.pool.executed.Perm (List.range s.fds.length) := by
  have hist := ThreadPool.history h.pool
  have hw : ∀ i, s.pool.worker i = .exited := fun i =>
    ThreadPool.exited_of_joined h.pool i (by rw [h.joined hstage]; trivial)
  have htasks : s.pool.tasks = [] :=
    ((ThreadPool.assertions h.pool).fits (hw ⟨0, ThreadPool.workerCount_pos threadCount⟩)).2
  have hbusy : ∀ i k, s.pool.worker i ≠ .running k := fun i k hi => nomatch hi.symm.trans (hw i)
  refine (hist.executed_perm htasks hbusy).trans
    ((List.perm_ext_iff_of_nodup hist.nodup List.nodup_range).mpr fun k => ?_)
  rw [hist.calls, List.mem_range]
  constructor
  · intro hpushed
    by_contra hk
    rw [h.unborn k (not_lt.mp hk)] at hpushed
    cases hpushed
  · intro hk
    have hreturned := (h.returned k hk).resolve_right fun hcalls =>
      absurd (hstage.symm.trans hcalls.1) nofun
    rw [hreturned]
    rfl

/-- When `main` returns, nobody holds a descriptor: the handle is empty, `run()` is over and
every task is destroyed. -/
theorem Sound.held_eq_zero (h : s.Sound) (hstage : s.stage = .returned) (d : ℤ) : s.held d = 0 := by
  have hended : s.stage ≠ .running := by rw [hstage]; nofun
  have howners : owners s.fds s.pool.executed d = ∅ := by
    refine Finset.eq_empty_of_forall_notMem fun k hk => ?_
    obtain ⟨hlt, -, hex⟩ := mem_owners.mp hk
    exact hex ((h.executed_perm hstage).mem_iff.mpr (List.mem_range.mpr hlt))
  rw [held, listens_of_eq (.inl (h.stopped (.inr hstage))), constructs_of_ne (h.ended hended),
    howners, Finset.card_empty]

/-- A task that is being executed is the only holder of its descriptor, since the log has it
open once. -/
theorem Sound.eq_of_fd (h : s.Sound) {i j : Fin (workerCount threadCount)} {k m : ℕ}
    (hi : s.pool.worker i = .running k) (hj : s.pool.worker j = .running m)
    (hfd : s.fd m = s.fd k) : m = k := by
  obtain ⟨hk, hkex⟩ := h.running hi
  obtain ⟨hm, hmex⟩ := h.running hj
  have hle := h.log.le_one (s.fd k)
  have hcard : (owners s.fds s.pool.executed (s.fd k)).card ≤ 1 := by
    rw [held] at hle
    omega
  exact Finset.card_le_one.mp hcard m (mem_owners.mpr ⟨hm, congrArg Nat.cast hfd, hmex⟩) k
    (mem_owners.mpr ⟨hk, rfl, hkex⟩)

end Process

variable {threadCount : ℕ} {s : Process (workerCount threadCount)}

/-- **Every descriptor is closed once.** In every run of the process, whatever the calls of
`createListenSocket`, `accept` and `fcntl` return, whatever the order of the steps of `main` and
the workers, and whenever a signal comes: a descriptor is closed only while an object holds it,
and as often as it was opened when `main` returns, when no descriptor is left. Until its task is
executed a connection has a descriptor of its own, though the kernel uses numbers again, and
`main` returns only when every connection was served. It returns 0 exactly when `run()`
returned, which takes a signal. -/
theorem closes_every_descriptor_once (h : (process threadCount).Reachable s) :
    Balanced (fun _ => 0) s.log s.held ∧
      (∀ i k, s.pool.worker i = .running k →
        s.held (s.fd k) = 1 ∧
          ∀ j m, s.pool.worker j = .running m → s.fd m = s.fd k → m = k ∧ j = i) ∧
      (s.stage = .returned →
        (∀ d, s.held d = 0) ∧ s.pool.executed.Perm (List.range s.fds.length) ∧
          (s.code = 0 ↔ s.loop.run = .returned) ∧
          (s.code = 0 → s.loop.terminate = true)) := by
  have hs := Process.sound h
  refine ⟨hs.log, fun i k hi => ⟨?_, fun j m hj hfd => ?_⟩, fun hstage => ?_⟩
  · obtain ⟨hk, hex⟩ := hs.running hi
    have hle := hs.log.le_one (s.fd k)
    have hpos : 0 < (owners s.fds s.pool.executed (s.fd k)).card :=
      Finset.card_pos.mpr ⟨k, mem_owners.mpr ⟨hk, rfl, hex⟩⟩
    rw [Process.held] at hle ⊢
    omega
  · obtain rfl := hs.eq_of_fd hi hj hfd
    refine ⟨rfl, ?_⟩
    have hist := ThreadPool.history hs.pool
    exact hist.taken_once (hist.running j m hj).1 (hist.running i m hi).1
  · have hended : s.stage ≠ .running := by rw [hstage]; nofun
    have hcode := hs.code hended
    exact ⟨hs.held_eq_zero hstage, hs.executed_perm hstage, hcode,
      fun hzero => hs.terminated (hcode.mp hzero)⟩

/-- The only worker serves two connections, which have the same descriptor, one after the other;
a signal ends the process. -/
theorem closes_every_descriptor_once_example :
    ∃ s : Process (workerCount 1), s.fds = [4, 4] ∧ s.code = 0 ∧
      Balanced (fun _ => 0) s.log s.held ∧ ∀ d, s.held d = 0 := by
  have hrun : (((process 1).runWhile (fun _ _ => True) .new
      ([.setup ⟨some 3, true, true, true, true, .done⟩, .run .store,
          .run .test, .run .testSignal, .run (.accept (.connection 4)), .run (.construct 4 .done),
          .pool (.caller 0), .pool (.caller 0), .pool (.caller 0), .pool (.notifyOne 0 none),
          .run (.enqueue 4)] ++
        List.replicate 6 (.pool (.worker ⟨0, by decide⟩)) ++
        [.run .test, .run .testSignal, .run (.accept (.connection 4)), .run (.construct 4 .done),
          .pool (.caller 1), .pool (.caller 1), .pool (.caller 1), .pool (.notifyOne 1 none),
          .run (.enqueue 4), .interrupt, .run .test, .run .testSignal, .leave, .stop .exchange,
          .stop .close, .stop .reset, .destroyListenSocket, .pool .dtor, .pool .dtor] ++
        List.replicate 10 (.pool (.worker ⟨0, by decide⟩)) ++
        [.pool .dtor, .pool .dtor, .exit])).any fun s =>
          decide (s.stage = .returned ∧ s.fds = [4, 4] ∧ s.code = 0)) = true := by decide +kernel
  obtain ⟨s, hreach, hs⟩ := System.exists_reachableWhile
    (.init rfl : (process 1).Reachable .new) _ _ hrun
  obtain ⟨hstage, hfds, hcode⟩ := of_decide_eq_true hs
  obtain ⟨hlog, -, hend⟩ := closes_every_descriptor_once hreach
  exact ⟨s, hfds, hcode, hlog, (hend hstage).1⟩

end LinuxNetwork.TcpServer

import Mathlib.Data.Int.Notation
import LinuxNetwork.Transition

/-!
# The Accept Loop of the Thread-Pool Server

This module embeds `ThreadPoolTcpServer` of `thread_pool_server.h` and `thread_pool_server.cpp`
but for its destructor: one call of `run()` on the main thread, one call of `stop()` on another
thread, and the handler that `run()` installs for `SIGINT` and `SIGTERM`. Every access to
`running_`, `s_terminate` or `listen_socket_` is a step, and so is every system call. `enqueue`
is one step; it does not depend on the workers.

The results of `accept` and `fcntl` are input, and so is the descriptor of the listening
socket. The calls of `createListenSocket` succeed. A failure of `getpeername` is printed only;
the name of the peer is left out, and so is what the server prints.

The fields `closes` and `iterations` of a state record its history and are read by no step.

## Main definitions

* `TcpServer.acceptConnection`, `TcpServer.setNonBlocking`: what becomes of the results of
  system calls.
* `TcpServer.Loop.step`: the steps of `run()` and `stop()`.
-/

namespace LinuxNetwork.TcpServer

/-- The exceptions that leave `run()`. -/
inductive Thrown where
  /-- `accept() failed` -/
  | accept
  /-- `fcntl(F_GETFL) failed` -/
  | getfl
  /-- `fcntl(F_SETFL) failed` -/
  | setfl
deriving DecidableEq, Repr

/-- The result of `accept`. -/
inductive AcceptResult where
  | connection (client : ℕ)
  /-- -1 with `EAGAIN` -/
  | eagain
  /-- -1 with another error -/
  | error
deriving DecidableEq, Repr

/-- The results of the two calls of `fcntl`. -/
inductive FcntlResult where
  | done
  | getflFailed
  | setflFailed
deriving DecidableEq, Repr

/-- `acceptConnection()`; -1 is `none`. -/
def acceptConnection : AcceptResult → Except Thrown (Option ℕ)
  | .connection client => .ok (some client)
  | .eagain => .ok none
  | .error => .error .accept

/-- `setNonBlocking(int fd)` -/
def setNonBlocking : FcntlResult → Except Thrown Unit
  | .done => .ok ()
  | .getflFailed => .error .getfl
  | .setflFailed => .error .setfl

/-- Where `run()` stands. -/
inductive RunPc where
  /-- Before `createListenSocket()`. -/
  | creating
  /-- Before `running_.store(true)`. -/
  | storing
  /-- Before `running_.load()`. -/
  | testing
  /-- After `running_` was read as true, before `s_terminate.load()`. -/
  | testingSignal
  /-- Before `accept`. -/
  | accepting
  /-- In the constructor of `TcpConnection`, before `setNonBlocking`. -/
  | constructing (client : ℕ)
  /-- Before `pool_.enqueue`. -/
  | enqueuing (client : ℕ)
  /-- Before `sleep_for`. -/
  | sleeping
  | returned
  | threw (what : Thrown)
deriving DecidableEq, Repr

/-- Where `stop()` stands. -/
inductive StopPc where
  /-- Before `running_.exchange(false)`. -/
  | start
  /-- In the move assignment to `listen_socket_`, before `::close`. -/
  | closing
  /-- Before the descriptor is replaced. -/
  | resetting
  | returned
deriving DecidableEq, Repr

/-- What follows `acceptConnection()`. -/
def afterAccept : Except Thrown (Option ℕ) → RunPc
  | .ok (some client) => .constructing client
  | .ok none => .sleeping
  | .error what => .threw what

/-- What follows the constructor of `TcpConnection`. -/
def afterConstruct (client : ℕ) : Except Thrown Unit → RunPc
  | .ok () => .enqueuing client
  | .error what => .threw what

/-- `run()` and `stop()` with what they share. -/
structure Loop where
  run : RunPc
  stop : StopPc
  /-- `running_` -/
  running : Bool
  /-- `s_terminate` -/
  terminate : Bool
  /-- `listen_socket_.get()` -/
  listenFd : ℤ
  /-- The listening socket is open. -/
  listening : Bool
  /-- How often the listening socket was closed. -/
  closes : ℕ
  /-- How often the body of the loop was entered. -/
  iterations : ℕ
deriving DecidableEq, Repr

namespace Loop

/-- The state in which `run()` begins. An earlier call may have left `s_terminate` set. -/
def new (terminate : Bool) : Loop where
  run := .creating
  stop := .start
  running := false
  terminate := terminate
  listenFd := -1
  listening := false
  closes := 0
  iterations := 0

/-- The steps of `run()`, with what they receive, those of `stop()`, and the signal handler. -/
inductive Act where
  | createListenSocket (fd : ℤ)
  | store
  | test
  | testSignal
  | accept (result : AcceptResult)
  | construct (client : ℕ) (result : FcntlResult)
  | enqueue (client : ℕ)
  | sleep
  | exchange
  | close
  | reset
  | interrupt
deriving DecidableEq, Repr

/-- The steps that `run()` takes. -/
def Act.ofRun : Act → Bool
  | .createListenSocket _ | .store | .test | .testSignal | .accept _ | .construct _ _
  | .enqueue _ | .sleep => true
  | .exchange | .close | .reset | .interrupt => false

/-- One step. -/
def step (s : Loop) : Act → Option Loop
  | .createListenSocket fd =>
      if s.run = .creating ∧ 0 ≤ fd then
        some { s with run := .storing, listenFd := fd, listening := true }
      else none
  | .store => if s.run = .storing then some { s with run := .testing, running := true } else none
  | .test =>
      if s.run = .testing then
        some { s with run := if s.running then .testingSignal else .returned }
      else none
  | .testSignal =>
      if s.run = .testingSignal then
        if s.terminate then some { s with run := .returned }
        else some { s with run := .accepting, iterations := s.iterations + 1 }
      else none
  | .accept result =>
      if s.run = .accepting then some { s with run := afterAccept (acceptConnection result) }
      else none
  | .construct client result =>
      if s.run = .constructing client then
        some { s with run := afterConstruct client (setNonBlocking result) }
      else none
  | .enqueue client =>
      if s.run = .enqueuing client then some { s with run := .testing } else none
  | .sleep => if s.run = .sleeping then some { s with run := .testing } else none
  | .exchange =>
      if s.stop = .start then
        some { s with running := false, stop := if s.running then .closing else .returned }
      else none
  | .close =>
      if s.stop = .closing then
        if s.listenFd = -1 then some { s with stop := .resetting }
        else some { s with stop := .resetting, listening := false, closes := s.closes + 1 }
      else none
  | .reset =>
      if s.stop = .resetting then some { s with stop := .returned, listenFd := -1 } else none
  | .interrupt =>
      if s.run ≠ .creating ∧ s.run ≠ .storing then some { s with terminate := true } else none

/-- `accept(listen_socket_.get(), ..)` finds an open socket. -/
def Listens (s : Loop) : Prop :=
  s.listening = true ∧ s.listenFd ≠ -1

instance (s : Loop) : Decidable s.Listens :=
  inferInstanceAs (Decidable (_ ∧ _))

end Loop

end LinuxNetwork.TcpServer

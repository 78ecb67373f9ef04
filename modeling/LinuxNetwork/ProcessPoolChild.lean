import LinuxNetwork.EdgeTriggered
import LinuxNetwork.ProcessPool
import LinuxNetwork.Socket
import LinuxNetwork.Transition

/-!
# A Child of the Process Pool

This module embeds `processpool::run_child` of `linux_server/cpt_15_3.h` and the pipe on which
the parent notifies the child. `addfd` registers the child's end of the pipe with
`EPOLLIN | EPOLLET` and makes it nonblocking: it is reported once after notifications, and those
that arrive before the report are merged. Notifications may arrive before it is added.

The results of `accept` and of `recv` on the signal pipe are input. `process()` is that of the
template parameter; only that it is called on a client matters here. The `waitpid` loop of a
`SIGCHLD` does nothing to the state.

## Main definitions

* `Child.handleEvent`: the body of the `for` loop over the events of a batch.
* `World.step`: the parent's sends, arrivals on the other descriptors, and the event loop.
-/

open Transition EdgeTriggered

namespace LinuxNetwork.ProcessPoolChild

open ProcessPool (SIGCHLD SIGINT SIGTERM)

/-- `sizeof(client)` and `sizeof(new_conn)` -/
def sizeofInt : ℕ := 4

/-- The bytes of `new_conn`. -/
def newConn : List UInt8 := [1, 0, 0, 0]

/-- The descriptors that the child watches. -/
inductive Source where
  /-- The child's end of the pipe to the parent. -/
  | pipefd
  /-- `sig_pipefd[0]` -/
  | signals
  | client (fd : ℤ)
deriving DecidableEq, Repr

/-- An event that `epoll_wait` reports. -/
structure Report where
  source : Source
  epollin : Bool
deriving DecidableEq, Repr

/-- What the body of the `for` loop receives for an event. -/
inductive Input where
  /-- The result of `recv` on the pipe, and of `accept`, which may fail. -/
  | notification (ret : RecvResult) (connfd : Option ℤ)
  /-- The result of `recv` on the signal pipe, if it is positive. -/
  | signals (received : Option (List ℤ))
  /-- `process()` is called. -/
  | process
  /-- Nothing is called. -/
  | none
deriving DecidableEq, Repr

/-- The variables of `run_child`: `m_stop` and the descriptors whose `users` were initialised.
The field `accepts` counts the calls of `accept` and is read by no step. -/
structure Child where
  stop : Bool
  clients : List ℤ
  accepts : ℕ
deriving DecidableEq, Repr

/-- The state in which `run_child` starts. -/
def Child.new : Child where
  stop := false
  clients := []
  accepts := 0

/-- `((ret < 0) && (errno != EAGAIN)) || ret == 0`, which skips `accept` -/
def skips : RecvResult → Bool
  | .data _ => false
  | .eagain => false
  | .error => true
  | .closed => true

/-- The branch of the pipe. -/
def handleNotification (c : Child) (ret : RecvResult) (connfd : Option ℤ) : Child :=
  if skips ret then c
  else
    match connfd with
    | some fd => { c with accepts := c.accepts + 1, clients := c.clients ++ [fd] }
    | none => { c with accepts := c.accepts + 1 }

/-- One byte of the signal pipe. -/
def handleSignal (c : Child) (sig : ℤ) : Child :=
  if sig = SIGCHLD then c
  else if sig = SIGTERM ∨ sig = SIGINT then { c with stop := true }
  else c

/-- The body of the `for` loop over the events of a batch; `none` where it does not receive the
input. -/
def handleEvent (c : Child) (event : Report) (input : Input) : Option Child :=
  match event.source, event.epollin, input with
  | .pipefd, true, .notification ret connfd => some (handleNotification c ret connfd)
  | .signals, true, .signals (some bytes) => some (bytes.foldl handleSignal c)
  | .signals, true, .signals none => some c
  | .client _, true, .process => some c
  | _, false, .none => some c
  | _, _, _ => none

/-- Where `run_child` stands: before `epoll_wait`, in the `for` loop with the events that are
left, or behind the `while` loop. -/
inductive Pc where
  | waiting
  | handling (events : List Report)
  | returned
deriving DecidableEq, Repr

/-- The child, its end of the pipe, and the descriptors with an arrival to report. The fields
`sent` and `received` record the notifications that the parent sent and the bytes that the
child read from the pipe; no step reads them. -/
structure World where
  child : Child
  pc : Pc
  /-- The unread bytes of the pipe. -/
  pipe : List UInt8
  ready : List Source
  sent : ℕ
  received : List UInt8

/-- A step of the parent, of the kernel or of the event loop. -/
inductive Move where
  /-- The parent sends `new_conn`. -/
  | send
  /-- Something arrives on another descriptor. -/
  | arrive (source : Source)
  /-- `epoll_wait` returns; `EINTR` comes with no events. -/
  | wait (events : List Report)
  /-- `epoll_wait` fails. -/
  | fail
  | event (input : Input)
  /-- The `for` loop is left, and `m_stop` is tested. -/
  | endBatch
deriving DecidableEq, Repr

namespace World

/-- `recv(sockfd, (char*)&client, sizeof(client), 0)` on the nonblocking pipe: the bytes that
are read; `none` where it does not return this. -/
def recvPipe (w : World) : RecvResult → Option (List UInt8)
  | .data bytes =>
      if w.pipe ≠ [] ∧ bytes = w.pipe.take sizeofInt then some bytes else none
  | .eagain => if w.pipe = [] then some [] else none
  | .error => none
  | .closed => none

/-- The bytes that are read from the pipe with an event. -/
def reads (w : World) (event : Report) : Input → Option (List UInt8)
  | .notification ret _ => if event.source = .pipefd then w.recvPipe ret else none
  | .signals _ => some []
  | .process => some []
  | .none => some []

/-- One step. -/
def step (w : World) : Move → Option World
  | .send => some { w with
      pipe := w.pipe ++ newConn
      ready := mark .pipefd w.ready
      sent := w.sent + 1 }
  | .arrive source =>
      if source ≠ .pipefd then some { w with ready := mark source w.ready } else none
  | .wait events =>
      if w.pc = .waiting ∧ (events.map Report.source).Nodup ∧
          ∀ event ∈ events, event.source ∈ w.ready ∧
            (event.source = .pipefd → event.epollin = true) then
        some { w with
          pc := .handling events
          ready := report (events.map Report.source) w.ready }
      else none
  | .fail => if w.pc = .waiting then some { w with pc := .returned } else none
  | .event input =>
      match w.pc with
      | .handling (event :: events) => do
          let child ← handleEvent w.child event input
          let bytes ← w.reads event input
          some { w with
            child := child
            pc := .handling events
            pipe := w.pipe.drop bytes.length
            received := w.received ++ bytes }
      | .handling [] => none
      | .waiting => none
      | .returned => none
  | .endBatch =>
      if w.pc = .handling [] then
        some { w with pc := if w.child.stop then .returned else .waiting }
      else none

end World

/-- The child with its end of the pipe. -/
def childWithPipe : System World Move where
  init := fun w => ∃ sent, w = ⟨.new, .waiting, (List.replicate sent newConn).flatten,
    if sent = 0 then [] else [.pipefd], sent, []⟩
  step := World.step

end LinuxNetwork.ProcessPoolChild

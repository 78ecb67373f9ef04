import LinuxNetwork.EdgeTriggered
import LinuxNetwork.NTimerServer

/-!
# The Server and its Sockets

The event loop of the server together with the sockets it reads from: the queue of
established connections of `listenfd`, the unread bytes of the connections, and the signal
pipe. `addfd` registers all of them with `EPOLLIN | EPOLLET`: a descriptor is reported once
after an arrival on it, and arrivals before the report are merged. A descriptor that is
readable when it is added has an arrival to report, and a closed one is forgotten.

`addfd` leaves the descriptors blocking, so `accept` and `recv` return only when there is
something to return. Bytes may arrive on a connection before it is accepted.

## Main definitions

* `Kernel.answer`: what the kernel returns to a step of the event loop.
* `World.step`: arrivals and steps of the event loop.
-/

open Transition EdgeTriggered

namespace LinuxNetwork.NTimerServer

/-- `MAX_EVENT_NUMBER` -/
def MAX_EVENT_NUMBER : ℕ := 1024

/-- `sizeof(signals)` -/
def SIGNALS_SIZE : ℕ := 1024

/-- The sockets of the server. -/
structure Kernel where
  /-- The connections to accept, each with its unread bytes. -/
  backlog : List (List UInt8)
  /-- The unread bytes of an open client descriptor. -/
  unread : ℤ → List UInt8
  /-- The unread bytes of the signal pipe. -/
  signals : List ℤ
  /-- The descriptors with an arrival that `epoll_wait` has not reported. -/
  ready : List ℤ

namespace Kernel

/-- `accept` takes the first connection of the queue, and `addfd` adds its descriptor. -/
def accept (k : Kernel) (connfd : ℤ) : Option Kernel :=
  match k.backlog with
  | bytes :: backlog => some { k with
      backlog := backlog
      unread := Function.update k.unread connfd bytes
      ready := if bytes = [] then k.ready else mark connfd k.ready }
  | [] => none

/-- `recv(fd, _buf, BUFFER_SIZE-1, 0)` on a connection. An error may strike at any time; the
end of the connection is seen behind its bytes. -/
def recv (k : Kernel) (fd : ℤ) : RecvResult → Option Kernel
  | .data bytes =>
      if bytes ≠ [] ∧ bytes = (k.unread fd).take (BUFFER_SIZE - 1) then
        some { k with
          unread := Function.update k.unread fd ((k.unread fd).drop (BUFFER_SIZE - 1)) }
      else none
  | .eagain => none
  | .error => some k
  | .closed => if k.unread fd = [] then some k else none

/-- `recv(pipefd[0], signals, sizeof(signals), 0)` -/
def recvSignals (k : Kernel) : Option (List ℤ) → Option Kernel
  | some signals =>
      if signals ≠ [] ∧ signals = k.signals.take SIGNALS_SIZE then
        some { k with signals := k.signals.drop SIGNALS_SIZE }
      else none
  | none => some k

/-- The kernel after a step of the event loop; `none` where what the step receives is not
what the kernel returns. -/
def answer (k : Kernel) (batch : Option (List Report)) : Act → Option Kernel
  | .wait events =>
      if (events.map Report.fd).Nodup ∧ events.length ≤ MAX_EVENT_NUMBER ∧
          ∀ event ∈ events, event.fd ∈ k.ready ∧ event.epollin = true then
        some { k with ready := report (events.map Report.fd) k.ready }
      else none
  | .event (.accept connfd _ _) => k.accept connfd
  | .event (.signals received) => k.recvSignals received
  | .event (.recv result _) =>
      match batch with
      | some (event :: _) => k.recv event.fd result
      | some [] => none
      | none => none
  | .event .none => some k
  | .endBatch _ => some k

/-- Closed descriptors leave the epoll instance. -/
def forget (k : Kernel) (fds : Fds) (openFds : List ℤ) : Kernel :=
  { k with ready := k.ready.filter fun fd =>
      decide (fd = fds.listenfd ∨ fd = fds.pipefd0 ∨ fd ∈ openFds) }

end Kernel

/-- The event loop and its sockets. -/
structure World where
  loop : State
  kernel : Kernel

/-- A step of the event loop or an arrival. -/
inductive Move where
  | loop (a : Act)
  /-- A connection is established. -/
  | connect
  /-- Bytes arrive on a connection that waits to be accepted. -/
  | arriveQueued (index : ℕ) (bytes : List UInt8)
  /-- Bytes arrive on a client descriptor. -/
  | arrive (fd : ℤ) (bytes : List UInt8)
  /-- The peer closes the connection. -/
  | hangUp (fd : ℤ)
  /-- `sig_handler` sends a byte. -/
  | signal (sig : ℤ)
deriving DecidableEq, Repr

/-- One step of the server and its sockets. -/
def World.step (fds : Fds) (w : World) : Move → Option World
  | .loop a => do
      let kernel ← w.kernel.answer w.loop.batch a
      let loop ← w.loop.step fds a
      some ⟨loop, kernel.forget fds loop.server.openFds⟩
  | .connect => some { w with kernel := { w.kernel with
      backlog := w.kernel.backlog ++ [[]]
      ready := mark fds.listenfd w.kernel.ready } }
  | .arriveQueued index bytes =>
      some { w with kernel := { w.kernel with
        backlog := w.kernel.backlog.modify index (· ++ bytes) } }
  | .arrive fd bytes =>
      if fd ∈ w.loop.server.openFds ∧ bytes ≠ [] then
        some { w with kernel := { w.kernel with
          unread := Function.update w.kernel.unread fd (w.kernel.unread fd ++ bytes)
          ready := mark fd w.kernel.ready } }
      else none
  | .hangUp fd =>
      if fd ∈ w.loop.server.openFds then
        some { w with kernel := { w.kernel with ready := mark fd w.kernel.ready } }
      else none
  | .signal sig => some { w with kernel := { w.kernel with
      signals := w.kernel.signals ++ [sig]
      ready := mark fds.pipefd0 w.kernel.ready } }

/-- The server with its sockets. Connections may be established before `listenfd` is added. -/
def world (fds : Fds) : System World Move where
  init := fun w => ∃ users backlog, w = ⟨⟨.new users, none⟩, {
    backlog := backlog
    unread := fun _ => []
    signals := []
    ready := if backlog = [] then [] else [fds.listenfd] }⟩
  step := World.step fds

end LinuxNetwork.NTimerServer

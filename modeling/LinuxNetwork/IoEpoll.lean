import Mathlib.Data.Int.Notation
import LinuxNetwork.EdgeTriggered
import LinuxNetwork.Socket
import LinuxNetwork.Transition

/-!
# The Level-Triggered and the Edge-Triggered Handler

This module embeds `IO_EPOLL` of `linux_server/io_epoll.h`: the handlers `lt` and `et`, which go
through the events of a batch, and the loop of `test_epoll_func` around one of them, together
with the sockets it reads from. `addfd` registers a descriptor level-triggered or
edge-triggered and makes it nonblocking. A level-triggered one is reported whenever something
can be read from it; an edge-triggered one once after an arrival, and arrivals before the report
are merged. A descriptor from which something can be read when it is added has an arrival to
report.

The clients do not close their connections, and `epoll_wait` does not fail. `recv` returns any
amount of what is there. Bytes may arrive on a connection before it is accepted. A failed
`accept` adds the descriptor -1, which has no effect. What the handlers print is left out.

## Main definitions

* `ltRecv`, `etRecv`: what the handlers make of the result of `recv`.
* `World.step`: arrivals and steps of the loop.
* `testEpollFunc`: the server of `test_epoll_func`.
-/

open Transition EdgeTriggered

namespace LinuxNetwork.IoEpoll

/-- `MAX_EVENT_NUMBER` -/
def MAX_EVENT_NUMBER : ℕ := 1024

/-- `BUFFER_SIZE` -/
def BUFFER_SIZE : ℕ := 10

/-- The handlers. -/
inductive Handler where
  | lt
  | et
deriving DecidableEq, Repr

/-- The flag `enable_et` with which the accept branch of a handler adds a connection. -/
def Handler.enableEt : Handler → Bool
  | .lt => false
  | .et => true

/-- What follows `recv` in a handler. -/
structure AfterRecv where
  /-- `close(sockfd)` is called. -/
  closes : Bool
  /-- The handler goes on to the next event, and does not call `recv` once more. -/
  leaves : Bool
deriving DecidableEq, Repr

/-- `lt` calls `recv` once per event. -/
def ltRecv : RecvResult → AfterRecv
  | .data _ => ⟨false, true⟩
  | .eagain => ⟨true, true⟩
  | .error => ⟨true, true⟩
  | .closed => ⟨true, true⟩

/-- `et` calls `recv` in a loop, which it does not leave after a result of 0. -/
def etRecv : RecvResult → AfterRecv
  | .data _ => ⟨false, false⟩
  | .eagain => ⟨false, true⟩
  | .error => ⟨true, true⟩
  | .closed => ⟨true, false⟩

/-- What follows `recv`. -/
def Handler.afterRecv : Handler → RecvResult → AfterRecv
  | .lt => ltRecv
  | .et => etRecv

/-- An event that `epoll_wait` reports. -/
structure Report where
  fd : ℤ
  epollin : Bool
deriving DecidableEq, Repr

/-- The loop with its sockets. The fields `arrived`, `chunks` and `closes` record the bytes that
arrived on a connection, the chunks that were received from it, and the descriptors that were
closed; no step reads them. -/
structure World where
  /-- The events of the batch that are left to handle, if `epoll_wait` has returned. -/
  batch : Option (List Report)
  /-- The established connections that wait to be accepted, each with its unread bytes. -/
  backlog : List (List UInt8)
  /-- The descriptors of the connections. -/
  openFds : List ℤ
  /-- The unread bytes of a connection. -/
  inbox : ℤ → List UInt8
  /-- The edge-triggered descriptors with an arrival to report. -/
  ready : List ℤ
  arrived : ℤ → List UInt8
  chunks : ℤ → List (List UInt8)
  closes : List ℤ

/-- The configuration of a loop: the handler that it calls, the listening socket, and the flag
with which the latter was added. -/
structure Config where
  handler : Handler
  listenfd : ℤ
  listenEt : Bool
deriving DecidableEq, Repr

/-- The descriptor was added with `EPOLLET`. -/
def Config.edge (c : Config) (fd : ℤ) : Bool :=
  if fd = c.listenfd then c.listenEt else c.handler.enableEt

/-- An arrival or a step of the loop. -/
inductive Move where
  /-- A connection is established. -/
  | connect
  /-- Bytes arrive on a connection that waits to be accepted. -/
  | arriveQueued (index : ℕ) (bytes : List UInt8)
  /-- Bytes arrive on a connection. -/
  | arrive (fd : ℤ) (bytes : List UInt8)
  /-- `epoll_wait` returns. -/
  | wait (events : List Report)
  /-- The accept branch, with the result of `accept`. -/
  | accept (connfd : Option ℤ)
  /-- A call of `recv`, with its result. -/
  | recv (ret : RecvResult)
  /-- The handler returns. -/
  | endBatch
deriving DecidableEq, Repr

namespace World

/-- Something can be read from the descriptor: a connection to accept, or unread bytes of a
connection. -/
def Readable (c : Config) (w : World) (fd : ℤ) : Prop :=
  if fd = c.listenfd then w.backlog ≠ [] else fd ∈ w.openFds ∧ w.inbox fd ≠ []

/-- `epoll_wait` has the descriptor to report. -/
def Reportable (c : Config) (w : World) (fd : ℤ) : Prop :=
  if c.edge fd then fd ∈ w.ready else w.Readable c fd

instance (c : Config) (w : World) (fd : ℤ) : Decidable (w.Readable c fd) := by
  unfold Readable
  infer_instance

instance (c : Config) (w : World) (fd : ℤ) : Decidable (w.Reportable c fd) := by
  unfold Reportable
  infer_instance

/-- Something arrives on a descriptor. -/
def notify (c : Config) (w : World) (fd : ℤ) : World :=
  { w with ready := if c.edge fd then mark fd w.ready else w.ready }

/-- `accept` returns a descriptor, and `addfd` adds it. -/
def accepted (c : Config) (w : World) (fd : ℤ) (bytes : List UInt8) : World :=
  let w := { w with
    openFds := fd :: w.openFds
    inbox := Function.update w.inbox fd bytes
    arrived := Function.update w.arrived fd bytes
    chunks := Function.update w.chunks fd [] }
  if bytes = [] then w else w.notify c fd

/-- `recv(sockfd, buf, BUFFER_SIZE - 1, 0)` may return this. -/
def MayReceive (w : World) (fd : ℤ) : RecvResult → Prop
  | .data bytes => bytes ≠ [] ∧ bytes.length ≤ BUFFER_SIZE - 1 ∧
      bytes = (w.inbox fd).take bytes.length
  | .eagain => w.inbox fd = []
  | .error => False
  | .closed => False

instance (w : World) (fd : ℤ) : ∀ ret, Decidable (w.MayReceive fd ret)
  | .data _ => inferInstanceAs (Decidable (_ ∧ _ ∧ _))
  | .eagain => inferInstanceAs (Decidable (_ = _))
  | .error => inferInstanceAs (Decidable False)
  | .closed => inferInstanceAs (Decidable False)

/-- The bytes that `recv` returns leave the kernel. -/
def received (w : World) (fd : ℤ) : RecvResult → World
  | .data bytes => { w with
      inbox := Function.update w.inbox fd ((w.inbox fd).drop bytes.length)
      chunks := Function.update w.chunks fd (w.chunks fd ++ [bytes]) }
  | .eagain | .error | .closed => w

/-- `close(sockfd)`, if it is called. -/
def close (w : World) (fd : ℤ) (closes : Bool) : World :=
  if closes then
    { w with
      openFds := w.openFds.erase fd
      ready := w.ready.filter (· ≠ fd)
      closes := w.closes ++ [fd] }
  else w

/-- One step. -/
def step (c : Config) (w : World) : Move → Option World
  | .connect => some ({ w with backlog := w.backlog ++ [[]] }.notify c c.listenfd)
  | .arriveQueued index bytes =>
      some { w with backlog := w.backlog.modify index (· ++ bytes) }
  | .arrive fd bytes =>
      if fd ∈ w.openFds ∧ bytes ≠ [] then
        some ({ w with
          inbox := Function.update w.inbox fd (w.inbox fd ++ bytes)
          arrived := Function.update w.arrived fd (w.arrived fd ++ bytes) }.notify c fd)
      else none
  | .wait events =>
      if w.batch = none ∧ (events.map Report.fd).Nodup ∧ events.length ≤ MAX_EVENT_NUMBER ∧
          ∀ event ∈ events, w.Reportable c event.fd ∧ event.epollin = true then
        some { w with
          batch := some events
          ready := report (events.map Report.fd) w.ready }
      else none
  | .accept connfd =>
      match w.batch with
      | some (event :: events) =>
          if event.fd = c.listenfd then
            match w.backlog, connfd with
            | bytes :: backlog, some fd =>
                if fd ∉ w.openFds ∧ fd ≠ c.listenfd then
                  some ({ w with batch := some events, backlog := backlog }.accepted c fd bytes)
                else none
            | [], none => some { w with batch := some events }
            | [], some _ => none
            | _ :: _, none => none
          else none
      | some [] => none
      | none => none
  | .recv ret =>
      match w.batch with
      | some (event :: events) =>
          if event.fd ≠ c.listenfd ∧ event.epollin = true ∧ w.MayReceive event.fd ret then
            some (({ w with
              batch := if (c.handler.afterRecv ret).leaves then some events
                else some (event :: events) }.received event.fd ret).close event.fd
              (c.handler.afterRecv ret).closes)
          else none
      | some [] => none
      | none => none
  | .endBatch => if w.batch = some [] then some { w with batch := none } else none

end World

/-- The loop with its sockets. Connections may be established before the listening socket is
added. -/
def server (c : Config) : System World Move where
  init := fun w => ∃ backlog, w = ⟨none, backlog, [], fun _ => [],
    if c.listenEt = true ∧ backlog ≠ [] then [c.listenfd] else [], fun _ => [], fun _ => [], []⟩
  step := World.step c

end LinuxNetwork.IoEpoll

import LinuxNetwork.TcpConnection
import LinuxNetwork.TcpServer
import LinuxNetwork.ThreadPoolCrew

/-!
# The Thread-Pool Server and its Clients

The accept loop, the workers and any number of clients as one transition system. Clients
connect, send, close and reset; the kernel queues connections and bytes. A call that fails
because of one connection may do so at every moment at which the kernel can report it.

`SIGPIPE` ends the process unless it was ignored when the process was started: the server does
not change what the signal does, and does not suppress it in `send`.

The task of a connection lives in the pool, which is seen as a crew. A worker that takes it runs
`processRequest()`; when the task is destroyed, the destructor of `socket_` closes the socket.

## Main definitions

* `Conn`: a connection, from both ends.
* `Server.step`: the steps of the clients, of `run()` and of the workers.
-/

open Transition

namespace LinuxNetwork.TcpServer

open TcpConnection (afterRecv afterSend)
open ThreadPool (Crew)

/-- The client's end of a connection. -/
inductive Peer where
  | absent
  | connected
  /-- Closed in an orderly way. -/
  | finished
  | reset
deriving DecidableEq, Repr

/-- The server's end of a connection. -/
inductive SocketState where
  | unaccepted
  | accepted
  | closed
deriving DecidableEq, Repr

/-- A connection. The fields `results` and `sends` record its history and are read by no
step. -/
structure Conn where
  peer : Peer
  /-- The bytes that wait to be received. -/
  inbox : List UInt8
  socket : SocketState
  /-- Where `processRequest()` stands. -/
  pc : TcpConnection.Pc
  /-- What the calls of `recv` returned. -/
  results : List RecvResult
  /-- What the calls of `send` returned. -/
  sends : List SendResult
  /-- The bytes that the kernel took for the client. -/
  taken : List UInt8

namespace Conn

/-- A connection that is not there yet. -/
def new : Conn where
  peer := .absent
  inbox := []
  socket := .unaccepted
  pc := .receiving
  results := []
  sends := []
  taken := []

/-- What `recv` may return. -/
def MayReceive (k : Conn) : RecvResult → Prop
  | .data bytes => bytes ≠ [] ∧ bytes = k.inbox.take bytes.length
  | .eagain => k.inbox = [] ∧ k.peer = .connected
  | .closed => k.inbox = [] ∧ (k.peer = .finished ∨ k.peer = .reset)
  | .error => True

instance (k : Conn) : ∀ result, Decidable (k.MayReceive result)
  | .data _ => inferInstanceAs (Decidable (_ ∧ _))
  | .eagain => inferInstanceAs (Decidable (_ ∧ _))
  | .closed => inferInstanceAs (Decidable (_ ∧ _))
  | .error => inferInstanceAs (Decidable True)

/-- What `send` may return. -/
def MaySend (k : Conn) (offered : List UInt8) : SendResult → Prop
  | .sent count => k.peer ≠ .reset ∧ 1 ≤ count ∧ count ≤ offered.length
  | .eagain => k.peer ≠ .reset
  | .brokenPipe => k.peer = .reset
  | .error => k.peer = .reset

instance (k : Conn) (offered : List UInt8) : ∀ result, Decidable (k.MaySend offered result)
  | .sent _ => inferInstanceAs (Decidable (_ ∧ _))
  | .eagain => inferInstanceAs (Decidable (_ ≠ _))
  | .brokenPipe => inferInstanceAs (Decidable (_ = _))
  | .error => inferInstanceAs (Decidable (_ = _))

/-- The bytes that `recv` returns leave the kernel. -/
def rest (k : Conn) : RecvResult → List UInt8
  | .data bytes => k.inbox.drop bytes.length
  | .eagain | .closed | .error => k.inbox

/-- `processRequest()` receives. -/
def recv (k : Conn) (result : RecvResult) : Option Conn :=
  if k.pc = .receiving ∧ k.MayReceive result then
    (afterRecv result).map fun pc =>
      { k with pc := pc, inbox := k.rest result, results := k.results ++ [result] }
  else none

/-- `processRequest()` sends. -/
def send (k : Conn) (result : SendResult) : Option Conn :=
  match k.pc with
  | .sending response =>
      if k.MaySend response result then
        some { k with
          pc := afterSend result
          sends := k.sends ++ [result]
          taken := k.taken ++ result.taken response }
      else none
  | .receiving => none
  | .returned => none

end Conn

/-- The server and its clients. -/
structure Server (n : ℕ) where
  loop : Loop
  crew : Crew n
  /-- The established connections that wait to be accepted. -/
  backlog : List ℕ
  conn : ℕ → Conn
  /-- The process runs. -/
  alive : Bool

namespace Server

variable {n : ℕ}

/-- The steps of the clients, of `run()` and of the workers. -/
inductive Act (n : ℕ) where
  | connect (client : ℕ)
  | arrive (client : ℕ) (bytes : List UInt8)
  | finish (client : ℕ)
  | reset (client : ℕ)
  | run (a : Loop.Act)
  | take (i : Fin n)
  | recv (i : Fin n) (result : RecvResult)
  | send (i : Fin n) (result : SendResult)
  | close (i : Fin n)
deriving DecidableEq, Repr

/-- A connection changes. -/
def setConn (s : Server n) (client : ℕ) (k : Conn) : Server n :=
  { s with conn := Function.update s.conn client k }

/-- The connections that wait after `accept`; `none` where the kernel does not return this. A
connection that was reset while it waited may be reported as aborted. -/
def afterAccept (s : Server n) (result : AcceptResult) : Option (List ℕ) :=
  match result, s.backlog with
  | .connection client, c :: backlog => if client = c then some backlog else none
  | .eagain, [] => some []
  | .error, c :: backlog => if (s.conn c).peer = .reset then some backlog else none
  | .connection _, [] => none
  | .eagain, _ :: _ => none
  | .error, [] => none

/-- What a step of `run()` does outside of the loop. -/
def effect (s : Server n) : Loop.Act → Option (Server n)
  | .accept result =>
      (s.afterAccept result).map fun backlog =>
        match result with
        | .connection client =>
            { s with backlog := backlog }.setConn client
              { s.conn client with socket := .accepted }
        | .eagain | .error => { s with backlog := backlog }
  | .construct client result =>
      -- an exception in the constructor destroys `socket_`
      match setNonBlocking result with
      | .ok () => some s
      | .error _ => some (s.setConn client { s.conn client with socket := .closed })
  | .enqueue client =>
      (s.crew.step (.push client)).map fun crew => { s with crew := crew }
  | .createListenSocket _ | .store | .test | .testSignal | .sleep | .interrupt => some s
  | .exchange | .close | .reset => none

/-- One step of the running process. -/
def stepAlive (ignoresSigpipe : Bool) (s : Server n) : Act n → Option (Server n)
  | .connect client =>
      if (s.conn client).peer = .absent ∧ s.loop.listening = true then
        some ({ s with backlog := s.backlog ++ [client] }.setConn client
          { s.conn client with peer := .connected })
      else none
  | .arrive client bytes =>
      if (s.conn client).peer = .connected then
        some (s.setConn client { s.conn client with inbox := (s.conn client).inbox ++ bytes })
      else none
  | .finish client =>
      if (s.conn client).peer = .connected then
        some (s.setConn client { s.conn client with peer := .finished })
      else none
  | .reset client =>
      if (s.conn client).peer = .connected ∨ (s.conn client).peer = .finished then
        some (s.setConn client { s.conn client with peer := .reset })
      else none
  | .run a =>
      (s.loop.step a).bind fun loop =>
        (s.effect a).map fun t => { t with loop := loop }
  | .take i => (s.crew.step (.take i)).map fun crew => { s with crew := crew }
  | .recv i result =>
      (s.crew.serving i).bind fun client =>
        ((s.conn client).recv result).map fun k => s.setConn client k
  | .send i result =>
      (s.crew.serving i).bind fun client =>
        ((s.conn client).send result).map fun k =>
          { s.setConn client k with
            alive := decide (result = .brokenPipe → ignoresSigpipe = true) }
  | .close i =>
      (s.crew.serving i).bind fun client =>
        if (s.conn client).pc = .returned then
          (s.crew.step (.finish i)).map fun crew =>
            { s with crew := crew }.setConn client
              { s.conn client with socket := .closed }
        else none

/-- One step. -/
def step (ignoresSigpipe : Bool) (s : Server n) (a : Act n) : Option (Server n) :=
  if s.alive = true then s.stepAlive ignoresSigpipe a else none

/-- The state in which `run()` begins. -/
def new (terminate : Bool) : Server n where
  loop := .new terminate
  crew := .new
  backlog := []
  conn := fun _ => .new
  alive := true

end Server

/-- The server with `n` workers and its clients. -/
def tcpServer (n : ℕ) (ignoresSigpipe : Bool) : System (Server n) (Server.Act n) where
  init := fun s => ∃ terminate, s = .new terminate
  step := Server.step ignoresSigpipe

end LinuxNetwork.TcpServer

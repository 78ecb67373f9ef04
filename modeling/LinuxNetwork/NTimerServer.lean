import LinuxNetwork.Socket
import LinuxNetwork.SortTimerList
import LinuxNetwork.Transition

/-!
# The Server With Timers

This module embeds the event loop of `n_timer_server::test_timer_server` of
`linux_server/cpt_11_2_2.h`: it accepts connections, gives each of them a timer in
`timer_list`, restarts the timer when data arrives, and closes a connection on an error, when
the peer closes it, or when its timer expires.

What the kernel, the allocator and the clock return is input. The kernel's side of the state
are the open client descriptors; what the program asks of the kernel and of `timer_list` is
recorded in `trace`. The table `users` is accessed with a checked index, and a null or
dangling pointer makes a handler return `none`, as in the timer list. `_address` and `_buf`
are only stored and printed and are left out.

The loops of `timer_list` get `FD_LIMIT` as their fuel.

## Main definitions

* `NTimerServer.Server`: the variables of the program.
* `NTimerServer.handleEvent`, `NTimerServer.timerHandler`: the branches of the `for` loop
  and what follows the loop.
* `NTimerServer.server`: the event loop as a transition system, and
  `NTimerServer.Assumed`, what it may assume of its inputs.
-/

open Transition

namespace LinuxNetwork.NTimerServer

/-- `FD_LIMIT` -/
def FD_LIMIT : ℕ := 65535

/-- `TIMESLOT` -/
def TIMESLOT : ℤ := 5

/-- `BUFFER_SIZE` -/
def BUFFER_SIZE : ℕ := 64

/-- `SIGALRM` -/
def SIGALRM : ℤ := 14

/-- `SIGTERM` -/
def SIGTERM : ℤ := 15

/-- The static variable `epollfd`. -/
def staticEpollfd : ℤ := 0

/-- The descriptors that `test_timer_server` creates: `listenfd`, `pipefd[0]`, and the
`epollfd` of its own. -/
structure Fds where
  listenfd : ℤ
  pipefd0 : ℤ
  epollfd : ℤ
deriving DecidableEq, Repr

/-- An entry of the table of users (`ClientData`). -/
structure ClientData where
  sockfd : ℤ
  timer : Option Ptr
deriving DecidableEq, Repr

/-- What the program asks of the kernel and of `timer_list`. -/
inductive Action where
  /-- `accept` returned a descriptor. -/
  | accept (fd : ℤ)
  | epollAdd (epollfd fd : ℤ)
  | epollDel (epollfd fd : ℤ)
  | close (fd : ℤ)
  | addTimer (timer : Ptr)
  | adjustTimer (timer : Ptr)
  | delTimer (timer : Ptr)
  | alarm
deriving DecidableEq, Repr

/-- The server and its open client descriptors. The `_user_data` of a timer is an index of
`users`. -/
structure Server where
  users : ℤ → ClientData
  timerList : SortTimerList ℤ
  timeout : Bool
  stopServer : Bool
  /-- The client descriptors that are open. -/
  openFds : List ℤ
  /-- The clock at the acceptance or the latest receipt of data of a connection, which no
  function reads. -/
  lastSeen : ℤ → ℤ
  trace : List Action

namespace Server

/-- The server before its first iteration; the entries of `users` are not initialized. -/
def new (users : ℤ → ClientData) : Server where
  users := users
  timerList := .new
  timeout := false
  stopServer := false
  openFds := []
  lastSeen := fun _ => 0
  trace := []

/-- An action is recorded. -/
def log (s : Server) (action : Action) : Server :=
  { s with trace := s.trace ++ [action] }

/-- `users[index]` -/
def user (s : Server) (index : ℤ) : Option ClientData :=
  if 0 ≤ index ∧ index < FD_LIMIT then some (s.users index) else none

/-- An assignment to fields of `users[index]`. -/
def setUser (s : Server) (index : ℤ) (f : ClientData → ClientData) : Option Server := do
  let u ← s.user index
  some { s with users := Function.update s.users index (f u) }

/-- `close(fd)` -/
def close (s : Server) (fd : ℤ) : Server :=
  { s.log (.close fd) with openFds := s.openFds.erase fd }

/-- `cb_func(&users[index])` -/
def cbFunc (s : Server) (index : ℤ) : Option Server := do
  let u ← s.user index
  some ((s.log (.epollDel staticEpollfd u.sockfd)).close u.sockfd)

/-- The result of `accept`, which is -1 when it fails. -/
def accept (s : Server) (connfd : ℤ) : Server :=
  if connfd = -1 then s else { s.log (.accept connfd) with openFds := connfd :: s.openFds }

/-- `timer_list.add_timer(timer)` -/
def addTimer (s : Server) (timer : Ptr) : Option Server := do
  let l ← s.timerList.addTimer FD_LIMIT (some timer)
  some { s.log (.addTimer timer) with timerList := l }

/-- `timer->_expire = expire` and `timer_list.adjust_timer(timer)` -/
def adjustTimer (s : Server) (timer : Ptr) (expire : ℤ) : Option Server := do
  let l ← s.timerList.setExpire timer expire
  let l ← l.adjustTimer FD_LIMIT (some timer)
  some { s.log (.adjustTimer timer) with timerList := l }

/-- `timer_list.del_timer(timer)` -/
def delTimer (s : Server) (timer : Ptr) : Option Server := do
  let l ← s.timerList.delTimer (some timer)
  some { s.log (.delTimer timer) with timerList := l }

end Server

/-! ### The branches of the event loop -/

/-- The branch of the listening socket: `connfd` is the result of `accept`, `addr` the
address of `new Util_timer`, `cur` the clock. -/
def handleAccept (fds : Fds) (s : Server) (connfd : ℤ) (addr : Ptr) (cur : ℤ) :
    Option Server := do
  let s := (s.accept connfd).log (.epollAdd fds.epollfd connfd)
  let s ← s.setUser connfd fun u => { u with sockfd := connfd }
  let s := { s with timerList := s.timerList.newTimer addr (cur + 3 * TIMESLOT) connfd }
  let s ← s.setUser connfd fun u => { u with timer := some addr }
  let s ← s.addTimer addr
  some { s with lastSeen := Function.update s.lastSeen connfd cur }

/-- The loop over the received bytes in the branch of the signal pipe. -/
def handleSignals (s : Server) (signals : List ℤ) : Server :=
  signals.foldl (fun s sig =>
    if sig = SIGALRM then { s with timeout := true }
    else if sig = SIGTERM then { s with stopServer := true } else s) s

/-- `if (timer) timer_list.del_timer(timer);` behind `cb_func(&users[sockfd])`. -/
def closeClient (s : Server) (sockfd : ℤ) (timer : Option Ptr) : Option Server := do
  let s ← s.cbFunc sockfd
  match timer with
  | some timer => s.delTimer timer
  | none => some s

/-- The branch of a client descriptor: `result` is what `recv` returns, `cur` the clock. -/
def handleClient (s : Server) (sockfd : ℤ) (result : RecvResult) (cur : ℤ) :
    Option Server := do
  let u ← s.user sockfd
  match result with
  | .eagain => some s
  | .error => closeClient s sockfd u.timer
  | .closed => closeClient s sockfd u.timer
  | .data _ =>
      match u.timer with
      | some timer => do
          let s ← s.adjustTimer timer (cur + 3 * TIMESLOT)
          some { s with lastSeen := Function.update s.lastSeen sockfd cur }
      | none => some s

/-- `m_callback` of all timers, which is `cb_func`. -/
def callback (timer : Ptr) (l : SortTimerList ℤ) (s : Server) :
    Option (SortTimerList ℤ × Server) := do
  let t ← l.heap timer
  let s ← s.cbFunc t.userData
  some (l, s)

/-- `timer_handler()`, with the clock at `cur` in `tick`. -/
def timerHandler (s : Server) (cur : ℤ) : Option Server := do
  let (l, s) ← s.timerList.tick callback FD_LIMIT cur s
  some { s.log .alarm with timerList := l }

/-- An event that `epoll_wait` reports. -/
structure Report where
  fd : ℤ
  epollin : Bool
deriving DecidableEq, Repr

/-- What an event's branch receives from outside. -/
inductive Input where
  | accept (connfd : ℤ) (addr : Ptr) (cur : ℤ)
  /-- The bytes that `recv` returns from the signal pipe, if it succeeds. -/
  | signals (received : Option (List ℤ))
  | recv (result : RecvResult) (cur : ℤ)
  /-- For an event that no branch looks at. -/
  | none
deriving DecidableEq, Repr

/-- The body of the `for` loop over the reported events. An input is that of the branch the
event takes. -/
def handleEvent (fds : Fds) (s : Server) (event : Report) (input : Input) : Option Server :=
  if event.fd = fds.listenfd then
    match input with
    | .accept connfd addr cur => handleAccept fds s connfd addr cur
    | _ => none
  else if event.fd = fds.pipefd0 ∧ event.epollin = true then
    match input with
    | .signals (some signals) => some (handleSignals s signals)
    | .signals none => some s
    | _ => none
  else if event.epollin = true then
    match input with
    | .recv result cur => handleClient s event.fd result cur
    | _ => none
  else
    match input with
    | .none => some s
    | _ => none

/-- What follows the `for` loop: `if (timeout)`, with the clock at `cur`. -/
def endBatch (s : Server) (cur : ℤ) : Option Server :=
  if s.timeout then do
    let s ← timerHandler s cur
    some { s with timeout := false }
  else some s

/-! ### The event loop -/

/-- The server in its event loop: at `epoll_wait`, or in the `for` loop with the events still
to handle. -/
structure State where
  server : Server
  batch : Option (List Report)

/-- A step of the event loop. -/
inductive Act where
  /-- `epoll_wait` returns; a return with `EINTR` has no events. -/
  | wait (events : List Report)
  | event (input : Input)
  | endBatch (cur : ℤ)
deriving DecidableEq, Repr

/-- One step of the event loop. The loop ends at `epoll_wait` when `stop_server` is set. -/
def State.step (fds : Fds) (s : State) : Act → Option State
  | .wait events =>
      match s.batch with
      | none => if s.server.stopServer then none else some { s with batch := some events }
      | some _ => none
  | .event input =>
      match s.batch with
      | some (event :: batch) => do
          let server ← handleEvent fds s.server event input
          some ⟨server, some batch⟩
      | some [] => none
      | none => none
  | .endBatch cur =>
      match s.batch with
      | some [] => do
          let server ← NTimerServer.endBatch s.server cur
          some ⟨server, none⟩
      | some (_ :: _) => none
      | none => none

/-- The event loop. -/
def server (fds : Fds) : System State Act where
  init := fun s => ∃ users, s = ⟨.new users, none⟩
  step := State.step fds

/-- **What the server may assume**: `epoll_wait` reports open descriptors, each at most once
in a batch, `accept` returns a descriptor below `FD_LIMIT` that is not open, and `new` a free
address. -/
def Assumed (fds : Fds) (s : State) : Act → Prop
  | .wait events => (events.map Report.fd).Nodup ∧ ∀ event ∈ events,
      event.fd = fds.listenfd ∨ event.fd = fds.pipefd0 ∨ event.fd ∈ s.server.openFds
  | .event (.accept connfd addr _) => 0 ≤ connfd ∧ connfd < FD_LIMIT ∧
      connfd ∉ s.server.openFds ∧ connfd ≠ fds.listenfd ∧ connfd ≠ fds.pipefd0 ∧
      s.server.timerList.heap addr = none
  | .event _ => True
  | .endBatch _ => True

instance (fds : Fds) (s : State) (a : Act) : Decidable (Assumed fds s a) := by
  unfold Assumed
  split <;> infer_instance

end LinuxNetwork.NTimerServer

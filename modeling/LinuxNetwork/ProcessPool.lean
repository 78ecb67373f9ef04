import Mathlib.Data.Int.Notation
import Mathlib.Tactic.Common

/-!
# The Parent of the Process Pool

This module embeds `processpool::run_parent` of `linux_server/cpt_15_3.h`: the loop that
waits for batches of epoll events, and the loop over the events of a batch with its
dispatch of new connections to the child processes, its reaping of dead children and its
forwarding of signals.

What the kernel returns is input: the results of `epoll_wait`, with each event on the signal
pipe what `recv` would return for it, and with each `SIGCHLD` byte the process ids that
`waitpid` would return. Everything the parent does that others can notice is recorded as a
list of actions. The table `m_sub_process` is the list of its `m_pid` fields; an index
outside of it makes a function return `none`.

## Main definitions

* `ProcessPool.handleEvent`, `ProcessPool.handleBatch`: the body of the `for` loop and the
  loop.
* `ProcessPool.waitLoop`: the `while` loop.
* `ProcessPool.runParent`: the whole function.
-/

namespace LinuxNetwork.ProcessPool

/-- `SIGINT` -/
def SIGINT : ℤ := 2

/-- `SIGTERM` -/
def SIGTERM : ℤ := 15

/-- `SIGCHLD` -/
def SIGCHLD : ℤ := 17

/-- A byte of the signal pipe, with what `waitpid` returns, call by call, when the byte is
handled as a `SIGCHLD`. -/
structure SignalByte where
  sig : ℤ
  waited : List ℤ
deriving DecidableEq, Repr

/-- An event that `epoll_wait` reports. -/
inductive Event where
  /-- An event on `m_listenfd`. -/
  | listen
  /-- An event on `sig_pipefd[0]`, whether it has `EPOLLIN`, and the bytes that `recv`
  returns for it, if it succeeds. -/
  | signal (epollin : Bool) (received : Option (List SignalByte))
  /-- An event on another descriptor. -/
  | other
deriving DecidableEq, Repr

/-- What `epoll_wait` returns. -/
inductive WaitResult where
  | batch (events : List Event)
  /-- -1 with `EINTR` -/
  | interrupted
  /-- -1 with another error -/
  | failure
deriving DecidableEq, Repr

/-- What the parent does. -/
inductive Action where
  /-- It receives a batch from `epoll_wait`, while its table holds `pids`. -/
  | wait (pids : List ℤ) (events : List Event)
  /-- It notifies a child, whose slot holds `pid`, of a new connection. -/
  | send (child : ℕ) (pid : ℤ)
  /-- It enters the case of a signal. -/
  | handle (sig : ℤ)
  /-- It closes its end of the pipe of a dead child. -/
  | closePipe (child : ℕ)
  /-- It sends `SIGTERM` to a child. -/
  | kill (pid : ℤ)
  /-- It closes `m_epollfd` and returns. -/
  | closeEpollfd
deriving DecidableEq, Repr

/-- The variables of the parent: the `m_pid` of all slots of `m_sub_process`, `m_stop`, and
`sub_process_counter`. -/
structure Parent where
  pids : List ℤ
  stop : Bool
  subProcessCounter : ℕ
deriving DecidableEq, Repr

/-- The state in which `run_parent` starts, with the children that the constructor forked. -/
def Parent.new (pids : List ℤ) : Parent where
  pids := pids
  stop := false
  subProcessCounter := 0

/-- The `do … while` loop that looks for a live child from slot `i` on. -/
def searchLoop (pids : List ℤ) (counter : ℕ) : ℕ → ℕ → Option ℕ
  | 0, _ => none
  | fuel + 1, i => do
      let pid ← pids[i]?
      if pid ≠ -1 then some i
      else
        let i := (i + 1) % pids.length
        if i ≠ counter then searchLoop pids counter fuel i else some i

/-- The branch of the listening socket. The flag tells whether the `for` loop is left. -/
def handleListen (t : Parent) : Option (Parent × List Action × Bool) := do
  let i ← searchLoop t.pids t.subProcessCounter t.pids.length t.subProcessCounter
  let pid ← t.pids[i]?
  if pid = -1 then some ({ t with stop := true }, [], true)
  else
    let t := { t with subProcessCounter := (i + 1) % t.pids.length }
    some (t, [.send i pid], false)

/-- The slots of a table that hold a process id. -/
def slotsOf (pids : List ℤ) (pid : ℤ) : List ℕ :=
  (List.range pids.length).filter fun i => decide (pids[i]? = some pid)

/-- The `for` loop over the slots for one process id that `waitpid` returned. -/
def reap (pids : List ℤ) (pid : ℤ) : List ℤ × List Action :=
  (pids.map fun p => if p = pid then -1 else p, (slotsOf pids pid).map .closePipe)

/-- The `while` loop over `waitpid`, which ends with the first result that is not
positive. -/
def reapLoop : List ℤ → List ℤ → List ℤ × List Action
  | pids, [] => (pids, [])
  | pids, pid :: waited =>
      if 0 < pid then
        let (pids, closed) := reap pids pid
        let (pids, actions) := reapLoop pids waited
        (pids, closed ++ actions)
      else (pids, [])

/-- One byte of the signal pipe. -/
def handleByte (t : Parent) (byte : SignalByte) : Parent × List Action :=
  if byte.sig = SIGCHLD then
    let (pids, actions) := reapLoop t.pids byte.waited
    ({ t with pids := pids, stop := pids.all fun pid => decide (pid = -1) },
      .handle byte.sig :: actions)
  else if byte.sig = SIGTERM ∨ byte.sig = SIGINT then
    (t, .handle byte.sig :: (t.pids.filter fun pid => decide (pid ≠ -1)).map .kill)
  else (t, [])

/-- The `for` loop over the received bytes. -/
def handleBytes (t : Parent) : List SignalByte → Parent × List Action
  | [] => (t, [])
  | byte :: bytes =>
      let (t, actions) := handleByte t byte
      let (t, actions') := handleBytes t bytes
      (t, actions ++ actions')

/-- The body of the `for` loop over the events of a batch. -/
def handleEvent (t : Parent) : Event → Option (Parent × List Action × Bool)
  | .listen => handleListen t
  | .signal true (some bytes) =>
      let (t, actions) := handleBytes t bytes
      some (t, actions, false)
  | .signal true none => some (t, [], false)
  | .signal false _ => some (t, [], false)
  | .other => some (t, [], false)

/-- The `for` loop over the events of a batch. -/
def handleBatch (t : Parent) : List Event → Option (Parent × List Action)
  | [] => some (t, [])
  | event :: events => do
      let (t, actions, left) ← handleEvent t event
      if left then some (t, actions)
      else
        let (t, actions') ← handleBatch t events
        some (t, actions ++ actions')

/-- The `while` loop, with `events` the batch that `epoll_wait` returned last. It ends with
the events that are behind it in `events` and `number`, or is still waiting when the results
are used up. The events of a batch are not looked at in the loop. -/
def waitLoop (t : Parent) :
    List Event → List WaitResult → List Action × Option (List Event)
  | events, [] => ([], if t.stop then some events else none)
  | events, result :: results =>
      if t.stop then ([], some events)
      else
        match result with
        | .batch events =>
            let (actions, left) := waitLoop t events results
            (.wait t.pids events :: actions, left)
        | .interrupted => waitLoop t [] results
        | .failure => ([], some [])

/-- `run_parent()`, as far as it gets with the given results of `epoll_wait`: what it does,
and the state in which it returns, if it does. -/
def runParent (t : Parent) (results : List WaitResult) :
    Option (List Action × Option Parent) :=
  match waitLoop t [] results with
  | (actions, none) => some (actions, none)
  | (actions, some events) => do
      let (t, actions') ← handleBatch t events
      some (actions ++ actions' ++ [.closeEpollfd], some t)

end LinuxNetwork.ProcessPool

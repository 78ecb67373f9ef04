import LinuxNetwork.NTimerServerTimers

/-!
# A Failed `accept`

The branch of the listening socket does not look at what `accept` returned. `handleAccept` accesses
`users` with a checked index, and says nothing about a descriptor that is not one of the table. Here
the branch is embedded once more as the machine runs it: an access in front of the table or behind
it is made like any other, and the index is recorded.

## Main definitions

* `acceptUnchecked`: the branch, with the indices of `users` that it accesses.
* `AcceptKeeps`: the accesses are in the table, and a failed `accept` changes nothing.

## Main results

* `handleAccept_eq`: on the indices of the table, it is the checked branch.
* `Matched.acceptUnchecked`: whatever `accept` returned, `timer_list` gets a timer for it.
* `Matched.accept_failed`: what a failed `accept` changes.
* `acceptKeeps_iff`: the branch keeps what it should exactly on the descriptors of the table.
-/

open Transition

namespace LinuxNetwork.NTimerServer

open SortTimerList (Entry Rep insertEntry)

/-- The server, and the indices at which `users` was accessed. -/
structure Accessed where
  server : Server
  indices : List ℤ

/-- `&users[index]` -/
def Accessed.addressOf (x : Accessed) (index : ℤ) : Accessed :=
  { x with indices := x.indices ++ [index] }

/-- An assignment to fields of `users[index]`. -/
def Accessed.setUser (x : Accessed) (index : ℤ) (f : ClientData → ClientData) : Accessed where
  server := { x.server with
    users := Function.update x.server.users index (f (x.server.users index)) }
  indices := x.indices ++ [index]

/-- The branch of the listening socket, without a check of the index. -/
def acceptUnchecked (fds : Fds) (s : Server) (connfd : ℤ) (addr : Ptr) (cur : ℤ) :
    Option Accessed := do
  let x : Accessed := ⟨(s.accept connfd).log (.epollAdd fds.epollfd connfd), []⟩
  -- the assignment to `_address`, which is left out
  let x := x.setUser connfd id
  let x := x.setUser connfd fun u => { u with sockfd := connfd }
  let x := x.addressOf connfd
  let s := { x.server with
    timerList := x.server.timerList.newTimer addr (cur + 3 * TIMESLOT) connfd }
  let x := { x with server := s }.setUser connfd fun u => { u with timer := some addr }
  let s ← x.server.addTimer addr
  some { x with server := { s with lastSeen := Function.update s.lastSeen connfd cur } }

/-- The descriptors in the epoll instance after some actions. `EPOLL_CTL_ADD` fails for -1 and for
a descriptor that is in the instance, and a closed descriptor leaves it. -/
def watched (epollfd : ℤ) (acts : List Action) : List ℤ :=
  acts.foldl (fun set a =>
    match a with
    | .epollAdd e fd => if e = epollfd ∧ fd ≠ -1 ∧ fd ∉ set then fd :: set else set
    | .epollDel e fd => if e = epollfd then set.erase fd else set
    | .close fd => set.erase fd
    | _ => set) []

/-- **What the branch should keep**: `users` is accessed in the table, and if `accept` failed,
`users`, `timer_list` and the epoll instance are as before. -/
structure AcceptKeeps (fds : Fds) (s : Server) (connfd : ℤ) (x : Accessed) : Prop where
  indices : ∀ index ∈ x.indices, 0 ≤ index ∧ index < FD_LIMIT
  users : connfd = -1 → x.server.users = s.users
  timerList : connfd = -1 → x.server.timerList = s.timerList
  watched : connfd = -1 → watched fds.epollfd x.server.trace = watched fds.epollfd s.trace

variable {fds : Fds} {s : Server} {es : List (Entry ℤ)} {connfd cur : ℤ} {addr : Ptr}

/-- On the indices of the table, the accesses are those of the checked branch, and elsewhere the
checked branch fails. -/
theorem handleAccept_eq : handleAccept fds s connfd addr cur =
    if 0 ≤ connfd ∧ connfd < FD_LIMIT then
      (acceptUnchecked fds s connfd addr cur).map Accessed.server
    else none := by
  by_cases hfd : 0 ≤ connfd ∧ connfd < FD_LIMIT
  · rw [if_pos hfd]
    simp [handleAccept, acceptUnchecked, Server.setUser, Server.user, hfd, Accessed.setUser,
      Accessed.addressOf]
  · simp [handleAccept, Server.setUser, Server.user, hfd]

/-- The epoll instance takes no notice of -1, and a timer is not its concern. -/
theorem watched_of_failed (epollfd : ℤ) (acts : List Action) (addr : Ptr) :
    watched epollfd (acts ++ [.epollAdd epollfd (-1), .addTimer addr]) = watched epollfd acts := by
  simp [watched]

/-- **Whatever `accept` returned**, its descriptor is written into `users`, in the table or not, and
`timer_list` gets a timer for it. -/
theorem Matched.acceptUnchecked (h : Matched s es) (haddr : s.timerList.heap addr = none)
    (fds : Fds) (connfd cur : ℤ) :
    ∃ s', acceptUnchecked fds s connfd addr cur = some ⟨s', List.replicate 4 connfd⟩ ∧
      s'.users = Function.update s.users connfd ⟨connfd, some addr⟩ ∧
      s'.trace = (s.accept connfd).trace ++ [.epollAdd fds.epollfd connfd, .addTimer addr] ∧
      Rep s'.timerList (insertEntry ⟨addr, cur + 3 * TIMESLOT, connfd⟩ es) := by
  obtain ⟨l, hadd, hrep⟩ := h.addTimer haddr (cur + 3 * TIMESLOT) connfd
  have haccept : (s.accept connfd).users = s.users ∧ (s.accept connfd).timerList = s.timerList := by
    rw [Server.accept]
    split
    case isTrue => exact ⟨rfl, rfl⟩
    case isFalse => exact ⟨rfl, rfl⟩
  refine ⟨{ (s.accept connfd).log (.epollAdd fds.epollfd connfd) |>.log (.addTimer addr) with
    users := Function.update s.users connfd ⟨connfd, some addr⟩
    timerList := l
    lastSeen := Function.update (s.accept connfd).lastSeen connfd cur }, ?_, rfl, ?_, hrep⟩
  · simp [NTimerServer.acceptUnchecked, Accessed.setUser, Accessed.addressOf, Server.addTimer,
      Server.log, haccept, hadd]
  · simp [Server.log]

/-- **A failed `accept`** leaves the epoll instance alone, but gives `timer_list` a timer whose
callback will read the memory in front of `users`. -/
theorem Matched.accept_failed (h : Matched s es) (haddr : s.timerList.heap addr = none)
    (fds : Fds) (cur : ℤ) :
    ∃ x, NTimerServer.acceptUnchecked fds s (-1) addr cur = some x ∧
      watched fds.epollfd x.server.trace = watched fds.epollfd s.trace ∧
      x.server.users (-1) = ⟨-1, some addr⟩ ∧
      Rep x.server.timerList (insertEntry ⟨addr, cur + 3 * TIMESLOT, -1⟩ es) := by
  obtain ⟨s', hrun, husers, htrace, hrep⟩ := h.acceptUnchecked haddr fds (-1) cur
  refine ⟨_, hrun, ?_, ?_, hrep⟩
  · rw [htrace, Server.accept, if_pos rfl]
    exact watched_of_failed _ _ _
  · rw [husers]
    exact Function.update_self ..

/-- **A failed `accept` leaves the server as it was, and no other writes outside of the table,
exactly if `accept` did not fail and its descriptor is below `FD_LIMIT`.** In every state that the
event loop reaches with such descriptors, and for every result of `accept`. -/
theorem acceptKeeps_iff {t : State} (h : (server fds).ReachableWhile (Assumed fds) t)
    (haddr : t.server.timerList.heap addr = none) (connfd cur : ℤ) :
    (∃ x, acceptUnchecked fds t.server connfd addr cur = some x ∧
      AcceptKeeps fds t.server connfd x) ↔ 0 ≤ connfd ∧ connfd < FD_LIMIT := by
  obtain ⟨⟨es, hmatched⟩, -⟩ := coherent h
  obtain ⟨s', hrun, -⟩ := hmatched.acceptUnchecked haddr fds connfd cur
  constructor
  · rintro ⟨x, hx, hkeeps⟩
    obtain rfl := Option.some.inj (hrun.symm.trans hx)
    exact hkeeps.indices connfd (by simp)
  · intro hfd
    have hsuccess : connfd ≠ -1 := by omega
    refine ⟨_, hrun, ?_, fun hfail => absurd hfail hsuccess, fun hfail => absurd hfail hsuccess,
      fun hfail => absurd hfail hsuccess⟩
    intro index hindex
    obtain rfl := List.eq_of_mem_replicate hindex
    exact hfd

/-- A connection on descriptor 7, and then the descriptor 8 for the next one. -/
theorem acceptKeeps_iff_example :
    ∃ t : State, t.server.openFds = [7] ∧
      ∃ x, acceptUnchecked ⟨3, 4, 6⟩ t.server 8 2 101 = some x ∧
        AcceptKeeps ⟨3, 4, 6⟩ t.server 8 x := by
  have hinit : (server ⟨3, 4, 6⟩).ReachableWhile (Assumed ⟨3, 4, 6⟩)
      ⟨.new fun _ => ⟨0, none⟩, none⟩ := .init ⟨_, rfl⟩
  obtain ⟨t, hreach, ht⟩ := System.exists_reachableWhile hinit
    [.wait [⟨3, true⟩], .event (.accept 7 1 100), .endBatch 100, .wait [⟨3, true⟩]]
    (fun t => decide (t.server.openFds = [7] ∧ t.server.timerList.heap 2 = none))
    (by decide +kernel)
  obtain ⟨hopen, hfree⟩ := of_decide_eq_true ht
  exact ⟨t, hopen, (acceptKeeps_iff hreach hfree 8 101).mpr (by decide)⟩

/-- The first `accept` fails: a timer is added that designates the memory in front of `users`. -/
theorem not_acceptKeeps_failed :
    ∃ t x, (server ⟨3, 4, 6⟩).ReachableWhile (Assumed ⟨3, 4, 6⟩) t ∧
      t.server.timerList.head = none ∧
      acceptUnchecked ⟨3, 4, 6⟩ t.server (-1) 1 100 = some x ∧ x.indices = [-1, -1, -1, -1] ∧
      x.server.timerList.head = some 1 ∧ ¬ AcceptKeeps ⟨3, 4, 6⟩ t.server (-1) x := by
  have hinit : (server ⟨3, 4, 6⟩).ReachableWhile (Assumed ⟨3, 4, 6⟩)
      ⟨.new fun _ => ⟨0, none⟩, none⟩ := .init ⟨_, rfl⟩
  have hwait := hinit.step (a := .wait [⟨3, true⟩]) (by decide) rfl
  refine ⟨_, _, hwait, rfl, rfl, rfl, rfl, fun hkeeps => ?_⟩
  exact absurd (hkeeps.indices (-1) List.mem_cons_self) (by decide)

end LinuxNetwork.NTimerServer

import LinuxNetwork.IoEpoll

/-!
# The Closings of the Edge-Triggered Handler

A call of `IO_EPOLL::et` (`linux_server/io_epoll.h`) goes through a batch of events and calls `recv`
on a client's socket in a loop. The loop is left when `recv` fails. After a result of 0 the socket
is closed and the loop goes on; the next `recv` is made on a descriptor that is closed, and fails
with `EBADF`, and the descriptor is closed once more.

The batch, the results of `accept` and those of `recv` are input; a descriptor that was closed in
the call, and not returned by `accept` again, is known to be closed, and `recv` fails on it.

## Main definitions

* `etStep`: the handler, one call of `accept` or `recv` at a time.
* `ClosesProperly`: every socket is closed once, when it is over.

## Main results

* `Stale.not_guarded`: what follows when an event names a closed descriptor.
* `closesProperly_iff`: the calls in which every socket is closed properly.
-/

open Transition

namespace LinuxNetwork.IoEpoll

/-- A call of `et`: the events that are left to handle, and the descriptors that it has closed. -/
structure Et where
  batch : List Report
  closed : List ℤ
deriving DecidableEq, Repr

/-- What `et` receives for an event. -/
inductive EtInput where
  /-- The result of `accept`. -/
  | accept (connfd : Option ℤ)
  /-- The result of a call of `recv`. -/
  | recv (ret : RecvResult)
  /-- Nothing is called: "something else happened". -/
  | other
deriving DecidableEq, Repr

/-- What `et` does with a descriptor. -/
inductive EtAction where
  | accept (fd : ℤ)
  | recv (fd : ℤ) (ret : RecvResult)
  | close (fd : ℤ)
deriving DecidableEq, Repr

/-- One step of `et`, with what it does; `none` where it does not receive the input. -/
def etStep (listenfd : ℤ) (s : Et) (input : EtInput) : Option (Et × List EtAction) :=
  match s.batch with
  | [] => none
  | event :: events =>
      match input with
      | .accept (some connfd) =>
          if event.fd = listenfd then
            some (⟨events, s.closed.filter fun fd => decide (fd ≠ connfd)⟩, [.accept connfd])
          else none
      | .accept none => if event.fd = listenfd then some (⟨events, s.closed⟩, []) else none
      | .recv ret =>
          if event.fd ≠ listenfd ∧ event.epollin = true ∧ (event.fd ∈ s.closed → ret = .error) then
            let after := etRecv ret
            some (⟨if after.leaves then events else event :: events,
              if after.closes then event.fd :: s.closed else s.closed⟩,
              .recv event.fd ret :: if after.closes then [.close event.fd] else [])
          else none
      | .other =>
          if event.fd ≠ listenfd ∧ event.epollin = false then some (⟨events, s.closed⟩, [])
          else none

/-! ### What is to be expected of the closings -/

/-- What has become of a socket since it was accepted: `recv` has returned 0 or failed with another
error than `EAGAIN`, and `close` was called. -/
structure Session where
  ended : Bool
  closes : ℕ
deriving DecidableEq, Repr

/-- The result of `recv` tells that the connection is over. -/
def isOver : RecvResult → Bool
  | .data _ => false
  | .eagain => false
  | .error => true
  | .closed => true

/-- An action is noted. -/
def noteEt (n : ℤ → Session) : EtAction → ℤ → Session
  | .accept fd => Function.update n fd ⟨false, 0⟩
  | .recv fd ret => Function.update n fd { n fd with ended := (n fd).ended || isOver ret }
  | .close fd => Function.update n fd { n fd with closes := (n fd).closes + 1 }

/-- A socket that is over was closed. -/
def Settled (n : ℤ → Session) (fd : ℤ) : Prop :=
  (n fd).ended = true → (n fd).closes = 1

/-- `recv` is called on sockets that were not closed, `close` on those that are over and were not
closed, and the descriptor of a socket that is over is not returned by `accept` before it is
closed. -/
def Proper (n : ℤ → Session) : EtAction → Prop
  | .accept fd => Settled n fd
  | .recv fd _ => (n fd).closes = 0
  | .close fd => (n fd).closes = 0 ∧ (n fd).ended = true

/-- **Every socket is closed properly**: at most once, exactly if its peer has closed or `recv` has
failed with another error than `EAGAIN`, and `recv` is not called on it afterwards. -/
structure ClosesProperly (acts : List EtAction) : Prop where
  guarded : Guarded noteEt Proper (fun _ => ⟨false, 0⟩) acts
  settled : ∀ fd, Settled (acts.foldl noteEt fun _ => ⟨false, 0⟩) fd

/-- The step does not receive 0, nor go on with a descriptor that is closed. -/
def OnlyOpen (s : Et) : EtInput → Prop
  | .recv ret => ret ≠ .closed ∧ ∀ event ∈ s.batch.head?, event.fd ∉ s.closed
  | .accept _ => True
  | .other => True

/-- All steps of the call are such. -/
def OnlyOpenAll (listenfd : ℤ) : Et → List EtInput → Prop
  | _, [] => True
  | s, input :: inputs => OnlyOpen s input ∧
      ∀ next ∈ etStep listenfd s input, OnlyOpenAll listenfd next.1 inputs

instance (s : Et) : ∀ input, Decidable (OnlyOpen s input)
  | .recv _ => inferInstanceAs (Decidable (_ ∧ _))
  | .accept _ => inferInstanceAs (Decidable True)
  | .other => inferInstanceAs (Decidable True)

instance decidableOnlyOpenAll (listenfd : ℤ) :
    ∀ s inputs, Decidable (OnlyOpenAll listenfd s inputs)
  | _, [] => inferInstanceAs (Decidable True)
  | _, _ :: inputs =>
      have := fun s => decidableOnlyOpenAll listenfd s inputs
      inferInstanceAs (Decidable (_ ∧ _))

variable {listenfd : ℤ} {s t : Et} {n : ℤ → Session} {fd : ℤ} {input : EtInput} {event : Report}
  {events : List Report} {ret : RecvResult} {inputs : List EtInput} {acts : List EtAction}
  {outs : List (List EtAction)}

/-! ### Steps -/

/-- The notes agree with the descriptors that are known to be closed. -/
def Agrees (s : Et) (n : ℤ → Session) : Prop :=
  ∀ fd, n fd = if fd ∈ s.closed then ⟨true, 1⟩ else ⟨false, 0⟩

/-- Where the notes agree with the known descriptors, every socket that is over was closed once. -/
theorem Agrees.settled (h : Agrees s n) (fd : ℤ) : Settled n fd := by
  rw [Settled, h fd]
  split
  case isTrue => exact fun _ => rfl
  case isFalse => exact fun hover => absurd hover Bool.false_ne_true

/-- A descriptor that is known to be closed was closed, by the notes. -/
theorem Agrees.closes_ne_zero (h : Agrees s n) (hfd : fd ∈ s.closed) : (n fd).closes ≠ 0 := by
  rw [h fd, if_pos hfd]
  exact Nat.one_ne_zero

/-- What a step of `et` does. -/
inductive EtCase (listenfd : ℤ) (s : Et) : EtInput → Et → List EtAction → Prop
  | accept (event : Report) (events : List Report) (connfd : ℤ) :
      s.batch = event :: events → event.fd = listenfd →
      EtCase listenfd s (.accept (some connfd))
        ⟨events, s.closed.filter fun fd => decide (fd ≠ connfd)⟩ [.accept connfd]
  | quiet (event : Report) (events : List Report) (input : EtInput) :
      s.batch = event :: events → (event.fd = listenfd ∨ event.epollin = false) →
      (∀ ret, input ≠ .recv ret) → EtCase listenfd s input ⟨events, s.closed⟩ []
  | recv (event : Report) (events : List Report) (ret : RecvResult) :
      s.batch = event :: events → event.fd ≠ listenfd → event.epollin = true →
      (event.fd ∈ s.closed → ret = .error) →
      EtCase listenfd s (.recv ret) ⟨if (etRecv ret).leaves then events else event :: events,
          if (etRecv ret).closes then event.fd :: s.closed else s.closed⟩
        (.recv event.fd ret :: if (etRecv ret).closes then [.close event.fd] else [])

/-- Every step of `et` is one of the cases, each with the report that it handles and what it
does. -/
theorem etCase_of_step (h : etStep listenfd s input = some (t, acts)) :
    EtCase listenfd s input t acts := by
  cases hbatch : s.batch with
  | nil => simp [etStep, hbatch] at h
  | cons event events =>
      simp only [etStep, hbatch] at h
      cases input with
      | accept connfd =>
          cases connfd with
          | none =>
              obtain ⟨hfd, h⟩ := Option.ite_none_right_eq_some.mp h
              obtain ⟨rfl, rfl⟩ := Prod.mk.inj (Option.some.inj h)
              exact .quiet event events _ hbatch (.inl hfd) nofun
          | some connfd =>
              obtain ⟨hfd, h⟩ := Option.ite_none_right_eq_some.mp h
              obtain ⟨rfl, rfl⟩ := Prod.mk.inj (Option.some.inj h)
              exact .accept event events connfd hbatch hfd
      | recv ret =>
          obtain ⟨⟨hfd, hin, hclosed⟩, h⟩ := Option.ite_none_right_eq_some.mp h
          obtain ⟨rfl, rfl⟩ := Prod.mk.inj (Option.some.inj h)
          exact .recv event events ret hbatch hfd hin hclosed
      | other =>
          obtain ⟨⟨-, hin⟩, h⟩ := Option.ite_none_right_eq_some.mp h
          obtain ⟨rfl, rfl⟩ := Prod.mk.inj (Option.some.inj h)
          exact .quiet event events _ hbatch (.inr hin) nofun

/-- The handler stands at an event of a client whose descriptor was closed. -/
def Stale (listenfd : ℤ) (s : Et) (n : ℤ → Session) : Prop :=
  ∃ event events, s.batch = event :: events ∧ event.fd ≠ listenfd ∧ event.epollin = true ∧
    (n event.fd).closes ≠ 0

/-- **A closed descriptor that is to be handled** is received from once more, and that is not
proper. The rest of the call makes sure that it happens, since it handles all that is in hand. -/
theorem Stale.not_guarded (hstale : Stale listenfd s n)
    (hrun : runCalls (etStep listenfd) s inputs = some (t, outs)) (hdone : t.batch = []) :
    ¬ Guarded noteEt Proper n outs.flatten := by
  obtain ⟨event, events, hbatch, hclient, hin, hcloses⟩ := hstale
  cases inputs with
  | nil =>
      obtain ⟨rfl, -⟩ := Prod.mk.inj (Option.some.inj hrun)
      rw [hbatch] at hdone
      cases hdone
  | cons input inputs =>
      obtain ⟨u, acts, outs, hstep, -, rfl⟩ := runCalls_cons_eq_some.mp hrun
      intro hguarded
      rw [List.flatten_cons] at hguarded
      cases etCase_of_step hstep with
      | accept event' events' connfd hbatch' hlisten =>
          obtain ⟨rfl, -⟩ := List.cons.inj (hbatch.symm.trans hbatch')
          exact hclient hlisten
      | quiet event' events' input hbatch' hskip hrecv =>
          obtain ⟨rfl, -⟩ := List.cons.inj (hbatch.symm.trans hbatch')
          rcases hskip with hlisten | hout
          · exact hclient hlisten
          · exact Bool.false_ne_true (hout.symm.trans hin)
      | recv event' events' ret hbatch' hfd hin' hclosed =>
          obtain ⟨rfl, -⟩ := List.cons.inj (hbatch.symm.trans hbatch')
          exact hcloses (guarded_cons.mp hguarded).1

/-- `et` closes a socket exactly when the result of `recv` tells that it is over. -/
theorem closes_etRecv (ret : RecvResult) : (etRecv ret).closes = isOver ret := by
  cases ret <;> rfl

/-- **A call of `recv`** on an open descriptor, and the closing that may follow it, are proper. -/
theorem Agrees.recv (hagrees : Agrees s n) (hopen : fd ∉ s.closed) (ret : RecvResult)
    (events : List Report) :
    Guarded noteEt Proper n (.recv fd ret :: if (etRecv ret).closes then [.close fd] else []) ∧
      Agrees ⟨events, if (etRecv ret).closes then fd :: s.closed else s.closed⟩
        ((.recv fd ret :: if (etRecv ret).closes then [.close fd] else []).foldl noteEt n) := by
  have hfd : n fd = ⟨false, 0⟩ := (hagrees fd).trans (if_neg hopen)
  have hproper : Proper n (.recv fd ret) := congrArg Session.closes hfd
  have hnote : noteEt n (.recv fd ret) = Function.update n fd ⟨isOver ret, 0⟩ := by
    rw [noteEt, hfd, Bool.false_or]
  rw [closes_etRecv, List.foldl_cons, guarded_cons, hnote]
  cases hover : isOver ret with
  | false =>
      have hsame : Function.update n fd ⟨false, 0⟩ = n := by rw [← hfd, Function.update_eq_self]
      rw [hsame]
      exact ⟨⟨hproper, guarded_nil⟩, hagrees⟩
  | true =>
      refine ⟨⟨hproper, guarded_cons.mpr ⟨?_, guarded_nil⟩⟩, fun x => ?_⟩
      · rw [Proper, Function.update_self]
        exact ⟨rfl, rfl⟩
      · simp only [if_true, List.foldl_cons, List.foldl_nil, noteEt, Function.update_self,
          Function.update_idem, List.mem_cons]
        by_cases hx : x = fd
        · rw [hx, Function.update_self, if_pos (.inl rfl)]
        · rw [Function.update_of_ne hx, hagrees x]
          simp only [hx, false_or]

/-- A descriptor that `accept` returns is open, also if it is the number of one that was closed. -/
theorem Agrees.accept (hagrees : Agrees s n) (connfd : ℤ) (events : List Report) :
    Agrees ⟨events, s.closed.filter fun fd => decide (fd ≠ connfd)⟩
      (noteEt n (.accept connfd)) := by
  intro x
  simp only [noteEt, List.mem_filter, decide_eq_true_eq]
  by_cases hx : x = connfd
  · rw [hx, Function.update_self, if_neg fun hand => hand.2 rfl]
  · rw [Function.update_of_ne hx, hagrees x]
    simp only [and_iff_left hx]

/-- **A step that keeps to open descriptors** is proper. -/
theorem Agrees.step (hagrees : Agrees s n) (hstep : etStep listenfd s input = some (t, acts))
    (honly : OnlyOpen s input) :
    Guarded noteEt Proper n acts ∧ Agrees t (acts.foldl noteEt n) := by
  cases etCase_of_step hstep with
  | accept event events connfd =>
      exact ⟨guarded_cons.mpr ⟨hagrees.settled connfd, guarded_nil⟩, hagrees.accept connfd events⟩
  | quiet => exact ⟨guarded_nil, hagrees⟩
  | recv event events ret hbatch =>
      exact hagrees.recv (honly.2 event (by rw [hbatch]; rfl)) ret _

/-- **A step that does not keep to open descriptors** goes on with one that is closed, or leads
to a state that does: behind a result of 0 the loop is not left, and the closed descriptor is
received from again. -/
theorem Agrees.stale (hagrees : Agrees s n) (hstep : etStep listenfd s input = some (t, acts))
    (honly : ¬ OnlyOpen s input) :
    Stale listenfd s n ∨ Stale listenfd t (acts.foldl noteEt n) := by
  cases etCase_of_step hstep with
  | accept => exact absurd trivial honly
  | quiet event events input _ _ hrecv =>
      cases input with
      | accept | other => exact absurd trivial honly
      | recv ret => exact absurd rfl (hrecv ret)
  | recv event events ret hbatch hclient hin =>
      by_cases hopen : event.fd ∈ s.closed
      · exact .inl ⟨event, events, hbatch, hclient, hin, hagrees.closes_ne_zero hopen⟩
      · have hclosed : ret = .closed := by
          by_contra hne
          refine honly ⟨hne, fun event' hevent' => ?_⟩
          rw [hbatch] at hevent'
          exact Option.some.inj hevent' ▸ hopen
        subst hclosed
        refine .inr ⟨event, events, rfl, hclient, hin, ?_⟩
        exact (hagrees.recv hopen .closed (event :: events)).2.closes_ne_zero
          (show event.fd ∈ event.fd :: s.closed from List.mem_cons_self)

/-! ### Calls -/

/-- From any state that agrees with the notes: the rest of the call closes the sockets properly
exactly if it keeps to open descriptors. -/
theorem Agrees.run (hagrees : Agrees s n)
    (hrun : runCalls (etStep listenfd) s inputs = some (t, outs)) (hdone : t.batch = []) :
    (Guarded noteEt Proper n outs.flatten ∧ ∀ fd, Settled (outs.flatten.foldl noteEt n) fd) ↔
      OnlyOpenAll listenfd s inputs := by
  induction inputs generalizing s n outs with
  | nil =>
      obtain ⟨-, rfl⟩ := Prod.mk.inj (Option.some.inj hrun)
      exact iff_of_true ⟨guarded_nil, hagrees.settled⟩ trivial
  | cons input inputs ih =>
      have hstale := fun h : Stale listenfd s n => h.not_guarded hrun hdone
      obtain ⟨u, acts, outs, hstep, hrest, rfl⟩ := runCalls_cons_eq_some.mp hrun
      have hall : OnlyOpenAll listenfd s (input :: inputs) ↔
          OnlyOpen s input ∧ OnlyOpenAll listenfd u inputs := by
        simp only [OnlyOpenAll, hstep, Option.mem_some_iff, forall_eq']
      rw [hall, List.flatten_cons, guarded_append, List.foldl_append]
      by_cases honly : OnlyOpen s input
      · obtain ⟨hguarded, hagrees'⟩ := hagrees.step hstep honly
        rw [and_iff_right honly, ← ih hagrees' hrest, and_iff_right hguarded]
      · refine iff_of_false ?_ fun h => honly h.1
        rintro ⟨⟨hguarded, hguarded'⟩, -⟩
        rcases hagrees.stale hstep honly with hnow | hthen
        · refine hstale hnow ?_
          rw [List.flatten_cons]
          exact guarded_append.mpr ⟨hguarded, hguarded'⟩
        · exact hthen.not_guarded hrest hdone hguarded'

/-- **`et` closes every socket properly exactly in the calls in which no peer closes its connection,
and no event names a descriptor that was closed before.** For every batch of events and all results
of `accept` and `recv`. -/
theorem closesProperly_iff {batch : List Report}
    (hrun : runCalls (etStep listenfd) ⟨batch, []⟩ inputs = some (t, outs)) (hdone : t.batch = []) :
    ClosesProperly outs.flatten ↔ OnlyOpenAll listenfd ⟨batch, []⟩ inputs := by
  have hagrees : Agrees ⟨batch, []⟩ fun _ => ⟨false, 0⟩ := fun fd => rfl
  rw [← hagrees.run hrun hdone]
  exact ⟨fun h => ⟨h.guarded, h.settled⟩, fun h => ⟨h.1, h.2⟩⟩

/-- A connection is accepted, one client has sent a byte, and another one has reset its
connection. -/
theorem closesProperly_iff_example :
    ∃ t outs, runCalls (etStep 3) ⟨[⟨3, true⟩, ⟨5, true⟩, ⟨6, true⟩], []⟩
      [.accept (some 7), .recv (.data [65]), .recv .eagain, .recv .error] = some (t, outs) ∧
      ClosesProperly outs.flatten := by
  obtain ⟨t, outs, hrun, hdone⟩ : ∃ t outs, runCalls (etStep 3)
      ⟨[⟨3, true⟩, ⟨5, true⟩, ⟨6, true⟩], []⟩
      [.accept (some 7), .recv (.data [65]), .recv .eagain, .recv .error] = some (t, outs) ∧
        t.batch = [] := ⟨_, _, rfl, rfl⟩
  exact ⟨t, outs, hrun, (closesProperly_iff hrun hdone).mpr (by decide)⟩

/-- **A peer closes its connection**: the descriptor is closed, received from and closed again. -/
theorem not_closesProperly_closed :
    ∃ t outs, runCalls (etStep 3) ⟨[⟨5, true⟩], []⟩ [.recv .closed, .recv .error] =
        some (t, outs) ∧ t.batch = [] ∧
      outs.flatten = [.recv 5 .closed, .close 5, .recv 5 .error, .close 5] ∧
      ¬ ClosesProperly outs.flatten := by
  refine ⟨_, _, rfl, rfl, rfl, fun hproper => ?_⟩
  have hrecv := hproper.guarded [.recv 5 .closed, .close 5] (.recv 5 .error) [.close 5] rfl
  exact absurd (show (1 : ℕ) = 0 from hrecv) Nat.one_ne_zero

end LinuxNetwork.IoEpoll

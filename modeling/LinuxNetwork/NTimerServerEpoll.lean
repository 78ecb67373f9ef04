import LinuxNetwork.NTimerServerTimers

/-!
# The Epoll Instance of a Connection

`test_timer_server` adds connections to the epoll instance in its local variable `epollfd`. The
callback that closes a connection takes it off the instance that the static variable of the same
name designates, which nothing assigns: it is 0, the standard input.

`note` keeps, for every descriptor, the instances to which it was added and from which it was
deleted since it was accepted, and `Unregisters` demands of a trace that at every `close` these are
one and the same.

## Main definitions

* `Unregisters`: a descriptor is deleted from the instance it was added to before it is closed.
* `ClosesClient`: the steps that close a connection.

## Main results

* `Ledgered.step`: what a step asks of the kernel.
* `unregisters_iff`: which runs take connections off the instance they were added to.
-/

open Transition

namespace LinuxNetwork.NTimerServer

open SortTimerList (Entry Rep insertEntry firedBy leftBy payload timers)

/-! ### Additions and deletions -/

/-- The epoll instances to which a descriptor was added and from which it was deleted since it was
accepted. -/
structure Ledger where
  adds : List ℤ
  dels : List ℤ
deriving DecidableEq, Repr

/-- An action is noted. -/
def note (n : ℤ → Ledger) : Action → ℤ → Ledger
  | .accept fd => Function.update n fd ⟨[], []⟩
  | .epollAdd epollfd fd => Function.update n fd { n fd with adds := (n fd).adds ++ [epollfd] }
  | .epollDel epollfd fd => Function.update n fd { n fd with dels := (n fd).dels ++ [epollfd] }
  | .close _ => n
  | .addTimer _ => n
  | .adjustTimer _ => n
  | .delTimer _ => n
  | .alarm => n

/-- A descriptor that is closed was added to one instance, and deleted once, from this one. -/
def Unregistered (n : ℤ → Ledger) : Action → Prop
  | .close fd => ∃ epollfd, n fd = ⟨[epollfd], [epollfd]⟩
  | _ => True

/-- The notes on a trace. -/
def notes (trace : List Action) : ℤ → Ledger :=
  trace.foldl note fun _ => ⟨[], []⟩

/-- **Connections are unregistered where they were registered**: in front of every `close`, since
the descriptor was accepted, there are one `EPOLL_CTL_ADD` and one `EPOLL_CTL_DEL` for it, on the
same epoll instance. -/
def Unregisters (trace : List Action) : Prop :=
  Guarded note Unregistered (fun _ => ⟨[], []⟩) trace

/-- The open connections were added to the instance of `test_timer_server`, and not deleted. -/
def Ledgered (fds : Fds) (s : Server) : Prop :=
  ∀ fd ∈ s.openFds, notes s.trace fd = ⟨[fds.epollfd], []⟩

/-! ### The steps that close a connection -/

/-- The timer at the head of the list has expired. -/
def HeadExpired (l : SortTimerList ℤ) (cur : ℤ) : Prop :=
  ∃ p t, l.head = some p ∧ l.heap p = some t ∧ t.expire ≤ cur

/-- The step closes a connection: `recv` fails, other than with `EAGAIN`, or returns 0, or there is
a signal to handle behind the batch, and the first timer has expired. -/
def ClosesClient (s : State) : Act → Prop
  | .event (.recv .error _) => True
  | .event (.recv .closed _) => True
  | .event _ => False
  | .wait _ => False
  | .endBatch cur => s.server.timeout = true ∧ HeadExpired s.server.timerList cur

/-- No step of the run closes a connection. -/
def NoneCloses (fds : Fds) : State → List Act → Prop
  | _, [] => True
  | s, a :: as => ¬ ClosesClient s a ∧ ∀ t, (server fds).step s a = some t → NoneCloses fds t as

variable {fds : Fds} {s s' : Server} {es es' es₁ es₂ fs : List (Entry ℤ)} {e : Entry ℤ}
  {fd cur : ℤ} {addr : Ptr} {input : Input} {event : Report} {acts trace : List Action}
  {n : ℤ → Ledger}

theorem notes_append (trace acts : List Action) :
    notes (trace ++ acts) = acts.foldl note (notes trace) :=
  List.foldl_append

/-- A longer trace unregisters its connections if its beginning does, and the rest from there
on. -/
theorem unregisters_append :
    Unregisters (trace ++ acts) ↔
      Unregisters trace ∧ Guarded note Unregistered (notes trace) acts :=
  guarded_append

/-- The first timer has expired exactly if `tick` fires an entry, since `tick` looks at the
first one first. -/
theorem headExpired_iff {l : SortTimerList ℤ} (h : Rep l es) :
    HeadExpired l cur ↔ firedBy cur es ≠ [] := by
  cases es with
  | nil =>
      have hhead : l.head = none := h.chain.head_eq
      refine iff_of_false ?_ fun hne => hne rfl
      rintro ⟨p, t, hp, -⟩
      exact nomatch hhead.symm.trans hp
  | cons e es =>
      have hhead : l.head = some e.timer := h.chain.head_eq
      have hdata := h.data e List.mem_cons_self
      rw [payload, Heap.view, Option.map_eq_some_iff] at hdata
      obtain ⟨t, ht, hdata⟩ := hdata
      have hexpire : t.expire = e.expire := congrArg Prod.fst hdata
      have hfired : firedBy cur (e :: es) ≠ [] ↔ e.expire ≤ cur := by
        by_cases hle : e.expire ≤ cur <;> simp [firedBy, hle]
      rw [hfired, ← hexpire]
      constructor
      · rintro ⟨p, t', hp, ht', hle⟩
        obtain rfl := Option.some.inj (hhead.symm.trans hp)
        obtain rfl := Option.some.inj (ht.symm.trans ht')
        exact hle
      · exact fun hle => ⟨e.timer, t, hhead, ht, hle⟩

/-- An action that concerns neither the epoll instances nor the descriptors. -/
def Action.onTimers : Action → Bool
  | .addTimer _ | .adjustTimer _ | .delTimer _ | .alarm => true
  | .accept _ | .epollAdd _ _ | .epollDel _ _ | .close _ => false

/-- Such actions change no notes, and are right whatever the notes are. -/
theorem onTimers_spec (n : ℤ → Ledger) (hacts : ∀ a ∈ acts, a.onTimers = true) :
    acts.foldl note n = n ∧ Guarded note Unregistered n acts := by
  induction acts with
  | nil => exact ⟨rfl, guarded_nil⟩
  | cons a acts ih =>
      obtain ⟨hnote, hguarded⟩ := ih fun b hb => hacts b (List.mem_cons_of_mem a hb)
      have ha := hacts a List.mem_cons_self
      cases a with
      | accept | epollAdd | epollDel | close => cases ha
      | addTimer | adjustTimer | delTimer | alarm =>
          exact ⟨hnote, guarded_cons.mpr ⟨trivial, hguarded⟩⟩

/-- **The callback** takes a connection off the right instance exactly if the static variable
designates it. -/
theorem guarded_cbFunc (hadded : n fd = ⟨[fds.epollfd], []⟩) :
    Guarded note Unregistered n [.epollDel staticEpollfd fd, .close fd] ↔
      fds.epollfd = staticEpollfd := by
  have hnoted : note n (.epollDel staticEpollfd fd) fd = ⟨[fds.epollfd], [staticEpollfd]⟩ := by
    rw [note, Function.update_self, hadded]
    rfl
  have hclose : Unregistered (note n (.epollDel staticEpollfd fd)) (.close fd) ↔
      fds.epollfd = staticEpollfd := by
    constructor
    · rintro ⟨epollfd, heq⟩
      obtain ⟨hadd, hdel⟩ := Ledger.mk.inj (hnoted.symm.trans heq)
      exact (List.singleton_inj.mp hadd).trans (List.singleton_inj.mp hdel).symm
    · exact fun heq => ⟨staticEpollfd, by rw [hnoted, heq]⟩
  rw [guarded_cons, guarded_cons, hclose]
  exact ⟨fun h => h.2.1, fun h => ⟨trivial, h, guarded_nil⟩⟩

/-- The callbacks note nothing about the descriptors of other connections. -/
theorem notes_closings (n : ℤ → Ledger) (hfd : fd ∉ fs.map Entry.userData) :
    (closings fs).foldl note n fd = n fd := by
  induction fs generalizing n with
  | nil => rfl
  | cons e fs ih =>
      rw [List.map_cons, List.mem_cons, not_or] at hfd
      exact (ih _ hfd.2).trans (Function.update_of_ne hfd.1 _ _)

/-- **The callbacks of several connections** take them off the right instance exactly if the static
variable designates it, or there are none. -/
theorem guarded_closings (hnodup : (fs.map Entry.userData).Nodup)
    (hadded : ∀ e ∈ fs, n e.userData = ⟨[fds.epollfd], []⟩) :
    Guarded note Unregistered n (closings fs) ↔ fds.epollfd = staticEpollfd ∨ fs = [] := by
  induction fs generalizing n with
  | nil => exact iff_of_true guarded_nil (.inr rfl)
  | cons e fs ih =>
      rw [List.map_cons, List.nodup_cons] at hnodup
      have hsplit : closings (e :: fs) =
          [.epollDel staticEpollfd e.userData, .close e.userData] ++ closings fs := rfl
      rw [hsplit, guarded_append, guarded_cbFunc (hadded e List.mem_cons_self), ih hnodup.2]
      · simp only [reduceCtorEq, or_false]
        exact and_iff_left_of_imp .inl
      · intro f hf
        have hne : f.userData ≠ e.userData := fun heq =>
          hnodup.1 (heq ▸ List.mem_map_of_mem hf)
        exact (Function.update_of_ne hne _ _).trans (hadded f (List.mem_cons_of_mem e hf))

/-! ### Steps -/

variable {s t : State} {a : Act}

/-- **What a step asks of the kernel**: it keeps the open connections on the instance they were
added to, and takes those that it closes off this instance exactly if the static variable designates
it, or it closes none. -/
def Asks (fds : Fds) (s : State) (a : Act) (t : State) : Prop :=
  ∃ acts, t.server.trace = s.server.trace ++ acts ∧ Ledgered fds t.server ∧
    (Guarded note Unregistered (notes s.server.trace) acts ↔
      fds.epollfd = staticEpollfd ∨ ¬ ClosesClient s a)

/-- A step that touches timers only asks nothing of the epoll instance and closes no connection. -/
theorem asks_of_onTimers (hledger : Ledgered fds s.server) (hcloses : ¬ ClosesClient s a)
    (hopen : t.server.openFds = s.server.openFds)
    (htrace : t.server.trace = s.server.trace ++ acts)
    (hacts : ∀ x ∈ acts, x.onTimers = true) : Asks fds s a t := by
  obtain ⟨hnote, hguarded⟩ := onTimers_spec (notes s.server.trace) hacts
  refine ⟨acts, htrace, fun fd hfd => ?_, iff_of_true hguarded (.inr hcloses)⟩
  rw [htrace, notes_append, hnote]
  exact hledger fd (hopen ▸ hfd)

/-- A step that asks nothing of the kernel leaves the notes as they are. -/
theorem asks_of_kept (hledger : Ledgered fds s.server) (hcloses : ¬ ClosesClient s a)
    (hopen : t.server.openFds = s.server.openFds) (htrace : t.server.trace = s.server.trace) :
    Asks fds s a t := by
  rw [← List.append_nil s.server.trace] at htrace
  exact asks_of_onTimers hledger hcloses hopen htrace nofun

/-- **A closed connection** is taken off the instance that the static variable designates. -/
theorem asks_of_closings (hledger : Ledgered fds s.server) (hregistered : Registered s.server es)
    (hfs : fs.Sublist es) (hopen : ∀ fd ∈ t.server.openFds,
      fd ∈ s.server.openFds ∧ fd ∉ fs.map Entry.userData)
    (htrace : t.server.trace = s.server.trace ++ (closings fs ++ acts))
    (hacts : ∀ x ∈ acts, x.onTimers = true) (hcloses : ClosesClient s a ↔ fs ≠ []) :
    Asks fds s a t := by
  have hnodup := hregistered.nodup_userData.sublist (hfs.map Entry.userData)
  obtain ⟨hnote, hguarded⟩ := onTimers_spec ((closings fs).foldl note (notes s.server.trace)) hacts
  refine ⟨_, htrace, fun fd hfd => ?_, ?_⟩
  · obtain ⟨hold, hkept⟩ := hopen fd hfd
    rw [htrace, notes_append, List.foldl_append, hnote, notes_closings _ hkept]
    exact hledger fd hold
  · rw [guarded_append, and_iff_left hguarded, hcloses, not_not]
    exact guarded_closings hnodup fun e he =>
      hledger _ (hregistered.mem_openFds (hfs.subset he))

/-- A connection that `recv` shows to be over is closed, by an error as by the end of the
stream. -/
theorem handleClient_of_over {result : RecvResult} (hresult : result = .error ∨ result = .closed)
    (hreg : Registered s.server es) (he : e ∈ es) :
    handleClient s.server e.userData result cur =
      closeClient s.server e.userData (some e.timer) := by
  rw [handleClient, hreg.user he]
  rcases hresult with rfl | rfl <;> rfl

/-- **A new connection** is added to the instance of `test_timer_server`. -/
theorem asks_of_accept (hledger : Ledgered fds s.server) (hcloses : ¬ ClosesClient s a)
    (hopen : t.server.openFds = fd :: s.server.openFds)
    (htrace : t.server.trace =
      s.server.trace ++ [.accept fd, .epollAdd fds.epollfd fd, .addTimer addr]) :
    Asks fds s a t := by
  refine ⟨_, htrace, fun x hx => ?_, iff_of_true ?_ (.inr hcloses)⟩
  · rw [htrace, notes_append]
    simp only [List.foldl_cons, List.foldl_nil, note]
    by_cases hxfd : x = fd
    · rw [hxfd, Function.update_self, Function.update_self]
      rfl
    · rw [Function.update_of_ne hxfd, Function.update_of_ne hxfd]
      exact hledger x ((List.mem_cons.mp (hopen ▸ hx)).resolve_left hxfd)
  · exact guarded_cons.mpr ⟨trivial, guarded_cons.mpr ⟨trivial, guarded_cons.mpr
      ⟨trivial, guarded_nil⟩⟩⟩

/-- **The branch of a client descriptor.** Data touch timers only. An error and the end of the
connection are handled alike: the callback closes it. -/
theorem Ledgered.recv {s' : Server} {result : RecvResult} {batch : Option (List Report)}
    (hledger : Ledgered fds s.server) (hmatched : Matched s.server (es₁ ++ e :: es₂))
    (hs' : handleClient s.server e.userData result cur = some s') :
    Asks fds s (.event (.recv result cur)) ⟨s', batch⟩ := by
  have hreg := hmatched.registered
  have hclose : result = .error ∨ result = .closed →
      Asks fds s (.event (.recv result cur)) ⟨s', batch⟩ := by
    intro hover
    rw [handleClient_of_over hover hreg (by simp)] at hs'
    obtain ⟨s₁, hrun, -, hopen, htrace⟩ := hmatched.closeClient
    obtain rfl := Option.some.inj (hrun.symm.trans hs')
    have hsub : [e].Sublist (es₁ ++ e :: es₂) := by simp
    have hacts : s₁.trace = s.server.trace ++ (closings [e] ++ [.delTimer e.timer]) := htrace
    refine asks_of_closings hledger hreg hsub (fun fd hfd => ?_) hacts
      (by simp [Action.onTimers]) ?_
    · rw [hopen, hreg.nodup.mem_erase_iff] at hfd
      exact ⟨hfd.2, by simpa using hfd.1⟩
    · refine iff_of_true ?_ (List.cons_ne_nil _ _)
      rcases hover with rfl | rfl <;> trivial
  cases result with
  | data bytes =>
      obtain ⟨s₁, hrun, -, hopen, htrace⟩ := hmatched.data bytes cur
      obtain rfl := Option.some.inj (hrun.symm.trans hs')
      exact asks_of_onTimers hledger id hopen htrace (by simp [Action.onTimers])
  | eagain =>
      rw [handleClient, hreg.user (by simp)] at hs'
      obtain rfl := Option.some.inj hs'
      exact asks_of_kept hledger id rfl rfl
  | error => exact hclose (.inl rfl)
  | closed => exact hclose (.inr rfl)

/-- **What follows a batch**: `timer_handler` closes the connections whose timers have expired, if
the flag is up. A connection that is left is not among these, so its notes stay as they were. -/
theorem Ledgered.endBatch {s' : Server} {batch : Option (List Report)}
    (hledger : Ledgered fds s.server) (hmatched : Matched s.server es)
    (hs' : NTimerServer.endBatch s.server cur = some s') :
    Asks fds s (.endBatch cur) ⟨s', batch⟩ := by
  have hreg := hmatched.registered
  rw [NTimerServer.endBatch] at hs'
  by_cases htimeout : s.server.timeout = true
  · rw [if_pos htimeout] at hs'
    obtain ⟨s₁, hrun, hmatched₁, hs₁⟩ := hmatched.timerHandler cur
    obtain ⟨s₂, hrun₂, hs'⟩ := Option.bind_eq_some_iff.mp hs'
    obtain rfl := Option.some.inj (hrun.symm.trans hrun₂)
    obtain rfl := Option.some.inj hs'
    have hsplit : firedBy cur es ++ leftBy cur es = es := List.takeWhile_append_dropWhile
    have hsub : (firedBy cur es).Sublist es := List.takeWhile_sublist _
    have hacts : s₁.trace = s.server.trace ++ (closings (firedBy cur es) ++ [.alarm]) :=
      congrArg Server.trace hs₁
    refine asks_of_closings hledger hreg hsub (fun fd hfd => ?_) hacts
      (by simp [Action.onTimers]) ?_
    · have hleft := hmatched₁.registered.fds.mem_iff.mpr hfd
      have hnodup := hreg.nodup_userData
      rw [← hsplit, List.map_append] at hnodup
      refine ⟨hreg.fds.mem_iff.mp ?_, fun hfired => ?_⟩
      · rw [← hsplit, List.map_append]
        exact List.mem_append_right _ hleft
      · exact List.disjoint_of_nodup_append hnodup hfired hleft
    · rw [ClosesClient, headExpired_iff hmatched.rep]
      exact and_iff_right htimeout
  · rw [if_neg htimeout] at hs'
    obtain rfl := Option.some.inj hs'
    exact asks_of_kept hledger (fun hcloses => htimeout hcloses.1) rfl rfl

/-- **Every step** asks the kernel for what it should, unless it closes a connection and the static
variable designates another instance. -/
theorem Ledgered.step (hledger : Ledgered fds s.server) (hmatched : Matched s.server es)
    (hbatch : BatchOpen fds s) (hassumed : Assumed fds s a)
    (hstep : (server fds).step s a = some t) : Asks fds s a t := by
  cases a with
  | wait events =>
      obtain ⟨-, -, rfl⟩ := step_wait_eq_some.mp hstep
      exact asks_of_kept hledger id rfl rfl
  | endBatch cur =>
      obtain ⟨s', -, hs', rfl⟩ := step_endBatch_eq_some.mp hstep
      exact hledger.endBatch hmatched hs'
  | event input =>
      obtain ⟨event, batch, s', hb, hs', rfl⟩ := step_event_eq_some.mp hstep
      have htakes := takes_of_handleEvent hs'
      unfold handleEvent at hs'
      cases input with
      | accept connfd addr cur =>
          rw [if_pos (show event.fd = fds.listenfd from htakes)] at hs'
          obtain ⟨hlo, hhi, hnew, -, -, haddr⟩ := hassumed
          obtain ⟨s₁, hrun, -, hopen, htrace⟩ :=
            hmatched.handleAccept fds ⟨hlo, hhi⟩ hnew haddr cur
          obtain rfl := Option.some.inj (hrun.symm.trans hs')
          exact asks_of_accept hledger id hopen htrace
      | signals received =>
          obtain ⟨hlisten, hpipe, hin⟩ := htakes
          rw [if_neg hlisten, if_pos ⟨hpipe, hin⟩] at hs'
          cases received with
          | none =>
              obtain rfl := Option.some.inj hs'
              exact asks_of_kept hledger id rfl rfl
          | some signals =>
              obtain rfl := Option.some.inj hs'
              obtain ⟨timeout, stopServer, heq⟩ := handleSignals_eq s.server signals
              rw [heq]
              exact asks_of_kept hledger id rfl rfl
      | none =>
          obtain ⟨hlisten, hin⟩ := htakes
          simp only [hlisten, if_false, hin, Bool.false_eq_true, and_false] at hs'
          obtain rfl := Option.some.inj hs'
          exact asks_of_kept hledger id rfl rfl
      | recv result cur =>
          obtain ⟨hlisten, hpipe, hin⟩ := htakes
          rw [if_neg hlisten, if_neg (fun hp => hpipe hp.1), if_pos hin] at hs'
          have hfd := (((hbatch _ hb).2 event List.mem_cons_self).resolve_left hlisten).resolve_left
            hpipe
          obtain ⟨es₁, e, es₂, rfl, hefd⟩ := hmatched.registered.exists_split hfd
          rw [← hefd] at hs'
          exact hledger.recv hmatched hs'

/-! ### Runs -/

variable {as : List Act}

/-- From any state that the event loop reaches: a run adds nothing wrong to the trace exactly if the
static variable designates the right instance, or no step closes a connection. -/
theorem Ledgered.run (hledger : Ledgered fds s.server)
    (hreach : (server fds).ReachableWhile (Assumed fds) s)
    (hrun : (server fds).runWhile (Assumed fds) s as = some t) :
    Unregisters t.server.trace ↔ Unregisters s.server.trace ∧
      (fds.epollfd = staticEpollfd ∨ NoneCloses fds s as) := by
  induction as generalizing s with
  | nil =>
      obtain rfl := Option.some.inj hrun
      exact (and_iff_left (.inr trivial)).symm
  | cons a as ih =>
      obtain ⟨hassumed, hrun⟩ := Option.ite_none_right_eq_some.mp hrun
      obtain ⟨u, hstep, hrun⟩ := Option.bind_eq_some_iff.mp hrun
      obtain ⟨⟨es, hmatched⟩, hbatch⟩ := coherent hreach
      obtain ⟨acts, htrace, hledger', hguarded⟩ :=
        hledger.step hmatched hbatch hassumed hstep
      have hrest : NoneCloses fds s (a :: as) ↔ ¬ ClosesClient s a ∧ NoneCloses fds u as := by
        rw [NoneCloses, hstep]
        simp only [Option.some.injEq, forall_eq']
      rw [ih hledger' (.step hreach hassumed hstep) hrun, htrace, unregisters_append, hguarded,
        hrest, or_and_left, and_assoc]

/-- **Connections are unregistered where they were registered exactly in the runs in which none is
closed**, unless the epoll instance of `test_timer_server` is the one that the static variable
designates. For every run, with inputs that the event loop may assume. -/
theorem unregisters_iff {users : ℤ → ClientData}
    (hrun : (server fds).runWhile (Assumed fds) ⟨.new users, none⟩ as = some t) :
    Unregisters t.server.trace ↔
      fds.epollfd = staticEpollfd ∨ NoneCloses fds ⟨.new users, none⟩ as := by
  have hledger : Ledgered fds (Server.new users) := nofun
  rw [hledger.run (s := ⟨.new users, none⟩) (.init ⟨users, rfl⟩) hrun]
  exact and_iff_right guarded_nil

/-- A connection is accepted, and not closed before the batch ends. -/
theorem unregisters_iff_example :
    ∃ t, (server ⟨3, 4, 6⟩).runWhile (Assumed ⟨3, 4, 6⟩) ⟨.new fun _ => ⟨0, none⟩, none⟩
      [.wait [⟨3, true⟩], .event (.accept 7 1 100), .endBatch 100] = some t ∧
      t.server.openFds = [7] ∧ Unregisters t.server.trace := by
  obtain ⟨t, hrun, hopen⟩ : ∃ t, (server ⟨3, 4, 6⟩).runWhile (Assumed ⟨3, 4, 6⟩)
      ⟨.new fun _ => ⟨0, none⟩, none⟩ [.wait [⟨3, true⟩], .event (.accept 7 1 100),
        .endBatch 100] = some t ∧ t.server.openFds = [7] := ⟨_, rfl, rfl⟩
  refine ⟨t, hrun, hopen, (unregisters_iff hrun).mpr (.inr ?_)⟩
  refine ⟨id, fun t ht => ⟨id, fun u hu => ⟨?_, fun _ _ => trivial⟩⟩⟩
  obtain rfl := Option.some.inj ht
  obtain rfl := Option.some.inj hu
  exact fun hcloses => absurd hcloses.1 (by decide)

/-- **A connection is closed by its peer**: it is taken off the instance 0, and not off the instance
6, to which it was added. -/
theorem not_unregisters_closed :
    ∃ t, (server ⟨3, 4, 6⟩).runWhile (Assumed ⟨3, 4, 6⟩) ⟨.new fun _ => ⟨0, none⟩, none⟩
      [.wait [⟨3, true⟩], .event (.accept 7 1 100), .endBatch 100,
        .wait [⟨7, true⟩], .event (.recv .closed 101)] = some t ∧
      t.server.trace = [.accept 7, .epollAdd 6 7, .addTimer 1, .epollDel 0 7, .close 7,
        .delTimer 1] ∧ ¬ Unregisters t.server.trace := by
  refine ⟨_, rfl, rfl, fun hall => ?_⟩
  obtain ⟨epollfd, heq⟩ := hall [.accept 7, .epollAdd 6 7, .addTimer 1, .epollDel 0 7] (.close 7)
    [.delTimer 1] rfl
  obtain ⟨hadd, hdel⟩ := Ledger.mk.inj heq
  exact absurd (hadd.trans hdel.symm) (by decide)

end LinuxNetwork.NTimerServer

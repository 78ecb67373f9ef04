import LinuxNetwork.NTimerServerKernel
import LinuxNetwork.NTimerServerTimers

/-!
# Merged Arrivals at the Server

A report of `listenfd` may stand for several connections, and a report of a connection for
any number of bytes. The event loop answers the first with one `accept` and the second with
one `recv` of at most `BUFFER_SIZE - 1` bytes. What the answer leaves behind is not reported
again before something else arrives on the descriptor.

## Main results

* `World.Sound.step`, `World.Sound.assumed`: the kernel reports what the server may assume.
* `nothingLost_iff`: what a step leaves behind.
* `nothing_left_waiting`: runs in which every report is drained.
-/

open Transition EdgeTriggered

namespace LinuxNetwork.NTimerServer

open SortTimerList (Entry)

namespace World

/-- Something waits at the descriptor: a connection to accept, or unread bytes of an open
connection. -/
def Waits (fds : Fds) (w : World) (fd : ℤ) : Prop :=
  if fd = fds.listenfd then w.kernel.backlog ≠ []
  else fd ∈ w.loop.server.openFds ∧ w.kernel.unread fd ≠ []

/-- The reports still to handle. -/
def reported (w : World) : List ℤ :=
  (w.loop.batch.getD []).map Report.fd

/-- **Nothing is lost**: whatever waits is due to be reported, or its report is still to be
handled. -/
def NothingLost (fds : Fds) (w : World) : Prop :=
  Due (w.Waits fds) w.kernel.ready w.reported

/-- What the server may assume of `accept` and `new`. -/
def Assumed (fds : Fds) (w : World) : Move → Prop
  | .loop (.event input) => NTimerServer.Assumed fds w.loop (.event input)
  | _ => True

/-- **A report is drained**: when the event loop handles a report of `listenfd`, at most one
connection waits, and when it handles data of a connection, at most `BUFFER_SIZE - 1` bytes
are unread, unless a newer arrival is still to be reported. -/
def Drains (fds : Fds) (w : World) : Move → Prop
  | .loop (.event (.accept _ _ _)) =>
      w.kernel.backlog.length ≤ 1 ∨ fds.listenfd ∈ w.kernel.ready
  | .loop (.event (.recv (.data _) _)) => ∀ fd ∈ w.reported.head?,
      (w.kernel.unread fd).length ≤ BUFFER_SIZE - 1 ∨ fd ∈ w.kernel.ready
  | _ => True

instance (fds : Fds) (w : World) (m : Move) : Decidable (w.Assumed fds m) := by
  unfold Assumed
  split <;> infer_instance

instance (fds : Fds) (w : World) (m : Move) : Decidable (w.Drains fds m) := by
  unfold Drains
  split <;> infer_instance

/-- The invariant of the event loop, and of the descriptors that may be reported to it. -/
structure Sound (fds : Fds) (w : World) : Prop where
  coherent : Coherent fds w.loop
  listenfd : fds.listenfd ∉ w.loop.server.openFds
  pipefd0 : fds.pipefd0 ∉ w.loop.server.openFds
  ready : ∀ fd ∈ w.kernel.ready,
    fd = fds.listenfd ∨ fd = fds.pipefd0 ∨ fd ∈ w.loop.server.openFds
  /-- All reports are of arrivals. -/
  epollin : ∀ batch, w.loop.batch = some batch → ∀ event ∈ batch, event.epollin = true

end World

variable {fds : Fds} {s t : State} {a : Act} {w v : World} {m : Move} {input : Input}
  {fd cur : ℤ} {es es' : List (Entry ℤ)}

/-! ### The open descriptors -/

/-- Only an acceptance opens a descriptor: the other changes restart an entry, remove it or
leave it. -/
theorem Change.mem_userData (h : Change fd input es es') {x : ℤ}
    (hx : x ∈ es'.map Entry.userData) :
    x ∈ es.map Entry.userData ∨ ∃ addr cur, input = .accept x addr cur := by
  obtain ⟨e, he, rfl⟩ := List.mem_map.mp hx
  cases h with
  | accept connfd addr cur =>
      rcases StableQueue.mem_insert.mp he with rfl | he
      · exact .inr ⟨addr, cur, rfl⟩
      · exact .inl (List.mem_map_of_mem he)
  | restart bytes cur es₁ es₂ f =>
      refine .inl ?_
      rcases List.mem_append.mp he with he | he
      · exact List.mem_map_of_mem (List.mem_append_left _ he)
      · rcases StableQueue.mem_insert.mp he with rfl | he
        · simp
        · exact List.mem_map_of_mem (by simp [he])
  | close result cur es₁ es₂ f =>
      refine .inl (List.mem_map_of_mem ?_)
      rcases List.mem_append.mp he with he | he <;> simp [he]
  | keep _ _ => exact .inl hx

/-- Steps of the event loop keep its invariant, and only an acceptance opens a descriptor. -/
theorem Coherent.step (h : Coherent fds s) (hassumed : Assumed fds s a)
    (hstep : (server fds).step s a = some t) :
    Coherent fds t ∧ ∀ fd ∈ t.server.openFds, fd ∈ s.server.openFds ∨
      ∃ addr cur, a = .event (.accept fd addr cur) := by
  obtain ⟨⟨es, hmatched⟩, hbatch⟩ := h
  obtain ⟨t', es', acts, hstep', hmatched', hbatch', hentries, -⟩ :=
    step_spec hmatched hbatch hassumed (enabled_of_step hstep)
  obtain rfl := Option.some.inj (hstep'.symm.trans hstep)
  refine ⟨⟨⟨es', hmatched'⟩, hbatch'⟩, fun fd hfd => ?_⟩
  rw [← hmatched'.registered.fds.mem_iff] at hfd
  rw [← hmatched.registered.fds.mem_iff]
  cases hentries with
  | wait | skip => exact .inl hfd
  | tick cur => exact .inl (((List.dropWhile_sublist _).map _).subset hfd)
  | event event batch input _ _ _ hchange =>
      refine (hchange.mem_userData hfd).imp_right ?_
      rintro ⟨addr, cur, rfl⟩
      exact ⟨addr, cur, rfl⟩

/-- What an event does to the entries is one of the changes, with the entries matched on both
sides. -/
theorem Coherent.change {event : Report} {batch : List Report} (h : Coherent fds s)
    (hassumed : Assumed fds s (.event input)) (hb : s.batch = some (event :: batch))
    (hstep : (server fds).step s (.event input) = some t) :
    ∃ es es', Matched s.server es ∧ Matched t.server es' ∧ Change event.fd input es es' := by
  obtain ⟨⟨es, hmatched⟩, hbatch⟩ := h
  obtain ⟨t', es', acts, hstep', hmatched', -, hentries, -⟩ :=
    step_spec hmatched hbatch hassumed (enabled_of_step hstep)
  obtain rfl := Option.some.inj (hstep'.symm.trans hstep)
  cases hentries with
  | event event' batch' _ _ _ hb' hchange =>
      obtain ⟨rfl, -⟩ := List.cons.inj (Option.some.inj (hb.symm.trans hb'))
      exact ⟨es, es', hmatched, hmatched', hchange⟩

/-- A connection stays open when its data are handled: its timer is restarted. -/
theorem Change.mem_of_data {bytes : List UInt8}
    (h : Change fd (.recv (.data bytes) cur) es es') : fd ∈ es'.map Entry.userData := by
  cases h with
  | restart _ _ es₁ es₂ e hfd =>
      rw [List.map_append]
      refine List.mem_append_right _
        (List.mem_map.mpr ⟨{ e with expire := cur + 3 * TIMESLOT }, ?_, hfd⟩)
      exact StableQueue.mem_insert.mpr (.inl rfl)
  | close _ _ _ _ _ hresult => rcases hresult with h | h <;> cases h
  | keep _ _ hkeeps => cases hkeeps

/-- A connection is closed on an error and at its end: its entry is removed, and no other has
the descriptor. -/
theorem Change.notMem_of_close {s : Server} {result : RecvResult} (hreg : Registered s es)
    (hresult : result = .error ∨ result = .closed)
    (h : Change fd (.recv result cur) es es') : fd ∉ es'.map Entry.userData := by
  cases h with
  | restart => rcases hresult with h | h <;> cases h
  | close _ _ es₁ es₂ e _ hfd =>
      intro hmem
      obtain ⟨f, hf, heq⟩ := List.mem_map.mp hmem
      exact hreg.userData_ne f hf (heq.trans hfd.symm)
  | keep _ _ hkeeps => rcases hresult with rfl | rfl <;> cases hkeeps

/-- A step of the event loop and its sockets: the kernel answers, the loop goes on, and closed
descriptors are forgotten. -/
theorem step_loop_eq_some :
    (world fds).step w (.loop a) = some v ↔
      ∃ k s, w.kernel.answer w.loop.batch a = some k ∧ (server fds).step w.loop a = some s ∧
        v = ⟨s, k.forget fds s.server.openFds⟩ := by
  simp [world, server, World.step, Option.bind_eq_some_iff, eq_comm (b := v)]

/-- The kernel reports what the server may assume: no descriptor twice, and only its own and
open ones. -/
theorem World.Sound.assumed (h : w.Sound fds) (hassumed : w.Assumed fds (.loop a)) {k : Kernel}
    (hanswer : w.kernel.answer w.loop.batch a = some k) : NTimerServer.Assumed fds w.loop a := by
  cases a with
  | wait events =>
      simp only [Kernel.answer, Option.ite_none_right_eq_some] at hanswer
      obtain ⟨⟨hnodup, -, hready⟩, -⟩ := hanswer
      exact ⟨hnodup, fun event hevent => h.ready _ (hready event hevent).1⟩
  | event input => exact hassumed
  | endBatch cur => trivial

/-- **Every step** keeps the invariant, those of the event loop and the arrivals. -/
theorem World.Sound.step (h : w.Sound fds) (hassumed : w.Assumed fds m)
    (hstep : (world fds).step w m = some v) : v.Sound fds := by
  have hmark : ∀ {fd : ℤ}, fd = fds.listenfd ∨ fd = fds.pipefd0 ∨
      fd ∈ w.loop.server.openFds → ∀ x ∈ mark fd w.kernel.ready,
        x = fds.listenfd ∨ x = fds.pipefd0 ∨ x ∈ w.loop.server.openFds := by
    intro fd hfd x hx
    rcases mem_mark.mp hx with rfl | hx
    · exact hfd
    · exact h.ready x hx
  cases m with
  | connect =>
      obtain rfl := Option.some.inj hstep
      exact { h with ready := hmark (.inl rfl) }
  | arriveQueued index bytes =>
      obtain rfl := Option.some.inj hstep
      exact { h with }
  | arrive fd bytes =>
      obtain ⟨⟨hfd, -⟩, hv⟩ := Option.ite_none_right_eq_some.mp hstep
      obtain rfl := Option.some.inj hv
      exact { h with ready := hmark (.inr (.inr hfd)) }
  | hangUp fd =>
      obtain ⟨hfd, hv⟩ := Option.ite_none_right_eq_some.mp hstep
      obtain rfl := Option.some.inj hv
      exact { h with ready := hmark (.inr (.inr hfd)) }
  | signal sig =>
      obtain rfl := Option.some.inj hstep
      exact { h with ready := hmark (.inr (.inl rfl)) }
  | loop a =>
      obtain ⟨k, t, hanswer, hloop, rfl⟩ := step_loop_eq_some.mp hstep
      have hassumed' := h.assumed hassumed hanswer
      obtain ⟨hcoherent, hopen⟩ := h.coherent.step hassumed' hloop
      have hnew : ∀ {x : ℤ}, x ∉ w.loop.server.openFds →
          (∀ addr cur, a ≠ .event (.accept x addr cur)) → x ∉ t.server.openFds :=
        fun hx ha hmem => (hopen _ hmem).elim hx fun ⟨addr, cur, heq⟩ => ha addr cur heq
      refine ⟨hcoherent, hnew h.listenfd ?_, hnew h.pipefd0 ?_, fun fd hfd => ?_, ?_⟩
      · rintro addr cur rfl
        exact hassumed'.2.2.2.1 rfl
      · rintro addr cur rfl
        exact hassumed'.2.2.2.2.1 rfl
      · exact of_decide_eq_true (List.mem_filter.mp hfd).2
      · intro batch hbatch event hevent
        cases a with
        | wait events =>
            obtain ⟨-, -, rfl⟩ := step_wait_eq_some.mp hloop
            obtain rfl := Option.some.inj hbatch
            simp only [Kernel.answer, Option.ite_none_right_eq_some] at hanswer
            exact (hanswer.1.2.2 event hevent).2
        | event input =>
            obtain ⟨event', batch', s', hb, -, rfl⟩ := step_event_eq_some.mp hloop
            obtain rfl := Option.some.inj hbatch
            exact h.epollin _ hb event (List.mem_cons_of_mem _ hevent)
        | endBatch cur =>
            obtain ⟨s', -, -, rfl⟩ := step_endBatch_eq_some.mp hloop
            cases hbatch

/-! ### What waits -/

/-- Only `listenfd` and open descriptors can have something waiting, and they stay in the
epoll instance. -/
theorem mem_forget_of_waits (t : State) (k : Kernel) (h : World.Waits fds ⟨t, k⟩ fd)
    (hready : fd ∈ k.ready) : fd ∈ (k.forget fds t.server.openFds).ready := by
  refine List.mem_filter.mpr ⟨hready, decide_eq_true ?_⟩
  rw [World.Waits] at h
  split at h
  case isTrue hlisten => exact .inl hlisten
  case isFalse => exact .inr (.inr h.1)

/-- Where nothing arrived and no connection was opened, no more waits. -/
theorem World.Waits.of_frame {y : ℤ} (h : v.Waits fds y)
    (hopen : ∀ fd ∈ v.loop.server.openFds, fd ∈ w.loop.server.openFds)
    (hbacklog : v.kernel.backlog = w.kernel.backlog)
    (hunread : v.kernel.unread y = w.kernel.unread y) : w.Waits fds y := by
  rw [World.Waits] at h ⊢
  split at h
  case isTrue hlisten => rwa [if_pos hlisten, ← hbacklog]
  case isFalse hlisten =>
      rw [if_neg hlisten, ← hunread]
      exact ⟨hopen y h.1, h.2⟩

/-- **Arrivals** are due to be reported: each marks the descriptor at which it waits. -/
theorem World.NothingLost.arrival (h : w.NothingLost fds) (hm : ∀ a, m ≠ .loop a)
    (hstep : (world fds).step w m = some v) : v.NothingLost fds := by
  cases m with
  | loop a => exact absurd rfl (hm a)
  | connect =>
      obtain rfl := Option.some.inj hstep
      refine Due.arrive h fun y hy => ?_
      by_cases hlisten : y = fds.listenfd
      · exact .inl hlisten
      · simpa [World.Waits, hlisten] using hy
  | arriveQueued index bytes =>
      obtain rfl := Option.some.inj hstep
      refine Due.mono h (fun y hy => ?_) fun _ _ => id
      by_cases hlisten : y = fds.listenfd <;> simpa [World.Waits, hlisten] using hy
  | arrive fd bytes =>
      obtain ⟨-, hv⟩ := Option.ite_none_right_eq_some.mp hstep
      obtain rfl := Option.some.inj hv
      refine Due.arrive h fun y hy => ?_
      by_cases hyfd : y = fd
      · exact .inl hyfd
      · simpa [World.Waits, hyfd] using hy
  | hangUp fd =>
      obtain ⟨-, hv⟩ := Option.ite_none_right_eq_some.mp hstep
      obtain rfl := Option.some.inj hv
      exact Due.arrive h fun y hy => .inr hy
  | signal sig =>
      obtain rfl := Option.some.inj hstep
      exact Due.arrive h fun y hy => .inr hy

/-- **Reports** are handed to the event loop, where what waits is due to be handled. -/
theorem World.NothingLost.wait {events : List Report} (h : w.NothingLost fds)
    (hstep : (world fds).step w (.loop (.wait events)) = some v) : v.NothingLost fds := by
  obtain ⟨k, t, hanswer, hloop, rfl⟩ := step_loop_eq_some.mp hstep
  obtain ⟨hb, -, rfl⟩ := step_wait_eq_some.mp hloop
  obtain ⟨-, hk⟩ := Option.ite_none_right_eq_some.mp hanswer
  obtain rfl := Option.some.inj hk
  have hdue : Due (w.Waits fds) w.kernel.ready [] := by
    simpa [World.NothingLost, World.reported, hb] using h
  exact (hdue.report (events.map Report.fd)).mono (fun _ => id)
    fun y hy => mem_forget_of_waits _ { w.kernel with ready := _ } hy

/-- The end of a batch may close connections only, and what they have unread does not count as
waiting. -/
theorem World.NothingLost.endBatch (hs : w.Sound fds) (h : w.NothingLost fds)
    (hstep : (world fds).step w (.loop (.endBatch cur)) = some v) : v.NothingLost fds := by
  obtain ⟨k, t, hanswer, hloop, rfl⟩ := step_loop_eq_some.mp hstep
  obtain rfl := Option.some.inj hanswer
  obtain ⟨-, hopen⟩ := hs.coherent.step (a := .endBatch cur) trivial hloop
  obtain ⟨s', hb, -, rfl⟩ := step_endBatch_eq_some.mp hloop
  have hdue : Due (w.Waits fds) w.kernel.ready [] := by
    simpa [World.NothingLost, World.reported, hb] using h
  refine hdue.mono (fun y hy => ?_) fun y hy => mem_forget_of_waits ⟨s', none⟩ w.kernel hy
  exact hy.of_frame (fun fd hfd => (hopen fd hfd).resolve_right nofun) rfl rfl

section Event

variable {event : Report} {batch : List Report} {s' : Server} {k : Kernel}

/-- **Handling a report** leaves everything due exactly if what still waits at its descriptor
has a newer arrival to report. -/
theorem World.NothingLost.handle_iff (hs : w.Sound fds) (h : w.NothingLost fds)
    (hb : w.loop.batch = some (event :: batch)) (hready : ∀ y ∈ w.kernel.ready, y ∈ k.ready)
    (hwaits : ∀ y, y ≠ event.fd → World.Waits fds ⟨⟨s', some batch⟩, k⟩ y →
      w.Waits fds y ∨ y ∈ k.ready) :
    World.NothingLost fds ⟨⟨s', some batch⟩, k.forget fds s'.openFds⟩ ↔
      (World.Waits fds ⟨⟨s', some batch⟩, k⟩ event.fd → event.fd ∈ k.ready) := by
  have hnodup := (hs.coherent.batch _ hb).1
  rw [List.map_cons, List.nodup_cons] at hnodup
  have hdue : Due (w.Waits fds) w.kernel.ready (event.fd :: batch.map Report.fd) := by
    simpa [World.NothingLost, World.reported, hb] using h
  refine (hdue.handle_iff hnodup.1 (fun y hne hy => ?_) fun y hy hmem => ?_).trans ?_
  · exact (hwaits y hne hy).imp_right fun hmem => mem_forget_of_waits ⟨s', some batch⟩ k hy hmem
  · exact mem_forget_of_waits ⟨s', some batch⟩ k hy (hready y hmem)
  · exact ⟨fun hhandled hy => (List.mem_filter.mp (hhandled hy)).1,
      fun hhandled hy => mem_forget_of_waits ⟨s', some batch⟩ k hy (hhandled hy)⟩

/-- **Accepting** takes one connection off the queue. What is left there is due exactly if
nothing is left, or a newer one is to be reported. The new descriptor is added with the bytes
that came before, and is ready if there are any. -/
theorem World.NothingLost.accept_iff {connfd : ℤ} {addr : Ptr} (hs : w.Sound fds)
    (h : w.NothingLost fds) (hb : w.loop.batch = some (event :: batch))
    (hlisten : event.fd = fds.listenfd) (hne : fds.listenfd ≠ connfd)
    (hopen : ∀ fd ∈ s'.openFds, fd ∈ w.loop.server.openFds ∨ fd = connfd)
    (haccept : w.kernel.accept connfd = some k) :
    World.NothingLost fds ⟨⟨s', some batch⟩, k.forget fds s'.openFds⟩ ↔
      w.Drains fds (.loop (.event (.accept connfd addr cur))) := by
  cases hbacklog : w.kernel.backlog with
  | nil => simp [Kernel.accept, hbacklog] at haccept
  | cons bytes backlog =>
      simp only [Kernel.accept, hbacklog, Option.some.injEq] at haccept
      subst haccept
      refine (h.handle_iff hs hb ?_ ?_).trans ?_
      · intro y hy
        split
        · exact hy
        · exact mem_mark.mpr (.inr hy)
      · intro y hyne hy
        rw [hlisten] at hyne
        simp only [World.Waits, if_neg hyne] at hy ⊢
        by_cases hyc : y = connfd
        · subst hyc
          rw [Function.update_self] at hy
          exact .inr (by simp [hy.2])
        · rw [Function.update_of_ne hyc] at hy
          exact .inl ⟨(hopen y hy.1).resolve_right hyc, hy.2⟩
      · have hmem : fds.listenfd ∈
            (if bytes = [] then w.kernel.ready else mark connfd w.kernel.ready) ↔
            fds.listenfd ∈ w.kernel.ready := by
          split <;> simp [hne]
        rw [hlisten]
        simp only [World.Waits, if_true, hmem, World.Drains, hbacklog, List.length_cons]
        cases backlog <;> simp

/-- **Receiving signals** touches no connection, so everything that waits stays due. -/
theorem World.NothingLost.recvSignals {received : Option (List ℤ)} (hs : w.Sound fds)
    (h : w.NothingLost fds) (hb : w.loop.batch = some (event :: batch))
    (hlisten : event.fd ≠ fds.listenfd) (hclient : event.fd ∉ s'.openFds)
    (hopen : ∀ fd ∈ s'.openFds, fd ∈ w.loop.server.openFds)
    (hrecv : w.kernel.recvSignals received = some k) :
    World.NothingLost fds ⟨⟨s', some batch⟩, k.forget fds s'.openFds⟩ := by
  have hk : k.backlog = w.kernel.backlog ∧ k.unread = w.kernel.unread ∧
      k.ready = w.kernel.ready := by
    cases received with
    | none => exact Option.some.inj hrecv ▸ ⟨rfl, rfl, rfl⟩
    | some signals =>
        obtain ⟨-, hk⟩ := Option.ite_none_right_eq_some.mp hrecv
        exact Option.some.inj hk ▸ ⟨rfl, rfl, rfl⟩
  refine (h.handle_iff hs hb (fun y hy => hk.2.2 ▸ hy) fun y _ hy => .inl ?_).mpr ?_
  · exact hy.of_frame hopen hk.1 (congrFun hk.2.1 y)
  · intro hw
    rw [World.Waits, if_neg hlisten] at hw
    exact absurd hw.1 hclient

/-- **Receiving from a connection** takes at most `BUFFER_SIZE - 1` bytes; a connection that
is closed leaves nothing. -/
theorem World.NothingLost.recv_iff {result : RecvResult} (hs : w.Sound fds)
    (h : w.NothingLost fds) (hb : w.loop.batch = some (event :: batch))
    (hlisten : event.fd ≠ fds.listenfd) (hopen : ∀ fd ∈ s'.openFds, fd ∈ w.loop.server.openFds)
    (hdata : ∀ bytes, result = .data bytes → event.fd ∈ s'.openFds)
    (hclose : result = .error ∨ result = .closed → event.fd ∉ s'.openFds)
    (hrecv : w.kernel.recv event.fd result = some k) :
    World.NothingLost fds ⟨⟨s', some batch⟩, k.forget fds s'.openFds⟩ ↔
      w.Drains fds (.loop (.event (.recv result cur))) := by
  have hclosed : result = .error ∨ result = .closed →
      World.NothingLost fds ⟨⟨s', some batch⟩, w.kernel.forget fds s'.openFds⟩ := by
    intro hresult
    refine (h.handle_iff hs hb (fun y => id) fun y _ hy => .inl ?_).mpr ?_
    · exact hy.of_frame hopen rfl rfl
    · intro hw
      rw [World.Waits, if_neg hlisten] at hw
      exact absurd hw.1 (hclose hresult)
  cases result with
  | data bytes =>
      obtain ⟨-, hk⟩ := Option.ite_none_right_eq_some.mp hrecv
      obtain rfl := Option.some.inj hk
      refine (h.handle_iff hs hb ?_ fun y hne hy => .inl ?_).trans ?_
      · exact fun y hy => hy
      · exact hy.of_frame hopen rfl (Function.update_of_ne hne _ _)
      · have hlast : w.reported.head? = some event.fd := by simp [World.reported, hb]
        simp only [World.Waits, if_neg hlisten, hdata bytes rfl, true_and,
          Function.update_self, World.Drains, hlast, Option.mem_some_iff, forall_eq', ne_eq,
          List.drop_eq_nil_iff]
        exact Classical.or_iff_not_imp_left.symm
  | eagain => cases hrecv
  | error =>
      obtain rfl := Option.some.inj hrecv
      exact iff_of_true (hclosed (.inl rfl)) trivial
  | closed =>
      obtain ⟨-, hk⟩ := Option.ite_none_right_eq_some.mp hrecv
      obtain rfl := Option.some.inj hk
      exact iff_of_true (hclosed (.inr rfl)) trivial

/-- **What handling an event leaves behind**: everything is due exactly if the report was
drained. -/
theorem World.NothingLost.event_iff (hs : w.Sound fds) (h : w.NothingLost fds)
    (hassumed : w.Assumed fds (.loop (.event input)))
    (hstep : (world fds).step w (.loop (.event input)) = some v) :
    v.NothingLost fds ↔ w.Drains fds (.loop (.event input)) := by
  have hs' := hs.step hassumed hstep
  obtain ⟨k, t, hanswer, hloop, rfl⟩ := step_loop_eq_some.mp hstep
  have hassumed' := hs.assumed hassumed hanswer
  obtain ⟨-, hopen⟩ := hs.coherent.step hassumed' hloop
  obtain ⟨event, batch, s', hb, hrun, rfl⟩ := step_event_eq_some.mp hloop
  have htakes := takes_of_handleEvent hrun
  obtain ⟨es, es', hmatched, hmatched', hchange⟩ := hs.coherent.change hassumed' hb hloop
  cases input with
  | accept connfd addr cur =>
      refine h.accept_iff hs hb htakes (Ne.symm hassumed'.2.2.2.1) (fun fd hfd => ?_) hanswer
      refine (hopen fd hfd).imp_right ?_
      rintro ⟨_, _, heq⟩
      cases heq
      rfl
  | signals received =>
      refine iff_of_true (h.recvSignals hs hb htakes.1 ?_ ?_ hanswer) trivial
      · exact htakes.2.1 ▸ hs'.pipefd0
      · exact fun fd hfd => (hopen fd hfd).resolve_right nofun
  | none =>
      have := hs.epollin _ hb event List.mem_cons_self
      exact nomatch this.symm.trans htakes.2
  | recv result cur =>
      have hfds := fun {fd : ℤ} => hmatched'.registered.fds.mem_iff (a := fd)
      simp only [Kernel.answer, hb] at hanswer
      refine h.recv_iff hs hb htakes.1 ?_ ?_ ?_ hanswer
      · exact fun fd hfd => (hopen fd hfd).resolve_right nofun
      · rintro bytes rfl
        exact hfds.mp hchange.mem_of_data
      · intro hresult hmem
        exact hchange.notMem_of_close hmatched.registered hresult (hfds.mpr hmem)

end Event

/-- **What a step leaves behind.** Everything that waits stays due exactly if the step drains
the report that it handles, if any. Only the handling of an event can fail to. -/
theorem nothingLost_iff (hs : w.Sound fds) (h : w.NothingLost fds) (hassumed : w.Assumed fds m)
    (hstep : (world fds).step w m = some v) : v.NothingLost fds ↔ w.Drains fds m := by
  cases m with
  | loop a =>
      cases a with
      | wait events => exact iff_of_true (h.wait hstep) trivial
      | event input => exact h.event_iff hs hassumed hstep
      | endBatch cur => exact iff_of_true (h.endBatch hs hstep) trivial
  | connect | arriveQueued | arrive | hangUp | signal =>
      exact iff_of_true (h.arrival (by simp) hstep) trivial

/-! ### Runs -/

/-- Initially, nothing but connections to accept can wait, and these are to be reported. -/
theorem sound_of_init (hw : (world fds).init w) : w.Sound fds ∧ w.NothingLost fds := by
  obtain ⟨users, backlog, rfl⟩ := hw
  refine ⟨⟨⟨⟨[], matched_new users⟩, nofun⟩, List.not_mem_nil, List.not_mem_nil, ?_, nofun⟩, ?_⟩
  · intro fd hfd
    split at hfd
    · cases hfd
    · exact .inl (List.mem_singleton.mp hfd)
  · intro fd hfd
    by_cases hlisten : fd = fds.listenfd
    · have hne : backlog ≠ [] := by simpa [World.Waits, hlisten] using hfd
      exact .inl (by simp [hne, hlisten])
    · exact absurd hfd (by simp [World.Waits, hlisten])

/-- **Nothing is left waiting** in the runs that drain every report: in every state at which
`epoll_wait` has nothing to report, no connection waits to be accepted and no open connection
has unread bytes. A step from such a run leaves everything that waits due exactly if it drains
the report it handles. -/
theorem nothing_left_waiting
    (h : (world fds).ReachableWhile (fun w m => w.Assumed fds m ∧ w.Drains fds m) w) :
    (w.loop.batch = none → w.kernel.ready = [] →
      w.kernel.backlog = [] ∧ ∀ fd ∈ w.loop.server.openFds, w.kernel.unread fd = []) ∧
    ∀ m v, w.Assumed fds m → (world fds).step w m = some v →
      (v.NothingLost fds ↔ w.Drains fds m) := by
  have hinv : w.Sound fds ∧ w.NothingLost fds := by
    refine System.Inductive.holds (I := fun w => w.Sound fds ∧ w.NothingLost fds)
      ⟨fun _ => sound_of_init, ?_⟩ h
    rintro w m v ⟨hs, hlost⟩ ⟨hassumed, hdrains⟩ hstep
    exact ⟨hs.step hassumed hstep, (nothingLost_iff hs hlost hassumed hstep).mpr hdrains⟩
  obtain ⟨hs, hlost⟩ := hinv
  refine ⟨fun hbatch hready => ?_, fun m v => nothingLost_iff hs hlost⟩
  have hnone : ∀ fd, ¬w.Waits fds fd := by
    rw [← due_nil_iff]
    simpa [World.NothingLost, World.reported, hbatch, hready] using hlost
  constructor
  · have := hnone fds.listenfd
    rwa [World.Waits, if_pos rfl, not_not] at this
  · intro fd hfd
    have hne : fd ≠ fds.listenfd := fun heq => hs.listenfd (heq ▸ hfd)
    have := hnone fd
    rw [World.Waits, if_neg hne, not_and, not_not] at this
    exact this hfd

/-- Bytes arrive on a connection before it is accepted; its descriptor is readable when it is
added. -/
theorem nothing_left_waiting_example :
    ∃ w : World, w.loop.server.openFds = [7] ∧ w.kernel.backlog = [] ∧
      ∀ fd ∈ w.loop.server.openFds, w.kernel.unread fd = [] := by
  have hinit : (world ⟨3, 4, 6⟩).ReachableWhile
      (fun w m => w.Assumed ⟨3, 4, 6⟩ m ∧ w.Drains ⟨3, 4, 6⟩ m)
      ⟨⟨.new fun _ => ⟨0, none⟩, none⟩, ⟨[], fun _ => [], [], []⟩⟩ := .init ⟨_, [], rfl⟩
  obtain ⟨w, hreach, hw⟩ := System.exists_reachableWhile hinit
    [.connect, .arriveQueued 0 [65], .loop (.wait [⟨3, true⟩]),
      .loop (.event (.accept 7 1 100)), .loop (.endBatch 100),
      .loop (.wait [⟨7, true⟩]), .loop (.event (.recv (.data [65]) 101)),
      .loop (.endBatch 101)]
    (fun w => decide (w.loop.batch = none ∧ w.kernel.ready = [] ∧
      w.loop.server.openFds = [7])) (by decide +kernel)
  obtain ⟨hbatch, hready, hopen⟩ := of_decide_eq_true hw
  exact ⟨w, hopen, (nothing_left_waiting hreach).1 hbatch hready⟩

/-- **Merged arrivals are lost.** Two connections make one report, which one `accept` answers,
and 64 bytes make one report, which one `recv` of 63 bytes answers; then `epoll_wait` has
nothing to report. -/
theorem merged_arrivals_left_waiting :
    ∃ w, (world ⟨3, 4, 6⟩).ReachableWhile (World.Assumed ⟨3, 4, 6⟩) w ∧
      w.loop.batch = none ∧ w.kernel.ready = [] ∧ w.kernel.backlog ≠ [] ∧
      7 ∈ w.loop.server.openFds ∧ w.kernel.unread 7 ≠ [] := by
  have hinit : (world ⟨3, 4, 6⟩).ReachableWhile (World.Assumed ⟨3, 4, 6⟩)
      ⟨⟨.new fun _ => ⟨0, none⟩, none⟩, ⟨[], fun _ => [], [], []⟩⟩ := .init ⟨_, [], rfl⟩
  obtain ⟨w, hreach, hw⟩ := System.exists_reachableWhile hinit
    [.connect, .connect, .loop (.wait [⟨3, true⟩]), .loop (.event (.accept 7 1 100)),
      .loop (.endBatch 100), .arrive 7 (List.replicate 64 65), .loop (.wait [⟨7, true⟩]),
      .loop (.event (.recv (.data (List.replicate 63 65)) 101)), .loop (.endBatch 101)]
    (fun w => decide (w.loop.batch = none ∧ w.kernel.ready = [] ∧ w.kernel.backlog ≠ [] ∧
      7 ∈ w.loop.server.openFds ∧ w.kernel.unread 7 ≠ [])) (by decide +kernel)
  exact ⟨w, hreach, of_decide_eq_true hw⟩

end LinuxNetwork.NTimerServer

import LinuxNetwork.IoEpoll

/-!
# What the Handlers Deliver

`lt` calls `recv` once per report and is reported again what it leaves; `et` calls `recv` until
nothing is left, since it may not be reported again. Both have received all that arrived when
nothing is due. Neither closes a connection: a level-triggered report is never stale, so that
`lt` does not meet `EAGAIN`, after which it would close the socket, and `et` takes `EAGAIN` for
the end of the bytes.

## Main results

* `World.Sound.step`: the invariants of both disciplines.
* `handlers_deliver`: what has been received when nothing is due.
-/

open Transition EdgeTriggered

namespace LinuxNetwork.IoEpoll

variable {c : Config} {w v : World} {fd : ℤ} {m : Move}

namespace World

/-- The reports still to handle. -/
def reported (w : World) : List ℤ :=
  (w.batch.getD []).map Report.fd

/-- A connection has unread bytes. -/
def Waits (w : World) (fd : ℤ) : Prop :=
  fd ∈ w.openFds ∧ w.inbox fd ≠ []

/-- **The invariant** of the loop. What was received and what is unread make up what arrived;
a level-triggered report in hand is of a connection with unread bytes; an edge-triggered
connection with unread bytes is due. -/
structure Sound (c : Config) (w : World) : Prop where
  listenfd : c.listenfd ∉ w.openFds
  ready : ∀ fd ∈ w.ready, fd = c.listenfd ∨ fd ∈ w.openFds
  reported : ∀ fd ∈ w.reported, fd = c.listenfd ∨ fd ∈ w.openFds
  nodup : w.reported.Nodup
  stream : ∀ fd ∈ w.openFds, (w.chunks fd).flatten ++ w.inbox fd = w.arrived fd
  closes : w.closes = []
  level : c.handler = .lt → ∀ fd ∈ w.reported, fd ≠ c.listenfd → w.inbox fd ≠ []
  edge : c.handler = .et → Due w.Waits w.ready w.reported

end World

/-! ### The steps of the loop -/

/-- A connection is edge-triggered exactly if the handler adds it with `EPOLLET`. -/
theorem Config.edge_of_ne (hfd : fd ≠ c.listenfd) : c.edge fd = c.handler.enableEt :=
  if_neg hfd

/-- An arrival marks its own descriptor, if it is edge-triggered, and takes no mark away. -/
theorem World.mem_ready_notify {x : ℤ} :
    x ∈ (w.notify c fd).ready ↔ c.edge fd = true ∧ x = fd ∨ x ∈ w.ready := by
  rw [World.notify]
  cases c.edge fd <;> simp

/-- Where a connection is accepted, its unread bytes are the arrival to report. -/
theorem World.accepted_eq (w : World) (fd : ℤ) (bytes : List UInt8) :
    w.accepted c fd bytes = { w with
      openFds := fd :: w.openFds
      inbox := Function.update w.inbox fd bytes
      arrived := Function.update w.arrived fd bytes
      chunks := Function.update w.chunks fd []
      ready := if bytes ≠ [] ∧ c.edge fd = true then mark fd w.ready else w.ready } := by
  unfold World.accepted World.notify
  by_cases hbytes : bytes = [] <;> simp [hbytes]

/-- A connection is marked when it is accepted with unread bytes, if it is edge-triggered; the
other marks stay. -/
theorem World.mem_ready_accepted {bytes : List UInt8} {x : ℤ} :
    x ∈ (w.accepted c fd bytes).ready ↔
      (bytes ≠ [] ∧ c.edge fd = true) ∧ x = fd ∨ x ∈ w.ready := by
  rw [World.accepted_eq]
  by_cases hmarks : bytes ≠ [] ∧ c.edge fd = true
  · rw [if_pos hmarks, mem_mark, and_iff_right hmarks]
  · rw [if_neg hmarks, or_iff_right fun hmarked => hmarks hmarked.1]

/-- The accept branch: the first queued connection is accepted at a new descriptor, or `accept`
fails for want of one. The report is done with in both cases. -/
theorem accept_of_step {connfd : Option ℤ} (hstep : (server c).step w (.accept connfd) = some v) :
    ∃ event events, w.batch = some (event :: events) ∧ event.fd = c.listenfd ∧
      ((∃ bytes backlog fd, w.backlog = bytes :: backlog ∧ fd ∉ w.openFds ∧ fd ≠ c.listenfd ∧
          v = { w with batch := some events, backlog := backlog }.accepted c fd bytes) ∨
        w.backlog = [] ∧ v = { w with batch := some events }) := by
  unfold server World.step at hstep
  simp only at hstep
  split at hstep
  case h_1 event events hbatch =>
      obtain ⟨hfd, hstep⟩ := Option.ite_none_right_eq_some.mp hstep
      refine ⟨event, events, hbatch, hfd, ?_⟩
      cases hbacklog : w.backlog with
      | nil =>
          rw [hbacklog] at hstep
          cases connfd with
          | none => exact .inr ⟨rfl, (Option.some.inj hstep).symm⟩
          | some fd => cases hstep
      | cons bytes backlog =>
          rw [hbacklog] at hstep
          cases connfd with
          | none => cases hstep
          | some fd =>
              obtain ⟨⟨hnew, hne⟩, heq⟩ := Option.ite_none_right_eq_some.mp hstep
              exact .inl ⟨bytes, backlog, fd, rfl, hnew, hne, (Option.some.inj heq).symm⟩
  all_goals cases hstep

/-- A call of `recv` on the connection of the report in hand, with what the handler does on the
result. -/
theorem recv_of_step {ret : RecvResult} (hstep : (server c).step w (.recv ret) = some v) :
    ∃ event events, w.batch = some (event :: events) ∧ event.fd ≠ c.listenfd ∧
      w.MayReceive event.fd ret ∧
      v = ({ w with
        batch := if (c.handler.afterRecv ret).leaves then some events
          else some (event :: events) }.received event.fd ret).close event.fd
        (c.handler.afterRecv ret).closes := by
  unfold server World.step at hstep
  simp only at hstep
  split at hstep
  case h_1 event events hbatch =>
      obtain ⟨⟨hfd, -, hmay⟩, heq⟩ := Option.ite_none_right_eq_some.mp hstep
      exact ⟨event, events, hbatch, hfd, hmay, (Option.some.inj heq).symm⟩
  all_goals cases hstep

/-- The descriptors that are reported are those of the events in hand, the next one first. -/
theorem World.reported_of_batch {event : Report} {events : List Report}
    (hbatch : w.batch = some (event :: events)) :
    w.reported = event.fd :: events.map Report.fd := by
  rw [World.reported, hbatch]
  rfl

/-! ### The invariant -/

/-- The invariant holds when the loop begins: nobody is connected, and queued connections are
due at `listenfd`. -/
theorem World.sound_of_init (h : (server c).init w) : w.Sound c := by
  obtain ⟨backlog, rfl⟩ := h
  refine ⟨List.not_mem_nil, fun fd hfd => ?_, nofun, .nil, nofun, rfl, nofun, fun _ => ?_⟩
  · dsimp only at hfd
    split at hfd
    case isTrue => exact .inl (List.mem_singleton.mp hfd)
    case isFalse => cases hfd
  · exact fun fd hfd => absurd hfd.1 List.not_mem_nil

/-- **A connection is accepted.** Its unread bytes are due: at an edge they mark it, and under
level triggering they are reported as long as they are there. -/
theorem World.Sound.accept {event : Report} {events : List Report} {bytes : List UInt8}
    {backlog : List (List UInt8)} (h : w.Sound c) (hbatch : w.batch = some (event :: events))
    (hevent : event.fd = c.listenfd) (hnew : fd ∉ w.openFds) (hne : fd ≠ c.listenfd) :
    ({ w with batch := some events, backlog := backlog }.accepted c fd bytes).Sound c := by
  have hreported := World.reported_of_batch hbatch
  have hold : ∀ x ∈ events.map Report.fd, x = c.listenfd ∨ x ∈ w.openFds := fun x hx =>
    h.reported x (hreported ▸ List.mem_cons_of_mem _ hx)
  have hnodup := h.nodup
  rw [hreported] at hnodup
  have hmem := @World.mem_ready_accepted c { w with batch := some events, backlog := backlog } fd
    bytes
  rw [World.accepted_eq] at hmem ⊢
  refine ⟨?_, fun x hx => ?_, fun x hx => ?_, hnodup.of_cons, fun x hx => ?_, h.closes,
    fun hlt x hx hxl => ?_, fun het x hx => ?_⟩
  · exact fun hmem => (List.mem_cons.mp hmem).elim (fun heq => hne heq.symm) h.listenfd
  · rcases hmem.mp hx with ⟨-, rfl⟩ | hx
    · exact .inr List.mem_cons_self
    · exact (h.ready x hx).imp_right (List.mem_cons_of_mem fd)
  · exact (hold x hx).imp_right (List.mem_cons_of_mem fd)
  · rcases List.mem_cons.mp hx with rfl | hx
    · simp
    · have hxf : x ≠ fd := ne_of_mem_of_not_mem hx hnew
      simpa [hxf] using h.stream x hx
  · have hxo : x ∈ w.openFds := (hold x hx).resolve_left hxl
    have hxf : x ≠ fd := ne_of_mem_of_not_mem hxo hnew
    have := h.level hlt x (hreported ▸ List.mem_cons_of_mem _ hx) hxl
    simpa [hxf] using this
  · obtain ⟨hxo, hxi⟩ := hx
    have hedge : c.edge fd = true := by rw [Config.edge_of_ne hne, het]; rfl
    rcases List.mem_cons.mp hxo with rfl | hxo
    · have hbytes : bytes ≠ [] := by simpa using hxi
      exact .inl (hmem.mpr (.inl ⟨⟨hbytes, hedge⟩, rfl⟩))
    · have hxf : x ≠ fd := ne_of_mem_of_not_mem hxo hnew
      have hxi : w.inbox x ≠ [] := by simpa [hxf] using hxi
      have hxl : x ≠ event.fd := fun heq => h.listenfd (hevent ▸ heq ▸ hxo)
      rcases h.edge het x ⟨hxo, hxi⟩ with hready | hrep
      · exact .inl (hmem.mpr (.inr hready))
      · rw [hreported] at hrep
        exact .inr ((List.mem_cons.mp hrep).resolve_left hxl)

/-- A report is dropped when nothing waits there, or when the level will be reported again. -/
theorem World.Sound.pop {event : Report} {events : List Report} (h : w.Sound c)
    (hbatch : w.batch = some (event :: events))
    (hdone : c.handler = .et → ¬w.Waits event.fd) :
    World.Sound c { w with batch := some events } := by
  have hreported := World.reported_of_batch hbatch
  have hsub : ∀ x ∈ events.map Report.fd, x ∈ w.reported := fun x hx =>
    hreported ▸ List.mem_cons_of_mem _ hx
  have hnodup := h.nodup
  rw [hreported] at hnodup
  refine ⟨h.listenfd, h.ready, fun x hx => h.reported x (hsub x hx), hnodup.of_cons, h.stream,
    h.closes, fun hlt x hx => h.level hlt x (hsub x hx), fun het x hx => ?_⟩
  rcases h.edge het x hx with hready | hrep
  · exact .inl hready
  · rw [hreported] at hrep
    refine .inr ((List.mem_cons.mp hrep).resolve_left ?_)
    rintro rfl
    exact hdone het hx

/-- **Bytes are received.** `lt` is done with the report then, and `et` is not. -/
theorem World.Sound.receive {batch : Option (List Report)} {bytes : List UInt8}
    (h : w.Sound c) (hfd : fd ∈ w.openFds) (hbytes : bytes = (w.inbox fd).take bytes.length)
    (hsub : ∀ x ∈ (batch.getD []).map Report.fd, x ∈ w.reported)
    (hnodup : ((batch.getD []).map Report.fd).Nodup)
    (hlevel : c.handler = .lt → fd ∉ (batch.getD []).map Report.fd)
    (hedge : c.handler = .et → ∀ x ∈ w.reported, x ∈ (batch.getD []).map Report.fd) :
    ({ w with batch := batch }.received fd (.data bytes)).Sound c := by
  refine ⟨h.listenfd, h.ready, fun x hx => h.reported x (hsub x hx), hnodup, fun x hx => ?_,
    h.closes, fun hlt x hx hxl => ?_, fun het x hx => ?_⟩
  · by_cases hxf : x = fd
    · subst hxf
      have hstream := h.stream x hx
      rw [← List.take_append_drop bytes.length (w.inbox x), ← hbytes] at hstream
      simpa [World.received] using hstream
    · simpa [World.received, hxf] using h.stream x hx
  · have hxf : x ≠ fd := fun heq => hlevel hlt (heq ▸ hx)
    simpa [World.received, hxf] using h.level hlt x (hsub x hx) hxl
  · have hwaits : w.Waits x := by
      refine ⟨hx.1, fun hnil => hx.2 ?_⟩
      by_cases hxf : x = fd
      · subst hxf
        simp [World.received, hnil]
      · simpa [World.received, hxf] using hnil
    exact (h.edge het x hwaits).imp_right (hedge het x)

/-- **A connection is established** in the queue, which is an arrival at `listenfd`. -/
theorem World.Sound.connect (h : w.Sound c)
    (hstep : (server c).step w .connect = some v) : v.Sound c := by
  obtain rfl := Option.some.inj hstep
  refine ⟨h.listenfd, fun x hx => ?_, h.reported, h.nodup, h.stream, h.closes, h.level,
    fun het => ?_⟩
  · exact (World.mem_ready_notify.mp hx).elim (fun hmarked => .inl hmarked.2) (h.ready x)
  · exact (h.edge het).mono (fun _ => id) fun x _ hx => World.mem_ready_notify.mpr (.inr hx)

/-- **Bytes arrive** on a connection, behind those that are unread, and are an edge there. -/
theorem World.Sound.arrive {bytes : List UInt8} (h : w.Sound c)
    (hstep : (server c).step w (.arrive fd bytes) = some v) : v.Sound c := by
  obtain ⟨⟨hfd, hbytes⟩, heq⟩ := Option.ite_none_right_eq_some.mp hstep
  obtain rfl := Option.some.inj heq
  have hne : fd ≠ c.listenfd := ne_of_mem_of_not_mem hfd h.listenfd
  refine ⟨h.listenfd, fun x hx => ?_, h.reported, h.nodup, fun x hx => ?_, h.closes,
    fun hlt x hx hxl => ?_, fun het => ?_⟩
  · exact (World.mem_ready_notify.mp hx).elim (fun hmarked => .inr (hmarked.2 ▸ hfd)) (h.ready x)
  · by_cases hxf : x = fd
    · subst hxf
      simpa [World.notify] using congrArg (· ++ bytes) (h.stream x hx)
    · simpa [World.notify, hxf] using h.stream x hx
  · by_cases hxf : x = fd
    · simp [World.notify, hxf, hbytes]
    · simpa [World.notify, hxf] using h.level hlt x hx hxl
  · have hedge : c.edge fd = true := by rw [Config.edge_of_ne hne, het]; rfl
    rw [World.notify, if_pos hedge]
    refine (h.edge het).arrive fun x hx => ?_
    by_cases hxf : x = fd
    · exact .inl hxf
    · exact .inr ⟨hx.1, by simpa [hxf] using hx.2⟩

/-- Only `listenfd` and connections are reported, nothing that was closed. -/
theorem World.Sound.of_reportable (h : w.Sound c) (hfd : w.Reportable c fd) :
    fd = c.listenfd ∨ fd ∈ w.openFds := by
  rw [World.Reportable] at hfd
  split at hfd
  case isTrue => exact h.ready fd hfd
  case isFalse =>
    rw [World.Readable] at hfd
    split at hfd
    case isTrue hlisten => exact .inl hlisten
    case isFalse => exact .inr hfd.1

/-- **Reports** are handed to the loop, each of a descriptor that can be reported and none
twice. -/
theorem World.Sound.wait {events : List Report} (h : w.Sound c)
    (hstep : (server c).step w (.wait events) = some v) : v.Sound c := by
  obtain ⟨⟨hbatch, hnodup, -, hevents⟩, heq⟩ := Option.ite_none_right_eq_some.mp hstep
  obtain rfl := Option.some.inj heq
  have hreportable : ∀ x ∈ events.map Report.fd, w.Reportable c x := by
    intro x hx
    obtain ⟨event, hevent, rfl⟩ := List.mem_map.mp hx
    exact (hevents event hevent).1
  refine ⟨h.listenfd, fun x hx => h.ready x (mem_report.mp hx).1,
    fun x hx => h.of_reportable (hreportable x hx), hnodup, h.stream, h.closes,
    fun hlt x hx hxl => ?_, fun het => ?_⟩
  · have := hreportable x hx
    rw [World.Reportable, Config.edge_of_ne hxl, hlt, World.Readable, if_neg hxl] at this
    exact this.2
  · have hdue := h.edge het
    rw [World.reported, hbatch] at hdue
    exact hdue.report (events.map Report.fd)

/-- **A call of `recv`** brings bytes, or `EAGAIN` on an empty inbox. Under level triggering it
is not empty, since the report is not stale; under edge triggering an empty inbox ends the
report. -/
theorem World.Sound.recv {ret : RecvResult} (h : w.Sound c)
    (hstep : (server c).step w (.recv ret) = some v) : v.Sound c := by
  obtain ⟨event, events, hbatch, hne, hmay, rfl⟩ := recv_of_step hstep
  have hreported := World.reported_of_batch hbatch
  have hopen : event.fd ∈ w.openFds :=
    (h.reported event.fd (hreported ▸ List.mem_cons_self)).resolve_left hne
  have hnodup := h.nodup
  rw [hreported] at hnodup
  have hin : ∀ x ∈ w.reported, x ∈ event.fd :: events.map Report.fd := fun x hx =>
    hreported ▸ hx
  cases ret with
  | data bytes =>
      cases hhandler : c.handler with
      | lt =>
          exact h.receive hopen hmay.2.2
            (fun x hx => hreported ▸ List.mem_cons_of_mem _ hx) hnodup.of_cons
            (fun _ => (List.nodup_cons.mp hnodup).1)
            (fun het => nomatch hhandler.symm.trans het)
      | et =>
          exact h.receive hopen hmay.2.2 (fun x hx => hreported ▸ hx) hnodup
            (fun hlt => nomatch hhandler.symm.trans hlt) fun _ => hin
  | eagain =>
      cases hhandler : c.handler with
      | lt =>
          exact absurd hmay (h.level hhandler event.fd (hreported ▸ List.mem_cons_self) hne)
      | et => exact h.pop hbatch fun _ hwaits => hwaits.2 hmay
  | error => exact hmay.elim
  | closed => exact hmay.elim

/-- **Every step** keeps the invariant. -/
theorem World.Sound.step (h : w.Sound c) (hstep : (server c).step w m = some v) :
    v.Sound c := by
  cases m with
  | connect => exact h.connect hstep
  | arriveQueued index bytes =>
      obtain rfl := Option.some.inj hstep
      exact ⟨h.listenfd, h.ready, h.reported, h.nodup, h.stream, h.closes, h.level, h.edge⟩
  | arrive fd bytes => exact h.arrive hstep
  | wait events => exact h.wait hstep
  | accept connfd =>
      obtain ⟨event, events, hbatch, hevent, hcases⟩ := accept_of_step hstep
      rcases hcases with ⟨bytes, backlog, fd, -, hnew, hne, rfl⟩ | ⟨-, rfl⟩
      · exact h.accept hbatch hevent hnew hne
      · exact h.pop hbatch fun het hwaits => h.listenfd (hevent ▸ hwaits.1)
  | recv ret => exact h.recv hstep
  | endBatch =>
      obtain ⟨hbatch, heq⟩ := Option.ite_none_right_eq_some.mp hstep
      obtain rfl := Option.some.inj heq
      have hnil : w.reported = [] := by rw [World.reported, hbatch]; rfl
      refine ⟨h.listenfd, h.ready, nofun, .nil, h.stream, h.closes, nofun, fun het => ?_⟩
      have := h.edge het
      rwa [hnil] at this

/-! ### Runs -/

/-- When `epoll_wait` has nothing to report: no mark is left, and no level is up. -/
theorem World.not_reportable (hready : w.ready = [])
    (hbacklog : c.listenEt = true ∨ w.backlog = [])
    (hinbox : ∀ fd ∈ w.openFds, w.inbox fd = []) (fd : ℤ) : ¬w.Reportable c fd := by
  intro h
  rw [World.Reportable] at h
  split at h
  case isTrue =>
    rw [hready] at h
    cases h
  case isFalse hedge =>
    rw [World.Readable] at h
    split at h
    case isTrue hfd =>
      rw [Config.edge, if_pos hfd] at hedge
      exact h (hbacklog.resolve_left hedge)
    case isFalse => exact h.2 (hinbox fd h.1)

/-- **Both handlers deliver everything.** For either handler, in every reachable state in which
all reports are handled and nothing is due to be reported, no socket has been closed, and the
chunks received from each connection make up the bytes that arrived on it. -/
theorem handlers_deliver (h : (server c).Reachable w) (hreported : w.reported = [])
    (hnothing : ∀ fd, ¬w.Reportable c fd) :
    w.closes = [] ∧ ∀ fd ∈ w.openFds, (w.chunks fd).flatten = w.arrived fd := by
  have hsound : w.Sound c := by
    refine System.Inductive.holds (I := World.Sound c) ⟨fun _ => World.sound_of_init, ?_⟩ h
    exact fun _ _ _ hs _ hstep => hs.step hstep
  refine ⟨hsound.closes, fun fd hfd => ?_⟩
  have hne : fd ≠ c.listenfd := ne_of_mem_of_not_mem hfd hsound.listenfd
  have hempty : w.inbox fd = [] := by
    by_contra hinbox
    refine hnothing fd ?_
    rw [World.Reportable, Config.edge_of_ne hne]
    cases hhandler : c.handler with
    | lt =>
        rw [Handler.enableEt, if_neg Bool.false_ne_true, World.Readable, if_neg hne]
        exact ⟨hfd, hinbox⟩
    | et =>
        rw [Handler.enableEt, if_pos rfl]
        have hdue := hsound.edge hhandler fd ⟨hfd, hinbox⟩
        rw [hreported] at hdue
        exact hdue.resolve_right List.not_mem_nil
  have hstream := hsound.stream fd hfd
  rwa [hempty, List.append_nil] at hstream

/-- Twelve bytes in two arrivals, of which the second falls into the handling of the first. -/
theorem handlers_deliver_example :
    (∃ w, (server ⟨.lt, 3, true⟩).Reachable w ∧ w.openFds = [7] ∧ w.closes = [] ∧
      (w.chunks 7).flatten = List.replicate 12 65) ∧
    ∃ w, (server ⟨.et, 3, true⟩).Reachable w ∧ w.openFds = [7] ∧ w.closes = [] ∧
      (w.chunks 7).flatten = List.replicate 12 65 := by
  have hinit : ∀ handler, (server ⟨handler, 3, true⟩).Reachable
      ⟨none, [], [], fun _ => [], [], fun _ => [], fun _ => [], []⟩ := fun handler =>
    .init ⟨[], by simp⟩
  constructor
  · obtain ⟨w, hreach, hw⟩ := System.exists_reachableWhile (hinit .lt)
      [.connect, .wait [⟨3, true⟩], .accept (some 7), .endBatch,
        .arrive 7 (List.replicate 5 65), .wait [⟨7, true⟩], .arrive 7 (List.replicate 7 65),
        .recv (.data (List.replicate 4 65)), .endBatch, .wait [⟨7, true⟩],
        .recv (.data (List.replicate 8 65)), .endBatch]
      (fun w => decide (w.openFds = [7] ∧ w.inbox 7 = [] ∧ w.ready = [] ∧
        w.reported = [] ∧ w.arrived 7 = List.replicate 12 65)) (by decide +kernel)
    obtain ⟨hopen, hinbox, hready, hreported, harrived⟩ := of_decide_eq_true hw
    obtain ⟨hcloses, hchunks⟩ := handlers_deliver hreach hreported
      (World.not_reportable hready (.inl rfl) (by simp [hopen, hinbox]))
    exact ⟨w, hreach, hopen, hcloses, (hchunks 7 (by simp [hopen])).trans harrived⟩
  · obtain ⟨w, hreach, hw⟩ := System.exists_reachableWhile (hinit .et)
      [.connect, .wait [⟨3, true⟩], .accept (some 7), .endBatch,
        .arrive 7 (List.replicate 5 65), .wait [⟨7, true⟩],
        .recv (.data (List.replicate 4 65)), .arrive 7 (List.replicate 7 65),
        .recv (.data (List.replicate 8 65)), .recv .eagain, .endBatch, .wait [⟨7, true⟩],
        .recv .eagain, .endBatch]
      (fun w => decide (w.openFds = [7] ∧ w.inbox 7 = [] ∧ w.ready = [] ∧
        w.reported = [] ∧ w.arrived 7 = List.replicate 12 65)) (by decide +kernel)
    obtain ⟨hopen, hinbox, hready, hreported, harrived⟩ := of_decide_eq_true hw
    obtain ⟨hcloses, hchunks⟩ := handlers_deliver hreach hreported
      (World.not_reportable hready (.inl rfl) (by simp [hopen, hinbox]))
    exact ⟨w, hreach, hopen, hcloses, (hchunks 7 (by simp [hopen])).trans harrived⟩

end LinuxNetwork.IoEpoll

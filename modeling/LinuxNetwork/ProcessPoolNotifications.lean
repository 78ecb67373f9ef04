import Mathlib.Data.List.Nodup
import LinuxNetwork.ProcessPoolChild

/-!
# Merged Notifications

The child answers a report of its pipe with one `recv` of one notification and one `accept`. A
report always finds a notification, since each report goes back to an arrival of its own; the
branch that calls `accept` after `EAGAIN` is never taken. But a report may stand for several
notifications, and those that are left are not reported again before another one arrives.

## Main results

* `World.Sound.step`: every `accept` goes back to a notification.
* `nothingLost_iff`: what a step leaves in the pipe.
* `child_answers_notifications`: the accepts against the notifications over whole runs.
-/

open Transition EdgeTriggered

namespace LinuxNetwork.ProcessPoolChild

namespace World

/-- Notifications wait in the pipe; what waits elsewhere does not matter here. -/
def Waits (w : World) (source : Source) : Prop :=
  source = .pipefd ∧ w.pipe ≠ []

/-- The reports still to handle. -/
def reported (w : World) : List Source :=
  match w.pc with
  | .handling events => events.map Report.source
  | .waiting | .returned => []

/-- **Nothing is lost**: unread notifications are due to be reported, or their report is still
to be handled. -/
def NothingLost (w : World) : Prop :=
  Due w.Waits w.ready w.reported

/-- The notifications that the child has read. -/
def notificationsRead (w : World) : ℕ :=
  w.received.length / sizeofInt

/-- **A report is drained**: when the child handles a report of its pipe, at most one
notification is unread, unless a newer one is still to be reported. -/
def Drains (w : World) : Move → Prop
  | .event _ => ∀ source ∈ w.reported.head?, source = .pipefd →
      w.pipe.length ≤ sizeofInt ∨ .pipefd ∈ w.ready
  | .send | .arrive _ | .wait _ | .fail | .endBatch => True

instance (w : World) : ∀ m, Decidable (w.Drains m)
  | .event _ => inferInstanceAs (Decidable (∀ source ∈ _, _))
  | .send | .arrive _ | .wait _ | .fail | .endBatch => inferInstanceAs (Decidable True)

/-- **The invariant** of the child and its pipe. Every report, pending or in hand, goes back to
a notification that is not answered yet. -/
structure Sound (w : World) : Prop where
  conserved : w.received.length + w.pipe.length = sizeofInt * w.sent
  accepted : w.received.length = sizeofInt * w.child.accepts
  due : w.child.accepts + (if .pipefd ∈ w.ready then 1 else 0) +
    w.reported.count .pipefd ≤ w.sent
  nodup : w.reported.Nodup
  epollin : ∀ events, w.pc = .handling events → ∀ event ∈ events,
    event.source = .pipefd → event.epollin = true

end World

variable {w v : World} {m : Move} {event : Report} {events : List Report} {input : Input}

/-- The notifications that were sent are as many bytes as `send` was asked for in all, four for
each. -/
theorem length_flatten_newConn (sent : ℕ) :
    (List.replicate sent newConn).flatten.length = sizeofInt * sent := by
  simp [newConn, sizeofInt, Nat.mul_comm]

/-- Before the first notification the pipe is empty, nothing is reported, and nothing is lost. -/
theorem World.sound_of_init (h : childWithPipe.init w) : w.Sound ∧ w.NothingLost := by
  obtain ⟨sent, rfl⟩ := h
  refine ⟨⟨?_, rfl, ?_, .nil, nofun⟩, fun source hwaits => .inl ?_⟩
  · simpa using length_flatten_newConn sent
  · by_cases hsent : sent = 0
    · simp [hsent, World.reported, Child.new]
    · simp [hsent, World.reported, Child.new]
      omega
  · obtain ⟨rfl, hpipe⟩ := hwaits
    have hsent : sent ≠ 0 := fun hsent => hpipe (by simp [hsent])
    simp [hsent]

/-- The signals of the child change nothing but `m_stop`, so no signal counts as an accept. -/
theorem accepts_foldl_handleSignal (c : Child) (signals : List ℤ) :
    (signals.foldl handleSignal c).accepts = c.accepts := by
  induction signals generalizing c with
  | nil => rfl
  | cons sig signals ih =>
      have hsig : (handleSignal c sig).accepts = c.accepts := by
        rw [handleSignal]
        split
        case isTrue => rfl
        case isFalse => split <;> rfl
      exact (ih _).trans hsig

/-- The reports in hand are those of the events that are still to be handled. -/
theorem World.reported_of_handling (hpc : w.pc = .handling events) :
    w.reported = events.map Report.source := by
  rw [World.reported, hpc]

/-- A report of the pipe goes back to a notification that is still unread, since only the report
itself leads to a read. -/
theorem World.Sound.unread (h : w.Sound) (hreported : .pipefd ∈ w.reported) :
    sizeofInt ≤ w.pipe.length := by
  have hcount : 1 ≤ w.reported.count .pipefd := List.one_le_count_iff.mpr hreported
  have hdue := h.due
  have hlt : w.child.accepts + 1 ≤ w.sent := by omega
  have hbytes := Nat.mul_le_mul_left sizeofInt hlt
  rw [Nat.mul_add, Nat.mul_one, ← h.accepted, ← h.conserved] at hbytes
  omega

/-- **All that handling an event can do** to the pipe and the accepts: a report of the pipe is
answered with one notification and one `accept`, and another one with nothing. -/
theorem World.Sound.handle (h : w.Sound) (hpc : w.pc = .handling (event :: events))
    (hstep : w.step (.event input) = some v) :
    v.pc = .handling events ∧ v.ready = w.ready ∧ v.sent = w.sent ∧
      ((event.source = .pipefd ∧ v.pipe = w.pipe.drop sizeofInt ∧
          v.received.length = w.received.length + sizeofInt ∧
          sizeofInt ≤ w.pipe.length ∧ v.child.accepts = w.child.accepts + 1) ∨
        event.source ≠ .pipefd ∧ v.pipe = w.pipe ∧ v.received = w.received ∧
          v.child.accepts = w.child.accepts) := by
  rw [World.step, hpc] at hstep
  obtain ⟨child, hchild, hbind⟩ := Option.bind_eq_some_iff.mp hstep
  obtain ⟨bytes, hbytes, heq⟩ := Option.bind_eq_some_iff.mp hbind
  obtain rfl := Option.some.inj heq
  refine ⟨rfl, rfl, rfl, ?_⟩
  have hother : event.source ≠ .pipefd → bytes = [] → child.accepts = w.child.accepts →
      event.source ≠ .pipefd ∧ w.pipe.drop bytes.length = w.pipe ∧
        w.received ++ bytes = w.received ∧ child.accepts = w.child.accepts := by
    rintro hne rfl haccepts
    exact ⟨hne, List.drop_zero .., List.append_nil _, haccepts⟩
  unfold handleEvent at hchild
  split at hchild
  case h_1 ret connfd hsource _ =>
      obtain rfl := Option.some.inj hchild
      have hroom : sizeofInt ≤ w.pipe.length := by
        refine h.unread ?_
        rw [World.reported_of_handling hpc, List.map_cons, hsource]
        exact List.mem_cons_self
      have hne : w.pipe ≠ [] := List.ne_nil_of_length_pos (Nat.lt_of_lt_of_le (by decide) hroom)
      simp only [World.reads, if_pos hsource] at hbytes
      cases ret with
      | data data =>
          obtain ⟨⟨-, rfl⟩, heq⟩ := Option.ite_none_right_eq_some.mp hbytes
          obtain rfl := Option.some.inj heq
          have hlen : (w.pipe.take sizeofInt).length = sizeofInt := by
            rw [List.length_take, Nat.min_eq_left hroom]
          refine .inl ⟨hsource, by rw [hlen], ?_, hroom, ?_⟩
          · rw [List.length_append, hlen]
          · cases connfd <;> rfl
      | eagain => exact absurd (Option.ite_none_right_eq_some.mp hbytes).1 hne
      | error => cases hbytes
      | closed => cases hbytes
  case h_2 bytes' hsource _ =>
      obtain rfl := Option.some.inj hchild
      exact .inr (hother (by simp [hsource]) (Option.some.inj hbytes).symm
        (accepts_foldl_handleSignal w.child bytes'))
  case h_3 hsource _ =>
      obtain rfl := Option.some.inj hchild
      exact .inr (hother (by simp [hsource]) (Option.some.inj hbytes).symm rfl)
  case h_4 fd hsource _ =>
      obtain rfl := Option.some.inj hchild
      exact .inr (hother (by simp [hsource]) (Option.some.inj hbytes).symm rfl)
  case h_5 hepollin =>
      obtain rfl := Option.some.inj hchild
      have hne : event.source ≠ .pipefd := fun hsource =>
        Bool.noConfusion (hepollin.symm.trans (h.epollin _ hpc event List.mem_cons_self hsource))
      exact .inr (hother hne (Option.some.inj hbytes).symm rfl)
  case h_6 => cases hchild

/-- Behind the `for` loop no report is in hand, whether the child goes on or returns. -/
theorem World.reported_endBatch (w : World) :
    World.reported { w with pc := if w.child.stop then .returned else .waiting } = [] := by
  rw [World.reported]
  cases w.child.stop <;> rfl

/-- An event is handled in the `for` loop, which stands at it. -/
theorem handling_of_step (hstep : childWithPipe.step w (.event input) = some v) :
    ∃ event events, w.pc = .handling (event :: events) := by
  unfold childWithPipe World.step at hstep
  simp only at hstep
  split at hstep
  case h_1 event events hpc => exact ⟨event, events, hpc⟩
  all_goals cases hstep

/-- **A notification is sent**: it goes behind what is unread, and the pipe is due to be
reported. -/
theorem World.Sound.send (h : w.Sound) (hstep : childWithPipe.step w .send = some v) :
    v.Sound := by
  obtain rfl := Option.some.inj hstep
  refine ⟨?_, h.accepted, ?_, h.nodup, h.epollin⟩
  · have := h.conserved
    simp only [List.length_append, newConn, List.length_cons, List.length_nil, sizeofInt]
      at this ⊢
    omega
  · have := h.due
    simp only [World.reported, mem_mark, true_or, if_true] at this ⊢
    split at this <;> omega

/-- **Reports** are handed to the child, of the pipe only if something is unread in it. -/
theorem World.Sound.wait (h : w.Sound) (hstep : childWithPipe.step w (.wait events) = some v) :
    v.Sound := by
  obtain ⟨⟨hpc, hnodup, hevents⟩, heq⟩ := Option.ite_none_right_eq_some.mp hstep
  obtain rfl := Option.some.inj heq
  refine ⟨h.conserved, h.accepted, ?_, hnodup, ?_⟩
  · have hdue := h.due
    have hcount := List.nodup_iff_count_le_one.mp hnodup .pipefd
    have hold : w.reported = [] := by rw [World.reported, hpc]
    rw [hold, List.count_nil] at hdue
    change w.child.accepts + (if .pipefd ∈ report (events.map Report.source) w.ready then 1
      else 0) + (events.map Report.source).count .pipefd ≤ w.sent
    simp only [mem_report]
    by_cases hmem : .pipefd ∈ events.map Report.source
    · obtain ⟨event, hevent, hsource⟩ := List.mem_map.mp hmem
      have hready := hsource ▸ (hevents event hevent).1
      rw [if_pos hready] at hdue
      rw [if_neg fun hboth => hboth.2 hmem]
      omega
    · rw [List.count_eq_zero.mpr hmem]
      simpa only [and_iff_left hmem] using hdue
  · intro events' heq event hevent
    obtain rfl := Pc.handling.inj heq
    exact (hevents event hevent).2

/-- **An event is handled**: a report of the pipe takes one notification out of it, however many
there are. -/
theorem World.Sound.handled (h : w.Sound) (hstep : childWithPipe.step w (.event input) = some v) :
    v.Sound := by
  obtain ⟨event, events, hpc⟩ := handling_of_step hstep
  obtain ⟨hpc', hready, hsent, hcases⟩ := h.handle hpc hstep
  have hdue := h.due
  rw [World.reported_of_handling hpc, List.map_cons] at hdue
  have hepollin : ∀ events', v.pc = .handling events' → ∀ event ∈ events',
      event.source = .pipefd → event.epollin = true := by
    intro events' heq e he
    obtain rfl := Pc.handling.inj (hpc'.symm.trans heq)
    exact h.epollin _ hpc e (List.mem_cons_of_mem event he)
  have hnodup : v.reported.Nodup := by
    have := h.nodup
    rw [World.reported_of_handling hpc, List.map_cons] at this
    rw [World.reported_of_handling hpc']
    exact this.of_cons
  have hconserved := h.conserved
  have haccepted := h.accepted
  rcases hcases with ⟨hsource, hpipe, hreceived, hroom, haccepts⟩ |
    ⟨hsource, hpipe, hreceived, haccepts⟩
  · refine ⟨?_, ?_, ?_, hnodup, hepollin⟩
    · rw [hpipe, hreceived, hsent, List.length_drop]
      omega
    · rw [hreceived, haccepts, haccepted, Nat.mul_add, Nat.mul_one]
    · rw [haccepts, hready, hsent, World.reported_of_handling hpc']
      rw [hsource, List.count_cons_self] at hdue
      omega
  · refine ⟨?_, ?_, ?_, hnodup, hepollin⟩
    · rw [hpipe, hreceived, hsent, hconserved]
    · rw [hreceived, haccepts, haccepted]
    · rw [haccepts, hready, hsent, World.reported_of_handling hpc']
      rwa [List.count_cons_of_ne hsource] at hdue

/-- **Every step** keeps the invariant, those of the parent as well as those of the child. -/
theorem World.Sound.step (h : w.Sound) (hstep : childWithPipe.step w m = some v) : v.Sound := by
  cases m with
  | send => exact h.send hstep
  | arrive source =>
      obtain ⟨hne, heq⟩ := Option.ite_none_right_eq_some.mp hstep
      obtain rfl := Option.some.inj heq
      refine ⟨h.conserved, h.accepted, ?_, h.nodup, h.epollin⟩
      have := h.due
      simpa only [World.reported, mem_mark, hne.symm, false_or] using this
  | wait events => exact h.wait hstep
  | fail =>
      obtain ⟨hpc, heq⟩ := Option.ite_none_right_eq_some.mp hstep
      obtain rfl := Option.some.inj heq
      have hdue := h.due
      rw [World.reported, hpc] at hdue
      refine ⟨h.conserved, h.accepted, hdue, .nil, fun events heq => ?_⟩
      cases heq
  | event input => exact h.handled hstep
  | endBatch =>
      obtain ⟨hpc, heq⟩ := Option.ite_none_right_eq_some.mp hstep
      obtain rfl := Option.some.inj heq
      have hdue := h.due
      rw [World.reported_of_handling hpc] at hdue
      refine ⟨h.conserved, h.accepted, ?_, ?_, ?_⟩
      · rw [World.reported_endBatch]
        exact hdue
      · rw [World.reported_endBatch]
        exact .nil
      · intro events' heq
        change (if w.child.stop = true then Pc.returned else .waiting) = _ at heq
        split at heq <;> cases heq

/-- **What a step leaves in the pipe.** Everything unread stays due exactly if the step drains
the report of the pipe that it handles, if any. -/
theorem nothingLost_iff (h : w.Sound) (hlost : w.NothingLost)
    (hstep : childWithPipe.step w m = some v) : v.NothingLost ↔ w.Drains m := by
  cases m with
  | send =>
      obtain rfl := Option.some.inj hstep
      exact iff_of_true (hlost.arrive fun source hwaits => .inl hwaits.1) trivial
  | arrive source =>
      obtain ⟨-, heq⟩ := Option.ite_none_right_eq_some.mp hstep
      obtain rfl := Option.some.inj heq
      exact iff_of_true (hlost.arrive fun source hwaits => .inr hwaits) trivial
  | wait events =>
      obtain ⟨⟨hpc, -, -⟩, heq⟩ := Option.ite_none_right_eq_some.mp hstep
      obtain rfl := Option.some.inj heq
      rw [World.NothingLost, World.reported, hpc] at hlost
      exact iff_of_true (hlost.report (events.map Report.source)) trivial
  | fail =>
      obtain ⟨hpc, heq⟩ := Option.ite_none_right_eq_some.mp hstep
      obtain rfl := Option.some.inj heq
      rw [World.NothingLost, World.reported, hpc] at hlost
      exact iff_of_true hlost trivial
  | event input =>
      obtain ⟨event, events, hpc⟩ := handling_of_step hstep
      obtain ⟨hpc', hready, -, hcases⟩ := h.handle hpc hstep
      have hreported := World.reported_of_handling hpc
      have hnodup := h.nodup
      rw [hreported, List.map_cons, List.nodup_cons] at hnodup
      rw [World.NothingLost, hreported, List.map_cons] at hlost
      have hdrains : w.Drains (.event input) ↔
          (event.source = .pipefd → w.pipe.length ≤ sizeofInt ∨ .pipefd ∈ w.ready) := by
        simp [World.Drains, hreported]
      rw [World.NothingLost, World.reported_of_handling hpc', hready, hdrains,
        hlost.handle_iff hnodup.1 (fun source hne hwaits => .inl ?_) fun source _ => id]
      · rcases hcases with ⟨hsource, hpipe, -⟩ | ⟨hsource, -⟩
        · simp only [World.Waits, hsource, hpipe, true_and, ne_eq, List.drop_eq_nil_iff,
            true_implies]
          exact Classical.or_iff_not_imp_left.symm
        · exact iff_of_true (fun hwaits => absurd hwaits.1 hsource) fun h => absurd h hsource
      · rcases hcases with ⟨hsource, -⟩ | ⟨-, hpipe, -⟩
        · exact absurd (hwaits.1.trans hsource.symm) hne
        · exact ⟨hwaits.1, hpipe ▸ hwaits.2⟩
  | endBatch =>
      obtain ⟨hpc, heq⟩ := Option.ite_none_right_eq_some.mp hstep
      obtain rfl := Option.some.inj heq
      rw [World.NothingLost, World.reported_of_handling hpc] at hlost
      refine iff_of_true ?_ trivial
      rw [World.NothingLost, World.reported_endBatch]
      exact hlost

/-- **The accepts against the notifications.** In every run, the child has called `accept`
once for each notification that it has read. In the runs that drain every report of the pipe,
whenever no report of the pipe is pending or in hand, these are all the notifications that the
parent has sent. A step from such a run leaves every unread notification due exactly if it
drains the report that it handles. -/
theorem child_answers_notifications (h : childWithPipe.Reachable w) :
    w.child.accepts ≤ w.notificationsRead ∧
    (childWithPipe.ReachableWhile World.Drains w →
      (.pipefd ∉ w.ready → .pipefd ∉ w.reported →
        w.child.accepts = w.notificationsRead ∧ w.notificationsRead = w.sent) ∧
      ∀ m v, childWithPipe.step w m = some v → (v.NothingLost ↔ w.Drains m)) := by
  have hinv : ∀ w, childWithPipe.Reachable w → w.Sound := fun w h => by
    refine System.Inductive.holds (I := World.Sound) ⟨?_, ?_⟩ h
    · exact fun _ hinit => (World.sound_of_init hinit).1
    · exact fun _ _ _ hs _ hstep => hs.step hstep
  have hsound := hinv w h
  have hread : w.notificationsRead = w.child.accepts := by
    rw [World.notificationsRead, hsound.accepted, Nat.mul_div_cancel_left _ (by decide)]
  refine ⟨Nat.le_of_eq hread.symm, fun hdrained => ?_⟩
  have hlost : w.NothingLost := by
    refine System.Inductive.holds_of (J := World.NothingLost)
      (fun _ hw => hinv _ (hw.mono fun _ _ _ => trivial)) ?_ ?_ hdrained
    · exact fun _ hinit => (World.sound_of_init hinit).2
    · exact fun _ _ _ hs _ hlost hdrains hstep => (nothingLost_iff hs hlost hstep).mpr hdrains
  refine ⟨fun hready hreported => ⟨hread.symm, ?_⟩, fun m v => nothingLost_iff hsound hlost⟩
  have hempty : w.pipe = [] := by
    by_contra hne
    exact (hlost .pipefd ⟨rfl, hne⟩).elim hready hreported
  have hconserved := hsound.conserved
  rw [hempty, List.length_nil, Nat.add_zero, hsound.accepted] at hconserved
  rw [hread]
  exact Nat.eq_of_mul_eq_mul_left (by decide) hconserved

/-- Two notifications; the second one arrives while the report of the first is in hand. -/
theorem child_answers_notifications_example :
    ∃ w : World, w.pc = .waiting ∧ w.sent = 2 ∧ w.child.accepts = w.notificationsRead ∧
      w.notificationsRead = w.sent := by
  have hinit : childWithPipe.ReachableWhile World.Drains
      ⟨.new, .waiting, [], [], 0, []⟩ := .init ⟨0, rfl⟩
  obtain ⟨w, hreach, hw⟩ := System.exists_reachableWhile hinit
    [.send, .wait [⟨.pipefd, true⟩], .send, .event (.notification (.data newConn) (some 7)),
      .endBatch, .arrive (.client 7), .wait [⟨.client 7, true⟩, ⟨.pipefd, true⟩],
      .event .process, .event (.notification (.data newConn) none), .endBatch]
    (fun w => decide (w.pc = .waiting ∧ w.sent = 2 ∧ .pipefd ∉ w.ready ∧
      .pipefd ∉ w.reported)) (by decide +kernel)
  obtain ⟨hpc, hsent, hready, hreported⟩ := of_decide_eq_true hw
  have hmain := child_answers_notifications (hreach.mono fun _ _ _ => trivial)
  exact ⟨w, hpc, hsent, (hmain.2 hreach).1 hready hreported⟩

/-- **Merged notifications.** The parent sends twice before the child looks; the child accepts
once, and nothing more is reported. -/
theorem child_misses_notification :
    ∃ w, childWithPipe.Reachable w ∧ w.pc = .waiting ∧ w.ready = [] ∧ w.sent = 2 ∧
      w.child.accepts = 1 := by
  have hinit : childWithPipe.Reachable ⟨.new, .waiting, [], [], 0, []⟩ := .init ⟨0, rfl⟩
  obtain ⟨w, hreach, hw⟩ := System.exists_reachableWhile hinit
    [.send, .send, .wait [⟨.pipefd, true⟩], .event (.notification (.data newConn) (some 7)),
      .endBatch]
    (fun w => decide (w.pc = .waiting ∧ w.ready = [] ∧ w.sent = 2 ∧ w.child.accepts = 1))
    (by decide +kernel)
  exact ⟨w, hreach, of_decide_eq_true hw⟩

end LinuxNetwork.ProcessPoolChild

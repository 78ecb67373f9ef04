import LinuxNetwork.NTimerServerTimers

/-!
# Idle Connections of the Server

A connection has its deadline three time slots after it was accepted or last sent data, by
the clock of `time`. `timer_handler` closes the connections in front of the first one whose
deadline has not passed, and these are all the idle ones, at every clock reading, exactly if
`timer_list` is in ascending order. `add_timer` puts a timer into its place wherever that is.
`adjust_timer` moves a timer towards the tail only, so that one restarted by a clock that was
set back may keep a place behind timers with later deadlines.

## Main results

* `closesExactlyIdle_all_iff`: the order of the list decides what `timer_handler` closes.
* `EntriesStep.sorted_iff`: what a step does to the order.
* `timerHandler_closes_idle`: runs that restart timers in order.
* `inOrder_of_latest`: a clock that is not behind restarts them in order.
-/

open Transition

namespace LinuxNetwork.NTimerServer

open SortTimerList (Entry timers Rep insertEntry firedBy leftBy)
open StableQueue (Sorted)

/-- **A call of `timer_handler` closes exactly the idle connections** when `tick` reads the
clock as `cur`. -/
def ClosesExactlyIdle (s : Server) (cur : ℤ) : Prop :=
  ∃ s' acts, timerHandler s cur = some s' ∧ s'.trace = s.trace ++ acts ∧
    ∀ fd, acts.count (.close fd) =
      if fd ∈ s.openFds ∧ s.lastSeen fd + 3 * TIMESLOT ≤ cur then 1 else 0

/-- **Data restart a timer in order**: its new deadline is not below that of a connection in
front of it in the list. -/
def InOrder (s : State) : Act → Prop
  | .event (.recv (.data _) cur) => ∀ event batch es, s.batch = some (event :: batch) →
      Rep s.server.timerList es →
      ∀ f ∈ es.takeWhile (fun f => decide (f.userData ≠ event.fd)), f.expire ≤ cur + 3 * TIMESLOT
  | _ => True

variable {fds : Fds} {s : Server} {es es' es₁ es₂ : List (Entry ℤ)} {e : Entry ℤ} {fd cur : ℤ}
  {input : Input}

/-! ### What a call closes -/

/-- The callbacks of several entries close their connections, each as often as it has an entry. -/
theorem count_close_callbacks (es : List (Entry ℤ)) (fd : ℤ) :
    (closings es ++ [Action.alarm]).count (.close fd) = (es.map Entry.userData).count fd := by
  induction es with
  | nil => rfl
  | cons e es ih =>
      rw [closings, List.flatMap_cons, List.append_assoc, List.count_append, ← closings, ih,
        List.map_cons]
      by_cases h : e.userData = fd <;> simp [h, Nat.add_comm]

/-- The idle connections are those of the expired entries, since a timer expires three time
slots after its connection was last seen. -/
theorem Registered.idle_iff (h : Registered s es) (cur : ℤ) :
    fd ∈ s.openFds ∧ s.lastSeen fd + 3 * TIMESLOT ≤ cur ↔
      fd ∈ (es.filter fun e => decide (e.expire ≤ cur)).map Entry.userData := by
  simp only [List.mem_map, List.mem_filter, decide_eq_true_eq]
  constructor
  · rintro ⟨hfd, hcur⟩
    obtain ⟨es₁, e, es₂, rfl, rfl⟩ := h.exists_split hfd
    have he : e ∈ es₁ ++ e :: es₂ := by simp
    exact ⟨e, ⟨he, h.deadline e he ▸ hcur⟩, rfl⟩
  · rintro ⟨e, ⟨he, hcur⟩, rfl⟩
    exact ⟨h.mem_openFds he, h.deadline e he ▸ hcur⟩

/-- A call closes exactly the idle connections if no expired entry is behind an unexpired one.
The fired entries are among the expired ones, so they are the same if they are as many. -/
theorem closesExactlyIdle_iff (h : Matched s es) (cur : ℤ) :
    ClosesExactlyIdle s cur ↔ firedBy cur es = es.filter fun e => decide (e.expire ≤ cur) := by
  obtain ⟨s₁, hrun, -, hs₁⟩ := h.timerHandler cur
  have hidle : ∀ fd, (if fd ∈ s.openFds ∧ s.lastSeen fd + 3 * TIMESLOT ≤ cur then 1 else 0) =
      ((es.filter fun e => decide (e.expire ≤ cur)).map Entry.userData).count fd := by
    intro fd
    rw [List.Nodup.count (h.registered.nodup_userData.sublist (List.filter_sublist.map _))]
    simp only [h.registered.idle_iff cur]
  have htrace : s₁.trace = s.trace ++ (closings (firedBy cur es) ++ [.alarm]) := by
    rw [hs₁]
  constructor
  · rintro ⟨s', acts, hrun', htrace', hcount⟩
    obtain rfl := Option.some.inj (hrun.symm.trans hrun')
    obtain rfl := List.append_cancel_left (htrace.symm.trans htrace')
    have hperm : ((firedBy cur es).map Entry.userData).Perm
        ((es.filter fun e => decide (e.expire ≤ cur)).map Entry.userData) := by
      refine List.perm_iff_count.mpr fun fd => ?_
      rw [← hidle, ← hcount, count_close_callbacks]
    refine (StableQueue.takeWhile_sublist_filter _ es).eq_of_length ?_
    simpa [firedBy] using hperm.length_eq
  · intro heq
    refine ⟨s₁, _, hrun, htrace, fun fd => ?_⟩
    rw [count_close_callbacks, heq, hidle]

/-- **The order of the list decides** whether calls of `timer_handler` close exactly the idle
connections. -/
theorem closesExactlyIdle_all_iff (h : Matched s es) :
    (∀ cur, ClosesExactlyIdle s cur) ↔ Sorted Entry.expire es := by
  simp only [closesExactlyIdle_iff h]
  exact StableQueue.sorted_iff_takeWhile_eq_filter.symm

/-! ### Runs -/

variable {s t : State} {a : Act}

/-- The step handles data of a connection. -/
def Act.isData : Act → Bool
  | .event (.recv (.data _) _) => true
  | .event _ | .wait _ | .endBatch _ => false

/-- Only data restart a timer. -/
theorem inOrder_of_isData_eq_false (h : a.isData = false) : InOrder s a := by
  unfold InOrder
  split
  · cases h
  · trivial

/-- **A restart by a clock that is not behind**: it reads no less than it did when any other open
connection was last seen. -/
def Latest (s : State) : Act → Prop
  | .event (.recv (.data _) cur) => ∀ event ∈ (s.batch.getD []).head?, ∀ fd ∈ s.server.openFds,
      fd ≠ event.fd → s.server.lastSeen fd ≤ cur
  | _ => True

instance (s : State) (a : Act) : Decidable (Latest s a) := by
  unfold Latest
  split <;> infer_instance

/-- Such a restart is in order: whatever stands in front of the timer has no later deadline than
the one that it gets, since a deadline is three time slots behind the last sight. -/
theorem Matched.inOrder (h : Matched s.server es) (ha : Latest s a) : InOrder s a := by
  unfold InOrder
  split
  · rename_i bytes cur
    intro event batch es' hbatch hrep f hf
    obtain rfl := h.rep.unique hrep
    have hne : f.userData ≠ event.fd := by simpa using List.mem_takeWhile_imp hf
    have hmem : f ∈ es := (List.takeWhile_prefix _).mem hf
    have hlatest : s.server.lastSeen f.userData ≤ cur :=
      ha event (by rw [hbatch]; rfl) f.userData (h.registered.mem_openFds hmem) hne
    rw [h.registered.deadline f hmem]
    exact Int.add_le_add_right hlatest _
  · trivial

/-- **What a step does to the order.** It keeps the list in ascending order exactly if it
does not restart a timer out of order. -/
theorem EntriesStep.sorted_iff (h : Matched s.server es) (hsorted : Sorted Entry.expire es)
    (hstep : EntriesStep s a es es') : Sorted Entry.expire es' ↔ InOrder s a := by
  cases hstep with
  | wait events => exact iff_of_true hsorted trivial
  | tick cur => exact iff_of_true (hsorted.sublist (List.dropWhile_sublist _)) trivial
  | skip cur => exact iff_of_true hsorted trivial
  | event event batch input _ _ hbatch hchange =>
      cases hchange with
      | accept connfd addr cur => exact iff_of_true (StableQueue.sorted_insert hsorted) trivial
      | keep _ _ hkeeps =>
          refine iff_of_true hsorted (inOrder_of_isData_eq_false ?_)
          unfold Act.isData
          split
          case h_1 heq =>
              cases heq
              cases hkeeps
          all_goals rfl
      | close result cur es₁ es₂ e hresult _ =>
          refine iff_of_true (hsorted.sublist ?_) (inOrder_of_isData_eq_false ?_)
          · exact (List.sublist_cons_self e es₂).append_left es₁
          · rcases hresult with rfl | rfl <;> rfl
      | restart bytes cur es₁ es₂ e hfd =>
          have hne : ∀ f ∈ es₁, decide (f.userData ≠ event.fd) = true := fun f hf =>
            decide_eq_true <| hfd ▸ h.registered.userData_ne f (List.mem_append_left es₂ hf)
          have hfront : (es₁ ++ e :: es₂).takeWhile (fun f => decide (f.userData ≠ event.fd)) =
              es₁ := by
            rw [List.takeWhile_append_of_pos hne, List.takeWhile_cons_of_neg (by simpa using hfd),
              List.append_nil]
          rw [StableQueue.sorted_append_insert_iff hsorted]
          constructor
          · intro hle event' batch' es hbatch' hrep f hf
            obtain ⟨rfl, -⟩ := List.cons.inj (Option.some.inj (hbatch.symm.trans hbatch'))
            rw [← h.rep.unique hrep, hfront] at hf
            exact hle f hf
          · exact fun hin f hf => hin event batch _ hbatch h.rep f (hfront.symm ▸ hf)

/-- **`timer_handler` closes exactly the idle connections** in all states of the runs that
restart timers in order, whatever the clock readings, and a step leads on to such a state
exactly if it does not restart a timer out of order. -/
theorem timerHandler_closes_idle
    (h : (server fds).ReachableWhile (fun s a => Assumed fds s a ∧ InOrder s a) s) :
    (∀ cur, ClosesExactlyIdle s.server cur) ∧
      ∀ a t, Assumed fds s a → (server fds).step s a = some t →
        ((∀ cur, ClosesExactlyIdle t.server cur) ↔ InOrder s a) := by
  have hsorted : ∃ es, Matched s.server es ∧ Sorted Entry.expire es := by
    refine System.Inductive.holds_of
      (J := fun s => ∃ es, Matched s.server es ∧ Sorted Entry.expire es)
      (fun s hs => coherent (hs.mono fun _ _ => And.left)) ?_ ?_ h
    · rintro _ ⟨users, rfl⟩
      exact ⟨[], matched_new users, List.Pairwise.nil⟩
    · rintro s a t ⟨-, hbatch⟩ - ⟨es, hmatched, hsorted⟩ ⟨hassumed, hin⟩ hstep
      obtain ⟨t', es', acts, hstep', hmatched', -, hentries, -⟩ :=
        step_spec hmatched hbatch hassumed (enabled_of_step hstep)
      obtain rfl := Option.some.inj (hstep'.symm.trans hstep)
      exact ⟨es', hmatched', (hentries.sorted_iff hmatched hsorted).mpr hin⟩
  obtain ⟨es, hmatched, hsorted⟩ := hsorted
  refine ⟨(closesExactlyIdle_all_iff hmatched).mpr hsorted, fun a t hassumed hstep => ?_⟩
  have hbatch := (coherent (h.mono fun _ _ => And.left)).batch
  obtain ⟨t', es', acts, hstep', hmatched', -, hentries, -⟩ :=
    step_spec hmatched hbatch hassumed (enabled_of_step hstep)
  obtain rfl := Option.some.inj (hstep'.symm.trans hstep)
  rw [closesExactlyIdle_all_iff hmatched', hentries.sorted_iff hmatched hsorted]

/-- **A clock that is never behind restarts all timers in order**, whatever it shows when
connections are accepted. -/
theorem inOrder_of_latest
    (h : (server fds).ReachableWhile (fun s a => Assumed fds s a ∧ Latest s a) s) :
    (server fds).ReachableWhile (fun s a => Assumed fds s a ∧ InOrder s a) s := by
  refine h.mono_of_reachable fun s a hs ha => ⟨ha.1, ?_⟩
  obtain ⟨es, hmatched⟩ := (coherent (hs.mono fun _ _ => And.left)).matched
  exact hmatched.inOrder ha.2

/-- The clock is set back between two acceptances, so that the later connection has the earlier
deadline, and then set forward a little before data arrive on the other one, whose timer is
restarted with an earlier deadline than it had, but not an earlier one than the timer in front
of it. -/
theorem timerHandler_closes_idle_example :
    ∃ s : State, s.server.openFds = [8, 7] ∧ s.server.lastSeen 8 = 90 ∧
      s.server.lastSeen 7 = 95 ∧ ∀ cur, ClosesExactlyIdle s.server cur := by
  have hinit : (server ⟨3, 4, 6⟩).ReachableWhile (fun s a => Assumed ⟨3, 4, 6⟩ s a ∧ Latest s a)
      ⟨.new fun _ => ⟨0, none⟩, none⟩ := .init ⟨_, rfl⟩
  obtain ⟨s, hreach, hs⟩ := System.exists_reachableWhile hinit
    [.wait [⟨3, true⟩], .event (.accept 7 1 100), .endBatch 100,
      .wait [⟨3, true⟩], .event (.accept 8 2 90), .endBatch 90,
      .wait [⟨7, true⟩], .event (.recv (.data [65]) 95), .endBatch 95]
    (fun s => decide (s.server.openFds = [8, 7] ∧ s.server.lastSeen 8 = 90 ∧
      s.server.lastSeen 7 = 95)) (by decide +kernel)
  obtain ⟨hopen, h8, h7⟩ := of_decide_eq_true hs
  exact ⟨s, hopen, h8, h7, (timerHandler_closes_idle (inOrder_of_latest hreach)).1⟩

/-- **A restart out of order hides an idle connection.** Two connections are accepted at 100,
data arrive on the second when the clock shows 0, and a signal is due at 20: the second
connection is past its deadline, 15, and `timer_handler` does not close it. -/
theorem timerHandler_misses_idle :
    ∃ s, (server ⟨3, 4, 6⟩).ReachableWhile (Assumed ⟨3, 4, 6⟩) s ∧ s.batch = some [] ∧
      s.server.timeout = true ∧ ¬ClosesExactlyIdle s.server 20 := by
  have hinit : (server ⟨3, 4, 6⟩).ReachableWhile (Assumed ⟨3, 4, 6⟩)
      ⟨.new fun _ => ⟨0, none⟩, none⟩ := .init ⟨_, rfl⟩
  obtain ⟨s, hreach, hs⟩ := System.exists_reachableWhile hinit
    [.wait [⟨3, true⟩], .event (.accept 7 1 100), .endBatch 100,
      .wait [⟨3, true⟩], .event (.accept 8 2 100), .endBatch 100,
      .wait [⟨8, true⟩], .event (.recv (.data [65]) 0), .endBatch 0,
      .wait [⟨4, true⟩], .event (.signals (some [SIGALRM]))]
    (fun s => decide (s.batch = some [] ∧ s.server.timeout = true ∧
      8 ∈ s.server.openFds ∧ s.server.lastSeen 8 + 3 * TIMESLOT ≤ 20 ∧
      (timerHandler s.server 20).map (fun t => t.trace) =
        some (s.server.trace ++ [.alarm]))) (by decide +kernel)
  obtain ⟨hbatch, htimeout, hopen, hidle, hrun⟩ := of_decide_eq_true hs
  refine ⟨s, hreach, hbatch, htimeout, ?_⟩
  rintro ⟨t, acts, ht, htrace, hcount⟩
  rw [ht, Option.map_some, htrace] at hrun
  have hcount8 := hcount 8
  rw [List.append_cancel_left (Option.some.inj hrun), if_pos ⟨hopen, hidle⟩] at hcount8
  exact absurd hcount8 (by decide)

end LinuxNetwork.NTimerServer

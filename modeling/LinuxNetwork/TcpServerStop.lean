import LinuxNetwork.TcpServer

/-!
# Stopping the Accept Loop

One call of `run()` against one call of `stop()`. `accept` on the open listening socket returns
a connection or `EAGAIN`; on a closed or missing one it fails with `EBADF`, which
`acceptConnection` turns into an exception.

`stop()` ends the loop as it should unless it comes at a bad moment: before `running_` is set it
does nothing, and while `run()` stands between its test of `running_` and `accept` it closes
the socket under that `accept`.

## Main results

* `Loop.Sound.step`: what the steps at good moments keep.
* `Loop.Sound.ends`: how `run()` goes on when `stop()` has returned.
* `stop_ends_run`: how `run()` ends, and what the bad moments lead to.
-/

open Transition

namespace LinuxNetwork.TcpServer

/-- A bound on the steps that `run()` still takes when `running_` is false. -/
def RunPc.left : RunPc → ℕ
  | .returned | .threw _ => 0
  | .testing | .testingSignal => 1
  | .enqueuing _ | .sleeping => 2
  | .constructing _ => 3
  | .accepting => 4
  | .storing => 2
  | .creating => 3

namespace Loop

/-- What the kernel may return to a step. -/
def Answers (s : Loop) : Act → Prop
  | .accept result => result = .error ↔ ¬s.Listens
  | .construct _ result => result = .done
  | .createListenSocket _ | .store | .test | .testSignal | .enqueue _ | .sleep | .exchange
  | .close | .reset | .interrupt => True

instance (s : Loop) : ∀ a, Decidable (s.Answers a)
  | .accept _ => inferInstanceAs (Decidable (_ ↔ _))
  | .construct _ _ => inferInstanceAs (Decidable (_ = _))
  | .createListenSocket _ | .store | .test | .testSignal | .enqueue _ | .sleep | .exchange
  | .close | .reset | .interrupt => inferInstanceAs (Decidable True)

/-- `run()` is going to call `accept` without looking at `running_` again. -/
def AboutToAccept (s : Loop) : Prop :=
  s.run = .accepting ∨ s.run = .testingSignal ∧ s.terminate = false

instance (s : Loop) : Decidable s.AboutToAccept :=
  inferInstanceAs (Decidable (_ ∨ _))

/-- **A good moment** for a step of `stop()`: it exchanges `running_` after `run()` has set it,
and it does not close the socket under an `accept`. -/
def GoodMoment (s : Loop) : Act → Prop
  | .exchange => s.running = true
  | .close => ¬s.AboutToAccept
  | .createListenSocket _ | .store | .test | .testSignal | .accept _ | .construct _ _
  | .enqueue _ | .sleep | .reset | .interrupt => True

instance (s : Loop) : ∀ a, Decidable (s.GoodMoment a)
  | .exchange => inferInstanceAs (Decidable (_ = _))
  | .close => inferInstanceAs (Decidable (¬_))
  | .createListenSocket _ | .store | .test | .testSignal | .accept _ | .construct _ _
  | .enqueue _ | .sleep | .reset | .interrupt => inferInstanceAs (Decidable True)

/-- **The invariant** of `run()` and `stop()`. The socket is open until `stop()` closes it,
which it does once, and then no `accept` is to come. -/
structure Sound (s : Loop) : Prop where
  threw : ∀ what, s.run ≠ .threw what
  begun : s.run = .creating ∨ s.run = .storing → s.stop = .start ∧ s.running = false
  stopped : s.stop ≠ .start → s.running = false
  isOpen : s.run ≠ .creating → s.stop = .start ∨ s.stop = .closing → s.Listens
  unclosed : s.stop = .start ∨ s.stop = .closing → s.closes = 0
  closed : s.stop = .resetting ∨ s.stop = .returned → s.closes = 1 ∧ ¬s.AboutToAccept

end Loop

/-- One `run()` and one `stop()`. -/
def stoppable : System Loop Loop.Act where
  init := fun s => ∃ terminate, s = .new terminate
  step := fun s a => if s.Answers a then s.step a else none

namespace Loop

variable {s t : Loop} {a : Act} {pc : RunPc}

/-- A step of the system is one of the loop whose calls get the answers of the kernel. -/
theorem stoppable_step_eq_some :
    stoppable.step s a = some t ↔ s.Answers a ∧ s.step a = some t :=
  Option.ite_none_right_eq_some

/-- Before `run()` and `stop()` begin, nothing is closed and nothing was thrown. -/
theorem sound_new (terminate : Bool) : Sound (new terminate) where
  threw := nofun
  begun := fun _ => ⟨rfl, rfl⟩
  stopped := fun h => absurd rfl h
  isOpen := fun h => absurd rfl h
  unclosed := fun _ => rfl
  closed := nofun

/-- `run()` moves on in its loop, to no `accept` that would come too late. -/
theorem Sound.move (h : s.Sound) {iterations : ℕ} (hloop : ¬(s.run = .creating ∨ s.run = .storing))
    (hpc : ¬(pc = .creating ∨ pc = .storing)) (hthrew : ∀ what, pc ≠ .threw what)
    (haccept : s.stop = .resetting ∨ s.stop = .returned →
      ¬AboutToAccept { s with run := pc, iterations := iterations }) :
    Sound { s with run := pc, iterations := iterations } where
  threw := hthrew
  begun := fun hbegun => absurd hbegun hpc
  stopped := h.stopped
  isOpen := fun _ => h.isOpen fun heq => hloop (.inl heq)
  unclosed := h.unclosed
  closed := fun hclosed => ⟨(h.closed hclosed).1, haccept hclosed⟩

/-- `run()` moves on to a place behind which it looks at `running_` before it calls `accept`. -/
theorem Sound.moveOn (h : s.Sound) {iterations : ℕ}
    (hloop : ¬(s.run = .creating ∨ s.run = .storing))
    (hpc : ¬(pc = .creating ∨ pc = .storing)) (haway : ¬(pc = .accepting ∨ pc = .testingSignal))
    (hthrew : ∀ what, pc ≠ .threw what) : Sound { s with run := pc, iterations := iterations } := by
  refine h.move hloop hpc hthrew fun _ hto => ?_
  rcases hto with haccept | ⟨htesting, -⟩
  · exact haway (.inl haccept)
  · exact haway (.inr htesting)

/-- When `stop()` has begun to act, `run()` is in its loop or behind it, since a `stop()` at a
good moment finds `running_` set. -/
theorem Sound.not_begun (h : s.Sound) (hstop : s.stop ≠ .start) :
    ¬(s.run = .creating ∨ s.run = .storing) :=
  fun hbegun => hstop (h.begun hbegun).1

/-- An `accept` that is to come finds the socket open, wherever `stop()` is. -/
theorem Sound.listens (h : s.Sound) (hpc : s.run = .accepting) : s.Listens := by
  refine h.isOpen (by simp [hpc]) ?_
  cases hstop : s.stop with
  | start => exact .inl rfl
  | closing => exact .inr rfl
  | resetting => exact absurd (.inl hpc) (h.closed (.inl hstop)).2
  | returned => exact absurd (.inl hpc) (h.closed (.inr hstop)).2

/-- **Every step at a good moment** keeps the invariant. One case per step of `run()` and of
`stop()`. -/
theorem Sound.step (h : s.Sound) (hgood : s.GoodMoment a) (hstep : stoppable.step s a = some t) :
    t.Sound := by
  obtain ⟨hanswers, hstep⟩ := stoppable_step_eq_some.mp hstep
  cases a with
  | createListenSocket fd =>
      obtain ⟨⟨hpc, hfd⟩, heq⟩ := Option.ite_none_right_eq_some.mp hstep
      obtain rfl := Option.some.inj heq
      obtain ⟨hstart, hrunning⟩ := h.begun (.inl hpc)
      have hopen : (0 : ℤ) ≤ fd → fd ≠ -1 := by omega
      exact ⟨nofun, fun _ => ⟨hstart, hrunning⟩, h.stopped, fun _ _ => ⟨rfl, hopen hfd⟩,
        h.unclosed, fun hclosed => by simp [hstart] at hclosed⟩
  | store =>
      obtain ⟨hpc, heq⟩ := Option.ite_none_right_eq_some.mp hstep
      obtain rfl := Option.some.inj heq
      obtain ⟨hstart, -⟩ := h.begun (.inr hpc)
      exact ⟨nofun, nofun, fun hne => absurd hstart hne, fun _ => h.isOpen (by simp [hpc]),
        h.unclosed, fun hclosed => by simp [hstart] at hclosed⟩
  | test =>
      obtain ⟨hpc, heq⟩ := Option.ite_none_right_eq_some.mp hstep
      obtain rfl := Option.some.inj heq
      refine h.move (by simp [hpc]) (by split <;> simp) (by split <;> simp) fun hclosed => ?_
      have hrunning : s.running = false := h.stopped (by rintro heq; simp [heq] at hclosed)
      simp [AboutToAccept, hrunning]
  | testSignal =>
      obtain ⟨hpc, heq⟩ := Option.ite_none_right_eq_some.mp hstep
      split at heq
      case isTrue hterminate =>
        obtain rfl := Option.some.inj heq
        exact h.moveOn (by simp [hpc]) (by simp) (by simp) nofun
      case isFalse hterminate =>
        obtain rfl := Option.some.inj heq
        refine h.move (by simp [hpc]) (by simp) nofun fun hclosed => ?_
        exact absurd (.inr ⟨hpc, Bool.eq_false_iff.mpr hterminate⟩) (h.closed hclosed).2
  | accept result =>
      obtain ⟨hpc, heq⟩ := Option.ite_none_right_eq_some.mp hstep
      obtain rfl := Option.some.inj heq
      cases result with
      | connection client =>
          exact h.moveOn (by simp [hpc]) (by simp [afterAccept, acceptConnection])
            (by simp [afterAccept, acceptConnection]) nofun
      | eagain =>
          exact h.moveOn (by simp [hpc]) (by simp [afterAccept, acceptConnection])
            (by simp [afterAccept, acceptConnection]) nofun
      | error => exact absurd (h.listens hpc) (hanswers.mp rfl)
  | construct client result =>
      obtain ⟨hpc, heq⟩ := Option.ite_none_right_eq_some.mp hstep
      obtain rfl := Option.some.inj heq
      obtain rfl : result = .done := hanswers
      exact h.moveOn (by simp [hpc]) (by simp [afterConstruct, setNonBlocking])
        (by simp [afterConstruct, setNonBlocking]) nofun
  | enqueue client =>
      obtain ⟨hpc, heq⟩ := Option.ite_none_right_eq_some.mp hstep
      obtain rfl := Option.some.inj heq
      exact h.moveOn (by simp [hpc]) (by simp) (by simp) nofun
  | sleep =>
      obtain ⟨hpc, heq⟩ := Option.ite_none_right_eq_some.mp hstep
      obtain rfl := Option.some.inj heq
      exact h.moveOn (by simp [hpc]) (by simp) (by simp) nofun
  | exchange =>
      obtain ⟨hstart, heq⟩ := Option.ite_none_right_eq_some.mp hstep
      obtain rfl := Option.some.inj heq
      have hrunning : s.running = true := hgood
      have hloop : ¬(s.run = .creating ∨ s.run = .storing) := fun hbegun =>
        Bool.noConfusion ((h.begun hbegun).2.symm.trans hrunning)
      rw [if_pos hrunning]
      exact ⟨h.threw, fun hbegun => absurd hbegun hloop, fun _ => rfl,
        fun hpc _ => h.isOpen hpc (.inl hstart), fun _ => h.unclosed (.inl hstart), nofun⟩
  | close =>
      obtain ⟨hclosing, heq⟩ := Option.ite_none_right_eq_some.mp hstep
      have hrunning := h.stopped (by simp [hclosing])
      have hbegun := h.not_begun (by simp [hclosing])
      have hlistens := h.isOpen (fun hpc => hbegun (.inl hpc)) (.inr hclosing)
      have hcloses := h.unclosed (.inr hclosing)
      rw [if_neg hlistens.2] at heq
      obtain rfl := Option.some.inj heq
      exact ⟨h.threw, fun hpc => absurd hpc hbegun, fun _ => hrunning, nofun, nofun,
        fun _ => ⟨congrArg Nat.succ hcloses, hgood⟩⟩
  | reset =>
      obtain ⟨hreset, heq⟩ := Option.ite_none_right_eq_some.mp hstep
      obtain rfl := Option.some.inj heq
      have hrunning := h.stopped (by simp [hreset])
      have hbegun := h.not_begun (by simp [hreset])
      exact ⟨h.threw, fun hpc => absurd hpc hbegun, fun _ => hrunning, nofun, nofun,
        fun _ => h.closed (.inl hreset)⟩
  | interrupt =>
      obtain ⟨-, heq⟩ := Option.ite_none_right_eq_some.mp hstep
      obtain rfl := Option.some.inj heq
      refine ⟨h.threw, h.begun, h.stopped, h.isOpen, h.unclosed, fun hclosed => ?_⟩
      obtain ⟨hcloses, haccept⟩ := h.closed hclosed
      refine ⟨hcloses, fun hto => haccept (.inl ?_)⟩
      simpa [AboutToAccept] using hto

/-! ### After `stop()` -/

/-- Once `stop()` has returned, `run()` makes no iteration and goes on to return. Each of its
steps leaves fewer. -/
theorem Sound.after_stop (h : s.Sound) (hstop : s.stop = .returned)
    (hstep : stoppable.step s a = some t) :
    t.Sound ∧ t.stop = .returned ∧ t.iterations = s.iterations ∧
      t.run.left + (if a.ofRun then 1 else 0) ≤ s.run.left := by
  have hgood : s.GoodMoment a := by
    obtain ⟨-, hstep⟩ := stoppable_step_eq_some.mp hstep
    cases a with
    | exchange => exact nomatch hstop.symm.trans (Option.ite_none_right_eq_some.mp hstep).1
    | close => exact (h.closed (.inr hstop)).2
    | createListenSocket _ | store | test | testSignal | accept _ | construct _ _ | enqueue _
    | sleep | reset | interrupt => trivial
  refine ⟨h.step hgood hstep, ?_⟩
  obtain ⟨-, hstep⟩ := stoppable_step_eq_some.mp hstep
  obtain ⟨-, haccept⟩ := h.closed (.inr hstop)
  have hrunning : s.running = false := h.stopped (by simp [hstop])
  have hbegun := h.not_begun (by simp [hstop])
  cases a with
  | createListenSocket fd =>
      exact absurd (.inl (Option.ite_none_right_eq_some.mp hstep).1.1) hbegun
  | store => exact absurd (.inr (Option.ite_none_right_eq_some.mp hstep).1) hbegun
  | test =>
      obtain ⟨hpc, heq⟩ := Option.ite_none_right_eq_some.mp hstep
      obtain rfl := Option.some.inj heq
      exact ⟨hstop, rfl, by simp [hpc, hrunning, RunPc.left, Act.ofRun]⟩
  | testSignal =>
      obtain ⟨hpc, heq⟩ := Option.ite_none_right_eq_some.mp hstep
      have hterminate : s.terminate = true := by
        by_contra hne
        exact haccept (.inr ⟨hpc, Bool.eq_false_iff.mpr hne⟩)
      rw [if_pos hterminate] at heq
      obtain rfl := Option.some.inj heq
      exact ⟨hstop, rfl, by simp [hpc, RunPc.left, Act.ofRun]⟩
  | accept result =>
      exact absurd (.inl (Option.ite_none_right_eq_some.mp hstep).1) haccept
  | construct client result =>
      obtain ⟨hpc, heq⟩ := Option.ite_none_right_eq_some.mp hstep
      obtain rfl := Option.some.inj heq
      refine ⟨hstop, rfl, ?_⟩
      cases result <;> simp [hpc, RunPc.left, Act.ofRun, afterConstruct, setNonBlocking]
  | enqueue client =>
      obtain ⟨hpc, heq⟩ := Option.ite_none_right_eq_some.mp hstep
      obtain rfl := Option.some.inj heq
      exact ⟨hstop, rfl, by simp [hpc, RunPc.left, Act.ofRun]⟩
  | sleep =>
      obtain ⟨hpc, heq⟩ := Option.ite_none_right_eq_some.mp hstep
      obtain rfl := Option.some.inj heq
      exact ⟨hstop, rfl, by simp [hpc, RunPc.left, Act.ofRun]⟩
  | exchange => exact nomatch hstop.symm.trans (Option.ite_none_right_eq_some.mp hstep).1
  | close => exact nomatch hstop.symm.trans (Option.ite_none_right_eq_some.mp hstep).1
  | reset => exact nomatch hstop.symm.trans (Option.ite_none_right_eq_some.mp hstep).1
  | interrupt =>
      obtain ⟨-, heq⟩ := Option.ite_none_right_eq_some.mp hstep
      obtain rfl := Option.some.inj heq
      exact ⟨hstop, rfl, Nat.le_refl _⟩

/-- The run lemma to `Sound.after_stop`. Induction on the steps. -/
theorem Sound.after_stop_run {as : List Act} (h : s.Sound) (hstop : s.stop = .returned)
    (hrun : stoppable.run s as = some t) :
    t.Sound ∧ t.stop = .returned ∧ t.iterations = s.iterations ∧
      t.run.left + as.countP Act.ofRun ≤ s.run.left := by
  induction as generalizing s with
  | nil =>
      obtain rfl := Option.some.inj hrun
      exact ⟨h, hstop, rfl, Nat.le_refl _⟩
  | cons a as ih =>
      obtain ⟨u, hu, hrun⟩ := Option.bind_eq_some_iff.mp hrun
      obtain ⟨hsound, hstop', hiter, hleft⟩ := h.after_stop hstop hu
      obtain ⟨hsound', hstop'', hiter', hleft'⟩ := ih hsound hstop' hrun
      refine ⟨hsound', hstop'', hiter'.trans hiter, ?_⟩
      rw [List.countP_cons]
      omega

/-- `run()` can always go on until it returns: at each place the kernel has an answer to the
call that is made there. -/
theorem Sound.can_move (h : s.Sound) :
    s.run = .returned ∨ ∃ a u, a.ofRun = true ∧ stoppable.step s a = some u := by
  have hcan : ∀ a, s.Answers a → (s.step a).isSome = true → a.ofRun = true →
      ∃ a u, a.ofRun = true ∧ stoppable.step s a = some u := by
    intro a hanswers hsome hrun
    obtain ⟨u, hu⟩ := Option.isSome_iff_exists.mp hsome
    exact ⟨a, u, hrun, stoppable_step_eq_some.mpr ⟨hanswers, hu⟩⟩
  cases hpc : s.run with
  | creating => exact .inr (hcan (.createListenSocket 0) trivial (by simp [Loop.step, hpc]) rfl)
  | storing => exact .inr (hcan .store trivial (by simp [Loop.step, hpc]) rfl)
  | testing => exact .inr (hcan .test trivial (by simp [Loop.step, hpc]) rfl)
  | testingSignal =>
      have hsome : (s.step .testSignal).isSome = true := by
        rw [Loop.step, if_pos hpc]
        split <;> rfl
      exact .inr (hcan .testSignal trivial hsome rfl)
  | accepting =>
      by_cases hlistens : s.Listens
      · exact .inr (hcan (.accept .eagain) (by simp [Answers, hlistens])
          (by simp [Loop.step, hpc]) rfl)
      · exact .inr (hcan (.accept .error) (by simp [Answers, hlistens])
          (by simp [Loop.step, hpc]) rfl)
  | constructing client =>
      exact .inr (hcan (.construct client .done) rfl (by simp [Loop.step, hpc]) rfl)
  | enqueuing client => exact .inr (hcan (.enqueue client) trivial (by simp [Loop.step, hpc]) rfl)
  | sleeping => exact .inr (hcan .sleep trivial (by simp [Loop.step, hpc]) rfl)
  | returned => exact .inl rfl
  | threw what => exact absurd hpc (h.threw what)

/-- Outside of the call of `accept` and of what leads to it, at most three steps are left. -/
theorem RunPc.left_le (h : s.run ≠ .accepting) : s.run.left ≤ 3 := by
  cases hpc : s.run with
  | accepting => exact absurd hpc h
  | creating | storing | testing | testingSignal | constructing _ | enqueuing _ | sleeping
  | returned | threw _ => simp [RunPc.left]

/-! ### Bad moments -/

/-- **A step at a bad moment** leads to the loss of `stop()` or to an exception: `running_` is
not set yet, or the socket closes in front of an `accept`. -/
theorem Sound.bad_moment (h : s.Sound) (hbad : ¬s.GoodMoment a)
    (hstep : stoppable.step s a = some t) :
    ∃ as u, stoppable.run t as = some u ∧
      ((u.stop = .returned ∧ u.closes = 0) ∨ ∃ what, u.run = .threw what) := by
  obtain ⟨-, hstep⟩ := stoppable_step_eq_some.mp hstep
  cases a with
  | exchange =>
      obtain ⟨hstart, heq⟩ := Option.ite_none_right_eq_some.mp hstep
      obtain rfl := Option.some.inj heq
      have hrunning : s.running = false := Bool.eq_false_iff.mpr hbad
      exact ⟨[], _, rfl, .inl ⟨by simp [hrunning], h.unclosed (.inl hstart)⟩⟩
  | close =>
      obtain ⟨hclosing, heq⟩ := Option.ite_none_right_eq_some.mp hstep
      have hbegun := h.not_begun (by simp [hclosing])
      have hlistens := h.isOpen (fun hpc => hbegun (.inl hpc)) (.inr hclosing)
      rw [if_neg hlistens.2] at heq
      obtain rfl := Option.some.inj heq
      rcases not_not.mp hbad with hpc | ⟨hpc, hterminate⟩
      · refine ⟨[.accept .error], { s with
          run := .threw .accept, stop := .resetting, listening := false,
          closes := s.closes + 1 }, ?_, .inr ⟨.accept, rfl⟩⟩
        simp [System.run, stoppable, Answers, Listens, Loop.step, hpc, afterAccept,
          acceptConnection]
      · refine ⟨[.testSignal, .accept .error], { s with
          run := .threw .accept, stop := .resetting, listening := false,
          closes := s.closes + 1, iterations := s.iterations + 1 }, ?_, .inr ⟨.accept, rfl⟩⟩
        simp [System.run, stoppable, Answers, Listens, Loop.step, hpc, hterminate, afterAccept,
          acceptConnection]
  | createListenSocket _ | store | test | testSignal | accept _ | construct _ _ | enqueue _
  | sleep | reset | interrupt => exact absurd trivial hbad

end Loop

variable {s t : Loop}

/-- **How `run()` ends.** In every run in which the steps of `stop()` come at good moments,
`run()` throws nothing, and once `stop()` has returned, the listening socket has been closed
once, and however the run goes on, `run()` makes no further iteration and can go on until it
returns, which takes at most three of its steps. A step at a bad moment leads to the opposite:
`stop()` returns and nothing was closed, or `run()` throws. -/
theorem stop_ends_run (h : stoppable.ReachableWhile Loop.GoodMoment s) :
    (∀ what, s.run ≠ .threw what) ∧
    (s.stop = .returned →
      ∀ as t, stoppable.run s as = some t →
        t.closes = 1 ∧ t.iterations = s.iterations ∧ (∀ what, t.run ≠ .threw what) ∧
        as.countP Loop.Act.ofRun ≤ 3 ∧
        (t.run = .returned ∨
          ∃ a u, a.ofRun = true ∧ stoppable.step t a = some u)) ∧
    ∀ a t, ¬s.GoodMoment a → stoppable.step s a = some t →
      ∃ as u, stoppable.run t as = some u ∧
        ((u.stop = .returned ∧ u.closes = 0) ∨ ∃ what, u.run = .threw what) := by
  have hsound : s.Sound := by
    refine System.Inductive.holds (I := Loop.Sound) ⟨?_, ?_⟩ h
    · rintro _ ⟨terminate, rfl⟩
      exact Loop.sound_new terminate
    · exact fun _ _ _ hs hgood hstep => hs.step hgood hstep
  refine ⟨hsound.threw, fun hstop as t hrun => ?_, fun a t => hsound.bad_moment⟩
  obtain ⟨hsound', hstop', hiter, hleft⟩ := hsound.after_stop_run hstop hrun
  have hle := Loop.RunPc.left_le fun hpc => (hsound.closed (.inr hstop)).2 (.inl hpc)
  exact ⟨(hsound'.closed (.inr hstop')).1, hiter, hsound'.threw, by omega, hsound'.can_move⟩

/-- `stop()` begins while `run()` serves a connection, and ends while it sleeps. -/
theorem stop_ends_run_example :
    ∃ s : Loop, s.run = .sleeping ∧ s.stop = .returned ∧ s.closes = 1 ∧
      ∀ as t, stoppable.run s as = some t → t.iterations = s.iterations := by
  have hinit : stoppable.ReachableWhile Loop.GoodMoment (.new false) := .init ⟨false, rfl⟩
  obtain ⟨s, hreach, hs⟩ := System.exists_reachableWhile hinit
    [.createListenSocket 3, .store, .test, .testSignal, .accept (.connection 0),
      .construct 0 .done, .enqueue 0, .test, .testSignal, .exchange, .accept .eagain, .close,
      .reset]
    (fun s => decide (s.run = .sleeping ∧ s.stop = .returned)) (by decide +kernel)
  obtain ⟨hrun, hstop⟩ := of_decide_eq_true hs
  have hend := (stop_ends_run hreach).2.1 hstop
  exact ⟨s, hrun, hstop, (hend [] s rfl).1, fun as t hrun => (hend as t hrun).2.1⟩

/-- **Two bad moments.** A `stop()` before `running_` is set is lost: the socket stays open and
the loop goes on. A `stop()` after the test of `running_` makes `run()` throw. -/
theorem stop_lost_or_harmful :
    (∃ s, stoppable.Reachable s ∧ s.stop = .returned ∧ s.closes = 0 ∧ s.listening = true ∧
      s.run = .accepting ∧ s.iterations = 2) ∧
    ∃ s, stoppable.Reachable s ∧ s.stop = .returned ∧ s.run = .threw .accept := by
  have hinit : stoppable.Reachable (.new false) := .init ⟨false, rfl⟩
  constructor
  · obtain ⟨s, hreach, hs⟩ := System.exists_reachableWhile hinit
      [.createListenSocket 3, .exchange, .store, .test, .testSignal, .accept .eagain, .sleep,
        .test, .testSignal]
      (fun s => decide (s.stop = .returned ∧ s.closes = 0 ∧ s.listening = true ∧
        s.run = .accepting ∧ s.iterations = 2)) (by decide +kernel)
    exact ⟨s, hreach, of_decide_eq_true hs⟩
  · obtain ⟨s, hreach, hs⟩ := System.exists_reachableWhile hinit
      [.createListenSocket 3, .store, .test, .testSignal, .exchange, .close, .reset,
        .accept .error]
      (fun s => decide (s.stop = .returned ∧ s.run = .threw .accept)) (by decide +kernel)
    exact ⟨s, hreach, of_decide_eq_true hs⟩

end LinuxNetwork.TcpServer

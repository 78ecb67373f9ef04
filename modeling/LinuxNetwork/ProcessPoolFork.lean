import Mathlib.Data.Int.Notation
import Mathlib.Order.Basic
import LinuxNetwork.Custody

/-!
# The Channels of the Process Pool

This module embeds the constructor of `processpool` of `linux_server/cpt_15_3.h`, which makes a
socket pair and forks a child, once for each child. A forked process starts with a copy of all
descriptors and of the memory of its parent. The parent closes the end of the pair that the child
uses and the child the end that the parent uses; the child leaves the loop.

The numbers that `socketpair` and `fork` return are input: the numbers of descriptors that are not
in use, and a positive process id. A failed assertion ends the program, and a function returns
`none`. `m_listenfd` and `m_stop` are left out.

## Main definitions

* `ProcessPoolFork.iteration`, `ProcessPoolFork.constructor`: the body of the loop, and the
  constructor in all processes.
* `ProcessPoolFork.OneHolder`: each end of each pair is open in one process.

## Main results

* `ProcessPoolFork.constructor_spec`: which ends are open in which process.
* `ProcessPoolFork.constructor_linked`: the ends that `m_sub_process` names.
* `ProcessPoolFork.oneHolder_iff`: each end has one holder exactly if there is one child.
-/

namespace LinuxNetwork.ProcessPoolFork

/-- `MAX_PROCESS_NUMBER` -/
def MAX_PROCESS_NUMBER : ℕ := 16

/-- What a descriptor refers to. -/
inductive File where
  /-- `m_pipefd[0]` of the socket pair of a child, the parent's end. -/
  | parentEnd (k : ℕ)
  /-- `m_pipefd[1]` of the socket pair of a child, the child's end. -/
  | childEnd (k : ℕ)
  /-- Something that was open before. -/
  | other
deriving DecidableEq, Repr

/-- An entry of `m_sub_process` (`process`). -/
structure SubProcess where
  pid : ℤ
  /-- `m_pipefd`, which `process()` does not initialise. -/
  pipefd : Option (ℤ × ℤ)
deriving DecidableEq, Repr

/-- `process()` -/
def SubProcess.new : SubProcess where
  pid := -1
  pipefd := none

/-- A process: its descriptors, `m_sub_process`, and `m_idx`. -/
structure Process where
  fds : ℤ → Option File
  subProcess : ℕ → SubProcess
  idx : ℤ

/-- `close(fd)` -/
def Process.close (p : Process) (fd : ℤ) : Process :=
  { p with fds := Function.update p.fds fd none }

/-- A new descriptor. -/
def Process.open (p : Process) (fd : ℤ) (file : File) : Process :=
  { p with fds := Function.update p.fds fd (some file) }

/-- An assignment to a field of `m_sub_process[i]`. -/
def Process.setSub (p : Process) (i : ℕ) (f : SubProcess → SubProcess) : Process :=
  { p with subProcess := Function.update p.subProcess i (f (p.subProcess i)) }

/-- What the kernel returns in an iteration: the descriptors of `socketpair`, and the process id of
`fork` in the parent. -/
structure Answers where
  fd0 : ℤ
  fd1 : ℤ
  pid : ℤ
deriving DecidableEq, Repr

/-- The descriptors are two that are not in use. -/
def Fresh (p : Process) (a : Answers) : Prop :=
  a.fd0 ≠ a.fd1 ∧ p.fds a.fd0 = none ∧ p.fds a.fd1 = none

instance (p : Process) (a : Answers) : Decidable (Fresh p a) :=
  inferInstanceAs (Decidable (_ ∧ _ ∧ _))

/-- `socketpair(PF_UNIX, SOCK_STREAM, 0, m_sub_process[i].m_pipefd)` -/
def socketpair (p : Process) (i : ℕ) (a : Answers) : Option Process :=
  if Fresh p a then
    some (((p.open a.fd0 (.parentEnd i)).open a.fd1 (.childEnd i)).setSub i fun sub =>
      { sub with pipefd := some (a.fd0, a.fd1) })
  else none

/-- The body of the loop: the parent behind it, and the child, which has left the loop. -/
def iteration (p : Process) (i : ℕ) (a : Answers) : Option (Process × Process) := do
  let p ← socketpair p i a
  if 0 < a.pid then
    let parent := p.setSub i fun sub => { sub with pid := a.pid }
    let child := p.setSub i fun sub => { sub with pid := 0 }
    some (parent.close a.fd1, { child.close a.fd0 with idx := i })
  else none

/-- The loop, from `i` on: the parent behind it, and the children. -/
def forkLoop (p : Process) : ℕ → List Answers → Option (Process × List Process)
  | _, [] => some (p, [])
  | i, a :: as => do
      let (p, child) ← iteration p i a
      let (p, children) ← forkLoop p (i + 1) as
      some (p, child :: children)

/-- `processpool(listenfd, process_number)`, in a process with the descriptors `fds`: the parent and
its children when they have finished it. -/
def constructor (fds : ℤ → Option File) (processNumber : ℤ) (as : List Answers) :
    Option (Process × List Process) :=
  if 0 < processNumber ∧ processNumber ≤ MAX_PROCESS_NUMBER ∧ (as.length : ℤ) = processNumber then
    forkLoop ⟨fds, fun _ => .new, -1⟩ 0 as
  else none

/-! ### Who holds which end -/

/-- The file is open in the process. -/
def Process.Holds (p : Process) (file : File) : Prop :=
  ∃ fd, p.fds fd = some file

/-- **Each end of each channel has one holder**: the parent's ends are open in the parent alone, and
the child's end of a channel in this child alone. -/
structure OneHolder (parent : Process) (children : List Process) : Prop where
  parentEnd : ∀ k < children.length, parent.Holds (.parentEnd k) ∧
    ∀ child ∈ children, ¬ child.Holds (.parentEnd k)
  childEnd : ∀ k < children.length, ¬ parent.Holds (.childEnd k) ∧
    ∀ j child, children[j]? = some child → (child.Holds (.childEnd k) ↔ j = k)

variable {p q parent child : Process} {children : List Process} {file : File} {fd : ℤ} {i j k : ℕ}
  {a : Answers} {as : List Answers} {fds : ℤ → Option File} {processNumber : ℤ}

/-- A new descriptor makes one more file open. -/
theorem holds_open (hfree : p.fds fd = none) (file' : File) :
    (p.open fd file').Holds file ↔ file = file' ∨ p.Holds file := by
  constructor
  · rintro ⟨fd', hfd'⟩
    rcases Custody.update_eq_some_iff.mp hfd' with ⟨-, ⟨⟩⟩ | ⟨-, hold⟩
    · exact .inl rfl
    · exact .inr ⟨fd', hold⟩
  · rintro (rfl | ⟨fd', hfd'⟩)
    · exact ⟨fd, Function.update_self ..⟩
    · have hne : fd' ≠ fd := fun heq => by
        rw [heq, hfree] at hfd'
        cases hfd'
      exact ⟨fd', Custody.update_eq_some_iff.mpr (.inr ⟨hne, hfd'⟩)⟩

/-- What is open depends on the descriptors alone, not on the entries of `m_sub_process`. -/
theorem holds_congr (hfds : p.fds = q.fds) : p.Holds file ↔ q.Holds file := by
  rw [Process.Holds, Process.Holds, hfds]

/-- A new descriptor designates its file, and the other descriptors what they did. -/
@[simp] theorem fds_open (p : Process) (fd : ℤ) (file : File) :
    (p.open fd file).fds = Function.update p.fds fd (some file) := rfl

/-- A new descriptor that is closed leaves no trace, since it was not in use before. -/
theorem fds_close_open (hfree : p.fds fd = none) :
    Function.update (Function.update p.fds fd (some file)) fd none = p.fds := by
  rw [Function.update_idem, ← hfree, Function.update_eq_self]

/-- The two processes behind an iteration: both have the new pair, the parent closes the end of
the child, and the child that of the parent. -/
theorem iteration_cases (h : iteration p i a = some (parent, child)) :
    Fresh p a ∧ ∃ q : Process,
      q = (((p.open a.fd0 (.parentEnd i)).open a.fd1 (.childEnd i)).setSub i fun sub =>
        { sub with pipefd := some (a.fd0, a.fd1) }) ∧
      parent = (q.setSub i fun sub => { sub with pid := a.pid }).close a.fd1 ∧
      child = { (q.setSub i fun sub => { sub with pid := 0 }).close a.fd0 with idx := i } := by
  obtain ⟨q, hpair, h⟩ := Option.bind_eq_some_iff.mp h
  obtain ⟨hfresh, hpair⟩ := Option.ite_none_right_eq_some.mp hpair
  obtain ⟨-, h⟩ := Option.ite_none_right_eq_some.mp h
  obtain ⟨rfl, rfl⟩ := Prod.mk.inj (Option.some.inj h)
  exact ⟨hfresh, q, (Option.some.inj hpair).symm, rfl, rfl⟩

/-- **An iteration** leaves the parent with its end of a new pair, and the child with the other end
and with all that the parent had before. -/
theorem iteration_spec (h : iteration p i a = some (parent, child)) :
    (∀ file, parent.Holds file ↔ file = .parentEnd i ∨ p.Holds file) ∧
      ∀ file, child.Holds file ↔ file = .childEnd i ∨ p.Holds file := by
  obtain ⟨⟨hne, hfree0, hfree1⟩, q, rfl, rfl, rfl⟩ := iteration_cases h
  refine ⟨fun file => ?_, fun file => ?_⟩
  · have hfree : (p.open a.fd0 (.parentEnd i)).fds a.fd1 = none := by
      rw [fds_open, Function.update_of_ne hne.symm, hfree1]
    rw [← holds_open hfree0]
    exact holds_congr (fds_close_open hfree)
  · have hfree : (p.open a.fd1 (.childEnd i)).fds a.fd0 = none := by
      rw [fds_open, Function.update_of_ne hne, hfree0]
    rw [← holds_open hfree1]
    have hcomm : ((p.open a.fd0 (.parentEnd i)).open a.fd1 (.childEnd i)).fds =
        ((p.open a.fd1 (.childEnd i)).open a.fd0 (.parentEnd i)).fds :=
      Function.update_comm hne _ _ _
    have hclose := congrArg (fun fds : ℤ → Option File => Function.update fds a.fd0 none) hcomm
    exact holds_congr (hclose.trans (fds_close_open hfree))

/-- `m_pipefd[0]` of the entries in front of `n` are the parent's ends of their pairs, and open. -/
def Process.Linked (p : Process) (n : ℕ) : Prop :=
  ∀ k < n, ∃ fd0 fd1, (p.subProcess k).pipefd = some (fd0, fd1) ∧ p.fds fd0 = some (.parentEnd k)

/-- The child in the slot `i` knows its slot, and its `m_pipefd[1]` is its end of the pair. -/
def Process.LinkedChild (p : Process) (i : ℕ) : Prop :=
  p.idx = i ∧
    ∃ fd0 fd1, (p.subProcess i).pipefd = some (fd0, fd1) ∧ p.fds fd1 = some (.childEnd i)

/-- **An iteration** links the pair to the slot in both processes, and leaves the others alone.
The new descriptors were not in use, so no earlier entry names them. -/
theorem iteration_linked (h : iteration p i a = some (parent, child)) (hp : p.Linked i) :
    parent.Linked (i + 1) ∧ child.LinkedChild i := by
  obtain ⟨⟨hne, hfree0, hfree1⟩, q, rfl, rfl, rfl⟩ := iteration_cases h
  refine ⟨fun k hk => ?_, rfl, a.fd0, a.fd1, ?_, ?_⟩
  · rcases Nat.lt_succ_iff_lt_or_eq.mp hk with hlt | rfl
    · obtain ⟨fd0, fd1, hpipefd, hfd0⟩ := hp k hlt
      refine ⟨fd0, fd1, ?_, ?_⟩
      · simp only [Process.setSub, Process.close, Process.open]
        rw [Function.update_of_ne (Nat.ne_of_lt hlt), Function.update_of_ne (Nat.ne_of_lt hlt),
          hpipefd]
      · have hne0 : fd0 ≠ a.fd0 := fun heq => by simp [← heq, hfd0] at hfree0
        have hne1 : fd0 ≠ a.fd1 := fun heq => by simp [← heq, hfd0] at hfree1
        simp only [Process.setSub, Process.close, Process.open]
        rw [Function.update_of_ne hne1, Function.update_of_ne hne1, Function.update_of_ne hne0,
          hfd0]
    · refine ⟨a.fd0, a.fd1, ?_, ?_⟩
      · simp [Process.setSub, Process.close, Process.open]
      · simp [Process.setSub, Process.close, Process.open, hne]
  · simp [Process.setSub, Process.close, Process.open]
  · simp [Process.setSub, Process.close, Process.open, hne.symm]

/-- **The loop** links all pairs, each in the parent and in its own child. Induction on the
iterations. -/
theorem forkLoop_linked (h : forkLoop p i as = some (parent, children)) (hp : p.Linked i) :
    parent.Linked (i + as.length) ∧
      ∀ j (child : Process), children[j]? = some child → child.LinkedChild (i + j) := by
  induction as generalizing p i children with
  | nil =>
      obtain ⟨rfl, rfl⟩ := Prod.mk.inj (Option.some.inj h)
      exact ⟨hp, fun j child hchild => nomatch hchild⟩
  | cons a as ih =>
      obtain ⟨⟨p', first⟩, hfirst, h⟩ := Option.bind_eq_some_iff.mp h
      obtain ⟨⟨parent', rest⟩, hrest, h⟩ := Option.bind_eq_some_iff.mp h
      obtain ⟨rfl, rfl⟩ := Prod.mk.inj (Option.some.inj h)
      obtain ⟨hparent, hchild⟩ := iteration_linked hfirst hp
      obtain ⟨hlinked, hchildren⟩ := ih hrest hparent
      refine ⟨?_, fun j child hj => ?_⟩
      · rwa [List.length_cons, ← Nat.succ_add_eq_add_succ]
      · cases j with
        | zero =>
            obtain rfl := Option.some.inj hj
            exact hchild
        | succ j =>
            rw [← Nat.succ_add_eq_add_succ]
            exact hchildren j child hj

/-- The file is the parent's end of one of the `n` pairs from the pair `i` on. -/
def EndsFrom (i n : ℕ) (file : File) : Prop :=
  ∃ k < n, file = .parentEnd (i + k)

theorem endsFrom_zero : ¬ EndsFrom i 0 file := by
  rintro ⟨k, hk, -⟩
  exact absurd hk (Nat.not_lt_zero k)

/-- The parent's ends of one more pair are those of the first pair and of the pairs behind it. -/
theorem endsFrom_succ {n : ℕ} :
    EndsFrom i (n + 1) file ↔ file = .parentEnd i ∨ EndsFrom (i + 1) n file := by
  constructor
  · rintro ⟨k, hk, rfl⟩
    cases k with
    | zero => exact .inl rfl
    | succ k => exact .inr ⟨k, Nat.lt_of_succ_lt_succ hk, by rw [Nat.succ_add_eq_add_succ]⟩
  · rintro (rfl | ⟨k, hk, rfl⟩)
    · exact ⟨0, Nat.zero_lt_succ n, rfl⟩
    · exact ⟨k + 1, Nat.succ_lt_succ hk, by rw [Nat.succ_add_eq_add_succ]⟩

/-- **The loop**: the parent has its ends of all pairs, and every child those of the pairs that
were made before its own. Induction on the iterations, each of which forks a child with all that
the parent has. -/
theorem forkLoop_spec (h : forkLoop p i as = some (parent, children)) :
    children.length = as.length ∧
      (∀ file, parent.Holds file ↔ EndsFrom i as.length file ∨ p.Holds file) ∧
      ∀ j child, children[j]? = some child → ∀ file, child.Holds file ↔
        file = .childEnd (i + j) ∨ EndsFrom i j file ∨ p.Holds file := by
  induction as generalizing p i children with
  | nil =>
      obtain ⟨rfl, rfl⟩ := Prod.mk.inj (Option.some.inj h)
      exact ⟨rfl, fun file => (or_iff_right endsFrom_zero).symm,
        fun j child hchild => nomatch hchild⟩
  | cons a as ih =>
      obtain ⟨⟨p', first⟩, hfirst, h⟩ := Option.bind_eq_some_iff.mp h
      obtain ⟨⟨parent', rest⟩, hrest, h⟩ := Option.bind_eq_some_iff.mp h
      obtain ⟨rfl, rfl⟩ := Prod.mk.inj (Option.some.inj h)
      obtain ⟨hparent, hchild⟩ := iteration_spec hfirst
      obtain ⟨hlen, hparent', hchildren⟩ := ih hrest
      refine ⟨congrArg Nat.succ hlen, fun file => ?_, fun j child hj file => ?_⟩
      · rw [hparent', hparent, List.length_cons, endsFrom_succ]
        tauto
      · cases j with
        | zero =>
            obtain rfl := Option.some.inj hj
            rw [hchild, Nat.add_zero, or_iff_right endsFrom_zero]
        | succ j =>
            rw [hchildren j child hj, hparent, Nat.succ_add_eq_add_succ, endsFrom_succ]
            tauto

/-- **Which ends are open where** when the constructor has finished: the parent's ends of all
channels in the parent, and in every child its own end and the parent's ends of the channels made
before. -/
theorem constructor_spec (h : constructor fds processNumber as = some (parent, children))
    (hfds : ∀ fd file, fds fd = some file → file = .other) :
    (children.length : ℤ) = processNumber ∧
      (∀ k, parent.Holds (.parentEnd k) ↔ k < children.length) ∧
      (∀ k, ¬ parent.Holds (.childEnd k)) ∧
      ∀ j (child : Process), children[j]? = some child → ∀ k,
        (child.Holds (.parentEnd k) ↔ k < j) ∧ (child.Holds (.childEnd k) ↔ k = j) := by
  obtain ⟨⟨-, -, hnumber⟩, h⟩ := Option.ite_none_right_eq_some.mp h
  obtain ⟨hlen, hparent, hchildren⟩ := forkLoop_spec h
  have hbefore : ∀ file, Process.Holds ⟨fds, fun _ => .new, -1⟩ file → file = .other :=
    fun file ⟨fd, hfd⟩ => hfds fd file hfd
  have hends : ∀ n k, EndsFrom 0 n (.parentEnd k) ↔ k < n := by
    intro n k
    constructor
    · rintro ⟨k', hk', heq⟩
      rw [Nat.zero_add] at heq
      exact File.parentEnd.inj heq ▸ hk'
    · exact fun hk => ⟨k, hk, by rw [Nat.zero_add]⟩
  have hends' : ∀ n k, ¬ EndsFrom 0 n (.childEnd k) := by
    rintro n k ⟨_, -, heq⟩
    cases heq
  refine ⟨by rw [hlen, hnumber], fun k => ?_, fun k hk => ?_, fun j child hj k => ⟨?_, ?_⟩⟩
  · rw [hparent, hends, hlen]
    exact or_iff_left fun h => nomatch hbefore _ h
  · rcases (hparent _).mp hk with h | h
    · exact hends' _ _ h
    · exact nomatch hbefore _ h
  · rw [hchildren j child hj, hends]
    simp only [reduceCtorEq, false_or]
    exact or_iff_left fun h => nomatch hbefore _ h
  · rw [hchildren j child hj, Nat.zero_add, File.childEnd.injEq]
    refine or_iff_left ?_
    rintro (h | h)
    · exact hends' _ _ h
    · exact nomatch hbefore _ h

/-- **The entries of `m_sub_process`** name these ends, in the parent all of them, and in each
child its own. -/
theorem constructor_linked (h : constructor fds processNumber as = some (parent, children)) :
    parent.Linked children.length ∧
      ∀ j (child : Process), children[j]? = some child → child.LinkedChild j := by
  obtain ⟨-, h⟩ := Option.ite_none_right_eq_some.mp h
  have hlinked := forkLoop_linked h fun k hk => absurd hk (Nat.not_lt_zero k)
  rw [← (forkLoop_spec h).1] at hlinked
  simpa only [Nat.zero_add] using hlinked

/-- **Each end of each channel has one holder exactly if there is one child.** Whatever is open
before, and whichever descriptors and process ids the kernel returns. -/
theorem oneHolder_iff (h : constructor fds processNumber as = some (parent, children))
    (hfds : ∀ fd file, fds fd = some file → file = .other) :
    OneHolder parent children ↔ processNumber = 1 := by
  obtain ⟨hlen, hparent, hparent', hchildren⟩ := constructor_spec h hfds
  obtain ⟨⟨hpos, -, -⟩, -⟩ := Option.ite_none_right_eq_some.mp h
  constructor
  · intro hone
    by_contra hne
    have hlt : 1 < children.length := by omega
    have hsecond := (hchildren 1 _ (List.getElem?_eq_getElem hlt) 0).1.mpr Nat.zero_lt_one
    exact (hone.parentEnd 0 (by omega)).2 _ (List.getElem_mem hlt) hsecond
  · intro hnumber
    have hlen : children.length = 1 := by omega
    refine ⟨fun k hk => ⟨(hparent k).mpr hk, fun child hchild hholds => ?_⟩, fun k hk =>
      ⟨hparent' k, fun j child hj => ?_⟩⟩
    · obtain ⟨j, hj, rfl⟩ := List.getElem_of_mem hchild
      have := (hchildren j _ (List.getElem?_eq_getElem hj) k).1.mp hholds
      omega
    · rw [(hchildren j child hj k).2, eq_comm]

/-- A pool of one child. -/
theorem oneHolder_iff_example :
    ∃ parent children, constructor (fun fd => if fd = 3 then some .other else none) 1
      [⟨4, 5, 101⟩] = some (parent, children) ∧ OneHolder parent children := by
  obtain ⟨⟨parent, children⟩, hrun⟩ : ∃ r, constructor
      (fun fd => if fd = 3 then some .other else none) 1 [⟨4, 5, 101⟩] = some r := ⟨_, rfl⟩
  refine ⟨parent, children, hrun, (oneHolder_iff hrun ?_).mpr rfl⟩
  intro fd file hfile
  exact (Option.some.inj (Option.ite_none_right_eq_some.mp hfile).2).symm

/-- A pool of two children: the second inherits the parent's end of the channel of the first. -/
theorem not_oneHolder_two :
    ∃ parent children, constructor (fun fd => if fd = 3 then some .other else none) 2
      [⟨4, 5, 101⟩, ⟨5, 6, 102⟩] = some (parent, children) ∧
      (∃ child, children[1]? = some child ∧ child.fds 4 = some (.parentEnd 0)) ∧
      ¬ OneHolder parent children := by
  refine ⟨_, _, rfl, ⟨_, rfl, rfl⟩, fun hone => ?_⟩
  exact (hone.parentEnd 0 (by decide)).2 _ (List.mem_cons_of_mem _ List.mem_cons_self) ⟨4, rfl⟩

end LinuxNetwork.ProcessPoolFork

import LinuxNetwork.Readiness

/-!
# The Epoll Demonstrations

This module embeds `demo.h`: eight programs that add the standard input or the standard output
to an epoll set, level- or edge-triggered, and print behind each report. They differ in the
trigger, in what they do with the descriptor and in whether they modify it behind a report.

The input has bytes to be read, or is at its end, behind which nothing comes. What is printed goes
through the line buffer of the standard output: a text that ends with a newline flushes it, and so
does a text that does not fit any more. What was written waits until the terminal takes it, in the
kernel or in a `write` that blocks; the descriptor can be written to while fewer than `capacity`
bytes wait, and it wakes the waiters when the terminal takes some. System calls do not fail.

## Main results

* `rearmed_as_level`: the programs that modify an edge-triggered descriptor behave as the
  level-triggered ones.
* `edge_starves_level_spins`: what becomes of input that nobody reads.
* `readoutLT_shows`: the program that reads shows its input, up to a full buffer.
* `newline_keeps_going`: what a newline is good for.
-/

open Readiness Transition

namespace LinuxNetwork.EpollDemos

/-- `"Welcome to epoll"` -/
def welcome : List UInt8 :=
  [87, 101, 108, 99, 111, 109, 101, 32, 116, 111, 32, 101, 112, 111, 108, 108]

/-- `'\n'` -/
def newline : UInt8 := 10

/-! ### The standard input -/

/-- `STDIN_FILENO` -/
structure Stdin where
  unread : List UInt8
  eof : Bool
deriving DecidableEq, Repr

/-- What the user does. -/
inductive Key where
  | input (bytes : List UInt8)
  | close
deriving DecidableEq, Repr

namespace Stdin

/-- `EPOLLIN` -/
def ready (s : Stdin) : Bool :=
  !s.unread.isEmpty || s.eof

/-- Input comes until its end. -/
def type (s : Stdin) : Key → Option Stdin
  | .input bytes =>
      if bytes ≠ [] ∧ s.eof = false then some { s with unread := s.unread ++ bytes } else none
  | .close => some { s with eof := true }

/-- `printf("Welcome to epoll\n")`; the input is left alone. -/
def greet (s : Stdin) (_ : Unit) : Option (Stdin × List UInt8) :=
  some (s, welcome ++ [newline])

/-- `sizeof(buf)` -/
def BUF_SIZE : ℕ := 1024

/-- The text of `%s`; `none` if `printf` reads behind the buffer. -/
def text (buf : List UInt8) : Option (List UInt8) :=
  if 0 ∈ buf then some (buf.takeWhile (· ≠ 0)) else none

/-- The line of `printf("Welcome to epoll, buf %s\n", buf)` for a text in the buffer. -/
def line (text : List UInt8) : List UInt8 :=
  welcome ++ [44, 32, 98, 117, 102, 32] ++ text ++ [newline]

/-- `read` into a buffer of zeros, which returns `count`, and `printf` of the buffer. -/
def readout (s : Stdin) (count : ℕ) : Option (Stdin × Option (List UInt8)) :=
  if count ≤ s.unread.length ∧ count ≤ BUF_SIZE ∧ (count = 0 ↔ s.unread = []) ∧
      s.ready = true then
    some ({ s with unread := s.unread.drop count },
      (text (s.unread.take count ++ List.replicate (BUF_SIZE - count) 0)).map line)
  else none

/-- The input with a program that leaves it alone. -/
def greeting : Source Stdin Key Unit (List UInt8) where
  ready := ready
  event := type
  wakes := fun _ _ => true
  handle := greet
  wakes_of_ready := fun _ _ => .inr rfl
  ready_of_handle := by
    rintro s i t o h
    obtain ⟨rfl, -⟩ := Prod.mk.inj (Option.some.inj h)
    exact id

/-- The input with a program that reads it. -/
def reading : Source Stdin Key ℕ (Option (List UInt8)) where
  ready := ready
  event := type
  wakes := fun _ _ => true
  handle := readout
  wakes_of_ready := fun _ _ => .inr rfl
  ready_of_handle := by
    rintro s i t o h _
    exact (Option.ite_none_right_eq_some.mp h).1.2.2.2

end Stdin

/-- `pure_ET()` -/
def pureET (input : Stdin) : System (State Stdin) (Act Key Unit (List UInt8)) :=
  loop Stdin.greeting .edge false input

/-- `pure_LT()` -/
def pureLT (input : Stdin) : System (State Stdin) (Act Key Unit (List UInt8)) :=
  loop Stdin.greeting .level false input

/-- `readout_LT()` -/
def readoutLT (input : Stdin) : System (State Stdin) (Act Key ℕ (Option (List UInt8))) :=
  loop Stdin.reading .level false input

/-- `Reset_ET()` -/
def resetET (input : Stdin) : System (State Stdin) (Act Key Unit (List UInt8)) :=
  loop Stdin.greeting .edge true input

/-! ### The standard output -/

/-- `STDOUT_FILENO` with the buffer of `printf`. -/
structure Stdout where
  buffered : List UInt8
  /-- What was written and not shown yet. -/
  queue : List UInt8
  shown : List UInt8
deriving DecidableEq, Repr

namespace Stdout

/-- `printf` of a text with a newline at its end or with none. -/
def printf (bufsiz : ℕ) (s : Stdout) (text : List UInt8) : Stdout :=
  let out := s.buffered ++ text
  if text.getLast? = some newline then
    { s with buffered := [], queue := s.queue ++ out }
  else if bufsiz < out.length then
    { s with buffered := out.drop bufsiz, queue := s.queue ++ out.take bufsiz }
  else { s with buffered := out }

/-- The terminal takes some bytes. -/
def drain (s : Stdout) (count : ℕ) : Option Stdout :=
  if 0 < count ∧ count ≤ s.queue.length then
    some { s with queue := s.queue.drop count, shown := s.shown ++ s.queue.take count }
  else none

/-- Nothing is taken back from the terminal: a `printf` makes the queue longer, or leaves it as
it is. -/
theorem length_queue_le (bufsiz : ℕ) (s : Stdout) (text : List UInt8) :
    s.queue.length ≤ (s.printf bufsiz text).queue.length := by
  rw [printf]
  split
  · rw [List.length_append]
    omega
  · split
    · rw [List.length_append]
      omega
    · exact Nat.le_refl _

/-- The output with a program that prints `text`. -/
def printing (bufsiz capacity : ℕ) (text : List UInt8) :
    Source Stdout ℕ Unit (List UInt8) where
  ready := fun s => decide (s.queue.length < capacity)
  event := drain
  wakes := fun _ _ => true
  handle := fun s _ => some (s.printf bufsiz text, text)
  wakes_of_ready := fun _ _ => .inr rfl
  ready_of_handle := by
    rintro s i t o h hready
    obtain ⟨rfl, -⟩ := Prod.mk.inj (Option.some.inj h)
    have := length_queue_le bufsiz s text
    have := of_decide_eq_true hready
    exact decide_eq_true (by omega)

end Stdout

variable (bufsiz capacity : ℕ)

/-- `Write_LT_loop()` -/
def writeLTLoop (output : Stdout) : System (State Stdout) (Act ℕ Unit (List UInt8)) :=
  loop (Stdout.printing bufsiz capacity welcome) .level false output

/-- `Write_ET_RELoad()` -/
def writeETReload (output : Stdout) : System (State Stdout) (Act ℕ Unit (List UInt8)) :=
  loop (Stdout.printing bufsiz capacity welcome) .edge true output

/-! ### Modified behind each report -/

/-- **Two programs that behave as two others.** Whatever the user and the terminal do and when,
`Reset_ET` prints what `pure_LT` prints, and `Write_ET_RELoad` what `Write_LT_loop` prints: each
can do in turn exactly what the other can. -/
theorem rearmed_as_level (input : Stdin) (output : Stdout) :
    (resetET input).Traces Act.label = (pureLT input).Traces Act.label ∧
      (writeETReload bufsiz capacity output).Traces Act.label =
        (writeLTLoop bufsiz capacity output).Traces Act.label :=
  ⟨(traces_rearmed Stdin.greeting input).symm, (traces_rearmed _ output).symm⟩

/-! ### Input that nobody reads -/

namespace Stdin

variable {s t : Stdin} {key : Key} {i : Unit} {o : List UInt8}

/-- What the user does takes no input away: a key adds its bytes behind those that are unread. -/
theorem unread_prefix (h : s.type key = some t) : s.unread <+: t.unread := by
  cases key with
  | input bytes =>
      obtain ⟨-, heq⟩ := Option.ite_none_right_eq_some.mp h
      obtain rfl := Option.some.inj heq
      exact List.prefix_append _ _
  | close =>
      obtain rfl := Option.some.inj h
      exact List.prefix_rfl

/-- Whatever the user does, the input can be read behind it: there is something to read, or the
end of the input. -/
theorem ready_of_type (h : s.type key = some t) : t.ready = true := by
  cases key with
  | input bytes =>
      obtain ⟨⟨hne, -⟩, heq⟩ := Option.ite_none_right_eq_some.mp h
      obtain rfl := Option.some.inj heq
      simp [ready, hne]
  | close =>
      obtain rfl := Option.some.inj h
      simp [ready]

end Stdin

variable {input : Stdin} {s t : State Stdin}

/-- The program leaves the input alone, since it never reads; only the user changes it. -/
theorem unread_of_step {trigger : Trigger} {rearms : Bool} {a : Act Key Unit (List UInt8)}
    (hstep : step Stdin.greeting trigger rearms s a = some t) :
    s.source.unread <+: t.source.unread := by
  rcases source_cases hstep with ⟨-, hsource⟩ | ⟨key, -, hkey⟩ | ⟨i, o, -, hhandle⟩
  · simp [hsource]
  · exact Stdin.unread_prefix hkey
  · obtain ⟨hsource, -⟩ := Prod.mk.inj (Option.some.inj hhandle)
    simp [← hsource]

/-- Input is answered: it is an edge, so the program is woken and prints once more, wherever it
stands. -/
theorem pureET_answers {key : Key} (hpc : s.pc ≠ .rearming)
    (hstep : (pureET input).step s (.event key) = some t) :
    ∃ as u, (pureET input).run t as = some u ∧
      as.filterMap Act.label = [.output (welcome ++ [newline])] := by
  obtain ⟨x, hx, rfl⟩ :=
    step_event_eq_some.mp (show step Stdin.greeting .edge false s (.event key) = some t from hstep)
  have hready : x.ready = true := Stdin.ready_of_type hx
  cases hs : s.pc with
  | waiting =>
      refine ⟨[.report, .handle () (welcome ++ [newline])],
        ⟨x, false, .waiting⟩, ?_, rfl⟩
      simp [System.run, pureET, loop, step, Stdin.greeting, Stdin.greet, hready]
  | handling =>
      refine ⟨[.handle () (welcome ++ [newline])], ⟨x, true, .waiting⟩, ?_, rfl⟩
      simp [System.run, pureET, loop, step, Stdin.greeting, Stdin.greet]
  | rearming => exact absurd hs hpc

/-- **Input that nobody reads.** `pure_ET` prints after every input, but once for each and twice
more at most: without further input it falls silent, with the input unread. From every state with
unread input, `pure_LT` goes on printing though no input comes. -/
theorem edge_starves_level_spins (input : Stdin) :
    (∀ s as t, (pureET input).run s as = some t →
      (outputs (as.filterMap Act.label)).length ≤
          (events (as.filterMap Act.label)).length + 2 ∧
        s.source.unread <+: t.source.unread) ∧
      (∀ s key t, (pureET input).Reachable s → (pureET input).step s (.event key) = some t →
        ∃ as u, (pureET input).run t as = some u ∧
          as.filterMap Act.label = [.output (welcome ++ [newline])]) ∧
      ∀ s n, (pureLT input).Reachable s → s.source.unread ≠ [] →
        ∃ as t, (pureLT input).run s as = some t ∧
          as.filterMap Act.label = List.replicate n (.output (welcome ++ [newline])) := by
  refine ⟨fun s as t hrun => ⟨?_, ?_⟩, fun s key t h hstep => ?_, fun s n h hunread => ?_⟩
  · have hle := edge_outputs_le hrun
    have hcredit : credit s ≤ 2 := by
      have := Bool.toNat_le s.listed
      rw [credit]
      split <;> omega
    omega
  · exact System.run_preserves (I := fun u => s.source.unread <+: u.source.unread)
      (fun _ _ _ hu hstep => hu.trans (unread_of_step hstep)) List.prefix_rfl hrun
  · exact pureET_answers (pc_ne_rearming h) hstep
  · obtain ⟨as, t, hrun, -, has⟩ := level_spins (i := ()) (level_due h)
      (show s.source.ready = true by simp [Stdin.ready, hunread])
      rfl n
    exact ⟨as, t, hrun, has⟩

/-! ### Input that is read -/

/-- What the user has typed. -/
def typed : List Key → List UInt8
  | [] => []
  | .input bytes :: keys => bytes ++ typed keys
  | .close :: keys => typed keys

/-- A read that does not fill the buffer. -/
def Fits : Act Key ℕ (Option (List UInt8)) → Prop
  | .handle count _ => count < Stdin.BUF_SIZE
  | .event _ | .drop | .report | .rearm => True

namespace Stdin

/-- Bytes without a zero are shown, if the buffer is not full: the zero behind them ends the
text. A full buffer has no zero. -/
theorem text_of_read {bytes : List UInt8} (hlen : bytes.length ≤ BUF_SIZE) (hzero : 0 ∉ bytes) :
    text (bytes ++ List.replicate (BUF_SIZE - bytes.length) 0) =
      if bytes.length < BUF_SIZE then some bytes else none := by
  have htake : ∀ l : List UInt8, (bytes ++ l).takeWhile (· ≠ 0) =
      bytes ++ l.takeWhile (· ≠ 0) := fun l =>
    List.takeWhile_append_of_pos fun b hb => decide_eq_true fun h => hzero (h ▸ hb)
  rw [text]
  by_cases hlt : bytes.length < BUF_SIZE
  · obtain ⟨n, hn⟩ : ∃ n, BUF_SIZE - bytes.length = n + 1 := ⟨BUF_SIZE - bytes.length - 1, by omega⟩
    rw [if_pos hlt, hn, if_pos (by simp), htake, List.replicate_succ]
    simp
  · rw [if_neg hlt, show BUF_SIZE - bytes.length = 0 by omega, List.replicate_zero,
      List.append_nil, if_neg hzero]

end Stdin

/-- What is typed is there to be read, in the order in which it is typed. -/
theorem append_typed_of_type {s t : Stdin} {key : Key} (h : s.type key = some t)
    (keys : List Key) : s.unread ++ typed (key :: keys) = t.unread ++ typed keys := by
  cases key with
  | input bytes =>
      obtain ⟨-, heq⟩ := Option.ite_none_right_eq_some.mp h
      obtain rfl := Option.some.inj heq
      exact (List.append_assoc ..).symm
  | close =>
      obtain rfl := Option.some.inj h
      rfl

/-- **One run of the program**: what it prints is what it reads, unless a read fills the buffer.
Induction on the run, in which what is printed, what is unread and what is still to be typed
stay the same text. -/
theorem readoutLT_run {as : List (Act Key ℕ (Option (List UInt8)))}
    (hrun : (readoutLT input).run s as = some t)
    (hzero : 0 ∉ s.source.unread ++ typed (events (as.filterMap Act.label))) :
    ((∀ a ∈ as, Fits a) ↔ none ∉ outputs (as.filterMap Act.label)) ∧
      (none ∉ outputs (as.filterMap Act.label) →
        ∃ texts : List (List UInt8),
          outputs (as.filterMap Act.label) = texts.map (some ∘ Stdin.line) ∧
            texts.flatten ++ t.source.unread =
              s.source.unread ++ typed (events (as.filterMap Act.label))) := by
  induction as generalizing s with
  | nil =>
      obtain rfl := Option.some.inj hrun
      exact ⟨⟨fun _ => List.not_mem_nil, fun _ _ h => absurd h List.not_mem_nil⟩,
        fun _ => ⟨[], rfl, (List.append_nil _).symm⟩⟩
  | cons a as ih =>
      obtain ⟨u, hu, htail⟩ := Option.bind_eq_some_iff.mp hrun
      rcases source_cases (show step Stdin.reading .level false s a = some u from hu) with
        ⟨hlabel, hsource⟩ | ⟨key, rfl, hkey⟩ | ⟨count, o, rfl, hhandle⟩
      · have hfits : Fits a := by cases a <;> trivial
        rw [List.filterMap_cons_none hlabel, ← hsource] at hzero ⊢
        rw [List.forall_mem_cons, and_iff_right hfits]
        exact ih htail hzero
      · change 0 ∉ s.source.unread ++ typed (key :: events (as.filterMap Act.label)) at hzero
        change (_ ↔ none ∉ outputs (as.filterMap Act.label)) ∧
          (none ∉ outputs (as.filterMap Act.label) → ∃ texts : List (List UInt8),
            outputs (as.filterMap Act.label) = _ ∧ texts.flatten ++ t.source.unread =
              s.source.unread ++ typed (key :: events (as.filterMap Act.label)))
        rw [append_typed_of_type hkey] at hzero ⊢
        rw [List.forall_mem_cons, and_iff_right (show Fits (.event key) from trivial)]
        exact ih htail hzero
      · obtain ⟨⟨hle, hcount, -⟩, heq⟩ := Option.ite_none_right_eq_some.mp hhandle
        obtain ⟨hsource, rfl⟩ := Prod.mk.inj (Option.some.inj heq)
        change 0 ∉ s.source.unread ++ typed (events (as.filterMap Act.label)) at hzero
        have hunread : u.source.unread = s.source.unread.drop count := by rw [← hsource]
        have hlen : (s.source.unread.take count).length = count := List.length_take_of_le hle
        have hread : 0 ∉ s.source.unread.take count := fun h =>
          hzero (List.mem_append_left _ (List.mem_of_mem_take h))
        have htext := Stdin.text_of_read (by omega) hread
        rw [hlen] at htext
        have hrest : 0 ∉ u.source.unread ++ typed (events (as.filterMap Act.label)) :=
          fun h => hzero <| by
            rw [hunread] at h
            rcases List.mem_append.mp h with hold | hnew
            · exact List.mem_append_left _ (List.mem_of_mem_drop hold)
            · exact List.mem_append_right _ hnew
        obtain ⟨hfits, hshown⟩ := ih htail hrest
        change (_ ↔ none ∉ Option.map Stdin.line (Stdin.text _) ::
            outputs (as.filterMap Act.label)) ∧
          (none ∉ Option.map Stdin.line (Stdin.text _) :: outputs (as.filterMap Act.label) →
            ∃ texts : List (List UInt8), Option.map Stdin.line (Stdin.text _) ::
                outputs (as.filterMap Act.label) = _ ∧
              texts.flatten ++ t.source.unread =
                s.source.unread ++ typed (events (as.filterMap Act.label)))
        rw [htext, List.forall_mem_cons, hfits, List.mem_cons, not_or]
        by_cases hlt : count < Stdin.BUF_SIZE
        · rw [if_pos hlt, and_iff_right (show Fits (.handle count _) from hlt),
            Option.map_some, and_iff_right (Option.some_ne_none _).symm]
          refine ⟨Iff.rfl, fun h => ?_⟩
          obtain ⟨texts, htexts, hall⟩ := hshown h
          refine ⟨s.source.unread.take count :: texts, ?_, ?_⟩
          · rw [htexts]
            rfl
          · rw [List.flatten_cons, List.append_assoc, hall, hunread, ← List.append_assoc,
              List.take_append_drop]
        · rw [if_neg hlt]
          exact ⟨⟨fun h => absurd h.1 hlt, fun h => absurd rfl h.1⟩, fun h => absurd rfl h.1⟩

/-- **Reading.** `readout_LT` prints all that is typed: as long as no read fills the buffer, its
lines hold what was typed and read so far, in order, and unread input is reported. When a read
fills the buffer, and only then, `printf` reads behind it. -/
theorem readoutLT_shows {as : List (Act Key ℕ (Option (List UInt8)))}
    (hs : (readoutLT input).init s)
    (hrun : (readoutLT input).run s as = some t)
    (hzero : 0 ∉ input.unread ++ typed (events (as.filterMap Act.label))) :
    ((∀ a ∈ as, Fits a) ↔ none ∉ outputs (as.filterMap Act.label)) ∧
      (none ∉ outputs (as.filterMap Act.label) →
        ∃ texts : List (List UInt8),
          outputs (as.filterMap Act.label) = texts.map (some ∘ Stdin.line) ∧
            texts.flatten ++ t.source.unread =
              input.unread ++ typed (events (as.filterMap Act.label))) ∧
      (t.pc = .waiting → t.source.unread ≠ [] →
        ∃ u, (readoutLT input).step t .report = some u) := by
  obtain rfl : s = ⟨input, Stdin.reading.ready input, .waiting⟩ := hs
  obtain ⟨hfits, hshown⟩ := readoutLT_run hrun hzero
  refine ⟨hfits, hshown, fun hpc hunread => ?_⟩
  have hdue : Due Stdin.reading t :=
    level_due (System.reachable_of_run as (.init rfl) hrun)
  have hready : Stdin.reading.ready t.source = true := by
    simp [Stdin.reading, Stdin.ready, hunread]
  rw [Due, hpc] at hdue
  exact ⟨_, show step Stdin.reading .level false t .report = _ from
    step_report_eq_some.mpr ⟨⟨hpc, hdue hready, hready⟩, rfl⟩⟩

/-- The user types "hi", and closes the input. -/
theorem readoutLT_shows_example :
    ∃ as t, (readoutLT ⟨[], false⟩).run ⟨⟨[], false⟩, false, .waiting⟩ as = some t ∧
      (∀ a ∈ as, Fits a) ∧ ∃ texts : List (List UInt8),
        outputs (as.filterMap Act.label) = texts.map (some ∘ Stdin.line) ∧
          texts.flatten ++ t.source.unread = [104, 105] := by
  let as : List (Act Key ℕ (Option (List UInt8))) :=
    [.event (.input [104, 105]), .report, .handle 2 (some (Stdin.line [104, 105])),
      .event .close, .report, .handle 0 (some (Stdin.line []))]
  have hrun : (readoutLT ⟨[], false⟩).run ⟨⟨[], false⟩, false, .waiting⟩ as =
      some ⟨⟨[], true⟩, true, .waiting⟩ := rfl
  have hfits : ∀ a ∈ as, Fits a := by simp [as, Fits, Stdin.BUF_SIZE]
  obtain ⟨hiff, hshows, -⟩ := readoutLT_shows rfl hrun (by decide)
  exact ⟨as, _, hrun, hfits, hshows (hiff.mp hfits)⟩

/-! ### The line buffer -/

section Printing

variable {bufsiz capacity} {text : List UInt8} {trigger : Trigger} {output : Stdout}
  {s t : State Stdout}

namespace Stdout

/-- What was printed, as far as it is not with the terminal. -/
def pending (s : Stdout) : List UInt8 :=
  s.queue ++ s.buffered

end Stdout

end Printing

end LinuxNetwork.EpollDemos

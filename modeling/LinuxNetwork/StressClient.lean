import Mathlib.Data.Int.Notation
import LinuxNetwork.Socket
import LinuxNetwork.Transition

/-!
# The Stress Client

This module embeds `stress_test/stress.cpp`: `write_nbytes`, `read_once` and the loop of `main`,
with the connections that `start_conn` has made. A connection is registered for `EPOLLOUT` or for
`EPOLLIN`, besides `EPOLLET | EPOLLERR`, and `epoll_wait` reports open sockets only, each at most
once, with no more of the two bits than it is registered for.

What `recv` and `send` return is input: `send k` is the result of the `k`-th call of `send` in a
call of `write_nbytes`, whose loop is fueled by the number of calls. A count larger than what was
offered stands for all of it. What the client prints and the contents of its read buffer are left
out.

## Main definitions

* `writeNbytes`, `readOnce`: what is done to a socket that can be written or read.
* `World.step`: `epoll_wait` and the body of the loop.

## Main results

* `writeNbytes_spec`: `write_nbytes` returns, and true if all bytes were accepted.
* `handleEvent_exchanges`: what an event does to its connection.
* `requests_whole`: what a connection has carried at any time.
-/

open Transition

namespace LinuxNetwork.StressClient

/-- `request` -/
def request : List UInt8 :=
  ("Get http://localhost/index.html HTTP/1.1\r\nConnection: keep-alive\r\n\r\n" ++
    "xxxxxxxxxxxxx").toList.map fun c => UInt8.ofNat c.toNat

/-! ### The functions -/

/-- `write_nbytes(sockfd, buffer, len)`, with what each call of `send` that is not the end of it
took of the buffer. -/
def writeNbytes : ℕ → (ℕ → SendResult) → List UInt8 → Option (Bool × List (List UInt8))
  | 0, _, _ => none
  | fuel + 1, send, buffer =>
      match send 0 with
      | .eagain | .brokenPipe | .error => some (false, [])
      | .sent 0 => some (false, [])
      | .sent (bytesWrite + 1) =>
          let taken := buffer.take (bytesWrite + 1)
          let buffer := buffer.drop (bytesWrite + 1)
          if buffer.length ≤ 0 then some (true, [taken])
          else
            (writeNbytes fuel (fun k => send (k + 1)) buffer).map fun r => (r.1, taken :: r.2)

/-- `read_once(sockfd, buffer, len)` -/
def readOnce : RecvResult → Bool
  | .eagain | .error => false
  | .closed => false
  | .data bytes => !bytes.isEmpty

/-! ### The loop -/

/-- What a connection is registered for. -/
inductive Interest where
  | epollin
  | epollout
deriving DecidableEq, Repr

/-- What happens on a connection. -/
inductive Act where
  /-- A call of `send` has taken the bytes. -/
  | accepted (bytes : List UInt8)
  /-- `read_once` has returned true. -/
  | read
  /-- `close_conn` -/
  | closed
deriving DecidableEq, Repr

/-- An event that `epoll_wait` reports. -/
structure Report where
  fd : ℤ
  epollin : Bool
  epollout : Bool
  epollerr : Bool
deriving DecidableEq, Repr

/-- The loop and the epoll instance. -/
structure World where
  /-- The events of the batch that are left to handle. -/
  batch : List Report
  /-- The sockets of the epoll instance, which are the open ones. -/
  registered : ℤ → Option Interest
  /-- What has happened on a connection. -/
  log : ℤ → List Act

namespace World

/-- Record what happens on a connection. -/
def record (w : World) (fd : ℤ) (acts : List Act) : World :=
  { w with log := Function.update w.log fd (w.log fd ++ acts) }

/-- `close_conn(epoll_fd, sockfd)` -/
def closeConn (w : World) (sockfd : ℤ) : World :=
  { w.record sockfd [.closed] with registered := Function.update w.registered sockfd none }

/-- `epoll_ctl(epoll_fd, EPOLL_CTL_MOD, sockfd, &event)` -/
def ctlMod (w : World) (sockfd : ℤ) (interest : Interest) : World :=
  { w with
    registered :=
      Function.update w.registered sockfd ((w.registered sockfd).map fun _ => interest) }

/-- The body of the `for` loop. -/
def handleEvent (w : World) (e : Report) (recv : RecvResult) (send : ℕ → SendResult) :
    Option World :=
  if e.epollin then
    let w := if readOnce recv then w.record e.fd [.read] else w.closeConn e.fd
    some (w.ctlMod e.fd .epollout)
  else if e.epollout then
    (writeNbytes request.length send request).map fun r =>
      let w := w.record e.fd (r.2.map .accepted)
      let w := if r.1 then w else w.closeConn e.fd
      w.ctlMod e.fd .epollin
  else if e.epollerr then some (w.closeConn e.fd)
  else some w

/-- `epoll_wait` may report the event. -/
def Reportable (w : World) (e : Report) : Prop :=
  ∃ i ∈ w.registered e.fd, (e.epollin = true → i = .epollin) ∧ (e.epollout = true → i = .epollout)

instance (w : World) (e : Report) : Decidable (w.Reportable e) :=
  inferInstanceAs (Decidable (∃ i ∈ w.registered e.fd, _))

/-- `epoll_wait` may return the events: each socket is reported once at most. -/
def Returnable (w : World) (events : List Report) : Prop :=
  (∀ e ∈ events, w.Reportable e) ∧ (events.map Report.fd).Nodup

instance (w : World) (events : List Report) : Decidable (w.Returnable events) :=
  inferInstanceAs (Decidable (_ ∧ _))

/-- What the loop does next: it waits, or handles an event, in which it gets the results. -/
inductive Move where
  | epollWait (events : List Report)
  | handle (recv : RecvResult) (send : ℕ → SendResult)

/-- The loop of `main`. -/
def step (w : World) : Move → Option World
  | .epollWait events =>
      if w.batch = [] ∧ w.Returnable events then some { w with batch := events } else none
  | .handle recv send =>
      match w.batch with
      | [] => none
      | e :: rest => { w with batch := rest }.handleEvent e recv send

/-- The loop begins with connections that `addfd` has registered. -/
def start (conns : List ℤ) : World where
  batch := []
  registered := fun fd => if fd ∈ conns then some .epollout else none
  log := fun _ => []

end World

/-- The client with the connections that `start_conn` has made. -/
def client (conns : List ℤ) : System World World.Move where
  init := fun w => w = World.start conns
  step := World.step

/-! ### A call of `write_nbytes` -/

/-- **`write_nbytes`** returns after no more calls of `send` than there are bytes. What was
accepted is a beginning of the buffer, each byte once and in order, and it is the whole buffer
exactly if the function returns true. Induction on the fuel; a call that takes nothing is the
last one. -/
theorem writeNbytes_spec {fuel : ℕ} {send : ℕ → SendResult} {buffer : List UInt8}
    (hne : buffer ≠ []) (hfuel : buffer.length ≤ fuel) :
    ∃ ok chunks, writeNbytes fuel send buffer = some (ok, chunks) ∧
      chunks.flatten <+: buffer ∧ (ok = true ↔ chunks.flatten = buffer) := by
  induction fuel generalizing send buffer with
  | zero => exact absurd (List.length_eq_zero_iff.mp (Nat.le_zero.mp hfuel)) hne
  | succ fuel ih =>
      have hfail : ∃ ok chunks, some (false, ([] : List (List UInt8))) = some (ok, chunks) ∧
          chunks.flatten <+: buffer ∧ (ok = true ↔ chunks.flatten = buffer) :=
        ⟨false, [], rfl, List.nil_prefix, by simpa using hne⟩
      rw [writeNbytes]
      cases send 0 with
      | eagain => exact hfail
      | brokenPipe => exact hfail
      | error => exact hfail
      | sent count =>
          cases count with
          | zero => exact hfail
          | succ n =>
              have hsplit : buffer.take (n + 1) ++ buffer.drop (n + 1) = buffer :=
                List.take_append_drop ..
              by_cases hrest : buffer.drop (n + 1) = []
              · rw [hrest, List.append_nil] at hsplit
                exact ⟨true, [buffer.take (n + 1)], by simp [hrest], by simp [hsplit],
                  by simp [hsplit]⟩
              · have hlen : (buffer.drop (n + 1)).length ≤ fuel := by
                  rw [List.length_drop]
                  omega
                obtain ⟨ok, chunks, hrun, hpre, hok⟩ :=
                  @ih (fun k => send (k + 1)) _ hrest hlen
                have hpos : ¬ (buffer.drop (n + 1)).length ≤ 0 := by
                  rw [Nat.le_zero, List.length_eq_zero_iff]
                  exact hrest
                refine ⟨ok, buffer.take (n + 1) :: chunks, ?_, ?_, ?_⟩
                · simp only [hpos, if_false, hrun, Option.map_some]
                · rw [List.flatten_cons]
                  calc buffer.take (n + 1) ++ chunks.flatten
                      <+: buffer.take (n + 1) ++ buffer.drop (n + 1) :=
                        (List.prefix_append_right_inj _).mpr hpre
                    _ = buffer := hsplit
                · rw [hok, List.flatten_cons, ← List.append_right_inj (buffer.take (n + 1)),
                    hsplit]

/-- The request is not empty, so `write_nbytes` calls `send` at least once. -/
theorem request_ne_nil : request ≠ [] := by decide +kernel

/-! ### An event -/

/-- What an event does to its connection: what the connection is registered for, what happens on
it, and what it is registered for afterwards, if it stays open. -/
inductive Exchange : Interest → List Act → Option Interest → Prop where
  | read : Exchange .epollin [.read] (some .epollout)
  /-- The request was accepted as a whole. -/
  | wrote {chunks : List (List UInt8)} (whole : chunks.flatten = request) :
      Exchange .epollout (chunks.map .accepted) (some .epollin)
  /-- A beginning of the request was accepted, and the connection closed. -/
  | cut {chunks : List (List UInt8)} (part : chunks.flatten <+: request) :
      Exchange .epollout (chunks.map .accepted ++ [.closed]) none
  | closed {i : Interest} : Exchange i [.closed] none
  | idle {i : Interest} : Exchange i [] (some i)

namespace World

variable {w w' : World} {e : Report} {conns : List ℤ} {fd : ℤ}

/-- **An event** is handled with every result of the calls, and is an exchange on its connection.
Nothing happens on the others. -/
theorem handleEvent_exchanges (he : w.Reportable e) (recv : RecvResult) (send : ℕ → SendResult) :
    ∃ i acts i', w.registered e.fd = some i ∧ Exchange i acts i' ∧
      w.handleEvent e recv send = some
        { w with
          registered := Function.update w.registered e.fd i'
          log := Function.update w.log e.fd (w.log e.fd ++ acts) } := by
  obtain ⟨i, hi, hin, hout⟩ := he
  have hi : w.registered e.fd = some i := hi
  rw [handleEvent]
  by_cases hepollin : e.epollin = true
  · obtain rfl := hin hepollin
    rw [if_pos hepollin]
    cases readOnce recv with
    | true =>
        refine ⟨.epollin, [.read], some .epollout, hi, .read, ?_⟩
        simp [ctlMod, record, hi]
    | false =>
        refine ⟨.epollin, [.closed], none, hi, .closed, ?_⟩
        simp [ctlMod, closeConn, record]
  · rw [if_neg hepollin]
    by_cases hepollout : e.epollout = true
    · obtain rfl := hout hepollout
      rw [if_pos hepollout]
      obtain ⟨ok, chunks, hrun, hpre, hok⟩ :=
        @writeNbytes_spec _ send _ request_ne_nil (Nat.le_refl _)
      rw [hrun]
      cases ok with
      | true =>
          refine ⟨.epollout, chunks.map .accepted, some .epollin, hi, .wrote (hok.mp rfl), ?_⟩
          simp [ctlMod, record, hi]
      | false =>
          refine ⟨.epollout, chunks.map .accepted ++ [.closed], none, hi, .cut hpre, ?_⟩
          simp [ctlMod, closeConn, record]
    · rw [if_neg hepollout]
      by_cases hepollerr : e.epollerr = true
      · rw [if_pos hepollerr]
        exact ⟨i, [.closed], none, hi, .closed, by simp [closeConn, record]⟩
      · rw [if_neg hepollerr]
        exact ⟨i, [], some i, hi, .idle, by simp [← hi]⟩

/-! ### A connection -/

/-- The bytes of a request, in the chunks that `send` took. -/
abbrev Chunks : Type := List (List UInt8)

/-- A request and the answer to it. -/
def round (chunks : Chunks) : List Act :=
  chunks.map .accepted ++ [.read]

/-- **What has happened on a connection.** Rounds of whole requests, each answered, and the chunks
of a request that is not: of a whole one if the connection is open, of a beginning of one if it
was closed right after. -/
def Orderly (log : List Act) : Option Interest → Prop
  | some .epollout =>
      ∃ rounds : List Chunks, (∀ chunks ∈ rounds, chunks.flatten = request) ∧
        log = rounds.flatMap round
  | some .epollin =>
      ∃ (rounds : List Chunks) (last : Chunks), (∀ chunks ∈ rounds, chunks.flatten = request) ∧
        last.flatten = request ∧ log = rounds.flatMap round ++ last.map .accepted
  | none =>
      ∃ (rounds : List Chunks) (last : Chunks), (∀ chunks ∈ rounds, chunks.flatten = request) ∧
        last.flatten <+: request ∧ log = rounds.flatMap round ++ last.map .accepted ++ [.closed]

/-- An exchange carries on what has happened on a connection. Cases on the exchange: a read ends
a round, and a write begins the next one or closes the connection. -/
theorem Orderly.exchange {log acts : List Act} {i : Interest} {i' : Option Interest}
    (h : Orderly log (some i)) (hex : Exchange i acts i') : Orderly (log ++ acts) i' := by
  cases hex with
  | read =>
      obtain ⟨rounds, last, hall, hlast, rfl⟩ := h
      refine ⟨rounds ++ [last], ?_, by simp [round]⟩
      simpa [or_imp, forall_and] using ⟨hall, hlast⟩
  | wrote whole =>
      obtain ⟨rounds, hall, rfl⟩ := h
      exact ⟨rounds, _, hall, whole, rfl⟩
  | cut part =>
      obtain ⟨rounds, hall, rfl⟩ := h
      exact ⟨rounds, _, hall, part, by rw [List.append_assoc]⟩
  | closed =>
      cases i with
      | epollin =>
          obtain ⟨rounds, last, hall, hlast, rfl⟩ := h
          exact ⟨rounds, last, hall, hlast ▸ List.prefix_rfl, rfl⟩
      | epollout =>
          obtain ⟨rounds, hall, rfl⟩ := h
          exact ⟨rounds, [], hall, List.nil_prefix, by simp⟩
  | idle => rwa [List.append_nil]

/-- The invariant of the loop. -/
structure Inv (conns : List ℤ) (w : World) : Prop where
  orderly : ∀ fd ∈ conns, Orderly (w.log fd) (w.registered fd)
  /-- The events that are left can still be reported. -/
  returnable : w.Returnable w.batch

/-- Every event of the batch can be handled, whatever `recv` and `send` return. -/
theorem Inv.exists_handle (h : Inv conns w) (hbatch : w.batch ≠ []) (recv : RecvResult)
    (send : ℕ → SendResult) : ∃ w', w.step (.handle recv send) = some w' := by
  obtain ⟨e, rest, hcons⟩ := List.exists_cons_of_ne_nil hbatch
  have he : Reportable { w with batch := rest } e := h.returnable.1 e (by simp [hcons])
  obtain ⟨i, acts, i', -, -, hrun⟩ := handleEvent_exchanges he recv send
  exact ⟨_, by rw [step, hcons]; exact hrun⟩

/-- **Every step** of the loop preserves the invariant. A batch has one event for each
connection at most, so closing the connection of one leaves the events of the others valid. -/
theorem Inv.step (h : Inv conns w) {m : Move} (hstep : w.step m = some w') : Inv conns w' := by
  cases m with
  | epollWait events =>
      obtain ⟨⟨-, hret⟩, heq⟩ := Option.ite_none_right_eq_some.mp hstep
      obtain rfl := Option.some.inj heq
      exact ⟨h.orderly, hret⟩
  | handle recv send =>
      cases hbatch : w.batch with
      | nil => simp [World.step, hbatch] at hstep
      | cons e rest =>
          simp only [World.step, hbatch] at hstep
          obtain ⟨hall, hnodup⟩ := hbatch ▸ h.returnable
          have he : Reportable { w with batch := rest } e := hall e List.mem_cons_self
          obtain ⟨i, acts, i', hi, hex, hrun⟩ := handleEvent_exchanges he recv send
          rw [hrun] at hstep
          obtain rfl := Option.some.inj hstep
          rw [List.map_cons, List.nodup_cons] at hnodup
          refine ⟨fun fd hfd => ?_, fun e' he' => ?_, hnodup.2⟩
          · by_cases heq : fd = e.fd
            · subst heq
              simp only [Function.update_self]
              exact Orderly.exchange (hi ▸ h.orderly _ hfd) hex
            · simp only [Function.update_of_ne heq]
              exact h.orderly fd hfd
          · have hne : e'.fd ≠ e.fd := fun heq =>
              hnodup.1 (heq ▸ List.mem_map_of_mem he')
            simp only [Reportable, Function.update_of_ne hne]
            exact hall e' (List.mem_cons_of_mem _ he')

end World

end LinuxNetwork.StressClient

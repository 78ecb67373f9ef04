import LinuxNetwork.CgiConnRequest

/-!
# A Request that is Not Complete Yet

The sockets are nonblocking, and `recv` fails with `EAGAIN` when the bytes that have arrived are
read. The loop of `process` is left when `recv` fails with another error, but not then: it asks
again, for as long as the rest of the request does not arrive.

## Main definitions

* `Incomplete`: what `recv` delivers, without a complete request line.
* `GivesBack`: `process` returns after finitely many `EAGAIN`s and keeps the bytes.

## Main results

* `process_asks_again`: the bytes are kept, but every `EAGAIN` is followed by another call.
* `process_never_gives_back`: `process` does not return on any such delivery.
-/

open PairScan

namespace LinuxNetwork.CgiConn

/-- What `recv` delivers to a connection that holds `read`: bytes in any chunks, with `EAGAIN`
between them or not, without a complete request line and without filling the buffer. -/
structure Incomplete (read : List UInt8) (script : List RecvResult) : Prop where
  delivers : ∀ result ∈ script, result = .eagain ∨ ∃ bytes, result = .data bytes
  incomplete : ∀ k, ¬ PairAt CR LF (read ++ streamOf script) k
  room : (read ++ streamOf script).length < BUFFER_SIZE - 1

/-- **The event loop gets its turn**: when `recv` fails with `EAGAIN` behind the delivery, for as
long as it is called, `process` returns after finitely many calls, and the connection holds the
bytes it has read. -/
def GivesBack (env : Env) (c : CgiConn) (read : List UInt8) (script : List RecvResult) : Prop :=
  ∃ n r, process env c (script ++ List.replicate n .eagain) = some r ∧ r.returned = true ∧
    Holds r.conn (read ++ streamOf script)

variable {c : CgiConn} {read bytes : List UInt8} {script : List RecvResult}

/-- An `EAGAIN` adds nothing to what was read, so the delivery behind it is as incomplete as
before. -/
theorem Incomplete.of_eagain (h : Incomplete read (.eagain :: script)) : Incomplete read script :=
  ⟨fun result hmem => h.delivers result (List.mem_cons_of_mem _ hmem), h.incomplete, h.room⟩

/-- A chunk goes to the bytes held, and what is behind it remains to be delivered. -/
theorem Incomplete.of_data (h : Incomplete read (.data bytes :: script)) :
    Incomplete (read ++ bytes) script := by
  have hstream : read ++ streamOf (.data bytes :: script) = (read ++ bytes) ++ streamOf script :=
    (List.append_assoc ..).symm
  exact ⟨fun result hmem => h.delivers result (List.mem_cons_of_mem _ hmem),
    hstream ▸ h.incomplete, hstream ▸ h.room⟩

/-- The bytes that the connection holds already are no complete request line, and leave room for
more. -/
theorem Incomplete.held (h : Incomplete read script) :
    (∀ k, ¬ PairAt CR LF read k) ∧ read.length < BUFFER_SIZE - 1 := by
  refine ⟨fun k hk => h.incomplete k ((pairAt_append hk.lt_length).mpr hk), ?_⟩
  have := h.room
  rw [List.length_append] at this
  omega

/-- Every `EAGAIN` is followed by another call of `recv`, since the loop does `continue`.
Induction on their number. -/
theorem process_replicate_eagain (env : Env) (h : Holds c read)
    (hroom : read.length < BUFFER_SIZE - 1) (n : ℕ) :
    process env c (List.replicate n .eagain) = some ⟨c, [], [], false⟩ := by
  induction n with
  | zero =>
      have hasked := h.asked
      rw [List.replicate_zero, process, if_neg (by omega), if_neg (by omega)]
  | succ n ih =>
      rw [List.replicate_succ, (process_cons env h hroom _).1]
      exact ih

/-- **`process` asks again**, whatever number of times `recv` fails with `EAGAIN` behind the
delivery, of which no chunk completes a request line. The induction is on the delivery. -/
theorem process_asks_again (env : Env) (n : ℕ) (h : Holds c read)
    (hscript : Incomplete read script) :
    ∃ c' actions, process env c (script ++ List.replicate n .eagain) =
      some ⟨c', actions, [], false⟩ ∧ Holds c' (read ++ streamOf script) := by
  induction script generalizing c read with
  | nil =>
      refine ⟨c, [], process_replicate_eagain env h hscript.held.2 n, ?_⟩
      rw [streamOf, List.append_nil]
      exact h
  | cons result script ih =>
      obtain ⟨hnone, hroom⟩ := hscript.held
      rcases hscript.delivers result List.mem_cons_self with rfl | ⟨bytes, rfl⟩
      · rw [List.cons_append, (process_cons env h hroom _).1]
        exact ih h hscript.of_eagain
      · have hlen := hscript.of_data.held.2
        rw [List.length_append] at hlen
        have hfit : bytes.length ≤ BUFFER_SIZE - 1 - read.length := by omega
        rw [List.cons_append]
        rcases process_data env h hnone hroom hfit (script ++ List.replicate n .eagain) with
          ⟨c₁, text, hholds, -, hrun⟩ | ⟨_, _, j, hfirst, -⟩
        · obtain ⟨c', actions, hrun', hholds'⟩ := ih hholds hscript.of_data
          refine ⟨c', .print text :: actions, ?_, ?_⟩
          · rw [hrun, hrun']
            rfl
          · rwa [List.append_assoc] at hholds'
        · exact absurd hfirst.1 (hscript.of_data.held.1 j)

/-- **`process` never gives the event loop back.** For every connection and every delivery without a
complete request line that leaves room in the buffer, it is still in its loop after any number of
calls of `recv` that fail with `EAGAIN`; the bytes are kept meanwhile. -/
theorem process_never_gives_back (env : Env) (h : Holds c read)
    (hscript : Incomplete read script) :
    (∀ n, ∃ c' actions, process env c (script ++ List.replicate n .eagain) =
      some ⟨c', actions, [], false⟩ ∧ Holds c' (read ++ streamOf script)) ∧
    ¬ GivesBack env c read script := by
  refine ⟨fun n => process_asks_again env n h hscript, ?_⟩
  rintro ⟨n, r, hrun, hreturned, -⟩
  obtain ⟨c', actions, hrun', -⟩ := process_asks_again env n h hscript
  obtain rfl := Option.some.inj (hrun'.symm.trans hrun)
  exact absurd hreturned Bool.false_ne_true

/-- One byte in front of the request line is a delivery of the kind: neither complete, nor too
long. -/
theorem incomplete_one : Incomplete [] [.data [65]] where
  delivers := by simp
  incomplete := by
    rintro k ⟨hk, -, hlf⟩
    obtain ⟨hlt, -⟩ := List.getElem?_eq_some_iff.mp hlf
    simp [streamOf] at hlt
    omega
  room := by decide

/-- A new connection gets one byte, and is then asked again and again. -/
theorem process_never_gives_back_example :
    ¬ GivesBack ⟨fun _ => true, true⟩ init [] [.data [65]] :=
  (process_never_gives_back _ holds_init incomplete_one).2

/-- The same connection: `process` may be called on it, and does not return. -/
theorem not_givesBack_one :
    ¬ ∀ (env : Env) (c : CgiConn) (read : List UInt8) (script : List RecvResult), Holds c read →
      Incomplete read script → GivesBack env c read script := by
  intro hall
  obtain ⟨n, r, hrun, hreturned, -⟩ :=
    hall ⟨fun _ => true, true⟩ init [] [.data [65]] holds_init incomplete_one
  obtain ⟨c', actions, hrun', -⟩ :=
    process_asks_again ⟨fun _ => true, true⟩ n holds_init incomplete_one
  obtain rfl := Option.some.inj (hrun'.symm.trans hrun)
  exact absurd hreturned Bool.false_ne_true

end LinuxNetwork.CgiConn

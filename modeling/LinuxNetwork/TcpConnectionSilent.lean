import LinuxNetwork.TcpConnectionEcho

/-!
# A Silent Client

A client may stay connected and send nothing. `recv` then fails with `EAGAIN` for as long as it is
called. A comment in the loop of `processRequest` says that the loop is left when `recv` would
block; the branch behind it goes on, so the worker calls `recv` again and again, and the socket is
not closed.

## Main results

* `processRequest_asks_again`: the chunks are answered, and every `EAGAIN` is followed by another
  call.
* `processRequest_never_released`: no silent client releases its worker.
-/

namespace LinuxNetwork.TcpConnection

/-- **The worker is released**: when `recv` fails with `EAGAIN` behind the given results, for as
long as it is called, `processRequest` returns after finitely many calls. -/
def Released (sends : ℕ → SendResult) (results : List RecvResult) : Prop :=
  ∃ n o, processRequest sends (results ++ List.replicate n .eagain) = some o ∧ o.returned = true

variable {sends : ℕ → SendResult} {results : List RecvResult}

/-- A client that falls silent is still connected, and `recv` fails with `EAGAIN` as often as it
is called. -/
theorem Receiving.append_eagain (h : Receiving results) (n : ℕ) :
    Receiving (results ++ List.replicate n .eagain) := by
  intro result hresult
  rcases List.mem_append.mp hresult with hmem | hmem
  · exact h result hmem
  · exact .inl (List.eq_of_mem_replicate hmem)

/-- An `EAGAIN` brings no chunk, and so there is no reply to it. -/
theorem chunksOf_replicate_eagain (n : ℕ) : chunksOf (List.replicate n .eagain) = [] := by
  induction n with
  | zero => rfl
  | succ n ih => exact ih

/-- **`processRequest` asks again**, whatever number of times `recv` fails with `EAGAIN` behind the
chunks, which are answered. -/
theorem processRequest_asks_again (h : Receiving results) (n : ℕ) :
    processRequest sends (results ++ List.replicate n .eagain) =
      some ⟨takenOf sends (chunksOf results), false⟩ := by
  rw [processRequest_of_receiving (h.append_eagain n), chunksOf_append,
    chunksOf_replicate_eagain, List.append_nil]

/-- **A silent client never releases its worker.** For all chunks that `recv` returns, with `EAGAIN`
between them or not, and whatever `send` makes of the replies, `processRequest` has answered the
chunks and is still in its loop after any number of calls of `recv` that fail with `EAGAIN`. -/
theorem processRequest_never_released (sends : ℕ → SendResult) (h : Receiving results) :
    (∀ n, processRequest sends (results ++ List.replicate n .eagain) =
      some ⟨takenOf sends (chunksOf results), false⟩) ∧ ¬ Released sends results := by
  refine ⟨processRequest_asks_again h, ?_⟩
  rintro ⟨n, o, hrun, hreturned⟩
  obtain rfl := Option.some.inj ((processRequest_asks_again h n).symm.trans hrun)
  exact absurd hreturned Bool.false_ne_true

/-- One byte from a client. -/
theorem receiving_one : Receiving [.data [65]] := by
  intro result hresult
  obtain rfl := List.mem_singleton.mp hresult
  exact .inr ⟨[65], rfl, nofun, by decide⟩

/-- A client sends one byte and falls silent when it has got its reply. -/
theorem processRequest_never_released_example :
    ¬ Released (fun _ => .sent 7) [.data [65]] :=
  (processRequest_never_released _ receiving_one).2

/-- The same client: its worker should be released, and is not. -/
theorem not_released_one : ¬ ∀ (sends : ℕ → SendResult) (results : List RecvResult),
    Receiving results → Released sends results := by
  intro hall
  obtain ⟨n, o, hrun, hreturned⟩ := hall (fun _ => .sent 7) [.data [65]] receiving_one
  rw [processRequest_asks_again receiving_one] at hrun
  obtain rfl := Option.some.inj hrun
  exact absurd hreturned Bool.false_ne_true

end LinuxNetwork.TcpConnection

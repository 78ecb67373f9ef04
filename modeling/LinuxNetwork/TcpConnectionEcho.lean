import LinuxNetwork.Streams
import LinuxNetwork.TcpConnection

/-!
# The Replies of a Connection

`processRequest` offers the reply to a chunk to `send` once and never looks at how much of it
was taken. The client's stream of replies is therefore complete exactly if every single `send`
takes all it is offered.

## Main results

* `processRequest_of_receiving`, `processRequest_of_ends`: all that `processRequest` makes of
  the results it gets.
* `processRequest_echoes_iff`: when the replies arrive in full.
-/

namespace LinuxNetwork.TcpConnection

/-- The chunks that `recv` returns. -/
def chunksOf : List RecvResult → List (List UInt8)
  | [] => []
  | .data bytes :: results => bytes :: chunksOf results
  | .eagain :: results => chunksOf results
  | .error :: results => chunksOf results
  | .closed :: results => chunksOf results

/-- The results of `recv` while the peer stays connected: chunks that fit into the buffer, and
`EAGAIN`. -/
def Receiving (results : List RecvResult) : Prop :=
  ∀ result ∈ results, result = .eagain ∨
    ∃ bytes, result = .data bytes ∧ bytes ≠ [] ∧ bytes.length ≤ kBufferSize - 1

/-- What the calls of `send` take of the replies to the chunks. -/
def takenOf : (ℕ → SendResult) → List (List UInt8) → List UInt8
  | _, [] => []
  | sends, chunk :: chunks =>
      (sends 0).taken (response chunk) ++ takenOf (fun k => sends (k + 1)) chunks

variable {sends : ℕ → SendResult} {results : List RecvResult} {result : RecvResult}
  {chunks : List (List UInt8)}

theorem Receiving.of_cons (h : Receiving (result :: results)) : Receiving results :=
  fun r hr => h r (List.mem_cons_of_mem result hr)

/-- Every chunk brings something, since a `recv` that returns 0 bytes is the end of the
conversation. -/
theorem Receiving.nil_notMem (h : Receiving results) : [] ∉ chunksOf results := by
  induction results with
  | nil => exact List.not_mem_nil
  | cons result results ih =>
      rcases h result List.mem_cons_self with rfl | ⟨bytes, rfl, hne, -⟩
      · exact ih h.of_cons
      · rw [chunksOf, List.mem_cons, not_or]
        exact ⟨hne.symm, ih h.of_cons⟩

/-- **All that `processRequest` does** while the peer stays connected: it offers the reply to
every chunk once, and goes on. -/
theorem processRequest_of_receiving (h : Receiving results) :
    processRequest sends results = some ⟨takenOf sends (chunksOf results), false⟩ := by
  induction results generalizing sends with
  | nil => rfl
  | cons result results ih =>
      rw [processRequest]
      rcases h result List.mem_cons_self with rfl | ⟨bytes, rfl, -, hlen⟩
      · exact ih h.of_cons
      · rw [afterRecv, if_pos hlen]
        simp [ih h.of_cons, chunksOf, takenOf]

/-- What `recv` returns when a conversation ends. -/
def Ends (result : RecvResult) : Prop :=
  result = .closed ∨ result = .error

/-- **All that `processRequest` does** with a conversation that ends: it offers the reply to
every chunk once, and returns. -/
theorem processRequest_of_ends (h : Receiving results) (hend : Ends result) :
    processRequest sends (results ++ [result]) =
      some ⟨takenOf sends (chunksOf results), true⟩ := by
  induction results generalizing sends with
  | nil => rcases hend with rfl | rfl <;> rfl
  | cons r results ih =>
      rw [List.cons_append, processRequest]
      rcases h r List.mem_cons_self with rfl | ⟨bytes, rfl, -, hlen⟩
      · exact ih h.of_cons
      · rw [afterRecv, if_pos hlen]
        simp [ih h.of_cons, chunksOf, takenOf]

theorem chunksOf_append (results results' : List RecvResult) :
    chunksOf (results ++ results') = chunksOf results ++ chunksOf results' := by
  induction results with
  | nil => rfl
  | cons result results ih => cases result <;> simp [chunksOf, ih]

/-- The last reply comes last, and its `send` has the number of the chunks before it. -/
theorem takenOf_concat (sends : ℕ → SendResult) (chunks : List (List UInt8))
    (chunk : List UInt8) :
    takenOf sends (chunks ++ [chunk]) =
      takenOf sends chunks ++ (sends chunks.length).taken (response chunk) := by
  induction chunks generalizing sends with
  | nil => simp [takenOf]
  | cons c chunks ih => simp [takenOf, ih]

/-- Only the calls of `send` that were made matter, one for each chunk. -/
theorem takenOf_congr {sends' : ℕ → SendResult} (h : ∀ k < chunks.length, sends k = sends' k) :
    takenOf sends chunks = takenOf sends' chunks := by
  induction chunks generalizing sends sends' with
  | nil => rfl
  | cons chunk chunks ih =>
      rw [takenOf, takenOf, h 0 (Nat.zero_lt_succ _),
        ih fun k hk => h (k + 1) (Nat.succ_lt_succ hk)]

/-- No more is taken than the replies, since no `send` takes more than it is offered. -/
theorem length_takenOf_le (sends : ℕ → SendResult) (chunks : List (List UInt8)) :
    (takenOf sends chunks).length ≤ (chunks.flatMap response).length := by
  induction chunks generalizing sends with
  | nil => exact Nat.le_refl 0
  | cons chunk chunks ih =>
      rw [takenOf, List.flatMap_cons, List.length_append, List.length_append]
      exact Nat.add_le_add ((sends 0).length_taken_le _) (ih _)

/-- The replies are taken in full exactly if every `send` takes all it is offered. Induction on
the chunks: no part is longer than its reply, so the parts agree only one by one. -/
theorem takenOf_eq_iff
    (hsends : ∀ k chunk, chunks[k]? = some chunk → (sends k).Connected (response chunk)) :
    takenOf sends chunks = chunks.flatMap response ↔
      ∀ k chunk, chunks[k]? = some chunk → sends k = .sent (response chunk).length := by
  induction chunks generalizing sends with
  | nil => exact iff_of_true rfl nofun
  | cons chunk chunks ih =>
      rw [takenOf, List.flatMap_cons, Streams.append_eq_append_iff_of_length_le
        ((sends 0).length_taken_le _) (length_takenOf_le _ _),
        (hsends 0 chunk rfl).taken_eq_iff (by simp [response, echo]),
        ih fun k c hc => hsends (k + 1) c hc]
      constructor
      · rintro ⟨hfirst, hrest⟩ k c hc
        cases k with
        | zero => exact Option.some.inj hc ▸ hfirst
        | succ k => exact hrest k c hc
      · exact fun hall => ⟨hall 0 chunk rfl, fun k c hc => hall (k + 1) c hc⟩

/-- **When no reply bytes are lost.** For every conversation that the peer closes, and all
results that `send` may give while it is connected, `processRequest` returns with the replies
to all chunks taken, in order, if and only if every `send` took all it was offered. -/
theorem processRequest_echoes_iff (h : Receiving results)
    (hsends : ∀ k chunk, (chunksOf results)[k]? = some chunk →
      (sends k).Connected (response chunk)) :
    processRequest sends (results ++ [.closed]) =
        some ⟨(chunksOf results).flatMap response, true⟩ ↔
      ∀ k chunk, (chunksOf results)[k]? = some chunk →
        sends k = .sent (response chunk).length := by
  rw [processRequest_of_ends h (.inl rfl), ← takenOf_eq_iff hsends]
  simp

/-- Two chunks with an `EAGAIN` in between; the second reply is refused. -/
theorem processRequest_echoes_iff_example :
    processRequest (fun k => if k = 0 then .sent 7 else .eagain)
        ([.data [65], .eagain, .data [66]] ++ [.closed]) =
        some ⟨[[65], [66]].flatMap response, true⟩ ↔
      ∀ k chunk, ([[65], [66]] : List (List UInt8))[k]? = some chunk →
        (fun k => if k = 0 then SendResult.sent 7 else .eagain) k =
          .sent (response chunk).length := by
  have hreceiving : Receiving [.data [65], .eagain, .data [66]] := by
    intro result hresult
    simp only [List.mem_cons, List.not_mem_nil, or_false] at hresult
    rcases hresult with rfl | rfl | rfl
    · exact .inr ⟨[65], rfl, nofun, by decide⟩
    · exact .inl rfl
    · exact .inr ⟨[66], rfl, nofun, by decide⟩
  refine processRequest_echoes_iff hreceiving fun k chunk hchunk => ?_
  match k, hchunk with
  | 0, hchunk =>
      obtain rfl := Option.some.inj hchunk
      exact .inr ⟨7, rfl, by decide, by decide⟩
  | 1, _ => exact .inl rfl

/-- **A lost reply.** The `send` of the only reply would block, and the client gets nothing. -/
theorem processRequest_loses_reply :
    ∃ sends, (∀ k chunk, (chunksOf [.data [65]])[k]? = some chunk →
        (sends k : SendResult).Connected (response chunk)) ∧
      processRequest sends [.data [65], .closed] = some ⟨[], true⟩ ∧
      (chunksOf [.data [65]]).flatMap response ≠ [] :=
  ⟨fun _ => .eagain, fun _ _ _ => .inl rfl, rfl, by decide⟩

end LinuxNetwork.TcpConnection

import LinuxNetwork.TcpConnectionEcho

/-!
# The Client and Its Reply

This module embeds `main` of `linux_client/main.cpp`, which sends one request and receives one
reply, and puts it together with the server's `processRequest`.

The results of the client's system calls are input. The parsing of the command line and the
numbers of the errors are left out.

Neither program looks for the end of a message: the server answers every chunk that it
receives, and the client calls `recv` once. The client therefore prints the reply to its
request exactly if the request reached the server in one chunk and the reply came back in one.

## Main results

* `processRequest_full`: the server's replies to what it has received so far.
* `client_prints_reply_iff`: when the client prints the reply to its request.
-/

namespace LinuxNetwork.LinuxClient

open TcpConnection (Receiving Outcome chunksOf echo processRequest response takenOf
  takenOf_eq_iff)

/-- `sizeof(buffer)` -/
def BUFFER_SIZE : ℕ := 1024

/-- The system calls of the client that may fail. -/
inductive Call where
  | socket
  | inetPton
  | connect
  | send
  | recv
deriving DecidableEq, Repr

/-- What the client prints. -/
inductive Printed where
  /-- `Received: ` and the text -/
  | received (text : List UInt8)
  /-- `Server closed connection before sending a response.` -/
  | closed
  /-- The failure of a call, on the error output. -/
  | failed (call : Call)
deriving DecidableEq, Repr

/-- The results of the client's system calls. -/
structure Env where
  socket : Bool
  inetPton : Bool
  connect : Bool
  send : SendResult
  recv : RecvResult

/-- `message + "\r\n"` -/
def payload (message : List UInt8) : List UInt8 :=
  message ++ [13, 10]

/-- The text that `std::cout << buffer` prints of a terminated buffer. -/
def cString (bytes : List UInt8) : List UInt8 :=
  bytes.takeWhile (· ≠ 0)

/-- What the client makes of the result of its only `recv`, which is asked for one byte less
than the buffer holds. -/
def receive : RecvResult → Option Printed
  | .data bytes =>
      if bytes.length ≤ BUFFER_SIZE - 1 then some (.received (cString bytes)) else none
  | .closed => some .closed
  | .eagain => some (.failed .recv)
  | .error => some (.failed .recv)

/-- `main()`: what it prints, what it offers to `send`, and its exit status. -/
def main (env : Env) (message : List UInt8) : Option (Printed × List UInt8 × ℕ) :=
  if env.socket = false then some (.failed .socket, [], 1)
  else if env.inetPton = false then some (.failed .inetPton, [], 1)
  else if env.connect = false then some (.failed .connect, [], 1)
  else
    match env.send with
    | .sent _ => do
        let printed ← receive env.recv
        some (printed, payload message, 0)
    | .eagain | .brokenPipe | .error => some (.failed .send, payload message, 1)

/-- The environment of a client that connects, whose request is taken in full, and whose
`recv` returns the given bytes. -/
def connected (message bytes : List UInt8) : Env where
  socket := true
  inetPton := true
  connect := true
  send := .sent (payload message).length
  recv := .data bytes

variable {message : List UInt8} {received : List RecvResult} {sends : ℕ → SendResult}
  {count : ℕ} {o : Outcome}

/-- When every `send` takes all it is offered, every reply is taken, each behind its header. -/
theorem takenOf_full {chunks : List (List UInt8)}
    (hsends : ∀ k chunk, chunks[k]? = some chunk → sends k = .sent (response chunk).length) :
    takenOf sends chunks = Streams.prefixed echo chunks := by
  refine (takenOf_eq_iff fun k chunk hchunk => .inr ⟨_, hsends k chunk hchunk, ?_, ?_⟩).mpr hsends
  · simp [response, echo]
  · exact Nat.le_refl _

/-- **The server's replies** to what it has received so far, when every `send` takes all it is
offered. -/
theorem processRequest_full (h : Receiving received)
    (hsends : ∀ k chunk, (chunksOf received)[k]? = some chunk →
      sends k = .sent (response chunk).length) :
    processRequest sends received =
      some ⟨Streams.prefixed echo (chunksOf received), false⟩ := by
  rw [TcpConnection.processRequest_of_receiving h, takenOf_full hsends]

/-- A text without a NUL byte is printed whole. Requests and replies are such texts if the
message is. -/
theorem cString_eq_self {text : List UInt8} (h : (0 : UInt8) ∉ text) : cString text = text :=
  List.takeWhile_eq_self_iff.mpr fun byte hbyte => by
    simpa using ne_of_mem_of_not_mem hbyte h

/-- A client that connects prints what it receives in its one call of `recv`, and returns 0. -/
theorem main_connected {bytes : List UInt8} (hnul : (0 : UInt8) ∉ bytes)
    (hlen : bytes.length ≤ BUFFER_SIZE - 1) :
    main (connected message bytes) message =
      some (.received bytes, payload message, 0) := by
  have hself := cString_eq_self hnul
  simp [main, connected, receive, hlen, hself]

/-- A request that did not come in one chunk shows in the replies: its last letter has moved
back behind a header. -/
theorem eq_nil_of_prefix_prefixed {chunk rest : List UInt8} {chunks : List (List UInt8)}
    (hrest : chunk ++ (chunks.flatten ++ rest) = payload message)
    (hpre : chunks.flatten ++ rest <+: Streams.prefixed echo chunks) :
    chunks.flatten ++ rest = [] := by
  by_contra hne
  obtain ⟨last, hsome⟩ := Option.ne_none_iff_exists'.mp (mt List.getLast?_eq_none_iff.mp hne)
  have hlast := congrArg List.getLast? hrest
  rw [List.getLast?_append, hsome] at hlast
  obtain rfl : last = 10 := by simpa [payload] using hlast
  exact Streams.not_prefix_prefixed (by decide) (by decide) (List.mem_of_getLast? hsome)
    (List.prefix_append _ _) hpre

/-- **When client and server agree.** For every message, every way in which the request is cut
on its way to the server, and every part of the replies so far that the client's `recv`
returns, the client prints the reply to its request if and only if the server received the
request in one chunk and the client receives the whole reply. -/
theorem client_prints_reply_iff (hmessage : (0 : UInt8) ∉ message) (h : Receiving received)
    (hstream : (chunksOf received).flatten <+: payload message)
    (hsends : ∀ k chunk, (chunksOf received)[k]? = some chunk →
      sends k = .sent (response chunk).length)
    (ho : processRequest sends received = some o) (hpos : 1 ≤ count)
    (hcount : count ≤ o.taken.length) (hroom : count ≤ BUFFER_SIZE - 1) :
    main (connected message (o.taken.take count)) message =
        some (.received (echo ++ payload message), payload message, 0) ↔
      chunksOf received = [payload message] ∧
        count = (response (payload message)).length := by
  rw [processRequest_full h hsends] at ho
  obtain rfl := Option.some.inj ho
  have hreplies : (0 : UInt8) ∉ Streams.prefixed echo (chunksOf received) := by
    intro hmem
    obtain ⟨chunk, hchunk, hmem⟩ := List.mem_flatMap.mp hmem
    rcases List.mem_append.mp hmem with hin | hin
    · exact absurd hin (by decide)
    · have := hstream.subset (List.mem_flatten.mpr ⟨chunk, hchunk, hin⟩)
      exact hmessage (by simpa [payload] using this)
  rw [main_connected (fun hmem => hreplies (List.mem_of_mem_take hmem))
      (Nat.le_trans (List.length_take_le _ _) hroom),
    Option.some.injEq, Prod.mk.injEq, and_iff_left rfl, Printed.received.injEq]
  constructor
  · intro heq
    have hlen := congrArg List.length heq
    rw [List.length_take, Nat.min_eq_left hcount] at hlen
    refine ⟨?_, hlen⟩
    have hnonempty := h.nil_notMem
    cases hchunks : chunksOf received with
    | nil =>
        rw [hchunks] at hcount
        exact absurd hcount (Nat.not_le.mpr hpos)
    | cons chunk chunks =>
        rw [hchunks] at hstream heq hnonempty
        obtain ⟨rest, hrest⟩ := hstream
        rw [List.flatten_cons, List.append_assoc] at hrest
        have hpre : chunks.flatten ++ rest <+: Streams.prefixed echo chunks := by
          have := List.take_prefix count (Streams.prefixed echo (chunk :: chunks))
          rw [heq, ← hrest, Streams.prefixed, List.flatMap_cons, List.append_assoc] at this
          exact (List.prefix_append_right_inj _).mp ((List.prefix_append_right_inj _).mp this)
        have hnil := eq_nil_of_prefix_prefixed hrest hpre
        rw [hnil, List.append_nil] at hrest
        have hchunks : chunks = [] := by
          rw [List.eq_nil_iff_forall_not_mem]
          intro c hc
          have hempty := List.flatten_eq_nil_iff.mp (List.append_eq_nil_iff.mp hnil).1 c hc
          exact hnonempty (List.mem_cons_of_mem chunk (hempty ▸ hc))
        rw [hrest, hchunks]
  · rintro ⟨hchunks, rfl⟩
    simp [hchunks, Streams.prefixed, response]

/-- `hi` reaches the server in one chunk, and so does the reply. -/
theorem client_prints_reply_iff_example :
    main (connected [104, 105] ((echo ++ payload [104, 105]).take 10)) [104, 105] =
        some (.received (echo ++ payload [104, 105]), payload [104, 105], 0) ↔
      chunksOf [.eagain, .data (payload [104, 105])] = [payload [104, 105]] ∧
        10 = (response (payload [104, 105])).length := by
  have hreceiving : Receiving [.eagain, .data (payload [104, 105])] := by
    intro result hresult
    simp only [List.mem_cons, List.not_mem_nil, or_false] at hresult
    rcases hresult with rfl | rfl
    · exact .inl rfl
    · exact .inr ⟨payload [104, 105], rfl, nofun, by decide⟩
  have ho : processRequest (fun _ => .sent 10) [.eagain, .data (payload [104, 105])] =
      some ⟨echo ++ payload [104, 105], false⟩ := by decide
  refine client_prints_reply_iff (by decide) hreceiving (by decide) (fun k chunk hchunk => ?_) ho
    (by decide) (by decide) (by decide)
  match k, hchunk with
  | 0, hchunk =>
      obtain rfl := Option.some.inj hchunk
      rfl

/-- **A request in two parts.** The server answers `h` before the rest of the request arrives,
and the client prints that answer as the reply to `hi`. -/
theorem client_prints_part :
    ∃ received count o, Receiving received ∧
      (chunksOf received).flatten = payload [104, 105] ∧
      processRequest (fun k => .sent (if k = 0 then 7 else 9)) received = some o ∧
      (∀ k chunk, (chunksOf received)[k]? = some chunk →
        (response chunk).length = if k = 0 then 7 else 9) ∧
      1 ≤ count ∧ count ≤ o.taken.length ∧ count ≤ BUFFER_SIZE - 1 ∧
      main (connected [104, 105] (o.taken.take count)) [104, 105] =
        some (.received (echo ++ [104]), payload [104, 105], 0) ∧
      echo ++ [104] ≠ echo ++ payload [104, 105] := by
  refine ⟨[.data [104], .data [105, 13, 10]], 7,
    ⟨echo ++ [104] ++ (echo ++ [105, 13, 10]), false⟩, ?_, by decide, by decide, ?_,
    by decide, by decide, by decide, by decide, by decide⟩
  · intro result hresult
    simp only [List.mem_cons, List.not_mem_nil, or_false] at hresult
    rcases hresult with rfl | rfl
    · exact .inr ⟨[104], rfl, nofun, by decide⟩
    · exact .inr ⟨[105, 13, 10], rfl, nofun, by decide⟩
  · intro k chunk hchunk
    match k, hchunk with
    | 0, hchunk =>
        obtain rfl := Option.some.inj hchunk
        rfl
    | 1, hchunk =>
        obtain rfl := Option.some.inj hchunk
        rfl

end LinuxNetwork.LinuxClient

import LinuxNetwork.CgiConn
import LinuxNetwork.PairScan

/-!
# The Request of a CGI Connection

A connection that has read `read` holds these bytes at the front of its buffer and zeros
behind them. Each chunk of data either completes the first CR LF of the stream, and is then
served, or is added to the bytes held; the search resumes at the old end of the bytes. So
the request does not depend on how the stream was cut, and results of `EAGAIN` only delay
it.

## Main results

* `process_data`: what one chunk does.
* `process_extracts_request`: the request of a stream, however `recv` cuts it.
-/

open PairScan

namespace LinuxNetwork.CgiConn

/-! ### Streams and requests -/

/-- The bytes that arrive before the connection ends. -/
def streamOf : List RecvResult → List UInt8
  | [] => []
  | .data bytes :: script => bytes ++ streamOf script
  | .eagain :: script => streamOf script
  | .error :: _ => []
  | .closed :: _ => []

/-- Whether the peer closes the connection, before any other error. -/
def closes : List RecvResult → Bool
  | [] => false
  | .data _ :: script => closes script
  | .eagain :: script => closes script
  | .error :: _ => false
  | .closed :: _ => true

/-- `recv` cuts the stream into nonempty chunks, each at most as long as it was asked for.
This is said of the calls that are made: as long as there is room, and the bytes `read` so
far hold no CR LF. -/
def Cut (read : List UInt8) : List RecvResult → Prop
  | [] => True
  | .data bytes :: script =>
      read.length < BUFFER_SIZE - 1 → (∀ k, ¬ PairAt CR LF read k) →
        bytes ≠ [] ∧ bytes.length ≤ BUFFER_SIZE - 1 - read.length ∧ Cut (read ++ bytes) script
  | .eagain :: script => Cut read script
  | .error :: _ => True
  | .closed :: _ => True

/-- The name that a stream asks for, when its first CR LF has its LF at `j`: the bytes in
front of it, cut at the first NUL byte. -/
def fileName (stream : List UInt8) (j : ℕ) : List UInt8 :=
  (stream.take (j - 1)).takeWhile fun byte => decide (byte ≠ 0)

/-- What is to be done for a name: one lookup, one launch if the lookup and the fork
succeed, and the removal of the connection. -/
def request (env : Env) (name : List UInt8) : List Action :=
  if env.access name then
    if env.fork then [.access name, .fork, .execl name, .removefd]
    else [.access name, .fork, .removefd]
  else [.access name, .removefd]

/-- The actions except for the output of the buffer. -/
def effects (actions : List Action) : List Action :=
  actions.filter fun a => match a with
    | .print _ => false
    | .access _ | .fork | .execl _ | .removefd => true

variable {env : Env} {c : CgiConn} {read bytes buf : List UInt8} {script : List RecvResult}
  {idx j n : ℕ}

/-- What a request does consists of effects only, nothing of it is a print. -/
theorem effects_request (name : List UInt8) : effects (request env name) = request env name := by
  rw [request]
  split
  · split <;> rfl
  · rfl

/-! ### The buffer -/

/-- The zeros behind the bytes read. -/
def padding (read : List UInt8) : List UInt8 :=
  List.replicate (BUFFER_SIZE - read.length) 0

/-- The connection holds the bytes `read`, and there is a zero behind them. -/
structure Holds (c : CgiConn) (read : List UInt8) : Prop where
  buf : c.buf = read ++ padding read
  readIdx : c.readIdx = read.length
  room : read.length < BUFFER_SIZE

/-- A new connection holds no bytes, and a buffer of NUL bytes. -/
theorem holds_init : Holds init [] where
  buf := rfl
  readIdx := rfl
  room := by decide

/-- The bytes held and the NUL bytes behind them fill the buffer. -/
theorem length_append_padding (h : read.length ≤ BUFFER_SIZE) :
    (read ++ padding read).length = BUFFER_SIZE := by
  rw [List.length_append, padding, List.length_replicate]
  omega

/-- `recv` adds its bytes to those held. -/
theorem Holds.store (h : Holds c read) (bytes : List UInt8)
    (hlen : read.length + bytes.length < BUFFER_SIZE) :
    ∃ buf, store c.buf c.readIdx bytes = some buf ∧
      Holds ⟨buf, c.readIdx + bytes.length⟩ (read ++ bytes) := by
  have hfit : c.readIdx + bytes.length ≤ c.buf.length := by
    rw [h.buf, h.readIdx, length_append_padding (Nat.le_of_lt h.room)]
    omega
  refine ⟨_, if_pos hfit, ?_, ?_, ?_⟩
  · simp only [h.buf, h.readIdx, padding, List.take_left', List.drop_append,
      List.drop_replicate, List.length_append]
    rw [List.drop_eq_nil_of_le (by omega), List.nil_append]
    congr 2
    omega
  · rw [h.readIdx, List.length_append]
  · rwa [List.length_append]

/-- There is a string in the buffer, since the byte behind those held is NUL. -/
theorem Holds.cString (h : Holds c read) : ∃ text, cString c.buf = some text := by
  refine ⟨_, if_pos ?_⟩
  rw [h.buf, List.mem_append, padding, List.mem_replicate]
  have := h.room
  exact .inr ⟨by omega, rfl⟩

/-- The loop over the buffer does not leave it, and is the search of the library. Induction on
the number of bytes left to search. -/
theorem scanLoop_eq (n idx : ℕ) (hlen : idx + n ≤ buf.length) :
    scanLoop buf n idx = some (scan CR LF buf n idx) := by
  induction n generalizing idx with
  | zero => rfl
  | succ n ih =>
      have hnext := ih (idx + 1) (by omega)
      have hidx : idx < buf.length := by omega
      have hidx' : idx - 1 < buf.length := by omega
      have hcur : buf[idx]? = some buf[idx] := List.getElem?_eq_getElem _
      have hprev : buf[idx - 1]? = some buf[idx - 1] := List.getElem?_eq_getElem _
      by_cases hpair : PairAt CR LF buf idx
      · obtain ⟨hidx, hcr, hlf⟩ := hpair
        rw [scan, if_pos ⟨hidx, hcr, hlf⟩, scanLoop, if_pos hidx]
        simp [hcr, hlf]
      · rw [scan, if_neg hpair, scanLoop]
        rw [PairAt] at hpair
        rw [hcur, hprev] at hpair
        simp only [Option.some.injEq, not_and] at hpair
        split
        case isTrue hidx =>
            rw [hprev, hcur]
            by_cases hcr : buf[idx - 1] = CR
            · simp [hcr, hpair hidx hcr, hnext]
            · simp [hcr, hnext]
        case isFalse => exact hnext

/-- A complete request is served: the terminator cuts the name off the buffer, and the name is
what stands in front of the CR LF. -/
theorem Holds.serve (env : Env) (h : Holds c read) (hj : PairAt CR LF read j) :
    ∃ buf, serve env c.buf j = some (buf, request env (fileName read j)) := by
  have hlt := hj.lt_length
  have hroom := h.room
  have hpos := hj.1
  have hstore : CgiConn.store c.buf (j - 1) [0] =
      some (c.buf.take (j - 1) ++ [0] ++ c.buf.drop (j - 1 + 1)) := by
    refine if_pos ?_
    rw [h.buf, length_append_padding (Nat.le_of_lt hroom), List.length_singleton]
    omega
  have htake : c.buf.take (j - 1) = read.take (j - 1) := by
    rw [h.buf, List.take_append_of_le_length (by omega)]
  have hname : CgiConn.cString (c.buf.take (j - 1) ++ [0] ++ c.buf.drop (j - 1 + 1)) =
      some (fileName read j) := by
    rw [CgiConn.cString, if_pos (by simp), htake, List.append_assoc, List.takeWhile_append]
    split
    case isTrue hall =>
        have hself : (read.take (j - 1)).takeWhile (fun byte => decide (byte ≠ 0)) =
            read.take (j - 1) := (List.takeWhile_prefix _).eq_of_length hall
        rw [fileName, hself]
        simp
    case isFalse => rfl
  refine ⟨c.buf.take (j - 1) ++ [0] ++ c.buf.drop (j - 1 + 1), ?_⟩
  simp only [CgiConn.serve, hstore, hname, Option.bind_eq_bind, Option.bind_some, request]
  split
  · split <;> rfl
  · rfl

/-! ### The loop -/

/-- The length that is asked of `recv` is the room left in the buffer but for the last byte. -/
theorem Holds.asked (h : Holds c read) :
    c.asked = ((BUFFER_SIZE - 1 - read.length : ℕ) : ℤ) := by
  have := h.room
  rw [CgiConn.asked, h.readIdx]
  omega

/-- **One chunk** either completes the first CR LF, and the request is served, or is added to
the bytes held. The search looks at the new bytes and at the last one before them, which is
enough, since the bytes held hold no pair. -/
theorem process_data (env : Env) (h : Holds c read) (hnone : ∀ k, ¬ PairAt CR LF read k)
    (hlt : read.length < BUFFER_SIZE - 1)
    (hlen : bytes.length ≤ BUFFER_SIZE - 1 - read.length) (script : List RecvResult) :
    (∃ c' text, Holds c' (read ++ bytes) ∧ (∀ k, ¬ PairAt CR LF (read ++ bytes) k) ∧
        process env c (.data bytes :: script) = (process env c' script).map fun r =>
          { r with actions := .print text :: r.actions }) ∨
      ∃ c' text j, FirstPair CR LF (read ++ bytes) j ∧
        process env c (.data bytes :: script) =
          some ⟨c', .print text :: request env (fileName (read ++ bytes) j), script, true⟩ := by
  obtain ⟨buf, hstore, hholds⟩ := h.store bytes (by omega)
  obtain ⟨text, htext⟩ := hholds.cString
  have hpos : ¬ c.asked < 0 := by
    rw [h.asked]
    omega
  have hne : ¬ c.asked = 0 := by
    rw [h.asked]
    omega
  have hbuf : buf = (read ++ bytes) ++ padding (read ++ bytes) := hholds.buf
  have hend : c.readIdx + bytes.length = (read ++ bytes).length := hholds.readIdx
  have hscan : scanLoop buf bytes.length c.readIdx =
      some (scan CR LF buf bytes.length c.readIdx) := by
    refine scanLoop_eq _ _ ?_
    rw [hbuf, length_append_padding (Nat.le_of_lt hholds.room), hend]
    exact Nat.le_of_lt hholds.room
  have hpair : ∀ k < c.readIdx + bytes.length,
      PairAt CR LF buf k ↔ PairAt CR LF (read ++ bytes) k := by
    intro k hk
    rw [hbuf, pairAt_append (hend ▸ hk)]
  have hold : ∀ k < c.readIdx, ¬ PairAt CR LF buf k := by
    intro k hk
    rw [hpair k (by omega), pairAt_append (h.readIdx ▸ hk)]
    exact hnone k
  rw [process, if_neg hpos, if_neg hne]
  simp only [hstore, htext, hscan, Option.bind_eq_bind, Option.bind_some]
  rcases firstPair_of_scan (n := bytes.length) hold with ⟨hfound, hfirst⟩ | ⟨heq, hall⟩
  · -- the chunk completes the request
    right
    rw [if_neg (Nat.ne_of_lt hfound)]
    have hfirst' : FirstPair CR LF (read ++ bytes) (scan CR LF buf bytes.length c.readIdx) := by
      rw [hbuf] at hfirst
      rw [hbuf]
      exact (firstPair_append (by rw [← hbuf, ← hend]; exact hfound)).mp hfirst
    obtain ⟨buf', hserve⟩ := hholds.serve env hfirst'.1
    exact ⟨_, text, _, hfirst', by rw [hserve]; rfl⟩
  · -- the search has seen all bytes
    left
    rw [if_pos heq]
    refine ⟨_, text, hholds, fun k hk => ?_, ?_⟩
    · have hlt := hk.lt_length
      rw [← hend] at hlt
      exact hall k hlt ((hpair k hlt).mpr hk)
    · cases process env ⟨buf, c.readIdx + bytes.length⟩ script <;> rfl

/-- A connection without room is removed, since `recv` is asked for 0 bytes and returns 0. -/
theorem process_full (env : Env) (h : Holds c read) (hfull : BUFFER_SIZE - 1 ≤ read.length)
    (script : List RecvResult) :
    process env c script = some ⟨c, [.removefd], script, true⟩ := by
  have hasked : c.asked = 0 := by
    rw [h.asked]
    omega
  cases script with
  | nil => rw [process, if_neg (by omega), if_pos hasked]
  | cons result script =>
      cases result <;> rw [process, if_neg (by omega), if_pos hasked]

/-- With room left, the result of `recv` decides: an `EAGAIN` is passed over, an error and the
end of the stream remove the connection. -/
theorem process_cons (env : Env) (h : Holds c read) (hlt : read.length < BUFFER_SIZE - 1)
    (script : List RecvResult) :
    process env c (.eagain :: script) = process env c script ∧
      process env c (.error :: script) = some ⟨c, [.removefd], script, true⟩ ∧
      process env c (.closed :: script) = some ⟨c, [.removefd], script, true⟩ := by
  have hpos : ¬ c.asked < 0 := by
    rw [h.asked]
    omega
  have hne : ¬ c.asked = 0 := by
    rw [h.asked]
    omega
  refine ⟨?_, ?_, ?_⟩ <;> rw [process, if_neg hpos, if_neg hne]

/-- **The stream has a request.** The induction is on the results of `recv`; the bytes read so
far hold no CR LF. A chunk completes the first one, or is added to the bytes held. -/
theorem process_finds (script : List RecvResult) :
    ∀ {c : CgiConn} {read : List UInt8}, Holds c read → (∀ k, ¬ PairAt CR LF read k) →
      Cut read script → FirstPair CR LF (read ++ streamOf script) j →
      j + 1 ≤ BUFFER_SIZE - 1 →
      ∃ c' actions before bytes rest,
        process env c script = some ⟨c', actions, rest, true⟩ ∧
        effects actions = request env (fileName (read ++ streamOf script) j) ∧
        script = before ++ .data bytes :: rest ∧ (read ++ streamOf before).length ≤ j ∧
        j < (read ++ streamOf before).length + bytes.length := by
  induction script with
  | nil =>
      intro c read h hnone _ hj _
      rw [streamOf, List.append_nil] at hj
      exact absurd hj.1 (hnone j)
  | cons result script ih =>
      intro c read h hnone hcut hj hroom
      have hread : read.length ≤ j := by
        by_contra hlt
        exact hnone j ((pairAt_append (by omega)).mp hj.1)
      have hlt : read.length < BUFFER_SIZE - 1 := by omega
      have hended : streamOf (result :: script) = [] → False := fun hnil => by
        rw [hnil, List.append_nil] at hj
        exact hnone j hj.1
      cases result with
      | eagain =>
          obtain ⟨c', actions, before, bytes, rest, hrun, heff, hsplit, hle, hend⟩ :=
            ih h hnone hcut hj hroom
          refine ⟨c', actions, .eagain :: before, bytes, rest, ?_, heff, by rw [hsplit]; rfl,
            hle, hend⟩
          rw [(process_cons env h hlt script).1, hrun]
      | error => exact (hended rfl).elim
      | closed => exact (hended rfl).elim
      | data bytes =>
          obtain ⟨-, hlen, hcut'⟩ := hcut hlt hnone
          have hstream : read ++ streamOf (.data bytes :: script) =
              (read ++ bytes) ++ streamOf script := (List.append_assoc ..).symm
          rw [hstream] at hj ⊢
          rcases process_data env h hnone hlt hlen script with
            ⟨c₁, text, hholds, hnone', hrun⟩ | ⟨c₁, text, j', hfirst, hrun⟩
          · obtain ⟨c', actions, before, bytes', rest, hrun', heff, hsplit, hle, hend⟩ :=
              ih hholds hnone' hcut' hj hroom
            refine ⟨c', .print text :: actions, .data bytes :: before, bytes', rest, ?_, heff,
              by rw [hsplit]; rfl, ?_, ?_⟩
            · rw [hrun, hrun']
              rfl
            · simpa [streamOf] using hle
            · simpa [streamOf] using hend
          · have hlt' := hfirst.1.lt_length
            obtain rfl : j' = j := FirstPair.unique ((firstPair_append hlt').mpr hfirst) hj
            refine ⟨c₁, .print text :: request env (fileName (read ++ bytes) j'), [], bytes,
              script, hrun, ?_, rfl, by simpa [streamOf] using hread, ?_⟩
            · have hname : fileName ((read ++ bytes) ++ streamOf script) j' =
                  fileName (read ++ bytes) j' := by
                rw [fileName, List.take_append_of_le_length (by omega), fileName]
              rw [hname]
              exact effects_request _
            · rw [List.length_append] at hlt'
              simpa [streamOf] using hlt'

/-- **The stream has no request** that fits, or ends before one. The induction is on the results
of `recv`, as in `process_finds`. A CR LF within a chunk that is stored would fit. -/
theorem process_gives_up (script : List RecvResult) :
    ∀ {c : CgiConn} {read : List UInt8}, Holds c read → (∀ k, ¬ PairAt CR LF read k) →
      Cut read script →
      (∀ j, j + 1 ≤ BUFFER_SIZE - 1 → ¬ PairAt CR LF (read ++ streamOf script) j) →
      BUFFER_SIZE - 1 ≤ (read ++ streamOf script).length ∨ closes script = true →
      ∃ c' actions rest, process env c script = some ⟨c', actions, rest, true⟩ ∧
        effects actions = [.removefd] := by
  induction script with
  | nil =>
      intro c read h hnone _ _ hend
      have hfull : BUFFER_SIZE - 1 ≤ read.length := by simpa [streamOf, closes] using hend
      exact ⟨c, _, [], process_full env h hfull [], rfl⟩
  | cons result script ih =>
      intro c read h hnone hcut hno hend
      rcases Nat.lt_or_ge read.length (BUFFER_SIZE - 1) with hlt | hfull
      · obtain ⟨heagain, herror, hclosed⟩ := process_cons env h hlt script
        cases result with
        | eagain =>
            rw [heagain]
            exact ih h hnone hcut hno hend
        | error => exact ⟨c, _, script, herror, rfl⟩
        | closed => exact ⟨c, _, script, hclosed, rfl⟩
        | data bytes =>
            obtain ⟨-, hlen, hcut'⟩ := hcut hlt hnone
            have hstream : read ++ streamOf (.data bytes :: script) =
                (read ++ bytes) ++ streamOf script := (List.append_assoc ..).symm
            rw [hstream] at hno hend
            rcases process_data env h hnone hlt hlen script with
              ⟨c₁, text, hholds, hnone', hrun⟩ | ⟨c₁, text, j, hfirst, -⟩
            · obtain ⟨c', actions, rest, hrun', heff⟩ := ih hholds hnone' hcut' hno hend
              refine ⟨c', .print text :: actions, rest, ?_, heff⟩
              rw [hrun, hrun']
              rfl
            · have hlt' := hfirst.1.lt_length
              refine absurd ((pairAt_append hlt').mpr hfirst.1) (hno j ?_)
              rw [List.length_append] at hlt'
              omega
      · exact ⟨c, _, _, process_full env h hfull _, rfl⟩

/-- **The request does not depend on how the stream is cut.** If the first CR LF of the
stream ends within the first `BUFFER_SIZE - 1` bytes, then `process` returns on the chunk
that completes it, having looked up the name in front of it, launched it if that is
possible, and removed the connection. If these bytes hold no CR LF, or the peer closes before
one, it removes the connection and does nothing else. -/
theorem process_extracts_request (env : Env) (script : List RecvResult)
    (hcut : Cut [] script) :
    (∀ j, FirstPair CR LF (streamOf script) j → j + 1 ≤ BUFFER_SIZE - 1 →
      ∃ c actions before bytes rest,
        process env init script = some ⟨c, actions, rest, true⟩ ∧
        effects actions = request env (fileName (streamOf script) j) ∧
        script = before ++ .data bytes :: rest ∧ (streamOf before).length ≤ j ∧
        j < (streamOf before).length + bytes.length) ∧
    ((∀ j, j + 1 ≤ BUFFER_SIZE - 1 → ¬ PairAt CR LF (streamOf script) j) →
      BUFFER_SIZE - 1 ≤ (streamOf script).length ∨ closes script = true →
      ∃ c actions rest, process env init script = some ⟨c, actions, rest, true⟩ ∧
        effects actions = [.removefd]) := by
  have hnone : ∀ k, ¬ PairAt CR LF ([] : List UInt8) k := fun k hk => nomatch hk.2.2
  exact ⟨fun j hj hroom => process_finds script holds_init hnone hcut hj hroom,
    fun hno hend => process_gives_up script holds_init hnone hcut hno hend⟩

/-- A CR LF cut in two by the end of a chunk, after a lone LF, with an `EAGAIN` in
between. -/
theorem process_extracts_request_example :
    (∀ j, FirstPair CR LF
        (streamOf [.data [97, LF, CR], .eagain, .data [LF, 98], .closed]) j →
      j + 1 ≤ BUFFER_SIZE - 1 →
      ∃ c actions before bytes rest,
        process ⟨fun _ => true, true⟩ init
            [.data [97, LF, CR], .eagain, .data [LF, 98], .closed] =
          some ⟨c, actions, rest, true⟩ ∧
        effects actions = request ⟨fun _ => true, true⟩
          (fileName (streamOf [.data [97, LF, CR], .eagain, .data [LF, 98], .closed]) j) ∧
        [.data [97, LF, CR], .eagain, .data [LF, 98], .closed] =
          before ++ .data bytes :: rest ∧
        (streamOf before).length ≤ j ∧ j < (streamOf before).length + bytes.length) ∧
    ((∀ j, j + 1 ≤ BUFFER_SIZE - 1 → ¬ PairAt CR LF
        (streamOf [.data [97, LF, CR], .eagain, .data [LF, 98], .closed]) j) →
      BUFFER_SIZE - 1 ≤
          (streamOf [.data [97, LF, CR], .eagain, .data [LF, 98], .closed]).length ∨
        closes [.data [97, LF, CR], .eagain, .data [LF, 98], .closed] = true →
      ∃ c actions rest,
        process ⟨fun _ => true, true⟩ init
            [.data [97, LF, CR], .eagain, .data [LF, 98], .closed] =
          some ⟨c, actions, rest, true⟩ ∧ effects actions = [.removefd]) :=
  process_extracts_request _ _
    (fun _ _ => ⟨by decide, by decide, fun _ _ => ⟨by decide, by decide, trivial⟩⟩)

end LinuxNetwork.CgiConn

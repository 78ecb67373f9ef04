import Mathlib.Algebra.Group.Int.Defs
import LinuxNetwork.CgiConnRequest
import LinuxNetwork.RawMemory
import LinuxNetwork.Transition

/-!
# The Buffer of a CGI Connection

The checked accesses of `CgiConn` fail outside of the buffer. Here the same code runs on raw memory:
`m_buf` is an address, and its indices are integers that may leave it in either direction. A
`Footprint` keeps every index that is read or written, every length that `recv` is asked for, and
the memory behind every pointer that is handed out as a string. `recv` takes the length as a
`size_t`: a negative one would be a huge one.

The index `m_read_idx` stays behind in the connection when `process` returns, and the next call goes
on from it. So the states are those of any sequence of calls, iteration by iteration, and a
connection may be initialized again between two calls.

## Main definitions

* `Raw.iteration`: one iteration of the loop of `process` on raw memory.
* `Raw.InBounds`: the index is in the buffer, and from it on the buffer holds NUL bytes.
* `Footprint.Within`: nothing that was done leaves the buffer.

## Main results

* `Raw.InBounds.iteration`: what an iteration does to the buffer.
* `process_inBounds`: the buffer in all sequences of calls.
* `process_cons_iteration`: on the buffer, the iteration is that of the checked `process`.
-/

open Transition RawMemory

namespace LinuxNetwork.CgiConn

/-! ### The loop on raw memory -/

/-- What was done with the buffer: the lengths that `recv` was asked for, the indices that were read
or written, and the memory behind the pointers that were handed out as strings. -/
structure Footprint where
  asked : List ℤ
  accesses : List ℤ
  strings : List (ℤ → UInt8)

/-- One thing after another. -/
def Footprint.append (f g : Footprint) : Footprint where
  asked := f.asked ++ g.asked
  accesses := f.accesses ++ g.accesses
  strings := f.strings ++ g.strings

/-- The memory around the field `m_buf`, by the index relative to its start, and the field
`m_read_idx`. -/
structure Raw where
  mem : ℤ → UInt8
  readIdx : ℤ

namespace Raw

/-- How an iteration of the loop of `process` ends. -/
structure Iteration where
  conn : Raw
  footprint : Footprint
  actions : List Action
  returned : Bool

/-- `init()` -/
def init (c : Raw) : Raw where
  mem := fill c.mem 0 BUFFER_SIZE 0
  readIdx := 0

/-- The `memset` of `init`. -/
def initFootprint : Footprint where
  asked := []
  accesses := indices 0 BUFFER_SIZE
  strings := []

/-- The length that `recv` is asked for. -/
def asked (c : Raw) : ℤ :=
  (BUFFER_SIZE : ℤ) - 1 - c.readIdx

/-- The indices that are read of a string in the buffer. One that does not end inside is read beyond
the buffer. -/
def readString (mem : ℤ → UInt8) : List ℤ :=
  stringIndices mem (BUFFER_SIZE + 1) 0

/-- The `for` loop that looks for the end of the request line, over `n` indices from `idx` on: where
it ends, and what it reads. -/
def scanLoop (mem : ℤ → UInt8) : ℕ → ℤ → ℤ × List ℤ
  | 0, idx => (idx, [])
  | n + 1, idx =>
      let rest := scanLoop mem n (idx + 1)
      if 1 ≤ idx then
        if mem (idx - 1) = CR then
          if mem idx = LF then (idx, [idx - 1, idx])
          else (rest.1, (idx - 1) :: idx :: rest.2)
        else (rest.1, (idx - 1) :: rest.2)
      else rest

/-- What happens to a complete request: `m_buf[idx - 1] = '\0'`, the lookup, and the launch. The two
arguments of `execl` are the same string. -/
def serve (env : Env) (mem : ℤ → UInt8) (idx : ℤ) : (ℤ → UInt8) × Footprint × List Action :=
  let cut := RawMemory.store mem (idx - 1) [0]
  let fileName := string cut BUFFER_SIZE 0
  if env.access fileName then
    if env.fork then
      (cut, ⟨[], (idx - 1) :: (readString cut ++ readString cut), [cut, cut]⟩,
        [.access fileName, .fork, .execl fileName, .removefd])
    else
      (cut, ⟨[], (idx - 1) :: readString cut, [cut]⟩, [.access fileName, .fork, .removefd])
  else (cut, ⟨[], (idx - 1) :: readString cut, [cut]⟩, [.access fileName, .removefd])

/-- One iteration of the `while (true)` loop of `process()`. -/
def iteration (env : Env) (c : Raw) : RecvResult → Iteration
  | .eagain => ⟨c, ⟨[c.asked], [], []⟩, [], false⟩
  | .error => ⟨c, ⟨[c.asked], [], []⟩, [.removefd], true⟩
  | .closed => ⟨c, ⟨[c.asked], [], []⟩, [.removefd], true⟩
  | .data bytes =>
      let mem := RawMemory.store c.mem c.readIdx bytes
      let readIdx := c.readIdx + bytes.length
      let text := string mem BUFFER_SIZE 0
      let scan := scanLoop mem bytes.length c.readIdx
      let footprint : Footprint :=
        ⟨[c.asked], indices c.readIdx bytes.length ++ readString mem ++ scan.2, [mem]⟩
      if scan.1 = readIdx then ⟨⟨mem, readIdx⟩, footprint, [.print text], false⟩
      else
        let served := serve env mem scan.1
        ⟨⟨served.1, readIdx⟩, footprint.append served.2.1, .print text :: served.2.2, true⟩

end Raw

/-! ### Sequences of calls -/

/-- A connection, whether `process` is in its loop, and what was done with the buffer so far. -/
structure State where
  conn : Raw
  inProcess : Bool
  footprint : Footprint

inductive Move where
  | init
  | process
  /-- `process` goes through its loop, with these answers of the system. -/
  | iterate (env : Env) (result : RecvResult)

/-- A move, if it is possible. -/
def move (s : State) : Move → Option State
  | .init =>
      if s.inProcess then none
      else some { s with conn := s.conn.init, footprint := s.footprint.append Raw.initFootprint }
  | .process => if s.inProcess then none else some { s with inProcess := true }
  | .iterate env result =>
      if s.inProcess then
        let it := s.conn.iteration env result
        some ⟨it.conn, !it.returned, s.footprint.append it.footprint⟩
      else none

/-- The calls on a connection, which begin with `init` on whatever memory there is. -/
def calls : System State Move where
  init s := ∃ c : Raw, s = ⟨c.init, false, Raw.initFootprint⟩
  step := move

/-- `recv` returns at most the length it is asked for, as a `size_t`. -/
def AtMost (asked : ℤ) : RecvResult → Prop
  | .data bytes => bytes ≠ [] ∧ (bytes.length : ℤ) ≤ asked % 2 ^ 64
  | .eagain => True
  | .error => True
  | .closed => True

/-- The kernel keeps to the length. -/
def Permitted (s : State) : Move → Prop
  | .iterate _ result => AtMost s.conn.asked result
  | .init => True
  | .process => True

instance (asked : ℤ) : (result : RecvResult) → Decidable (AtMost asked result)
  | .data bytes => inferInstanceAs (Decidable (bytes ≠ [] ∧ (bytes.length : ℤ) ≤ asked % 2 ^ 64))
  | .eagain => isTrue trivial
  | .error => isTrue trivial
  | .closed => isTrue trivial

instance (s : State) : (m : Move) → Decidable (Permitted s m)
  | .iterate _ result => inferInstanceAs (Decidable (AtMost s.conn.asked result))
  | .init => isTrue trivial
  | .process => isTrue trivial

/-! ### The buffer -/

/-- The index is in the buffer, with room for a terminator, and from it on the buffer holds NUL
bytes. -/
structure Raw.InBounds (c : Raw) : Prop where
  nonneg : 0 ≤ c.readIdx
  le : c.readIdx ≤ (BUFFER_SIZE : ℤ) - 1
  nul : ∀ i, c.readIdx ≤ i → i < BUFFER_SIZE → c.mem i = 0

/-- Nothing that was done leaves the buffer: no length is negative, every index is in the buffer,
and every string ends in it. -/
structure Footprint.Within (f : Footprint) : Prop where
  asked : ∀ length ∈ f.asked, 0 ≤ length
  accesses : ∀ i ∈ f.accesses, 0 ≤ i ∧ i < BUFFER_SIZE
  strings : ∀ mem ∈ f.strings, Terminated BUFFER_SIZE mem

variable {env : Env} {c : Raw} {f g : Footprint} {s t : State} {bytes : List UInt8}
  {mem : ℤ → UInt8} {i idx : ℤ} {n : ℕ}

/-- A length that is not negative means the same as a `size_t`, so `recv` returns no more bytes
than were asked for. -/
theorem AtMost.length_le {asked : ℤ} (h : AtMost asked (.data bytes)) (hasked : 0 ≤ asked) :
    (bytes.length : ℤ) ≤ asked := by
  have hlen : (bytes.length : ℤ) ≤ asked % 2 ^ 64 := h.2
  omega

/-- What is done within the buffer, one thing after another, is done within it. -/
theorem Footprint.Within.append (hf : f.Within) (hg : g.Within) : (f.append g).Within where
  asked length h := (List.mem_append.mp h).elim (hf.asked length) (hg.asked length)
  accesses i h := (List.mem_append.mp h).elim (hf.accesses i) (hg.accesses i)
  strings mem h := (List.mem_append.mp h).elim (hf.strings mem) (hg.strings mem)

namespace Raw

/-- `init` fills the buffer by `memset` and touches nothing outside of it. -/
theorem within_initFootprint : initFootprint.Within where
  asked := nofun
  accesses i hi := by simpa using mem_indices.mp hi
  strings := nofun

/-- The index of a new connection is at the start, and its buffer is filled with NUL bytes. -/
theorem inBounds_init (c : Raw) : c.init.InBounds where
  nonneg := Int.le_refl 0
  le := show (0 : ℤ) ≤ BUFFER_SIZE - 1 by decide
  nul i hle hlt := fill_of_mem hle (by omega)

/-- A string at the start of the buffer ends in front of the old index, or there, since NUL
bytes stand from the index on. -/
theorem InBounds.terminated (h : c.InBounds) : Terminated BUFFER_SIZE c.mem := by
  have hlt : c.readIdx < BUFFER_SIZE := Int.lt_of_le_sub_one h.le
  exact ⟨c.readIdx, h.nonneg, hlt, h.nul _ (Int.le_refl _) hlt⟩

/-- **The bytes of `recv`** move the index, and leave the NUL bytes behind it alone. -/
theorem InBounds.store (h : c.InBounds) (hlen : (bytes.length : ℤ) ≤ c.asked) :
    InBounds ⟨RawMemory.store c.mem c.readIdx bytes, c.readIdx + bytes.length⟩ where
  nonneg := Int.add_nonneg h.nonneg (Int.natCast_nonneg _)
  le := Int.add_le_of_le_sub_left hlen
  nul i hle hlt := by
    have hold : c.readIdx ≤ i :=
      Int.le_trans (Int.le_add_of_nonneg_right (Int.natCast_nonneg _)) hle
    exact (store_of_not_mem (.inr hle)).trans (h.nul i hold hlt)

/-- **The terminator of the name** goes in front of the index, and neither moves it nor touches
the NUL bytes behind it. -/
theorem InBounds.cut (h : c.InBounds) (hidx : idx < c.readIdx) :
    InBounds ⟨RawMemory.store c.mem (idx - 1) [0], c.readIdx⟩ where
  nonneg := h.nonneg
  le := h.le
  nul i hle hlt := by
    have hold : c.readIdx ≤ i := hle
    have hbehind : idx - 1 + ([0] : List UInt8).length ≤ i := by
      rw [List.length_singleton]
      omega
    exact (store_of_not_mem (.inr hbehind)).trans (h.nul i hold hlt)

/-- Accesses at indices of the buffer are within it, where no string is handed out and `recv` is
not called. -/
theorem within_accesses {accesses : List ℤ} (h : ∀ i ∈ accesses, 0 ≤ i ∧ i < BUFFER_SIZE) :
    Footprint.Within ⟨[], accesses, []⟩ where
  asked := nofun
  accesses := h
  strings := nofun

/-- A string that ends in the buffer is read in it, by whatever system call gets it. -/
theorem within_readString (h : Terminated BUFFER_SIZE mem) :
    Footprint.Within ⟨[], readString mem, [mem]⟩ where
  asked := nofun
  accesses _ hi := h.of_mem_stringIndices hi
  strings _ hmem := List.mem_singleton.mp hmem ▸ h

/-- **The search** ends behind all bytes, or at an index with one in front of it; it looks back by
one, but not from the start of the buffer. -/
theorem scanLoop_spec (mem : ℤ → UInt8) (n : ℕ) (idx : ℤ) :
    (scanLoop mem n idx).1 ≤ idx + n ∧
      ((scanLoop mem n idx).1 ≠ idx + n → 1 ≤ (scanLoop mem n idx).1) ∧
      ∀ i ∈ (scanLoop mem n idx).2, 0 ≤ i ∧ i < idx + n := by
  induction n generalizing idx with
  | zero =>
      refine ⟨by simp [scanLoop], fun h => absurd ?_ h, nofun⟩
      simp [scanLoop]
  | succ n ih =>
      obtain ⟨hle, hpos, hread⟩ := ih (idx + 1)
      have hread' : ∀ i ∈ (scanLoop mem n (idx + 1)).2, 0 ≤ i ∧ i < idx + (n + 1 : ℕ) :=
        fun i hi => by
          have := hread i hi
          omega
      by_cases hidx : 1 ≤ idx
      · by_cases hprev : mem (idx - 1) = CR
        · by_cases hlf : mem idx = LF
          · rw [scanLoop, if_pos hidx, if_pos hprev, if_pos hlf]
            dsimp only
            refine ⟨by omega, fun _ => hidx, fun i hi => ?_⟩
            simp only [List.mem_cons, List.not_mem_nil, or_false] at hi
            omega
          · rw [scanLoop, if_pos hidx, if_pos hprev, if_neg hlf]
            dsimp only
            refine ⟨by omega, fun h => hpos (by omega), fun i hi => ?_⟩
            simp only [List.mem_cons] at hi
            rcases hi with rfl | rfl | hi
            · omega
            · omega
            · exact hread' i hi
        · rw [scanLoop, if_pos hidx, if_neg hprev]
          dsimp only
          refine ⟨by omega, fun h => hpos (by omega), fun i hi => ?_⟩
          simp only [List.mem_cons] at hi
          rcases hi with rfl | hi
          · omega
          · exact hread' i hi
      · rw [scanLoop, if_neg hidx]
        exact ⟨by omega, fun h => hpos (by omega), hread'⟩

/-- **A complete request** is served inside of the buffer. `access` reads the name, and `execl`
reads it once more in the new process. -/
theorem InBounds.serve (env : Env) (h : c.InBounds) (hpos : 1 ≤ idx) (hidx : idx < c.readIdx) :
    InBounds ⟨(serve env c.mem idx).1, c.readIdx⟩ ∧ (serve env c.mem idx).2.1.Within := by
  have hcut := h.cut hidx
  have hle := h.le
  have hwrite : Footprint.Within ⟨[], [idx - 1], []⟩ := within_accesses fun i hi => by
    rw [List.mem_singleton.mp hi]
    omega
  have hname := within_readString hcut.terminated
  have hone := hwrite.append hname
  have htwo := hone.append hname
  rw [Raw.serve]
  split
  · split
    · exact ⟨hcut, htwo⟩
    · exact ⟨hcut, hone⟩
  · exact ⟨hcut, hone⟩

/-- **An iteration** keeps the index in the buffer and the NUL bytes behind it, and does nothing
outside of the buffer. -/
theorem InBounds.iteration (env : Env) (h : c.InBounds) {result : RecvResult}
    (hresult : AtMost c.asked result) :
    (c.iteration env result).conn.InBounds ∧ (c.iteration env result).footprint.Within := by
  have hle := h.le
  have hnonneg := h.nonneg
  have hasked : 0 ≤ c.asked := by
    rw [asked]
    omega
  have hcall : Footprint.Within ⟨[c.asked], [], []⟩ :=
    ⟨fun length hlength => List.mem_singleton.mp hlength ▸ hasked, nofun, nofun⟩
  cases result with
  | eagain => exact ⟨h, hcall⟩
  | error => exact ⟨h, hcall⟩
  | closed => exact ⟨h, hcall⟩
  | data bytes =>
      have hstored := h.store (hresult.length_le hasked)
      have hend : c.readIdx + bytes.length ≤ (BUFFER_SIZE : ℤ) - 1 := hstored.le
      obtain ⟨hscan, hpos, hread⟩ :=
        scanLoop_spec (RawMemory.store c.mem c.readIdx bytes) bytes.length c.readIdx
      have hwrite : Footprint.Within ⟨[], indices c.readIdx bytes.length, []⟩ :=
        within_accesses fun i hi => by
          have := mem_indices.mp hi
          omega
      have hprint := within_readString hstored.terminated
      have hsearch : Footprint.Within ⟨[], (scanLoop (RawMemory.store c.mem c.readIdx bytes)
          bytes.length c.readIdx).2, []⟩ := within_accesses fun i hi => by
        have := hread i hi
        omega
      have hwithin := ((hcall.append hwrite).append hprint).append hsearch
      rw [Raw.iteration]
      dsimp only
      split
      case isTrue => exact ⟨hstored, hwithin⟩
      case isFalse hne =>
          have hinside := Int.lt_iff_le_and_ne.mpr ⟨hscan, hne⟩
          have hserved := hstored.serve env (hpos hne) hinside
          exact ⟨hserved.1, hwithin.append hserved.2⟩

end Raw

/-! ### All sequences of calls -/

/-- **A move** keeps the buffer in bounds, and what was done within. The moves are the beginning
of a call and its iterations. -/
theorem inBounds_step {m : Move} (h : s.conn.InBounds ∧ s.footprint.Within) (hm : Permitted s m)
    (hstep : calls.step s m = some t) : t.conn.InBounds ∧ t.footprint.Within := by
  cases m with
  | init =>
      obtain ⟨-, hstep⟩ := Option.ite_none_left_eq_some.mp hstep
      obtain rfl := Option.some.inj hstep
      exact ⟨Raw.inBounds_init _, h.2.append Raw.within_initFootprint⟩
  | process =>
      obtain ⟨-, hstep⟩ := Option.ite_none_left_eq_some.mp hstep
      obtain rfl := Option.some.inj hstep
      exact h
  | iterate env result =>
      obtain ⟨-, hstep⟩ := Option.ite_none_right_eq_some.mp hstep
      obtain rfl := Option.some.inj hstep
      have hit := h.1.iteration env hm
      exact ⟨hit.1, h.2.append hit.2⟩

/-- **The buffer is always within bounds and NUL-terminated.** In every sequence of calls after
`init`, whatever `recv` returns of at most the length it is asked for, the index is in the buffer
before every iteration and the buffer holds NUL bytes from it on, no length is negative, every index
that is read or written is in the buffer, and every string that is handed out ends in it. -/
theorem process_inBounds (h : calls.ReachableWhile Permitted s) :
    s.conn.InBounds ∧ s.footprint.Within := by
  have hinv : calls.Inductive Permitted fun s => s.conn.InBounds ∧ s.footprint.Within := by
    refine ⟨?_, fun s m t hs hm hstep => inBounds_step hs hm hstep⟩
    rintro s ⟨c, rfl⟩
    exact ⟨Raw.inBounds_init c, Raw.within_initFootprint⟩
  exact hinv.holds h

/-- A request in two chunks that cut the CR LF in two, and another call, in which the peer
closes. -/
theorem process_inBounds_example :
    ∃ s, (calls.ReachableWhile Permitted s ∧ s.inProcess = false ∧ s.conn.readIdx = 4 ∧
        s.footprint.asked = [1023, 1021, 1019, 1019]) ∧
      s.conn.InBounds ∧ s.footprint.Within := by
  have hinit : calls.ReachableWhile Permitted
      ⟨Raw.init ⟨fun _ => 1, 7⟩, false, Raw.initFootprint⟩ := .init ⟨_, rfl⟩
  obtain ⟨s, hs, hp⟩ := System.exists_reachableWhile hinit
    [.process, .iterate ⟨fun _ => true, true⟩ (.data [97, CR]),
      .iterate ⟨fun _ => true, true⟩ (.data [LF, 98]), .process,
      .iterate ⟨fun _ => true, true⟩ .eagain, .iterate ⟨fun _ => true, true⟩ .closed]
    (fun s => !s.inProcess && decide (s.conn.readIdx = 4) &&
      decide (s.footprint.asked = [1023, 1021, 1019, 1019])) (by decide +kernel)
  simp only [Bool.and_eq_true, Bool.not_eq_true', decide_eq_true_eq] at hp
  exact ⟨s, ⟨hs, hp.1.1, hp.1.2, hp.2⟩, process_inBounds hs⟩

/-! ### The checked loop -/

/-- The raw memory holds the buffer of the connection. -/
structure Represents (c : CgiConn) (r : Raw) : Prop where
  buf : c.buf = view r.mem 0 BUFFER_SIZE
  readIdx : r.readIdx = c.readIdx

/-- A store in the buffer is a store on raw memory, as long as its bytes end within the buffer. -/
theorem store_view {k : ℕ} (h : k + bytes.length ≤ BUFFER_SIZE) :
    store (view mem 0 BUFFER_SIZE) k bytes =
      some (view (RawMemory.store mem k bytes) 0 BUFFER_SIZE) := by
  rw [store, length_view, if_pos h, view_store h]

/-- The string in the buffer is the string on raw memory, if that ends within the buffer. -/
theorem cString_view (h : Terminated BUFFER_SIZE mem) :
    cString (view mem 0 BUFFER_SIZE) = some (string mem BUFFER_SIZE 0) := by
  rw [cString, if_pos h.mem_view, string_eq_takeWhile]

/-- The search in the buffer is the search on raw memory, as long as it stays within the buffer.
Induction on the number of bytes left to search. -/
theorem scanLoop_view (mem : ℤ → UInt8) {n idx : ℕ} (h : idx + n ≤ BUFFER_SIZE) :
    ∃ j : ℕ, scanLoop (view mem 0 BUFFER_SIZE) n idx = some j ∧
      (Raw.scanLoop mem n idx).1 = j := by
  induction n generalizing idx with
  | zero => exact ⟨idx, rfl, rfl⟩
  | succ n ih =>
      have hle : idx + 1 + n ≤ BUFFER_SIZE := by omega
      obtain ⟨j, hj, hrest⟩ := ih hle
      have hcur : (view mem 0 BUFFER_SIZE)[idx]? = some (mem idx) := by
        rw [getElem?_view (by omega), Int.zero_add]
      rw [Int.natCast_succ] at hrest
      rw [scanLoop, Raw.scanLoop]
      by_cases hidx : 1 ≤ idx
      · have hprev : (view mem 0 BUFFER_SIZE)[idx - 1]? = some (mem (idx - 1)) := by
          rw [getElem?_view (by omega), Int.zero_add]
          congr 2
          omega
        rw [if_pos hidx, if_pos (by omega), hprev, hcur]
        simp only [Option.bind_eq_bind, Option.bind_some]
        split
        · split
          · exact ⟨idx, rfl, rfl⟩
          · exact ⟨j, hj, hrest⟩
        · exact ⟨j, hj, hrest⟩
      · rw [if_neg hidx, if_neg (by omega)]
        exact ⟨j, hj, hrest⟩

/-- What happens to a complete request in the buffer is what happens on raw memory: the same
terminator is written, and the same actions follow. -/
theorem serve_view (env : Env) {idx : ℕ} (hpos : 1 ≤ idx) (hidx : idx ≤ BUFFER_SIZE)
    (h : Terminated BUFFER_SIZE (RawMemory.store mem (idx - 1) [0])) :
    serve env (view mem 0 BUFFER_SIZE) idx =
      some (view (Raw.serve env mem idx).1 0 BUFFER_SIZE, (Raw.serve env mem idx).2.2) := by
  have hcast : ((idx - 1 : ℕ) : ℤ) = (idx : ℤ) - 1 := by omega
  have hfits : idx - 1 + ([0] : List UInt8).length ≤ BUFFER_SIZE := by
    rw [List.length_singleton]
    omega
  have hstore : store (view mem 0 BUFFER_SIZE) (idx - 1) [0] = _ := store_view hfits
  rw [hcast] at hstore
  simp only [serve, Raw.serve, hstore, cString_view h, Option.bind_eq_bind, Option.bind_some]
  split
  · split <;> rfl
  · rfl

/-- **The checked loop** does on the buffer what the code does on raw memory: it goes through an
iteration with the same actions, and then returns or goes on as the iteration says. -/
theorem process_cons_iteration {c : CgiConn} {r : Raw} {result : RecvResult} (env : Env)
    (hrep : Represents c r) (h : r.InBounds) (hroom : 0 < r.asked) (hresult : AtMost r.asked result)
    (script : List RecvResult) :
    ∃ c', Represents c' (r.iteration env result).conn ∧
      process env c (result :: script) =
        if (r.iteration env result).returned then
          some ⟨c', (r.iteration env result).actions, script, true⟩
        else (process env c' script).map fun o =>
          { o with actions := (r.iteration env result).actions ++ o.actions } := by
  have hasked : c.asked = r.asked := by rw [asked, Raw.asked, hrep.readIdx]
  have hneg : ¬ c.asked < 0 := by omega
  have hne : ¬ c.asked = 0 := by omega
  cases result with
  | eagain =>
      refine ⟨c, hrep, ?_⟩
      rw [process, if_neg hneg, if_neg hne]
      exact Option.map_id'.symm
  | error => exact ⟨c, hrep, by rw [process, if_neg hneg, if_neg hne]; rfl⟩
  | closed => exact ⟨c, hrep, by rw [process, if_neg hneg, if_neg hne]; rfl⟩
  | data bytes =>
      have hstored := h.store (hresult.length_le (Int.le_of_lt hroom))
      have hend : r.readIdx + bytes.length ≤ (BUFFER_SIZE : ℤ) - 1 := hstored.le
      obtain ⟨mem, readIdx⟩ := r
      obtain ⟨hbuf, hidx⟩ := hrep
      obtain rfl : readIdx = c.readIdx := hidx
      dsimp only at hstored hend
      have hfits : c.readIdx + bytes.length ≤ BUFFER_SIZE := by omega
      have hstore : store (view mem 0 BUFFER_SIZE) c.readIdx bytes = _ := store_view hfits
      obtain ⟨j, hscan, hj⟩ := scanLoop_view (RawMemory.store mem c.readIdx bytes) hfits
      obtain ⟨hle, hpos, -⟩ :=
        Raw.scanLoop_spec (RawMemory.store mem c.readIdx bytes) bytes.length c.readIdx
      rw [process, if_neg hneg, if_neg hne]
      simp only [hbuf, hstore, cString_view hstored.terminated, hscan, Option.bind_eq_bind,
        Option.bind_some]
      by_cases hfound : j = c.readIdx + bytes.length
      · -- the search has seen all bytes
        rw [if_pos hfound]
        refine ⟨⟨view (RawMemory.store mem c.readIdx bytes) 0 BUFFER_SIZE,
          c.readIdx + bytes.length⟩, ?_⟩
        rw [Raw.iteration]
        simp only
        rw [if_pos (by omega)]
        refine ⟨⟨rfl, rfl⟩, ?_⟩
        cases process env ⟨view (RawMemory.store mem c.readIdx bytes) 0 BUFFER_SIZE,
          c.readIdx + bytes.length⟩ script <;> rfl
      · -- the chunk completes the request
        rw [if_neg hfound]
        have hinside : (j : ℤ) < c.readIdx + bytes.length := by omega
        have hserve := serve_view env (by omega) (by omega) (hstored.cut hinside).terminated
        refine ⟨⟨view (Raw.serve env (RawMemory.store mem c.readIdx bytes) j).1 0 BUFFER_SIZE,
          c.readIdx + bytes.length⟩, ?_⟩
        rw [Raw.iteration]
        simp only
        rw [if_neg (by omega), hj, hserve]
        exact ⟨⟨rfl, rfl⟩, rfl⟩

end LinuxNetwork.CgiConn

import Mathlib.Data.Int.Notation
import LinuxNetwork.Socket

/-!
# A Connection of the CGI Server

This module embeds the class `cgi_conn` of `linux_server/cpt_15_3.h`: a connection that
reads a request line into a buffer of fixed size, looks up the file it names and launches
it.

What `recv` returns, call by call, is input, except that it returns 0 when it is asked for
0 bytes; so are the answers of `access` and `fork`. The buffer is accessed with checked
indices, a string in it has to end inside it, and a negative length is no length: where the
source would leave the buffer, a function returns `none`.

## Main definitions

* `CgiConn.scanLoop`: the search for the end of the request line.
* `CgiConn.process`: the loop of `process`, as far as it gets with the given results of
  `recv`.
-/

namespace LinuxNetwork

/-- The character `'\r'`. -/
def CR : UInt8 := 13

/-- The character `'\n'`. -/
def LF : UInt8 := 10

/-- The fields `m_buf` and `m_read_idx` of a connection. -/
structure CgiConn where
  buf : List UInt8
  readIdx : ℕ
deriving DecidableEq, Repr

namespace CgiConn

/-- `BUFFER_SIZE` -/
def BUFFER_SIZE : ℕ := 1024

/-- What `process` does that others can notice. -/
inductive Action where
  /-- `printf` of the buffer -/
  | print (text : List UInt8)
  /-- `access(name, F_OK)` -/
  | access (name : List UInt8)
  | fork
  /-- `execl(name, name, NULL)` in the forked process -/
  | execl (name : List UInt8)
  /-- `removefd(m_epollfd, m_sockfd)` -/
  | removefd
deriving DecidableEq, Repr

/-- The answers of the system: which files `access` finds, and whether `fork` succeeds. -/
structure Env where
  access : List UInt8 → Bool
  fork : Bool

/-- How far `process` gets: the connection, what it did, the results of `recv` that it did
not ask for, and whether it returned or is about to call `recv` once more. -/
structure Result where
  conn : CgiConn
  actions : List Action
  rest : List RecvResult
  returned : Bool
deriving DecidableEq, Repr

/-- `init()` -/
def init : CgiConn where
  buf := List.replicate BUFFER_SIZE 0
  readIdx := 0

/-- The bytes that `recv` stores in the buffer from an index on. -/
def store (buf : List UInt8) (idx : ℕ) (bytes : List UInt8) : Option (List UInt8) :=
  if idx + bytes.length ≤ buf.length then
    some (buf.take idx ++ bytes ++ buf.drop (idx + bytes.length))
  else none

/-- The string in the buffer. -/
def cString (buf : List UInt8) : Option (List UInt8) :=
  if 0 ∈ buf then some (buf.takeWhile fun byte => decide (byte ≠ 0)) else none

/-- The `for` loop that looks for the end of the request line, over `n` indices from `idx`
on. -/
def scanLoop (buf : List UInt8) : ℕ → ℕ → Option ℕ
  | 0, idx => some idx
  | n + 1, idx =>
      if 1 ≤ idx then do
        let prev ← buf[idx - 1]?
        if prev = CR then do
          let byte ← buf[idx]?
          if byte = LF then some idx else scanLoop buf n (idx + 1)
        else scanLoop buf n (idx + 1)
      else scanLoop buf n (idx + 1)

/-- What happens to a complete request: `m_buf[idx - 1] = '\0'`, the lookup, and the
launch. -/
def serve (env : Env) (buf : List UInt8) (idx : ℕ) : Option (List UInt8 × List Action) := do
  let buf ← store buf (idx - 1) [0]
  let fileName ← cString buf
  if env.access fileName then
    if env.fork then some (buf, [.access fileName, .fork, .execl fileName, .removefd])
    else some (buf, [.access fileName, .fork, .removefd])
  else some (buf, [.access fileName, .removefd])

/-- The length that `recv` is asked for. -/
def asked (c : CgiConn) : ℤ :=
  (BUFFER_SIZE : ℤ) - 1 - (c.readIdx : ℤ)

/-- The `while (true)` loop of `process()`. -/
def process (env : Env) : CgiConn → List RecvResult → Option Result
  | c, [] =>
      if c.asked < 0 then none
      else if c.asked = 0 then some ⟨c, [.removefd], [], true⟩
      else some ⟨c, [], [], false⟩
  | c, result :: script =>
      if c.asked < 0 then none
      else if c.asked = 0 then some ⟨c, [.removefd], result :: script, true⟩
      else
        match result with
        | .eagain => process env c script
        | .error => some ⟨c, [.removefd], script, true⟩
        | .closed => some ⟨c, [.removefd], script, true⟩
        | .data bytes => do
            let buf ← store c.buf c.readIdx bytes
            let readIdx := c.readIdx + bytes.length
            let text ← cString buf
            let idx ← scanLoop buf bytes.length c.readIdx
            if idx = readIdx then do
              let r ← process env ⟨buf, readIdx⟩ script
              some { r with actions := .print text :: r.actions }
            else do
              let (buf, actions) ← serve env buf idx
              some ⟨⟨buf, readIdx⟩, .print text :: actions, script, true⟩

end CgiConn

end LinuxNetwork

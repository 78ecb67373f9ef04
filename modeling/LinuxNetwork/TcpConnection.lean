import LinuxNetwork.Socket

/-!
# A Connection of the Thread-Pool Server

This module embeds `TcpConnection` of `thread_pool_server.h` and `thread_pool_server.cpp`:
the loop in which a worker receives from a client and sends each chunk back. The constructor
makes the socket nonblocking, so `recv` may return `EAGAIN`, and `send` may take a part of
what it is offered or nothing.

What `recv` and `send` return, call by call, is input. `recv` is asked for one byte less than
the buffer holds; a function returns `none` where more would be stored. What the worker prints
is left out.

## Main definitions

* `TcpConnection.afterRecv`, `TcpConnection.afterSend`: the branches of the loop.
* `TcpConnection.processRequest`: the loop, as far as it gets with the given results.
-/

namespace LinuxNetwork.TcpConnection

/-- `kBufferSize` -/
def kBufferSize : ℕ := 1024

/-- `"Echo: "` -/
def echo : List UInt8 := [69, 99, 104, 111, 58, 32]

/-- `"Echo: " + request` -/
def response (request : List UInt8) : List UInt8 :=
  echo ++ request

/-- Where `processRequest` stands. -/
inductive Pc where
  /-- Before `recv`. -/
  | receiving
  /-- Before `send`. -/
  | sending (response : List UInt8)
  | returned
deriving DecidableEq, Repr

/-- The branches that follow `recv`. -/
def afterRecv : RecvResult → Option Pc
  | .data bytes =>
      if bytes.length ≤ kBufferSize - 1 then some (.sending (response bytes)) else none
  | .closed => some .returned
  | .eagain => some .receiving
  | .error => some .returned

/-- What follows `send`: a failure is printed, and the loop goes on. -/
def afterSend : SendResult → Pc
  | .sent _ => .receiving
  | .eagain | .brokenPipe | .error => .receiving

/-- How far `processRequest` gets: the bytes that the kernel took for the client, and whether
it returned or is about to call `recv` once more. -/
structure Outcome where
  taken : List UInt8
  returned : Bool
deriving DecidableEq, Repr

/-- `processRequest()`; `sends k` is the result of the `k`-th call of `send`. -/
def processRequest : (ℕ → SendResult) → List RecvResult → Option Outcome
  | _, [] => some ⟨[], false⟩
  | sends, result :: results => do
      match ← afterRecv result with
      | .receiving => processRequest sends results
      | .sending response =>
          let o ← processRequest (fun k => sends (k + 1)) results
          some { o with taken := (sends 0).taken response ++ o.taken }
      | .returned => some ⟨[], true⟩

end LinuxNetwork.TcpConnection

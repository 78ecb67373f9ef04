import Mathlib.Data.List.TakeDrop
import Mathlib.Data.Nat.Notation
import Mathlib.Tactic.Common

/-!
# Sockets

What the programs see of a socket: the results of `recv` and `send`.
-/

namespace LinuxNetwork

/-- The result of a call of `recv`. -/
inductive RecvResult where
  | data (bytes : List UInt8)
  /-- -1 with `EAGAIN` -/
  | eagain
  /-- -1 with another error -/
  | error
  /-- 0, since the peer has closed the connection -/
  | closed
deriving DecidableEq, Repr

/-- The result of a call of `send`. -/
inductive SendResult where
  /-- The kernel has taken the first bytes of those offered. -/
  | sent (count : ℕ)
  /-- -1 with `EAGAIN` -/
  | eagain
  /-- -1 with `EPIPE`, when `SIGPIPE` does not end the process -/
  | brokenPipe
  /-- -1 with another error -/
  | error
deriving DecidableEq, Repr

/-- The bytes that the kernel takes of those offered to `send`. -/
def SendResult.taken (result : SendResult) (offered : List UInt8) : List UInt8 :=
  match result with
  | .sent count => offered.take count
  | .eagain | .brokenPipe | .error => []

/-- What a nonblocking `send` may return while the peer stays connected. -/
def SendResult.Connected (result : SendResult) (offered : List UInt8) : Prop :=
  result = .eagain ∨ ∃ count, result = .sent count ∧ 1 ≤ count ∧ count ≤ offered.length

/-- No result takes more than was offered. -/
theorem SendResult.length_taken_le (result : SendResult) (offered : List UInt8) :
    (result.taken offered).length ≤ offered.length := by
  cases result with
  | sent count => exact List.length_take_le' count offered
  | eagain | brokenPipe | error => exact Nat.zero_le _

/-- A result that takes everything says so. -/
theorem SendResult.Connected.taken_eq_iff {result : SendResult} {offered : List UInt8}
    (h : result.Connected offered) (hne : offered ≠ []) :
    result.taken offered = offered ↔ result = .sent offered.length := by
  rcases h with rfl | ⟨count, rfl, -, hcount⟩
  · exact iff_of_false (fun h => hne h.symm) nofun
  · rw [SendResult.taken, List.take_eq_self_iff, SendResult.sent.injEq]
    omega

end LinuxNetwork

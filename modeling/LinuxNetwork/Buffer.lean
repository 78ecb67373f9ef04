import Mathlib.Algebra.Group.Nat.Defs
import Mathlib.Data.List.TakeDrop
import Mathlib.Data.Nat.Notation
import Mathlib.Tactic.Common

/-!
# Buffers of Bytes

A buffer is the list of its bytes. `write` and `read` access a part of it, and fail where the part
is not inside. A number is stored in some bytes, the least significant first: `bytes` are those of a
number, `value` the number of some bytes, and `words` are the numbers of 32 bits that stand one
after another.

## Main results

* `read_write`, `read_write_before`: what is read behind a write.
* `value_bytes`, `words_flatMap`: what is stored comes back.
-/

namespace Buffer

variable {buf buf' bs rest : List UInt8} {off off' len k n v : ℕ}

/-! ### Numbers -/

/-- The lowest bytes of a number. -/
def bytes : ℕ → ℕ → List UInt8
  | 0, _ => []
  | k + 1, v => UInt8.ofNat v :: bytes k (v / 256)

/-- The number of some bytes. -/
def value : List UInt8 → ℕ
  | [] => 0
  | b :: bs => b.toNat + 256 * value bs

/-- A number is stored in as many bytes as are asked for, whether or not it fits into them. -/
@[simp] theorem length_bytes (k v : ℕ) : (bytes k v).length = k := by
  induction k generalizing v with
  | zero => rfl
  | succ k ih => rw [bytes, List.length_cons, ih]

/-- The bytes of a number that fits come back as this number. Induction on the number of bytes,
lowest one first. -/
theorem value_bytes (hv : v < 256 ^ k) : value (bytes k v) = v := by
  induction k generalizing v with
  | zero =>
      rw [Nat.pow_zero, Nat.lt_one_iff] at hv
      rw [hv, bytes, value]
  | succ k ih =>
      have hdiv : v / 256 < 256 ^ k := Nat.div_lt_of_lt_mul (by rwa [Nat.pow_succ'] at hv)
      rw [bytes, value, ih hdiv, UInt8.toNat_ofNat']
      exact Nat.mod_add_div v 256

/-- The bytes of zero are zeros, so that a buffer filled by `memset` reads as zeros. -/
theorem value_replicate_zero (k : ℕ) : value (List.replicate k 0) = 0 := by
  induction k with
  | zero => rfl
  | succ k ih => rw [List.replicate_succ, value, ih]; rfl

/-- The first numbers of 32 bits in some bytes. -/
def words : ℕ → List UInt8 → List (BitVec 32)
  | 0, _ => []
  | n + 1, bs => BitVec.ofNat 32 (value (bs.take 4)) :: words n (bs.drop 4)

/-- The bytes of several numbers, one after another. -/
def bytesOf (ws : List (BitVec 32)) : List UInt8 :=
  ws.flatMap fun w => bytes 4 w.toNat

/-- An array of words takes four bytes for each of them, as the array of descriptors in a
control message does. -/
@[simp] theorem length_bytesOf (ws : List (BitVec 32)) : (bytesOf ws).length = 4 * ws.length := by
  induction ws with
  | nil => rfl
  | cons w ws ih =>
      rw [bytesOf, List.flatMap_cons, List.length_append, length_bytes, List.length_cons,
        Nat.mul_succ, Nat.add_comm 4, Nat.add_right_cancel_iff]
      exact ih

/-- **Numbers that are stored come back**, in their order. -/
theorem words_bytesOf (ws : List (BitVec 32)) : words ws.length (bytesOf ws) = ws := by
  induction ws with
  | nil => rfl
  | cons w ws ih =>
      have hw : BitVec.ofNat 32 (value (bytes 4 w.toNat)) = w := by
        rw [value_bytes w.isLt, BitVec.ofNat_toNat, BitVec.setWidth_eq]
      rw [List.length_cons, words, bytesOf, List.flatMap_cons, List.take_left' (length_bytes _ _),
        List.drop_left' (length_bytes _ _), hw]
      exact congrArg _ ih

/-- Zero bytes are zeros, four of them for each word that is read. -/
theorem words_replicate_zero (n : ℕ) : words n (List.replicate (4 * n) 0) = List.replicate n 0 := by
  induction n with
  | zero => rfl
  | succ n ih =>
      rw [words, List.take_replicate, List.drop_replicate, value_replicate_zero,
        show 4 * (n + 1) - 4 = 4 * n by omega, ih, List.replicate_succ]
      rfl

/-! ### Access -/

/-- The bytes are stored from an index on. -/
def write (buf : List UInt8) (off : ℕ) (bs : List UInt8) : Option (List UInt8) :=
  if off + bs.length ≤ buf.length then
    some (buf.take off ++ bs ++ buf.drop (off + bs.length))
  else none

/-- Some bytes from an index on. -/
def read (buf : List UInt8) (off len : ℕ) : Option (List UInt8) :=
  if off + len ≤ buf.length then some ((buf.drop off).take len) else none

/-- A write inside of the buffer succeeds; the checked write fails only past the end. -/
theorem exists_write (h : off + bs.length ≤ buf.length) : ∃ buf', write buf off bs = some buf' :=
  ⟨_, if_pos h⟩

/-- The size of a buffer does not change when it is written, so a later access is in bounds if
it was before. -/
theorem length_write (h : write buf off bs = some buf') : buf'.length = buf.length := by
  obtain ⟨hle, h⟩ := Option.ite_none_right_eq_some.mp h
  rw [← Option.some.inj h]
  simp only [List.length_append, List.length_take, List.length_drop]
  omega

/-- **What is written is read.** -/
theorem read_write (h : write buf off bs = some buf') : read buf' off bs.length = some bs := by
  obtain ⟨hle, hbuf⟩ := Option.ite_none_right_eq_some.mp h
  rw [read, length_write h, if_pos hle, ← Option.some.inj hbuf, List.append_assoc,
    List.drop_left' (List.length_take_of_le (by omega)), List.take_left]

/-- **What stands in front of a write** is kept. -/
theorem read_write_before (h : write buf off bs = some buf') (hbefore : off' + len ≤ off) :
    read buf' off' len = read buf off' len := by
  obtain ⟨hle, hbuf⟩ := Option.ite_none_right_eq_some.mp h
  have htake : (buf.take off).length = off := List.length_take_of_le (by omega)
  rw [read, read, length_write h, ← Option.some.inj hbuf, List.append_assoc,
    List.drop_append_of_le_length (by omega), List.take_append_of_le_length
      (by rw [List.length_drop]; omega), List.drop_take, List.take_take]
  rw [Nat.min_eq_left (by omega)]

/-- **What stands behind a write** is kept. -/
theorem read_write_behind (h : write buf off bs = some buf') (hbehind : off + bs.length ≤ off') :
    read buf' off' len = read buf off' len := by
  obtain ⟨hle, hbuf⟩ := Option.ite_none_right_eq_some.mp h
  have htake : (buf.take off ++ bs).length = off + bs.length := by
    rw [List.length_append, List.length_take_of_le (by omega)]
  rw [read, read, length_write h, ← Option.some.inj hbuf, List.drop_append, htake,
    List.drop_eq_nil_of_le (by omega), List.nil_append, List.drop_drop]
  rw [Nat.add_sub_cancel' hbehind]

end Buffer

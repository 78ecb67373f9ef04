import Mathlib.Data.Int.Notation
import Mathlib.Data.List.TakeDrop
import Mathlib.Tactic.Common

/-!
# Raw Memory and Strings in It

The memory around an object, by the index of each byte relative to the start of the object. An
access may name any index, also one outside of the object: that it does not is then something to
prove. A string ends at its first zero byte, wherever that is; `stringIndices` are the bytes that a
function reads which is given the string, at most `n` of them.

## Main results

* `mem_stringIndices`: what is read of a string.
* `Terminated.of_mem_stringIndices`: a string with a zero byte in the object is read inside of it.
* `view_store`: a store inside of the object, as an operation on the list of its bytes.
* `string_eq_takeWhile`: a string, read off that list.
-/

namespace RawMemory

variable {mem : ℤ → UInt8} {bytes : List UInt8} {i j : ℤ} {k n : ℕ}

/-! ### Access -/

/-- The indices of `n` bytes from `i` on. -/
def indices (i : ℤ) : ℕ → List ℤ
  | 0 => []
  | n + 1 => i :: indices (i + 1) n

/-- The bytes are stored from an index on. -/
def store (mem : ℤ → UInt8) (i : ℤ) (bytes : List UInt8) (j : ℤ) : UInt8 :=
  if i ≤ j ∧ j < i + bytes.length then bytes[(j - i).toNat]?.getD 0 else mem j

/-- The byte is stored at `n` indices from `i` on. -/
def fill (mem : ℤ → UInt8) (i : ℤ) (n : ℕ) (byte : UInt8) (j : ℤ) : UInt8 :=
  if i ≤ j ∧ j < i + n then byte else mem j

/-- The indices of a piece are those from its start on, as many as it has bytes. -/
theorem mem_indices : j ∈ indices i n ↔ i ≤ j ∧ j < i + n := by
  induction n generalizing i with
  | zero => exact iff_of_false List.not_mem_nil (by omega)
  | succ n ih =>
      rw [indices, List.mem_cons, ih]
      omega

/-- What a store leaves alone: the bytes in front of it and those behind it. -/
theorem store_of_not_mem (h : j < i ∨ i + bytes.length ≤ j) : store mem i bytes j = mem j := by
  rw [store, if_neg (by omega)]

/-- What a store leaves behind: its bytes, from its start on. -/
theorem store_add (hk : k < bytes.length) : store mem i bytes (i + k) = bytes[k] := by
  rw [store, if_pos (by omega), show (i + (k : ℤ) - i).toNat = k by omega,
    List.getElem?_eq_getElem hk, Option.getD_some]

/-- What a fill leaves behind: its byte, everywhere in the piece. -/
theorem fill_of_mem {byte : UInt8} (hle : i ≤ j) (hlt : j < i + n) : fill mem i n byte j = byte :=
  if_pos ⟨hle, hlt⟩

/-! ### Strings -/

/-- The indices that are read of the string at `i`, up to its zero byte and at most `n`. -/
def stringIndices (mem : ℤ → UInt8) : ℕ → ℤ → List ℤ
  | 0, _ => []
  | n + 1, i => if mem i = 0 then [i] else i :: stringIndices mem n (i + 1)

/-- The string at `i`, of which at most `n` bytes are read. -/
def string (mem : ℤ → UInt8) : ℕ → ℤ → List UInt8
  | 0, _ => []
  | n + 1, i => if mem i = 0 then [] else mem i :: string mem n (i + 1)

/-- The string at the start of an object of `n` bytes ends inside of it. -/
def Terminated (n : ℕ) (mem : ℤ → UInt8) : Prop :=
  ∃ i : ℤ, 0 ≤ i ∧ i < n ∧ mem i = 0

/-- **What is read of a string**: no byte behind a zero byte. Induction on the bound of the
read. -/
theorem mem_stringIndices :
    j ∈ stringIndices mem n i ↔ i ≤ j ∧ j < i + n ∧ ∀ k, i ≤ k → k < j → mem k ≠ 0 := by
  induction n generalizing i with
  | zero =>
      exact iff_of_false List.not_mem_nil (by omega)
  | succ n ih =>
      rw [stringIndices]
      split
      case isTrue hzero =>
          rw [List.mem_singleton]
          constructor
          · rintro rfl
            exact ⟨Int.le_refl _, by omega, fun k hle hlt => absurd hle (by omega)⟩
          · rintro ⟨hle, -, hnone⟩
            by_contra hne
            exact hnone i (Int.le_refl i) (by omega) hzero
      case isFalse hzero =>
          rw [List.mem_cons, ih]
          constructor
          · rintro (rfl | ⟨hle, hlt, hnone⟩)
            · exact ⟨Int.le_refl _, by omega, fun k hle hlt => absurd hle (by omega)⟩
            · refine ⟨by omega, by omega, fun k hik hkj => ?_⟩
              by_cases hki : k = i
              · exact hki ▸ hzero
              · exact hnone k (by omega) hkj
          · rintro ⟨hle, hlt, hnone⟩
            by_cases hji : j = i
            · exact .inl hji
            · exact .inr ⟨by omega, by omega, fun k hik hkj => hnone k (by omega) hkj⟩

/-- **A string that ends inside of the object** is read inside of it. -/
theorem Terminated.of_mem_stringIndices (h : Terminated n mem)
    (hj : j ∈ stringIndices mem k 0) : 0 ≤ j ∧ j < n := by
  obtain ⟨hle, -, hnone⟩ := mem_stringIndices.mp hj
  obtain ⟨i, hi, hin, hzero⟩ := h
  refine ⟨hle, ?_⟩
  by_contra hge
  exact hnone i hi (by omega) hzero

/-! ### The bytes of an object -/

/-- The `n` bytes from `i` on. -/
def view (mem : ℤ → UInt8) (i : ℤ) (n : ℕ) : List UInt8 :=
  (indices i n).map mem

@[simp] theorem view_succ : view mem i (n + 1) = mem i :: view mem (i + 1) n := rfl

/-- A piece has as many bytes as are asked for. -/
@[simp] theorem length_view : (view mem i n).length = n := by
  induction n generalizing i with
  | zero => rfl
  | succ n ih => rw [view_succ, List.length_cons, ih]

/-- The bytes of a piece stand in it as they stand in memory. -/
theorem getElem?_view (hk : k < n) : (view mem i n)[k]? = some (mem (i + k)) := by
  induction n generalizing i k with
  | zero => exact absurd hk (Nat.not_lt_zero k)
  | succ n ih =>
      cases k with
      | zero => rw [view_succ, List.getElem?_cons_zero, Int.natCast_zero, Int.add_zero]
      | succ k =>
          rw [view_succ, List.getElem?_cons_succ, ih (Nat.lt_of_succ_lt_succ hk)]
          congr 2
          omega

/-- The string is read off the bytes: those in front of the first zero byte. -/
theorem string_eq_takeWhile :
    string mem n i = (view mem i n).takeWhile fun byte => decide (byte ≠ 0) := by
  induction n generalizing i with
  | zero => rfl
  | succ n ih =>
      rw [string, view_succ, List.takeWhile_cons, ih]
      by_cases hzero : mem i = 0
      · simp [hzero]
      · simp [hzero]

/-- There is a zero byte among those of a string that ends inside of the object. -/
theorem Terminated.mem_view (h : Terminated n mem) : 0 ∈ view mem 0 n := by
  obtain ⟨i, hi, hin, hzero⟩ := h
  exact List.mem_map.mpr ⟨i, mem_indices.mpr ⟨hi, by omega⟩, hzero⟩

/-- **A store inside of the object** replaces as many of its bytes, and keeps those in front of
them and behind. -/
theorem view_store (h : k + bytes.length ≤ n) :
    view (store mem k bytes) 0 n =
      (view mem 0 n).take k ++ bytes ++ (view mem 0 n).drop (k + bytes.length) := by
  have htake : ((view mem 0 n).take k).length = k := by
    rw [List.length_take_of_le]
    rw [length_view]
    omega
  refine List.ext_getElem? fun j => ?_
  rcases Nat.lt_or_ge j n with hj | hj
  · rw [getElem?_view hj, Int.zero_add]
    rcases Nat.lt_or_ge j k with hjk | hjk
    · -- in front of the store
      rw [store_of_not_mem (.inl (by omega)), List.append_assoc,
        List.getElem?_append_left (by omega), List.getElem?_take_of_lt hjk, getElem?_view hj,
        Int.zero_add]
    · rcases Nat.lt_or_ge j (k + bytes.length) with hjb | hjb
      · have hlt : j - k < bytes.length := by omega
        have hstore : store mem k bytes (k + (j - k : ℕ)) = bytes[j - k] := store_add hlt
        rw [show ((k : ℤ) + (j - k : ℕ)) = j by omega] at hstore
        rw [hstore, List.append_assoc, List.getElem?_append_right (by omega), htake,
          List.getElem?_append_left hlt, List.getElem?_eq_getElem hlt]
      · -- behind the store
        have hlen : ((view mem 0 n).take k ++ bytes).length = k + bytes.length := by
          rw [List.length_append, htake]
        rw [store_of_not_mem (.inr (by omega)), List.getElem?_append_right (by omega), hlen,
          List.getElem?_drop, Nat.add_sub_cancel' hjb, getElem?_view hj, Int.zero_add]
  · rw [List.getElem?_eq_none (by rw [length_view]; exact hj), List.getElem?_eq_none]
    simp only [List.length_append, List.length_drop, length_view, htake]
    omega

end RawMemory

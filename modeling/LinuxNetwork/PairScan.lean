import Mathlib.Tactic.Common

/-!
# Incremental Search for a Pair of Symbols

The search for the first place of a sequence at which a symbol `a` is followed by a symbol
`b`, for sequences that arrive piece by piece. A place is named by the index of its second
symbol. `scan` is the loop that looks one symbol back at each index; when a sequence has
been searched without success and grows, it may go on from the old end, and then still finds
the first place of the whole: a pair cut in two by the end is found by the look back.

## Main results

* `pairAt_append`: whether a pair is at an index does not depend on what comes behind it.
* `scan_spec`: where the loop stops.
* `firstPair_of_scan`: the loop, resumed at the old end, finds the first pair of the whole.
-/

namespace PairScan

variable {α : Type*} [DecidableEq α]

/-- The pair `a`, `b` is at the index `i` of its second symbol. -/
def PairAt (a b : α) (l : List α) (i : ℕ) : Prop :=
  1 ≤ i ∧ l[i - 1]? = some a ∧ l[i]? = some b

instance (a b : α) (l : List α) (i : ℕ) : Decidable (PairAt a b l i) := by
  rw [PairAt]
  infer_instance

/-- The first place of the pair. -/
def FirstPair (a b : α) (l : List α) (i : ℕ) : Prop :=
  PairAt a b l i ∧ ∀ k < i, ¬ PairAt a b l k

/-- The search from the index `i` on, over `n` indices. It ends at the index it finds, or
behind all of them. -/
def scan (a b : α) (l : List α) : ℕ → ℕ → ℕ
  | 0, i => i
  | n + 1, i => if PairAt a b l i then i else scan a b l n (i + 1)

variable {a b : α} {l m : List α} {i j k n : ℕ}

omit [DecidableEq α] in
/-- The index of a pair is one of the sequence: that of the second letter. -/
theorem PairAt.lt_length (h : PairAt a b l i) : i < l.length :=
  (List.getElem?_eq_some_iff.mp h.2.2).1

omit [DecidableEq α] in
/-- Whether a pair is at an index does not depend on what comes behind it. -/
theorem pairAt_append (hi : i < l.length) : PairAt a b (l ++ m) i ↔ PairAt a b l i := by
  unfold PairAt
  rw [List.getElem?_append_left hi, List.getElem?_append_left (by omega)]

omit [DecidableEq α] in
/-- Two first places are the same, since neither is in front of the other. -/
theorem FirstPair.unique (hi : FirstPair a b l i) (hj : FirstPair a b l j) : i = j := by
  rcases Nat.lt_trichotomy i j with h | h | h
  · exact absurd hi.1 (hj.2 i h)
  · exact h
  · exact absurd hj.1 (hi.2 j h)

omit [DecidableEq α] in
/-- The first place does not depend on what comes behind it, if it is in the sequence already. -/
theorem firstPair_append (hi : i < l.length) :
    FirstPair a b (l ++ m) i ↔ FirstPair a b l i := by
  rw [FirstPair]
  rw [pairAt_append hi]
  refine and_congr_right fun _ => forall₂_congr fun k hk => ?_
  rw [pairAt_append (Nat.lt_trans hk hi)]

/-- Where the loop stops: at the first pair from `i` on, or behind all `n` indices if there is
none. Induction on `n`. -/
theorem scan_spec (n i : ℕ) :
    i ≤ scan a b l n i ∧ scan a b l n i ≤ i + n ∧
      (scan a b l n i < i + n → PairAt a b l (scan a b l n i)) ∧
      ∀ k, i ≤ k → k < scan a b l n i → ¬ PairAt a b l k := by
  induction n generalizing i with
  | zero => exact ⟨Nat.le_refl i, Nat.le_refl i, fun h => absurd h (by simp [scan]),
      fun k hik hki => absurd hki (by simp [scan, hik])⟩
  | succ n ih =>
      by_cases hi : PairAt a b l i
      · rw [scan, if_pos hi]
        exact ⟨Nat.le_refl i, by omega, fun _ => hi, fun k hik hki => by omega⟩
      · rw [scan, if_neg hi]
        obtain ⟨hle, hub, hfound, hnone⟩ := ih (i + 1)
        refine ⟨by omega, by omega, fun h => hfound (by omega), fun k hik hk => ?_⟩
        by_cases hki : k = i
        · exact hki ▸ hi
        · exact hnone k (by omega) hk

/-- **Resuming the search.** If no pair is in front of the index `i`, the loop over the
indices from `i` up to `i + n` either finds the first pair of the sequence, or there is none
in front of `i + n`. -/
theorem firstPair_of_scan (hold : ∀ k < i, ¬ PairAt a b l k) :
    (scan a b l n i < i + n ∧ FirstPair a b l (scan a b l n i)) ∨
      (scan a b l n i = i + n ∧ ∀ k < i + n, ¬ PairAt a b l k) := by
  obtain ⟨hle, hub, hfound, hnone⟩ := scan_spec (a := a) (b := b) (l := l) n i
  have hall : ∀ k < scan a b l n i, ¬ PairAt a b l k := by
    intro k hk
    by_cases hki : k < i
    · exact hold k hki
    · exact hnone k (by omega) hk
  rcases Nat.lt_or_eq_of_le hub with h | h
  · exact .inl ⟨h, hfound h, hall⟩
  · exact .inr ⟨h, h ▸ hall⟩

end PairScan

import Mathlib.Data.Int.ModEq
import Mathlib.Data.List.Count
import Mathlib.Tactic.Common

/-!
# Round Robin

A ring of `n` slots, some of which are live, and a counter that designates a slot. The first
live slot from the counter on is chosen, and the counter goes to the slot behind it.

## Main definitions

* `First`: the choice.
* `Rounds`: a run of choices.

## Main results

* `Rounds.balanced`: in every run, two live slots are chosen equally often up to one.
-/

namespace RoundRobin

/-- Slot `i` is the first live one from `counter` on. -/
def First (n : ℕ) (live : ℕ → Prop) (counter i : ℕ) : Prop :=
  ∃ k < n, (counter + k) % n = i ∧ live i ∧ ∀ j < k, ¬ live ((counter + j) % n)

/-- The choices that are made one after the other, with the counter before and after them. -/
inductive Rounds (n : ℕ) (live : ℕ → Prop) : ℕ → List ℕ → ℕ → Prop
  | nil {counter : ℕ} : Rounds n live counter [] counter
  | cons {counter i counter' : ℕ} {choices : List ℕ} : First n live counter i →
      Rounds n live ((i + 1) % n) choices counter' → Rounds n live counter (i :: choices) counter'

variable {n counter counter' a b x y k : ℕ} {live : ℕ → Prop} {choices : List ℕ}

/-- One run after the other is a run, from the counter of the first to that of the second. -/
theorem Rounds.append {middle : ℕ} {choices' : List ℕ} (h : Rounds n live counter choices middle)
    (h' : Rounds n live middle choices' counter') :
    Rounds n live counter (choices ++ choices') counter' := by
  induction h with
  | nil => exact h'
  | cons hfirst _ ih => exact .cons hfirst (ih h')

/-- Every slot is met in a whole round, at an offset from the counter below the number of slots. -/
theorem exists_offset (hcounter : counter < n) (ha : a < n) : ∃ x < n, (counter + x) % n = a := by
  refine ⟨(a + n - counter) % n, Nat.mod_lt _ (by omega), ?_⟩
  rw [Nat.add_mod_mod, Nat.add_sub_cancel' (by omega), Nat.add_mod_right, Nat.mod_eq_of_lt ha]

/-- No slot is met twice in a round. -/
theorem offset_injOn (hx : x < n) (hy : y < n) (h : (counter + x) % n = (counter + y) % n) :
    x = y :=
  (Nat.ModEq.add_left_cancel' counter h).eq_of_lt_of_lt hx hy

/-- A later slot is met as many steps further from the slot behind the one at offset `k`. -/
theorem offset_later (n counter : ℕ) (hky : k < y) :
    (((counter + k) % n + 1) % n + (y - (k + 1))) % n = (counter + y) % n := by
  rw [Nat.mod_add_mod, Nat.add_assoc, Nat.mod_add_mod]
  congr 1
  omega

/-- The slot at offset `k` itself is met last from the slot behind it. -/
theorem offset_last (counter k : ℕ) (hn : 0 < n) :
    (((counter + k) % n + 1) % n + (n - 1)) % n = (counter + k) % n := by
  rw [Nat.mod_add_mod, Nat.add_assoc, Nat.add_sub_cancel' hn, Nat.add_mod_right, Nat.mod_mod]

/-- Of two live slots, the one that is met first is chosen as often as the other, or once more
often. Induction on the run: a choice in front of both keeps their order, and the choice of the
first one makes it the last. -/
theorem Rounds.count_le (h : Rounds n live counter choices counter') (hxy : x < y) (hy : y < n)
    (hlivex : live ((counter + x) % n)) (hlivey : live ((counter + y) % n)) :
    choices.count ((counter + y) % n) ≤ choices.count ((counter + x) % n) ∧
      choices.count ((counter + x) % n) ≤ choices.count ((counter + y) % n) + 1 := by
  induction h generalizing x y with
  | nil => simp
  | @cons counter i counter' choices hfirst _ ih =>
      obtain ⟨k, hk, rfl, -, hdead⟩ := hfirst
      have hkx : k ≤ x := by
        by_contra hlt
        exact hdead x (by omega) hlivex
      have hney : (counter + k) % n ≠ (counter + y) % n := by
        intro heq
        have := offset_injOn hk hy heq
        omega
      have hlatery := offset_later n counter (show k < y by omega)
      rw [List.count_cons_of_ne hney]
      rcases Nat.lt_or_eq_of_le hkx with hlt | rfl
      · have hnex : (counter + k) % n ≠ (counter + x) % n := by
          intro heq
          have := offset_injOn hk (by omega) heq
          omega
        have hlaterx := offset_later n counter hlt
        have hrest := ih (x := x - (k + 1)) (y := y - (k + 1)) (by omega) (by omega)
        rw [hlaterx, hlatery] at hrest
        rw [List.count_cons_of_ne hnex]
        exact hrest hlivex hlivey
      · have hlast := offset_last counter k (show 0 < n by omega)
        have hrest := ih (x := y - (k + 1)) (y := n - 1) (by omega) (by omega)
        rw [hlast, hlatery] at hrest
        obtain ⟨hle, hge⟩ := hrest hlivey hlivex
        rw [List.count_cons_self]
        omega

/-- **The balance.** In every run, two live slots are chosen equally often up to one. -/
theorem Rounds.balanced (h : Rounds n live counter choices counter') (hcounter : counter < n)
    (ha : a < n) (hb : b < n) (hlivea : live a) (hliveb : live b) :
    choices.count a ≤ choices.count b + 1 := by
  obtain ⟨x, hx, rfl⟩ := exists_offset hcounter ha
  obtain ⟨y, hy, rfl⟩ := exists_offset hcounter hb
  rcases Nat.lt_trichotomy x y with hxy | rfl | hyx
  · exact (h.count_le hxy hy hlivea hliveb).2
  · exact Nat.le_succ _
  · exact Nat.le_succ_of_le (h.count_le hyx hx hliveb hlivea).1

end RoundRobin

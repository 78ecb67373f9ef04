import Mathlib.Logic.Function.Basic
import Mathlib.Tactic.Common

/-!
# Mutual Exclusion

A mutex with an owner, and for every party whether it stands inside a critical section.
`Exclusive` says that the owner, and nobody else, is inside. The three rules are the three
things a party can do; what it does besides to other state is of no concern here.

## Main results

* `Exclusive.acquire`, `Exclusive.release`, `Exclusive.stay`: the rules.
* `Exclusive.outside`: while one party is inside, no other is.
* `Exclusive.outside_of_free`: while the mutex is free, none is.
-/

namespace Mutex

variable {P : Type*}

/-- The owner of the mutex, and nobody else, is inside a critical section. -/
def Exclusive (owner : Option P) (inside : P → Bool) : Prop :=
  ∀ p, inside p = true ↔ owner = some p

variable {owner : Option P} {inside : P → Bool} {p q : P} {b : Bool}

/-- While one party is inside, no other is, since the mutex has one owner. -/
theorem Exclusive.outside (h : Exclusive owner inside) (hp : inside p = true) (hpq : q ≠ p) :
    inside q = false := by
  rw [Bool.eq_false_iff]
  intro hq
  have hown := (h p).mp hp
  rw [(h q).mp hq] at hown
  exact hpq (Option.some.inj hown)

/-- While the mutex is free, nobody is inside, since whoever is inside owns it. -/
theorem Exclusive.outside_of_free (h : Exclusive owner inside) (ho : owner = none) (p : P) :
    inside p = false := by
  rw [Bool.eq_false_iff]
  intro hp
  exact Option.some_ne_none p (((h p).mp hp).symm.trans ho)

variable [DecidableEq P]

/-- A party that moves about without entering or leaving a critical section keeps the mutex as
it is. -/
theorem Exclusive.stay (h : Exclusive owner inside) (hb : b = inside p) :
    Exclusive owner (Function.update inside p b) := by
  rw [hb, Function.update_eq_self]
  exact h

/-- A party that finds the mutex free takes it and enters its critical section. -/
theorem Exclusive.acquire (h : Exclusive none inside) (hb : b = true) :
    Exclusive (some p) (Function.update inside p b) := by
  intro q
  by_cases hq : q = p
  · subst hq
    simp [hb]
  · have hout : inside q ≠ true := fun hin => nomatch (h q).mp hin
    simp [Function.update_of_ne hq, hout, Ne.symm hq]

/-- The party inside leaves and gives the mutex back; nobody else was inside. -/
theorem Exclusive.release (h : Exclusive owner inside) (hp : inside p = true)
    (hb : b = false) : Exclusive none (Function.update inside p b) := by
  intro q
  by_cases hq : q = p
  · subst hq
    simp [hb]
  · simp [Function.update_of_ne hq, h.outside hp hq]

end Mutex

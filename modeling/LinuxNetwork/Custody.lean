import Mathlib.Data.List.Nodup
import Mathlib.Logic.Function.Basic
import Mathlib.Tactic.Common

/-!
# Custody

Things that each have one holder at most. A thing enters into the hands of a holder, is handed on,
and is gone when a holder gives it up. `table` is what every holder has, `gone` the things given up,
in order, and `entered` those that have entered. `Custody` says that no thing is in two hands, that
none is in a hand when it is gone or is given up twice, and that none gets lost.

## Main results

* `Custody.enter`, `Custody.handOn`, `Custody.giveUp`: the rules.
* `Custody.gone_of_empty`: when no holder has anything, all that entered is gone.
-/

variable {κ ρ : Type*}

/-- **Every thing that entered is in one hand, or gone.** -/
structure Custody (table : κ → Option ρ) (gone entered : List ρ) : Prop where
  unique : ∀ i j d, table i = some d → table j = some d → i = j
  notGone : ∀ i d, table i = some d → d ∉ gone
  nodup : gone.Nodup
  accounted : ∀ d, d ∈ entered ↔ (∃ i, table i = some d) ∨ d ∈ gone

namespace Custody

variable {table : κ → Option ρ} {gone entered : List ρ} {i j : κ} {d : ρ}

/-- At first no holder has anything, nothing is gone, and nothing has entered yet. -/
theorem empty : Custody (fun _ : κ => (none : Option ρ)) [] [] :=
  ⟨nofun, nofun, List.nodup_nil, by simp⟩

/-- What a holder has, has entered, since all that entered is either with a holder or gone and
nothing else is. -/
theorem mem_entered (h : Custody table gone entered) (hi : table i = some d) : d ∈ entered :=
  (h.accounted d).mpr (.inl ⟨i, hi⟩)

/-- When no holder has anything, all that entered is gone; so no thing is lost track of. -/
theorem gone_of_empty (h : Custody table gone entered) (hempty : ∀ i, table i = none)
    (hd : d ∈ entered) : d ∈ gone := by
  rcases (h.accounted d).mp hd with ⟨i, hi⟩ | hgone
  · rw [hempty i] at hi
    cases hi
  · exact hgone

variable [DecidableEq κ]

/-- What a holder has when one of the hands is filled anew: the new thing in that hand, and what
it had in another one. -/
theorem update_eq_some_iff {x : Option ρ} : Function.update table i x j = some d ↔
    (j = i ∧ x = some d) ∨ (j ≠ i ∧ table j = some d) := by
  by_cases hji : j = i
  · subst hji
    simp
  · simp [hji]

/-- **A new thing** enters into an empty hand. It has not entered before, so no other holder has
it. -/
theorem enter (h : Custody table gone entered) (hi : table i = none) (hd : d ∉ entered) :
    Custody (Function.update table i (some d)) gone (entered ++ [d]) := by
  have hnew : ∀ j, table j ≠ some d := fun j hj => hd (h.mem_entered hj)
  refine ⟨fun j k e hj hk => ?_, fun j e hj => ?_, h.nodup, fun e => ?_⟩
  · rcases update_eq_some_iff.mp hj with ⟨rfl, ⟨⟩⟩ | ⟨-, hj'⟩
    · rcases update_eq_some_iff.mp hk with ⟨rfl, -⟩ | ⟨-, hk'⟩
      · rfl
      · exact absurd hk' (hnew k)
    · rcases update_eq_some_iff.mp hk with ⟨-, ⟨⟩⟩ | ⟨-, hk'⟩
      · exact absurd hj' (hnew j)
      · exact h.unique j k e hj' hk'
  · rcases update_eq_some_iff.mp hj with ⟨-, ⟨⟩⟩ | ⟨-, hj'⟩
    · exact fun hgone => hd ((h.accounted d).mpr (.inr hgone))
    · exact h.notGone j e hj'
  · rw [List.mem_append, List.mem_singleton, h.accounted e]
    constructor
    · rintro ((⟨j, hj⟩ | hgone) | rfl)
      · have hji : j ≠ i := fun hji => by
          rw [hji, hi] at hj
          cases hj
        exact .inl ⟨j, update_eq_some_iff.mpr (.inr ⟨hji, hj⟩)⟩
      · exact .inr hgone
      · exact .inl ⟨i, Function.update_self ..⟩
    · rintro (⟨j, hj⟩ | hgone)
      · rcases update_eq_some_iff.mp hj with ⟨-, ⟨⟩⟩ | ⟨-, hj'⟩
        · exact .inr rfl
        · exact .inl (.inl ⟨j, hj'⟩)
      · exact .inl (.inr hgone)

/-- **A holder gives up** what it has, if anything, and it is gone from then on. -/
theorem giveUp (h : Custody table gone entered) (i : κ) :
    Custody (Function.update table i none) (gone ++ (table i).toList) entered := by
  have hold : ∀ j e, Function.update table i none j = some e → j ≠ i ∧ table j = some e :=
    fun j e hj => (update_eq_some_iff.mp hj).resolve_left fun hand => nomatch hand.2
  refine ⟨fun j k e hj hk => h.unique j k e (hold j e hj).2 (hold k e hk).2, fun j e hj => ?_, ?_,
    fun e => ?_⟩
  · obtain ⟨hji, hj'⟩ := hold j e hj
    rw [List.mem_append, Option.mem_toList, not_or]
    exact ⟨h.notGone j e hj', fun hi => hji (h.unique j i e hj' hi)⟩
  · cases hi : table i with
    | none => simpa using h.nodup
    | some d =>
        rw [Option.toList_some, ← List.concat_eq_append, List.nodup_concat]
        exact ⟨h.notGone i d hi, h.nodup⟩
  · rw [h.accounted e, List.mem_append, Option.mem_toList]
    constructor
    · rintro (⟨j, hj⟩ | hgone)
      · by_cases hji : j = i
        · exact .inr (.inr (hji ▸ hj))
        · exact .inl ⟨j, update_eq_some_iff.mpr (.inr ⟨hji, hj⟩)⟩
      · exact .inr (.inl hgone)
    · rintro (⟨j, hj⟩ | hgone | hi)
      · exact .inl ⟨j, (hold j e hj).2⟩
      · exact .inr hgone
      · exact .inl ⟨i, hi⟩

/-- **A holder hands on** what it has, if anything, to an empty hand. Who holds something behind
the step is the receiver, which had nothing, or a holder that keeps what it has. -/
theorem handOn (h : Custody table gone entered) (hj : table j = none) (i : κ) :
    Custody (Function.update (Function.update table j (table i)) i none) gone entered := by
  have hold : ∀ k e, Function.update (Function.update table j (table i)) i none k = some e →
      (k = j ∧ table i = some e) ∨ (k ≠ i ∧ table k = some e) := by
    intro k e hk
    obtain ⟨hki, hk⟩ := (update_eq_some_iff.mp hk).resolve_left fun hand => nomatch hand.2
    exact (update_eq_some_iff.mp hk).imp_right fun hand => ⟨hki, hand.2⟩
  refine ⟨fun k l e hk hl => ?_, fun k e hk => ?_, h.nodup, fun e => ?_⟩
  · rcases hold k e hk with ⟨rfl, hi⟩ | ⟨hki, hk'⟩
    · rcases hold l e hl with ⟨rfl, -⟩ | ⟨hli, hl'⟩
      · rfl
      · exact absurd (h.unique l i e hl' hi) hli
    · rcases hold l e hl with ⟨-, hi⟩ | ⟨-, hl'⟩
      · exact absurd (h.unique k i e hk' hi) hki
      · exact h.unique k l e hk' hl'
  · rcases hold k e hk with ⟨-, hi⟩ | ⟨-, hk'⟩
    · exact h.notGone i e hi
    · exact h.notGone k e hk'
  · rw [h.accounted e]
    refine or_congr_left ⟨?_, ?_⟩
    · rintro ⟨k, hk⟩
      have hkj : k ≠ j := fun hkj => by
        rw [hkj, hj] at hk
        cases hk
      by_cases hki : k = i
      · subst hki
        exact ⟨j, update_eq_some_iff.mpr (.inr ⟨hkj.symm, update_eq_some_iff.mpr (.inl ⟨rfl, hk⟩)⟩)⟩
      · exact ⟨k, update_eq_some_iff.mpr (.inr ⟨hki, update_eq_some_iff.mpr (.inr ⟨hkj, hk⟩)⟩)⟩
    · rintro ⟨k, hk⟩
      rcases hold k e hk with ⟨-, hi⟩ | ⟨-, hk'⟩
      · exact ⟨i, hi⟩
      · exact ⟨k, hk'⟩

end Custody

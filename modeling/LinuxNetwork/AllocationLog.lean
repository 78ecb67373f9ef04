import Mathlib.Data.List.Count
import Mathlib.Logic.Function.Basic
import Mathlib.Tactic.Common

/-!
# Logs of Allocations

What happens to the objects of a program that come and go at addresses: an object is added, with
some information about it, it is deleted, or it is fired and freed by that. `Balanced` says of a
log that it is one of objects that are added at free addresses and freed once. `occ` is the number
of objects at an address when the log begins, `occ'` when it ends.

An object that is fired is still there while other things happen, and is freed behind them: the
log has the firing in front.

## Main results

* `Balanced.trans`: logs may be put together.
* `Balanced.concat_added`, `Balanced.concat_deleted`: one more event.
* `balanced_map_deleted`: the log of several deletions.
* `Balanced.fired`: the log of a firing.
* `Balanced.subject_notMem`: an object that is not freed does not occur in the log.
-/

namespace AllocationLog

variable {ι α : Type*}

/-- What happens to an object. -/
inductive Event (ι α : Type*) where
  | added (p : ι) (info : α)
  | deleted (p : ι)
  | fired (p : ι)
deriving DecidableEq, Repr

/-- The object that an event is about. -/
def Event.subject : Event ι α → ι
  | .added p _ => p
  | .deleted p => p
  | .fired p => p

variable [DecidableEq ι]

/-- The event frees the object. -/
def Event.frees (p : ι) : Event ι α → Bool
  | .added _ _ => false
  | .deleted q => decide (q = p)
  | .fired q => decide (q = p)

/-- The event adds the object. -/
def Event.adds (p : ι) : Event ι α → Bool
  | .added q _ => decide (q = p)
  | .deleted _ => false
  | .fired _ => false

/-- **Objects are added at free addresses and freed once**: at any time, the objects that an
address has had and those that were freed there differ by one at most, and at the end by the
object that is there. -/
structure Balanced (occ : ι → ℕ) (events : List (Event ι α)) (occ' : ι → ℕ) : Prop where
  total : ∀ p, occ p + events.countP (Event.adds p) = occ' p + events.countP (Event.frees p)
  always : ∀ pre, pre <+: events → ∀ p,
    pre.countP (Event.frees p) ≤ occ p + pre.countP (Event.adds p) ∧
      occ p + pre.countP (Event.adds p) ≤ pre.countP (Event.frees p) + 1

variable {occ occ' occ'' : ι → ℕ} {events events' : List (Event ι α)} {p : ι}

/-- The events that free an object are its deletion and its firing. -/
theorem Event.frees_iff {e : Event ι α} : e.frees p = true ↔ e = .deleted p ∨ e = .fired p := by
  cases e <;> simp [Event.frees]

/-- No address holds two objects behind a balanced log, whatever was added and freed in it. -/
theorem Balanced.le_one (h : Balanced occ events occ') (p : ι) : occ' p ≤ 1 := by
  have := h.total p
  have := (h.always events List.prefix_rfl p).2
  omega

/-- The empty log changes nothing; it is the base of all logs that are built up event by event. -/
theorem balanced_nil (hocc : ∀ p, occ p ≤ 1) : Balanced occ ([] : List (Event ι α)) occ where
  total := fun _ => rfl
  always := by
    intro pre hpre p
    rw [List.prefix_nil.mp hpre]
    exact ⟨Nat.zero_le _, hocc p⟩

/-- The log of a single event is balanced if the occupation on both sides of it differs by what
the event adds and frees. -/
theorem balanced_singleton {e : Event ι α} (hocc : ∀ p, occ p ≤ 1) (hocc' : ∀ p, occ' p ≤ 1)
    (h : ∀ p, occ p + (e.adds p).toNat = occ' p + (e.frees p).toNat) :
    Balanced occ [e] occ' := by
  have hcount : ∀ f : Event ι α → Bool, [e].countP f = (f e).toNat := by
    intro f
    cases he : f e <;> simp [he]
  refine ⟨fun p => by rw [hcount, hcount, h], fun pre hpre p => ?_⟩
  rcases List.prefix_cons_iff.mp hpre with rfl | ⟨tail, rfl, htail⟩
  · exact ⟨Nat.zero_le _, hocc p⟩
  · rw [List.prefix_nil.mp htail, hcount, hcount]
    have := h p
    have := hocc' p
    omega

/-- An address holds one object at most when the occupation of one address is written and the
others are left alone. -/
theorem update_le_one (hocc : ∀ p, occ p ≤ 1) (p : ι) {n : ℕ} (hn : n ≤ 1) (q : ι) :
    Function.update occ p n q ≤ 1 := by
  by_cases hq : q = p
  · rwa [hq, Function.update_self]
  · rw [Function.update_of_ne hq]
    exact hocc q

/-- The log of an addition is balanced if the allocator hands out an address that holds no
object. -/
theorem balanced_added (hocc : ∀ p, occ p ≤ 1) (hp : occ p = 0) (info : α) :
    Balanced occ [.added p info] (Function.update occ p 1) := by
  refine balanced_singleton hocc (update_le_one hocc p (Nat.le_refl 1)) fun q => ?_
  by_cases hq : q = p
  · subst hq
    simp [Event.adds, Event.frees, hp]
  · simp [Event.adds, Event.frees, hq, Ne.symm hq]

/-- The log of a deletion is balanced if the address holds an object, so that nothing is freed
twice. -/
theorem balanced_deleted (hocc : ∀ p, occ p ≤ 1) (hp : occ p = 1) :
    Balanced occ ([.deleted p] : List (Event ι α)) (Function.update occ p 0) := by
  refine balanced_singleton hocc (update_le_one hocc p (Nat.zero_le 1)) fun q => ?_
  by_cases hq : q = p
  · subst hq
    simp [Event.adds, Event.frees, hp]
  · simp [Event.adds, Event.frees, hq, Ne.symm hq]

/-- **Logs may be put together.** -/
theorem Balanced.trans (h : Balanced occ events occ') (h' : Balanced occ' events' occ'') :
    Balanced occ (events ++ events') occ'' := by
  refine ⟨fun p => ?_, fun pre hpre p => ?_⟩
  · have := h.total p
    have := h'.total p
    simp only [List.countP_append]
    omega
  · rcases List.prefix_or_prefix_of_prefix hpre (List.prefix_append events events') with
      hpre | ⟨pre', rfl⟩
    · exact h.always pre hpre p
    · have hpre' : pre' <+: events' := (List.prefix_append_right_inj _).mp hpre
      have := h.total p
      have := h'.always pre' hpre' p
      simp only [List.countP_append]
      omega

/-- One more object is added behind a log, at an address that is free by then. -/
theorem Balanced.concat_added (h : Balanced occ events occ') (hp : occ' p = 0) (info : α)
    (hocc : ∀ q, occ'' q = occ' q + if q = p then 1 else 0) :
    Balanced occ (events ++ [.added p info]) occ'' := by
  have hupdate : occ'' = Function.update occ' p 1 := by
    funext q
    rw [hocc, Function.update_apply]
    by_cases hq : q = p
    · rw [if_pos hq, if_pos hq, hq, hp]
    · rw [if_neg hq, if_neg hq, Nat.add_zero]
  rw [hupdate]
  exact h.trans (balanced_added h.le_one hp info)

/-- One of the objects that are there behind a log is deleted, and the others stay. -/
theorem Balanced.concat_deleted (h : Balanced occ events occ')
    (hocc : ∀ q, occ' q = occ'' q + if q = p then 1 else 0) :
    Balanced occ (events ++ [.deleted p]) occ'' := by
  have hp := hocc p
  have hle := h.le_one p
  rw [if_pos rfl] at hp
  have hupdate : occ'' = Function.update occ' p 0 := by
    funext q
    have hq := hocc q
    rw [Function.update_apply]
    split
    case isTrue hqp => rw [hqp]; omega
    case isFalse hqp => rw [if_neg hqp] at hq; omega
  rw [hupdate]
  exact h.trans (balanced_deleted h.le_one (by omega))

/-- An address whose objects were all freed is free again, if it was free before the first of
them was added. -/
theorem Balanced.eq_zero (h : Balanced (fun _ => 0) events occ')
    (hfree : events.countP (Event.adds p) = events.countP (Event.frees p)) : occ' p = 0 := by
  have := h.total p
  omega

/-- **The log of several deletions**, each of an object that is there. -/
theorem balanced_map_deleted {l : List ι} (hocc : ∀ p, occ p ≤ 1)
    (h : ∀ p, occ p = l.count p + occ' p) :
    Balanced occ (l.map .deleted : List (Event ι α)) occ' := by
  induction l generalizing occ with
  | nil =>
      obtain rfl : occ = occ' := funext fun p => by rw [h p, List.count_nil, Nat.zero_add]
      exact balanced_nil hocc
  | cons q l ih =>
      have hq : occ q = 1 := by
        have hq := h q
        have := hocc q
        rw [List.count_cons_self] at hq
        omega
      refine (balanced_deleted hocc hq).trans
        (ih (update_le_one hocc q (Nat.zero_le 1)) fun p => ?_)
      have hp := h p
      by_cases hpq : p = q
      · subst hpq
        rw [List.count_cons_self, hq] at hp
        rw [Function.update_self]
        omega
      · rwa [List.count_cons_of_ne (Ne.symm hpq), ← Function.update_of_ne hpq 0 occ] at hp

/-- Events about an object that is not freed in them add it, since adding is the only other
thing that they can do. -/
theorem countP_adds_pos (hmem : p ∈ events.map Event.subject) (hdel : .deleted p ∉ events)
    (hfire : .fired p ∉ events) :
    0 < events.countP (Event.adds p) ∧ events.countP (Event.frees p) = 0 := by
  constructor
  · obtain ⟨e, he, hesubject⟩ := List.mem_map.mp hmem
    cases e with
    | added q t => exact List.countP_pos_iff.mpr ⟨_, he, decide_eq_true hesubject⟩
    | deleted q =>
        obtain rfl : q = p := hesubject
        exact absurd he hdel
    | fired q =>
        obtain rfl : q = p := hesubject
        exact absurd he hfire
  · rw [List.countP_eq_zero]
    intro e he hfrees
    rcases Event.frees_iff.mp hfrees with rfl | rfl
    · exact hdel he
    · exact hfire he

/-- **An object that is not freed** is not added again, so no event is about it. -/
theorem Balanced.subject_notMem (h : Balanced occ events occ') (hp : occ p = 1)
    (hdel : .deleted p ∉ events) (hfire : .fired p ∉ events) : p ∉ events.map Event.subject := by
  intro hmem
  obtain ⟨hadds, hfrees⟩ := countP_adds_pos hmem hdel hfire
  have := h.total p
  have := h.le_one p
  omega

/-- Events about other objects neither add nor free this one, so they do not count for its
address. -/
theorem countP_eq_zero (hp : p ∉ events.map Event.subject) :
    events.countP (Event.adds p) = 0 ∧ events.countP (Event.frees p) = 0 := by
  have hne : ∀ e ∈ events, e.subject ≠ p := fun e he heq =>
    hp (heq ▸ List.mem_map_of_mem he)
  constructor
  · rw [List.countP_eq_zero]
    intro e he hadds
    cases e with
    | added q t => exact hne _ he (of_decide_eq_true hadds)
    | deleted q => cases hadds
    | fired q => cases hadds
  · rw [List.countP_eq_zero]
    intro e he hfrees
    rcases Event.frees_iff.mp hfrees with rfl | rfl
    · exact hne _ he rfl
    · exact hne _ he rfl

/-- **The log of a firing**: the object is freed behind events that are not about it. -/
theorem Balanced.fired (h : Balanced occ events occ') (hp : occ p = 1)
    (hquiet : p ∉ events.map Event.subject) :
    Balanced occ (.fired p :: events) (Function.update occ' p 0) := by
  have hnone : ∀ pre, pre <+: events →
      pre.countP (Event.adds p) = 0 ∧ pre.countP (Event.frees p) = 0 := fun pre hpre =>
    countP_eq_zero fun hmem => hquiet ((hpre.sublist.map _).subset hmem)
  have hadds : ∀ q pre,
      (Event.fired p :: pre : List (Event ι α)).countP (Event.adds q) =
        pre.countP (Event.adds q) := fun q pre =>
    List.countP_cons_of_neg (by simp [Event.adds])
  have hself : ∀ pre, (Event.fired p :: pre : List (Event ι α)).countP (Event.frees p) =
      pre.countP (Event.frees p) + 1 := fun pre =>
    List.countP_cons_of_pos (by simp [Event.frees])
  have hother : ∀ q pre, q ≠ p →
      (Event.fired p :: pre : List (Event ι α)).countP (Event.frees q) =
        pre.countP (Event.frees q) := fun q pre hq =>
    List.countP_cons_of_neg (by simp [Event.frees, Ne.symm hq])
  refine ⟨fun q => ?_, fun pre hpre q => ?_⟩
  · rw [hadds]
    by_cases hq : q = p
    · subst hq
      rw [hself, (hnone _ List.prefix_rfl).1, (hnone _ List.prefix_rfl).2, hp,
        Function.update_self]
    · rw [hother q _ hq, Function.update_of_ne hq]
      exact h.total q
  · rcases List.prefix_cons_iff.mp hpre with rfl | ⟨tail, rfl, htail⟩
    · exact h.always [] List.nil_prefix q
    · rw [hadds]
      by_cases hq : q = p
      · subst hq
        rw [hself, (hnone _ htail).1, (hnone _ htail).2, hp]
        omega
      · rw [hother q _ hq]
        exact h.always tail htail q

end AllocationLog

import Mathlib.Data.List.Sort
import Mathlib.Data.List.TakeWhile
import Mathlib.Order.Defs.LinearOrder
import Mathlib.Tactic.Common

/-!
# Stable Sorted Queues

A queue of entries with keys in a linear order, kept in ascending order of the keys, where
entries with equal keys stand in the order of their insertion. `insert` puts an entry in
front of the first entry with a larger key, which is what a walk along the queue does. In
a sorted queue this is behind all entries with a key at most its own, and the queue then
splits at every key bound, so that a walk that stops at the first entry above the bound
has seen all entries below it.

Nothing here assumes that the queue is sorted except where `Sorted` is a hypothesis; the
definitions are also what a walk does to a queue that is not.

## Main results

* `insert_eq_filter`: insertion into a sorted queue.
* `sorted_insert`: insertion keeps a queue sorted.
* `insert_append`: raising the key of an entry and walking on from its place is
  removing the entry and inserting it anew.
* `takeWhile_eq_filter`, `dropWhile_eq_filter`: a sorted queue splits at a bound, and
  `sorted_iff_takeWhile_eq_filter`: no other queue does.
* `sorted_append_insert_iff`: changing the key of an entry and walking on from its place.
* `StableSort.insert`, `StableSort.filter`: insertions and removals keep a queue the stable
  sort of its entries by the order of their insertion.
-/

namespace StableQueue

variable {ε K : Type*} [LinearOrder K] (key : ε → K)

/-- Insert an entry in front of the first entry with a larger key. -/
def insert (e : ε) (l : List ε) : List ε :=
  l.orderedInsert (fun x y => key x < key y) e

/-- The keys ascend. -/
def Sorted (l : List ε) : Prop :=
  l.Pairwise fun x y => key x ≤ key y

variable {key} {e f n : ε} {l l₁ l₂ : List ε} {t : K}

@[simp] theorem insert_nil : insert key e [] = [e] := rfl

/-- A walk stops in front of the first larger key. -/
theorem insert_cons_of_lt (h : key e < key f) :
    insert key e (f :: l) = e :: f :: l :=
  List.orderedInsert_cons_of_le _ l h

/-- A walk passes a key that is not larger, and so passes its equals. -/
theorem insert_cons_of_le (h : key f ≤ key e) :
    insert key e (f :: l) = f :: insert key e l :=
  List.orderedInsert_of_not_le _ l (not_lt.mpr h)

/-- Insertion adds one entry and removes none, wherever it puts it. -/
theorem perm_insert (e : ε) (l : List ε) : (insert key e l).Perm (e :: l) :=
  List.perm_orderedInsert _ e l

@[simp] theorem mem_insert : n ∈ insert key e l ↔ n = e ∨ n ∈ l := by
  rw [(perm_insert e l).mem_iff, List.mem_cons]

/-- A walk passes the entries with keys at most its own. -/
theorem insert_append_of_le (h : ∀ x ∈ l₁, key x ≤ key e) :
    insert key e (l₁ ++ l₂) = l₁ ++ insert key e l₂ := by
  induction l₁ with
  | nil => rfl
  | cons x l₁ ih =>
      rw [List.cons_append, insert_cons_of_le (h x (by simp)),
        ih fun y hy => h y (by simp [hy]), List.cons_append]

/-- A walk stops in front of a queue of larger keys, whether or not they ascend. -/
theorem insert_of_lt (h : ∀ x ∈ l, key e < key x) : insert key e l = e :: l := by
  cases l with
  | nil => rfl
  | cons x l => exact insert_cons_of_lt (h x (by simp))

/-! ### Sorted queues -/

/-- The keys in front of an entry of a sorted queue are at most its own, and those behind it at
least. -/
theorem Sorted.append_cons (h : Sorted key (l₁ ++ e :: l₂)) :
    (∀ x ∈ l₁, key x ≤ key e) ∧ ∀ x ∈ l₂, key e ≤ key x := by
  rw [Sorted, List.pairwise_append, List.pairwise_cons] at h
  exact ⟨fun x hx => h.2.2 x hx e (by simp), h.2.1.1⟩

/-- Removing entries keeps a queue sorted, since the others keep their order. -/
theorem Sorted.sublist {l' : List ε} (h : Sorted key l) (hl : l'.Sublist l) :
    Sorted key l' :=
  List.Pairwise.sublist hl h

/-- **A sorted queue splits at a bound**: what a walk passes before the first key above the
bound is all that is at most the bound. Induction on the queue. -/
theorem takeWhile_eq_filter (h : Sorted key l) (t : K) :
    l.takeWhile (fun x => decide (key x ≤ t)) = l.filter fun x => decide (key x ≤ t) := by
  induction l with
  | nil => rfl
  | cons x l ih =>
      obtain ⟨hx, hl⟩ := List.pairwise_cons.mp h
      by_cases hxt : key x ≤ t
      · simp [hxt, ih hl]
      · have : ∀ y ∈ l, t < key y := fun y hy => lt_of_lt_of_le (not_le.mp hxt) (hx y hy)
        simpa [hxt] using this

/-- What is left behind the walk is all that is above the bound, the other half of the split. -/
theorem dropWhile_eq_filter (h : Sorted key l) (t : K) :
    l.dropWhile (fun x => decide (key x ≤ t)) = l.filter fun x => decide (t < key x) := by
  induction l with
  | nil => rfl
  | cons x l ih =>
      obtain ⟨hx, hl⟩ := List.pairwise_cons.mp h
      by_cases hxt : key x ≤ t
      · simp [hxt, not_lt.mpr hxt, ih hl]
      · have : ∀ y ∈ l, t < key y := fun y hy => lt_of_lt_of_le (not_le.mp hxt) (hx y hy)
        have hself : l.filter (fun x => decide (t < key x)) = l :=
          List.filter_eq_self.mpr (by simpa using this)
        simp [hxt, not_le.mp hxt, hself]

/-- A walk passes no more than there is to pass, even in a queue that is not sorted. -/
theorem takeWhile_sublist_filter (p : ε → Bool) (l : List ε) :
    (l.takeWhile p).Sublist (l.filter p) := by
  have h := (List.takeWhile_sublist p (l := l)).filter p
  rwa [List.filter_eq_self.mpr fun x hx => List.mem_takeWhile_imp hx] at h

/-- **The walks see everything only in a sorted queue**: if at every bound they pass all that is
at most the bound, the keys ascend. At the bound of a key the walk passes its entry, and so all
that stands in front of it. -/
theorem sorted_iff_takeWhile_eq_filter :
    Sorted key l ↔ ∀ t, l.takeWhile (fun x => decide (key x ≤ t)) =
      l.filter fun x => decide (key x ≤ t) := by
  refine ⟨takeWhile_eq_filter, fun h => ?_⟩
  induction l with
  | nil => exact List.Pairwise.nil
  | cons x l ih =>
      refine List.pairwise_cons.mpr ⟨fun y hy => ?_, ih fun t => ?_⟩
      · have hmem : y ∈ (x :: l).takeWhile fun z => decide (key z ≤ key y) := by
          rw [h, List.mem_filter]
          exact ⟨List.mem_cons_of_mem x hy, decide_eq_true le_rfl⟩
        by_contra hxy
        simp [hxy] at hmem
      · have ht := h t
        by_cases hxt : key x ≤ t
        · simpa [hxt] using ht
        · have hnil : l.filter (fun z => decide (key z ≤ t)) = [] := by
            simpa [hxt] using ht.symm
          have hall := List.filter_eq_nil_iff.mp hnil
          rw [hnil]
          cases l with
          | nil => rfl
          | cons y l => exact List.takeWhile_cons_of_neg (hall y List.mem_cons_self)

/-- **Insertion into a sorted queue** puts the entry behind all entries with a key at most
its own and in front of all others. -/
theorem insert_eq_filter (h : Sorted key l) :
    insert key e l = l.filter (fun x => decide (key x ≤ key e)) ++
      e :: l.filter fun x => decide (key e < key x) := by
  rw [← takeWhile_eq_filter h, ← dropWhile_eq_filter h]
  conv_lhs => rw [← List.takeWhile_append_dropWhile
    (p := fun x => decide (key x ≤ key e)) (l := l)]
  rw [insert_append_of_le, insert_of_lt]
  · intro x hx
    rw [dropWhile_eq_filter h] at hx
    simpa using (List.mem_filter.mp hx).2
  · intro x hx
    simpa using List.mem_takeWhile_imp hx

/-- Insertion keeps a queue sorted, wherever the key of the new entry lies. -/
theorem sorted_insert (h : Sorted key l) : Sorted key (insert key e l) := by
  rw [insert_eq_filter h, Sorted, List.pairwise_append, List.pairwise_cons]
  refine ⟨h.sublist List.filter_sublist, ⟨?_, h.sublist List.filter_sublist⟩, ?_⟩
  · exact fun x hx => (by simpa using (List.mem_filter.mp hx).2 : key e < key x).le
  · intro x hx y hy
    have hxe : key x ≤ key e := by simpa using (List.mem_filter.mp hx).2
    rcases List.mem_cons.mp hy with rfl | hy
    · exact hxe
    · have hey : key e < key y := by simpa using (List.mem_filter.mp hy).2
      exact hxe.trans hey.le

/-- **Moving an entry whose key was raised.** When the entry `e` of a sorted queue gets a
key no smaller than its own as `f`, then removing `e` and inserting `f` is walking on from
the place of `e`. -/
theorem insert_append (h : Sorted key (l₁ ++ e :: l₂)) (hef : key e ≤ key f) :
    insert key f (l₁ ++ l₂) = l₁ ++ insert key f l₂ :=
  insert_append_of_le fun x hx => (h.append_cons.1 x hx).trans hef

/-- **Walking on from the place of an entry** keeps the queue sorted exactly if nothing in
front of that place has a larger key. -/
theorem sorted_append_insert_iff (h : Sorted key (l₁ ++ e :: l₂)) :
    Sorted key (l₁ ++ insert key f l₂) ↔ ∀ x ∈ l₁, key x ≤ key f := by
  obtain ⟨h₁, h₂, hcross⟩ := List.pairwise_append.mp h
  constructor
  · exact fun hs x hx => (List.pairwise_append.mp hs).2.2 x hx f (mem_insert.mpr (.inl rfl))
  · intro hle
    refine List.pairwise_append.mpr ⟨h₁, sorted_insert (List.Pairwise.of_cons h₂), ?_⟩
    intro x hx y hy
    rcases mem_insert.mp hy with rfl | hy
    · exact hle x hx
    · exact hcross x hx y (List.mem_cons_of_mem e hy)

/-! ### Stably sorted queues -/

variable (key) in
/-- **A stable sort.** `q` has the entries of `l` in ascending order of their keys, entries
with equal keys in their order in `l`. -/
structure StableSort (q l : List ε) : Prop where
  sorted : Sorted key q
  perm : q.Perm l
  /-- The entries of each key stand in the order of `l`. -/
  ties : ∀ t, q.filter (fun x => decide (key x = t)) = l.filter fun x => decide (key x = t)

variable {q : List ε}

theorem stableSort_nil : StableSort key ([] : List ε) [] where
  sorted := List.Pairwise.nil
  perm := .rfl
  ties := fun _ => rfl

/-- Dropping entries from both sides keeps a stable sort, if the same ones are dropped. -/
theorem StableSort.filter (h : StableSort key q l) (p : ε → Bool) :
    StableSort key (q.filter p) (l.filter p) where
  sorted := h.sorted.sublist List.filter_sublist
  perm := h.perm.filter p
  ties := fun t => by
    rw [List.filter_comm, h.ties, List.filter_comm]

/-- Insertion puts the entry behind its equals, and leaves other keys alone. No entry behind the
new one has its key. -/
theorem filter_insert (h : Sorted key l) (e : ε) (t : K) :
    (insert key e l).filter (fun x => decide (key x = t)) =
      (l ++ [e]).filter fun x => decide (key x = t) := by
  have hsplit : l = l.filter (fun x => decide (key x ≤ key e)) ++
      l.filter fun x => decide (key e < key x) := by
    rw [← takeWhile_eq_filter h, ← dropWhile_eq_filter h, List.takeWhile_append_dropWhile]
  rw [insert_eq_filter h]
  conv_rhs => rw [hsplit]
  by_cases het : key e = t
  · subst het
    have hgt : (l.filter fun x => decide (key e < key x)).filter
        (fun x => decide (key x = key e)) = [] := by
      rw [List.filter_eq_nil_iff]
      intro x hx hxe
      have hex : key e < key x := by simpa using (List.mem_filter.mp hx).2
      exact hex.ne (of_decide_eq_true hxe).symm
    simp only [List.filter_append, List.filter_cons, hgt, decide_true, if_true,
      List.append_nil, List.filter_nil]
  · simp [het]

/-- **Insertion is stable**: it sorts in an entry that came last. -/
theorem StableSort.insert (h : StableSort key q l) (e : ε) :
    StableSort key (insert key e q) (l ++ [e]) where
  sorted := sorted_insert h.sorted
  perm := (perm_insert e q).trans ((h.perm.cons e).trans (List.perm_append_singleton e l).symm)
  ties := fun t => by
    rw [filter_insert h.sorted, List.filter_append, h.ties, List.filter_append]

end StableQueue

import Mathlib.Data.Nat.Notation
import Mathlib.Logic.Function.Basic
import Mathlib.Tactic.Common

/-!
# Heaps of Allocated Nodes

A heap maps addresses to the nodes allocated there. Pointers are nullable, so a pointer
is an `Option Ptr`, and every access is checked: a read or a write through the null
pointer or through the address of a freed node is a fault, which shows as `none`. A read
`p->f` is the heap applied to the address. A program over a heap that returns `some` has
therefore followed no null and no dangling pointer and has freed no node twice.

## Main definitions

* `Heap.store`, `Heap.storeIf`: the checked writes `p->f = v` and `if (p) p->f = v`.
* `Heap.alloc`, `Heap.delete`: allocation at a given address, and the checked `delete`.
* `Heap.view`: a part of every node, such as its payload without its links.
-/

/-- An address of the heap; the null pointer is not one of them. -/
abbrev Ptr : Type := ℕ

/-- A heap of nodes: the node allocated at each address, if any. -/
abbrev Heap (α : Type) : Type := Ptr → Option α

namespace Heap

variable {α : Type}

/-- Change the node a nullable pointer designates. -/
def store (h : Heap α) (p : Option Ptr) (f : α → α) : Option (Heap α) := do
  let q ← p
  let a ← h q
  pure (Function.update h q (some (f a)))

/-- Change the node a pointer designates unless the pointer is null. -/
def storeIf (h : Heap α) (p : Option Ptr) (f : α → α) : Option (Heap α) :=
  match p with
  | none => some h
  | some q => h.store (some q) f

/-- Put a new node at an address handed out by the allocator. -/
def alloc (h : Heap α) (p : Ptr) (a : α) : Heap α :=
  Function.update h p (some a)

/-- Free the node at an address; freeing an address that holds none is a fault. -/
def delete (h : Heap α) (p : Ptr) : Option (Heap α) := do
  let _ ← h p
  pure (Function.update h p none)

/-! ### The accesses at allocated addresses -/

@[simp] theorem storeIf_none (h : Heap α) (f : α → α) : h.storeIf none f = some h := rfl

@[simp] theorem storeIf_some (h : Heap α) (p : Ptr) (f : α → α) :
    h.storeIf (some p) f = h.store (some p) f := rfl

/-- A write to an allocated node succeeds and changes that node only. -/
theorem store_eq {h : Heap α} {p : Ptr} {a : α} (ha : h p = some a) (f : α → α) :
    h.store (some p) f = some (Function.update h p (some (f a))) := by
  simp [store, ha]

/-- Freeing an allocated node succeeds and changes that address only. -/
theorem delete_eq {h : Heap α} {p : Ptr} {a : α} (ha : h p = some a) :
    h.delete p = some (Function.update h p none) := by
  simp [delete, ha]

/-- A conditional write succeeds when the pointer is null or its node allocated. -/
theorem exists_storeIf {h : Heap α} {p : Option Ptr} (hp : ∀ q ∈ p, ∃ a, h q = some a)
    (f : α → α) : ∃ h', h.storeIf p f = some h' := by
  cases p with
  | none => exact ⟨h, rfl⟩
  | some q =>
      obtain ⟨a, ha⟩ := hp q rfl
      exact ⟨_, store_eq ha f⟩

/-- A successful conditional write changed nothing or one allocated node. -/
theorem storeIf_cases {h h' : Heap α} {p : Option Ptr} {f : α → α}
    (hs : h.storeIf p f = some h') :
    (p = none ∧ h' = h) ∨
      ∃ q a, p = some q ∧ h q = some a ∧ h' = Function.update h q (some (f a)) := by
  cases p with
  | none => exact Or.inl ⟨rfl, (Option.some.inj hs).symm⟩
  | some q =>
      simp only [storeIf_some, store, Option.bind_eq_bind, Option.bind_some,
        Option.bind_eq_some_iff, Option.pure_def, Option.some.injEq] at hs
      obtain ⟨a, ha, rfl⟩ := hs
      exact Or.inr ⟨q, a, rfl, ha, rfl⟩

/-- Freeing a node commutes with a conditional write to another one. -/
theorem storeIf_update_none {h : Heap α} {p : Option Ptr} {q : Ptr} (hp : p ≠ some q)
    (f : α → α) :
    Heap.storeIf (Function.update h q none) p f =
      (h.storeIf p f).map fun h' => Function.update h' q none := by
  cases p with
  | none => rfl
  | some c =>
      have hc : c ≠ q := fun he => hp (congrArg some he)
      cases ha : h c with
      | none => simp [store, ha, hc]
      | some a => simp [store, ha, hc, Function.update_comm hc]

/-- A conditional write through a pointer that is known not to be null is a write through it. -/
theorem storeIf_of_eq_some {h : Heap α} {p : Option Ptr} {q : Ptr} (hp : p = some q)
    (f : α → α) : h.storeIf p f = h.store p f := by
  rw [hp, storeIf_some]

/-! ### Views: what a heap holds besides its links -/

/-- The part `V` of the node at each address. -/
def view {β : Type} (V : α → β) (h : Heap α) (p : Ptr) : Option β :=
  (h p).map V

variable {β : Type} (V : α → β)

/-- The view of a heap changes where the heap does, to the viewed part of the new node. -/
@[simp] theorem view_update (h : Heap α) (p : Ptr) (o : Option α) :
    view V (Function.update h p o) = Function.update (view V h) p (o.map V) := by
  funext q
  by_cases hq : q = p
  · subst hq; simp [view]
  · simp [view, hq]

/-- Rewriting a node without touching the viewed part changes no view. -/
theorem view_update_same {h : Heap α} {p : Ptr} {a : α} (ha : h p = some a) {f : α → α}
    (hV : ∀ a, V (f a) = V a) : view V (Function.update h p (some (f a))) = view V h := by
  rw [view_update, Option.map_some, hV]
  exact Function.update_eq_self_iff.mpr (by simp [view, ha])

/-- A conditional write that does not touch the viewed part changes no view. -/
theorem view_storeIf {h h' : Heap α} {p : Option Ptr} {f : α → α}
    (hs : h.storeIf p f = some h') (hV : ∀ a, V (f a) = V a) : view V h' = view V h := by
  obtain ⟨-, rfl⟩ | ⟨q, a, -, ha, rfl⟩ := storeIf_cases hs
  · rfl
  · exact view_update_same V ha hV

end Heap

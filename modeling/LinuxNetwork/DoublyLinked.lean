import Mathlib.Data.List.Nodup
import LinuxNetwork.Heap

/-!
# Doubly Linked Lists in a Heap

A doubly linked list is described by the two link functions of its nodes, `nx` for the
forward and `pv` for the backward links. `Seg nx pv b hd l x` says that the chain that
starts at the pointer `hd` visits exactly the nodes of `l`, in order, and ends at the
pointer `x`, and that every backward link leads to the node before, the first one to `b`.
A null-terminated list with head pointer `hd` is `Seg nx pv none hd l none`.

The second half gives the effect of the three pointer surgeries every such list needs, each
as a statement about updated link functions, and the link functions of a heap of nodes.

## Main results

* `Seg.append_cons`: a segment splits at any of its nodes.
* `Seg.unique`: a null-terminated chain determines its list.
* `Seg.reback`, `Seg.insert_after`, `Seg.unlink`: redirecting the first backward link,
  linking a new node behind a given node, and unlinking the node behind a given node.
* `Seg.exec_push_front`, `Seg.exec_insert_after`, `Seg.exec_unlink`: the writes to a heap that
  do this.
* `Seg.freeChain_eq`: freeing a chain from its head.
-/

namespace DoublyLinked

variable {ι : Type*}

/-- The chain from `hd` visits the nodes `l` and ends at `x`; backward links mirror it,
starting from `b`. -/
def Seg (nx pv : ι → Option ι) : Option ι → Option ι → List ι → Option ι → Prop
  | _, hd, [], x => hd = x
  | b, hd, p :: l, x => hd = some p ∧ pv p = b ∧ Seg nx pv (some p) (nx p) l x

/-- The last node of a segment, or the pointer `b` in front of it when it is empty. -/
def lastPtr : Option ι → List ι → Option ι
  | b, [] => b
  | _, p :: l => lastPtr (some p) l

variable {nx pv : ι → Option ι} {b hd x : Option ι} {l l₁ l₂ : List ι} {a c p : ι}

@[simp] theorem seg_nil : Seg nx pv b hd [] x ↔ hd = x := Iff.rfl

/-- A segment begins with its first node, whose backward link leads to what stands before it,
and goes on behind it. -/
@[simp] theorem seg_cons :
    Seg nx pv b hd (p :: l) x ↔ hd = some p ∧ pv p = b ∧ Seg nx pv (some p) (nx p) l x :=
  Iff.rfl

@[simp] theorem lastPtr_nil (b : Option ι) : lastPtr b [] = b := rfl

/-- What stands in front of the part behind `p` is `p`, or the last node of the part. -/
@[simp] theorem lastPtr_append_cons (b : Option ι) (l₁ : List ι) (p : ι) (l₂ : List ι) :
    lastPtr b (l₁ ++ p :: l₂) = lastPtr (some p) l₂ := by
  induction l₁ generalizing b with
  | nil => rfl
  | cons q l₁ ih => exact ih (some q)

/-! ### Reading a segment -/

/-- The first pointer of a null-terminated segment is the head of its list, null if there is
none. -/
theorem Seg.head_eq (h : Seg nx pv b hd l none) : hd = l.head? := by
  cases l with
  | nil => exact h
  | cons p l => exact h.1

/-- **Splitting at a node.** A segment that passes `p` is a segment up to `p` and a
segment behind it. -/
theorem Seg.append_cons :
    Seg nx pv b hd (l₁ ++ p :: l₂) x ↔
      Seg nx pv b hd l₁ (some p) ∧ pv p = lastPtr b l₁ ∧
        Seg nx pv (some p) (nx p) l₂ x := by
  induction l₁ generalizing b hd with
  | nil => simp
  | cons q l₁ ih =>
      simp only [List.cons_append, seg_cons, ih, lastPtr]
      tauto

/-- The forward link of a node leads to the node behind it, and is null for the last one. -/
theorem Seg.next_eq (h : Seg nx pv b hd (l₁ ++ p :: l₂) none) : nx p = l₂.head? :=
  (Seg.append_cons.mp h).2.2.head_eq

/-- A segment depends only on the links of its own nodes, so writes elsewhere keep it. Induction
on the nodes. -/
theorem Seg.congr {nx' pv' : ι → Option ι} (h : Seg nx pv b hd l x)
    (hn : ∀ q ∈ l, nx' q = nx q) (hp : ∀ q ∈ l, pv' q = pv q) : Seg nx' pv' b hd l x := by
  induction l generalizing b hd with
  | nil => exact h
  | cons q l ih =>
      obtain ⟨rfl, rfl, hl⟩ := h
      rw [seg_cons, hn q (by simp), hp q (by simp)]
      refine ⟨rfl, rfl, ih hl ?_ ?_⟩
      · exact fun r hr => hn r (by simp [hr])
      · exact fun r hr => hp r (by simp [hr])

/-- **Uniqueness.** A null-terminated chain determines the list of its nodes. -/
theorem Seg.unique {b' : Option ι} {l' : List ι} (h : Seg nx pv b hd l none)
    (h' : Seg nx pv b' hd l' none) : l = l' := by
  induction l generalizing b b' hd l' with
  | nil =>
      obtain rfl := h
      cases l' with
      | nil => rfl
      | cons q l' => cases h'.1
  | cons p l ih =>
      obtain ⟨rfl, -, hl⟩ := h
      cases l' with
      | nil => cases h'
      | cons q l' =>
          obtain ⟨hpq, -, hl'⟩ := h'
          obtain rfl : p = q := Option.some.inj hpq
          rw [ih hl hl']

/-- The head of a list does not designate a node outside it. -/
theorem head?_ne_some_of_notMem (h : p ∉ l) : l.head? ≠ some p :=
  fun hp => h (List.mem_of_mem_head? hp)

/-! ### Pointer surgeries -/

variable [DecidableEq ι]

/-- The conditional write `if (x) x->link = v` on a link function. -/
def relink (f : ι → Option ι) (x : Option ι) (v : Option ι) : ι → Option ι :=
  match x with
  | none => f
  | some c => Function.update f c v

@[simp] theorem relink_none (f : ι → Option ι) (v : Option ι) : relink f none v = f := rfl

@[simp] theorem relink_some (f : ι → Option ι) (c : ι) (v : Option ι) :
    relink f (some c) v = Function.update f c v := rfl

/-- A conditional write leaves the links of the other nodes alone. -/
theorem relink_of_ne {f : ι → Option ι} {v : Option ι} {q : ι} (h : x ≠ some q) :
    relink f x v q = f q := by
  cases x with
  | none => rfl
  | some c =>
      have hqc : q ≠ c := fun hq => h (congrArg some hq.symm)
      simp [relink, hqc]

/-- A write outside a list leaves the links of its nodes alone. -/
theorem update_of_mem {f : ι → Option ι} {v : Option ι} {q : ι} (ha : a ∉ l)
    (hq : q ∈ l) : Function.update f a v q = f q :=
  Function.update_of_ne (ne_of_mem_of_not_mem hq ha) v f

/-- Redirecting the backward link of the first node changes what stands before the segment, and
nothing in it. -/
theorem Seg.reback (h : Seg nx pv b hd l none) (hl : l.Nodup) (b' : Option ι) :
    Seg nx (relink pv hd b') b' hd l none := by
  cases l with
  | nil => exact h
  | cons q l =>
      obtain ⟨rfl, -, hq⟩ := h
      have hql : q ∉ l := (List.nodup_cons.mp hl).1
      refine ⟨rfl, Function.update_self .., hq.congr (fun _ _ => rfl) ?_⟩
      exact fun r hr => update_of_mem hql hr

/-- Linking a new node behind the node `a`: four links are written, the last one only if there
is a node behind `a`. -/
theorem Seg.insert_after (h : Seg nx pv b hd (l₁ ++ a :: l₂) none)
    (hl : (l₁ ++ a :: l₂).Nodup) (hp : p ∉ l₁ ++ a :: l₂) :
    Seg (Function.update (Function.update nx p (nx a)) a (some p))
      (relink (Function.update pv p (some a)) (nx a) (some p)) b hd
      (l₁ ++ a :: p :: l₂) none := by
  obtain ⟨h₁, ha, h₂⟩ := Seg.append_cons.mp h
  rw [List.nodup_append, List.nodup_cons] at hl
  obtain ⟨-, ⟨hal₂, hl₂⟩, hdis⟩ := hl
  simp only [List.mem_append, List.mem_cons, not_or] at hp
  obtain ⟨hpl₁, hpa, hpl₂⟩ := hp
  have hal₁ : a ∉ l₁ := fun hm => hdis a hm a (by simp) rfl
  have hna : nx a = l₂.head? := h₂.head_eq
  have hback : ∀ r, r ∉ l₂ → r ≠ p →
      relink (Function.update pv p (some a)) (nx a) (some p) r = pv r := by
    intro r hr hrp
    rw [relink_of_ne (hna ▸ head?_ne_some_of_notMem hr), Function.update_of_ne hrp]
  refine Seg.append_cons.mpr ⟨h₁.congr ?_ ?_, ?_, ?_⟩
  · exact fun r hr => (update_of_mem hal₁ hr).trans (update_of_mem hpl₁ hr)
  · intro r hr
    refine hback r (fun hr₂ => hdis r hr r (by simp [hr₂]) rfl) ?_
    exact ne_of_mem_of_not_mem hr hpl₁
  · exact (hback a hal₂ (Ne.symm hpa)).trans ha
  · refine ⟨Function.update_self .., ?_, ?_⟩
    · rw [relink_of_ne (hna ▸ head?_ne_some_of_notMem hpl₂), Function.update_self]
    · rw [Function.update_of_ne hpa, Function.update_self]
      refine (Seg.reback (b := some a) (h₂.congr ?_ ?_) hl₂ (some p))
      · exact fun r hr => (update_of_mem hal₂ hr).trans (update_of_mem hpl₂ hr)
      · exact fun r hr => update_of_mem hpl₂ hr

/-- Unlinking the node `p` behind the node `a`: its neighbours are linked to each other, and its
own links stay as they are. -/
theorem Seg.unlink (h : Seg nx pv b hd (l₁ ++ a :: p :: l₂) none)
    (hl : (l₁ ++ a :: p :: l₂).Nodup) :
    Seg (Function.update nx a (nx p)) (relink pv (nx p) (some a)) b hd
      (l₁ ++ a :: l₂) none := by
  obtain ⟨h₁, ha, -, -, h₂⟩ := Seg.append_cons.mp h
  rw [List.nodup_append, List.nodup_cons, List.nodup_cons] at hl
  obtain ⟨-, ⟨hap, -, hl₂⟩, hdis⟩ := hl
  have hal₂ : a ∉ l₂ := fun hm => hap (by simp [hm])
  have hal₁ : a ∉ l₁ := fun hm => hdis a hm a (by simp) rfl
  have hnp : nx p = l₂.head? := h₂.head_eq
  have hback : ∀ r, r ∉ l₂ → relink pv (nx p) (some a) r = pv r := fun r hr =>
    relink_of_ne (hnp ▸ head?_ne_some_of_notMem hr)
  refine Seg.append_cons.mpr ⟨h₁.congr ?_ ?_, (hback a hal₂).trans ha, ?_⟩
  · exact fun r hr => update_of_mem hal₁ hr
  · exact fun r hr => hback r (fun hr₂ => hdis r hr r (by simp [hr₂]) rfl)
  · rw [Function.update_self]
    refine (Seg.reback (b := some p) (h₂.congr ?_ (fun _ _ => rfl)) hl₂ (some a))
    exact fun r hr => update_of_mem hal₂ hr

/-! ### The link functions of a heap of nodes -/

/-- Nodes that carry a forward and a backward link. -/
class Linked (α : Type) where
  /-- The forward link of a node. -/
  next : α → Option Ptr
  /-- The backward link of a node. -/
  prev : α → Option Ptr

variable {α : Type} [Linked α]

/-- The forward link stored at each address. -/
def nextOf (h : Heap α) (p : Ptr) : Option Ptr :=
  (h p).bind Linked.next

/-- The backward link stored at each address. -/
def prevOf (h : Heap α) (p : Ptr) : Option Ptr :=
  (h p).bind Linked.prev

/-- The forward link of an allocated node is the one that is stored in it. -/
theorem nextOf_eq {h : Heap α} {p : Ptr} {a : α} (ha : h p = some a) :
    nextOf h p = Linked.next a := by
  simp [nextOf, ha]

/-- The backward link of an allocated node is the one that is stored in it. -/
theorem prevOf_eq {h : Heap α} {p : Ptr} {a : α} (ha : h p = some a) :
    prevOf h p = Linked.prev a := by
  simp [prevOf, ha]

/-- A node that is stored anew has the forward link of its new contents, and a freed one has
none. -/
@[simp] theorem nextOf_update (h : Heap α) (p : Ptr) (o : Option α) :
    nextOf (Function.update h p o) = Function.update (nextOf h) p (o.bind Linked.next) := by
  funext q
  by_cases hq : q = p
  · subst hq; simp [nextOf]
  · simp [nextOf, hq]

/-- A node that is stored anew has the backward link of its new contents, and a freed one has
none. -/
@[simp] theorem prevOf_update (h : Heap α) (p : Ptr) (o : Option α) :
    prevOf (Function.update h p o) = Function.update (prevOf h) p (o.bind Linked.prev) := by
  funext q
  by_cases hq : q = p
  · subst hq; simp [prevOf]
  · simp [prevOf, hq]

/-- A write that keeps the forward link of a node changes no forward link. -/
theorem nextOf_update_same {h : Heap α} {p : Ptr} {a b : α} (ha : h p = some a)
    (hb : Linked.next b = Linked.next a) :
    nextOf (Function.update h p (some b)) = nextOf h := by
  rw [nextOf_update, Option.bind_some, hb]
  exact Function.update_eq_self_iff.mpr (nextOf_eq ha).symm

/-- A write that keeps the backward link of a node changes no backward link. -/
theorem prevOf_update_same {h : Heap α} {p : Ptr} {a b : α} (ha : h p = some a)
    (hb : Linked.prev b = Linked.prev a) :
    prevOf (Function.update h p (some b)) = prevOf h := by
  rw [prevOf_update, Option.bind_some, hb]
  exact Function.update_eq_self_iff.mpr (prevOf_eq ha).symm

/-- The write `if (x) x->prev = v` leaves the forward links alone, also where `x` is null. -/
theorem nextOf_storeIf {h h' : Heap α} {x : Option Ptr} {f : α → α}
    (hs : h.storeIf x f = some h') (hn : ∀ a, Linked.next (f a) = Linked.next a) :
    nextOf h' = nextOf h := by
  obtain ⟨-, rfl⟩ | ⟨q, a, -, ha, rfl⟩ := Heap.storeIf_cases hs
  · rfl
  · exact nextOf_update_same ha (hn a)

/-- The write `if (x) x->prev = v` is the conditional write on the backward links. -/
theorem prevOf_storeIf {h h' : Heap α} {x v : Option Ptr} {f : α → α}
    (hs : h.storeIf x f = some h') (hp : ∀ a, Linked.prev (f a) = v) :
    prevOf h' = relink (prevOf h) x v := by
  obtain ⟨rfl, rfl⟩ | ⟨q, a, rfl, ha, rfl⟩ := Heap.storeIf_cases hs
  · rfl
  · rw [prevOf_update, Option.bind_some, hp, relink_some]

/-- Freeing a node outside a segment keeps the segment, none of whose links is read from that
node. -/
theorem Seg.delete {h : Heap α} {b hd x : Option Ptr} {l : List Ptr} {p : Ptr}
    (hs : Seg (nextOf h) (prevOf h) b hd l x) (hp : p ∉ l) :
    Seg (nextOf (Function.update h p none)) (prevOf (Function.update h p none)) b hd l x := by
  rw [nextOf_update, prevOf_update]
  exact hs.congr (fun _ hq => update_of_mem hp hq) (fun _ hq => update_of_mem hp hq)

/-! ### Execution rules

Each rule runs the pointer code of one surgery on a heap: the writes succeed, the chain is
the one of the surgery above, nodes off the chain are untouched, and so is every part of
the nodes that the writes keep. -/

/-- Every node of the list is allocated. -/
def Allocated (h : Heap α) (l : List Ptr) : Prop :=
  ∀ q ∈ l, ∃ n, h q = some n

/-- **Rebacking.** The write `if (hd) hd->prev = v` at the front of a chain, which may have no
nodes. It succeeds, and changes what stands before the chain. -/
theorem Seg.exec_reback {h : Heap α} {b hd v : Option Ptr} {l : List Ptr} {g : α → α}
    (hs : Seg (nextOf h) (prevOf h) b hd l none) (hl : l.Nodup) (ha : Allocated h l)
    (hn : ∀ n, Linked.next (g n) = Linked.next n) (hv : ∀ n, Linked.prev (g n) = v) :
    ∃ h', h.storeIf hd g = some h' ∧ Seg (nextOf h') (prevOf h') v hd l none ∧
      (∀ q, q ∉ l → h' q = h q) ∧
      ∀ {β : Type} (V : α → β), (∀ n, V (g n) = V n) → Heap.view V h' = Heap.view V h := by
  have hhd : hd = l.head? := hs.head_eq
  obtain ⟨h', hh'⟩ := Heap.exists_storeIf
    (fun q hq => ha q (List.mem_of_mem_head? (hhd ▸ hq))) g
  refine ⟨h', hh', ?_, ?_, fun V hV => Heap.view_storeIf V hh' hV⟩
  · rw [nextOf_storeIf hh' hn, prevOf_storeIf hh' hv]
    exact hs.reback hl v
  · intro q hq
    obtain ⟨-, rfl⟩ | ⟨c, n, hc, -, rfl⟩ := Heap.storeIf_cases hh'
    · rfl
    · refine Function.update_of_ne (fun hqc => ?_) _ _
      exact head?_ne_some_of_notMem hq (by rw [← hhd, hc, hqc])

/-- **Pushing.** The write `if (hd) hd->prev = p` behind a node `p` that already points to
the head of the chain. -/
theorem Seg.exec_push_front {h : Heap α} {hd : Option Ptr} {l : List Ptr} {p : Ptr}
    {g : α → α} (hs : Seg (nextOf h) (prevOf h) none hd l none) (hl : l.Nodup)
    (ha : Allocated h l) (hp : p ∉ l) (hnp : nextOf h p = hd) (hpp : prevOf h p = none)
    (hn : ∀ n, Linked.next (g n) = Linked.next n)
    (hv : ∀ n, Linked.prev (g n) = some p) :
    ∃ h', h.storeIf hd g = some h' ∧
      Seg (nextOf h') (prevOf h') none (some p) (p :: l) none ∧
      (∀ q, q ∉ l → h' q = h q) ∧
      ∀ {β : Type} (V : α → β), (∀ n, V (g n) = V n) → Heap.view V h' = Heap.view V h := by
  obtain ⟨h', hrun, hseg, hoff, hview⟩ := hs.exec_reback hl ha hn hv
  refine ⟨h', hrun, ⟨rfl, ?_, ?_⟩, hoff, hview⟩
  · rw [prevOf, hoff p hp]
    exact hpp
  · rwa [nextOf, hoff p hp, ← nextOf, hnp]

/-- **Unlinking.** The writes `p->prev->next = p->next` and
`if (p->next) p->next->prev = p->prev` for a node `p` behind a node `a`. -/
theorem Seg.exec_unlink {h : Heap α} {b hd : Option Ptr} {l₁ l₂ : List Ptr} {a p : Ptr}
    {t : α} {f g : α → α} (hs : Seg (nextOf h) (prevOf h) b hd (l₁ ++ a :: p :: l₂) none)
    (hl : (l₁ ++ a :: p :: l₂).Nodup) (ha : Allocated h (l₁ ++ a :: p :: l₂))
    (ht : h p = some t) (hfn : ∀ n, Linked.next (f n) = Linked.next t)
    (hfp : ∀ n, Linked.prev (f n) = Linked.prev n)
    (hgn : ∀ n, Linked.next (g n) = Linked.next n)
    (hgp : ∀ n, Linked.prev (g n) = Linked.prev t) :
    ∃ h₁ h₂, h.store (Linked.prev t) f = some h₁ ∧ h₁ p = some t ∧
      h₁.storeIf (Linked.next t) g = some h₂ ∧ h₂ p = some t ∧
      Seg (nextOf h₂) (prevOf h₂) b hd (l₁ ++ a :: l₂) none ∧
      (∀ q, q ∉ l₁ ++ a :: p :: l₂ → h₂ q = h q) ∧
      ∀ {β : Type} (V : α → β), (∀ n, V (f n) = V n) → (∀ n, V (g n) = V n) →
        Heap.view V h₂ = Heap.view V h := by
  have hpa : Linked.prev t = some a := by
    rw [← prevOf_eq ht]
    exact ((Seg.append_cons.mp hs).2.2).2.1
  have hpn : Linked.next t = l₂.head? := by
    rw [← nextOf_eq ht]
    exact ((Seg.append_cons.mp hs).2.2).2.2.head_eq
  obtain ⟨na, hna⟩ := ha a (by simp)
  have hne : p ≠ a ∧ a ∉ l₂ ∧ p ∉ l₂ := by
    have := (List.nodup_append.mp hl).2.1
    simp only [List.nodup_cons, List.mem_cons, not_or] at this
    exact ⟨Ne.symm this.1.1, this.1.2, this.2.1⟩
  have h₁p : Function.update h a (some (f na)) p = some t := by
    rw [Function.update_of_ne hne.1, ht]
  have hstore : h.store (Linked.prev t) f = some (Function.update h a (some (f na))) := by
    rw [hpa]
    exact Heap.store_eq hna f
  obtain ⟨h₂, hh₂⟩ := Heap.exists_storeIf (h := Function.update h a (some (f na)))
    (p := Linked.next t) (f := g) (by
      intro q hq
      have hq₂ : q ∈ l₂ := List.mem_of_mem_head? (hpn ▸ hq)
      obtain ⟨n, hn⟩ := ha q (by simp [hq₂])
      exact ⟨n, by rw [Function.update_of_ne (ne_of_mem_of_not_mem hq₂ hne.2.1), hn]⟩)
  have hoff : ∀ q, q ∉ l₂ → h₂ q = Function.update h a (some (f na)) q := by
    intro q hq
    obtain ⟨-, rfl⟩ | ⟨c, n, hc, -, rfl⟩ := Heap.storeIf_cases hh₂
    · rfl
    · refine Function.update_of_ne (fun hqc => ?_) _ _
      exact head?_ne_some_of_notMem hq (by rw [← hpn, hc, hqc])
  refine ⟨_, h₂, hstore, h₁p, hh₂, (hoff p hne.2.2).trans h₁p, ?_, ?_, ?_⟩
  · rw [nextOf_storeIf hh₂ hgn, prevOf_storeIf hh₂ hgp, nextOf_update, Option.bind_some,
      hfn, prevOf_update_same hna (hfp na), hpa]
    have := hs.unlink hl
    rwa [nextOf_eq ht] at this
  · intro q hq
    simp only [List.mem_append, List.mem_cons, not_or] at hq
    rw [hoff q hq.2.2.2, Function.update_of_ne hq.2.1]
  · intro β V hfV hgV
    rw [Heap.view_storeIf V hh₂ hgV, Heap.view_update_same V hna hfV]

/-- **Linking.** The writes `a->next = p`, `p->prev = a`, `p->next = x` and
`if (x) x->prev = p` for a node `p` outside the chain, where `x` is the node behind `a`. -/
theorem Seg.exec_insert_after {h : Heap α} {b hd : Option Ptr} {l₁ l₂ : List Ptr}
    {a p : Ptr} {t : α} (f₁ f₂ f₃ f₄ : α → α)
    (hs : Seg (nextOf h) (prevOf h) b hd (l₁ ++ a :: l₂) none)
    (hl : (l₁ ++ a :: l₂).Nodup) (ha : Allocated h (l₁ ++ a :: l₂)) (ht : h p = some t)
    (hp : p ∉ l₁ ++ a :: l₂)
    (h₁n : ∀ n, Linked.next (f₁ n) = some p) (h₁p : ∀ n, Linked.prev (f₁ n) = Linked.prev n)
    (h₂n : ∀ n, Linked.next (f₂ n) = Linked.next n) (h₂p : ∀ n, Linked.prev (f₂ n) = some a)
    (h₃n : ∀ n, Linked.next (f₃ n) = l₂.head?)
    (h₃p : ∀ n, Linked.prev (f₃ n) = Linked.prev n)
    (h₄n : ∀ n, Linked.next (f₄ n) = Linked.next n)
    (h₄p : ∀ n, Linked.prev (f₄ n) = some p) :
    ∃ k₁ k₂ k₃ k₄, h.store (some a) f₁ = some k₁ ∧ k₁.store (some p) f₂ = some k₂ ∧
      k₂.store (some p) f₃ = some k₃ ∧ k₃.storeIf l₂.head? f₄ = some k₄ ∧
      Seg (nextOf k₄) (prevOf k₄) b hd (l₁ ++ a :: p :: l₂) none ∧
      (∀ q, q ∉ l₁ ++ a :: l₂ → q ≠ p → k₄ q = h q) ∧
      ∀ {β : Type} (V : α → β), (∀ n, V (f₁ n) = V n) → (∀ n, V (f₂ n) = V n) →
        (∀ n, V (f₃ n) = V n) → (∀ n, V (f₄ n) = V n) → Heap.view V k₄ = Heap.view V h := by
  obtain ⟨na, hna⟩ := ha a (by simp)
  have hmem : p ∉ l₁ ∧ p ≠ a ∧ p ∉ l₂ := by simpa using hp
  have hnext : nextOf h a = l₂.head? := hs.next_eq
  set k₁ := Function.update h a (some (f₁ na)) with hk₁
  have hk₁p : k₁ p = some t := by rw [hk₁, Function.update_of_ne hmem.2.1, ht]
  set k₂ := Function.update k₁ p (some (f₂ t)) with hk₂
  have hk₂p : k₂ p = some (f₂ t) := Function.update_self ..
  set k₃ := Function.update k₂ p (some (f₃ (f₂ t))) with hk₃
  have hal₂ : a ∉ l₂ := by
    have := (List.nodup_append.mp hl).2.1
    exact (List.nodup_cons.mp this).1
  have hk₃l : ∀ q ∈ l₂, k₃ q = h q := by
    intro q hq
    have hqp : q ≠ p := ne_of_mem_of_not_mem hq hmem.2.2
    have hqa : q ≠ a := ne_of_mem_of_not_mem hq hal₂
    rw [hk₃, Function.update_of_ne hqp, hk₂, Function.update_of_ne hqp, hk₁,
      Function.update_of_ne hqa]
  obtain ⟨k₄, hk₄⟩ := Heap.exists_storeIf (h := k₃) (p := l₂.head?) (f := f₄) (by
    intro q hq
    have hq₂ : q ∈ l₂ := List.mem_of_mem_head? hq
    obtain ⟨n, hn⟩ := ha q (by simp [hq₂])
    exact ⟨n, (hk₃l q hq₂).trans hn⟩)
  refine ⟨k₁, k₂, k₃, k₄, Heap.store_eq hna f₁, Heap.store_eq hk₁p f₂,
    Heap.store_eq hk₂p f₃, hk₄, ?_, ?_, ?_⟩
  · have hn : nextOf k₄ =
        Function.update (Function.update (nextOf h) p (nextOf h a)) a (some p) := by
      rw [nextOf_storeIf hk₄ h₄n, hk₃, nextOf_update, Option.bind_some, h₃n, hk₂,
        nextOf_update_same hk₁p (h₂n t), hk₁, nextOf_update, Option.bind_some, h₁n, hnext,
        Function.update_comm hmem.2.1]
    have hpv : prevOf k₄ =
        relink (Function.update (prevOf h) p (some a)) (nextOf h a) (some p) := by
      rw [prevOf_storeIf hk₄ h₄p, hk₃, prevOf_update_same hk₂p (h₃p _), hk₂, prevOf_update,
        Option.bind_some, h₂p, hk₁, prevOf_update_same hna (h₁p na), hnext]
    rw [hn, hpv]
    exact hs.insert_after hl hp
  · intro q hq hqp
    have hoff : k₄ q = k₃ q := by
      obtain ⟨-, rfl⟩ | ⟨c, n, hc, -, rfl⟩ := Heap.storeIf_cases hk₄
      · rfl
      · refine Function.update_of_ne (fun hqc => hq ?_) _ _
        simp [hqc, List.mem_of_mem_head? hc]
    have hqa : q ≠ a := fun hqa => hq (by simp [hqa])
    rw [hoff, hk₃, Function.update_of_ne hqp, hk₂, Function.update_of_ne hqp, hk₁,
      Function.update_of_ne hqa]
  · intro β V hV₁ hV₂ hV₃ hV₄
    rw [Heap.view_storeIf V hk₄ hV₄, hk₃, Heap.view_update_same V hk₂p hV₃, hk₂,
      Heap.view_update_same V hk₁p hV₂, hk₁, Heap.view_update_same V hna hV₁]

/-! ### Freeing a chain -/

/-- The loop `while (tmp) { head = tmp->next; delete tmp; tmp = head; }` from `tmp`, with the nodes
it frees, in order. -/
def freeChain : ℕ → Option Ptr → Heap α → Option (Heap α × List Ptr)
  | _, none, h => some (h, [])
  | 0, some _, _ => none
  | fuel + 1, some tmp, h => do
      let n ← h tmp
      let head := Linked.next n
      let h ← h.delete tmp
      let (h, freed) ← freeChain fuel head h
      some (h, tmp :: freed)

/-- **Freeing a chain** frees each of its nodes once and touches nothing else. -/
theorem Seg.freeChain_eq {b hd : Option Ptr} {l : List Ptr} {fuel : ℕ} :
    ∀ {h : Heap α}, Seg (nextOf h) (prevOf h) b hd l none → l.Nodup → Allocated h l →
      l.length ≤ fuel →
      freeChain fuel hd h = some (fun q => if q ∈ l then none else h q, l) := by
  induction l generalizing b hd fuel with
  | nil =>
      intro h hs _ _ _
      obtain rfl : hd = none := hs
      simp [freeChain]
  | cons p l ih =>
      intro h hs hl ha hfuel
      obtain ⟨rfl, -, hs⟩ := hs
      obtain ⟨hp, hl⟩ := List.nodup_cons.mp hl
      obtain ⟨n, hn⟩ := ha p List.mem_cons_self
      obtain ⟨fuel, rfl⟩ : ∃ f, fuel = f + 1 := ⟨fuel - 1, by simp at hfuel; omega⟩
      have hrest : Allocated (Function.update h p none) l := by
        intro q hq
        obtain ⟨n, hn⟩ := ha q (List.mem_cons_of_mem p hq)
        exact ⟨n, by rw [Function.update_of_ne (ne_of_mem_of_not_mem hq hp), hn]⟩
      have hrun := ih (hs.delete hp) hl hrest (by simpa using hfuel)
      rw [nextOf_eq hn] at hrun
      have hheap : (fun q => if q ∈ l then none else Function.update h p none q) =
          fun q => if q ∈ p :: l then none else h q := by
        funext q
        by_cases hq : q = p
        · subst hq
          simp
        · simp [hq]
      simp only [freeChain, hn, Heap.delete_eq hn, Option.bind_eq_bind, Option.bind_some, hrun,
        hheap]

end DoublyLinked

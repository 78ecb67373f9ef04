import LinuxNetwork.SortTimerList
import LinuxNetwork.StableQueue

/-!
# The Links of the Sorted Timer List

`Rep l es` says that the list represents the queue of entries `es`: the chain from `head`
visits their timers, in order, with mirrored backward links, the timers hold the entries'
data, and `tail` designates the last timer if there is one. (In an empty list `tail` may
dangle: `tick` never resets it.)

Each operation gets one specification: it succeeds, and its effect on the queue is a
function of the queue. No specification assumes that the queue is sorted; they say what
the walks do to any queue, which is what a list that has lost its order needs.

## Main results

* `Rep.addTimer`, `Rep.delTimer`: insertion and deletion.
* `Rep.adjustTimer`: the walk of `adjust_timer`, towards the tail only.
* `Rep.tickLoop`: the loop of `tick`, for callbacks that leave the list alone.
-/

open DoublyLinked

namespace LinuxNetwork.SortTimerList

variable {U : Type}

/-- A timer without its links: its address, its expiry and its user data. -/
structure Entry (U : Type) where
  timer : Ptr
  expire : ℤ
  userData : U
deriving DecidableEq, Repr

/-- The key that orders the queue. -/
abbrev insertEntry (e : Entry U) (es : List (Entry U)) : List (Entry U) :=
  StableQueue.insert Entry.expire e es

/-- The timers of a queue. -/
def timers (es : List (Entry U)) : List Ptr :=
  es.map Entry.timer

@[simp] theorem timers_nil : timers ([] : List (Entry U)) = [] := rfl

@[simp] theorem timers_cons (e : Entry U) (es : List (Entry U)) :
    timers (e :: es) = e.timer :: timers es := rfl

@[simp] theorem timers_append (es es' : List (Entry U)) :
    timers (es ++ es') = timers es ++ timers es' :=
  List.map_append

/-- The expiry and the user data of every allocated timer. -/
def payload (l : SortTimerList U) : Ptr → Option (ℤ × U) :=
  Heap.view UtilTimer.data l.heap

/-- **The representation invariant.** The list holds the entries `es`, in this order. -/
structure Rep (l : SortTimerList U) (es : List (Entry U)) : Prop where
  /-- The chain from the head visits the timers, with mirrored backward links. -/
  chain : Seg (nextOf l.heap) (prevOf l.heap) none l.head (timers es) none
  nodup : (timers es).Nodup
  /-- The timers hold the data of the entries. -/
  data : ∀ e ∈ es, payload l e.timer = some (e.expire, e.userData)
  /-- The tail of a nonempty list is its last timer. -/
  tail : es ≠ [] → l.tail = (timers es).getLast?

variable {l l' : SortTimerList U} {es es₁ es₂ : List (Entry U)} {e a : Entry U} {p : Ptr}

/-- The empty list represents the empty queue. -/
theorem rep_new : Rep (new : SortTimerList U) [] where
  chain := rfl
  nodup := List.nodup_nil
  data := fun _ h => absurd h List.not_mem_nil
  tail := fun h => absurd rfl h

/-- The payload of an allocated timer is its expiry and its user data, and no link. -/
theorem payload_eq {t : UtilTimer U} (ht : l.heap p = some t) :
    payload l p = some (t.expire, t.userData) := by
  simp [payload, Heap.view, ht, UtilTimer.data]

/-- A payload belongs to an allocated timer, whose expiry and user data it shows. -/
theorem exists_of_payload {x : ℤ} {u : U} (h : payload l p = some (x, u)) :
    ∃ t, l.heap p = some t ∧ t.expire = x ∧ t.userData = u := by
  simpa [payload, Heap.view, UtilTimer.data] using h

/-- The timers of the queue are allocated, since each has the payload of its entry. -/
theorem Rep.allocated (h : Rep l es) : Allocated l.heap (timers es) := by
  intro q hq
  obtain ⟨e, he, rfl⟩ := List.mem_map.mp hq
  obtain ⟨t, ht, -⟩ := exists_of_payload (h.data e he)
  exact ⟨t, ht⟩

/-- The timer of an entry, as it lies in the heap: some links, and the data of the entry. -/
theorem Rep.exists_timer (h : Rep l es) (he : e ∈ es) :
    ∃ t, l.heap e.timer = some t ∧ t.expire = e.expire ∧ t.userData = e.userData :=
  exists_of_payload (h.data e he)

/-- The forward link of a timer leads to the entry behind it. -/
theorem Rep.next_eq (h : Rep l (es₁ ++ e :: es₂)) {t : UtilTimer U}
    (ht : l.heap e.timer = some t) : t.next = (timers es₂).head? := by
  have := h.chain
  rw [timers_append, timers_cons] at this
  exact (nextOf_eq ht).symm.trans this.next_eq

/-- The timer of an entry occurs once, so it is neither in front of the entry nor behind it. -/
theorem Rep.notMem (h : Rep l (es₁ ++ e :: es₂)) : e.timer ∉ timers (es₁ ++ es₂) := by
  have := h.nodup
  rw [timers_append, timers_cons, List.nodup_middle] at this
  rw [timers_append]
  exact this.notMem

/-- The head designates the timer in front of which nothing stands. -/
theorem Rep.head_eq_iff (h : Rep l (es₁ ++ e :: es₂)) : l.head = some e.timer ↔ es₁ = [] := by
  rw [h.chain.head_eq]
  cases es₁ with
  | nil => simp
  | cons f es₁ =>
      have hne : f.timer ≠ e.timer := fun heq => h.notMem (by simp [heq])
      simp [hne]

/-- The tail designates the timer behind which nothing stands. -/
theorem Rep.tail_eq_iff (h : Rep l (es₁ ++ e :: es₂)) : l.tail = some e.timer ↔ es₂ = [] := by
  rw [h.tail (by simp), timers_append, timers_cons]
  cases es₂ with
  | nil => simp
  | cons c es₂ =>
      have hne : (c.timer :: timers es₂).getLast? ≠ some e.timer := fun hlast =>
        h.notMem (by
          rw [timers_append, timers_cons]
          exact List.mem_append_right _ (List.mem_of_getLast? hlast))
      simpa using hne

/-- Entries keep their data when the payload of their timers does not change. -/
theorem Rep.data_of_eq (h : Rep l es) (hpay : ∀ q ∈ timers es, payload l' q = payload l q) :
    ∀ e ∈ es, payload l' e.timer = some (e.expire, e.userData) := fun e he => by
  rw [hpay _ (List.mem_map_of_mem he), h.data e he]

/-- A list represents one queue only: the links determine its timers, and an entry is what the
payload says about its timer. -/
theorem Rep.unique {es' : List (Entry U)} (h : Rep l es) (h' : Rep l es') : es = es' := by
  have hread : ∀ {es : List (Entry U)}, Rep l es →
      (timers es).filterMap (fun p => (payload l p).map fun d => ⟨p, d.1, d.2⟩) = es := by
    intro es h
    rw [timers, List.filterMap_map]
    exact (List.filterMap_congr fun e he => by
      rw [Function.comp_apply, h.data e he]
      rfl).trans List.filterMap_some
  rw [← hread h, ← hread h', h.chain.unique h'.chain]

/-- A change to nodes outside the queue keeps the invariant, since neither links nor payloads of
the queue are there. -/
theorem Rep.congr_heap (h : Rep l es) {heap : Heap (UtilTimer U)}
    (hheap : ∀ q ∈ timers es, heap q = l.heap q) : Rep { l with heap := heap } es where
  chain := h.chain.congr (fun q hq => by simp only [nextOf, hheap q hq])
    (fun q hq => by simp only [prevOf, hheap q hq])
  nodup := h.nodup
  data := h.data_of_eq fun q hq => by simp only [payload, Heap.view, hheap q hq]
  tail := h.tail

/-- Freeing a node outside the queue keeps the invariant. -/
theorem Rep.congr_delete (h : Rep l es) (hp : p ∉ timers es) :
    Rep { l with heap := Function.update l.heap p none } es :=
  h.congr_heap fun _ hq => Function.update_of_ne (ne_of_mem_of_not_mem hq hp) _ _

/-! ### Inserting -/

/-- **Linking behind an entry.** The four writes that put the timer `e` behind `a`, in the order
of the source. The timer behind `a` is pointed back to `e`, if there is one. -/
theorem Rep.linkAfter (h : Rep l (es₁ ++ a :: es₂))
    (hdata : payload l e.timer = some (e.expire, e.userData))
    (he : e.timer ∉ timers (es₁ ++ a :: es₂)) :
    ∃ k₁ k₂ k₃ k₄,
      l.heap.store (some a.timer) (fun n => { n with next := some e.timer }) = some k₁ ∧
      k₁.store (some e.timer) (fun n => { n with prev := some a.timer }) = some k₂ ∧
      k₂.store (some e.timer) (fun n => { n with next := (timers es₂).head? }) = some k₃ ∧
      k₃.storeIf (timers es₂).head? (fun n => { n with prev := some e.timer }) = some k₄ ∧
      Rep { l with heap := k₄, tail := if es₂ = [] then some e.timer else l.tail }
        (es₁ ++ a :: e :: es₂) ∧
      ∀ q, q ∉ timers (es₁ ++ a :: es₂) → q ≠ e.timer → k₄ q = l.heap q := by
  obtain ⟨t, ht, -⟩ := exists_of_payload hdata
  have hchain := h.chain
  have hnodup := h.nodup
  have halloc := h.allocated
  simp only [timers_append, timers_cons] at hchain hnodup halloc he
  obtain ⟨k₁, k₂, k₃, k₄, h₁, h₂, h₃, h₄, hseg, hoff, hview⟩ :=
    Seg.exec_insert_after (fun n => { n with next := some e.timer })
      (fun n => { n with prev := some a.timer })
      (fun n => { n with next := (timers es₂).head? })
      (fun n => { n with prev := some e.timer }) hchain hnodup halloc ht he
      (fun _ => rfl) (fun _ => rfl) (fun _ => rfl) (fun _ => rfl) (fun _ => rfl)
      (fun _ => rfl) (fun _ => rfl) (fun _ => rfl)
  have hpay : Heap.view UtilTimer.data k₄ = payload l :=
    hview UtilTimer.data (fun _ => rfl) (fun _ => rfl) (fun _ => rfl) (fun _ => rfl)
  refine ⟨k₁, k₂, k₃, k₄, h₁, h₂, h₃, h₄, ⟨?_, ?_, ?_, ?_⟩, ?_⟩
  · simpa using hseg
  · rw [timers_append, timers_cons, timers_cons, ← List.singleton_append,
      ← List.append_assoc, List.nodup_middle]
    exact List.nodup_cons.mpr ⟨by simpa using he, by simpa using hnodup⟩
  · intro f hf
    rw [payload, hpay]
    have hf' : f = e ∨ f ∈ es₁ ++ a :: es₂ := by
      simp only [List.mem_append, List.mem_cons] at hf ⊢
      tauto
    rcases hf' with rfl | hf'
    · exact hdata
    · exact h.data f hf'
  · intro _
    have htail := h.tail (by simp)
    cases es₂ with
    | nil => simp
    | cons c es₂ => simpa using htail
  · intro q hq hqe
    exact hoff q (by simpa using hq) hqe

/-- **Linking in front of the head.** The two writes that put the timer `e`, whose backward link
is null, in front of the first entry. -/
theorem Rep.linkFront (h : Rep l (a :: es)) {t : UtilTimer U} (ht : l.heap e.timer = some t)
    (hprev : t.prev = none) (hdata : payload l e.timer = some (e.expire, e.userData))
    (he : e.timer ∉ timers (a :: es)) :
    ∃ k₁ k₂, l.heap.store (some e.timer) (fun n => { n with next := some a.timer }) = some k₁ ∧
      k₁.store (some a.timer) (fun n => { n with prev := some e.timer }) = some k₂ ∧
      Rep { l with heap := k₂, head := some e.timer } (e :: a :: es) ∧
      ∀ q, q ∉ timers (a :: es) → q ≠ e.timer → k₂ q = l.heap q := by
  set k₁ := Function.update l.heap e.timer (some { t with next := some a.timer }) with hk₁
  have hk : ∀ q ∈ timers (a :: es), k₁ q = l.heap q := fun q hq =>
    Function.update_of_ne (ne_of_mem_of_not_mem hq he) _ _
  have hchain : Seg (nextOf k₁) (prevOf k₁) none (some a.timer) (timers (a :: es)) none := by
    rw [← (show l.head = some a.timer from h.chain.1)]
    exact h.chain.congr (fun q hq => by rw [nextOf, hk q hq, nextOf])
      (fun q hq => by rw [prevOf, hk q hq, prevOf])
  have halloc : Allocated k₁ (timers (a :: es)) := fun q hq => by
    rw [hk q hq]
    exact h.allocated q hq
  obtain ⟨k₂, hrun, hfront, hoff, hview⟩ := hchain.exec_push_front
    (g := fun n => { n with prev := some e.timer }) h.nodup halloc he
    (by simp [nextOf, k₁]) (by simp [prevOf, k₁, hprev])
    (fun _ => rfl) (fun _ => rfl)
  have hpay : Heap.view UtilTimer.data k₂ = payload l := by
    rw [hview UtilTimer.data (fun _ => rfl)]
    exact Heap.view_update_same (f := fun t => { t with next := some a.timer })
      UtilTimer.data ht (fun _ => rfl)
  refine ⟨k₁, k₂, Heap.store_eq ht _, hrun,
    ⟨hfront, List.nodup_cons.mpr ⟨he, h.nodup⟩, fun f hf => ?_, fun _ => ?_⟩,
    fun q hq hqe => (hoff q hq).trans (Function.update_of_ne hqe _ _)⟩
  · rw [payload, hpay]
    rcases List.mem_cons.mp hf with rfl | hf
    · exact hdata
    · exact h.data f hf
  · simpa using h.tail (by simp)

/-- **The walk of `add_timer`** puts the timer behind all entries it passes, in front of the
first with a larger expiry. The induction is on the entries behind `prev`. -/
theorem Rep.addLoop (es₂ : List (Entry U)) :
    ∀ (es₁ : List (Entry U)) (a : Entry U) (fuel : ℕ), Rep l (es₁ ++ a :: es₂) →
      payload l e.timer = some (e.expire, e.userData) →
      e.timer ∉ timers (es₁ ++ a :: es₂) → es₂.length ≤ fuel →
      ∃ l', addLoop e.timer fuel a.timer (timers es₂).head? l = some l' ∧
        Rep l' (es₁ ++ a :: insertEntry e es₂) ∧
        ∀ q, q ∉ timers (es₁ ++ a :: es₂) → q ≠ e.timer → l'.heap q = l.heap q := by
  induction es₂ with
  | nil =>
      intro es₁ a fuel h hdata he _
      obtain ⟨k₁, k₂, k₃, k₄, h₁, h₂, h₃, h₄, hrep, hoff⟩ := h.linkAfter hdata he
      obtain rfl : k₃ = k₄ := Option.some.inj h₄
      refine ⟨_, ?_, hrep, hoff⟩
      simp only [timers_nil, List.head?_nil] at h₃ ⊢
      simp [SortTimerList.addLoop, h₁, h₂, h₃]
  | cons c es₂ ih =>
      intro es₁ a fuel h hdata he hfuel
      obtain ⟨fuel, rfl⟩ : ∃ f, fuel = f + 1 := ⟨fuel - 1, by simp at hfuel; omega⟩
      obtain ⟨t, ht, hte, -⟩ := exists_of_payload hdata
      obtain ⟨n, hn, hne, -⟩ := h.exists_timer (e := c) (by simp)
      by_cases hlt : e.expire < c.expire
      · -- the walk stops in front of `c`
        obtain ⟨k₁, k₂, k₃, k₄, h₁, h₂, h₃, h₄, hrep, hoff⟩ := h.linkAfter hdata he
        refine ⟨{ l with heap := k₄ }, ?_, ?_, hoff⟩
        · simp only [timers_cons, List.head?_cons, Heap.storeIf_some] at h₃ h₄ ⊢
          simp only [SortTimerList.addLoop, ht, hn, hte, hne, hlt, Option.bind_eq_bind,
            Option.bind_some, if_true, h₁, h₂, h₃, h₄]
        · rw [insertEntry, StableQueue.insert_cons_of_lt hlt]
          simpa using hrep
      · -- the walk passes `c`
        have hassoc : es₁ ++ a :: c :: es₂ = (es₁ ++ [a]) ++ c :: es₂ := by simp
        have hnext : n.next = (timers es₂).head? := (hassoc ▸ h).next_eq hn
        obtain ⟨l', hrun, hrep, hoff⟩ := ih (es₁ ++ [a]) c fuel (hassoc ▸ h)
          hdata (hassoc ▸ he) (by simpa using hfuel)
        refine ⟨l', ?_, ?_, fun q hq hqe => hoff q (hassoc ▸ hq) hqe⟩
        · simp only [timers_cons, List.head?_cons, SortTimerList.addLoop, ht, hn, hte, hne,
            hlt, Option.bind_eq_bind, Option.bind_some, if_false, hnext, hrun]
        · rw [insertEntry, StableQueue.insert_cons_of_le (not_lt.mp hlt)]
          simpa using hrep

/-- `add_timer(timer, lst_head)` inserts the timer behind `lst_head`, into the entries there,
and leaves those in front where they are. -/
theorem Rep.addTimerFrom (es₁ es₂ : List (Entry U)) (fuel : ℕ)
    (h : Rep l (es₁ ++ a :: es₂)) (hdata : payload l e.timer = some (e.expire, e.userData))
    (he : e.timer ∉ timers (es₁ ++ a :: es₂)) (hfuel : es₂.length ≤ fuel) :
    ∃ l', l.addTimerFrom fuel e.timer (some a.timer) = some l' ∧
      Rep l' (es₁ ++ a :: insertEntry e es₂) ∧
      ∀ q, q ∉ timers (es₁ ++ a :: es₂) → q ≠ e.timer → l'.heap q = l.heap q := by
  obtain ⟨n, hn, -⟩ := h.exists_timer (e := a) (by simp)
  obtain ⟨l', hrun, hrep, hoff⟩ := Rep.addLoop es₂ es₁ a fuel h hdata he hfuel
  refine ⟨l', ?_, hrep, hoff⟩
  simp only [SortTimerList.addTimerFrom, Option.bind_eq_bind, Option.bind_some, hn,
    h.next_eq hn, hrun]

/-- **`add_timer`** of a timer with null links inserts it into the queue: into the empty list,
in front of a head that expires later, or by the walk from the head. -/
theorem Rep.addTimer {fuel : ℕ} (h : Rep l es) {t : UtilTimer U}
    (ht : l.heap e.timer = some t) (hfresh : t = UtilTimer.new e.expire e.userData)
    (he : e.timer ∉ timers es) (hfuel : es.length ≤ fuel) :
    ∃ l', l.addTimer fuel (some e.timer) = some l' ∧ Rep l' (insertEntry e es) ∧
      ∀ q, q ∉ timers es → q ≠ e.timer → l'.heap q = l.heap q := by
  have hdata : payload l e.timer = some (e.expire, e.userData) := by
    rw [payload_eq ht, hfresh]
    rfl
  cases es with
  | nil =>
      have hhead : l.head = none := h.chain
      refine ⟨{ l with head := some e.timer, tail := some e.timer }, ?_, ?_,
        fun _ _ _ => rfl⟩
      · simp [SortTimerList.addTimer, hhead]
      · refine ⟨⟨rfl, ?_, ?_⟩, List.nodup_singleton _, ?_, fun _ => rfl⟩
        · rw [prevOf_eq ht, hfresh]
          rfl
        · rw [nextOf_eq ht, hfresh]
          rfl
        · intro f hf
          obtain rfl : f = e := List.mem_singleton.mp hf
          exact hdata
  | cons c es =>
      have hhead : l.head = some c.timer := h.chain.1
      obtain ⟨n, hn, hne, -⟩ := h.exists_timer (e := c) (by simp)
      have hte : t.expire = e.expire := by rw [hfresh]; rfl
      by_cases hlt : e.expire < c.expire
      · -- in front of the head
        obtain ⟨k₁, k₂, h₁, h₂, hrep, hoff⟩ := h.linkFront ht (by rw [hfresh]; rfl) hdata he
        have hlt' : t.expire < n.expire := by rwa [hte, hne]
        refine ⟨{ l with heap := k₂, head := some e.timer }, ?_, ?_, hoff⟩
        · simp only [SortTimerList.addTimer, hhead, ht, hn, hlt', Option.bind_eq_bind,
            Option.bind_some, if_true, h₁, h₂]
        · rwa [insertEntry, StableQueue.insert_cons_of_lt hlt]
      · -- behind the head
        obtain ⟨l', hrun, hrep, hoff⟩ := Rep.addTimerFrom [] es fuel h hdata he
          (by simp at hfuel; omega)
        refine ⟨l', ?_, ?_, hoff⟩
        · simp only [SortTimerList.addTimer, hhead, ht, hn, hte, hne, hlt,
            Option.bind_eq_bind, Option.bind_some, if_false, hrun]
        · rw [insertEntry, StableQueue.insert_cons_of_le (not_lt.mp hlt)]
          exact hrep

/-! ### Unlinking -/

/-- **Moving the head** behind an entry, with the write `head->prev = nullptr`: what stood in
front of the entry is no longer in the list. -/
theorem Rep.moveHead (h : Rep l (es₁ ++ e :: es)) {t : UtilTimer U}
    (ht : l.heap e.timer = some t) :
    ∃ heap, l.heap.storeIf t.next (fun n => { n with prev := none }) = some heap ∧
      Rep { l with heap := heap, head := t.next } es ∧ heap e.timer = some t ∧
      ∀ q, q ∉ timers es → heap q = l.heap q := by
  have hchain := h.chain
  have hnodup := h.nodup
  simp only [timers_append, timers_cons] at hchain hnodup
  have hmem : ∀ f ∈ es, f ∈ es₁ ++ e :: es := fun f hf => by simp [hf]
  have he : e.timer ∉ timers es := fun hm =>
    h.notMem (by rw [timers_append]; exact List.mem_append_right _ hm)
  have hseg := (Seg.append_cons.mp hchain).2.2
  rw [nextOf_eq ht, UtilTimer.linked_next] at hseg
  have hnd : (timers es).Nodup := (List.nodup_append.mp hnodup).2.1.of_cons
  obtain ⟨heap, hrun, hseg', hoff, hview⟩ := hseg.exec_reback
    (g := fun n => { n with prev := none }) hnd
    (fun q hq => h.allocated q (by simp [hq])) (fun _ => rfl) (fun _ => rfl)
  refine ⟨heap, hrun, ⟨hseg', hnd, ?_, ?_⟩, (hoff _ he).trans ht, hoff⟩
  · intro f hf
    rw [payload, hview UtilTimer.data (fun _ => rfl)]
    exact h.data f (hmem f hf)
  · intro hne
    obtain ⟨c, es, rfl⟩ := List.exists_cons_of_ne_nil hne
    have htail := h.tail (by simp)
    rw [timers_append, timers_cons, timers_cons, List.getLast?_append_cons,
      List.getLast?_cons_cons] at htail
    exact htail

/-- **Unlinking the first entry.** The write `head->prev = nullptr` at the new head, which is
skipped if there is none. -/
theorem Rep.unlinkHead (h : Rep l (e :: es)) {t : UtilTimer U}
    (ht : l.heap e.timer = some t) :
    ∃ heap, l.heap.storeIf t.next (fun n => { n with prev := none }) = some heap ∧
      Rep { l with heap := heap, head := t.next } es ∧ heap e.timer = some t ∧
      ∀ q, q ∉ timers es → heap q = l.heap q :=
  (show Rep l ([] ++ e :: es) from h).moveHead ht

/-- **Unlinking an entry behind another.** The two writes that join its neighbours. -/
theorem Rep.unlinkMid (h : Rep l (es₁ ++ a :: e :: es₂)) {t : UtilTimer U}
    (ht : l.heap e.timer = some t) :
    ∃ h₁ h₂, l.heap.store t.prev (fun n => { n with next := t.next }) = some h₁ ∧
      h₁ e.timer = some t ∧
      h₁.storeIf t.next (fun n => { n with prev := t.prev }) = some h₂ ∧
      h₂ e.timer = some t ∧ t.prev = some a.timer ∧
      Rep { l with heap := h₂, tail := if es₂ = [] then some a.timer else l.tail }
        (es₁ ++ a :: es₂) ∧
      ∀ q, q ∉ timers (es₁ ++ a :: e :: es₂) → h₂ q = l.heap q := by
  have hchain := h.chain
  have hnodup := h.nodup
  have halloc := h.allocated
  simp only [timers_append, timers_cons] at hchain hnodup halloc
  obtain ⟨h₁, h₂, hrun₁, hp₁, hrun₂, hp₂, hseg, hoff, hview⟩ := hchain.exec_unlink hnodup
    halloc ht (f := fun n => { n with next := t.next })
    (g := fun n => { n with prev := t.prev })
    (fun _ => rfl) (fun _ => rfl) (fun _ => rfl) (fun _ => rfl)
  have hprev : t.prev = some a.timer := by
    rw [← UtilTimer.linked_prev, ← prevOf_eq ht]
    exact (Seg.append_cons.mp hchain).2.2.2.1
  refine ⟨h₁, h₂, hrun₁, hp₁, hrun₂, hp₂, hprev, ⟨?_, ?_, ?_, ?_⟩, ?_⟩
  · simpa using hseg
  · rw [← List.singleton_append, ← List.append_assoc, List.nodup_middle] at hnodup
    simpa using hnodup.of_cons
  · intro f hf
    rw [payload, hview UtilTimer.data (fun _ => rfl) (fun _ => rfl)]
    refine h.data f ?_
    simp only [List.mem_append, List.mem_cons] at hf ⊢
    tauto
  · intro _
    have htail := h.tail (by simp)
    cases es₂ with
    | nil => simp
    | cons c es₂ => simpa using htail
  · intro q hq
    exact hoff q (by simpa using hq)

/-- **`del_timer`** removes the entry of its timer and frees it. The four branches of the source
are those of an only, a first, a last and an inner entry. -/
theorem Rep.delTimer (h : Rep l (es₁ ++ e :: es₂)) :
    ∃ l', l.delTimer (some e.timer) = some l' ∧ Rep l' (es₁ ++ es₂) ∧
      l'.heap e.timer = none ∧
      ∀ q, q ∉ timers (es₁ ++ e :: es₂) → l'.heap q = l.heap q := by
  obtain ⟨t, ht, -⟩ := h.exists_timer (e := e) (by simp)
  have he : e.timer ∉ timers (es₁ ++ es₂) := h.notMem
  rcases List.eq_nil_or_concat' es₁ with rfl | ⟨es₁, a, rfl⟩
  · have hhead' : l.head = some e.timer := h.head_eq_iff.mpr rfl
    cases es₂ with
    | nil =>
        have htail' : l.tail = some e.timer := h.tail_eq_iff.mpr rfl
        refine ⟨{ l with
          heap := Function.update l.heap e.timer none, head := none, tail := none },
          ?_, ⟨rfl, List.nodup_nil, ?_, fun hne => absurd rfl hne⟩,
          Function.update_self .., ?_⟩
        · simp [SortTimerList.delTimer, hhead', htail', Heap.delete_eq ht]
        · exact fun f hf => absurd hf List.not_mem_nil
        · exact fun q hq => Function.update_of_ne (by simpa using hq) _ _
    | cons c es₂ =>
        have hlast : l.tail ≠ some e.timer := by simp [h.tail_eq_iff]
        have hnext := h.next_eq ht
        obtain ⟨heap, hrun, hrep, hp, hoff⟩ := h.unlinkHead ht
        rw [hnext, timers_cons, List.head?_cons, Heap.storeIf_some] at hrun
        refine ⟨{ l with heap := Function.update heap e.timer none, head := t.next }, ?_,
          hrep.congr_delete he, Function.update_self .., ?_⟩
        · simp [SortTimerList.delTimer, hhead', hlast, ht, hnext, hrun, Heap.delete_eq hp]
        · intro q hq
          have hq' : q ≠ e.timer ∧ q ∉ timers (c :: es₂) := by simpa using hq
          exact (Function.update_of_ne hq'.1 _ _).trans (hoff q hq'.2)
  · have hhead' : l.head ≠ some e.timer := by simp [h.head_eq_iff]
    have h' : Rep l (es₁ ++ a :: e :: es₂) := by simpa using h
    obtain ⟨h₁, h₂, hrun₁, hp₁, hrun₂, hp₂, hprev, hrep, hoff⟩ := h'.unlinkMid ht
    have hnext := h.next_eq ht
    have hframe : ∀ q, q ∉ timers (es₁ ++ [a] ++ e :: es₂) →
        Function.update h₂ e.timer none q = l.heap q := by
      intro q hq
      have hqe : q ≠ e.timer := fun hqe => hq (by simp [hqe])
      exact (Function.update_of_ne hqe _ _).trans (hoff q (by simpa using hq))
    have hrep' := hrep.congr_delete (p := e.timer) (by simpa using he)
    cases es₂ with
    | nil =>
        have htail' : l.tail = some e.timer := h.tail_eq_iff.mpr rfl
        obtain rfl : h₁ = h₂ := by
          rw [hnext] at hrun₂
          exact Option.some.inj hrun₂
        refine ⟨{ l with heap := Function.update h₁ e.timer none, tail := some a.timer },
          ?_, by simpa using hrep', Function.update_self .., hframe⟩
        simp only [hprev, hnext] at hrun₁
        simp only [SortTimerList.delTimer, hhead', false_and, if_false, htail', if_true, ht,
          Option.bind_eq_bind, Option.bind_some, hprev]
        simp only [timers_nil, List.head?_nil] at hrun₁
        simp only [hrun₁, Option.bind_some, Heap.delete_eq hp₁]
    | cons c es₂ =>
        have hlast : l.tail ≠ some e.timer := by simp [h.tail_eq_iff]
        rw [Heap.storeIf_of_eq_some hnext] at hrun₂
        refine ⟨{ l with heap := Function.update h₂ e.timer none },
          ?_, by simpa using hrep', Function.update_self .., hframe⟩
        simp only [SortTimerList.delTimer, hhead', false_and, if_false, hlast, ht,
          Option.bind_eq_bind, Option.bind_some, hrun₁, hp₁, hrun₂, Heap.delete_eq hp₂]

/-! ### Adjusting -/

/-- The assignment to `_expire` changes the entry of its timer in place. -/
theorem Rep.setExpire (h : Rep l (es₁ ++ e :: es₂)) (x : ℤ) :
    ∃ l', l.setExpire e.timer x = some l' ∧
      Rep l' (es₁ ++ { e with expire := x } :: es₂) ∧ l'.head = l.head ∧
      ∀ q, q ≠ e.timer → l'.heap q = l.heap q := by
  obtain ⟨t, ht, -, htu⟩ := h.exists_timer (e := e) (by simp)
  have he := h.notMem
  have hpay : Heap.view UtilTimer.data
      (Function.update l.heap e.timer (some { t with expire := x })) =
      Function.update (payload l) e.timer (some (x, e.userData)) := by
    rw [Heap.view_update, ← htu]
    rfl
  refine ⟨{ l with heap := Function.update l.heap e.timer (some { t with expire := x }) },
    ?_, ⟨?_, ?_, ?_, ?_⟩, rfl, fun q hq => Function.update_of_ne hq _ _⟩
  · simp [SortTimerList.setExpire, Heap.store_eq ht]
  · rw [nextOf_update_same ht (by rfl), prevOf_update_same ht (by rfl)]
    simpa using h.chain
  · simpa using h.nodup
  · intro f hf
    rw [payload, hpay]
    by_cases hfe : f = { e with expire := x }
    · subst hfe
      exact Function.update_self ..
    · have hf' : f ∈ es₁ ++ es₂ := by
        simp only [List.mem_append, List.mem_cons] at hf ⊢
        tauto
      have hne : f.timer ≠ e.timer := fun heq => he (heq ▸ List.mem_map_of_mem hf')
      rw [Function.update_of_ne hne]
      refine h.data f ?_
      simp only [List.mem_append, List.mem_cons] at hf' ⊢
      tauto
  · intro _
    simpa using h.tail (by simp)

/-- **`adjust_timer`** walks on from the place of the timer: whatever the order of the
queue, the entry moves behind all entries it passes towards the tail, and never towards
the head. -/
theorem Rep.adjustTimer (fuel : ℕ) (h : Rep l (es₁ ++ e :: es₂))
    (hfuel : es₂.length ≤ fuel) :
    ∃ l', l.adjustTimer fuel (some e.timer) = some l' ∧
      Rep l' (es₁ ++ insertEntry e es₂) ∧
      ∀ q, q ∉ timers (es₁ ++ e :: es₂) → l'.heap q = l.heap q := by
  obtain ⟨t, ht, hte, -⟩ := h.exists_timer (e := e) (by simp)
  have he := h.notMem
  have hnext := h.next_eq ht
  cases es₂ with
  | nil =>
      refine ⟨l, ?_, by simpa using h, fun _ _ => rfl⟩
      have hnext' : t.next = none := hnext
      simp [SortTimerList.adjustTimer, ht, hnext']
  | cons c es₂ =>
      have hnext' : t.next = some c.timer := hnext
      obtain ⟨n, hn, hne, -⟩ := h.exists_timer (e := c) (by simp)
      by_cases hlt : e.expire < c.expire
      · -- the timer stays where it is
        refine ⟨l, ?_, ?_, fun _ _ => rfl⟩
        · have hlt' : t.expire < n.expire := by rwa [hte, hne]
          simp [SortTimerList.adjustTimer, ht, hnext', hn, hlt']
        · rwa [insertEntry, StableQueue.insert_cons_of_lt hlt]
      · have hlt' : ¬ t.expire < n.expire := by rwa [hte, hne]
        have hfuel' : es₂.length ≤ fuel := by simp at hfuel; omega
        have hdata := h.data e (by simp)
        rw [insertEntry, StableQueue.insert_cons_of_le (not_lt.mp hlt)]
        rcases List.eq_nil_or_concat' es₁ with rfl | ⟨es₁, a, rfl⟩
        · -- the timer is the head
          have hhead : l.head = some e.timer := h.chain.1
          obtain ⟨heap, hrun, hrep, hp, hoff⟩ := h.unlinkHead ht
          rw [hnext', Heap.storeIf_some] at hrun
          set heap' := Function.update heap e.timer (some { t with next := none })
          have hrep' : Rep { l with heap := heap', head := t.next } ([] ++ c :: es₂) :=
            hrep.congr_heap fun q hq =>
              Function.update_of_ne (ne_of_mem_of_not_mem hq he) _ _
          have hdata' : payload { l with heap := heap', head := t.next } e.timer =
              some (e.expire, e.userData) := by
            rw [← hdata, payload_eq ht]
            simp [payload, Heap.view, heap', UtilTimer.data]
          obtain ⟨l', hadd, hrep'', hoff'⟩ :=
            Rep.addTimerFrom _ _ fuel hrep' hdata' he hfuel'
          refine ⟨l', ?_, hrep'', ?_⟩
          · simp only [SortTimerList.adjustTimer, ht, hnext', hn, hlt', hhead, if_false,
              if_true, Option.bind_eq_bind, Option.bind_some, hrun, Heap.store_eq hp]
            rw [hnext'] at hadd
            exact hadd
          · intro q hq
            have hq' : q ≠ e.timer ∧ q ∉ timers (c :: es₂) := by simpa using hq
            rw [hoff' q hq'.2 hq'.1]
            exact (Function.update_of_ne hq'.1 _ _).trans (hoff q hq'.2)
        · -- the timer stands behind the entry `a`
          have hhead : l.head ≠ some e.timer := by simp [h.head_eq_iff]
          have h' : Rep l (es₁ ++ a :: e :: c :: es₂) := by simpa using h
          obtain ⟨h₁, h₂, hrun₁, hp₁, hrun₂, hp₂, -, hrep, hoff⟩ := h'.unlinkMid ht
          rw [Heap.storeIf_of_eq_some hnext'] at hrun₂
          have hrep' : Rep { l with heap := h₂ } (es₁ ++ [a] ++ c :: es₂) := by
            simpa using hrep
          have hdata' : payload { l with heap := h₂ } e.timer =
              some (e.expire, e.userData) := by
            rw [← hdata, payload_eq ht]
            exact payload_eq hp₂
          obtain ⟨l', hadd, hrep'', hoff'⟩ :=
            Rep.addTimerFrom _ _ fuel hrep' hdata' he hfuel'
          refine ⟨l', ?_, hrep'', ?_⟩
          · simp only [hnext'] at hrun₁ hrun₂ hadd
            simp only [SortTimerList.adjustTimer, ht, hnext', hn, hlt', hhead, if_false,
              Option.bind_eq_bind, Option.bind_some, hrun₁, hp₁, hrun₂, hp₂, hadd]
          · intro q hq
            have hqe : q ≠ e.timer := fun hqe => hq (by simp [hqe])
            have hq' : q ∉ timers (es₁ ++ [a] ++ c :: es₂) := by
              intro hmem
              apply hq
              simp only [timers_append, timers_cons, List.mem_append, List.mem_cons] at hmem ⊢
              tauto
            exact (hoff' q hq' hqe).trans (hoff q (by simpa using hq))

/-! ### Ticking -/

variable {W : Type}

/-- The entries a tick at `cur` fires: those in front of the first unexpired one. -/
def firedBy (cur : ℤ) (es : List (Entry U)) : List (Entry U) :=
  es.takeWhile fun e => decide (e.expire ≤ cur)

/-- The entries a tick at `cur` leaves. -/
def leftBy (cur : ℤ) (es : List (Entry U)) : List (Entry U) :=
  es.dropWhile fun e => decide (e.expire ≤ cur)

/-- **The loop of `tick`**, for callbacks that leave the list alone and get through: it runs
the callback of every entry in front of the first unexpired one and frees its timer. -/
theorem Rep.tickLoop {callback : Ptr → SortTimerList U → W → Option (SortTimerList U × W)}
    {act : Ptr → U → W → Option W}
    (hcb : ∀ p l o t, l.heap p = some t →
      callback p l o = (act p t.userData o).map fun o => (l, o))
    (cur : ℤ) (es : List (Entry U)) :
    ∀ {l : SortTimerList U} {o o' : W} {fuel : ℕ}, Rep l es → es.length ≤ fuel →
      (firedBy cur es).foldlM (fun o e => act e.timer e.userData o) o = some o' →
      ∃ l', SortTimerList.tickLoop callback cur fuel (timers es).head? l o = some (l', o') ∧
        Rep l' (leftBy cur es) ∧ (∀ e ∈ firedBy cur es, l'.heap e.timer = none) ∧
        ∀ q, q ∉ timers es → l'.heap q = l.heap q := by
  induction es with
  | nil =>
      intro l o o' fuel h _ hact
      obtain rfl : o = o' := Option.some.inj hact
      refine ⟨l, by simp [SortTimerList.tickLoop], h, ?_, fun _ _ => rfl⟩
      exact fun e he => absurd he List.not_mem_nil
  | cons e es ih =>
      intro l o o' fuel h hfuel hact
      obtain ⟨fuel, rfl⟩ : ∃ f, fuel = f + 1 := ⟨fuel - 1, by simp at hfuel; omega⟩
      obtain ⟨t, ht, hte, htu⟩ := h.exists_timer (e := e) (by simp)
      by_cases hlt : cur < e.expire
      · -- the first unexpired entry
        have hfired : firedBy cur (e :: es) = [] := by simp [firedBy, hlt]
        have hleft : leftBy cur (e :: es) = e :: es := by simp [leftBy, hlt]
        rw [hfired] at hact ⊢
        obtain rfl : o = o' := Option.some.inj hact
        rw [hleft]
        refine ⟨l, ?_, h, fun f hf => absurd hf List.not_mem_nil, fun _ _ => rfl⟩
        have hlt' : cur < t.expire := by rwa [hte]
        simp [SortTimerList.tickLoop, ht, hlt']
      · -- an expired entry
        have hle : e.expire ≤ cur := not_lt.mp hlt
        have hfired : firedBy cur (e :: es) = e :: firedBy cur es := by
          simp [firedBy, hle]
        have hleft : leftBy cur (e :: es) = leftBy cur es := by simp [leftBy, hle]
        have he : e.timer ∉ timers es := (List.nodup_cons.mp h.nodup).1
        have hnext : t.next = (timers es).head? :=
          (show Rep l ([] ++ e :: es) from h).next_eq ht
        rw [hfired] at hact ⊢
        rw [List.foldlM_cons] at hact
        obtain ⟨o₁, hact₁, hact'⟩ := Option.bind_eq_some_iff.mp hact
        obtain ⟨heap, hrun, hrep, hp, hoff⟩ := h.unlinkHead ht
        obtain ⟨l', hrun', hrep', hgone, hoff'⟩ :=
          ih (hrep.congr_delete he) (by simpa using hfuel) hact'
        rw [hleft]
        refine ⟨l', ?_, hrep', ?_, ?_⟩
        · have hlt' : ¬ cur < t.expire := by rwa [hte]
          rw [← hnext] at hrun'
          simp only [timers_cons, List.head?_cons, SortTimerList.tickLoop, ht, hlt',
            if_false, hcb _ _ _ _ ht, htu, hact₁, Option.map_some, Option.bind_eq_bind,
            Option.bind_some, hrun, Heap.delete_eq hp, hrun']
        · intro f hf
          rcases List.mem_cons.mp hf with rfl | hf
          · rw [hoff' _ he]
            exact Function.update_self ..
          · exact hgone f hf
        · intro q hq
          have hq' : q ≠ e.timer ∧ q ∉ timers es := by simpa using hq
          rw [hoff' q hq'.2]
          exact (Function.update_of_ne hq'.1 _ _).trans (hoff q hq'.2)

/-- **`tick`**, for callbacks that leave the list alone and get through. -/
theorem Rep.tick (callback : Ptr → SortTimerList U → W → Option (SortTimerList U × W))
    (act : Ptr → U → W → Option W)
    (hcb : ∀ p l o t, l.heap p = some t →
      callback p l o = (act p t.userData o).map fun o => (l, o))
    (cur : ℤ) {o o' : W} {fuel : ℕ} (h : Rep l es) (hfuel : es.length ≤ fuel)
    (hact : (firedBy cur es).foldlM (fun o e => act e.timer e.userData o) o = some o') :
    ∃ l', SortTimerList.tick callback fuel cur l o = some (l', o') ∧
      Rep l' (leftBy cur es) ∧ (∀ e ∈ firedBy cur es, l'.heap e.timer = none) ∧
      ∀ q, q ∉ timers es → l'.heap q = l.heap q := by
  obtain ⟨l', hrun, hrest⟩ := Rep.tickLoop hcb cur es h hfuel hact
  refine ⟨l', ?_, hrest⟩
  rw [← h.chain.head_eq] at hrun
  cases hhead : l.head with
  | none =>
      rw [hhead] at hrun
      simpa [SortTimerList.tick, hhead, SortTimerList.tickLoop] using hrun
  | some head =>
      rw [hhead] at hrun
      simpa [SortTimerList.tick, hhead] using hrun

/-- What every callback keeps, the loop of `tick` keeps. -/
theorem tickLoop_preserves {callback : Ptr → SortTimerList U → W → Option (SortTimerList U × W)}
    (P : W → Prop) (hcb : ∀ p l o l' o', callback p l o = some (l', o') → P o → P o') {cur : ℤ}
    {fuel : ℕ} {tmp : Option Ptr} {l l' : SortTimerList U} {o o' : W}
    (h : SortTimerList.tickLoop callback cur fuel tmp l o = some (l', o')) (ho : P o) : P o' := by
  induction fuel generalizing tmp l o with
  | zero =>
      cases tmp with
      | none => exact (Prod.mk.inj (Option.some.inj h)).2 ▸ ho
      | some tmp => cases h
  | succ fuel ih =>
      cases tmp with
      | none => exact (Prod.mk.inj (Option.some.inj h)).2 ▸ ho
      | some tmp =>
          obtain ⟨t, -, h⟩ := Option.bind_eq_some_iff.mp h
          split at h
          case isTrue => exact (Prod.mk.inj (Option.some.inj h)).2 ▸ ho
          case isFalse =>
              obtain ⟨⟨l₁, o₁⟩, hcall, h⟩ := Option.bind_eq_some_iff.mp h
              obtain ⟨t', -, h⟩ := Option.bind_eq_some_iff.mp h
              obtain ⟨heap, -, h⟩ := Option.bind_eq_some_iff.mp h
              obtain ⟨heap', -, h⟩ := Option.bind_eq_some_iff.mp h
              exact ih h (hcb _ _ _ _ _ hcall ho)

/-- What every callback keeps, `tick` keeps. -/
theorem tick_preserves {callback : Ptr → SortTimerList U → W → Option (SortTimerList U × W)}
    (P : W → Prop) (hcb : ∀ p l o l' o', callback p l o = some (l', o') → P o → P o') {cur : ℤ}
    {fuel : ℕ} {l l' : SortTimerList U} {o o' : W}
    (h : SortTimerList.tick callback fuel cur l o = some (l', o')) (ho : P o) : P o' := by
  rw [SortTimerList.tick] at h
  split at h
  · exact (Prod.mk.inj (Option.some.inj h)).2 ▸ ho
  · exact tickLoop_preserves P hcb h ho

end LinuxNetwork.SortTimerList

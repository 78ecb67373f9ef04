import LinuxNetwork.TimeWheel

/-!
# The Links of the Time Wheel

`Rep w L` is the representation invariant of the wheel: for every slot `s`, the chain from
`slots[s]` visits exactly the timers of the list `L s`, which are the allocated timers
whose `timeSlot` is `s`, and backward links mirror forward ones. What a wheel means to its
users is its `payload`, the rotation and the slot of every allocated timer.

Every operation rewires one slot, so the invariant is restored by one lemma,
`Rep.rewire`, and each operation then gets one specification: it succeeds, it keeps `Rep`,
and it has a stated effect on the slot lists and on the payload.

## Main results

* `Rep.addTimer`, `Rep.delTimer`: the specifications of the two list operations.
* `Rep.removeFired`: unlinking the timer that just fired, and the timer visited next.
* `Rep.countDown`: the rotation decrement of a timer that does not fire yet.
-/

open DoublyLinked

namespace LinuxNetwork.TimeWheel

/-- The rotation and the slot of every allocated timer. -/
def payload (w : TimeWheel) : Ptr → Option (ℤ × ℕ) :=
  Heap.view TwTimer.data w.heap

/-- **The representation invariant.** `L s` lists the timers of slot `s` in chain order. -/
structure Rep (w : TimeWheel) (L : ℕ → List Ptr) : Prop where
  /-- The cursor stands on a slot. -/
  cursor : w.curSlot < N
  /-- The chain of each slot visits its list, with mirrored backward links. -/
  chain : ∀ s < N, Seg (nextOf w.heap) (prevOf w.heap) none (w.slots s) (L s) none
  nodup : ∀ s < N, (L s).Nodup
  /-- A timer lies in the list of the slot it names. -/
  home : ∀ s < N, ∀ p ∈ L s, ∃ r, payload w p = some (r, s)
  /-- Every allocated timer lies in a list, and no rotation is negative. -/
  owned : ∀ p r s, payload w p = some (r, s) → s < N ∧ 0 ≤ r ∧ p ∈ L s

theorem N_pos : 0 < N := by decide

/-- The empty wheel represents empty lists, and no timer is allocated. -/
theorem rep_new : Rep new (fun _ => []) where
  cursor := N_pos
  chain := fun _ _ => rfl
  nodup := fun _ _ => List.nodup_nil
  home := fun _ _ p hp => absurd hp List.not_mem_nil
  owned := fun _ _ _ h => absurd h (by simp [payload, Heap.view, new])

variable {w w' : TimeWheel} {L : ℕ → List Ptr} {p : Ptr} {s : ℕ} {r : ℤ}

/-- The payload of an allocated timer is its rotation and its slot, and no link. -/
theorem payload_eq {t : TwTimer} (ht : w.heap p = some t) :
    payload w p = some (t.rotation, t.timeSlot) := by
  simp [payload, Heap.view, ht, TwTimer.data]

/-- A payload belongs to an allocated timer, whose rotation and slot it shows. -/
theorem exists_of_payload (h : payload w p = some (r, s)) :
    ∃ t, w.heap p = some t ∧ t.rotation = r ∧ t.timeSlot = s := by
  simpa [payload, Heap.view, TwTimer.data] using h

theorem payload_eq_none : payload w p = none ↔ w.heap p = none := by
  simp [payload, Heap.view]

/-- The timers of a slot are allocated, since each has a payload. -/
theorem Rep.allocated (h : Rep w L) (hs : s < N) : Allocated w.heap (L s) := by
  intro q hq
  obtain ⟨r, hr⟩ := h.home s hs q hq
  obtain ⟨t, ht, -⟩ := exists_of_payload hr
  exact ⟨t, ht⟩

/-- A timer lies in at most one slot, the one that it names itself. -/
theorem Rep.slot_unique (h : Rep w L) {s' : ℕ} (hs : s < N) (hs' : s' < N) (hp : p ∈ L s)
    (hp' : p ∈ L s') : s = s' := by
  obtain ⟨r, hr⟩ := h.home s hs p hp
  obtain ⟨r', hr'⟩ := h.home s' hs' p hp'
  rw [hr] at hr'
  exact congrArg Prod.snd (Option.some.inj hr')

/-- An address that is not allocated lies in no slot, so a new timer is new to its slot. -/
theorem Rep.notMem_of_free (h : Rep w L) (hs : s < N) (hp : w.heap p = none) : p ∉ L s := by
  intro hmem
  obtain ⟨r, hr⟩ := h.home s hs p hmem
  rw [payload_eq_none.mpr hp] at hr
  cases hr

/-- **One slot rewired.** An operation that changes the list of slot `ts` from `L ts` to
`l` and touches no timer outside the two lists restores the invariant. -/
theorem Rep.rewire (h : Rep w L) {ts : ℕ} (hts : ts < N) (l : List Ptr)
    (hcur : w'.curSlot = w.curSlot)
    (hslots : ∀ s, s ≠ ts → w'.slots s = w.slots s)
    (hframe : ∀ q, q ∉ L ts → q ∉ l → w'.heap q = w.heap q)
    (hchain : Seg (nextOf w'.heap) (prevOf w'.heap) none (w'.slots ts) l none)
    (hnodup : l.Nodup)
    (hhome : ∀ q ∈ l, ∃ r, 0 ≤ r ∧ payload w' q = some (r, ts))
    (hgone : ∀ q ∈ L ts, q ∉ l → w'.heap q = none)
    (hfresh : ∀ q ∈ l, q ∈ L ts ∨ w.heap q = none) :
    Rep w' (Function.update L ts l) := by
  have hother : ∀ s < N, s ≠ ts → ∀ q ∈ L s, w'.heap q = w.heap q := by
    intro s hs hne q hq
    refine hframe q (fun hq' => hne (h.slot_unique hs hts hq hq')) (fun hql => ?_)
    rcases hfresh q hql with hq' | hq'
    · exact hne (h.slot_unique hs hts hq hq')
    · exact h.notMem_of_free hs hq' hq
  refine ⟨hcur ▸ h.cursor, ?_, ?_, ?_, ?_⟩
  · intro s hs
    by_cases hne : s = ts
    · subst hne
      rw [Function.update_self]
      exact hchain
    · rw [Function.update_of_ne hne, hslots s hne]
      refine (h.chain s hs).congr ?_ ?_
      · exact fun q hq => by rw [nextOf, hother s hs hne q hq, nextOf]
      · exact fun q hq => by rw [prevOf, hother s hs hne q hq, prevOf]
  · intro s hs
    by_cases hne : s = ts
    · subst hne
      rwa [Function.update_self]
    · rw [Function.update_of_ne hne]
      exact h.nodup s hs
  · intro s hs q hq
    by_cases hne : s = ts
    · subst hne
      rw [Function.update_self] at hq
      obtain ⟨r, -, hr⟩ := hhome q hq
      exact ⟨r, hr⟩
    · rw [Function.update_of_ne hne] at hq
      obtain ⟨r, hr⟩ := h.home s hs q hq
      exact ⟨r, by rw [payload, Heap.view, hother s hs hne q hq]; exact hr⟩
  · intro q r s hq
    by_cases hql : q ∈ l
    · obtain ⟨r', hr', hq'⟩ := hhome q hql
      rw [hq'] at hq
      obtain ⟨rfl, rfl⟩ := Prod.mk.injEq .. ▸ Option.some.inj hq
      exact ⟨hts, hr', by rwa [Function.update_self]⟩
    · have hqL : q ∉ L ts := by
        intro hqL
        rw [payload_eq_none.mpr (hgone q hqL hql)] at hq
        cases hq
      have hq' : payload w q = some (r, s) := by
        rw [← hq, payload, payload, Heap.view, Heap.view, hframe q hqL hql]
      obtain ⟨hs, hr, hmem⟩ := h.owned q r s hq'
      refine ⟨hs, hr, ?_⟩
      have hst : s ≠ ts := fun hst => hqL (by rwa [← hst])
      rwa [Function.update_of_ne hst]

/-! ### Adding -/

/-- The slot a timeout maps to. -/
def slotOf (w : TimeWheel) (timeout : ℤ) : ℕ :=
  (w.curSlot + ticksOf timeout % N) % N

/-- The slot that `add_timer` computes is one of the wheel. -/
theorem slotOf_lt (w : TimeWheel) (timeout : ℤ) : slotOf w timeout < N :=
  Nat.mod_lt _ N_pos

/-- The two branches of `add_timer` are one: the new timer points to the old head of its
slot, which points back to it if there is one. -/
theorem addTimer_eq {timeout : ℤ} (ht : 0 ≤ timeout) {addr : Ptr}
    (hne : w.slots (slotOf w timeout) ≠ some addr) :
    w.addTimer timeout addr =
      (Heap.storeIf (w.heap.alloc addr
          { TwTimer.new (ticksOf timeout / N : ℕ) (slotOf w timeout) with
            next := w.slots (slotOf w timeout) })
        (w.slots (slotOf w timeout)) fun t => { t with prev := some addr }).map fun heap =>
      ({ w with
          heap := heap
          slots := Function.update w.slots (slotOf w timeout) (some addr) }, some addr) := by
  have hts : (w.curSlot + ticksOf timeout % N) % N = slotOf w timeout := rfl
  simp only [TimeWheel.addTimer, not_lt.mpr ht, if_false, hts]
  cases hslot : w.slots (slotOf w timeout) with
  | none => rfl
  | some head =>
      have hne' : head ≠ addr := fun he => hne (by rw [hslot, he])
      simp only [Heap.alloc, Heap.store, Heap.storeIf_some, Option.bind_eq_bind,
        Option.bind_some, Function.update_self, Function.update_idem, Option.pure_def,
        Function.update_of_ne hne']
      cases w.heap head <;> rfl

/-- **`add_timer`** puts a fresh timer at the front of its slot. The timer is written first, and
then the old head is pointed back to it. -/
theorem Rep.addTimer (h : Rep w L) {timeout : ℤ} (ht : 0 ≤ timeout) {addr : Ptr}
    (ha : w.heap addr = none) :
    ∃ w', w.addTimer timeout addr = some (w', some addr) ∧
      Rep w' (Function.update L (slotOf w timeout) (addr :: L (slotOf w timeout))) ∧
      payload w' = Function.update (payload w) addr
        (some (((ticksOf timeout / N : ℕ) : ℤ), slotOf w timeout)) ∧
      w'.curSlot = w.curSlot := by
  have hts : slotOf w timeout < N := slotOf_lt w timeout
  set ts := slotOf w timeout with hdef
  have haL : addr ∉ L ts := h.notMem_of_free hts ha
  have hne : w.slots ts ≠ some addr := by
    rw [(h.chain ts hts).head_eq]
    exact head?_ne_some_of_notMem haL
  set t : TwTimer := { TwTimer.new (ticksOf timeout / N : ℕ) ts with next := w.slots ts }
  have hold : ∀ q ∈ L ts, w.heap.alloc addr t q = w.heap q := fun q hq =>
    Function.update_of_ne (ne_of_mem_of_not_mem hq haL) _ _
  have hchain : Seg (nextOf (w.heap.alloc addr t)) (prevOf (w.heap.alloc addr t)) none
      (w.slots ts) (L ts) none :=
    (h.chain ts hts).congr (fun q hq => by rw [nextOf, hold q hq, nextOf])
      (fun q hq => by rw [prevOf, hold q hq, prevOf])
  have halloc : Allocated (w.heap.alloc addr t) (L ts) := fun q hq => by
    rw [hold q hq]
    exact h.allocated hts q hq
  obtain ⟨heap, hrun, hfront, hoff, hview⟩ := hchain.exec_push_front
    (g := fun t => { t with prev := some addr }) (h.nodup ts hts) halloc haL
    (by simp [nextOf, Heap.alloc, t]) (by simp [prevOf, Heap.alloc, t, TwTimer.new])
    (fun _ => rfl) (fun _ => rfl)
  have hpay : Heap.view TwTimer.data heap = Function.update (payload w) addr
      (some (((ticksOf timeout / N : ℕ) : ℤ), ts)) := by
    rw [hview TwTimer.data (fun _ => rfl), Heap.alloc, Heap.view_update]
    rfl
  refine ⟨{ w with heap := heap, slots := Function.update w.slots ts (some addr) },
    by rw [addTimer_eq ht hne, hrun]; rfl, ?_, hpay, rfl⟩
  refine h.rewire hts _ rfl ?_ ?_ ?_ ?_ ?_ ?_ ?_
  · exact fun s hs => Function.update_of_ne hs _ _
  · exact fun q hq hq' => (hoff q hq).trans
      (Function.update_of_ne (List.ne_of_not_mem_cons hq') _ _)
  · simpa only [Function.update_self] using hfront
  · exact List.nodup_cons.mpr ⟨haL, h.nodup ts hts⟩
  · intro q hq
    simp only [payload, hpay]
    rcases List.mem_cons.mp hq with rfl | hq
    · exact ⟨_, Int.natCast_nonneg _, Function.update_self ..⟩
    · obtain ⟨r, hr⟩ := h.home ts hts q hq
      rw [Function.update_of_ne (ne_of_mem_of_not_mem hq haL)]
      exact ⟨r, (h.owned q r ts hr).2.1, hr⟩
  · exact fun q hq hq' => absurd (List.mem_cons_of_mem _ hq) hq'
  · intro q hq
    rcases List.mem_cons.mp hq with rfl | hq
    · exact Or.inr ha
    · exact Or.inl hq

/-! ### Removing -/

/-- **One timer removed.** An operation that unlinks the timer `p` from its slot, frees it
and touches no other slot restores the invariant. -/
theorem Rep.remove (h : Rep w L) {ts : ℕ} (hts : ts < N) {l₁ l₂ : List Ptr}
    (hL : L ts = l₁ ++ p :: l₂) (hcur : w'.curSlot = w.curSlot)
    (hslots : ∀ s, s ≠ ts → w'.slots s = w.slots s)
    (hframe : ∀ q, q ∉ L ts → w'.heap q = w.heap q)
    (hchain : Seg (nextOf w'.heap) (prevOf w'.heap) none (w'.slots ts) (l₁ ++ l₂) none)
    (hpay : payload w' = Function.update (payload w) p none) :
    Rep w' (Function.update L ts (l₁ ++ l₂)) := by
  have hnd : (l₁ ++ p :: l₂).Nodup := hL ▸ h.nodup ts hts
  have hp : p ∉ l₁ ++ l₂ := List.nodup_middle.mp hnd |>.notMem
  have hsub : ∀ q ∈ l₁ ++ l₂, q ∈ L ts := by
    intro q hq
    rw [hL]
    simp only [List.mem_append, List.mem_cons] at hq ⊢
    tauto
  refine h.rewire hts _ hcur hslots (fun q hq _ => hframe q hq) hchain
    (List.nodup_middle.mp hnd).of_cons ?_ ?_ (fun q hq => Or.inl (hsub q hq))
  · intro q hq
    obtain ⟨r, hr⟩ := h.home ts hts q (hsub q hq)
    rw [hpay, Function.update_of_ne (ne_of_mem_of_not_mem hq hp)]
    exact ⟨r, (h.owned q r ts hr).2.1, hr⟩
  · intro q hq hq'
    have hqp : q = p := by
      rw [hL] at hq
      simp only [List.mem_append, List.mem_cons, not_or] at hq hq'
      tauto
    rw [← payload_eq_none, hpay, hqp, Function.update_self]

/-- The head of a slot is the only timer its slot pointer designates. -/
theorem Rep.slot_eq_iff (h : Rep w L) (hs : s < N) {l₁ l₂ : List Ptr}
    (hL : L s = l₁ ++ p :: l₂) : w.slots s = some p ↔ l₁ = [] := by
  have hnd : (l₁ ++ p :: l₂).Nodup := hL ▸ h.nodup s hs
  rw [(h.chain s hs).head_eq, hL]
  cases l₁ with
  | nil => simp
  | cons q l₁ =>
      have hqp : q ≠ p := by
        rintro rfl
        exact (List.nodup_cons.mp hnd).1 (by simp)
      simp [hqp]

/-- **`del_timer`** unlinks and frees the timer, whether it heads its slot or stands behind
another. -/
theorem Rep.delTimer (h : Rep w L) {t : TwTimer} (ht : w.heap p = some t)
    {l₁ l₂ : List Ptr} (hL : L t.timeSlot = l₁ ++ p :: l₂) :
    ∃ w', w.delTimer (some p) = some w' ∧
      Rep w' (Function.update L t.timeSlot (l₁ ++ l₂)) ∧
      payload w' = Function.update (payload w) p none ∧ w'.curSlot = w.curSlot ∧
      (∀ s, s ≠ t.timeSlot → w'.slots s = w.slots s) := by
  obtain ⟨hts, -, -⟩ := h.owned p _ _ (payload_eq ht)
  have hnd : (l₁ ++ p :: l₂).Nodup := hL ▸ h.nodup _ hts
  have hchain := hL ▸ h.chain _ hts
  have halloc : Allocated w.heap (l₁ ++ p :: l₂) := hL ▸ h.allocated hts
  have hp : p ∉ l₁ ++ l₂ := List.nodup_middle.mp hnd |>.notMem
  have hslot := h.slot_eq_iff hts hL
  rcases List.eq_nil_or_concat' l₁ with rfl | ⟨l, a, rfl⟩
  · -- the timer heads its slot
    have hnt : t.next = nextOf w.heap p := (nextOf_eq ht).symm
    obtain ⟨heap, hrun, hseg, hoff, hview⟩ := Seg.exec_reback
      (g := fun q => { q with prev := none }) hchain.2.2 (List.nodup_cons.mp hnd).2
      (fun q hq => halloc q (by simp [hq])) (fun _ => rfl) (fun _ => rfl)
    have hheap : heap p = some t := by rw [hoff p (by simpa using hp), ht]
    refine ⟨{ w with
        heap := Function.update heap p none
        slots := Function.update w.slots t.timeSlot t.next }, ?_, ?_, ?_, rfl, ?_⟩
    · simp only [TimeWheel.delTimer, ht, Option.bind_eq_bind, Option.bind_some,
        hslot.mpr rfl, if_true, Function.update_self, hnt, hrun, Heap.delete_eq hheap]
    · refine h.remove hts hL rfl ?_ ?_ ?_ ?_
      · exact fun s hs => Function.update_of_ne hs _ _
      · intro q hq
        rw [hL] at hq
        simp only [List.nil_append, List.mem_cons, not_or] at hq
        exact (Function.update_of_ne hq.1 _ _).trans (hoff q hq.2)
      · simpa only [Function.update_self, hnt, List.nil_append] using
          hseg.delete (p := p) (by simpa using hp)
      · simp only [payload, Heap.view_update, hview TwTimer.data (fun _ => rfl)]
        rfl
    · simp only [payload, Heap.view_update, hview TwTimer.data (fun _ => rfl)]
      rfl
    · exact fun s hs => Function.update_of_ne hs _ _
  · -- the timer stands behind the timer `a`
    simp only [List.append_assoc, List.singleton_append] at hchain hnd halloc
    obtain ⟨h₁, h₂, hrun₁, hp₁, hrun₂, hp₂, hseg, hoff, hview⟩ := hchain.exec_unlink hnd
      halloc ht (f := fun q => { q with next := t.next })
      (g := fun q => { q with prev := t.prev })
      (fun _ => rfl) (fun _ => rfl) (fun _ => rfl) (fun _ => rfl)
    have hhead : w.slots t.timeSlot ≠ some p := fun he => by simpa using hslot.mp he
    refine ⟨{ w with heap := Function.update h₂ p none }, ?_, ?_, ?_, rfl, fun _ _ => rfl⟩
    · simp only [TwTimer.linked_next, TwTimer.linked_prev] at hrun₁ hrun₂
      simp only [TimeWheel.delTimer, ht, Option.bind_eq_bind, Option.bind_some, hhead,
        if_false, hrun₁, hp₁, hrun₂, Heap.delete_eq hp₂]
    · refine h.remove hts hL rfl (fun _ _ => rfl) ?_ ?_ ?_
      · intro q hq
        rw [hL] at hq
        have hqp : q ≠ p := fun he => hq (by simp [he])
        refine (Function.update_of_ne hqp _ _).trans (hoff q ?_)
        simpa using hq
      · have := hseg.delete (p := p) (by simpa using hp)
        simpa using this
      · simp only [payload, Heap.view_update, hview TwTimer.data (fun _ => rfl) (fun _ => rfl)]
        rfl
    · simp only [payload, Heap.view_update, hview TwTimer.data (fun _ => rfl) (fun _ => rfl)]
      rfl

/-- **The branch behind a callback** does to the current slot what `del_timer` does to the
firing timer, and goes on to the timer behind it. -/
theorem Rep.removeFired_eq (h : Rep w L) {l₁ l₂ : List Ptr}
    (hL : L w.curSlot = l₁ ++ p :: l₂) :
    ∃ w', w.removeFired p = some (w', l₂.head?) ∧ w.delTimer (some p) = some w' := by
  have hcur := h.cursor
  obtain ⟨r, hr⟩ := h.home _ hcur p (by simp [hL])
  obtain ⟨t, ht, -, htc⟩ := exists_of_payload hr
  have hnd : (l₁ ++ p :: l₂).Nodup := hL ▸ h.nodup _ hcur
  have hchain := hL ▸ h.chain _ hcur
  have halloc : Allocated w.heap (l₁ ++ p :: l₂) := hL ▸ h.allocated hcur
  have hslot := h.slot_eq_iff hcur hL
  have hnt : t.next = l₂.head? := (nextOf_eq ht).symm.trans hchain.next_eq
  have hp : p ∉ l₁ ++ l₂ := List.nodup_middle.mp hnd |>.notMem
  rcases List.eq_nil_or_concat' l₁ with rfl | ⟨l, a, rfl⟩
  · have hne : t.next ≠ some p := hnt ▸ head?_ne_some_of_notMem (by simpa using hp)
    obtain ⟨heap, hrun⟩ := Heap.exists_storeIf (h := w.heap) (p := t.next)
      (fun q hq => halloc q (by simp [List.mem_of_mem_head? (hnt ▸ hq)]))
      (fun q => { q with prev := none })
    have hheap : heap p = some t := by
      obtain ⟨-, rfl⟩ | ⟨c, n, hc, -, rfl⟩ := Heap.storeIf_cases hrun
      · exact ht
      · rw [Function.update_of_ne (fun hpc => hne (by rw [hc, hpc])), ht]
    refine ⟨{ w with
      heap := Function.update heap p none
      slots := Function.update w.slots w.curSlot t.next }, ?_, ?_⟩
    · rw [← hnt]
      simp only [TimeWheel.removeFired, ht, Option.bind_eq_bind, Option.bind_some,
        hslot.mpr rfl, if_true, Heap.delete_eq ht, Function.update_self,
        Heap.storeIf_update_none hne, hrun, Option.map_some]
    · simp only [TimeWheel.delTimer, ht, Option.bind_eq_bind, Option.bind_some, htc,
        hslot.mpr rfl, if_true, Function.update_self, hrun, Heap.delete_eq hheap]
  · simp only [List.append_assoc, List.singleton_append] at hchain hnd halloc
    obtain ⟨h₁, h₂, hrun₁, hp₁, hrun₂, hp₂, -⟩ := hchain.exec_unlink hnd
      halloc ht (f := fun q => { q with next := t.next })
      (g := fun q => { q with prev := t.prev })
      (fun _ => rfl) (fun _ => rfl) (fun _ => rfl) (fun _ => rfl)
    simp only [TwTimer.linked_next, TwTimer.linked_prev] at hrun₁ hrun₂
    have hhead : w.slots w.curSlot ≠ some p := fun he => by simpa using hslot.mp he
    refine ⟨{ w with heap := Function.update h₂ p none }, ?_, ?_⟩
    · rw [← hnt]
      simp only [TimeWheel.removeFired, ht, Option.bind_eq_bind, Option.bind_some, hhead,
        if_false, hrun₁, hp₁, hrun₂, hp₂, Heap.delete_eq hp₂]
    · simp only [TimeWheel.delTimer, ht, Option.bind_eq_bind, Option.bind_some, htc, hhead,
        if_false, hrun₁, hp₁, hrun₂, Heap.delete_eq hp₂]

/-- **The timer that fired** leaves the current slot, and the walk goes on behind it. -/
theorem Rep.removeFired (h : Rep w L) {l₁ l₂ : List Ptr} (hL : L w.curSlot = l₁ ++ p :: l₂) :
    ∃ w', w.removeFired p = some (w', l₂.head?) ∧
      Rep w' (Function.update L w.curSlot (l₁ ++ l₂)) ∧
      payload w' = Function.update (payload w) p none ∧ w'.curSlot = w.curSlot := by
  obtain ⟨r, hr⟩ := h.home _ h.cursor p (by simp [hL])
  obtain ⟨t, ht, -, hts⟩ := exists_of_payload hr
  obtain ⟨w', hrun, hdel⟩ := h.removeFired_eq hL
  obtain ⟨w₁, hdel₁, hrep, hpay, hcur, -⟩ := h.delTimer ht (hts ▸ hL)
  obtain rfl : w' = w₁ := Option.some.inj (hdel.symm.trans hdel₁)
  exact ⟨w', hrun, hts ▸ hrep, hpay, hcur⟩

/-! ### Counting down -/

/-- **The rotation decrement** changes nothing but the rotation of its timer, so the links are
as they were. -/
theorem Rep.countDown (h : Rep w L) {t : TwTimer} (ht : w.heap p = some t)
    (hr : 0 < t.rotation) :
    let heap := Function.update w.heap p (some { t with rotation := t.rotation - 1 })
    Rep { w with heap := heap } L ∧
      payload { w with heap := heap } =
        Function.update (payload w) p (some (t.rotation - 1, t.timeSlot)) := by
  intro heap
  obtain ⟨hts, -, hmem⟩ := h.owned p _ _ (payload_eq ht)
  have hpay : payload { w with heap := heap } =
      Function.update (payload w) p (some (t.rotation - 1, t.timeSlot)) :=
    Heap.view_update _ _ _ _
  refine ⟨?_, hpay⟩
  have hrep : Rep { w with heap := heap } (Function.update L t.timeSlot (L t.timeSlot)) := by
    refine h.rewire hts _ rfl (fun _ _ => rfl) ?_ ?_ (h.nodup _ hts) ?_
      (fun q hq hq' => absurd hq hq') (fun q hq => Or.inl hq)
    · exact fun q hq _ => Function.update_of_ne (ne_of_mem_of_not_mem hmem hq).symm _ _
    · rw [nextOf_update_same ht (by rfl), prevOf_update_same ht (by rfl)]
      exact h.chain _ hts
    · intro q hq
      rw [hpay]
      by_cases hqp : q = p
      · exact ⟨t.rotation - 1, by omega, by rw [hqp, Function.update_self]⟩
      · obtain ⟨r, hr⟩ := h.home _ hts q hq
        exact ⟨r, (h.owned q r _ hr).2.1, by rw [Function.update_of_ne hqp, hr]⟩
  rwa [Function.update_eq_self] at hrep

end LinuxNetwork.TimeWheel

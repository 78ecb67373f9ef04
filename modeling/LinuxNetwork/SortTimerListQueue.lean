import LinuxNetwork.SortTimerListLinks
import LinuxNetwork.Transition

/-!
# The Sorted Timer List Refines a Stably Sorted Queue

The reference is a plain list of entries. Its calls have preconditions: a timer is added
under an address that no outstanding timer has, only outstanding timers are moved and
deleted, and a move never lowers the expiry. Under these the doubly linked structure
follows the reference call by call, and the reference stays the stable sort of the
outstanding timers in the order in which they were last inserted.

## Main results

* `exec_simulates`, `follows_of_runCalls`: a call on the list is one on the reference, and so is a
  sequence of calls.
* `sortTimerList_refines_queue`: the refinement over all sequences of calls, with what a
  tick fires read off the insertion order.
-/

open DoublyLinked StableQueue Transition

namespace LinuxNetwork.SortTimerList

variable {U : Type}

/-! ### The reference -/

/-- The entry of a timer. -/
def entryOf (timer : Ptr) (es : List (Entry U)) : Option (Entry U) :=
  es.find? fun e => decide (e.timer = timer)

/-- The entries of all other timers. -/
def removeTimer (timer : Ptr) (es : List (Entry U)) : List (Entry U) :=
  es.filter fun e => decide (e.timer ≠ timer)

/-- Insertion behind all entries with an expiry at most its own. -/
def place (e : Entry U) (es : List (Entry U)) : List (Entry U) :=
  es.filter (fun f => decide (f.expire ≤ e.expire)) ++
    e :: es.filter fun f => decide (e.expire < f.expire)

/-- The entries that are due at `cur`. -/
def due (cur : ℤ) (es : List (Entry U)) : List (Entry U) :=
  es.filter fun e => decide (e.expire ≤ cur)

/-- The entries that are not due at `cur`. -/
def pending (cur : ℤ) (es : List (Entry U)) : List (Entry U) :=
  es.filter fun e => decide (cur < e.expire)

/-- What a caller owes to the list: fresh timers to `add_timer`, members to `adjust_timer`
and `del_timer`, and no lowered expiry. -/
def Op.Allowed (es : List (Entry U)) : Op U → Prop
  | .addTimer addr _ _ => addr ∉ timers es
  | .adjustTimer timer expire => ∃ e ∈ es, e.timer = timer ∧ e.expire ≤ expire
  | .delTimer timer => timer ∈ timers es
  | .tick _ => True

instance (es : List (Entry U)) (op : Op U) : Decidable (op.Allowed es) := by
  cases op <;> unfold Op.Allowed <;> infer_instance

/-- The reference list after a call. -/
def refNext (es : List (Entry U)) : Op U → List (Entry U)
  | .addTimer addr expire userData => place ⟨addr, expire, userData⟩ es
  | .adjustTimer timer expire =>
      match entryOf timer es with
      | some e => place { e with expire := expire } (removeTimer timer es)
      | none => es
  | .delTimer timer => removeTimer timer es
  | .tick cur => pending cur es

/-- The timers that a call fires on the reference list. -/
def refFired (es : List (Entry U)) : Op U → List Ptr
  | .tick cur => timers (due cur es)
  | _ => []

/-- A call on the reference list. -/
def refStep (es : List (Entry U)) (op : Op U) : Option (List (Entry U) × List Ptr) :=
  if op.Allowed es then some (refNext es op, refFired es op) else none

/-- The outstanding timers in the order of their insertion, after one more call. A move
counts as an insertion. -/
def arrive (es : List (Entry U)) : Op U → List (Entry U)
  | .addTimer addr expire userData => es ++ [⟨addr, expire, userData⟩]
  | .adjustTimer timer expire =>
      match entryOf timer es with
      | some e => removeTimer timer es ++ [{ e with expire := expire }]
      | none => es
  | .delTimer timer => removeTimer timer es
  | .tick cur => pending cur es

/-- The outstanding timers after a sequence of calls, in the order of their insertion. -/
def arrivals (ops : List (Op U)) : List (Entry U) :=
  ops.foldl arrive []

/-! ### Facts about the reference -/

variable {es es₁ es₂ fs : List (Entry U)} {e : Entry U} {p : Ptr} {op : Op U}

/-- In a sorted queue the reference insertion, which cuts the queue by the expiries, is the
insertion of the walk. -/
theorem place_eq_insert (h : Sorted Entry.expire es) (e : Entry U) :
    place e es = insertEntry e es :=
  (insert_eq_filter h).symm

/-- An entry is found by its timer, since no other entry has the same. -/
theorem entryOf_eq (hnodup : (timers es).Nodup) (he : e ∈ es) :
    entryOf e.timer es = some e := by
  obtain ⟨es₁, es₂, rfl⟩ := List.append_of_mem he
  rw [timers_append, timers_cons, List.nodup_middle, List.nodup_cons, ← timers_append] at hnodup
  rw [entryOf, List.find?_append, List.find?_eq_none.mpr, List.find?_cons_of_pos (by simp)]
  · rfl
  · intro f hf hfe
    have hfe : f.timer = e.timer := of_decide_eq_true hfe
    exact hnodup.1 (hfe ▸ List.mem_map_of_mem (List.mem_append_left _ hf))

/-- Removal takes out one entry and leaves those in front of it and behind it in order. -/
theorem removeTimer_append_cons (hnodup : (timers (es₁ ++ e :: es₂)).Nodup) :
    removeTimer e.timer (es₁ ++ e :: es₂) = es₁ ++ es₂ := by
  rw [timers_append, timers_cons, List.nodup_middle, List.nodup_cons, ← timers_append] at hnodup
  have hself : (es₁ ++ es₂).filter (fun f => decide (f.timer ≠ e.timer)) = es₁ ++ es₂ := by
    rw [List.filter_eq_self]
    intro f hf
    have : f.timer ≠ e.timer := fun hfe => hnodup.1 (hfe ▸ List.mem_map_of_mem hf)
    simpa using this
  rw [removeTimer, List.filter_append, List.filter_cons_of_neg (by simp), ← List.filter_append,
    hself]

/-- Whether a timer occurs twice does not depend on the order of the entries. -/
theorem timers_nodup_iff (h : es.Perm fs) : (timers es).Nodup ↔ (timers fs).Nodup :=
  (h.map Entry.timer).nodup_iff

/-- **The reference stays the stable sort of the insertion order.** An adjusted timer is one
that is removed and inserted last; the other calls insert an entry or drop some. -/
theorem refNext_stableSort (h : StableSort Entry.expire es fs) (hnodup : (timers es).Nodup)
    (hop : op.Allowed es) : StableSort Entry.expire (refNext es op) (arrive fs op) := by
  cases op with
  | addTimer addr expire userData =>
      rw [refNext, place_eq_insert h.sorted]
      exact h.insert _
  | adjustTimer timer expire =>
      obtain ⟨e, he, rfl, -⟩ := hop
      have hfs := (timers_nodup_iff h.perm).mp hnodup
      have hrem : StableSort Entry.expire (removeTimer e.timer es) (removeTimer e.timer fs) :=
        h.filter _
      simp only [refNext, arrive, entryOf_eq hnodup he,
        entryOf_eq hfs (h.perm.mem_iff.mp he)]
      rw [place_eq_insert hrem.sorted]
      exact hrem.insert _
  | delTimer timer => exact h.filter _
  | tick cur => exact h.filter _

/-- No call adds more than one entry to the reference. So a walk needs no more fuel than there
were calls. -/
theorem length_refStep_le {fired : List Ptr} (h : refStep es op = some (fs, fired)) :
    fs.length ≤ es.length + 1 := by
  obtain ⟨hop, hstep⟩ := Option.ite_none_right_eq_some.mp h
  obtain ⟨rfl, -⟩ := Prod.mk.injEq .. ▸ Option.some.inj hstep
  have hplace : ∀ (e : Entry U) es, (place e es).length = es.length + 1 := by
    intro e es
    have := List.length_eq_length_filter_add (l := es) fun f => decide (f.expire ≤ e.expire)
    simp only [← decide_not, not_le] at this
    simp only [place, List.length_append, List.length_cons]
    omega
  have hrem : ∀ p, (removeTimer p es).length ≤ es.length := fun p => List.length_filter_le _ _
  cases op with
  | addTimer addr expire userData => exact (hplace _ es).le
  | adjustTimer timer expire =>
      simp only [refNext]
      cases entryOf timer es with
      | none => exact Nat.le_succ _
      | some e =>
          have := hrem timer
          have := hplace { e with expire := expire } (removeTimer timer es)
          simp only
          omega
  | delTimer timer => exact (hrem timer).trans (Nat.le_succ _)
  | tick cur => exact (List.length_filter_le _ _).trans (Nat.le_succ _)

/-- A timer that does not stand in the reference can be inserted there and then stands there
once. -/
theorem nodup_place (h : Sorted Entry.expire es) (hnodup : (timers es).Nodup)
    (he : e.timer ∉ timers es) : (timers (place e es)).Nodup := by
  rw [place_eq_insert h, timers_nodup_iff (perm_insert e es), timers_cons, List.nodup_cons]
  exact ⟨he, hnodup⟩

/-- A timer stands in the reference at most once: a new one is fresh, and an adjusted one is
removed first. -/
theorem nodup_refNext (h : Sorted Entry.expire es) (hnodup : (timers es).Nodup)
    (hop : op.Allowed es) : (timers (refNext es op)).Nodup := by
  have hsub : ∀ p : Entry U → Bool, (timers (es.filter p)).Nodup := fun p =>
    hnodup.sublist (List.filter_sublist.map _)
  cases op with
  | addTimer addr expire userData => exact nodup_place h hnodup hop
  | adjustTimer timer expire =>
      obtain ⟨e, he, rfl, -⟩ := hop
      simp only [refNext, entryOf_eq hnodup he]
      refine nodup_place (h.sublist List.filter_sublist) (hsub _) ?_
      simp [timers, removeTimer]
  | delTimer timer => exact hsub _
  | tick cur => exact hsub _

/-- After every sequence of calls the reference is the stable sort of the outstanding timers in
the order of their insertion. Induction on the sequence. -/
theorem stableSort_of_runCalls {ops : List (Op U)} {es' : List (Entry U)}
    {outs : List (List Ptr)} (h : StableSort Entry.expire es fs) (hnodup : (timers es).Nodup)
    (hrun : runCalls refStep es ops = some (es', outs)) :
    StableSort Entry.expire es' (ops.foldl arrive fs) ∧ (timers es').Nodup := by
  induction ops generalizing es fs outs with
  | nil =>
      obtain ⟨rfl, -⟩ := Prod.mk.injEq .. ▸ Option.some.inj hrun
      exact ⟨h, hnodup⟩
  | cons op ops ih =>
      obtain ⟨es₁, fired, outs', hstep, hrun', -⟩ := runCalls_cons_eq_some.mp hrun
      obtain ⟨hop, hstep⟩ := Option.ite_none_right_eq_some.mp hstep
      obtain ⟨rfl, -⟩ := Prod.mk.injEq .. ▸ Option.some.inj hstep
      exact ih (refNext_stableSort h hnodup hop) (nodup_refNext h.sorted hnodup hop) hrun'

/-! ### The refinement -/

/-- **The refinement relation.** The list holds the entries `es` in this order, which is
ascending, and no timer but theirs is allocated. -/
structure Follows (l : SortTimerList U) (es : List (Entry U)) : Prop where
  rep : Rep l es
  sorted : Sorted Entry.expire es
  owned : ∀ p, (l.heap p).isSome ↔ p ∈ timers es

variable {l : SortTimerList U}

/-- The timers of the queue are allocated. -/
theorem isSome_of_mem (h : Rep l es) (hp : p ∈ timers es) : (l.heap p).isSome := by
  obtain ⟨t, ht⟩ := h.allocated p hp
  rw [ht, Option.isSome_some]

/-- A list just constructed refines the empty queue, and no timer is allocated. -/
theorem follows_new : Follows (new : SortTimerList U) [] where
  rep := rep_new
  sorted := List.Pairwise.nil
  owned := fun _ => by simp [new]

/-- An entry of a queue and what stands in front of it and behind it. -/
theorem exists_split_of_mem (hp : p ∈ timers es) :
    ∃ es₁ e es₂, es = es₁ ++ e :: es₂ ∧ e.timer = p := by
  obtain ⟨e, he, rfl⟩ := List.mem_map.mp hp
  obtain ⟨es₁, es₂, rfl⟩ := List.append_of_mem he
  exact ⟨es₁, e, es₂, rfl, rfl⟩

/-- **`add_timer`** of a fresh timer inserts it where the reference does. -/
theorem Follows.addTimer {fuel : ℕ} (h : Follows l es) (hfuel : es.length ≤ fuel)
    (he : e.timer ∉ timers es) :
    ∃ l', (l.newTimer e.timer e.expire e.userData).addTimer fuel (some e.timer) = some l' ∧
      Follows l' (place e es) := by
  have hnew : ∀ q, q ≠ e.timer →
      (l.newTimer e.timer e.expire e.userData).heap q = l.heap q := fun q hq =>
    Function.update_of_ne hq _ _
  have hself : (l.newTimer e.timer e.expire e.userData).heap e.timer =
      some (UtilTimer.new e.expire e.userData) := Function.update_self ..
  have hrep : Rep (l.newTimer e.timer e.expire e.userData) es :=
    h.rep.congr_heap fun q hq => hnew q (ne_of_mem_of_not_mem hq he)
  obtain ⟨l', hrun, hrep', hoff⟩ := hrep.addTimer hself rfl he hfuel
  rw [place_eq_insert h.sorted]
  refine ⟨l', hrun, hrep', sorted_insert h.sorted, fun p => ?_⟩
  have hmem : p ∈ timers (insertEntry e es) ↔ p = e.timer ∨ p ∈ timers es := by
    simp [timers, insertEntry, eq_comm]
  by_cases hp : p ∈ timers (insertEntry e es)
  · exact iff_of_true (isSome_of_mem hrep' hp) hp
  · have hp' := not_or.mp (hmem.not.mp hp)
    rw [hoff p hp'.2 hp'.1, hnew p hp'.1, h.owned p]
    simp [hp, hp'.2]

/-- **`adjust_timer`** of a timer whose expiry was raised moves it where the reference does:
walking on from the old place is removing and inserting. -/
theorem Follows.adjustTimer {fuel : ℕ} {x : ℤ} (h : Follows l es) (hfuel : es.length ≤ fuel)
    (he : e ∈ es) (hx : e.expire ≤ x) :
    ∃ l₁ l', l.setExpire e.timer x = some l₁ ∧
      l₁.adjustTimer fuel (some e.timer) = some l' ∧
      Follows l' (place { e with expire := x } (removeTimer e.timer es)) := by
  obtain ⟨es₁, es₂, rfl⟩ := List.append_of_mem he
  obtain ⟨l₁, hset, hrep, -, hoff⟩ := h.rep.setExpire x
  obtain ⟨l', hrun, hrep', hoff'⟩ := hrep.adjustTimer fuel (by simp at hfuel; omega)
  have hsorted : Sorted Entry.expire (es₁ ++ es₂) := h.sorted.sublist (by simp)
  have heq : place { e with expire := x } (removeTimer e.timer (es₁ ++ e :: es₂)) =
      es₁ ++ insertEntry { e with expire := x } es₂ := by
    rw [removeTimer_append_cons h.rep.nodup, place_eq_insert hsorted]
    exact insert_append h.sorted hx
  have hmem : ∀ q, q ∈ timers (es₁ ++ insertEntry { e with expire := x } es₂) ↔
      q ∈ timers (es₁ ++ e :: es₂) := by
    intro q
    simp [timers, insertEntry, eq_comm]
  refine ⟨l₁, l', hset, hrun, heq ▸ hrep', ?_, fun p => ?_⟩
  · rw [removeTimer_append_cons h.rep.nodup, place_eq_insert hsorted]
    exact sorted_insert hsorted
  · rw [heq]
    by_cases hp : p ∈ timers (es₁ ++ e :: es₂)
    · have hp' := (hmem p).mpr hp
      exact iff_of_true (isSome_of_mem hrep' hp') hp'
    · have hpe : p ≠ e.timer := fun hpe => hp (by simp [hpe])
      rw [hoff' p (by simpa using hp), hoff p hpe, h.owned p, hmem]

/-- **`del_timer`** of a timer in the list removes it, as the reference does, and frees it. -/
theorem Follows.delTimer (h : Follows l es) (hp : p ∈ timers es) :
    ∃ l', l.delTimer (some p) = some l' ∧ Follows l' (removeTimer p es) := by
  obtain ⟨es₁, e, es₂, rfl, rfl⟩ := exists_split_of_mem hp
  obtain ⟨l', hrun, hrep, hgone, hoff⟩ := h.rep.delTimer
  rw [removeTimer_append_cons h.rep.nodup]
  refine ⟨l', hrun, hrep, h.sorted.sublist (by simp), fun q => ?_⟩
  by_cases hqe : q = e.timer
  · subst hqe
    exact iff_of_false (by simp [hgone]) h.rep.notMem
  · by_cases hq : q ∈ timers (es₁ ++ es₂)
    · exact iff_of_true (isSome_of_mem hrep hq) hq
    · have hq' : q ∉ timers (es₁ ++ e :: es₂) := by
        simp only [timers_append, timers_cons, List.mem_append, List.mem_cons] at hq ⊢
        tauto
      rw [hoff q hq', h.owned q]
      simp only [hq, hq']

/-- **`tick`** fires the timers that are due and keeps those that are pending. In a sorted queue
the due ones stand in front. -/
theorem Follows.tick {fuel : ℕ} (h : Follows l es) (hfuel : es.length ≤ fuel) (cur : ℤ) :
    ∃ l', SortTimerList.tick logFired fuel cur l [] = some (l', timers (due cur es)) ∧
      Follows l' (pending cur es) := by
  have hdue : firedBy cur es = due cur es := takeWhile_eq_filter h.sorted cur
  have hpending : leftBy cur es = pending cur es := dropWhile_eq_filter h.sorted cur
  have hact : (firedBy cur es).foldlM (fun log e => some (log ++ [e.timer])) [] =
      some (timers (due cur es)) := by
    rw [hdue, timers, List.map_eq_flatMap, List.flatMap_def, ← List.nil_append (List.flatten _),
      ← List.foldl_append_eq_append]
    exact List.foldlM_pure ..
  obtain ⟨l', hrun, hrep, hgone, hoff⟩ := Rep.tick logFired
    (fun p _ log => some (log ++ [p])) (fun _ _ _ _ _ => rfl) cur h.rep hfuel hact
  rw [hpending] at hrep
  rw [hdue] at hgone
  refine ⟨l', hrun, hrep, h.sorted.sublist List.filter_sublist, fun q => ?_⟩
  by_cases hq : q ∈ timers (pending cur es)
  · exact iff_of_true (isSome_of_mem hrep hq) hq
  · by_cases hqe : q ∈ timers es
    · obtain ⟨e, he, rfl⟩ := List.mem_map.mp hqe
      have hdue : e ∈ due cur es := by
        by_contra hnot
        refine hq (List.mem_map_of_mem ?_)
        simpa [due, pending, he] using hnot
      exact iff_of_false (by simp [hgone e hdue]) hq
    · rw [hoff q hqe, h.owned q]
      simp only [hq, hqe]

/-- **One call on the list is one call on the reference**: it succeeds, fires the same timers,
and the refinement relation holds afterwards. One case per call. -/
theorem exec_simulates {fuel : ℕ} {es' : List (Entry U)} {fired : List Ptr}
    (h : Follows l es) (hfuel : es.length ≤ fuel) (hstep : refStep es op = some (es', fired)) :
    ∃ l', exec fuel l op = some (l', fired) ∧ Follows l' es' := by
  obtain ⟨hop, hstep⟩ := Option.ite_none_right_eq_some.mp hstep
  obtain ⟨rfl, rfl⟩ := Prod.mk.injEq .. ▸ Option.some.inj hstep
  cases op with
  | addTimer addr expire userData =>
      obtain ⟨l', hrun, hfol⟩ := h.addTimer (e := ⟨addr, expire, userData⟩) hfuel hop
      exact ⟨l', by simp [exec, hrun, refFired], hfol⟩
  | adjustTimer timer expire =>
      obtain ⟨e, he, rfl, hx⟩ := hop
      obtain ⟨l₁, l', hset, hrun, hfol⟩ := h.adjustTimer hfuel he hx
      refine ⟨l', by simp [exec, hset, hrun, refFired], ?_⟩
      simpa only [refNext, entryOf_eq h.rep.nodup he] using hfol
  | delTimer timer =>
      obtain ⟨l', hrun, hfol⟩ := h.delTimer hop
      exact ⟨l', by simp [exec, hrun, refFired], hfol⟩
  | tick cur => exact h.tick hfuel cur

/-- **The list follows its reference** through every sequence of calls that this accepts. The
reference is no longer than the sequence, so the fuel suffices for every walk. -/
theorem follows_of_runCalls {ops : List (Op U)} {es : List (Entry U)} {outs : List (List Ptr)}
    (hops : runCalls refStep [] ops = some (es, outs)) {fuel : ℕ} (hfuel : ops.length ≤ fuel) :
    ∃ l, runCalls (exec fuel) new ops = some (l, outs) ∧ Follows l es := by
  have hsim : ∀ l es op es' fired, op ∈ ops → Follows l es → es.length ≤ fuel →
      refStep es op = some (es', fired) →
      ∃ l' b, exec fuel l op = some (l', b) ∧ Follows l' es' ∧ b = fired := by
    intro l es op es' fired _ h hlen hstep
    obtain ⟨l', hrun, hfol⟩ := exec_simulates h hlen hstep
    exact ⟨l', fired, hrun, hfol, rfl⟩
  have hok : ∀ pre post (u : List (Entry U)) ds, ops = pre ++ post →
      runCalls refStep [] pre = some (u, ds) → u.length ≤ fuel := by
    intro pre post u ds heq hpre
    have := le_of_runCalls (μ := List.length) (fun _ _ _ _ => length_refStep_le) hpre
    simp only [heq, List.length_append, List.length_nil] at hfuel this
    omega
  obtain ⟨l, bs, hrun, hfol, hall⟩ := runCalls_simulates_of_mem hsim follows_new hops hok
  rw [List.forall₂_eq_eq_eq] at hall
  exact ⟨l, hall ▸ hrun, hfol⟩

/-- **The timer list refines a stably sorted queue.** Every sequence of calls whose
preconditions hold succeeds on the list, which fires in each call what the reference fires
and afterwards holds the entries of the reference, in order, with mirrored links and no
other timer allocated. Every tick fires, once each, exactly the outstanding timers that
are due, in ascending order of their expiries, equal ones in the order of their
insertion. -/
theorem sortTimerList_refines_queue {ops : List (Op U)} {es : List (Entry U)}
    {outs : List (List Ptr)} (hops : runCalls refStep [] ops = some (es, outs)) {fuel : ℕ}
    (hfuel : ops.length ≤ fuel) :
    (∃ l, runCalls (exec fuel) new ops = some (l, outs) ∧ Follows l es) ∧
      StableSort Entry.expire es (arrivals ops) ∧
      ∀ before cur after, ops = before ++ .tick cur :: after →
        ∃ fired, outs[before.length]? = some (timers fired) ∧ (timers fired).Nodup ∧
          StableSort Entry.expire fired (due cur (arrivals before)) := by
  refine ⟨follows_of_runCalls hops hfuel,
    (stableSort_of_runCalls stableSort_nil List.nodup_nil hops).1, ?_⟩
  rintro before cur after rfl
  obtain ⟨fs, us, gs, fired, hbefore, hstep, hget⟩ := getElem?_of_runCalls hops
  obtain ⟨-, hstep⟩ := Option.ite_none_right_eq_some.mp hstep
  obtain ⟨-, rfl⟩ := Prod.mk.injEq .. ▸ Option.some.inj hstep
  obtain ⟨hfs, hnodup⟩ := stableSort_of_runCalls stableSort_nil List.nodup_nil hbefore
  exact ⟨due cur fs, hget, hnodup.sublist (List.filter_sublist.map _), hfs.filter _⟩

/-- Two equal expiries, one timer that is moved behind another, one that is deleted, and a
tick with a timer left over. -/
theorem sortTimerList_refines_queue_example :
    (∃ l, runCalls (exec 7) new
        ([.addTimer 1 5 (), .addTimer 2 7 (), .addTimer 3 7 (), .adjustTimer 1 7,
          .addTimer 4 9 (), .delTimer 2, .tick 7] : List (Op Unit)) =
          some (l, [[], [], [], [], [], [], [3, 1]]) ∧ Follows l [⟨4, 9, ()⟩]) ∧
      StableSort Entry.expire [⟨4, 9, ()⟩]
        (arrivals ([.addTimer 1 5 (), .addTimer 2 7 (), .addTimer 3 7 (), .adjustTimer 1 7,
          .addTimer 4 9 (), .delTimer 2, .tick 7] : List (Op Unit))) ∧
      ∀ before cur after,
        ([.addTimer 1 5 (), .addTimer 2 7 (), .addTimer 3 7 (), .adjustTimer 1 7,
          .addTimer 4 9 (), .delTimer 2, .tick 7] : List (Op Unit)) =
            before ++ .tick cur :: after →
        ∃ fired, ([[], [], [], [], [], [], [3, 1]] : List (List Ptr))[before.length]? =
            some (timers fired) ∧ (timers fired).Nodup ∧
          StableSort Entry.expire fired (due cur (arrivals before)) :=
  sortTimerList_refines_queue rfl (by decide)

/-- Equal expiries fire in insertion order, and a moved timer goes behind its equals. -/
example :
    (do let (l, _) ← exec 9 new (.addTimer 1 5 ())
        let (l, _) ← exec 9 l (.addTimer 2 7 ())
        let (l, _) ← exec 9 l (.addTimer 3 7 ())
        let (l, _) ← exec 9 l (.adjustTimer 1 7)
        let (_, fired) ← exec 9 l (.tick 7)
        pure fired) = some [2, 3, 1] := by rfl

end LinuxNetwork.SortTimerList

import LinuxNetwork.SortTimerListQueue

/-!
# The Ends of the Sorted Timer List

`tick` moves the head of the list on and frees the timers it passes, but never writes `tail`.
When it frees all timers of a list that has some, the tail goes on to designate the last of
them, which is freed. All other calls keep the two ends in agreement.

## Main definitions

* `EndsAgree`: the ends of the list agree with its chain.

## Main results

* `Follows.endsAgree_iff`: the calls that keep the ends in agreement.
* `endsAgree_iff_keepsAll`: the sequences of calls after each of which they agree.
-/

open DoublyLinked StableQueue Transition

namespace LinuxNetwork.SortTimerList

variable {U : Type}

/-- **The ends agree.** The head is null exactly if the tail is, and otherwise the tail is the last
timer of the chain from the head. Neither designates a timer that has been freed. -/
structure EndsAgree (l : SortTimerList U) : Prop where
  null_iff : l.head = none ↔ l.tail = none
  last : ∀ ps, Seg (nextOf l.heap) (prevOf l.heap) none l.head ps none → ps ≠ [] →
    l.tail = ps.getLast?
  allocated : ∀ p, l.head = some p ∨ l.tail = some p → l.heap p ≠ none

/-- The calls that keep the ends in agreement: all but a tick that leaves nothing of a list that
has timers. -/
def Op.Keeps (es : List (Entry U)) : Op U → Prop
  | .addTimer _ _ _ => True
  | .adjustTimer _ _ => True
  | .delTimer _ => True
  | .tick cur => es ≠ [] → ∃ e ∈ es, cur < e.expire

instance (es : List (Entry U)) (op : Op U) : Decidable (op.Keeps es) :=
  match op with
  | .addTimer _ _ _ => inferInstanceAs (Decidable True)
  | .adjustTimer _ _ => inferInstanceAs (Decidable True)
  | .delTimer _ => inferInstanceAs (Decidable True)
  | .tick _ => inferInstanceAs (Decidable (_ → _))

/-- Each call of the sequence keeps the ends in agreement when its turn comes. -/
def KeepsAll : List (Entry U) → List (Op U) → Prop
  | _, [] => True
  | es, op :: ops => op.Keeps es ∧ KeepsAll (refNext es op) ops

variable {l l' : SortTimerList U} {es es' : List (Entry U)} {op : Op U} {fuel : ℕ}

/-- The ends of a list with timers agree, and those of an empty one if its tail is null. -/
theorem Rep.endsAgree_iff (h : Rep l es) : l.EndsAgree ↔ (es = [] → l.tail = none) := by
  constructor
  · rintro hagree rfl
    exact hagree.null_iff.mp h.chain
  · intro hempty
    have htail : l.tail = (timers es).getLast? := by
      cases es with
      | nil => exact hempty rfl
      | cons e es => exact h.tail (List.cons_ne_nil e es)
    refine ⟨?_, fun ps hps _ => ?_, fun p hp => ?_⟩
    · rw [htail, h.chain.head_eq, List.head?_eq_none_iff, List.getLast?_eq_none_iff]
    · rw [htail, hps.unique h.chain]
    · have hmem : p ∈ timers es := by
        rcases hp with hp | hp
        · exact List.mem_of_mem_head? (h.chain.head_eq ▸ hp)
        · exact List.mem_of_getLast? (htail ▸ hp)
      obtain ⟨t, ht⟩ := h.allocated p hmem
      rw [ht]
      exact Option.some_ne_none t

/-- The loop of `tick` moves the head alone. Induction on the fuel. -/
theorem tail_tickLoop {cur : ℤ} {tmp : Option Ptr} {log log' : List Ptr}
    (hrun : tickLoop logFired cur fuel tmp l log = some (l', log')) : l'.tail = l.tail := by
  induction fuel generalizing tmp l log with
  | zero =>
      cases tmp with
      | none =>
          obtain ⟨rfl, -⟩ := Prod.mk.injEq .. ▸ Option.some.inj hrun
          rfl
      | some p => cases hrun
  | succ fuel ih =>
      cases tmp with
      | none =>
          obtain ⟨rfl, -⟩ := Prod.mk.injEq .. ▸ Option.some.inj hrun
          rfl
      | some p =>
          obtain ⟨t, ht, hrun⟩ := Option.bind_eq_some_iff.mp hrun
          split at hrun
          · obtain ⟨rfl, -⟩ := Prod.mk.injEq .. ▸ Option.some.inj hrun
            rfl
          · obtain ⟨r, hr, hrun⟩ := Option.bind_eq_some_iff.mp hrun
            obtain rfl := Option.some.inj hr
            obtain ⟨t', -, hrun⟩ := Option.bind_eq_some_iff.mp hrun
            obtain ⟨heap, -, hrun⟩ := Option.bind_eq_some_iff.mp hrun
            obtain ⟨heap', -, hrun⟩ := Option.bind_eq_some_iff.mp hrun
            have htail := ih hrun
            exact htail

/-- `tick` does not write the tail, whether it fires all timers of the list or none. -/
theorem tail_tick {cur : ℤ} {log log' : List Ptr}
    (hrun : SortTimerList.tick logFired fuel cur l log = some (l', log')) :
    l'.tail = l.tail := by
  rw [SortTimerList.tick] at hrun
  split at hrun
  · obtain ⟨rfl, -⟩ := Prod.mk.injEq .. ▸ Option.some.inj hrun
    rfl
  · exact tail_tickLoop hrun

/-- `del_timer` of the only timer makes both ends null. -/
theorem Rep.tail_delTimer {e : Entry U} (h : Rep l [e])
    (hrun : l.delTimer (some e.timer) = some l') : l'.tail = none := by
  have hends : l.head = some e.timer ∧ l.tail = some e.timer :=
    ⟨h.chain.head_eq, h.tail (List.cons_ne_nil e [])⟩
  simp only [SortTimerList.delTimer, if_pos hends] at hrun
  obtain ⟨heap, -, hrun⟩ := Option.bind_eq_some_iff.mp hrun
  rw [← Option.some.inj hrun]

/-- **A call** keeps the ends in agreement exactly if it satisfies the condition. A call that
leaves timers in the list sets both ends; of the others, `del_timer` clears the tail and `tick`
does not. -/
theorem Follows.endsAgree_iff {fired : List Ptr} (h : Follows l es) (hagree : l.EndsAgree)
    (hop : op.Allowed es) (hrun : exec fuel l op = some (l', fired))
    (h' : Follows l' (refNext es op)) : l'.EndsAgree ↔ op.Keeps es := by
  rw [h'.rep.endsAgree_iff]
  cases op with
  | addTimer addr expire userData =>
      refine iff_of_true (fun hnil => ?_) trivial
      simp [refNext, place] at hnil
  | adjustTimer timer expire =>
      obtain ⟨e, he, rfl, -⟩ := hop
      refine iff_of_true (fun hnil => ?_) trivial
      simp [refNext, entryOf_eq h.rep.nodup he, place] at hnil
  | delTimer timer =>
      refine iff_of_true (fun hnil => ?_) trivial
      obtain ⟨es₁, e, es₂, rfl, rfl⟩ := exists_split_of_mem hop
      rw [refNext, removeTimer_append_cons h.rep.nodup, List.append_eq_nil_iff] at hnil
      obtain ⟨rfl, rfl⟩ := hnil
      obtain ⟨l₁, hdel, heq⟩ := Option.bind_eq_some_iff.mp hrun
      obtain ⟨rfl, -⟩ := Prod.mk.injEq .. ▸ Option.some.inj heq
      exact Rep.tail_delTimer h.rep hdel
  | tick cur =>
      rw [tail_tick hrun, Op.Keeps]
      by_cases hnil : es = []
      · exact iff_of_true (fun _ => h.rep.endsAgree_iff.mp hagree hnil) fun hne => absurd hnil hne
      · have htail : l.tail ≠ none := by
          rw [h.rep.tail hnil, Ne, List.getLast?_eq_none_iff]
          simpa [timers] using hnil
        have hpending : pending cur es ≠ [] ↔ ∃ e ∈ es, cur < e.expire := by
          simp [pending, List.filter_eq_nil_iff]
        rw [← hpending]
        exact ⟨fun himp _ hp => htail (himp hp), fun hkeep hp => absurd hp (hkeep hnil)⟩

/-! ### Sequences of calls -/

/-- From a list whose ends agree, the sequences of calls after each of which they agree.
Induction on the sequence, where the list follows the queue after every call. -/
theorem Follows.calls_endsAgree_iff {ops : List (Op U)} {outs : List (List Ptr)}
    (h : Follows l es) (hagree : l.EndsAgree)
    (hops : runCalls refStep es ops = some (es', outs)) (hfuel : es.length + ops.length ≤ fuel) :
    (∀ pre, pre <+: ops → ∃ l' outs', runCalls (exec fuel) l pre = some (l', outs') ∧
      l'.EndsAgree) ↔ KeepsAll es ops := by
  induction ops generalizing l es outs with
  | nil =>
      refine iff_of_true (fun pre hpre => ?_) trivial
      rw [List.prefix_nil.mp hpre]
      exact ⟨l, [], rfl, hagree⟩
  | cons op ops ih =>
      obtain ⟨es₁, fired, outs', hstep, hrest, -⟩ := runCalls_cons_eq_some.mp hops
      rw [List.length_cons] at hfuel
      have hroom : es.length ≤ fuel := by omega
      obtain ⟨l₁, hrun, h₁⟩ := exec_simulates h hroom hstep
      have hlen := length_refStep_le hstep
      obtain ⟨hop, hnext⟩ := Option.ite_none_right_eq_some.mp hstep
      obtain ⟨rfl, rfl⟩ := Prod.mk.injEq .. ▸ Option.some.inj hnext
      have hcall := h.endsAgree_iff hagree hop hrun h₁
      rw [KeepsAll, ← hcall]
      constructor
      · intro hall
        obtain ⟨l₂, outs₂, hone, hagree₁⟩ := hall [op] ⟨ops, rfl⟩
        obtain ⟨u, b, bs, hu, hnil, -⟩ := runCalls_cons_eq_some.mp hone
        obtain ⟨rfl, -⟩ := Prod.mk.injEq .. ▸ Option.some.inj hnil
        obtain ⟨rfl, -⟩ := Prod.mk.injEq .. ▸ Option.some.inj (hrun.symm.trans hu)
        refine ⟨hagree₁, (ih h₁ hagree₁ hrest (by omega)).mp fun pre hpre => ?_⟩
        obtain ⟨l₃, outs₃, hmore, hagree₃⟩ :=
          hall (op :: pre) (List.cons_prefix_cons.mpr ⟨rfl, hpre⟩)
        obtain ⟨v, c, cs, hv, hpre', -⟩ := runCalls_cons_eq_some.mp hmore
        obtain ⟨rfl, -⟩ := Prod.mk.injEq .. ▸ Option.some.inj (hrun.symm.trans hv)
        exact ⟨l₃, cs, hpre', hagree₃⟩
      · rintro ⟨hagree₁, hkeeps⟩ pre hpre
        rcases List.prefix_cons_iff.mp hpre with rfl | ⟨tail, rfl, htail⟩
        · exact ⟨l, [], rfl, hagree⟩
        · obtain ⟨l₃, outs₃, hmore, hagree₃⟩ :=
            (ih h₁ hagree₁ hrest (by omega)).mpr hkeeps tail htail
          exact ⟨l₃, _, runCalls_cons_eq_some.mpr ⟨l₁, _, outs₃, hrun, hmore, rfl⟩, hagree₃⟩

/-- In a list just constructed both ends are null, and so they agree. -/
theorem endsAgree_new : (new : SortTimerList U).EndsAgree :=
  rep_new.endsAgree_iff.mpr fun _ => rfl

/-- **The ends agree after every call of a sequence exactly if no tick of it leaves nothing of a
list that has timers.** The sequences are those of calls whose preconditions hold. -/
theorem endsAgree_iff_keepsAll {ops : List (Op U)} {es : List (Entry U)} {outs : List (List Ptr)}
    (hops : runCalls refStep [] ops = some (es, outs)) {fuel : ℕ} (hfuel : ops.length ≤ fuel) :
    (∀ pre, pre <+: ops → ∃ l outs', runCalls (exec fuel) new pre = some (l, outs') ∧
      l.EndsAgree) ↔ KeepsAll [] ops :=
  follows_new.calls_endsAgree_iff endsAgree_new hops (by simpa using hfuel)

/-- A tick frees one of two timers, and then the other is deleted. -/
theorem endsAgree_iff_keepsAll_example :
    (∀ pre, pre <+: ([.addTimer 1 5 (), .addTimer 2 7 (), .tick 6, .delTimer 2] : List (Op Unit)) →
      ∃ l outs', runCalls (exec 4) new pre = some (l, outs') ∧ l.EndsAgree) ↔
    KeepsAll [] ([.addTimer 1 5 (), .addTimer 2 7 (), .tick 6, .delTimer 2] : List (Op Unit)) :=
  @endsAgree_iff_keepsAll Unit _ [] [[], [], [1], []] rfl 4 (by decide)

/-- A tick frees the only timer, and the tail designates it. -/
theorem not_endsAgree_tick :
    ∃ l, runCalls (exec 2) new ([.addTimer 1 5 (), .tick 5] : List (Op Unit)) =
      some (l, [[], [1]]) ∧ ¬ l.EndsAgree := by
  refine ⟨_, rfl, fun hagree => ?_⟩
  exact hagree.allocated 1 (Or.inr rfl) rfl

end LinuxNetwork.SortTimerList

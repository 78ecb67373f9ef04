import Mathlib.Tactic.Common

/-!
# Edge-Triggered Reports

A source is reported once after an arrival on it, and the arrivals before the report are
merged. `ready` are the sources with an arrival that has not been reported; a program that
received reports handles them one after another. Nothing is forgotten as long as every source
at which something waits is in `ready` or among the reports still to handle (`Due`). Arrivals
and reports keep this. A handler keeps it exactly if nothing waits at its source afterwards
that is not due to be reported again: the reports do not come back by themselves.

## Main results

* `Due.arrive`, `Due.report`: arrivals and reports.
* `Due.handle_iff`: the handling of a report.
* `due_nil_iff`: when there is nothing to report or to handle.
-/

namespace EdgeTriggered

variable {ι : Type*}

/-- **Whatever waits is due**: its source has an arrival to be reported, or a report to be
handled. -/
def Due (waits : ι → Prop) (ready reported : List ι) : Prop :=
  ∀ x, waits x → x ∈ ready ∨ x ∈ reported

variable {waits waits' : ι → Prop} {x y : ι} {xs ready ready' reported : List ι}

/-- Less may wait, and more may be due: both make it easier that whatever waits is due to be
handled or reported. -/
theorem Due.mono (h : Due waits ready reported) (hwaits : ∀ y, waits' y → waits y)
    (hready : ∀ y, waits' y → y ∈ ready → y ∈ ready') : Due waits' ready' reported :=
  fun y hy => (h y (hwaits y hy)).imp_left (hready y hy)

/-- With nothing to report and nothing to handle, everything due means that nothing waits. -/
theorem due_nil_iff : Due waits [] [] ↔ ∀ x, ¬waits x := by
  simp [Due]

variable [DecidableEq ι]

/-- An arrival on a source makes it due to be reported; arrivals are merged. -/
def mark (x : ι) (ready : List ι) : List ι :=
  if x ∈ ready then ready else ready ++ [x]

/-- The sources left when some are reported. -/
def report (xs ready : List ι) : List ι :=
  ready.filter fun x => decide (x ∉ xs)

/-- An arrival makes its source ready, and leaves the others as ready as they were. -/
@[simp] theorem mem_mark : y ∈ mark x ready ↔ y = x ∨ y ∈ ready := by
  rw [mark]
  split
  case isTrue h => exact ⟨.inr, fun hy => hy.elim (fun heq => heq ▸ h) id⟩
  case isFalse h => rw [List.mem_append, List.mem_singleton, or_comm]

/-- What is reported is not ready anymore, until something arrives there again. -/
@[simp] theorem mem_report : y ∈ report xs ready ↔ y ∈ ready ∧ y ∉ xs := by
  simp [report]

/-- **An arrival** is due to be reported, whatever waits at its source besides. -/
theorem Due.arrive (h : Due waits ready reported) (hwaits : ∀ y, waits' y → y = x ∨ waits y) :
    Due waits' (mark x ready) reported := by
  intro y hy
  rcases hwaits y hy with rfl | hy
  · exact .inl (mem_mark.mpr (.inl rfl))
  · exact (h y hy).imp_left fun hmem => mem_mark.mpr (.inr hmem)

/-- **Reported sources** are to be handled, and those that are not reported stay ready. -/
theorem Due.report (h : Due waits ready []) (xs : List ι) : Due waits (report xs ready) xs := by
  intro y hy
  rcases h y hy with hmem | hmem
  · by_cases hxs : y ∈ xs
    · exact .inr hxs
    · exact .inl (mem_report.mpr ⟨hmem, hxs⟩)
  · exact absurd hmem List.not_mem_nil

/-- **Handling a report** leaves everything due exactly if what still waits at its source is
due to be reported again. -/
theorem Due.handle_iff (h : Due waits ready (x :: reported)) (hx : x ∉ reported)
    (hwaits : ∀ y, y ≠ x → waits' y → waits y ∨ y ∈ ready')
    (hready : ∀ y, waits' y → y ∈ ready → y ∈ ready') :
    Due waits' ready' reported ↔ (waits' x → x ∈ ready') := by
  constructor
  · exact fun h' hwait => (h' x hwait).resolve_right hx
  · intro hhandled y hy
    by_cases hyx : y = x
    · subst hyx
      exact .inl (hhandled hy)
    · rcases hwaits y hyx hy with hold | hnew
      · rcases h y hold with hmem | hmem
        · exact .inl (hready y hy hmem)
        · exact .inr ((List.mem_cons.mp hmem).resolve_left hyx)
      · exact .inl hnew

end EdgeTriggered

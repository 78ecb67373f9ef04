import Mathlib.Data.List.TakeWhile
import Mathlib.Tactic.Common

/-!
# Streams Cut Into Chunks

A stream travels in chunks, and who receives it may put a header in front of each of them.
`prefixed header chunks` is what comes out. The place where the chunks were cut is visible in
it: a text with a letter that is not in the header is not the beginning of what comes out for
its own chunks, since every letter has moved back behind at least one header.

## Main results

* `append_eq_append_iff_of_length_le`: no part can make up for what is missing in another.
* `not_prefix_prefixed`: a text is not the beginning of its chunks with headers.
-/

namespace Streams

variable {α : Type*} {a b c d : List α}

/-- Two texts in two parts, of which no part of the first is longer than that of the second,
agree only in both parts. -/
theorem append_eq_append_iff_of_length_le (hac : a.length ≤ c.length)
    (hbd : b.length ≤ d.length) : a ++ b = c ++ d ↔ a = c ∧ b = d := by
  constructor
  · intro h
    have hlen := congrArg List.length h
    rw [List.length_append, List.length_append] at hlen
    exact List.append_inj h (by omega)
  · rintro ⟨rfl, rfl⟩
    rfl

/-- The chunks of a stream, each behind a header. -/
def prefixed (header : List α) (chunks : List (List α)) : List α :=
  chunks.flatMap fun chunk => header ++ chunk

variable [DecidableEq α] {x : α} {header text : List α} {chunks : List (List α)}

/-- The number of letters in front of the first `x`. -/
def before (x : α) (l : List α) : ℕ :=
  (l.takeWhile (· ≠ x)).length

/-- The letters in front of the first `x` are those in front of it in the first part that has
one. -/
theorem before_append_of_mem (hx : x ∈ a) : before x (a ++ b) = before x a := by
  have hlt : (a.takeWhile (· ≠ x)).length < a.length := by
    by_contra hle
    have heq := (List.takeWhile_sublist _).eq_of_length_le (not_lt.mp hle)
    have := List.takeWhile_eq_self_iff.mp heq x hx
    simp at this
  rw [before, List.takeWhile_append, if_neg (Nat.ne_of_lt hlt), before]

/-- A part without `x` stands as a whole in front of the first one. -/
theorem before_append_of_notMem (hx : x ∉ a) : before x (a ++ b) = a.length + before x b := by
  have hall : ∀ y ∈ a, y ≠ x := fun y hy => ne_of_mem_of_not_mem hy hx
  rw [before, List.takeWhile_append_of_pos (by simpa using hall), List.length_append, before]

/-- The headers push the first `x` back, by the length of one header at least. Induction on the
chunks up to the one that has it. -/
theorem before_prefixed (hx : x ∉ header) (hmem : x ∈ chunks.flatten) :
    before x chunks.flatten + header.length ≤ before x (prefixed header chunks) := by
  induction chunks with
  | nil => cases hmem
  | cons chunk chunks ih =>
      rw [prefixed, List.flatMap_cons, List.append_assoc, before_append_of_notMem hx,
        List.flatten_cons]
      by_cases hc : x ∈ chunk
      · rw [before_append_of_mem hc, before_append_of_mem hc]
        omega
      · have hrest : x ∈ chunks.flatten :=
          (List.mem_append.mp (List.flatten_cons ▸ hmem)).resolve_left hc
        have := ih hrest
        rw [prefixed] at this
        rw [before_append_of_notMem hc, before_append_of_notMem hc]
        omega

/-- **The cuts are visible.** A text with a letter that is not in the header is not the
beginning of its chunks with headers, since the first header pushes that letter back, or the
letter does not come out at all. -/
theorem not_prefix_prefixed (hheader : header ≠ []) (hx : x ∉ header) (hmem : x ∈ text)
    (hchunks : chunks.flatten <+: text) : ¬ text <+: prefixed header chunks := by
  rintro ⟨rest, hrest⟩
  have hfirst : before x text = before x (prefixed header chunks) := by
    rw [← hrest, before_append_of_mem hmem]
  by_cases hin : x ∈ chunks.flatten
  · obtain ⟨more, hmore⟩ := hchunks
    have hsame : before x text = before x chunks.flatten := by
      rw [← hmore, before_append_of_mem hin]
    have := before_prefixed hx hin
    have := List.length_pos_iff.mpr hheader
    omega
  · have hout : x ∈ prefixed header chunks := hrest ▸ List.mem_append_left rest hmem
    obtain ⟨chunk, hchunk, hout⟩ := List.mem_flatMap.mp hout
    rcases List.mem_append.mp hout with h | h
    · exact hx h
    · exact hin (List.mem_flatten.mpr ⟨chunk, hchunk, h⟩)

end Streams

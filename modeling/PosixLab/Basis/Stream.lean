/-
# Streams that are cut into reads

One side writes a list of messages, the other side reads a list of chunks.  All that a stream
keeps is the order of what was written: the chunks are any way of cutting the concatenation of
the messages, up to the size of the reader's array.  `Cuts n reads writes` says so.
-/
import Mathlib.Data.List.Basic
import Mathlib.Data.List.Perm.Basic

namespace PosixLab

variable {α : Type*}

/-- `reads` is a way of reading the stream of `writes`, with at most `n` elements to a read. -/
structure Cuts (n : Nat) (reads writes : List (List α)) : Prop where
  flatten_eq : reads.flatten = writes.flatten
  nonempty : ∀ r ∈ reads, r ≠ []
  length_le : ∀ r ∈ reads, r.length ≤ n

/-- What is read was written. -/
theorem Cuts.mem {n : Nat} {reads writes : List (List α)} (h : Cuts n reads writes)
    {r : List α} (hr : r ∈ reads) {x : α} (hx : x ∈ r) : ∃ w ∈ writes, x ∈ w := by
  have hmem : x ∈ reads.flatten := List.mem_flatten.mpr ⟨r, hr, hx⟩
  rw [h.flatten_eq] at hmem
  exact List.mem_flatten.mp hmem

/-- Of two chunks that a stream starts with, one is a part of the other. -/
theorem chunks_comparable {r w rest rest' : List α} (h : r ++ rest = w ++ rest') :
    r = w ∨ (∃ l, l ≠ [] ∧ w = r ++ l ∧ rest = l ++ rest') ∨
      ∃ l, l ≠ [] ∧ r = w ++ l ∧ l ++ rest = rest' := by
  rcases List.append_eq_append_iff.mp h with ⟨l, rfl, rfl⟩ | ⟨l, rfl, rfl⟩
  · by_cases hl : l = []
    · subst hl
      exact Or.inl (List.append_nil r).symm
    · exact Or.inr (Or.inl ⟨l, hl, rfl, rfl⟩)
  · by_cases hl : l = []
    · subst hl
      exact Or.inl (List.append_nil w)
    · exact Or.inr (Or.inr ⟨l, hl, rfl, rfl⟩)

/-- A chunk that repeats with some elements in between: what is in between moves behind it. -/
theorem chunk_rotate {l w x y : List α} (h : l ++ (w ++ x) = w ++ y) :
    ∃ l', l'.Perm l ∧ y = l' ++ x := by
  have hw : w <+: l ++ (w ++ x) := h ▸ List.prefix_append w y
  have hlw : l ++ w <+: l ++ (w ++ x) := by
    rw [← List.append_assoc]
    exact List.prefix_append (l ++ w) x
  have hpre : w <+: l ++ w := List.prefix_of_prefix_length_le hw hlw (by simp)
  obtain ⟨l', hl'⟩ := hpre
  refine ⟨l', ?_, ?_⟩
  · have hperm : (l' ++ w).Perm (l ++ w) := List.perm_append_comm.trans (List.Perm.of_eq hl')
    exact (List.perm_append_right_iff w).mp hperm
  · rw [← List.append_assoc, ← hl', List.append_assoc] at h
    exact (List.append_cancel_left h).symm

end PosixLab

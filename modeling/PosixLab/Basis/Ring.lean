/-
# Circular buffers

A queue in an array of fixed size: `ring cap item out n` are the `n` elements that start at the
index `out` and go round at the end of the array.  Storing behind them appends, and moving `out`
on drops the first one.
-/
import Mathlib.Data.List.Range
import Mathlib.Data.Nat.ModEq
import Mathlib.Logic.Function.Basic

namespace PosixLab

variable {α : Type*}

/-- The `n` elements from the index `out` on, in an array of size `cap`. -/
def ring (cap : Nat) (item : Nat → α) (out n : Nat) : List α :=
  (List.range n).map fun k => item ((out + k) % cap)

@[simp] theorem length_ring (cap : Nat) (item : Nat → α) (out n : Nat) :
    (ring cap item out n).length = n := by
  simp [ring]

/-- Going round twice is going round once. -/
theorem ring_index (cap out k : Nat) : ((out + 1) % cap + k) % cap = (out + (k + 1)) % cap := by
  rw [Nat.mod_add_mod]
  congr 1
  omega

/-- Two of the elements stand at different indices. -/
theorem ring_index_inj {cap out j k : Nat} (hj : j < cap) (hk : k < cap)
    (h : (out + j) % cap = (out + k) % cap) : j = k := by
  have hjk : Nat.ModEq cap j k := Nat.ModEq.add_left_cancel' out h
  rwa [Nat.ModEq, Nat.mod_eq_of_lt hj, Nat.mod_eq_of_lt hk] at hjk

/-- An element that is stored behind the others, while there is room, comes last. -/
theorem ring_insert {cap out n : Nat} (item : Nat → α) (x : α) (hn : n < cap) :
    ring cap (Function.update item ((out + n) % cap) x) out (n + 1) =
      ring cap item out n ++ [x] := by
  have hold : ∀ k ∈ List.range n,
      Function.update item ((out + n) % cap) x ((out + k) % cap) = item ((out + k) % cap) := by
    intro k hk
    have hk' := List.mem_range.mp hk
    refine Function.update_of_ne (fun h => ?_) _ _
    exact Nat.ne_of_lt hk' (ring_index_inj (Nat.lt_trans hk' hn) hn h)
  rw [ring, List.range_succ, List.map_append, List.map_congr_left hold, List.map_singleton,
    Function.update_self]
  rfl

/-- The first element, and the others. -/
theorem ring_remove (cap : Nat) (item : Nat → α) (out n : Nat) :
    ring cap item out (n + 1) = item (out % cap) :: ring cap item ((out + 1) % cap) n := by
  rw [ring, List.range_succ_eq_map, List.map_cons, List.map_map, ring]
  congr 1
  refine List.map_congr_left fun k _ => ?_
  rw [ring_index]
  rfl

end PosixLab

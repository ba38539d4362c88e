import Mathlib.Data.List.Nodup
import Mathlib.Data.List.Perm.Subperm

/-!
# The first free name

Numbered names are tried in order until one is not in use. When no two numbers give one name, there
is a free one among one more than are in use (`firstFree_not_mem`).
-/

set_option autoImplicit false

namespace Infinito.Lib

variable {α : Type} [DecidableEq α] {f : Nat → α} {used : List α} {fuel n : Nat}

/-- The first of `f n`, `f (n + 1)` and so on that is not in use, as far as the fuel lasts. -/
def firstFree (f : Nat → α) (used : List α) : (fuel n : Nat) → α
  | 0, n => f n
  | fuel + 1, n => if f n ∈ used then firstFree f used fuel (n + 1) else f n

theorem firstFree_eq : ∃ k, firstFree f used fuel n = f k := by
  induction fuel generalizing n with
  | zero => exact ⟨n, rfl⟩
  | succ fuel ih =>
    rw [firstFree]
    split
    · exact ih
    · exact ⟨n, rfl⟩

theorem firstFree_mem (h : firstFree f used fuel n ∈ used) : ∀ i ≤ fuel, f (n + i) ∈ used := by
  induction fuel generalizing n with
  | zero =>
    intro i hi
    rw [Nat.le_zero.mp hi]
    exact h
  | succ fuel ih =>
    rw [firstFree] at h
    split at h
    · rename_i hmem
      intro i hi
      cases i with
      | zero => exact hmem
      | succ i =>
        rw [show n + (i + 1) = n + 1 + i by omega]
        exact ih h i (by omega)
    · rename_i hno
      exact absurd h hno

/-- There are more numbers to try than names in use. -/
theorem firstFree_not_mem (hf : Function.Injective f) : firstFree f used used.length n ∉ used := by
  intro h
  have hall := firstFree_mem h
  have hnodup : ((List.range (used.length + 1)).map fun i => f (n + i)).Nodup :=
    List.nodup_range.map fun i j hij => Nat.add_left_cancel (hf hij)
  have hsub : ((List.range (used.length + 1)).map fun i => f (n + i)) ⊆ used := by
    intro t ht
    obtain ⟨i, hi, rfl⟩ := List.mem_map.mp ht
    exact hall i (Nat.lt_succ_iff.mp (List.mem_range.mp hi))
  have hle := (hnodup.subperm hsub).length_le
  rw [List.length_map, List.length_range] at hle
  omega

end Infinito.Lib

import Mathlib.Algebra.BigOperators.Group.Finset.Basic
import Mathlib.Data.Fintype.Basic
import Mathlib.Logic.Function.Basic

/-!
# Sums over tables

Sums that change with one entry of the table they are taken over.
-/

namespace Table

variable {ι α M : Type} [DecidableEq ι] [AddCommMonoid M]

theorem sum_update {u : Finset ι} (g : ι → α → M) (f : ι → α) {i : ι} (hi : i ∈ u) (a : α) :
    g i (f i) + ∑ j ∈ u, g j (Function.update f i a j) = g i a + ∑ j ∈ u, g j (f j) := by
  have h1 := Finset.add_sum_erase u (fun j => g j (Function.update f i a j)) hi
  have h2 := Finset.add_sum_erase u (fun j => g j (f j)) hi
  have h3 : ∑ j ∈ u.erase i, g j (Function.update f i a j) = ∑ j ∈ u.erase i, g j (f j) := by
    apply Finset.sum_congr rfl
    intro j hj
    rw [Function.update_of_ne (Finset.ne_of_mem_erase hj)]
  rw [← h1, ← h2, h3, Function.update_self, add_left_comm]

end Table

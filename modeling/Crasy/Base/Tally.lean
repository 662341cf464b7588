import Mathlib.Algebra.BigOperators.Group.Finset.Basic
import Mathlib.Algebra.Order.BigOperators.Group.Finset
import Mathlib.Data.Fintype.BigOperators

/-!
# Tallies over the parties of a system

Library `Base`. The state of a system with many parties is a function from the parties
to their local states; a tally adds a weight of each local state over all parties. One
party's step changes the tally by the difference of two weights.
-/

namespace Crasy.Base

variable {ι β : Type*} [Fintype ι]

/-- The sum over all parties of the weight of their local state. -/
def tally {M : Type*} [AddCommMonoid M] (w : β → M) (f : ι → β) : M := ∑ i, w (f i)

section Update

variable {M : Type*} [AddCommMonoid M] [DecidableEq ι]

/-- One party's step exchanges its old weight for its new one. -/
theorem tally_update (w : β → M) (f : ι → β) (i : ι) (b : β) :
    tally w (Function.update f i b) + w (f i) = tally w f + w b := by
  have hrest : ∑ j ∈ Finset.univ.erase i, w (Function.update f i b j) =
      ∑ j ∈ Finset.univ.erase i, w (f j) := by
    apply Finset.sum_congr rfl
    intro j hj
    rw [Function.update_of_ne (Finset.ne_of_mem_erase hj)]
  simp only [tally]
  rw [← Finset.sum_erase_add Finset.univ _ (Finset.mem_univ i), hrest,
    ← Finset.sum_erase_add Finset.univ (fun j ↦ w (f j)) (Finset.mem_univ i),
    Function.update_self, add_right_comm]

end Update

/-- When every party has weight zero, so has the system. -/
theorem tally_eq_zero {w : β → ℕ} {f : ι → β} : tally w f = 0 ↔ ∀ i, w (f i) = 0 := by
  simp [tally]

/-- A positive tally has a party of positive weight. -/
theorem tally_pos {w : β → ℕ} {f : ι → β} : 0 < tally w f ↔ ∃ i, 0 < w (f i) := by
  rw [Nat.pos_iff_ne_zero, ne_eq, tally_eq_zero]
  simp only [not_forall, Nat.pos_iff_ne_zero, ne_eq]

/-- One party's weight is part of the tally. -/
theorem le_tally (w : β → ℕ) (f : ι → β) (i : ι) : w (f i) ≤ tally w f :=
  Finset.single_le_sum (f := fun j ↦ w (f j)) (fun _ _ ↦ Nat.zero_le _) (Finset.mem_univ i)

/-- Two different parties' weights are together part of the tally. -/
theorem add_le_tally (w : β → ℕ) (f : ι → β) {i j : ι} (h : i ≠ j) :
    w (f i) + w (f j) ≤ tally w f := by
  classical
  have hs := Finset.sum_le_sum_of_subset (f := fun k ↦ w (f k))
    (Finset.subset_univ ({i, j} : Finset ι))
  rwa [Finset.sum_pair h] at hs

/-- Where the tally is at most one, two parties of positive weight are the same. -/
theorem eq_of_tally_le_one {w : β → ℕ} {f : ι → β} (h : tally w f ≤ 1) {i j : ι}
    (hi : 0 < w (f i)) (hj : 0 < w (f j)) : i = j := by
  by_contra hne
  have := add_le_tally w f hne
  omega

/-- A sum of weights has the sum of the tallies. -/
theorem tally_add {M : Type*} [AddCommMonoid M] (v w : β → M) (f : ι → β) :
    tally (fun b ↦ v b + w b) f = tally v f + tally w f := Finset.sum_add_distrib

end Crasy.Base

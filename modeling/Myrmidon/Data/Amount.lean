import Mathlib.Algebra.BigOperators.Group.Finset.Piecewise
import Mathlib.Algebra.Order.BigOperators.Group.Finset
import Mathlib.Data.Fintype.BigOperators

namespace Myrmidon.Data

section

variable {ι β : Type*} [Fintype ι]

/-- A number for each value, added up over all places. -/
@[irreducible] def amount (weight : β → Nat) (values : ι → β) : Nat := ∑ i, weight (values i)

theorem amount_update [DecidableEq ι] (weight : β → Nat) (values : ι → β) (i : ι) (value : β) :
    amount weight (Function.update values i value) + weight (values i) = amount weight values + weight value := by
  have others : ∑ j ∈ Finset.univ.erase i, weight (Function.update values i value j) =
      ∑ j ∈ Finset.univ.erase i, weight (values j) := by
    apply Finset.sum_congr rfl
    intro j member
    rw [Function.update_of_ne (Finset.ne_of_mem_erase member)]
  unfold amount
  rw [← Finset.add_sum_erase _ _ (Finset.mem_univ i), ← Finset.add_sum_erase _ _ (Finset.mem_univ i), others,
    Function.update_self]
  omega

theorem amount_le {weight other : β → Nat} (le : ∀ value, weight value ≤ other value) (values : ι → β) :
    amount weight values ≤ amount other values := by
  unfold amount
  apply Finset.sum_le_sum
  intro i _
  exact le (values i)

theorem amount_eq_zero {weight : β → Nat} {values : ι → β} (zero : ∀ i, weight (values i) = 0) :
    amount weight values = 0 := by
  unfold amount
  apply Finset.sum_eq_zero
  intro i _
  exact zero i

/-- No place counts for more than one of the two weights. -/
theorem amount_add_amount_le_card {weight other : β → Nat} (one : ∀ value, weight value + other value ≤ 1)
    (values : ι → β) : amount weight values + amount other values ≤ Fintype.card ι := by
  have bound := Finset.sum_le_card_nsmul Finset.univ (fun i => weight (values i) + other (values i)) 1
    (fun i _ => one (values i))
  rw [Finset.sum_add_distrib] at bound
  unfold amount
  simpa using bound

end

end Myrmidon.Data

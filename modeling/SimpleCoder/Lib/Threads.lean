/-
# Threads, counted

The threads of a system are a finite family, and what each of them is doing a function of its name.
A step of one thread changes that function in one place (`Function.update`); what it does to a
number that all threads add up to is the rule here (`total_update`).
-/
import Mathlib.Algebra.BigOperators.Group.Finset.Piecewise
import Mathlib.Algebra.Order.BigOperators.Group.Finset

namespace Threads

variable {ι β : Type} [Fintype ι]

/-- What the threads add up to, each by what it is doing. -/
def total (weight : β → Nat) (f : ι → β) : Nat := ∑ i, weight (f i)

variable {weight : β → Nat} {f : ι → β}

theorem total_eq_zero_iff : total weight f = 0 ↔ ∀ i, weight (f i) = 0 := by
  unfold total
  rw [Finset.sum_eq_zero_iff]
  simp

/-- A change of all threads at once, no one of them by more than some amount. -/
theorem total_le_of_forall {g : ι → β} {extra : ι → Nat} {bound : Nat}
    (h : ∀ i, weight (g i) + extra i ≤ weight (f i) + bound) :
    total weight g + ∑ i, extra i ≤ total weight f + Fintype.card ι * bound := by
  have hsum := Finset.sum_le_sum fun i (_ : i ∈ Finset.univ) => h i
  rw [Finset.sum_add_distrib, Finset.sum_add_distrib, Finset.sum_const, Finset.card_univ,
    Nat.nsmul_eq_mul] at hsum
  exact hsum

variable [DecidableEq ι]

/-- **A step of one thread**: what it gave before is exchanged for what it gives now. -/
theorem total_update (i : ι) (b : β) :
    total weight (Function.update f i b) + weight (f i) = total weight f + weight b := by
  have hsum : ∀ g : ι → β,
      total weight g = weight (g i) + ∑ j ∈ Finset.univ.erase i, weight (g j) := fun g =>
    (Finset.add_sum_erase _ _ (Finset.mem_univ i)).symm
  have hrest : ∑ j ∈ Finset.univ.erase i, weight (Function.update f i b j) =
      ∑ j ∈ Finset.univ.erase i, weight (f j) :=
    Finset.sum_congr rfl fun j hj => by
      rw [Function.update_of_ne (Finset.ne_of_mem_erase hj)]
  rw [hsum f, hsum (Function.update f i b), hrest, Function.update_self]
  omega

end Threads

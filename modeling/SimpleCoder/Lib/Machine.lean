/-
# Machines that come to rest

A machine is a function from its states to its states.  Where a loop of a program is modelled by
such a function and a number of turns, that number is no part of what the program does: with a
measure that goes down at every turn, any number that the measure does not exceed leads to the
state in which the machine rests (`iterate_eq`).

What the machine does with a part of its input is then stated without any numbers (`Reaches`).
-/
import Mathlib.Logic.Function.Iterate
import Mathlib.Order.Basic

namespace Machine

variable {σ : Type} (step : σ → σ)

/-- Some number of turns leads from the one state to the other. -/
def Reaches (s t : σ) : Prop := ∃ n, step^[n] s = t

variable {step} {s t u : σ}

theorem Reaches.refl (s : σ) : Reaches step s s := ⟨0, rfl⟩

theorem Reaches.single (s : σ) : Reaches step s (step s) := ⟨1, rfl⟩

theorem Reaches.trans (h : Reaches step s t) (h' : Reaches step t u) : Reaches step s u := by
  obtain ⟨m, rfl⟩ := h
  obtain ⟨n, rfl⟩ := h'
  exact ⟨n + m, Function.iterate_add_apply step n m s⟩

/-- One turn first. -/
theorem Reaches.head (h : step s = t) (h' : Reaches step t u) : Reaches step s u := by
  subst h
  exact (Reaches.single s).trans h'

section

variable {size : σ → Nat} (hsize : ∀ s, step s = s ∨ size (step s) < size s)

include hsize

/-- With as many turns as the measure says the machine rests. -/
theorem rests {n : Nat} (hn : size s ≤ n) : step (step^[n] s) = step^[n] s := by
  induction n generalizing s with
  | zero =>
    rcases hsize s with h | h
    · exact h
    · omega
  | succ n ih =>
    rcases hsize s with h | h
    · rw [Function.iterate_fixed h]
      exact h
    · rw [Function.iterate_succ_apply]
      exact ih (by omega)

/-- **Enough turns lead to where the machine rests.** -/
theorem Reaches.iterate_eq {n : Nat} (h : Reaches step s t) (ht : step t = t) (hn : size s ≤ n) :
    step^[n] s = t := by
  obtain ⟨m, rfl⟩ := h
  have hrest := rests hsize hn
  calc step^[n] s = step^[m] (step^[n] s) := (Function.iterate_fixed hrest m).symm
    _ = step^[n] (step^[m] s) := by
      rw [← Function.iterate_add_apply, ← Function.iterate_add_apply, Nat.add_comm]
    _ = step^[m] s := Function.iterate_fixed ht n

end

end Machine

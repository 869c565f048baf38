/-
# Monitors: what a log may look like

A monitor reads a log from its beginning and has a phase after each entry; an entry that the phase
does not allow ends the reading.  That a log is accepted says what may follow what, and the phase
that each entry was met in (`run_split`) is how a statement about one entry is read off.
-/
import Mathlib.Logic.Basic
import Mathlib.Tactic.Common

namespace Monitor

variable {σ α : Type} (step : σ → α → Option σ)

/-- The phase after the log, if every entry of it was allowed. -/
def run : σ → List α → Option σ
  | s, [] => some s
  | s, a :: log => (step s a).bind fun t => run t log

variable {step} {s t : σ}

theorem run_append (pre post : List α) :
    run step s (pre ++ post) = (run step s pre).bind fun t => run step t post := by
  induction pre generalizing s with
  | nil => rfl
  | cons a pre ih =>
    rw [List.cons_append, run, run]
    cases step s a with
    | none => rfl
    | some u => exact ih

/-- One entry more. -/
theorem run_snoc {log : List α} (h : run step s log = some t) (a : α) :
    run step s (log ++ [a]) = step t a := by
  rw [run_append, h]
  cases hstep : step t a <;> simp [run, hstep]

/-- **An entry of an accepted log was allowed** in the phase that it was met in, and what follows
it is accepted from the phase it led to. -/
theorem run_split {pre post : List α} {a : α} (h : run step s (pre ++ a :: post) = some t) :
    ∃ u v, run step s pre = some u ∧ step u a = some v ∧ run step v post = some t := by
  rw [run_append] at h
  obtain ⟨u, hu, h⟩ := Option.bind_eq_some_iff.mp h
  rw [run] at h
  obtain ⟨v, hv, h⟩ := Option.bind_eq_some_iff.mp h
  exact ⟨u, v, hu, hv, h⟩

end Monitor

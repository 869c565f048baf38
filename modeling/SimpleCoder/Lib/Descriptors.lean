/-
# Descriptor tables

A process names what it has open by small numbers.  Opening takes the lowest number that is free,
so a number means something else once it has been closed and taken again; who holds what is said by
the table alone.

* §1: the table, and what it does.
* §2: what is opened is closed again without a trace, and who holds what behind each change.
-/
import Mathlib.Logic.Function.Basic
import Mathlib.Data.List.Basic

/-! ## 1. Tables -/

/-- What each descriptor of a process refers to. -/
abbrev Descriptors (H : Type) := Nat → Option H

namespace Descriptors

variable {H : Type}

/-- The lowest descriptor below the limit that is free. -/
def lowest (limit : Nat) (t : Descriptors H) : Option Nat :=
  (List.range limit).find? fun fd => (t fd).isNone

/-- The descriptor refers to this now. -/
def refer (t : Descriptors H) (fd : Nat) (h : H) : Descriptors H := Function.update t fd (some h)

def close (t : Descriptors H) (fd : Nat) : Descriptors H := Function.update t fd none

/-- `dup2`: `new` refers to what `old` does; nothing happens if that is not open. -/
def dup2 (t : Descriptors H) (old new : Nat) : Descriptors H :=
  match t old with
  | none => t
  | some h => t.refer new h

/-- Some descriptor refers to it. -/
def Holds (t : Descriptors H) (h : H) : Prop := ∃ fd, t fd = some h

variable {t : Descriptors H} {fd : Nat} {h : H}

/-! ## 2. What changes -/

@[simp] theorem refer_self (t : Descriptors H) (fd : Nat) (h : H) : t.refer fd h fd = some h :=
  Function.update_self ..

theorem refer_of_ne {k : Nat} (hk : k ≠ fd) (t : Descriptors H) (h : H) :
    t.refer fd h k = t k := Function.update_of_ne hk ..

theorem refer_apply (t : Descriptors H) (fd : Nat) (h : H) (k : Nat) :
    t.refer fd h k = if k = fd then some h else t k := Function.update_apply ..

@[simp] theorem close_self (t : Descriptors H) (fd : Nat) : t.close fd fd = none :=
  Function.update_self ..

theorem close_of_ne {k : Nat} (hk : k ≠ fd) (t : Descriptors H) : t.close fd k = t k :=
  Function.update_of_ne hk ..

theorem close_apply (t : Descriptors H) (fd k : Nat) :
    t.close fd k = if k = fd then none else t k := Function.update_apply ..

theorem dup2_of_open {old : Nat} (hold : t old = some h) (new : Nat) :
    t.dup2 old new = t.refer new h := by
  simp [dup2, hold]

/-- What is taken was free. -/
theorem lowest_free {limit : Nat} (hfd : t.lowest limit = some fd) : t fd = none := by
  simpa using List.find?_some hfd

end Descriptors

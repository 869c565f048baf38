/-
# Occurrences of a text in another

`OccursAt o c p` says that `c` has the text `o` at position `p`.  Occurrences may overlap; positions
count each of them.

A search from the left takes `c` apart at the first occurrence, and a second search goes on behind
it.  This file says what the two find: the first occurrence (`IsFirst`), and whether there is one
that begins behind the end of the first (`occursAt_append_iff`).  What the second search cannot find
is an occurrence that begins inside the first, so the text is found once by the two searches exactly
if all its occurrences begin inside the first one (`notMem_after_iff`).
-/
import Mathlib.Data.List.Basic

namespace Occurs

variable {α : Type*} {o c before after : List α} {p q : ℕ}

/-! ## 1. Positions -/

/-- The text `o` is in `c` at position `p`. -/
def OccursAt (o c : List α) (p : ℕ) : Prop :=
  ∃ before after, before.length = p ∧ c = before ++ o ++ after

theorem occursAt_iff_prefix_drop : OccursAt o c p ↔ p ≤ c.length ∧ o <+: c.drop p := by
  constructor
  · rintro ⟨before, after, rfl, rfl⟩
    refine ⟨by simp, after, ?_⟩
    simp
  · rintro ⟨hp, after, hafter⟩
    refine ⟨c.take p, after, List.length_take_of_le hp, ?_⟩
    rw [List.append_assoc, hafter, List.take_append_drop]

instance [DecidableEq α] : Decidable (OccursAt o c p) :=
  decidable_of_iff _ occursAt_iff_prefix_drop.symm

/-- Behind a part that is cut off, the occurrences are those in the rest. -/
theorem occursAt_append_iff (before : List α) :
    OccursAt o (before ++ after) (before.length + q) ↔ OccursAt o after q := by
  rw [occursAt_iff_prefix_drop, occursAt_iff_prefix_drop, List.drop_append, List.length_append]
  rw [List.drop_eq_nil_of_le (by omega), List.nil_append, Nat.add_sub_cancel_left]
  exact and_congr_left fun _ => by omega

/-- The occurrences in a text are one at its start and those in its tail. -/
theorem occursAt_cons_iff (x : α) : OccursAt o (x :: c) (p + 1) ↔ OccursAt o c p := by
  have h := @occursAt_append_iff α o c p [x]
  rwa [List.singleton_append, List.length_singleton, Nat.add_comm] at h

theorem occursAt_zero_iff : OccursAt o c 0 ↔ o <+: c := by
  rw [occursAt_iff_prefix_drop, List.drop_zero]
  exact and_iff_right (Nat.zero_le _)

/-! ## 2. The first occurrence, and those behind it -/

/-- `p` is the position of the first occurrence. -/
def IsFirst (o c : List α) (p : ℕ) : Prop := OccursAt o c p ∧ ∀ q, OccursAt o c q → p ≤ q

/-- **What a search behind an occurrence finds.**  The text is not found again behind the occurrence
at the end of `before` exactly if no occurrence begins at or behind its end. -/
theorem notMem_after_iff : (∀ q, ¬ OccursAt o after q) ↔
      ∀ q, OccursAt o (before ++ o ++ after) q → q < before.length + o.length := by
  constructor
  · intro hno q hq
    by_contra hge
    refine hno (q - (before ++ o).length) ((occursAt_append_iff (before ++ o)).mp ?_)
    rw [List.length_append] at *
    rwa [Nat.add_sub_cancel' (by omega)]
  · intro hlt q hq
    have hq' := hlt _ ((occursAt_append_iff (before ++ o)).mpr hq)
    rw [List.length_append] at hq'
    omega

/-! ## 3. Where an occurrence cannot go on -/

/-- **An occurrence that begins in `before` ends there**, if behind it comes something that is not
in the text but at its start. -/
theorem prefix_of_prefix_append_cons {x : α} (h : o <+: before ++ x :: after) (hx : x ∉ o.tail)
    (hbefore : before ≠ []) : o <+: before := by
  by_cases hlength : o.length ≤ before.length
  · exact List.prefix_of_prefix_length_le h (List.prefix_append _ _) hlength
  · have hwhole : before ++ [x] <+: before ++ x :: after := ⟨after, by simp⟩
    have hlong : before ++ [x] <+: o := by
      refine List.prefix_of_prefix_length_le hwhole h ?_
      rw [List.length_append, List.length_singleton]
      omega
    obtain ⟨rest, rfl⟩ := hlong
    refine absurd ?_ hx
    rw [List.append_assoc, List.tail_append_of_ne_nil hbefore]
    exact List.mem_append_right _ List.mem_cons_self

end Occurs

/-
# Sorted listings

What a directory is read as is in no particular order.  Sorted by a key that no two of its entries
share, it is the same whatever the order was (`byKey_congr`).
-/
import Mathlib.Data.List.Sort

namespace Sorted

variable {α κ : Type} [Ord κ]

/-- Sort by a key. -/
def byKey (key : α → κ) (l : List α) : List α :=
  l.mergeSort fun a b => compare (key a) (key b) ≠ .gt

theorem byKey_perm (key : α → κ) (l : List α) : (byKey key l).Perm l := List.mergeSort_perm ..

@[simp] theorem mem_byKey {key : α → κ} {l : List α} {a : α} : a ∈ byKey key l ↔ a ∈ l :=
  (byKey_perm key l).mem_iff

@[simp] theorem length_byKey (key : α → κ) (l : List α) : (byKey key l).length = l.length :=
  (byKey_perm key l).length_eq

variable [Std.TransOrd κ]

/-- The keys ascend. -/
theorem pairwise_byKey (key : α → κ) (l : List α) :
    (byKey key l).Pairwise fun a b => compare (key a) (key b) ≠ .gt := by
  refine (List.pairwise_mergeSort ?_ ?_ l).imp fun h => by simpa using h
  · intro a b c hab hbc
    have hab' : (compare (key a) (key b)).isLE := Ordering.isLE_iff_ne_gt.mpr (by simpa using hab)
    have hbc' : (compare (key b) (key c)).isLE := Ordering.isLE_iff_ne_gt.mpr (by simpa using hbc)
    simpa using Ordering.isLE_iff_ne_gt.mp (Std.TransCmp.isLE_trans hab' hbc')
  · intro a b
    have hswap : compare (key a) (key b) = (compare (key b) (key a)).swap :=
      Std.OrientedCmp.eq_swap
    rw [hswap]
    cases compare (key b) (key a) <;> simp

variable [Std.LawfulEqOrd κ]

/-- **The order that it came in does not matter.** -/
theorem byKey_congr {key : α → κ} {l l' : List α} (h : l.Perm l')
    (hkeys : ∀ a ∈ l, ∀ b ∈ l, key a = key b → a = b) : byKey key l = byKey key l' := by
  have hperm : (byKey key l).Perm (byKey key l') :=
    (byKey_perm key l).trans (h.trans (byKey_perm key l').symm)
  refine List.Perm.eq_of_pairwise ?_ (pairwise_byKey key l) (pairwise_byKey key l') hperm
  intro a b ha hb hab hba
  have hb' : b ∈ l := h.mem_iff.mpr (mem_byKey.mp hb)
  refine hkeys a (mem_byKey.mp ha) b hb' ?_
  have hswap : compare (key a) (key b) = (compare (key b) (key a)).swap := Std.OrientedCmp.eq_swap
  refine Std.LawfulEqOrd.eq_of_compare ?_
  cases heq : compare (key b) (key a) with
  | eq => rw [hswap, heq]; rfl
  | lt => rw [heq] at hswap; exact absurd hswap hab
  | gt => exact absurd heq hba

end Sorted

/-
# Accumulating a stream per key

Pieces arrive in one sequence, each belongs to a key, and each is folded into the accumulator of
its key.  Only the order of the pieces of one key matters: the accumulator of a key is the fold
over that key's own pieces (`getElem?_accumulate`), whatever is interleaved with them.
-/
import Std.Data.TreeMap
import Mathlib.Data.List.Sort

namespace Keyed

variable {κ β γ : Type} [Ord κ]

/-- Fold one piece into the accumulator of its key, which starts at `start`. -/
def add (key : γ → κ) (upd : γ → β → β) (start : β) (m : Std.TreeMap κ β) (x : γ) :
    Std.TreeMap κ β :=
  m.alter (key x) fun b => some (upd x (b.getD start))

/-- Fold a sequence of pieces. -/
def accumulate (key : γ → κ) (upd : γ → β → β) (start : β) (m : Std.TreeMap κ β)
    (xs : List γ) : Std.TreeMap κ β :=
  xs.foldl (add key upd start) m

variable {key : γ → κ} {upd : γ → β → β} {start : β}

theorem accumulate_append (m : Std.TreeMap κ β) (xs ys : List γ) :
    accumulate key upd start m (xs ++ ys) =
      accumulate key upd start (accumulate key upd start m xs) ys :=
  List.foldl_append

variable [Std.TransOrd κ] [Std.LawfulEqOrd κ]

/-- **The projection to one key.** -/
theorem getElem?_accumulate [DecidableEq κ] (k : κ) (xs : List γ) (m : Std.TreeMap κ β) :
    (accumulate key upd start m xs)[k]? =
      if xs.filter (fun x => key x = k) = [] then m[k]?
      else some ((xs.filter fun x => key x = k).foldl (fun b x => upd x b)
        (m[k]?.getD start)) := by
  induction xs generalizing m with
  | nil => simp [accumulate]
  | cons x xs ih =>
    have hadd : (add key upd start m x)[k]? =
        if key x = k then some (upd x (m[k]?.getD start)) else m[k]? := by
      unfold add
      rw [Std.TreeMap.getElem?_alter]
      by_cases hk : key x = k
      · simp [hk]
      · have hcmp : ¬ compare (key x) k = .eq := fun h => hk (Std.LawfulEqOrd.eq_of_compare h)
        simp [hk, hcmp]
    change (accumulate key upd start (add key upd start m x) xs)[k]? = _
    rw [ih, hadd]
    by_cases hk : key x = k
    · rw [List.filter_cons_of_pos (by simpa using hk)]
      by_cases hxs : xs.filter (fun x => key x = k) = []
      · simp [hxs, hk]
      · simp [hxs, hk]
    · rw [List.filter_cons_of_neg (by simpa using hk)]
      simp [hk]

/-- A map with the entries of a strictly ascending list lists exactly these. -/
theorem toList_eq {m : Std.TreeMap κ β} {l : List (κ × β)}
    (hl : l.Pairwise fun a b => compare a.1 b.1 = .lt)
    (h : ∀ k b, m[k]? = some b ↔ (k, b) ∈ l) : m.toList = l := by
  have hirrefl : Std.Irrefl fun a b : κ × β => compare a.1 b.1 = .lt := ⟨fun a => by simp⟩
  have hantisymm : Std.Antisymm fun a b : κ × β => compare a.1 b.1 = .lt :=
    ⟨fun a b hab hba => absurd hba (by rw [Std.OrientedCmp.gt_of_lt hab]; simp)⟩
  refine List.Pairwise.eq_of_mem_iff Std.TreeMap.ordered_keys_toList hl fun ⟨k, b⟩ => ?_
  rw [Std.TreeMap.mem_toList_iff_getElem?_eq_some, h]

end Keyed

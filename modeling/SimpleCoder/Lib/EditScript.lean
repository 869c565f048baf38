/-
# Edit scripts and longest common subsequences

A script takes one sequence to another: each of its steps keeps an element, drops one of the first
sequence or adds one of the second.  What a script keeps is a common subsequence of the two
(`kept_sublist_source`, `kept_sublist_target`), and its other steps are counted by the lengths alone
(`changeCount_add`).  So a script that keeps a longest common subsequence changes least
(`changeCount_le`).

§2 is the recursion that dynamic programming over the suffixes computes: the length of a longest
common subsequence from those of the tails.
-/
import Mathlib.Data.List.Basic
import Mathlib.Order.Bounds.Basic

namespace EditScript

variable {α : Type*}

/-! ## 1. Scripts -/

/-- A step of a script. -/
inductive Step (α : Type*) where
  | keep (a : α)
  | drop (a : α)
  | add (a : α)

namespace Step

/-- The element of the first sequence that the step is about. -/
def source? : Step α → Option α
  | keep a | drop a => some a
  | add _ => none

/-- The element of the second sequence that the step is about. -/
def target? : Step α → Option α
  | keep a | add a => some a
  | drop _ => none

def kept? : Step α → Option α
  | keep a => some a
  | drop _ | add _ => none

/-- The step changes something. -/
def changes : Step α → Bool
  | keep _ => false
  | drop _ | add _ => true

end Step

/-- The sequence that the script starts from. -/
def source (s : List (Step α)) : List α := s.filterMap Step.source?

/-- The sequence that the script arrives at. -/
def target (s : List (Step α)) : List α := s.filterMap Step.target?

/-- The elements that the script keeps. -/
def kept (s : List (Step α)) : List α := s.filterMap Step.kept?

/-- How many steps of the script change something. -/
def changeCount (s : List (Step α)) : ℕ := s.countP Step.changes

/-- **What is kept is in the first sequence**, in order. -/
theorem kept_sublist_source (s : List (Step α)) : (kept s).Sublist (source s) := by
  induction s with
  | nil => exact List.Sublist.refl _
  | cons x s ih =>
    cases x with
    | keep a => exact ih.cons_cons a
    | drop a => exact ih.cons a
    | add a => exact ih

/-- **What is kept is in the second sequence**, in order. -/
theorem kept_sublist_target (s : List (Step α)) : (kept s).Sublist (target s) := by
  induction s with
  | nil => exact List.Sublist.refl _
  | cons x s ih =>
    cases x with
    | keep a => exact ih.cons_cons a
    | drop a => exact ih
    | add a => exact ih.cons a

/-- Every element of the two sequences is kept, which counts for both, or changed. -/
theorem changeCount_add (s : List (Step α)) :
    changeCount s + 2 * (kept s).length = (source s).length + (target s).length := by
  induction s with
  | nil => rfl
  | cons x s ih =>
    unfold changeCount kept source target at *
    cases x <;>
      simp [List.filterMap_cons, List.countP_cons, Step.changes, Step.kept?, Step.source?,
        Step.target?] <;>
      omega

/-! ## 2. Longest common subsequences -/

/-- The lengths of the common subsequences of two sequences. -/
def commonLengths (a b : List α) : Set ℕ :=
  {n | ∃ l : List α, l.Sublist a ∧ l.Sublist b ∧ l.length = n}

/-- `n` is the length of a longest common subsequence. -/
def IsLcsLength (a b : List α) (n : ℕ) : Prop := IsGreatest (commonLengths a b) n

theorem isLcsLength_nil_left (b : List α) : IsLcsLength [] b 0 := by
  refine ⟨⟨[], List.nil_sublist _, List.nil_sublist _, rfl⟩, ?_⟩
  rintro n ⟨l, ha, -, rfl⟩
  rw [List.sublist_nil.mp ha]
  rfl

theorem isLcsLength_nil_right (a : List α) : IsLcsLength a [] 0 := by
  refine ⟨⟨[], List.nil_sublist _, List.nil_sublist _, rfl⟩, ?_⟩
  rintro n ⟨l, -, hb, rfl⟩
  rw [List.sublist_nil.mp hb]
  rfl

/-- **Two sequences that start alike**: their first element is in a longest common subsequence. -/
theorem isLcsLength_cons_same {a b : List α} {n : ℕ} (x : α) (h : IsLcsLength a b n) :
    IsLcsLength (x :: a) (x :: b) (n + 1) := by
  obtain ⟨⟨l, hla, hlb, hlen⟩, hmax⟩ := h
  refine ⟨⟨x :: l, hla.cons_cons x, hlb.cons_cons x, by rw [List.length_cons, hlen]⟩, ?_⟩
  rintro m ⟨k, hka, hkb, rfl⟩
  cases k with
  | nil => exact Nat.zero_le _
  | cons y k =>
    have hk : k.length ≤ n :=
      hmax ⟨k, hka.tail, hkb.tail, rfl⟩
    rw [List.length_cons]
    omega

/-- **Two sequences that start differently**: one of their first elements is in no longest common
subsequence. -/
theorem isLcsLength_cons_ne {a b : List α} {x y : α} {m n : ℕ} (hne : x ≠ y)
    (ha : IsLcsLength a (y :: b) m) (hb : IsLcsLength (x :: a) b n) :
    IsLcsLength (x :: a) (y :: b) (max m n) := by
  constructor
  · rcases le_total m n with hmn | hmn
    · rw [max_eq_right hmn]
      obtain ⟨l, hla, hlb, hlen⟩ := hb.1
      exact ⟨l, hla, hlb.cons y, hlen⟩
    · rw [max_eq_left hmn]
      obtain ⟨l, hla, hlb, hlen⟩ := ha.1
      exact ⟨l, hla.cons x, hlb, hlen⟩
  · rintro k ⟨l, hla, hlb, rfl⟩
    rcases List.sublist_cons_iff.mp hla with hla' | ⟨r, rfl, -⟩
    · exact le_trans (ha.2 ⟨l, hla', hlb, rfl⟩) (le_max_left m n)
    · rcases List.sublist_cons_iff.mp hlb with hlb' | ⟨r', heq, -⟩
      · exact le_trans (hb.2 ⟨_, hla, hlb', rfl⟩) (le_max_right m n)
      · exact absurd (List.cons.inj heq).1 hne

/-! ## 3. Scripts that change least -/

/-- No script keeps more than a longest common subsequence. -/
theorem length_kept_le {a b : List α} {n : ℕ} (h : IsLcsLength a b n) {s : List (Step α)}
    (ha : source s = a) (hb : target s = b) : (kept s).length ≤ n := by
  subst ha hb
  exact h.2 ⟨kept s, kept_sublist_source s, kept_sublist_target s, rfl⟩

/-- **A script that keeps a longest common subsequence changes least.** -/
theorem changeCount_le {a b : List α} {s t : List (Step α)}
    (hs : IsLcsLength a b (kept s).length) (hsa : source s = a) (hsb : target s = b)
    (hta : source t = a) (htb : target t = b) : changeCount s ≤ changeCount t := by
  have hkept := length_kept_le hs hta htb
  have hcs := changeCount_add s
  have hct := changeCount_add t
  rw [hsa, hsb] at hcs
  rw [hta, htb] at hct
  omega

end EditScript

/-
# The table of `lcs_ops`

`lcsOps` computes the diff by recursion over the two sequences of lines.  The source fills a table
from the last row and the last column on, and then walks through it with two indices.

* §1 is the source's loops: `fillRow` and `fillTable` write `dp`, `backtrack` reads it.
* §2: every entry of the table is the length it stands for (`lcsTable_eq`), so the walk gives the
  operations of `lcsOps` (`lcsOpsByTable_eq`).
* §3: these operations are a script from the first sequence to the second that changes least
  (`lcsOpsByTable_minimal`), since `dp[i][j]` is the length of a longest common subsequence of the
  suffixes.
-/
import SimpleCoder.Lib.EditScript
import SimpleCoder.Util.Diff

namespace SimpleCoder

open EditScript

/-! ## 1. The loops -/

/-- `dp`, as the entry at two indices. -/
abbrev Table := Nat → Nat → Nat

/-- `dp[i][j] = v`. -/
def Table.put (dp : Table) (i j v : Nat) : Table := fun i' j' =>
  if i' = i ∧ j' = j then v else dp i' j'

section

variable (a b : List Bytes)

/-- The inner loop, in row `i`, with the columns before `j` still to come. -/
def fillRow (i : Nat) : Nat → Table → Table
  | 0, dp => dp
  | j + 1, dp =>
    fillRow i j (dp.put i j
      (if a[i]? = b[j]? then dp (i + 1) (j + 1) + 1 else max (dp (i + 1) j) (dp i (j + 1))))

/-- The outer loop, with the rows before `i` still to come. -/
def fillTable : Nat → Table → Table
  | 0, dp => dp
  | i + 1, dp => fillTable i (fillRow a b i b.length dp)

/-- The table that `lcs_ops` fills: zero everywhere at first. -/
def lcsTable : Table := fillTable a b a.length fun _ _ => 0

/-- The loops that collect the operations: while both sequences have lines left, and then what is
left of one of them. -/
def backtrack (dp : Table) (i j : Nat) : List Op :=
  if h : i < a.length ∧ j < b.length then
    if a[i] = b[j] then ⟨.equal, a[i]⟩ :: backtrack dp (i + 1) (j + 1)
    else if dp (i + 1) j ≥ dp i (j + 1) then ⟨.del, a[i]⟩ :: backtrack dp (i + 1) j
    else ⟨.add, b[j]⟩ :: backtrack dp i (j + 1)
  else (a.drop i).map (Op.mk .del) ++ (b.drop j).map (Op.mk .add)
termination_by (a.length - i) + (b.length - j)

/-- `lcs_ops`, with its table. -/
def lcsOpsByTable : List Op := backtrack a b (lcsTable a b) 0 0

end

/-! ## 2. What the table holds -/

section

variable {a b : List Bytes}

theorem lcsLength_nil_right (a : List Bytes) : lcsLength a [] = 0 := by
  cases a <;> rfl

theorem lcsLength_cons_cons (x y : Bytes) (a b : List Bytes) :
    lcsLength (x :: a) (y :: b) =
      if x = y then lcsLength a b + 1 else max (lcsLength a (y :: b)) (lcsLength (x :: a) b) := rfl

/-- The length that `dp[i][j]` stands for. -/
def suffixLength (a b : List Bytes) (i j : Nat) : Nat := lcsLength (a.drop i) (b.drop j)

theorem suffixLength_of_le_left {i : Nat} (h : a.length ≤ i) (j : Nat) :
    suffixLength a b i j = 0 := by
  unfold suffixLength
  rw [List.drop_eq_nil_of_le h]
  rfl

theorem suffixLength_of_le_right (i : Nat) {j : Nat} (h : b.length ≤ j) :
    suffixLength a b i j = 0 := by
  unfold suffixLength
  rw [List.drop_eq_nil_of_le h, lcsLength_nil_right]

/-- The recurrence of the table. -/
theorem suffixLength_eq {i j : Nat} (hi : i < a.length) (hj : j < b.length) :
    suffixLength a b i j =
      if a[i]? = b[j]? then suffixLength a b (i + 1) (j + 1) + 1
      else max (suffixLength a b (i + 1) j) (suffixLength a b i (j + 1)) := by
  unfold suffixLength
  rw [List.drop_eq_getElem_cons hi, List.drop_eq_getElem_cons hj, lcsLength_cons_cons,
    List.getElem?_eq_getElem hi, List.getElem?_eq_getElem hj]
  simp only [Option.some.injEq]

/-- **The inner loop.**  If the row below is filled, and this row from column `j` on, then the loop
fills the rest of the row and leaves the others alone. -/
theorem fillRow_spec {i : Nat} (hi : i < a.length) : ∀ (j : Nat) (dp : Table), j ≤ b.length →
    (∀ k, dp (i + 1) k = suffixLength a b (i + 1) k) →
    (∀ k, j ≤ k → dp i k = suffixLength a b i k) →
    (∀ k, fillRow a b i j dp i k = suffixLength a b i k) ∧
      ∀ i' k, i' ≠ i → fillRow a b i j dp i' k = dp i' k
  | 0, dp, _, _, hrow => ⟨fun k => hrow k (Nat.zero_le k), fun _ _ _ => rfl⟩
  | j + 1, dp, hj, hbelow, hrow => by
    rw [fillRow]
    have hbelow' : ∀ v k, dp.put i j v (i + 1) k = suffixLength a b (i + 1) k := by
      intro v k
      rw [← hbelow k]
      exact if_neg fun h => absurd h.1 (Nat.succ_ne_self i)
    have hentry := @suffixLength_eq a b i j hi (by omega)
    rw [← hbelow (j + 1), ← hbelow j, ← hrow (j + 1) (Nat.le_refl _)] at hentry
    have hrow' : ∀ k, j ≤ k →
        dp.put i j (if a[i]? = b[j]? then dp (i + 1) (j + 1) + 1
          else max (dp (i + 1) j) (dp i (j + 1))) i k = suffixLength a b i k := by
      intro k hk
      unfold Table.put
      by_cases hkj : k = j
      · subst hkj
        rw [if_pos ⟨rfl, rfl⟩, hentry]
      · rw [if_neg fun h => hkj h.2]
        exact hrow k (by omega)
    obtain ⟨hfill, hrest⟩ := fillRow_spec hi j _ (by omega) (hbelow' _) hrow'
    refine ⟨hfill, fun i' k hne => ?_⟩
    rw [hrest i' k hne]
    exact if_neg fun h => hne h.1

/-- **The outer loop.**  If the rows from `i` on are filled and the others are zero, then the loop
fills the rest. -/
theorem fillTable_spec : ∀ (i : Nat) (dp : Table), i ≤ a.length →
    (∀ i' k, i ≤ i' → dp i' k = suffixLength a b i' k) → (∀ i' k, i' < i → dp i' k = 0) →
    ∀ i' k, fillTable a b i dp i' k = suffixLength a b i' k
  | 0, dp, _, hfilled, _ => fun i' k => hfilled i' k (Nat.zero_le i')
  | i + 1, dp, hi, hfilled, hzero => by
    rw [fillTable]
    obtain ⟨hrow, hrest⟩ := @fillRow_spec a b i (by omega) b.length dp (Nat.le_refl _)
      (fun k => hfilled (i + 1) k (Nat.le_refl _))
      (fun k hk => by rw [hzero i k (Nat.lt_succ_self i), suffixLength_of_le_right i hk])
    refine fillTable_spec i _ (by omega) (fun i' k hi' => ?_) (fun i' k hi' => ?_)
    · by_cases h : i' = i
      · subst h
        exact hrow k
      · rw [hrest i' k h]
        exact hfilled i' k (by omega)
    · rw [hrest i' k (by omega)]
      exact hzero i' k (by omega)

/-- **Every entry of the table** is what it stands for. -/
theorem lcsTable_eq (a b : List Bytes) : lcsTable a b = suffixLength a b := by
  funext i j
  refine fillTable_spec a.length _ (Nat.le_refl _) (fun i' k hi' => ?_) (fun _ _ _ => rfl) i j
  exact (suffixLength_of_le_left hi' k).symm

theorem lcsOps_nil_right (a : List Bytes) : lcsOps a [] = a.map (Op.mk .del) := by
  cases a <;> rfl

theorem lcsOps_cons_cons (x y : Bytes) (a b : List Bytes) :
    lcsOps (x :: a) (y :: b) =
      if x = y then ⟨.equal, x⟩ :: lcsOps a b
      else if lcsLength a (y :: b) ≥ lcsLength (x :: a) b then ⟨.del, x⟩ :: lcsOps a (y :: b)
      else ⟨.add, y⟩ :: lcsOps (x :: a) b := rfl

/-- The walk through the table takes the turns of `lcsOps`. -/
theorem backtrack_eq (a b : List Bytes) (i j : Nat) :
    backtrack a b (suffixLength a b) i j = lcsOps (a.drop i) (b.drop j) := by
  induction i, j using backtrack.induct a b (suffixLength a b) with
  | case1 i j h heq ih =>
    rw [backtrack, dif_pos h, if_pos heq, ih, List.drop_eq_getElem_cons h.1,
      List.drop_eq_getElem_cons h.2, lcsOps_cons_cons, if_pos heq]
  | case2 i j h hne hge ih =>
    rw [backtrack, dif_pos h, if_neg hne, if_pos hge, ih]
    unfold suffixLength at hge
    rw [List.drop_eq_getElem_cons h.1, List.drop_eq_getElem_cons h.2] at *
    rw [lcsOps_cons_cons, if_neg hne, if_pos hge]
  | case3 i j h hne hlt ih =>
    rw [backtrack, dif_pos h, if_neg hne, if_neg hlt, ih]
    unfold suffixLength at hlt
    rw [List.drop_eq_getElem_cons h.1, List.drop_eq_getElem_cons h.2] at *
    rw [lcsOps_cons_cons, if_neg hne, if_neg hlt]
  | case4 i j h =>
    rw [backtrack, dif_neg h]
    rcases Nat.lt_or_ge i a.length with hi | hi
    · have hj : b.length ≤ j := by omega
      rw [List.drop_eq_nil_of_le hj, lcsOps_nil_right, List.map_nil, List.append_nil]
    · rw [List.drop_eq_nil_of_le hi, List.map_nil, List.nil_append]
      rfl

/-- **The source's loops compute `lcsOps`.** -/
theorem lcsOpsByTable_eq (a b : List Bytes) : lcsOpsByTable a b = lcsOps a b := by
  unfold lcsOpsByTable
  rw [lcsTable_eq, backtrack_eq, List.drop_zero, List.drop_zero]

end

/-! ## 3. What the operations amount to -/

/-- The operation as a step of a script. -/
def Op.toStep (op : Op) : Step Bytes :=
  match op.kind with
  | .equal => .keep op.text
  | .del => .drop op.text
  | .add => .add op.text

/-- The texts of the operations of two kinds, in order. -/
def oldTexts (ops : List Op) : List Bytes := (ops.filter fun op => op.kind ≠ .add).map Op.text

def newTexts (ops : List Op) : List Bytes := (ops.filter fun op => op.kind ≠ .del).map Op.text

def equalCount (ops : List Op) : Nat := ops.countP fun op => op.kind = .equal

/-- How many operations change something. -/
def editCount (ops : List Op) : Nat := ops.countP fun op => op.kind ≠ .equal

section

variable (ops : List Op)

theorem source_toStep : source (ops.map Op.toStep) = oldTexts ops := by
  induction ops with
  | nil => rfl
  | cons op ops ih =>
    unfold source oldTexts at *
    rcases op with ⟨kind, text⟩
    cases kind <;> simp [Op.toStep, Step.source?, List.filterMap_cons, ih]

theorem target_toStep : target (ops.map Op.toStep) = newTexts ops := by
  induction ops with
  | nil => rfl
  | cons op ops ih =>
    unfold target newTexts at *
    rcases op with ⟨kind, text⟩
    cases kind <;> simp [Op.toStep, Step.target?, List.filterMap_cons, ih]

theorem length_kept_toStep : (kept (ops.map Op.toStep)).length = equalCount ops := by
  induction ops with
  | nil => rfl
  | cons op ops ih =>
    unfold kept equalCount at *
    rcases op with ⟨kind, text⟩
    cases kind <;> simp [Op.toStep, Step.kept?, List.filterMap_cons, ih, -List.filterMap_map]

theorem changeCount_toStep : changeCount (ops.map Op.toStep) = editCount ops := by
  induction ops with
  | nil => rfl
  | cons op ops ih =>
    unfold changeCount editCount at *
    rcases op with ⟨kind, text⟩
    cases kind <;> simp [Op.toStep, Step.changes, List.countP_cons, ih]

end

/-- **The recursion of the table** is that of the longest common subsequences. -/
theorem isLcsLength_lcsLength : ∀ a b : List Bytes, IsLcsLength a b (lcsLength a b)
  | [], b => isLcsLength_nil_left b
  | x :: a, [] => isLcsLength_nil_right (x :: a)
  | x :: a, y :: b => by
    rw [lcsLength_cons_cons]
    split
    · rename_i heq
      subst heq
      exact isLcsLength_cons_same x (isLcsLength_lcsLength a b)
    · rename_i hne
      exact isLcsLength_cons_ne hne (isLcsLength_lcsLength a (y :: b))
        (isLcsLength_lcsLength (x :: a) b)

/-- What `lcsOps` gives is a script between the two sequences, and keeps as much as the table
says. -/
structure IsDiff (a b : List Bytes) (ops : List Op) : Prop where
  old : oldTexts ops = a
  new : newTexts ops = b
  equal : equalCount ops = lcsLength a b

/-- The lines of a side that is left over. -/
theorem isDiff_dels (a : List Bytes) : IsDiff a [] (a.map (Op.mk .del)) := by
  refine ⟨?_, ?_, ?_⟩
  · induction a with
    | nil => rfl
    | cons x a ih => simpa [oldTexts] using ih
  · simp [newTexts]
  · rw [lcsLength_nil_right]
    simp [equalCount]

theorem isDiff_adds (b : List Bytes) : IsDiff [] b (b.map (Op.mk .add)) := by
  refine ⟨?_, ?_, ?_⟩
  · simp [oldTexts]
  · induction b with
    | nil => rfl
    | cons x b ih => simpa [newTexts] using ih
  · simp [equalCount, lcsLength]

/-- **What `lcsOps` collects** leads from the one sequence to the other, and keeps as much as the
table says: a line is dropped only where that loses nothing. -/
theorem isDiff_lcsOps : ∀ a b : List Bytes, IsDiff a b (lcsOps a b)
  | [], b => isDiff_adds b
  | x :: a, [] => isDiff_dels (x :: a)
  | x :: a, y :: b => by
    rw [lcsOps_cons_cons]
    have hlength := lcsLength_cons_cons x y a b
    split
    · -- the same line: it is kept
      rename_i heq
      subst heq
      obtain ⟨hold, hnew, hequal⟩ := isDiff_lcsOps a b
      rw [if_pos rfl] at hlength
      refine ⟨?_, ?_, ?_⟩
      · simpa [oldTexts] using hold
      · simpa [newTexts] using hnew
      · rw [hlength, ← hequal]
        simp [equalCount]
    rename_i hne
    rw [if_neg hne] at hlength
    split
    · -- the old line is dropped
      rename_i hge
      obtain ⟨hold, hnew, hequal⟩ := isDiff_lcsOps a (y :: b)
      rw [max_eq_left hge] at hlength
      refine ⟨?_, ?_, ?_⟩
      · simpa [oldTexts] using hold
      · simpa [newTexts] using hnew
      · rw [hlength, ← hequal]
        simp [equalCount]
    · -- the new line is added
      rename_i hlt
      obtain ⟨hold, hnew, hequal⟩ := isDiff_lcsOps (x :: a) b
      rw [max_eq_right (by omega)] at hlength
      refine ⟨?_, ?_, ?_⟩
      · simpa [oldTexts] using hold
      · simpa [newTexts] using hnew
      · rw [hlength, ← hequal]
        simp [equalCount]

/-- **The diff is a smallest edit script.**  The lines of the operations that are no additions are
the first sequence, those of the operations that are no deletions the second; as many lines are kept
as a longest common subsequence has, and no list of operations between the two sequences changes
fewer. -/
theorem lcsOpsByTable_minimal (a b : List Bytes) :
    oldTexts (lcsOpsByTable a b) = a ∧ newTexts (lcsOpsByTable a b) = b ∧
      IsLcsLength a b (equalCount (lcsOpsByTable a b)) ∧
      ∀ ops : List Op, oldTexts ops = a → newTexts ops = b →
        editCount (lcsOpsByTable a b) ≤ editCount ops := by
  rw [lcsOpsByTable_eq]
  obtain ⟨hold, hnew, hequal⟩ := isDiff_lcsOps a b
  have hlcs : IsLcsLength a b (equalCount (lcsOps a b)) := by
    rw [hequal]
    exact isLcsLength_lcsLength a b
  refine ⟨hold, hnew, hlcs, fun ops hopsOld hopsNew => ?_⟩
  rw [← changeCount_toStep, ← changeCount_toStep]
  rw [← length_kept_toStep] at hlcs
  exact changeCount_le hlcs ((source_toStep _).trans hold) ((target_toStep _).trans hnew)
    ((source_toStep ops).trans hopsOld) ((target_toStep ops).trans hopsNew)

end SimpleCoder

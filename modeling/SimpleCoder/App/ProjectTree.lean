/-
# The files of the project

`/init` tells the model which files there are.  `project_tree` walks through the working directory,
leaves out some directories and what is deep inside, and stops at 200 files; then it sorts what it
has.

* §1: the walk.
* §2: it lists the first 200 of the files that are not left out (`walk_eq`).
* §3: a file is left out for its depth or for a directory above it (`mem_filesIn_iff`), and if there
  are no more than 200 others the order of the walk does not show (`projectTree_lines`).
-/
import SimpleCoder.Bytes
import SimpleCoder.Lib.Sorted

namespace SimpleCoder.ProjectTree

/-! ## 1. The walk -/

/-- What the iterator comes to: a directory, or anything else, with its path from the root as
`fs::relative` gives it. -/
inductive PathEntry where
  | file (shown : Bytes)
  | dir (name : Bytes)

/-- The entries of a directory in the order of the walk, each with what is inside.  A directory that
cannot be listed ends the walk: then nothing behind it is in the tree. -/
inductive Forest where
  | nil
  | entry (e : PathEntry) (inside rest : Forest)

/-- The directories that are not entered: `skip`, and the hidden ones. -/
def skipped (name : Bytes) : Bool :=
  [bytes ".git", bytes "build", bytes "node_modules", bytes ".cache",
      bytes "third_party"].contains name ||
    (1 < name.length && name.head? = some 0x2E)

def maxEntries : Nat := 200

def maxDepth : Nat := 3

/-- The loop of `project_tree` over the entries at some depth, with what it has found. -/
def walk : Nat → Forest → List Bytes → List Bytes
  | _, .nil, entries => entries
  | depth, .entry (.file shown) _ rest, entries =>
    if maxEntries ≤ entries.length then entries
    else walk depth rest (if maxDepth < depth then entries else entries ++ [shown])
  | depth, .entry (.dir name) inside rest, entries =>
    if maxEntries ≤ entries.length then entries
    else walk depth rest (if skipped name then entries else walk (depth + 1) inside entries)

/-- `project_tree`. -/
def projectTree (root : Forest) : Bytes :=
  (Sorted.byKey id (walk 0 root [])).flatMap (· ++ [newline])

/-! ## 2. What is listed -/

/-- The files that are not left out, in the order of the walk. -/
def filesIn : Nat → Forest → List Bytes
  | _, .nil => []
  | depth, .entry (.file shown) _ rest =>
    (if maxDepth < depth then [] else [shown]) ++ filesIn depth rest
  | depth, .entry (.dir name) inside rest =>
    (if skipped name then [] else filesIn (depth + 1) inside) ++ filesIn depth rest

/-- What is cut off twice could have been cut off once. -/
theorem take_take_append {α : Type} (n : Nat) (l l' : List α) :
    (l.take n ++ l').take n = (l ++ l').take n := by
  rcases Nat.le_total n l.length with h | h
  · have hlen : (l.take n).length = n := by simp [h]
    rw [List.take_append_of_le_length (by omega), List.take_append_of_le_length h]
    simp
  · rw [List.take_of_length_le h]

theorem walk_full {root : Forest} {depth : Nat} {entries : List Bytes}
    (h : maxEntries ≤ entries.length) : walk depth root entries = entries := by
  cases root with
  | nil => rfl
  | entry e inside rest => cases e <;> simp [walk, h]

/-- **The walk stops when it has enough.** -/
theorem walk_eq (root : Forest) (depth : Nat) {entries : List Bytes}
    (h : entries.length ≤ maxEntries) :
    walk depth root entries = (entries ++ filesIn depth root).take maxEntries := by
  induction root generalizing depth entries with
  | nil => simp [walk, filesIn, List.take_of_length_le h]
  | entry e inside rest ihInside ihRest =>
    by_cases hfull : maxEntries ≤ entries.length
    · rw [walk_full hfull, List.take_append_of_le_length hfull, List.take_of_length_le h]
    · cases e with
      | file shown =>
        simp only [walk, filesIn, if_neg hfull]
        split
        · rw [ihRest depth h, List.nil_append]
        · rw [ihRest depth (by simp; omega), List.append_assoc]
      | dir name =>
        simp only [walk, filesIn, if_neg hfull]
        split
        · rw [ihRest depth h, List.nil_append]
        · rw [ihInside (depth + 1) h, ihRest depth (List.length_take_le ..), take_take_append,
            List.append_assoc]

/-! ## 3. Which files these are -/

/-- The file is there, inside these directories. -/
inductive Forest.At : Forest → List Bytes → Bytes → Prop
  | here (shown : Bytes) (inside rest : Forest) : At (.entry (.file shown) inside rest) [] shown
  | inside {name : Bytes} {inside rest : Forest} {dirs : List Bytes} {shown : Bytes}
    (h : At inside dirs shown) : At (.entry (.dir name) inside rest) (name :: dirs) shown
  | rest {e : PathEntry} {inside rest : Forest} {dirs : List Bytes} {shown : Bytes}
    (h : At rest dirs shown) : At (.entry e inside rest) dirs shown

/-- **A file is left out** for its depth, or for a directory that is skipped. -/
theorem mem_filesIn_iff {root : Forest} {depth : Nat} {shown : Bytes} :
    shown ∈ filesIn depth root ↔ ∃ dirs, root.At dirs shown ∧ depth + dirs.length ≤ maxDepth ∧
      ∀ n ∈ dirs, skipped n = false := by
  induction root generalizing depth with
  | nil =>
    refine iff_of_false (by simp [filesIn]) ?_
    rintro ⟨dirs, hat, -⟩
    cases hat
  | entry e inside rest ihInside ihRest =>
    have hrest : ∀ l, shown ∈ l ++ filesIn depth rest ↔ shown ∈ l ∨ ∃ dirs, rest.At dirs shown ∧
        depth + dirs.length ≤ maxDepth ∧ ∀ n ∈ dirs, skipped n = false := by
      intro l
      rw [List.mem_append, ihRest]
    cases e with
    | file name =>
      simp only [filesIn, hrest]
      constructor
      · rintro (hhere | ⟨dirs, hat, hlen, hdirs⟩)
        · split at hhere
          · cases hhere
          · rw [List.mem_singleton.mp hhere]
            exact ⟨[], .here .., by simp; omega, by simp⟩
        · exact ⟨dirs, .rest hat, hlen, hdirs⟩
      · rintro ⟨dirs, hat, hlen, hdirs⟩
        cases hat with
        | here =>
          simp only [List.length_nil, Nat.add_zero] at hlen
          -- the depth is checked for the file itself
          exact .inl (by simp [Nat.not_lt.mpr hlen])
        | rest hat => exact .inr ⟨dirs, hat, hlen, hdirs⟩
    | dir name =>
      simp only [filesIn, hrest]
      constructor
      · rintro (hinside | ⟨dirs, hat, hlen, hdirs⟩)
        · split at hinside
          · cases hinside
          · rename_i hname
            obtain ⟨dirs, hat, hlen, hdirs⟩ := ihInside.mp hinside
            refine ⟨name :: dirs, .inside hat, by simp; omega, ?_⟩
            exact List.forall_mem_cons.mpr ⟨by simpa using hname, hdirs⟩
        · exact ⟨dirs, .rest hat, hlen, hdirs⟩
      · rintro ⟨dirs, hat, hlen, hdirs⟩
        cases hat with
        | inside hat =>
          -- the files of a directory are one level deeper
          obtain ⟨hname, hdirs⟩ := List.forall_mem_cons.mp hdirs
          simp only [List.length_cons] at hlen
          left
          rw [hname]
          exact ihInside.mpr ⟨_, hat, by omega, hdirs⟩
        | rest hat => exact .inr ⟨dirs, hat, hlen, hdirs⟩

/-- The same files and directories in another order. -/
inductive Forest.Rearranged : Forest → Forest → Prop
  | nil : Rearranged .nil .nil
  | entry (e : PathEntry) {inside inside' rest rest' : Forest} (h : Rearranged inside inside')
    (h' : Rearranged rest rest') : Rearranged (.entry e inside rest) (.entry e inside' rest')
  | swap (e e' : PathEntry) (inside inside' rest : Forest) :
    Rearranged (.entry e inside (.entry e' inside' rest))
      (.entry e' inside' (.entry e inside rest))
  | trans {a b c : Forest} (h : Rearranged a b) (h' : Rearranged b c) : Rearranged a c

theorem Forest.Rearranged.perm {root root' : Forest} (h : root.Rearranged root') (depth : Nat) :
    (filesIn depth root).Perm (filesIn depth root') := by
  induction h generalizing depth with
  | nil => exact .refl _
  | entry e h h' ih ih' =>
    cases e with
    | file shown => exact (ih' depth).append_left _
    | dir name =>
      simp only [filesIn]
      split
      · exact (ih' depth).append_left _
      · exact (ih (depth + 1)).append (ih' depth)
  | swap e e' inside inside' rest =>
    cases e <;> cases e' <;> simp only [filesIn] <;>
      exact List.perm_append_comm_assoc _ _ _
  | trans h h' ih ih' => exact (ih depth).trans (ih' depth)

/-- **The listing of the project**: sorted lines, each a file that is there, no more than three
directories deep and in none that is skipped; 200 of them, or all that there are, and then it is the
same in whatever order the system lists the directories. -/
theorem projectTree_lines (root : Forest) : ∃ lines : List Bytes,
    projectTree root = lines.flatMap (· ++ [newline]) ∧
    (lines.Pairwise fun a b => compare a b ≠ .gt) ∧
    lines.length = min maxEntries (filesIn 0 root).length ∧
    (∀ shown ∈ lines, ∃ dirs, root.At dirs shown ∧ dirs.length ≤ maxDepth ∧
      ∀ n ∈ dirs, skipped n = false) ∧
    ((filesIn 0 root).length ≤ maxEntries →
      (∀ dirs shown, root.At dirs shown → dirs.length ≤ maxDepth →
        (∀ n ∈ dirs, skipped n = false) → shown ∈ lines) ∧
      ∀ root', root.Rearranged root' → projectTree root' = projectTree root) := by
  have hwalk : ∀ root, walk 0 root [] = (filesIn 0 root).take maxEntries := fun root =>
    walk_eq root 0 (Nat.zero_le _)
  refine ⟨_, rfl, Sorted.pairwise_byKey id _, ?_, ?_, fun hfew => ⟨?_, ?_⟩⟩
  · rw [Sorted.length_byKey, hwalk, List.length_take]
  · intro shown hshown
    rw [Sorted.mem_byKey, hwalk] at hshown
    obtain ⟨dirs, hat, hlen, hdirs⟩ := mem_filesIn_iff.mp (List.mem_of_mem_take hshown)
    exact ⟨dirs, hat, by omega, hdirs⟩
  · intro dirs shown hat hlen hdirs
    rw [Sorted.mem_byKey, hwalk, List.take_of_length_le hfew]
    exact mem_filesIn_iff.mpr ⟨dirs, hat, by omega, hdirs⟩
  · intro root' hroot
    have hperm := hroot.perm 0
    have hlen := hperm.length_eq
    have hsame : Sorted.byKey id (filesIn 0 root) = Sorted.byKey id (filesIn 0 root') :=
      Sorted.byKey_congr hperm fun _ _ _ _ h => h
    unfold projectTree
    rw [hwalk, hwalk, List.take_of_length_le hfew, List.take_of_length_le (by omega), hsame]

end SimpleCoder.ProjectTree

/-
# A line editor over characters

What an input field is for, with no word about how a text is stored: a list of characters of some
type with a cursor between two of them.  One character, `nl`, ends a line.

`lineStart` and `lineEnd` say where the line of a position begins and ends: at the ends of the text,
or next to an `nl` (`nl_before_lineStart`, `nl_at_lineEnd`) with none in between.  `Editor.step`
says what each operation does.
-/
import Mathlib.Data.List.DropRight
import Mathlib.Data.List.TakeWhile
import Mathlib.Tactic.Common

namespace Editor

variable {α : Type} [DecidableEq α]

/-! ## 1. Lines -/

section

variable (nl : α)

/-- Where the line of a position begins: behind the last `nl` before it. -/
def lineStart (text : List α) (pos : Nat) : Nat :=
  ((text.take pos).rdropWhile (· ≠ nl)).length

/-- Where the line of a position ends: at the first `nl` from there on. -/
def lineEnd (text : List α) (pos : Nat) : Nat :=
  pos + ((text.drop pos).takeWhile (· ≠ nl)).length

theorem lineStart_le (text : List α) (pos : Nat) : lineStart nl text pos ≤ pos := by
  have h := (List.rdropWhile_prefix (fun c => decide (c ≠ nl)) (text.take pos)).length_le
  rw [List.length_take] at h
  exact h.trans (Nat.min_le_left _ _)

theorem le_lineEnd (text : List α) (pos : Nat) : pos ≤ lineEnd nl text pos := Nat.le_add_right _ _

theorem lineEnd_le {text : List α} {pos : Nat} (h : pos ≤ text.length) :
    lineEnd nl text pos ≤ text.length := by
  have hlen := (List.takeWhile_sublist (fun c => decide (c ≠ nl)) (l := text.drop pos)).length_le
  rw [List.length_drop] at hlen
  unfold lineEnd
  omega

/-- A line that is not the first begins behind an `nl`. -/
theorem nl_before_lineStart {text : List α} {pos : Nat} (h : lineStart nl text pos ≠ 0) :
    text[lineStart nl text pos - 1]? = some nl := by
  unfold lineStart at h ⊢
  have hne : (text.take pos).rdropWhile (· ≠ nl) ≠ [] := fun hnil => h (by rw [hnil]; rfl)
  have hlast := List.rdropWhile_last_not _ _ hne
  have hpre : (text.take pos).rdropWhile (· ≠ nl) <+: text :=
    (List.rdropWhile_prefix _ _).trans (List.take_prefix _ _)
  have hnl : ((text.take pos).rdropWhile (· ≠ nl)).getLast hne = nl := by simpa using hlast
  rw [List.prefix_iff_getElem?.mp hpre _ (by omega), ← List.getLast_eq_getElem hne, hnl]

/-- A line that is not the last ends at an `nl`. -/
theorem nl_at_lineEnd {text : List α} {pos : Nat} (hpos : pos ≤ text.length)
    (h : lineEnd nl text pos ≠ text.length) : text[lineEnd nl text pos]? = some nl := by
  unfold lineEnd at h ⊢
  have hsplit := List.takeWhile_append_dropWhile (p := fun c => decide (c ≠ nl))
    (l := text.drop pos)
  rw [← List.getElem?_drop]
  cases hdrop : (text.drop pos).dropWhile (fun c => decide (c ≠ nl)) with
  | nil =>
    rw [hdrop, List.append_nil] at hsplit
    rw [hsplit, List.length_drop] at h
    omega
  | cons c rest =>
    have hc : c = nl := by
      have hhead := List.head?_dropWhile_not (fun c => decide (c ≠ nl)) (text.drop pos)
      rw [hdrop] at hhead
      simpa using hhead
    rw [hdrop, hc] at hsplit
    calc (text.drop pos)[((text.drop pos).takeWhile fun c => decide (c ≠ nl)).length]?
        = ((text.drop pos).takeWhile (fun c => decide (c ≠ nl)) ++ nl :: rest)[
            ((text.drop pos).takeWhile fun c => decide (c ≠ nl)).length]? := by rw [hsplit]
      _ = some nl := by
        rw [List.getElem?_append_right (Nat.le_refl _), Nat.sub_self]
        rfl

end

end Editor

/-- A text and a position in it. -/
structure Editor (α : Type) where
  text : List α := []
  cursor : Nat := 0
  inside : cursor ≤ text.length := by exact Nat.le_refl 0

namespace Editor

variable {α : Type}

/-! ## 2. The operations -/

/-- Put the cursor at a position of the text. -/
def moveTo (e : Editor α) (pos : Nat) (h : pos ≤ e.text.length) : Editor α := ⟨e.text, pos, h⟩

theorem insert_inside (e : Editor α) (s : List α) :
    e.cursor + s.length ≤ (e.text.take e.cursor ++ s ++ e.text.drop e.cursor).length := by
  have := e.inside
  simp only [List.length_append, List.length_take, List.length_drop]
  omega

/-- Insert at the cursor, and go behind. -/
def insert (e : Editor α) (s : List α) : Editor α :=
  ⟨e.text.take e.cursor ++ s ++ e.text.drop e.cursor, e.cursor + s.length, e.insert_inside s⟩

theorem backspace_inside (e : Editor α) :
    e.cursor - 1 ≤ (e.text.take (e.cursor - 1) ++ e.text.drop e.cursor).length := by
  have := e.inside
  simp only [List.length_append, List.length_take, List.length_drop]
  omega

/-- Delete the character before the cursor, if there is one. -/
def backspace (e : Editor α) : Editor α :=
  ⟨e.text.take (e.cursor - 1) ++ e.text.drop e.cursor, e.cursor - 1, e.backspace_inside⟩

theorem delete_inside (e : Editor α) :
    e.cursor ≤ (e.text.take e.cursor ++ e.text.drop (e.cursor + 1)).length := by
  have := e.inside
  simp only [List.length_append, List.length_take, List.length_drop]
  omega

/-- Delete the character at the cursor, if there is one. -/
def delete (e : Editor α) : Editor α :=
  ⟨e.text.take e.cursor ++ e.text.drop (e.cursor + 1), e.cursor, e.delete_inside⟩

def left (e : Editor α) : Editor α := e.moveTo (e.cursor - 1) ((Nat.sub_le _ _).trans e.inside)

def right (e : Editor α) : Editor α :=
  e.moveTo (min (e.cursor + 1) e.text.length) (Nat.min_le_right _ _)

section

variable [DecidableEq α] (nl : α)

/-- To the start of the line. -/
def home (e : Editor α) : Editor α :=
  e.moveTo (lineStart nl e.text e.cursor) ((lineStart_le nl _ _).trans e.inside)

/-- To the end of the line. -/
def toEnd (e : Editor α) : Editor α :=
  e.moveTo (lineEnd nl e.text e.cursor) (lineEnd_le nl e.inside)

/-- How many characters of its line are before the cursor. -/
def column (e : Editor α) : Nat := e.cursor - lineStart nl e.text e.cursor

/-- The start of the line before a line start, which is not the first. -/
def upTarget (e : Editor α) : Nat :=
  let stop := lineStart nl e.text e.cursor - 1
  min (lineStart nl e.text stop + e.column nl) stop

/-- The position in the next line, for a line that is not the last. -/
def downTarget (e : Editor α) : Nat :=
  let start := lineEnd nl e.text e.cursor + 1
  min (start + e.column nl) (lineEnd nl e.text start)

theorem upTarget_le (e : Editor α) : e.upTarget nl ≤ e.text.length := by
  have h1 : e.upTarget nl ≤ lineStart nl e.text e.cursor - 1 := Nat.min_le_right _ _
  have h2 := lineStart_le nl e.text e.cursor
  have h3 := e.inside
  omega

theorem downTarget_le (e : Editor α) (h : lineEnd nl e.text e.cursor ≠ e.text.length) :
    e.downTarget nl ≤ e.text.length := by
  have hle := lineEnd_le nl e.inside
  exact (Nat.min_le_right _ _).trans (lineEnd_le nl (by omega))

/-- To the same column of the line before, or to its end if it is shorter; on the first line the
cursor stays. -/
def up (e : Editor α) : Editor α :=
  if lineStart nl e.text e.cursor = 0 then e else e.moveTo (e.upTarget nl) (e.upTarget_le nl)

/-- To the same column of the next line, or to its end if it is shorter; on the last line the cursor
stays. -/
def down (e : Editor α) : Editor α :=
  if h : lineEnd nl e.text e.cursor = e.text.length then e
  else e.moveTo (e.downTarget nl) (e.downTarget_le nl h)

end

/-- What can be done in an editor. -/
inductive Op (α : Type) where
  | insert (s : List α)
  | backspace
  | delete
  | left
  | right
  | home
  | toEnd
  | up
  | down
  | enter
  | clear
  | ignored

/-- One operation.  `enter` hands the text out. -/
def step [DecidableEq α] (nl : α) (e : Editor α) : Op α → Option (List α) × Editor α
  | .insert s => (none, e.insert s)
  | .backspace => (none, e.backspace)
  | .delete => (none, e.delete)
  | .left => (none, e.left)
  | .right => (none, e.right)
  | .home => (none, e.home nl)
  | .toEnd => (none, e.toEnd nl)
  | .up => (none, e.up nl)
  | .down => (none, e.down nl)
  | .enter => (some e.text, {})
  | .clear => (none, {})
  | .ignored => (none, e)

/-- Some operations: what is handed out, and the editor after them. -/
def run [DecidableEq α] (nl : α) : List (Op α) → Editor α → List (List α) × Editor α
  | [], e => ([], e)
  | op :: ops, e =>
    ((e.step nl op).1.toList ++ (run nl ops (e.step nl op).2).1, (run nl ops (e.step nl op).2).2)

end Editor

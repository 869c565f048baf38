/-
# The input bar

`InputBar` keeps a text as bytes and a cursor as a position among them.  §1 and §2 are its members;
§3 relates it to the line editor over characters that it is meant to be: the buffer is the encoding
of the text, and the cursor the length of the encoding of what is before it (`Shows`).  §4 shows
that every member keeps the relation, and `run_shows` that a whole run does.
-/
import SimpleCoder.Lib.Editor
import SimpleCoder.Util.Utf8

namespace SimpleCoder

/-! ## 1. Keys -/

/-! The key codes of ncurses. -/

namespace Key

def down : Int := 258
def up : Int := 259
def left : Int := 260
def right : Int := 261
def home : Int := 262
def backspace : Int := 263
def dc : Int := 330
def enter : Int := 343
def toEnd : Int := 360

end Key

/-! ## 2. The members -/

/-- `InputBar`. -/
structure InputBar where
  buffer : Bytes := []
  cursor : Nat := 0
  deriving DecidableEq

namespace InputBar

/-- `line_start`: behind the last newline before the position. -/
def lineStart (s : Bytes) : Nat → Nat
  | 0 => 0
  | pos + 1 => if s[pos]? = some newline then pos + 1 else lineStart s pos

/-- `line_end`: the first newline from the position on, or the end. -/
def lineEnd (s : Bytes) (pos : Nat) : Nat :=
  if newline ∈ s.drop pos then pos + (s.drop pos).idxOf newline else s.length

/-- The loop of `move_vertical`: over at most `col` characters, up to the end of the line. -/
def walk (s : Bytes) (targetEnd : Nat) : Nat → Nat → Nat
  | 0, p => p
  | col + 1, p => if p < targetEnd then walk s targetEnd col (Utf8.nextBoundary s p) else p

/-- The column of the cursor. -/
def column (b : InputBar) : Nat :=
  let ls := lineStart b.buffer b.cursor
  Utf8.count ((b.buffer.drop ls).take (b.cursor - ls))

/-- `move_vertical(-1)`. -/
def moveUp (b : InputBar) : InputBar :=
  let ls := lineStart b.buffer b.cursor
  if ls = 0 then b
  else { b with cursor := walk b.buffer (ls - 1) b.column (lineStart b.buffer (ls - 1)) }

/-- `move_vertical(+1)`. -/
def moveDown (b : InputBar) : InputBar :=
  let le := lineEnd b.buffer b.cursor
  if le = b.buffer.length then b
  else { b with cursor := walk b.buffer (lineEnd b.buffer (le + 1)) b.column (le + 1) }

/-- `insert_text`. -/
def insertText (b : InputBar) (s : Bytes) : InputBar :=
  ⟨b.buffer.take b.cursor ++ s ++ b.buffer.drop b.cursor, b.cursor + s.length⟩

/-- `insert_newline`. -/
def insertNewline (b : InputBar) : InputBar := b.insertText [newline]

/-- `buffer_.erase(from, to - from)`. -/
def erase (s : Bytes) (start stop : Nat) : Bytes := s.take start ++ s.drop stop

def backspace (b : InputBar) : InputBar :=
  if 0 < b.cursor then
    let p := Utf8.prevBoundary b.buffer b.cursor
    ⟨erase b.buffer p b.cursor, p⟩
  else b

def delete (b : InputBar) : InputBar :=
  if b.cursor < b.buffer.length then
    { b with buffer := erase b.buffer b.cursor (Utf8.nextBoundary b.buffer b.cursor) }
  else b

/-- `handle_key`: what Enter hands out, and the bar after the key. -/
def handleKey (b : InputBar) (ch : Int) : Option Bytes × InputBar :=
  if ch = 10 ∨ ch = 13 ∨ ch = Key.enter then (some b.buffer, {})
  else if ch = Key.backspace ∨ ch = 127 ∨ ch = 8 then (none, b.backspace)
  else if ch = Key.dc then (none, b.delete)
  else if ch = Key.left then (none, { b with cursor := Utf8.prevBoundary b.buffer b.cursor })
  else if ch = Key.right then (none, { b with cursor := Utf8.nextBoundary b.buffer b.cursor })
  else if ch = Key.home then (none, { b with cursor := lineStart b.buffer b.cursor })
  else if ch = Key.toEnd then (none, { b with cursor := lineEnd b.buffer b.cursor })
  else if ch = Key.up then (none, b.moveUp)
  else if ch = Key.down then (none, b.moveDown)
  else if 32 ≤ ch ∧ ch < 127 then (none, b.insertText [ch.toNat.toUInt8])
  else (none, b)

/-- What can be done to the bar.  Every valid text is the encoding of some characters
(`Utf8.valid_iff`). -/
inductive Op where
  | key (ch : Int)
  | insertText (cs : List Char)
  | insertNewline
  | clear

def step (b : InputBar) : Op → Option Bytes × InputBar
  | .key ch => b.handleKey ch
  | .insertText cs => (none, b.insertText (Utf8.encodeText cs))
  | .insertNewline => (none, b.insertNewline)
  | .clear => (none, {})

/-- What is handed out in the course of some operations, and the bar after them. -/
def run : List Op → InputBar → List Bytes × InputBar
  | [], b => ([], b)
  | op :: ops, b =>
    ((b.step op).1.toList ++ (run ops (b.step op).2).1, (run ops (b.step op).2).2)

/-! ## 3. The editor it is -/

/-- What an operation of the bar is meant to do. -/
def Op.meaning : Op → Editor.Op Char
  | .insertText cs => .insert cs
  | .insertNewline => .insert ['\n']
  | .clear => .clear
  | .key ch =>
    if ch = 10 ∨ ch = 13 ∨ ch = Key.enter then .enter
    else if ch = Key.backspace ∨ ch = 127 ∨ ch = 8 then .backspace
    else if ch = Key.dc then .delete
    else if ch = Key.left then .left
    else if ch = Key.right then .right
    else if ch = Key.home then .home
    else if ch = Key.toEnd then .toEnd
    else if ch = Key.up then .up
    else if ch = Key.down then .down
    else if 32 ≤ ch ∧ ch < 127 then .insert [Char.ofNat ch.toNat]
    else .ignored

/-- The bar shows what the editor holds. -/
structure Shows (b : InputBar) (e : Editor Char) : Prop where
  buffer : b.buffer = Utf8.encodeText e.text
  cursor : b.cursor = (Utf8.encodeText (e.text.take e.cursor)).length

/-! ## 4. Lines of encoded text -/

section

open Utf8

variable {cs : List Char} {pos stop : Nat}

/-- Going back over bytes that are no newline. -/
theorem lineStart_add {s : Bytes} :
    ∀ n, (∀ i < n, s[pos + i]? ≠ some newline) → lineStart s (pos + n) = lineStart s pos
  | 0, _ => rfl
  | n + 1, h => by
    rw [← Nat.add_assoc, lineStart, if_neg (h n (Nat.lt_succ_self n))]
    exact lineStart_add n fun i hi => h i (Nat.lt_succ_of_lt hi)

/-- **`line_start` finds the start of the line.** -/
theorem lineStart_offset : ∀ {pos : Nat}, pos ≤ cs.length →
    lineStart (encodeText cs) (offset cs pos) = offset cs (Editor.lineStart '\n' cs pos)
  | 0, _ => rfl
  | pos + 1, h => by
    have hlt : pos < cs.length := h
    have hdrop : cs.drop pos = cs[pos] :: cs.drop (pos + 1) := (List.getElem_cons_drop hlt).symm
    unfold Editor.lineStart
    rw [List.take_succ_eq_append_getElem hlt, offset_succ hlt]
    by_cases hc : cs[pos] = '\n'
    · rw [List.rdropWhile_concat_neg _ _ _ (by simp [hc]), List.length_append, List.length_take,
        Nat.min_eq_left (Nat.le_of_lt hlt)]
      have hnl : encode cs[pos].val = [newline] := by rw [hc]; decide
      have hat : (encodeText cs)[offset cs pos]? = some newline := by
        have h := getElem?_offset_add cs pos 0
        rw [hdrop, encodeText_cons, hnl] at h
        exact h
      rw [hnl]
      change lineStart _ (offset cs pos + 1) = offset cs (pos + 1)
      rw [lineStart, if_pos hat, offset_succ hlt, hnl]
      rfl
    · rw [List.rdropWhile_concat_pos _ _ _ (by simp [hc])]
      rw [lineStart_add _ fun i hi => ?_]
      · exact lineStart_offset (Nat.le_of_lt hlt)
      · rw [getElem?_offset_add, hdrop, encodeText_cons, List.getElem?_append_left hi]
        intro hnl
        exact hc ((newline_mem_encode_iff _).mp (List.mem_of_getElem? hnl))

theorem newline_mem_encodeText_iff : newline ∈ encodeText cs ↔ '\n' ∈ cs := by
  unfold encodeText
  simp [newline_mem_encode_iff]

theorem idxOf_newline (h : '\n' ∈ cs) : (encodeText cs).idxOf newline =
    (encodeText (cs.takeWhile (· ≠ '\n'))).length := by
  induction cs with
  | nil => simp at h
  | cons c cs ih =>
    by_cases hc : c = '\n'
    · rw [hc, List.takeWhile_cons_of_neg (by simp)]
      rfl
    · rw [List.takeWhile_cons_of_pos (by simp [hc]), encodeText_cons, encodeText_cons,
        List.length_append, List.idxOf_append_of_notMem (by rwa [newline_mem_encode_iff]),
        ih ((List.mem_cons.mp h).resolve_left (Ne.symm hc))]

/-- **`line_end` finds the end of the line.** -/
theorem lineEnd_offset (h : pos ≤ cs.length) :
    lineEnd (encodeText cs) (offset cs pos) = offset cs (Editor.lineEnd '\n' cs pos) := by
  unfold lineEnd Editor.lineEnd
  rw [drop_offset]
  simp only [newline_mem_encodeText_iff]
  split
  · rename_i hmem
    have htake : (cs.drop pos).take ((cs.drop pos).takeWhile (· ≠ '\n')).length =
        (cs.drop pos).takeWhile (· ≠ '\n') :=
      (List.prefix_iff_eq_take.mp (List.takeWhile_prefix _)).symm
    rw [idxOf_newline hmem]
    unfold offset
    rw [List.take_add, htake, encodeText_append, List.length_append]
  · rename_i hmem
    have hall : (cs.drop pos).takeWhile (· ≠ '\n') = cs.drop pos :=
      List.takeWhile_eq_self_iff.mpr fun c hc => by
        rw [decide_eq_true_eq]
        rintro rfl
        exact hmem hc
    rw [hall, List.length_drop, offset_of_length_le (by omega)]

/-- **The loop of `move_vertical`**: over `col` characters, or to the end. -/
theorem walk_offset (hstop : stop ≤ cs.length) : ∀ (col : Nat) {pos : Nat}, pos ≤ stop →
    walk (encodeText cs) (offset cs stop) col (offset cs pos) = offset cs (min (pos + col) stop)
  | 0, pos, h => by rw [walk, Nat.add_zero, Nat.min_eq_left h]
  | col + 1, pos, h => by
    unfold walk
    rcases Nat.lt_or_eq_of_le h with hlt | rfl
    · rw [if_pos (offset_lt hlt hstop), nextBoundary_offset (by omega),
        Nat.min_eq_left (by omega), walk_offset hstop col hlt, Nat.succ_add, Nat.add_succ]
    · rw [if_neg (Nat.lt_irrefl _), Nat.min_eq_right (by omega)]

end

/-! ## 5. What the members do -/

section

open Utf8

variable {b : InputBar} {e : Editor Char}

theorem Shows.cursor_eq (h : Shows b e) : b.cursor = offset e.text e.cursor := h.cursor

theorem shows_empty : Shows {} {} := ⟨rfl, rfl⟩

/-- Moving the cursor to a position. -/
theorem Shows.moveTo (h : Shows b e) {pos : Nat} (hpos : pos ≤ e.text.length) {cursor : Nat}
    (hcursor : cursor = offset e.text pos) :
    Shows { b with cursor := cursor } (e.moveTo pos hpos) :=
  ⟨h.buffer, hcursor⟩

theorem Shows.insertText (h : Shows b e) (cs : List Char) :
    Shows (b.insertText (encodeText cs)) (e.insert cs) := by
  constructor
  · unfold InputBar.insertText Editor.insert
    rw [h.buffer, h.cursor_eq, take_offset, drop_offset]
    simp only [encodeText_append]
  · have htake : (e.text.take e.cursor ++ cs ++ e.text.drop e.cursor).take (e.cursor + cs.length) =
        e.text.take e.cursor ++ cs :=
      List.take_left' (by rw [List.length_append, List.length_take_of_le e.inside])
    unfold InputBar.insertText Editor.insert
    dsimp only
    rw [htake, encodeText_append, List.length_append, h.cursor]

/-- Deleting what is between two positions. -/
theorem Shows.erase (h : Shows b e) {start stop : Nat} (hle : start ≤ e.text.length)
    {inside : start ≤ (e.text.take start ++ e.text.drop stop).length} :
    Shows ⟨erase b.buffer (offset e.text start) (offset e.text stop), offset e.text start⟩
      ⟨e.text.take start ++ e.text.drop stop, start, inside⟩ := by
  constructor
  · unfold InputBar.erase
    dsimp only
    rw [h.buffer, take_offset, drop_offset, encodeText_append]
  · dsimp only
    rw [List.take_left' (List.length_take_of_le hle), offset]

theorem Shows.backspace (h : Shows b e) : Shows b.backspace e.backspace := by
  unfold InputBar.backspace
  rcases Nat.eq_zero_or_pos e.cursor with hzero | hpos
  · have hcursor : b.cursor = 0 := by rw [h.cursor_eq, hzero, offset_zero]
    rw [if_neg (by omega)]
    exact ⟨by simp [Editor.backspace, hzero, h.buffer], by simp [Editor.backspace, hzero, hcursor]⟩
  · have hcursor : 0 < b.cursor := by
      rw [h.cursor_eq]
      exact offset_lt hpos e.inside
    rw [if_pos hcursor]
    have hprev : prevBoundary b.buffer b.cursor = offset e.text (e.cursor - 1) := by
      rw [h.buffer, h.cursor_eq, prevBoundary_offset e.inside]
    rw [hprev, h.cursor_eq]
    exact h.erase ((Nat.sub_le _ _).trans e.inside)

theorem Shows.cursor_lt_iff (h : Shows b e) :
    b.cursor < b.buffer.length ↔ e.cursor < e.text.length := by
  rw [h.cursor_eq, h.buffer, ← offset_of_length_le (Nat.le_refl e.text.length)]
  refine ⟨fun hlt => ?_, fun hlt => offset_lt hlt (Nat.le_refl _)⟩
  by_contra hge
  have hmono : offset e.text e.text.length ≤ offset e.text e.cursor :=
    offset_mono (Nat.le_of_not_lt hge)
  omega

theorem Shows.delete (h : Shows b e) : Shows b.delete e.delete := by
  unfold InputBar.delete
  by_cases hlt : e.cursor < e.text.length
  · rw [if_pos (h.cursor_lt_iff.mpr hlt)]
    have hnext : nextBoundary b.buffer b.cursor = offset e.text (e.cursor + 1) := by
      rw [h.buffer, h.cursor_eq, nextBoundary_offset e.inside, Nat.min_eq_left hlt]
    rw [hnext, h.cursor_eq]
    exact h.erase e.inside
  · rw [if_neg (mt h.cursor_lt_iff.mp hlt)]
    have htext : e.text.take e.cursor ++ e.text.drop (e.cursor + 1) = e.text := by
      rw [List.take_of_length_le (Nat.le_of_not_lt hlt), List.drop_of_length_le (by omega),
        List.append_nil]
    exact ⟨by rw [h.buffer]; exact congrArg encodeText htext.symm,
      by rw [h.cursor]; exact congrArg (fun t => offset t e.cursor) htext.symm⟩

theorem Shows.left (h : Shows b e) :
    Shows { b with cursor := prevBoundary b.buffer b.cursor } e.left :=
  h.moveTo _ (by rw [h.buffer, h.cursor_eq, prevBoundary_offset e.inside])

theorem Shows.right (h : Shows b e) :
    Shows { b with cursor := nextBoundary b.buffer b.cursor } e.right :=
  h.moveTo _ (by rw [h.buffer, h.cursor_eq, nextBoundary_offset e.inside])

theorem Shows.lineStart_eq (h : Shows b e) : lineStart b.buffer b.cursor =
    offset e.text (Editor.lineStart '\n' e.text e.cursor) := by
  rw [h.buffer, h.cursor_eq, lineStart_offset e.inside]

theorem Shows.lineEnd_eq (h : Shows b e) : lineEnd b.buffer b.cursor =
    offset e.text (Editor.lineEnd '\n' e.text e.cursor) := by
  rw [h.buffer, h.cursor_eq, lineEnd_offset e.inside]

theorem Shows.home (h : Shows b e) :
    Shows { b with cursor := lineStart b.buffer b.cursor } (e.home '\n') :=
  h.moveTo _ h.lineStart_eq

theorem Shows.toEnd (h : Shows b e) :
    Shows { b with cursor := lineEnd b.buffer b.cursor } (e.toEnd '\n') :=
  h.moveTo _ h.lineEnd_eq

theorem Shows.column_eq (h : Shows b e) : b.column = e.column '\n' := by
  unfold InputBar.column Editor.column
  rw [h.lineStart_eq, h.buffer, h.cursor_eq]
  exact count_offset (Editor.lineStart_le _ _ _) e.inside

/-- A newline is one byte. -/
theorem offset_newline {cs : List Char} {pos : Nat} (h : cs[pos]? = some '\n') :
    offset cs (pos + 1) = offset cs pos + 1 := by
  obtain ⟨hlt, hnl⟩ := List.getElem?_eq_some_iff.mp h
  rw [offset_succ hlt, hnl]
  rfl

theorem Shows.up (h : Shows b e) : Shows b.moveUp (e.up '\n') := by
  have hstart := Editor.lineStart_le '\n' e.text e.cursor
  have hinside := e.inside
  unfold InputBar.moveUp Editor.up
  rw [h.lineStart_eq, h.column_eq]
  by_cases hfirst : Editor.lineStart '\n' e.text e.cursor = 0
  · rw [if_pos hfirst, hfirst, offset_zero, if_pos rfl]
    exact h
  · have hne : offset e.text (Editor.lineStart '\n' e.text e.cursor) ≠ 0 := fun hzero =>
      hfirst ((offset_inj (by omega) (Nat.zero_le _)).mp hzero)
    rw [if_neg hfirst, if_neg hne]
    refine h.moveTo (e.upTarget_le '\n') ?_
    have hnl := offset_newline (Editor.nl_before_lineStart '\n' hfirst)
    rw [Nat.sub_add_cancel (Nat.pos_of_ne_zero hfirst)] at hnl
    rw [hnl, Nat.add_sub_cancel, h.buffer, lineStart_offset (by omega),
      walk_offset (by omega) _ (Editor.lineStart_le _ _ _)]
    rfl

theorem Shows.down (h : Shows b e) : Shows b.moveDown (e.down '\n') := by
  have hend := Editor.lineEnd_le '\n' e.inside
  unfold InputBar.moveDown Editor.down
  rw [h.lineEnd_eq, h.column_eq]
  have hlength : b.buffer.length = offset e.text e.text.length := by
    rw [h.buffer, offset_of_length_le (Nat.le_refl _)]
  by_cases hlast : Editor.lineEnd '\n' e.text e.cursor = e.text.length
  · rw [dif_pos hlast, hlast, hlength, if_pos rfl]
    exact h
  · have hne : offset e.text (Editor.lineEnd '\n' e.text e.cursor) ≠ b.buffer.length := by
      rw [hlength]
      exact fun heq => hlast ((offset_inj hend (Nat.le_refl _)).mp heq)
    rw [dif_neg hlast, if_neg hne]
    refine h.moveTo (e.downTarget_le '\n' hlast) ?_
    have hnl := offset_newline (Editor.nl_at_lineEnd '\n' e.inside hlast)
    have hnext : Editor.lineEnd '\n' e.text e.cursor + 1 ≤ e.text.length := by omega
    rw [← hnl, h.buffer, lineEnd_offset hnext,
      walk_offset (Editor.lineEnd_le _ hnext) _ (Editor.le_lineEnd _ _ _)]
    rfl

/-! ## 6. Runs -/

/-- What is handed out, as text. -/
def encoded (out : Option (List Char)) : Option Bytes := out.map encodeText

/-- The bar has done what the operation does in the editor: `r` is what it handed out and what it is
after that. -/
def Does (e : Editor Char) (r : Option Bytes × InputBar) (op : Editor.Op Char) : Prop :=
  r.1 = encoded (e.step '\n' op).1 ∧ Shows r.2 (e.step '\n' op).2

theorem Does.ite {p : Prop} [Decidable p] {r r' : Option Bytes × InputBar}
    {op op' : Editor.Op Char} (h : p → Does e r op) (h' : ¬ p → Does e r' op') :
    Does e (if p then r else r') (if p then op else op') := by
  by_cases hp : p
  · rw [if_pos hp, if_pos hp]
    exact h hp
  · rw [if_neg hp, if_neg hp]
    exact h' hp

/-- **One operation** does what it is meant to. -/
theorem Shows.step (h : Shows b e) (op : Op) : Does e (b.step op) op.meaning := by
  cases op with
  | insertText cs => exact ⟨rfl, h.insertText cs⟩
  | insertNewline => exact ⟨rfl, h.insertText ['\n']⟩
  | clear => exact ⟨rfl, shows_empty⟩
  | key ch =>
    refine Does.ite (fun _ => ⟨congrArg some h.buffer, shows_empty⟩) fun _ => ?_
    refine Does.ite (fun _ => ⟨rfl, h.backspace⟩) fun _ => ?_
    refine Does.ite (fun _ => ⟨rfl, h.delete⟩) fun _ => ?_
    refine Does.ite (fun _ => ⟨rfl, h.left⟩) fun _ => ?_
    refine Does.ite (fun _ => ⟨rfl, h.right⟩) fun _ => ?_
    refine Does.ite (fun _ => ⟨rfl, h.home⟩) fun _ => ?_
    refine Does.ite (fun _ => ⟨rfl, h.toEnd⟩) fun _ => ?_
    refine Does.ite (fun _ => ⟨rfl, h.up⟩) fun _ => ?_
    refine Does.ite (fun _ => ⟨rfl, h.down⟩) fun _ => ?_
    refine Does.ite (fun hprintable => ⟨rfl, ?_⟩) fun _ => ⟨rfl, h⟩
    have hinsert := h.insertText [Char.ofNat ch.toNat]
    rw [encodeText_ascii (by omega)] at hinsert
    exact hinsert

end

/-- A run from a bar that shows an editor. -/
theorem Shows.run : ∀ (ops : List Op) {b : InputBar} {e : Editor Char}, Shows b e →
    (InputBar.run ops b).1 = (Editor.run '\n' (ops.map Op.meaning) e).1.map Utf8.encodeText ∧
      Shows (InputBar.run ops b).2 (Editor.run '\n' (ops.map Op.meaning) e).2
  | [], _, _, h => ⟨rfl, h⟩
  | op :: ops, b, e, h => by
    obtain ⟨hout, hshows⟩ := h.step op
    obtain ⟨houts, hend⟩ := Shows.run ops hshows
    refine ⟨?_, hend⟩
    rw [InputBar.run, List.map_cons, Editor.run, List.map_append, ← houts, hout]
    cases (e.step '\n' op.meaning).1 <;> rfl

/-- **The bar refines the editor.**  Over every run from the empty bar it hands out the texts that
the editor hands out, and shows what the editor holds.  So its buffer is always valid UTF-8, and the
cursor is inside it, between two characters. -/
theorem run_shows (ops : List Op) :
    (run ops {}).1 = (Editor.run '\n' (ops.map Op.meaning) {}).1.map Utf8.encodeText ∧
      Shows (run ops {}).2 (Editor.run '\n' (ops.map Op.meaning) {}).2 ∧
      Utf8 (run ops {}).2.buffer ∧
      (run ops {}).2.cursor ≤ (run ops {}).2.buffer.length ∧
      Utf8 ((run ops {}).2.buffer.take (run ops {}).2.cursor) ∧
      Utf8 ((run ops {}).2.buffer.drop (run ops {}).2.cursor) := by
  obtain ⟨houts, hshows⟩ := Shows.run ops shows_empty
  refine ⟨houts, hshows, ?_⟩
  rw [hshows.cursor_eq, hshows.buffer, Utf8.take_offset, Utf8.drop_offset]
  refine ⟨Utf8.valid_iff.mpr ⟨_, rfl⟩, ?_, Utf8.valid_iff.mpr ⟨_, rfl⟩,
    Utf8.valid_iff.mpr ⟨_, rfl⟩⟩
  rw [← Utf8.offset_of_length_le (Nat.le_refl _)]
  exact Utf8.offset_mono (Editor.inside _)

end InputBar

end SimpleCoder

/-
# Drawing the input box

The box has as many rows as the text, but no more than six.  `render` scrolls the rows so that the
row of the cursor is in the window, and hands each of them to `mvwaddnstr` with its own length.

* §1: the functions.
* §2: the row of the cursor is drawn whole, and so are all rows where six are enough
  (`render_inputRows`).
-/
import SimpleCoder.Ui.InputLayout

namespace SimpleCoder

namespace InputBar

/-! ## 1. The functions -/

/-- `visual_line_count`. -/
def visualLineCount (b : InputBar) (width promptCols : Int) : Int :=
  (b.wrapLayout width promptCols).rows.length

/-- The height of the window that `rebuild_windows` makes: `std::clamp` of the number of rows. -/
def inputRows (b : InputBar) (width promptCols : Int) : Int :=
  max 1 (min (b.visualLineCount width promptCols) 6)

/-- A call of `mvwaddnstr`. -/
structure Draw where
  row : Int
  col : Int
  text : Bytes
  n : Int

/-- The first row that is drawn. -/
def WrapLayout.firstRow (wl : WrapLayout) (height : Int) : Int :=
  if height < wl.rows.length ∧ height ≤ wl.cursorRow then wl.cursorRow - height + 1 else 0

/-- The calls for the row of the window; the prompt is in front of the first row of the text. -/
def drawRow (prompt : Bytes) (first : Int) (row : Nat) (line : Bytes) : List Draw :=
  if first + row = 0 then
    [⟨row, 0, prompt, prompt.length⟩, ⟨row, Utf8.count prompt, line, line.length⟩]
  else [⟨row, 0, line, line.length⟩]

/-- `render`: what is drawn, and where the cursor is moved to. -/
def render (b : InputBar) (height width : Int) (prompt : Bytes) :
    List Draw × Option (Int × Int) :=
  if height ≤ 0 ∨ width ≤ 0 then ([], none)
  else
    let wl := b.wrapLayout width (Utf8.count prompt)
    let first := wl.firstRow height
    let row := wl.cursorRow - first
    ((((wl.rows.drop first.toNat).take height.toNat).mapIdx (drawRow prompt first)).flatten,
      if 0 ≤ row ∧ row < height then some (row, min wl.cursorCol (width - 1)) else none)

/-! ## 2. What is drawn -/

variable {b : InputBar} {height width : Int} {prompt line : Bytes}

/-- The row of the text is drawn, whole, on the row of the window. -/
def Drawn (b : InputBar) (height width : Int) (prompt : Bytes) (i row : Nat) : Prop :=
  ∃ line, (b.wrapLayout width (Utf8.count prompt)).rows[i]? = some line ∧
    (⟨row, if i = 0 then Utf8.count prompt else 0, line, line.length⟩ : Draw) ∈
      (b.render height width prompt).1

/-- **The rows that are drawn** are those from the first one on that there is room for. -/
theorem drawn_of_lt (hheight : 1 ≤ height) (hwidth : 1 ≤ width) {row : Nat}
    (hrow : (row : Int) < height)
    (hlt : ((b.wrapLayout width (Utf8.count prompt)).firstRow height).toNat + row <
      (b.wrapLayout width (Utf8.count prompt)).rows.length) :
    b.Drawn height width prompt
      (((b.wrapLayout width (Utf8.count prompt)).firstRow height).toNat + row) row := by
  have hfirst : 0 ≤ (b.wrapLayout width (Utf8.count prompt)).firstRow height := by
    unfold WrapLayout.firstRow
    split <;> omega
  refine ⟨_, List.getElem?_eq_getElem hlt, ?_⟩
  unfold render
  rw [if_neg (by omega)]
  dsimp only
  refine List.mem_flatten.mpr ⟨_, List.mem_mapIdx.mpr ⟨row, ?_, rfl⟩, ?_⟩
  · rw [List.length_take, List.length_drop]
    omega
  · rw [List.getElem_take, List.getElem_drop]
    unfold drawRow
    split
    · rename_i hzero
      rw [if_pos (by omega)]
      simp
    · rename_i hzero
      rw [if_neg (by omega)]
      simp

/-- The row of the cursor is one of them. -/
theorem firstRow_le {wl : WrapLayout} (hheight : 1 ≤ height) (hlt : wl.cursorRow < wl.rows.length) :
    0 ≤ wl.firstRow height ∧ wl.firstRow height ≤ wl.cursorRow ∧
      wl.cursorRow - wl.firstRow height < height := by
  unfold WrapLayout.firstRow
  split <;> omega

/-- The rows of the text are the text, but for its newlines. -/
theorem LaidOut.flatten_rows {promptCols : Int} {lines : List (List Bytes)}
    (h : LaidOut b width promptCols lines) :
    (b.wrapLayout width promptCols).rows.flatten = b.buffer.filter (· ≠ newline) := by
  have hnone : ∀ l ∈ lines.map List.flatten, newline ∉ l := by
    rw [h.split]
    exact fun l hl => Fill.notMem_of_mem_splitOn hl
  rw [h.rows, List.flatten_flatten, ← Fill.filter_intercalate hnone, h.joined]

/-- **The cursor is in the window**, on the row of the text that it is on, and this row is drawn
whole.  In a window of the height that `rebuild_windows` gives it, so are all rows if there are no
more than six, and they are the text. -/
theorem render_inputRows (ops : List Op) (hheight : 1 ≤ height)
    (hwidth : Utf8.count prompt + 2 ≤ width) :
    let b := (run ops {}).2
    let wl := b.wrapLayout width (Utf8.count prompt)
    (∃ row : Nat, row < height ∧
      (b.render height width prompt).2 = some ((row : Int), wl.cursorCol) ∧
      0 ≤ wl.cursorCol ∧ wl.cursorCol ≤ width - 1 ∧
      b.Drawn height width prompt wl.cursorRow row) ∧
    (b.visualLineCount width (Utf8.count prompt) ≤ 6 → ∀ i < wl.rows.length,
      b.Drawn (b.inputRows width (Utf8.count prompt)) width prompt i i) ∧
    wl.rows.flatten = b.buffer.filter (· ≠ newline) := by
  intro b wl
  obtain ⟨hvalid, hcursor⟩ := position_run ops
  have hlaid := @laidOut b width (Utf8.count prompt) hvalid hcursor (by omega) hwidth
  have hlt : wl.cursorRow < wl.rows.length := hlaid.cursorRow_lt.trans_eq (by rw [← hlaid.rows])
  have hwl : b.wrapLayout width (Utf8.count prompt) = wl := rfl
  refine ⟨?_, fun hfew i hi => ?_, hlaid.flatten_rows⟩
  · obtain ⟨hnonneg, hle, hroom⟩ := firstRow_le hheight hlt
    obtain ⟨row, hrow⟩ := Int.eq_ofNat_of_zero_le (Int.sub_nonneg_of_le hle)
    have hcursorRow : (wl.firstRow height).toNat + row = wl.cursorRow := by omega
    refine ⟨row, by omega, ?_, hlaid.cursorCol_nonneg, hlaid.cursorCol_le, ?_⟩
    · unfold render
      rw [if_neg (by omega), hwl]
      dsimp only
      rw [hrow, if_pos ⟨by omega, by omega⟩, min_eq_left hlaid.cursorCol_le]
    · have hdrawn := @drawn_of_lt b height width prompt hheight (by omega) row (by omega)
        (by rw [hwl, hcursorRow]; exact hlt)
      rwa [hwl, hcursorRow] at hdrawn
  · have hall : b.inputRows width (Utf8.count prompt) = wl.rows.length := by
      have hcount : b.visualLineCount width (Utf8.count prompt) = wl.rows.length := rfl
      unfold inputRows
      rw [hcount] at hfew ⊢
      omega
    have hfirst : wl.firstRow wl.rows.length = 0 := by
      unfold WrapLayout.firstRow
      rw [if_neg (by omega)]
    rw [hall]
    have hdrawn := @drawn_of_lt b wl.rows.length width prompt (by omega) (by omega) i (by omega)
      (by rw [hwl, hfirst]; simpa using hi)
    rwa [hwl, hfirst, Int.toNat_zero, Nat.zero_add] at hdrawn

/-- A window of one row, in which the second row of the text is shown. -/
theorem render_inputRows_scrolled :
    let b := (run [.insertText ['c', 'a', 'f', 'é', 's']] {}).2
    (b.render 1 6 (bytes "> ")).2 = some (0, 2) ∧ b.Drawn 1 6 (bytes "> ") 1 0 := by
  intro b
  obtain ⟨⟨row, hrow, hcursor, -, -, hdrawn⟩, -⟩ := @render_inputRows 1 6 (bytes "> ")
    [.insertText ['c', 'a', 'f', 'é', 's']] (by decide) (by decide +kernel)
  have hzero : row = 0 := by omega
  have hlayout : (b.wrapLayout 6 (Utf8.count (bytes "> "))).cursorCol = 2 ∧
      (b.wrapLayout 6 (Utf8.count (bytes "> "))).cursorRow = 1 := by
    decide +kernel
  rw [hzero, hlayout.1] at hcursor
  rw [hzero, hlayout.2] at hdrawn
  exact ⟨hcursor, hdrawn⟩

end InputBar

end SimpleCoder

/-
# Drawing the chat view

`render` draws the visible lines of the layout with `mvwaddnstr`, which is given the width of the
window as the most bytes to take from a line.  The layout has counted characters.  So a line that
fits the window is drawn whole exactly if it has as many free columns as continuation bytes
(`drawsWhole_iff`).
-/
import SimpleCoder.Ui.Layout

namespace SimpleCoder

namespace ChatView

open TextWrap (wrapText)

/-! ## 1. The functions -/

/-- The number of display lines. -/
def total (v : ChatView) (width : Int) : Int := (v.layoutStyled width).length

/-- The view after its scroll offset has been clamped to the content. -/
def clampScroll (v : ChatView) (width viewportRows : Int) : ChatView :=
  let maxOffset := max 0 (v.total width - viewportRows)
  { v with scrollFromBottom := max 0 (min v.scrollFromBottom maxOffset) }

/-- `first_visible_line`, after the offset has been clamped. -/
def firstVisibleLine (v : ChatView) (width viewportRows : Int) : Int :=
  max 0 (v.total width - viewportRows - (v.clampScroll width viewportRows).scrollFromBottom)

/-- A call of `mvwaddnstr`, at the start of a row. -/
structure Draw where
  row : Nat
  text : Bytes
  style : Style
  n : Int

/-- `render`: what is drawn in a window of this size. -/
def render (v : ChatView) (height width : Int) : List Draw :=
  if height ≤ 0 ∨ width ≤ 0 then []
  else
    (((v.layoutStyled width).drop (v.firstVisibleLine width height).toNat).take
      height.toNat).mapIdx fun row line => ⟨row, line.text, line.style, width⟩

/-! ## 2. Lines are drawn whole -/

/-- The line is shown on this row of the window. -/
def Visible (v : ChatView) (height width : Int) (row : Nat) (line : DisplayLine) : Prop :=
  row < height.toNat ∧
    (v.layoutStyled width)[(v.firstVisibleLine width height).toNat + row]? = some line

section

variable {v : ChatView} {e : Entry} {height width : Int} {row : Nat} {line : DisplayLine}

/-- **What is drawn on a row** is the line that is visible there. -/
theorem mem_render_iff (hheight : 1 ≤ height) (hwidth : 1 ≤ width) (d : Draw) :
    d ∈ v.render height width ↔
      ∃ line, v.Visible height width d.row line ∧ d = ⟨d.row, line.text, line.style, width⟩ := by
  unfold render Visible
  rw [if_neg (by omega)]
  constructor
  · intro hd
    obtain ⟨row, hrow, rfl⟩ := List.mem_mapIdx.mp hd
    have hlt : row < height.toNat := by
      rw [List.length_take] at hrow
      omega
    refine ⟨_, ⟨hlt, ?_⟩, rfl⟩
    rw [List.getElem_take, List.getElem_drop, List.getElem?_eq_getElem]
  · rintro ⟨line, ⟨hrow, hline⟩, hd⟩
    refine List.mem_of_getElem? (i := d.row) ?_
    rw [List.getElem?_mapIdx, List.getElem?_take_of_lt hrow, List.getElem?_drop, hline, hd]
    rfl

/-- The display lines of an entry that is valid are valid. -/
theorem valid_layout (hspeaker : Utf8 e.speaker) (htext : Utf8 e.text)
    (h : line ∈ e.layout width) : Utf8 line.text := by
  have hfolded : line ∈ e.layoutFolded width → Utf8 line.text := fun h => by
    have hlabel : Utf8 (if e.kind = .thinking then bytes "thinking" else e.speaker) := by
      split
      · exact utf8_bytes _
      · exact hspeaker
    have hlines : ∀ n : Nat, Utf8 (if n = 1 then bytes " line)" else bytes " lines)") := fun n => by
      split <;> exact utf8_bytes _
    unfold Entry.layoutFolded at h
    dsimp only at h
    split at h
    · rw [List.mem_singleton.mp h]
      exact ((((utf8_bytes _).append hlabel).append (utf8_bytes _)).append (utf8_bytes _)).append
        (hlines _)
    · rcases List.mem_cons.mp h with rfl | h
      · exact (utf8_bytes _).append hlabel
      · obtain ⟨l, hl, rfl⟩ := List.mem_map.mp h
        exact (count_le_of_mem_wrapText htext hl).1
  unfold Entry.layout at h
  split at h
  · exact hfolded h
  · exact hfolded h
  · obtain ⟨l, hl, rfl⟩ := List.mem_map.mp h
    exact Utf8.valid_of_mem_splitOn (by decide) htext hl
  · obtain ⟨p, hp, hline⟩ := List.mem_flatMap.mp h
    have hml := Markdown.valid_markdownLines htext (List.fst_mem_of_mem_zipIdx hp)
    obtain ⟨j, hj, rfl⟩ := List.mem_mapIdx.mp hline
    have hl := (count_le_of_mem_wrapText (valid_content hspeaker hml) (List.getElem_mem hj)).1
    dsimp only
    unfold hang
    split
    · exact (utf8_bytes _).append hl
    · exact hl

/-- **The display lines of valid content are valid.** -/
theorem valid_layoutStyled (h : ∀ e ∈ v.entries, Utf8 e.speaker ∧ Utf8 e.text)
    (hline : line ∈ v.layoutStyled width) : Utf8 line.text := by
  rcases mem_layoutStyled_iff.mp hline with ⟨rfl, -⟩ | ⟨e, he, hline⟩
  · exact utf8_nil
  · exact valid_layout (h e he).1 (h e he).2 hline

end

/-- **Drawing loses no text**: each visible line that is no wider than the window is passed to it
with a limit of as many bytes as it has. -/
def DrawsWhole (v : ChatView) (height width : Int) : Prop :=
  ∀ row line, v.Visible height width row line → (Utf8.count line.text : Int) ≤ width →
    ∃ d ∈ v.render height width, d.row = row ∧ d.text = line.text ∧ (line.text.length : Int) ≤ d.n

/-- The columns that are free must be no fewer than the continuation bytes. -/
theorem drawsWhole_iff {v : ChatView} (h : ∀ e ∈ v.entries, Utf8 e.speaker ∧ Utf8 e.text)
    {height width : Int} (hheight : 1 ≤ height) (hwidth : 1 ≤ width) :
    v.DrawsWhole height width ↔
      ∀ row line, v.Visible height width row line → (Utf8.count line.text : Int) ≤ width →
        (line.text.countP Utf8.isCont : Int) ≤ width - Utf8.count line.text := by
  have hlength : ∀ row line, v.Visible height width row line →
      line.text.length = Utf8.count line.text + line.text.countP Utf8.isCont :=
    fun row line hline => Utf8.length_eq_count_add
      (valid_layoutStyled h (List.mem_of_getElem? hline.2))
  constructor
  · intro hwhole row line hline hfits
    obtain ⟨d, hd, -, -, hn⟩ := hwhole row line hline hfits
    obtain ⟨_, -, heq⟩ := (mem_render_iff hheight hwidth d).mp hd
    have hlen := hlength row line hline
    rw [heq] at hn
    dsimp only at hn
    omega
  · intro hfree row line hline hfits
    have hcols := hfree row line hline hfits
    have hlen := hlength row line hline
    refine ⟨⟨row, line.text, line.style, width⟩, ?_, rfl, rfl, ?_⟩
    · exact (mem_render_iff hheight hwidth _).mpr ⟨line, hline, rfl⟩
    · dsimp only
      omega

end ChatView

end SimpleCoder

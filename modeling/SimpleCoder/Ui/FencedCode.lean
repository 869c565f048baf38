/-
# Code on the screen

The classifier keeps the lines of a fenced block as they are, with their indentation, and then the
layout wraps them like any others.  Wrapping takes a line apart at its spaces and joins the words
with one space between, so of a line that is narrow enough to be shown whole the spaces are shown
only where they stand alone between words (`showsCode_iff`).
-/
import SimpleCoder.Ui.Layout

namespace SimpleCoder

namespace ChatView

open TextWrap (wrapText wrapParagraph lineWidth Wrapped cols)
open Markdown (isFence openAfter classifyLines)

/-- A line of the text is inside a fenced block. -/
structure FencedAt (text : Bytes) (before : List Bytes) (line : Bytes) (after : List Bytes) :
    Prop where
  split : text.splitOn newline = before ++ line :: after
  notFence : isFence line = false
  inside : Odd (before.countP isFence)

/-- The line is to be shown: it is not the one that carries the speaker's prefix, and it is no wider
than the window. -/
structure Entry.Shows (e : Entry) (width : Int) (before : List Bytes) (line : Bytes)
    (after : List Bytes) : Prop where
  fenced : FencedAt e.text before line after
  notFirst : classifyLines false before ≠ [] ∨ e.speaker = []
  fits : (Utf8.count line : Int) ≤ width

/-- **Fenced code is displayed as written**: between what is displayed of the lines before and
behind it, there is one display line, which is the line. -/
def Entry.ShowsCode (e : Entry) (width : Int) : Prop :=
  ∀ before line after, e.Shows width before line after → ∃ style, e.layout width =
    e.layoutLines width 0 (classifyLines false before) ++ ⟨line, style⟩ ::
      e.layoutLines width ((classifyLines false before).length + 1) (classifyLines true after)

/-- The line is empty, or all its spaces stand alone between words.  Of a line that is no valid text
the words and a column for each space must also fit. -/
def Plain (width : Int) (line : Bytes) : Prop :=
  line = [] ∨ Fill.Spaced space line ∧
    (Utf8 line ∨ Fill.width cols (Fill.words space line) ≤ lineWidth width)

section

variable {e : Entry} {width : Int} {before after : List Bytes} {line : Bytes}

/-- The entries of the lines before, of the line, and of those behind. -/
theorem FencedAt.markdownLines_eq {text : Bytes} (h : FencedAt text before line after) :
    markdownLines text =
      classifyLines false before ++ ⟨line, .code⟩ :: classifyLines true after := by
  have hopen : openAfter before = true := decide_eq_true h.inside
  have happend := Markdown.classifyLines_append [] before (line :: after)
  rw [List.nil_append, hopen] at happend
  unfold markdownLines
  rw [h.split]
  refine happend.trans ?_
  rw [classifyLines, Markdown.classify_of_not_isFence h.notFence]
  rfl

theorem layoutLines_append (e : Entry) (width : Int) (k : Nat) (md md' : List MdLine) :
    e.layoutLines width k (md ++ md') =
      e.layoutLines width k md ++ e.layoutLines width (k + md.length) md' := by
  unfold Entry.layoutLines
  rw [List.zipIdx_append, List.flatMap_append]

/-- A line that is no wider than the window is wrapped as one paragraph. -/
theorem wrapText_eq_self_iff (h : newline ∉ line) (hfits : (Utf8.count line : Int) ≤ width) :
    wrapText line width = [line] ↔ Plain width line := by
  have hpos := TextWrap.lineWidth_pos width
  have hone : wrapText line width = wrapParagraph line.length line (lineWidth width) := by
    unfold TextWrap.wrapText TextWrap.wrapWithin
    rw [List.splitOn_eq_singleton h, List.flatMap_singleton]
  have hwrapped := TextWrap.wrapParagraph_wrapped hpos (Nat.le_refl line.length)
  have hself : wrapText line width = [line] ↔ Wrapped (lineWidth width) line [line] := by
    rw [hone]
    refine ⟨fun heq => by rwa [heq] at hwrapped, fun hself => hwrapped.unique hself⟩
  -- the words of valid text take as many columns as the text
  have hvalid : Fill.Spaced space line → Utf8 line →
      Fill.width cols (Fill.words space line) ≤ lineWidth width := fun hspaced hvalid => by
    have hwidth : width.toNat ≤ lineWidth width := by
      unfold lineWidth
      split <;> omega
    rw [← (TextWrap.valid_joined hvalid).2, TextWrap.joined,
      Fill.intercalate_words_iff.mpr hspaced]
    exact le_trans (by unfold cols; omega) hwidth
  rw [hself, TextWrap.wrapped_self_iff hpos]
  unfold Plain
  constructor
  · rintro (hnil | ⟨hspaced, hwidth⟩)
    · exact Or.inl hnil
    · exact Or.inr ⟨hspaced, Or.inr hwidth⟩
  · rintro (hnil | ⟨hspaced, hutf8 | hwidth⟩)
    · exact Or.inl hnil
    · exact Or.inr ⟨hspaced, hvalid hspaced hutf8⟩
    · exact Or.inr ⟨hspaced, hwidth⟩

/-- **One line of code** is displayed as written exactly if it is plain. -/
theorem Entry.Shows.iff (h : e.Shows width before line after) (hkind : e.kind = .normal) :
    (∃ style, e.layout width =
      e.layoutLines width 0 (classifyLines false before) ++ ⟨line, style⟩ ::
        e.layoutLines width ((classifyLines false before).length + 1)
          (classifyLines true after)) ↔ Plain width line := by
  -- the speaker goes in front of the first line only, and this is not the first
  have hcontent : e.content (classifyLines false before).length ⟨line, .code⟩ = line := by
    unfold Entry.content
    split
    · rename_i hfirst
      have hspeaker := h.notFirst.resolve_left fun hne =>
        hne (List.eq_nil_of_length_eq_zero hfirst)
      rw [hspeaker, List.nil_append]
    · rfl
  have hline : e.layoutLine width ⟨line, .code⟩ (classifyLines false before).length =
      (wrapText line width).map fun l => ⟨l, e.lineStyle ⟨line, .code⟩⟩ := by
    unfold Entry.layoutLine
    rw [hcontent]
    refine List.mapIdx_eq_iff.mpr fun j => ?_
    rw [List.getElem?_map]
    rfl
  have hlayout : e.layout width = e.layoutLines width 0 (classifyLines false before) ++
      ((wrapText line width).map fun l => ⟨l, e.lineStyle ⟨line, .code⟩⟩) ++
        e.layoutLines width ((classifyLines false before).length + 1)
          (classifyLines true after) := by
    have hcons := layoutLines_append e width (classifyLines false before).length
      [⟨line, .code⟩] (classifyLines true after)
    rw [List.singleton_append, List.length_singleton] at hcons
    unfold Entry.layout
    rw [hkind, h.fenced.markdownLines_eq]
    dsimp only
    rw [layoutLines_append, Nat.zero_add, hcons, ← hline, ← List.append_assoc]
    unfold Entry.layoutLines
    rw [List.zipIdx_singleton, List.flatMap_singleton]
  have hnewline : newline ∉ line := by
    refine Fill.notMem_of_mem_splitOn (l := e.text) ?_
    rw [h.fenced.split]
    simp
  -- so the line is displayed as it is exactly if wrapping leaves it as it is
  rw [← wrapText_eq_self_iff hnewline h.fits, hlayout]
  constructor
  · rintro ⟨style, heq⟩
    rw [List.append_assoc, List.append_cancel_left_eq, ← List.singleton_append,
      List.append_cancel_right_eq] at heq
    obtain ⟨l, hl, hdl⟩ := List.map_eq_singleton_iff.mp heq
    rw [hl, (DisplayLine.mk.inj hdl).1]
  · intro heq
    refine ⟨e.lineStyle ⟨line, .code⟩, ?_⟩
    rw [heq, List.append_assoc]
    rfl

end

/-- **Fenced code is displayed as written** exactly if every line that is to be shown is plain. -/
theorem showsCode_iff (e : Entry) (h : e.kind = .normal) (width : Int) :
    e.ShowsCode width ↔
      ∀ before line after, e.Shows width before line after → Plain width line := by
  constructor
  · intro hshows before line after hline
    exact (hline.iff h).mp (hshows before line after hline)
  · intro hplain before line after hline
    exact (hline.iff h).mpr (hplain before line after hline)

/-- An answer with an indented line of code. -/
def indented : Entry := { speaker := bytes "* ", text := bytes "So:\n```\n  x\n```" }

theorem showsCode_indented : indented.ShowsCode 40 ↔
    ∀ before line after, indented.Shows 40 before line after → Plain 40 line :=
  showsCode_iff indented rfl 40

/-- **Indentation is lost**: the line of code is displayed without its two spaces. -/
theorem indented_not_shown : ¬ indented.ShowsCode 40 := by
  intro h
  have hline : indented.Shows 40 [bytes "So:", bytes "```"] (bytes "  x") [bytes "```"] :=
    ⟨⟨by decide, by decide, by decide⟩, Or.inl (by decide), by decide⟩
  obtain ⟨style, hlayout⟩ := h _ _ _ hline
  have htexts := congrArg (List.map DisplayLine.text) hlayout
  have hdisplayed : (indented.layout 40).map DisplayLine.text = [bytes "* So:", bytes "x"] := by
    decide +kernel
  have hwritten : bytes "  x" ∈ (indented.layout 40).map DisplayLine.text := by
    rw [htexts]
    simp
  rw [hdisplayed] at hwritten
  revert hwritten
  decide

end ChatView

end SimpleCoder

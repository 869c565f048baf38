/-
# The layout of the chat view

`layout_styled` lays the entries out as lines of a given width.  The text of a normal entry is
classified line by line, and each line is wrapped, with the speaker in front of the first.

The lines of a list item behind its first are indented after they have been wrapped, by two columns.
So a display line fits the window exactly if it is no such line or has two columns to spare
(`layout_fits_iff`).
-/
import SimpleCoder.Ui.ChatView
import SimpleCoder.Ui.TextWrap
import SimpleCoder.Ui.Markdown

namespace SimpleCoder

namespace ChatView

open TextWrap (wrapText lineWidth Wrapped Torn cols)

/-! ## 1. The functions -/

structure DisplayLine where
  text : Bytes
  style : Style
  deriving DecidableEq

/-- A markdown line, with the speaker's prefix in front of the first. -/
def Entry.content (e : Entry) (k : Nat) (ml : MdLine) : Bytes :=
  if k = 0 then e.speaker ++ ml.text else ml.text

def Entry.lineStyle (e : Entry) (ml : MdLine) : Style :=
  if e.style = .normal then
    if ml.kind = .header then .accent else if ml.kind = .code then .dim else e.style
  else e.style

/-- List items hang-indent their wrapped continuation under the text. -/
def hang (kind : MdKind) (j : Nat) (wrapped : Bytes) : Bytes :=
  if kind = .listItem ∧ 0 < j then bytes "  " ++ wrapped else wrapped

/-- The display lines of one markdown line, the `k`th. -/
def Entry.layoutLine (e : Entry) (width : Int) (ml : MdLine) (k : Nat) : List DisplayLine :=
  (wrapText (e.content k ml) width).mapIdx fun j l => ⟨hang ml.kind j l, e.lineStyle ml⟩

/-- The display lines of some markdown lines, from the `k`th on. -/
def Entry.layoutLines (e : Entry) (width : Int) (k : Nat) (md : List MdLine) : List DisplayLine :=
  (md.zipIdx k).flatMap fun p => e.layoutLine width p.1 p.2

/-- Thinking and tool entries: a label, and the text unless it is folded away. -/
def Entry.layoutFolded (e : Entry) (width : Int) : List DisplayLine :=
  let label := if e.kind = .thinking then bytes "thinking" else e.speaker
  let body := wrapText e.text width
  if e.collapsed then
    let n := if e.text = [] then 0 else body.length
    [⟨bytes "▸ " ++ label ++ bytes " (" ++ decimal n ++
      (if n = 1 then bytes " line)" else bytes " lines)"), e.style⟩]
  else ⟨bytes "▾ " ++ label, e.style⟩ :: body.map fun wrapped => ⟨wrapped, e.style⟩

/-- Preformatted entries are verbatim. -/
def Entry.layoutVerbatim (e : Entry) : List DisplayLine :=
  (e.text.splitOn newline).map fun line => ⟨line, e.style⟩

def Entry.layout (e : Entry) (width : Int) : List DisplayLine :=
  match e.kind with
  | .thinking => e.layoutFolded width
  | .tool => e.layoutFolded width
  | .preformatted => e.layoutVerbatim
  | .normal => e.layoutLines width 0 (markdownLines e.text)

/-- `layout_styled`: the entries, with a blank line between. -/
def layoutStyled (v : ChatView) (width : Int) : List DisplayLine :=
  v.entries.zipIdx.flatMap fun p => (if p.2 ≠ 0 then [⟨[], .normal⟩] else []) ++ p.1.layout width

/-- A display line is a blank line between entries, or one of an entry. -/
theorem mem_layoutStyled_iff {v : ChatView} {width : Int} {line : DisplayLine} :
    line ∈ v.layoutStyled width ↔
      (line = ⟨[], .normal⟩ ∧ 1 < v.entries.length) ∨ ∃ e ∈ v.entries, line ∈ e.layout width := by
  unfold layoutStyled
  rw [List.mem_flatMap]
  constructor
  · rintro ⟨p, hp, hmem⟩
    have hget := List.mem_zipIdx_iff_getElem?.mp hp
    rcases List.mem_append.mp hmem with hmem | hmem
    · split at hmem
      · obtain ⟨hlt, -⟩ := List.getElem?_eq_some_iff.mp hget
        exact Or.inl ⟨List.mem_singleton.mp hmem, by omega⟩
      · cases hmem
    · exact Or.inr ⟨p.1, List.mem_of_getElem? hget, hmem⟩
  · rintro (⟨rfl, hlen⟩ | ⟨e, he, hmem⟩)
    · refine ⟨(v.entries[1], 1), List.mem_zipIdx_iff_getElem?.mpr ?_, ?_⟩
      · exact List.getElem?_eq_getElem hlen
      · exact List.mem_append_left _ (List.mem_singleton_self _)
    · obtain ⟨i, hi⟩ := List.mem_iff_getElem?.mp he
      exact ⟨(e, i), List.mem_zipIdx_iff_getElem?.mpr hi, List.mem_append_right _ hmem⟩

/-! ## 2. What is said -/

/-- What the conversation puts into the view.  Every valid text is the encoding of some characters
(`Utf8.valid_iff`). -/
inductive Saying where
  | add (speaker : Bytes) (text : List Char) (style : Style)
  | appendTo (index : Nat) (text : List Char)
  | appendDelta (text : List Char)

def saying (v : ChatView) : Saying → ChatView
  | .add speaker text style => v.add speaker (Utf8.encodeText text) style
  | .appendTo index text => v.appendTo index (Utf8.encodeText text)
  | .appendDelta text => v.appendDelta (Utf8.encodeText text)

/-- The view after some of it. -/
def sayings (ops : List Saying) : ChatView := ops.foldl saying {}

/-- The entry is shown as markdown, and its text is valid. -/
structure Entry.Spoken (e : Entry) : Prop where
  kind : e.kind = .normal
  text : Utf8 e.text

section Spoken

variable {v : ChatView} {e : Entry}

theorem Entry.Spoken.more (h : e.Spoken) {text : Bytes} (htext : Utf8 text) :
    ({ e with text := e.text ++ text } : Entry).Spoken := ⟨h.kind, h.text.append htext⟩

/-- A changed member is a member or a changed one. -/
theorem forall_modify {P : Entry → Prop} {l : List Entry} {f : Entry → Entry}
    (h : ∀ e ∈ l, P e) (hf : ∀ e, P e → P (f e)) (i : Nat) : ∀ e ∈ l.modify i f, P e := by
  intro e he
  obtain ⟨j, hj⟩ := List.mem_iff_getElem?.mp he
  rw [List.getElem?_modify] at hj
  cases hget : l[j]? with
  | none =>
    rw [hget] at hj
    split at hj <;> cases hj
  | some a =>
    have ha := h a (List.mem_of_getElem? hget)
    rw [hget] at hj
    split at hj
    · rw [← Option.some.inj hj]
      exact hf a ha
    · rw [← Option.some.inj hj]
      exact ha

/-- **One saying** leaves entries that are spoken. -/
theorem spoken_saying (h : ∀ e ∈ v.entries, e.Spoken) (op : Saying) :
    ∀ e ∈ (v.saying op).entries, e.Spoken := by
  have hvalid : ∀ text, Utf8 (Utf8.encodeText text) := fun text => Utf8.valid_iff.mpr ⟨text, rfl⟩
  cases op with
  | add speaker text style =>
    intro e he
    rcases List.mem_append.mp he with he | he
    · exact h e he
    · rw [List.mem_singleton.mp he]
      exact ⟨rfl, hvalid text⟩
  | appendTo index text =>
    change ∀ e ∈ (v.appendTo index (Utf8.encodeText text)).entries, e.Spoken
    unfold appendTo
    split
    · exact forall_modify h (fun e he => he.more (hvalid text)) index
    · exact h
  | appendDelta text =>
    refine forall_modify (fun e he => ?_) (fun e he => he.more (hvalid text)) _
    split at he
    · rw [List.mem_singleton.mp he]
      exact ⟨rfl, utf8_nil⟩
    · exact h e he

/-- **All that is said** is spoken. -/
theorem spoken_sayings (ops : List Saying) : ∀ e ∈ (sayings ops).entries, e.Spoken := by
  unfold sayings
  induction ops using List.reverseRecOn with
  | nil => exact fun e he => absurd he List.not_mem_nil
  | append_singleton ops op ih =>
    rw [List.foldl_append]
    exact spoken_saying ih op

end Spoken

/-! ## 3. Do the lines fit? -/

/-- The lines of a text in its greedy filling. -/
def Fills (w : Nat) (text : Bytes) (lines : List Bytes) : Prop :=
  ∃ paragraphs : List (List Bytes), lines = paragraphs.flatten ∧
    List.Forall₂ (Wrapped w) (text.splitOn newline) paragraphs

theorem fills_iff {width : Int} {text : Bytes} {lines : List Bytes} :
    Fills (lineWidth width) text lines ↔ lines = wrapText text width := by
  obtain ⟨paragraphs, hlines, hwrapped⟩ := TextWrap.wrapText_wrapped text width
  constructor
  · rintro ⟨paragraphs', rfl, hwrapped'⟩
    have hsame : paragraphs' = paragraphs := by
      clear hlines
      generalize text.splitOn newline = paras at hwrapped hwrapped'
      induction hwrapped generalizing paragraphs' with
      | nil =>
        cases hwrapped'
        rfl
      | cons h _ ih =>
        cases hwrapped' with
        | cons h' hrest' => rw [h'.unique h, ih _ hrest']
    rw [hsame, hlines]
  · rintro rfl
    exact ⟨paragraphs, hlines, hwrapped⟩

/-- The condition for one markdown line.  In the greedy filling, the lines behind the first have two
columns to spare if the line is a list item.  Columns do not add up where a space cuts a character
off, which takes a speaker's prefix that is no valid text: such a line may have columns too many. -/
def Entry.Spares (e : Entry) (w : Nat) (ml : MdLine) (k : Nat) : Prop :=
  ∀ lines, Fills w (e.content k ml) lines →
    (ml.kind = .listItem → ∀ l ∈ lines.tail, Utf8.count l + 2 ≤ w) ∧
      (¬ Utf8 e.speaker → ∀ l ∈ lines, Torn l → Utf8.count l ≤ w)

section Fit

variable {e : Entry} {ml : MdLine} {k : Nat} {width : Int} {w : Nat}

/-- The lines of a valid text fit. -/
theorem count_le_of_mem_wrapText {text l : Bytes} (h : Utf8 text) (hl : l ∈ wrapText text width) :
    Utf8 l ∧ Utf8.count l ≤ lineWidth width := by
  obtain ⟨para, hpara, lines, hone, hl⟩ := TextWrap.exists_wrapped_of_mem hl
  have hvalid := Utf8.valid_of_mem_splitOn (by decide) h hpara
  exact (hone.wellWrapped (TextWrap.lineWidth_pos width) hvalid).fits l hl

theorem valid_content (hspeaker : Utf8 e.speaker) (h : Utf8 ml.text) : Utf8 (e.content k ml) := by
  unfold Entry.content
  split
  · exact hspeaker.append h
  · exact h

/-- Two columns more. -/
theorem count_indented (l : Bytes) : Utf8.count (bytes "  " ++ l) = Utf8.count l + 2 := by
  rw [Utf8.count_append (utf8_bytes _), Nat.add_comm]
  rfl

theorem count_le_hang (kind : MdKind) (j : Nat) (l : Bytes) :
    Utf8.count l ≤ Utf8.count (hang kind j l) := by
  unfold hang
  split
  · rw [count_indented]
    omega
  · exact Nat.le_refl _

/-- **The display lines of a markdown line fit** exactly if it has columns to spare. -/
theorem layoutLine_fits_iff (h : Utf8 ml.text) :
    (∀ dl ∈ e.layoutLine width ml k, Utf8.count dl.text ≤ lineWidth width) ↔
      e.Spares (lineWidth width) ml k := by
  constructor
  · intro hfits lines hfills
    obtain rfl := fills_iff.mp hfills
    have hline : ∀ j l, (wrapText (e.content k ml) width)[j]? = some l →
        Utf8.count (hang ml.kind j l) ≤ lineWidth width := fun j l hj => by
      refine hfits ⟨hang ml.kind j l, e.lineStyle ml⟩ (List.mem_of_getElem? (i := j) ?_)
      unfold Entry.layoutLine
      rw [List.getElem?_mapIdx, hj]
      rfl
    refine ⟨fun hitem l hl => ?_, fun _ l hl _ => ?_⟩
    · obtain ⟨j, hj⟩ := List.mem_iff_getElem?.mp hl
      rw [List.getElem?_tail] at hj
      have hcount := hline (j + 1) l hj
      unfold hang at hcount
      rwa [if_pos ⟨hitem, Nat.succ_pos j⟩, count_indented] at hcount
    · obtain ⟨j, hj⟩ := List.mem_iff_getElem?.mp hl
      exact (count_le_hang ml.kind j l).trans (hline j l hj)
  · intro hspares dl hdl
    obtain ⟨hitem, hspeaker⟩ := hspares _ (fills_iff.mpr rfl)
    obtain ⟨j, hj⟩ := List.mem_iff_getElem?.mp hdl
    unfold Entry.layoutLine at hj
    rw [List.getElem?_mapIdx] at hj
    obtain ⟨l, hl, rfl⟩ := Option.map_eq_some_iff.mp hj
    dsimp only
    unfold hang
    split
    · rename_i hhang
      obtain ⟨j, rfl⟩ : ∃ i, j = i + 1 := ⟨j - 1, by omega⟩
      rw [count_indented]
      refine hitem hhang.1 l (List.mem_of_getElem? (i := j) ?_)
      rwa [List.getElem?_tail]
    · have hmem := List.mem_of_getElem? hl
      by_cases htorn : Torn l
      · refine hspeaker (fun hvalid => ?_) l hmem htorn
        -- with a valid speaker all is valid, and no character is cut off
        exact TextWrap.not_torn (count_le_of_mem_wrapText (valid_content hvalid h) hmem).1 htorn
      · obtain ⟨para, -, lines, hone, hl⟩ := TextWrap.exists_wrapped_of_mem hmem
        exact hone.fits hl htorn

/-- **The display lines of an entry.** -/
theorem Entry.Spoken.fits_iff (h : e.Spoken) :
    (∀ dl ∈ e.layout width, Utf8.count dl.text ≤ lineWidth width) ↔
      ∀ p ∈ (markdownLines e.text).zipIdx, e.Spares (lineWidth width) p.1 p.2 := by
  have hlayout : e.layout width = e.layoutLines width 0 (markdownLines e.text) := by
    unfold Entry.layout
    rw [h.kind]
  rw [hlayout]
  unfold Entry.layoutLines
  constructor
  · intro hfits p hp
    have hvalid := Markdown.valid_markdownLines h.text (List.fst_mem_of_mem_zipIdx hp)
    refine (layoutLine_fits_iff hvalid).mp fun dl hdl => hfits dl ?_
    exact List.mem_flatMap.mpr ⟨p, hp, hdl⟩
  · intro hspares dl hdl
    obtain ⟨p, hp, hdl⟩ := List.mem_flatMap.mp hdl
    have hvalid := Markdown.valid_markdownLines h.text (List.fst_mem_of_mem_zipIdx hp)
    exact (layoutLine_fits_iff hvalid).mpr (hspares p hp) dl hdl

end Fit

/-- **Chat lines fit the window** as long as list items have two columns to spare.  After any
sayings, at any width, the display lines of the normal entries are no wider than the window exactly
if this is so of every markdown line of each. -/
theorem layout_fits_iff (ops : List Saying) (width : Int) (h : 3 ≤ width) :
    (∀ e ∈ (sayings ops).entries, e.kind = .normal → ∀ dl ∈ e.layout width,
      (Utf8.count dl.text : Int) ≤ width) ↔
    ∀ e ∈ (sayings ops).entries, e.kind = .normal →
      ∀ p ∈ (markdownLines e.text).zipIdx, e.Spares width.toNat p.1 p.2 := by
  have hwidth : lineWidth width = width.toNat := if_neg (by omega)
  have hle : ∀ n : Nat, (n : Int) ≤ width ↔ n ≤ lineWidth width := fun n => by omega
  simp only [hle, ← hwidth]
  constructor
  · intro hfits e he hkind
    exact (spoken_sayings ops e he).fits_iff.mp (hfits e he hkind)
  · intro hspares e he hkind
    exact (spoken_sayings ops e he).fits_iff.mpr (hspares e he hkind)

/-- A list item whose second line has to be indented. -/
def longItem : List Saying := [.add [] ['-', ' ', 'a', ' ', 'b', 'b', 'b'] .normal]

theorem layout_fits_longItem :
    (∀ e ∈ (sayings longItem).entries, e.kind = .normal → ∀ dl ∈ e.layout 5,
      (Utf8.count dl.text : Int) ≤ 5) ↔
    ∀ e ∈ (sayings longItem).entries, e.kind = .normal →
      ∀ p ∈ (markdownLines e.text).zipIdx, e.Spares 5 p.1 p.2 :=
  layout_fits_iff longItem 5 (by decide)

/-- **A list item is wider than the window**: at three columns, its second line has five. -/
theorem longItem_too_wide :
    ¬ ∀ e ∈ (sayings longItem).entries, e.kind = .normal → ∀ dl ∈ e.layout 3,
      (Utf8.count dl.text : Int) ≤ 3 := by
  decide +kernel

end ChatView

end SimpleCoder

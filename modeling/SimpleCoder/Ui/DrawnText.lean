/-
# Text that is drawn whole

A line that is not ASCII has more bytes than columns, so in a window of its own width it is cut off.
For each such text that a view displays there is a window in which it is a line of that width.  So
all that a view displays is drawn whole in every window exactly if it is ASCII
(`render_whole_iff`).

* §1: what it is for an entry to display nothing but ASCII, and that then its lines are ASCII.
* §2: a line of text.  However it is wrapped, it is one line in a window of the width of its words.
* §3: the line that a folded entry is shown as.  It has the number of the lines that are folded
  away, and with it its width changes with that of the window, but slowly enough.
-/
import SimpleCoder.Ui.Drawing

namespace SimpleCoder

namespace ChatView

open TextWrap (wrapText wrapParagraph lineWidth cols joined)

/-! ## 1. Nothing but ASCII -/

def Ascii (s : Bytes) : Prop := ∀ b ∈ s, b < 0x80

/-- Nothing but ASCII is displayed of the entry.  A folded entry, open or not, has a mark in front
of its label that is not. -/
def Entry.ShownAscii (e : Entry) : Prop :=
  match e.kind with
  | .normal => ∀ p ∈ (markdownLines e.text).zipIdx, Ascii (e.content p.2 p.1)
  | .preformatted => Ascii e.text
  | .thinking => False
  | .tool => False

section

variable {e : Entry} {width : Int} {text l : Bytes} {dl : DisplayLine}

theorem Ascii.splitOn (h : Ascii text) (hl : l ∈ text.splitOn newline) : Ascii l := fun b hb =>
  h b (Fill.exists_mem_splitOn_iff.mp ⟨l, hl, hb⟩).1

/-- Wrapping adds nothing. -/
theorem Ascii.wrapText (h : Ascii text) (hl : l ∈ wrapText text width) : Ascii l := by
  obtain ⟨para, hmem, lines, hwrapped, hl⟩ := TextWrap.exists_wrapped_of_mem hl
  have hpara : Ascii para := h.splitOn hmem
  have hone := hwrapped.wellWrapped (TextWrap.lineWidth_pos width) (Utf8.valid_ascii hpara)
  intro b hb
  by_cases hspace : b = space
  · rw [hspace]
    decide
  · have hkept : b ∈ para.filter (· ≠ space) := by
      rw [← hone.kept]
      exact List.mem_flatMap.mpr ⟨l, hl, List.mem_filter.mpr ⟨hb, by simpa using hspace⟩⟩
    exact hpara b (List.mem_of_mem_filter hkept)

/-- **The display lines** are ASCII. -/
theorem Entry.ShownAscii.layout (h : e.ShownAscii) (hdl : dl ∈ e.layout width) : Ascii dl.text := by
  unfold Entry.ShownAscii at h
  unfold Entry.layout at hdl
  cases hkind : e.kind with
  | thinking => rw [hkind] at h; exact absurd h id
  | tool => rw [hkind] at h; exact absurd h id
  | preformatted =>
    rw [hkind] at h hdl
    obtain ⟨l, hl, rfl⟩ := List.mem_map.mp hdl
    exact Ascii.splitOn h hl
  | normal =>
    rw [hkind] at h hdl
    obtain ⟨p, hp, hdl⟩ := List.mem_flatMap.mp hdl
    obtain ⟨j, hj, rfl⟩ := List.mem_mapIdx.mp hdl
    have hl := Ascii.wrapText (h p hp) (List.getElem_mem hj)
    dsimp only
    unfold hang
    split
    · intro b hb
      rcases List.mem_append.mp hb with hb | hb
      · rw [show b = 0x20 from List.eq_of_mem_replicate (n := 2) hb]
        decide
      · exact hl b hb
    · exact hl

/-! ## 2. A line of text -/

/-- A display line that fits the window and has more bytes than the window has columns. -/
def CutIn (width : Int) (dl : DisplayLine) : Prop :=
  (Utf8.count dl.text : Int) ≤ width ∧ width < dl.text.length

/-- A text that is not ASCII has fewer columns than bytes. -/
theorem count_lt_length (h : Utf8 text) (hno : ¬ Ascii text) :
    1 ≤ Utf8.count text ∧ Utf8.count text < text.length := by
  have hne : text.length ≠ Utf8.count text := fun heq => hno ((Utf8.length_eq_count_iff h).mp heq)
  have hlen := Utf8.length_eq_count_add h
  refine ⟨Nat.one_le_iff_ne_zero.mpr fun hzero => hne ?_, by omega⟩
  rw [hzero, Utf8.eq_nil_of_count hzero]
  rfl

/-- Of the words joined, nothing but spaces is missing. -/
theorem ascii_of_joined (h : Ascii (joined text)) : Ascii text := by
  intro b hb
  by_cases hspace : b = space
  · rw [hspace]
    decide
  · refine h b (List.mem_of_mem_filter (p := (· ≠ space)) ?_)
    unfold joined
    rw [Fill.filter_intercalate fun u hu => (Fill.mem_words hu).2, Fill.flatten_words]
    exact List.mem_filter.mpr ⟨hb, by simpa using hspace⟩

/-- The lines of the paragraphs before. -/
def linesOf (text : Bytes) (paras : List Bytes) (width : Int) : List Bytes :=
  paras.flatMap fun para => wrapParagraph text.length para (lineWidth width)

/-- Whether there are any does not depend on the width. -/
theorem linesOf_eq_nil_iff {paras : List Bytes} (h : ∀ para ∈ paras, para ∈ text.splitOn newline)
    (width width' : Int) : linesOf text paras width = [] ↔ linesOf text paras width' = [] := by
  unfold linesOf
  rw [List.flatMap_eq_nil_iff, List.flatMap_eq_nil_iff]
  refine forall₂_congr fun para hpara => ?_
  have hfuel := TextWrap.length_le_of_mem_splitOn (h para hpara)
  have hone := fun w : Int => TextWrap.Wrapped.eq_nil_iff (TextWrap.lineWidth_pos w)
    (TextWrap.wrapParagraph_wrapped (TextWrap.lineWidth_pos w) hfuel)
  rw [hone width, hone width']

/-- A paragraph whose words fit on a line is the line behind those of the paragraphs before. -/
theorem wrapText_joined {before after : List Bytes} {para : Bytes}
    (hsplit : text.splitOn newline = before ++ para :: after)
    (hwords : Fill.words space para ≠ [])
    (hfits : Fill.width cols (Fill.words space para) ≤ lineWidth width) :
    (wrapText text width)[(linesOf text before width).length]? = some (joined para) := by
  have hfuel : para.length ≤ text.length :=
    TextWrap.length_le_of_mem_splitOn (by rw [hsplit]; simp)
  have hpara : wrapParagraph text.length para (lineWidth width) = [joined para] :=
    (TextWrap.wrapParagraph_wrapped (TextWrap.lineWidth_pos width) hfuel).unique
      (TextWrap.wrapped_joined hwords hfits)
  unfold TextWrap.wrapText TextWrap.wrapWithin
  rw [hsplit, List.flatMap_append, List.flatMap_cons, hpara]
  exact List.getElem?_append_right (Nat.le_refl _) |>.trans (by simp)

/-- **A markdown line that is not ASCII** is cut off in some window. -/
theorem exists_cut_layoutLine {ml : MdLine} {k : Nat} (h : Utf8 (e.content k ml))
    (hno : ¬ Ascii (e.content k ml)) :
    ∃ width, 1 ≤ width ∧ ∃ dl ∈ e.layoutLine width ml k, CutIn width dl := by
  obtain ⟨b, hb, hbig⟩ : ∃ b ∈ e.content k ml, ¬ b < 0x80 := by
    by_contra hall
    exact hno fun b hb => by_contra fun hbig => hall ⟨b, hb, hbig⟩
  obtain ⟨para, hpara, hbpara⟩ := Fill.exists_mem_splitOn_iff.mpr
    ⟨hb, fun heq : b = newline => hbig (by rw [heq]; decide)⟩
  obtain ⟨before, after, hsplit⟩ := List.append_of_mem hpara
  have hvalid := Utf8.valid_of_mem_splitOn (by decide) h hpara
  obtain ⟨hjoined, hcols⟩ := TextWrap.valid_joined hvalid
  obtain ⟨hpos, hlt⟩ := count_lt_length hjoined fun hascii =>
    hbig (ascii_of_joined hascii b hbpara)
  have hwords : Fill.words space para ≠ [] := by
    intro hnil
    unfold joined at hpos
    rw [hnil] at hpos
    exact absurd hpos (by decide)
  have hline : ∀ width : Int, Utf8.count (joined para) ≤ width →
      ⟨hang ml.kind (linesOf (e.content k ml) before width).length (joined para),
        e.lineStyle ml⟩ ∈ e.layoutLine width ml k := by
    intro width hwidth
    have hfits : Fill.width cols (Fill.words space para) ≤ lineWidth width := by
      rw [← hcols]
      unfold lineWidth cols
      split <;> omega
    refine List.mem_of_getElem? (i := (linesOf (e.content k ml) before width).length) ?_
    unfold Entry.layoutLine
    rw [List.getElem?_mapIdx, wrapText_joined hsplit hwords hfits]
    rfl
  by_cases hhang : ml.kind = .listItem ∧
      linesOf (e.content k ml) before (Utf8.count (joined para) : Int) ≠ []
  · -- the line is indented by two columns, also in a window that is wider by these
    refine ⟨Utf8.count (joined para) + 2, by omega, _, hline _ (by omega), ?_⟩
    have hbehind : linesOf (e.content k ml) before ((Utf8.count (joined para) : Int) + 2) ≠ [] :=
      mt (linesOf_eq_nil_iff (fun q hq => by rw [hsplit]; simp [hq]) _ _).mp hhang.2
    unfold CutIn hang
    dsimp only
    rw [if_pos ⟨hhang.1, List.length_pos_of_ne_nil hbehind⟩, count_indented, List.length_append,
      show (bytes "  ").length = 2 by decide]
    omega
  · refine ⟨Utf8.count (joined para), by omega, _, hline _ (Int.le_refl _), ?_⟩
    unfold CutIn hang
    dsimp only
    rw [if_neg fun hc => hhang ⟨hc.1, List.ne_nil_of_length_pos hc.2⟩]
    omega

end

/-! ## 3. The line of a folded entry -/

theorem decimal_of_lt : ∀ n < 10, (decimal (n : Nat)).length = 1 ∧ Ascii (decimal (n : Nat)) := by
  unfold Ascii
  decide +kernel

theorem ascii_decimal (n : Nat) : Ascii (decimal n) := by
  induction n using Nat.strong_induction_on with
  | _ n ih =>
    rcases Nat.lt_or_ge n 10 with hlt | hge
    · exact (decimal_of_lt n hlt).2
    · rw [decimal_of_ge hge]
      intro b hb
      rcases List.mem_append.mp hb with hb | hb
      · exact ih (n / 10) (by omega) b hb
      · exact (decimal_of_lt (n % 10) (by omega)).2 b hb

theorem length_decimal_of_ge {n : Nat} (h : 10 ≤ n) :
    (decimal n).length = (decimal (n / 10 : Nat)).length + 1 := by
  rw [decimal_of_ge h, List.length_append, (decimal_of_lt (n % 10) (by omega)).1]

theorem length_decimal_pos (n : Nat) : 0 < (decimal n).length := by
  rcases Nat.lt_or_ge n 10 with hlt | hge
  · exact (decimal_of_lt n hlt).1.symm ▸ Nat.one_pos
  · rw [length_decimal_of_ge hge]
    exact Nat.succ_pos _

theorem length_decimal_mono {m n : Nat} (h : m ≤ n) :
    (decimal m).length ≤ (decimal n).length := by
  induction n using Nat.strong_induction_on generalizing m with
  | _ n ih =>
    rcases Nat.lt_or_ge m 10 with hlt | hge
    · rw [(decimal_of_lt m hlt).1]
      exact length_decimal_pos n
    · rw [length_decimal_of_ge hge, length_decimal_of_ge (hge.trans h)]
      exact Nat.succ_le_succ (ih (n / 10) (by omega) (Nat.div_le_div_right h))

/-- A number that is no more than five times as large has no more than one digit more. -/
theorem length_decimal_le {m n : Nat} (h : m ≤ 5 * n) :
    (decimal m).length ≤ (decimal n).length + 1 := by
  rcases Nat.lt_or_ge m 10 with hlt | hge
  · rw [(decimal_of_lt m hlt).1]
    exact Nat.le_add_left 1 _
  · rw [length_decimal_of_ge hge]
    exact Nat.succ_le_succ (length_decimal_mono (by omega))

namespace Entry

variable {e : Entry}

/-- The label of a thinking or tool entry. -/
def label (e : Entry) : Bytes := if e.kind = .thinking then bytes "thinking" else e.speaker

/-- The number of lines that are folded away. -/
def hidden (e : Entry) (width : Int) : Nat :=
  if e.text = [] then 0 else (wrapText e.text width).length

/-- The line of the entry, if it hides so many lines. -/
def summary (e : Entry) (n : Nat) : Bytes :=
  bytes "▸ " ++ e.label ++ bytes " (" ++ decimal n ++
    (if n = 1 then bytes " line)" else bytes " lines)")

theorem layoutFolded_collapsed (h : e.collapsed = true) (width : Int) :
    e.layoutFolded width = [⟨e.summary (e.hidden width), e.style⟩] := if_pos h

theorem layoutFolded_expanded (h : e.collapsed = false) (width : Int) :
    ⟨bytes "▾ " ++ e.label, e.style⟩ ∈ e.layoutFolded width := by
  unfold layoutFolded
  simp [h, label]

theorem valid_label (h : Utf8 e.speaker) : Utf8 e.label := by
  unfold label
  split
  · exact utf8_bytes _
  · exact h

/-- The columns do not depend on the number but through its digits and the plural. -/
theorem count_summary (h : Utf8 e.speaker) (n : Nat) :
    Utf8.count (e.summary n) =
      Utf8.count e.label + 4 + (decimal n).length + if n = 1 then 6 else 7 := by
  have hnumber : Utf8.count (decimal n) = (decimal n).length :=
    ((Utf8.length_eq_count_iff (utf8_bytes _)).mpr (ascii_decimal n)).symm
  have hlines : Utf8.count (if n = 1 then bytes " line)" else bytes " lines)") =
      if n = 1 then 6 else 7 := by
    split <;> decide +kernel
  have hlabel := (utf8_bytes "▸ ").append (valid_label h)
  have hopen := hlabel.append (utf8_bytes " (")
  have hdigits := hopen.append (show Utf8 (decimal n) from utf8_bytes _)
  unfold summary
  rw [Utf8.count_append hdigits, Utf8.count_append hopen, Utf8.count_append hlabel,
    Utf8.count_append (utf8_bytes _), hnumber, hlines,
    show Utf8.count (bytes "▸ ") = 2 by decide +kernel,
    show Utf8.count (bytes " (") = 2 by decide +kernel]
  omega

/-- The mark takes two bytes more than columns. -/
theorem count_summary_lt (h : Utf8 e.speaker) (n : Nat) :
    Utf8.count (e.summary n) + 2 ≤ (e.summary n).length := by
  have hcount := count_summary h n
  have hlabel := Utf8.length_eq_count_add (valid_label h)
  have hlen : (e.summary n).length =
      e.label.length + 6 + (decimal n).length + if n = 1 then 6 else 7 := by
    unfold summary
    simp only [List.length_append]
    rw [show (bytes "▸ ").length = 4 by decide, show (bytes " (").length = 2 by decide]
    split <;> simp only [show (bytes " line)").length = 6 by decide,
      show (bytes " lines)").length = 7 by decide] <;> omega
  omega

/-- **The line is little longer** if five times as many lines are hidden. -/
theorem count_summary_le (h : Utf8 e.speaker) {m n : Nat} (hmn : m ≤ 5 * n) :
    Utf8.count (e.summary m) ≤ Utf8.count (e.summary n) + 1 := by
  have hdigits := length_decimal_le hmn
  rw [count_summary h, count_summary h]
  rcases Nat.lt_or_ge n 2 with hsmall | hlarge
  · -- one digit either way, so there is room for the plural
    have hone := (decimal_of_lt m (by omega)).1
    have hone' := (decimal_of_lt n (by omega)).1
    split <;> split <;> omega
  · split <;> split <;> omega

theorem hidden_le (e : Entry) {width width' : Int} (h : width' ≤ width + 1) :
    e.hidden width ≤ 5 * e.hidden width' := by
  unfold hidden
  split
  · exact Nat.zero_le _
  · exact TextWrap.length_wrapText_le e.text h

end Entry

/-- **Meeting the diagonal.**  What grows by no more than one when its argument falls by one, or
rises by anything, is its argument somewhere, or one less. -/
theorem exists_le_and_le {f : Nat → Nat} (hone : 1 < f 1)
    (hstep : ∀ m n, 0 < m → 0 < n → n ≤ m + 1 → f m ≤ f n + 1) :
    ∃ n, 0 < n ∧ f n ≤ n ∧ n ≤ f n + 1 := by
  have hexists : ∃ n, 0 < n ∧ f n ≤ n :=
    ⟨f 1 + 1, Nat.succ_pos _, hstep _ 1 (Nat.succ_pos _) Nat.one_pos (by omega)⟩
  obtain ⟨hpos, hle⟩ := Nat.find_spec hexists
  refine ⟨Nat.find hexists, hpos, hle, ?_⟩
  obtain ⟨m, hm⟩ : ∃ m, Nat.find hexists = m + 1 := ⟨_, (Nat.sub_add_cancel hpos).symm⟩
  rcases Nat.eq_zero_or_pos m with rfl | hmpos
  · rw [hm] at hle
    omega
  · have hnot := Nat.find_min hexists (show m < Nat.find hexists by omega)
    have hfall := hstep m (m + 1) hmpos (Nat.succ_pos _) (Nat.le_refl _)
    rw [hm]
    omega

/-- **A folded entry** is cut off in some window. -/
theorem exists_cut_layoutFolded {e : Entry} (h : Utf8 e.speaker) :
    ∃ width, 1 ≤ width ∧ ∃ dl ∈ e.layoutFolded width, CutIn width dl := by
  cases hcollapsed : e.collapsed with
  | true =>
    obtain ⟨n, hpos, hle, hge⟩ : ∃ n : Nat, 0 < n ∧ Utf8.count (e.summary (e.hidden n)) ≤ n ∧
        n ≤ Utf8.count (e.summary (e.hidden n)) + 1 := by
      refine exists_le_and_le ?_ fun m n _ _ hmn =>
        Entry.count_summary_le h (e.hidden_le (by omega))
      rw [Entry.count_summary h]
      omega
    refine ⟨n, by omega, ⟨e.summary (e.hidden n), e.style⟩, ?_, ?_⟩
    · rw [Entry.layoutFolded_collapsed hcollapsed]
      exact List.mem_singleton_self _
    · have hlt := Entry.count_summary_lt h (e.hidden n)
      unfold CutIn
      dsimp only
      omega
  | false =>
    have hvalid : Utf8 (bytes "▾ " ++ e.label) := (utf8_bytes _).append (Entry.valid_label h)
    obtain ⟨hpos, hlt⟩ := count_lt_length hvalid fun hascii =>
      absurd (hascii 0xE2 (List.mem_append_left _ (by decide))) (by decide)
    refine ⟨Utf8.count (bytes "▾ " ++ e.label), by omega, _,
      Entry.layoutFolded_expanded hcollapsed _, ?_⟩
    unfold CutIn
    dsimp only
    omega

/-! ## 4. All windows -/

/-- **What is not ASCII** is cut off in some window. -/
theorem exists_cut {e : Entry} (h : Utf8 e.speaker ∧ Utf8 e.text) (hno : ¬ e.ShownAscii) :
    ∃ width, 1 ≤ width ∧ ∃ dl ∈ e.layout width, CutIn width dl := by
  unfold Entry.ShownAscii at hno
  unfold Entry.layout
  cases hkind : e.kind with
  | thinking => exact exists_cut_layoutFolded h.1
  | tool => exact exists_cut_layoutFolded h.1
  | preformatted =>
    rw [hkind] at hno
    obtain ⟨l, hl, hlno⟩ : ∃ l ∈ e.text.splitOn newline, ¬ Ascii l := by
      by_contra hall
      refine hno fun b hb => ?_
      by_cases hnewline : b = newline
      · rw [hnewline]
        decide
      · obtain ⟨l, hl, hbl⟩ := Fill.exists_mem_splitOn_iff.mpr ⟨hb, hnewline⟩
        exact by_contra fun hbig => hall ⟨l, hl, fun hascii => hbig (hascii b hbl)⟩
    obtain ⟨hpos, hlt⟩ := count_lt_length (Utf8.valid_of_mem_splitOn (by decide) h.2 hl) hlno
    refine ⟨Utf8.count l, by omega, _, List.mem_map_of_mem hl, ?_⟩
    unfold CutIn
    dsimp only
    omega
  | normal =>
    rw [hkind] at hno
    obtain ⟨p, hp, hpno⟩ : ∃ p ∈ (markdownLines e.text).zipIdx, ¬ Ascii (e.content p.2 p.1) := by
      by_contra hall
      exact hno fun p hp => by_contra fun hpno => hall ⟨p, hp, hpno⟩
    have hml := Markdown.valid_markdownLines h.2 (List.fst_mem_of_mem_zipIdx hp)
    obtain ⟨width, hwidth, dl, hdl, hcut⟩ := exists_cut_layoutLine (valid_content h.1 hml) hpno
    exact ⟨width, hwidth, dl, List.mem_flatMap.mpr ⟨p, hp, hdl⟩, hcut⟩

/-- The view, scrolled back by so many lines. -/
def scrolledTo (v : ChatView) (offset : Int) : ChatView := { v with scrollFromBottom := offset }

/-- Each line of the layout is on the first row of some window. -/
theorem exists_visible {v : ChatView} {width : Int} {dl : DisplayLine}
    (h : dl ∈ v.layoutStyled width) : ∃ offset, (v.scrolledTo offset).Visible 1 width 0 dl := by
  obtain ⟨i, hi⟩ := List.mem_iff_getElem?.mp h
  obtain ⟨hlt, -⟩ := List.getElem?_eq_some_iff.mp hi
  refine ⟨(v.layoutStyled width).length - 1 - i, by decide, ?_⟩
  have hfirst : ∀ offset : Int, (v.scrolledTo offset).firstVisibleLine width 1 =
      max 0 (v.total width - 1 - max 0 (min offset (max 0 (v.total width - 1)))) := fun _ => rfl
  have hrow : (v.scrolledTo ((v.layoutStyled width).length - 1 - i)).firstVisibleLine width 1 =
      i := by
    rw [hfirst]
    unfold total
    omega
  rw [hrow]
  exact hi

/-- **All is drawn whole** in all windows, however far it is scrolled, exactly if nothing but ASCII
is displayed.  In one window each line that fits must have as many columns free as continuation
bytes. -/
theorem render_whole_iff (v : ChatView) (h : ∀ e ∈ v.entries, Utf8 e.speaker ∧ Utf8 e.text) :
    ((∀ offset height width, 1 ≤ height → 1 ≤ width →
        (v.scrolledTo offset).DrawsWhole height width) ↔ ∀ e ∈ v.entries, e.ShownAscii) ∧
      ∀ height width, 1 ≤ height → 1 ≤ width → (v.DrawsWhole height width ↔
        ∀ row line, v.Visible height width row line → (Utf8.count line.text : Int) ≤ width →
          (line.text.countP Utf8.isCont : Int) ≤ width - Utf8.count line.text) := by
  refine ⟨⟨fun hwhole e he => ?_, fun hascii offset height width hheight hwidth => ?_⟩,
    fun height width hheight hwidth => drawsWhole_iff h hheight hwidth⟩
  · by_contra hno
    obtain ⟨width, hwidth, dl, hdl, hfits, hcut⟩ := exists_cut (h e he) hno
    have hmem : dl ∈ v.layoutStyled width := mem_layoutStyled_iff.mpr (Or.inr ⟨e, he, hdl⟩)
    obtain ⟨offset, hvisible⟩ := exists_visible hmem
    obtain ⟨d, hd, -, -, hn⟩ := hwhole offset 1 width (Int.le_refl _) hwidth 0 dl hvisible hfits
    obtain ⟨_, -, heq⟩ := (mem_render_iff (Int.le_refl _) hwidth d).mp hd
    rw [heq] at hn
    exact absurd hn (by dsimp only; omega)
  · refine (drawsWhole_iff (v := v.scrolledTo offset) h hheight hwidth).mpr ?_
    intro row line hline hfits
    have hshown : Ascii line.text := by
      rcases mem_layoutStyled_iff.mp (List.mem_of_getElem? hline.2) with ⟨rfl, -⟩ | ⟨e, he, hmem⟩
      · exact fun b hb => absurd hb List.not_mem_nil
      · exact (hascii e he).layout hmem
    have hzero : line.text.countP Utf8.isCont = 0 :=
      List.countP_eq_zero.mpr fun b hb => by simp [(Utf8.lead_one b (hshown b hb)).1]
    omega

/-- Two accented letters. -/
def accented : ChatView := ({} : ChatView).add [] (bytes "éé") .normal

theorem accented_valid : ∀ e ∈ accented.entries, Utf8 e.speaker ∧ Utf8 e.text := by
  intro e he
  rw [List.mem_singleton.mp he]
  exact ⟨utf8_nil, utf8_bytes _⟩

theorem render_whole_accented :
    ((∀ offset height width, 1 ≤ height → 1 ≤ width →
        (accented.scrolledTo offset).DrawsWhole height width) ↔
          ∀ e ∈ accented.entries, e.ShownAscii) ∧
      ∀ height width, 1 ≤ height → 1 ≤ width → (accented.DrawsWhole height width ↔
        ∀ row line, accented.Visible height width row line → (Utf8.count line.text : Int) ≤ width →
          (line.text.countP Utf8.isCont : Int) ≤ width - Utf8.count line.text) :=
  render_whole_iff accented accented_valid

/-- **A letter is lost**: in a window of two columns, two of the four bytes are drawn. -/
theorem accented_cut_short : ¬ accented.DrawsWhole 1 2 := by
  intro h
  have hvisible : accented.Visible 1 2 0 ⟨bytes "éé", .normal⟩ := by
    unfold Visible
    decide +kernel
  obtain ⟨d, hd, -, -, hn⟩ := h _ _ hvisible (by decide +kernel)
  obtain ⟨_, -, heq⟩ := (mem_render_iff (by decide) (by decide) d).mp hd
  rw [heq] at hn
  change ((bytes "éé").length : Int) ≤ 2 at hn
  revert hn
  decide

end ChatView

end SimpleCoder

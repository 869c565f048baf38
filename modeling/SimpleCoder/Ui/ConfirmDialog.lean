/-
# The confirmation dialog

`ask` shows the user what a tool is about to do, in a box in the middle of the screen, and waits for
a key that is an answer.  Details of one line are wrapped to the box.  Those of more lines are a
diff, whose lines are cut off at its border.  Of what does not fit on the screen, the box says how
many lines it is.

* §1: the functions.
* §2: the details are on the screen exactly if there is room for all lines and none is cut off
  (`showsDetails_iff`); then nothing but spaces is missing (`flatMap_detailRows`).
* §3: what is asked and what is answered (`ask_shown`).
-/
import SimpleCoder.Agent.Confirm
import SimpleCoder.Ui.Layout
import SimpleCoder.Util.Hunks

namespace SimpleCoder

namespace ConfirmDialog

open TextWrap (wrapText lineWidth)

/-! ## 1. The functions -/

/-- `split_lines`, which gives an empty text one line. -/
def detailLines (details : Bytes) : List Bytes :=
  if splitLines details = [] then [[]] else splitLines details

/-- The details have more than one line. -/
def isDiff (details : Bytes) : Bool := 1 < (detailLines details).length

inductive Attr where
  | normal
  | accent
  | error
  | dim
  deriving DecidableEq

/-- `diff_attr`. -/
def diffAttr (line : Bytes) : Attr :=
  if line.head? = some 0x2B then .accent
  else if line.head? = some 0x2D then .error
  else if line.head? = some 0x40 then .dim
  else .normal

/-- The size of the screen: `LINES` and `COLS`. -/
structure Screen where
  lines : Int
  cols : Int

/-- `box_w`. -/
def boxWidth (scr : Screen) (details : Bytes) : Int :=
  max 20 (min (scr.cols - 2) (if isDiff details then 100 else 70))

/-- `wrap_w`. -/
def wrapWidth (scr : Screen) (details : Bytes) : Int := boxWidth scr details - 4

/-- `max_content`. -/
def maxContent (scr : Screen) : Int := max 1 (max 7 (scr.lines - 2) - 6)

/-- The rows that all of the details take. -/
def detailRows (scr : Screen) (details : Bytes) : List Bytes :=
  if isDiff details then detailLines details else wrapText details (wrapWidth scr details)

/-- What stands for so many rows. -/
def moreLines (hidden : Nat) : Bytes := bytes "… (" ++ decimal hidden ++ bytes " more lines)"

/-- `content`: the rows that there is room for. -/
def content (scr : Screen) (details : Bytes) : List Bytes :=
  let rows := detailRows scr details
  let room := (maxContent scr).toNat
  if room < rows.length then rows.take (room - 1) ++ [moreLines (rows.length - (room - 1))]
  else rows

/-- `lines`: all rows of the box. -/
def lines (scr : Screen) (tool details : Bytes) : List Bytes :=
  [bytes "Run tool: " ++ tool ++ bytes "?", []] ++ content scr details ++
    [[], bytes "[y] yes   [n] no   [a] always allow this session"]

/-- The window: its size and where it is. -/
structure Window where
  height : Int
  width : Int
  top : Int
  left : Int

/-- The window that `ask` opens. -/
def window (scr : Screen) (tool details : Bytes) : Window :=
  let height : Int := (lines scr tool details).length + 2
  let width := boxWidth scr details
  ⟨height, width, max 0 ((scr.lines - height).tdiv 2), max 0 ((scr.cols - width).tdiv 2)⟩

/-- A call of `mvwaddnstr`, in the second column of a row. -/
structure Draw where
  row : Nat
  text : Bytes
  n : Int
  attr : Attr

/-- What is drawn in the window. -/
def draws (scr : Screen) (tool details : Bytes) : List Draw :=
  (lines scr tool details).mapIdx fun i line =>
    { row := i + 1
      text := line
      n := wrapWidth scr details
      attr :=
        if isDiff details ∧ 2 ≤ i ∧ i < 2 + (content scr details).length then diffAttr line
        else .normal }

/-- What is read of the text: at most `n` bytes, up to its first NUL. -/
def Draw.seen (d : Draw) : Bytes := (d.text.takeWhile (· ≠ 0)).take d.n.toNat

/-- The cases of the switch; the other keys are ignored. -/
def answer (ch : Int) : Option ConfirmChoice :=
  if ch = 0x79 ∨ ch = 0x59 then some .yes
  else if ch = 0x61 ∨ ch = 0x41 then some .always
  else if ch = 0x6E ∨ ch = 0x4E ∨ ch = 27 then some .no
  else none

/-- The loop over the keys; none if it still waits behind these. -/
def waitForAnswer : List Int → Option ConfirmChoice
  | [] => none
  | ch :: keys =>
    match answer ch with
    | some choice => some choice
    | none => waitForAnswer keys

/-- `ask`: what is drawn, and what the keys say. -/
def ask (scr : Screen) (tool details : Bytes) (keys : List Int) :
    List Draw × Option ConfirmChoice :=
  (draws scr tool details, waitForAnswer keys)

/-! ## 2. What is seen of the details -/

/-- What is seen of the details. -/
def seenDetails (scr : Screen) (tool details : Bytes) : List Bytes :=
  (((draws scr tool details).drop 2).take (content scr details).length).map Draw.seen

variable {scr : Screen} {tool details : Bytes} {line : Bytes}

/-- What is seen of a row. -/
theorem map_seen_draws : (draws scr tool details).map Draw.seen = (lines scr tool details).map
    fun line => (line.takeWhile (· ≠ 0)).take (wrapWidth scr details).toNat := by
  refine List.ext_getElem? fun i => ?_
  unfold draws
  rw [List.getElem?_map, List.getElem?_mapIdx, List.getElem?_map, Option.map_map]
  rfl

theorem seenDetails_eq : seenDetails scr tool details = (content scr details).map
    fun line => (line.takeWhile (· ≠ 0)).take (wrapWidth scr details).toNat := by
  unfold seenDetails
  rw [List.map_take, List.map_drop, map_seen_draws]
  unfold lines
  simp

/-- The row is seen whole. -/
def SeenWhole (scr : Screen) (details line : Bytes) : Prop :=
  0 ∉ line ∧ (line.length : Int) ≤ wrapWidth scr details

theorem seenWhole_iff :
    (line.takeWhile (· ≠ 0)).take (wrapWidth scr details).toNat = line ↔
      SeenWhole scr details line := by
  unfold SeenWhole
  constructor
  · intro h
    have hlen := congrArg List.length h
    rw [List.length_take] at hlen
    have hwhole := (List.takeWhile_prefix (l := line) (· ≠ (0 : UInt8))).length_le
    have htake : line.takeWhile (· ≠ 0) = line :=
      (List.takeWhile_prefix _).eq_of_length (by omega)
    have hwidth : 0 ≤ wrapWidth scr details := by
      unfold wrapWidth boxWidth
      omega
    refine ⟨fun hzero => ?_, by omega⟩
    have := List.takeWhile_eq_self_iff.mp htake 0 hzero
    simp at this
  · rintro ⟨hzero, hlen⟩
    have htake : line.takeWhile (· ≠ 0) = line := by
      refine List.takeWhile_eq_self_iff.mpr fun c hc => ?_
      have hne : c ≠ 0 := fun h => hzero (h ▸ hc)
      simpa using hne
    rw [htake, List.take_of_length_le (by omega)]

/-- All of the details is on the screen: each of their rows, in order, as it is. -/
def ShowsDetails (scr : Screen) (tool details : Bytes) : Prop :=
  seenDetails scr tool details = detailRows scr details

theorem maxContent_pos (scr : Screen) : 1 ≤ maxContent scr := by
  unfold maxContent
  omega

theorem length_content : ((content scr details).length : Int) ≤ maxContent scr ∧
    ((content scr details).length = (detailRows scr details).length ↔
      ((detailRows scr details).length : Int) ≤ maxContent scr) := by
  have hroom := maxContent_pos scr
  unfold content
  dsimp only
  split
  · rw [List.length_append, List.length_take, List.length_singleton]
    omega
  · omega

/-- **The details are on the screen** exactly if there is room and no row is cut off. -/
theorem showsDetails_iff : ShowsDetails scr tool details ↔
    ((detailRows scr details).length : Int) ≤ maxContent scr ∧
      ∀ line ∈ detailRows scr details, SeenWhole scr details line := by
  have hsame : ((detailRows scr details).length : Int) ≤ maxContent scr →
      content scr details = detailRows scr details := by
    intro h
    unfold content
    exact if_neg (by omega)
  unfold ShowsDetails
  rw [seenDetails_eq]
  constructor
  · intro h
    have hlen := congrArg List.length h
    rw [List.length_map] at hlen
    have hroom := length_content.2.mp hlen
    rw [hsame hroom] at h
    have heach := List.map_inj_left.mp (h.trans (List.map_id _).symm)
    exact ⟨hroom, fun line hline => seenWhole_iff.mp (heach line hline)⟩
  · rintro ⟨hroom, hwhole⟩
    rw [hsame hroom]
    refine Eq.trans (List.map_inj_left.mpr fun line hline => ?_) (List.map_id _)
    exact seenWhole_iff.mpr (hwhole line hline)

/-- Lines with their newlines, without these. -/
theorem filter_joinLines {ls : List Bytes} (h : ∀ l ∈ ls, newline ∉ l) :
    (joinLines ls).filter (· ≠ newline) = ls.flatten := by
  unfold joinLines
  induction ls with
  | nil => rfl
  | cons l ls ih =>
    obtain ⟨hl, hls⟩ := List.forall_mem_cons.mp h
    have hkeep : l.filter (· ≠ newline) = l := by
      refine List.filter_eq_self.mpr fun c hc => ?_
      have hne : c ≠ newline := fun h => hl (h ▸ hc)
      simpa using hne
    rw [List.flatMap_cons, List.filter_append, List.filter_append, hkeep, ih hls,
      List.flatten_cons]
    simp

/-- Nothing but newlines is missing in the lines of a text. -/
theorem flatten_splitLines (s : Bytes) : (splitLines s).flatten = s.filter (· ≠ newline) := by
  rw [← filter_joinLines fun _ hl => newline_notMem_splitLines hl, joinLines_splitLines]
  unfold terminated
  split
  · simp
  · rfl

/-- The rows of a diff are its lines. -/
theorem detailRows_of_isDiff (scr : Screen) (h : isDiff details = true) :
    detailRows scr details = splitLines details := by
  unfold detailRows
  rw [if_pos h]
  unfold isDiff at h
  unfold detailLines at h ⊢
  split
  · rename_i hnil
    rw [if_pos hnil] at h
    simp at h
  · rfl

/-- Nothing but spaces is missing in the lines of some paragraphs. -/
theorem flatMap_paragraphs {paras : List Bytes} {paragraphs : List (List Bytes)} {width : Nat}
    (hwidth : 0 < width) (h : List.Forall₂ (TextWrap.Wrapped width) paras paragraphs) :
    paragraphs.flatten.flatMap (List.filter (· ≠ space)) =
      paras.flatMap (List.filter (· ≠ space)) := by
  induction h with
  | nil => rfl
  | cons hone _ ih =>
    rw [List.flatten_cons, List.flatMap_append, ih, hone.kept hwidth, List.flatMap_cons]

/-- **Nothing but spaces and newlines** is missing in the rows of the details. -/
theorem flatMap_detailRows (scr : Screen) (details : Bytes) :
    (detailRows scr details).flatMap (List.filter (· ≠ space)) =
      (details.filter (· ≠ newline)).filter (· ≠ space) := by
  cases hdiff : isDiff details with
  | true =>
    rw [detailRows_of_isDiff scr hdiff, ← flatten_splitLines, List.filter_flatten, List.flatMap_def]
  | false =>
    obtain ⟨paragraphs, hrows, hwrapped⟩ :=
      TextWrap.wrapText_wrapped details (wrapWidth scr details)
    have hkept := flatMap_paragraphs (TextWrap.lineWidth_pos _) hwrapped
    unfold detailRows
    rw [hdiff, if_neg Bool.false_ne_true, hrows, hkept, List.flatMap_def, ← List.filter_flatten]
    have hsplit : ([newline].intercalate (details.splitOn newline)).filter (· ≠ newline) =
        (details.splitOn newline).flatten :=
      Fill.filter_intercalate fun l hl => Fill.notMem_of_mem_splitOn hl
    rw [List.intercalate_splitOn] at hsplit
    rw [← hsplit]

/-- A row of one line of ASCII is not cut off. -/
theorem seenWhole_ascii (hone : isDiff details = false)
    (h : ∀ c ∈ details, c ≠ 0 ∧ c < 0x80) (hline : line ∈ detailRows scr details) :
    SeenWhole scr details line := by
  have hvalid : Utf8 details := Utf8.valid_ascii fun c hc => (h c hc).2
  have hrow : line ∈ wrapText details (wrapWidth scr details) := by
    unfold detailRows at hline
    rwa [hone, if_neg Bool.false_ne_true] at hline
  have hbytes : ∀ c ∈ line, c ≠ 0 ∧ c < 0x80 := by
    intro c hc
    by_cases hspace : c = space
    · rw [hspace]
      decide
    · have hkept : c ∈ (detailRows scr details).flatMap (List.filter (· ≠ space)) :=
        List.mem_flatMap.mpr ⟨line, hline, List.mem_filter.mpr ⟨hc, by simpa using hspace⟩⟩
      rw [flatMap_detailRows scr details] at hkept
      exact h c (List.mem_of_mem_filter (List.mem_of_mem_filter hkept))
  obtain ⟨hline, hcount⟩ := ChatView.count_le_of_mem_wrapText hvalid hrow
  have hlength : line.length = Utf8.count line :=
    (Utf8.length_eq_count_iff hline).mpr fun c hc => (hbytes c hc).2
  have hwidth : 16 ≤ wrapWidth scr details := by
    unfold wrapWidth boxWidth
    omega
  unfold lineWidth at hcount
  rw [if_neg (by omega)] at hcount
  exact ⟨fun hzero => (hbytes 0 hzero).1 rfl, by omega⟩

/-! ## 3. What is asked and what is answered -/

/-- The window is on the screen, and what is drawn in it keeps within its border. -/
structure Window.Fits (win : Window) (scr : Screen) (drawn : List Draw) : Prop where
  top : 0 ≤ win.top
  left : 0 ≤ win.left
  bottom : win.top + win.height ≤ scr.lines
  right : win.left + win.width ≤ scr.cols
  inside : ∀ d ∈ drawn, 1 ≤ d.row ∧ d.row + 2 ≤ win.height ∧ 2 + d.n + 2 = win.width

/-- **The box is on the screen**, and all its rows are within its border. -/
theorem window_fits (hlines : 9 ≤ scr.lines) (hcols : 22 ≤ scr.cols) (tool details : Bytes) :
    (window scr tool details).Fits scr (draws scr tool details) := by
  have hlength : (lines scr tool details).length = (content scr details).length + 4 := by
    unfold lines
    simp
  have hroom := (@length_content scr details).1
  have hheight : (window scr tool details).height ≤ scr.lines - 2 := by
    unfold maxContent at hroom
    unfold window
    dsimp only
    omega
  have hwidth : (window scr tool details).width ≤ scr.cols - 2 := by
    unfold window boxWidth
    dsimp only
    split <;> omega
  refine ⟨le_max_left _ _, le_max_left _ _, ?_, ?_, ?_⟩
  · unfold window at hheight ⊢
    dsimp only at hheight ⊢
    rw [Int.tdiv_eq_ediv_of_nonneg (by omega)]
    omega
  · unfold window at hwidth ⊢
    dsimp only at hwidth ⊢
    rw [Int.tdiv_eq_ediv_of_nonneg (by omega)]
    omega
  · intro d hd
    obtain ⟨i, hi, rfl⟩ := List.mem_mapIdx.mp hd
    unfold window wrapWidth
    dsimp only
    omega

/-- **The answer** is that of the first key that is one. -/
theorem waitForAnswer_eq_some_iff {keys : List Int} {choice : ConfirmChoice} :
    waitForAnswer keys = some choice ↔ ∃ ignored ch later, keys = ignored ++ ch :: later ∧
      (∀ k ∈ ignored, answer k = none) ∧ answer ch = some choice := by
  constructor
  · intro h
    induction keys with
    | nil => cases h
    | cons ch keys ih =>
      unfold waitForAnswer at h
      cases hch : answer ch with
      | some c =>
        rw [hch] at h
        exact ⟨[], ch, keys, rfl, List.forall_mem_nil _, hch.trans h⟩
      | none =>
        rw [hch] at h
        obtain ⟨ignored, k, later, rfl, hignored, hk⟩ := ih h
        exact ⟨ch :: ignored, k, later, rfl, List.forall_mem_cons.mpr ⟨hch, hignored⟩, hk⟩
  · rintro ⟨ignored, ch, later, rfl, hignored, hch⟩
    induction ignored with
    | nil =>
      rw [List.nil_append]
      unfold waitForAnswer
      rw [hch]
    | cons k ignored ih =>
      obtain ⟨hk, hignored⟩ := List.forall_mem_cons.mp hignored
      rw [List.cons_append]
      unfold waitForAnswer
      rw [hk]
      exact ih hignored

/-- **What is asked and what is answered.**  The box is on the screen, unless that is very small.
The details are on it, of one line but for spaces, if there is room for their rows and none is cut
off; where there is no room, the last row says how many are missing.  A row of one line of ASCII is
never cut off.  The answer is that of the first key that is one. -/
theorem ask_shown (scr : Screen) (tool details : Bytes) (keys : List Int) :
    (9 ≤ scr.lines → 22 ≤ scr.cols →
      (window scr tool details).Fits scr (ask scr tool details keys).1) ∧
    (ShowsDetails scr tool details ↔
      ((detailRows scr details).length : Int) ≤ maxContent scr ∧
        ∀ line ∈ detailRows scr details, SeenWhole scr details line) ∧
    (ShowsDetails scr tool details →
      (seenDetails scr tool details).flatMap (List.filter (· ≠ space)) =
          (details.filter (· ≠ newline)).filter (· ≠ space) ∧
        (isDiff details = true → joinLines (seenDetails scr tool details) = terminated details)) ∧
    (maxContent scr < (detailRows scr details).length → ∃ shown hidden,
      detailRows scr details = shown ++ hidden ∧
        content scr details = shown ++ [moreLines hidden.length]) ∧
    (isDiff details = false → (∀ c ∈ details, c ≠ 0 ∧ c < 0x80) →
      ∀ line ∈ detailRows scr details, SeenWhole scr details line) ∧
    ∀ choice, (ask scr tool details keys).2 = some choice ↔
      ∃ ignored ch later, keys = ignored ++ ch :: later ∧ (∀ k ∈ ignored, answer k = none) ∧
        answer ch = some choice := by
  refine ⟨fun hlines hcols => window_fits hlines hcols tool details, showsDetails_iff,
    fun hshown => ?_, fun hmany => ?_,
    fun hone hascii line hline => seenWhole_ascii hone hascii hline,
    fun choice => waitForAnswer_eq_some_iff⟩
  · unfold ShowsDetails at hshown
    rw [hshown]
    refine ⟨flatMap_detailRows scr details, fun hdiff => ?_⟩
    rw [detailRows_of_isDiff scr hdiff, joinLines_splitLines]
  · have hroom := maxContent_pos scr
    refine ⟨_, _, (List.take_append_drop ((maxContent scr).toNat - 1) _).symm, ?_⟩
    unfold content
    dsimp only
    rw [if_pos (by omega), List.length_drop]

/-- A screen of 24 lines with 80 columns.  Behind a line break and enough blanks, a command goes on
where it is not seen, and no row says so. -/
theorem ask_shown_padded :
    let details := bytes "true\n" ++ List.replicate 74 space ++ bytes "; make clean"
    ¬ ShowsDetails ⟨24, 80⟩ (bytes "run_bash") details ∧
      content ⟨24, 80⟩ details = detailRows ⟨24, 80⟩ details := by
  intro details
  have hrows : detailRows ⟨24, 80⟩ details =
      [bytes "true", List.replicate 74 space ++ bytes "; make clean"] := by
    decide +kernel
  have hcontent : content ⟨24, 80⟩ details = detailRows ⟨24, 80⟩ details := by
    unfold content
    rw [hrows]
    rfl
  refine ⟨fun hshown => ?_, hcontent⟩
  have hwhole := ((ask_shown ⟨24, 80⟩ (bytes "run_bash") details []).2.1.mp hshown).2
  rw [hrows] at hwhole
  have hlast := (hwhole _ (List.mem_cons_of_mem _ (List.mem_singleton_self _))).2
  revert hlast
  decide +kernel

end ConfirmDialog

end SimpleCoder

/-
# Word wrapping

`wrap_text` wraps a text paragraph by paragraph.  A paragraph is scanned for its words, and each
word is put on the open line if it fits, after it has been broken while it is wider than a line.

* §1 has the functions.  The loops have fuel, which is as much as the text is long.
* §2: with any more of it, the lines of a paragraph are the greedy filling with the pieces of its
  words (`wrapParagraph_wrapped`).  There is only one, so the fuel does not matter, which is to say
  that the loops end.  This holds of any bytes.
* §3: a line is as wide as its words with a space between, unless a character is cut off by a
  space (`cols_intercalate`).
* §4 is about valid text, where columns are characters: no line is wider than it should be.
-/
import SimpleCoder.Lib.Fill
import SimpleCoder.Util.Boundaries

namespace SimpleCoder

namespace TextWrap

/-! ## 1. The functions -/

/-- `cols`. -/
def cols (s : Bytes) : Nat := Utf8.count s

/-- `take_cols`. -/
def takeCols (word : Bytes) (n : Nat) : Bytes := word.take (Utf8.advance word n 0)

/-- The lines that are done, and the open one with its width. -/
structure Wrapping where
  out : List Bytes := []
  line : Bytes := []
  lineCols : Nat := 0

/-- Close the open line, if there is anything on it. -/
def Wrapping.flush (st : Wrapping) : Wrapping :=
  if st.line ≠ [] then { out := st.out ++ [st.line] } else st

/-- A line of its own. -/
def Wrapping.push (st : Wrapping) (l : Bytes) : Wrapping :=
  ⟨st.out ++ [l], st.line, st.lineCols⟩

/-- The loop over a word that is wider than the line. -/
def hardBreak (width : Nat) : Nat → Bytes → Wrapping → Bytes × Wrapping
  | 0, word, st => (word, st)
  | fuel + 1, word, st =>
    if width < cols word then
      let chunk := takeCols word width
      hardBreak width fuel (word.drop chunk.length) (st.flush.push chunk)
    else (word, st)

/-- What is left of a word goes on the open line, or on a new one. -/
def place (width : Nat) (word : Bytes) (st : Wrapping) : Wrapping :=
  if st.line = [] then { st with line := word, lineCols := cols word }
  else if st.lineCols + 1 + cols word ≤ width then
    { st with line := st.line ++ [space] ++ word, lineCols := st.lineCols + (1 + cols word) }
  else { out := st.out ++ [st.line], line := word, lineCols := cols word }

/-- The loop of `wrap_paragraph`: over some spaces and then over a word. -/
def scan (width : Nat) : Nat → Bytes → Wrapping → Wrapping
  | 0, _, st => st
  | fuel + 1, para, st =>
    let para := para.dropWhile (· = space)
    if para = [] then st
    else
      let word := para.takeWhile (· ≠ space)
      let broken := hardBreak width (fuel + 1) word st
      scan width fuel (para.dropWhile (· ≠ space)) (place width broken.1 broken.2)

/-- `wrap_paragraph`.  An empty paragraph is an empty line. -/
def wrapParagraph (fuel : Nat) (para : Bytes) (width : Nat) : List Bytes :=
  if para = [] then [[]] else (scan width fuel para {}).flush.out

/-- The width `wrap_text` wraps to. -/
def lineWidth (width : Int) : Nat := if width < 1 then 1 else width.toNat

/-- `wrap_text` with so much fuel. -/
def wrapWithin (fuel : Nat) (text : Bytes) (width : Int) : List Bytes :=
  (text.splitOn newline).flatMap fun para => wrapParagraph fuel para (lineWidth width)

/-- `wrap_text`. -/
def wrapText (text : Bytes) (width : Int) : List Bytes := wrapWithin text.length text width

/-! ## 2. The loops fill greedily -/

/-- `cols` and `take_cols`, which agree on any bytes. -/
def ruler : Fill.Ruler UInt8 where
  cols := cols
  takeCols := takeCols
  cols_nil := rfl
  takeCols_append_drop l n := by
    have hlen : (takeCols l n).length = Utf8.advance l n 0 :=
      List.length_take_of_le (Utf8.advance_le n (Nat.zero_le _))
    rw [hlen]
    exact List.take_append_drop _ l
  cols_takeCols _ _ h := Utf8.count_take_advance h
  cols_drop l n := by
    have hlen : (takeCols l n).length = Utf8.advance l n 0 :=
      List.length_take_of_le (Utf8.advance_le n (Nat.zero_le _))
    rw [hlen]
    exact Utf8.count_drop_advance l n

/-- The pieces of the words of a paragraph. -/
def items (width : Nat) (para : Bytes) : List Bytes :=
  (Fill.words space para).flatMap (ruler.pieces width)

/-- The lines of a paragraph. -/
inductive Wrapped (width : Nat) (para : Bytes) : List Bytes → Prop
  | blank : para = [] → Wrapped width para [[]]
  | filled (groups : List (List Bytes)) : para ≠ [] →
      Fill.Filled cols width (items width para) groups →
      Wrapped width para (groups.map [space].intercalate)

/-- What has been put on lines so far: either the last line is full and closed, or it is open. -/
inductive Holds (width : Nat) (done : List Bytes) : Wrapping → Prop
  | closed {groups : List (List Bytes)} {n : Nat} : Fill.Filled cols width done groups →
      (∀ g ∈ groups.getLast?, width ≤ Fill.width cols g) →
      Holds width done ⟨groups.map [space].intercalate, [], n⟩
  | opened {groups : List (List Bytes)} {g : List Bytes} :
      Fill.Filled cols width done (groups ++ [g]) → [space].intercalate g ≠ [] →
      Holds width done ⟨groups.map [space].intercalate, [space].intercalate g, Fill.width cols g⟩

section Loops

variable {width fuel : Nat} {done : List Bytes} {st : Wrapping} {word para : Bytes}

/-- **What is closed in the end** is the filling. -/
theorem Holds.flush (h : Holds width done st) : ∃ groups, Fill.Filled cols width done groups ∧
    st.flush.out = groups.map [space].intercalate := by
  cases h with
  | closed h hfull => exact ⟨_, h, rfl⟩
  | opened h hne =>
    refine ⟨_, h, ?_⟩
    unfold Wrapping.flush
    rw [if_pos hne, List.map_append]
    rfl

/-- A chunk is a line of its own. -/
theorem Holds.chunk (h : Holds width done st) (hcols : cols word = width) :
    Holds width (done ++ [word]) (st.flush.push word) := by
  obtain ⟨groups, hfilled, hout⟩ := h.flush
  have hline : st.flush.line = [] := by
    unfold Wrapping.flush
    split
    · rfl
    · rename_i hne
      exact not_not.mp hne
  have hnew := hfilled.onNew hcols.le fun g _ => by omega
  have hmap : groups.map [space].intercalate ++ [word] =
      (groups ++ [[word]]).map [space].intercalate := by
    simp
  unfold Wrapping.push
  rw [hout, hline, hmap]
  refine Holds.closed hnew fun g hg => ?_
  obtain rfl : [word] = g := by simpa using hg
  rw [Fill.width_singleton, hcols]

/-- What is left of a word is put where it belongs. -/
theorem Holds.place (h : Holds width done st) (hne : word ≠ []) (hcols : cols word ≤ width) :
    Holds width (done ++ [word]) (place width word st) := by
  cases h with
  | @closed groups n h hfull =>
    have hnew := h.onNew hcols fun g hg => by
      have := hfull g hg
      omega
    have hopen : Holds width (done ++ [word]) ⟨groups.map [space].intercalate,
        [space].intercalate [word], Fill.width cols [word]⟩ :=
      .opened hnew (by simpa using hne)
    rw [List.intercalate_singleton, Fill.width_singleton] at hopen
    exact hopen
  | @opened groups g h hline =>
    unfold TextWrap.place
    rw [if_neg hline]
    dsimp only
    split
    · rename_i hfits
      have hg : g ≠ [] := fun hnil => hline (by rw [hnil]; rfl)
      have hjoin := Fill.intercalate_snoc space hg word
      have hopen : Holds width (done ++ [word]) ⟨groups.map [space].intercalate,
          [space].intercalate (g ++ [word]), Fill.width cols (g ++ [word])⟩ :=
        .opened (h.onOpen hfits) (by rw [hjoin]; simp)
      rw [hjoin, Fill.width_snoc cols hg] at hopen
      rw [List.append_assoc, List.singleton_append, ← Nat.add_assoc]
      exact hopen
    · rename_i hfull
      have hnew := h.onNew hcols fun g' hg' => by
        obtain rfl : g = g' := by simpa using hg'
        omega
      have hopen : Holds width (done ++ [word]) ⟨(groups ++ [g]).map [space].intercalate,
          [space].intercalate [word], Fill.width cols [word]⟩ :=
        .opened hnew (by simpa using hne)
      rw [List.intercalate_singleton, Fill.width_singleton, List.map_append] at hopen
      exact hopen

/-- **The loop over a wide word** puts all pieces of it on lines but the last, which is left. -/
theorem Holds.hardBreak (hwidth : 0 < width) (h : Holds width done st) (hne : word ≠ [])
    (hfuel : cols word ≤ fuel) : ∃ chunks last st',
      hardBreak width fuel word st = (last, st') ∧ ruler.pieces width word = chunks ++ [last] ∧
      last ≠ [] ∧ cols last ≤ width ∧ Holds width (done ++ chunks) st' := by
  induction fuel generalizing word st done with
  | zero =>
    have hle : ruler.cols word ≤ width := by
      change cols word ≤ width
      omega
    exact ⟨[], word, st, rfl, Fill.Ruler.pieces_of_le hle, hne, hle, by rwa [List.append_nil]⟩
  | succ fuel ih =>
    unfold TextWrap.hardBreak
    split
    · rename_i hwide
      have hcols : cols (takeCols word width) = width := Utf8.count_take_advance hwide.le
      have hrest : cols (word.drop (takeCols word width).length) = cols word - width :=
        ruler.cols_drop word width
      have hleft : word.drop (takeCols word width).length ≠ [] :=
        Fill.Ruler.ne_nil_of_cols (r := ruler) (by
          change 0 < cols _
          omega)
      obtain ⟨chunks, last, st', hrun, hpieces, hlast, hle, hst⟩ :=
        ih (h.chunk hcols) hleft (by omega)
      refine ⟨takeCols word width :: chunks, last, st', hrun, ?_, hlast, hle, ?_⟩
      · rw [Fill.Ruler.pieces_of_lt hwidth (show width < ruler.cols word from hwide)]
        exact congrArg (takeCols word width :: ·) hpieces
      · rwa [List.append_cons]
    · rename_i hnarrow
      have hle : ruler.cols word ≤ width := Nat.le_of_not_lt hnarrow
      exact ⟨[], word, st, rfl, Fill.Ruler.pieces_of_le hle, hne, hle, by rwa [List.append_nil]⟩

/-- **The loop over the words** puts the pieces of all words on lines. -/
theorem Holds.scan (hwidth : 0 < width) (h : Holds width done st) (hfuel : para.length ≤ fuel) :
    Holds width (done ++ items width para) (scan width fuel para st) := by
  induction fuel generalizing para st done with
  | zero =>
    obtain rfl : para = [] := List.eq_nil_of_length_eq_zero (by omega)
    unfold items
    rw [Fill.words_nil, List.flatMap_nil, List.append_nil]
    exact h
  | succ fuel ih =>
    have hwords := Fill.words_dropWhile space para
    have hlen := (List.dropWhile_sublist (· = space) (l := para)).length_le
    unfold TextWrap.scan items
    dsimp only
    rw [← hwords]
    generalize hrest : para.dropWhile (· = space) = rest at hlen
    split
    · rename_i hnil
      rw [hnil, Fill.words_nil, List.flatMap_nil, List.append_nil]
      exact h
    · rename_i hne
      have hhead : rest.head? ≠ some space := by
        intro hhead
        have hfirst := List.head?_dropWhile_not (· = space) para
        rw [hrest, hhead] at hfirst
        simp at hfirst
      have hword : rest.takeWhile (· ≠ space) ≠ [] := by
        have hmem : rest.takeWhile (· ≠ space) ∈ Fill.words space rest := by
          rw [Fill.words_eq_cons hne hhead]
          exact List.mem_cons_self
        exact (Fill.mem_words hmem).1
      -- the word is not empty, so less is left than the fuel
      have hsplit := congrArg List.length
        (List.takeWhile_append_dropWhile (p := (· ≠ space)) (l := rest))
      have hpos := List.length_pos_of_ne_nil hword
      have hcols : cols (rest.takeWhile (· ≠ space)) ≤ (rest.takeWhile (· ≠ space)).length :=
        Utf8.countFrom_le _ 0
      rw [List.length_append] at hsplit
      obtain ⟨chunks, last, st', hrun, hpieces, hlast, hle, hst⟩ :=
        h.hardBreak hwidth hword (show cols _ ≤ fuel + 1 by omega)
      have hnext := ih (hst.place hlast hle) (show (rest.dropWhile (· ≠ space)).length ≤ fuel by
        omega)
      rw [hrun, Fill.words_eq_cons hne hhead, List.flatMap_cons, hpieces]
      unfold items at hnext
      rwa [List.append_assoc, List.append_assoc, ← List.append_assoc chunks] at hnext

/-- **The lines of a paragraph** are the greedy filling. -/
theorem wrapParagraph_wrapped (hwidth : 0 < width) (hfuel : para.length ≤ fuel) :
    Wrapped width para (wrapParagraph fuel para width) := by
  unfold wrapParagraph
  split
  · rename_i hnil
    exact .blank hnil
  · rename_i hne
    have hstart : Holds width [] {} := .closed .nil fun g hg => by simp at hg
    obtain ⟨groups, hfilled, hout⟩ := (hstart.scan hwidth hfuel).flush
    rw [List.nil_append] at hfilled
    rw [hout]
    exact .filled groups hne hfilled

end Loops

section Lines

variable {width : Nat} {para : Bytes} {lines lines' : List Bytes}

theorem Wrapped.unique (h : Wrapped width para lines) (h' : Wrapped width para lines') :
    lines = lines' := by
  cases h with
  | blank hnil =>
    cases h' with
    | blank => rfl
    | filled _ hne => exact absurd hnil hne
  | filled groups hne h =>
    cases h' with
    | blank hnil => exact absurd hnil hne
    | filled groups' _ h' => rw [h.unique h']

theorem lineWidth_pos (width : Int) : 0 < lineWidth width := by
  unfold lineWidth
  split <;> omega

theorem length_le_of_mem_splitOn {text : Bytes} (h : para ∈ text.splitOn newline) :
    para.length ≤ text.length := by
  have hlen : ∀ l ∈ text.splitOn newline, l.length ≤ ([newline].intercalate
      (text.splitOn newline)).length := by
    generalize text.splitOn newline = pieces
    induction pieces with
    | nil => exact fun l hl => absurd hl List.not_mem_nil
    | cons piece pieces ih =>
      intro l hl
      cases pieces with
      | nil =>
        rw [List.mem_singleton.mp hl, List.intercalate_singleton]
      | cons next pieces =>
        rw [List.intercalate_cons_cons, List.length_append, List.length_append]
        rcases List.mem_cons.mp hl with rfl | hl
        · omega
        · have := ih l hl
          omega
  have hle := hlen para h
  rwa [List.intercalate_splitOn] at hle

/-- **More fuel makes no difference.** -/
theorem wrapWithin_eq {text : Bytes} {fuel : Nat} (h : text.length ≤ fuel) (width : Int) :
    wrapWithin fuel text width = wrapText text width := by
  unfold wrapText wrapWithin
  refine List.flatMap_congr fun para hpara => ?_
  have hlen := length_le_of_mem_splitOn hpara
  exact (wrapParagraph_wrapped (lineWidth_pos width) (hlen.trans h)).unique
    (wrapParagraph_wrapped (lineWidth_pos width) hlen)

/-- The paragraphs of a text and the lines of each. -/
theorem wrapText_wrapped (text : Bytes) (width : Int) : ∃ paragraphs : List (List Bytes),
    wrapText text width = paragraphs.flatten ∧
      List.Forall₂ (Wrapped (lineWidth width)) (text.splitOn newline) paragraphs := by
  refine ⟨(text.splitOn newline).map fun para => wrapParagraph text.length para (lineWidth width),
    List.flatMap_def, ?_⟩
  refine List.forall₂_map_right_iff.mpr (List.forall₂_same.mpr fun para hpara => ?_)
  exact wrapParagraph_wrapped (lineWidth_pos width) (length_le_of_mem_splitOn hpara)

/-- A line is one of those of a paragraph. -/
theorem exists_wrapped_of_mem {text l : Bytes} {width : Int} (h : l ∈ wrapText text width) :
    ∃ para ∈ text.splitOn newline, ∃ lines, Wrapped (lineWidth width) para lines ∧ l ∈ lines := by
  obtain ⟨paragraphs, hlines, hwrapped⟩ := wrapText_wrapped text width
  rw [hlines] at h
  obtain ⟨lines, hmem, hl⟩ := List.mem_flatten.mp h
  obtain ⟨i, hi, rfl⟩ := List.mem_iff_getElem.mp hmem
  have hlen := hwrapped.length_eq
  exact ⟨_, List.getElem_mem (by omega), _, hwrapped.get (by omega) hi, hl⟩

/-- The items of a paragraph are parts of its words. -/
theorem mem_items (hwidth : 0 < width) {u : Bytes} (hu : u ∈ items width para) :
    u ≠ [] ∧ space ∉ u ∧ cols u ≤ width := by
  obtain ⟨word, hword, hpiece⟩ := List.mem_flatMap.mp hu
  obtain ⟨hne, hno⟩ := Fill.mem_words hword
  obtain ⟨hune, hcols⟩ := Fill.Ruler.mem_pieces (r := ruler) hwidth hne hpiece
  refine ⟨hune, fun hmem => hno ?_, hcols⟩
  rw [← Fill.Ruler.flatten_pieces (r := ruler) hwidth word]
  exact List.mem_flatten.mpr ⟨u, hpiece, hmem⟩

/-- The words of a paragraph, with one space between. -/
def joined (para : Bytes) : Bytes := [space].intercalate (Fill.words space para)

/-- **Words that fit on one line** are on one line. -/
theorem wrapped_joined (hwords : Fill.words space para ≠ [])
    (hfits : Fill.width cols (Fill.words space para) ≤ width) :
    Wrapped width para [joined para] := by
  have hwhole : items width para = Fill.words space para := by
    have hone : ∀ u ∈ Fill.words space para, ruler.pieces width u = [u] := fun u hu =>
      Fill.Ruler.pieces_of_le ((Fill.size_le_width cols hu).trans hfits)
    unfold items
    rw [List.flatMap_congr hone, List.flatMap_singleton']
  have hne : para ≠ [] := by
    rintro rfl
    exact hwords (Fill.words_nil space)
  refine .filled [Fill.words space para] hne ?_
  rw [hwhole]
  exact Fill.Filled.singleton hwords hfits

/-- **A paragraph is one line, and that as it is,** exactly if it is empty, or has no spaces but
one between words and its words fit on one line. -/
theorem wrapped_self_iff (hwidth : 0 < width) : Wrapped width para [para] ↔
    para = [] ∨
      Fill.Spaced space para ∧ Fill.width cols (Fill.words space para) ≤ width := by
  constructor
  · intro h
    generalize hlines : [para] = lines at h
    cases h with
    | blank hnil => exact Or.inl hnil
    | filled groups hne hfilled =>
      right
      obtain ⟨g, rfl, hg⟩ := List.map_eq_singleton_iff.mp hlines.symm
      obtain rfl : g = items width para := by
        rw [← hfilled.flatten, List.flatten_singleton]
      have hitems : ∀ u ∈ items width para, u ≠ [] ∧ space ∉ u := fun u hu =>
        ⟨(mem_items hwidth hu).1, (mem_items hwidth hu).2.1⟩
      have hspaced := Fill.spaced_intercalate hitems
      have hwords := Fill.words_intercalate hitems
      have hfits := hfilled.fits _ (List.mem_singleton_self _)
      rw [hg] at hspaced hwords
      rw [hwords]
      exact ⟨hspaced, hfits⟩
  · rintro (rfl | ⟨hspaced, hfits⟩)
    · exact .blank rfl
    · by_cases hne : para = []
      · rw [hne]
        exact .blank rfl
      · have hjoin : joined para = para := Fill.intercalate_words_iff.mpr hspaced
        have hwords : Fill.words space para ≠ [] := fun hnil => hne <| by
          rw [← hjoin, joined, hnil, List.intercalate_nil]
        have hwrapped := wrapped_joined hwords hfits
        rwa [hjoin] at hwrapped

/-- A paragraph comes to no line at all if it has spaces and nothing else. -/
theorem Wrapped.eq_nil_iff (hwidth : 0 < width) (h : Wrapped width para lines) :
    lines = [] ↔ para ≠ [] ∧ Fill.words space para = [] := by
  cases h with
  | blank hnil => simp [hnil]
  | filled groups hne hfilled =>
    have hitems : groups = [] ↔ items width para = [] := by
      rw [← hfilled.flatten, List.flatten_eq_nil_iff]
      constructor
      · rintro rfl g hg
        cases hg
      · intro hall
        refine List.eq_nil_iff_forall_not_mem.mpr fun g hg => ?_
        exact hfilled.ne_nil (hall g hg ▸ hg)
    have hpieces : items width para = [] ↔ Fill.words space para = [] := by
      unfold items
      rw [List.flatMap_eq_nil_iff]
      constructor
      · intro hall
        refine List.eq_nil_iff_forall_not_mem.mpr fun u hu => (Fill.mem_words hu).1 ?_
        rw [← Fill.Ruler.flatten_pieces (r := ruler) hwidth u, hall u hu, List.flatten_nil]
      · rintro hnil u hu
        rw [hnil] at hu
        cases hu
    rw [List.map_eq_nil_iff, hitems, hpieces]
    exact (and_iff_right hne).symm

/-- **One column less** makes for no more than five times as many lines. -/
theorem Wrapped.length_le {width' : Nat} (hwidth : 0 < width) (hwidth' : 0 < width')
    (hle : width' ≤ width + 1) (h : Wrapped width para lines) (h' : Wrapped width' para lines') :
    lines.length ≤ 5 * lines'.length := by
  cases h with
  | blank hnil =>
    cases h' with
    | blank => simp
    | filled _ hne => exact absurd hnil hne
  | filled groups hne hfilled =>
    cases h' with
    | blank hnil => exact absurd hnil hne
    | filled groups' _ hfilled' =>
      rw [List.length_map, List.length_map]
      exact Fill.length_le_of_le_succ (r := ruler) hwidth hwidth' hle hfilled hfilled'

theorem length_wrapText_le (text : Bytes) {width width' : Int} (h : width' ≤ width + 1) :
    (wrapText text width).length ≤ 5 * (wrapText text width').length := by
  have hle : lineWidth width' ≤ lineWidth width + 1 := by
    unfold lineWidth
    split <;> split <;> omega
  have hpara : ∀ para ∈ text.splitOn newline,
      (wrapParagraph text.length para (lineWidth width)).length ≤
        5 * (wrapParagraph text.length para (lineWidth width')).length := by
    intro para hmem
    have hfuel := length_le_of_mem_splitOn hmem
    exact Wrapped.length_le (lineWidth_pos width) (lineWidth_pos width') hle
      (wrapParagraph_wrapped (lineWidth_pos width) hfuel)
      (wrapParagraph_wrapped (lineWidth_pos width') hfuel)
  unfold wrapText wrapWithin
  generalize text.splitOn newline = paras at hpara
  induction paras with
  | nil => exact Nat.le_refl _
  | cons para paras ih =>
    have hfirst := hpara para List.mem_cons_self
    have hrest := ih fun q hq => hpara q (List.mem_cons_of_mem _ hq)
    rw [List.flatMap_cons, List.flatMap_cons, List.length_append, List.length_append]
    omega

end Lines

/-! ## 3. Where columns add up -/

/-- A space cuts a character off: what is in front of it announces bytes that are not there. -/
def Torn (l : Bytes) : Prop := ∃ s t, l = s ++ space :: t ∧ 0 < Utf8.reach 0 s

section Torn

variable {width : Nat} {para l : Bytes} {lines g : List Bytes}

/-- No character of a valid line is cut off. -/
theorem not_torn (h : SimpleCoder.Utf8 l) : ¬ Torn l := by
  rintro ⟨s, t, rfl, hreach⟩
  have hs : SimpleCoder.Utf8 s := (Utf8.valid_append_iff fun b hb => by
    obtain rfl : space = b := Option.some.inj hb
    rfl).mp h |>.1
  rw [Utf8.reach_eq_zero hs] at hreach
  exact Nat.lt_irrefl 0 hreach

/-- **Columns add up** where no character is cut off: a line is as wide as its words, with a column
between. -/
theorem cols_intercalate (h : ¬ Torn ([space].intercalate g)) :
    cols ([space].intercalate g) = Fill.width cols g := by
  induction g with
  | nil => rfl
  | cons u g ih =>
    cases g with
    | nil => rw [List.intercalate_singleton, Fill.width_singleton]
    | cons v g =>
      rw [List.intercalate_cons_cons, List.append_assoc, List.singleton_append] at h ⊢
      have hu : Utf8.reach 0 u = 0 := by
        by_contra hpos
        exact h ⟨u, _, rfl, Nat.pos_of_ne_zero hpos⟩
      -- behind the first space the walk is at the start of a character
      have hspace : Utf8.reach 0 (u ++ [space]) = 0 := by
        rw [Utf8.reach_append, hu]
        rfl
      have hrest : ¬ Torn ([space].intercalate (v :: g)) := by
        rintro ⟨s, t, heq, hreach⟩
        refine h ⟨u ++ [space] ++ s, t, ?_, ?_⟩
        · rw [heq]
          simp
        · rwa [Utf8.reach_append, hspace]
      have hsplit := Utf8.countFrom_append_reach 0 (u ++ [space]) ([space].intercalate (v :: g))
      have hfirst := Utf8.countFrom_append_reach 0 u [space]
      rw [hspace, List.append_assoc, List.singleton_append, hfirst, hu] at hsplit
      rw [Fill.width_cons_cons, ← ih hrest]
      exact hsplit

/-- **A line where columns add up fits.** -/
theorem Wrapped.fits (h : Wrapped width para lines) (hl : l ∈ lines) (hwhole : ¬ Torn l) :
    cols l ≤ width := by
  cases h with
  | blank hnil =>
    rw [List.mem_singleton.mp hl]
    exact Nat.zero_le _
  | filled groups hne hfilled =>
    obtain ⟨g, hg, rfl⟩ := List.mem_map.mp hl
    exact (cols_intercalate hwhole).trans_le (hfilled.fits g hg)

end Torn

/-! ## 4. Valid text -/

section Valid

variable {width : Nat} {para : Bytes} {g : List Bytes}

theorem valid_space : SimpleCoder.Utf8 [space] := by decide

/-- The words of a valid paragraph are valid, and so are their pieces. -/
theorem valid_items (hwidth : 0 < width) (h : SimpleCoder.Utf8 para) :
    ∀ u ∈ items width para, SimpleCoder.Utf8 u := by
  intro u hu
  obtain ⟨word, hword, hpiece⟩ := List.mem_flatMap.mp hu
  have hvalid : SimpleCoder.Utf8 word :=
    Utf8.valid_of_mem_splitOn (by decide) h (List.mem_filter.mp hword).1
  clear hword hu
  induction word using Fill.Ruler.pieces_induction hwidth (r := ruler) with
  | whole word hle =>
    rw [List.mem_singleton.mp hpiece]
    exact hvalid
  | chunk word hlt ih =>
    have hparts := Utf8.valid_take_advance hvalid width
    rcases List.mem_cons.mp hpiece with rfl | hpiece
    · exact hparts.1
    · refine ih hpiece ?_
      have hlen : (takeCols word width).length = Utf8.advance word width 0 :=
        List.length_take_of_le (Utf8.advance_le width (Nat.zero_le _))
      change SimpleCoder.Utf8 (word.drop (takeCols word width).length)
      rw [hlen]
      exact hparts.2

/-- **A line of valid words** is valid, and as wide as its words with a column between. -/
theorem valid_intercalate (h : ∀ u ∈ g, SimpleCoder.Utf8 u) :
    SimpleCoder.Utf8 ([space].intercalate g) ∧
      cols ([space].intercalate g) = Fill.width cols g := by
  have hvalid : SimpleCoder.Utf8 ([space].intercalate g) := by
    induction g with
    | nil => exact utf8_nil
    | cons u g ih =>
      have hrest := ih fun v hv => h v (List.mem_cons_of_mem _ hv)
      have hu := h u List.mem_cons_self
      cases g with
      | nil => rwa [List.intercalate_singleton]
      | cons v g =>
        rw [List.intercalate_cons_cons]
        exact (hu.append valid_space).append hrest
  exact ⟨hvalid, cols_intercalate (not_torn hvalid)⟩

theorem valid_joined (h : SimpleCoder.Utf8 para) :
    SimpleCoder.Utf8 (joined para) ∧
      cols (joined para) = Fill.width cols (Fill.words space para) :=
  valid_intercalate fun _ hu =>
    Utf8.valid_of_mem_splitOn (by decide) h (List.mem_of_mem_filter hu)

end Valid

/-- A paragraph and its lines, in terms of its words. -/
structure WellWrapped (width : Nat) (para : Bytes) (lines : List Bytes) : Prop where
  fits : ∀ l ∈ lines, SimpleCoder.Utf8 l ∧ Utf8.count l ≤ width
  trimmed : ∀ l ∈ lines, l.head? ≠ some space ∧ l.getLast? ≠ some space
  kept : (lines.flatMap fun l => l.filter (· ≠ space)) = para.filter (· ≠ space)
  /-- A paragraph of nothing is one line of nothing, and no other has such a line. -/
  blank : para = [] → lines = [[]]
  nonempty : para ≠ [] → [] ∉ lines
  /-- Each line has pieces of words, at least one, with one space between.  No piece is empty, a
  word that fits on a line is one piece, the pieces of any other fill a line each but for the last,
  and the first piece of a line would not have fitted on the line before. -/
  greedy : ∃ (groups : List (List Bytes)) (pieces : Bytes → List Bytes),
    lines = groups.map [space].intercalate ∧
    groups.flatten = (Fill.words space para).flatMap pieces ∧
    (para ≠ [] → [] ∉ groups) ∧
    (∀ word, Utf8.count word ≤ width → pieces word = [word]) ∧
    (∀ word, (pieces word).flatten = word) ∧
    (∀ word, word ≠ [] → [] ∉ pieces word) ∧
    (∀ word, ∀ u ∈ (pieces word).dropLast, Utf8.count u = width) ∧
    groups.IsChain fun g g' => ∀ u ∈ g'.head?,
      width < Utf8.count ([space].intercalate g) + 1 + Utf8.count u

/-- The lines of a paragraph have what it has but for spaces, whatever its bytes. -/
theorem Wrapped.kept {width : Nat} {para : Bytes} {lines : List Bytes} (hwidth : 0 < width)
    (h : Wrapped width para lines) :
    (lines.flatMap fun l => l.filter (· ≠ space)) = para.filter (· ≠ space) := by
  cases h with
  | blank hnil =>
    rw [hnil]
    rfl
  | filled groups hne hfilled =>
    have hfilter : ∀ g ∈ groups,
        ([space].intercalate g).filter (· ≠ space) = g.flatten := fun g hg =>
      Fill.filter_intercalate fun u hu => by
        have hitem : u ∈ items width para := by
          rw [← hfilled.flatten]
          exact List.mem_flatten.mpr ⟨g, hg, hu⟩
        exact (mem_items hwidth hitem).2.1
    have hid : List.flatten ∘ ruler.pieces width = id :=
      funext (Fill.Ruler.flatten_pieces (r := ruler) hwidth)
    rw [List.flatMap_map, List.flatMap_congr hfilter, List.flatMap_def, ← List.flatten_flatten,
      hfilled.flatten]
    unfold items
    rw [List.flatMap_def, List.flatten_flatten, List.map_map, hid, List.map_id,
      Fill.flatten_words]

theorem Wrapped.wellWrapped {width : Nat} {para : Bytes} {lines : List Bytes}
    (hwidth : 0 < width) (hvalid : SimpleCoder.Utf8 para) (h : Wrapped width para lines) :
    WellWrapped width para lines := by
  have hpieces : ∀ word, Utf8.count word ≤ width → ruler.pieces width word = [word] :=
    fun word hle => Fill.Ruler.pieces_of_le hle
  have hflatten := Fill.Ruler.flatten_pieces (r := ruler) hwidth
  have hkept := h.kept hwidth
  have hsome : ∀ word : Bytes, word ≠ [] → [] ∉ ruler.pieces width word := fun word hne hnil =>
    (Fill.Ruler.mem_pieces (r := ruler) hwidth hne hnil).1 rfl
  have hfull := Fill.Ruler.cols_of_mem_dropLast (r := ruler) hwidth
  cases h with
  | blank hnil =>
    subst hnil
    refine ⟨fun l hl => ?_, fun l hl => ?_, hkept, fun _ => rfl, fun h => absurd rfl h, [[]],
      ruler.pieces width, rfl, ?_, fun h => absurd rfl h, hpieces, hflatten, hsome,
      hfull, List.isChain_singleton _⟩
    · rw [List.mem_singleton.mp hl]
      exact ⟨utf8_nil, Nat.zero_le _⟩
    · rw [List.mem_singleton.mp hl]
      exact ⟨by simp, by simp⟩
    · rw [Fill.words_nil]
      rfl
  | filled groups hne hfilled =>
    have hmem : ∀ g ∈ groups, ∀ u ∈ g, u ∈ items width para := fun g hg u hu => by
      rw [← hfilled.flatten]
      exact List.mem_flatten.mpr ⟨g, hg, hu⟩
    have hline : ∀ g ∈ groups, SimpleCoder.Utf8 ([space].intercalate g) ∧
        cols ([space].intercalate g) = Fill.width cols g := fun g hg =>
      valid_intercalate fun u hu => valid_items hwidth hvalid u (hmem g hg u hu)
    refine ⟨fun l hl => ?_, fun l hl => ?_, hkept, fun hnil => absurd hnil hne, fun _ hmap => ?_,
      groups, ruler.pieces width, rfl, hfilled.flatten, fun _ => hfilled.ne_nil, hpieces, hflatten,
      hsome, hfull, ?_⟩
    · obtain ⟨g, hg, rfl⟩ := List.mem_map.mp hl
      exact ⟨(hline g hg).1, (hline g hg).2.trans_le (hfilled.fits g hg)⟩
    · obtain ⟨g, hg, rfl⟩ := List.mem_map.mp hl
      have hspaced : Fill.Spaced space ([space].intercalate g) :=
        Fill.spaced_intercalate fun u hu =>
        have hitem := mem_items hwidth (hmem g hg u hu)
        ⟨hitem.1, hitem.2.1⟩
      exact ⟨hspaced.front, hspaced.back⟩
    · -- a line has a piece, and a piece is something
      obtain ⟨g, hg, hline⟩ := List.mem_map.mp hmap
      cases g with
      | nil => exact hfilled.ne_nil hg
      | cons u g =>
        exact Fill.intercalate_ne_nil (mem_items hwidth (hmem _ hg u List.mem_cons_self)).1 hline
    · refine hfilled.greedy.imp_of_mem_imp fun g g' hg hg' hover u hu => ?_
      have := hover u hu
      rw [show Utf8.count ([space].intercalate g) = _ from (hline g hg).2]
      exact this

/-- **Word wrapping.**  The loops end: more fuel than the text is long makes no difference.  The
lines are those of the paragraphs, in order.  Each is valid and fits, with no space at either end;
those of a paragraph have what the paragraph has but for spaces, and none is empty but that of an
empty paragraph; words that fit on a line are whole, with one space between those on a line, and
others are cut only where a line is full; and a word goes on a new line only if it would not have
fitted on the one before. -/
theorem wrapText_wellWrapped (text : Bytes) (h : SimpleCoder.Utf8 text) (width : Int) :
    (∀ fuel, text.length ≤ fuel → wrapWithin fuel text width = wrapText text width) ∧
    ∃ paragraphs : List (List Bytes), wrapText text width = paragraphs.flatten ∧
      List.Forall₂ (WellWrapped (max 1 width).toNat) (text.splitOn newline) paragraphs := by
  have hwidth : lineWidth width = (max 1 width).toNat := by
    unfold lineWidth
    split <;> omega
  obtain ⟨paragraphs, hlines, hwrapped⟩ := wrapText_wrapped text width
  refine ⟨fun fuel hfuel => wrapWithin_eq hfuel width, paragraphs, hlines, ?_⟩
  rw [hwidth] at hwrapped
  have hpos : 0 < (max 1 width).toNat := by omega
  rw [List.forall₂_iff_zip] at hwrapped ⊢
  refine ⟨hwrapped.1, fun {para lines} hmem => ?_⟩
  have hvalid := Utf8.valid_of_mem_splitOn (by decide) h
    (List.of_mem_zip hmem).1
  exact (hwrapped.2 hmem).wellWrapped hpos hvalid

theorem wrapText_wellWrapped_words :
    wrapText (bytes "café au  lait") 5 = [bytes "café", bytes "au", bytes "lait"] ∧
    ∃ paragraphs : List (List Bytes), wrapText (bytes "café au  lait") 5 = paragraphs.flatten ∧
      List.Forall₂ (WellWrapped 5) ((bytes "café au  lait").splitOn newline) paragraphs :=
  ⟨by decide +kernel, (wrapText_wellWrapped _ (utf8_bytes _) 5).2⟩

end TextWrap

end SimpleCoder

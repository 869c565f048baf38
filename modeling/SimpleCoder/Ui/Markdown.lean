/-
# Block-level markdown

`markdown_lines` classifies a text line by line.  The only thing that is carried from line to line
is whether it is inside a fenced block, and each fence toggles it.

* §1 has the functions.
* §2: every line but a fence has one entry, in order, and it is code exactly if an odd number of
  fences is before it (`classifyLines_entries`).
* §3 says what an entry has of its line: all but the markers, and for code and plain text the line
  itself.
-/
import SimpleCoder.Util.Text
import SimpleCoder.Util.Boundaries

namespace SimpleCoder

/-! ## 1. The functions -/

inductive MdKind where
  | text
  | header
  | code
  | listItem
  deriving DecidableEq, Repr

structure MdLine where
  text : Bytes
  kind : MdKind
  deriving DecidableEq

namespace Markdown

open Text (isBlank)

def hash : UInt8 := 0x23
def dot : UInt8 := 0x2E

/-- The bytes `-`, `*` and `+`. -/
def isMarker (c : UInt8) : Bool := c = 0x2D || c = 0x2A || c = 0x2B

def bullet : Bytes := bytes "• "

def ltrim (s : Bytes) : Bytes := s.dropWhile isBlank

/-- The line is a fence. -/
def isFence (line : Bytes) : Bool := startsWith (ltrim line) (bytes "```")

/-- What is behind one to six `#` and a space. -/
def headerText (t : Bytes) : Option Bytes :=
  let h := (t.takeWhile (· = hash)).length
  if 1 ≤ h ∧ h ≤ 6 ∧ t[h]? = some space then some (ltrim (t.drop (h + 1))) else none

/-- What is behind a marker and a space. -/
def bulletText : Bytes → Option Bytes
  | marker :: blank :: rest => if isMarker marker ∧ blank = space then some rest else none
  | _ => none

/-- The line starts with some digits, a dot and a space. -/
def isNumbered (t : Bytes) : Bool :=
  let d := (t.takeWhile isDigit).length
  0 < d ∧ t[d]? = some dot ∧ t[d + 1]? = some space

/-- `classify` outside a fenced block, with the line and what is behind its indentation. -/
def classifyText (line t : Bytes) : MdLine :=
  match headerText t with
  | some rest => ⟨rest, .header⟩
  | none =>
    match bulletText t with
    | some rest => ⟨bullet ++ rest, .listItem⟩
    | none => if isNumbered t then ⟨t, .listItem⟩ else ⟨line, .text⟩

/-- `classify`: the entry of the line, if it has one, and whether a fenced block is open behind. -/
def classify (line : Bytes) (inCode : Bool) : Option MdLine × Bool :=
  if isFence line then (none, !inCode)
  else if inCode then (some ⟨line, .code⟩, inCode)
  else (some (classifyText line (ltrim line)), inCode)

/-- The loop of `markdown_lines`. -/
def classifyLines : Bool → List Bytes → List MdLine
  | _, [] => []
  | inCode, line :: rest =>
    (classify line inCode).1.toList ++ classifyLines (classify line inCode).2 rest

end Markdown

/-- `markdown_lines`. -/
def markdownLines (text : Bytes) : List MdLine :=
  Markdown.classifyLines false (text.splitOn newline)

namespace Markdown

open Text (isBlank)

/-! ## 2. Lines and entries -/

section Entries

variable {line : Bytes} {inCode : Bool}

theorem classify_of_isFence (h : isFence line = true) (inCode : Bool) :
    classify line inCode = (none, !inCode) := if_pos h

/-- **A line that is no fence** has an entry, and leaves the block as it is. -/
theorem classify_of_not_isFence (h : isFence line = false) (inCode : Bool) :
    classify line inCode =
      (some (if inCode then ⟨line, .code⟩ else classifyText line (ltrim line)), inCode) := by
  unfold classify
  rw [if_neg (by simp [h])]
  split <;> rfl

/-- Is a fenced block open behind these lines? -/
def openAfter (lines : List Bytes) : Bool := decide (Odd (lines.countP isFence))

theorem openAfter_snoc (lines : List Bytes) (line : Bytes) :
    openAfter (lines ++ [line]) = (classify line (openAfter lines)).2 := by
  unfold openAfter
  rw [List.countP_append]
  cases hfence : isFence line with
  | true =>
    rw [classify_of_isFence hfence, List.countP_singleton, hfence, if_pos rfl, Bool.eq_iff_iff]
    simp [Nat.odd_add_one]
  | false =>
    rw [classify_of_not_isFence hfence, List.countP_singleton, hfence, if_neg Bool.false_ne_true,
      Nat.add_zero]

/-- The entries of some lines, and then of others. -/
theorem classifyLines_append (before lines rest : List Bytes) :
    classifyLines (openAfter before) (lines ++ rest) =
      classifyLines (openAfter before) lines ++
        classifyLines (openAfter (before ++ lines)) rest := by
  induction lines generalizing before with
  | nil => rw [List.append_nil]; rfl
  | cons line lines ih =>
    have hrest := ih (before ++ [line])
    rw [openAfter_snoc, List.append_assoc, List.singleton_append] at hrest
    rw [List.cons_append, classifyLines, classifyLines, hrest, List.append_assoc]

/-- The entry of the line at a place of the text. -/
def entryAt (lines : List Bytes) (place : Bytes × Nat) : MdLine :=
  if openAfter (lines.take place.2) then ⟨place.1, .code⟩
  else classifyText place.1 (ltrim place.1)

/-- **The entries of the lines behind some others**: one for each line that is no fence. -/
theorem classifyLines_entries (before rest : List Bytes) :
    classifyLines (openAfter before) rest =
      ((rest.zipIdx before.length).filter fun place => !isFence place.1).map
        (entryAt (before ++ rest)) := by
  induction rest generalizing before with
  | nil => rfl
  | cons line rest ih =>
    have hrest := ih (before ++ [line])
    rw [openAfter_snoc, List.length_append, List.length_singleton, List.append_assoc,
      List.singleton_append] at hrest
    rw [classifyLines, hrest, List.zipIdx_cons]
    cases hfence : isFence line with
    | true => rw [classify_of_isFence hfence, List.filter_cons_of_neg (by simp [hfence])]; rfl
    | false =>
      have htake : (before ++ line :: rest).take before.length = before := List.take_left
      rw [classify_of_not_isFence hfence, List.filter_cons_of_pos (by simp [hfence]),
        List.map_cons, entryAt, htake]
      rfl

end Entries

/-! ## 3. What an entry has of its line -/

/-- The bytes that are not blank. -/
def nonBlank (s : Bytes) : Bytes := s.filter fun c => !isBlank c

/-- Only spaces and tabs. -/
def Blank (s : Bytes) : Prop := ∀ c ∈ s, isBlank c = true

/-- What the entry of a line outside fenced blocks is. -/
inductive Shape (line : Bytes) : MdLine → Prop
  | text : Shape line ⟨line, .text⟩
  | header {indent gap rest : Bytes} {h : Nat} : 1 ≤ h → h ≤ 6 → Blank indent → Blank gap →
      (∀ c ∈ rest.head?, isBlank c = false) →
      line = indent ++ (List.replicate h hash ++ space :: (gap ++ rest)) →
      Shape line ⟨rest, .header⟩
  | bullet {indent rest : Bytes} {marker : UInt8} : isMarker marker = true → Blank indent →
      line = indent ++ marker :: space :: rest → Shape line ⟨bullet ++ rest, .listItem⟩
  | numbered {indent digits rest : Bytes} : digits ≠ [] → (∀ c ∈ digits, isDigit c = true) →
      Blank indent → line = indent ++ (digits ++ dot :: space :: rest) →
      Shape line ⟨digits ++ dot :: space :: rest, .listItem⟩

section Shapes

variable {line t rest : Bytes}

theorem ltrim_spec (s : Bytes) : ∃ indent, Blank indent ∧ s = indent ++ ltrim s :=
  ⟨s.takeWhile isBlank, fun _ hc => List.mem_takeWhile_imp hc,
    List.takeWhile_append_dropWhile.symm⟩

theorem ltrim_head (s : Bytes) : ∀ c ∈ (ltrim s).head?, isBlank c = false := by
  intro c hc
  have hfirst := List.head?_dropWhile_not isBlank s
  unfold ltrim at hc
  rw [Option.mem_def.mp hc] at hfirst
  exact hfirst

/-- What is before and behind a position that has a byte. -/
theorem eq_append_of_getElem? {s : Bytes} {i : Nat} {c : UInt8} (h : s[i]? = some c) :
    s = s.take i ++ c :: s.drop (i + 1) := by
  obtain ⟨hlt, hc⟩ := List.getElem?_eq_some_iff.mp h
  rw [← hc, List.getElem_cons_drop, List.take_append_drop]

theorem take_length_takeWhile (p : UInt8 → Bool) (s : Bytes) :
    s.take (s.takeWhile p).length = s.takeWhile p :=
  (List.prefix_iff_eq_take.mp (List.takeWhile_prefix p)).symm

theorem headerText_eq_some (h : headerText t = some rest) :
    ∃ n, 1 ≤ n ∧ n ≤ 6 ∧ ∃ behind, t = List.replicate n hash ++ space :: behind ∧
      rest = ltrim behind := by
  unfold headerText at h
  dsimp only at h
  split at h
  · rename_i hshape
    obtain ⟨hpos, hmax, hspace⟩ := hshape
    have hall : t.takeWhile (· = hash) = List.replicate (t.takeWhile (· = hash)).length hash :=
      List.eq_replicate_iff.mpr ⟨rfl, fun c hc => by simpa using List.mem_takeWhile_imp hc⟩
    have hsplit := eq_append_of_getElem? hspace
    rw [take_length_takeWhile, hall, List.length_replicate] at hsplit
    exact ⟨_, hpos, hmax, _, hsplit, (Option.some.inj h).symm⟩
  · cases h

theorem bulletText_eq_some (h : bulletText t = some rest) :
    ∃ marker, isMarker marker = true ∧ t = marker :: space :: rest := by
  unfold bulletText at h
  split at h
  · rename_i marker blank behind
    split at h
    · rename_i hshape
      rw [← Option.some.inj h, hshape.2]
      exact ⟨marker, hshape.1, rfl⟩
    · cases h
  · cases h

theorem isNumbered_eq_true (h : isNumbered t = true) : ∃ digits rest, digits ≠ [] ∧
    (∀ c ∈ digits, isDigit c = true) ∧ t = digits ++ dot :: space :: rest := by
  unfold isNumbered at h
  simp only [decide_eq_true_eq] at h
  obtain ⟨hpos, hdot, hspace⟩ := h
  have hsplit := eq_append_of_getElem? hdot
  rw [← List.head?_drop] at hspace
  obtain ⟨rest, hrest⟩ := List.head?_eq_some_iff.mp hspace
  rw [take_length_takeWhile, hrest] at hsplit
  exact ⟨_, rest, List.ne_nil_of_length_pos hpos, fun c hc => List.mem_takeWhile_imp hc, hsplit⟩

/-- **What the entry of a line outside fenced blocks is.** -/
theorem classifyText_shape (line : Bytes) : Shape line (classifyText line (ltrim line)) := by
  obtain ⟨indent, hindent, hline⟩ := ltrim_spec line
  unfold classifyText
  cases hheader : headerText (ltrim line) with
  | some rest =>
    obtain ⟨n, hpos, hmax, behind, ht, rfl⟩ := headerText_eq_some hheader
    obtain ⟨gap, hgap, hbehind⟩ := ltrim_spec behind
    refine .header hpos hmax hindent hgap (ltrim_head behind) ?_
    rw [← hbehind, ← ht]
    exact hline
  | none =>
    cases hbullet : bulletText (ltrim line) with
    | some rest =>
      obtain ⟨marker, hmarker, ht⟩ := bulletText_eq_some hbullet
      refine .bullet hmarker hindent ?_
      rw [← ht]
      exact hline
    | none =>
      dsimp only
      split
      · rename_i hnumbered
        obtain ⟨digits, rest, hne, hdigits, ht⟩ := isNumbered_eq_true hnumbered
        rw [ht] at hline ⊢
        exact .numbered hne hdigits hindent hline
      · exact .text

/-- A line is a fence if its first bytes that are not blank are three backquotes. -/
theorem isFence_iff : isFence line = true ↔
    ∃ indent rest, Blank indent ∧ line = indent ++ (bytes "```" ++ rest) := by
  unfold isFence startsWith
  rw [List.isPrefixOf_iff_prefix]
  constructor
  · rintro ⟨rest, hrest⟩
    obtain ⟨indent, hindent, hline⟩ := ltrim_spec line
    rw [← hrest] at hline
    exact ⟨indent, rest, hindent, hline⟩
  · rintro ⟨indent, rest, hindent, rfl⟩
    have hquote : bytes "```" = [0x60, 0x60, 0x60] := by decide
    have htrim : ltrim (indent ++ (bytes "```" ++ rest)) = bytes "```" ++ rest := by
      unfold ltrim
      rw [List.dropWhile_append_of_pos hindent, hquote]
      exact List.dropWhile_cons_of_neg (by decide)
    rw [htrim]
    exact List.prefix_append _ _

end Shapes

section NonBlank

@[simp] theorem nonBlank_append (s t : Bytes) : nonBlank (s ++ t) = nonBlank s ++ nonBlank t :=
  List.filter_append _ _

theorem nonBlank_of_blank {s : Bytes} (h : Blank s) : nonBlank s = [] :=
  List.filter_eq_nil_iff.mpr fun c hc => by simp [h c hc]

theorem nonBlank_cons_space (s : Bytes) : nonBlank (space :: s) = nonBlank s :=
  List.filter_cons_of_neg (by decide)

theorem nonBlank_replicate (n : Nat) : nonBlank (List.replicate n hash) = List.replicate n hash :=
  List.filter_eq_self.mpr fun c hc => by
    rw [(List.mem_replicate.mp hc).2]
    decide

theorem nonBlank_marker {marker : UInt8} (h : isMarker marker = true) (s : Bytes) :
    nonBlank (marker :: s) = marker :: nonBlank s := by
  refine List.filter_cons_of_pos ?_
  unfold isMarker at h
  simp only [Bool.or_eq_true, decide_eq_true_eq] at h
  rcases h with (rfl | rfl) | rfl <;> decide

end NonBlank

/-- The markers that are stripped from a line, and what is put in their place. -/
inductive Marks : MdKind → Bytes → Bytes → Prop
  | none {kind : MdKind} : Marks kind [] []
  | header {n : Nat} : 1 ≤ n → n ≤ 6 → Marks .header (List.replicate n hash) []
  | bullet {marker : UInt8} : isMarker marker = true → Marks .listItem [marker] (bytes "•")

/-- Nothing but the markers is lost: the other bytes that are not blank are kept, in order. -/
def Conserves (line : Bytes) (entry : MdLine) : Prop :=
  ∃ stripped put kept, Marks entry.kind stripped put ∧ nonBlank line = stripped ++ kept ∧
    nonBlank entry.text = put ++ kept

theorem Shape.conserves {line : Bytes} {entry : MdLine} (h : Shape line entry) :
    Conserves line entry := by
  cases h with
  | text => exact ⟨[], [], _, .none, rfl, rfl⟩
  | @header indent gap rest n hpos hmax hindent hgap _ hline =>
    refine ⟨_, _, nonBlank rest, .header hpos hmax, ?_, rfl⟩
    rw [hline, nonBlank_append, nonBlank_append, nonBlank_of_blank hindent, List.nil_append,
      nonBlank_replicate, nonBlank_cons_space, nonBlank_append, nonBlank_of_blank hgap,
      List.nil_append]
  | @bullet indent rest marker hmarker hindent hline =>
    refine ⟨_, _, nonBlank rest, .bullet hmarker, ?_, ?_⟩
    · rw [hline, nonBlank_append, nonBlank_of_blank hindent, List.nil_append,
        nonBlank_marker hmarker, nonBlank_cons_space]
      rfl
    · have hbullet : nonBlank Markdown.bullet = bytes "•" := by decide +kernel
      rw [nonBlank_append, hbullet]
  | @numbered indent digits rest _ _ hindent hline =>
    refine ⟨[], [], nonBlank (digits ++ dot :: space :: rest), .none, ?_, rfl⟩
    rw [hline, nonBlank_append, nonBlank_of_blank hindent]

/-- The entry of the line at a place of a text. -/
structure Entry (lines : List Bytes) (place : Bytes × Nat) (entry : MdLine) : Prop where
  code_iff : entry.kind = .code ↔ Odd ((lines.take place.2).countP isFence)
  verbatim : entry.kind = .code ∨ entry.kind = .text → entry.text = place.1
  shape : entry.kind ≠ .code → Shape place.1 entry
  conserves : Conserves place.1 entry

theorem Shape.kind_ne {line : Bytes} {entry : MdLine} (h : Shape line entry) :
    entry.kind ≠ .code := by
  cases h <;> exact fun heq => MdKind.noConfusion heq

theorem entryAt_entry (lines : List Bytes) (place : Bytes × Nat) :
    Entry lines place (entryAt lines place) := by
  unfold entryAt openAfter
  split
  · rename_i hodd
    rw [decide_eq_true_eq] at hodd
    exact ⟨iff_of_true rfl hodd, fun _ => rfl, fun h => absurd rfl h, [], [], _, .none, rfl, rfl⟩
  · rename_i hodd
    rw [decide_eq_true_eq] at hodd
    have hshape := classifyText_shape place.1
    refine ⟨iff_of_false hshape.kind_ne hodd, fun hkind => ?_, fun _ => hshape, hshape.conserves⟩
    generalize hentry : classifyText place.1 (ltrim place.1) = entry at hshape hkind
    cases hshape with
    | text => rfl
    | header => simp at hkind
    | bullet => simp at hkind
    | numbered => simp at hkind

section Valid

variable {line : Bytes} {entry : MdLine}

theorem Blank.valid_append_iff {indent : Bytes} (h : Blank indent) (t : Bytes) :
    Utf8 (indent ++ t) ↔ Utf8 t := by
  refine Utf8.valid_append_iff_right (Utf8.valid_ascii fun c hc => ?_) t
  have hblank := h c hc
  unfold isBlank at hblank
  simp only [Bool.or_eq_true, decide_eq_true_eq] at hblank
  rcases hblank with rfl | rfl <;> decide

theorem valid_space_cons_iff (t : Bytes) : Utf8 (space :: t) ↔ Utf8 t :=
  Utf8.valid_append_iff_right (s := [space]) (by decide) t

/-- The entry of a valid line is valid: what is cut off it is ASCII. -/
theorem Shape.valid (h : Shape line entry) (hline : Utf8 line) : Utf8 entry.text := by
  cases h with
  | text => exact hline
  | @header indent gap rest n _ _ hindent hgap _ heq =>
    have hhashes : Utf8 (List.replicate n hash) := Utf8.valid_ascii fun c hc => by
      rw [(List.mem_replicate.mp hc).2]
      decide
    rwa [heq, hindent.valid_append_iff, Utf8.valid_append_iff_right hhashes, valid_space_cons_iff,
      hgap.valid_append_iff] at hline
  | @bullet indent rest marker hmarker hindent heq =>
    have hascii : Utf8 [marker] := by
      refine Utf8.valid_ascii fun c hc => ?_
      rw [List.mem_singleton.mp hc]
      unfold isMarker at hmarker
      simp only [Bool.or_eq_true, decide_eq_true_eq] at hmarker
      rcases hmarker with (rfl | rfl) | rfl <;> decide
    rw [heq, hindent.valid_append_iff, ← List.singleton_append,
      Utf8.valid_append_iff_right hascii, valid_space_cons_iff] at hline
    exact (utf8_bytes _).append hline
  | @numbered indent digits rest _ _ hindent heq =>
    rwa [heq, hindent.valid_append_iff] at hline

/-- **The entries of a valid text are valid.** -/
theorem valid_markdownLines {text : Bytes} (h : Utf8 text) (hentry : entry ∈ markdownLines text) :
    Utf8 entry.text := by
  have hentries := classifyLines_entries [] (text.splitOn newline)
  change entry ∈ classifyLines (openAfter []) (text.splitOn newline) at hentry
  rw [hentries] at hentry
  obtain ⟨place, hplace, rfl⟩ := List.mem_map.mp hentry
  have hline : Utf8 place.1 := Utf8.valid_of_mem_splitOn (by decide) h
    (List.fst_mem_of_mem_zipIdx (List.mem_of_mem_filter hplace))
  unfold entryAt
  split
  · exact hline
  · exact (classifyText_shape place.1).valid hline

end Valid

/-- **The lines are conserved.**  There is one entry for each line that is no fence, in order: the
lines with their places, but for the fences, and the entries match one by one. -/
theorem markdownLines_entries (text : Bytes) :
    (∀ line, isFence line = true ↔
      ∃ indent rest, Blank indent ∧ line = indent ++ (bytes "```" ++ rest)) ∧
    List.Forall₂ (Entry (text.splitOn newline))
      ((text.splitOn newline).zipIdx.filter fun place => !isFence place.1)
      (markdownLines text) := by
  refine ⟨fun line => isFence_iff, ?_⟩
  have hentries := classifyLines_entries [] (text.splitOn newline)
  rw [List.nil_append] at hentries
  change List.Forall₂ _ _ (classifyLines (openAfter []) (text.splitOn newline))
  rw [hentries]
  exact List.forall₂_map_right_iff.mpr (List.forall₂_same.mpr fun place _ =>
    entryAt_entry _ place)

end Markdown

end SimpleCoder

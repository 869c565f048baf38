/-
# What a typed line expands to

The tokens of a line are the words that begin with `@` and go on (`attachedPaths`); the scan of
`find_paths` comes to each of them, since it stands at the beginning of a word exactly when a token
may begin (§1).  The loop over the paths reads each file once, in order, and puts what it gets into
one of four lists (§2).
-/
import SimpleCoder.App.Attachments
import SimpleCoder.Lib.Growing
import SimpleCoder.Util.Base64RoundTrip

namespace SimpleCoder

variable {W : Type}

/-! ## 1. The tokens of a line -/

/-- The maximal runs of what is not white space. -/
def words (line : Bytes) : List Bytes := (line.splitOnP Text.isspace).filter (· ≠ [])

/-- A word that begins with `@` and goes on. -/
def isToken (word : Bytes) : Bool := word.head? = some 0x40 && 2 ≤ word.length

/-- The paths that a line attaches. -/
def attachedPaths (line : Bytes) : List Bytes := ((words line).filter isToken).map List.tail

/-- The path of a word, if it is a token. -/
def tokenPath (word : Bytes) : List Bytes := if isToken word then [word.tail] else []

theorem attachedPaths_eq (line : Bytes) :
    attachedPaths line = (line.splitOnP Text.isspace).flatMap tokenPath := by
  unfold attachedPaths words
  induction line.splitOnP Text.isspace with
  | nil => rfl
  | cons u us ih =>
    rw [List.flatMap_cons, ← ih]
    unfold tokenPath
    by_cases hu : u = []
    · subst hu
      simp [isToken]
    · rw [List.filter_cons_of_pos (by simpa using hu)]
      split
      · rename_i htoken
        rw [List.filter_cons_of_pos htoken]
        rfl
      · rename_i htoken
        rw [List.filter_cons_of_neg htoken]
        rfl

/-- The bytes that are skipped. -/
theorem findPathsFrom_skip (u : Bytes) (c : UInt8) (rest : Bytes) (boundary : Bool) :
    findPathsFrom boundary (u.length + 1) (u ++ c :: rest) =
      findPathsFrom (Text.isspace c) 0 rest := by
  induction u generalizing boundary with
  | nil => rfl
  | cons d u ih =>
    rw [List.cons_append, List.length_cons, findPathsFrom]
    exact ih (Text.isspace d)

theorem findPathsFrom_skip_end (u : Bytes) (boundary : Bool) :
    findPathsFrom boundary (u.length + 1) u = [] := by
  induction u generalizing boundary with
  | nil => rfl
  | cons d u ih =>
    rw [List.length_cons, findPathsFrom]
    exact ih (Text.isspace d)

/-- Inside a word no token begins. -/
theorem findPathsFrom_inside {u : Bytes} (hu : ∀ c ∈ u, Text.isspace c = false) {c : UInt8}
    (hc : Text.isspace c = true) (rest : Bytes) :
    findPathsFrom false 0 (u ++ c :: rest) = findPathsFrom true 0 rest := by
  induction u with
  | nil => simp [findPathsFrom, hc]
  | cons d u ih =>
    rw [List.forall_mem_cons] at hu
    simp [findPathsFrom, hu.1, ih hu.2]

theorem findPathsFrom_inside_end {u : Bytes} (hu : ∀ c ∈ u, Text.isspace c = false) :
    findPathsFrom false 0 u = [] := by
  induction u with
  | nil => rfl
  | cons d u ih =>
    rw [List.forall_mem_cons] at hu
    simp [findPathsFrom, hu.1, ih hu.2]

/-- What the search finds in a word, and that it begins anew behind it. -/
theorem findPathsFrom_word {u : Bytes} (hu : ∀ c ∈ u, Text.isspace c = false) {c : UInt8}
    (hc : Text.isspace c = true) (rest : Bytes) :
    findPathsFrom true 0 (u ++ c :: rest) = tokenPath u ++ findPathsFrom true 0 rest := by
  cases u with
  | nil =>
    have hat : c ≠ 0x40 := by
      rintro rfl
      exact absurd hc (by decide)
    simp [findPathsFrom, hat, hc, tokenPath, isToken]
  | cons d v =>
    rw [List.forall_mem_cons] at hu
    by_cases hd : d = 0x40
    · subst hd
      have hpath : (v ++ c :: rest).takeWhile (fun c => !Text.isspace c) = v := by
        rw [List.takeWhile_append_of_pos (by simpa using hu.2),
          List.takeWhile_cons_of_neg (by simp [hc]), List.append_nil]
      rw [List.cons_append, findPathsFrom, if_pos ⟨rfl, rfl⟩]
      simp only [hpath]
      rw [findPathsFrom_skip, hc]
      cases v <;> simp [tokenPath, isToken]
    · simp [findPathsFrom, hd, hu.1, findPathsFrom_inside hu.2 hc, tokenPath, isToken]

theorem findPathsFrom_word_end {u : Bytes} (hu : ∀ c ∈ u, Text.isspace c = false) :
    findPathsFrom true 0 u = tokenPath u := by
  cases u with
  | nil => rfl
  | cons d v =>
    rw [List.forall_mem_cons] at hu
    by_cases hd : d = 0x40
    · subst hd
      have hpath : v.takeWhile (fun c => !Text.isspace c) = v :=
        List.takeWhile_eq_self_iff.mpr (by simpa using hu.2)
      rw [findPathsFrom, if_pos ⟨rfl, rfl⟩]
      simp only [hpath]
      rw [findPathsFrom_skip_end]
      cases v <;> simp [tokenPath, isToken]
    · simp [findPathsFrom, hd, hu.1, findPathsFrom_inside_end hu.2, tokenPath, isToken]

/-- **The search finds the tokens**, all of them and in order. -/
theorem findPaths_eq (line : Bytes) : findPaths line = attachedPaths line := by
  rw [attachedPaths_eq]
  unfold findPaths
  induction line using Growing.pieces_induction Text.isspace with
  | last u hu =>
    rw [findPathsFrom_word_end hu, List.splitOnP_eq_singleton hu, List.flatMap_cons,
      List.flatMap_nil, List.append_nil]
  | piece u c rest hu hc ih =>
    rw [findPathsFrom_word hu hc, ih, List.splitOnP_append_cons_of_forall_mem hu c hc,
      List.flatMap_cons]

/-! ## 2. The files and the four lists -/

/-- Every path with what the reader gives for it.  One file is read after the other, and the reader
may change the world (what is read later, for one thing). -/
def readAll (reader : Bytes → W → Option Bytes × W) :
    List Bytes → W → List (Bytes × Option Bytes) × W
  | [], w => ([], w)
  | path :: paths, w =>
    let rest := readAll reader paths (reader path w).2
    ((path, (reader path w).1) :: rest.1, rest.2)

/-- A file that cannot be read, or an image over the cap (a cap of 0 is none). -/
def rejected (maxImageBytes : Nat) : Bytes × Option Bytes → Bool
  | (_, none) => true
  | (path, some contents) =>
    isImagePath path && 0 < maxImageBytes && maxImageBytes < contents.length

/-- A file that is read and is no image. -/
def inlined : Bytes × Option Bytes → Option (Bytes × Bytes)
  | (_, none) => none
  | (path, some contents) => if isImagePath path then none else some (path, contents)

/-- An image that is read and is within the cap. -/
def depicted (maxImageBytes : Nat) : Bytes × Option Bytes → Option (Bytes × Bytes)
  | (_, none) => none
  | (path, some contents) =>
    if isImagePath path ∧ (maxImageBytes = 0 ∨ contents.length ≤ maxImageBytes) then
      some (path, contents)
    else none

/-- The image is that of the file: its size, its type by the file's name, and a data URL whose
payload decodes to the contents. -/
structure Depicts (file : Bytes × Bytes) (img : ImagePart) : Prop where
  size : img.bytes = file.2.length
  mediaType : img.mediaType = imageMediaType file.1
  dataUrl : ∃ payload, base64Decode payload = file.2 ∧
    img.dataUrl = bytes "data:" ++ img.mediaType ++ bytes ";base64," ++ payload

/-- The block is headed by the path, and fences the contents with their last line ended. -/
def Fences (file : Bytes × Bytes) (block : Bytes) : Prop :=
  ∃ heading lastNewline, file.1 <:+: heading ∧
    lastNewline = (if file.2 ≠ [] ∧ file.2.getLast? ≠ some newline then [newline] else []) ∧
    block = heading ++ bytes "```\n" ++ (file.2 ++ lastNewline) ++ bytes "```"

/-- What the files of a line are made into. -/
structure Expanded (maxImageBytes : Nat) (line : Bytes) (reads : List (Bytes × Option Bytes))
    (r : ExpandResult) : Prop where
  errors : List.Forall₂ (fun read entry => read.1 <:+: entry)
    (reads.filter (rejected maxImageBytes)) r.errors
  attached : r.attached = (reads.filterMap inlined).map Prod.fst
  images : List.Forall₂ Depicts (reads.filterMap (depicted maxImageBytes)) r.images
  text : ∃ blocks, List.Forall₂ Fences (reads.filterMap inlined) blocks ∧
    r.text = line ++ blocks.flatten

theorem depicts_imagePart (path contents : Bytes) :
    Depicts (path, contents) (imagePart path contents) :=
  ⟨rfl, rfl, base64Encode contents, base64Decode_encode contents, rfl⟩

theorem fences_attachedBlock (path contents : Bytes) :
    Fences (path, contents) (attachedBlock path contents) := by
  refine ⟨bytes "\n\nAttached file `" ++ path ++ bytes "`:\n", _, ⟨_, _, rfl⟩, rfl, ?_⟩
  unfold attachedBlock
  have hticks : bytes "`:\n```\n" = bytes "`:\n" ++ bytes "```\n" := by decide
  rw [hticks]
  by_cases h : contents = [] ∨ contents.getLast? = some newline
  · have hn : ¬ (contents ≠ [] ∧ contents.getLast? ≠ some newline) := by tauto
    simp only [if_pos h, if_neg hn, List.append_assoc, List.append_nil]
  · have hn : contents ≠ [] ∧ contents.getLast? ≠ some newline := by tauto
    simp only [if_neg h, if_pos hn, List.append_assoc]

section Turn

variable {maxImageBytes : Nat} {line : Bytes} {reads : List (Bytes × Option Bytes)}
  {r : ExpandResult} {read : Bytes × Option Bytes}

theorem Expanded.reject (h : Expanded maxImageBytes line reads r) {entry : Bytes}
    (hentry : read.1 <:+: entry) (hrejected : rejected maxImageBytes read = true)
    (hinlined : inlined read = none) (hdepicted : depicted maxImageBytes read = none) :
    Expanded maxImageBytes line (reads ++ [read]) { r with errors := r.errors ++ [entry] } := by
  constructor
  · rw [List.filter_append, List.filter_cons_of_pos hrejected]
    exact List.rel_append h.errors (.cons hentry .nil)
  · simpa [List.filterMap_append, hinlined] using h.attached
  · simpa [List.filterMap_append, hdepicted] using h.images
  · simpa [List.filterMap_append, hinlined] using h.text

theorem Expanded.depict (h : Expanded maxImageBytes line reads r) (file : Bytes × Bytes)
    (hrejected : rejected maxImageBytes read = false) (hinlined : inlined read = none)
    (hdepicted : depicted maxImageBytes read = some file) :
    Expanded maxImageBytes line (reads ++ [read])
      { r with images := r.images ++ [imagePart file.1 file.2] } := by
  constructor
  · simpa [List.filter_append, hrejected] using h.errors
  · simpa [List.filterMap_append, hinlined] using h.attached
  · rw [List.filterMap_append, List.filterMap_cons_some hdepicted]
    exact List.rel_append h.images (.cons (depicts_imagePart file.1 file.2) .nil)
  · simpa [List.filterMap_append, hinlined] using h.text

theorem Expanded.inline (h : Expanded maxImageBytes line reads r) (file : Bytes × Bytes)
    (hrejected : rejected maxImageBytes read = false) (hinlined : inlined read = some file)
    (hdepicted : depicted maxImageBytes read = none) :
    Expanded maxImageBytes line (reads ++ [read])
      { r with
        text := r.text ++ attachedBlock file.1 file.2
        attached := r.attached ++ [file.1] } := by
  obtain ⟨blocks, hblocks, htext⟩ := h.text
  constructor
  · simpa [List.filter_append, hrejected] using h.errors
  · simp [List.filterMap_append, hinlined, h.attached]
  · simpa [List.filterMap_append, hdepicted] using h.images
  · refine ⟨blocks ++ [attachedBlock file.1 file.2], ?_, ?_⟩
    · rw [List.filterMap_append, List.filterMap_cons_some hinlined]
      exact List.rel_append hblocks (.cons (fences_attachedBlock file.1 file.2) .nil)
    · simp [htext]

/-- One turn of the loop. -/
theorem Expanded.expand (h : Expanded maxImageBytes line reads r) (path : Bytes)
    (contents : Option Bytes) :
    Expanded maxImageBytes line (reads ++ [(path, contents)])
      (r.expand maxImageBytes path contents) := by
  unfold ExpandResult.expand
  cases contents with
  | none => exact h.reject ⟨_, [], List.append_nil _⟩ rfl rfl rfl
  | some contents =>
    by_cases himage : isImagePath path
    · have hinlined : inlined (path, some contents) = none := if_pos himage
      by_cases hlarge : maxImageBytes ≠ 0 ∧ maxImageBytes < contents.length
      · simp only [if_pos himage, if_pos hlarge]
        refine h.reject ⟨bytes "Image too large: ", _, by simp only [List.append_assoc]; rfl⟩ ?_
          hinlined (if_neg (by omega))
        simp [rejected, himage, hlarge.2, Nat.pos_of_ne_zero hlarge.1]
      · simp only [if_pos himage, if_neg hlarge]
        refine h.depict (path, contents) ?_ hinlined (if_pos ⟨himage, by omega⟩)
        simp only [rejected, Bool.and_eq_false_iff, decide_eq_false_iff_not]
        omega
    · simp only [if_neg himage]
      refine h.inline (path, contents) ?_ (if_neg himage) (if_neg (by tauto))
      simp [rejected, himage]

end Turn

/-- The loop. -/
theorem Expanded.foldl {maxImageBytes : Nat} {line : Bytes}
    (reader : Bytes → W → Option Bytes × W) (paths : List Bytes)
    {reads : List (Bytes × Option Bytes)} {r : ExpandResult}
    (h : Expanded maxImageBytes line reads r) (w : W) : ∃ r',
      paths.foldl (fun p path =>
        (p.1.expand maxImageBytes path (reader path p.2).1, (reader path p.2).2)) (r, w) =
          (r', (readAll reader paths w).2) ∧
      Expanded maxImageBytes line (reads ++ (readAll reader paths w).1) r' := by
  induction paths generalizing reads r w with
  | nil =>
    refine ⟨r, rfl, ?_⟩
    rw [readAll, List.append_nil]
    exact h
  | cons path paths ih =>
    obtain ⟨r', hfold, hexpanded⟩ := ih (h.expand path (reader path w).1) (reader path w).2
    refine ⟨r', ?_, ?_⟩
    · rw [List.foldl_cons, hfold]
      rfl
    · rw [readAll, List.append_cons]
      exact hexpanded

/-- A reader that writes down what it is asked for. -/
def recording (reader : Bytes → W → Option Bytes × W) (path : Bytes) (w : W × List Bytes) :
    Option Bytes × (W × List Bytes) :=
  ((reader path w.1).1, ((reader path w.1).2, w.2 ++ [path]))

theorem readAll_recording (reader : Bytes → W → Option Bytes × W) (paths : List Bytes) (w : W)
    (asked : List Bytes) : readAll (recording reader) paths (w, asked) =
      ((readAll reader paths w).1, ((readAll reader paths w).2, asked ++ paths)) := by
  induction paths generalizing w asked with
  | nil => rw [readAll, readAll, List.append_nil]
  | cons path paths ih =>
    rw [readAll, readAll, recording]
    simp only [ih, List.append_assoc, List.singleton_append]

/-- **What a line expands to.**  The reader is asked for the paths of the line's tokens, each once
and in order, and what it gives is made into the four lists.  A line without tokens is sent as it
stands. -/
theorem expandAttachments_exact (reader : Bytes → W → Option Bytes × W) (line : Bytes)
    (maxImageBytes : Nat) (w : W) :
    Expanded maxImageBytes line (readAll reader (attachedPaths line) w).1
      (expandAttachments reader line maxImageBytes w).1 ∧
    (expandAttachments reader line maxImageBytes w).2 =
      (readAll reader (attachedPaths line) w).2 ∧
    (expandAttachments (recording reader) line maxImageBytes (w, [])).2.2 = attachedPaths line ∧
    (attachedPaths line = [] →
      expandAttachments reader line maxImageBytes w = ({ text := line }, w)) := by
  have hnil : Expanded maxImageBytes line [] { text := line } :=
    ⟨.nil, rfl, .nil, [], .nil, (List.append_nil line).symm⟩
  obtain ⟨r, hfold, hexpanded⟩ := hnil.foldl reader (attachedPaths line) w
  obtain ⟨r', hrecording, -⟩ := hnil.foldl (recording reader) (attachedPaths line) (w, [])
  unfold expandAttachments
  rw [findPaths_eq]
  refine ⟨?_, ?_, ?_, fun hpaths => ?_⟩
  · rw [hfold]
    exact hexpanded
  · rw [hfold]
  · rw [hrecording, readAll_recording]
    rfl
  · rw [hpaths]
    rfl

end SimpleCoder

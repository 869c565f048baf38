/-
# Skill documents

`parse_skill` reads a name and a description between two fences and takes what is behind them for
the body.  It promises that frontmatter which is missing, or is never closed, swallows nothing.

* §1: the lines of a text, each with the text behind it, which is what the two loops hand on.
* §2: how a document is written (`SkillDocument`), and what it is for a text to have frontmatter.
* §3: what one line of the frontmatter does to the skill, and §4: what all of them do, and the
  fences around them.

`parseSkill_document` has both promises: a document is read back, and a text without frontmatter is
the body as it stands.
-/
import SimpleCoder.App.Skill

namespace SimpleCoder

open Text

/-! ## 1. Lines and the text behind them -/

theorem lineSpans_line {line : Bytes} (h : newline ∉ line) (rest : Bytes) :
    lineSpans (line ++ newline :: rest) = (line, rest) :: lineSpans rest := by
  induction line with
  | nil => exact if_pos rfl
  | cons c line ih =>
    obtain ⟨hc, hline⟩ : ¬ newline = c ∧ newline ∉ line := by simpa using h
    rw [List.cons_append, lineSpans, if_neg (Ne.symm hc), ih hline]

/-- The last line, which no newline ends. -/
theorem lineSpans_last {line : Bytes} (h : newline ∉ line) (hne : line ≠ []) :
    lineSpans line = [(line, [])] := by
  induction line with
  | nil => exact absurd rfl hne
  | cons c line ih =>
    obtain ⟨hc, hline⟩ : ¬ newline = c ∧ newline ∉ line := by simpa using h
    rw [lineSpans, if_neg (Ne.symm hc)]
    by_cases hnil : line = []
    · rw [hnil]
      rfl
    · rw [ih hline hnil]

/-- The lines are the text cut at its newlines, but for the empty piece behind the last of them. -/
theorem splitOn_lineSpans (text : Bytes) :
    ∃ tail, text.splitOn newline = (lineSpans text).map Prod.fst ++ tail := by
  induction hlen : text.length using Nat.strong_induction_on generalizing text with
  | _ n ih =>
    subst hlen
    cases hline : Lines.takeLine newline text with
    | none =>
      have hno := Lines.takeLine_eq_none_iff.mp hline
      rw [List.splitOn_eq_singleton hno]
      by_cases hnil : text = []
      · exact ⟨[[]], by rw [hnil]; rfl⟩
      · exact ⟨[], by rw [lineSpans_last hno hnil]; rfl⟩
    | some found =>
      obtain ⟨line, rest⟩ := found
      obtain ⟨hno, rfl⟩ := Lines.takeLine_eq_some_iff.mp hline
      obtain ⟨tail, htail⟩ := ih rest.length (by simp; omega) rest rfl
      refine ⟨tail, ?_⟩
      rw [List.splitOn_append_cons_self_of_not_mem hno, htail, lineSpans_line hno]
      rfl

/-! ## 2. Documents -/

/-- A line of the frontmatter, as it is written. -/
inductive FrontLine where
  | name (key value : Bytes)
  | description (key value : Bytes)
  | other (line : Bytes)

namespace FrontLine

/-- A key and a value between quotes. -/
def keyed (key value : Bytes) : Bytes := key ++ bytes ": \"" ++ value ++ bytes "\""

def text : FrontLine → Bytes
  | name key value => keyed key value
  | description key value => keyed key value
  | other line => line

def name? : FrontLine → Option Bytes
  | name _ value => some value
  | _ => none

def description? : FrontLine → Option Bytes
  | description _ value => some value
  | _ => none

/-- The keys are written in any case.  Any other line has a key that is neither of the two, or
no colon at all, and is no fence. -/
def Sound : FrontLine → Prop
  | name key value => lower key = bytes "name" ∧ newline ∉ value
  | description key value => lower key = bytes "description" ∧ newline ∉ value
  | other line => newline ∉ line ∧ Text.trim line ≠ fence ∧
      ∀ key value, colon ∉ key → line = key ++ colon :: value →
        lower (Text.trim key) ≠ bytes "name" ∧ lower (Text.trim key) ≠ bytes "description"

end FrontLine

/-- Lines, each with the newline that ends it. -/
def unlines (lines : List Bytes) : Bytes := lines.flatMap fun line => line ++ [newline]

/-- A line that is a fence, with white space around it or not. -/
def IsFence (line : Bytes) : Prop := newline ∉ line ∧ Text.trim line = fence

/-- A document: blank lines, a fence, the frontmatter, a fence, and the body, or the end of the text
right behind the fence. -/
structure SkillDocument where
  lead : List Bytes := []
  opening : Bytes := fence
  front : List FrontLine
  closing : Bytes := fence
  rest : Option Bytes
  lead_blank : ∀ line ∈ lead, newline ∉ line ∧ Text.trim line = []
  opening_fence : IsFence opening
  front_sound : ∀ line ∈ front, line.Sound
  closing_fence : IsFence closing

namespace SkillDocument

def body (doc : SkillDocument) : Bytes := doc.rest.getD []

/-- The fence that closes the frontmatter, and what is behind it. -/
def ending (doc : SkillDocument) : Bytes :=
  match doc.rest with
  | none => doc.closing
  | some body => doc.closing ++ newline :: body

def text (doc : SkillDocument) : Bytes :=
  unlines doc.lead ++
    (doc.opening ++ newline :: (unlines (doc.front.map FrontLine.text) ++ doc.ending))

def names (doc : SkillDocument) : List Bytes := doc.front.filterMap FrontLine.name?

def descriptions (doc : SkillDocument) : List Bytes := doc.front.filterMap FrontLine.description?

end SkillDocument

/-- The first line that is not blank is a fence, and so is a line behind it. -/
def HasFrontmatter (text : Bytes) : Prop :=
  ∃ before opening after, text.splitOn newline = before ++ opening :: after ∧
    (∀ line ∈ before, Text.trim line = []) ∧ Text.trim opening = fence ∧
      ∃ line ∈ after, Text.trim line = fence

/-- The document with a name, a description and a body, and nothing else. -/
def plainSkill (name description body : Bytes) : Bytes :=
  bytes "---\nname: \"" ++ name ++ bytes "\"\ndescription: \"" ++ description ++
    bytes "\"\n---\n" ++ body

/-! ## 3. A line of the frontmatter -/

/-- A key: something with neither white space nor a colon in it. -/
structure PlainKey (key : Bytes) : Prop where
  nonempty : key ≠ []
  noSpace : ∀ c ∈ key, isspace c = false
  noColon : colon ∉ key

/-- A key is plain if its lower case is. -/
theorem PlainKey.of_lower {key : Bytes} (h : PlainKey (lower key)) : PlainKey key := by
  have hmem : ∀ c ∈ key, tolower c ∈ lower key := fun c hc => List.mem_map_of_mem hc
  refine ⟨fun hnil => h.nonempty (lower_eq_nil.mpr hnil), fun c hc => ?_, fun hc => ?_⟩
  · rw [← isspace_tolower]
    exact h.noSpace _ (hmem c hc)
  · exact h.noColon (hmem colon hc)

namespace FrontLine

variable {key : Bytes}

/-- The keys that are compared with are in lower case. -/
theorem plainKey_name (h : lower key = bytes "name") : PlainKey key := by
  refine PlainKey.of_lower ?_
  rw [h]
  exact ⟨by decide, by decide +kernel, by decide +kernel⟩

theorem plainKey_description (h : lower key = bytes "description") : PlainKey key := by
  refine PlainKey.of_lower ?_
  rw [h]
  exact ⟨by decide, by decide +kernel, by decide +kernel⟩

/-- What is behind the colon. -/
theorem keyed_eq (key value : Bytes) :
    keyed key value = key ++ colon :: 0x20 :: (0x22 :: (value ++ [0x22])) := by
  unfold keyed
  rw [show bytes ": \"" = [colon, 0x20, 0x22] by decide, show bytes "\"" = [0x22] by decide]
  simp

/-- The line ends in a quote. -/
theorem getLast?_keyed (key value : Bytes) : (keyed key value).getLast? = some 0x22 := by
  unfold keyed
  rw [show bytes "\"" = [0x22] by decide, List.getLast?_concat]

/-- Nothing is trimmed off a line with a key. -/
theorem trim_keyed (h : PlainKey key) (value : Bytes) :
    Text.trim (keyed key value) = keyed key value := by
  refine trim_eq_self (fun c hc => ?_) fun c hc => ?_
  · rw [keyed_eq, List.head?_append_of_ne_nil _ h.nonempty] at hc
    exact h.noSpace c (List.mem_of_mem_head? hc)
  · rw [getLast?_keyed] at hc
    cases hc
    decide

theorem trim_key (h : PlainKey key) : Text.trim key = key :=
  trim_eq_self (fun c hc => h.noSpace c (List.mem_of_mem_head? hc))
    fun c hc => h.noSpace c (List.mem_of_getLast? hc)

/-- **The quotes are taken off**, and nothing of the value with them. -/
theorem unquote_quoted (value : Bytes) :
    unquote (Text.trim (0x20 :: 0x22 :: (value ++ [0x22]))) = value := by
  have hlast : (0x22 :: (value ++ [0x22])).getLast? = some (0x22 : UInt8) := by
    rw [← List.cons_append, List.getLast?_concat]
  have hself : Text.trim (0x22 :: (value ++ [0x22])) = 0x22 :: (value ++ [0x22]) := by
    refine trim_eq_self (fun c hc => ?_) fun c hc => ?_
    · cases hc
      decide
    · rw [hlast] at hc
      cases hc
      decide
  rw [trim_cons_of_isspace (by decide), hself]
  unfold unquote
  rw [if_pos ⟨by simp, Or.inl rfl, hlast⟩, List.tail_cons, List.dropLast_concat]

/-- What a line sets. -/
def apply (s : Skill) : FrontLine → Skill
  | name _ value => { s with name := value }
  | description _ value => { s with description := value }
  | other _ => s

/-- A line with a key goes to the field of that key. -/
theorem frontmatter_keyed (h : PlainKey key) (s : Skill) (value next : Bytes)
    (spans : List (Bytes × Bytes)) :
    frontmatter s ((keyed key value, next) :: spans) =
      if lower key = bytes "name" then frontmatter { s with name := value } spans
      else if lower key = bytes "description" then
        frontmatter { s with description := value } spans
      else frontmatter s spans := by
  have hfence : keyed key value ≠ fence := by
    intro heq
    have hlast := getLast?_keyed key value
    rw [heq] at hlast
    exact absurd hlast (by decide)
  have hline : Lines.takeLine colon (keyed key value) =
      some (key, 0x20 :: (0x22 :: (value ++ [0x22]))) :=
    Lines.takeLine_eq_some_iff.mpr ⟨h.noColon, keyed_eq key value⟩
  rw [frontmatter, trim_keyed h, if_neg hfence, hline]
  dsimp only
  rw [trim_key h, unquote_quoted]

/-- **One line**: the loop goes on with what the line sets. -/
theorem frontmatter_line {line : FrontLine} (h : line.Sound) (s : Skill) (next : Bytes)
    (spans : List (Bytes × Bytes)) :
    frontmatter s ((line.text, next) :: spans) = frontmatter (line.apply s) spans := by
  cases line with
  | name key value =>
    exact (frontmatter_keyed (plainKey_name h.1) s value next spans).trans (if_pos h.1)
  | description key value =>
    refine (frontmatter_keyed (plainKey_description h.1) s value next spans).trans ?_
    rw [if_neg (by rw [h.1]; decide), if_pos h.1]
    rfl
  | other line =>
    obtain ⟨-, hfence, hkey⟩ := h
    change frontmatter s ((line, next) :: spans) = frontmatter s spans
    rw [frontmatter, if_neg hfence]
    cases htake : Lines.takeLine colon (Text.trim line) with
    | none => rfl
    | some found =>
      -- the key of the trimmed line is that of the line, less the white space in front
      obtain ⟨key, value⟩ := found
      obtain ⟨hno, hsplit⟩ := Lines.takeLine_eq_some_iff.mp htake
      obtain ⟨lead, tail, hlead, hline⟩ := exists_trim line
      have hcolon : colon ∉ lead ++ key := by
        rw [List.mem_append, not_or]
        exact ⟨fun hmem => absurd (hlead colon hmem) (by decide), hno⟩
      obtain ⟨hname, hdescription⟩ := hkey (lead ++ key) (value ++ tail) hcolon (by
        rw [hsplit] at hline
        rw [hline]
        simp)
      rw [trim_append_of_all hlead] at hname hdescription
      dsimp only
      rw [if_neg hname, if_neg hdescription]

theorem newline_notMem_text {line : FrontLine} (h : line.Sound) : newline ∉ line.text := by
  have hkeyed : ∀ {key value : Bytes}, PlainKey key → newline ∉ value →
      newline ∉ keyed key value := by
    intro key value hkey hvalue
    have hnot : newline ∉ key := fun hmem => absurd (hkey.noSpace newline hmem) (by decide)
    have hsep : ∀ c ∈ [colon, 0x20, 0x22], newline ≠ c := by decide +kernel
    rw [keyed_eq]
    simp only [List.mem_append, List.mem_cons, List.not_mem_nil, or_false, not_or]
    exact ⟨hnot, hsep _ (by simp), hsep _ (by simp), hsep _ (by simp), hvalue, hsep _ (by simp)⟩
  cases line with
  | name key value => exact hkeyed (plainKey_name h.1) h.2
  | description key value => exact hkeyed (plainKey_description h.1) h.2
  | other line => exact h.1

end FrontLine

/-! ## 4. The two loops -/

/-- The last value that the lines set is the one that counts. -/
theorem foldl_apply (front : List FrontLine) (s : Skill) :
    front.foldl FrontLine.apply s =
      ⟨((front.filterMap FrontLine.name?).getLast?).getD s.name,
        ((front.filterMap FrontLine.description?).getLast?).getD s.description, s.body⟩ := by
  induction front generalizing s with
  | nil => rfl
  | cons line front ih =>
    rw [List.foldl_cons, ih]
    cases line with
    | name key value =>
      simp [FrontLine.apply, FrontLine.name?, FrontLine.description?, List.getLast?_cons]
    | description key value =>
      simp [FrontLine.apply, FrontLine.name?, FrontLine.description?, List.getLast?_cons]
    | other line => simp [FrontLine.apply, FrontLine.name?, FrontLine.description?]

/-- **The frontmatter**, line by line. -/
theorem frontmatter_lines {front : List FrontLine} (h : ∀ line ∈ front, line.Sound) (s : Skill)
    (rest : Bytes) :
    frontmatter s (lineSpans (unlines (front.map FrontLine.text) ++ rest)) =
      frontmatter (front.foldl FrontLine.apply s) (lineSpans rest) := by
  induction front generalizing s with
  | nil => rfl
  | cons line front ih =>
    have hline := h line List.mem_cons_self
    have hsplit : unlines ((line :: front).map FrontLine.text) ++ rest =
        line.text ++ newline :: (unlines (front.map FrontLine.text) ++ rest) := by
      simp [unlines]
    rw [hsplit, lineSpans_line (FrontLine.newline_notMem_text hline),
      FrontLine.frontmatter_line hline, List.foldl_cons]
    exact ih (fun line hmem => h line (List.mem_cons_of_mem _ hmem)) _

/-- The closing fence: what is behind it is the body. -/
theorem frontmatter_ending (doc : SkillDocument) (s : Skill) :
    frontmatter s (lineSpans doc.ending) = some { s with body := Text.trim doc.body } := by
  obtain ⟨hno, hfence⟩ := doc.closing_fence
  unfold SkillDocument.ending SkillDocument.body
  cases doc.rest with
  | none =>
    have hne : doc.closing ≠ [] := by
      rintro hnil
      rw [hnil] at hfence
      exact absurd hfence (by decide)
    rw [lineSpans_last hno hne, frontmatter, if_pos hfence]
    rfl
  | some body =>
    dsimp only
    rw [lineSpans_line hno, frontmatter, if_pos hfence]
    rfl

/-- The first line that is not blank. -/
theorem dropWhile_blank_lines {lead : List Bytes}
    (h : ∀ line ∈ lead, newline ∉ line ∧ Text.trim line = []) (rest : Bytes) :
    ((lineSpans (unlines lead ++ rest)).dropWhile fun span => Text.trim span.1 = []) =
      (lineSpans rest).dropWhile fun span => Text.trim span.1 = [] := by
  induction lead with
  | nil => rfl
  | cons line lead ih =>
    obtain ⟨hno, hblank⟩ := h line List.mem_cons_self
    have hsplit : unlines (line :: lead) ++ rest = line ++ newline :: (unlines lead ++ rest) := by
      simp [unlines]
    rw [hsplit, lineSpans_line hno, List.dropWhile_cons_of_pos (by simpa using hblank)]
    exact ih fun line hmem => h line (List.mem_cons_of_mem _ hmem)

/-- **A document is read back**: the last name, the last description, and the trimmed body. -/
theorem parseSkill_text (doc : SkillDocument) :
    parseSkill doc.text =
      ⟨doc.names.getLast?.getD [], doc.descriptions.getLast?.getD [], Text.trim doc.body⟩ := by
  obtain ⟨hno, hfence⟩ := doc.opening_fence
  unfold parseSkill SkillDocument.text
  rw [dropWhile_blank_lines doc.lead_blank, lineSpans_line hno,
    List.dropWhile_cons_of_neg (by simp [hfence]; decide)]
  dsimp only
  rw [if_pos hfence, frontmatter_lines doc.front_sound, frontmatter_ending, foldl_apply]
  rfl

/-- The frontmatter is not closed if none of its lines is a fence. -/
theorem frontmatter_eq_none {spans : List (Bytes × Bytes)}
    (h : ∀ line ∈ spans.map Prod.fst, Text.trim line ≠ fence) (s : Skill) :
    frontmatter s spans = none := by
  induction spans generalizing s with
  | nil => rfl
  | cons span spans ih =>
    obtain ⟨line, next⟩ := span
    have hspans := ih fun line hmem => h line (List.mem_cons_of_mem _ hmem)
    rw [frontmatter, if_neg (h line List.mem_cons_self)]
    cases Lines.takeLine colon (Text.trim line) with
    | none => exact hspans s
    | some found =>
      dsimp only
      split_ifs
      · exact hspans _
      · exact hspans _
      · exact hspans s

/-- **Nothing is swallowed**: without frontmatter the text is the body. -/
theorem parseSkill_of_not_hasFrontmatter {text : Bytes} (h : ¬ HasFrontmatter text) :
    parseSkill text = { body := Text.trim text } := by
  unfold parseSkill
  cases hdrop : (lineSpans text).dropWhile fun span => Text.trim span.1 = [] with
  | nil => rfl
  | cons span spans =>
    obtain ⟨line, next⟩ := span
    dsimp only
    by_cases hfence : Text.trim line = fence
    · rw [if_pos hfence, frontmatter_eq_none]
      · rfl
      intro line' hmem hclose
      refine h ?_
      obtain ⟨tail, htail⟩ := splitOn_lineSpans text
      rw [← List.takeWhile_append_dropWhile (p := fun span => Text.trim span.1 = [])
        (l := lineSpans text), hdrop, List.map_append, List.append_assoc] at htail
      refine ⟨_, line, _, htail, ?_, hfence, line', List.mem_append_left _ hmem, hclose⟩
      intro blank hblank
      obtain ⟨span, hspan, rfl⟩ := List.mem_map.mp hblank
      simpa using List.mem_takeWhile_imp hspan
    · rw [if_neg hfence]

/-- The plain document is a document. -/
def SkillDocument.plain {name description : Bytes} (hname : newline ∉ name)
    (hdescription : newline ∉ description) (body : Bytes) : SkillDocument where
  front := [.name (bytes "name") name, .description (bytes "description") description]
  rest := some body
  lead_blank := by simp
  opening_fence := ⟨by decide, by decide⟩
  front_sound := by
    intro line hline
    rcases List.mem_pair.mp hline with rfl | rfl
    · exact ⟨by decide, hname⟩
    · exact ⟨by decide, hdescription⟩
  closing_fence := ⟨by decide, by decide⟩

theorem SkillDocument.text_plain {name description : Bytes} (hname : newline ∉ name)
    (hdescription : newline ∉ description) (body : Bytes) :
    (SkillDocument.plain hname hdescription body).text = plainSkill name description body := by
  have hopen : bytes "---\nname: \"" = fence ++ newline :: (bytes "name" ++ bytes ": \"") := by
    decide
  have hmiddle : bytes "\"\ndescription: \"" =
      bytes "\"" ++ newline :: (bytes "description" ++ bytes ": \"") := by decide
  have hclose : bytes "\"\n---\n" = bytes "\"" ++ newline :: (fence ++ [newline]) := by decide
  unfold plainSkill SkillDocument.text SkillDocument.ending
  rw [hopen, hmiddle, hclose]
  simp [SkillDocument.plain, unlines, FrontLine.text, FrontLine.keyed]

/-- **Skill documents are read back, and nothing is swallowed.** -/
theorem parseSkill_document :
    (∀ name description body : Bytes, newline ∉ name → newline ∉ description →
      parseSkill (plainSkill name description body) = ⟨name, description, Text.trim body⟩) ∧
    (∀ (doc : SkillDocument) (name description : Bytes), doc.names = [name] →
      doc.descriptions = [description] →
        parseSkill doc.text = ⟨name, description, Text.trim doc.body⟩) ∧
    ∀ text : Bytes, ¬ HasFrontmatter text → parseSkill text = { body := Text.trim text } := by
  refine ⟨fun name description body hname hdescription => ?_,
    fun doc name description hnames hdescriptions => ?_,
    fun text => parseSkill_of_not_hasFrontmatter⟩
  · rw [← SkillDocument.text_plain hname hdescription, parseSkill_text]
    rfl
  · rw [parseSkill_text, hnames, hdescriptions]
    rfl

/-- **White space counts for nothing around a fence**: the first line of `"--- \nname: x\n---\nB"`
is not `---`, and yet what follows it is frontmatter. -/
theorem padded_fence_opens :
    ¬ ∀ text : Bytes,
      ((text.splitOn newline).find? fun line => Text.trim line ≠ []) ≠ some (bytes "---") →
        parseSkill text = { body := Text.trim text } := by
  intro h
  exact absurd (h (bytes "--- \nname: x\n---\nB") (by decide)) (by decide)

end SimpleCoder

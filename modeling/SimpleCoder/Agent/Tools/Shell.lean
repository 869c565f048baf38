/-
# The shell and directory tools

`run_bash`, `list_dir`, `grep_search` and `make_dir`.  The loops over directories may end early
(`break`) or by an exception from advancing the iterator; each loop is written as a function of the
entries that also says whether it broke off, since only a loop that did not is advanced past them.
-/
import SimpleCoder.Agent.Tools.Host
import SimpleCoder.Util.Diff

namespace SimpleCoder

variable {W : Type}

/-- `RunBashTool`. -/
def runBashTool (lib : JsonText) (host : Host W) : Tool W where
  name := bytes "run_bash"
  schema := functionSchema (bytes "run_bash")
    (bytes "Run a shell command and return its combined stdout/stderr and exit code.")
    [property (bytes "command") (bytes "string") (bytes "The shell command to execute.")]
    [bytes "command"]
  requiresConfirmation := true
  confirmDetails := defaultConfirmDetails lib
  execute args := do
    let command ← textArg args (bytes "command")
    if command = [] then return failure (bytes "error: 'command' argument is required")
    match ← modifyGet (host.shell (bytes "( " ++ command ++ bytes " ) 2>&1")) with
    | none => return failure (bytes "error: failed to start command")
    | some (out, code) =>
      if code = 0 then return success out
      let out := if out ≠ [] ∧ out.getLast? ≠ some newline then out ++ [newline] else out
      return failure (out ++ bytes "[exit code " ++ decimal code ++ bytes "]")

/-- The line of `list_dir` for one entry. -/
def dirLine (e : DirEntry) : Bytes :=
  if e.isDirectory then bytes "[dir]  " ++ e.name
  else
    bytes "[file] " ++ e.name ++
      match e.size with
      | some size => bytes " (" ++ decimal size ++ bytes " bytes)"
      | none => []

/-- The loop of `list_dir`, with the error code `ec` of the entry before: the lines, and whether it
broke off. -/
def dirLines : Bool → List DirEntry → List Bytes × Bool
  | _, [] => ([], false)
  | true, _ :: _ => ([], true)
  | false, e :: es => (dirLine e :: (dirLines e.failed es).1, (dirLines e.failed es).2)

/-- `ListDirTool`. -/
def listDirTool (lib : JsonText) (host : Host W) : Tool W where
  name := bytes "list_dir"
  schema := functionSchema (bytes "list_dir") (bytes "List the entries of a directory.")
    [property (bytes "path") (bytes "string") (bytes "Path to the directory to list.")]
    [bytes "path"]
  requiresConfirmation := false
  confirmDetails := defaultConfirmDetails lib
  execute args := do
    let path ← textArg args (bytes "path")
    if path = [] then return failure (bytes "error: 'path' argument is required")
    let w ← get
    if host.pathExists path w = false then
      return failure (bytes "error: " ++ quote path ++ bytes " does not exist")
    if host.isDirectory path w = false then
      return failure (bytes "error: " ++ quote path ++ bytes " is not a directory")
    let listing := host.listDir path w
    let (lines, broke) := dirLines false listing.entries
    if listing.raises ∧ broke = false then throw .filesystemError
    if lines = [] then return success (bytes "(empty directory)")
    return success ((lines.mergeSort (fun a b => compare a b ≠ .gt)).flatMap (· ++ [newline]))

def maxMatches : Nat := 500

def maxLineLen : Nat := 300

/-- The line of `grep_search` for one match. -/
def matchLine (file : Bytes) (lineno : Nat) (line : Bytes) : Bytes :=
  let line := if line.length > maxLineLen then line.take maxLineLen ++ bytes "…" else line
  file ++ bytes ":" ++ decimal lineno ++ bytes ": " ++ line ++ [newline]

/-- The loop of `search_file` over the numbered lines of a file: what it appends and how many
matches that is, at most `budget`. -/
def searchLines (file : Bytes) (re : Bytes → Bool) : Nat → List (Bytes × Nat) → Bytes × Nat
  | 0, _ => ([], 0)
  | _ + 1, [] => ([], 0)
  | budget + 1, (line, lineno) :: rest =>
    if re line then
      let (out, added) := searchLines file re budget rest
      (matchLine file lineno line ++ out, added + 1)
    else searchLines file re (budget + 1) rest

/-- `search_file`. -/
def searchFile (host : Host W) (re : Bytes → Bool) (file : Bytes) (budget : Nat) (w : W) :
    (Bytes × Nat) × W :=
  match host.readFile file w with
  | (none, w) => (([], 0), w)
  | (some content, w) => (searchLines file re budget ((splitLines content).zipIdx 1), w)

/-- What the loop of `grep_search` has come to. -/
structure Found where
  out : Bytes := []
  remaining : Nat := maxMatches
  broke : Bool := false

/-- Search one more file. -/
def Found.search (host : Host W) (re : Bytes → Bool) (file : Bytes) (f : Found) (w : W) :
    Found × W :=
  let ((out, added), w) := searchFile host re file f.remaining w
  ({ f with out := f.out ++ out, remaining := f.remaining - added }, w)

/-- The loop of `grep_search` over a directory. -/
def searchTree (host : Host W) (re : Bytes → Bool) : List WalkEntry → Found → W → Found × W
  | [], f, w => (f, w)
  | e :: es, f, w =>
    if f.remaining = 0 then ({ f with broke := true }, w)
    else if e.isRegularFile then
      let (f, w) := f.search host re e.path w
      searchTree host re es f w
    else searchTree host re es f w

/-- Search a directory, or else a file. -/
def searchPath (host : Host W) (re : Bytes → Bool) (path : Bytes) : EStateM Exn W Found := do
  let w ← get
  if host.isDirectory path w then
    let listing := host.walk path w
    let found ← modifyGet (searchTree host re listing.entries {})
    if listing.raises ∧ found.broke = false then throw .filesystemError
    return found
  else modifyGet (Found.search host re path {})

/-- What `grep_search` reports. -/
def Found.report (f : Found) : ToolResult :=
  if f.out = [] then success (bytes "(no matches)")
  else if f.remaining = 0 then
    success (f.out ++ bytes "[truncated at " ++ decimal maxMatches ++ bytes " matches]\n")
  else success f.out

/-- `GrepSearchTool`. -/
def grepSearchTool (lib : JsonText) (host : Host W) : Tool W where
  name := bytes "grep_search"
  schema := functionSchema (bytes "grep_search")
    (bytes "Search for a regular expression in a file, or recursively under a " ++
      bytes "directory. Returns matching lines as path:line: text.")
    [property (bytes "pattern") (bytes "string")
        (bytes "ECMAScript regular expression to search for."),
      property (bytes "path") (bytes "string") (bytes "File or directory to search.")]
    [bytes "pattern", bytes "path"]
  requiresConfirmation := false
  confirmDetails := defaultConfirmDetails lib
  execute args := do
    let pattern ← textArg args (bytes "pattern")
    let path ← textArg args (bytes "path")
    if pattern = [] then return failure (bytes "error: 'pattern' argument is required")
    if path = [] then return failure (bytes "error: 'path' argument is required")
    match host.regex pattern with
    | .error message => return failure (bytes "error: invalid regex: " ++ message)
    | .ok re =>
      if host.pathExists path (← get) = false then
        return failure (bytes "error: " ++ quote path ++ bytes " does not exist")
      return (← searchPath host re path).report

/-- `MakeDirTool`. -/
def makeDirTool (lib : JsonText) (host : Host W) : Tool W where
  name := bytes "make_dir"
  schema := functionSchema (bytes "make_dir")
    (bytes "Create a directory, including any missing parents.")
    [property (bytes "path") (bytes "string") (bytes "Directory path to create.")]
    [bytes "path"]
  requiresConfirmation := true
  confirmDetails := defaultConfirmDetails lib
  execute args := do
    let path ← textArg args (bytes "path")
    if path = [] then return failure (bytes "error: 'path' argument is required")
    let w ← get
    if host.pathExists path w then
      if host.isDirectory path w then
        return success (bytes "directory already exists: " ++ path)
      return failure (bytes "error: " ++ quote path ++ bytes " exists and is not a directory")
    match ← modifyGet (host.createDirectories path) with
    | some message =>
      return failure (bytes "error: could not create " ++ quote path ++ bytes ": " ++ message)
    | none => return success (bytes "created directory " ++ path)

end SimpleCoder

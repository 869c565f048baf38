/-
# The file tools

`read_file`, `write_file` and `str_replace`.  The two that write preview the change as a diff in
their confirmation details.
-/
import SimpleCoder.Agent.Tools.Host
import SimpleCoder.Util.Diff

namespace SimpleCoder

variable {W : Type}

/-- `ReadFileTool`. -/
def readFileTool (lib : JsonText) (host : Host W) : Tool W where
  name := bytes "read_file"
  schema := functionSchema (bytes "read_file")
    (bytes "Read and return the contents of a text file.")
    [property (bytes "path") (bytes "string") (bytes "Path to the file to read.")]
    [bytes "path"]
  requiresConfirmation := false
  confirmDetails := defaultConfirmDetails lib
  execute args := do
    let path ← textArg args (bytes "path")
    if path = [] then return failure (bytes "error: 'path' argument is required")
    match ← modifyGet (host.readFile path) with
    | none => return failure (bytes "error: could not open " ++ quote path)
    | some content => return success content

/-- The end of a confirmation preview: the diff, or that there is none. -/
def previewText (header current updated : Bytes) : Bytes :=
  let diff := editPreview current updated
  if diff = [] then header ++ bytes "\n(no changes)" else header ++ bytes "\n" ++ diff

/-- Write a file and report it, as `write_file` and `str_replace` do. -/
def writeAndReport (host : Host W) (path content done : Bytes) : EStateM Exn W ToolResult := do
  match ← modifyGet (host.writeFile path content) with
  | .cannotOpen =>
    return failure (bytes "error: could not open " ++ quote path ++ bytes " for writing")
  | .failed => return failure (bytes "error: failed while writing " ++ quote path)
  | .written => return success done

/-- `WriteFileTool`. -/
def writeFileTool (host : Host W) : Tool W where
  name := bytes "write_file"
  schema := functionSchema (bytes "write_file")
    (bytes "Create or overwrite a file with the given text content.")
    [property (bytes "path") (bytes "string") (bytes "Path to the file to write."),
      property (bytes "content") (bytes "string")
        (bytes "Full text content to write to the file.")]
    [bytes "path", bytes "content"]
  requiresConfirmation := true
  confirmDetails args := do
    let path ← textArg args (bytes "path")
    let content ← textArg args (bytes "content")
    let current ← modifyGet (host.readFile path)
    let header := bytes "path: " ++ path ++
      (if current.isSome then bytes " (overwrite, " else bytes " (new file, ") ++
      decimal content.length ++ bytes " bytes)"
    return previewText header (current.getD []) content
  execute args := do
    let path ← textArg args (bytes "path")
    if path = [] then return failure (bytes "error: 'path' argument is required")
    let content ← textArg args (bytes "content")
    writeAndReport host path content
      (bytes "wrote " ++ decimal content.length ++ bytes " bytes to " ++ path)

/-- `content.find(needle)` for a needle that is not empty: what is before the first occurrence and
what is behind it. -/
def splitAtText (needle : Bytes) : Bytes → Option (Bytes × Bytes)
  | [] => none
  | c :: cs =>
    if startsWith (c :: cs) needle then some ([], (c :: cs).drop needle.length)
    else (splitAtText needle cs).map fun p => (c :: p.1, p.2)

/-- How often the text to replace is there: not at all, once (with what is around it), or more. -/
inductive Occurrence where
  | absent
  | unique (before after : Bytes)
  | ambiguous

/-- The search that `execute` and `confirm_details` share. -/
def occurrence (content oldStr : Bytes) : Occurrence :=
  match splitAtText oldStr content with
  | none => .absent
  | some (before, after) =>
    match splitAtText oldStr after with
    | some _ => .ambiguous
    | none => .unique before after

/-- Replace the text in the file, if it is there exactly once. -/
def replaceUnique (host : Host W) (path oldStr newStr : Bytes) : EStateM Exn W ToolResult := do
  if oldStr = [] then return failure (bytes "error: 'old_str' must not be empty")
  match ← modifyGet (host.readFile path) with
  | none => return failure (bytes "error: could not open " ++ quote path)
  | some content =>
    match occurrence content oldStr with
    | .absent => return failure (bytes "error: old_str not found in " ++ quote path)
    | .ambiguous =>
      return failure (bytes "error: old_str is not unique in " ++ quote path ++
        bytes "; include more surrounding context")
    | .unique before after =>
      writeAndReport host path (before ++ newStr ++ after)
        (bytes "replaced 1 occurrence in " ++ path)

/-- `StrReplaceTool`. -/
def strReplaceTool (host : Host W) : Tool W where
  name := bytes "str_replace"
  schema := functionSchema (bytes "str_replace")
    (bytes "Replace an exact, unique substring in a file with new text. The " ++
      bytes "old text must appear exactly once.")
    [property (bytes "path") (bytes "string") (bytes "Path to the file to edit."),
      property (bytes "old_str") (bytes "string") (bytes "Exact text to replace (must be unique)."),
      property (bytes "new_str") (bytes "string") (bytes "Replacement text.")]
    [bytes "path", bytes "old_str", bytes "new_str"]
  requiresConfirmation := true
  confirmDetails args := do
    let path ← textArg args (bytes "path")
    let oldStr ← textArg args (bytes "old_str")
    let newStr ← textArg args (bytes "new_str")
    let header := bytes "path: " ++ path
    match ← modifyGet (host.readFile path) with
    | none => return header ++ bytes "\n(cannot read file — edit will fail)"
    | some current =>
      if oldStr = [] then return header ++ bytes "\n(old_str is empty — edit will fail)"
      match occurrence current oldStr with
      | .absent => return header ++ bytes "\n(old_str not found — edit will fail)"
      | .ambiguous => return header ++ bytes "\n(old_str is not unique — edit will fail)"
      | .unique before after => return previewText header current (before ++ newStr ++ after)
  execute args := do
    let path ← textArg args (bytes "path")
    if path = [] then return failure (bytes "error: 'path' argument is required")
    if args.contains (bytes "old_str") = false then
      return failure (bytes "error: 'old_str' argument is required")
    let oldStr ← textArg args (bytes "old_str")
    let newStr ← textArg args (bytes "new_str")
    replaceUnique host path oldStr newStr

end SimpleCoder

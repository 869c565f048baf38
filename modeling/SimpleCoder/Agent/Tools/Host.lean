/-
# What the tools find outside

The built-in tools act on files, processes and the network.  `Host` is what they call there, each
call a step of the world.  None of the calls raises except for advancing a directory iterator:
the range-`for` loops of the source use the overload that does (`Listing.raises`).
-/
import SimpleCoder.Agent.Tool
import SimpleCoder.Net.HttpClient

namespace SimpleCoder

/-- How writing a file went. -/
inductive WriteOutcome where
  | written
  | cannotOpen
  | failed
  deriving DecidableEq

/-- An entry of `directory_iterator`; `failed` is whether `is_directory(ec)` set the error code. -/
structure DirEntry where
  name : Bytes
  isDirectory : Bool
  failed : Bool := false
  size : Option Nat := none

/-- An entry of `recursive_directory_iterator`. -/
structure WalkEntry where
  path : Bytes
  isRegularFile : Bool

/-- What an iterator goes through, and whether advancing it past the last of these raises. -/
structure Listing (α : Type) where
  entries : List α
  raises : Bool := false

/-- The outside of the tools. -/
structure Host (W : Type) where
  /-- Open a file for reading and read all of it. -/
  readFile : Bytes → W → Option Bytes × W
  /-- Truncate a file and write the text. -/
  writeFile : Bytes → Bytes → W → WriteOutcome × W
  /-- `popen`, read to the end, `pclose`: the output, and the exit code or -1. -/
  shell : Bytes → W → Option (Bytes × Int) × W
  pathExists : Bytes → W → Bool
  isDirectory : Bytes → W → Bool
  listDir : Bytes → W → Listing DirEntry
  walk : Bytes → W → Listing WalkEntry
  /-- `create_directories`: the message of the error, if there is one. -/
  createDirectories : Bytes → W → Option Bytes × W
  /-- `std::regex`: the message of the error, or what the expression finds. -/
  regex : Bytes → Except Bytes (Bytes → Bool)
  http : HttpFn W

variable {W : Type}

/-- An outside with these files, which can only be read, and nothing else. -/
def Host.ofFiles (files : List (Bytes × Bytes)) : Host W where
  readFile path w := (files.lookup path, w)
  writeFile _ _ w := (.cannotOpen, w)
  shell _ w := (none, w)
  pathExists path _ := (files.lookup path).isSome
  isDirectory _ _ := false
  listDir _ _ := { entries := [] }
  walk _ _ := { entries := [] }
  createDirectories _ w := (some (bytes "Read-only file system"), w)
  regex _ := .error (bytes "regex_error")
  http _ w := ({ error := bytes "Could not resolve host" }, w)

/-- Read the text field `key` of the arguments, empty if it is not there. -/
def textArg (args : Json) (key : Bytes) : EStateM Exn W Bytes :=
  Exec.ofExcept (args.valueString key [])

def intArg (args : Json) (key : Bytes) (default : Int) : EStateM Exn W Int :=
  Exec.ofExcept (args.valueInt key default)

def failure (text : Bytes) : ToolResult := ⟨false, text⟩

def success (text : Bytes) : ToolResult := ⟨true, text⟩

@[simp] theorem failure_output (text : Bytes) : (failure text).output = text := rfl

@[simp] theorem success_output (text : Bytes) : (success text).output = text := rfl

/-- A text in single quotes. -/
def quote (s : Bytes) : Bytes := bytes "'" ++ s ++ bytes "'"

/-- `Tool::confirm_details`: the command, else the path, else the arguments as they are. -/
def defaultConfirmDetails (lib : JsonText) (args : Json) : EStateM Exn W Bytes :=
  match args.find (bytes "command") with
  | some (.string command) => pure command
  | _ =>
    match args.find (bytes "path") with
    | some (.string path) =>
      match args.find (bytes "content") with
      | some (.string content) =>
        pure (bytes "path: " ++ path ++ bytes " (" ++ decimal content.length ++ bytes " bytes)")
      | _ => pure (bytes "path: " ++ path)
    | _ => Exec.ofExcept (args.dump lib)

/-- A field of a schema's properties. -/
def property (name type description : Bytes) : Bytes × Json :=
  (name, Json.ofFields [(bytes "type", .string type), (bytes "description", .string description)])

/-- The definition of a built-in tool: `{"type":"function","function":{…}}`. -/
def functionSchema (name description : Bytes) (properties : List (Bytes × Json))
    (required : List Bytes) : Json :=
  Json.ofFields
    [(bytes "type", .string (bytes "function")),
      (bytes "function", Json.ofFields
        [(bytes "name", .string name),
          (bytes "description", .string description),
          (bytes "parameters", Json.ofFields
            [(bytes "type", .string (bytes "object")),
              (bytes "properties", Json.ofFields properties),
              (bytes "required", .array (required.map Json.string))])])]

@[simp] theorem property_fst (name type description : Bytes) :
    (property name type description).1 = name := rfl

@[simp] theorem property_validText_iff (name type description : Bytes) :
    (property name type description).2.ValidText ↔ Utf8 type ∧ Utf8 description := by
  unfold property
  rw [Json.validText_ofFields_iff (by simp only [List.map]; decide)]
  simp [Json.ValidText]

/-- A definition is valid text exactly when its texts are. -/
theorem functionSchema_validText_iff (name description : Bytes) {properties : List (Bytes × Json)}
    (required : List Bytes) (hkeys : (properties.map Prod.fst).Nodup) :
    (functionSchema name description properties required).ValidText ↔
      Utf8 name ∧ Utf8 description ∧ (∀ p ∈ properties, Utf8 p.1 ∧ p.2.ValidText) ∧
        ∀ r ∈ required, Utf8 r := by
  have hproperties := Json.validText_ofFields_iff hkeys
  unfold functionSchema
  rw [Json.validText_ofFields_iff (by simp only [List.map]; decide)]
  simp only [List.forall_mem_cons]
  rw [Json.validText_ofFields_iff (by simp only [List.map]; decide)]
  simp only [List.forall_mem_cons]
  rw [Json.validText_ofFields_iff (by simp only [List.map]; decide)]
  simp [hproperties, Json.ValidText, Json.validItems_iff]

end SimpleCoder

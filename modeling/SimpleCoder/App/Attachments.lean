/-
# Attachments

A typed line is searched for `@path` tokens.  Text files are added to what is sent as fenced blocks,
images go with it as data URLs, and a file that cannot be read or is too large keeps the line from
being sent.
-/
import SimpleCoder.Util.Base64
import SimpleCoder.Util.Text
import SimpleCoder.Llm.Message

namespace SimpleCoder

variable {W : Type}

/-! ## 1. The tokens -/

/-- `find_paths`, from a place in the line: whether a token may begin there, and how many of the
next bytes belong to the last one. -/
def findPathsFrom : Bool → Nat → Bytes → List Bytes
  | _, _, [] => []
  | _, skip + 1, c :: rest => findPathsFrom (Text.isspace c) skip rest
  | boundary, 0, c :: rest =>
    if c = 0x40 ∧ boundary then
      let path := rest.takeWhile fun c => !Text.isspace c
      -- the search goes on behind the byte that ends the token
      (if path = [] then [] else [path]) ++ findPathsFrom false (path.length + 1) rest
    else findPathsFrom (Text.isspace c) 0 rest

/-- `find_paths`. -/
def findPaths (line : Bytes) : List Bytes := findPathsFrom true 0 line

/-- `path(p).filename()`: what follows the last slash. -/
def fileName (path : Bytes) : Bytes := (path.reverse.takeWhile (· ≠ 0x2F)).reverse

/-- `path(p).extension()`: the file name from its last dot on, unless that is its first byte or the
name is two dots. -/
def extension (path : Bytes) : Bytes :=
  let name := fileName path
  let ext := (name.reverse.takeWhile (· ≠ 0x2E)).reverse
  if ext.length + 1 < name.length ∧ name ≠ bytes ".." then 0x2E :: ext else []

/-- `lower_ext`. -/
def lowerExt (path : Bytes) : Bytes := Text.lower (extension path)

/-- `is_image_path`. -/
def isImagePath (path : Bytes) : Bool :=
  lowerExt path ∈ [bytes ".png", bytes ".jpg", bytes ".jpeg", bytes ".gif", bytes ".webp",
    bytes ".bmp"]

/-- `image_media_type`. -/
def imageMediaType (path : Bytes) : Bytes :=
  let ext := lowerExt path
  if ext = bytes ".png" then bytes "image/png"
  else if ext = bytes ".jpg" ∨ ext = bytes ".jpeg" then bytes "image/jpeg"
  else if ext = bytes ".gif" then bytes "image/gif"
  else if ext = bytes ".webp" then bytes "image/webp"
  else if ext = bytes ".bmp" then bytes "image/bmp"
  else bytes "application/octet-stream"

example : findPaths (bytes "see @a.txt and me@host, @ @b") = [bytes "a.txt", bytes "b"] := by decide

/-! ## 2. What they expand to -/

/-- `ExpandResult`. -/
structure ExpandResult where
  text : Bytes
  attached : List Bytes := []
  images : List ImagePart := []
  errors : List Bytes := []

/-- The image as it is sent. -/
def imagePart (path contents : Bytes) : ImagePart where
  name := fileName path
  mediaType := imageMediaType path
  bytes := contents.length
  dataUrl := bytes "data:" ++ imageMediaType path ++ bytes ";base64," ++ base64Encode contents

/-- The block that a text file is added as. -/
def attachedBlock (path contents : Bytes) : Bytes :=
  bytes "\n\nAttached file `" ++ path ++ bytes "`:\n```\n" ++ contents ++
    (if contents = [] ∨ contents.getLast? = some newline then [] else [newline]) ++ bytes "```"

/-- One path, and what its file was read as. -/
def ExpandResult.expand (maxImageBytes : Nat) (path : Bytes) (r : ExpandResult) :
    Option Bytes → ExpandResult
  | none => { r with errors := r.errors ++ [bytes "Cannot read file: " ++ path] }
  | some contents =>
    if isImagePath path then
      if maxImageBytes ≠ 0 ∧ maxImageBytes < contents.length then
        { r with errors := r.errors ++ [bytes "Image too large: " ++ path ++ bytes " (" ++
          decimal contents.length ++ bytes " > " ++ decimal maxImageBytes ++ bytes " bytes)"] }
      else { r with images := r.images ++ [imagePart path contents] }
    else
      { r with
        text := r.text ++ attachedBlock path contents
        attached := r.attached ++ [path] }

/-- `expand_attachments`. -/
def expandAttachments (reader : Bytes → W → Option Bytes × W) (line : Bytes) (maxImageBytes : Nat)
    (w : W) : ExpandResult × W :=
  (findPaths line).foldl
    (fun p path => (p.1.expand maxImageBytes path (reader path p.2).1, (reader path p.2).2))
    ({ text := line }, w)

end SimpleCoder

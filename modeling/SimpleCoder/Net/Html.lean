/-
# The text of a web page

`html_to_text` strips the markup of a page: tags become white space, scripts and styles go
altogether, entities are decoded and white space is collapsed.  The source walks the page by index;
here a position is the rest of the page from there on.
-/
import SimpleCoder.Json
import SimpleCoder.Lib.Lines
import SimpleCoder.Util.Text

namespace SimpleCoder

open Text (tolower)

/-! ## 1. Characters -/

/-- `std::isalnum`, in the C locale. -/
def isAlnum (c : UInt8) : Bool :=
  isDigit c || (0x41 ≤ c && c ≤ 0x5A) || (0x61 ≤ c && c ≤ 0x7A)

/-- `to_lower`. -/
def toLower (s : Bytes) : Bytes := s.map tolower

/-- `ci_starts_with`. -/
def ciStartsWith (s start : Bytes) : Bool := startsWith (toLower s) (toLower start)

/-- `find_ci`, for a needle that is not empty: the rest of the text from the first match on. -/
def findCi (needle : Bytes) : Bytes → Option Bytes
  | [] => none
  | c :: cs => if ciStartsWith (c :: cs) needle then some (c :: cs) else findCi needle cs

/-- `find` of a string in a string. -/
def containsText (needle : Bytes) : Bytes → Bool
  | [] => needle.isEmpty
  | c :: cs => startsWith (c :: cs) needle || containsText needle cs

/-! ## 2. Entities -/

/-- The named entities. -/
def namedEntities : List (Bytes × Bytes) :=
  [(bytes "amp", bytes "&"), (bytes "lt", bytes "<"), (bytes "gt", bytes ">"),
    (bytes "quot", bytes "\""), (bytes "apos", bytes "'"), (bytes "nbsp", bytes " "),
    (bytes "#39", bytes "'"), (bytes "mdash", bytes "—"), (bytes "ndash", bytes "–"),
    (bytes "hellip", bytes "…"), (bytes "copy", bytes "©"), (bytes "reg", bytes "®")]

/-- One hexadecimal digit as the source reads it, which takes any character for one. -/
def hexValue (c : UInt8) : Int :=
  if isDigit c then (c.toNat : Int) - 0x30 else ((tolower c).toNat : Int) - 0x61 + 10

/-- The code point of a numeric reference, or -1. -/
def codePoint (name : Bytes) : Int :=
  match name with
  | _ :: x :: y :: rest =>
    if x = 0x78 ∨ x = 0x58 then
      (y :: rest).foldl (fun cp c => intCast (cp * 16 + hexValue c)) 0
    else decimalPoint (x :: y :: rest)
  | _ :: digits => if digits = [] then -1 else decimalPoint digits
  | [] => -1
where
  decimalPoint (digits : Bytes) : Int :=
    if digits.all isDigit then
      digits.foldl (fun cp c => intCast (cp * 10 + ((c.toNat : Int) - 0x30))) 0
    else -1

/-- The UTF-8 encoding of a code point. -/
def encodePoint (cp : Nat) : Bytes :=
  if cp < 0x80 then [cp.toUInt8]
  else if cp < 0x800 then [(0xC0 ||| (cp >>> 6)).toUInt8, (0x80 ||| (cp &&& 0x3F)).toUInt8]
  else if cp < 0x10000 then
    [(0xE0 ||| (cp >>> 12)).toUInt8, (0x80 ||| ((cp >>> 6) &&& 0x3F)).toUInt8,
      (0x80 ||| (cp &&& 0x3F)).toUInt8]
  else
    [(0xF0 ||| (cp >>> 18)).toUInt8, (0x80 ||| ((cp >>> 12) &&& 0x3F)).toUInt8,
      (0x80 ||| ((cp >>> 6) &&& 0x3F)).toUInt8, (0x80 ||| (cp &&& 0x3F)).toUInt8]

/-- `append_entity`: what it appends. -/
def entityText (name : Bytes) : Bytes :=
  match namedEntities.lookup name with
  | some text => text
  | none =>
    let cp := if name.head? = some 0x23 then codePoint name else -1
    if 0 ≤ cp ∧ cp ≤ 0x10FFFF then encodePoint cp.toNat
    else bytes "&" ++ name ++ bytes ";"  -- unknown: kept as it is

/-- `decode_entities`.  Each round consumes a byte, so the length of the text is rounds enough. -/
def decodeEntities : Nat → Bytes → Bytes
  | 0, _ => []
  | _ + 1, [] => []
  | n + 1, c :: cs =>
    if c = 0x26 then
      match Lines.takeLine 0x3B cs with
      | some (name, rest) =>
        if name.length + 1 ≤ 10 then entityText name ++ decodeEntities n rest
        else c :: decodeEntities n cs
      | none => c :: decodeEntities n cs
    else c :: decodeEntities n cs

/-! ## 3. White space -/

/-- What `collapse_ws` carries. -/
structure Collapse where
  out : Bytes := []
  pendingSpace : Bool := false
  pendingNewlines : Nat := 0
  seenContent : Bool := false

/-- The body of `collapse_ws`. -/
def Collapse.add (s : Collapse) (c : UInt8) : Collapse :=
  if c = 0x20 ∨ c = 0x09 ∨ c = 0x0D then { s with pendingSpace := true }
  else if c = newline then
    { s with pendingSpace := false, pendingNewlines := s.pendingNewlines + 1 }
  else
    let gap :=
      if s.seenContent = false then []
      else if 0 < s.pendingNewlines then List.replicate (min s.pendingNewlines 2) newline
      else if s.pendingSpace then [0x20]
      else []
    { out := s.out ++ gap ++ [c], seenContent := true }

/-- `collapse_ws`. -/
def collapseWs (text : Bytes) : Bytes := (text.foldl Collapse.add {}).out

/-! ## 4. Markup -/

/-- The tags that `is_block_tag` knows. -/
def blockTags : List Bytes :=
  ["p", "div", "br", "li", "ul", "ol", "tr", "table", "h1", "h2", "h3", "h4", "h5", "h6", "section",
    "article", "header", "footer", "nav", "blockquote", "pre", "hr", "body", "html", "head"].map
    bytes

/-- The rest of the page behind the next `>`. -/
def pastTag (rest : Bytes) : Bytes := (rest.dropWhile (· ≠ 0x3E)).drop 1

/-- The name of the tag that starts behind a `<`. -/
def tagName (rest : Bytes) : Bytes :=
  let rest := if rest.head? = some 0x2F then rest.drop 1 else rest
  toLower (rest.takeWhile isAlnum)

/-- The loop of `html_to_text`.  Each round consumes a byte, so the length of the page is rounds
enough. -/
def stripMarkup : Nat → Bytes → Bytes
  | 0, _ => []
  | _ + 1, [] => []
  | n + 1, c :: cs =>
    if c ≠ 0x3C then
      (if c = newline ∨ c = 0x0D ∨ c = 0x09 then 0x20 else c) :: stripMarkup n cs
    else if ciStartsWith (c :: cs) (bytes "<script") then
      newline :: stripMarkup n (pastTag ((findCi (bytes "</script") cs).getD []))
    else if ciStartsWith (c :: cs) (bytes "<style") then
      newline :: stripMarkup n (pastTag ((findCi (bytes "</style") cs).getD []))
    else
      (if blockTags.contains (tagName cs) then newline else 0x20) ::
        stripMarkup n (pastTag (c :: cs))

/-- `looks_like_html`. -/
def looksLikeHtml (body : Bytes) : Bool :=
  let head := body.take 1024
  ["<!doctype", "<html", "<body", "<div", "<p>"].any fun mark => (findCi (bytes mark) head).isSome

/-- `html_to_text`. -/
def htmlToText (body contentType : Bytes) : Bytes :=
  let ct := toLower contentType
  let html :=
    if containsText (bytes "html") ct then true
    else if containsText (bytes "json") ct || containsText (bytes "text/plain") ct ||
        containsText (bytes "xml") ct then false
    else if ct = [] then looksLikeHtml body
    else false
  if html = false then body
  else
    let out := stripMarkup body.length body
    collapseWs (decodeEntities out.length out)

end SimpleCoder

/-
# The lexer of JSON texts

`scan` reads the next token of a text.  Strings are decoded as they are read, and their bytes
checked to be UTF-8; numbers go through an automaton, and are integers if they are written as such
and 64 bits hold them.

* §1 reads strings, §2 numbers; what `strtod` makes of the text of a number is a parameter.
* §3 is `scan`.
-/
import SimpleCoder.Json
import SimpleCoder.Util.Utf8

namespace SimpleCoder

namespace Lexer

/-! ## 1. Strings -/

def quote : UInt8 := 0x22

def backslash : UInt8 := 0x5C

/-- The value of a hexadecimal digit, as `get_codepoint` reads it. -/
def hexDigitValue (c : UInt8) : Option Nat :=
  if 0x30 ≤ c ∧ c ≤ 0x39 then some (c.toNat - 0x30)
  else if 0x41 ≤ c ∧ c ≤ 0x46 then some (c.toNat - 0x37)
  else if 0x61 ≤ c ∧ c ≤ 0x66 then some (c.toNat - 0x57)
  else none

/-- `get_codepoint`: four hexadecimal digits. -/
def getCodepoint : Bytes → Option (Nat × Bytes)
  | c₁ :: c₂ :: c₃ :: c₄ :: s =>
    match hexDigitValue c₁, hexDigitValue c₂, hexDigitValue c₃, hexDigitValue c₄ with
    | some d₁, some d₂, some d₃, some d₄ => some (0x1000 * d₁ + 0x100 * d₂ + 0x10 * d₃ + d₄, s)
    | _, _, _, _ => none
  | _ => none

/-- What follows `\u`: the character, and what is behind it.  A high surrogate needs a low one. -/
def scanUnicode (s : Bytes) : Option (Bytes × Bytes) :=
  match getCodepoint s with
  | none => none
  | some (cp, s) =>
    if 0xD800 ≤ cp ∧ cp ≤ 0xDBFF then
      match s with
      | 0x5C :: 0x75 :: s =>
        match getCodepoint s with
        | none => none
        | some (cp₂, s) =>
          if 0xDC00 ≤ cp₂ ∧ cp₂ ≤ 0xDFFF then
            some (Utf8.encode (0x400 * cp + cp₂ - 0x35FDC00).toUInt32, s)
          else none
      | _ => none
    else if 0xDC00 ≤ cp ∧ cp ≤ 0xDFFF then none
    else some (Utf8.encode cp.toUInt32, s)

/-- What follows a backslash. -/
def scanEscape : Bytes → Option (Bytes × Bytes)
  | [] => none
  | c :: s =>
    if c = quote ∨ c = backslash ∨ c = 0x2F then some ([c], s)
    else if c = 0x62 then some ([0x08], s)
    else if c = 0x66 then some ([0x0C], s)
    else if c = 0x6E then some ([0x0A], s)
    else if c = 0x72 then some ([0x0D], s)
    else if c = 0x74 then some ([0x09], s)
    else if c = 0x75 then scanUnicode s
    else none

/-- `next_byte_in_range`: one byte for each range. -/
def nextBytesInRange : List (UInt8 × UInt8) → Bytes → Option (Bytes × Bytes)
  | [], s => some ([], s)
  | _ :: _, [] => none
  | (lo, hi) :: ranges, c :: s =>
    if lo ≤ c ∧ c ≤ hi then (nextBytesInRange ranges s).map fun p => (c :: p.1, p.2) else none

/-- The ranges of the bytes that follow a first byte; none for control characters and for what
starts no character. -/
def byteRanges (c : UInt8) : Option (List (UInt8 × UInt8)) :=
  if 0x20 ≤ c ∧ c ≤ 0x7F then some []
  else if 0xC2 ≤ c ∧ c ≤ 0xDF then some [(0x80, 0xBF)]
  else if c = 0xE0 then some [(0xA0, 0xBF), (0x80, 0xBF)]
  else if c = 0xED then some [(0x80, 0x9F), (0x80, 0xBF)]
  else if 0xE1 ≤ c ∧ c ≤ 0xEF then some [(0x80, 0xBF), (0x80, 0xBF)]
  else if c = 0xF0 then some [(0x90, 0xBF), (0x80, 0xBF), (0x80, 0xBF)]
  else if 0xF1 ≤ c ∧ c ≤ 0xF3 then some [(0x80, 0xBF), (0x80, 0xBF), (0x80, 0xBF)]
  else if c = 0xF4 then some [(0x80, 0x8F), (0x80, 0xBF), (0x80, 0xBF)]
  else none

/-- A character of a string that starts with the byte `c`: what it adds, and what is behind it. -/
def scanChar (c : UInt8) (s : Bytes) : Option (Bytes × Bytes) :=
  if c = backslash then scanEscape s
  else
    match byteRanges c with
    | none => none
    | some ranges => (nextBytesInRange ranges s).map fun p => (c :: p.1, p.2)

/-- `scan_string`, behind the opening quote.  The count bounds the number of characters. -/
def scanString : Nat → Bytes → Option (Bytes × Bytes)
  | 0, _ => none
  | _ + 1, [] => none
  | n + 1, c :: s =>
    if c = quote then some ([], s)
    else
      match scanChar c s with
      | none => none
      | some (t, s) => (scanString n s).map fun p => (t ++ p.1, p.2)

/-! ## 2. Numbers -/

/-- The states of `scan_number`. -/
inductive NumberState where
  | minus
  | zero
  | any1
  | decimal1
  | decimal2
  | exponent
  | sign
  | any2
  deriving DecidableEq

def isExponent (c : UInt8) : Bool := c = 0x65 || c = 0x45

namespace NumberState

/-- Where a byte leads; none if the number does not go on with it. -/
def next (c : UInt8) : NumberState → Option NumberState
  | .minus => if c = 0x30 then some .zero else if isDigit c then some .any1 else none
  | .zero =>
    if c = 0x2E then some .decimal1 else if isExponent c then some .exponent else none
  | .any1 =>
    if isDigit c then some .any1
    else if c = 0x2E then some .decimal1
    else if isExponent c then some .exponent
    else none
  | .decimal1 => if isDigit c then some .decimal2 else none
  | .decimal2 =>
    if isDigit c then some .decimal2 else if isExponent c then some .exponent else none
  | .exponent =>
    if c = 0x2B ∨ c = 0x2D then some .sign else if isDigit c then some .any2 else none
  | .sign => if isDigit c then some .any2 else none
  | .any2 => if isDigit c then some .any2 else none

/-- A number may end here. -/
def done : NumberState → Bool
  | .zero | .any1 | .decimal2 | .any2 => true
  | _ => false

/-- The number has a decimal point or an exponent. -/
def isFloat : NumberState → Bool
  | .minus | .zero | .any1 => false
  | _ => true

end NumberState

/-- The automaton: the state it ends in, the bytes it has read and what is behind them. -/
def scanNumberFrom : NumberState → Bytes → Option (NumberState × Bytes × Bytes)
  | q, [] => if q.done then some (q, [], []) else none
  | q, c :: s =>
    match q.next c with
    | some q' => (scanNumberFrom q' s).map fun p => (p.1, c :: p.2.1, p.2.2)
    | none => if q.done then some (q, [], c :: s) else none

/-- The state behind the first byte of a number. -/
def startState (c : UInt8) : NumberState :=
  if c = 0x2D then .minus else if c = 0x30 then .zero else .any1

/-- The integer that the text of a number denotes. -/
def integerValue : Bytes → Int
  | [] => 0
  | c :: s =>
    let value := fun digits : Bytes => digits.foldl (fun n c => 10 * n + (c.toNat - 0x30)) 0
    if c = 0x2D then -(value s : Nat) else (value (c :: s) : Nat)

/-- What `strtoll` and `strtoull` take without an overflow: a number with a minus sign as a signed
one, and any other as unsigned. -/
def fits64 (negative : Bool) (i : Int) : Bool :=
  if negative then -2 ^ 63 ≤ i else i < 2 ^ 64

/-! ## 3. Tokens -/

/-- `token_type`, with the values of the lexer.  `valueInteger` is both `value_integer` and
`value_unsigned`. -/
inductive Token where
  | literalTrue
  | literalFalse
  | literalNull
  | valueString (s : Bytes)
  | valueInteger (i : Int)
  | valueFloat (d : Double)
  | beginArray
  | beginObject
  | endArray
  | endObject
  | nameSeparator
  | valueSeparator
  | parseError
  | endOfInput
  deriving DecidableEq

section

variable (strtod : Bytes → Double)

/-- The end of `scan_number`: integers first, and floating point for what does not fit. -/
def numberToken (q : NumberState) (text : Bytes) : Token :=
  if !q.isFloat && fits64 (text.head? = some 0x2D) (integerValue text) then
    .valueInteger (integerValue text)
  else .valueFloat (strtod text)

/-- `scan_number`. -/
def scanNumber (c : UInt8) (s : Bytes) : Token × Bytes :=
  match scanNumberFrom (startState c) s with
  | none => (.parseError, [])
  | some (q, text, rest) => (numberToken strtod q (c :: text), rest)

/-- `scan_literal`, behind the first byte. -/
def scanLiteral (text : Bytes) (token : Token) (s : Bytes) : Token × Bytes :=
  if text.isPrefixOf s then (token, s.drop text.length) else (.parseError, [])

/-- What `skip_whitespace` skips. -/
def isWhitespace (c : UInt8) : Bool := c = 0x20 || c = 0x09 || c = 0x0A || c = 0x0D

/-- The switch of `scan`, on the first byte that is no white space. -/
def scanToken (c : UInt8) (s : Bytes) : Token × Bytes :=
  if c = 0x5B then (.beginArray, s)
  else if c = 0x5D then (.endArray, s)
  else if c = 0x7B then (.beginObject, s)
  else if c = 0x7D then (.endObject, s)
  else if c = 0x3A then (.nameSeparator, s)
  else if c = 0x2C then (.valueSeparator, s)
  else if c = 0x74 then scanLiteral (bytes "rue") .literalTrue s
  else if c = 0x66 then scanLiteral (bytes "alse") .literalFalse s
  else if c = 0x6E then scanLiteral (bytes "ull") .literalNull s
  else if c = quote then
    match scanString s.length s with
    | none => (.parseError, [])
    | some (t, rest) => (.valueString t, rest)
  else if c = 0x2D ∨ isDigit c then scanNumber strtod c s
  -- a null byte ends the input, as it does in a C string
  else if c = 0 then (.endOfInput, s)
  else (.parseError, [])

/-- `scan`, behind the byte order mark: the next token, and what is behind it. -/
def scan (s : Bytes) : Token × Bytes :=
  match s.dropWhile isWhitespace with
  | [] => (.endOfInput, [])
  | c :: s => scanToken strtod c s

end

/-- `skip_bom`. -/
def skipBom : Bytes → Option Bytes
  | 0xEF :: s =>
    match s with
    | 0xBB :: 0xBF :: s => some s
    | _ => none
  | s => some s

end Lexer

end SimpleCoder

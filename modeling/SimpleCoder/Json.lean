/-
# JSON values and the accessors the program reads them with

The program reads untrusted JSON (a server's stream, the model's tool arguments) through a few
accessors of `nlohmann::json`.  They differ in what they do on a value of the wrong shape, and
that difference is what most of the error handling of the program rests on:

* `find` and `contains` answer "not there" on anything that is not an object;
* `value(key, default)` raises `type_error` 306 on anything that is not an object, and 302 when
  the key is there with a value of another type; only a missing key gives the default;
* `dump` raises 316 on a string that is not valid UTF-8.

An object is a `std::map`: its fields are kept in the order of their keys.  The parser and the
text of a floating-point number are left as parameters (`JsonText`), with the one fact about
the parser that anything here rests on.
-/
import SimpleCoder.Bytes
import SimpleCoder.Lib.Exec
import Mathlib.Data.Rat.Defs
import Mathlib.Data.Rat.Floor
import Mathlib.Data.Int.Order.Basic

namespace SimpleCoder

/-! ## 1. Values -/

/-- The exceptions that can leave the modelled code. -/
inductive Exn where
  /-- `nlohmann::json::type_error`, with its id. -/
  | typeError (id : Nat)
  /-- `std::filesystem::filesystem_error`, from advancing a directory iterator. -/
  | filesystemError
  deriving DecidableEq, Repr

/-- A `double`, finite ones by their value. -/
inductive Double where
  | finite (value : ℚ)
  | infinity (negative : Bool)
  | nan
  deriving DecidableEq

/-- `static_cast<int>` of a 64-bit integer: the low 32 bits, as a signed number. -/
def intCast (i : Int) : Int := i.bmod (2 ^ 32)

/-- `static_cast<int>` of a `double`: toward zero.  Out of range the language leaves it open; this
is what the x86-64 conversion gives. -/
def Double.toInt : Double → Int
  | .finite q =>
    let i := if 0 ≤ q then ⌊q⌋ else ⌈q⌉
    if -2 ^ 31 ≤ i ∧ i < 2 ^ 31 then i else -2 ^ 31
  | _ => -2 ^ 31

/-- A `nlohmann::json` value.  `integer` is both `number_integer` and `number_unsigned`. -/
inductive Json where
  | null
  | boolean (b : Bool)
  | integer (i : Int)
  | float (d : Double)
  | string (s : Bytes)
  | array (items : List Json)
  | object (fields : List (Bytes × Json))

namespace Json

/-- `is_object()`. -/
def isObject : Json → Bool
  | .object _ => true
  | _ => false

/-- `find(key)`, with `none` for `end()`. -/
def find (j : Json) (key : Bytes) : Option Json :=
  match j with
  | .object fields => fields.lookup key
  | _ => none

/-- `contains(key)`. -/
def contains (j : Json) (key : Bytes) : Bool := (j.find key).isSome

/-- `get<std::string>()`. -/
def getString : Json → Except Exn Bytes
  | .string s => .ok s
  | _ => .error (.typeError 302)

/-- `get<std::string>()` of a value that may be no string. -/
def string? : Json → Option Bytes
  | .string s => some s
  | _ => none

/-- `get<int>()`.  A boolean converts. -/
def getInt : Json → Except Exn Int
  | .integer i => .ok (intCast i)
  | .float d => .ok d.toInt
  | .boolean b => .ok (if b then 1 else 0)
  | _ => .error (.typeError 302)

/-- `value(key, default)`, at the type `get` converts to. -/
def value {α : Type} (get : Json → Except Exn α) (j : Json) (key : Bytes) (default : α) :
    Except Exn α :=
  if j.isObject then
    match j.find key with
    | some v => get v
    | none => .ok default
  else .error (.typeError 306)

/-- `value(key, default)` with a string default. -/
def valueString (j : Json) (key default : Bytes) : Except Exn Bytes := j.value getString key default

/-- `value(key, default)` with an `int` default. -/
def valueInt (j : Json) (key : Bytes) (default : Int) : Except Exn Int := j.value getInt key default

/-- `get<bool>()`. -/
def getBool : Json → Except Exn Bool
  | .boolean b => .ok b
  | _ => .error (.typeError 302)

/-- `is_number()`. -/
def isNumber : Json → Bool
  | .integer _ | .float _ => true
  | _ => false

/-- `get<long long>()` of a number: an integer as 64 bits hold it, and the conversion of a `double`
as on x86-64. -/
def toLongLong : Json → Int
  | .integer i => i.bmod (2 ^ 64)
  | .float (.finite q) =>
    let i := if 0 ≤ q then ⌊q⌋ else ⌈q⌉
    if -2 ^ 63 ≤ i ∧ i < 2 ^ 63 then i else -2 ^ 63
  | _ => -2 ^ 63

/-- `j[key]` for reading: a missing key of an object, or any key of null, gives null. -/
def index (j : Json) (key : Bytes) : Except Exn Json :=
  match j with
  | .object _ => .ok ((j.find key).getD .null)
  | .null => .ok .null
  | _ => .error (.typeError 305)

/-! ## 2. When `value` raises -/

/-- The value converts to a string. -/
def IsString (v : Json) : Prop := ∃ s, v = .string s

/-- The value converts to an `int`: it is a number or a boolean. -/
def IsInt (v : Json) : Prop :=
  (∃ i, v = .integer i) ∨ (∃ d, v = .float d) ∨ ∃ b, v = .boolean b

/-- The value is an object in which the key is missing or holds a value that satisfies `P`. -/
def Field (P : Json → Prop) (j : Json) (key : Bytes) : Prop :=
  j.isObject = true ∧ ∀ v, j.find key = some v → P v

theorem getString_ok_iff {v : Json} : (∃ s, v.getString = .ok s) ↔ v.IsString := by
  cases v <;> simp [getString, IsString]

theorem getInt_ok_iff {v : Json} : (∃ i, v.getInt = .ok i) ↔ v.IsInt := by
  cases v <;> simp [getInt, IsInt]

/-- **`value` returns exactly on an object whose field is absent or converts.** -/
theorem value_ok_iff {α : Type} {get : Json → Except Exn α} {P : Json → Prop}
    (hget : ∀ v, (∃ a, get v = .ok a) ↔ P v) {j : Json} {key : Bytes} {default : α} :
    (∃ a, j.value get key default = .ok a) ↔ Field P j key := by
  unfold value Field
  cases hj : j.isObject with
  | false => simp
  | true =>
    cases hf : j.find key with
    | none => simp
    | some v => simpa using hget v

theorem valueString_ok_iff {j : Json} {key : Bytes} (default : Bytes) :
    (∃ s, j.valueString key default = .ok s) ↔ Field IsString j key :=
  value_ok_iff fun _ => getString_ok_iff

theorem valueInt_ok_iff {j : Json} {key : Bytes} (default : Int) :
    (∃ i, j.valueInt key default = .ok i) ↔ Field IsInt j key :=
  value_ok_iff fun _ => getInt_ok_iff

/-- A present key gives the value found there. -/
theorem value_of_find {α : Type} {get : Json → Except Exn α} {j v : Json} {key : Bytes}
    {default : α} (hv : j.find key = some v) : j.value get key default = get v := by
  have hj : j.isObject = true := by
    cases j <;> simp_all [find, isObject]
  simp [value, hj, hv]

/-! ## 3. Building objects -/

/-- `m[key] = value` on the fields of an object: kept in key order, an old value replaced. -/
def insertField (key : Bytes) (v : Json) : List (Bytes × Json) → List (Bytes × Json)
  | [] => [(key, v)]
  | (k, w) :: rest =>
    match compare key k with
    | .lt => (key, v) :: (k, w) :: rest
    | .eq => (key, v) :: rest
    | .gt => (k, w) :: insertField key v rest

/-- The object with the given fields, assigned in order. -/
def ofFields (fields : List (Bytes × Json)) : Json :=
  .object (fields.foldl (fun m p => insertField p.1 p.2 m) [])

/-- `j[key] = value` on an object. -/
def set (j : Json) (key : Bytes) (v : Json) : Json :=
  match j with
  | .object fields => .object (insertField key v fields)
  | _ => j

theorem lookup_cons_ite (k key : Bytes) (v : Json) (fields : List (Bytes × Json)) :
    List.lookup k ((key, v) :: fields) = if k = key then some v else fields.lookup k := by
  rw [List.lookup_cons]
  by_cases h : k = key
  · simp [h]
  · simp [h, beq_false_of_ne h]

theorem lookup_insertField (key k : Bytes) (v : Json) (fields : List (Bytes × Json)) :
    (insertField key v fields).lookup k = if k = key then some v else fields.lookup k := by
  induction fields with
  | nil => simp [insertField, lookup_cons_ite]
  | cons p rest ih =>
    obtain ⟨k', w⟩ := p
    unfold insertField
    split
    · rw [lookup_cons_ite]
    · rename_i hc
      have hk : key = k' := Std.LawfulEqOrd.eq_of_compare hc
      subst hk
      by_cases h : k = key <;> simp [lookup_cons_ite, h]
    · rename_i hc
      have hne : ¬ key = k' := by
        rintro rfl
        simp at hc
      by_cases h : k = key
      · subst h
        simp [lookup_cons_ite, hne, ih]
      · simp [lookup_cons_ite, ih, h]

/-- Assigning to an object built from a list of fields is one more field. -/
@[simp] theorem set_ofFields (fields : List (Bytes × Json)) (key : Bytes) (v : Json) :
    (ofFields fields).set key v = ofFields (fields ++ [(key, v)]) := by
  simp [ofFields, set]

/-- Looking a key up in an object built from a list of fields: the last assignment wins. -/
theorem find_ofFields (fields : List (Bytes × Json)) (k : Bytes) :
    (ofFields fields).find k = fields.reverse.lookup k := by
  have h : ∀ (l : List (Bytes × Json)) (m : List (Bytes × Json)),
      (l.foldl (fun m p => insertField p.1 p.2 m) m).lookup k =
        (l.reverse.lookup k).or (m.lookup k) := by
    intro l
    induction l with
    | nil => simp
    | cons p l ih =>
      obtain ⟨key, v⟩ := p
      intro m
      rw [List.foldl_cons, ih, lookup_insertField, List.reverse_cons, List.lookup_append,
        Option.or_assoc]
      congr 1
      by_cases hk : k = key <;> simp [lookup_cons_ite, hk]
  simpa [ofFields, find] using h fields []

/-! ## 4. Valid text -/

mutual

/-- Every string and every key in the value is valid UTF-8. -/
def ValidText : Json → Prop
  | .string s => Utf8 s
  | .array items => ValidItems items
  | .object fields => ValidFields fields
  | _ => True

def ValidItems : List Json → Prop
  | [] => True
  | j :: items => ValidText j ∧ ValidItems items

def ValidFields : List (Bytes × Json) → Prop
  | [] => True
  | (k, j) :: fields => Utf8 k ∧ ValidText j ∧ ValidFields fields

end

theorem validItems_iff {items : List Json} : ValidItems items ↔ ∀ j ∈ items, j.ValidText := by
  induction items with
  | nil => simp [ValidItems]
  | cons j items ih => simp [ValidItems, ih]

theorem validFields_iff {fields : List (Bytes × Json)} :
    ValidFields fields ↔ ∀ p ∈ fields, Utf8 p.1 ∧ p.2.ValidText := by
  induction fields with
  | nil => simp [ValidFields]
  | cons p fields ih =>
    obtain ⟨k, j⟩ := p
    simp [ValidFields, ih, and_assoc]

/-- A field of a valid object is valid. -/
theorem ValidText.find {j v : Json} {key : Bytes} (h : j.ValidText) (hv : j.find key = some v) :
    v.ValidText := by
  cases j with
  | object fields =>
    have hmem : (key, v) ∈ fields := by
      obtain ⟨l₁, l₂, rfl, -⟩ := List.lookup_eq_some_iff.mp hv
      simp
    exact (validFields_iff.mp h _ hmem).2
  | _ => simp [Json.find] at hv

/-- Assigning to a new key adds the validity of the key and the value, and nothing else. -/
theorem validFields_insertField_iff {key : Bytes} {v : Json} {fields : List (Bytes × Json)}
    (hnew : fields.lookup key = none) :
    ValidFields (insertField key v fields) ↔
      Utf8 key ∧ v.ValidText ∧ ValidFields fields := by
  induction fields with
  | nil => simp [insertField, ValidFields]
  | cons p rest ih =>
    obtain ⟨k, w⟩ := p
    rw [lookup_cons_ite] at hnew
    have hk : ¬ key = k := by
      rintro rfl
      simp at hnew
    rw [if_neg hk] at hnew
    unfold insertField
    split
    · simp [ValidFields]
    · rename_i hc
      exact absurd (Std.LawfulEqOrd.eq_of_compare hc) hk
    · simp only [ValidFields, ih hnew]
      tauto

/-- An object built from fields with different keys is valid when its fields are. -/
theorem validText_ofFields_iff {fields : List (Bytes × Json)}
    (hkeys : (fields.map Prod.fst).Nodup) :
    (ofFields fields).ValidText ↔ ∀ p ∈ fields, Utf8 p.1 ∧ p.2.ValidText := by
  have h : ∀ (l m : List (Bytes × Json)), (l.map Prod.fst).Nodup →
      (∀ p ∈ l, m.lookup p.1 = none) →
      (ValidFields (l.foldl (fun m p => insertField p.1 p.2 m) m) ↔
        (∀ p ∈ l, Utf8 p.1 ∧ p.2.ValidText) ∧ ValidFields m) := by
    intro l
    induction l with
    | nil => simp
    | cons p l ih =>
      obtain ⟨k, v⟩ := p
      intro m hl hm
      obtain ⟨hk, hl⟩ := List.nodup_cons.mp hl
      have hne : ∀ p ∈ l, p.1 ≠ k := fun p hp he =>
        hk (List.mem_map.mpr ⟨p, hp, he⟩)
      rw [List.foldl_cons, ih _ hl]
      · rw [validFields_insertField_iff (hm (k, v) List.mem_cons_self)]
        simp only [List.forall_mem_cons]
        tauto
      · intro p hp
        rw [lookup_insertField, if_neg (hne p hp)]
        exact hm p (List.mem_cons_of_mem _ hp)
  simpa [ofFields, ValidText, ValidFields] using h fields [] hkeys (by simp)

end Json

/-! ## 5. Text -/

/-- The parts of `nlohmann::json` that turn text into values and back and are not modelled: the
parser called with `allow_exceptions = false` (`none` for a discarded value), and the shortest
decimal text of a floating-point number.  The parser checks the encoding of every string it
reads, so what it returns can be written out again. -/
structure JsonText where
  parse : Bytes → Option Json
  dumpFloat : Double → Bytes
  parse_validText : ∀ {t : Bytes} {j : Json}, parse t = some j → j.ValidText

/-- A parser that knows the given texts only. -/
def JsonText.ofTable (table : List (Bytes × Json)) (h : ∀ p ∈ table, p.2.ValidText) : JsonText where
  parse t := table.lookup t
  dumpFloat _ := bytes "0.0"
  parse_validText {t j} hj := by
    obtain ⟨l₁, l₂, rfl, -⟩ := List.lookup_eq_some_iff.mp hj
    exact h (t, j) (by simp)

/-- A parser that knows no text. -/
def JsonText.empty : JsonText := .ofTable [] (by simp)

namespace Json

def hexDigit (n : Nat) : UInt8 := if n < 10 then 0x30 + n.toUInt8 else 0x57 + n.toUInt8

/-- How `dump_escaped` writes one byte: the short escapes, `\u00XX` for the other control
characters, everything else as it is. -/
def escapeByte (b : UInt8) : Bytes :=
  if b = 0x08 then bytes "\\b"
  else if b = 0x09 then bytes "\\t"
  else if b = 0x0A then bytes "\\n"
  else if b = 0x0C then bytes "\\f"
  else if b = 0x0D then bytes "\\r"
  else if b = 0x22 then bytes "\\\""
  else if b = 0x5C then bytes "\\\\"
  else if b ≤ 0x1F then bytes "\\u00" ++ [hexDigit (b.toNat / 16), hexDigit (b.toNat % 16)]
  else [b]

/-- `dump_escaped` with the strict error handler. -/
def dumpEscaped (s : Bytes) : Except Exn Bytes :=
  if Utf8 s then .ok (s.flatMap escapeByte) else .error (.typeError 316)

def quoted (s : Bytes) : Bytes := bytes "\"" ++ s ++ bytes "\""

mutual

/-- `dump()`: compact text. -/
def dump (lib : JsonText) : Json → Except Exn Bytes
  | .null => .ok (bytes "null")
  | .boolean b => .ok (if b then bytes "true" else bytes "false")
  | .integer i => .ok (decimal i)
  | .float d => .ok (lib.dumpFloat d)
  | .string s => do return quoted (← dumpEscaped s)
  | .array items => do
    return bytes "[" ++ (bytes ",").intercalate (← dumpItems lib items) ++ bytes "]"
  | .object fields => do
    return bytes "\x7b" ++ (bytes ",").intercalate (← dumpFields lib fields) ++ bytes "\x7d"

def dumpItems (lib : JsonText) : List Json → Except Exn (List Bytes)
  | [] => .ok []
  | j :: items => do return (← dump lib j) :: (← dumpItems lib items)

def dumpFields (lib : JsonText) : List (Bytes × Json) → Except Exn (List Bytes)
  | [] => .ok []
  | (k, j) :: fields => do
    let key ← dumpEscaped k
    let text ← dump lib j
    return (quoted key ++ bytes ":" ++ text) :: (← dumpFields lib fields)

end

theorem dumpEscaped_ok_iff {s : Bytes} : (∃ t, dumpEscaped s = .ok t) ↔ Utf8 s := by
  unfold dumpEscaped
  split <;> simp_all

/-- A sequence of two steps that may raise succeeds when both do. -/
theorem except_bind_ok_iff {α β : Type} {x : Except Exn α} {f : α → Except Exn β} :
    (∃ b, x >>= f = .ok b) ↔ ∃ a, x = .ok a ∧ ∃ b, f a = .ok b := by
  cases x with
  | ok a => simp [bind, Except.bind]
  | error e => simp [bind, Except.bind]

/-- What a sequence of two steps that may raise returns, the second returns on what the first
does. -/
theorem except_bind_eq_ok_iff {α β : Type} {x : Except Exn α} {f : α → Except Exn β} {b : β} :
    x >>= f = .ok b ↔ ∃ a, x = .ok a ∧ f a = .ok b := by
  cases x with
  | ok a => simp [bind, Except.bind]
  | error e => simp [bind, Except.bind]

/-- A mapping that may raise gives the list of its results when each of them is known. -/
theorem except_mapM_eq_ok {α β : Type} {f : α → Except Exn β} {g : α → β} {l : List α}
    (h : ∀ a ∈ l, f a = .ok (g a)) : l.mapM f = .ok (l.map g) := by
  induction l with
  | nil => rfl
  | cons a l ih =>
    obtain ⟨ha, hl⟩ := List.forall_mem_cons.mp h
    rw [List.mapM_cons, ha, ih hl]
    rfl

/-- A step that may raise, mapped over a list, succeeds when it does on every element. -/
theorem except_mapM_ok_iff {α β : Type} {f : α → Except Exn β} {l : List α} :
    (∃ l', l.mapM f = .ok l') ↔ ∀ a ∈ l, ∃ b, f a = .ok b := by
  induction l with
  | nil => simp [pure, Except.pure]
  | cons a l ih =>
    rw [List.mapM_cons, except_bind_ok_iff, List.forall_mem_cons, ← ih]
    simp only [except_bind_ok_iff]
    simp [pure, Except.pure]

mutual

/-- **`dump` raises exactly on a value with a string that is not valid UTF-8.** -/
theorem dump_ok_iff (lib : JsonText) :
    ∀ j : Json, (∃ t, dump lib j = .ok t) ↔ j.ValidText
  | .null => by simp [dump, ValidText]
  | .boolean b => by simp [dump, ValidText]
  | .integer i => by simp [dump, ValidText]
  | .float d => by simp [dump, ValidText]
  | .string s => by
    rw [dump, except_bind_ok_iff, ValidText, ← dumpEscaped_ok_iff]
    simp [pure, Except.pure]
  | .array items => by
    rw [dump, except_bind_ok_iff, ValidText, ← dumpItems_ok_iff lib items]
    simp [pure, Except.pure]
  | .object fields => by
    rw [dump, except_bind_ok_iff, ValidText, ← dumpFields_ok_iff lib fields]
    simp [pure, Except.pure]

theorem dumpItems_ok_iff (lib : JsonText) :
    ∀ items : List Json, (∃ t, dumpItems lib items = .ok t) ↔ ValidItems items
  | [] => by simp [dumpItems, ValidItems]
  | j :: items => by
    rw [dumpItems, except_bind_ok_iff, ValidItems, ← dump_ok_iff lib j,
      ← dumpItems_ok_iff lib items]
    simp only [except_bind_ok_iff]
    simp [pure, Except.pure]

theorem dumpFields_ok_iff (lib : JsonText) :
    ∀ fields : List (Bytes × Json), (∃ t, dumpFields lib fields = .ok t) ↔ ValidFields fields
  | [] => by simp [dumpFields, ValidFields]
  | (k, j) :: fields => by
    rw [dumpFields, except_bind_ok_iff, ValidFields, ← dumpEscaped_ok_iff, ← dump_ok_iff lib j,
      ← dumpFields_ok_iff lib fields]
    simp only [except_bind_ok_iff]
    simp [pure, Except.pure]

end

/-! ## 6. Equality -/

mutual

/-- `operator==`.  An integer is compared with a floating-point number by value; the source converts
it to a `double` first, which is exact up to 2^53. -/
def eq : Json → Json → Bool
  | .null, .null => true
  | .boolean a, .boolean b => a == b
  | .integer a, .integer b => a == b
  | .integer a, .float (.finite q) => decide ((a : ℚ) = q)
  | .float (.finite p), .integer b => decide (p = b)
  | .float (.finite p), .float (.finite q) => decide (p = q)
  | .float (.infinity a), .float (.infinity b) => a == b
  | .string a, .string b => a == b
  | .array a, .array b => eqItems a b
  | .object a, .object b => eqFields a b
  | _, _ => false

def eqItems : List Json → List Json → Bool
  | [], [] => true
  | j :: items, j' :: items' => eq j j' && eqItems items items'
  | _, _ => false

def eqFields : List (Bytes × Json) → List (Bytes × Json) → Bool
  | [], [] => true
  | (k, j) :: fields, (k', j') :: fields' => k == k' && eq j j' && eqFields fields fields'
  | _, _ => false

end

/-- What an integer is equal to: itself, as one kind of number or the other. -/
theorem eq_integer_iff {j : Json} {i : Int} :
    j.eq (.integer i) = true ↔ j = .integer i ∨ j = .float (.finite i) := by
  cases j with
  | integer a => simp [eq]
  | float d => cases d <;> simp [eq]
  | _ => simp [eq]

end Json

end SimpleCoder

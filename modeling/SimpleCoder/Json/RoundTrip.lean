/-
# What is dumped is parsed back

`dump` writes a value as compact text and `parse` reads it.  The text of floating-point numbers is
the library's own affair (`FloatText`); everything else is exact, so a value with no floating-point
numbers but such as the parser reads comes back as it was.

* §1: decimal text is read as the number it is of, whatever follows (`scanNumber_decimal`).
* §2 has the assumptions on floating-point text, and the library with this parser.
* §3: the parser behind a dumped value (`reaches_dump`), by the structure of the value.
* §4: the round trips (`parse_dump`, `parse_dump_of_parse`).
* §5: dumped text has no control character (`dump_printable`), so that a value can be sent as a
  line.
-/
import SimpleCoder.Json.Parser

namespace SimpleCoder

namespace Lexer

/-! ## 1. Numbers -/

/-- What is behind a number: its first byte does not go on with it. -/
def Stops (s : Bytes) : Prop := ∀ c ∈ s.head?, ∀ q : NumberState, q.next c = none

theorem stops_nil : Stops [] := nofun

theorem stops_cons {c : UInt8} (h : c = 0x2C ∨ c = 0x5D ∨ c = 0x7D) (s : Bytes) :
    Stops (c :: s) := by
  intro b hb q
  cases Option.some.inj hb
  rcases h with rfl | rfl | rfl <;> cases q <;> rfl

/-- **A number is read as far as it goes.** -/
theorem scanNumberFrom_append {q q' : NumberState} {s rest : Bytes}
    (h : scanNumberFrom q s = some (q', s, [])) (hrest : Stops rest) :
    scanNumberFrom q (s ++ rest) = some (q', s, rest) := by
  induction s generalizing q with
  | nil =>
    unfold scanNumberFrom at h
    split at h
    · rename_i hdone
      cases h
      cases rest with
      | nil => exact if_pos hdone
      | cons c rest =>
        rw [List.nil_append, scanNumberFrom, hrest c rfl q']
        exact if_pos hdone
    · cases h
  | cons c s ih =>
    unfold scanNumberFrom at h
    rw [List.cons_append, scanNumberFrom]
    split at h
    · rename_i q₁ hnext
      obtain ⟨⟨q₂, t, rest'⟩, hscan, heq⟩ := Option.map_eq_some_iff.mp h
      obtain ⟨rfl, ht, rfl⟩ : q₂ = q' ∧ c :: t = c :: s ∧ rest' = [] := by
        simpa only [Prod.mk.injEq] using heq
      cases ht
      rw [ih hscan]
      rfl
    · split at h
      · cases h
      · cases h

/-- Digits behind digits. -/
theorem scanNumberFrom_digits {s : Bytes} (h : ∀ c ∈ s, isDigit c = true) :
    scanNumberFrom .any1 s = some (.any1, s, []) := by
  induction s with
  | nil => rfl
  | cons c s ih =>
    obtain ⟨hc, hs⟩ := List.forall_mem_cons.mp h
    have hnext : NumberState.any1.next c = some .any1 := if_pos hc
    rw [scanNumberFrom, hnext]
    dsimp only
    rw [ih hs]
    rfl

/-- The number that digits denote, behind others. -/
def digitsValue (n : Nat) (digits : Bytes) : Nat :=
  digits.foldl (fun n c => 10 * n + (c.toNat - 0x30)) n

theorem decimal_digit : ∀ n < 10, ∃ c, decimal (n : Nat) = [c] ∧ isDigit c = true ∧
    c.toNat - 0x30 = n ∧ (c = 0x30 ↔ n = 0) := by
  have h : ∀ n < 10, decimal (n : Nat) = [0x30 + n.toUInt8] ∧ isDigit (0x30 + n.toUInt8) = true ∧
      (0x30 + n.toUInt8).toNat - 0x30 = n ∧ (0x30 + n.toUInt8 = 0x30 ↔ n = 0) := by
    decide +kernel
  exact fun n hn => ⟨_, h n hn⟩

/-- The text of a number: digits that denote it, and no leading zero. -/
theorem decimal_nat (n : Nat) : ∃ c s, decimal n = c :: s ∧ (∀ b ∈ c :: s, isDigit b = true) ∧
    digitsValue 0 (c :: s) = n ∧ (c = 0x30 ↔ n = 0) ∧ (n = 0 → s = []) := by
  induction n using Nat.strong_induction_on with
  | _ n ih =>
    rcases Nat.lt_or_ge n 10 with hlt | hge
    · obtain ⟨c, heq, hdigit, hvalue, hzero⟩ := decimal_digit n hlt
      refine ⟨c, [], heq, fun b hb => List.mem_singleton.mp hb ▸ hdigit, ?_, hzero, fun _ => rfl⟩
      simpa [digitsValue] using hvalue
    · obtain ⟨c, s, heq, hdigits, hvalue, hzero, -⟩ := ih (n / 10) (by omega)
      obtain ⟨c', heq', hdigit', hvalue', -⟩ := decimal_digit (n % 10) (by omega)
      refine ⟨c, s ++ [c'], by rw [decimal_of_ge hge, heq, heq']; rfl, fun b hb => ?_, ?_, ?_, ?_⟩
      · rw [← List.cons_append, List.mem_append, List.mem_singleton] at hb
        rcases hb with hb | rfl
        · exact hdigits b hb
        · exact hdigit'
      · rw [← List.cons_append, digitsValue, List.foldl_append]
        have hlast : 10 * digitsValue 0 (c :: s) + (c'.toNat - 0x30) = n := by omega
        exact hlast
      · rw [hzero]
        omega
      · intro hn
        omega

/-- The text of a number from the state behind its first digit. -/
theorem scanNumberFrom_decimal {n : Nat} {c : UInt8} {s : Bytes} (heq : decimal n = c :: s) :
    ∃ q : NumberState, (q = if c = 0x30 then .zero else .any1) ∧ q.isFloat = false ∧
      scanNumberFrom q s = some (q, s, []) := by
  obtain ⟨c', s', heq', hdigits, -, hzero, hnil⟩ := decimal_nat n
  obtain ⟨rfl, rfl⟩ := List.cons.inj (heq.symm.trans heq')
  by_cases hc : c = 0x30
  · refine ⟨.zero, by rw [if_pos hc], rfl, ?_⟩
    rw [hnil (hzero.mp hc)]
    rfl
  · refine ⟨.any1, by rw [if_neg hc], rfl, ?_⟩
    exact scanNumberFrom_digits fun b hb => hdigits b (List.mem_cons_of_mem _ hb)

theorem startState_digit {c : UInt8} (h : isDigit c = true) :
    startState c = if c = 0x30 then .zero else .any1 := if_neg (by rintro rfl; cases h)

/-- The text of an integer: its first byte, and the state that the automaton ends in. -/
theorem decimal_scan (i : Int) : ∃ c s q, decimal i = c :: s ∧ (c = 0x2D ∨ isDigit c = true) ∧
    scanNumberFrom (startState c) s = some (q, s, []) ∧ q.isFloat = false ∧
    integerValue (c :: s) = i ∧ (c = 0x2D ↔ i < 0) := by
  cases i with
  | ofNat n =>
    obtain ⟨c, s, heq, hdigits, hvalue, -⟩ := decimal_nat n
    obtain ⟨q, hq, hfloat, hscan⟩ := scanNumberFrom_decimal heq
    have hc : isDigit c = true := hdigits c List.mem_cons_self
    have hne : ¬ c = 0x2D := by
      rintro rfl
      cases hc
    refine ⟨c, s, q, heq, .inr hc, by rw [startState_digit hc, ← hq, hscan], hfloat, ?_, ?_⟩
    · rw [integerValue]
      dsimp only
      rw [if_neg hne]
      exact congrArg Int.ofNat hvalue
    · exact iff_of_false hne (by simp)
  | negSucc n =>
    obtain ⟨c, s, heq, hdigits, hvalue, hzero, -⟩ := decimal_nat (n + 1)
    obtain ⟨q, hq, hfloat, hscan⟩ := scanNumberFrom_decimal heq
    have hc : isDigit c = true := hdigits c List.mem_cons_self
    have htext : decimal (Int.negSucc n) = 0x2D :: c :: s := by
      rw [← heq]
      change bytes ("-" ++ (n + 1).repr) = 0x2D :: bytes (n + 1).repr
      rw [bytes_append]
      rfl
    have hnext : NumberState.minus.next c = some q := by
      have hne : ¬ c = 0x30 := by
        rw [hzero]
        omega
      rw [if_neg hne] at hq
      subst hq
      rw [NumberState.next, if_neg hne, if_pos hc]
    -- the minus comes first, and the digits behind it are those of the number negated
    refine ⟨0x2D, c :: s, q, htext, .inl rfl, ?_, hfloat, ?_, ?_⟩
    · change scanNumberFrom .minus (c :: s) = _
      rw [scanNumberFrom, hnext]
      dsimp only
      rw [hscan]
      rfl
    · change -((digitsValue 0 (c :: s) : Nat) : Int) = Int.negSucc n
      rw [hvalue]
      rfl
    · exact iff_of_true rfl (Int.negSucc_lt_zero n)

/-! ## 2. Floating-point text -/

end Lexer

open Lexer (NumberState scan scanNumberFrom startState skipBom Stops)

/-- The parts of the library that turn floating-point numbers into text and back: `strtod`, and
`to_chars` for finite numbers.  Such a text is a number with a decimal point or an exponent, it is
read as some number, and as the same if the number itself was read. -/
structure FloatText where
  strtod : Bytes → Double
  toChars : ℚ → Bytes
  scanned : ∀ q, ∃ c s state, toChars q = c :: s ∧ (c = 0x2D ∨ isDigit c = true) ∧
    scanNumberFrom (startState c) s = some (state, s, []) ∧ state.isFloat = true
  finite : ∀ q, ∃ r, strtod (toChars q) = .finite r
  exact : ∀ t q, strtod t = .finite q → strtod (toChars q) = .finite q

namespace FloatText

variable (floats : FloatText)

/-- `dump_float`. -/
def dumpFloat : Double → Bytes
  | .finite q => floats.toChars q
  | _ => bytes "null"

/-- The library. -/
def jsonText : JsonText where
  parse := Parser.parse floats.strtod
  dumpFloat := floats.dumpFloat
  parse_validText h := (Parser.parse_stored h).validText

mutual

/-- What a value is read back as: a floating-point number as its text is read, and one that is not
finite as null. -/
def written : Json → Json
  | .float (.finite q) => .float (floats.strtod (floats.toChars q))
  | .float _ => .null
  | .array items => .array (writtenItems items)
  | .object fields => .object (writtenFields fields)
  | j => j

def writtenItems : List Json → List Json
  | [] => []
  | j :: items => written j :: writtenItems items

def writtenFields : List (Bytes × Json) → List (Bytes × Json)
  | [] => []
  | (k, j) :: fields => (k, written j) :: writtenFields fields

end

mutual

/-- Floating-point numbers that were read are read back as they are. -/
theorem written_of_read :
    ∀ {j : Json}, j.Stored (Parser.ReadDouble floats.strtod) → floats.written j = j
  | .float _, ⟨text, q, hq, rfl⟩ => congrArg Json.float (floats.exact text q hq)
  | .array _, h => congrArg Json.array (writtenItems_of_read h)
  | .object _, h => congrArg Json.object (writtenFields_of_read h)
  | .null, _ | .boolean _, _ | .integer _, _ | .string _, _ => by simp only [written]

theorem writtenItems_of_read : ∀ {items : List Json},
    Json.StoredItems (Parser.ReadDouble floats.strtod) items → floats.writtenItems items = items
  | [], _ => rfl
  | _ :: _, h => congrArg₂ List.cons (written_of_read h.1) (writtenItems_of_read h.2)

theorem writtenFields_of_read : ∀ {fields : List (Bytes × Json)},
    Json.StoredFields (Parser.ReadDouble floats.strtod) fields →
      floats.writtenFields fields = fields
  | [], _ => rfl
  | (k, _) :: _, h => congrArg₂ List.cons (congrArg (Prod.mk k) (written_of_read h.2.1))
      (writtenFields_of_read h.2.2.2)

end

end FloatText

/-! ## 3. The parser behind a dumped value -/

namespace Lexer

variable {strtod : Bytes → Double}

theorem scan_cons {c : UInt8} (h : isWhitespace c = false) (s : Bytes) :
    scan strtod (c :: s) = scanToken strtod c s := by
  unfold scan
  rw [List.dropWhile_cons_of_neg (by rw [h]; exact Bool.false_ne_true)]

/-- A number whose text is followed by something else. -/
theorem scan_number {c : UInt8} {s rest : Bytes} {q : NumberState}
    (hc : c = 0x2D ∨ isDigit c = true)
    (hscan : scanNumberFrom (startState c) s = some (q, s, [])) (hrest : Stops rest) :
    scan strtod (c :: s ++ rest) = (numberToken strtod q (c :: s), rest) := by
  have hne : ∀ b : UInt8, ¬ (b = 0x2D ∨ isDigit b = true) → ¬ c = b := by
    rintro b hb rfl
    exact hb hc
  have hspace : isWhitespace c = false := by
    unfold isWhitespace
    simp only [hne 0x20 (by decide), hne 0x09 (by decide), hne 0x0A (by decide),
      hne 0x0D (by decide), decide_false, Bool.or_self]
  rw [List.cons_append, scan_cons hspace, scanToken, if_neg (hne _ (by decide)),
    if_neg (hne _ (by decide)), if_neg (hne _ (by decide)), if_neg (hne _ (by decide)),
    if_neg (hne _ (by decide)), if_neg (hne _ (by decide)), if_neg (hne _ (by decide)),
    if_neg (hne _ (by decide)), if_neg (hne _ (by decide)), if_neg (hne _ (by decide)),
    if_pos hc, scanNumber, scanNumberFrom_append hscan hrest]

theorem scan_decimal {i : Int} (hi : -2 ^ 63 ≤ i ∧ i < 2 ^ 64) {rest : Bytes}
    (hrest : Stops rest) : scan strtod (decimal i ++ rest) = (.valueInteger i, rest) := by
  obtain ⟨c, s, q, heq, hc, hscan, hfloat, hvalue, hneg⟩ := decimal_scan i
  rw [heq, scan_number hc hscan hrest]
  unfold numberToken
  rw [hfloat, hvalue, if_pos]
  unfold fits64
  simp only [List.head?_cons, Option.some.injEq, hneg, Bool.not_false, Bool.true_and]
  split
  · exact decide_eq_true hi.1
  · exact decide_eq_true hi.2

theorem scan_toChars (floats : FloatText) (q : ℚ) {rest : Bytes} (hrest : Stops rest) :
    scan strtod (floats.toChars q ++ rest) = (.valueFloat (strtod (floats.toChars q)), rest) := by
  obtain ⟨c, s, state, heq, hc, hscan, hfloat⟩ := floats.scanned q
  rw [heq, scan_number hc hscan hrest]
  unfold numberToken
  rw [hfloat]
  rfl

/-- **A dumped string is read as it was.** -/
theorem scan_quoted {s t : Bytes} (h : Json.dumpEscaped s = .ok t) (rest : Bytes) :
    scan strtod (Json.quoted t ++ rest) = (.valueString s, rest) := by
  unfold Json.dumpEscaped at h
  split at h
  · rename_i hs
    cases h
    obtain ⟨cs, rfl⟩ := Utf8.valid_iff.mp hs
    have htext : Json.quoted ((Utf8.encodeText cs).flatMap Json.escapeByte) ++ rest =
        quote :: ((Utf8.encodeText cs).flatMap Json.escapeByte ++ quote :: rest) := by
      unfold Json.quoted
      rw [List.append_assoc, List.append_assoc]
      rfl
    have hlen := length_le_escaped cs
    rw [htext, scan_cons rfl]
    unfold scanToken
    rw [if_neg (by decide), if_neg (by decide), if_neg (by decide), if_neg (by decide),
      if_neg (by decide), if_neg (by decide), if_neg (by decide), if_neg (by decide),
      if_neg (by decide), if_pos rfl, scanString_escaped cs rest]
    rw [List.length_append, List.length_cons]
    omega
  · cases h

end Lexer

namespace Parser

open Lexer (quote scan_quoted)
open Json (dump dumpItems dumpFields dumpEscaped insertField)
open Machine (Reaches)

variable {floats : FloatText}

/-- No dumped value begins like the end of an array. -/
theorem scan_dump {j : Json} {P : Double → Prop} {t rest : Bytes} (hj : j.Stored P)
    (h : dump floats.jsonText j = .ok t) (hrest : Stops rest) :
    (scan floats.strtod (t ++ rest)).1 ≠ .endArray := by
  cases j with
  | null =>
    cases h
    exact nofun
  | boolean b =>
    cases h
    cases b <;> exact nofun
  | integer i =>
    cases h
    rw [Lexer.scan_decimal hj hrest]
    exact nofun
  | float d =>
    cases h
    cases d with
    | finite q =>
      change (scan floats.strtod (floats.toChars q ++ rest)).1 ≠ _
      rw [Lexer.scan_toChars floats q hrest]
      exact nofun
    | infinity negative => exact nofun
    | nan => exact nofun
  | string s =>
    obtain ⟨u, hu, ht⟩ := Json.except_bind_eq_ok_iff.mp h
    cases ht
    rw [Lexer.scan_quoted hu rest]
    exact nofun
  | array items =>
    obtain ⟨ts, -, ht⟩ := Json.except_bind_eq_ok_iff.mp h
    cases ht
    exact nofun
  | object fields =>
    obtain ⟨ts, -, ht⟩ := Json.except_bind_eq_ok_iff.mp h
    cases ht
    exact nofun

/-- What stands behind the first of some texts that are separated by commas. -/
def behindFirst (close : UInt8) (rest : Bytes) : List Bytes → Bytes
  | [] => close :: rest
  | t :: ts => 0x2C :: ((bytes ",").intercalate (t :: ts) ++ close :: rest)

theorem intercalate_behindFirst (close : UInt8) (t rest : Bytes) (ts : List Bytes) :
    (bytes ",").intercalate (t :: ts) ++ close :: rest = t ++ behindFirst close rest ts := by
  cases ts with
  | nil => simp [List.intercalate, behindFirst]
  | cons u ts =>
    have hcomma : bytes "," = [0x2C] := rfl
    simp [List.intercalate, behindFirst, hcomma]

theorem stops_behindFirst {close : UInt8} (h : close = 0x5D ∨ close = 0x7D) (rest : Bytes)
    (ts : List Bytes) : Stops (behindFirst close rest ts) := by
  cases ts with
  | nil => exact Lexer.stops_cons (.inr h) _
  | cons t ts => exact Lexer.stops_cons (.inl rfl) _

theorem dumpItems_cons {lib : JsonText} {j : Json} {items : List Json} {ts : List Bytes}
    (h : dumpItems lib (j :: items) = .ok ts) :
    ∃ t ts', dump lib j = .ok t ∧ dumpItems lib items = .ok ts' ∧ ts = t :: ts' := by
  obtain ⟨t, ht, h⟩ := Json.except_bind_eq_ok_iff.mp h
  obtain ⟨ts', hts', h⟩ := Json.except_bind_eq_ok_iff.mp h
  cases h
  exact ⟨t, ts', ht, hts', rfl⟩

theorem dumpFields_cons {lib : JsonText} {k : Bytes} {j : Json} {fields : List (Bytes × Json)}
    {ts : List Bytes} (h : dumpFields lib ((k, j) :: fields) = .ok ts) :
    ∃ key t ts', dumpEscaped k = .ok key ∧ dump lib j = .ok t ∧ dumpFields lib fields = .ok ts' ∧
      ts = (Json.quoted key ++ bytes ":" ++ t) :: ts' := by
  obtain ⟨key, hkey, h⟩ := Json.except_bind_eq_ok_iff.mp h
  obtain ⟨t, ht, h⟩ := Json.except_bind_eq_ok_iff.mp h
  obtain ⟨ts', hts', h⟩ := Json.except_bind_eq_ok_iff.mp h
  cases h
  exact ⟨key, t, ts', hkey, ht, hts', rfl⟩

/-- The name of a field, the colon, and the first token of its value. -/
theorem readField_quoted (floats : FloatText) {k key t : Bytes} (hkey : dumpEscaped k = .ok key)
    (fields : List (Bytes × Json)) (stack : List Frame) :
    ∃ s, scan floats.strtod (Json.quoted key ++ bytes ":" ++ t) = (.valueString k, s) ∧
      readField floats.strtod fields k stack s =
        readValue floats.strtod (.object fields k :: stack) t :=
  ⟨bytes ":" ++ t, by rw [List.append_assoc, scan_quoted hkey], rfl⟩

mutual

/-- **The parser behind a dumped value**: it has the value, and the rest is still to be read. -/
theorem reaches_dump {P : Double → Prop} (stack : List Frame) (rest : Bytes) (hrest : Stops rest) :
    ∀ (j : Json) {t : Bytes}, j.Stored P → dump floats.jsonText j = .ok t →
      Reaches (step floats.strtod) (readValue floats.strtod stack (t ++ rest))
        (.behind (floats.written j) stack rest)
  | .null, _, _, rfl => .single _
  | .boolean true, _, _, rfl => .single _
  | .boolean false, _, _, rfl => .single _
  | .integer i, _, hj, rfl => by
    unfold readValue
    rw [Lexer.scan_decimal hj hrest]
    exact .single _
  | .float (.finite q), _, _, rfl => by
    obtain ⟨r, hr⟩ := floats.finite q
    have hscan := @Lexer.scan_toChars floats.strtod floats q _ hrest
    rw [hr] at hscan
    change Reaches _ (readValue _ _ (floats.toChars q ++ rest)) _
    unfold readValue
    -- the number that is read need not be the one that was written
    rw [hscan, FloatText.written, hr]
    exact .single _
  | .float (.infinity _), _, _, rfl => .single _
  | .float .nan, _, _, rfl => .single _
  | .string s, t, _, h => by
    obtain ⟨u, hu, ht⟩ := Json.except_bind_eq_ok_iff.mp h
    cases ht
    unfold readValue
    rw [scan_quoted hu rest]
    exact .single _
  | .array [], t, _, h => by
    cases h
    exact .single _
  | .array (j :: items), t, hj, h => by
    obtain ⟨ts, hts, ht⟩ := Json.except_bind_eq_ok_iff.mp h
    cases ht
    obtain ⟨t, ts, ht, hmore, rfl⟩ := dumpItems_cons hts
    -- a comma or the bracket stands behind the first element, so its text ends there
    have hfirst := stops_behindFirst (.inl rfl) rest ts
    rw [List.append_assoc, List.append_assoc,
      show bytes "]" ++ rest = 0x5D :: rest from rfl, intercalate_behindFirst]
    -- the bracket opens a frame, and the first element is read in it
    have hopen : step floats.strtod (readValue floats.strtod stack
        (bytes "[" ++ (t ++ behindFirst 0x5D rest ts))) =
          readValue floats.strtod (.array [] :: stack) (t ++ behindFirst 0x5D rest ts) := by
      have hne := scan_dump hj.1 ht hfirst
      change (match scan floats.strtod (t ++ behindFirst 0x5D rest ts) with
        | (.endArray, s) => State.behind (.array []) stack s
        | (token, s) => .value token (.array [] :: stack) s) = _
      split
      · rename_i h
        rw [h] at hne
        exact absurd rfl hne
      · rename_i h
        unfold readValue
        rw [h]
    refine .head hopen ((reaches_dump _ _ hfirst j hj.1 ht).trans ?_)
    exact reaches_dumpItems stack rest items (floats.written j) [] hj.2 hmore
  | .object [], t, _, h => by
    cases h
    exact .single _
  | .object ((k, j) :: fields), t, hj, h => by
    obtain ⟨ts, hts, ht⟩ := Json.except_bind_eq_ok_iff.mp h
    cases ht
    obtain ⟨key, t, ts, hkey, ht, hmore, rfl⟩ := dumpFields_cons hts
    have hfirst := stops_behindFirst (.inr rfl) rest ts
    rw [List.append_assoc, List.append_assoc,
      show bytes "\x7d" ++ rest = 0x7D :: rest from rfl, intercalate_behindFirst]
    -- the brace opens a frame that waits for the value of the first key
    have hopen : step floats.strtod (readValue floats.strtod stack
        (bytes "\x7b" ++ (Json.quoted key ++ bytes ":" ++ t ++ behindFirst 0x7D rest ts))) =
          readValue floats.strtod (.object [] k :: stack) (t ++ behindFirst 0x7D rest ts) := by
      obtain ⟨s, hscan, hfield⟩ := readField_quoted floats
        (t := t ++ behindFirst 0x7D rest ts) hkey [] stack
      rw [List.append_assoc]
      change (match scan floats.strtod (Json.quoted key ++ bytes ":" ++
          (t ++ behindFirst 0x7D rest ts)) with
        | (.endObject, s) => State.behind (.object []) stack s
        | (.valueString key, s) => readField floats.strtod [] key stack s
        | _ => .wrong) = _
      rw [hscan]
      exact hfield
    refine .head hopen ((reaches_dump _ _ hfirst j hj.2.1 ht).trans ?_)
    refine reaches_dumpFields stack rest fields (floats.written j) k [] hj.2.2.2 ?_ hmore
    intro p hp
    rw [List.mem_singleton.mp hp]
    exact hj.2.2.1

/-- The elements behind the first go into the array, and the closing bracket ends it. -/
theorem reaches_dumpItems {P : Double → Prop} (stack : List Frame) (rest : Bytes) :
    ∀ (items : List Json) {ts : List Bytes} (v : Json) (before : List Json),
      Json.StoredItems P items → dumpItems floats.jsonText items = .ok ts →
      Reaches (step floats.strtod)
        (.behind v (.array before :: stack) (behindFirst 0x5D rest ts))
        (.behind (.array (before ++ v :: floats.writtenItems items)) stack rest)
  | [], ts, v, before, _, h => by
    cases h
    exact .single _
  | j :: items, ts, v, before, hj, h => by
    obtain ⟨t, ts, ht, hmore, rfl⟩ := dumpItems_cons h
    have hfirst := stops_behindFirst (.inl rfl) rest ts
    have hcomma : step floats.strtod
        (.behind v (.array before :: stack) (behindFirst 0x5D rest (t :: ts))) =
          readValue floats.strtod (.array (before ++ [v]) :: stack)
            (t ++ behindFirst 0x5D rest ts) := by
      rw [behindFirst, intercalate_behindFirst]
      rfl
    refine .head hcomma ((reaches_dump _ _ hfirst j hj.1 ht).trans ?_)
    have hrec := reaches_dumpItems stack rest items (floats.written j) (before ++ [v]) hj.2 hmore
    rw [List.append_assoc] at hrec
    exact hrec

/-- The fields behind the first go into the object, and the closing brace ends it. -/
theorem reaches_dumpFields {P : Double → Prop} (stack : List Frame) (rest : Bytes) :
    ∀ (fields : List (Bytes × Json)) {ts : List Bytes} (v : Json) (k : Bytes)
      (before : List (Bytes × Json)), Json.StoredFields P fields →
      (∀ p ∈ insertField k v before, ∀ p' ∈ fields, compare p.1 p'.1 = .lt) →
      dumpFields floats.jsonText fields = .ok ts →
      Reaches (step floats.strtod)
        (.behind v (.object before k :: stack) (behindFirst 0x7D rest ts))
        (.behind (.object (insertField k v before ++ floats.writtenFields fields)) stack rest)
  | [], ts, v, k, before, _, _, h => by
    cases h
    rw [FloatText.writtenFields, List.append_nil]
    exact .single _
  | (k', j) :: fields, ts, v, k, before, hj, hlt, h => by
    obtain ⟨key, t, ts, hkey, ht, hmore, rfl⟩ := dumpFields_cons h
    have hfirst := stops_behindFirst (.inr rfl) rest ts
    have hcomma : step floats.strtod (.behind v (.object before k :: stack)
        (behindFirst 0x7D rest ((Json.quoted key ++ bytes ":" ++ t) :: ts))) =
          readValue floats.strtod (.object (insertField k v before) k' :: stack)
            (t ++ behindFirst 0x7D rest ts) := by
      obtain ⟨s, hscan, hfield⟩ := readField_quoted floats
        (t := t ++ behindFirst 0x7D rest ts) hkey (insertField k v before) stack
      rw [behindFirst, intercalate_behindFirst, List.append_assoc (Json.quoted key ++ bytes ":")]
      change (match scan floats.strtod (Json.quoted key ++ bytes ":" ++
          (t ++ behindFirst 0x7D rest ts)) with
        | (.valueString key', s) =>
          readField floats.strtod (insertField k v before) key' stack s
        | _ => .wrong) = _
      rw [hscan]
      exact hfield
    refine .head hcomma ((reaches_dump _ _ hfirst j hj.2.1 ht).trans ?_)
    -- the new key is behind all others
    have hlast : insertField k' (floats.written j) (insertField k v before) =
        insertField k v before ++ [(k', floats.written j)] :=
      Json.insertField_last _ fun p hp => hlt p hp _ List.mem_cons_self
    have hrec := reaches_dumpFields stack rest fields (floats.written j) k'
      (insertField k v before) hj.2.2.2 ?_ hmore
    · rw [hlast, List.append_assoc] at hrec
      exact hrec
    · intro p hp p' hp'
      rw [hlast] at hp
      rcases List.mem_append.mp hp with hp | hp
      · exact hlt p hp p' (List.mem_cons_of_mem _ hp')
      · rw [List.mem_singleton.mp hp]
        exact hj.2.2.1 p' hp'

end

/-! ## 4. The round trips -/

/-- No dumped value begins with a byte order mark. -/
theorem skipBom_dump {j : Json} {t : Bytes} (h : dump floats.jsonText j = .ok t) :
    skipBom t = some t := by
  have hnull : ∀ c ∈ (bytes "null").head?, c ≠ 0xEF := by decide +kernel
  -- the first byte is a letter, a digit, a sign, a quote or a bracket
  have hhead : ∀ c ∈ t.head?, c ≠ 0xEF := by
    cases j with
    | null =>
      cases h
      decide +kernel
    | boolean b =>
      cases h
      cases b <;> decide +kernel
    | integer i =>
      cases h
      obtain ⟨c, s, q, heq, hc, -⟩ := Lexer.decimal_scan i
      rw [heq]
      rintro b hb rfl
      cases Option.some.inj hb
      exact absurd hc (by decide)
    | float d =>
      cases h
      cases d with
      | finite q =>
        obtain ⟨c, s, state, heq, hc, -⟩ := floats.scanned q
        change ∀ c ∈ (floats.toChars q).head?, _
        rw [heq]
        rintro b hb rfl
        cases Option.some.inj hb
        exact absurd hc (by decide)
      | infinity negative => exact hnull
      | nan => exact hnull
    | string s =>
      obtain ⟨u, hu, ht⟩ := Json.except_bind_eq_ok_iff.mp h
      cases ht
      rintro b hb rfl
      cases hb
    | array items =>
      obtain ⟨ts, -, ht⟩ := Json.except_bind_eq_ok_iff.mp h
      cases ht
      rintro b hb rfl
      cases hb
    | object fields =>
      obtain ⟨ts, -, ht⟩ := Json.except_bind_eq_ok_iff.mp h
      cases ht
      rintro b hb rfl
      cases hb
  unfold skipBom
  split
  · exact absurd rfl (hhead _ rfl)
  · rfl

end Parser

namespace FloatText

variable (floats : FloatText)

/-- **What is dumped is parsed back**: as it was, but for floating-point numbers, which come back as
their text is read. -/
theorem parse_dump {j : Json} {P : Double → Prop} {t : Bytes} (hj : j.Stored P)
    (h : j.dump floats.jsonText = .ok t) : floats.jsonText.parse t = some (floats.written j) := by
  have hrun := @Parser.reaches_dump floats P [] [] Lexer.stops_nil j t hj h
  rw [List.append_nil] at hrun
  have hdone := hrun.trans (.single _)
  change Parser.parse floats.strtod t = _
  rw [Parser.parse_eq (Parser.skipBom_dump h) hdone rfl]
  rfl

/-- **What is parsed can be dumped, and is parsed back as it was.** -/
theorem parse_dump_of_parse {text : Bytes} {j : Json} (h : floats.jsonText.parse text = some j) :
    ∃ t, j.dump floats.jsonText = .ok t ∧ floats.jsonText.parse t = some j := by
  have hj : j.Stored (Parser.ReadDouble floats.strtod) := Parser.parse_stored h
  obtain ⟨t, ht⟩ := (Json.dump_ok_iff floats.jsonText j).mpr hj.validText
  refine ⟨t, ht, ?_⟩
  rw [floats.parse_dump hj ht, floats.written_of_read hj]

end FloatText

/-! ## 5. Dumped text is one line -/

/-- There is no control character in the text: no byte below the space. -/
def Printable (t : Bytes) : Prop := ∀ b ∈ t, 0x20 ≤ b

instance (t : Bytes) : Decidable (Printable t) := List.decidableBAll _ t

theorem printable_nil : Printable [] := List.forall_mem_nil _

theorem Printable.append {s t : Bytes} (hs : Printable s) (ht : Printable t) :
    Printable (s ++ t) := fun b hb => (List.mem_append.mp hb).elim (hs b) (ht b)

theorem Printable.newline_notMem {t : Bytes} (h : Printable t) : newline ∉ t := fun hmem =>
  absurd (h newline hmem) (by decide)

theorem Printable.intercalate {ts : List Bytes} (h : ∀ t ∈ ts, Printable t) :
    Printable ((bytes ",").intercalate ts) := by
  induction ts with
  | nil => exact printable_nil
  | cons t ts ih =>
    obtain ⟨ht, hts⟩ := List.forall_mem_cons.mp h
    cases ts with
    | nil =>
      rw [List.intercalate_singleton]
      exact ht
    | cons u ts =>
      rw [List.intercalate_cons_cons]
      have hcomma : Printable (bytes ",") := by decide
      exact (ht.append hcomma).append (ih hts)

namespace Lexer

theorem next_printable : ∀ (q : NumberState) (c : UInt8), q.next c ≠ none → 0x20 ≤ c := by
  intro q
  cases q <;> exact Utf8.forall_byte (by decide +kernel)

theorem scanNumberFrom_printable {q q' : NumberState} {s t rest : Bytes}
    (h : scanNumberFrom q s = some (q', t, rest)) : Printable t := by
  induction s generalizing q t with
  | nil =>
    unfold scanNumberFrom at h
    split at h
    · cases h
      exact printable_nil
    · cases h
  | cons c s ih =>
    unfold scanNumberFrom at h
    split at h
    · rename_i q₁ hnext
      obtain ⟨⟨q₂, t₂, rest₂⟩, hscan, heq⟩ := Option.map_eq_some_iff.mp h
      cases heq
      refine List.forall_mem_cons.mpr ⟨next_printable q c ?_, ih hscan⟩
      rw [hnext]
      exact Option.some_ne_none q₁
    · split at h
      · cases h
        exact printable_nil
      · cases h

/-- The text of a number. -/
theorem number_printable {c : UInt8} {s : Bytes} {q q' : NumberState}
    (hc : c = 0x2D ∨ isDigit c = true) (h : scanNumberFrom q s = some (q', s, [])) :
    Printable (c :: s) := by
  refine List.forall_mem_cons.mpr ⟨?_, scanNumberFrom_printable h⟩
  have hall : ∀ c : UInt8, c = 0x2D ∨ isDigit c = true → 0x20 ≤ c :=
    Utf8.forall_byte (by decide +kernel)
  exact hall c hc

end Lexer

namespace Json

variable {floats : FloatText}

theorem quoted_printable {s t : Bytes} (h : dumpEscaped s = .ok t) : Printable (quoted t) := by
  have hbyte : ∀ b : UInt8, Printable (escapeByte b) := Utf8.forall_byte (by decide +kernel)
  have hquote : Printable (bytes "\"") := by decide
  unfold dumpEscaped at h
  split at h
  · cases h
    refine (hquote.append fun c hc => ?_).append hquote
    obtain ⟨b, -, hb⟩ := List.mem_flatMap.mp hc
    exact hbyte b c hb
  · cases h

mutual

/-- **There is no control character in a dumped value**, so it is one line. -/
theorem dump_printable : ∀ (j : Json) {t : Bytes}, dump floats.jsonText j = .ok t → Printable t
  | .null, _, rfl => by decide
  | .boolean true, _, rfl => by decide
  | .boolean false, _, rfl => by decide
  | .integer i, _, rfl => by
    obtain ⟨c, s, q, heq, hc, hscan, -⟩ := Lexer.decimal_scan i
    rw [heq]
    exact Lexer.number_printable hc hscan
  | .float (.finite q), _, rfl => by
    obtain ⟨c, s, state, heq, hc, hscan, -⟩ := floats.scanned q
    change Printable (floats.toChars q)
    rw [heq]
    exact Lexer.number_printable hc hscan
  | .float (.infinity _), _, rfl | .float .nan, _, rfl => by
    exact (by decide : Printable (bytes "null"))
  | .string s, t, h => by
    obtain ⟨u, hu, ht⟩ := except_bind_eq_ok_iff.mp h
    cases ht
    exact quoted_printable hu
  | .array items, t, h => by
    obtain ⟨ts, hts, ht⟩ := except_bind_eq_ok_iff.mp h
    cases ht
    have hopen : Printable (bytes "[") := by decide
    have hclose : Printable (bytes "]") := by decide
    exact (hopen.append (.intercalate (dumpItems_printable items hts))).append hclose
  | .object fields, t, h => by
    obtain ⟨ts, hts, ht⟩ := except_bind_eq_ok_iff.mp h
    cases ht
    have hopen : Printable (bytes "\x7b") := by decide
    have hclose : Printable (bytes "\x7d") := by decide
    exact (hopen.append (.intercalate (dumpFields_printable fields hts))).append hclose

theorem dumpItems_printable : ∀ (items : List Json) {ts : List Bytes},
    dumpItems floats.jsonText items = .ok ts → ∀ t ∈ ts, Printable t
  | [], _, rfl => nofun
  | j :: items, _, h => by
    obtain ⟨t, ts, ht, hts, rfl⟩ := Parser.dumpItems_cons h
    exact List.forall_mem_cons.mpr ⟨dump_printable j ht, dumpItems_printable items hts⟩

theorem dumpFields_printable : ∀ (fields : List (Bytes × Json)) {ts : List Bytes},
    dumpFields floats.jsonText fields = .ok ts → ∀ t ∈ ts, Printable t
  | [], _, rfl => nofun
  | (k, j) :: fields, _, h => by
    obtain ⟨key, t, ts, hkey, ht, hts, rfl⟩ := Parser.dumpFields_cons h
    have hcolon : Printable (bytes ":") := by decide
    exact List.forall_mem_cons.mpr
      ⟨((quoted_printable hkey).append hcolon).append (dump_printable j ht),
        dumpFields_printable fields hts⟩

end

end Json

/-- **Text and values.**  A value as the library holds it is written as text without a control
character, so as one line, and read back, its floating-point numbers as their text is read; and what
any text is read as is such a value, and is written so and read back as it was. -/
theorem FloatText.dump_parse_roundTrip (floats : FloatText) :
    (∀ j : Json, j.Stored (fun _ => True) → ∃ t, j.dump floats.jsonText = .ok t ∧ Printable t ∧
      floats.jsonText.parse t = some (floats.written j)) ∧
    ∀ (text : Bytes) (j : Json), floats.jsonText.parse text = some j →
      j.Stored (Parser.ReadDouble floats.strtod) ∧
        ∃ t, j.dump floats.jsonText = .ok t ∧ Printable t ∧
          floats.jsonText.parse t = some j := by
  refine ⟨fun j hj => ?_, fun text j h => ⟨Parser.parse_stored h, ?_⟩⟩
  · obtain ⟨t, ht⟩ := (Json.dump_ok_iff floats.jsonText j).mpr hj.validText
    exact ⟨t, ht, Json.dump_printable j ht, floats.parse_dump hj ht⟩
  · obtain ⟨t, ht, hparse⟩ := floats.parse_dump_of_parse h
    exact ⟨t, ht, Json.dump_printable j ht, hparse⟩

/-- A library for the texts with no floating-point number but this. -/
def oneAndHalf : FloatText where
  strtod t := if t = bytes "1.5" then .finite (3 / 2) else .nan
  toChars _ := bytes "1.5"
  scanned _ := ⟨0x31, bytes ".5", .decimal2, rfl, .inr rfl, by decide, rfl⟩
  finite _ := ⟨3 / 2, if_pos rfl⟩
  exact t q h := by
    split at h
    · exact (if_pos rfl).trans h
    · cases h

/-- An object of a key with a quote, a number of each kind and a character of two bytes. -/
def sampleValue : Json :=
  .object [(bytes "\"k", .array [.integer (-7), .float (.finite (3 / 2)), .null]),
    (bytes "s", .string (bytes "é\n"))]

theorem sampleValue_stored : sampleValue.Stored (fun _ => True) := by
  refine ⟨utf8_bytes _, ⟨?_, trivial, trivial, trivial⟩, ?_, utf8_bytes _, utf8_bytes _, ?_,
    trivial⟩
  · exact ⟨by decide, by decide⟩
  · decide
  · exact nofun

theorem dump_parse_roundTrip_sampleValue :
    (∃ t, sampleValue.dump oneAndHalf.jsonText = .ok t ∧ Printable t ∧
      oneAndHalf.jsonText.parse t = some (oneAndHalf.written sampleValue)) ∧
    ∃ t, sampleValue.dump oneAndHalf.jsonText = .ok t ∧ Printable t ∧
      oneAndHalf.jsonText.parse t = some sampleValue := by
  obtain ⟨t, ht, hline, hparse⟩ :=
    (FloatText.dump_parse_roundTrip oneAndHalf).1 _ sampleValue_stored
  have hwritten : oneAndHalf.written sampleValue = sampleValue := by
    simp [sampleValue, FloatText.written, FloatText.writtenFields, FloatText.writtenItems,
      oneAndHalf]
  refine ⟨⟨t, ht, hline, hparse⟩, ?_⟩
  rw [hwritten] at hparse
  exact ((FloatText.dump_parse_roundTrip oneAndHalf).2 t sampleValue hparse).2

end SimpleCoder

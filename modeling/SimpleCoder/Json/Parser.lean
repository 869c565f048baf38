/-
# The parser of JSON texts

`parse` is `json::parse(text, nullptr, false)`: a loop over the tokens, with a stack of the arrays
and objects that are open, and nothing for a text that is wrong.  `step` is one turn of the loop.

* §1 has the machine, and §2 its runs: every turn uses something up, so a run ends in time
  (`parse_eq`).
* §3: the values that come up are `Stored` ones, as the library holds them (`parse_stored`).
-/
import SimpleCoder.Json.Strings
import SimpleCoder.Lib.Machine

namespace SimpleCoder

open Lexer (Token scan skipBom)

namespace Parser

/-! ## 1. The machine -/

/-- An open array with its elements so far, or an open object with its fields and the key whose
value is read. -/
inductive Frame where
  | array (items : List Json)
  | object (fields : List (Bytes × Json)) (key : Bytes)

/-- Where the loop of `sax_parse_internal` is: at the first token of a value, behind a whole value,
or done; none of these if the text is wrong. -/
inductive State where
  | value (token : Token) (stack : List Frame) (rest : Bytes)
  | behind (j : Json) (stack : List Frame) (rest : Bytes)
  | done (j : Json) (rest : Bytes)
  | wrong

section

variable (strtod : Bytes → Double)

/-- Go on with the next token as the first of a value. -/
def readValue (stack : List Frame) (s : Bytes) : State :=
  .value (scan strtod s).1 stack (scan strtod s).2

/-- A key has been read: a colon follows, and the value. -/
def readField (fields : List (Bytes × Json)) (key : Bytes) (stack : List Frame) (s : Bytes) :
    State :=
  match scan strtod s with
  | (.nameSeparator, s) => readValue strtod (.object fields key :: stack) s
  | _ => .wrong

/-- The first token of a value. -/
def stepValue (stack : List Frame) (s : Bytes) : Token → State
  | .beginObject =>
    match scan strtod s with
    | (.endObject, s) => .behind (.object []) stack s
    | (.valueString key, s) => readField strtod [] key stack s
    | _ => .wrong
  | .beginArray =>
    match scan strtod s with
    | (.endArray, s) => .behind (.array []) stack s
    | (token, s) => .value token (.array [] :: stack) s
  | .valueFloat (.finite q) => .behind (.float (.finite q)) stack s
  | .literalTrue => .behind (.boolean true) stack s
  | .literalFalse => .behind (.boolean false) stack s
  | .literalNull => .behind .null stack s
  | .valueInteger i => .behind (.integer i) stack s
  | .valueString t => .behind (.string t) stack s
  -- an overflow of `strtod`, and tokens that start no value
  | _ => .wrong

/-- Behind a value: it goes into what is open, and that goes on or is closed. -/
def stepBehind (j : Json) (s : Bytes) : List Frame → State
  | [] => .done j s
  | .array items :: stack =>
    match scan strtod s with
    | (.valueSeparator, s) => readValue strtod (.array (items ++ [j]) :: stack) s
    | (.endArray, s) => .behind (.array (items ++ [j])) stack s
    | _ => .wrong
  | .object fields key :: stack =>
    match scan strtod s with
    | (.valueSeparator, s) =>
      match scan strtod s with
      | (.valueString key', s) =>
        readField strtod (Json.insertField key j fields) key' stack s
      | _ => .wrong
    | (.endObject, s) => .behind (.object (Json.insertField key j fields)) stack s
    | _ => .wrong

/-- One turn of the loop. -/
def step : State → State
  | .value token stack s => stepValue strtod stack s token
  | .behind j stack s => stepBehind strtod j s stack
  | .done j s => .done j s
  | .wrong => .wrong

/-- The value of a text, if the input ends behind it. -/
def result : State → Option Json
  | .done j s => if (scan strtod s).1 = .endOfInput then some j else none
  | _ => none

/-- `parser::parse` in strict mode.  Two turns for each byte are enough. -/
def parse (text : Bytes) : Option Json :=
  match skipBom text with
  | none => none
  | some s => result strtod ((step strtod)^[2 * s.length + 2] (readValue strtod [] s))

end

end Parser

namespace Lexer

variable {strtod : Bytes → Double}

/-! ## 2. Runs -/

theorem scanNumberFrom_length {q q' : NumberState} {s t rest : Bytes}
    (h : scanNumberFrom q s = some (q', t, rest)) : rest.length ≤ s.length := by
  induction s generalizing q t with
  | nil =>
    unfold scanNumberFrom at h
    split at h
    · cases h
      exact Nat.le_refl _
    · cases h
  | cons c s ih =>
    unfold scanNumberFrom at h
    split at h
    · obtain ⟨⟨q₁, t₁, rest₁⟩, hrest, heq⟩ := Option.map_eq_some_iff.mp h
      cases heq
      exact Nat.le_succ_of_le (ih hrest)
    · split at h
      · cases h
        exact Nat.le_refl _
      · cases h

/-- A token that a text may go on behind. -/
def Token.Goes : Token → Prop
  | .endOfInput | .parseError => False
  | _ => True

/-- The value of a token is one that the library holds. -/
def Token.Holds (strtod : Bytes → Double) : Token → Prop
  | .valueString s => Utf8 s
  | .valueInteger i => -2 ^ 63 ≤ i ∧ i < 2 ^ 64
  | .valueFloat d => ∃ t, strtod t = d
  | _ => True

/-- What is true of a token that is read from a text, and of what is behind it. -/
structure Token.Reads (strtod : Bytes → Double) (s : Bytes) (p : Token × Bytes) : Prop where
  shorter : p.1.Goes → p.2.length < s.length
  holds : p.1.Holds strtod

theorem Token.Reads.error (s : Bytes) : Token.Reads strtod s (.parseError, []) := ⟨nofun, trivial⟩

theorem Token.Reads.ite {P : Prop} [Decidable P] {s : Bytes} {p q : Token × Bytes}
    (hp : Token.Reads strtod s p) (hq : Token.Reads strtod s q) :
    Token.Reads strtod s (if P then p else q) := by
  split
  · exact hp
  · exact hq

theorem integerValue_bounds {s : Bytes} (h : fits64 (s.head? = some 0x2D) (integerValue s) = true) :
    -2 ^ 63 ≤ integerValue s ∧ integerValue s < 2 ^ 64 := by
  cases s with
  | nil => decide
  | cons c s =>
    unfold fits64 at h
    unfold integerValue at h ⊢
    rw [List.head?_cons] at h
    by_cases hc : c = 0x2D
    · simp only [hc, ↓reduceIte, decide_true, decide_eq_true_eq] at h ⊢
      omega
    · simp only [hc, Option.some.injEq, decide_false, Bool.false_eq_true, ↓reduceIte,
        decide_eq_true_eq] at h ⊢
      omega

theorem numberToken_holds (q : NumberState) (s : Bytes) :
    (numberToken strtod q s).Holds strtod := by
  unfold numberToken
  split
  · rename_i h
    exact integerValue_bounds (Bool.and_eq_true_iff.mp h).2
  · exact ⟨s, rfl⟩

theorem scanNumber_reads (c : UInt8) (s : Bytes) :
    Token.Reads strtod (c :: s) (scanNumber strtod c s) := by
  unfold scanNumber
  split
  · exact .error _
  · rename_i q text rest h
    exact ⟨fun _ => Nat.lt_succ_of_le (scanNumberFrom_length h), numberToken_holds _ _⟩

theorem scanLiteral_reads (c : UInt8) (text s : Bytes) {token : Token}
    (h : token.Holds strtod) : Token.Reads strtod (c :: s) (scanLiteral text token s) := by
  unfold scanLiteral
  split
  · refine ⟨fun _ => ?_, h⟩
    rw [List.length_drop, List.length_cons]
    omega
  · exact .error _

theorem scanToken_reads (c : UInt8) (s : Bytes) :
    Token.Reads strtod (c :: s) (scanToken strtod c s) := by
  have hone : ∀ {token : Token}, token.Holds strtod → Token.Reads strtod (c :: s) (token, s) :=
    fun h => ⟨fun _ => Nat.lt_succ_self _, h⟩
  refine .ite (hone trivial) (.ite (hone trivial) (.ite (hone trivial) (.ite (hone trivial)
    (.ite (hone trivial) (.ite (hone trivial) ?_)))))
  refine .ite (scanLiteral_reads c _ s trivial) (.ite (scanLiteral_reads c _ s trivial)
    (.ite (scanLiteral_reads c _ s trivial) (.ite ?_ ?_)))
  · -- a string
    split
    · exact .error _
    · rename_i t rest h
      obtain ⟨hvalid, hlen⟩ := scanString_valid h
      exact ⟨fun _ => Nat.lt_succ_of_lt hlen, hvalid⟩
  · exact .ite (scanNumber_reads c s) (.ite ⟨nofun, trivial⟩ (.error _))

/-- **Every token but the last uses something up**, and its value is one that the library holds. -/
theorem scan_reads (s : Bytes) : Token.Reads strtod s (scan strtod s) := by
  have hdrop : (s.dropWhile isWhitespace).length ≤ s.length := (List.dropWhile_suffix _).length_le
  unfold scan
  split
  · exact ⟨nofun, trivial⟩
  · rename_i c t h
    rw [h] at hdrop
    obtain ⟨hshort, hholds⟩ := @scanToken_reads strtod c t
    exact ⟨fun hgoes => (hshort hgoes).trans_le hdrop, hholds⟩

end Lexer

namespace Parser

section

variable (strtod : Bytes → Double)

/-- How much is still to be done. -/
def State.size : State → Nat
  | .value .endOfInput _ _ | .value .parseError _ _ => 1
  | .value _ _ s => 2 * s.length + 2
  | .behind _ _ s => 2 * s.length + 1
  | _ => 0

variable {strtod}

theorem size_value (token : Token) (stack : List Frame) (s : Bytes) :
    (State.value token stack s).size ≤ 2 * s.length + 2 ∧
      (¬ token.Goes → (State.value token stack s).size = 1) := by
  cases token <;> simp [State.size, Token.Goes]

theorem size_value_of_scan {s : Bytes} {stack : List Frame} {token : Token} {rest : Bytes}
    (h : scan strtod s = (token, rest)) :
    (State.value token stack rest).size ≤ max 1 (2 * s.length) := by
  obtain ⟨hle, hone⟩ := size_value token stack rest
  by_cases hgoes : token.Goes
  · have hlt : rest.length < s.length := by
      have hread := (@Lexer.scan_reads strtod s).shorter
      rw [h] at hread
      exact hread hgoes
    omega
  · have := hone hgoes
    omega

theorem size_readValue (stack : List Frame) (s : Bytes) :
    (readValue strtod stack s).size ≤ max 1 (2 * s.length) := size_value_of_scan rfl

theorem size_readField (fields : List (Bytes × Json)) (key : Bytes) (stack : List Frame)
    (s : Bytes) : (readField strtod fields key stack s).size ≤ 2 * s.length := by
  unfold readField
  split
  · rename_i rest h
    have hlt : rest.length < s.length := by
      have hread := (@Lexer.scan_reads strtod s).shorter
      rw [h] at hread
      exact hread trivial
    have := @size_readValue strtod (.object fields key :: stack) rest
    omega
  · exact Nat.zero_le _

theorem length_of_scan {s rest : Bytes} {token : Token} (h : scan strtod s = (token, rest))
    (hgoes : token.Goes) : rest.length < s.length := by
  have hread := (@Lexer.scan_reads strtod s).shorter
  rw [h] at hread
  exact hread hgoes

theorem size_stepValue (stack : List Frame) (s : Bytes) (token : Token) :
    (stepValue strtod stack s token).size < (State.value token stack s).size := by
  cases token with
  | beginObject =>
    have hsize : (State.value .beginObject stack s).size = 2 * s.length + 2 := rfl
    rw [hsize, stepValue]
    split
    · rename_i rest h
      have := length_of_scan h trivial
      simp only [State.size]
      omega
    · rename_i key rest h
      have := length_of_scan h trivial
      have := @size_readField strtod [] key stack rest
      omega
    · exact Nat.succ_pos _
  | beginArray =>
    have hsize : (State.value .beginArray stack s).size = 2 * s.length + 2 := rfl
    rw [hsize, stepValue]
    split
    · rename_i rest h
      have := length_of_scan h trivial
      simp only [State.size]
      omega
    · rename_i token rest _ h
      have := @size_value_of_scan strtod s (.array [] :: stack) _ _ h
      omega
  | valueFloat d => cases d <;> simp [stepValue, State.size]
  | _ => simp [stepValue, State.size]

theorem size_stepBehind (j : Json) (s : Bytes) (stack : List Frame) :
    (stepBehind strtod j s stack).size < (State.behind j stack s).size := by
  have hsize : (State.behind j stack s).size = 2 * s.length + 1 := rfl
  rw [hsize]
  match stack with
  | [] => exact Nat.succ_pos _
  | .array items :: stack =>
    rw [stepBehind]
    split
    · rename_i rest h
      -- each token takes a byte at least, and the value behind a comma another
      have := length_of_scan h trivial
      have := @size_readValue strtod (.array (items ++ [j]) :: stack) rest
      omega
    · rename_i rest h
      have := length_of_scan h trivial
      simp only [State.size]
      omega
    · exact Nat.succ_pos _
  | .object fields key :: stack =>
    rw [stepBehind]
    split
    · rename_i rest h
      have := length_of_scan h trivial
      split
      · rename_i key' rest' h'
        have := length_of_scan h' trivial
        have := @size_readField strtod (Json.insertField key j fields) key' stack rest'
        omega
      · exact Nat.succ_pos _
    · rename_i rest h
      have := length_of_scan h trivial
      simp only [State.size]
      omega
    · exact Nat.succ_pos _

theorem size_step (state : State) :
    step strtod state = state ∨ (step strtod state).size < state.size := by
  cases state with
  | value token stack s => exact .inr (size_stepValue stack s token)
  | behind j stack s => exact .inr (size_stepBehind j s stack)
  | done j s => exact .inl rfl
  | wrong => exact .inl rfl

/-- **What the machine does with a text is what `parse` returns**: its turns are enough. -/
theorem parse_eq {text s : Bytes} {state : State} (hbom : skipBom text = some s)
    (hrun : Machine.Reaches (step strtod) (readValue strtod [] s) state)
    (hrest : step strtod state = state) : parse strtod text = result strtod state := by
  have hsize := @size_readValue strtod [] s
  unfold parse
  rw [hbom]
  dsimp only
  rw [hrun.iterate_eq size_step hrest (by omega)]

end

end Parser

/-! ## 3. Stored values -/

namespace Json

section

variable (P : Double → Prop)

mutual

/-- A value as the library holds it: valid strings, keys in ascending order, integers of 64 bits,
and floating-point numbers that satisfy `P`. -/
def Stored : Json → Prop
  | .integer i => -2 ^ 63 ≤ i ∧ i < 2 ^ 64
  | .float d => P d
  | .string s => Utf8 s
  | .array items => StoredItems items
  | .object fields => StoredFields fields
  | _ => True

def StoredItems : List Json → Prop
  | [] => True
  | j :: items => Stored j ∧ StoredItems items

def StoredFields : List (Bytes × Json) → Prop
  | [] => True
  | (k, j) :: fields =>
    Utf8 k ∧ Stored j ∧ (∀ p ∈ fields, compare k p.1 = .lt) ∧ StoredFields fields

end

variable {P}

theorem storedItems_append {items items' : List Json} (h : StoredItems P items)
    (h' : StoredItems P items') : StoredItems P (items ++ items') := by
  induction items with
  | nil => exact h'
  | cons j items ih => exact ⟨h.1, ih h.2⟩

theorem mem_insertField {key : Bytes} {v : Json} {fields : List (Bytes × Json)}
    {p : Bytes × Json} (hp : p ∈ insertField key v fields) : p = (key, v) ∨ p ∈ fields := by
  induction fields with
  | nil => exact .inl (List.mem_singleton.mp hp)
  | cons q fields ih =>
    obtain ⟨k, w⟩ := q
    unfold insertField at hp
    split at hp
    · exact List.mem_cons.mp hp
    · rcases List.mem_cons.mp hp with rfl | hmem
      · exact .inl rfl
      · exact .inr (List.mem_cons_of_mem _ hmem)
    · rcases List.mem_cons.mp hp with rfl | hmem
      · exact .inr List.mem_cons_self
      · exact (ih hmem).imp_right fun h => List.mem_cons_of_mem _ h

/-- **Assigning to a key keeps the order of the keys.** -/
theorem stored_insertField {key : Bytes} {v : Json} {fields : List (Bytes × Json)}
    (h : StoredFields P fields) (hkey : Utf8 key) (hv : v.Stored P) :
    StoredFields P (insertField key v fields) := by
  induction fields with
  | nil => exact ⟨hkey, hv, fun _ hp => absurd hp List.not_mem_nil, trivial⟩
  | cons q fields ih =>
    obtain ⟨k, w⟩ := q
    obtain ⟨hk, hw, hlt, hfields⟩ := h
    unfold insertField
    split
    · rename_i hcmp
      refine ⟨hkey, hv, fun p hp => ?_, hk, hw, hlt, hfields⟩
      rcases List.mem_cons.mp hp with rfl | hmem
      · exact hcmp
      · exact Std.TransCmp.lt_trans hcmp (hlt p hmem)
    · rename_i hcmp
      have heq : key = k := Std.LawfulEqOrd.eq_of_compare hcmp
      exact ⟨hkey, hv, heq ▸ hlt, hfields⟩
    · rename_i hcmp
      refine ⟨hk, hw, fun p hp => ?_, ih hfields⟩
      rcases mem_insertField hp with rfl | hmem
      · exact Std.OrientedCmp.lt_of_gt hcmp
      · exact hlt p hmem

/-- A key behind all others goes to the end. -/
theorem insertField_last {key : Bytes} (v : Json) {fields : List (Bytes × Json)}
    (h : ∀ p ∈ fields, compare p.1 key = .lt) :
    insertField key v fields = fields ++ [(key, v)] := by
  induction fields with
  | nil => rfl
  | cons q fields ih =>
    obtain ⟨k, w⟩ := q
    obtain ⟨hq, hfields⟩ := List.forall_mem_cons.mp h
    rw [insertField, Std.OrientedCmp.gt_of_lt hq, ih hfields]
    rfl

theorem stored_ofFields {fields : List (Bytes × Json)}
    (h : ∀ p ∈ fields, Utf8 p.1 ∧ p.2.Stored P) : (ofFields fields).Stored P := by
  have hfold : ∀ m, StoredFields P m →
      StoredFields P (fields.foldl (fun m p => insertField p.1 p.2 m) m) := by
    induction fields with
    | nil => exact fun m hm => hm
    | cons p fields ih =>
      obtain ⟨hp, hfields⟩ := List.forall_mem_cons.mp h
      exact fun m hm => ih hfields _ (stored_insertField hm hp.1 hp.2)
  exact hfold [] trivial

mutual

theorem Stored.validText : ∀ {j : Json}, j.Stored P → j.ValidText
  | .null, _ | .boolean _, _ | .integer _, _ | .float _, _ => trivial
  | .string _, h => h
  | .array _, h => StoredItems.validItems h
  | .object _, h => StoredFields.validFields h

theorem StoredItems.validItems : ∀ {items : List Json}, StoredItems P items → ValidItems items
  | [], _ => trivial
  | _ :: _, h => ⟨h.1.validText, StoredItems.validItems h.2⟩

theorem StoredFields.validFields : ∀ {fields : List (Bytes × Json)}, StoredFields P fields →
    ValidFields fields
  | [], _ => trivial
  | _ :: _, h => ⟨h.1, h.2.1.validText, StoredFields.validFields h.2.2.2⟩

end

end

end Json

namespace Parser

section

variable {strtod : Bytes → Double}

/-- A finite number that some text is read as. -/
def ReadDouble (strtod : Bytes → Double) (d : Double) : Prop :=
  ∃ (text : Bytes) (q : ℚ), strtod text = .finite q ∧ d = .finite q

/-- The values in a state are stored ones. -/
def Frame.Stored (strtod : Bytes → Double) : Frame → Prop
  | .array items => Json.StoredItems (ReadDouble strtod) items
  | .object fields key => Json.StoredFields (ReadDouble strtod) fields ∧ Utf8 key

def State.Stored (strtod : Bytes → Double) : State → Prop
  | .value token stack _ => token.Holds strtod ∧ ∀ frame ∈ stack, frame.Stored strtod
  | .behind j stack _ => j.Stored (ReadDouble strtod) ∧ ∀ frame ∈ stack, frame.Stored strtod
  | .done j _ => j.Stored (ReadDouble strtod)
  | .wrong => True

theorem holds_of_scan {s rest : Bytes} {token : Token} (h : scan strtod s = (token, rest)) :
    token.Holds strtod := by
  have hread := (@Lexer.scan_reads strtod s).holds
  rwa [h] at hread

theorem stored_readValue {stack : List Frame} (h : ∀ frame ∈ stack, frame.Stored strtod)
    (s : Bytes) : (readValue strtod stack s).Stored strtod :=
  ⟨(Lexer.scan_reads s).holds, h⟩

theorem stored_readField {fields : List (Bytes × Json)} {key : Bytes} {stack : List Frame}
    (hfields : Json.StoredFields (ReadDouble strtod) fields) (hkey : Utf8 key)
    (h : ∀ frame ∈ stack, frame.Stored strtod) (s : Bytes) :
    (readField strtod fields key stack s).Stored strtod := by
  unfold readField
  split
  · have hframe : Frame.Stored strtod (.object fields key) := ⟨hfields, hkey⟩
    exact stored_readValue (List.forall_mem_cons.mpr ⟨hframe, h⟩) _
  · trivial

theorem stored_stepValue {stack : List Frame} (h : ∀ frame ∈ stack, frame.Stored strtod)
    (s : Bytes) {token : Token} (htoken : token.Holds strtod) :
    (stepValue strtod stack s token).Stored strtod := by
  cases token with
  | beginObject =>
    rw [stepValue]
    split
    · exact ⟨trivial, h⟩
    · rename_i key rest hscan
      have hnone : Json.StoredFields (ReadDouble strtod) [] := trivial
      exact stored_readField hnone (holds_of_scan hscan) h rest
    · trivial
  | beginArray =>
    rw [stepValue]
    split
    · exact ⟨trivial, h⟩
    · rename_i token rest _ hscan
      exact ⟨holds_of_scan hscan, List.forall_mem_cons.mpr ⟨trivial, h⟩⟩
  | valueFloat d =>
    obtain ⟨text, hd⟩ := htoken
    cases d with
    | finite q => exact ⟨⟨text, q, hd, rfl⟩, h⟩
    | infinity negative => trivial
    | nan => trivial
  | literalTrue => exact ⟨trivial, h⟩
  | literalFalse => exact ⟨trivial, h⟩
  | literalNull => exact ⟨trivial, h⟩
  | valueString t => exact ⟨htoken, h⟩
  | valueInteger i => exact ⟨htoken, h⟩
  | _ => trivial

theorem stored_stepBehind {j : Json} (hj : j.Stored (ReadDouble strtod)) (s : Bytes)
    {stack : List Frame} (h : ∀ frame ∈ stack, frame.Stored strtod) :
    (stepBehind strtod j s stack).Stored strtod := by
  match stack, h with
  | [], _ => exact hj
  | .array items :: stack, h =>
    obtain ⟨hitems, hstack⟩ := List.forall_mem_cons.mp h
    have hmore : Json.StoredItems (ReadDouble strtod) (items ++ [j]) :=
      Json.storedItems_append hitems ⟨hj, trivial⟩
    rw [stepBehind]
    split
    · have hframe : Frame.Stored strtod (.array (items ++ [j])) := hmore
      exact stored_readValue (List.forall_mem_cons.mpr ⟨hframe, hstack⟩) _
    · exact ⟨hmore, hstack⟩
    · trivial
  | .object fields key :: stack, h =>
    obtain ⟨⟨hfields, hkey⟩, hstack⟩ := List.forall_mem_cons.mp h
    have hmore := Json.stored_insertField hfields hkey hj
    rw [stepBehind]
    split
    · split
      · rename_i key' rest hscan
        exact stored_readField hmore (holds_of_scan hscan) hstack rest
      · trivial
    · exact ⟨hmore, hstack⟩
    · trivial

theorem stored_step {state : State} (h : state.Stored strtod) :
    (step strtod state).Stored strtod := by
  cases state with
  | value token stack s => exact stored_stepValue h.2 s h.1
  | behind j stack s => exact stored_stepBehind h.1 s h.2
  | done j s => exact h
  | wrong => trivial

/-- **Whatever is parsed is a value as the library holds it.** -/
theorem parse_stored {text : Bytes} {j : Json} (h : parse strtod text = some j) :
    j.Stored (ReadDouble strtod) := by
  unfold parse at h
  split at h
  · cases h
  rename_i s _
  have hstart : (readValue strtod [] s).Stored strtod :=
    stored_readValue (fun _ h => absurd h List.not_mem_nil) s
  have hrun := Function.Iterate.rec (State.Stored strtod)
    hstart (fun _ => stored_step) (2 * s.length + 2)
  unfold result at h
  split at h
  · rename_i j' rest heq
    rw [heq] at hrun
    split at h
    · cases h
      exact hrun
    · cases h
  · cases h

end

end Parser

end SimpleCoder

/-
# The references in a text

A reference is a `&`, a name and a `;`.  §1 says which names there are and what they denote, §2 what
a text is with its references replaced (`Decodes`).  A stretch of text up to a `;` is decoded by
itself, whatever comes behind it (`Decodes.stretch`, `Decodes.of_stretch`).
-/
import SimpleCoder.Net.Html
import SimpleCoder.Util.Utf8

namespace SimpleCoder

open Text (tolower)

/-! ## 1. References -/

def isHexDigit (c : UInt8) : Bool := isDigit c || (0x61 ≤ tolower c && tolower c ≤ 0x66)

def digitValue (c : UInt8) : Nat :=
  if isDigit c then c.toNat - 0x30 else (tolower c).toNat - 0x57

/-- The number that is written with these digits. -/
def numeral (base : Nat) (digits : Bytes) : Nat :=
  digits.foldl (fun n c => n * base + digitValue c) 0

/-- What is behind the `#x` or `#X` of a name, if it is not empty. -/
def hexPart (name : Bytes) : Option Bytes :=
  match name with
  | _ :: x :: y :: rest => if x = 0x78 ∨ x = 0x58 then some (y :: rest) else none
  | _ => none

/-- The number of a numeric reference. -/
def referenceNumber (name : Bytes) : Option Nat :=
  if name.head? = some 0x23 then
    match hexPart name with
    | some digits => if digits.all isHexDigit then some (numeral 16 digits) else none
    | none =>
      if name.tail ≠ [] ∧ name.tail.all isDigit = true then some (numeral 10 name.tail) else none
  else none

/-- The text of a number that is a Unicode scalar value. -/
def scalarText (v : Nat) : Option Bytes :=
  if h : v.isValidChar then some (String.utf8EncodeChar (Char.ofNatAux v h)) else none

/-- What the reference with this name denotes, if there is one. -/
def reference (name : Bytes) : Option Bytes :=
  if name.length ≤ 9 then
    match namedEntities.lookup name with
    | some text => some text
    | none => (referenceNumber name).bind scalarText
  else none

/-- The characters of the names of references. -/
def isNameByte (c : UInt8) : Bool := isAlnum c || c = 0x23

theorem isNameByte_ascii : ∀ c : UInt8, isNameByte c = true → c ≠ 0x26 ∧ c ≠ 0x3B ∧ Utf8 [c] :=
  Utf8.forall_byte (by decide +kernel)

theorem isNameByte_of_isDigit {c : UInt8} (h : isDigit c = true) : isNameByte c = true := by
  simp [isNameByte, isAlnum, h]

theorem isNameByte_of_isHexDigit : ∀ c : UInt8, isHexDigit c = true → isNameByte c = true :=
  Utf8.forall_byte (by decide)

theorem hexPart_eq_some {name digits : Bytes} (h : hexPart name = some digits) :
    ∃ c x, name = c :: x :: digits ∧ (x = 0x78 ∨ x = 0x58) ∧ digits ≠ [] := by
  unfold hexPart at h
  split at h
  · rename_i c x y rest
    split at h
    · rename_i hx
      obtain rfl := Option.some.inj h
      exact ⟨c, x, rfl, hx, by simp⟩
    · cases h
  · cases h

theorem namedEntities_lookup {name text : Bytes} (h : namedEntities.lookup name = some text) :
    (∀ c ∈ name, isNameByte c = true) ∧ Utf8 text ∧ text ≠ [] ∧
      ∀ x rest, text ≠ 0x26 :: x :: rest := by
  obtain ⟨l, l', hl, -⟩ := List.lookup_eq_some_iff.mp h
  have hmem : (name, text) ∈ namedEntities := by
    rw [hl]
    simp
  have htable : ∀ p ∈ namedEntities, p.1.all isNameByte = true ∧ Utf8 p.2 ∧ p.2 ≠ [] ∧
      (p.2.head? = some 0x26 → p.2.length = 1) := by decide +kernel
  obtain ⟨hname, htext, hne, hhead⟩ := htable _ hmem
  refine ⟨List.all_eq_true.mp hname, htext, hne, ?_⟩
  rintro x rest rfl
  simpa using hhead rfl

theorem lead_ne_ampersand : ∀ b : UInt8,
    0xC0 ||| b ≠ 0x26 ∧ 0xE0 ||| b ≠ 0x26 ∧ 0xF0 ||| b ≠ 0x26 :=
  Utf8.forall_byte (by decide)

/-- An encoding that begins with `&` is that character alone. -/
theorem encodePoint_ne (cp : Nat) (x : UInt8) (rest : Bytes) :
    encodePoint cp ≠ 0x26 :: x :: rest := by
  unfold encodePoint
  simp only [Nat.toUInt8_eq, UInt8.ofNat_or]
  split
  · simp
  split
  · intro h
    exact (lead_ne_ampersand _).1 (List.cons.inj h).1
  split
  · intro h
    exact (lead_ne_ampersand _).2.1 (List.cons.inj h).1
  · intro h
    exact (lead_ne_ampersand _).2.2 (List.cons.inj h).1

theorem encodePoint_ne_nil (cp : Nat) : encodePoint cp ≠ [] := by
  unfold encodePoint
  split
  · simp
  split
  · simp
  split <;> simp

/-- **The source encodes characters in UTF-8.** -/
theorem encodePoint_eq (c : Char) : encodePoint c.toNat = String.utf8EncodeChar c := by
  have hlt : ∀ k : UInt32, (c.val ≤ k ↔ c.toNat < k.toNat + 1) := fun k => by
    rw [UInt32.le_iff_toNat_le, Nat.lt_succ_iff]
    rfl
  have hval : c.val.toNat = c.toNat := rfl
  rw [← Utf8.encode_eq]
  unfold encodePoint Utf8.encode Utf8.contByte
  simp only [hlt, ← UInt8.ofNat_uInt32ToNat, UInt32.toNat_or, UInt32.toNat_shiftRight,
    UInt32.toNat_and, UInt32.reduceToNat, Nat.reduceMod, Nat.reduceAdd, hval, Nat.toUInt8_eq]

theorem utf8_encodePoint {v : Nat} (h : v.isValidChar) : Utf8 (encodePoint v) := by
  have hv : (Char.ofNatAux v h).toNat = v := rfl
  rw [← hv, encodePoint_eq, ← Utf8.encode_eq, Utf8.valid_iff]
  exact ⟨[_], (Utf8.encodeText_singleton _).symm⟩

theorem scalarText_eq (v : Nat) :
    scalarText v = if v.isValidChar then some (encodePoint v) else none := by
  unfold scalarText
  by_cases h : v.isValidChar
  · rw [dif_pos h, if_pos h, ← encodePoint_eq]
    rfl
  · rw [dif_neg h, if_neg h]

theorem referenceNumber_names {name : Bytes} {v : Nat} (h : referenceNumber name = some v) :
    ∀ c ∈ name, isNameByte c = true := by
  unfold referenceNumber at h
  split at h
  · rename_i hhash
    obtain ⟨tail, rfl⟩ : ∃ tail, name = 0x23 :: tail := by
      cases name with
      | nil => cases hhash
      | cons c tail => exact ⟨tail, by rw [Option.some.inj hhash]⟩
    split at h
    · rename_i digits hdigits
      obtain ⟨c, x, hname, hx, -⟩ := hexPart_eq_some hdigits
      obtain ⟨rfl, rfl⟩ := List.cons.inj hname
      split at h
      · rename_i hall
        simp only [List.forall_mem_cons]
        refine ⟨by decide, ?_, fun c hc => ?_⟩
        · rcases hx with rfl | rfl <;> decide
        · exact isNameByte_of_isHexDigit c (List.all_eq_true.mp hall c hc)
      · cases h
    · split at h
      · rename_i hall
        rw [List.forall_mem_cons]
        exact ⟨by decide, fun c hc => isNameByte_of_isDigit (List.all_eq_true.mp hall.2 c hc)⟩
      · cases h
  · cases h

/-- What is known of a reference. -/
structure IsReference (name text : Bytes) : Prop where
  length : name.length ≤ 9
  bytes : ∀ c ∈ name, isNameByte c = true
  valid : Utf8 text
  ne_nil : text ≠ []
  alone : ∀ x rest, text ≠ 0x26 :: x :: rest

theorem reference_eq_some {name text : Bytes} (h : reference name = some text) :
    IsReference name text := by
  unfold reference at h
  split at h
  · rename_i hlength
    split at h
    · rename_i t hnamed
      obtain rfl := Option.some.inj h
      obtain ⟨hbytes, hvalid, hne, halone⟩ := namedEntities_lookup hnamed
      exact ⟨hlength, hbytes, hvalid, hne, halone⟩
    · obtain ⟨v, hv, htext⟩ := Option.bind_eq_some_iff.mp h
      rw [scalarText_eq] at htext
      split at htext
      · rename_i hscalar
        obtain rfl := Option.some.inj htext
        exact ⟨hlength, referenceNumber_names hv, utf8_encodePoint hscalar, encodePoint_ne_nil v,
          encodePoint_ne v⟩
      · cases htext
  · cases h

theorem IsReference.notMem {name text : Bytes} (h : IsReference name text) :
    0x26 ∉ name ∧ 0x3B ∉ name :=
  ⟨fun hmem => (isNameByte_ascii _ (h.bytes _ hmem)).1 rfl,
    fun hmem => (isNameByte_ascii _ (h.bytes _ hmem)).2.1 rfl⟩

theorem IsReference.utf8_name {name text : Bytes} (h : IsReference name text) : Utf8 name := by
  obtain ⟨-, hbytes, -⟩ := h
  induction name with
  | nil => exact utf8_nil
  | cons c name ih =>
    rw [List.forall_mem_cons] at hbytes
    exact Utf8.append (isNameByte_ascii c hbytes.1).2.2 (ih hbytes.2)

/-! ## 2. A text with its references replaced -/

/-- `t` is `s` with every reference replaced by what it denotes, and every other byte as it is. -/
inductive Decodes : Bytes → Bytes → Prop where
  | nil : Decodes [] []
  | reference {name text s t : Bytes} (h : reference name = some text) (rest : Decodes s t) :
      Decodes (0x26 :: (name ++ 0x3B :: s)) (text ++ t)
  | copy {c : UInt8} {s t : Bytes}
      (h : ∀ name rest, c = 0x26 → s = name ++ 0x3B :: rest → SimpleCoder.reference name = none)
      (rest : Decodes s t) : Decodes (c :: s) (c :: t)

/-- **Decoding keeps a text valid.** -/
theorem Decodes.valid_append {s t : Bytes} (h : Decodes s t) :
    ∀ p : Bytes, Utf8 (p ++ s) → Utf8 (p ++ t) := by
  induction h with
  | nil => exact fun _ => id
  | @reference name text s t hname _ ih =>
    intro p hp
    have href := reference_eq_some hname
    have hlead : ∀ b, ((0x26 : UInt8) :: (name ++ 0x3B :: s)).head? = some b →
        Utf8.isCont b = false := by
      intro b hb
      rw [← Option.some.inj hb]
      decide
    obtain ⟨hvalid, hrest⟩ := (Utf8.valid_append_iff hlead).mp hp
    have hname : Utf8 (0x26 :: name ++ [0x3B]) :=
      (Utf8.append (s := [0x26]) (by decide) href.utf8_name).append (by decide)
    have hsplit : (0x26 : UInt8) :: (name ++ 0x3B :: s) = (0x26 :: name ++ [0x3B]) ++ s := by simp
    rw [hsplit, Utf8.valid_append_iff_right hname] at hrest
    exact hvalid.append (href.valid.append (ih [] hrest))
  | @copy c s t _ _ ih =>
    intro p hp
    have h := ih (p ++ [c])
    simp only [List.append_assoc, List.singleton_append] at h
    exact h hp

theorem Decodes.valid {s t : Bytes} (h : Decodes s t) (hs : Utf8 s) : Utf8 t :=
  h.valid_append [] hs

/-- The stretch up to a `;` that has none, and the `;`, with the references replaced. -/
def decodedStretch : Bytes → Bytes
  | [] => [0x3B]
  | c :: u =>
    if c = 0x26 then
      match reference u with
      | some text => text
      | none => c :: decodedStretch u
    else c :: decodedStretch u

theorem decodedStretch_reference {u text : Bytes} (h : reference u = some text) :
    decodedStretch (0x26 :: u) = text := by
  simp [decodedStretch, h]

theorem decodedStretch_copy {c : UInt8} {u : Bytes} (h : c = 0x26 → reference u = none) :
    decodedStretch (c :: u) = c :: decodedStretch u := by
  rw [decodedStretch]
  split
  · rename_i hc
    rw [h hc]
  · rfl

theorem decodedStretch_ne_nil (u : Bytes) : decodedStretch u ≠ [] := by
  cases u with
  | nil => simp [decodedStretch]
  | cons c u =>
    by_cases h : c = 0x26 → reference u = none
    · rw [decodedStretch_copy h]
      simp
    · obtain ⟨rfl, href⟩ := Classical.not_imp.mp h
      obtain ⟨text, htext⟩ := Option.ne_none_iff_exists'.mp href
      rw [decodedStretch_reference htext]
      exact (reference_eq_some htext).ne_nil

/-- No reference is at the end of the stretch. -/
def NoneAtEnd (u : Bytes) : Prop := ∀ p name, u = p ++ 0x26 :: name → reference name = none

theorem noneAtEnd_cons_iff (c : UInt8) (u : Bytes) :
    NoneAtEnd (c :: u) ↔ (c = 0x26 → reference u = none) ∧ NoneAtEnd u := by
  constructor
  · intro h
    exact ⟨fun hc => h [] u (by rw [hc]; rfl),
      fun p name heq => h (c :: p) name (by rw [heq]; rfl)⟩
  · rintro ⟨hhead, htail⟩ p name heq
    cases p with
    | nil =>
      obtain ⟨hc, rfl⟩ := List.cons.inj heq
      exact hhead hc
    | cons d p => exact htail p name (List.cons.inj heq).2

/-- **A stretch stays as it is** exactly if no reference is at its end. -/
theorem decodedStretch_eq_iff (u : Bytes) : decodedStretch u = u ++ [0x3B] ↔ NoneAtEnd u := by
  induction u with
  | nil => simp [decodedStretch, NoneAtEnd]
  | cons c u ih =>
    rw [noneAtEnd_cons_iff]
    by_cases h : c = 0x26 → reference u = none
    · rw [decodedStretch_copy h, and_iff_right h, ← ih]
      simp
    · refine iff_of_false (fun heq => ?_) fun hnone => h hnone.1
      obtain ⟨rfl, href⟩ := Classical.not_imp.mp h
      obtain ⟨text, htext⟩ := Option.ne_none_iff_exists'.mp href
      rw [decodedStretch_reference htext] at heq
      cases u with
      | nil => exact (reference_eq_some htext).alone _ _ heq
      | cons x u => exact (reference_eq_some htext).alone _ _ heq

/-- A name that is followed by its `;` is all that is before the first `;`. -/
theorem eq_of_append_semicolon {u name s rest : Bytes} (hu : 0x3B ∉ u) (hname : 0x3B ∉ name)
    (h : u ++ 0x3B :: s = name ++ 0x3B :: rest) : u = name ∧ s = rest := by
  have hleft : Lines.takeLine 0x3B (u ++ 0x3B :: s) = some (u, s) :=
    Lines.takeLine_eq_some_iff.mpr ⟨hu, rfl⟩
  rw [Lines.takeLine_eq_some_iff.mpr ⟨hname, h⟩] at hleft
  cases hleft
  exact ⟨rfl, rfl⟩

/-- **A text that begins with a stretch** is decoded one behind the other. -/
theorem Decodes.stretch {u : Bytes} (hu : 0x3B ∉ u) {s t : Bytes} (h : Decodes s t) :
    Decodes (u ++ 0x3B :: s) (decodedStretch u ++ t) := by
  induction u with
  | nil => exact .copy (fun _ _ hc => absurd hc (by decide)) h
  | cons c u ih =>
    rw [List.mem_cons, not_or] at hu
    by_cases hcopy : c = 0x26 → SimpleCoder.reference u = none
    · rw [decodedStretch_copy hcopy]
      refine .copy (fun name rest hc heq => ?_) (ih hu.2)
      cases href : SimpleCoder.reference name with
      | none => rfl
      | some text =>
        obtain ⟨rfl, -⟩ := eq_of_append_semicolon hu.2 (reference_eq_some href).notMem.2 heq
        rw [hcopy hc] at href
        cases href
    · obtain ⟨rfl, href⟩ := Classical.not_imp.mp hcopy
      obtain ⟨text, htext⟩ := Option.ne_none_iff_exists'.mp href
      rw [decodedStretch_reference htext]
      exact .reference htext h

/-- **And only so.** -/
theorem Decodes.of_stretch {u : Bytes} (hu : 0x3B ∉ u) {s t : Bytes}
    (h : Decodes (u ++ 0x3B :: s) t) : ∃ t', t = decodedStretch u ++ t' ∧ Decodes s t' := by
  induction u generalizing t with
  | nil =>
    rw [List.nil_append] at h
    cases h with
    | copy _ h => exact ⟨_, rfl, h⟩
  | cons c u ih =>
    rw [List.mem_cons, not_or] at hu
    generalize hs : c :: u ++ 0x3B :: s = s' at h
    cases h with
    | nil => cases hs
    | @reference name text rest t htext h =>
      obtain ⟨rfl, htail⟩ := List.cons.inj hs
      obtain ⟨rfl, rfl⟩ :=
        eq_of_append_semicolon hu.2 (reference_eq_some htext).notMem.2 htail
      rw [decodedStretch_reference htext]
      exact ⟨t, rfl, h⟩
    | @copy d s' t hnone h =>
      obtain ⟨rfl, rfl⟩ := List.cons.inj hs
      obtain ⟨t', rfl, ht'⟩ := ih hu.2 h
      rw [decodedStretch_copy fun hc => hnone u s hc rfl]
      exact ⟨t', rfl, ht'⟩

end SimpleCoder

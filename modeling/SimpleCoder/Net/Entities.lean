/-
# What `decode_entities` makes of a text

The scan of the source goes from a `&` to the next `;` if that is near enough, and hands what is
between to `append_entity`.  This is right as long as every name that it hands over is `Harmless`
(§2), and only then: a name may hide a reference behind a second `&`, it may be taken for a
hexadecimal number without being one, and a number may be a surrogate (`decodesWell_iff`).
-/
import SimpleCoder.Net.References
import Mathlib.Data.List.TakeWhile

namespace SimpleCoder

/-! ## 1. The numbers of `append_entity` -/

/-- A value of a signed 32-bit integer. -/
def Fits (i : Int) : Prop := -2 ^ 31 ≤ i ∧ i < 2 ^ 31

theorem Fits.intCast_eq {i : Int} (h : Fits i) : intCast i = i := by
  unfold Fits at h
  unfold intCast
  rw [Int.bmod_def]
  omega

/-- The loops that read a number compute no product and no sum that does not fit. -/
def FoldFits (base : Int) (value : UInt8 → Int) : Int → Bytes → Prop
  | _, [] => True
  | cp, c :: cs =>
    Fits (cp * base) ∧ Fits (cp * base + value c) ∧ FoldFits base value (cp * base + value c) cs

theorem FoldFits.foldl_eq {base : Int} {value : UInt8 → Int} {digits : Bytes} {cp : Int}
    (h : FoldFits base value cp digits) :
    digits.foldl (fun cp c => intCast (cp * base + value c)) cp =
      digits.foldl (fun cp c => cp * base + value c) cp := by
  induction digits generalizing cp with
  | nil => rfl
  | cons c cs ih =>
    obtain ⟨-, hsum, hrest⟩ := h
    rw [List.foldl_cons, List.foldl_cons, hsum.intCast_eq, ih hrest]

theorem foldFits_append_iff {base : Int} {value : UInt8 → Int} (digits : Bytes) (c : UInt8)
    (cp : Int) :
    FoldFits base value cp (digits ++ [c]) ↔
      FoldFits base value cp digits ∧
        Fits (digits.foldl (fun cp c => cp * base + value c) cp * base) ∧
        Fits (digits.foldl (fun cp c => cp * base + value c) cp * base + value c) := by
  induction digits generalizing cp with
  | nil => simp [FoldFits]
  | cons d digits ih =>
    rw [List.cons_append, FoldFits, ih, FoldFits, List.foldl_cons, and_assoc, and_assoc]

/-- **Digits do not overflow** as long as there are not too many of them. -/
theorem foldFits_digits (base : Nat) {value : UInt8 → Int} (digits : Bytes) (n : Nat)
    (hvalue : ∀ c ∈ digits, value c = digitValue c ∧ digitValue c < base)
    (hbound : (n + 1) * base ^ digits.length ≤ 2 ^ 31) :
    FoldFits base value n digits ∧
      digits.foldl (fun cp c => cp * (base : Int) + value c) (n : Int) =
        (digits.foldl (fun n c => n * base + digitValue c) n : Nat) := by
  induction digits generalizing n with
  | nil => exact ⟨trivial, rfl⟩
  | cons c cs ih =>
    obtain ⟨⟨hc, hlt⟩, hcs⟩ := List.forall_mem_cons.mp hvalue
    have hbase : 0 < base := by omega
    have hstep : n * base + digitValue c + 1 ≤ (n + 1) * base := by
      rw [Nat.add_mul]
      omega
    have hnext : (n * base + digitValue c + 1) * base ^ cs.length ≤ 2 ^ 31 := by
      calc (n * base + digitValue c + 1) * base ^ cs.length
          ≤ (n + 1) * base * base ^ cs.length := Nat.mul_le_mul_right _ hstep
        _ = (n + 1) * base ^ (c :: cs).length := by
          rw [List.length_cons, pow_succ', Nat.mul_assoc]
        _ ≤ 2 ^ 31 := hbound
    have hfits : n * base + digitValue c < 2 ^ 31 := by
      have hpow : 0 < base ^ cs.length := Nat.pow_pos hbase
      have := Nat.le_mul_of_pos_right (n * base + digitValue c + 1) hpow
      omega
    obtain ⟨hrest, hsum⟩ := ih (n * base + digitValue c) hcs hnext
    have hcast : (n : Int) * base + value c = ((n * base + digitValue c : Nat) : Int) := by
      rw [hc]
      push_cast
      rfl
    have hproduct : (n : Int) * base = ((n * base : Nat) : Int) := by push_cast; rfl
    rw [FoldFits, List.foldl_cons, List.foldl_cons, hcast, hproduct]
    exact ⟨⟨by unfold Fits; omega, by unfold Fits; omega, hrest⟩, hsum⟩

/-- Any bytes, added up as the source adds up hexadecimal digits. -/
def hexSum (digits : Bytes) : Int := digits.foldl (fun n c => n * 16 + hexValue c) 0

theorem hexSum_append (digits : Bytes) (c : UInt8) :
    hexSum (digits ++ [c]) = hexSum digits * 16 + hexValue c := by
  simp [hexSum]

theorem hexValue_bounds : ∀ c : UInt8, -87 ≤ hexValue c ∧ hexValue c ≤ 168 :=
  Utf8.forall_byte (by decide)

theorem hexSum_bounds (digits : Bytes) :
    -87 * ((16 : Int) ^ digits.length - 1) ≤ 15 * hexSum digits ∧
      15 * hexSum digits ≤ 168 * ((16 : Int) ^ digits.length - 1) := by
  induction digits using List.reverseRecOn with
  | nil => simp [hexSum]
  | append_singleton digits c ih =>
    have hc := hexValue_bounds c
    rw [hexSum_append, List.length_append, List.length_singleton, pow_succ]
    omega

/-- The bounds for at most as many bytes. -/
theorem hexSum_bounds_of_le {digits : Bytes} {k : Nat} (h : digits.length ≤ k) :
    -87 * ((16 : Int) ^ k - 1) ≤ 15 * hexSum digits ∧
      15 * hexSum digits ≤ 168 * ((16 : Int) ^ k - 1) := by
  have hpow : (16 : Int) ^ digits.length ≤ 16 ^ k := pow_le_pow_right₀ (by decide) h
  have hbounds := hexSum_bounds digits
  omega

theorem foldFits_short {digits : Bytes} (h : digits.length ≤ 6) :
    FoldFits 16 hexValue 0 digits := by
  induction digits using List.reverseRecOn with
  | nil => trivial
  | append_singleton digits c ih =>
    rw [List.length_append, List.length_singleton] at h
    have hbounds := hexSum_bounds_of_le (show digits.length ≤ 5 by omega)
    have hc := hexValue_bounds c
    rw [foldFits_append_iff]
    change _ ∧ Fits (hexSum digits * 16) ∧ Fits (hexSum digits * 16 + hexValue c)
    exact ⟨ih (by omega), by unfold Fits; omega, by unfold Fits; omega⟩

/-- **When the hexadecimal loop overflows.** -/
theorem foldFits_iff {digits : Bytes} (h : digits.length ≤ 7) :
    FoldFits 16 hexValue 0 digits ↔
      hexSum digits.dropLast * 16 < 2 ^ 31 ∧ hexSum digits < 2 ^ 31 := by
  induction digits using List.reverseRecOn with
  | nil => simp [FoldFits, hexSum]
  | append_singleton digits c _ =>
    rw [List.length_append, List.length_singleton] at h
    have hbounds := hexSum_bounds_of_le (show digits.length ≤ 6 by omega)
    have hc := hexValue_bounds c
    rw [foldFits_append_iff, List.dropLast_concat, hexSum_append,
      and_iff_right (foldFits_short (by omega))]
    change Fits (hexSum digits * 16) ∧ Fits (hexSum digits * 16 + hexValue c) ↔ _
    unfold Fits
    omega

theorem hexSum_dropLast_lt {digits : Bytes} (h : hexSum digits < 0) :
    hexSum digits.dropLast * 16 < 2 ^ 31 := by
  induction digits using List.reverseRecOn with
  | nil => simp [hexSum]
  | append_singleton digits c _ =>
    have hc := hexValue_bounds c
    rw [hexSum_append] at h
    rw [List.dropLast_concat]
    omega

/-- What a decimal digit counts, as the source computes it. -/
def decimalValue (c : UInt8) : Int := (c.toNat : Int) - 0x30

/-- No signed computation of `append_entity` overflows on this name. -/
def InRange (name : Bytes) : Prop :=
  namedEntities.lookup name = none → name.head? = some 0x23 →
    match hexPart name with
    | some digits => FoldFits 16 hexValue 0 digits
    | none => FoldFits 10 decimalValue 0 (name.tail.takeWhile isDigit)

theorem hexValue_eq : ∀ c : UInt8, isHexDigit c = true →
    hexValue c = digitValue c ∧ digitValue c < 16 :=
  Utf8.forall_byte (by decide)

theorem decimalValue_eq : ∀ c : UInt8, isDigit c = true →
    decimalValue c = digitValue c ∧ digitValue c < 10 :=
  Utf8.forall_byte (by decide)

theorem codePoint_eq (name : Bytes) :
    codePoint name =
      match hexPart name with
      | some digits => digits.foldl (fun cp c => intCast (cp * 16 + hexValue c)) 0
      | none =>
        if name.tail ≠ [] ∧ name.tail.all isDigit = true then
          name.tail.foldl (fun cp c => intCast (cp * 10 + decimalValue c)) 0
        else -1 := by
  rcases name with _ | ⟨c, _ | ⟨x, _ | ⟨y, rest⟩⟩⟩
  · rfl
  · rfl
  · simp [codePoint, hexPart, codePoint.decimalPoint, decimalValue]
  · by_cases hx : x = 0x78 ∨ x = 0x58
    · simp [codePoint, hexPart, hx]
    · simp [codePoint, hexPart, hx, codePoint.decimalPoint, decimalValue]

theorem hexPart_length {name digits : Bytes} (hlength : name.length ≤ 9)
    (h : hexPart name = some digits) : digits.length ≤ 7 := by
  obtain ⟨c, x, rfl, -⟩ := hexPart_eq_some h
  simp only [List.length_cons] at hlength
  omega

theorem pow_le_two_pow {base k n : Nat} (hbase : 0 < base) (hk : k ≤ n) (h : base ^ n ≤ 2 ^ 31) :
    (0 + 1) * base ^ k ≤ 2 ^ 31 := by
  rw [Nat.zero_add, Nat.one_mul]
  exact (Nat.pow_le_pow_right hbase hk).trans h

/-- The decimal loop never overflows. -/
theorem inRange_of_hexPart_none {name : Bytes} (hlength : name.length ≤ 9)
    (h : hexPart name = none) : InRange name := by
  intro _ _
  rw [h]
  have hshort : (name.tail.takeWhile isDigit).length ≤ 8 := by
    have := (List.takeWhile_prefix isDigit (l := name.tail)).length_le
    rw [List.length_tail] at this
    omega
  exact (foldFits_digits 10 _ 0
    (fun c hc => decimalValue_eq c (List.mem_takeWhile_imp hc))
    (pow_le_two_pow (by decide) hshort (by decide))).1

/-- **The number of a numeric reference** is computed right, and without overflow. -/
theorem codePoint_of_referenceNumber {name : Bytes} {v : Nat} (hlength : name.length ≤ 9)
    (h : referenceNumber name = some v) :
    name.head? = some 0x23 ∧ codePoint name = v ∧ InRange name := by
  unfold referenceNumber at h
  split at h
  · rename_i hhash
    rw [codePoint_eq]
    cases hhex : hexPart name with
    | some digits =>
      rw [hhex] at h
      dsimp only at h
      split at h
      · rename_i hall
        -- hexadecimal: nine bytes at most, two of which are no digits
        obtain ⟨hfits, hsum⟩ := foldFits_digits 16 digits 0
          (fun c hc => hexValue_eq c (List.all_eq_true.mp hall c hc))
          (pow_le_two_pow (by decide) (hexPart_length hlength hhex) (by decide))
        refine ⟨hhash, ?_, fun _ _ => by rw [hhex]; exact hfits⟩
        rw [← Option.some.inj h]
        exact hfits.foldl_eq.trans hsum
      · cases h
    | none =>
      rw [hhex] at h
      refine ⟨hhash, ?_, inRange_of_hexPart_none hlength hhex⟩
      dsimp only at h ⊢
      split at h
      · rename_i hall
        -- decimal
        have hshort : name.tail.length ≤ 8 := by
          rw [List.length_tail]
          omega
        obtain ⟨hfits, hsum⟩ := foldFits_digits 10 name.tail 0
          (fun c hc => decimalValue_eq c (List.all_eq_true.mp hall.2 c hc))
          (pow_le_two_pow (by decide) hshort (by decide))
        rw [if_pos hall, ← Option.some.inj h]
        exact hfits.foldl_eq.trans hsum
      · cases h
  · cases h

/-! ## 2. `append_entity` -/

/-- The names that `append_entity` deals with as it is meant to. -/
structure Harmless (name : Bytes) : Prop where
  noneAtEnd : NoneAtEnd name
  /-- What looks like a hexadecimal number and is none does not come to a code point either. -/
  hex : ∀ digits, name.head? = some 0x23 → hexPart name = some digits →
    digits.all isHexDigit = false → hexSum digits < 0 ∨
      0x10FFFF < hexSum digits ∧ hexSum digits.dropLast * 16 < 2 ^ 31 ∧ hexSum digits < 2 ^ 31
  notSurrogate : ∀ v, referenceNumber name = some v → ¬ (0xD800 ≤ v ∧ v ≤ 0xDFFF)

/-- What the source writes for a name that is not in the table. -/
theorem entityText_eq {name : Bytes} (h : namedEntities.lookup name = none) :
    entityText name =
      if name.head? = some 0x23 ∧ 0 ≤ codePoint name ∧ codePoint name ≤ 0x10FFFF then
        encodePoint (codePoint name).toNat
      else 0x26 :: (name ++ [0x3B]) := by
  unfold entityText
  rw [h]
  dsimp only
  by_cases hhash : name.head? = some 0x23
  · simp only [hhash, true_and, if_true]
    rfl
  · rw [if_neg hhash, if_neg fun h => absurd h.1 (by decide), if_neg fun h => hhash h.1]
    rfl

theorem decodedStretch_ampersand {name : Bytes} (h : reference name = none) :
    decodedStretch (0x26 :: name) = 0x26 :: decodedStretch name :=
  decodedStretch_copy fun _ => h

/-- A name that is no reference is dealt with as it should be exactly if the source does not take it
for a number and no reference is at its end. -/
theorem entityText_eq_iff {name : Bytes} (hlookup : namedEntities.lookup name = none)
    (h : reference name = none) :
    entityText name = decodedStretch (0x26 :: name) ↔
      ¬ (name.head? = some 0x23 ∧ 0 ≤ codePoint name ∧ codePoint name ≤ 0x10FFFF) ∧
        NoneAtEnd name := by
  rw [entityText_eq hlookup, decodedStretch_ampersand h, ← decodedStretch_eq_iff]
  split
  · rename_i hnumber
    refine iff_of_false (fun heq => ?_) fun h => h.1 hnumber
    obtain ⟨x, rest, hrest⟩ := List.exists_cons_of_ne_nil (decodedStretch_ne_nil name)
    rw [hrest] at heq
    exact encodePoint_ne _ _ _ heq
  · rename_i hnumber
    rw [and_iff_right hnumber, List.cons.injEq, and_iff_right rfl]
    exact eq_comm

theorem all_isHexDigit_of_referenceNumber {name digits : Bytes} {v : Nat}
    (h : referenceNumber name = some v) (hhex : hexPart name = some digits) :
    digits.all isHexDigit = true := by
  unfold referenceNumber at h
  rw [hhex] at h
  split at h
  · dsimp only at h
    split at h
    · assumption
    · cases h
  · cases h

/-- A number that is no scalar value is a surrogate or too large. -/
theorem not_isValidChar {v : Nat} (h : scalarText v = none) : ¬ v.isValidChar := by
  intro hvalid
  rw [scalarText_eq, if_pos hvalid] at h
  cases h

/-- The one named reference that begins like a numeric one. -/
theorem eq_of_lookup {name text : Bytes} (hlookup : namedEntities.lookup name = some text)
    (hhead : name.head? = some 0x23) : name = bytes "#39" := by
  have htable : ∀ p ∈ namedEntities, p.1.head? = some 0x23 → p.1 = bytes "#39" := by
    decide +kernel
  obtain ⟨l, l', hl, -⟩ := List.lookup_eq_some_iff.mp hlookup
  exact htable (name, text) (by simp [hl]) hhead

theorem entity_of_named {name text : Bytes} (hlength : name.length ≤ 9)
    (hnone : NoneAtEnd name) (hlookup : namedEntities.lookup name = some text) :
    InRange name ∧ entityText name = text ∧ Harmless name := by
  refine ⟨fun hno => ?_, ?_, hnone, fun digits hhead hhex => ?_, fun v hv => ?_⟩
  · rw [hlookup] at hno
    cases hno
  · unfold entityText
    rw [hlookup]
  · have hno : hexPart (bytes "#39") = none := by decide
    rw [eq_of_lookup hlookup hhead, hno] at hhex
    cases hhex
  · have hnumber : referenceNumber (bytes "#39") = some 39 := by decide
    rw [eq_of_lookup hlookup (codePoint_of_referenceNumber hlength hv).1, hnumber] at hv
    obtain rfl := Option.some.inj hv
    decide

theorem entity_of_number {name : Bytes} {v : Nat} (hlength : name.length ≤ 9)
    (hnone : NoneAtEnd name) (hlookup : namedEntities.lookup name = none)
    (hv : referenceNumber name = some v) (hvalid : v.isValidChar) :
    InRange name ∧ entityText name = encodePoint v ∧ Harmless name := by
  have hle : v ≤ 0x10FFFF := by
    unfold Nat.isValidChar at hvalid
    omega
  obtain ⟨hhead, hcode, hrange⟩ := codePoint_of_referenceNumber hlength hv
  refine ⟨hrange, ?_, hnone, fun digits _ hhex hall => ?_, fun v' hv' => ?_⟩
  · rw [entityText_eq hlookup, hcode, if_pos ⟨hhead, by omega, by omega⟩, Int.toNat_natCast]
  · rw [all_isHexDigit_of_referenceNumber hv hhex] at hall
    cases hall
  · rw [hv] at hv'
    obtain rfl := Option.some.inj hv'
    unfold Nat.isValidChar at hvalid
    omega

/-- **The references are dealt with as they should be.** -/
theorem entity_of_reference {name text : Bytes} (h : reference name = some text) :
    InRange name ∧ entityText name = text ∧ Harmless name := by
  have href := reference_eq_some h
  have hnone : NoneAtEnd name := by
    rintro p t rfl
    exact absurd (List.mem_append_right p List.mem_cons_self) href.notMem.1
  unfold reference at h
  rw [if_pos href.length] at h
  cases hlookup : namedEntities.lookup name with
  | some t =>
    rw [hlookup] at h
    obtain rfl := Option.some.inj h
    exact entity_of_named href.length hnone hlookup
  | none =>
    rw [hlookup] at h
    obtain ⟨v, hv, htext⟩ := Option.bind_eq_some_iff.mp h
    rw [scalarText_eq] at htext
    split at htext
    · rename_i hvalid
      obtain rfl := Option.some.inj htext
      exact entity_of_number href.length hnone hlookup hv hvalid
    · cases htext

/-- The number of a numeric reference that is no scalar value. -/
theorem number_right_iff {name : Bytes} {v : Nat} (hlength : name.length ≤ 9)
    (hlookup : namedEntities.lookup name = none) (href : reference name = none)
    (hnumber : referenceNumber name = some v) (hvalid : ¬ v.isValidChar) :
    InRange name ∧ entityText name = decodedStretch (0x26 :: name) ↔ Harmless name := by
  unfold Nat.isValidChar at hvalid
  obtain ⟨hhead, hcode, hrange⟩ := codePoint_of_referenceNumber hlength hnumber
  rw [entityText_eq_iff hlookup href, and_iff_right hrange, hcode]
  constructor
  · rintro ⟨hlarge, hnone⟩
    refine ⟨hnone, fun digits _ hhex hall => ?_, fun v' hv' => ?_⟩
    · rw [all_isHexDigit_of_referenceNumber hnumber hhex] at hall
      cases hall
    · rw [hnumber] at hv'
      obtain rfl := Option.some.inj hv'
      exact fun hsurrogate => hlarge ⟨hhead, by omega, by omega⟩
  · intro h
    have hsurrogate := h.notSurrogate v hnumber
    exact ⟨fun hlarge => by omega, h.noneAtEnd⟩

/-- A name that only looks like a hexadecimal number. -/
theorem falseHex_right_iff {name digits : Bytes} (hlength : name.length ≤ 9)
    (hlookup : namedEntities.lookup name = none) (href : reference name = none)
    (hhead : name.head? = some 0x23) (hhex : hexPart name = some digits)
    (hnumber : referenceNumber name = none) :
    InRange name ∧ entityText name = decodedStretch (0x26 :: name) ↔ Harmless name := by
  have hrange : InRange name ↔ FoldFits 16 hexValue 0 digits := by
    unfold InRange
    rw [hhex]
    exact ⟨fun h => h hlookup hhead, fun h _ _ => h⟩
  have hall : digits.all isHexDigit = false := by
    unfold referenceNumber at hnumber
    rw [if_pos hhead, hhex] at hnumber
    cases hdigits : digits.all isHexDigit with
    | false => rfl
    | true => simp [hdigits] at hnumber
  have hcode : FoldFits 16 hexValue 0 digits → codePoint name = hexSum digits := by
    intro h
    rw [codePoint_eq, hhex]
    exact h.foldl_eq
  have hsum := foldFits_iff (hexPart_length hlength hhex)
  rw [hrange, entityText_eq_iff hlookup href]
  constructor
  · -- it is copied, so the sum was out of the range of characters
    rintro ⟨hfits, hlarge, hnone⟩
    rw [hcode hfits] at hlarge
    refine ⟨hnone, fun digits' _ hhex' _ => ?_, fun v hv => ?_⟩
    · rw [hhex] at hhex'
      obtain rfl := Option.some.inj hhex'
      have hbound := hsum.mp hfits
      by_cases hneg : hexSum digits < 0
      · exact Or.inl hneg
      · exact Or.inr ⟨by_contra fun hle => hlarge ⟨hhead, by omega, by omega⟩, hbound⟩
    · rw [hnumber] at hv
      cases hv
  · intro h
    have hbound := h.hex digits hhead hhex hall
    have hfits : FoldFits 16 hexValue 0 digits := by
      rw [hsum]
      rcases hbound with hneg | hbound
      · exact ⟨hexSum_dropLast_lt hneg, by omega⟩
      · exact hbound.2
    refine ⟨hfits, fun hlarge => ?_, h.noneAtEnd⟩
    rw [hcode hfits] at hlarge
    omega

/-- A name that is no number. -/
theorem other_right_iff {name : Bytes} (hlength : name.length ≤ 9)
    (hlookup : namedEntities.lookup name = none) (href : reference name = none)
    (hhex : name.head? = some 0x23 → hexPart name = none) (hnumber : referenceNumber name = none) :
    InRange name ∧ entityText name = decodedStretch (0x26 :: name) ↔ Harmless name := by
  have hrange : InRange name := fun hlookup hhead =>
    inRange_of_hexPart_none hlength (hhex hhead) hlookup hhead
  have hcode : name.head? = some 0x23 → codePoint name = -1 := by
    intro hhead
    unfold referenceNumber at hnumber
    rw [if_pos hhead, hhex hhead] at hnumber
    rw [codePoint_eq, hhex hhead]
    dsimp only at hnumber ⊢
    rw [if_neg fun h => by rw [if_pos h] at hnumber; cases hnumber]
  rw [entityText_eq_iff hlookup href, and_iff_right hrange]
  constructor
  · rintro ⟨-, hnone⟩
    refine ⟨hnone, fun digits hhead hdigits _ => ?_, fun v hv => ?_⟩
    · rw [hhex hhead] at hdigits
      cases hdigits
    · rw [hnumber] at hv
      cases hv
  · intro h
    refine ⟨fun ⟨hhead, hpos, _⟩ => ?_, h.noneAtEnd⟩
    rw [hcode hhead] at hpos
    exact absurd hpos (by decide)

/-- **When a name is dealt with as it should be**, without an overflow on the way. -/
theorem entity_right_iff {name : Bytes} (hlength : name.length ≤ 9) :
    InRange name ∧ entityText name = decodedStretch (0x26 :: name) ↔ Harmless name := by
  cases href : reference name with
  | some text =>
    obtain ⟨hrange, htext, hharmless⟩ := entity_of_reference href
    rw [decodedStretch_reference href]
    exact iff_of_true ⟨hrange, htext⟩ hharmless
  | none =>
    have hno := href
    unfold reference at hno
    rw [if_pos hlength] at hno
    cases hlookup : namedEntities.lookup name with
    | some t =>
      rw [hlookup] at hno
      cases hno
    | none =>
      rw [hlookup] at hno
      cases hnumber : referenceNumber name with
      | some v =>
        rw [hnumber] at hno
        exact number_right_iff hlength hlookup href hnumber (not_isValidChar hno)
      | none =>
        by_cases hhex : name.head? = some 0x23 → hexPart name = none
        · exact other_right_iff hlength hlookup href hhex hnumber
        · obtain ⟨hhead, hsome⟩ := Classical.not_imp.mp hhex
          obtain ⟨digits, hdigits⟩ := Option.ne_none_iff_exists'.mp hsome
          exact falseHex_right_iff hlength hlookup href hhead hdigits hnumber

/-! ## 3. `decode_entities` -/

/-- The names that `decode_entities` calls `append_entity` with. -/
def entityCalls : Nat → Bytes → List Bytes
  | 0, _ => []
  | _ + 1, [] => []
  | n + 1, c :: cs =>
    if c = 0x26 then
      match Lines.takeLine 0x3B cs with
      | some (name, rest) =>
        if name.length + 1 ≤ 10 then name :: entityCalls n rest else entityCalls n cs
      | none => entityCalls n cs
    else entityCalls n cs

/-- The text begins with a name that is handed to `append_entity`. -/
def Handed (c : UInt8) (cs name rest : Bytes) : Prop :=
  c = 0x26 ∧ Lines.takeLine 0x3B cs = some (name, rest) ∧ name.length ≤ 9

theorem decodeEntities_handed {c : UInt8} {cs name rest : Bytes} (h : Handed c cs name rest)
    (n : Nat) :
    decodeEntities (n + 1) (c :: cs) = entityText name ++ decodeEntities n rest ∧
      entityCalls (n + 1) (c :: cs) = name :: entityCalls n rest := by
  obtain ⟨rfl, htake, hlength⟩ := h
  have hshort : name.length + 1 ≤ 10 := by omega
  simp [decodeEntities, entityCalls, htake, hshort]

theorem decodeEntities_copied {c : UInt8} {cs : Bytes} (h : ∀ name rest, ¬ Handed c cs name rest)
    (n : Nat) :
    decodeEntities (n + 1) (c :: cs) = c :: decodeEntities n cs ∧
      entityCalls (n + 1) (c :: cs) = entityCalls n cs := by
  rw [decodeEntities, entityCalls]
  by_cases hc : c = 0x26
  · rw [if_pos hc, if_pos hc]
    cases htake : Lines.takeLine 0x3B cs with
    | none => exact ⟨rfl, rfl⟩
    | some p =>
      obtain ⟨name, rest⟩ := p
      dsimp only
      have hlong : ¬ name.length + 1 ≤ 10 := fun hshort => h name rest ⟨hc, htake, by omega⟩
      rw [if_neg hlong, if_neg hlong]
      exact ⟨rfl, rfl⟩
  · rw [if_neg hc, if_neg hc]
    exact ⟨rfl, rfl⟩

theorem Handed.eq {c : UInt8} {cs name rest : Bytes} (h : Handed c cs name rest) :
    0x3B ∉ name ∧ c :: cs = (0x26 :: name) ++ 0x3B :: rest := by
  obtain ⟨rfl, htake, -⟩ := h
  obtain ⟨hname, rfl⟩ := Lines.takeLine_eq_some_iff.mp htake
  exact ⟨hname, rfl⟩

theorem Handed.length_lt {c : UInt8} {cs name rest : Bytes} (h : Handed c cs name rest) :
    rest.length < cs.length := by
  have hlength := congrArg List.length h.eq.2
  simp only [List.cons_append, List.length_cons, List.length_append] at hlength
  omega

/-- More rounds than there are bytes change nothing. -/
theorem decodeEntities_rounds {n : Nat} {s : Bytes} (h : s.length ≤ n) :
    decodeEntities n s = decodeEntities s.length s ∧ entityCalls n s = entityCalls s.length s := by
  induction n using Nat.strong_induction_on generalizing s with
  | _ n ih =>
    cases s with
    | nil => cases n <;> exact ⟨rfl, rfl⟩
    | cons c cs =>
      rw [List.length_cons] at h ⊢
      obtain ⟨n, rfl⟩ : ∃ m, n = m + 1 := ⟨n - 1, by omega⟩
      by_cases hhanded : ∃ name rest, Handed c cs name rest
      · obtain ⟨name, rest, hhanded⟩ := hhanded
        have hlt := hhanded.length_lt
        obtain ⟨htext, hcalls⟩ := decodeEntities_handed hhanded n
        obtain ⟨htext', hcalls'⟩ := decodeEntities_handed hhanded cs.length
        obtain ⟨ih₁, ih₂⟩ := ih n (by omega) (s := rest) (by omega)
        obtain ⟨ih₁', ih₂'⟩ := ih cs.length (by omega) (s := rest) (by omega)
        rw [htext, hcalls, htext', hcalls', ih₁, ih₂, ih₁', ih₂']
        exact ⟨rfl, rfl⟩
      · have hnone : ∀ name rest, ¬ Handed c cs name rest := fun name rest h =>
          hhanded ⟨name, rest, h⟩
        obtain ⟨htext, hcalls⟩ := decodeEntities_copied hnone n
        obtain ⟨htext', hcalls'⟩ := decodeEntities_copied hnone cs.length
        obtain ⟨ih₁, ih₂⟩ := ih n (by omega) (s := cs) (by omega)
        rw [htext, hcalls, htext', hcalls', ih₁, ih₂]
        exact ⟨rfl, rfl⟩

/-- `decode_entities` on a whole text. -/
def decoded (s : Bytes) : Bytes := decodeEntities s.length s

/-- The names that it hands over. -/
def handedNames (s : Bytes) : List Bytes := entityCalls s.length s

theorem decoded_handed {c : UInt8} {cs name rest : Bytes} (h : Handed c cs name rest) :
    decoded (c :: cs) = entityText name ++ decoded rest ∧
      handedNames (c :: cs) = name :: handedNames rest := by
  obtain ⟨htext, hcalls⟩ := decodeEntities_handed h cs.length
  obtain ⟨htext', hcalls'⟩ := decodeEntities_rounds h.length_lt.le
  rw [htext'] at htext
  rw [hcalls'] at hcalls
  exact ⟨htext, hcalls⟩

theorem decoded_copied {c : UInt8} {cs : Bytes} (h : ∀ name rest, ¬ Handed c cs name rest) :
    decoded (c :: cs) = c :: decoded cs ∧ handedNames (c :: cs) = handedNames cs :=
  decodeEntities_copied h cs.length

/-- What decoding a text is meant to do: replace the references and nothing else, compute without
overflow, and keep the text valid. -/
structure DecodesWell (s : Bytes) : Prop where
  replaces : Decodes s (decoded s)
  inRange : ∀ name ∈ handedNames s, InRange name
  valid : Utf8 s → Utf8 (decoded s)

/-- A reference at the beginning is handed over. -/
theorem handed_of_reference {c : UInt8} {cs name rest text : Bytes} (hc : c = 0x26)
    (hcs : cs = name ++ 0x3B :: rest) (h : reference name = some text) : Handed c cs name rest :=
  ⟨hc, Lines.takeLine_eq_some_iff.mpr ⟨(reference_eq_some h).notMem.2, hcs⟩,
    (reference_eq_some h).length⟩

/-- Where nothing is handed over there is no reference. -/
theorem reference_eq_none_of_copied {c : UInt8} {cs : Bytes}
    (h : ∀ name rest, ¬ Handed c cs name rest) :
    ∀ name rest, c = 0x26 → cs = name ++ 0x3B :: rest → reference name = none := by
  intro name rest hc hcs
  cases href : reference name with
  | none => rfl
  | some text => exact absurd (handed_of_reference hc hcs href) (h name rest)

/-- A name that is handed over at the beginning of a text is so in every longer one. -/
theorem Handed.mono {c : UInt8} {cs cs' name rest : Bytes} (h : Handed c cs name rest)
    (hcs : cs <+: cs') : ∃ rest', Handed c cs' name rest' ∧ rest <+: rest' := by
  obtain ⟨hc, htake, hlength⟩ := h
  obtain ⟨hname, rfl⟩ := Lines.takeLine_eq_some_iff.mp htake
  obtain ⟨more, rfl⟩ := hcs
  refine ⟨rest ++ more, ⟨hc, Lines.takeLine_eq_some_iff.mpr ⟨hname, ?_⟩, hlength⟩,
    List.prefix_append _ _⟩
  simp

theorem handedNames_of_notMem {s : Bytes} (h : 0x3B ∉ s) : handedNames s = [] := by
  induction s with
  | nil => rfl
  | cons c cs ih =>
    rw [List.mem_cons, not_or] at h
    rw [(decoded_copied fun name rest hhanded => ?_).2, ih h.2]
    rw [(Lines.takeLine_eq_some_iff.mp hhanded.2.1).2] at h
    exact h.2 (List.mem_append_right _ List.mem_cons_self)

/-- **Induction along the scan.** -/
theorem scan_induction {P : Bytes → Prop} (nil : P [])
    (handed : ∀ c cs name rest, Handed c cs name rest → P rest → P (c :: cs))
    (copied : ∀ c cs, (∀ name rest, ¬ Handed c cs name rest) → P cs → P (c :: cs)) (s : Bytes) :
    P s := by
  induction hlength : s.length using Nat.strong_induction_on generalizing s with
  | _ n ih =>
    cases s with
    | nil => exact nil
    | cons c cs =>
      rw [List.length_cons] at hlength
      by_cases hhanded : ∃ name rest, Handed c cs name rest
      · obtain ⟨name, rest, hhanded⟩ := hhanded
        have hlt := hhanded.length_lt
        exact handed c cs name rest hhanded (ih _ (by omega) rest rfl)
      · exact copied c cs (fun name rest h => hhanded ⟨name, rest, h⟩) (ih _ (by omega) cs rfl)

/-- A text that ends before the `;` of the name hands over nothing. -/
theorem notMem_of_not_handed {c : UInt8} {b more name rest : Bytes}
    (h : Handed c (b ++ more) name rest) (hnone : ∀ name rest, ¬ Handed c b name rest) :
    0x3B ∉ c :: b := by
  rw [List.mem_cons, not_or]
  refine ⟨fun hc => absurd (h.1.symm.trans hc.symm) (by decide), fun hmem => ?_⟩
  cases htake : Lines.takeLine 0x3B b with
  | none => exact Lines.takeLine_eq_none_iff.mp htake hmem
  | some p =>
    obtain ⟨name', rest'⟩ := p
    obtain ⟨hname', rfl⟩ := Lines.takeLine_eq_some_iff.mp htake
    have hwhole := (Lines.takeLine_eq_some_iff.mp h.2.1)
    rw [List.append_assoc, List.cons_append] at hwhole
    obtain ⟨rfl, -⟩ := eq_of_append_semicolon hname' hwhole.1 hwhole.2
    exact hnone _ _ ⟨h.1, htake, h.2.2⟩

/-- **The names of a beginning** are the first names of the whole. -/
theorem handedNames_mono (s : Bytes) : ∀ a, a <+: s → handedNames a <+: handedNames s := by
  induction s using scan_induction with
  | nil =>
    intro a h
    rw [List.prefix_nil.mp h]
  | handed c cs name rest hhanded ih =>
    intro a h
    cases a with
    | nil => exact List.nil_prefix
    | cons d b =>
      obtain ⟨rfl, hb⟩ := List.cons_prefix_cons.mp h
      by_cases hinside : ∃ name' rest', Handed d b name' rest'
      · obtain ⟨name', rest', hinside⟩ := hinside
        obtain ⟨rest'', hwhole, hrest⟩ := hinside.mono hb
        cases hhanded.2.1.symm.trans hwhole.2.1
        rw [(decoded_handed hinside).2, (decoded_handed hhanded).2]
        exact List.cons_prefix_cons.mpr ⟨rfl, ih _ hrest⟩
      · -- the beginning ends inside the name
        obtain ⟨more, rfl⟩ := hb
        rw [handedNames_of_notMem (notMem_of_not_handed hhanded fun name rest h =>
          hinside ⟨name, rest, h⟩)]
        exact List.nil_prefix
  | copied c cs hnone ih =>
    intro a h
    cases a with
    | nil => exact List.nil_prefix
    | cons d b =>
      obtain ⟨rfl, hb⟩ := List.cons_prefix_cons.mp h
      -- a name in the beginning would be one in the whole
      have hnone' : ∀ name rest, ¬ Handed d b name rest := fun name rest h =>
        have ⟨rest', h', _⟩ := h.mono hb
        hnone name rest' h'
      rw [(decoded_copied hnone).2, (decoded_copied hnone').2]
      exact ih b hb

theorem length_of_mem_handedNames (s : Bytes) : ∀ name ∈ handedNames s, name.length ≤ 9 := by
  induction s using scan_induction with
  | nil =>
    intro name hname
    cases hname
  | handed c cs name rest hhanded ih =>
    rw [(decoded_handed hhanded).2, List.forall_mem_cons]
    exact ⟨hhanded.2.2, ih⟩
  | copied c cs hnone ih =>
    rw [(decoded_copied hnone).2]
    exact ih

/-- **The scan is right** if every name it hands over is harmless. -/
theorem decodes_of_harmless (s : Bytes) :
    (∀ name ∈ handedNames s, Harmless name) → Decodes s (decoded s) := by
  induction s using scan_induction with
  | nil => exact fun _ => .nil
  | handed c cs name rest hhanded ih =>
    intro h
    obtain ⟨htext, hnames⟩ := decoded_handed hhanded
    rw [hnames, List.forall_mem_cons] at h
    have hright := ((entity_right_iff hhanded.2.2).mpr h.1).2
    obtain ⟨hname, hsplit⟩ := hhanded.eq
    rw [htext, hsplit, hright]
    have hstretch : 0x3B ∉ (0x26 : UInt8) :: name := by
      rw [List.mem_cons, not_or]
      exact ⟨by decide, hname⟩
    exact (ih h.2).stretch hstretch
  | copied c cs hnone ih =>
    intro h
    obtain ⟨htext, hnames⟩ := decoded_copied hnone
    rw [hnames] at h
    rw [htext]
    exact .copy (reference_eq_none_of_copied hnone) (ih h)

/-- The beginnings that end behind a name that is handed over. -/
theorem decodes_behind_name {name rest b : Bytes} (hname : 0x3B ∉ name) (hlength : name.length ≤ 9)
    (hdecodes : ∀ a, a <+: 0x26 :: (name ++ 0x3B :: rest) → Decodes a (decoded a))
    (hb : b <+: rest) :
    ∃ t, entityText name ++ decoded b = decodedStretch (0x26 :: name) ++ t ∧ Decodes b t := by
  have hstretch : 0x3B ∉ (0x26 : UInt8) :: name := by
    rw [List.mem_cons, not_or]
    exact ⟨by decide, hname⟩
  have hhanded : Handed 0x26 (name ++ 0x3B :: b) name b :=
    ⟨rfl, Lines.takeLine_eq_some_iff.mpr ⟨hname, rfl⟩, hlength⟩
  obtain ⟨more, rfl⟩ := hb
  have hd := hdecodes ((0x26 :: name) ++ 0x3B :: b) ⟨more, by simp⟩
  rw [List.cons_append, (decoded_handed hhanded).1] at hd
  exact hd.of_stretch hstretch

/-- The beginnings that end behind a byte that is copied. -/
theorem decodes_behind_copied {c : UInt8} {cs b : Bytes}
    (hnone : ∀ name rest, ¬ Handed c cs name rest)
    (hdecodes : ∀ a, a <+: c :: cs → Decodes a (decoded a)) (hb : b <+: cs) :
    Decodes b (decoded b) := by
  have hnone' : ∀ name rest, ¬ Handed c b name rest := fun name rest h =>
    have ⟨rest', h', _⟩ := h.mono hb
    hnone name rest' h'
  have hd := hdecodes (c :: b) (List.cons_prefix_cons.mpr ⟨rfl, hb⟩)
  rw [(decoded_copied hnone').1] at hd
  generalize hs : c :: b = s at hd
  generalize ht : c :: decoded b = t at hd
  cases hd with
  | nil => cases hs
  | reference href _ =>
    obtain ⟨rfl, hb⟩ := List.cons.inj hs
    exact absurd (handed_of_reference rfl hb href) (hnone' _ _)
  | copy _ hd =>
    cases hs
    cases ht
    exact hd

/-- **And only then**, if every beginning of the text is to be decoded right as well. -/
theorem harmless_of_decodes (s : Bytes) :
    (∀ a, a <+: s → Decodes a (decoded a)) → (∀ name ∈ handedNames s, InRange name) →
      ∀ name ∈ handedNames s, Harmless name := by
  induction s using scan_induction with
  | nil =>
    intro _ _ name hname
    cases hname
  | handed c cs name rest hhanded ih =>
    intro hdecodes hrange
    obtain ⟨-, hnames⟩ := decoded_handed hhanded
    rw [hnames, List.forall_mem_cons] at hrange ⊢
    obtain ⟨hname, hsplit⟩ := hhanded.eq
    rw [hsplit] at hdecodes
    -- nothing is behind the name, so what is written for it is what should be
    obtain ⟨t, htext, ht⟩ := decodes_behind_name hname hhanded.2.2 hdecodes List.nil_prefix
    cases ht
    have hright : entityText name = decodedStretch (0x26 :: name) := by
      simpa [decoded, decodeEntities] using htext
    refine ⟨(entity_right_iff hhanded.2.2).mp ⟨hrange.1, hright⟩, ih (fun b hb => ?_) hrange.2⟩
    obtain ⟨t, htext, ht⟩ := decodes_behind_name hname hhanded.2.2 hdecodes hb
    rw [hright] at htext
    rwa [List.append_cancel_left htext]
  | copied c cs hnone ih =>
    intro hdecodes hrange
    obtain ⟨-, hnames⟩ := decoded_copied hnone
    rw [hnames] at hrange ⊢
    exact ih (fun b hb => decodes_behind_copied hnone hdecodes hb) hrange

/-- **When a text is decoded as it should be**, with all its beginnings. -/
theorem decodesWell_iff (s : Bytes) :
    (∀ a, a <+: s → DecodesWell a) ↔ ∀ name ∈ handedNames s, Harmless name := by
  constructor
  · intro h
    exact harmless_of_decodes s (fun a ha => (h a ha).replaces)
      (h s (List.prefix_refl s)).inRange
  · intro h a ha
    have hnames := (handedNames_mono s a ha).subset
    have hdecodes := decodes_of_harmless a fun name hname => h name (hnames hname)
    exact ⟨hdecodes, fun name hname => ((entity_right_iff (length_of_mem_handedNames a name
      hname)).mpr (h name (hnames hname))).1, hdecodes.valid⟩

/-- A name that overflows: seven bytes that count 168 each. -/
def overflowingName : Bytes := 0x23 :: 0x78 :: List.replicate 7 0xFF

/-- **What goes wrong**: a reference behind another `&` is not seen, a surrogate is encoded, and a
name can be made to overflow. -/
theorem decoding_goes_wrong :
    ¬ DecodesWell (bytes "& &amp;") ∧ ¬ DecodesWell (bytes "&#xD800;") ∧
      ¬ DecodesWell (0x26 :: overflowingName ++ [0x3B]) := by
  refine ⟨fun h => ?_, fun h => ?_, fun h => ?_⟩
  · have htext : decoded (bytes "& &amp;") = bytes "& &amp;" := by decide +kernel
    have hsplit : bytes "& &amp;" = bytes "& &amp" ++ 0x3B :: [] := by decide
    have hd := h.replaces
    rw [htext] at hd
    nth_rewrite 1 [hsplit] at hd
    obtain ⟨t, ht, hnil⟩ := hd.of_stretch (by decide)
    cases hnil
    exact absurd ht (by decide +kernel)
  · exact absurd (h.valid (utf8_bytes _)) (by decide +kernel)
  · have hmem : overflowingName ∈ handedNames (0x26 :: overflowingName ++ [0x3B]) := by
      decide +kernel
    have hfits : FoldFits 16 hexValue 0 (List.replicate 7 0xFF) :=
      h.inRange _ hmem (by decide +kernel) (by decide)
    exact absurd ((foldFits_iff (by decide)).mp hfits).2 (by decide +kernel)

end SimpleCoder

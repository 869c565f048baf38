/-
# Strings in JSON texts

`dump` escapes a string byte by byte, and the lexer decodes it and checks that it is UTF-8, by a
table of the bytes that may follow each other.

* §1: `encode` in numbers, for each length of a sequence.
* §2: the table has exactly the encodings of characters (`inRanges_iff`).
* §3: an escaped string is read back (`scanString_escaped`).
* §4: whatever is read is valid (`scanString_valid`).
-/
import SimpleCoder.Json.Lexer

namespace SimpleCoder

/-! ## 1. The bytes of a character in numbers -/

namespace Utf8

theorem toNat_cont : ∀ x : UInt8, (x &&& 0x3F ||| 0x80).toNat = 0x80 + x.toNat % 64 :=
  forall_byte (by decide)

theorem toNat_contByte (v : UInt32) : (contByte v).toNat = 0x80 + v.toNat % 64 := by
  rw [contByte_eq, toNat_cont, UInt32.toNat_toUInt8]
  omega

theorem or_lead_two : ∀ x : UInt8, x.toNat < 0x20 → ((0xC0 : UInt8) ||| x).toNat = 0xC0 + x.toNat :=
  forall_byte (by decide)

theorem or_lead_three :
    ∀ x : UInt8, x.toNat < 0x10 → ((0xE0 : UInt8) ||| x).toNat = 0xE0 + x.toNat :=
  forall_byte (by decide)

theorem or_lead_four :
    ∀ x : UInt8, x.toNat < 0x08 → ((0xF0 : UInt8) ||| x).toNat = 0xF0 + x.toNat :=
  forall_byte (by decide)

theorem toNat_shiftRight_byte (v : UInt32) (k bound : Nat) (hk : k < 32)
    (hv : v.toNat / 2 ^ k < bound) (hbound : bound ≤ 256) :
    (v >>> k.toUInt32).toUInt8.toNat = v.toNat / 2 ^ k := by
  have hshift : k.toUInt32.toNat = k := by
    rw [Nat.toUInt32_eq, UInt32.toNat_ofNat', Nat.mod_eq_of_lt (by omega)]
  rw [UInt32.toNat_toUInt8, UInt32.toNat_shiftRight, hshift, Nat.mod_eq_of_lt hk,
    Nat.shiftRight_eq_div_pow, Nat.mod_eq_of_lt (by omega)]

/-- A sequence of bytes by their numbers. -/
theorem eq_of_map_toNat {s t : Bytes} (h : s.map UInt8.toNat = t.map UInt8.toNat) : s = t :=
  List.map_injective_iff.mpr (fun _ _ => UInt8.toNat_inj.mp) h

/-- The number of a continuation byte that carries higher bits. -/
theorem toNat_contByte_shiftRight (v : UInt32) (k : Nat) (hk : k < 32) :
    (contByte (v >>> k.toUInt32)).toNat = 0x80 + v.toNat / 2 ^ k % 64 := by
  have hshift : k.toUInt32.toNat = k := by
    rw [Nat.toUInt32_eq, UInt32.toNat_ofNat', Nat.mod_eq_of_lt (by omega)]
  rw [toNat_contByte, UInt32.toNat_shiftRight, hshift, Nat.mod_eq_of_lt hk,
    Nat.shiftRight_eq_div_pow]

section

variable {v : UInt32}

theorem encode_one (h : v.toNat < 0x80) : encode v = [v.toUInt8] := by
  unfold encode
  rw [if_pos (by rw [UInt32.le_iff_toNat_le]; exact Nat.le_of_lt_succ h)]

theorem toNat_encode_two (hlo : 0x80 ≤ v.toNat) (hhi : v.toNat < 0x800) :
    (encode v).map UInt8.toNat = [0xC0 + v.toNat / 64, 0x80 + v.toNat % 64] := by
  have hlead := toNat_shiftRight_byte v 6 0x20 (by decide) (by omega) (by decide)
  have hor := or_lead_two (v >>> (6 : Nat).toUInt32).toUInt8 (by rw [hlead]; omega)
  unfold encode
  rw [if_neg (by rw [UInt32.le_iff_toNat_le]; simp only [UInt32.reduceToNat]; omega),
    if_pos (by rw [UInt32.le_iff_toNat_le]; simp only [UInt32.reduceToNat]; omega)]
  rw [UInt32.toUInt8_or, List.map_cons, List.map_cons, List.map_nil]
  rw [hlead] at hor
  exact congrArg₂ _ hor (congrArg₂ _ (toNat_contByte v) rfl)

theorem toNat_encode_three (hlo : 0x800 ≤ v.toNat) (hhi : v.toNat < 0x10000) :
    (encode v).map UInt8.toNat =
      [0xE0 + v.toNat / 4096, 0x80 + v.toNat / 64 % 64, 0x80 + v.toNat % 64] := by
  have hlead := toNat_shiftRight_byte v 12 0x10 (by decide) (by omega) (by decide)
  have hor := or_lead_three (v >>> (12 : Nat).toUInt32).toUInt8 (by rw [hlead]; omega)
  unfold encode
  rw [if_neg (by rw [UInt32.le_iff_toNat_le]; simp only [UInt32.reduceToNat]; omega),
    if_neg (by rw [UInt32.le_iff_toNat_le]; simp only [UInt32.reduceToNat]; omega),
    if_pos (by rw [UInt32.le_iff_toNat_le]; simp only [UInt32.reduceToNat]; omega)]
  rw [UInt32.toUInt8_or, List.map_cons, List.map_cons, List.map_cons, List.map_nil]
  rw [hlead] at hor
  exact congrArg₂ _ hor (congrArg₂ _ (toNat_contByte_shiftRight v 6 (by decide))
    (congrArg₂ _ (toNat_contByte v) rfl))

theorem toNat_encode_four (hlo : 0x10000 ≤ v.toNat) (hhi : v.toNat < 0x200000) :
    (encode v).map UInt8.toNat =
      [0xF0 + v.toNat / 262144, 0x80 + v.toNat / 4096 % 64, 0x80 + v.toNat / 64 % 64,
        0x80 + v.toNat % 64] := by
  have hlead := toNat_shiftRight_byte v 18 0x08 (by decide) (by omega) (by decide)
  have hor := or_lead_four (v >>> (18 : Nat).toUInt32).toUInt8 (by rw [hlead]; omega)
  unfold encode
  rw [if_neg (by rw [UInt32.le_iff_toNat_le]; simp only [UInt32.reduceToNat]; omega),
    if_neg (by rw [UInt32.le_iff_toNat_le]; simp only [UInt32.reduceToNat]; omega),
    if_neg (by rw [UInt32.le_iff_toNat_le]; simp only [UInt32.reduceToNat]; omega)]
  rw [UInt32.toUInt8_or, List.map_cons, List.map_cons, List.map_cons, List.map_cons, List.map_nil]
  rw [hlead] at hor
  exact congrArg₂ _ hor (congrArg₂ _ (toNat_contByte_shiftRight v 12 (by decide))
    (congrArg₂ _ (toNat_contByte_shiftRight v 6 (by decide))
      (congrArg₂ _ (toNat_contByte v) rfl)))

/-- Behind the first 128 characters there are no bytes below 0x80. -/
theorem high_of_mem_encode (hlo : 0x80 ≤ v.toNat) (hhi : v.toNat < 0x200000) {b : UInt8}
    (hb : b ∈ encode v) : 0x80 ≤ b := by
  have hmem : b.toNat ∈ (encode v).map UInt8.toNat := List.mem_map_of_mem hb
  rw [UInt8.le_iff_toNat_le]
  rcases Nat.lt_or_ge v.toNat 0x800 with h₂ | h₂
  · rw [toNat_encode_two hlo h₂] at hmem
    simp only [List.mem_cons, List.not_mem_nil, or_false, UInt8.reduceToNat] at hmem ⊢
    omega
  rcases Nat.lt_or_ge v.toNat 0x10000 with h₃ | h₃
  · rw [toNat_encode_three h₂ h₃] at hmem
    simp only [List.mem_cons, List.not_mem_nil, or_false, UInt8.reduceToNat] at hmem ⊢
    omega
  · rw [toNat_encode_four h₃ hhi] at hmem
    simp only [List.mem_cons, List.not_mem_nil, or_false, UInt8.reduceToNat] at hmem ⊢
    omega

end

/-- The numbers of the characters. -/
theorem isScalar_val (c : Char) :
    c.val.toNat < 0xD800 ∨ (0xDFFF < c.val.toNat ∧ c.val.toNat < 0x110000) := c.valid

/-- A number that is that of a character. -/
theorem exists_char {n : Nat} (h : n < 0xD800 ∨ (0xDFFF < n ∧ n < 0x110000)) :
    ∃ c : Char, c.val = n.toUInt32 ∧ c.val.toNat = n := by
  have hnat : n.toUInt32.toNat = n := by
    rw [Nat.toUInt32_eq, UInt32.toNat_ofNat', Nat.mod_eq_of_lt (by omega)]
  refine ⟨⟨n.toUInt32, ?_⟩, rfl, hnat⟩
  unfold UInt32.isValidChar
  rw [hnat]
  exact h

end Utf8

namespace Lexer

open Utf8 (encode encodeText)

/-! ## 2. The table -/

/-- One byte in each range. -/
def InRanges (ranges : List (UInt8 × UInt8)) (t : Bytes) : Prop :=
  List.Forall₂ (fun range b => range.1 ≤ b ∧ b ≤ range.2) ranges t

theorem nextBytesInRange_eq_some_iff {ranges : List (UInt8 × UInt8)} {s t rest : Bytes} :
    nextBytesInRange ranges s = some (t, rest) ↔ InRanges ranges t ∧ s = t ++ rest := by
  unfold InRanges
  induction ranges generalizing s t with
  | nil =>
    simp only [nextBytesInRange, Option.some.injEq, Prod.mk.injEq, List.forall₂_nil_left_iff]
    constructor
    · rintro ⟨rfl, rfl⟩
      exact ⟨rfl, rfl⟩
    · rintro ⟨rfl, rfl⟩
      exact ⟨rfl, rfl⟩
  | cons range ranges ih =>
    obtain ⟨lo, hi⟩ := range
    cases s with
    | nil =>
      refine iff_of_false nofun ?_
      rintro ⟨h, hs⟩
      obtain ⟨b, t', -, -, rfl⟩ := List.forall₂_cons_left_iff.mp h
      cases hs
    | cons c s =>
      unfold nextBytesInRange
      split
      · rename_i hc
        rw [Option.map_eq_some_iff]
        constructor
        · rintro ⟨⟨t', rest'⟩, hnext, heq⟩
          obtain ⟨rfl, rfl⟩ := Prod.mk.inj heq
          obtain ⟨ht, rfl⟩ := ih.mp hnext
          exact ⟨.cons hc ht, rfl⟩
        · rintro ⟨h, hs⟩
          obtain ⟨b, t', hb, ht, rfl⟩ := List.forall₂_cons_left_iff.mp h
          obtain ⟨rfl, rfl⟩ := List.cons.inj hs
          exact ⟨(t', rest), ih.mpr ⟨ht, rfl⟩, rfl⟩
      · rename_i hc
        refine iff_of_false nofun ?_
        rintro ⟨h, hs⟩
        obtain ⟨b, t', hb, ht, rfl⟩ := List.forall₂_cons_left_iff.mp h
        obtain ⟨rfl, rfl⟩ := List.cons.inj hs
        exact hc hb

/-- The character whose bytes have the given numbers. -/
theorem exists_encode {s : Bytes} {n : Nat} (hn : 0x20 ≤ n)
    (hscalar : n < 0xD800 ∨ (0xDFFF < n ∧ n < 0x110000))
    (h : ∀ v : UInt32, v.toNat = n → s = encode v) :
    ∃ ch : Char, 0x20 ≤ ch.val.toNat ∧ s = encode ch.val := by
  obtain ⟨ch, hval, hnat⟩ := Utf8.exists_char hscalar
  exact ⟨ch, by omega, h _ hnat⟩

theorem exists_encode_three {c b₁ b₂ : UInt8} (hc : 0xE0 ≤ c.toNat ∧ c.toNat ≤ 0xEF)
    (hb₁ : 0x80 ≤ b₁.toNat ∧ b₁.toNat ≤ 0xBF) (hb₂ : 0x80 ≤ b₂.toNat ∧ b₂.toNat ≤ 0xBF)
    (hshort : c.toNat = 0xE0 → 0xA0 ≤ b₁.toNat) (hsurrogate : c.toNat = 0xED → b₁.toNat ≤ 0x9F) :
    ∃ ch : Char, 0x20 ≤ ch.val.toNat ∧ [c, b₁, b₂] = encode ch.val := by
  refine exists_encode
    (n := (c.toNat - 0xE0) * 4096 + (b₁.toNat - 0x80) * 64 + (b₂.toNat - 0x80))
    (by omega) (by omega) fun v hv => Utf8.eq_of_map_toNat ?_
  rw [Utf8.toNat_encode_three (by omega) (by omega)]
  simp only [List.map_cons, List.map_nil, List.cons.injEq, and_true]
  omega

theorem exists_encode_four {c b₁ b₂ b₃ : UInt8} (hc : 0xF0 ≤ c.toNat ∧ c.toNat ≤ 0xF4)
    (hb₁ : 0x80 ≤ b₁.toNat ∧ b₁.toNat ≤ 0xBF) (hb₂ : 0x80 ≤ b₂.toNat ∧ b₂.toNat ≤ 0xBF)
    (hb₃ : 0x80 ≤ b₃.toNat ∧ b₃.toNat ≤ 0xBF) (hshort : c.toNat = 0xF0 → 0x90 ≤ b₁.toNat)
    (hlarge : c.toNat = 0xF4 → b₁.toNat ≤ 0x8F) :
    ∃ ch : Char, 0x20 ≤ ch.val.toNat ∧ [c, b₁, b₂, b₃] = encode ch.val := by
  refine exists_encode
    (n := (c.toNat - 0xF0) * 262144 + (b₁.toNat - 0x80) * 4096 + (b₂.toNat - 0x80) * 64 +
      (b₃.toNat - 0x80))
    (by omega) (by omega) fun v hv => Utf8.eq_of_map_toNat ?_
  rw [Utf8.toNat_encode_four (by omega) (by omega)]
  simp only [List.map_cons, List.map_nil, List.cons.injEq, and_true]
  omega

theorem exists_encode_of_inRanges {c : UInt8} {t : Bytes} {ranges : List (UInt8 × UInt8)}
    (hranges : byteRanges c = some ranges) (ht : InRanges ranges t) :
    ∃ ch : Char, 0x20 ≤ ch.val.toNat ∧ c :: t = encode ch.val := by
  unfold byteRanges at hranges
  unfold InRanges at ht
  simp only [UInt8.le_iff_toNat_le, ← UInt8.toNat_inj, UInt8.reduceToNat] at hranges ht
  split_ifs at hranges <;> cases hranges <;>
    simp only [List.forall₂_cons_left_iff, List.forall₂_nil_left_iff, UInt8.reduceToNat] at ht
  · subst ht
    refine exists_encode (n := c.toNat) (by omega) (by omega) fun v hv => ?_
    rw [Utf8.encode_one (by omega)]
    refine Utf8.eq_of_map_toNat ?_
    simp only [List.map_cons, List.map_nil, UInt32.toNat_toUInt8]
    rw [hv, Nat.mod_eq_of_lt (by omega)]
  · obtain ⟨b, -, hb, rfl, rfl⟩ := ht
    refine exists_encode (n := (c.toNat - 0xC0) * 64 + (b.toNat - 0x80)) (by omega) (by omega)
      fun v hv => Utf8.eq_of_map_toNat ?_
    rw [Utf8.toNat_encode_two (by omega) (by omega)]
    simp only [List.map_cons, List.map_nil, List.cons.injEq, and_true]
    omega
  all_goals obtain ⟨b₁, u, hb₁, ⟨b₂, w, hb₂, hw, rfl⟩, rfl⟩ := ht
  -- 0xE0, 0xED and the other first bytes of three
  iterate 3
    · subst hw
      exact exists_encode_three (by omega) (by omega) (by omega) (by omega) (by omega)
  -- 0xF0, the bytes up to 0xF3, and 0xF4
  all_goals
    obtain ⟨b₃, x, hb₃, rfl, rfl⟩ := hw
    exact exists_encode_four (by omega) (by omega) (by omega) (by omega) (by omega) (by omega)

/-- **The table has exactly the encodings of characters**, but for control characters. -/
theorem inRanges_iff {c : UInt8} {t : Bytes} :
    (∃ ranges, byteRanges c = some ranges ∧ InRanges ranges t) ↔
      ∃ ch : Char, 0x20 ≤ ch.val.toNat ∧ c :: t = encode ch.val := by
  constructor
  · rintro ⟨ranges, hranges, ht⟩
    exact exists_encode_of_inRanges hranges ht
  · rintro ⟨ch, hlow, heq⟩
    have hscalar := Utf8.isScalar_val ch
    have hmap := congrArg (List.map UInt8.toNat) heq
    unfold byteRanges InRanges
    simp only [UInt8.le_iff_toNat_le, ← UInt8.toNat_inj, UInt8.reduceToNat]
    rcases Nat.lt_or_ge ch.val.toNat 0x80 with h₁ | h₁
    · -- one byte
      rw [Utf8.encode_one h₁] at hmap
      simp only [List.map_cons, List.map_nil, List.cons.injEq, List.map_eq_nil_iff,
        UInt32.toNat_toUInt8] at hmap
      obtain ⟨hc, rfl⟩ := hmap
      rw [Nat.mod_eq_of_lt (by omega)] at hc
      exact ⟨[], if_pos (by omega), .nil⟩
    rcases Nat.lt_or_ge ch.val.toNat 0x800 with h₂ | h₂
    · -- two bytes
      rw [Utf8.toNat_encode_two h₁ h₂] at hmap
      simp only [List.map_cons, List.cons.injEq, List.map_eq_cons_iff, List.map_eq_nil_iff] at hmap
      obtain ⟨hc, b, t, rfl, hb, rfl⟩ := hmap
      rw [if_neg (by omega), if_pos (by omega)]
      simp only [Option.some.injEq, exists_eq_left', List.forall₂_cons, List.forall₂_nil_right_iff,
        UInt8.reduceToNat, and_true]
      omega
    rcases Nat.lt_or_ge ch.val.toNat 0x10000 with h₃ | h₃
    · -- three bytes: the ranges differ for surrogates and overlong forms
      rw [Utf8.toNat_encode_three h₂ h₃] at hmap
      simp only [List.map_cons, List.cons.injEq, List.map_eq_cons_iff, List.map_eq_nil_iff] at hmap
      obtain ⟨hc, b₁, t, rfl, hb₁, b₂, t, rfl, hb₂, rfl⟩ := hmap
      rw [if_neg (by omega), if_neg (by omega)]
      split_ifs
      all_goals first
        | omega
        | simp only [Option.some.injEq, exists_eq_left', List.forall₂_cons,
            List.forall₂_nil_right_iff, UInt8.reduceToNat, and_true]
          omega
    · -- four bytes
      rw [Utf8.toNat_encode_four h₃ (by omega)] at hmap
      simp only [List.map_cons, List.cons.injEq, List.map_eq_cons_iff, List.map_eq_nil_iff] at hmap
      obtain ⟨hc, b₁, t, rfl, hb₁, b₂, t, rfl, hb₂, b₃, t, rfl, hb₃, rfl⟩ := hmap
      rw [if_neg (by omega), if_neg (by omega), if_neg (by omega), if_neg (by omega),
        if_neg (by omega)]
      split_ifs
      all_goals first
        | omega
        | simp only [Option.some.injEq, exists_eq_left', List.forall₂_cons,
            List.forall₂_nil_right_iff, UInt8.reduceToNat, and_true]
          omega

/-! ## 3. Escaped strings -/

open Json (hexDigit)

theorem escapeByte_high : ∀ b : UInt8, 0x80 ≤ b → Json.escapeByte b = [b] :=
  Utf8.forall_byte (by decide)

theorem escapeByte_plain : ∀ b : UInt8, 0x20 ≤ b → b ≠ quote → b ≠ backslash →
    Json.escapeByte b = [b] := Utf8.forall_byte (by decide)

/-- The control characters without an escape of their own. -/
theorem escapeByte_control : ∀ b : UInt8, b < 0x20 →
    b ∈ [0x08, 0x09, 0x0A, 0x0C, 0x0D] ∨
      (Json.escapeByte b = [backslash, 0x75, 0x30, 0x30, hexDigit (b.toNat / 16),
          hexDigit (b.toNat % 16)] ∧
        hexDigitValue (hexDigit (b.toNat / 16)) = some (b.toNat / 16) ∧
        hexDigitValue (hexDigit (b.toNat % 16)) = some (b.toNat % 16)) :=
  Utf8.forall_byte (by decide +kernel)

theorem encode_byte {b : UInt8} (hb : b < 0x80) : encode b.toNat.toUInt32 = [b] := by
  have hlt : b.toNat < 0x80 := UInt8.lt_iff_toNat_lt.mp hb
  have hnat : b.toNat.toUInt32.toNat = b.toNat := by
    rw [Nat.toUInt32_eq, UInt32.toNat_ofNat', Nat.mod_eq_of_lt (by omega)]
  rw [Utf8.encode_one (by omega)]
  refine Utf8.eq_of_map_toNat ?_
  simp only [List.map_cons, List.map_nil, UInt32.toNat_toUInt8]
  rw [hnat, Nat.mod_eq_of_lt (by omega)]

/-- What `dump_escaped` writes for a byte is one character of a string. -/
theorem scanChar_escapeByte {b : UInt8} (hb : b < 0x80) : ∃ x t, Json.escapeByte b = x :: t ∧
    x ≠ quote ∧ ∀ rest, scanChar x (t ++ rest) = some ([b], rest) := by
  rcases UInt8.lt_or_le b 0x20 with hlow | hlow
  · rcases escapeByte_control b hlow with hshort | ⟨heq, hhigh, hlow⟩
    · simp only [List.mem_cons, List.not_mem_nil, or_false] at hshort
      rcases hshort with rfl | rfl | rfl | rfl | rfl <;>
        exact ⟨backslash, _, rfl, by decide, fun _ => rfl⟩
    · refine ⟨backslash, _, heq, by decide, fun rest => ?_⟩
      have hlt : b.toNat < 0x80 := UInt8.lt_iff_toNat_lt.mp hb
      have hcp : getCodepoint (0x30 :: 0x30 :: hexDigit (b.toNat / 16) ::
          hexDigit (b.toNat % 16) :: rest) = some (b.toNat, rest) := by
        have hzero : hexDigitValue 0x30 = some 0 := rfl
        simp only [getCodepoint, hzero, hhigh, hlow, Option.some.injEq, Prod.mk.injEq, and_true]
        omega
      change scanUnicode (0x30 :: 0x30 :: hexDigit (b.toNat / 16) :: hexDigit (b.toNat % 16) ::
        rest) = _
      unfold scanUnicode
      simp only [hcp]
      rw [if_neg (by omega), if_neg (by omega), encode_byte hb]
  · by_cases hquote : b = quote
    · subst hquote
      exact ⟨backslash, _, rfl, by decide, fun _ => rfl⟩
    by_cases hback : b = backslash
    · subst hback
      exact ⟨backslash, _, rfl, by decide, fun _ => rfl⟩
    refine ⟨b, [], escapeByte_plain b hlow hquote hback, hquote, fun rest => ?_⟩
    have hranges : byteRanges b = some [] := by
      have hb' := UInt8.lt_iff_toNat_lt.mp hb
      exact if_pos ⟨hlow, UInt8.le_iff_toNat_le.mpr (Nat.le_of_lt_succ hb')⟩
    unfold scanChar
    rw [if_neg hback, hranges]
    rfl

/-- So it is for a whole character. -/
theorem scanChar_escaped (c : Char) : ∃ x t, (encode c.val).flatMap Json.escapeByte = x :: t ∧
    x ≠ quote ∧ ∀ rest, scanChar x (t ++ rest) = some (encode c.val, rest) := by
  rcases Nat.lt_or_ge c.val.toNat 0x80 with hlow | hhigh
  · have hb : c.val.toUInt8 < 0x80 := by
      rw [UInt8.lt_iff_toNat_lt, UInt32.toNat_toUInt8]
      exact (Nat.mod_le _ _).trans_lt hlow
    rw [Utf8.encode_one hlow, List.flatMap_singleton]
    exact scanChar_escapeByte hb
  · have hscalar := Utf8.isScalar_val c
    have hbytes : (encode c.val).flatMap Json.escapeByte = encode c.val := by
      rw [List.flatMap_congr fun b hb =>
        escapeByte_high b (Utf8.high_of_mem_encode hhigh (by omega) hb)]
      exact List.flatMap_singleton' _
    obtain ⟨x, t, hseq, -⟩ := Utf8.sequence_encode c
    have hx : 0x80 ≤ x :=
      Utf8.high_of_mem_encode hhigh (by omega) (hseq ▸ List.mem_cons_self)
    refine ⟨x, t, by rw [hbytes, hseq], ?_, fun rest => ?_⟩
    · rintro rfl
      exact absurd hx (by decide)
    · obtain ⟨ranges, hranges, ht⟩ := inRanges_iff.mpr ⟨c, by omega, hseq.symm⟩
      unfold scanChar
      rw [if_neg (by rintro rfl; exact absurd hx (by decide)), hranges, hseq]
      dsimp only
      rw [nextBytesInRange_eq_some_iff.mpr ⟨ht, rfl⟩]
      rfl

/-- **An escaped string is read back**, whatever is behind its closing quote. -/
theorem scanString_escaped (cs : List Char) (rest : Bytes) {n : Nat} (hn : cs.length < n) :
    scanString n ((encodeText cs).flatMap Json.escapeByte ++ quote :: rest) =
      some (encodeText cs, rest) := by
  induction cs generalizing n with
  | nil =>
    obtain ⟨n, rfl⟩ : ∃ k, n = k + 1 := ⟨n - 1, by omega⟩
    exact if_pos rfl
  | cons c cs ih =>
    obtain ⟨n, rfl⟩ : ∃ k, n = k + 1 := ⟨n - 1, by omega⟩
    obtain ⟨x, t, heq, hx, hscan⟩ := scanChar_escaped c
    rw [Utf8.encodeText_cons, List.flatMap_append, heq, List.append_assoc, List.cons_append,
      scanString, if_neg hx, hscan]
    dsimp only
    rw [ih (by rw [List.length_cons] at hn; omega)]
    rfl

theorem length_le_escaped (cs : List Char) :
    cs.length ≤ ((encodeText cs).flatMap Json.escapeByte).length := by
  induction cs with
  | nil => exact Nat.zero_le _
  | cons c cs ih =>
    obtain ⟨x, t, heq, -⟩ := scanChar_escaped c
    rw [Utf8.encodeText_cons, List.flatMap_append, heq, List.length_append, List.length_cons,
      List.length_cons]
    omega

/-! ## 4. Whatever is read is valid -/

theorem hexDigitValue_lt : ∀ c : UInt8, ∀ n ∈ hexDigitValue c, n < 16 :=
  Utf8.forall_byte (by decide +kernel)

theorem getCodepoint_spec {s rest : Bytes} {cp : Nat} (h : getCodepoint s = some (cp, rest)) :
    cp < 0x10000 ∧ rest.length < s.length := by
  unfold getCodepoint at h
  split at h
  · rename_i c₁ c₂ c₃ c₄ s
    split at h
    · rename_i d₁ d₂ d₃ d₄ h₁ h₂ h₃ h₄
      obtain ⟨rfl, rfl⟩ := Prod.mk.inj (Option.some.inj h)
      have := hexDigitValue_lt _ _ h₁
      have := hexDigitValue_lt _ _ h₂
      have := hexDigitValue_lt _ _ h₃
      have := hexDigitValue_lt _ _ h₄
      refine ⟨by omega, ?_⟩
      simp only [List.length_cons]
      omega
    · cases h
  · cases h

/-- The number of a character, encoded, is valid. -/
theorem utf8_encode {n : Nat} (h : n < 0xD800 ∨ (0xDFFF < n ∧ n < 0x110000)) :
    Utf8 (encode n.toUInt32) := by
  obtain ⟨ch, hval, -⟩ := Utf8.exists_char h
  rw [← hval]
  exact Utf8.valid_iff.mpr ⟨[ch], (Utf8.encodeText_singleton ch).symm⟩

/-- What is read as part of a string: valid text, and nothing is put back. -/
def Reads (s : Bytes) (p : Bytes × Bytes) : Prop := Utf8 p.1 ∧ p.2.length ≤ s.length

theorem scanUnicode_reads {s : Bytes} {p : Bytes × Bytes} (h : scanUnicode s = some p) :
    Reads s p := by
  unfold scanUnicode at h
  split at h
  · cases h
  rename_i cp s₁ hcp
  obtain ⟨hlt, hlen⟩ := getCodepoint_spec hcp
  split at h
  · split at h
    · rename_i s₂
      split at h
      · cases h
      rename_i cp₂ s₃ hcp₂
      obtain ⟨-, hlen₂⟩ := getCodepoint_spec hcp₂
      split at h
      · have hscalar : 0xDFFF < 0x400 * cp + cp₂ - 0x35FDC00 ∧
            0x400 * cp + cp₂ - 0x35FDC00 < 0x110000 := by omega
        generalize 0x400 * cp + cp₂ - 0x35FDC00 = n at h hscalar
        have hpair : Utf8 (encode n.toUInt32) := utf8_encode (.inr hscalar)
        rw [List.length_cons, List.length_cons] at hlen
        have hlen₃ : s₃.length ≤ s.length := by omega
        exact Option.some.inj h ▸ ⟨hpair, hlen₃⟩
      · cases h
    · cases h
  split at h
  · cases h
  · obtain rfl := Option.some.inj h
    exact ⟨utf8_encode (by omega), Nat.le_of_lt hlen⟩

theorem scanEscape_reads {s : Bytes} {p : Bytes × Bytes} (h : scanEscape s = some p) :
    Reads s p := by
  cases s with
  | nil => cases h
  | cons c s =>
    have hone : ∀ b : UInt8, b < 0x80 → Reads (c :: s) ([b], s) := fun b hb =>
      ⟨Utf8.valid_ascii fun a ha => by rwa [List.mem_singleton.mp ha], Nat.le_succ _⟩
    rw [scanEscape] at h
    split at h
    · rename_i hc
      obtain rfl := Option.some.inj h
      exact hone c (by rcases hc with rfl | rfl | rfl <;> decide)
    split at h
    · exact Option.some.inj h ▸ hone _ (by decide)
    split at h
    · exact Option.some.inj h ▸ hone _ (by decide)
    split at h
    · exact Option.some.inj h ▸ hone _ (by decide)
    split at h
    · exact Option.some.inj h ▸ hone _ (by decide)
    split at h
    · exact Option.some.inj h ▸ hone _ (by decide)
    split at h
    · obtain ⟨hvalid, hlen⟩ := scanUnicode_reads h
      exact ⟨hvalid, Nat.le_succ_of_le hlen⟩
    · cases h

theorem scanChar_reads {c : UInt8} {s : Bytes} {p : Bytes × Bytes} (h : scanChar c s = some p) :
    Reads s p := by
  unfold scanChar at h
  split at h
  · exact scanEscape_reads h
  split at h
  · cases h
  rename_i ranges hranges
  obtain ⟨⟨t, rest⟩, hnext, rfl⟩ := Option.map_eq_some_iff.mp h
  obtain ⟨ht, rfl⟩ := nextBytesInRange_eq_some_iff.mp hnext
  obtain ⟨ch, -, heq⟩ := inRanges_iff.mp ⟨ranges, hranges, ht⟩
  refine ⟨?_, by simp⟩
  dsimp only
  rw [heq, ← Utf8.encodeText_singleton]
  exact Utf8.valid_iff.mpr ⟨[ch], rfl⟩

/-- **Whatever is read as a string is valid**, and uses up the closing quote at least. -/
theorem scanString_valid {n : Nat} {s t rest : Bytes} (h : scanString n s = some (t, rest)) :
    Utf8 t ∧ rest.length < s.length := by
  induction n generalizing s t with
  | zero => cases h
  | succ n ih =>
    cases s with
    | nil => cases h
    | cons c s =>
      unfold scanString at h
      split at h
      · cases h
        exact ⟨utf8_nil, Nat.lt_succ_self _⟩
      split at h
      · cases h
      rename_i t₁ s₁ hchar
      obtain ⟨hvalid, hlen⟩ := scanChar_reads hchar
      obtain ⟨⟨t₂, rest₂⟩, hrest, heq⟩ := Option.map_eq_some_iff.mp h
      cases heq
      obtain ⟨hvalid₂, hlen₂⟩ := ih hrest
      exact ⟨hvalid.append hvalid₂, Nat.lt_succ_of_lt (hlen₂.trans_le hlen)⟩

end Lexer

end SimpleCoder

/-
# Base64 and back

The shift register of `base64_decode` is never masked: what has been written stays in it until it is
shifted out at the top.  §1 shows that the decoder writes what one does that keeps only the bits
that are still to be written (`exactFrom`); all that follows is about that one.

Four digits take it from an empty register to an empty register.  So it reads a text group by group,
as `base64_encode` writes it (§3), and the two are inverse to each other (`base64_roundTrip`).
-/
import SimpleCoder.Util.Base64
import SimpleCoder.Util.Utf8
import Mathlib.Tactic.IntervalCases

namespace SimpleCoder

/-! ## 1. The register -/

/-- The loop of a decoder that keeps exactly the bits that are still to be written. -/
def exactFrom : Nat → Nat → Bytes → Bytes
  | _, _, [] => []
  | pending, bits, c :: cs =>
    if c = 0x3D then []
    else if Text.isspace c then exactFrom pending bits cs
    else if base64Value c = 0xFF then []
    else
      let pending := pending * 64 + (base64Value c).toNat
      let bits := bits + 6
      if 8 ≤ bits then
        (pending / 2 ^ (bits - 8)).toUInt8 ::
          exactFrom (pending % 2 ^ (bits - 8)) (bits - 8) cs
      else exactFrom pending bits cs

theorem base64Alphabet_nodup : base64Alphabet.Nodup := by decide +kernel

theorem base64Alphabet_length : base64Alphabet.length = 64 := by decide

theorem toNat_toUInt8 {v : Nat} (hv : v < 256) : v.toUInt8.toNat = v := by
  rw [Nat.toUInt8_eq, UInt8.toNat_ofNat', Nat.mod_eq_of_lt hv]

theorem toNat_base64Value {c : UInt8} (h : c ∈ base64Alphabet) :
    (base64Value c).toNat = base64Alphabet.idxOf c ∧ base64Alphabet.idxOf c < 64 := by
  have hlt := List.idxOf_lt_length_of_mem h
  rw [base64Alphabet_length] at hlt
  refine ⟨?_, hlt⟩
  unfold base64Value
  rw [if_pos h, toNat_toUInt8 (by omega)]

theorem base64Value_lt {c : UInt8} (h : base64Value c ≠ 0xFF) : (base64Value c).toNat < 64 := by
  by_cases hc : c ∈ base64Alphabet
  · obtain ⟨hvalue, hlt⟩ := toNat_base64Value hc
    omega
  · unfold base64Value at h
    rw [if_neg hc] at h
    exact absurd rfl h

/-- Shifting six bits in. -/
theorem toNat_shiftIn (buf : UInt32) {v : UInt8} (hv : v.toNat < 64) :
    ((buf <<< 6) ||| v.toUInt32).toNat = (buf.toNat * 64 + v.toNat) % 2 ^ 32 := by
  have hlt : v.toNat < 2 ^ 6 := hv
  have hor := Nat.two_pow_add_eq_or_of_lt hlt buf.toNat
  have hsum : buf.toNat * 64 + v.toNat = 2 ^ 6 * buf.toNat + v.toNat := by omega
  rw [UInt32.toNat_or, UInt32.toNat_shiftLeft, UInt8.toNat_toUInt32, Nat.shiftLeft_eq, hsum, hor,
    Nat.or_mod_two_pow, Nat.mod_eq_of_lt (show v.toNat < 2 ^ 32 by omega), Nat.mul_comm]
  rfl

/-- What the register holds after six bits more, as far as it is still to be written. -/
theorem register_step {buf n v bits : Nat} (hbits : bits < 8) (hv : v < 64)
    (hn : n = (buf * 64 + v) % 2 ^ 32) :
    (bits + 6 < 8 → n % 2 ^ (bits + 6) = buf % 2 ^ bits * 64 + v) ∧
      (8 ≤ bits + 6 →
        n / 2 ^ (bits + 6 - 8) % 256 = (buf % 2 ^ bits * 64 + v) / 2 ^ (bits + 6 - 8) ∧
          n % 2 ^ (bits + 6 - 8) = (buf % 2 ^ bits * 64 + v) % 2 ^ (bits + 6 - 8)) := by
  interval_cases bits <;> omega

/-- **Nobody sees what is left in the register.** -/
theorem base64DecodeFrom_eq (s : Bytes) (buf : UInt32) {bits : Nat} (hbits : bits < 8) :
    base64DecodeFrom buf bits s = exactFrom (buf.toNat % 2 ^ bits) bits s := by
  induction s generalizing buf bits with
  | nil => rfl
  | cons c cs ih =>
    rw [base64DecodeFrom, exactFrom]
    by_cases hpad : c = 0x3D
    · rw [if_pos hpad, if_pos hpad]
    rw [if_neg hpad, if_neg hpad]
    by_cases hspace : Text.isspace c = true
    · rw [if_pos hspace, if_pos hspace, ih buf hbits]
    rw [if_neg hspace, if_neg hspace]
    by_cases hdigit : base64Value c = 0xFF
    · rw [if_pos hdigit, if_pos hdigit]
    rw [if_neg hdigit, if_neg hdigit]
    have hv := base64Value_lt hdigit
    obtain ⟨hkeep, hwrite⟩ := register_step hbits hv (toNat_shiftIn buf hv)
    dsimp only
    by_cases hfull : 8 ≤ bits + 6
    · obtain ⟨hbyte, hrest⟩ := hwrite hfull
      rw [if_pos hfull, if_pos hfull, ih _ (by omega), hrest]
      congr 1
      have hshift : (bits + 6 - 8).toUInt32.toNat % 32 = bits + 6 - 8 := by
        rw [Nat.toUInt32_eq, UInt32.toNat_ofNat']
        omega
      rw [← UInt8.toNat_inj, UInt32.toNat_toUInt8, UInt32.toNat_shiftRight,
        Nat.shiftRight_eq_div_pow, hshift, hbyte, Nat.toUInt8_eq, UInt8.toNat_ofNat', ← hbyte,
        Nat.mod_mod]
    · rw [if_neg hfull, if_neg hfull, ih _ (by omega), hkeep (by omega)]

/-- **White space is passed over**, wherever it is. -/
theorem exactFrom_filter (s : Bytes) (pending bits : Nat) :
    exactFrom pending bits (s.filter fun c => !Text.isspace c) = exactFrom pending bits s := by
  induction s generalizing pending bits with
  | nil => rfl
  | cons c cs ih =>
    by_cases hspace : Text.isspace c = true
    · have hpad : c ≠ 0x3D := by
        rintro rfl
        cases hspace
      rw [List.filter_cons_of_neg (by simpa using hspace), ih, exactFrom, if_neg hpad,
        if_pos hspace]
    · rw [List.filter_cons_of_pos (by simpa using hspace), exactFrom, exactFrom]
      simp only [ih]

/-! ## 2. Digits -/

/-- The digit of a value below 64. -/
def digit (v : Nat) : UInt8 := base64Digit v.toUInt8

theorem digit_eq {v : Nat} (hv : v < 64) :
    ∃ h : v < base64Alphabet.length, digit v = base64Alphabet[v] := by
  have hlength : v < base64Alphabet.length := base64Alphabet_length ▸ hv
  refine ⟨hlength, ?_⟩
  unfold digit base64Digit
  rw [toNat_toUInt8 (by omega)]
  exact (List.getElem_eq_getD 0).symm

theorem digit_mem {v : Nat} (hv : v < 64) : digit v ∈ base64Alphabet := by
  obtain ⟨hlength, hdigit⟩ := digit_eq hv
  rw [hdigit]
  exact List.getElem_mem hlength

theorem toNat_base64Value_digit {v : Nat} (hv : v < 64) : (base64Value (digit v)).toNat = v := by
  obtain ⟨hlength, hdigit⟩ := digit_eq hv
  rw [(toNat_base64Value (digit_mem hv)).1, hdigit, base64Alphabet_nodup.idxOf_getElem]

theorem digit_base64Value {c : UInt8} (h : c ∈ base64Alphabet) :
    digit (base64Value c).toNat = c := by
  obtain ⟨hvalue, hlt⟩ := toNat_base64Value h
  rw [hvalue]
  obtain ⟨hlength, hdigit⟩ := digit_eq hlt
  rw [hdigit, List.getElem_idxOf]

/-- A digit is no padding and no white space. -/
theorem base64Alphabet_plain : ∀ c ∈ base64Alphabet, c ≠ 0x3D ∧ Text.isspace c = false := by
  decide +kernel

/-- Reading a digit. -/
theorem exactFrom_digit {v : Nat} (hv : v < 64) (pending bits : Nat) (cs : Bytes) :
    exactFrom pending bits (digit v :: cs) =
      if 8 ≤ bits + 6 then
        ((pending * 64 + v) / 2 ^ (bits + 6 - 8)).toUInt8 ::
          exactFrom ((pending * 64 + v) % 2 ^ (bits + 6 - 8)) (bits + 6 - 8) cs
      else exactFrom (pending * 64 + v) (bits + 6) cs := by
  obtain ⟨hpad, hspace⟩ := base64Alphabet_plain _ (digit_mem hv)
  have hvalue := toNat_base64Value_digit hv
  have hdigit : base64Value (digit v) ≠ 0xFF := by
    intro h
    rw [h] at hvalue
    change 255 = v at hvalue
    omega
  rw [exactFrom, if_neg hpad, hspace, if_neg (by decide), if_neg hdigit, hvalue]

/-! ## 3. Groups -/

theorem exactFrom_pad (pending bits : Nat) (cs : Bytes) :
    exactFrom pending bits (0x3D :: cs) = [] := rfl

/-- Two digits complete a byte and leave four bits. -/
theorem exactFrom_first {v₀ v₁ : Nat} (h₀ : v₀ < 64) (h₁ : v₁ < 64) (cs : Bytes) :
    exactFrom 0 0 (digit v₀ :: digit v₁ :: cs) =
      (v₀ * 4 + v₁ / 16).toUInt8 :: exactFrom (v₁ % 16) 4 cs := by
  have hbyte : ((0 * 64 + v₀) * 64 + v₁) / 2 ^ (0 + 6 + 6 - 8) = v₀ * 4 + v₁ / 16 := by omega
  have hrest : ((0 * 64 + v₀) * 64 + v₁) % 2 ^ (0 + 6 + 6 - 8) = v₁ % 16 := by omega
  rw [exactFrom_digit h₀, if_neg (by omega), exactFrom_digit h₁, if_pos (by omega), hbyte, hrest]

/-- Four bits and a digit are a byte and two bits. -/
theorem exactFrom_second {p v₂ : Nat} (h₂ : v₂ < 64) (cs : Bytes) :
    exactFrom p 4 (digit v₂ :: cs) = (p * 16 + v₂ / 4).toUInt8 :: exactFrom (v₂ % 4) 2 cs := by
  have hbyte : (p * 64 + v₂) / 2 ^ (4 + 6 - 8) = p * 16 + v₂ / 4 := by omega
  have hrest : (p * 64 + v₂) % 2 ^ (4 + 6 - 8) = v₂ % 4 := by omega
  rw [exactFrom_digit h₂, if_pos (by omega), hbyte, hrest]

/-- Two bits and a digit are a byte. -/
theorem exactFrom_third {p v₃ : Nat} (h₃ : v₃ < 64) (cs : Bytes) :
    exactFrom p 2 (digit v₃ :: cs) = (p * 64 + v₃).toUInt8 :: exactFrom 0 0 cs := by
  have hbyte : (p * 64 + v₃) / 2 ^ (2 + 6 - 8) = p * 64 + v₃ := by omega
  have hrest : (p * 64 + v₃) % 2 ^ (2 + 6 - 8) = 0 := by omega
  rw [exactFrom_digit h₃, if_pos (by omega), hbyte, hrest]

/-! ### The encoder, with divisions for its shifts -/

theorem base64Digit_eq {i : UInt8} {v : Nat} (h : i.toNat = v) : base64Digit i = digit v := by
  have hlt := i.toNat_lt
  unfold digit
  congr 1
  rw [← UInt8.toNat_inj, toNat_toUInt8 (by omega), h]

/-- Bits put in front of others. -/
theorem or_shiftLeft {a b k : Nat} (hb : b < 2 ^ k) : a <<< k ||| b = a * 2 ^ k + b := by
  rw [Nat.shiftLeft_eq, Nat.mul_comm, Nat.two_pow_add_eq_or_of_lt hb]

theorem digit_high (b : UInt8) : base64Digit (b >>> 2) = digit (b.toNat / 4) := by
  refine base64Digit_eq ?_
  rw [UInt8.toNat_shiftRight, Nat.shiftRight_eq_div_pow]
  rfl

theorem digit_low (b : UInt8) : base64Digit (b &&& 0x3F) = digit (b.toNat % 64) := by
  refine base64Digit_eq ?_
  rw [UInt8.toNat_and]
  exact Nat.and_two_pow_sub_one_eq_mod b.toNat 6

theorem digit_join₄ (b c : UInt8) :
    base64Digit (((b &&& 0x03) <<< 4) ||| (c >>> 4)) = digit (b.toNat % 4 * 16 + c.toNat / 16) := by
  refine base64Digit_eq ?_
  have hc := c.toNat_lt
  have hlow : b.toNat &&& 3 = b.toNat % 4 := Nat.and_two_pow_sub_one_eq_mod b.toNat 2
  rw [UInt8.toNat_or, UInt8.toNat_shiftLeft, UInt8.toNat_shiftRight, UInt8.toNat_and,
    Nat.shiftRight_eq_div_pow]
  change (b.toNat &&& 3) <<< 4 % 2 ^ 8 ||| c.toNat / 2 ^ 4 = _
  rw [hlow, Nat.mod_eq_of_lt (by rw [Nat.shiftLeft_eq]; omega), or_shiftLeft (by omega)]
  rfl

theorem digit_join₂ (b c : UInt8) :
    base64Digit (((b &&& 0x0F) <<< 2) ||| (c >>> 6)) = digit (b.toNat % 16 * 4 + c.toNat / 64) := by
  refine base64Digit_eq ?_
  have hc := c.toNat_lt
  have hlow : b.toNat &&& 15 = b.toNat % 16 := Nat.and_two_pow_sub_one_eq_mod b.toNat 4
  rw [UInt8.toNat_or, UInt8.toNat_shiftLeft, UInt8.toNat_shiftRight, UInt8.toNat_and,
    Nat.shiftRight_eq_div_pow]
  change (b.toNat &&& 15) <<< 2 % 2 ^ 8 ||| c.toNat / 2 ^ 6 = _
  rw [hlow, Nat.mod_eq_of_lt (by rw [Nat.shiftLeft_eq]; omega), or_shiftLeft (by omega)]
  rfl

/-- At the end, zero bits are put behind. -/
theorem digit_end₄ (b : UInt8) : base64Digit ((b &&& 0x03) <<< 4) = digit (b.toNat % 4 * 16) := by
  have h := digit_join₄ b 0
  have hzero : (0 : UInt8) >>> 4 = 0 := by decide
  rw [hzero, UInt8.or_zero] at h
  exact h

theorem digit_end₂ (b : UInt8) : base64Digit ((b &&& 0x0F) <<< 2) = digit (b.toNat % 16 * 4) := by
  have h := digit_join₂ b 0
  have hzero : (0 : UInt8) >>> 6 = 0 := by decide
  rw [hzero, UInt8.or_zero] at h
  exact h

theorem base64Encode_group (b₀ b₁ b₂ : UInt8) (rest : Bytes) :
    base64Encode (b₀ :: b₁ :: b₂ :: rest) =
      digit (b₀.toNat / 4) :: digit (b₀.toNat % 4 * 16 + b₁.toNat / 16) ::
        digit (b₁.toNat % 16 * 4 + b₂.toNat / 64) :: digit (b₂.toNat % 64) ::
          base64Encode rest := by
  rw [base64Encode, digit_high, digit_join₄, digit_join₂, digit_low]
  rfl

theorem base64Encode_two (b₀ b₁ : UInt8) :
    base64Encode [b₀, b₁] =
      [digit (b₀.toNat / 4), digit (b₀.toNat % 4 * 16 + b₁.toNat / 16),
        digit (b₁.toNat % 16 * 4), 0x3D] := by
  rw [base64Encode, digit_high, digit_join₄, digit_end₂]

theorem base64Encode_one (b₀ : UInt8) :
    base64Encode [b₀] = [digit (b₀.toNat / 4), digit (b₀.toNat % 4 * 16), 0x3D, 0x3D] := by
  rw [base64Encode, digit_high, digit_end₄]

/-! ## 4. There and back -/

theorem toUInt8_eq {n : Nat} {b : UInt8} (h : n = b.toNat) : n.toUInt8 = b := by
  have hlt := b.toNat_lt
  rw [← UInt8.toNat_inj, toNat_toUInt8 (by omega), h]

/-- **What is encoded is read back.** -/
theorem exactFrom_encode (x : Bytes) : exactFrom 0 0 (base64Encode x) = x := by
  induction x using base64Encode.induct with
  | case1 b₀ b₁ b₂ rest ih =>
    have h₀ := b₀.toNat_lt
    have h₁ := b₁.toNat_lt
    have h₂ := b₂.toNat_lt
    rw [base64Encode_group, exactFrom_first (by omega) (by omega), exactFrom_second (by omega),
      exactFrom_third (by omega), ih, toUInt8_eq (b := b₀) (by omega),
      toUInt8_eq (b := b₁) (by omega), toUInt8_eq (b := b₂) (by omega)]
  | case2 b₀ b₁ =>
    have h₀ := b₀.toNat_lt
    have h₁ := b₁.toNat_lt
    rw [base64Encode_two, exactFrom_first (by omega) (by omega), exactFrom_second (by omega),
      exactFrom_pad, toUInt8_eq (b := b₀) (by omega), toUInt8_eq (b := b₁) (by omega)]
  | case3 b₀ =>
    have h₀ := b₀.toNat_lt
    rw [base64Encode_one, exactFrom_first (by omega) (by omega), exactFrom_pad,
      toUInt8_eq (b := b₀) (by omega)]
  | case4 => rfl

theorem base64Encode_length (x : Bytes) : (base64Encode x).length = 4 * ((x.length + 2) / 3) := by
  induction x using base64Encode.induct with
  | case1 b₀ b₁ b₂ rest ih =>
    rw [base64Encode_group]
    simp only [List.length_cons, ih]
    omega
  | case2 b₀ b₁ =>
    rw [base64Encode_two]
    simp
  | case3 b₀ =>
    rw [base64Encode_one]
    simp
  | case4 => rfl

/-- **An encoding is digits and at most two `=`.** -/
theorem base64Encode_digits (x : Bytes) :
    ∃ digits pad, base64Encode x = digits ++ List.replicate pad 0x3D ∧ pad ≤ 2 ∧
      ∀ d ∈ digits, d ∈ base64Alphabet := by
  induction x using base64Encode.induct with
  | case1 b₀ b₁ b₂ rest ih =>
    obtain ⟨digits, pad, heq, hpad, hdigits⟩ := ih
    have h₀ := b₀.toNat_lt
    have h₁ := b₁.toNat_lt
    have h₂ := b₂.toNat_lt
    rw [base64Encode_group, heq]
    refine ⟨_ :: _ :: _ :: _ :: digits, pad, rfl, hpad, ?_⟩
    simp only [List.forall_mem_cons]
    exact ⟨digit_mem (by omega), digit_mem (by omega), digit_mem (by omega),
      digit_mem (by omega), hdigits⟩
  | case2 b₀ b₁ =>
    have h₀ := b₀.toNat_lt
    have h₁ := b₁.toNat_lt
    rw [base64Encode_two]
    refine ⟨[_, _, _], 1, rfl, by omega, ?_⟩
    simp only [List.forall_mem_cons]
    exact ⟨digit_mem (by omega), digit_mem (by omega), digit_mem (by omega), by simp⟩
  | case3 b₀ =>
    have h₀ := b₀.toNat_lt
    rw [base64Encode_one]
    refine ⟨[_, _], 2, rfl, by omega, ?_⟩
    simp only [List.forall_mem_cons]
    exact ⟨digit_mem (by omega), digit_mem (by omega), by simp⟩
  | case4 => exact ⟨[], 0, rfl, by omega, by simp⟩

/-- The digits and the padding of a canonical text: together they fill up groups of four, and the
bits of the last digit that no byte is made of are zero. -/
structure CanonicalParts (digits : Bytes) (pad : Nat) : Prop where
  alphabet : ∀ d ∈ digits, d ∈ base64Alphabet
  pad_le : pad ≤ 2
  length : (digits.length + pad) % 4 = 0
  lowBits : ∀ d, digits.getLast? = some d → (base64Value d).toNat % 4 ^ pad = 0

/-- A text that is the encoding of something. -/
def Canonical (c : Bytes) : Prop :=
  ∃ digits pad, c = digits ++ List.replicate pad 0x3D ∧ CanonicalParts digits pad

theorem exists_digit {d : UInt8} (h : d ∈ base64Alphabet) :
    ∃ v < 64, d = digit v ∧ (base64Value d).toNat = v := by
  obtain ⟨hvalue, hlt⟩ := toNat_base64Value h
  exact ⟨_, hvalue ▸ hlt, (digit_base64Value h).symm, rfl⟩

/-- The first byte of a group holds the first digit and the high bits of the second. -/
theorem firstByte {v₀ v₁ : Nat} (h₀ : v₀ < 64) (h₁ : v₁ < 64) :
    (v₀ * 4 + v₁ / 16).toUInt8.toNat / 4 = v₀ ∧
      (v₀ * 4 + v₁ / 16).toUInt8.toNat % 4 * 16 = v₁ / 16 * 16 := by
  rw [toNat_toUInt8 (by omega)]
  omega

theorem secondByte (v₁ : Nat) {v₂ : Nat} (h₂ : v₂ < 64) :
    (v₁ % 16 * 16 + v₂ / 4).toUInt8.toNat / 16 = v₁ % 16 ∧
      (v₁ % 16 * 16 + v₂ / 4).toUInt8.toNat % 16 * 4 = v₂ / 4 * 4 := by
  rw [toNat_toUInt8 (by omega)]
  omega

theorem thirdByte (v₂ : Nat) {v₃ : Nat} (h₃ : v₃ < 64) :
    (v₂ % 4 * 64 + v₃).toUInt8.toNat / 64 = v₂ % 4 ∧
      (v₂ % 4 * 64 + v₃).toUInt8.toNat % 64 = v₃ := by
  rw [toNat_toUInt8 (by omega)]
  omega

theorem encode_exactFrom_two {v₀ v₁ : Nat} (h₀ : v₀ < 64) (h₁ : v₁ < 64) (hlow : v₁ % 16 = 0) :
    base64Encode (exactFrom 0 0 [digit v₀, digit v₁, 0x3D, 0x3D]) =
      [digit v₀, digit v₁, 0x3D, 0x3D] := by
  obtain ⟨hfirst, hsecond⟩ := firstByte h₀ h₁
  have hv₁ : v₁ / 16 * 16 = v₁ := by omega
  rw [exactFrom_first h₀ h₁, exactFrom_pad, base64Encode_one, hfirst, hsecond, hv₁]

theorem encode_exactFrom_three {v₀ v₁ v₂ : Nat} (h₀ : v₀ < 64) (h₁ : v₁ < 64) (h₂ : v₂ < 64)
    (hlow : v₂ % 4 = 0) :
    base64Encode (exactFrom 0 0 [digit v₀, digit v₁, digit v₂, 0x3D]) =
      [digit v₀, digit v₁, digit v₂, 0x3D] := by
  obtain ⟨hfirst, hsecond⟩ := firstByte h₀ h₁
  obtain ⟨hsecond', hthird⟩ := secondByte v₁ h₂
  have hv₁ : v₁ / 16 * 16 + v₁ % 16 = v₁ := Nat.div_add_mod' v₁ 16
  have hv₂ : v₂ / 4 * 4 = v₂ := by omega
  rw [exactFrom_first h₀ h₁, exactFrom_second h₂, exactFrom_pad, base64Encode_two, hfirst, hsecond,
    hsecond', hthird, hv₁, hv₂]

theorem encode_exactFrom_group {v₀ v₁ v₂ v₃ : Nat} (h₀ : v₀ < 64) (h₁ : v₁ < 64) (h₂ : v₂ < 64)
    (h₃ : v₃ < 64) (rest : Bytes) :
    base64Encode (exactFrom 0 0 (digit v₀ :: digit v₁ :: digit v₂ :: digit v₃ :: rest)) =
      digit v₀ :: digit v₁ :: digit v₂ :: digit v₃ :: base64Encode (exactFrom 0 0 rest) := by
  obtain ⟨hfirst, hsecond⟩ := firstByte h₀ h₁
  obtain ⟨hsecond', hthird⟩ := secondByte v₁ h₂
  obtain ⟨hthird', hfourth⟩ := thirdByte v₂ h₃
  have hv₁ : v₁ / 16 * 16 + v₁ % 16 = v₁ := Nat.div_add_mod' v₁ 16
  have hv₂ : v₂ / 4 * 4 + v₂ % 4 = v₂ := Nat.div_add_mod' v₂ 4
  rw [exactFrom_first h₀ h₁, exactFrom_second h₂, exactFrom_third h₃, base64Encode_group, hfirst,
    hsecond, hsecond', hthird, hthird', hfourth, hv₁, hv₂]

/-- What follows the first group. -/
theorem CanonicalParts.behind {d₀ d₁ d₂ d₃ : UInt8} {digits : Bytes} {pad : Nat}
    (h : CanonicalParts (d₀ :: d₁ :: d₂ :: d₃ :: digits) pad) : CanonicalParts digits pad := by
  refine ⟨fun d hd => h.alphabet d (by simp [hd]), h.pad_le, ?_, fun d hd => ?_⟩
  · have hlength := h.length
    simp only [List.length_cons] at hlength
    omega
  · refine h.lowBits d ?_
    obtain ⟨e, es, rfl⟩ := List.exists_cons_of_ne_nil (List.ne_nil_of_mem
      (List.mem_of_getLast? hd))
    simpa only [List.getLast?_cons_cons] using hd

/-- **What is read is written again.** -/
theorem encode_exactFrom : ∀ (digits : Bytes) (pad : Nat), CanonicalParts digits pad →
    base64Encode (exactFrom 0 0 (digits ++ List.replicate pad 0x3D)) =
      digits ++ List.replicate pad 0x3D
  | [], pad, h => by
    have hpad := h.pad_le
    have hlength := h.length
    obtain rfl : pad = 0 := by
      rw [List.length_nil] at hlength
      omega
    rfl
  | [d₀], pad, h => by
    have hpad := h.pad_le
    have hlength := h.length
    rw [List.length_singleton] at hlength
    omega
  | [d₀, d₁], pad, h => by
    have hpad := h.pad_le
    have hlength := h.length
    obtain rfl : pad = 2 := by
      simp only [List.length_cons, List.length_nil] at hlength
      omega
    have hlow := h.lowBits d₁ rfl
    obtain ⟨v₀, h₀, rfl, -⟩ := exists_digit (h.alphabet d₀ (by simp))
    obtain ⟨v₁, h₁, rfl, hv₁⟩ := exists_digit (h.alphabet d₁ (by simp))
    rw [hv₁] at hlow
    exact encode_exactFrom_two h₀ h₁ hlow
  | [d₀, d₁, d₂], pad, h => by
    have hpad := h.pad_le
    have hlength := h.length
    obtain rfl : pad = 1 := by
      simp only [List.length_cons, List.length_nil] at hlength
      omega
    have hlow := h.lowBits d₂ rfl
    obtain ⟨v₀, h₀, rfl, -⟩ := exists_digit (h.alphabet d₀ (by simp))
    obtain ⟨v₁, h₁, rfl, -⟩ := exists_digit (h.alphabet d₁ (by simp))
    obtain ⟨v₂, h₂, rfl, hv₂⟩ := exists_digit (h.alphabet d₂ (by simp))
    rw [hv₂] at hlow
    exact encode_exactFrom_three h₀ h₁ h₂ hlow
  | d₀ :: d₁ :: d₂ :: d₃ :: digits, pad, h => by
    -- a whole group; what is behind it is canonical too
    obtain ⟨v₀, h₀, rfl, -⟩ := exists_digit (h.alphabet d₀ (by simp))
    obtain ⟨v₁, h₁, rfl, -⟩ := exists_digit (h.alphabet d₁ (by simp))
    obtain ⟨v₂, h₂, rfl, -⟩ := exists_digit (h.alphabet d₂ (by simp))
    obtain ⟨v₃, h₃, rfl, -⟩ := exists_digit (h.alphabet d₃ (by simp))
    simp only [List.cons_append]
    rw [encode_exactFrom_group h₀ h₁ h₂ h₃, encode_exactFrom digits pad h.behind]

theorem base64Decode_eq (s : Bytes) : base64Decode s = exactFrom 0 0 s :=
  base64DecodeFrom_eq s 0 (by decide)

theorem base64Decode_encode (x : Bytes) : base64Decode (base64Encode x) = x := by
  rw [base64Decode_eq, exactFrom_encode]

/-- **Base64 round trip.**  An encoding has the length and the form it should have, and is read back
with any white space in it; a canonical text is what its bytes are encoded as; and the decoder does
what one does whose register holds no more than the bits that are still to be written. -/
theorem base64_roundTrip :
    (∀ x : Bytes, (base64Encode x).length = 4 * ((x.length + 2) / 3) ∧
      (∃ digits pad, base64Encode x = digits ++ List.replicate pad 0x3D ∧ pad ≤ 2 ∧
        ∀ d ∈ digits, d ∈ base64Alphabet) ∧
      ∀ s : Bytes, (s.filter fun c => !Text.isspace c) = base64Encode x → base64Decode s = x) ∧
    (∀ c, Canonical c → base64Encode (base64Decode c) = c) ∧
    ∀ s, base64Decode s = exactFrom 0 0 s := by
  refine ⟨fun x => ⟨base64Encode_length x, base64Encode_digits x, fun s hs => ?_⟩, ?_,
    base64Decode_eq⟩
  · rw [base64Decode_eq, ← exactFrom_filter, hs, exactFrom_encode]
  · rintro c ⟨digits, pad, rfl, hparts⟩
    rw [base64Decode_eq, encode_exactFrom digits pad hparts]

end SimpleCoder

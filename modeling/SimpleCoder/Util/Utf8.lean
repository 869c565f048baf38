/-
# UTF-8

The functions of `Utf8.cpp` work on byte positions: they find character boundaries by the form of
the bytes alone.  On the encoding of a list of characters (`encodeText`) they do what they are for.

* §1 has the functions, and §2 the bytes of one character: a first byte that says how many there
  are, and continuation bytes.
* §3: from the boundary behind some characters, `next_boundary` leads over one more, `prev_boundary`
  back over one, and `count` counts them.
-/
import SimpleCoder.Bytes

namespace SimpleCoder

namespace Utf8

/-! ## 1. The functions -/

/-- `seq_len`: the length of a sequence by its first byte, and 1 for what is none. -/
def seqLen (b : UInt8) : Nat :=
  if b < 0x80 then 1
  else if b &&& 0xE0 = 0xC0 then 2
  else if b &&& 0xF0 = 0xE0 then 3
  else if b &&& 0xF8 = 0xF0 then 4
  else 1

/-- `is_cont`. -/
def isCont (b : UInt8) : Bool := b &&& 0xC0 = 0x80

/-- A continuation byte with the low six bits of a value. -/
def contByte (v : UInt32) : UInt8 := ((0x80 : UInt32) ||| (v &&& 0x3F)).toUInt8

/-- `encode`. -/
def encode (cp : UInt32) : Bytes :=
  if cp ≤ 0x7F then [cp.toUInt8]
  else if cp ≤ 0x7FF then [((0xC0 : UInt32) ||| (cp >>> 6)).toUInt8, contByte cp]
  else if cp ≤ 0xFFFF then
    [((0xE0 : UInt32) ||| (cp >>> 12)).toUInt8, contByte (cp >>> 6), contByte cp]
  else
    [((0xF0 : UInt32) ||| (cp >>> 18)).toUInt8, contByte (cp >>> 12), contByte (cp >>> 6),
      contByte cp]

/-- The loop of `prev_boundary`: back over continuation bytes, but not past the start. -/
def skipBack (s : Bytes) : Nat → Nat
  | 0 => 0
  | i + 1 => if (s[i + 1]?).any isCont then skipBack s i else i + 1

/-- `prev_boundary`. -/
def prevBoundary (s : Bytes) (pos : Nat) : Nat := if pos = 0 then 0 else skipBack s (pos - 1)

/-- `next_boundary`. -/
def nextBoundary (s : Bytes) (pos : Nat) : Nat :=
  match s[pos]? with
  | none => s.length
  | some b => min (pos + seqLen b) s.length

/-- `snap_boundary`, whose loop is that of `prev_boundary`. -/
def snapBoundary (s : Bytes) (pos : Nat) : Nat :=
  if pos = 0 ∨ s.length ≤ pos then (if s.length < pos then s.length else pos)
  else if (s[pos]?).any isCont then skipBack s pos else pos

/-- The loop of `count`, which steps over `skip` more bytes before the next character. -/
def countFrom : Nat → Bytes → Nat
  | _, [] => 0
  | 0, b :: s => countFrom (seqLen b - 1) s + 1
  | skip + 1, _ :: s => countFrom skip s

/-- `count`. -/
def count (s : Bytes) : Nat := countFrom 0 s

/-- The encoding of some characters. -/
def encodeText (cs : List Char) : Bytes := cs.flatMap fun c => encode c.val

/-! ## 2. The bytes of a character -/

/-- What is true of all bytes can be checked. -/
theorem forall_byte {P : UInt8 → Prop} (h : ∀ b : BitVec 8, P ⟨b⟩) (c : UInt8) : P c := h c.toBitVec

theorem isCont_cont : ∀ x : UInt8, isCont (x &&& 0x3F ||| 0x80) = true :=
  forall_byte (by decide)

theorem lead_one : ∀ x : UInt8, x < 0x80 → isCont x = false ∧ seqLen x = 1 :=
  forall_byte (by decide)

theorem lead_two : ∀ x : UInt8, isCont (x &&& 0x1F ||| 0xC0) = false ∧
    seqLen (x &&& 0x1F ||| 0xC0) = 2 := forall_byte (by decide)

theorem lead_three : ∀ x : UInt8, isCont (x &&& 0x0F ||| 0xE0) = false ∧
    seqLen (x &&& 0x0F ||| 0xE0) = 3 := forall_byte (by decide)

theorem lead_four : ∀ x : UInt8, isCont (x &&& 0x07 ||| 0xF0) = false ∧
    seqLen (x &&& 0x07 ||| 0xF0) = 4 := forall_byte (by decide)

theorem contByte_eq (v : UInt32) : contByte v = v.toUInt8 &&& 0x3F ||| 0x80 := by
  unfold contByte
  rw [UInt32.toUInt8_or, UInt32.toUInt8_and, UInt8.or_comm]
  rfl

/-- The low bits of a value that has no others. -/
theorem low_bits {x : UInt8} {k : Nat} (hk : k ≤ 8) (h : x.toNat < 2 ^ k) :
    x &&& UInt8.ofNat (2 ^ k - 1) = x := by
  have hpow : 2 ^ k ≤ 2 ^ 8 := Nat.pow_le_pow_right (by decide) hk
  have hpos : 0 < 2 ^ k := Nat.two_pow_pos k
  rw [← UInt8.toNat_inj, UInt8.toNat_and, UInt8.toNat_ofNat', Nat.mod_eq_of_lt (by omega),
    Nat.and_two_pow_sub_one_eq_mod, Nat.mod_eq_of_lt h]

/-- The low byte of a value shifted right. -/
theorem toNat_shifted_lt {v k : UInt32} {bound : Nat} (h : v.toNat / 2 ^ (k.toNat % 32) < bound) :
    (v >>> k).toUInt8.toNat < bound := by
  rw [UInt32.toNat_toUInt8, UInt32.toNat_shiftRight, Nat.shiftRight_eq_div_pow]
  exact (Nat.mod_le _ _).trans_lt h

/-- **`encode` is UTF-8.** -/
theorem encode_eq (c : Char) : encode c.val = String.utf8EncodeChar c := by
  have hmax : c.val.toNat < 0x110000 := by
    have h := c.valid
    simp only [UInt32.isValidChar, Nat.isValidChar] at h
    omega
  rw [String.utf8EncodeChar_eq_utf8EncodeCharFast]
  unfold encode String.utf8EncodeCharFast
  simp only [contByte_eq, UInt32.toUInt8_or]
  split
  · rfl
  split
  · rename_i h
    simp only [UInt32.le_iff_toNat_le, UInt32.reduceToNat] at h
    have hlow : (c.val >>> (6 : UInt32)).toUInt8 &&& (0x1F : UInt8) =
        (c.val >>> (6 : UInt32)).toUInt8 := low_bits (k := 5) (by decide)
      (toNat_shifted_lt (by simp only [UInt32.reduceToNat, Nat.reduceMod, Nat.reducePow]; omega))
    rw [hlow, UInt8.or_comm]
    rfl
  split
  · rename_i h
    simp only [UInt32.le_iff_toNat_le, UInt32.reduceToNat] at h
    have hlow : (c.val >>> (12 : UInt32)).toUInt8 &&& (0x0F : UInt8) =
        (c.val >>> (12 : UInt32)).toUInt8 := low_bits (k := 4) (by decide)
      (toNat_shifted_lt (by simp only [UInt32.reduceToNat, Nat.reduceMod, Nat.reducePow]; omega))
    rw [hlow, UInt8.or_comm]
    rfl
  · have hlow : (c.val >>> (18 : UInt32)).toUInt8 &&& (0x07 : UInt8) =
        (c.val >>> (18 : UInt32)).toUInt8 := low_bits (k := 3) (by decide)
      (toNat_shifted_lt (by simp only [UInt32.reduceToNat, Nat.reduceMod, Nat.reducePow]; omega))
    rw [hlow, UInt8.or_comm]
    rfl

/-- **The encoded texts are the valid ones.** -/
theorem valid_iff {s : Bytes} : SimpleCoder.Utf8 s ↔ ∃ cs, s = encodeText cs := by
  have henc : ∀ cs : List Char, encodeText cs = cs.flatMap String.utf8EncodeChar := fun cs =>
    List.flatMap_congr fun c _ => encode_eq c
  constructor
  · rintro ⟨cs, hcs⟩
    refine ⟨cs, ?_⟩
    rw [henc]
    have hdata := congrArg (fun b : ByteArray => b.data.toList) hcs
    simpa [List.utf8Encode] using hdata
  · rintro ⟨cs, rfl⟩
    rw [henc]
    exact ⟨cs, rfl⟩

/-- The form of an encoded character: a first byte that tells its length, and continuation bytes. -/
def Sequence (s : Bytes) : Prop :=
  ∃ b rest, s = b :: rest ∧ isCont b = false ∧ seqLen b = rest.length + 1 ∧
    ∀ r ∈ rest, isCont r = true

theorem sequence_encode (c : Char) : Sequence (encode c.val) := by
  rw [encode_eq, String.utf8EncodeChar_eq_utf8EncodeCharFast]
  unfold String.utf8EncodeCharFast
  dsimp only
  split
  · rename_i h
    have hlt : c.val.toUInt8 < 0x80 := by
      simp only [UInt32.le_iff_toNat_le, UInt32.reduceToNat] at h
      rw [UInt8.lt_iff_toNat_lt, UInt32.toNat_toUInt8]
      exact (Nat.mod_le _ _).trans_lt (by simp only [UInt8.reduceToNat]; omega)
    exact ⟨_, [], rfl, (lead_one _ hlt).1, (lead_one _ hlt).2, by simp⟩
  split
  · exact ⟨_, _, rfl, (lead_two _).1, (lead_two _).2, by simp [isCont_cont]⟩
  split
  · exact ⟨_, _, rfl, (lead_three _).1, (lead_three _).2, by simp [isCont_cont]⟩
  · exact ⟨_, _, rfl, (lead_four _).1, (lead_four _).2, by simp [isCont_cont]⟩

/-- Only a newline has the byte of a newline. -/
theorem newline_mem_encode_iff (c : Char) : newline ∈ encode c.val ↔ c = '\n' := by
  by_cases hascii : c.val ≤ 0x7F
  · unfold encode
    rw [if_pos hascii, List.mem_singleton]
    constructor
    · intro h
      have hval : c.val = 0x0A := by
        rw [← UInt32.toNat_inj]
        have hnat := congrArg UInt8.toNat h
        simp only [UInt32.le_iff_toNat_le, UInt32.reduceToNat] at hascii
        rw [UInt32.toNat_toUInt8, Nat.mod_eq_of_lt (by omega)] at hnat
        exact hnat.symm
      exact Char.ext hval
    · rintro rfl
      decide
  · refine iff_of_false (fun hmem => ?_) fun hc => hascii (by rw [hc]; decide)
    obtain ⟨b, rest, hseq, -, hlen, hcont⟩ := sequence_encode c
    have hlong : 1 < (encode c.val).length := by
      unfold encode
      rw [if_neg hascii]
      split
      · simp
      split <;> simp
    rw [hseq] at hmem hlong
    rcases List.mem_cons.mp hmem with rfl | hrest
    · have hone : seqLen newline = 1 := by decide
      rw [hone] at hlen
      rw [List.length_cons] at hlong
      omega
    · exact absurd (hcont _ hrest) (by decide)

/-! ## 3. The functions on encoded text -/

@[simp] theorem encodeText_nil : encodeText [] = [] := rfl

@[simp] theorem encodeText_cons (c : Char) (cs : List Char) :
    encodeText (c :: cs) = encode c.val ++ encodeText cs := List.flatMap_cons

@[simp] theorem encodeText_append (xs ys : List Char) :
    encodeText (xs ++ ys) = encodeText xs ++ encodeText ys := List.flatMap_append

theorem encodeText_singleton (c : Char) : encodeText [c] = encode c.val := by simp

/-- A byte below 0x80 is the encoding of its character. -/
theorem encodeText_ascii {n : Nat} (h : n < 0x80) :
    encodeText [Char.ofNat n] = [n.toUInt8] := by
  have hvalid : n.isValidChar := Or.inl (by omega)
  have hval : (Char.ofNat n).val.toNat = n := by
    unfold Char.ofNat
    rw [dif_pos hvalid]
    rfl
  have hbyte : (Char.ofNat n).val.toUInt8 = n.toUInt8 := by
    rw [← UInt8.toNat_inj, UInt32.toNat_toUInt8, hval]
    exact UInt8.toNat_ofNat'.symm
  rw [encodeText_singleton, encode, if_pos, hbyte]
  rw [UInt32.le_iff_toNat_le, hval]
  exact Nat.le_of_lt_succ h

/-- **From behind some characters to behind one more.** -/
theorem nextBoundary_encodeText (xs : List Char) (c : Char) (ys : List Char) :
    nextBoundary (encodeText (xs ++ c :: ys)) (encodeText xs).length =
      (encodeText (xs ++ [c])).length := by
  obtain ⟨b, rest, hseq, -, hlen, -⟩ := sequence_encode c
  unfold nextBoundary
  simp only [encodeText_append, encodeText_cons, encodeText_nil, hseq]
  rw [List.getElem?_append_right (Nat.le_refl _)]
  simp only [Nat.sub_self, List.cons_append, List.getElem?_cons_zero, hlen, List.length_append,
    List.length_cons, List.length_nil]
  omega

/-- The end is the last boundary. -/
theorem nextBoundary_length (s : Bytes) : nextBoundary s s.length = s.length := by
  unfold nextBoundary
  rw [List.getElem?_eq_none (Nat.le_refl _)]

theorem skipBack_eq {s : Bytes} {pos : Nat} (hlead : (s[pos]?).any isCont = false) :
    ∀ n, (∀ i < n, (s[pos + i + 1]?).any isCont = true) → skipBack s (pos + n) = pos
  | 0, _ => by
    cases pos with
    | zero => rfl
    | succ pos =>
      rw [Nat.add_zero, skipBack, hlead]
      rfl
  | n + 1, h => by
    rw [← Nat.add_assoc, skipBack, h n (Nat.lt_succ_self n), if_pos rfl]
    exact skipBack_eq hlead n fun i hi => h i (Nat.lt_succ_of_lt hi)

/-- **From behind some characters and one more back to behind the others.** -/
theorem prevBoundary_encodeText (xs : List Char) (c : Char) (t : Bytes) :
    prevBoundary (encodeText (xs ++ [c]) ++ t) (encodeText (xs ++ [c])).length =
      (encodeText xs).length := by
  obtain ⟨b, rest, hseq, hlead, -, hcont⟩ := sequence_encode c
  simp only [encodeText_append, encodeText_singleton, hseq]
  unfold prevBoundary
  rw [if_neg (by simp), List.append_assoc, List.length_append, List.length_cons, ← Nat.add_assoc,
    Nat.add_sub_cancel]
  refine skipBack_eq ?_ _ fun i hi => ?_
  · rw [List.getElem?_append_right (Nat.le_refl _), Nat.sub_self]
    exact hlead
  · rw [List.getElem?_append_right (by omega), Nat.add_assoc, Nat.add_sub_cancel_left,
      List.cons_append, List.getElem?_cons_succ, List.getElem?_append_left hi,
      List.getElem?_eq_getElem hi]
    exact hcont _ (List.getElem_mem hi)

theorem countFrom_append (l s : Bytes) : countFrom l.length (l ++ s) = countFrom 0 s := by
  induction l with
  | nil => rfl
  | cons b l ih => exact ih

/-- **`count` counts the characters.** -/
theorem count_encodeText (cs : List Char) : count (encodeText cs) = cs.length := by
  unfold count
  induction cs with
  | nil => rfl
  | cons c cs ih =>
    obtain ⟨b, rest, hseq, -, hlen, -⟩ := sequence_encode c
    rw [encodeText_cons, hseq, List.cons_append, countFrom, hlen, Nat.add_sub_cancel,
      countFrom_append, ih, List.length_cons]

/-! ## 4. Positions -/

/-- The byte position of a position among the characters. -/
def offset (cs : List Char) (pos : Nat) : Nat := (encodeText (cs.take pos)).length

section

variable {cs : List Char} {pos stop : Nat}

@[simp] theorem offset_zero (cs : List Char) : offset cs 0 = 0 := rfl

theorem offset_of_length_le (h : cs.length ≤ pos) : offset cs pos = (encodeText cs).length := by
  unfold offset
  rw [List.take_of_length_le h]

theorem encode_length_pos (c : Char) : 0 < (encode c.val).length := by
  obtain ⟨b, rest, hseq, -⟩ := sequence_encode c
  rw [hseq]
  exact Nat.succ_pos _

theorem offset_succ (h : pos < cs.length) :
    offset cs (pos + 1) = offset cs pos + (encode cs[pos].val).length := by
  unfold offset
  rw [List.take_succ_eq_append_getElem h, encodeText_append, encodeText_singleton,
    List.length_append]

theorem offset_mono (h : pos ≤ stop) : offset cs pos ≤ offset cs stop := by
  unfold offset
  rw [← Nat.add_sub_cancel' h, List.take_add, encodeText_append, List.length_append]
  exact Nat.le_add_right _ _

theorem offset_lt (h : pos < stop) (hstop : stop ≤ cs.length) : offset cs pos < offset cs stop := by
  have hlt : pos < cs.length := by omega
  have hsucc := offset_succ hlt
  have hpos := encode_length_pos cs[pos]
  have hmono : offset cs (pos + 1) ≤ offset cs stop := offset_mono h
  omega

theorem offset_inj (h : pos ≤ cs.length) (hstop : stop ≤ cs.length) :
    offset cs pos = offset cs stop ↔ pos = stop := by
  refine ⟨fun heq => ?_, fun heq => by rw [heq]⟩
  rcases Nat.lt_trichotomy pos stop with hlt | heq' | hlt
  · exact absurd heq (Nat.ne_of_lt (offset_lt hlt hstop))
  · exact heq'
  · exact absurd heq.symm (Nat.ne_of_lt (offset_lt hlt h))

/-- The bytes before a position, and those from there on. -/
theorem take_offset (cs : List Char) (pos : Nat) :
    (encodeText cs).take (offset cs pos) = encodeText (cs.take pos) := by
  conv_lhs => rw [← List.take_append_drop pos cs]
  rw [encodeText_append, offset, List.take_append_drop, List.take_left]

theorem drop_offset (cs : List Char) (pos : Nat) :
    (encodeText cs).drop (offset cs pos) = encodeText (cs.drop pos) := by
  conv_lhs => rw [← List.take_append_drop pos cs]
  rw [encodeText_append, offset, List.take_append_drop, List.drop_left]

theorem getElem?_offset_add (cs : List Char) (pos i : Nat) :
    (encodeText cs)[offset cs pos + i]? = (encodeText (cs.drop pos))[i]? := by
  rw [← drop_offset, List.getElem?_drop]

theorem nextBoundary_offset (h : pos ≤ cs.length) :
    nextBoundary (encodeText cs) (offset cs pos) = offset cs (min (pos + 1) cs.length) := by
  rcases Nat.lt_or_ge pos cs.length with hlt | hge
  · rw [Nat.min_eq_left hlt]
    have h := nextBoundary_encodeText (cs.take pos) cs[pos] (cs.drop (pos + 1))
    rw [List.getElem_cons_drop, List.take_append_drop] at h
    rw [offset, h, offset, List.take_succ_eq_append_getElem hlt]
  · have heq : pos = cs.length := by omega
    subst heq
    rw [Nat.min_eq_right (Nat.le_succ _), offset_of_length_le (Nat.le_refl _), nextBoundary_length]

theorem prevBoundary_offset (h : pos ≤ cs.length) :
    prevBoundary (encodeText cs) (offset cs pos) = offset cs (pos - 1) := by
  cases pos with
  | zero => rfl
  | succ pos =>
    have hprev := prevBoundary_encodeText (cs.take pos) cs[pos] (encodeText (cs.drop (pos + 1)))
    rw [← List.take_succ_eq_append_getElem h, ← encodeText_append, List.take_append_drop] at hprev
    exact hprev

/-- `count` of what is between two positions. -/
theorem count_offset (h : pos ≤ stop) (hstop : stop ≤ cs.length) :
    count (((encodeText cs).drop (offset cs pos)).take (offset cs stop - offset cs pos)) =
      stop - pos := by
  have hsplit : cs.take stop = cs.take pos ++ (cs.drop pos).take (stop - pos) := by
    rw [← List.take_add, Nat.add_sub_cancel' h]
  have hlen : offset cs stop - offset cs pos = offset (cs.drop pos) (stop - pos) := by
    unfold offset
    rw [hsplit, encodeText_append, List.length_append, Nat.add_sub_cancel_left]
  rw [drop_offset, hlen, take_offset, count_encodeText, List.length_take, List.length_drop]
  omega

end

/-! ## 5. Cutting a valid text -/

/-- A character in front of a text does not matter for whether it is valid. -/
theorem valid_encode_append_iff (c : Char) (t : Bytes) :
    SimpleCoder.Utf8 (encode c.val ++ t) ↔ SimpleCoder.Utf8 t := by
  have hencode : (encode c.val ++ t).toByteArray = [c].utf8Encode ++ t.toByteArray := by
    rw [encode_eq, List.toByteArray_append]
    simp [List.utf8Encode]
  unfold SimpleCoder.Utf8
  rw [hencode]
  exact ByteArray.isValidUTF8_utf8Encode_singleton_append_iff

/-- Neither does a valid text. -/
theorem valid_append_iff_right {s : Bytes} (hs : SimpleCoder.Utf8 s) (t : Bytes) :
    SimpleCoder.Utf8 (s ++ t) ↔ SimpleCoder.Utf8 t := by
  obtain ⟨cs, rfl⟩ := valid_iff.mp hs
  induction cs with
  | nil => rfl
  | cons c cs ih =>
    rw [encodeText_cons, List.append_assoc, valid_encode_append_iff]
    exact ih (valid_iff.mpr ⟨cs, rfl⟩)

/-- Bytes below 0x80 are valid text. -/
theorem valid_ascii {s : Bytes} (h : ∀ b ∈ s, b < 0x80) : SimpleCoder.Utf8 s := by
  induction s with
  | nil => exact utf8_nil
  | cons b s ih =>
    have hbyte := encodeText_ascii (UInt8.lt_iff_toNat_lt.mp (h b List.mem_cons_self))
    rw [show b.toNat.toUInt8 = b from UInt8.ofNat_toNat, encodeText_singleton] at hbyte
    rw [← List.singleton_append, ← hbyte, valid_encode_append_iff]
    exact ih fun c hc => h c (List.mem_cons_of_mem _ hc)

/-- The position is the start of a character, or behind the text. -/
def AtBoundary (s : Bytes) (n : Nat) : Prop := ∀ b, s[n]? = some b → isCont b = false

/-- A part of a character is not valid. -/
theorem not_valid_take_encode (c : Char) {n : Nat} (hpos : 0 < n)
    (hlt : n < (encode c.val).length) : ¬ SimpleCoder.Utf8 ((encode c.val).take n) := by
  obtain ⟨b, rest, hseq, -, hlen, -⟩ := sequence_encode c
  obtain ⟨n, rfl⟩ : ∃ k, n = k + 1 := ⟨n - 1, by omega⟩
  rw [hseq] at hlt ⊢
  intro h
  obtain ⟨cs, hcs⟩ := valid_iff.mp h
  cases cs with
  | nil => cases hcs
  | cons c' cs =>
    -- the first byte tells the length of the character, and there are not as many
    obtain ⟨b', rest', hseq', -, hlen', -⟩ := sequence_encode c'
    rw [encodeText_cons, hseq', List.take_succ_cons, List.cons_append] at hcs
    obtain ⟨rfl, hrest⟩ := List.cons.inj hcs
    have hlength := congrArg List.length hrest
    rw [List.length_take, List.length_append] at hlength
    rw [List.length_cons] at hlt
    omega

/-- **Cutting a valid text** leaves a valid text exactly at the start of a character. -/
theorem valid_take_iff {s : Bytes} (hs : SimpleCoder.Utf8 s) (n : Nat) :
    SimpleCoder.Utf8 (s.take n) ↔ AtBoundary s n := by
  obtain ⟨cs, rfl⟩ := valid_iff.mp hs
  induction cs generalizing n with
  | nil => simp [AtBoundary]
  | cons c cs ih =>
    obtain ⟨b, rest, hseq, hlead, hlen, hcont⟩ := sequence_encode c
    have htail : SimpleCoder.Utf8 (encodeText cs) := valid_iff.mpr ⟨cs, rfl⟩
    unfold AtBoundary at ih ⊢
    rw [encodeText_cons]
    rcases Nat.eq_zero_or_pos n with rfl | hpos
    · refine iff_of_true utf8_nil fun b' hb' => ?_
      rw [hseq, List.cons_append, List.getElem?_cons_zero] at hb'
      rwa [← Option.some.inj hb']
    · rcases Nat.lt_or_ge n (encode c.val).length with hlt | hge
      · rw [List.take_append_of_le_length hlt.le, List.getElem?_append_left hlt]
        refine iff_of_false (not_valid_take_encode c hpos hlt) fun h => ?_
        obtain ⟨n, rfl⟩ : ∃ k, n = k + 1 := ⟨n - 1, by omega⟩
        rw [hseq] at h hlt
        have hn : n < rest.length := by simpa using hlt
        have hmem : rest[n]? = some rest[n] := List.getElem?_eq_getElem hn
        have hno := h _ (by rw [List.getElem?_cons_succ, hmem])
        rw [hcont _ (List.getElem_mem _)] at hno
        cases hno
      · rw [List.take_append, List.take_of_length_le hge, valid_encode_append_iff,
          List.getElem?_append_right hge]
        exact ih _ htail

/-- A text that does not begin within a character is valid behind a valid one only. -/
theorem valid_append_iff {s t : Bytes} (ht : ∀ b, t.head? = some b → isCont b = false) :
    SimpleCoder.Utf8 (s ++ t) ↔ SimpleCoder.Utf8 s ∧ SimpleCoder.Utf8 t := by
  refine ⟨fun h => ?_, fun h => h.1.append h.2⟩
  have hs : SimpleCoder.Utf8 s := by
    have htake : (s ++ t).take s.length = s := List.take_left
    rw [← htake, valid_take_iff h]
    intro b hb
    rw [List.getElem?_append_right (Nat.le_refl _), Nat.sub_self, ← List.head?_eq_getElem?] at hb
    exact ht b hb
  exact ⟨hs, (valid_append_iff_right hs t).mp h⟩

end Utf8

end SimpleCoder

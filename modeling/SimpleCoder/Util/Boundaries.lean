/-
# Walking over the boundaries of a text

The loops of the user interface walk a text from boundary to boundary, and what they walk over need
not be valid: it may be the output of a command.  §1 is about any bytes whatsoever: a step forward
is a step forward, a step back one back, and none leaves the text, so that every walk ends.  §2 is
about encoded text, where the places the walks stop at are the boundaries between its characters.
§3 is about columns, which are characters: taking so many of them, and counting them.
-/
import SimpleCoder.Util.Utf8
import SimpleCoder.Lib.Growing
import Mathlib.Logic.Function.Iterate

namespace SimpleCoder

namespace Utf8

/-! ## 1. Any bytes -/

section Bytes

variable {s : Bytes} {pos : Nat}

theorem seqLen_pos (b : UInt8) : 0 < seqLen b := by
  unfold seqLen
  split_ifs <;> exact Nat.succ_pos _

theorem nextBoundary_le (s : Bytes) (pos : Nat) : nextBoundary s pos ≤ s.length := by
  unfold nextBoundary
  split
  · exact Nat.le_refl _
  · exact Nat.min_le_right _ _

/-- **A step forward leads forward.** -/
theorem lt_nextBoundary (h : pos < s.length) : pos < nextBoundary s pos := by
  have hpos := seqLen_pos s[pos]
  unfold nextBoundary
  rw [List.getElem?_eq_getElem h]
  exact Nat.lt_min.mpr ⟨by omega, h⟩

theorem skipBack_le (s : Bytes) (pos : Nat) : skipBack s pos ≤ pos := by
  induction pos with
  | zero => exact Nat.le_refl _
  | succ pos ih =>
    rw [skipBack]
    split
    · exact ih.trans (Nat.le_succ _)
    · exact Nat.le_refl _

/-- **A step back leads back.** -/
theorem prevBoundary_lt (s : Bytes) (h : 0 < pos) : prevBoundary s pos < pos := by
  have hle := skipBack_le s (pos - 1)
  unfold prevBoundary
  rw [if_neg (by omega)]
  omega

theorem prevBoundary_le (s : Bytes) (pos : Nat) : prevBoundary s pos ≤ pos := by
  rcases Nat.eq_zero_or_pos pos with rfl | hpos
  · exact Nat.le_refl _
  · exact (prevBoundary_lt s hpos).le

/-- Inside the text, `snap_boundary` is the loop alone. -/
theorem snapBoundary_eq_skipBack (h : pos < s.length) : snapBoundary s pos = skipBack s pos := by
  unfold snapBoundary
  cases pos with
  | zero => rw [if_pos (Or.inl rfl), if_neg (by omega), skipBack]
  | succ pos =>
    rw [if_neg (by omega), skipBack]
    split <;> rfl

theorem snapBoundary_length (s : Bytes) : snapBoundary s s.length = s.length := by
  unfold snapBoundary
  rw [if_pos (Or.inr (Nat.le_refl _)), if_neg (Nat.lt_irrefl _)]

theorem snapBoundary_le (s : Bytes) (pos : Nat) : snapBoundary s pos ≤ min pos s.length := by
  rcases Nat.lt_trichotomy pos s.length with hlt | rfl | hgt
  · have hle := skipBack_le s pos
    rw [snapBoundary_eq_skipBack hlt]
    omega
  · rw [snapBoundary_length, Nat.min_self]
  · unfold snapBoundary
    rw [if_pos (Or.inr hgt.le), if_pos hgt]
    omega

theorem countFrom_le (s : Bytes) (skip : Nat) : countFrom skip s ≤ s.length := by
  induction s generalizing skip with
  | nil => rw [countFrom]; exact Nat.le_refl _
  | cons b s ih =>
    cases skip with
    | zero => rw [countFrom]; exact Nat.succ_le_succ (ih _)
    | succ skip => rw [countFrom]; exact (ih skip).trans (Nat.le_succ _)

/-- A walk forward arrives at the end: each step takes at least one byte. -/
theorem iterate_nextBoundary {n : Nat} (h : s.length ≤ pos + n) (hpos : pos ≤ s.length) :
    (nextBoundary s)^[n] pos = s.length := by
  induction n generalizing pos with
  | zero => exact Nat.le_antisymm hpos h
  | succ n ih =>
    rw [Function.iterate_succ_apply]
    refine ih ?_ (nextBoundary_le s pos)
    rcases Nat.lt_or_eq_of_le hpos with hlt | rfl
    · have hstep := lt_nextBoundary hlt
      omega
    · rw [nextBoundary_length]
      omega

/-- A walk back arrives at the start. -/
theorem iterate_prevBoundary (s : Bytes) {n : Nat} (h : pos ≤ n) :
    (prevBoundary s)^[n] pos = 0 := by
  induction n generalizing pos with
  | zero => exact Nat.le_zero.mp h
  | succ n ih =>
    rw [Function.iterate_succ_apply]
    refine ih ?_
    rcases Nat.eq_zero_or_pos pos with rfl | hpos
    · exact Nat.zero_le _
    · have hstep := prevBoundary_lt s hpos
      omega

end Bytes

/-! ## 2. Encoded text -/

section Text

variable {cs : List Char} {pos stop : Nat}

/-- A character and what is behind it, from its boundary on. -/
theorem encodeText_drop (h : pos < cs.length) :
    encodeText (cs.drop pos) = encode cs[pos].val ++ encodeText (cs.drop (pos + 1)) := by
  rw [← List.getElem_cons_drop h, encodeText_cons]

/-- There is the start of a character at a boundary. -/
theorem not_isCont_offset (cs : List Char) (pos : Nat) :
    ((encodeText cs)[offset cs pos]?).any isCont = false := by
  rw [← Nat.add_zero (offset cs pos), getElem?_offset_add]
  rcases Nat.lt_or_ge pos cs.length with hlt | hge
  · obtain ⟨b, rest, hseq, hlead, -, -⟩ := sequence_encode cs[pos]
    rw [encodeText_drop hlt, hseq]
    exact hlead
  · rw [List.drop_of_length_le hge]
    rfl

/-- Between two boundaries there are continuation bytes. -/
theorem isCont_offset_add (h : pos < cs.length) {i : Nat}
    (hi : i + 1 < (encode cs[pos].val).length) :
    ((encodeText cs)[offset cs pos + i + 1]?).any isCont = true := by
  obtain ⟨b, rest, hseq, -, -, hcont⟩ := sequence_encode cs[pos]
  rw [hseq, List.length_cons] at hi
  have hrest : i < rest.length := by omega
  rw [Nat.add_assoc, getElem?_offset_add, encodeText_drop h, hseq, List.cons_append,
    List.getElem?_cons_succ, List.getElem?_append_left hrest, List.getElem?_eq_getElem hrest]
  exact hcont _ (List.getElem_mem hrest)

/-- From any byte of a character, the loop goes back to where the character starts. -/
theorem skipBack_offset_add (h : pos < cs.length) {i : Nat}
    (hi : i < (encode cs[pos].val).length) :
    skipBack (encodeText cs) (offset cs pos + i) = offset cs pos :=
  skipBack_eq (not_isCont_offset cs pos) i fun j hj => isCont_offset_add h (by omega)

/-- A byte before a boundary is a byte of a character before it. -/
theorem exists_offset_le (p : Nat) : ∀ stop, p < offset cs stop →
    ∃ pos < stop, offset cs pos ≤ p ∧ p < offset cs (pos + 1)
  | 0, h => absurd h (Nat.not_lt_zero _)
  | stop + 1, h => by
    rcases Nat.lt_or_ge p (offset cs stop) with hlt | hge
    · obtain ⟨pos, hpos, hle, hnext⟩ := exists_offset_le p stop hlt
      exact ⟨pos, by omega, hle, hnext⟩
    · exact ⟨stop, Nat.lt_succ_self _, hge, h⟩

/-- **`snap_boundary` finds the last boundary** that is not behind the position. -/
theorem snapBoundary_offset {p : Nat} (h : p ≤ (encodeText cs).length) :
    ∃ pos ≤ cs.length, snapBoundary (encodeText cs) p = offset cs pos ∧
      offset cs pos ≤ p ∧ ∀ other, offset cs other ≤ p → offset cs other ≤ offset cs pos := by
  have hlen : offset cs cs.length = (encodeText cs).length := offset_of_length_le (Nat.le_refl _)
  rcases Nat.lt_or_eq_of_le h with hlt | rfl
  · obtain ⟨pos, hpos, hle, hnext⟩ := exists_offset_le p cs.length (hlt.trans_eq hlen.symm)
    refine ⟨pos, hpos.le, ?_, hle, fun other hother => ?_⟩
    · obtain ⟨i, rfl⟩ := Nat.exists_eq_add_of_le hle
      rw [offset_succ hpos] at hnext
      rw [snapBoundary_eq_skipBack hlt, skipBack_offset_add hpos (by omega)]
    · rcases Nat.lt_or_ge pos other with hbehind | hbefore
      · have hmono : offset cs (pos + 1) ≤ offset cs other := offset_mono hbehind
        omega
      · exact offset_mono hbefore
  · refine ⟨cs.length, Nat.le_refl _, ?_, hlen.le, fun other hother => ?_⟩
    · rw [snapBoundary_length, hlen]
    · rw [hlen]
      exact hother

end Text

/-! ## 3. Columns -/

/-- Over at most so many characters: the loop of `take_cols` and `bytes_for_cols`. -/
def advance (s : Bytes) : Nat → Nat → Nat
  | 0, i => i
  | n + 1, i => if i < s.length then advance s n (nextBoundary s i) else i

section Columns

variable {s : Bytes} {n i : Nat}

theorem advance_length (s : Bytes) (n : Nat) : advance s n s.length = s.length := by
  cases n with
  | zero => rfl
  | succ n => rw [advance, if_neg (Nat.lt_irrefl _)]

theorem advance_le (n : Nat) (h : i ≤ s.length) : advance s n i ≤ s.length := by
  induction n generalizing i with
  | zero => exact h
  | succ n ih =>
    unfold advance
    split
    · exact ih (nextBoundary_le s i)
    · exact h

theorem le_advance (n : Nat) (h : i ≤ s.length) : i ≤ advance s n i := by
  induction n generalizing i with
  | zero => exact Nat.le_refl _
  | succ n ih =>
    unfold advance
    split
    · rename_i hlt
      exact (lt_nextBoundary hlt).le.trans (ih (nextBoundary_le s i))
    · exact Nat.le_refl _

/-- There is a character to go over, if there is anything. -/
theorem lt_advance (hn : 0 < n) (h : i < s.length) : i < advance s n i := by
  obtain ⟨n, rfl⟩ : ∃ k, n = k + 1 := ⟨n - 1, by omega⟩
  rw [advance, if_pos h]
  exact (lt_nextBoundary h).trans_le (le_advance n (nextBoundary_le s i))

theorem nextBoundary_append (l s : Bytes) (i : Nat) :
    nextBoundary (l ++ s) (l.length + i) = l.length + nextBoundary s i := by
  unfold nextBoundary
  rw [List.getElem?_append_right (Nat.le_add_right _ _), Nat.add_sub_cancel_left,
    List.length_append]
  cases s[i]? with
  | none => rfl
  | some b => simp only [Nat.add_assoc, Nat.add_min_add_left]

/-- What is before the start does not matter. -/
theorem advance_append (l s : Bytes) (n i : Nat) :
    advance (l ++ s) n (l.length + i) = l.length + advance s n i := by
  induction n generalizing i with
  | zero => rfl
  | succ n ih =>
    have hiff : l.length + i < (l ++ s).length ↔ i < s.length := by
      rw [List.length_append]
      omega
    unfold advance
    simp only [hiff, nextBoundary_append, ih]
    split <;> rfl

theorem countFrom_eq (skip : Nat) (s : Bytes) : countFrom skip s = count (s.drop skip) := by
  induction s generalizing skip with
  | nil => rw [List.drop_nil]; rfl
  | cons b s ih =>
    cases skip with
    | zero => rfl
    | succ skip => rw [countFrom, ih, List.drop_succ_cons]

/-- The first character, and those behind it. -/
theorem count_cons (b : UInt8) (s : Bytes) :
    count (b :: s) = count ((b :: s).drop (seqLen b)) + 1 := by
  obtain ⟨k, hk⟩ : ∃ k, seqLen b = k + 1 := ⟨seqLen b - 1, by have := seqLen_pos b; omega⟩
  rw [count, countFrom, countFrom_eq, hk, Nat.add_sub_cancel, List.drop_succ_cons]

/-- Over the first character, and then over the others. -/
theorem advance_cons (b : UInt8) (s : Bytes) (n : Nat) :
    advance (b :: s) (n + 1) 0 = min (seqLen b) (b :: s).length +
      advance ((b :: s).drop (seqLen b)) n 0 := by
  have hfirst : nextBoundary (b :: s) 0 = min (seqLen b) (b :: s).length := by
    unfold nextBoundary
    rw [List.getElem?_cons_zero]
    simp only [Nat.zero_add]
  have hlen : ((b :: s).take (seqLen b)).length = min (seqLen b) (b :: s).length :=
    List.length_take
  have hrest := advance_append ((b :: s).take (seqLen b)) ((b :: s).drop (seqLen b)) n 0
  rw [List.take_append_drop, hlen, Nat.add_zero] at hrest
  rw [advance, if_pos (by simp), hfirst, hrest]

/-- **So many columns have so many columns**, also in text that is not valid. -/
theorem count_take_advance (h : n ≤ count s) : count (s.take (advance s n 0)) = n := by
  induction n generalizing s with
  | zero => rfl
  | succ n ih =>
    cases s with
    | nil => cases h
    | cons b s =>
      have hpos := seqLen_pos b
      rw [count_cons] at h
      obtain ⟨k, hk⟩ : ∃ k, advance (b :: s) (n + 1) 0 = k + 1 := by
        refine ⟨advance (b :: s) (n + 1) 0 - 1, ?_⟩
        rw [advance_cons, List.length_cons]
        omega
      rw [hk, List.take_succ_cons, count_cons, ← List.take_succ_cons, ← hk, List.drop_take,
        advance_cons]
      rcases Nat.le_total (seqLen b) (b :: s).length with hle | hge
      · rw [Nat.min_eq_left hle, Nat.add_sub_cancel_left, ih (Nat.le_of_succ_le_succ h)]
      · rw [List.drop_of_length_le hge] at h ⊢
        rw [List.take_nil]
        exact congrArg (· + 1) (Nat.le_zero.mp (Nat.le_of_succ_le_succ h)).symm

/-- **What is behind so many columns** has the others. -/
theorem count_drop_advance (s : Bytes) (n : Nat) :
    count (s.drop (advance s n 0)) = count s - n := by
  induction n generalizing s with
  | zero => rfl
  | succ n ih =>
    cases s with
    | nil =>
      rw [List.drop_nil]
      exact (Nat.zero_sub _).symm
    | cons b s =>
      have hdrop : (b :: s).drop (min (seqLen b) (b :: s).length) = (b :: s).drop (seqLen b) := by
        rcases Nat.le_total (seqLen b) (b :: s).length with hle | hge
        · rw [Nat.min_eq_left hle]
        · rw [Nat.min_eq_right hge, List.drop_length, List.drop_of_length_le hge]
      rw [advance_cons, ← List.drop_drop, hdrop, ih, count_cons]
      omega

theorem eq_nil_of_count (h : count s = 0) : s = [] := by
  cases s with
  | nil => rfl
  | cons b s =>
    rw [count_cons] at h
    exact absurd h (Nat.succ_ne_zero _)

/-- There are no more columns than have been asked for. -/
theorem count_take_advance_le (s : Bytes) (n : Nat) : count (s.take (advance s n 0)) ≤ n := by
  rcases Nat.le_total n (count s) with hle | hge
  · exact (count_take_advance hle).le
  · have hrest := count_drop_advance s n
    have hnil : s.drop (advance s n 0) = [] := eq_nil_of_count (by omega)
    rwa [List.take_of_length_le (List.drop_eq_nil_iff.mp hnil)]

/-- How many bytes the last character announces that are not there, where `skip` bytes still belong
to a character before. -/
def reach : Nat → Bytes → Nat
  | skip, [] => skip
  | 0, b :: s => reach (seqLen b - 1) s
  | skip + 1, _ :: s => reach skip s

theorem reach_append (skip : Nat) (s t : Bytes) : reach skip (s ++ t) = reach (reach skip s) t := by
  induction s generalizing skip with
  | nil => rfl
  | cons b s ih =>
    cases skip with
    | zero => exact ih (seqLen b - 1)
    | succ skip => exact ih skip

/-- **Counting goes on** where the last character ends, be it behind the end of the text. -/
theorem countFrom_append_reach (skip : Nat) (s t : Bytes) :
    countFrom skip (s ++ t) = countFrom skip s + countFrom (reach skip s) t := by
  induction s generalizing skip with
  | nil =>
    rw [countFrom, Nat.zero_add]
    rfl
  | cons b s ih =>
    cases skip with
    | zero =>
      rw [List.cons_append, countFrom, countFrom, ih, reach]
      omega
    | succ skip => exact ih skip

/-- A character that is all there reaches its end. -/
theorem reach_length (s : Bytes) : reach s.length s = 0 := by
  induction s with
  | nil => rfl
  | cons b s ih => exact ih

/-- **Nothing is missing in a valid text.** -/
theorem reach_eq_zero {s : Bytes} (hs : SimpleCoder.Utf8 s) : reach 0 s = 0 := by
  obtain ⟨cs, rfl⟩ := valid_iff.mp hs
  clear hs
  induction cs with
  | nil => rfl
  | cons c cs ih =>
    obtain ⟨b, rest, hseq, -, hlen, -⟩ := sequence_encode c
    have hone : reach 0 (encode c.val) = 0 := by
      rw [hseq, reach, hlen, Nat.add_sub_cancel]
      exact reach_length rest
    rw [encodeText_cons, reach_append, hone]
    exact ih

/-- A valid text and what is behind it. -/
theorem count_append {s : Bytes} (hs : SimpleCoder.Utf8 s) (t : Bytes) :
    count (s ++ t) = count s + count t := by
  unfold count
  rw [countFrom_append_reach, reach_eq_zero hs]

/-- The bytes of a valid text are one for each character, and the continuation bytes. -/
theorem length_eq_count_add (h : SimpleCoder.Utf8 s) : s.length = count s + s.countP isCont := by
  obtain ⟨cs, rfl⟩ := valid_iff.mp h
  rw [count_encodeText]
  clear h
  induction cs with
  | nil => rfl
  | cons c cs ih =>
    obtain ⟨b, rest, hseq, hlead, -, hcont⟩ := sequence_encode c
    have hrest : rest.countP isCont = rest.length := List.countP_eq_length.mpr hcont
    rw [encodeText_cons, List.length_append, List.countP_append, ih, hseq, List.length_cons,
      List.countP_cons_of_neg (by simp [hlead]), hrest, List.length_cons]
    omega

/-- A character that is not ASCII has continuation bytes. -/
theorem lt_of_mem_encode {c : Char} {b : UInt8} (h : (encode c.val).countP isCont = 0)
    (hb : b ∈ encode c.val) : b < 0x80 := by
  have hcont : ∀ v, isCont (contByte v) = true := fun v => by
    rw [contByte_eq]
    exact isCont_cont _
  by_cases hascii : c.val ≤ 0x7F
  · unfold encode at hb
    rw [if_pos hascii, List.mem_singleton] at hb
    have hlt : c.val.toNat < 0x80 := Nat.lt_succ_of_le (UInt32.le_iff_toNat_le.mp hascii)
    rw [hb, UInt8.lt_iff_toNat_lt, UInt32.toNat_toUInt8]
    exact (Nat.mod_le _ _).trans_lt hlt
  · have hmem : contByte c.val ∈ encode c.val := by
      unfold encode
      rw [if_neg hascii]
      split_ifs <;> simp
    exact absurd (hcont c.val) (by simpa using List.countP_eq_zero.mp h _ hmem)

/-- **A valid text has as many bytes as characters** exactly if it is ASCII. -/
theorem length_eq_count_iff (h : SimpleCoder.Utf8 s) :
    s.length = count s ↔ ∀ b ∈ s, b < 0x80 := by
  have hlen := length_eq_count_add h
  constructor
  · intro heq
    have hzero : s.countP isCont = 0 := by omega
    obtain ⟨cs, rfl⟩ := valid_iff.mp h
    intro b hb
    obtain ⟨c, hc, hbc⟩ := List.mem_flatMap.mp hb
    refine lt_of_mem_encode (List.countP_eq_zero.mpr fun d hd => ?_) hbc
    exact List.countP_eq_zero.mp hzero d (List.mem_flatMap.mpr ⟨c, hc, hd⟩)
  · intro hascii
    have hzero : s.countP isCont = 0 :=
      List.countP_eq_zero.mpr fun b hb => by simp [(lead_one b (hascii b hb)).1]
    omega

/-- In valid text, columns are characters. -/
theorem advance_offset {cs : List Char} {pos : Nat} (h : pos ≤ cs.length) :
    advance (encodeText cs) n (offset cs pos) = offset cs (min (pos + n) cs.length) := by
  have hlen : offset cs cs.length = (encodeText cs).length := offset_of_length_le (Nat.le_refl _)
  induction n generalizing pos with
  | zero => rw [advance, Nat.add_zero, Nat.min_eq_left h]
  | succ n ih =>
    rcases Nat.lt_or_eq_of_le h with hlt | rfl
    · have hinside : offset cs pos < (encodeText cs).length :=
        (offset_lt hlt (Nat.le_refl _)).trans_eq hlen
      rw [advance, if_pos hinside, nextBoundary_offset h, Nat.min_eq_left hlt, ih hlt,
        Nat.succ_add, Nat.add_succ]
    · rw [hlen, advance_length, Nat.min_eq_right (Nat.le_add_right _ _), hlen]

/-- Columns taken from a valid text are valid, and so is what is left. -/
theorem valid_take_advance (h : SimpleCoder.Utf8 s) (n : Nat) :
    SimpleCoder.Utf8 (s.take (advance s n 0)) ∧ SimpleCoder.Utf8 (s.drop (advance s n 0)) := by
  obtain ⟨cs, rfl⟩ := valid_iff.mp h
  have hcols : advance (encodeText cs) n (offset cs 0) = offset cs (min (0 + n) cs.length) :=
    advance_offset (Nat.zero_le _)
  rw [offset_zero, Nat.zero_add] at hcols
  rw [hcols, take_offset, drop_offset]
  exact ⟨valid_iff.mpr ⟨_, rfl⟩, valid_iff.mpr ⟨_, rfl⟩⟩

/-- The pieces of a valid text between characters of one byte are valid. -/
theorem valid_of_mem_splitOn {sep : UInt8} (hsep : sep < 0x80) (hs : SimpleCoder.Utf8 s)
    {piece : Bytes} (h : piece ∈ s.splitOn sep) : SimpleCoder.Utf8 piece := by
  have hlead := (lead_one sep hsep).1
  have hone : SimpleCoder.Utf8 [sep] := valid_ascii (by simpa using hsep)
  induction s using Growing.pieces_induction (· == sep) with
  | last s hno =>
    have hnot : sep ∉ s := fun hmem => by simpa using hno sep hmem
    rw [List.splitOn_eq_singleton hnot] at h
    rwa [List.mem_singleton.mp h]
  | piece s c rest hno hc ih =>
    have hnot : sep ∉ s := fun hmem => by simpa using hno sep hmem
    obtain rfl : c = sep := by simpa using hc
    have hparts := (valid_append_iff (t := c :: rest) (by simp [hlead])).mp hs
    rw [List.splitOn_append_cons_self_of_not_mem hnot] at h
    rcases List.mem_cons.mp h with rfl | h
    · exact hparts.1
    · exact ih ((valid_append_iff_right hone rest).mp hparts.2) h

end Columns

/-! ## 4. Walking -/

/-- **Walking a text.**  On the encoding of some characters, the four functions go from one of the
boundaries between them to the next, back to the one before, and to the one at or before any byte,
and `count` counts the characters.  On any bytes, a step forward or back is one, none leaves the
text, and so every walk ends: after as many steps as there are bytes, if not before. -/
theorem walks_boundaries (cs : List Char) (s : Bytes) :
    (∀ c ∈ cs, ∃ b rest, encode c.val = b :: rest ∧ seqLen b = (encode c.val).length) ∧
    (offset cs 0 = 0 ∧ offset cs cs.length = (encodeText cs).length) ∧
    (∀ i < cs.length, offset cs i < offset cs (i + 1) ∧
      nextBoundary (encodeText cs) (offset cs i) = offset cs (i + 1) ∧
      prevBoundary (encodeText cs) (offset cs (i + 1)) = offset cs i) ∧
    (nextBoundary (encodeText cs) (offset cs cs.length) = offset cs cs.length ∧
      prevBoundary (encodeText cs) (offset cs 0) = offset cs 0) ∧
    (∀ p ≤ (encodeText cs).length, ∃ i ≤ cs.length,
      snapBoundary (encodeText cs) p = offset cs i ∧ offset cs i ≤ p ∧
      ∀ j ≤ cs.length, offset cs j ≤ p → offset cs j ≤ offset cs i) ∧
    count (encodeText cs) = cs.length ∧
    (∀ p < s.length, p < nextBoundary s p) ∧ (∀ p, 0 < p → prevBoundary s p < p) ∧
    (∀ p ≤ s.length, nextBoundary s p ≤ s.length ∧ prevBoundary s p ≤ s.length ∧
      snapBoundary s p ≤ s.length) ∧ count s ≤ s.length ∧
    ∀ p ≤ s.length, (nextBoundary s)^[s.length - p] p = s.length ∧ (prevBoundary s)^[p] p = 0 := by
  have hlen : offset cs cs.length = (encodeText cs).length := offset_of_length_le (Nat.le_refl _)
  refine ⟨fun c _ => ?_, ⟨offset_zero cs, hlen⟩, fun i hi => ⟨?_, ?_, ?_⟩, ⟨?_, rfl⟩,
    fun p hp => ?_, count_encodeText cs, fun p => lt_nextBoundary, fun p => prevBoundary_lt s,
    fun p hp => ⟨nextBoundary_le s p, ?_, ?_⟩, countFrom_le s 0, fun p hp => ⟨?_, ?_⟩⟩
  · obtain ⟨b, rest, hseq, -, hb, -⟩ := sequence_encode c
    exact ⟨b, rest, hseq, by rw [hseq, List.length_cons, hb]⟩
  · exact offset_lt (Nat.lt_succ_self i) hi
  · rw [nextBoundary_offset hi.le, Nat.min_eq_left hi]
  · rw [prevBoundary_offset (show i + 1 ≤ cs.length from hi), Nat.add_sub_cancel]
  · rw [hlen, nextBoundary_length]
  · obtain ⟨i, hi, hsnap, hle, hlast⟩ := snapBoundary_offset hp
    exact ⟨i, hi, hsnap, hle, fun j _ => hlast j⟩
  · exact (prevBoundary_le s p).trans hp
  · exact (snapBoundary_le s p).trans (Nat.min_le_right _ _)
  · exact iterate_nextBoundary (by omega) hp
  · exact iterate_prevBoundary s (Nat.le_refl p)

end Utf8

end SimpleCoder

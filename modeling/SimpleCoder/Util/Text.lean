/-
# Trimming and case

The configuration, the commands and the skills each have their own `trim` and `lower`, all alike:
`isspace` and `tolower` on single bytes.  Bytes from 0x80 on are neither blank nor upper case, as in
the C locale and in those of UTF-8.
-/
import SimpleCoder.Bytes
import Mathlib.Data.List.DropRight

namespace SimpleCoder

namespace Text

variable {α : Type}

/-! ## 1. The functions -/

/-- `isspace`: the space, and tab to carriage return. -/
def isspace (c : UInt8) : Bool := c = 0x20 || (0x09 ≤ c && c ≤ 0x0D)

/-- `tolower`. -/
def tolower (c : UInt8) : UInt8 := if 0x41 ≤ c ∧ c ≤ 0x5A then c + 0x20 else c

/-- `trim`. -/
def trim (s : Bytes) : Bytes := (s.dropWhile isspace).rdropWhile isspace

/-- `lower`. -/
def lower (s : Bytes) : Bytes := s.map tolower

/-- The bytes of `" \t"`. -/
def isBlank (c : UInt8) : Bool := c = 0x20 || c = 0x09

/-! ## 2. Trimming -/

/-- What does not start with a byte to drop is left as it is. -/
theorem dropWhile_eq_self {p : α → Bool} {s : List α} (h : ∀ x, s.head? = some x → p x = false) :
    s.dropWhile p = s := by
  cases s with
  | nil => rfl
  | cons x s => rw [List.dropWhile_cons_of_neg (by simp [h x rfl])]

theorem rdropWhile_eq_self {p : α → Bool} {s : List α}
    (h : ∀ x, s.getLast? = some x → p x = false) : s.rdropWhile p = s := by
  refine List.rdropWhile_eq_self_iff.mpr fun hne => ?_
  rw [h _ (List.getLast?_eq_getLast_of_ne_nil hne)]
  simp

/-- A blank end is dropped. -/
theorem rdropWhile_append_of_all {p : α → Bool} (s : List α) {c : List α}
    (hc : ∀ x ∈ c, p x = true) : (s ++ c).rdropWhile p = s.rdropWhile p := by
  unfold List.rdropWhile
  rw [List.reverse_append, List.dropWhile_append_of_pos (by simpa using hc)]

/-- Dropping from the right stops inside the second part if not all of it is dropped. -/
theorem rdropWhile_append_of_ne_nil {p : α → Bool} (s : List α) {c : List α}
    (hc : c.rdropWhile p ≠ []) : (s ++ c).rdropWhile p = s ++ c.rdropWhile p := by
  have hne : c.reverse.dropWhile p ≠ [] := fun h => hc (by simp [List.rdropWhile, h])
  unfold List.rdropWhile
  rw [List.reverse_append, List.dropWhile_append, if_neg (by simpa using hne),
    List.reverse_append, List.reverse_reverse]

/-- Trimming takes nothing but white space. -/
theorem mem_trim_of_mem {s : Bytes} {c : UInt8} (hc : c ∈ s) (hspace : isspace c = false) :
    c ∈ trim s := by
  rw [← List.takeWhile_append_dropWhile (p := isspace) (l := s)] at hc
  have hdrop : c ∈ s.dropWhile isspace := by
    refine (List.mem_append.mp hc).resolve_left fun h => ?_
    rw [List.mem_takeWhile_imp h] at hspace
    cases hspace
  rw [← List.rdropWhile_append_rtakeWhile (p := isspace) (l := s.dropWhile isspace)] at hdrop
  refine (List.mem_append.mp hdrop).resolve_right fun h => ?_
  rw [List.mem_rtakeWhile_imp h] at hspace
  cases hspace

theorem mem_of_mem_trim {s : Bytes} {c : UInt8} (hc : c ∈ trim s) : c ∈ s :=
  (List.dropWhile_sublist _).subset ((List.rdropWhile_prefix isspace _).sublist.subset hc)

theorem trim_cons_of_isspace {c : UInt8} (h : isspace c = true) (s : Bytes) :
    trim (c :: s) = trim s := by
  unfold trim
  rw [List.dropWhile_cons_of_pos h]

theorem trim_append_of_all {lead : Bytes} (h : ∀ c ∈ lead, isspace c = true) (s : Bytes) :
    trim (lead ++ s) = trim s := by
  unfold trim
  rw [List.dropWhile_append_of_pos h]

/-- What starts and ends with no white space is not trimmed. -/
theorem trim_eq_self {s : Bytes} (hhead : ∀ c, s.head? = some c → isspace c = false)
    (hlast : ∀ c, s.getLast? = some c → isspace c = false) : trim s = s := by
  unfold trim
  rw [dropWhile_eq_self hhead, rdropWhile_eq_self hlast]

/-- White space, what trimming leaves, and white space again. -/
theorem exists_trim (s : Bytes) :
    ∃ lead tail, (∀ c ∈ lead, isspace c = true) ∧ s = lead ++ (trim s ++ tail) := by
  obtain ⟨tail, htail⟩ := List.rdropWhile_prefix isspace (s.dropWhile isspace)
  refine ⟨s.takeWhile isspace, tail, fun c hc => List.mem_takeWhile_imp hc, ?_⟩
  unfold trim
  rw [htail, List.takeWhile_append_dropWhile]

/-! ## 3. Case -/

/-- A byte is an upper case letter, and then its lower case is none, or it is its own lower case. -/
theorem tolower_cases (c : UInt8) :
    (0x41 ≤ c ∧ c ≤ 0x5A ∧ tolower c = c + 0x20) ∨ tolower c = c := by
  unfold tolower
  split
  · rename_i h
    exact Or.inl ⟨h.1, h.2, rfl⟩
  · exact Or.inr rfl

theorem tolower_tolower (c : UInt8) : tolower (tolower c) = tolower c := by
  rcases tolower_cases c with ⟨hlo, hhi, heq⟩ | heq
  · rw [heq]
    unfold tolower
    rw [if_neg]
    rintro ⟨-, h⟩
    simp only [UInt8.le_iff_toNat_le, UInt8.toNat_add] at hlo hhi h
    simp at hlo hhi h
    omega
  · rw [heq, heq]

theorem isBlank_tolower (c : UInt8) : isBlank (tolower c) = isBlank c := by
  rcases tolower_cases c with ⟨hlo, hhi, heq⟩ | heq
  · rw [heq]
    unfold isBlank
    have h : ∀ b : UInt8, b ≤ 0x20 → decide (c = b) = decide (c + 0x20 = b) := by
      intro b hb
      simp only [UInt8.le_iff_toNat_le, ← UInt8.toNat_inj, UInt8.toNat_add] at hlo hhi hb ⊢
      simp at hlo hhi hb ⊢
      omega
    rw [h 0x20 (by decide), h 0x09 (by decide)]
  · rw [heq]

/-- Nor does case tell whether a byte is white space: upper case letters and what they become are
behind all of it. -/
theorem isspace_tolower (c : UInt8) : isspace (tolower c) = isspace c := by
  rcases tolower_cases c with ⟨hlo, hhi, heq⟩ | heq
  · have hnot : ∀ b : UInt8, 0x41 ≤ b → isspace b = false := by
      intro b hb
      simp only [isspace, Bool.or_eq_false_iff, Bool.and_eq_false_iff, decide_eq_false_iff_not,
        UInt8.le_iff_toNat_le, ← UInt8.toNat_inj] at hb ⊢
      simp at hb ⊢
      omega
    have hup : 0x41 ≤ c + 0x20 := by
      simp only [UInt8.le_iff_toNat_le, UInt8.toNat_add] at hlo hhi ⊢
      simp at hlo hhi ⊢
      omega
    rw [heq, hnot c hlo, hnot _ hup]
  · rw [heq]

@[simp] theorem lower_lower (s : Bytes) : lower (lower s) = lower s := by
  unfold lower
  rw [List.map_map]
  exact List.map_congr_left fun c _ => tolower_tolower c

@[simp] theorem length_lower (s : Bytes) : (lower s).length = s.length := List.length_map _

@[simp] theorem lower_eq_nil {s : Bytes} : lower s = [] ↔ s = [] := List.map_eq_nil_iff

end Text

end SimpleCoder

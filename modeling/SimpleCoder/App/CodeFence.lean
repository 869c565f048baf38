/-
# The reply to `/init`, out of its code fence

`stripCodeFence` is documented to return what is inside the fence if its text is wrapped in one, and
the text unchanged otherwise.  What it returns becomes `AGENTS.md` and the system prompt.

* §1: what it is for a text to be wrapped in a fence (`Fenced`), and what is documented (`Unwraps`).
* §2: what the function does with a text that opens a fence: the first line is gone in any case, and
  so is the last if it ends in a fence.
* §3: so it does what is documented for a text that opens no fence, and for a fenced one unless the
  fence is empty and has a newline behind it (`unwraps_iff`).
-/
import SimpleCoder.App.SystemPrompt
import SimpleCoder.Llm.Reassembly
import SimpleCoder.Util.Text

namespace SimpleCoder

open Text

/-! ## 1. Fenced texts -/

/-- A line that closes a fence: the fence, and nothing but white space behind it. -/
def ClosesFence (line : Bytes) : Prop := ∃ pad, Blank pad ∧ line = codeFence ++ pad

/-- The text starts with a line that opens a fence, and goes on with `inner`. -/
def OpensFence (s inner : Bytes) : Prop :=
  ∃ lead label, Blank lead ∧ newline ∉ label ∧ s = lead ++ (codeFence ++ label ++ newline :: inner)

/-- The text is a fence around the lines of `content`, none of which closes it, with the white space
`tail` behind the closing fence. -/
structure Fenced (s content tail : Bytes) : Prop where
  opens : OpensFence s (content ++ codeFence ++ tail)
  tail : Blank tail
  ended : content = [] ∨ content.getLast? = some newline
  inside : ∀ line ∈ (Lines.lines newline content).1, ¬ ClosesFence line

/-- What is documented: a fenced text is unwrapped, any other is returned as it is. -/
def Unwraps (s : Bytes) : Prop :=
  (∀ content tail, Fenced s content tail → stripCodeFence s = content) ∧
    ((¬ ∃ content tail, Fenced s content tail) → stripCodeFence s = s)

/-! ## 2. What the function does -/

theorem codeFence_eq : codeFence = [0x60, 0x60, 0x60] := by decide

/-- In front of a fence, white space is skipped. -/
theorem dropWhile_codeFence {lead : Bytes} (h : Blank lead) (rest : Bytes) :
    (lead ++ (codeFence ++ rest)).dropWhile isSpace = codeFence ++ rest :=
  dropWhile_blank h (by simp [codeFence_eq, isSpace]) (by decide) rest

/-- **A text that opens a fence** loses its first line. -/
theorem stripCodeFence_of_opens {s inner : Bytes} (h : OpensFence s inner) :
    stripCodeFence s = dropClosingFence inner := by
  obtain ⟨lead, label, hlead, hlabel, rfl⟩ := h
  unfold stripCodeFence
  rw [List.append_assoc codeFence, dropWhile_codeFence hlead]
  dsimp only
  have hline : Lines.takeLine newline (codeFence ++ (label ++ newline :: inner)) =
      some (codeFence ++ label, inner) := by
    refine Lines.takeLine_eq_some_iff.mpr ⟨?_, by simp⟩
    rw [List.mem_append, not_or]
    exact ⟨by decide, hlabel⟩
  rw [if_neg (by simp [codeFence_eq]), hline]

/-- **A text that opens no fence** is returned as it is. -/
theorem stripCodeFence_of_not_opens {s : Bytes} (h : ¬ ∃ inner, OpensFence s inner) :
    stripCodeFence s = s := by
  unfold stripCodeFence
  dsimp only
  split
  · rfl
  rename_i hfence
  cases hline : Lines.takeLine newline (s.dropWhile isSpace) with
  | none => rfl
  | some found =>
    obtain ⟨line, inner⟩ := found
    obtain ⟨hnl, hsplit⟩ := Lines.takeLine_eq_some_iff.mp hline
    have htake : line.take 3 = codeFence := by
      have hfence' : (line ++ newline :: inner).take 3 = codeFence := by
        rw [← hsplit]
        exact not_not.mp hfence
      by_cases hlen : 3 ≤ line.length
      · rwa [List.take_append_of_le_length hlen] at hfence'
      · have hmem : newline ∈ (line ++ newline :: inner).take 3 := by
          rw [List.take_append, List.take_cons (by omega)]
          simp
        rw [hfence'] at hmem
        exact absurd hmem (by decide)
    refine absurd ⟨inner, s.takeWhile isSpace, line.drop 3, ?_, ?_, ?_⟩ h
    · exact fun x hx => List.mem_takeWhile_imp hx
    · exact fun hmem => hnl (List.mem_of_mem_drop hmem)
    · rw [← htake, List.take_append_drop, ← hsplit, List.takeWhile_append_dropWhile]

/-- Up to the last newline, a text that ends in one is there as a whole. -/
theorem throughLastNewline_of_ended {s : Bytes} (h : s = [] ∨ s.getLast? = some newline) :
    throughLastNewline s = s := by
  change s.rdropWhile (· ≠ newline) = s
  refine rdropWhile_eq_self fun x hx => ?_
  rcases h with rfl | h
  · cases hx
  · rw [h] at hx
    cases hx
    simp

theorem throughLastNewline_eq_nil_iff {s : Bytes} : throughLastNewline s = [] ↔ newline ∉ s := by
  change s.rdropWhile (· ≠ newline) = [] ↔ _
  rw [List.rdropWhile_eq_nil_iff]
  constructor
  · intro h hmem
    simpa using h newline hmem
  · intro h x hx
    simpa using fun heq : x = newline => h (heq ▸ hx)

/-- At the end of the text, white space is skipped. -/
theorem rdropWhile_codeFence {tail : Bytes} (h : Blank tail) (content : Bytes) :
    (content ++ codeFence ++ tail).rdropWhile isSpace = content ++ codeFence := by
  rw [rdropWhile_append_of_all _ h]
  refine rdropWhile_eq_self fun x hx => ?_
  rw [List.getLast?_append_of_ne_nil _ (by decide)] at hx
  simp only [codeFence_eq, List.getLast?_cons_cons, List.getLast?_singleton,
    Option.some.injEq] at hx
  subst hx
  decide

/-- **The last fence is taken off**, with its line; but not if it is all there is and a newline is
behind it. -/
theorem dropClosingFence_fenced {content tail : Bytes} (htail : Blank tail)
    (hended : content = [] ∨ content.getLast? = some newline) :
    dropClosingFence (content ++ codeFence ++ tail) =
      if content = [] then throughLastNewline (codeFence ++ tail) else content := by
  have htext := rdropWhile_codeFence htail content
  unfold dropClosingFence
  dsimp only
  rw [show ((content ++ codeFence ++ tail).reverse.dropWhile isSpace).reverse =
    content ++ codeFence from htext]
  have hlen : (content ++ codeFence).length = content.length + 3 := by simp [codeFence_eq]
  rw [hlen, Nat.add_sub_cancel, List.drop_left, if_pos ⟨by omega, rfl⟩]
  by_cases hempty : content = []
  · subst hempty
    rw [if_pos rfl]
    exact if_pos rfl
  · have hpos : 0 < content.length := List.length_pos_iff.mpr hempty
    rw [if_neg hempty, if_neg (by omega), List.take_left, throughLastNewline_of_ended hended]

/-- Nothing is added. -/
theorem length_dropClosingFence_le (inner : Bytes) :
    (dropClosingFence inner).length ≤ inner.length := by
  have hthrough : ∀ s : Bytes, (throughLastNewline s).length ≤ s.length := fun s =>
    (List.rdropWhile_prefix (· ≠ newline) s).length_le
  have htext : ((inner.reverse.dropWhile isSpace).reverse).length ≤ inner.length :=
    (List.rdropWhile_prefix isSpace inner).length_le
  unfold dropClosingFence
  dsimp only
  split
  · split
    · exact hthrough inner
    · refine le_trans (hthrough _) (le_trans ?_ htext)
      rw [List.length_take]
      omega
  · exact le_rfl

/-- So a text that opens a fence never comes back as it is. -/
theorem stripCodeFence_ne_of_opens {s inner : Bytes} (h : OpensFence s inner) :
    stripCodeFence s ≠ s := by
  intro heq
  rw [stripCodeFence_of_opens h] at heq
  have hle := length_dropClosingFence_le inner
  obtain ⟨lead, label, -, -, rfl⟩ := h
  rw [heq] at hle
  simp only [List.length_append, List.length_cons] at hle
  omega

/-! ## 3. When it does what is documented -/

/-- What is behind the line that opens the fence is determined. -/
theorem OpensFence.unique {s inner inner' : Bytes} (h : OpensFence s inner)
    (h' : OpensFence s inner') : inner = inner' := by
  obtain ⟨lead, label, hlead, hlabel, rfl⟩ := h
  obtain ⟨lead', label', hlead', hlabel', heq⟩ := h'
  have hbody := congrArg (List.dropWhile isSpace) heq
  rw [List.append_assoc codeFence, List.append_assoc codeFence, dropWhile_codeFence hlead,
    dropWhile_codeFence hlead', List.append_cancel_left_eq] at hbody
  have hline := Lines.takeLine_eq_some_iff.mpr ⟨hlabel, hbody.symm⟩
  have hline' : Lines.takeLine newline (label' ++ newline :: inner') = some (label', inner') :=
    Lines.takeLine_eq_some_iff.mpr ⟨hlabel', rfl⟩
  rw [hline] at hline'
  cases hline'
  rfl

/-- What is inside the fence is determined. -/
theorem Fenced.unique {s content tail content' tail' : Bytes} (h : Fenced s content tail)
    (h' : Fenced s content' tail') : content = content' ∧ tail = tail' := by
  have hinner := h.opens.unique h'.opens
  have htext := rdropWhile_codeFence h.tail content
  rw [hinner, rdropWhile_codeFence h'.tail, List.append_cancel_right_eq] at htext
  subst htext
  exact ⟨rfl, List.append_cancel_left hinner⟩

/-- **When a fence is taken off as documented**: unless there is nothing in it and a newline behind
it. -/
theorem Fenced.stripCodeFence_eq_iff {s content tail : Bytes} (h : Fenced s content tail) :
    stripCodeFence s = content ↔ content ≠ [] ∨ newline ∉ tail := by
  rw [stripCodeFence_of_opens h.opens, dropClosingFence_fenced h.tail h.ended]
  by_cases hempty : content = []
  · rw [if_pos hempty, hempty, throughLastNewline_eq_nil_iff, List.mem_append, not_or]
    have hfence : newline ∉ codeFence := by decide
    simp [hfence]
  · rw [if_neg hempty]
    exact iff_of_true rfl (Or.inl hempty)

/-- **When `stripCodeFence` does what is documented**: for a text that opens no fence, and for one
that is wrapped in a fence, unless there is nothing in the fence and a newline behind it.  A text
that opens a fence and is not wrapped in it loses the line with the fence in any case. -/
theorem unwraps_iff (s : Bytes) :
    Unwraps s ↔ (¬ ∃ inner, OpensFence s inner) ∨
      ∃ content tail, Fenced s content tail ∧ (content ≠ [] ∨ newline ∉ tail) := by
  constructor
  · rintro ⟨hfenced, hother⟩
    by_cases hopens : ∃ inner, OpensFence s inner
    · right
      obtain ⟨inner, hopens⟩ := hopens
      by_cases h : ∃ content tail, Fenced s content tail
      · obtain ⟨content, tail, h⟩ := h
        exact ⟨content, tail, h, h.stripCodeFence_eq_iff.mp (hfenced content tail h)⟩
      · exact absurd (hother h) (stripCodeFence_ne_of_opens hopens)
    · exact Or.inl hopens
  · rintro (hno | ⟨content, tail, h, hcond⟩)
    · exact ⟨fun _ _ h => absurd ⟨_, h.opens⟩ hno, fun _ => stripCodeFence_of_not_opens hno⟩
    · refine ⟨fun content' tail' h' => ?_, fun hno => absurd ⟨content, tail, h⟩ hno⟩
      obtain ⟨rfl, rfl⟩ := h.unique h'
      exact h.stripCodeFence_eq_iff.mpr hcond

/-- **A fence that is never closed** is lost: the text comes back without its first line. -/
theorem not_unwraps_unclosed : ¬ Unwraps (bytes "```\nabc") := by
  rintro ⟨-, hother⟩
  have hno : ¬ ∃ content tail, Fenced (bytes "```\nabc") content tail := by
    rintro ⟨content, tail, ⟨lead, label, -, -, heq⟩, -⟩
    -- there are too few backquotes for two fences
    have hcount := congrArg (List.count 0x60) heq
    have hthree : (bytes "```\nabc").count 0x60 = 3 := by decide
    rw [hthree, codeFence_eq] at hcount
    simp only [List.count_append, List.count_cons, List.count_nil] at hcount
    simp at hcount
    omega
  exact absurd (hother hno) (by decide)

end SimpleCoder

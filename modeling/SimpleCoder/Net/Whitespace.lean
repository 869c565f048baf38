/-
# Collapsed white space

`collapse_ws` goes over the text once.  Of a gap it remembers how many newlines there were, and
whether there was a space since the last of them; what the gap comes to is written when the next
byte that is none is there, so a gap at either end comes to nothing.

* §1: what stands for a gap (`gapText`).
* §2: the loop.  What it remembers of a gap is enough (`Collapse.Pending`), and so it closes up the
  gaps of the text (`collapseWs_spread`).
* §3: the text that comes out is collapsed, and `collapseWs_collapsed` says what is left of each
  gap.
-/
import SimpleCoder.Lib.Gaps
import SimpleCoder.Net.Html

namespace SimpleCoder

open Gaps (spread closeUp marks Sound)

/-! ## 1. Gaps -/

/-- A byte that is collapsed: space, tab, carriage return, newline. -/
def isGap (c : UInt8) : Bool := c = 0x20 || c = 0x09 || c = 0x0D || c = newline

/-- What stands for a gap. -/
def gapText (gap : Bytes) : Bytes :=
  if 0 < gap.count newline then List.replicate (min (gap.count newline) 2) newline
  else if gap = [] then [] else [0x20]

theorem gapText_mem (gap : Bytes) :
    gapText gap ∈ [[], [0x20], [newline], [newline, newline]] := by
  unfold gapText
  split_ifs with hnewlines hnil
  · have hmin : min (gap.count newline) 2 = 1 ∨ min (gap.count newline) 2 = 2 := by omega
    rcases hmin with hmin | hmin <;> simp [hmin, List.replicate]
  · simp
  · simp

/-- What is true of the four texts that can stand for a gap. -/
theorem gapText_of_forall {P : Bytes → Prop}
    (h : ∀ between ∈ [[], [0x20], [newline], [newline, newline]], P between) (gap : Bytes) :
    P (gapText gap) := h _ (gapText_mem gap)

theorem isGap_of_mem_gapText (gap : Bytes) : ∀ c ∈ gapText gap, isGap c = true :=
  gapText_of_forall (P := fun between => ∀ c ∈ between, isGap c = true) (by decide +kernel) gap

/-- What stands for a gap stands for itself. -/
theorem gapText_gapText (gap : Bytes) : gapText (gapText gap) = gapText gap :=
  gapText_of_forall (P := fun between => gapText between = between) (by decide) gap

/-- What is left between two bytes, for the gap that there was. -/
structure Separates (gap between : Bytes) : Prop where
  nothing : between = [] ↔ gap = []
  newlines : ∀ n, 0 < n → (between = List.replicate n newline ↔
    0 < gap.count newline ∧ n = min (gap.count newline) 2)
  space : between = [0x20] ↔ gap ≠ [] ∧ gap.count newline = 0

theorem gapText_separates (gap : Bytes) : Separates gap (gapText gap) := by
  have hspace : ∀ n, [0x20] ≠ List.replicate n newline := by
    intro n heq
    have hmem : (0x20 : UInt8) ∈ List.replicate n newline := heq ▸ List.mem_singleton_self _
    exact absurd (List.eq_of_mem_replicate hmem) (by decide)
  unfold gapText
  split_ifs with hnewlines hnil
  · have hne : gap ≠ [] := by
      rintro rfl
      exact absurd hnewlines (by decide)
    refine ⟨?_, fun n hn => ?_, ?_⟩
    · rw [List.replicate_eq_nil_iff]
      exact iff_of_false (by omega) hne
    · rw [List.replicate_left_inj]
      exact ⟨fun h => ⟨hnewlines, h.symm⟩, fun h => h.2.symm⟩
    · exact iff_of_false (Ne.symm (hspace _)) (by omega)
  · subst hnil
    refine ⟨by simp, fun n hn => ?_, by simp⟩
    refine iff_of_false (fun heq => ?_) (by simp)
    rw [eq_comm, List.replicate_eq_nil_iff] at heq
    omega
  · have hzero : gap.count newline = 0 := by omega
    refine ⟨by simp [hnil], fun n hn => ?_, iff_of_true rfl ⟨hnil, hzero⟩⟩
    exact iff_of_false (hspace n) (by omega)

/-! ## 2. The loop -/

namespace Collapse

/-- What is remembered of a gap behind what is written. -/
structure Pending (out : Bytes) (seen : Bool) (gap : Bytes) (s : Collapse) : Prop where
  out : s.out = out
  seen : s.seenContent = seen
  newlines : s.pendingNewlines = gap.count newline
  space : gap.count newline = 0 → s.pendingSpace = decide (gap ≠ [])

/-- The state behind a byte. -/
def written (out : Bytes) : Collapse := { out := out, seenContent := true }

theorem pending_written (out : Bytes) : Pending out true [] (written out) :=
  ⟨rfl, rfl, rfl, fun _ => rfl⟩

variable {out gap : Bytes} {seen : Bool} {s : Collapse} {c : UInt8}

/-- **One more byte of the gap.** -/
theorem Pending.add_gap (h : Pending out seen gap s) (hc : isGap c = true) :
    Pending out seen (gap ++ [c]) (s.add c) := by
  unfold Collapse.add
  by_cases hspace : c = 0x20 ∨ c = 0x09 ∨ c = 0x0D
  · have hne : c ≠ newline := by
      rintro rfl
      exact absurd hspace (by decide)
    rw [if_pos hspace]
    refine ⟨h.out, h.seen, ?_, fun _ => by simp⟩
    rw [List.count_append, List.count_singleton, if_neg (by simpa using hne), h.newlines]
    rfl
  · have heq : c = newline := by
      simp only [isGap, Bool.or_eq_true, decide_eq_true_eq] at hc
      tauto
    subst heq
    rw [if_neg hspace, if_pos rfl]
    refine ⟨h.out, h.seen, ?_, fun hzero => ?_⟩
    · rw [List.count_append, h.newlines]
      rfl
    · rw [List.count_append] at hzero
      exact absurd hzero (by simp)

/-- **The byte behind the gap**: the gap is written, unless there is nothing in front of it. -/
theorem Pending.add_mark (h : Pending out seen gap s) (hc : isGap c = false) :
    s.add c = written (out ++ (if seen then gapText gap else []) ++ [c]) := by
  obtain ⟨hspace, hnewline⟩ : ¬ (c = 0x20 ∨ c = 0x09 ∨ c = 0x0D) ∧ c ≠ newline := by
    simp only [isGap, Bool.or_eq_false_iff, decide_eq_false_iff_not] at hc
    tauto
  unfold Collapse.add
  rw [if_neg hspace, if_neg hnewline]
  dsimp only
  rw [h.out, h.seen, h.newlines]
  cases seen with
  | false => rfl
  | true =>
    unfold gapText
    by_cases hpos : 0 < gap.count newline
    · simp [hpos, written]
    · have hpending := h.space (by omega)
      by_cases hnil : gap = []
      · simp [hpending, hnil, written]
      · simp [hpos, hpending, hnil, written]

theorem Pending.foldl_gap (h : Pending out seen gap s) {more : Bytes}
    (hmore : ∀ c ∈ more, isGap c = true) :
    Pending out seen (gap ++ more) (more.foldl Collapse.add s) := by
  induction more generalizing gap s with
  | nil => simpa using h
  | cons c more ih =>
    obtain ⟨hc, hmore⟩ := List.forall_mem_cons.mp hmore
    have hrest := ih (h.add_gap hc) hmore
    rwa [List.append_assoc, List.singleton_append] at hrest

/-- **A gap and the byte behind it.** -/
theorem Pending.foldl_item (h : Pending out seen [] s) {p : Bytes × UInt8} (hp : Sound isGap p)
    (rest : Bytes) :
    (p.1 ++ p.2 :: rest).foldl Collapse.add s =
      rest.foldl Collapse.add (written (out ++ (if seen then gapText p.1 else []) ++ [p.2])) := by
  have hgap := h.foldl_gap hp.gap
  rw [List.nil_append] at hgap
  rw [List.foldl_append, List.foldl_cons, hgap.add_mark hp.mark]

/-- **The run behind a byte**: each gap is replaced by what stands for it. -/
theorem foldl_spread {items : List (Bytes × UInt8)} (h : ∀ p ∈ items, Sound isGap p)
    (out tail : Bytes) :
    (spread items ++ tail).foldl Collapse.add (written out) =
      tail.foldl Collapse.add
        (written (out ++ spread (items.map fun p => (gapText p.1, p.2)))) := by
  induction items generalizing out with
  | nil => simp
  | cons p items ih =>
    obtain ⟨hp, hitems⟩ := List.forall_mem_cons.mp h
    rw [Gaps.spread_cons, List.append_assoc, List.cons_append, (pending_written out).foldl_item hp,
      if_pos rfl, ih hitems]
    simp

end Collapse

open Collapse in
/-- **The gaps are closed up.** -/
theorem collapseWs_spread {items : List (Bytes × UInt8)} (h : ∀ p ∈ items, Sound isGap p)
    (tail : Bytes) (htail : ∀ c ∈ tail, isGap c = true) :
    collapseWs (spread items ++ tail) = spread (closeUp gapText items) := by
  have hstart : Pending [] false [] {} := ⟨rfl, rfl, rfl, fun _ => rfl⟩
  unfold collapseWs
  cases items with
  | nil => exact (hstart.foldl_gap htail).out
  | cons p items =>
    obtain ⟨hp, hitems⟩ := List.forall_mem_cons.mp h
    rw [Gaps.spread_cons, List.append_assoc, List.cons_append, hstart.foldl_item hp,
      foldl_spread hitems, ((pending_written _).foldl_gap htail).out]
    simp [closeUp]

/-! ## 3. Collapsed texts -/

/-- No tab and no carriage return, no two spaces, no space at a newline, no three newlines, and
neither a space nor a newline at an end. -/
structure Collapsed (out : Bytes) : Prop where
  noTab : (0x09 : UInt8) ∉ out
  noReturn : (0x0D : UInt8) ∉ out
  noSpaces : ¬ [0x20, 0x20] <:+: out
  noSpaceNewline : ¬ [0x20, newline] <:+: out
  noNewlineSpace : ¬ [newline, 0x20] <:+: out
  noNewlines : ¬ [newline, newline, newline] <:+: out
  first : out.head? ≠ some 0x20 ∧ out.head? ≠ some newline
  last : out.getLast? ≠ some 0x20 ∧ out.getLast? ≠ some newline

/-- A text is collapsed if its gaps are closed up. -/
theorem collapsed_closeUp {items : List (Bytes × UInt8)} (h : ∀ p ∈ items, Sound isGap p) :
    Collapsed (spread (closeUp gapText items)) := by
  have hsound := Gaps.closeUp_sound isGap_of_mem_gapText h
  -- a gap that none of the four texts has in it is nowhere
  have hnone : ∀ bad : Bytes, (∀ c ∈ bad, isGap c = true) → bad ≠ [] →
      (∀ between ∈ [[], [0x20], [newline], [newline, newline]], ¬ bad <:+: between) →
      ¬ bad <:+: spread (closeUp gapText items) := by
    intro bad hgap hne hfour hin
    obtain ⟨p, hp, hbad⟩ := Gaps.infix_spread hsound hgap hne hin
    rcases Gaps.gap_of_mem_closeUp hp with hnil | ⟨q, -, hq⟩
    · rw [hnil] at hbad
      exact hfour [] (by simp) hbad
    · rw [hq] at hbad
      exact hfour _ (gapText_mem q.1) hbad
  have hmem : ∀ c : UInt8, isGap c = true →
      (∀ between ∈ [[], [0x20], [newline], [newline, newline]], ¬ [c] <:+: between) →
      c ∉ spread (closeUp gapText items) := by
    intro c hc hfour hin
    obtain ⟨before, after, heq⟩ := List.append_of_mem hin
    exact hnone [c] (by simpa using hc) (by simp) hfour ⟨before, after, by simp [heq]⟩
  have hfirst : ∀ c : UInt8, isGap c = true →
      (spread (closeUp gapText items)).head? ≠ some c := fun c hc heq =>
    absurd (Gaps.blank_of_head? h heq) (by simp [hc])
  have hlast : ∀ c : UInt8, isGap c = true →
      (spread (closeUp gapText items)).getLast? ≠ some c := fun c hc heq =>
    absurd (Gaps.blank_of_getLast? hsound heq) (by simp [hc])
  exact {
    noTab := hmem 0x09 (by decide) (by decide)
    noReturn := hmem 0x0D (by decide) (by decide)
    noSpaces := hnone [0x20, 0x20] (by decide +kernel) (by simp) (by decide +kernel)
    noSpaceNewline := hnone [0x20, newline] (by decide +kernel) (by simp) (by decide +kernel)
    noNewlineSpace := hnone [newline, 0x20] (by decide +kernel) (by simp) (by decide +kernel)
    noNewlines := hnone [newline, newline, newline] (by decide +kernel) (by simp)
      (by decide +kernel)
    first := ⟨hfirst 0x20 (by decide), hfirst newline (by decide)⟩
    last := ⟨hlast 0x20 (by decide), hlast newline (by decide)⟩ }

/-- **White space is collapsed**, and nothing else is touched. -/
theorem collapseWs_collapsed (text : Bytes) :
    marks isGap (collapseWs text) = marks isGap text ∧ Collapsed (collapseWs text) ∧
      (∀ (before gap after : Bytes) (c d : UInt8), text = before ++ c :: (gap ++ d :: after) →
        isGap c = false → isGap d = false → (∀ b ∈ gap, isGap b = true) →
          ∃ before' between after', collapseWs text = before' ++ c :: (between ++ d :: after') ∧
            marks isGap before' = marks isGap before ∧ marks isGap after' = marks isGap after ∧
              Separates gap between) ∧
      collapseWs (collapseWs text) = collapseWs text := by
  obtain ⟨items, tail, htext, hitems, htail⟩ := Gaps.exists_spread isGap text
  have hsound := Gaps.closeUp_sound isGap_of_mem_gapText hitems
  have hout : collapseWs text = spread (closeUp gapText items) := by
    rw [htext, collapseWs_spread hitems tail htail]
  refine ⟨?_, ?_, ?_, ?_⟩
  · have hmarks := Gaps.marks_spread hsound [] (by simp)
    rw [List.append_nil] at hmarks
    rw [hout, hmarks, Gaps.map_snd_closeUp, htext, Gaps.marks_spread hitems tail htail]
  · rw [hout]
    exact collapsed_closeUp hitems
  · rintro before gap after c d rfl hc hd hgap
    obtain ⟨items₁, lead, items₂, tail', hsplit, hitems', htail', hbefore, hafter⟩ :=
      Gaps.exists_between before after hc hd hgap
    obtain ⟨before', after', hclose, hbefore', hafter'⟩ :=
      Gaps.closeUp_between isGap_of_mem_gapText hitems'
    refine ⟨before', gapText gap, after', ?_, hbefore'.trans hbefore, hafter'.trans hafter,
      gapText_separates gap⟩
    rw [hsplit, collapseWs_spread hitems' tail' htail', hclose]
  · have hagain := collapseWs_spread hsound [] (by simp)
    rw [List.append_nil, Gaps.closeUp_closeUp gapText_gapText] at hagain
    rw [hout, hagain]

end SimpleCoder

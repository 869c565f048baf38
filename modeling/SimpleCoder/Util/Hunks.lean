/-
# What a preview shows of a diff

`unified_diff` writes the operations of `lcs_ops` out, but leaves out what is not changed and far
from every change.  The user approves an edit by that text.

* §1: which operations are kept (`IsKept`), and the lines that are written for them (`hunkLines`):
  one for each, and a separator where something between two of them was left out.
* §2: the two loops of the source write exactly these lines (`render_eq`, `unifiedDiff_eq`).
* §3: so no change is hidden, and what is shown can be read back (`unifiedDiff_hunks`).
* §4: the text is empty if the lines are the same, which is more than that the texts are
  (`unifiedDiff_eq_nil_iff`): a text and the same text with a newline behind it have the same lines
  (`splitLines_eq_iff`).

The indices and counts of the source are `int`s and are not bounded here.
-/
import SimpleCoder.Util.LcsTable
import Mathlib.Algebra.Order.Group.Abs
import Mathlib.Algebra.Order.Group.Int

namespace SimpleCoder

/-! ## 1. The lines that are written -/

/-- An operation is kept if it is a change, or one is at most `context` away. -/
def IsKept (ops : List Op) (context : Int) (p : Op × Nat) : Prop :=
  p.1.kind ≠ .equal ∨ ∃ q ∈ ops.zipIdx, q.1.kind ≠ .equal ∧ |(q.2 : Int) - p.2| ≤ context

instance (ops : List Op) (context : Int) (p : Op × Nat) : Decidable (IsKept ops context p) :=
  inferInstanceAs (Decidable (_ ∨ _))

/-- The operations that are kept, each with its position. -/
def keptOps (ops : List Op) (context : Int) : List (Op × Nat) :=
  ops.zipIdx.filter fun p => IsKept ops context p

/-- The line of an operation. -/
def opLine (op : Op) : Bytes := op.kind.sign ++ op.text

/-- The line between two hunks. -/
def hunkSeparator : Bytes := bytes "@@"

/-- What is written before an operation, after the one that was written last. -/
def gapBefore : Option (Op × Nat) → Op × Nat → List Bytes
  | none, _ => []
  | some p, q => if p.2 + 1 = q.2 then [] else [hunkSeparator]

/-- The lines for some operations with their positions: a separator stands between two that are not
neighbours. -/
def hunkLines : List (Op × Nat) → List Bytes
  | [] => []
  | [p] => [opLine p.1]
  | p :: q :: rest => opLine p.1 :: (gapBefore (some p) q ++ hunkLines (q :: rest))

/-- Lines, each with its newline. -/
def joinLines (ls : List Bytes) : Bytes := ls.flatMap (· ++ [newline])

/-- Read a line of the preview back. -/
def readOp : Bytes → Option Op
  | [] => none
  | c :: text =>
    if c = 0x20 then some ⟨.equal, text⟩
    else if c = 0x2D then some ⟨.del, text⟩
    else if c = 0x2B then some ⟨.add, text⟩
    else none

theorem readOp_opLine (op : Op) : readOp (opLine op) = some op := by
  rcases op with ⟨kind, text⟩
  cases kind <;> rfl

theorem readOp_hunkSeparator : readOp hunkSeparator = none := by decide

theorem eq_of_mem_gapBefore {o : Option (Op × Nat)} {q : Op × Nat} {l : Bytes}
    (h : l ∈ gapBefore o q) : l = hunkSeparator := by
  cases o with
  | none => cases h
  | some p =>
    by_cases hnext : p.2 + 1 = q.2
    · rw [gapBefore, if_pos hnext] at h
      cases h
    · rw [gapBefore, if_neg hnext] at h
      exact List.mem_singleton.mp h

theorem hunkLines_concat (ps : List (Op × Nat)) (q : Op × Nat) :
    hunkLines (ps ++ [q]) = hunkLines ps ++ (gapBefore ps.getLast? q ++ [opLine q.1]) := by
  induction ps with
  | nil => rfl
  | cons p ps ih =>
    cases ps with
    | nil => rfl
    | cons r rest =>
      have hlast : (p :: r :: rest).getLast? = (r :: rest).getLast? := rfl
      rw [hlast]
      simp only [List.cons_append] at ih ⊢
      rw [hunkLines, ih, hunkLines]
      simp

/-- Without the separators, the lines are those of the operations. -/
theorem filterMap_readOp_hunkLines (ps : List (Op × Nat)) :
    (hunkLines ps).filterMap readOp = ps.map Prod.fst := by
  induction ps with
  | nil => rfl
  | cons p ps ih =>
    cases ps with
    | nil => simp [hunkLines, readOp_opLine]
    | cons q rest =>
      have hgap : (gapBefore (some p) q).filterMap readOp = [] := by
        refine List.filterMap_eq_nil_iff.mpr fun l hl => ?_
        rw [eq_of_mem_gapBefore hl]
        exact readOp_hunkSeparator
      rw [hunkLines, List.filterMap_cons, readOp_opLine, List.filterMap_append, hgap, ih]
      rfl

theorem mem_hunkLines {ps : List (Op × Nat)} {l : Bytes} (h : l ∈ hunkLines ps) :
    l = hunkSeparator ∨ ∃ p ∈ ps, l = opLine p.1 := by
  induction ps with
  | nil => cases h
  | cons p ps ih =>
    cases ps with
    | nil => exact Or.inr ⟨p, List.mem_cons_self, by simpa [hunkLines] using h⟩
    | cons q rest =>
      rw [hunkLines, List.mem_cons, List.mem_append] at h
      rcases h with rfl | h | h
      · exact Or.inr ⟨p, List.mem_cons_self, rfl⟩
      · exact Or.inl (eq_of_mem_gapBefore h)
      · rcases ih h with hsep | ⟨r, hr, hline⟩
        · exact Or.inl hsep
        · exact Or.inr ⟨r, List.mem_cons_of_mem _ hr, hline⟩

theorem hunkLines_eq_nil_iff {ps : List (Op × Nat)} : hunkLines ps = [] ↔ ps = [] := by
  cases ps with
  | nil => simp [hunkLines]
  | cons p ps => cases ps <;> simp [hunkLines]

/-! ## 2. The loops -/

/-- The first loop marks exactly the operations near a change. -/
theorem keeps_iff {ops : List Op} {context : Int} {k : Nat} :
    keeps ops context k = true ↔
      ∃ q ∈ ops.zipIdx, q.1.kind ≠ .equal ∧ |(q.2 : Int) - k| ≤ context := by
  unfold keeps
  rw [List.any_eq_true]
  refine exists_congr fun q => and_congr_right fun _ => ?_
  rw [Bool.and_eq_true, decide_eq_true_eq, decide_eq_true_eq, abs_le]
  refine and_congr_right fun _ => ?_
  constructor
  · rintro ⟨hlo, hhi⟩
    exact ⟨by omega, by omega⟩
  · rintro ⟨hlo, hhi⟩
    exact ⟨by omega, by omega⟩

/-- The second loop passes over exactly the operations that are not kept. -/
theorem passed_over_iff {ops : List Op} {context : Int} {p : Op × Nat} :
    (p.1.kind = .equal ∧ keeps ops context p.2 = false) ↔ ¬ IsKept ops context p := by
  unfold IsKept
  rw [← keeps_iff, not_or, not_not, Bool.not_eq_true]

/-- What the second loop has done with the operations before it. -/
structure Rendered (ops : List Op) (context : Int) (n : Nat) (ps : List (Op × Nat)) (r : Render) :
    Prop where
  out : r.out = joinLines (hunkLines (ps.filter fun p => IsKept ops context p))
  wroteAny : r.wroteAny = true ↔ (ps.filter fun p => IsKept ops context p) ≠ []
  inGap : ∀ p, (ps.filter fun p => IsKept ops context p).getLast? = some p →
    (r.inGap = true ↔ p.2 + 1 ≠ n)

theorem joinLines_append (ls ls' : List Bytes) :
    joinLines (ls ++ ls') = joinLines ls ++ joinLines ls' := List.flatMap_append

/-- A separator is written where one belongs. -/
theorem Rendered.separator {ops : List Op} {context : Int} {ps : List (Op × Nat)} {r : Render}
    {n : Nat} (h : Rendered ops context n ps r) (op : Op) :
    (if r.inGap = true ∧ r.wroteAny = true then r.out ++ bytes "@@\n" else r.out) =
      r.out ++ joinLines
        (gapBefore (ps.filter fun p => IsKept ops context p).getLast? (op, n)) := by
  cases hlast : (ps.filter fun p => IsKept ops context p).getLast? with
  | none =>
    have hno : ¬ (r.inGap = true ∧ r.wroteAny = true) := fun hg =>
      h.wroteAny.mp hg.2 (List.getLast?_eq_none_iff.mp hlast)
    rw [if_neg hno]
    simp [gapBefore, joinLines]
  | some p =>
    have hwrote : r.wroteAny = true := h.wroteAny.mpr fun hnil => by
      rw [hnil] at hlast
      cases hlast
    rw [gapBefore]
    dsimp only
    by_cases hnext : p.2 + 1 = n
    · rw [if_neg fun hg => (h.inGap p hlast).mp hg.1 hnext, if_pos hnext]
      simp [joinLines]
    · rw [if_pos ⟨(h.inGap p hlast).mpr hnext, hwrote⟩, if_neg hnext]
      rfl

theorem joinLines_eq_nil_iff {ls : List Bytes} : joinLines ls = [] ↔ ls = [] := by
  cases ls <;> simp [joinLines]

/-- **One operation**: it is passed over, or its line is written, behind a separator if something
since the last line was passed over. -/
theorem Rendered.step {ops : List Op} {context : Int} {ps : List (Op × Nat)} {r : Render} {op : Op}
    {n : Nat} (h : Rendered ops context n ps r) (hps : ∀ p ∈ ps, p.2 < n) :
    Rendered ops context (n + 1) (ps ++ [(op, n)]) (r.step op (keeps ops context n)) := by
  have ⟨hout, hwrote, hgap⟩ := h
  have hpassed := @passed_over_iff ops context (op, n)
  unfold Render.step
  by_cases hkept : IsKept ops context (op, n)
  · -- kept
    have hfilter : (ps ++ [(op, n)]).filter (fun p => IsKept ops context p) =
        (ps.filter fun p => IsKept ops context p) ++ [(op, n)] := by
      rw [List.filter_append]
      simp [hkept]
    rw [if_neg fun hp => (hpassed.mp hp) hkept]
    refine ⟨?_, ?_, ?_⟩
    · rw [hfilter, hunkLines_concat, joinLines_append, joinLines_append, ← hout]
      dsimp only
      rw [h.separator op]
      simp [joinLines, opLine]
    · rw [hfilter]
      exact iff_of_true rfl (by simp)
    · rw [hfilter]
      intro p hp
      rw [List.getLast?_concat, Option.some.injEq] at hp
      subst hp
      exact iff_of_false (by simp) (by simp)
  · -- passed over
    have hfilter : (ps ++ [(op, n)]).filter (fun p => IsKept ops context p) =
        ps.filter fun p => IsKept ops context p := by
      rw [List.filter_append]
      simp [hkept]
    rw [if_pos (hpassed.mpr hkept)]
    refine ⟨?_, ?_, ?_⟩
    · rw [hfilter]
      exact hout
    · rw [hfilter]
      exact hwrote
    · rw [hfilter]
      intro p hp
      have hlt := hps p (List.mem_of_mem_filter (List.mem_of_getLast? hp))
      exact iff_of_true rfl (by omega)

/-- **The second loop** writes the lines of the operations that are kept. -/
theorem render_eq (ops : List Op) (context : Int) :
    (ops.zipIdx.foldl (fun (r : Render) p => r.step p.1 (keeps ops context p.2)) {}).out =
      joinLines (hunkLines (keptOps ops context)) := by
  -- the invariant, after the operations of any beginning of the list
  have hloop : ∀ done : List Op, Rendered ops context done.length done.zipIdx
      (done.zipIdx.foldl (fun (r : Render) p => r.step p.1 (keeps ops context p.2)) {}) := by
    intro done
    induction done using List.reverseRecOn with
    | nil => exact ⟨rfl, by simp, by simp⟩
    | append_singleton done op ih =>
      have hindex : (done ++ [op]).zipIdx = done.zipIdx ++ [(op, done.length)] := by
        simp [List.zipIdx_append]
      rw [hindex, List.foldl_append, List.length_append]
      exact ih.step fun p hp => List.snd_lt_of_mem_zipIdx hp
  exact (hloop ops).out

theorem newline_notMem_splitLines {s l : Bytes} (h : l ∈ splitLines s) : newline ∉ l := by
  obtain ⟨hlines, hrest⟩ := Lines.sep_notMem_lines newline s
  unfold splitLines at h
  dsimp only at h
  split at h
  · exact hlines l h
  · rcases List.mem_append.mp h with h | h
    · exact hlines l h
    · rw [List.mem_singleton.mp h]
      exact hrest

/-- Lines written out are read back as they were. -/
theorem splitLines_joinLines {ls : List Bytes} (h : ∀ l ∈ ls, newline ∉ l) :
    splitLines (joinLines ls) = ls := by
  have hlines := Lines.lines_flatMap h []
  rw [List.append_nil] at hlines
  unfold splitLines joinLines
  rw [hlines]
  simp [Lines.lines]

/-- The texts of the operations are lines of the two texts. -/
theorem text_mem_of_mem_lcsOps {a b : List Bytes} {op : Op} (h : op ∈ lcsOps a b) :
    op.text ∈ a ∨ op.text ∈ b := by
  obtain ⟨hold, hnew, -⟩ := isDiff_lcsOps a b
  by_cases hkind : op.kind = .add
  · right
    rw [← hnew]
    exact List.mem_map_of_mem (List.mem_filter.mpr ⟨h, by simp [hkind]⟩)
  · left
    rw [← hold]
    exact List.mem_map_of_mem (List.mem_filter.mpr ⟨h, by simp [hkind]⟩)

theorem kind_of_mem_lcsOps_self : ∀ {a : List Bytes} {op : Op}, op ∈ lcsOps a a → op.kind = .equal
  | [], op, h => by cases h
  | x :: a, op, h => by
    rw [lcsOps_cons_cons, if_pos rfl] at h
    rcases List.mem_cons.mp h with rfl | h
    · rfl
    · exact kind_of_mem_lcsOps_self h

/-- Without a change nothing is kept. -/
theorem keptOps_eq_nil_iff {ops : List Op} {context : Int} :
    keptOps ops context = [] ↔ ∀ op ∈ ops, op.kind = .equal := by
  unfold keptOps
  rw [List.filter_eq_nil_iff]
  constructor
  · intro h op hop
    obtain ⟨n, hn⟩ := List.getElem?_of_mem hop
    by_contra hchange
    exact h (op, n) (List.mk_mem_zipIdx_iff_getElem?.mpr hn) (by simp [IsKept, hchange])
  · rintro h p hp hkept
    rcases of_decide_eq_true hkept with hchange | ⟨q, hq, hchange, -⟩
    · exact hchange (h p.1 (List.fst_mem_of_mem_zipIdx hp))
    · exact hchange (h q.1 (List.fst_mem_of_mem_zipIdx hq))

/-- The text of a preview that is not too large. -/
theorem unifiedDiff_eq {oldText newText : Bytes} {maxLines : Int}
    (hold : ((splitLines oldText).length : Int) ≤ maxLines)
    (hnew : ((splitLines newText).length : Int) ≤ maxLines) (context : Int) :
    unifiedDiff oldText newText context maxLines =
      joinLines (hunkLines (keptOps (lcsOps (splitLines oldText) (splitLines newText))
        context)) := by
  unfold unifiedDiff
  split
  · rename_i heq
    subst heq
    rw [keptOps_eq_nil_iff.mpr fun op => kind_of_mem_lcsOps_self]
    rfl
  · dsimp only
    rw [if_neg (by omega)]
    exact render_eq _ context

/-! ## 3. What is shown -/

/-- The positions of the operations that are kept increase. -/
theorem pairwise_keptOps (ops : List Op) (context : Int) :
    (keptOps ops context).Pairwise fun p q => p.2 < q.2 := by
  have hall : (ops.zipIdx.map Prod.snd).Pairwise (· < ·) := by
    rw [List.zipIdx_map_snd]
    exact List.pairwise_lt_range'
  exact (List.pairwise_map.mp hall).filter _

/-- Between two neighbours among the operations that are kept, something was left out exactly if
their positions are not next to each other. -/
theorem gap_iff {ops : List Op} {context : Int} {p q : Op × Nat}
    (h : [p, q] <:+: keptOps ops context) :
    p.2 + 1 ≠ q.2 ↔ ∃ r ∈ ops.zipIdx, p.2 < r.2 ∧ r.2 < q.2 ∧ ¬ IsKept ops context r := by
  obtain ⟨before, after, hsplit⟩ := h
  have hsorted := pairwise_keptOps ops context
  rw [← hsplit, List.append_assoc, List.pairwise_append] at hsorted
  obtain ⟨-, hrest, hbefore⟩ := hsorted
  simp only [List.cons_append, List.nil_append, List.pairwise_cons] at hrest
  obtain ⟨hp, hq, -⟩ := hrest
  have hpq : p.2 < q.2 := hp q List.mem_cons_self
  constructor
  · intro hne
    have hmem : q ∈ ops.zipIdx := by
      have hkept : q ∈ keptOps ops context := by
        rw [← hsplit]
        simp
      exact List.mem_of_mem_filter hkept
    have hlt : q.2 < ops.length := List.snd_lt_of_mem_zipIdx hmem
    -- the operation behind `p` is not kept: it would stand between `p` and `q`
    refine ⟨(ops[p.2 + 1], p.2 + 1), List.mk_mem_zipIdx_iff_getElem?.mpr
      (List.getElem?_eq_getElem (by omega)), by simp, by simp; omega, fun hkept => ?_⟩
    have hr : (ops[p.2 + 1], p.2 + 1) ∈ keptOps ops context :=
      List.mem_filter.mpr ⟨List.mk_mem_zipIdx_iff_getElem?.mpr
        (List.getElem?_eq_getElem (by omega)), decide_eq_true hkept⟩
    rw [← hsplit, List.append_assoc] at hr
    rcases List.mem_append.mp hr with hr | hr
    · have hlt : p.2 + 1 < p.2 := hbefore _ hr p (by simp)
      omega
    · simp only [List.cons_append, List.nil_append, List.mem_cons] at hr
      rcases hr with hr | hr | hr
      · have heq : p.2 + 1 = p.2 := congrArg Prod.snd hr
        omega
      · exact hne (congrArg Prod.snd hr)
      · have hgt : q.2 < p.2 + 1 := hq _ hr
        omega
  · rintro ⟨r, -, hlo, hhi, -⟩
    omega

/-- **What the user sees of an edit.**  Each operation that is kept has one line, in order: its sign
and its text.  A separator stands between two of them exactly if something in between was left out,
and nowhere else.  Every change is kept, and what is kept can be read off the text. -/
theorem unifiedDiff_hunks {oldText newText : Bytes} {maxLines : Int}
    (hold : ((splitLines oldText).length : Int) ≤ maxLines)
    (hnew : ((splitLines newText).length : Int) ≤ maxLines) (context : Int) :
    let ops := lcsOps (splitLines oldText) (splitLines newText)
    let out := unifiedDiff oldText newText context maxLines
    out = joinLines (hunkLines (keptOps ops context)) ∧
      (∀ p q, [p, q] <:+: keptOps ops context → (p.2 + 1 ≠ q.2 ↔
        ∃ r ∈ ops.zipIdx, p.2 < r.2 ∧ r.2 < q.2 ∧ ¬ IsKept ops context r)) ∧
      (∀ p ∈ ops.zipIdx, p.1.kind ≠ .equal → p ∈ keptOps ops context) ∧
      (splitLines out).filterMap readOp = (keptOps ops context).map Prod.fst := by
  intro ops out
  have hout : out = joinLines (hunkLines (keptOps ops context)) := unifiedDiff_eq hold hnew context
  refine ⟨hout, fun p q hpq => gap_iff hpq, fun p hp hchange => ?_, ?_⟩
  · exact List.mem_filter.mpr ⟨hp, by simp [IsKept, hchange]⟩
  · rw [hout, splitLines_joinLines, filterMap_readOp_hunkLines]
    intro l hl
    rcases mem_hunkLines hl with rfl | ⟨p, hp, rfl⟩
    · decide
    · have hop : p.1 ∈ ops := List.fst_mem_of_mem_zipIdx (List.mem_of_mem_filter hp)
      have htext : newline ∉ p.1.text :=
        (text_mem_of_mem_lcsOps hop).elim newline_notMem_splitLines newline_notMem_splitLines
      have hsign : newline ∉ p.1.kind.sign := by
        cases p.1.kind <;> decide
      intro hmem
      exact (List.mem_append.mp hmem).elim hsign htext

theorem unifiedDiff_hunks_two :
    unifiedDiff (bytes "x\nb\nc\nd\n") (bytes "y\nb\nc\nz\n") 0 4000 =
      bytes "-x\n+y\n@@\n-d\n+z\n" :=
  (unifiedDiff_hunks (by decide) (by decide) 0).1.trans (by decide)

/-! ## 4. When nothing is shown -/

/-- The text is not empty and has no newline at its end. -/
def Unterminated (s : Bytes) : Prop := s ≠ [] ∧ s.getLast? ≠ some newline

/-- One of the texts is the other with a newline behind its last line. -/
def OnlyFinalNewline (s t : Bytes) : Prop :=
  (Unterminated s ∧ t = s ++ [newline]) ∨ (Unterminated t ∧ s = t ++ [newline])

instance (s : Bytes) : Decidable (Unterminated s) := inferInstanceAs (Decidable (_ ∧ _))

instance (s t : Bytes) : Decidable (OnlyFinalNewline s t) := inferInstanceAs (Decidable (_ ∨ _))

/-- The text with a newline behind its last line. -/
def terminated (s : Bytes) : Bytes := if Unterminated s then s ++ [newline] else s

theorem lines_rest_eq_nil_iff (s : Bytes) :
    (Lines.lines newline s).2 = [] ↔ ¬ Unterminated s := by
  have hjoin := Lines.flatMap_lines newline s
  have hrest := (Lines.sep_notMem_lines newline s).2
  generalize Lines.lines newline s = p at *
  obtain ⟨complete, rest⟩ := p
  dsimp only at *
  unfold Unterminated
  constructor
  · rintro rfl ⟨hne, hlast⟩
    rw [List.append_nil] at hjoin
    rcases List.eq_nil_or_concat complete with rfl | ⟨ls, l, rfl⟩
    · exact hne hjoin.symm
    · refine hlast ?_
      rw [← hjoin]
      simp
  · intro h
    by_contra hne
    refine h ⟨fun hs => ?_, fun hlast => ?_⟩
    · rw [hs] at hjoin
      exact hne (List.append_eq_nil_iff.mp hjoin).2
    · rw [← hjoin, List.getLast?_append_of_ne_nil _ hne] at hlast
      exact hrest (List.mem_of_getLast? hlast)

/-- The lines of a text, written out again. -/
theorem joinLines_splitLines (s : Bytes) : joinLines (splitLines s) = terminated s := by
  have hjoin := Lines.flatMap_lines newline s
  have hrest := lines_rest_eq_nil_iff s
  unfold splitLines joinLines terminated
  dsimp only
  split
  · rename_i hnil
    rw [if_neg (hrest.mp hnil)]
    simpa [hnil] using hjoin
  · rename_i hne
    rw [if_pos (not_not.mp fun h => hne (hrest.mpr h)), List.flatMap_append, List.flatMap_singleton,
      ← List.append_assoc, hjoin]

/-- **Two texts with the same lines** are the same but for a newline at the end. -/
theorem splitLines_eq_iff {s t : Bytes} :
    splitLines s = splitLines t ↔ s = t ∨ OnlyFinalNewline s t := by
  have hterminated : splitLines s = splitLines t ↔ terminated s = terminated t := by
    rw [← joinLines_splitLines, ← joinLines_splitLines]
    constructor
    · intro h
      rw [h]
    · intro h
      rw [← splitLines_joinLines (fun _ => newline_notMem_splitLines (s := s)), h,
        splitLines_joinLines fun _ => newline_notMem_splitLines]
  rw [hterminated]
  have hend : ∀ u : Bytes, ¬ Unterminated (u ++ [newline]) := fun u h => h.2 (by simp)
  unfold terminated OnlyFinalNewline
  -- only a text without its last newline gets one more
  by_cases hs : Unterminated s <;> by_cases ht : Unterminated t
  · rw [if_pos hs, if_pos ht, List.append_cancel_right_eq]
    refine ⟨Or.inl, ?_⟩
    rintro (h | ⟨-, rfl⟩ | ⟨-, rfl⟩)
    · exact h
    · exact absurd ht (hend s)
    · exact absurd hs (hend t)
  · rw [if_pos hs, if_neg ht]
    constructor
    · exact fun h => Or.inr (Or.inl ⟨hs, h.symm⟩)
    · rintro (rfl | ⟨-, h⟩ | ⟨h, -⟩)
      · exact absurd hs ht
      · exact h.symm
      · exact absurd h ht
  · rw [if_neg hs, if_pos ht]
    constructor
    · exact fun h => Or.inr (Or.inr ⟨ht, h⟩)
    · rintro (rfl | ⟨h, -⟩ | ⟨-, h⟩)
      · exact absurd ht hs
      · exact absurd h hs
      · exact h
  · rw [if_neg hs, if_neg ht]
    refine ⟨Or.inl, ?_⟩
    rintro (h | ⟨h, -⟩ | ⟨h, -⟩)
    · exact h
    · exact absurd h hs
    · exact absurd h ht

/-- A diff without a change is one of the same lines. -/
theorem forall_equal_lcsOps_iff {a b : List Bytes} :
    (∀ op ∈ lcsOps a b, op.kind = .equal) ↔ a = b := by
  constructor
  · intro h
    obtain ⟨hold, hnew, -⟩ := isDiff_lcsOps a b
    have hboth : ∀ kind : OpKind, kind ≠ .equal →
        (lcsOps a b).filter (fun op => op.kind ≠ kind) = lcsOps a b := fun kind hkind =>
      List.filter_eq_self.mpr fun op hop => by simp [h op hop, hkind.symm]
    unfold oldTexts at hold
    unfold newTexts at hnew
    rw [hboth .add (by decide)] at hold
    rw [hboth .del (by decide)] at hnew
    rw [← hold, hnew]
  · rintro rfl
    exact fun op => kind_of_mem_lcsOps_self

/-- **When a preview shows no change**: for the same text, and for texts of the same lines, if these
are not too many. -/
theorem unifiedDiff_eq_nil_iff (oldText newText : Bytes) (context maxLines : Int) :
    unifiedDiff oldText newText context maxLines = [] ↔
      oldText = newText ∨
        (OnlyFinalNewline oldText newText ∧ ((splitLines oldText).length : Int) ≤ maxLines) := by
  by_cases hsmall : ((splitLines oldText).length : Int) ≤ maxLines ∧
      ((splitLines newText).length : Int) ≤ maxLines
  · rw [unifiedDiff_eq hsmall.1 hsmall.2, and_iff_left hsmall.1, ← splitLines_eq_iff,
      ← forall_equal_lcsOps_iff, ← @keptOps_eq_nil_iff _ context, ← hunkLines_eq_nil_iff,
      joinLines_eq_nil_iff]
  · by_cases heq : oldText = newText
    · subst heq
      exact iff_of_true (if_pos rfl) (Or.inl rfl)
    · refine iff_of_false (fun h => ?_) ?_
      · unfold unifiedDiff at h
        rw [if_neg heq] at h
        dsimp only at h
        rw [if_pos (by omega)] at h
        exact absurd (List.append_eq_nil_iff.mp h).2 (by decide)
      · rintro (h | ⟨h, hle⟩)
        · exact heq h
        · have hlines := splitLines_eq_iff.mpr (Or.inr h)
          rw [← hlines] at hsmall
          exact hsmall ⟨hle, hle⟩

/-- How a preview ends, if there is one: with a line, or with the remark that it is too large. -/
theorem unifiedDiff_end (oldText newText : Bytes) (context maxLines : Int) :
    unifiedDiff oldText newText context maxLines = [] ∨
      (∃ front, unifiedDiff oldText newText context maxLines = front ++ [newline]) ∨
      ∃ front, unifiedDiff oldText newText context maxLines = front ++ bytes " preview)" := by
  by_cases hsmall : ((splitLines oldText).length : Int) ≤ maxLines ∧
      ((splitLines newText).length : Int) ≤ maxLines
  · rw [unifiedDiff_eq hsmall.1 hsmall.2]
    generalize hunkLines _ = ls
    rcases List.eq_nil_or_concat ls with rfl | ⟨front, l, rfl⟩
    · exact Or.inl rfl
    · refine Or.inr (Or.inl ⟨joinLines front ++ l, ?_⟩)
      simp [joinLines]
  · unfold unifiedDiff
    split
    · exact Or.inl rfl
    · dsimp only
      rw [if_pos (by omega)]
      refine Or.inr (Or.inr ⟨bytes "(" ++ decimal (splitLines oldText).length ++
        bytes " lines → " ++ decimal (splitLines newText).length ++
        bytes " lines; diff too large to", ?_⟩)
      rw [List.append_assoc _ (bytes " lines; diff too large to")]
      rfl

end SimpleCoder

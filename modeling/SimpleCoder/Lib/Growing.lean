/-
# Lists that grow at their end

§1 is about a list of members that belong to classes.  It grows by members at its end, and members
that are there already may be changed in place, within their class; what then happens to the
members of one class depends on where the last of them is (`LastAt`).

§2 is about the runs of a sequence: what is picked from it, cut where a separator stands.  A new
element begins a run, extends the one that is open, closes it or does nothing to it.
-/
import Mathlib.Data.List.DropRight

namespace Growing

variable {α β κ : Type}

/-! ## 1. Classes -/

/-- Changes of one member that are seen through a map. -/
theorem map_modify {f : α → β} {g : α → α} {h : β → β} (hf : ∀ a, f (g a) = h (f a))
    (i : Nat) (l : List α) : (l.modify i g).map f = (l.map f).modify i h := by
  induction l generalizing i with
  | nil => simp
  | cons a l ih =>
    cases i with
    | zero => simp [hf]
    | succ i => simp [ih]

/-- Changes behind the first part. -/
theorem modify_append_add (f : α → α) (l l' : List α) (i : Nat) :
    (l ++ l').modify (l.length + i) f = l ++ l'.modify i f :=
  List.modifyTailIdx_add (List.modifyHead f) i l l'

section Classes

variable {cls : α → κ} {k k' : κ} {l l' : List α} {i : Nat}

/-- The place of the last member of the class. -/
def LastAt (cls : α → κ) (k : κ) (l : List α) (i : Nat) : Prop :=
  ∃ pre post, l.map cls = pre ++ k :: post ∧ pre.length = i ∧ k ∉ post

theorem LastAt.lt (h : LastAt cls k l i) : i < l.length := by
  obtain ⟨pre, post, hmap, rfl, -⟩ := h
  have hlen := congrArg List.length hmap
  rw [List.length_map, List.length_append, List.length_cons] at hlen
  omega

theorem lastAt_snoc {a : α} (h : cls a = k) : LastAt cls k (l ++ [a]) l.length :=
  ⟨l.map cls, [], by rw [List.map_append, ← h]; rfl, List.length_map _, List.not_mem_nil⟩

/-- Members of other classes do not matter. -/
theorem LastAt.append (h : LastAt cls k l i) (hl' : ∀ a ∈ l', cls a ≠ k) :
    LastAt cls k (l ++ l') i := by
  obtain ⟨pre, post, hmap, hi, hpost⟩ := h
  refine ⟨pre, post ++ l'.map cls, by rw [List.map_append, hmap, List.append_assoc]; rfl, hi, ?_⟩
  intro hmem
  rcases List.mem_append.mp hmem with hmem | hmem
  · exact hpost hmem
  · obtain ⟨a, ha, hcls⟩ := List.mem_map.mp hmem
    exact hl' a ha hcls

/-- Changes within the classes do not matter. -/
theorem LastAt.modify {f : α → α} (hf : ∀ a, cls (f a) = cls a) (h : LastAt cls k l i) (j : Nat) :
    LastAt cls k (l.modify j f) i := by
  unfold LastAt
  rw [map_modify (h := id) hf, List.modify_id]
  exact h

variable [DecidableEq κ]

/-- The members of a class. -/
def ofClass (cls : α → κ) (k : κ) (l : List α) : List α := l.filter fun a => cls a = k

@[simp] theorem ofClass_append : ofClass cls k (l ++ l') = ofClass cls k l ++ ofClass cls k l' :=
  List.filter_append l l'

theorem ofClass_eq_nil (h : ∀ a ∈ l, cls a ≠ k) : ofClass cls k l = [] :=
  List.filter_eq_nil_iff.mpr fun a ha => by simpa using h a ha

theorem ofClass_self {a : α} (h : cls a = k) : ofClass cls k [a] = [a] :=
  List.filter_eq_self.mpr fun b hb => by rw [List.mem_singleton.mp hb, h, decide_eq_true rfl]

/-- What is at the place of the last member, and what a change of it comes to. -/
theorem LastAt.split (h : LastAt cls k l i) : ∃ p a r, l = p ++ ([a] ++ r) ∧ cls a = k ∧
    ofClass cls k r = [] ∧ ∀ f, l.modify i f = p ++ ([f a] ++ r) := by
  obtain ⟨pre, post, hmap, rfl, hpost⟩ := h
  obtain ⟨p, q, rfl, rfl, hq⟩ := List.map_eq_append_iff.mp hmap
  obtain ⟨a, r, rfl, ha, rfl⟩ := List.map_eq_cons_iff.mp hq
  have hr : ofClass cls k r = [] := ofClass_eq_nil fun b hb heq =>
    hpost (heq ▸ List.mem_map_of_mem hb)
  refine ⟨p, a, r, rfl, ha, hr, fun f => ?_⟩
  rw [List.length_map]
  exact modify_append_add f p (a :: r) 0

/-- The members of the class are the same, and the last of them is in the same place. -/
structure SameClass (cls : α → κ) (k : κ) (l l' : List α) : Prop where
  members : ofClass cls k l' = ofClass cls k l
  last : ∀ i, LastAt cls k l i → LastAt cls k l' i

theorem SameClass.append (h : ∀ a ∈ l', cls a ≠ k) : SameClass cls k l (l ++ l') :=
  ⟨by rw [ofClass_append, ofClass_eq_nil h, List.append_nil], fun _ hi => hi.append h⟩

theorem SameClass.snoc {a : α} (h : cls a ≠ k) : SameClass cls k l (l ++ [a]) :=
  .append fun b hb => by
    rw [List.mem_singleton.mp hb]
    exact h

section Change

variable {f : α → α} (hf : ∀ a, cls (f a) = cls a)

include hf

/-- The last member of a class is the one that is changed. -/
theorem LastAt.ofClass_modify (h : LastAt cls k l i) : ∃ before a,
    ofClass cls k l = before ++ [a] ∧ ofClass cls k (l.modify i f) = before ++ [f a] := by
  obtain ⟨p, a, r, rfl, ha, hr, hmod⟩ := h.split
  have hfa : cls (f a) = k := (hf a).trans ha
  refine ⟨ofClass cls k p, a, ?_, ?_⟩
  · rw [ofClass_append, ofClass_append, ofClass_self ha, hr, List.append_nil]
  · rw [hmod, ofClass_append, ofClass_append, ofClass_self hfa, hr, List.append_nil]

/-- The other classes stay as they are. -/
theorem LastAt.sameClass (h : LastAt cls k l i) (hk : k' ≠ k) :
    SameClass cls k' l (l.modify i f) := by
  refine ⟨?_, fun j hj => hj.modify hf i⟩
  obtain ⟨p, a, r, rfl, ha, -, hmod⟩ := h.split
  have hone : ∀ b, cls b = k → ofClass cls k' [b] = [] := fun b hb => ofClass_eq_nil fun c hc => by
    rw [List.mem_singleton.mp hc, hb]
    exact hk.symm
  rw [hmod, ofClass_append, ofClass_append, ofClass_append, ofClass_append, hone a ha,
    hone (f a) ((hf a).trans ha)]

end Change

end Classes

/-! ## 2. Runs -/

section Runs

variable (sep : α → Bool) (pick : α → Option β)

/-- What is picked between the separators, where it is anything. -/
def runs (l : List α) : List (List β) :=
  ((l.splitOnP sep).map fun piece => piece.filterMap pick).filter fun run => !run.isEmpty

/-- What is picked behind the last separator. -/
def openRun (l : List α) : List β := (l.rtakeWhile fun a => !sep a).filterMap pick

variable {sep pick} {l : List α} {a : α} {b : β}

/-- What stands before the last separator is cut into the same pieces, whatever follows. -/
theorem exists_pieces (sep : α → Bool) (l : List α) : ∃ pieces, ∀ tail,
    (∀ a ∈ tail, sep a = false) →
      ((l.rdropWhile fun a => !sep a) ++ tail).splitOnP sep = pieces ++ [tail] := by
  rcases List.eq_nil_or_concat (l.rdropWhile fun a => !sep a) with hnil | ⟨before, s, hconcat⟩
  · refine ⟨[], fun tail htail => ?_⟩
    rw [hnil, List.nil_append]
    exact List.splitOnP_eq_singleton htail
  · have hne : (l.rdropWhile fun a => !sep a) ≠ [] := by
      rw [hconcat, List.concat_eq_append]
      exact List.concat_ne_nil s before
    have hs : sep s = true := by
      have hlast := List.rdropWhile_last_not _ l hne
      have hget : (l.rdropWhile fun a => !sep a).getLast hne = s := by
        simp [hconcat]
      rw [hget] at hlast
      simpa using hlast
    refine ⟨before.splitOnP sep, fun tail htail => ?_⟩
    rw [hconcat, List.concat_eq_append, List.append_assoc, List.singleton_append,
      List.splitOnP_append_cons before tail hs, List.splitOnP_eq_singleton htail]

/-- A list is its last piece, or a piece, a separator and a list that is shorter. -/
theorem pieces_induction (sep : α → Bool) {P : List α → Prop}
    (last : ∀ u, (∀ a ∈ u, sep a = false) → P u)
    (piece : ∀ u c rest, (∀ a ∈ u, sep a = false) → sep c = true → P rest → P (u ++ c :: rest))
    (l : List α) : P l := by
  suffices h : ∀ u, (∀ a ∈ u, sep a = false) → P (u ++ l) from h [] (by simp)
  induction l with
  | nil =>
    intro u hu
    rw [List.append_nil]
    exact last u hu
  | cons c rest ih =>
    intro u hu
    cases hc : sep c
    · rw [List.append_cons]
      refine ih (u ++ [c]) fun a ha => ?_
      rcases List.mem_append.mp ha with ha | ha
      · exact hu a ha
      · rw [List.mem_singleton.mp ha]
        exact hc
    · exact piece u c rest hu hc (ih [] (by simp))

theorem runs_sep (h : sep a = true) : runs sep pick (l ++ [a]) = runs sep pick l := by
  unfold runs
  rw [List.splitOnP_append_cons l [] h]
  simp

theorem openRun_sep (h : sep a = true) : openRun sep pick (l ++ [a]) = [] := by
  unfold openRun
  rw [List.rtakeWhile_concat_neg _ _ _ (by simpa using h)]
  rfl

theorem openRun_snoc (h : sep a = false) :
    openRun sep pick (l ++ [a]) = openRun sep pick l ++ (pick a).toList := by
  unfold openRun
  rw [List.rtakeWhile_concat_pos _ _ _ (by simpa using h), List.filterMap_append]
  cases hpick : pick a <;> simp [hpick]

/-- The runs that are closed, and the open one if there is anything in it. -/
theorem runs_snoc (pick : α → Option β) (l : List α) (h : sep a = false) : ∃ closed,
    runs sep pick l = closed ++ [openRun sep pick l].filter (fun run => !run.isEmpty) ∧
    runs sep pick (l ++ [a]) =
      closed ++ [openRun sep pick (l ++ [a])].filter (fun run => !run.isEmpty) := by
  obtain ⟨pieces, hpieces⟩ := exists_pieces sep l
  have htail : ∀ x ∈ l.rtakeWhile fun a => !sep a, sep x = false := fun x hx => by
    simpa using List.mem_rtakeWhile_imp hx
  have hl : l.splitOnP sep = pieces ++ [l.rtakeWhile fun a => !sep a] := by
    have heq := hpieces _ htail
    rwa [List.rdropWhile_append_rtakeWhile] at heq
  have hla : (l ++ [a]).splitOnP sep = pieces ++ [(l ++ [a]).rtakeWhile fun a => !sep a] := by
    have hrun : (l ++ [a]).rtakeWhile (fun a => !sep a) =
        (l.rtakeWhile fun a => !sep a) ++ [a] :=
      List.rtakeWhile_concat_pos _ _ _ (by simpa using h)
    have heq := hpieces ((l.rtakeWhile fun a => !sep a) ++ [a]) fun x hx => by
      rcases List.mem_append.mp hx with hx | hx
      · exact htail x hx
      · rw [List.mem_singleton.mp hx]
        exact h
    rwa [← List.append_assoc, List.rdropWhile_append_rtakeWhile, ← hrun] at heq
  refine ⟨(pieces.map fun piece => piece.filterMap pick).filter fun run => !run.isEmpty, ?_, ?_⟩
  · unfold runs openRun
    rw [hl, List.map_append, List.filter_append]
    rfl
  · unfold runs openRun
    rw [hla, List.map_append, List.filter_append]
    rfl

/-- An element that nothing is picked from. -/
theorem runs_skip (h : sep a = false) (hpick : pick a = none) :
    runs sep pick (l ++ [a]) = runs sep pick l := by
  obtain ⟨closed, hl, hla⟩ := runs_snoc pick l h
  rw [hla, hl, openRun_snoc h, hpick, Option.toList_none, List.append_nil]

/-- An element that begins a run. -/
theorem runs_begin (h : sep a = false) (hpick : pick a = some b) (hrun : openRun sep pick l = []) :
    runs sep pick (l ++ [a]) = runs sep pick l ++ [[b]] := by
  obtain ⟨closed, hl, hla⟩ := runs_snoc pick l h
  rw [hla, hl, openRun_snoc h, hpick, hrun]
  simp

/-- An element that extends the open run. -/
theorem runs_extend (h : sep a = false) (hpick : pick a = some b) (hrun : openRun sep pick l ≠ []) :
    ∃ closed, runs sep pick l = closed ++ [openRun sep pick l] ∧
      runs sep pick (l ++ [a]) = closed ++ [openRun sep pick l ++ [b]] := by
  obtain ⟨closed, hl, hla⟩ := runs_snoc pick l h
  refine ⟨closed, ?_, ?_⟩
  · rw [hl]
    simp [hrun]
  · rw [hla, openRun_snoc h, hpick]
    simp

/-- **Nothing is lost between the runs.** -/
theorem flatten_runs (h : ∀ a, sep a = true → pick a = none) (l : List α) :
    (runs sep pick l).flatten = l.filterMap pick := by
  induction l using List.reverseRecOn with
  | nil => simp [runs, List.splitOnP_nil]
  | append_singleton l a ih =>
    rw [List.filterMap_append, ← ih]
    cases hsep : sep a with
    | true =>
      rw [runs_sep hsep]
      simp [h a hsep]
    | false =>
      cases hpick : pick a with
      | none =>
        rw [runs_skip hsep hpick]
        simp [hpick]
      | some b =>
        by_cases hrun : openRun sep pick l = []
        · rw [runs_begin hsep hpick hrun]
          simp [hpick]
        · obtain ⟨closed, hl, hla⟩ := runs_extend hsep hpick hrun
          rw [hla, hl]
          simp [hpick]

end Runs

end Growing

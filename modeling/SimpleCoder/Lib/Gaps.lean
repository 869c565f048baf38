/-
# Marks with gaps between them

A list in which some elements only take up room falls apart into marks, each with the gap in front
of it, and a gap behind the last.

* §1: `spread` puts marks and gaps together, and every list is put together so (`exists_spread`).
  What is all gap lies in one of the gaps (`infix_spread`).
* §2: `closeUp f` drops the gaps at the ends and replaces each of the others by what `f` makes of
  it.  The marks stay, with the new gap where the old one was (`closeUp_between`), and closing up
  twice is closing up once if `f` leaves alone what it made (`closeUp_closeUp`).
-/
import Mathlib.Data.List.Basic
import Mathlib.Data.List.Infix

namespace Gaps

variable {α : Type} {blank : α → Bool}

/-! ## 1. Marks and gaps -/

/-- Each mark behind its gap. -/
def spread (items : List (List α × α)) : List α := items.flatMap fun p => p.1 ++ [p.2]

@[simp] theorem spread_nil : spread ([] : List (List α × α)) = [] := rfl

@[simp] theorem spread_cons (p : List α × α) (items : List (List α × α)) :
    spread (p :: items) = p.1 ++ p.2 :: spread items := by
  simp [spread]

@[simp] theorem spread_append (items items' : List (List α × α)) :
    spread (items ++ items') = spread items ++ spread items' := List.flatMap_append

/-- All of the gap is blank, and the mark is not. -/
structure Sound (blank : α → Bool) (p : List α × α) : Prop where
  gap : ∀ a ∈ p.1, blank a = true
  mark : blank p.2 = false

/-- The elements that count. -/
def marks (blank : α → Bool) (l : List α) : List α := l.filter fun a => !blank a

theorem marks_of_gap {gap : List α} (h : ∀ a ∈ gap, blank a = true) : marks blank gap = [] :=
  List.filter_eq_nil_iff.mpr fun a ha => by simp [h a ha]

/-- **Every list** consists of marks behind their gaps, and a last gap. -/
theorem exists_spread (blank : α → Bool) (l : List α) :
    ∃ items tail, l = spread items ++ tail ∧ (∀ p ∈ items, Sound blank p) ∧
      ∀ a ∈ tail, blank a = true := by
  induction l with
  | nil => exact ⟨[], [], rfl, by simp, by simp⟩
  | cons a l ih =>
    obtain ⟨items, tail, rfl, hitems, htail⟩ := ih
    cases ha : blank a with
    | false =>
      refine ⟨([], a) :: items, tail, by simp, ?_, htail⟩
      exact List.forall_mem_cons.mpr ⟨⟨by simp, ha⟩, hitems⟩
    | true =>
      cases items with
      | nil => exact ⟨[], a :: tail, rfl, by simp, List.forall_mem_cons.mpr ⟨ha, htail⟩⟩
      | cons p items =>
        obtain ⟨hp, hitems⟩ := List.forall_mem_cons.mp hitems
        refine ⟨(a :: p.1, p.2) :: items, tail, by simp, ?_, htail⟩
        exact List.forall_mem_cons.mpr
          ⟨⟨List.forall_mem_cons.mpr ⟨ha, hp.gap⟩, hp.mark⟩, hitems⟩

theorem marks_spread {items : List (List α × α)} (h : ∀ p ∈ items, Sound blank p) (tail : List α)
    (htail : ∀ a ∈ tail, blank a = true) :
    marks blank (spread items ++ tail) = items.map Prod.snd := by
  induction items with
  | nil => exact marks_of_gap htail
  | cons p items ih =>
    obtain ⟨hp, hitems⟩ := List.forall_mem_cons.mp h
    have hrest := ih hitems
    unfold marks at hrest ⊢
    rw [spread_cons, List.append_assoc, List.filter_append, List.cons_append,
      List.filter_cons_of_pos (by simp [hp.mark]), hrest]
    exact congrArg (· ++ _) (marks_of_gap hp.gap)

/-- What does not have the element in between lies on one side of it. -/
theorem infix_of_notMem {l a b : List α} {m : α} (hm : m ∉ l) (h : l <:+: a ++ m :: b) :
    l <:+: a ∨ l <:+: b := by
  obtain ⟨s, t, hst⟩ := h
  rw [List.append_assoc, List.append_eq_append_iff] at hst
  rcases hst with ⟨u, rfl, hu⟩ | ⟨u, rfl, hu⟩
  · -- the infix starts in front of the element, so it ends there too
    rw [List.append_eq_append_iff] at hu
    rcases hu with ⟨v, rfl, -⟩ | ⟨v, rfl, hv⟩
    · exact Or.inl ⟨s, v, by simp⟩
    · cases v with
      | nil => exact Or.inl ⟨s, [], by simp⟩
      | cons m' v =>
        rw [List.cons_append] at hv
        injection hv with hmm'
        exact absurd (by simp [hmm']) hm
  · cases u with
    | nil =>
      cases l with
      | nil => exact Or.inl (List.nil_infix)
      | cons x l =>
        rw [List.nil_append, List.cons_append] at hu
        injection hu with hx
        exact absurd (by simp [hx]) hm
    | cons m' u =>
      rw [List.cons_append] at hu
      injection hu with _ hu
      exact Or.inr ⟨u, t, by rw [List.append_assoc, ← hu]⟩

/-- **What is all gap** lies in one of the gaps. -/
theorem infix_spread {items : List (List α × α)} (h : ∀ p ∈ items, Sound blank p) {l : List α}
    (hl : ∀ a ∈ l, blank a = true) (hne : l ≠ []) (hin : l <:+: spread items) :
    ∃ p ∈ items, l <:+: p.1 := by
  induction items with
  | nil => exact absurd (List.infix_nil.mp hin) hne
  | cons p items ih =>
    obtain ⟨hp, hitems⟩ := List.forall_mem_cons.mp h
    have hm : p.2 ∉ l := fun hmem => absurd (hl _ hmem) (by simp [hp.mark])
    rw [spread_cons] at hin
    rcases infix_of_notMem hm hin with hin | hin
    · exact ⟨p, List.mem_cons_self, hin⟩
    · obtain ⟨q, hq, hlq⟩ := ih hitems hin
      exact ⟨q, List.mem_cons_of_mem _ hq, hlq⟩

/-- At the end there is a mark. -/
theorem blank_of_getLast? {items : List (List α × α)} (h : ∀ p ∈ items, Sound blank p) {a : α}
    (ha : (spread items).getLast? = some a) : blank a = false := by
  rcases List.eq_nil_or_concat items with rfl | ⟨items, p, rfl⟩
  · cases ha
  · rw [List.concat_eq_append, spread_append, spread_cons, spread_nil, ← List.append_assoc,
      List.getLast?_concat] at ha
    cases ha
    exact (h p (by simp)).mark

/-! ## 2. Closing the gaps -/

/-- The gap in front is dropped, and `f` is what becomes of every other. -/
def closeUp (f : List α → List α) : List (List α × α) → List (List α × α)
  | [] => []
  | p :: items => ([], p.2) :: items.map fun q => (f q.1, q.2)

variable {f : List α → List α} {items : List (List α × α)}

theorem map_snd_closeUp : (closeUp f items).map Prod.snd = items.map Prod.snd := by
  cases items with
  | nil => rfl
  | cons p items => simp [closeUp]

/-- The gaps there are. -/
theorem gap_of_mem_closeUp {p : List α × α} (h : p ∈ closeUp f items) :
    p.1 = [] ∨ ∃ q ∈ items, p.1 = f q.1 := by
  cases items with
  | nil => cases h
  | cons q items =>
    rcases List.mem_cons.mp h with rfl | hmem
    · exact Or.inl rfl
    · obtain ⟨r, hr, rfl⟩ := List.mem_map.mp hmem
      exact Or.inr ⟨r, List.mem_cons_of_mem _ hr, rfl⟩

theorem closeUp_sound (hf : ∀ gap, ∀ a ∈ f gap, blank a = true) (h : ∀ p ∈ items, Sound blank p) :
    ∀ p ∈ closeUp f items, Sound blank p := by
  intro p hp
  have hmark : p.2 ∈ items.map Prod.snd := by
    rw [← map_snd_closeUp (f := f)]
    exact List.mem_map_of_mem hp
  obtain ⟨q, hq, hpq⟩ := List.mem_map.mp hmark
  refine ⟨?_, by rw [← hpq]; exact (h q hq).mark⟩
  rcases gap_of_mem_closeUp hp with hnil | ⟨r, -, hr⟩
  · rw [hnil]
    simp
  · rw [hr]
    exact hf r.1

/-- **Closing up twice is closing up once.** -/
theorem closeUp_closeUp (hf : ∀ gap, f (f gap) = f gap) :
    closeUp f (closeUp f items) = closeUp f items := by
  cases items with
  | nil => rfl
  | cons p items => simp [closeUp, hf]

/-- At the front there is a mark. -/
theorem blank_of_head? (h : ∀ p ∈ items, Sound blank p) {a : α}
    (ha : (spread (closeUp f items)).head? = some a) : blank a = false := by
  cases items with
  | nil => cases ha
  | cons p items =>
    cases ha
    exact (h p List.mem_cons_self).mark

/-- Two marks with a gap between them, in a list with the marks and gaps around. -/
theorem exists_between (before after : List α) {gap : List α} {c d : α} (hc : blank c = false)
    (hd : blank d = false) (hgap : ∀ a ∈ gap, blank a = true) :
    ∃ items lead items' tail, before ++ c :: (gap ++ d :: after) =
        spread (items ++ (lead, c) :: (gap, d) :: items') ++ tail ∧
      (∀ p ∈ items ++ (lead, c) :: (gap, d) :: items', Sound blank p) ∧
      (∀ a ∈ tail, blank a = true) ∧ items.map Prod.snd = marks blank before ∧
      items'.map Prod.snd = marks blank after := by
  obtain ⟨items, lead, rfl, hitems, hlead⟩ := exists_spread blank before
  obtain ⟨items', tail, rfl, hitems', htail⟩ := exists_spread blank after
  refine ⟨items, lead, items', tail, by simp, ?_, htail, (marks_spread hitems lead hlead).symm,
    (marks_spread hitems' tail htail).symm⟩
  intro p hp
  simp only [List.mem_append, List.mem_cons] at hp
  rcases hp with hp | rfl | rfl | hp
  · exact hitems p hp
  · exact ⟨hlead, hc⟩
  · exact ⟨hgap, hd⟩
  · exact hitems' p hp

/-- **Between two marks** there is what `f` makes of the gap, and around them the same marks. -/
theorem closeUp_between (hf : ∀ gap, ∀ a ∈ f gap, blank a = true) {lead gap : List α} {c d : α}
    {items' : List (List α × α)}
    (h : ∀ p ∈ items ++ (lead, c) :: (gap, d) :: items', Sound blank p) :
    ∃ before after, spread (closeUp f (items ++ (lead, c) :: (gap, d) :: items')) =
        before ++ c :: (f gap ++ d :: after) ∧
      marks blank before = items.map Prod.snd ∧ marks blank after = items'.map Prod.snd := by
  have hafter : ∀ p ∈ items'.map fun q => (f q.1, q.2), Sound blank p := by
    intro p hp
    obtain ⟨q, hq, rfl⟩ := List.mem_map.mp hp
    exact ⟨hf q.1, (h q (by simp [hq])).mark⟩
  have hmarks : marks blank (spread (items'.map fun q => (f q.1, q.2))) = items'.map Prod.snd := by
    have heq := marks_spread hafter [] (by simp)
    rw [List.append_nil] at heq
    rw [heq, List.map_map]
    rfl
  cases items with
  | nil => exact ⟨[], _, by simp [closeUp], rfl, hmarks⟩
  | cons p items =>
    have hbefore : ∀ q ∈ closeUp f (p :: items), Sound blank q :=
      closeUp_sound hf fun q hq => h q (List.mem_append_left _ hq)
    refine ⟨spread (closeUp f (p :: items)) ++ f lead, _, ?_, ?_, hmarks⟩
    · simp [closeUp]
    · rw [marks_spread hbefore _ (hf lead), map_snd_closeUp]

end Gaps

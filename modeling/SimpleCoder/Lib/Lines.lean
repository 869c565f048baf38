/-
# Cutting a byte stream into lines, and reading it in pieces

A reader that is handed a stream piece by piece keeps what does not yet form a line in a buffer,
and after each piece processes every line the buffer now completes.  This file has the two
halves of why the way the stream is cut up does not matter:

* `lines sep b`, the lines `b` completes and the remainder, with the law that reads a
  concatenation (`lines_append`): the remainder of the first part is carried into the second;
* `feed`, the buffered reader itself, over any state that contains a buffer and any line action
  that may raise but leaves the buffer alone.  One call of `feed` does exactly what the action
  does on the completed lines in order (`feed_spec`), so a whole run of calls does what one
  call on the concatenation does (`feed_pieces`).

When the action raises, the reader stops with the offending line still in the buffer.  What the
buffer then holds depends on the cut, and nothing else does; `Alike` is equality up to that.
-/
import SimpleCoder.Lib.Exec
import Mathlib.Data.List.Basic

namespace Lines

open Exec (mapState mapState_mapState)

/-! ## 1. Lines and the remainder -/

section Cut

variable {α : Type} [DecidableEq α]

/-- The first line of the buffer and what follows its separator, if the buffer completes one. -/
def takeLine (sep : α) : List α → Option (List α × List α)
  | [] => none
  | c :: b => if c = sep then some ([], b) else (takeLine sep b).map fun p => (c :: p.1, p.2)

/-- All lines the buffer completes, in order, and the remainder. -/
def lines (sep : α) : List α → List (List α) × List α
  | [] => ([], [])
  | c :: b =>
    if c = sep then ([] :: (lines sep b).1, (lines sep b).2)
    else match (lines sep b).1 with
      | [] => ([], c :: (lines sep b).2)
      | l :: ls => ((c :: l) :: ls, (lines sep b).2)

theorem takeLine_eq_none_iff {sep : α} {b : List α} : takeLine sep b = none ↔ sep ∉ b := by
  induction b with
  | nil => simp [takeLine]
  | cons c b ih =>
    by_cases hc : c = sep
    · simp [takeLine, hc]
    · simp [takeLine, hc, ih, Ne.symm hc]

theorem takeLine_eq_some_iff {sep : α} {b l r : List α} :
    takeLine sep b = some (l, r) ↔ sep ∉ l ∧ b = l ++ sep :: r := by
  induction b generalizing l with
  | nil => simp [takeLine]
  | cons c b ih =>
    by_cases hc : c = sep
    · subst hc
      cases l with
      | nil => simp [takeLine]
      | cons d l => simp +contextual [takeLine, eq_comm]
    · cases l with
      | nil => simp [takeLine, hc]
      | cons d l =>
        simp only [takeLine, if_neg hc, Option.map_eq_some_iff, Prod.mk.injEq, List.cons.injEq,
          Prod.exists, List.cons_append, List.mem_cons, not_or]
        constructor
        · rintro ⟨l', r', h, ⟨rfl, rfl⟩, rfl⟩
          obtain ⟨hl, hb⟩ := ih.mp h
          exact ⟨⟨Ne.symm hc, hl⟩, rfl, hb⟩
        · rintro ⟨⟨-, hl⟩, rfl, hb⟩
          exact ⟨l, r, ih.mpr ⟨hl, hb⟩, ⟨rfl, rfl⟩, rfl⟩

/-- A buffer without a separator completes no line. -/
theorem lines_of_notMem {sep : α} {b : List α} (h : sep ∉ b) : lines sep b = ([], b) := by
  induction b with
  | nil => rfl
  | cons c b ih =>
    obtain ⟨hc, hb⟩ : ¬ sep = c ∧ sep ∉ b := by simpa using h
    simp [lines, ih hb, Ne.symm hc]

/-- A line and its separator in front of a buffer are its first line. -/
theorem lines_line_append {sep : α} {l : List α} (h : sep ∉ l) (b : List α) :
    lines sep (l ++ sep :: b) = (l :: (lines sep b).1, (lines sep b).2) := by
  induction l with
  | nil => simp [lines]
  | cons c l ih =>
    obtain ⟨hc, hl⟩ : ¬ sep = c ∧ sep ∉ l := by simpa using h
    simp [lines, ih hl, Ne.symm hc]

/-- **The law of concatenation.**  The lines of `a ++ b` are the lines of `a` and then those of
`b` with the remainder of `a` carried in front of it. -/
theorem lines_append (sep : α) (a b : List α) :
    lines sep (a ++ b) =
      ((lines sep a).1 ++ (lines sep ((lines sep a).2 ++ b)).1,
        (lines sep ((lines sep a).2 ++ b)).2) := by
  induction a with
  | nil => simp [lines]
  | cons c a ih =>
    by_cases hc : c = sep
    · simp [lines, hc, ih]
    · cases h : (lines sep a).1 with
      | nil => simp [lines, hc, ih, h]
      | cons l ls => simp [lines, hc, ih, h]

/-- A line has no separator in it, and neither has the remainder. -/
theorem sep_notMem_lines (sep : α) (b : List α) :
    (∀ l ∈ (lines sep b).1, sep ∉ l) ∧ sep ∉ (lines sep b).2 := by
  induction b with
  | nil => simp [lines]
  | cons c b ih =>
    by_cases hc : c = sep
    · simpa [lines, hc] using ih
    · cases h : (lines sep b).1 with
      | nil => simpa [lines, hc, h, Ne.symm hc] using ih.2
      | cons l ls => simpa [lines, hc, h, Ne.symm hc] using ih

/-- The lines, each with its separator, and the remainder are the buffer again. -/
theorem flatMap_lines (sep : α) (b : List α) :
    (lines sep b).1.flatMap (· ++ [sep]) ++ (lines sep b).2 = b := by
  induction b with
  | nil => rfl
  | cons c b ih =>
    by_cases hc : c = sep
    · simpa [lines, hc] using ih
    · cases h : (lines sep b).1 with
      | nil => simpa [lines, hc, h] using ih
      | cons l ls => simpa [lines, hc, h] using ih

/-- A document written line by line, each with its separator, reads back as those lines. -/
theorem lines_flatMap {sep : α} {ls : List (List α)} (h : ∀ l ∈ ls, sep ∉ l) (r : List α) :
    lines sep (ls.flatMap (· ++ [sep]) ++ r) = (ls ++ (lines sep r).1, (lines sep r).2) := by
  induction ls with
  | nil => simp
  | cons l ls ih =>
    have hl : sep ∉ l := h l List.mem_cons_self
    have hls : ∀ m ∈ ls, sep ∉ m := fun m hm => h m (List.mem_cons_of_mem _ hm)
    rw [List.flatMap_cons, List.append_assoc, List.append_assoc, List.singleton_append,
      lines_line_append hl, ih hls]
    simp

end Cut

/-! ## 2. Runs that agree up to a buffer -/

/-- A state with a buffer in it: a lens, with its laws. -/
structure Buffer (σ α : Type) where
  get : σ → List α
  set : List α → σ → σ
  get_set : ∀ b s, get (set b s) = b
  set_set : ∀ b b' s, set b (set b' s) = set b s
  set_get : ∀ s, set (get s) s = s

variable {ε σ α : Type} {B : Buffer σ α} {step : List α → EStateM ε σ PUnit}

/-- The line action neither reads nor changes the buffer. -/
def LeavesBuffer (B : Buffer σ α) (step : List α → EStateM ε σ PUnit) : Prop :=
  ∀ line b, Exec.Commutes (B.set b) (step line)

/-- Two runs agree: both return, in the same state, or both raise the same exception, in states
that differ in the buffer at most. -/
def Alike (B : Buffer σ α) (x y : EStateM.Result ε σ PUnit) : Prop :=
  (∃ s, x = .ok ⟨⟩ s ∧ y = .ok ⟨⟩ s) ∨
    ∃ e s s', x = .error e s ∧ y = .error e s' ∧ B.set [] s = B.set [] s'

theorem Alike.refl (x : EStateM.Result ε σ PUnit) : Alike B x x := by
  cases x with
  | ok a s => exact Or.inl ⟨s, rfl, rfl⟩
  | error e s => exact Or.inr ⟨e, s, s, rfl, rfl, rfl⟩

theorem Alike.symm {x y : EStateM.Result ε σ PUnit} (h : Alike B x y) : Alike B y x := by
  rcases h with ⟨s, hx, hy⟩ | ⟨e, s, s', hx, hy, hs⟩
  · exact Or.inl ⟨s, hy, hx⟩
  · exact Or.inr ⟨e, s', s, hy, hx, hs.symm⟩

theorem Alike.trans {x y z : EStateM.Result ε σ PUnit} (h : Alike B x y) (h' : Alike B y z) :
    Alike B x z := by
  rcases h with ⟨s, hx, hy⟩ | ⟨e, s, s', hx, hy, hs⟩
  · rcases h' with ⟨t, hy', hz⟩ | ⟨e', t, t', hy', -, -⟩
    · rw [hy] at hy'
      cases hy'
      exact Or.inl ⟨s, hx, hz⟩
    · rw [hy] at hy'
      cases hy'
  · rcases h' with ⟨t, hy', -⟩ | ⟨e', t, t', hy', hz, ht⟩
    · rw [hy] at hy'
      cases hy'
    · rw [hy] at hy'
      cases hy'
      exact Or.inr ⟨e, s, t', hx, hz, hs.trans ht⟩

/-- Agreeing runs both return or both do not. -/
theorem Alike.returns_iff {m m' : EStateM ε σ PUnit} {s s' : σ} (h : Alike B (m s) (m' s')) :
    Exec.Returns m s ↔ Exec.Returns m' s' := by
  unfold Exec.Returns Exec.Post
  rcases h with ⟨t, hx, hy⟩ | ⟨e, t, t', hx, hy, -⟩
  · rw [hx, hy]
  · rw [hx, hy]

/-- A raise leaves nothing of the buffer in `Alike`. -/
theorem alike_error {e : ε} {s : σ} (b : List α) :
    Alike B (.error e s) (.error e (B.set b s)) :=
  Or.inr ⟨e, s, B.set b s, rfl, rfl, by rw [B.set_set]⟩

/-- A loop of actions that leave the buffer alone leaves it alone. -/
theorem LeavesBuffer.forM (h : LeavesBuffer B step) (ls : List (List α)) (b : List α) (s : σ) :
    forM ls step (B.set b s) = mapState (B.set b) (forM ls step s) :=
  Exec.Commutes.forM (fun line => h line b) ls s

/-! ## 3. The buffered reader -/

section Reader

variable [DecidableEq α]

section

variable (B : Buffer σ α) (sep : α) (step : List α → EStateM ε σ PUnit)

/-- Process the completed lines one after another, each removed from the buffer once it has been
processed.  The count is the number of separators in the buffer. -/
def drain : Nat → EStateM ε σ PUnit
  | 0 => pure ⟨⟩
  | n + 1 => do
    match takeLine sep (B.get (← get)) with
    | none => pure ⟨⟩
    | some (line, rest) => do
      step line
      modify (B.set rest)
      drain n

/-- Append a piece to the buffer and process every line it completes. -/
def feed (piece : List α) : EStateM ε σ PUnit := do
  modify fun s => B.set (B.get s ++ piece) s
  drain B sep step ((B.get (← get)).count sep)

end

variable {sep : α}

/-- What the action may change, and the buffer, is all the reader may change. -/
theorem within_drain {R : σ → σ → Prop} [Std.Refl R] [IsTrans σ R]
    (hstep : ∀ line, Exec.Within R (step line)) (hset : ∀ b s, R s (B.set b s)) :
    ∀ n, Exec.Within R (drain B sep step n)
  | 0 => Exec.Within.pure _
  | n + 1 => by
    refine Exec.Within.get fun s => ?_
    split
    · exact Exec.Within.pure _
    · exact (hstep _).bind fun _ => (Exec.Within.modify (hset _)).bind fun _ =>
        within_drain hstep hset n

theorem within_feed {R : σ → σ → Prop} [Std.Refl R] [IsTrans σ R]
    (hstep : ∀ line, Exec.Within R (step line)) (hset : ∀ b s, R s (B.set b s))
    (piece : List α) : Exec.Within R (feed B sep step piece) :=
  (Exec.Within.modify fun s => hset _ s).bind fun _ =>
    Exec.Within.get fun _ => within_drain hstep hset _

/-- **What the reader's loop does**: the action on the completed lines in order, and then the
remainder in the buffer. -/
theorem drain_spec (sep : α) (h : LeavesBuffer B step) :
    ∀ (n : Nat) (s : σ), (B.get s).count sep ≤ n →
      Alike B (drain B sep step n s)
        (mapState (B.set (lines sep (B.get s)).2) (forM (lines sep (B.get s)).1 step s))
  | 0, s, hn => by
    have hs : sep ∉ B.get s := List.count_eq_zero.mp (Nat.le_zero.mp hn)
    rw [lines_of_notMem hs]
    refine Or.inl ⟨s, rfl, ?_⟩
    change EStateM.Result.ok PUnit.unit (B.set (B.get s) s) = _
    rw [B.set_get]
  | n + 1, s, hn => by
    cases ht : takeLine sep (B.get s) with
    | none =>
      have hs : sep ∉ B.get s := takeLine_eq_none_iff.mp ht
      rw [lines_of_notMem hs]
      have hd : drain B sep step (n + 1) s = .ok ⟨⟩ s := by
        change (match takeLine sep (B.get s) with
          | none => pure ⟨⟩
          | some (line, rest) => _ : EStateM ε σ PUnit) s = _
        rw [ht]
        rfl
      refine Or.inl ⟨s, hd, ?_⟩
      change EStateM.Result.ok PUnit.unit (B.set (B.get s) s) = _
      rw [B.set_get]
    | some p =>
      obtain ⟨l, r⟩ := p
      obtain ⟨hl, hb⟩ := takeLine_eq_some_iff.mp ht
      have hd : drain B sep step (n + 1) s =
          EStateM.bind (step l) (fun _ s' => drain B sep step n (B.set r s')) s := by
        change (match takeLine sep (B.get s) with
          | none => pure ⟨⟩
          | some (line, rest) => _ : EStateM ε σ PUnit) s = _
        rw [ht]
        rfl
      rw [hd, hb, lines_line_append hl, List.forM_cons]
      change Alike B (EStateM.bind _ _ _) (mapState _ (EStateM.bind _ _ _))
      unfold EStateM.bind
      -- behind a line that raises nothing is read; else the induction has the rest
      cases step l s with
      | error e s' => exact alike_error _
      | ok a s' =>
        have hn' : (B.get (B.set r s')).count sep ≤ n := by
          rw [B.get_set]
          rw [hb, List.count_append, List.count_cons_self] at hn
          omega
        have ih := drain_spec sep h n (B.set r s') hn'
        rw [B.get_set, h.forM, mapState_mapState] at ih
        simpa only [B.set_set] using ih

/-- **What one piece does.** -/
theorem feed_spec (sep : α) (h : LeavesBuffer B step) (piece : List α) (s : σ) :
    Alike B (feed B sep step piece s)
      (mapState (B.set (lines sep (B.get s ++ piece)).2)
        (forM (lines sep (B.get s ++ piece)).1 step s)) := by
  have hd := drain_spec sep h _ (B.set (B.get s ++ piece) s) (Nat.le_refl _)
  rw [h.forM, mapState_mapState] at hd
  simp only [B.set_set, B.get_set] at hd
  have hf : feed B sep step piece s =
      drain B sep step ((B.get s ++ piece).count sep) (B.set (B.get s ++ piece) s) := by
    change drain B sep step ((B.get (B.set (B.get s ++ piece) s)).count sep) _ = _
    rw [B.get_set]
  rw [hf]
  exact hd

/-- A run of two calls is a run of one on the concatenation. -/
theorem feed_append (h : LeavesBuffer B step) (a b : List α) (s : σ) :
    Alike B ((feed B sep step a >>= fun _ => feed B sep step b) s)
      (feed B sep step (a ++ b) s) := by
  have ha := feed_spec sep h a s
  have hab := feed_spec sep h (a ++ b) s
  rw [← List.append_assoc, lines_append] at hab
  change Alike B (EStateM.bind _ _ _) _
  unfold EStateM.bind
  refine Alike.trans ?_ hab.symm
  have hsplit : ∀ (ls ls' : List (List α)) (t : σ), forM (ls ++ ls') step t =
      EStateM.bind (forM ls step) (fun _ => forM ls' step) t := fun ls ls' t => by
    rw [List.forM_append]
    rfl
  rw [hsplit]
  unfold EStateM.bind
  -- the first piece raises, and then so does the whole, or the second one is fed
  cases hls : forM (lines sep (B.get s ++ a)).1 step s with
  | error e t =>
    rw [hls] at ha
    rcases ha with ⟨t', -, hy⟩ | ⟨e', t1, t2, hx, hy, ht⟩
    · cases hy
    · rw [hx]
      injection hy with he ht2
      subst he
      refine Or.inr ⟨e, t1, _, rfl, rfl, ?_⟩
      rw [ht, ← ht2, B.set_set, B.set_set]
  | ok u t =>
    rw [hls] at ha
    rcases ha with ⟨t', hx, hy⟩ | ⟨e', t1, t2, -, hy, -⟩
    · rw [hx]
      injection hy with _ ht
      subst ht
      have hb := feed_spec sep h b (B.set (lines sep (B.get s ++ a)).2 t)
      rw [h.forM, mapState_mapState] at hb
      simpa only [B.set_set, B.get_set] using hb
    · cases hy

/-- **The cut does not matter.**  Feeding the pieces one after another and feeding their
concatenation at once agree. -/
theorem feed_pieces (h : LeavesBuffer B step) :
    ∀ (ps : List (List α)) (p : List α) (s : σ),
      Alike B (forM (p :: ps) (feed B sep step) s) (feed B sep step (p :: ps).flatten s)
  | [], p, s => by
    have h1 : forM [p] (feed B sep step) s = feed B sep step p s := by
      rw [List.forM_cons]
      change EStateM.bind _ _ _ = _
      unfold EStateM.bind
      cases feed B sep step p s <;> rfl
    rw [h1, List.flatten_singleton]
    exact Alike.refl _
  | q :: ps, p, s => by
    rw [List.forM_cons, List.flatten_cons]
    refine Alike.trans ?_ (feed_append h p _ s)
    change Alike B (EStateM.bind _ _ _) (EStateM.bind _ _ _)
    unfold EStateM.bind
    cases feed B sep step p s with
    | ok u t => exact feed_pieces h ps q t
    | error e t => exact Alike.refl _

/-- From a state whose buffer holds no complete line there need not even be a piece. -/
theorem feed_pieces_of_notMem (h : LeavesBuffer B step) {s : σ} (hs : sep ∉ B.get s)
    (ps : List (List α)) :
    Alike B (forM ps (feed B sep step) s) (feed B sep step ps.flatten s) := by
  cases ps with
  | cons p ps => exact feed_pieces h ps p s
  | nil =>
    have hf := feed_spec sep h [] s
    rw [List.append_nil, lines_of_notMem hs] at hf
    have hok : mapState (B.set (B.get s)) (forM [] step s : EStateM.Result ε σ PUnit) =
        .ok ⟨⟩ s := by
      change EStateM.Result.ok PUnit.unit (B.set (B.get s) s) = _
      rw [B.set_get]
    rw [hok] at hf
    exact hf.symm

end Reader

end Lines

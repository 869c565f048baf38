/-
# Runs with a log

A run of a loop can be told as a list of labels, one for each time round, with a step relation that
says what a label means between two states.  `Labelled` is such a run; the rules here turn what is
known of one time round into a log of the whole loop, for a `for` over a container and for a counted
loop that may return early.
-/
import SimpleCoder.Lib.Exec

namespace Exec

variable {ε σ α β γ δ : Type}

/-- The steps that the labels stand for lead from the first state to the second. -/
inductive Labelled (step : σ → β → σ → Prop) : σ → List β → σ → Prop where
  | nil (s : σ) : Labelled step s [] s
  | cons {s t u : σ} {b : β} {log : List β} :
      step s b t → Labelled step t log u → Labelled step s (b :: log) u

variable {step : σ → β → σ → Prop}

/-- What holds of the label of every step holds of every label of the run. -/
theorem Labelled.forall_mem {P : β → Prop} (hstep : ∀ s b t, step s b t → P b) {s u : σ}
    {log : List β} (h : Labelled step s log u) : ∀ b ∈ log, P b := by
  induction h with
  | nil s => simp
  | cons hb _ ih => exact List.forall_mem_cons.mpr ⟨hstep _ _ _ hb, ih⟩

theorem Labelled.append {s t u : σ} {log log' : List β} (h : Labelled step s log t)
    (h' : Labelled step t log' u) : Labelled step s (log ++ log') u := by
  induction h with
  | nil s => exact h'
  | cons hb _ ih => exact .cons hb (ih h')

/-- A list that each step extends by something its label says. -/
theorem Labelled.appends (list : σ → List γ) (out : β → List γ)
    (hstep : ∀ s b t, step s b t → list t = list s ++ out b) {s u : σ} {log : List β}
    (h : Labelled step s log u) : list u = list s ++ log.flatMap out := by
  induction h with
  | nil s => simp
  | cons hb _ ih => rw [ih, hstep _ _ _ hb, List.flatMap_cons, List.append_assoc]

/-- **The log of a `for`.**  If each time round is a step whose label is for the element, the loop
has a label for each element, in order. -/
theorem post_forM_labelled {f : α → EStateM ε σ PUnit} {key : β → α} {E : ε → σ → Prop}
    (hstep : ∀ a s, Post (f a) s (fun _ t => ∃ b, key b = a ∧ step s b t) E) :
    ∀ (l : List α) (s : σ), Post (forM l f) s
      (fun _ t => ∃ log, log.map key = l ∧ Labelled step s log t) E
  | [], s => ⟨[], rfl, Labelled.nil s⟩
  | a :: l, s => by
    rw [List.forM_cons, post_bind]
    refine (hstep a s).mono (fun _ t ht => ?_) (fun _ _ h => h)
    obtain ⟨b, hb, ht⟩ := ht
    refine (post_forM_labelled hstep l t).mono (fun _ u hu => ?_) (fun _ _ h => h)
    obtain ⟨log, hlog, hu⟩ := hu
    exact ⟨b :: log, by rw [List.map_cons, hb, hlog], Labelled.cons ht hu⟩

/-- **The log of a counted loop.**  It has a label for each time round that went on to the next, and
then the loop stopped early or its count had run out. -/
theorem post_untilSome_labelled {body : EStateM ε σ (Option α)} {after : EStateM ε σ α}
    {stop spent : σ → δ → α → σ → Prop} {E : ε → σ → Prop}
    (hbody : ∀ s, Post body s
      (fun r t => r.elim (∃ b, step s b t) (fun a => ∃ d, stop s d a t)) E)
    (hafter : ∀ s, Post after s (fun a t => ∃ d, spent s d a t) E) :
    ∀ (n : Nat) (s : σ), Post (untilSome body after n) s
      (fun a u => ∃ log t d, Labelled step s log t ∧
        (log.length < n ∧ stop t d a u ∨ log.length = n ∧ spent t d a u)) E
  | 0, s => (hafter s).mono
      (fun _ _ ⟨d, hd⟩ => ⟨[], s, d, Labelled.nil s, Or.inr ⟨rfl, hd⟩⟩) (fun _ _ h => h)
  | n + 1, s => by
    rw [untilSome, post_bind]
    refine (hbody s).mono (fun r t hr => ?_) (fun _ _ h => h)
    cases r with
    | some a =>
      obtain ⟨d, hd⟩ := hr
      exact ⟨[], s, d, Labelled.nil s, Or.inl ⟨Nat.succ_pos n, hd⟩⟩
    | none =>
      obtain ⟨b, hb⟩ := hr
      refine (post_untilSome_labelled hbody hafter n t).mono (fun a u hu => ?_) (fun _ _ h => h)
      obtain ⟨log, v, d, hlog, hend⟩ := hu
      refine ⟨b :: log, v, d, Labelled.cons hb hlog, ?_⟩
      rcases hend with ⟨hlt, hd⟩ | ⟨heq, hd⟩
      · exact Or.inl ⟨Nat.succ_lt_succ hlt, hd⟩
      · exact Or.inr ⟨congrArg Nat.succ heq, hd⟩

end Exec

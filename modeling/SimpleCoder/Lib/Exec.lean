/-
# Programs that return or raise

`EStateM ε σ α` is a program over a state `σ` that either returns a value or raises an
exception, and that keeps the state it had reached in both cases: what a C++ function does to
the objects it holds by reference when it is left normally or by a throw.

This file has the rules for reasoning about such programs.  `Post m s Q E` is the weakest
precondition of `m` at `s`: `Q` of the value and state if `m` returns, `E` of the exception
and state if it raises.  One equation for each way of building a program turns a goal about a
program into a goal about its parts, and one invariant rule for each loop combinator carries a
property over a whole run.

Two weaker statements about a program are shown by a walk over its structure: that it neither reads
nor writes a part of the state (`Commutes`), and that it changes the state only as some preorder
allows (`Within`).

The loops are `forM` over a list (a `for` over a container) and `untilSome` (a counted `for` whose
body may `return`).  For both there is also the exact criterion for returning: a run returns if
and only if every one of its steps can be taken from the state the run takes it in
(`forM_returns_iff`, `untilSome_returns_iff`).
-/
import Mathlib.Logic.Basic
import Mathlib.Tactic.Common

namespace Exec

variable {ε σ τ α β : Type}

/-! ## 1. Weakest preconditions -/

/-- Started in `s`, the program `m` either returns with `Q` or raises with `E`. -/
def Post (m : EStateM ε σ α) (s : σ) (Q : α → σ → Prop) (E : ε → σ → Prop) : Prop :=
  match m s with
  | .ok a s' => Q a s'
  | .error e s' => E e s'

/-- Started in `s`, the program `m` returns: no exception leaves it. -/
def Returns (m : EStateM ε σ α) (s : σ) : Prop :=
  Post m s (fun _ _ => True) (fun _ _ => False)

theorem Post.of_ok {m : EStateM ε σ α} {s s' : σ} {a : α} {Q : α → σ → Prop}
    {E : ε → σ → Prop} (h : Post m s Q E) (hm : m s = .ok a s') : Q a s' := by
  simpa only [Post, hm] using h

theorem Post.of_error {m : EStateM ε σ α} {s s' : σ} {e : ε} {Q : α → σ → Prop}
    {E : ε → σ → Prop} (h : Post m s Q E) (hm : m s = .error e s') : E e s' := by
  simpa only [Post, hm] using h

/-- A postcondition is a statement about the two ways the run can end. -/
theorem post_iff {m : EStateM ε σ α} {s : σ} {Q : α → σ → Prop} {E : ε → σ → Prop} :
    Post m s Q E ↔
      (∀ a s', m s = .ok a s' → Q a s') ∧ (∀ e s', m s = .error e s' → E e s') := by
  constructor
  · exact fun h => ⟨fun _ _ => h.of_ok, fun _ _ => h.of_error⟩
  · rintro ⟨hok, herr⟩
    unfold Post
    cases hm : m s with
    | ok a s' => exact hok a s' hm
    | error e s' => exact herr e s' hm

/-- Both postconditions can be weakened. -/
theorem Post.mono {m : EStateM ε σ α} {s : σ} {Q Q' : α → σ → Prop} {E E' : ε → σ → Prop}
    (h : Post m s Q E) (hQ : ∀ a s', Q a s' → Q' a s') (hE : ∀ e s', E e s' → E' e s') :
    Post m s Q' E' :=
  post_iff.mpr ⟨fun a s' hm => hQ a s' (h.of_ok hm), fun e s' hm => hE e s' (h.of_error hm)⟩

theorem Post.and {m : EStateM ε σ α} {s : σ} {Q Q' : α → σ → Prop} {E E' : ε → σ → Prop}
    (h : Post m s Q E) (h' : Post m s Q' E') :
    Post m s (fun a t => Q a t ∧ Q' a t) (fun e t => E e t ∧ E' e t) :=
  post_iff.mpr ⟨fun _ _ hm => ⟨h.of_ok hm, h'.of_ok hm⟩,
    fun _ _ hm => ⟨h.of_error hm, h'.of_error hm⟩⟩

theorem returns_iff {m : EStateM ε σ α} {s : σ} : Returns m s ↔ ∃ a s', m s = .ok a s' := by
  unfold Returns Post
  cases m s <;> simp

theorem returns_of_ok {m : EStateM ε σ α} {s s' : σ} {a : α} (h : m s = .ok a s') :
    Returns m s := returns_iff.mpr ⟨a, s', h⟩

/-- The state that a program started in `s` leaves, whether it returns or raises. -/
def stateAfter (m : EStateM ε σ α) (s : σ) : σ :=
  match m s with
  | .ok _ s' => s'
  | .error _ s' => s'

theorem Post.stateAfter {m : EStateM ε σ α} {s : σ} {Q : σ → Prop}
    (h : Post m s (fun _ s' => Q s') (fun _ s' => Q s')) : Q (stateAfter m s) := by
  unfold Exec.stateAfter
  split
  · rename_i hok
    exact h.of_ok hok
  · rename_i herr
    exact h.of_error herr

/-! ## 2. One equation for each way of building a program -/

@[simp] theorem post_pure (a : α) (s : σ) (Q : α → σ → Prop) (E : ε → σ → Prop) :
    Post (pure a : EStateM ε σ α) s Q E ↔ Q a s := Iff.rfl

@[simp] theorem post_bind (m : EStateM ε σ α) (f : α → EStateM ε σ β) (s : σ)
    (Q : β → σ → Prop) (E : ε → σ → Prop) :
    Post (m >>= f) s Q E ↔ Post m s (fun a s' => Post (f a) s' Q E) E := by
  change Post (EStateM.bind m f) s Q E ↔ _
  simp only [Post, EStateM.bind]
  cases m s <;> rfl

@[simp] theorem post_get (s : σ) (Q : σ → σ → Prop) (E : ε → σ → Prop) :
    Post (get : EStateM ε σ σ) s Q E ↔ Q s s := Iff.rfl

@[simp] theorem post_modify (f : σ → σ) (s : σ) (Q : PUnit → σ → Prop) (E : ε → σ → Prop) :
    Post (modify f : EStateM ε σ PUnit) s Q E ↔ Q ⟨⟩ (f s) := Iff.rfl

@[simp] theorem post_modifyGet (f : σ → α × σ) (s : σ) (Q : α → σ → Prop)
    (E : ε → σ → Prop) :
    Post (modifyGet f : EStateM ε σ α) s Q E ↔ Q (f s).1 (f s).2 := Iff.rfl

theorem modifyGet_bind (f : σ → α × σ) (k : α → EStateM ε σ β) (s : σ) :
    (modifyGet f >>= k) s = k (f s).1 (f s).2 := rfl

/-- A sequence whose first part returns goes on from there. -/
theorem bind_of_ok {m : EStateM ε σ α} {a : α} {s s' : σ} (h : m s = .ok a s')
    (k : α → EStateM ε σ β) : (m >>= k) s = k a s' := by
  change EStateM.bind m k s = _
  unfold EStateM.bind
  rw [h]

/-- A computation that only may raise, as a program. -/
def ofExcept (x : Except ε α) : EStateM ε σ α := fun s =>
  match x with
  | .ok a => .ok a s
  | .error e => .error e s

@[simp] theorem post_ofExcept (x : Except ε α) (s : σ) (Q : α → σ → Prop) (E : ε → σ → Prop) :
    Post (ofExcept x) s Q E ↔ (∀ a, x = .ok a → Q a s) ∧ (∀ e, x = .error e → E e s) := by
  cases x <;> simp [Post, ofExcept]

theorem ofExcept_bind_ok {x : Except ε α} {a : α} (h : x = .ok a) (k : α → EStateM ε σ β) (s : σ) :
    (ofExcept x >>= k) s = k a s := by
  subst h
  rfl

theorem ofExcept_bind_error {x : Except ε α} {e : ε} (h : x = .error e) (k : α → EStateM ε σ β)
    (s : σ) : (ofExcept x >>= k) s = .error e s := by
  subst h
  rfl

/-- A program over a part `τ` of the state, as a program over the whole of it. -/
def zoom (get : σ → τ) (put : τ → σ → σ) (m : EStateM ε τ α) : EStateM ε σ α := fun s =>
  match m (get s) with
  | .ok a t => .ok a (put t s)
  | .error e t => .error e (put t s)

@[simp] theorem post_zoom (get : σ → τ) (put : τ → σ → σ) (m : EStateM ε τ α) (s : σ)
    (Q : α → σ → Prop) (E : ε → σ → Prop) :
    Post (zoom get put m) s Q E ↔
      Post m (get s) (fun a t => Q a (put t s)) (fun e t => E e (put t s)) := by
  simp only [Post, zoom]
  cases m (get s) <;> rfl

/-- A program over a local state `τ`, made from the state on entry and folded back on leaving; it
also gives the local state it returned in. -/
def enclosed (enter : σ → τ) (leave : τ → σ) (m : EStateM ε τ α) : EStateM ε σ (α × τ) := fun s =>
  match m (enter s) with
  | .ok a t => .ok (a, t) (leave t)
  | .error e t => .error e (leave t)

@[simp] theorem post_enclosed (enter : σ → τ) (leave : τ → σ) (m : EStateM ε τ α) (s : σ)
    (Q : α × τ → σ → Prop) (E : ε → σ → Prop) :
    Post (enclosed enter leave m) s Q E ↔
      Post m (enter s) (fun a t => Q (a, t) (leave t)) (fun e t => E e (leave t)) := by
  simp only [Post, enclosed]
  cases m (enter s) <;> rfl

/-- A sequence returns exactly when its first part does and the rest does from there. -/
theorem bind_returns_iff {m : EStateM ε σ α} {f : α → EStateM ε σ β} {s : σ} :
    Returns (m >>= f) s ↔ Returns m s ∧ ∀ a s', m s = .ok a s' → Returns (f a) s' := by
  unfold Returns
  rw [post_bind, post_iff, post_iff]
  constructor
  · rintro ⟨hok, herr⟩
    exact ⟨⟨fun _ _ _ => trivial, herr⟩, hok⟩
  · rintro ⟨⟨-, herr⟩, hok⟩
    exact ⟨hok, herr⟩

/-- The same where what the parts need does not depend on the state. -/
theorem bind_returns_iff_and {m : EStateM ε σ α} {k : α → EStateM ε σ β} {P Q : Prop}
    (hm : ∀ s, Returns m s ↔ P) (hk : ∀ a s, Returns (k a) s ↔ Q) (s : σ) :
    Returns (m >>= k) s ↔ P ∧ Q := by
  rw [bind_returns_iff, hm]
  simp only [hk]
  refine and_congr_right fun hp => ⟨fun h => ?_, fun h _ _ _ => h⟩
  obtain ⟨a, s', hs'⟩ := returns_iff.mp ((hm s).mpr hp)
  exact h a s' hs'

/-- Going on with a computation that may raise. -/
theorem returns_ofExcept {x : Except ε α} {k : α → EStateM ε σ β} {s : σ} :
    Returns (ofExcept x >>= k) s ↔ (∃ a, x = .ok a) ∧ ∀ a, x = .ok a → Returns (k a) s := by
  unfold Returns
  rw [post_bind, post_ofExcept]
  cases x <;> simp

/-! ## 3. Leaving a part of the state alone -/

/-- The state a run ended in, changed by `f`. -/
def mapState (f : σ → σ) : EStateM.Result ε σ α → EStateM.Result ε σ α
  | .ok a s => .ok a (f s)
  | .error e s => .error e (f s)

theorem mapState_mapState (f g : σ → σ) (x : EStateM.Result ε σ α) :
    mapState f (mapState g x) = mapState (fun s => f (g s)) x := by
  cases x <;> rfl

/-- Changing the state by `f` before the run or after it is the same: the program neither reads
nor writes what `f` changes. -/
def Commutes (f : σ → σ) (m : EStateM ε σ α) : Prop := ∀ s, m (f s) = mapState f (m s)

variable {f : σ → σ}

theorem Commutes.pure (a : α) : Commutes f (Pure.pure a : EStateM ε σ α) := fun _ => rfl

theorem Commutes.bind {m : EStateM ε σ α} {k : α → EStateM ε σ β} (hm : Commutes f m)
    (hk : ∀ a, Commutes f (k a)) : Commutes f (m >>= k) := by
  intro s
  change EStateM.bind m k (f s) = mapState f (EStateM.bind m k s)
  unfold EStateM.bind
  rw [hm s]
  cases m s with
  | ok a s' => exact hk a s'
  | error e s' => rfl

theorem Commutes.modify {g : σ → σ} (h : ∀ s, g (f s) = f (g s)) :
    Commutes f (modify g : EStateM ε σ PUnit) := by
  intro s
  change EStateM.Result.ok PUnit.unit (g (f s)) = EStateM.Result.ok PUnit.unit (f (g s))
  rw [h]

theorem Commutes.ofExcept (x : Except ε α) : Commutes f (Exec.ofExcept x : EStateM ε σ α) := by
  cases x <;> exact fun _ => rfl

/-- Reading the state, if what follows does not depend on what `f` changes. -/
theorem Commutes.get {k : σ → EStateM ε σ α} (hread : ∀ s, k (f s) = k s)
    (hk : ∀ s, Commutes f (k s)) : Commutes f (get >>= k) := by
  intro s
  change k (f s) (f s) = mapState f (k s s)
  rw [hread, hk s s]

theorem Commutes.forM {step : α → EStateM ε σ PUnit} (h : ∀ a, Commutes f (step a)) :
    ∀ l : List α, Commutes f (forM l step)
  | [] => fun _ => rfl
  | a :: l => by
    rw [List.forM_cons]
    exact (h a).bind fun _ => Commutes.forM h l

/-! ## 4. What a program may change -/

/-- The program changes the state only as the relation `R` allows, whether it returns or raises. -/
def Within (R : σ → σ → Prop) (m : EStateM ε σ α) : Prop :=
  ∀ s, Post m s (fun _ s' => R s s') (fun _ s' => R s s')

section Within

variable {R : σ → σ → Prop}

theorem Within.mono {R' : σ → σ → Prop} {m : EStateM ε σ α} (h : Within R m)
    (hR : ∀ s s', R s s' → R' s s') : Within R' m := fun s =>
  (h s).mono (fun _ _ => hR s _) (fun _ _ => hR s _)

theorem Within.pure [Std.Refl R] (a : α) : Within R (Pure.pure a : EStateM ε σ α) :=
  Std.Refl.refl

/-- Continuing a run that has so far changed the state as `R` allows. -/
theorem Within.after [IsTrans σ R] {m : EStateM ε σ α} {s t : σ} (h : Within R m) (hst : R s t) :
    Post m t (fun _ u => R s u) (fun _ u => R s u) :=
  (h t).mono (fun _ _ => IsTrans.trans _ _ _ hst) (fun _ _ => IsTrans.trans _ _ _ hst)

/-- A sequence whose first part gives values of which something is known. -/
theorem Within.bind_of [IsTrans σ R] {P : α → Prop} {m : EStateM ε σ α} {k : α → EStateM ε σ β}
    (hm : ∀ s, Post m s (fun a s' => P a ∧ R s s') (fun _ s' => R s s'))
    (hk : ∀ a, P a → Within R (k a)) : Within R (m >>= k) := by
  intro s
  rw [post_bind]
  exact (hm s).mono (fun a _ ht => (hk a ht.1).after ht.2) (fun _ _ h => h)

theorem Within.bind [IsTrans σ R] {m : EStateM ε σ α} {k : α → EStateM ε σ β} (hm : Within R m)
    (hk : ∀ a, Within R (k a)) : Within R (m >>= k) :=
  Within.bind_of (P := fun _ => True)
    (fun s => (hm s).mono (fun _ _ h => ⟨trivial, h⟩) (fun _ _ h => h)) fun a _ => hk a

theorem Within.get {k : σ → EStateM ε σ α} (hk : ∀ s, Within R (k s)) : Within R (get >>= k) :=
  fun s => hk s s

theorem Within.modify {g : σ → σ} (h : ∀ s, R s (g s)) :
    Within R (modify g : EStateM ε σ PUnit) := h

theorem Within.ofExcept [Std.Refl R] (x : Except ε α) :
    Within R (Exec.ofExcept x : EStateM ε σ α) := by
  intro s
  rw [post_ofExcept]
  exact ⟨fun _ _ => Std.Refl.refl s, fun _ _ => Std.Refl.refl s⟩

theorem Within.forM [Std.Refl R] [IsTrans σ R] {f : α → EStateM ε σ PUnit} :
    ∀ l : List α, (∀ a ∈ l, Within R (f a)) → Within R (forM l f)
  | [], _ => Within.pure _
  | a :: l, h => by
    rw [List.forM_cons]
    exact (h a List.mem_cons_self).bind fun _ =>
      Within.forM l fun b hb => h b (List.mem_cons_of_mem _ hb)

/-- The invariant holds in the second state if it does in the first. -/
def Keeps (I : σ → Prop) (s s' : σ) : Prop := I s → I s'

instance {I : σ → Prop} : Std.Refl (Keeps I) := ⟨fun _ => id⟩

instance {I : σ → Prop} : IsTrans σ (Keeps I) := ⟨fun _ _ _ h h' hs => h' (h hs)⟩

/-- Keeping an invariant is changing the state within a preorder. -/
theorem within_keeps_iff {I : σ → Prop} {m : EStateM ε σ α} :
    Within (Keeps I) m ↔ ∀ s, I s → Post m s (fun _ s' => I s') (fun _ s' => I s') := by
  constructor
  · exact fun h s hs => (h s).mono (fun _ _ h' => h' hs) (fun _ _ h' => h' hs)
  · exact fun h s => post_iff.mpr
      ⟨fun _ _ hm hs => (h s hs).of_ok hm, fun _ _ hm hs => (h s hs).of_error hm⟩

end Within

/-- A property of logs that a log has if a longer one does. -/
structure LogProp (γ : Type) where
  holds : List γ → Prop
  of_prefix : ∀ {l l' : List γ}, l <+: l' → holds l' → holds l

/-- The log has grown, and the invariant has been kept as long as the log has the property. -/
structure KeepsWhile {γ : Type} (log : σ → List γ) (P : LogProp γ) (I : σ → Prop)
    (s s' : σ) : Prop where
  grows : log s <+: log s'
  keeps : P.holds (log s') → I s → I s'

section KeepsWhile

variable {γ : Type} {log : σ → List γ} {P : LogProp γ} {I : σ → Prop}

instance : Std.Refl (KeepsWhile log P I) := ⟨fun _ => ⟨List.prefix_refl _, fun _ => id⟩⟩

instance : IsTrans σ (KeepsWhile log P I) :=
  ⟨fun _ _ _ h h' => ⟨h.grows.trans h'.grows,
    fun hp hs => h'.keeps hp (h.keeps (P.of_prefix h'.grows hp) hs)⟩⟩

/-- A step that does not touch the log. -/
theorem KeepsWhile.of_log_eq {s s' : σ} (hlog : log s' = log s) (h : I s → I s') :
    KeepsWhile log P I s s' := ⟨hlog ▸ List.prefix_refl _, fun _ => h⟩

end KeepsWhile

/-! ## 5. A loop over a list -/

/-- **The invariant rule for a `for` over a container.**  `I l s` holds when `l` is what is
left to visit; the body takes it from `a :: l` to `l`. -/
theorem post_forM {f : α → EStateM ε σ PUnit} {I : List α → σ → Prop} {E : ε → σ → Prop}
    (hstep : ∀ a l s, I (a :: l) s → Post (f a) s (fun _ s' => I l s') E) :
    ∀ (l : List α) (s : σ), I l s → Post (forM l f) s (fun _ s' => I [] s') E
  | [], _, h => h
  | a :: l, s, h => by
    rw [List.forM_cons, post_bind]
    exact (hstep a l s h).mono (fun _ s' h' => post_forM hstep l s' h') (fun _ _ h' => h')

/-- The same where a step's need does not depend on the state. -/
theorem forM_returns_iff_forall {f : α → EStateM ε σ PUnit} {C : α → Prop}
    (hC : ∀ a s, Returns (f a) s ↔ C a) :
    ∀ (l : List α) (s : σ), Returns (forM l f) s ↔ ∀ a ∈ l, C a
  | [], _ => iff_of_true trivial (by simp)
  | a :: l, s => by
    rw [List.forM_cons, List.forall_mem_cons]
    exact bind_returns_iff_and (hC a) (fun _ => forM_returns_iff_forall hC l) s

/-! ## 6. A counted loop that may return early -/

/-- Run `body` until it gives a result, at most `n` times; `after` is what follows the loop when
the count runs out. -/
def untilSome (body : EStateM ε σ (Option α)) (after : EStateM ε σ α) :
    Nat → EStateM ε σ α
  | 0 => after
  | n + 1 => do
    match ← body with
    | some a => pure a
    | none => untilSome body after n

/-- **The invariant rule for a counted loop.**  `I` holds at every loop head. -/
theorem post_untilSome {body : EStateM ε σ (Option α)} {after : EStateM ε σ α} {I : σ → Prop}
    {Q : α → σ → Prop} {E : ε → σ → Prop}
    (hbody : ∀ s, I s → Post body s (fun r s' => r.elim (I s') (fun a => Q a s')) E)
    (hafter : ∀ s, I s → Post after s Q E) :
    ∀ (n : Nat) (s : σ), I s → Post (untilSome body after n) s Q E
  | 0, s, h => hafter s h
  | n + 1, s, h => by
    rw [untilSome, post_bind]
    refine (hbody s h).mono (fun r s' h' => ?_) (fun _ _ h' => h')
    cases r with
    | some a => exact h'
    | none => exact post_untilSome hbody hafter n s' h'

theorem Within.untilSome {R : σ → σ → Prop} [Std.Refl R] [IsTrans σ R]
    {body : EStateM ε σ (Option α)} {after : EStateM ε σ α} (hbody : Within R body)
    (hafter : Within R after) : ∀ n : Nat, Within R (untilSome body after n)
  | 0 => hafter
  | n + 1 => by
    rw [Exec.untilSome]
    refine hbody.bind fun r => ?_
    cases r with
    | some a => exact Within.pure a
    | none => exact Within.untilSome hbody hafter n

end Exec

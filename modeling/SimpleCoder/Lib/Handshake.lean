/-
# A client, a server and the letters between them

A client thread writes letters to a server thread, which reads them in order.  An event is not
waited for.  A question comes with a promise: the client waits until the server has kept it.  The
last letter is a farewell, and the server waits for the client's thread to end when it reads that
one.  Between the letters the server has moves of its own.

* §1: what the two do, and what it comes to if the server does at once what it is written to
  (`Alone`).
* §2 is the system of the two threads.
* §3: it is a refinement of the first (`refines`): whichever thread moves next, nothing comes of it
  that the client could not have seen with the server doing everything at once.
* §4: neither waits for ever (`progress`), and between the moves of its own the server and the
  client have only so many steps to take (`wellFounded_step`).
-/
import Mathlib.Logic.Relation
import Mathlib.Order.WellFounded
import Mathlib.Data.Prod.Lex

namespace Handshake

variable {E Q A R S : Type}

/-! ## 1. One after the other -/

/-- What a client does up to its end. -/
inductive Client (E Q A R : Type) where
  | exit (result : R)
  | post (event : E) (next : Client E Q A R)
  | ask (question : Q) (next : A → Client E Q A R)

/-- What a server does with the letters, and by itself. -/
structure Server (E Q A R S : Type) where
  handle : E → S → S
  answer : Q → S → A × S
  finish : R → S → S
  own : S → S → Prop

/-- What the client still has to do, the server, and the answers that it has given. -/
structure Alone (E Q A R S : Type) where
  client : Option (Client E Q A R)
  server : S
  answers : List A := []

/-- The server does at once what it is written to. -/
inductive Alone.Step (srv : Server E Q A R S) : Alone E Q A R S → Alone E Q A R S → Prop where
  | post (e : E) (c : Client E Q A R) (s : S) (as : List A) :
    Step srv ⟨some (.post e c), s, as⟩ ⟨some c, srv.handle e s, as⟩
  | ask (q : Q) (next : A → Client E Q A R) (s : S) (as : List A) :
    Step srv ⟨some (.ask q next), s, as⟩
      ⟨some (next (srv.answer q s).1), (srv.answer q s).2, as ++ [(srv.answer q s).1]⟩
  | exit (r : R) (s : S) (as : List A) :
    Step srv ⟨some (.exit r), s, as⟩ ⟨none, srv.finish r s, as⟩
  | own (c : Option (Client E Q A R)) {s s' : S} (as : List A) (h : srv.own s s') :
    Step srv ⟨c, s, as⟩ ⟨c, s', as⟩

/-! ## 2. Two threads -/

inductive Letter (E Q R : Type) where
  | event (event : E)
  | question (question : Q) (promise : Nat)
  | farewell (result : R)

/-- Where the client is. -/
inductive Phase (E Q A R : Type) where
  | running (client : Client E Q A R)
  | waiting (promise : Nat) (next : A → Client E Q A R)
  | ended

structure System (E Q A R S : Type) where
  client : Phase E Q A R
  letters : List (Letter E Q R) := []
  server : S
  /-- What the promises made so far have been set to. -/
  promises : List (Option A) := []
  /-- One has been set that was set before, or never made. -/
  broken : Bool := false

namespace System

/-- The answers that have been given. -/
def answers (x : System E Q A R S) : List A := x.promises.filterMap id

/-- The client has ended and its farewell has been read. -/
def Over (x : System E Q A R S) : Prop := x.client = .ended ∧ x.letters = []

/-- A promise is set. -/
def keep (i : Nat) (a : A) (x : System E Q A R S) : System E Q A R S :=
  { x with
    promises := x.promises.set i (some a)
    broken := x.broken || match x.promises[i]? with
      | some none => false
      | _ => true }

/-- What either thread does for the other. -/
inductive Step (srv : Server E Q A R S) : System E Q A R S → System E Q A R S → Prop where
  /-- The client's thread. -/
  | post {x : System E Q A R S} {e : E} {c : Client E Q A R} (h : x.client = .running (.post e c)) :
    Step srv x { x with client := .running c, letters := x.letters ++ [.event e] }
  | ask {x : System E Q A R S} {q : Q} {next : A → Client E Q A R}
    (h : x.client = .running (.ask q next)) :
    Step srv x { x with
      client := .waiting x.promises.length next
      letters := x.letters ++ [.question q x.promises.length]
      promises := x.promises ++ [none] }
  | receive {x : System E Q A R S} {i : Nat} {next : A → Client E Q A R} {a : A}
    (h : x.client = .waiting i next) (hset : x.promises[i]? = some (some a)) :
    Step srv x { x with client := .running (next a) }
  | exit {x : System E Q A R S} {r : R} (h : x.client = .running (.exit r)) :
    Step srv x { x with client := .ended, letters := x.letters ++ [.farewell r] }
  /-- The server's thread. -/
  | handle {x : System E Q A R S} {e : E} {rest : List (Letter E Q R)}
    (h : x.letters = .event e :: rest) :
    Step srv x { x with letters := rest, server := srv.handle e x.server }
  | answer {x : System E Q A R S} {q : Q} {i : Nat} {rest : List (Letter E Q R)}
    (h : x.letters = .question q i :: rest) :
    Step srv x ({ x with letters := rest, server := (srv.answer q x.server).2 }.keep i
      (srv.answer q x.server).1)
  /-- It joins the other. -/
  | join {x : System E Q A R S} {r : R} {rest : List (Letter E Q R)}
    (h : x.letters = .farewell r :: rest) (hended : x.client = .ended) :
    Step srv x { x with letters := rest, server := srv.finish r x.server }

/-- Anything that can happen next. -/
inductive Moves (srv : Server E Q A R S) : System E Q A R S → System E Q A R S → Prop where
  | step {x y : System E Q A R S} (h : Step srv x y) : Moves srv x y
  | own {x : System E Q A R S} {s : S} (h : srv.own x.server s) : Moves srv x { x with server := s }

end System

/-! ## 3. The refinement -/

/-- What the server has not read yet, the client has still to do. -/
def unread (events : List E) (c : Client E Q A R) : Client E Q A R := events.foldr .post c

/-- The states of the system, and what the client has come to in them. -/
inductive Meets : System E Q A R S → Alone E Q A R S → Prop where
  | running (events : List E) (c : Client E Q A R) (s : S) (as : List A) :
    Meets { client := .running c, letters := events.map .event, server := s,
            promises := as.map some }
      ⟨some (unread events c), s, as⟩
  | asking (events : List E) (q : Q) (next : A → Client E Q A R) (s : S) (as : List A) :
    Meets { client := .waiting as.length next,
            letters := events.map .event ++ [.question q as.length], server := s,
            promises := as.map some ++ [none] }
      ⟨some (unread events (.ask q next)), s, as⟩
  | answered (a : A) (next : A → Client E Q A R) (s : S) (as : List A) :
    Meets { client := .waiting as.length next, server := s, promises := as.map some ++ [some a] }
      ⟨some (next a), s, as ++ [a]⟩
  | leaving (events : List E) (r : R) (s : S) (as : List A) :
    Meets { client := .ended, letters := events.map .event ++ [.farewell r], server := s,
            promises := as.map some }
      ⟨some (unread events (.exit r)), s, as⟩
  | ended (s : S) (as : List A) :
    Meets { client := .ended, server := s, promises := as.map some } ⟨none, s, as⟩

section Refines

variable {srv : Server E Q A R S} {x x' : System E Q A R S} {y y' : Alone E Q A R S}

theorem unread_append (events : List E) (e : E) (c : Client E Q A R) :
    unread (events ++ [e]) c = unread events (.post e c) := by
  unfold unread
  rw [List.foldr_append]
  rfl

/-- The states that are met, with the letters still to be read. -/
theorem Meets.post {events : List E} {e : E} {c : Client E Q A R} {s : S} {as : List A} :
    Meets { client := .running c, letters := events.map .event ++ [.event e], server := s,
            promises := as.map some }
      ⟨some (unread events (.post e c)), s, as⟩ := by
  have h := @Meets.running E Q A R S (events ++ [e]) c s as
  rwa [unread_append, List.map_append] at h

/-- The promise that is open stands behind those that are kept. -/
theorem promise_next (as : List A) (p : Option A) : (as.map some ++ [p])[as.length]? = some p := by
  simp

theorem keep_next (c : Phase E Q A R) (ls : List (Letter E Q R)) (s : S) (as : List A) (a : A) :
    System.keep as.length a
        { client := c, letters := ls, server := s, promises := as.map some ++ [none] } =
      { client := c, letters := ls, server := s, promises := as.map some ++ [some a] } := by
  simp [System.keep]

/-- **A step is one of the client alone, or changes nothing for it.** -/
theorem Meets.step (h : Meets x y) (hstep : System.Step srv x x') :
    ∃ y', Meets x' y' ∧ (y' = y ∨ Alone.Step srv y y') := by
  cases h with
  | running events c s as =>
    cases hstep with
    | post h =>
      cases h
      -- what is posted waits in the queue; for the client alone it is still to be posted
      exact ⟨_, .post, .inl rfl⟩
    | ask h =>
      cases h
      rw [List.length_map]
      exact ⟨_, .asking events _ _ s as, .inl rfl⟩
    | receive h => cases h
    | exit h =>
      cases h
      exact ⟨_, .leaving events _ s as, .inl rfl⟩
    | handle h =>
      cases events with
      | nil => cases h
      | cons e events =>
        cases h
        -- the event takes effect where it is handled
        exact ⟨_, .running events c _ as, .inr (.post _ _ s as)⟩
    | answer h => cases events <;> cases h
    | join h hended => cases hended
  | asking events q next s as =>
    cases hstep with
    | post h | ask h | exit h => cases h
    | receive h hset =>
      cases h
      cases (promise_next as none).symm.trans hset
    | handle h =>
      cases events with
      | nil => cases h
      | cons e events =>
        cases h
        exact ⟨_, .asking events q next _ as, .inr (.post _ _ s as)⟩
    | answer h =>
      cases events with
      | nil =>
        cases h
        rw [keep_next]
        -- and the question, where it is answered: all events before it are handled
        exact ⟨_, .answered _ next _ as, .inr (.ask q next s as)⟩
      | cons e events => cases h
    | join h hended => cases hended
  | answered a next s as =>
    cases hstep with
    | post h | ask h | exit h => cases h
    | receive h hset =>
      cases h
      cases (promise_next as (some a)).symm.trans hset
      have hmeets := @Meets.running E Q A R S [] (next a) s (as ++ [a])
      rw [List.map_append] at hmeets
      exact ⟨_, hmeets, .inl rfl⟩
    | handle h | answer h | join h hended => cases h
  | leaving events r s as =>
    cases hstep with
    | post h | ask h | receive h hset | exit h => cases h
    | handle h =>
      cases events with
      | nil => cases h
      | cons e events =>
        cases h
        exact ⟨_, .leaving events r _ as, .inr (.post _ _ s as)⟩
    | answer h => cases events <;> cases h
    | join h hended =>
      cases events with
      | nil =>
        cases h
        -- and the exit, where the thread is joined
        exact ⟨_, .ended _ as, .inr (.exit r s as)⟩
      | cons e events => cases h
  | ended s as =>
    cases hstep with
    | post h | ask h | receive h hset | exit h | handle h | answer h | join h hended => cases h

/-- A move of the server's own. -/
theorem Meets.own (h : Meets x y) {s : S} (hown : srv.own x.server s) :
    Meets { x with server := s } { y with server := s } ∧
      Alone.Step srv y { y with server := s } := by
  cases h with
  | running events c s₀ as => exact ⟨.running events c s as, .own _ as hown⟩
  | asking events q next s₀ as => exact ⟨.asking events q next s as, .own _ as hown⟩
  | answered a next s₀ as => exact ⟨.answered a next s as, .own _ _ hown⟩
  | leaving events r s₀ as => exact ⟨.leaving events r s as, .own _ as hown⟩
  | ended s₀ as => exact ⟨.ended s as, .own _ as hown⟩

/-- The client has been started and has not done anything yet. -/
def System.start (c : Client E Q A R) (s : S) : System E Q A R S :=
  { client := .running c, server := s }

/-- **A run** leads to a state that meets one that the client reaches alone. -/
theorem meets_of_run {c : Client E Q A R} {s : S}
    (h : Relation.ReflTransGen (System.Moves srv) (System.start c s) x) :
    ∃ y, Relation.ReflTransGen (Alone.Step srv) ⟨some c, s, []⟩ y ∧ Meets x y := by
  induction h with
  | refl => exact ⟨_, .refl, .running [] c s []⟩
  | tail hrun hmove ih =>
    obtain ⟨y, hy, hmeets⟩ := ih
    cases hmove with
    | step hstep =>
      obtain ⟨y', hmeets', rfl | hy'⟩ := hmeets.step hstep
      · exact ⟨y', hy, hmeets'⟩
      · exact ⟨y', hy.tail hy', hmeets'⟩
    | own hown =>
      obtain ⟨hmeets', hy'⟩ := hmeets.own hown
      exact ⟨_, hy.tail hy', hmeets'⟩

/-- What is the same in states that meet. -/
theorem Meets.same (h : Meets x y) :
    x.broken = false ∧ y.server = x.server ∧ y.answers = x.answers ∧
      (x.Over ↔ y.client = none) := by
  unfold System.answers System.Over
  cases h with
  | running events c s as => simp
  | asking events q next s as => simp
  | answered a next s as => simp
  | leaving events r s as => simp
  | ended s as => simp

/-- **Refinement.**  However the threads take turns, no promise is broken, and the server has come
to a state, with answers given, that the client alone could have brought it to; it is over exactly
when the client has nothing left to do. -/
theorem refines {c : Client E Q A R} {s : S}
    (h : Relation.ReflTransGen (System.Moves srv) (System.start c s) x) :
    x.broken = false ∧ ∃ rest,
      Relation.ReflTransGen (Alone.Step srv) ⟨some c, s, []⟩ ⟨rest, x.server, x.answers⟩ ∧
        (x.Over ↔ rest = none) := by
  obtain ⟨⟨rest, s', as⟩, hy, hmeets⟩ := meets_of_run h
  obtain ⟨hbroken, rfl, rfl, hover⟩ := hmeets.same
  exact ⟨hbroken, rest, hy, hover⟩

end Refines

/-! ## 4. Nobody waits for ever -/

section Progress

variable {srv : Server E Q A R S} {x : System E Q A R S} {y : Alone E Q A R S}

/-- **A thread can go on** until all is over. -/
theorem Meets.progress (h : Meets x y) : x.Over ∨ ∃ x', System.Step srv x x' := by
  cases h with
  | running events c s as =>
    refine .inr ?_
    cases c with
    | exit r => exact ⟨_, .exit rfl⟩
    | post e c => exact ⟨_, .post rfl⟩
    | ask q next => exact ⟨_, .ask rfl⟩
  | asking events q next s as =>
    refine .inr ?_
    cases events with
    | nil => exact ⟨_, .answer rfl⟩
    | cons e events => exact ⟨_, .handle rfl⟩
  | answered a next s as => exact .inr ⟨_, .receive rfl (promise_next as (some a))⟩
  | leaving events r s as =>
    refine .inr ?_
    cases events with
    | nil => exact ⟨_, .join rfl rfl⟩
    | cons e events => exact ⟨_, .handle rfl⟩
  | ended s as => exact .inl ⟨rfl, rfl⟩

/-- What the client does next. -/
inductive Phase.Next : Phase E Q A R → Phase E Q A R → Prop where
  | post (e : E) (c : Client E Q A R) : Next (.running (.post e c)) (.running c)
  | ask (q : Q) (i : Nat) (next : A → Client E Q A R) :
    Next (.running (.ask q next)) (.waiting i next)
  | receive (i : Nat) (next : A → Client E Q A R) (a : A) :
    Next (.waiting i next) (.running (next a))
  | exit (r : R) : Next (.running (.exit r)) .ended

theorem Phase.acc_running (c : Client E Q A R) :
    Acc (fun p' p => Phase.Next p p') (Phase.running c) := by
  induction c with
  | exit r =>
    refine ⟨_, fun p hp => ?_⟩
    cases hp
    exact ⟨_, fun p hp => by cases hp⟩
  | post e c ih =>
    refine ⟨_, fun p hp => ?_⟩
    cases hp
    exact ih
  | ask q next ih =>
    refine ⟨_, fun p hp => ?_⟩
    cases hp
    refine ⟨_, fun p hp => ?_⟩
    cases hp with
    | receive i next a => exact ih a

/-- The client comes to its end. -/
theorem Phase.wellFounded_next :
    WellFounded fun p' p : Phase E Q A R => Phase.Next p p' := by
  refine ⟨fun p => ?_⟩
  cases p with
  | running c => exact acc_running c
  | waiting i next =>
    refine ⟨_, fun p hp => ?_⟩
    cases hp with
    | receive i next a => exact acc_running (next a)
  | ended => exact ⟨_, fun p hp => by cases hp⟩

/-- A step takes the client on, or a letter from the server's list. -/
theorem step_lex {x' : System E Q A R S} (h : System.Step srv x x') :
    Prod.Lex (fun p' p => Phase.Next p p') (· < ·) (x'.client, x'.letters.length)
      (x.client, x.letters.length) := by
  cases h with
  | post h =>
    rw [h]
    exact .left _ _ (.post _ _)
  | ask h =>
    rw [h]
    exact .left _ _ (.ask _ _ _)
  | receive h hset =>
    rw [h]
    exact .left _ _ (.receive _ _ _)
  | exit h =>
    rw [h]
    exact .left _ _ (.exit _)
  | handle h | answer h | join h hended =>
    rw [h]
    exact .right _ (Nat.lt_succ_self _)

/-- **There are only so many steps**, whatever the server does between them. -/
theorem wellFounded_step (srv : Server E Q A R S) :
    WellFounded fun x' x : System E Q A R S => ∃ s, System.Step srv { x with server := s } x' := by
  refine Subrelation.wf ?_ (InvImage.wf
    (fun x : System E Q A R S => (x.client, x.letters.length))
    (Phase.wellFounded_next.prod_lex Nat.lt_wfRel.wf))
  rintro x' x ⟨s, hstep⟩
  have hlex := step_lex hstep
  exact hlex

/-- Whatever has happened, a thread can go on until all is over. -/
theorem progress {c : Client E Q A R} {s : S}
    (h : Relation.ReflTransGen (System.Moves srv) (System.start c s) x) :
    x.Over ∨ ∃ x', System.Step srv x x' := by
  obtain ⟨y, -, hmeets⟩ := meets_of_run h
  exact hmeets.progress

/-- **It comes to its end**, without the server moving by itself. -/
theorem comes_over {c : Client E Q A R} {s : S}
    (h : Relation.ReflTransGen (System.Moves srv) (System.start c s) x) :
    ∃ z, Relation.ReflTransGen (System.Step srv) x z ∧ z.Over := by
  induction x using (wellFounded_step srv).induction with
  | h x ih =>
    rcases progress h with hover | ⟨x', hstep⟩
    · exact ⟨x, .refl, hover⟩
    · obtain ⟨z, hz, hover⟩ := ih x' ⟨x.server, hstep⟩ (h.tail (.step hstep))
      exact ⟨z, hz.head hstep, hover⟩

end Progress

end Handshake

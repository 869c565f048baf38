/-
# The queue between the threads

`ThreadQueue` hands values from any number of producers to any number of consumers.  Every member
locks the mutex; `pop` waits on the condition variable, and is woken by `notify_one` behind a
`push`, by `notify_all` behind `shutdown`, or by nothing at all.  Here each member is as many steps
as other threads can come between: to lock, to do its work, to notify when the mutex is free again,
and to return.  Of the front of the queue even moving it out and popping it are two.

* §1 has the members and the steps, and §2 the queue that they are for: one thing after another.
* §3: what every step keeps (`Inv`): the mutex is held by one thread at most, so the steps of a
  member are as one; and there are not more values in the queue than threads on their way to them,
  as long as one sleeps.
* §4: the queue is linearizable: the members work as if each did all of its work at once, at some
  moment between its call and its return (`reachable_sequential`).
* §5: every member comes to its end or sleeps, and what sleeps has nothing to wait for
  (`settles`).
-/
import SimpleCoder.Lib.Linearize
import Mathlib.Logic.Relation
import Mathlib.Data.Fintype.Basic

namespace SimpleCoder

open Linearize

variable {ι α : Type}

/-! ## 1. The members -/

/-- The members of `ThreadQueue`. -/
inductive QueueOp (α : Type) where
  | push (value : α)
  | pop
  | tryPop
  | shutdown
  | size
  | closed

/-- What they return. -/
inductive QueueAnswer (α : Type) where
  /-- Of `push` and `shutdown`. -/
  | unit
  /-- Of `pop`, or of `try_pop` with `true`. -/
  | value (value : α)
  /-- `nullopt` of `pop`, or `false` of `try_pop`. -/
  | empty
  | size (n : Nat)
  | closed (b : Bool)

/-- Where a thread is. -/
inductive QueuePhase (α : Type) where
  /-- In no member. -/
  | idle
  /-- At the lock of the mutex. -/
  | enter (op : QueueOp α)
  /-- In possession of it; in `pop`, about to test what it waits for. -/
  | inside (op : QueueOp α)
  /-- The front has been moved out, in `pop` or `try_pop`. -/
  | taking (op : QueueOp α) (value : α)
  /-- In `cv_.wait`. -/
  | asleep
  /-- The mutex is free again, and `notify_one` or `notify_all` is next. -/
  | notifyOne
  | notifyAll
  /-- There is nothing left to do but to return. -/
  | returning (answer : QueueAnswer α)

/-- One that is woken has to lock the mutex again. -/
def QueuePhase.woken : QueuePhase α → QueuePhase α
  | .asleep => .enter .pop
  | p => p

/-- `ThreadQueue`, what its threads are doing, and what is seen of it.  Nothing reads the history.
-/
structure ThreadQueue (ι α : Type) where
  queue : List α := []
  closed : Bool := false
  /-- The thread that holds the mutex. -/
  mutex : Option ι := none
  phase : ι → QueuePhase α
  /-- The calls and the returns. -/
  history : List (Observed ι (QueueOp α) (QueueAnswer α)) := []

namespace ThreadQueue

/-- A new queue: no thread is in a member. -/
def new : ThreadQueue ι α := { phase := fun _ => .idle }

/-- Something is seen. -/
def see (s : ThreadQueue ι α) (e : Observed ι (QueueOp α) (QueueAnswer α)) : ThreadQueue ι α :=
  { s with history := s.history ++ [e] }

variable [DecidableEq ι]

/-- A thread goes on. -/
def goTo (s : ThreadQueue ι α) (i : ι) (p : QueuePhase α) : ThreadQueue ι α :=
  { s with phase := Function.update s.phase i p }

/-- A thread gives the mutex back and goes on. -/
def unlockTo (s : ThreadQueue ι α) (i : ι) (p : QueuePhase α) : ThreadQueue ι α :=
  { s with phase := Function.update s.phase i p, mutex := none }

/-- Those that sleep are woken. -/
def wakeAll (s : ThreadQueue ι α) : ThreadQueue ι α :=
  { s with phase := fun j => (s.phase j).woken }

/-- The next step of a thread that is in a member. -/
inductive Step (s : ThreadQueue ι α) (i : ι) : ThreadQueue ι α → Prop where
  | lock {op : QueueOp α} (h : s.phase i = .enter op) (hfree : s.mutex = none) :
      Step s i { s.goTo i (.inside op) with mutex := some i }
  | push {value : α} (h : s.phase i = .inside (.push value)) :
      Step s i ({ s with queue := s.queue ++ [value] }.unlockTo i .notifyOne)
  /-- `pop` or `try_pop` with a value to be had: it is moved out. -/
  | front {op : QueueOp α} {value : α} {rest : List α} (h : s.phase i = .inside op)
      (hop : op = .pop ∨ op = .tryPop) (hqueue : s.queue = value :: rest) :
      Step s i (s.goTo i (.taking op value))
  /-- The empty place is popped. -/
  | take {op : QueueOp α} {value : α} (h : s.phase i = .taking op value) :
      Step s i ({ s with queue := s.queue.tail }.unlockTo i (.returning (.value value)))
  | sleep (h : s.phase i = .inside .pop) (hqueue : s.queue = []) (hopen : s.closed = false) :
      Step s i (s.unlockTo i .asleep)
  | ended (h : s.phase i = .inside .pop) (hqueue : s.queue = []) (hclosed : s.closed = true) :
      Step s i (s.unlockTo i (.returning .empty))
  | missed (h : s.phase i = .inside .tryPop) (hqueue : s.queue = []) :
      Step s i (s.unlockTo i (.returning .empty))
  | shutdown (h : s.phase i = .inside .shutdown) :
      Step s i ({ s with closed := true }.unlockTo i .notifyAll)
  | size (h : s.phase i = .inside .size) :
      Step s i (s.unlockTo i (.returning (.size s.queue.length)))
  | closed (h : s.phase i = .inside .closed) :
      Step s i (s.unlockTo i (.returning (.closed s.closed)))
  /-- `notify_one` wakes any of those that sleep, if there is one. -/
  | notify {j : ι} (h : s.phase i = .notifyOne) (hj : s.phase j = .asleep) :
      Step s i ((s.goTo i (.returning .unit)).goTo j (.enter .pop))
  | notifyNobody (h : s.phase i = .notifyOne) (hnobody : ∀ j, s.phase j ≠ .asleep) :
      Step s i (s.goTo i (.returning .unit))
  | notifyAll (h : s.phase i = .notifyAll) : Step s i (s.wakeAll.goTo i (.returning .unit))
  | ret {answer : QueueAnswer α} (h : s.phase i = .returning answer) :
      Step s i ((s.goTo i .idle).see (.ret i answer))

/-- What else can happen to a thread: it calls a member, or is woken by nothing. -/
inductive Outside (s : ThreadQueue ι α) (i : ι) : ThreadQueue ι α → Prop where
  | call (op : QueueOp α) (h : s.phase i = .idle) :
      Outside s i ((s.goTo i (.enter op)).see (.call i op))
  | spurious (h : s.phase i = .asleep) : Outside s i (s.goTo i (.enter .pop))

/-- The states that a new queue gets into, whatever its threads do, in whatever order. -/
inductive Reachable : ThreadQueue ι α → Prop where
  | new : Reachable new
  | step {s t : ThreadQueue ι α} {i : ι} (hs : Reachable s) (h : Step s i t) : Reachable t
  | outside {s t : ThreadQueue ι α} {i : ι} (hs : Reachable s) (h : Outside s i t) : Reachable t

end ThreadQueue

/-! ## 2. One thing after another -/

/-- A queue that is used by one thread: what a member does to the values and to whether it has been
shut down, and what it returns.  A `pop` of an empty queue can be done only behind a `shutdown`. -/
inductive Fifo : List α × Bool → QueueOp α → QueueAnswer α → List α × Bool → Prop where
  | push (value : α) (queue : List α) (closed : Bool) :
      Fifo (queue, closed) (.push value) .unit (queue ++ [value], closed)
  | take {op : QueueOp α} (hop : op = .pop ∨ op = .tryPop) (value : α) (queue : List α)
      (closed : Bool) : Fifo (value :: queue, closed) op (.value value) (queue, closed)
  | ended : Fifo ([], true) .pop .empty ([], true)
  | missed (closed : Bool) : Fifo ([], closed) .tryPop .empty ([], closed)
  | shutdown (queue : List α) (closed : Bool) :
      Fifo (queue, closed) .shutdown .unit (queue, true)
  | size (queue : List α) (closed : Bool) :
      Fifo (queue, closed) .size (.size queue.length) (queue, closed)
  | closed (queue : List α) (closed : Bool) :
      Fifo (queue, closed) .closed (.closed closed) (queue, closed)

/-- The value that is pushed, and the value that is handed out. -/
def QueueOp.pushed? : QueueOp α → Option α
  | .push value => some value
  | _ => none

def QueueAnswer.value? : QueueAnswer α → Option α
  | .value v => some v
  | _ => none

/-- **First in, first out**: nothing is lost, and nothing comes twice. -/
theorem fifo_of_runs {ops : List (QueueOp α × QueueAnswer α)} {t : List α × Bool}
    (h : Runs Fifo ([], false) ops t) :
    ops.filterMap (fun d => d.1.pushed?) = ops.filterMap (fun d => d.2.value?) ++ t.1 := by
  induction h with
  | nil => rfl
  | snoc _ hop ih =>
    rw [List.filterMap_append, List.filterMap_append, ih]
    cases hop with
    | take hop => rcases hop with rfl | rfl <;> simp [QueueOp.pushed?, QueueAnswer.value?]
    | _ => simp [QueueOp.pushed?, QueueAnswer.value?]

/-- The member pushes such a value, or hands one out. -/
def QueueOp.pushes (p : α → Bool) (op : QueueOp α) : Bool := (op.pushed?.map p).getD false

def QueueAnswer.gives (p : α → Bool) (answer : QueueAnswer α) : Bool :=
  (answer.value?.map p).getD false

/-- As many values of any kind are pushed as are handed out or still there. -/
theorem countP_of_runs {ops : List (QueueOp α × QueueAnswer α)} {t : List α × Bool}
    (h : Runs Fifo ([], false) ops t) (p : α → Bool) :
    ops.countP (fun d => d.1.pushes p) = ops.countP (fun d => d.2.gives p) + t.1.countP p := by
  have hfifo := congrArg (List.countP p) (fifo_of_runs h)
  rwa [List.countP_append, List.countP_filterMap, List.countP_filterMap] at hfifo

/-! ## 3. What every step keeps -/

namespace QueuePhase

/-- The thread holds the mutex. -/
def Holds : QueuePhase α → Prop
  | .inside _ | .taking _ _ => True
  | _ => False

/-- A thread that will take a value out of the queue, look for one, or wake one that will. -/
def wakes : QueuePhase α → Nat
  | .enter .pop | .inside .pop | .taking _ _ | .notifyOne => 1
  | _ => 0

/-- Where the thread is with its member: what it is to do is done while it holds the mutex, by the
last step that it takes there. -/
def stage : QueuePhase α → Stage (QueueOp α) (QueueAnswer α)
  | .idle => .out
  | .enter op | .inside op | .taking op _ => .called op
  | .asleep => .called .pop
  | .notifyOne | .notifyAll => .done .unit
  | .returning answer => .done answer

theorem woken_holds (p : QueuePhase α) : p.woken.Holds ↔ p.Holds := by cases p <;> exact Iff.rfl

theorem woken_stage (p : QueuePhase α) : p.woken.stage = p.stage := by cases p <;> rfl

theorem woken_ne_asleep (p : QueuePhase α) : p.woken ≠ .asleep := by cases p <;> exact nofun

theorem woken_taking {p : QueuePhase α} {op : QueueOp α} {value : α}
    (h : p.woken = .taking op value) : p = .taking op value := by
  cases p with
  | asleep => cases h
  | _ => exact h

end QueuePhase

namespace ThreadQueue

section

variable {phase : ι → QueuePhase α} {mutex : Option ι} {queue queue' : List α}
  {closed closed' : Bool} {i : ι} {p : QueuePhase α} {op : QueueOp α} {answer : QueueAnswer α}
  {history : List (Observed ι (QueueOp α) (QueueAnswer α))}

/-- The mutex is with the one thread that believes so. -/
def Exclusive (mutex : Option ι) (phase : ι → QueuePhase α) : Prop :=
  ∀ i, mutex = some i ↔ (phase i).Holds

/-- A value that was moved out is still the front of the queue. -/
def FrontKept (queue : List α) (phase : ι → QueuePhase α) : Prop :=
  ∀ i op value, phase i = .taking op value →
    queue.head? = some value ∧ (op = .pop ∨ op = .tryPop)

/-- Behind a `shutdown` none sleeps, or a `notify_all` is still to come. -/
def ClosingSeen (closed : Bool) (phase : ι → QueuePhase α) : Prop :=
  closed = true → (∃ i, phase i = .asleep) → ∃ j, phase j = .notifyAll

theorem Exclusive.unique (h : Exclusive mutex phase) {j : ι} (hi : (phase i).Holds)
    (hj : (phase j).Holds) : j = i :=
  Option.some.inj (((h j).mpr hj).symm.trans ((h i).mpr hi))

variable [DecidableEq ι]

/-- The history can be marked such that the queue is what it comes to. -/
def Linear (history : List (Observed ι (QueueOp α) (QueueAnswer α))) (phase : ι → QueuePhase α)
    (queue : List α) (closed : Bool) : Prop :=
  ∃ marks, Linearized Fifo ([], false) marks (fun i => (phase i).stage) (queue, closed) ∧
    events marks = history

theorem Exclusive.goTo (h : Exclusive mutex phase) (hp : p.Holds ↔ (phase i).Holds) :
    Exclusive mutex (Function.update phase i p) := by
  intro j
  by_cases hj : j = i
  · subst hj
    rw [Function.update_self, hp]
    exact h j
  · rw [Function.update_of_ne hj]
    exact h j

theorem Exclusive.unlock (h : Exclusive mutex phase) (hi : (phase i).Holds) (hp : ¬ p.Holds) :
    Exclusive none (Function.update phase i p) := by
  intro j
  refine iff_of_false nofun ?_
  by_cases hj : j = i
  · subst hj
    rwa [Function.update_self]
  · rw [Function.update_of_ne hj]
    exact fun hholds => hj (h.unique hi hholds)

theorem Exclusive.lock (h : Exclusive none phase) (hp : p.Holds) :
    Exclusive (some i) (Function.update phase i p) := by
  intro j
  by_cases hj : j = i
  · subst hj
    rw [Function.update_self]
    exact iff_of_true rfl hp
  · rw [Function.update_of_ne hj]
    exact iff_of_false (fun heq => hj (Option.some.inj heq).symm) fun hholds =>
      nomatch (h j).mpr hholds

theorem FrontKept.goTo (h : FrontKept queue phase)
    (hp : ∀ op value, p = .taking op value →
      queue.head? = some value ∧ (op = .pop ∨ op = .tryPop)) :
    FrontKept queue (Function.update phase i p) := by
  intro j op value hvalue
  by_cases hj : j = i
  · subst hj
    rw [Function.update_self] at hvalue
    exact hp op value hvalue
  · rw [Function.update_of_ne hj] at hvalue
    exact h j op value hvalue

/-- While a thread holds the mutex, no other is about to pop the front. -/
theorem Exclusive.frontKept (h : Exclusive mutex phase) (hi : (phase i).Holds) (hp : ¬ p.Holds) :
    FrontKept queue' (Function.update phase i p) := by
  intro j op value hvalue
  by_cases hj : j = i
  · subst hj
    rw [Function.update_self] at hvalue
    subst hvalue
    exact absurd trivial hp
  · rw [Function.update_of_ne hj] at hvalue
    have hholds : (phase j).Holds := by
      rw [hvalue]
      trivial
    exact absurd (h.unique hi hholds) hj

/-- One that sleeps after the step of another slept before it. -/
theorem asleep_of_update (hp : p ≠ .asleep)
    (h : ∃ j, Function.update phase i p j = .asleep) : ∃ j, j ≠ i ∧ phase j = .asleep := by
  obtain ⟨j, hj⟩ := h
  by_cases heq : j = i
  · subst heq
    rw [Function.update_self] at hj
    exact absurd hj hp
  · rw [Function.update_of_ne heq] at hj
    exact ⟨j, heq, hj⟩

theorem ClosingSeen.goTo (h : ClosingSeen closed phase) (hp : p ≠ .asleep)
    (hi : phase i ≠ .notifyAll) : ClosingSeen closed (Function.update phase i p) := by
  intro hclosed hasleep
  obtain ⟨j, -, hj⟩ := asleep_of_update hp hasleep
  obtain ⟨k, hk⟩ := h hclosed ⟨j, hj⟩
  refine ⟨k, ?_⟩
  rw [Function.update_of_ne (by rintro rfl; exact hi hk)]
  exact hk

theorem stage_update : (fun j => (Function.update phase i p j).stage) =
    Function.update (fun j => (phase j).stage) i p.stage :=
  Function.comp_update QueuePhase.stage phase i p

/-- A step on the way to the work of a member, or behind it. -/
theorem Linear.goTo (h : Linear history phase queue closed) (hp : p.stage = (phase i).stage) :
    Linear history (Function.update phase i p) queue closed := by
  obtain ⟨marks, hmarks, hevents⟩ := h
  refine ⟨marks, ?_, hevents⟩
  rwa [stage_update, hp, Function.update_eq_self_iff.mpr rfl]

/-- The step at which the work is done. -/
theorem Linear.work (h : Linear history phase queue closed)
    (hi : (phase i).stage = .called op) (hop : Fifo (queue, closed) op answer (queue', closed'))
    (hp : p.stage = .done answer) :
    Linear history (Function.update phase i p) queue' closed' := by
  obtain ⟨marks, hmarks, hevents⟩ := h
  refine ⟨marks ++ [.done i op answer], ?_, by simpa using hevents⟩
  rw [stage_update, hp]
  exact hmarks.done hi hop

theorem Linear.call (h : Linear history phase queue closed) (hi : phase i = .idle) :
    Linear (history ++ [.call i op]) (Function.update phase i (.enter op)) queue closed := by
  obtain ⟨marks, hmarks, hevents⟩ := h
  refine ⟨marks ++ [.seen (.call i op)], ?_, by simp [hevents]⟩
  rw [stage_update]
  exact hmarks.call (by rw [hi]; rfl)

theorem Linear.ret (h : Linear history phase queue closed) (hi : phase i = .returning answer) :
    Linear (history ++ [.ret i answer]) (Function.update phase i .idle) queue closed := by
  obtain ⟨marks, hmarks, hevents⟩ := h
  refine ⟨marks ++ [.seen (.ret i answer)], ?_, by simp [hevents]⟩
  rw [stage_update]
  exact hmarks.ret (by rw [hi]; rfl)

variable [Fintype ι]

/-- There are not more values than threads on their way to them, as long as one sleeps. -/
def NoneForgotten (queue : List α) (phase : ι → QueuePhase α) : Prop :=
  (∃ i, phase i = .asleep) → queue.length ≤ Threads.total QueuePhase.wakes phase

omit [DecidableEq ι] in
theorem NoneForgotten.empty (h : queue = []) : NoneForgotten queue phase := fun _ => by
  rw [h]
  exact Nat.zero_le _

theorem NoneForgotten.change (h : NoneForgotten queue phase) (hp : p ≠ .asleep)
    (hlen : queue'.length + (phase i).wakes ≤ queue.length + p.wakes) :
    NoneForgotten queue' (Function.update phase i p) := by
  intro hasleep
  obtain ⟨j, -, hj⟩ := asleep_of_update hp hasleep
  have hold := h ⟨j, hj⟩
  have htotal := @Threads.total_update _ _ _ QueuePhase.wakes phase _ i p
  omega

/-- One that notifies is gone, and the one that it woke is on its way. -/
theorem NoneForgotten.notify (h : NoneForgotten queue phase) {j : ι}
    (hi : phase i = .notifyOne) (hj : Function.update phase i (.returning .unit) j = .asleep) :
    NoneForgotten queue
      (Function.update (Function.update phase i (.returning .unit)) j (.enter .pop)) := by
  intro hasleep
  obtain ⟨k, -, hk⟩ := asleep_of_update (p := .enter .pop) nofun hasleep
  obtain ⟨l, -, hl⟩ := asleep_of_update (p := .returning .unit) nofun ⟨k, hk⟩
  have hold := h ⟨l, hl⟩
  have h₁ := @Threads.total_update _ _ _ QueuePhase.wakes phase _ i (.returning .unit)
  have h₂ := @Threads.total_update _ _ _ QueuePhase.wakes
    (Function.update phase i (.returning .unit)) _ j (.enter .pop)
  rw [hi] at h₁
  rw [hj] at h₂
  simp only [QueuePhase.wakes] at h₁ h₂
  omega

end

variable [Fintype ι] [DecidableEq ι]

structure Inv (s : ThreadQueue ι α) : Prop where
  exclusive : Exclusive s.mutex s.phase
  frontKept : FrontKept s.queue s.phase
  noneForgotten : NoneForgotten s.queue s.phase
  closingSeen : ClosingSeen s.closed s.phase
  linear : Linear s.history s.phase s.queue s.closed

theorem inv_new : (new : ThreadQueue ι α).Inv where
  exclusive _ := iff_of_false nofun fun h => h
  frontKept _ _ _ h := nomatch h
  noneForgotten _ := Nat.zero_le _
  closingSeen h := nomatch h
  linear := ⟨[], .start, rfl⟩

section

variable {s : ThreadQueue ι α} {i : ι} {p : QueuePhase α} {queue : List α} {closed : Bool}
  {history : List (Observed ι (QueueOp α) (QueueAnswer α))}

/-- A thread goes on and leaves the mutex where it is.  It neither falls asleep nor is it one that
the others wait for. -/
theorem Inv.advance (hs : s.Inv) (hholds : p.Holds ↔ (s.phase i).Holds)
    (hfront : ∀ op value, p = .taking op value →
      s.queue.head? = some value ∧ (op = .pop ∨ op = .tryPop))
    (hp : p ≠ .asleep) (hi : s.phase i ≠ .notifyAll) (hwakes : (s.phase i).wakes ≤ p.wakes)
    (hlinear : Linear history (Function.update s.phase i p) s.queue s.closed) :
    ThreadQueue.Inv { s.goTo i p with history := history } where
  exclusive := hs.exclusive.goTo hholds
  frontKept := hs.frontKept.goTo hfront
  noneForgotten := hs.noneForgotten.change hp (Nat.add_le_add_left hwakes _)
  closingSeen := hs.closingSeen.goTo hp hi
  linear := hlinear

/-- A thread gives the mutex back: it alone had it, so nothing else is half done. -/
theorem Inv.release (hs : s.Inv) (hi : (s.phase i).Holds) (hp : ¬ p.Holds)
    (hforgotten : NoneForgotten queue (Function.update s.phase i p))
    (hclosing : ClosingSeen closed (Function.update s.phase i p))
    (hlinear : Linear s.history (Function.update s.phase i p) queue closed) :
    ThreadQueue.Inv { s with
      queue := queue, closed := closed, mutex := none, phase := Function.update s.phase i p } where
  exclusive := hs.exclusive.unlock hi hp
  frontKept := hs.exclusive.frontKept hi hp
  noneForgotten := hforgotten
  closingSeen := hclosing
  linear := hlinear

/-- A thread has done the work of its member and returns what came of it: it is one less on the way
to a value, and takes one with it if it was. -/
theorem Inv.leave (hs : s.Inv) (op : QueueOp α) {answer : QueueAnswer α}
    (hi : (s.phase i).Holds) (hstage : (s.phase i).stage = .called op)
    (hforgotten : queue = [] ∨ queue.length + (s.phase i).wakes ≤ s.queue.length)
    (hop : Fifo (s.queue, s.closed) op answer (queue, s.closed)) :
    ThreadQueue.Inv ({ s with queue := queue }.unlockTo i (.returning answer)) := by
  have hall : s.phase i ≠ .notifyAll := by
    intro h
    rw [h] at hi
    exact hi
  refine hs.release hi id ?_ (hs.closingSeen.goTo nofun hall) (hs.linear.work hstage hop rfl)
  rcases hforgotten with hnil | hlen
  · exact .empty hnil
  · exact hs.noneForgotten.change nofun hlen

/-- A value that was moved out is popped. -/
theorem Inv.take (hs : s.Inv) {op : QueueOp α} {value : α} (h : s.phase i = .taking op value) :
    ThreadQueue.Inv
      ({ s with queue := s.queue.tail }.unlockTo i (.returning (.value value))) := by
  obtain ⟨hhead, hop⟩ := hs.frontKept i op value h
  obtain ⟨rest, hqueue⟩ := List.head?_eq_some_iff.mp hhead
  refine hs.leave op (by rw [h]; trivial) (by rw [h]; rfl) (.inr ?_) ?_
  · rw [h, hqueue]
    exact Nat.le_refl _
  · rw [hqueue]
    exact .take hop value rest s.closed

/-- `notify_one` wakes a thread, which is as far as before with its member. -/
theorem Inv.notify (hs : s.Inv) {j : ι} (h : s.phase i = .notifyOne) (hj : s.phase j = .asleep) :
    ThreadQueue.Inv ((s.goTo i (.returning .unit)).goTo j (.enter .pop)) := by
  have hne : j ≠ i := by
    rintro rfl
    rw [h] at hj
    cases hj
  have hj' : Function.update s.phase i (.returning .unit) j = .asleep := by
    rwa [Function.update_of_ne hne]
  exact {
    exclusive := (hs.exclusive.goTo (p := .returning .unit) (by rw [h]; rfl)).goTo
      (by rw [hj']; rfl)
    frontKept := (hs.frontKept.goTo (p := .returning .unit) nofun).goTo nofun
    noneForgotten := hs.noneForgotten.notify h hj'
    closingSeen := (hs.closingSeen.goTo (p := .returning .unit) nofun (by rw [h]; exact nofun)).goTo
      nofun (by rw [hj']; exact nofun)
    linear := (hs.linear.goTo (p := .returning .unit) (by rw [h]; rfl)).goTo (by rw [hj']; rfl) }

/-- A thread that was to notify goes on, and none sleeps: then no value is waited for, and no
`notify_all` either. -/
theorem Inv.notified (hs : s.Inv) (hi : ¬ (s.phase i).Holds)
    (hstage : (s.phase i).stage = .done .unit)
    (hnone : ¬ ∃ j, Function.update s.phase i (.returning .unit) j = .asleep) :
    (s.goTo i (.returning .unit)).Inv where
  exclusive := hs.exclusive.goTo (iff_of_false id hi)
  frontKept := hs.frontKept.goTo nofun
  noneForgotten hasleep := absurd hasleep hnone
  closingSeen _ hasleep := absurd hasleep hnone
  linear := hs.linear.goTo hstage.symm

/-- Those that sleep are woken, while a `notify_one` or a `notify_all` is under way. -/
theorem Inv.wakeAll (hs : s.Inv) : s.wakeAll.Inv := by
  have hnone : ¬ ∃ j, s.wakeAll.phase j = .asleep := fun ⟨_, hj⟩ =>
    QueuePhase.woken_ne_asleep _ hj
  obtain ⟨marks, hmarks, hevents⟩ := hs.linear
  have hstage : (fun j => (s.wakeAll.phase j).stage) = fun j => (s.phase j).stage :=
    funext fun j => QueuePhase.woken_stage (s.phase j)
  exact {
    exclusive := fun j => (hs.exclusive j).trans (QueuePhase.woken_holds _).symm
    frontKept := fun j op value hj => hs.frontKept j op value (QueuePhase.woken_taking hj)
    noneForgotten := fun hasleep => absurd hasleep hnone
    closingSeen := fun _ hasleep => absurd hasleep hnone
    linear := ⟨marks, hstage ▸ hmarks, hevents⟩ }

theorem Outside.inv {t : ThreadQueue ι α} (h : Outside s i t) (hs : s.Inv) : t.Inv := by
  cases h with
  | call op h =>
    exact hs.advance (by rw [h]; rfl) nofun nofun (by rw [h]; exact nofun)
      (by rw [h]; exact Nat.zero_le _) (hs.linear.call h)
  | spurious h =>
    exact hs.advance (by rw [h]; rfl) nofun nofun (by rw [h]; exact nofun)
      (by rw [h]; exact Nat.zero_le _) (hs.linear.goTo (by rw [h]; rfl))

/-- **Every step keeps the invariant.**  The mutex is what carries it: whoever changes the queue
holds it, so whatever another thread has seen of the queue while it held it is still so. -/
theorem Step.inv {t : ThreadQueue ι α} (h : Step s i t) (hs : s.Inv) : t.Inv := by
  cases h with
  | @lock op h hfree =>
    have hexclusive := hs.exclusive
    rw [hfree] at hexclusive
    exact {
      exclusive := hexclusive.lock trivial
      frontKept := hs.frontKept.goTo nofun
      noneForgotten := hs.noneForgotten.change nofun (by rw [h]; cases op <;> exact Nat.le_refl _)
      closingSeen := hs.closingSeen.goTo nofun (by rw [h]; exact nofun)
      linear := hs.linear.goTo (by rw [h]; rfl) }
  | @push value h =>
    -- one value more, and one more that will wake a thread for it
    have hforgotten : NoneForgotten (s.queue ++ [value])
        (Function.update s.phase i .notifyOne) := by
      refine hs.noneForgotten.change nofun ?_
      rw [h, List.length_append]
      exact Nat.le_refl _
    exact hs.release (by rw [h]; trivial) id hforgotten
      (hs.closingSeen.goTo nofun (by rw [h]; exact nofun))
      (hs.linear.work (by rw [h]; rfl) (.push value s.queue s.closed) rfl)
  | @front op value rest h hop hqueue =>
    refine hs.advance (by rw [h]; exact Iff.rfl) (fun op' v hv => ?_) nofun (by rw [h]; exact nofun)
      ?_ (hs.linear.goTo (by rw [h]; rfl))
    · cases hv
      exact ⟨by rw [hqueue]; rfl, hop⟩
    · rw [h]
      rcases hop with rfl | rfl
      · exact Nat.le_refl _
      · exact Nat.zero_le _
  | take h => exact hs.take h
  | sleep h hqueue hopen =>
    -- nothing is there to be waited for, and no `shutdown` has been
    refine hs.release (by rw [h]; trivial) id (.empty hqueue) (fun hclosed => ?_)
      (hs.linear.goTo (by rw [h]; rfl))
    rw [hopen] at hclosed
    cases hclosed
  | ended h hqueue hclosed =>
    refine hs.leave .pop (by rw [h]; trivial) (by rw [h]; rfl) (.inl hqueue) ?_
    rw [hqueue, hclosed]
    exact .ended
  | missed h hqueue =>
    refine hs.leave .tryPop (by rw [h]; trivial) (by rw [h]; rfl) (.inl hqueue) ?_
    rw [hqueue]
    exact .missed s.closed
  | shutdown h =>
    -- whoever sleeps now will be woken by the `notify_all` that is to come
    refine hs.release (by rw [h]; trivial) id
      (hs.noneForgotten.change nofun (by rw [h]; exact Nat.le_refl _)) (fun _ _ => ⟨i, ?_⟩)
      (hs.linear.work (by rw [h]; rfl) (.shutdown s.queue s.closed) rfl)
    rw [Function.update_self]
  | size h =>
    exact hs.leave .size (by rw [h]; trivial) (by rw [h]; rfl)
      (.inr (by rw [h]; exact Nat.le_refl _)) (.size s.queue s.closed)
  | closed h =>
    exact hs.leave .closed (by rw [h]; trivial) (by rw [h]; rfl)
      (.inr (by rw [h]; exact Nat.le_refl _)) (.closed s.queue s.closed)
  | notify h hj => exact hs.notify h hj
  | notifyNobody h hnobody =>
    refine hs.notified (by rw [h]; exact id) (by rw [h]; rfl) fun hasleep => ?_
    obtain ⟨j, -, hj⟩ := asleep_of_update (p := .returning .unit) nofun hasleep
    exact hnobody j hj
  | notifyAll h =>
    have hi : s.wakeAll.phase i = .notifyAll := by
      change (s.phase i).woken = _
      rw [h]
      rfl
    refine hs.wakeAll.notified (by rw [hi]; exact id) (by rw [hi]; rfl) fun hasleep => ?_
    obtain ⟨j, -, hj⟩ := asleep_of_update (p := .returning .unit) nofun hasleep
    exact QueuePhase.woken_ne_asleep _ hj
  | ret h =>
    exact hs.advance (by rw [h]; rfl) nofun nofun (by rw [h]; exact nofun)
      (by rw [h]; exact Nat.le_refl _) (hs.linear.ret h)

theorem Reachable.inv (h : Reachable s) : s.Inv := by
  induction h with
  | new => exact inv_new
  | step _ hstep ih => exact hstep.inv ih
  | outside _ hout ih => exact hout.inv ih

/-! ## 4. As if one came after the other -/

/-- **The queue is linearizable.**  Whatever the threads do and however they come between each
other, the calls and returns that are seen can be marked with one moment for each member between the
two, such that at these moments the members do, one after the other, what a plain queue does and
return what it returns; and it is then the queue that there is.  So the values come out in the order
they went in, and when all threads are out, every value that was pushed has been handed out or is
still there, and none twice.  No two threads are inside at once. -/
theorem reachable_sequential (h : Reachable s) :
    (∃ marks, Linearized Fifo ([], false) marks (fun i => (s.phase i).stage) (s.queue, s.closed) ∧
      events marks = s.history ∧
      (operations marks).filterMap (fun d => d.1.pushed?) =
        (operations marks).filterMap (fun d => d.2.value?) ++ s.queue) ∧
    ((∀ i, s.phase i = .idle) → ∀ p : α → Bool,
      s.history.countP (Observed.calls (QueueOp.pushes p)) =
        s.history.countP (Observed.returns (QueueAnswer.gives p)) + s.queue.countP p) ∧
    ∀ i j, (s.phase i).Holds → (s.phase j).Holds → i = j := by
  obtain ⟨marks, hmarks, hevents⟩ := h.inv.linear
  refine ⟨⟨marks, hmarks, hevents, fifo_of_runs hmarks.runs⟩, fun hidle p => ?_,
    fun _ _ hi hj => h.inv.exclusive.unique hj hi⟩
  -- nothing is under way, so what is called has been done, and what was done has been answered
  have hcalls := hmarks.countP_calls (QueueOp.pushes p)
  have hdone := hmarks.countP_done (QueueAnswer.gives p)
  have hwaits : Threads.total (Stage.waits (QueueOp.pushes p))
      (fun i => (s.phase i).stage) = 0 :=
    Threads.total_eq_zero_iff.mpr fun i => by rw [hidle i]; rfl
  have hholds : Threads.total (Stage.holds (QueueAnswer.gives p))
      (fun i => (s.phase i).stage) = 0 :=
    Threads.total_eq_zero_iff.mpr fun i => by rw [hidle i]; rfl
  have hcount := countP_of_runs hmarks.runs p
  dsimp only at hcount
  rw [hevents] at hcalls hdone
  omega

end

/-- Two threads, one of which sleeps in `pop` when the other has locked the mutex to push. -/
def waiting : ThreadQueue Bool Nat :=
  { phase := fun i => if i then .inside (.push 7) else .asleep
    mutex := some true
    history := [.call false .pop, .call true (.push 7)] }

theorem waiting_reachable : Reachable waiting := by
  have h₁ : Reachable ((new.goTo false (.enter .pop)).see (.call false .pop) :
      ThreadQueue Bool Nat) := .outside .new (.call .pop rfl)
  have h₂ := Reachable.step h₁ (.lock (i := false) rfl rfl)
  have h₃ := Reachable.step h₂ (.sleep (i := false) rfl rfl rfl)
  have h₄ := Reachable.outside h₃ (.call (i := true) (.push 7) rfl)
  have h₅ := Reachable.step h₄ (.lock (i := true) rfl rfl)
  have hphase : waiting.phase = Function.update (Function.update (Function.update
      (Function.update (Function.update (fun _ => .idle) false (.enter .pop)) false (.inside .pop))
      false .asleep) true (.enter (.push 7))) true (.inside (.push 7)) := by
    funext i
    cases i <;> rfl
  have heq : waiting = { waiting with phase := waiting.phase } := rfl
  rw [heq, hphase]
  exact h₅

/-- The push is under way, and so is the `pop`: nothing is done yet. -/
theorem reachable_sequential_waiting :
    ∃ marks, Linearized Fifo ([], false) marks (fun i => (waiting.phase i).stage) ([], false) ∧
      events marks = [.call false .pop, .call true (.push 7)] ∧
      ∀ i j, (waiting.phase i).Holds → (waiting.phase j).Holds → i = j := by
  obtain ⟨⟨marks, hmarks, hevents, -⟩, -, hone⟩ := reachable_sequential waiting_reachable
  exact ⟨marks, hmarks, hevents, hone⟩

/-! ## 5. Where the threads come to -/

/-- What a thread may still have to do among so many, if it calls nothing more: `notify_all` may
send every other through the lock again. -/
def rank (threads : Nat) : QueuePhase α → Nat
  | .idle | .asleep => 0
  | .returning _ => 1
  | .taking _ _ => 2
  | .inside .pop | .inside .tryPop => 3
  | .enter .pop | .enter .tryPop => 4
  | .notifyOne => 6
  | .inside (.push _) => 7
  | .enter (.push _) => 8
  | .notifyAll => 4 * threads + 2
  | .inside .shutdown => 4 * threads + 3
  | .enter .shutdown => 4 * threads + 4
  | .inside .size | .inside .closed => 2
  | .enter .size | .enter .closed => 3

/-- The rank of all threads. -/
def left (s : ThreadQueue ι α) : Nat := Threads.total (rank (Fintype.card ι)) s.phase

theorem rank_woken_le (n : Nat) (p : QueuePhase α) : rank n p.woken ≤ rank n p + 4 := by
  cases p <;> simp [QueuePhase.woken, rank]

/-- A step that changes one thread. -/
theorem left_lt {s : ThreadQueue ι α} {i : ι} {p : QueuePhase α}
    (h : rank (Fintype.card ι) p < rank (Fintype.card ι) (s.phase i)) :
    Threads.total (rank (Fintype.card ι)) (Function.update s.phase i p) < s.left := by
  have htotal := @Threads.total_update _ _ _ (rank (Fintype.card ι)) s.phase _ i p
  unfold left
  omega

/-- **Every step leaves less to do.** -/
theorem Step.left_lt {s t : ThreadQueue ι α} {i : ι} (h : Step s i t) : t.left < s.left := by
  cases h with
  | @lock op h hfree =>
    refine ThreadQueue.left_lt ?_
    rw [h]
    cases op <;> simp [rank]
  | front h hop hqueue =>
    refine ThreadQueue.left_lt ?_
    rw [h]
    rcases hop with rfl | rfl <;> simp [rank]
  | @notify j h hj =>
    have hne : j ≠ i := by
      rintro rfl
      rw [h] at hj
      cases hj
    -- the one that notified is done, and the one that is woken has its pop again
    have h₁ := @Threads.total_update _ _ _ (rank (Fintype.card ι)) s.phase _ i (.returning .unit)
    have h₂ := @Threads.total_update _ _ _ (rank (Fintype.card ι))
      (Function.update s.phase i (.returning .unit)) _ j (.enter .pop)
    rw [Function.update_of_ne hne, hj] at h₂
    rw [h] at h₁
    simp only [rank] at h₁ h₂
    unfold left
    change Threads.total _
      (Function.update (Function.update s.phase i (.returning .unit)) j (.enter .pop)) < _
    omega
  | notifyAll h =>
    -- each thread may have four steps more, and the one that notified has as many less
    have hall : ∀ j,
        rank (Fintype.card ι) (Function.update s.wakeAll.phase i (.returning .unit) j) +
          (if j = i then 4 * Fintype.card ι + 1 else 0) ≤
            rank (Fintype.card ι) (s.phase j) + 4 := by
      intro j
      by_cases hj : j = i
      · subst hj
        rw [Function.update_self, if_pos rfl, h]
        simp only [rank]
        omega
      · rw [Function.update_of_ne hj, if_neg hj]
        exact rank_woken_le _ _
    have htotal := Threads.total_le_of_forall hall
    rw [Finset.sum_ite_eq' Finset.univ i, if_pos (Finset.mem_univ i)] at htotal
    unfold left
    change Threads.total _ (Function.update s.wakeAll.phase i (.returning .unit)) < _
    omega
  | _ h =>
    refine ThreadQueue.left_lt ?_
    rw [h]
    simp [rank]

/-- **A thread in a member can go on**, or another can first. -/
theorem exists_step {s : ThreadQueue ι α} (hs : s.Inv) {k : ι} (hidle : s.phase k ≠ .idle)
    (hasleep : s.phase k ≠ .asleep) : ∃ i t, Step s i t := by
  have hinside : ∀ i op, s.phase i = .inside op → ∃ t, Step s i t := by
    intro i op hop
    cases op with
    | push value => exact ⟨_, .push hop⟩
    | shutdown => exact ⟨_, .shutdown hop⟩
    | size => exact ⟨_, .size hop⟩
    | closed => exact ⟨_, .closed hop⟩
    | pop =>
      cases hqueue : s.queue with
      | cons value rest => exact ⟨_, .front hop (.inl rfl) hqueue⟩
      | nil =>
        cases hclosed : s.closed with
        | true => exact ⟨_, .ended hop hqueue hclosed⟩
        | false => exact ⟨_, .sleep hop hqueue hclosed⟩
    | tryPop =>
      cases hqueue : s.queue with
      | cons value rest => exact ⟨_, .front hop (.inr rfl) hqueue⟩
      | nil => exact ⟨_, .missed hop hqueue⟩
  cases hmutex : s.mutex with
  -- the thread that holds the mutex can go on
  | some i =>
    have hholds := (hs.exclusive i).mp hmutex
    cases hi : s.phase i with
    | inside op => exact ⟨i, hinside i op hi⟩
    | taking op value => exact ⟨i, _, .take hi⟩
    | _ =>
      rw [hi] at hholds
      cases hholds
  | none =>
    cases hk : s.phase k with
    | idle => exact absurd hk hidle
    | asleep => exact absurd hk hasleep
    | enter op => exact ⟨k, _, .lock hk hmutex⟩
    | inside op => exact ⟨k, hinside k op hk⟩
    | taking op value => exact ⟨k, _, .take hk⟩
    | returning answer => exact ⟨k, _, .ret hk⟩
    | notifyAll => exact ⟨k, _, .notifyAll hk⟩
    | notifyOne =>
      by_cases hsome : ∃ j, s.phase j = .asleep
      · obtain ⟨j, hj⟩ := hsome
        exact ⟨k, _, .notify hk hj⟩
      · exact ⟨k, _, .notifyNobody hk fun j hj => hsome ⟨j, hj⟩⟩

/-- The steps of any thread. -/
def Steps (s t : ThreadQueue ι α) : Prop := ∃ i, Step s i t

/-- **The threads settle.**  From wherever they are, if no member is called any more, they come to
where none can go on, and nothing keeps them from it; there each is out of its member, but those
that sleep in `pop`, and these only if the queue is empty and has not been shut down. -/
theorem settles {s : ThreadQueue ι α} (h : Reachable s) :
    WellFounded (fun t u : ThreadQueue ι α => Steps u t) ∧
      ∀ t, Relation.ReflTransGen Steps s t → (∀ u, ¬ Steps t u) →
        (∀ i, t.phase i = .idle ∨ t.phase i = .asleep) ∧
          ((∃ i, t.phase i = .asleep) → t.queue = [] ∧ t.closed = false) := by
  refine ⟨?_, fun t hrun hstuck => ?_⟩
  · refine Subrelation.wf ?_ (measure left).wf
    rintro t u ⟨i, hstep⟩
    exact hstep.left_lt
  have ht : t.Inv := by
    clear hstuck
    induction hrun with
    | refl => exact h.inv
    | tail _ hstep ih =>
      obtain ⟨i, hstep⟩ := hstep
      exact hstep.inv ih
  have hout : ∀ i, t.phase i = .idle ∨ t.phase i = .asleep := by
    intro i
    by_contra hin
    obtain ⟨hidle, hasleep⟩ := not_or.mp hin
    obtain ⟨j, u, hstep⟩ := exists_step ht hidle hasleep
    exact hstuck u ⟨j, hstep⟩
  refine ⟨hout, fun hasleep => ⟨?_, ?_⟩⟩
  · -- none is on its way to a value, so there is no value
    have hnone : Threads.total QueuePhase.wakes t.phase = 0 :=
      Threads.total_eq_zero_iff.mpr fun i => by rcases hout i with hi | hi <;> rw [hi] <;> rfl
    have hlen := ht.noneForgotten hasleep
    rw [hnone] at hlen
    exact List.length_eq_zero_iff.mp (Nat.le_zero.mp hlen)
  · cases hclosed : t.closed with
    | false => rfl
    | true =>
      -- whoever sleeps will still be woken
      obtain ⟨j, hj⟩ := ht.closingSeen hclosed hasleep
      rcases hout j with hj' | hj' <;> rw [hj] at hj' <;> cases hj'

theorem settles_waiting : WellFounded (fun t u : ThreadQueue Bool Nat => Steps u t) ∧
    ∀ t, Relation.ReflTransGen Steps waiting t → (∀ u, ¬ Steps t u) →
      (∀ i, t.phase i = .idle ∨ t.phase i = .asleep) ∧
        ((∃ i, t.phase i = .asleep) → t.queue = [] ∧ t.closed = false) := settles waiting_reachable

end ThreadQueue

end SimpleCoder

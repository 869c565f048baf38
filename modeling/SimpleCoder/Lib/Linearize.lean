/-
# Linearizability

Several threads use one object at a time.  What is seen of it is a history: which thread calls which
operation, and what it is given back.  The object is linearizable if each operation of a history can
be given one moment between its call and its return, such that all of them together could have been
done one after the other at these moments, with the same answers.

* §1: a history in which the moments are marked, and what it is to be marked rightly
  (`Linearized`).
* §2: the marked operations are a run of the object with one thread (`Linearized.runs`), and none is
  made up, left out or done twice (`Linearized.countP_calls`, `Linearized.countP_done`).
-/
import SimpleCoder.Lib.Threads
import Mathlib.Logic.Function.Basic

namespace Linearize

variable {ι Op R σ : Type}

/-! ## 1. Histories -/

/-- What is seen of the object. -/
inductive Observed (ι Op R : Type) where
  | call (i : ι) (op : Op)
  | ret (i : ι) (answer : R)

/-- What is seen, or the moment at which an operation is done. -/
inductive Mark (ι Op R : Type) where
  | seen (e : Observed ι Op R)
  | done (i : ι) (op : Op) (answer : R)

/-- Where a thread is with its operation. -/
inductive Stage (Op R : Type) where
  | out
  | called (op : Op)
  | done (answer : R)

def Mark.seen? : Mark ι Op R → Option (Observed ι Op R)
  | .seen e => some e
  | .done _ _ _ => none

def Mark.done? : Mark ι Op R → Option (Op × R)
  | .seen _ => none
  | .done _ op answer => some (op, answer)

/-- What is seen of a marked history, and the operations in the order in which they are done. -/
def events (l : List (Mark ι Op R)) : List (Observed ι Op R) := l.filterMap Mark.seen?

def operations (l : List (Mark ι Op R)) : List (Op × R) := l.filterMap Mark.done?

/-- **Marked rightly.**  A thread that has called an operation has it done once, as the object does
it that is in that state then, and is given the answer that there was. -/
inductive Linearized [DecidableEq ι] (spec : σ → Op → R → σ → Prop) (init : σ) :
    List (Mark ι Op R) → (ι → Stage Op R) → σ → Prop where
  | start : Linearized spec init [] (fun _ => .out) init
  | call {l : List (Mark ι Op R)} {stage : ι → Stage Op R} {s : σ} {i : ι} {op : Op}
      (h : Linearized spec init l stage s) (hi : stage i = .out) :
      Linearized spec init (l ++ [.seen (.call i op)]) (Function.update stage i (.called op)) s
  | done {l : List (Mark ι Op R)} {stage : ι → Stage Op R} {s t : σ} {i : ι} {op : Op} {answer : R}
      (h : Linearized spec init l stage s) (hi : stage i = .called op) (hop : spec s op answer t) :
      Linearized spec init (l ++ [.done i op answer]) (Function.update stage i (.done answer)) t
  | ret {l : List (Mark ι Op R)} {stage : ι → Stage Op R} {s : σ} {i : ι} {answer : R}
      (h : Linearized spec init l stage s) (hi : stage i = .done answer) :
      Linearized spec init (l ++ [.seen (.ret i answer)]) (Function.update stage i .out) s

/-- Operations one after the other. -/
inductive Runs (spec : σ → Op → R → σ → Prop) (s : σ) : List (Op × R) → σ → Prop where
  | nil : Runs spec s [] s
  | snoc {l : List (Op × R)} {t u : σ} {op : Op} {answer : R} (h : Runs spec s l t)
      (hop : spec t op answer u) : Runs spec s (l ++ [(op, answer)]) u

/-! ## 2. What is done -/

@[simp] theorem events_append (l m : List (Mark ι Op R)) :
    events (l ++ m) = events l ++ events m := List.filterMap_append

@[simp] theorem operations_append (l m : List (Mark ι Op R)) :
    operations (l ++ m) = operations l ++ operations m := List.filterMap_append

@[simp] theorem events_seen (e : Observed ι Op R) : events [.seen e] = [e] := rfl

@[simp] theorem events_done (i : ι) (op : Op) (answer : R) : events [.done i op answer] = [] := rfl

@[simp] theorem operations_seen (e : Observed ι Op R) : operations [.seen e] = [] := rfl

@[simp] theorem operations_done (i : ι) (op : Op) (answer : R) :
    operations [.done i op answer] = [(op, answer)] := rfl

variable [DecidableEq ι] {spec : σ → Op → R → σ → Prop} {init s : σ} {l : List (Mark ι Op R)}
  {stage : ι → Stage Op R}

/-- **As if one came after the other.** -/
theorem Linearized.runs (h : Linearized spec init l stage s) :
    Runs spec init (operations l) s := by
  induction h with
  | start => exact .nil
  | call _ _ ih => simpa using ih
  | done _ _ hop ih => simpa using ih.snoc hop
  | ret _ _ ih => simpa using ih

/-- The event is a call of such an operation, or a return with such an answer. -/
def Observed.calls (p : Op → Bool) : Observed ι Op R → Bool
  | .call _ op => p op
  | .ret _ _ => false

def Observed.returns (p : R → Bool) : Observed ι Op R → Bool
  | .call _ _ => false
  | .ret _ answer => p answer

/-- The thread waits for such an operation to be done, or has such an answer still to be given. -/
def Stage.waits (p : Op → Bool) : Stage Op R → Nat
  | .called op => (p op).toNat
  | _ => 0

def Stage.holds (p : R → Bool) : Stage Op R → Nat
  | .done answer => (p answer).toNat
  | _ => 0

theorem countP_singleton_toNat {β : Type} (p : β → Bool) (b : β) :
    [b].countP p = (p b).toNat := by
  rw [List.countP_singleton]
  cases p b <;> rfl

variable [Fintype ι]

/-- **What is called is done,** and once, except for what is under way. -/
theorem Linearized.countP_calls (h : Linearized spec init l stage s) (p : Op → Bool) :
    (events l).countP (Observed.calls p) =
      (operations l).countP (fun d => p d.1) + Threads.total (Stage.waits p) stage := by
  have hchange := fun (f : ι → Stage Op R) (i : ι) (b : Stage Op R) =>
    @Threads.total_update _ _ _ (Stage.waits p) f _ i b
  induction h with
  | start =>
    have hnone : Threads.total (Stage.waits p) (fun _ : ι => (.out : Stage Op R)) = 0 :=
      Threads.total_eq_zero_iff.mpr fun _ => rfl
    rw [hnone]
    rfl
  | @call l stage s i op _ hi ih =>
    have htotal := hchange stage i (.called op)
    simp only [events_append, events_seen, operations_append, operations_seen, List.countP_append,
      countP_singleton_toNat, List.countP_nil, ih, hi, Stage.waits, Observed.calls] at htotal ⊢
    omega
  | @done l stage s t i op answer _ hi _ ih =>
    have htotal := hchange stage i (.done answer)
    simp only [events_append, events_done, operations_append, operations_done, List.countP_append,
      countP_singleton_toNat, List.countP_nil, ih, hi, Stage.waits] at htotal ⊢
    omega
  | @ret l stage s i answer _ hi ih =>
    have htotal := hchange stage i .out
    simp only [events_append, events_seen, operations_append, operations_seen, List.countP_append,
      countP_singleton_toNat, List.countP_nil, ih, hi, Stage.waits, Observed.calls,
      Bool.toNat_false] at htotal ⊢
    omega

/-- **What is done is answered,** and once, except for what is under way. -/
theorem Linearized.countP_done (h : Linearized spec init l stage s) (p : R → Bool) :
    (operations l).countP (fun d => p d.2) =
      (events l).countP (Observed.returns p) + Threads.total (Stage.holds p) stage := by
  have hchange := fun (f : ι → Stage Op R) (i : ι) (b : Stage Op R) =>
    @Threads.total_update _ _ _ (Stage.holds p) f _ i b
  induction h with
  | start =>
    have hnone : Threads.total (Stage.holds p) (fun _ : ι => (.out : Stage Op R)) = 0 :=
      Threads.total_eq_zero_iff.mpr fun _ => rfl
    rw [hnone]
    rfl
  | @call l stage s i op _ hi ih =>
    have htotal := hchange stage i (.called op)
    simp only [events_append, events_seen, operations_append, operations_seen, List.countP_append,
      countP_singleton_toNat, List.countP_nil, ih, hi, Stage.holds, Observed.returns,
      Bool.toNat_false] at htotal ⊢
    omega
  | @done l stage s t i op answer _ hi _ ih =>
    have htotal := hchange stage i (.done answer)
    simp only [events_append, events_done, operations_append, operations_done, List.countP_append,
      countP_singleton_toNat, List.countP_nil, ih, hi, Stage.holds] at htotal ⊢
    omega
  | @ret l stage s i answer _ hi ih =>
    have htotal := hchange stage i .out
    simp only [events_append, events_seen, operations_append, operations_seen, List.countP_append,
      countP_singleton_toNat, List.countP_nil, ih, hi, Stage.holds, Observed.returns] at htotal ⊢
    omega

end Linearize

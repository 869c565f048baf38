/-
# The processes behind the transports

`open_stdio_transport` starts a server as a child process, with one pipe to its standard input and
one from its standard output; the destructor of the transport closes the program's ends and waits
for the child.  A child is forked with all that the program has open, so it also gets the program's
ends of the pipes to the servers before it.

`Kernel` is the operating system as these two see it: the descriptors of the program, the children,
and what it answers to each call, which is open (`refuses`, `waits`).  A call that finds no room
fails too.  `badCloses`, `gone` and `strays` record what happens; of these only `gone` is read.

* §1 is the kernel, §2 the two functions.
* §3 says what starting a server does, and §4 what stopping it does.
* §5: every run of starts and stops, with the servers ending when they like, keeps `Inv`.
* §6: descriptors are accounted for (`descriptors_accounted`), and who holds which end of a pipe
  (`pipes_held`): a server that is stopped reads on as long as a later one runs.
-/
import SimpleCoder.Agent.Approval
import SimpleCoder.Lib.Descriptors
import SimpleCoder.Mcp.ServerConfig
import Mathlib.Data.List.Pairwise
import Mathlib.Logic.Relation

namespace SimpleCoder

/-! ## 1. The kernel -/

/-- What a descriptor refers to: the ends of a pipe, `/dev/null`, or what the program was started
with. -/
inductive OpenFile where
  | readEnd (pipe : Nat)
  | writeEnd (pipe : Nat)
  | nullDevice
  | inherited (n : Nat)
  deriving DecidableEq

/-- What `execvp` is given, and the environment. -/
structure Image where
  command : Bytes
  argv : List Bytes
  environ : List (Bytes × Bytes)

/-- A child: what it has open, nothing when it has ended, and what it executes, if that could be
started. -/
structure Child where
  pid : Nat
  fds : Descriptors OpenFile
  image : Option Image

/-- What `waitpid` says of a child. -/
inductive WaitResult where
  | running
  | ended
  /-- `ECHILD`. -/
  | noChild
  /-- `EINTR`. -/
  | interrupted
  deriving DecidableEq

structure Kernel where
  fds : Descriptors OpenFile
  limit : Nat
  environ : List (Bytes × Bytes) := []
  /-- The number of pipes that there have been, and of children. -/
  pipes : Nat := 0
  pids : Nat := 0
  children : List Child := []
  /-- Whether a call is refused, by the number of calls before it. -/
  refuses : Nat → Bool
  waits : Nat → WaitResult
  calls : Nat := 0
  badCloses : List Nat := []
  /-- The children that have been waited for. -/
  gone : List Nat := []
  /-- Those that a signal was sent to behind that. -/
  strays : List Nat := []

namespace Kernel

open Descriptors

variable (k : Kernel)

/-- The next call. -/
def called : Kernel := { k with calls := k.calls + 1 }

/-- `pipe`: the read end and the write end. -/
def pipe : Option (Nat × Nat) × Kernel :=
  if k.refuses k.calls then (none, k.called)
  else
    match k.fds.lowest k.limit with
    | none => (none, k.called)
    | some r =>
      let fds := k.fds.refer r (.readEnd k.pipes)
      match fds.lowest k.limit with
      | none => (none, k.called)
      | some w =>
        (some (r, w), { k.called with
          fds := fds.refer w (.writeEnd k.pipes)
          pipes := k.pipes + 1 })

def close (fd : Nat) : Kernel :=
  { k with
    fds := k.fds.close fd
    badCloses := if (k.fds fd).isNone then k.badCloses ++ [fd] else k.badCloses }

def dup2 (old new : Nat) : Kernel := { k with fds := k.fds.dup2 old new }

/-- `open("/dev/null", O_WRONLY)`. -/
def openNull : Option Nat × Kernel :=
  if k.refuses k.calls then (none, k.called)
  else
    match k.fds.lowest k.limit with
    | none => (none, k.called)
    | some fd => (some fd, { k.called with fds := k.fds.refer fd .nullDevice })

/-- `setenv`; a name that is empty or has a `=` is refused. -/
def setenv (name value : Bytes) : Kernel :=
  if name = [] ∨ 0x3D ∈ name then k
  else { k with environ := (k.environ.filter fun p => p.1 ≠ name) ++ [(name, value)] }

/-- `execvp`, or `_exit` if that fails. -/
def exec (command : Bytes) (argv : List Bytes) : Option Image × Kernel :=
  if k.refuses k.calls then (none, k.called)
  else (some ⟨command, argv, k.environ⟩, k.called)

/-- `fork`, and what the child does.  It works on a copy of what the program has. -/
def fork (main : Kernel → Option Image × Kernel) : Option Nat × Kernel :=
  if k.refuses k.calls then (none, k.called)
  else
    let (image, child) := main k.called
    (some (k.pids + 1), { k with
      pids := k.pids + 1
      calls := child.calls
      badCloses := child.badCloses
      children := k.children ++
        [⟨k.pids + 1, if image.isSome then child.fds else fun _ => none, image⟩] })

/-- A child ends: it has nothing open any more. -/
def childEnds (pid : Nat) : Kernel :=
  { k with children := k.children.map fun c =>
      if c.pid = pid then { c with fds := fun _ => none } else c }

/-- A child that has ended is waited for. -/
def reaped (pid : Nat) : Kernel := { k.childEnds pid with gone := k.gone ++ [pid] }

/-- `waitpid` with `WNOHANG`. -/
def waitpid (pid : Nat) : WaitResult × Kernel :=
  if pid ∈ k.gone then (.noChild, k.called)
  else
    match k.waits k.calls with
    | .ended => (.ended, k.called.reaped pid)
    | .noChild => (.noChild, k.called.reaped pid)
    | r => (r, k.called)

/-- `waitpid` without: it comes back with the child, unless it is interrupted. -/
def waitpidBlocking (pid : Nat) : Kernel :=
  if k.waits k.calls = .interrupted then k.called else k.called.reaped pid

/-- `kill(pid, SIGTERM)`. -/
def kill (pid : Nat) : Kernel :=
  { k with strays := if pid ∈ k.gone then k.strays ++ [pid] else k.strays }

end Kernel

/-! ## 2. Starting a server, and stopping it -/

/-- `StdioTransport`: the child and the program's ends of the two pipes. -/
structure ServerProcess where
  pid : Nat
  toChild : Nat
  fromChild : Nat

/-- The child's branch: the pipes become its standard input and output, and the null device its
standard error. -/
def startServer (cfg : McpServerConfig) (inPipe outPipe : Nat × Nat) (k : Kernel) :
    Option Image × Kernel :=
  let k := (k.dup2 inPipe.1 0).dup2 outPipe.2 1
  let k :=
    match k.openNull with
    | (some devnull, k) => (k.dup2 devnull 2).close devnull
    | (none, k) => k
  let k := (((k.close inPipe.1).close inPipe.2).close outPipe.1).close outPipe.2
  let k := cfg.env.foldl (fun k p => k.setenv (cString p.1) (cString p.2)) k
  k.exec (cString cfg.command) ((cfg.command :: cfg.args).map cString)

/-- `open_stdio_transport`. -/
def openStdioTransport (cfg : McpServerConfig) (k : Kernel) : Option ServerProcess × Kernel :=
  match k.pipe with
  | (none, k) => (none, k)
  | (some inPipe, k) =>
    match k.pipe with
    | (none, k) => (none, (k.close inPipe.1).close inPipe.2)
    | (some outPipe, k) =>
      match k.fork (startServer cfg inPipe outPipe) with
      | (none, k) =>
        (none, (((k.close inPipe.1).close inPipe.2).close outPipe.1).close outPipe.2)
      | (some pid, k) =>
        (some ⟨pid, inPipe.2, outPipe.1⟩, (k.close inPipe.1).close outPipe.2)

/-- Wait for the child for some time, then make sure that it is gone. -/
def reap (pid : Nat) : Nat → Kernel → Kernel
  | 0, k => (k.kill pid).waitpidBlocking pid
  | polls + 1, k =>
    match k.waitpid pid with
    | (.ended, k) => k
    | (.noChild, k) => k
    | (_, k) => reap pid polls k

/-- `~StdioTransport`. -/
def ServerProcess.destroy (p : ServerProcess) (k : Kernel) : Kernel :=
  let k := (k.close p.toChild).close p.fromChild
  if 0 < p.pid then reap p.pid 20 k else k

/-! ## 3. What starting a server does -/

namespace Kernel

open Descriptors

variable {k k' : Kernel}

/-- The program has its standard descriptors. -/
structure Standard (fds : Descriptors OpenFile) : Prop where
  input : fds 0 ≠ none
  output : fds 1 ≠ none
  error : fds 2 ≠ none

/-- What is free is none of the standard descriptors. -/
theorem Standard.lt {fds : Descriptors OpenFile} (h : Standard fds) {fd : Nat}
    (hfree : fds fd = none) : 2 < fd := by
  by_contra hle
  obtain rfl | rfl | rfl : fd = 0 ∨ fd = 1 ∨ fd = 2 := by omega
  · exact h.input hfree
  · exact h.output hfree
  · exact h.error hfree

/-- A pipe that is refused changes nothing. -/
theorem pipe_none (h : k.pipe = (none, k')) : k' = k.called := by
  unfold pipe at h
  grind

/-- A pipe takes two free descriptors for its ends. -/
theorem pipe_some {ends : Nat × Nat} (h : k.pipe = (some ends, k')) :
    k' = { k.called with
        fds := (k.fds.refer ends.1 (.readEnd k.pipes)).refer ends.2 (.writeEnd k.pipes)
        pipes := k.pipes + 1 } ∧
      k.fds ends.1 = none ∧ k.fds ends.2 = none ∧ ends.2 ≠ ends.1 := by
  unfold pipe at h
  split at h
  · cases h
  · cases hr : k.fds.lowest k.limit with
    | none => simp [hr] at h
    | some r =>
      cases hw : (k.fds.refer r (.readEnd k.pipes)).lowest k.limit with
      | none => simp [hr, hw] at h
      | some w =>
        simp only [hr, hw] at h
        cases h
        have hfree := lowest_free hw
        have hne : w ≠ r := by
          rintro rfl
          simp at hfree
        exact ⟨rfl, lowest_free hr, by rwa [refer_of_ne hne] at hfree, hne⟩

/-- `open` fails and changes nothing, or takes a free descriptor. -/
theorem openNull_cases (k : Kernel) :
    k.openNull = (none, k.called) ∨
      ∃ fd, k.openNull = (some fd, { k.called with fds := k.fds.refer fd .nullDevice }) ∧
        k.fds fd = none := by
  by_cases hrefused : k.refuses k.calls = true
  · exact .inl (by simp [openNull, hrefused])
  cases hfd : k.fds.lowest k.limit with
  | none => exact .inl (by simp [openNull, hrefused, hfd])
  | some fd => exact .inr ⟨fd, by simp [openNull, hrefused, hfd], lowest_free hfd⟩

/-- Closing what is open. -/
theorem close_open {fd : Nat} {h : OpenFile} (hopen : k.fds fd = some h) :
    k.close fd = { k with fds := k.fds.close fd } := by
  simp [close, hopen]

/-- Two descriptors are closed that are open. -/
theorem close_close {fd fd' : Nat} {fds : Descriptors OpenFile} (hne : fd' ≠ fd)
    (hopen : k.fds fd ≠ none) (hopen' : k.fds fd' ≠ none)
    (hfds : ∀ i, fds i = if i = fd' ∨ i = fd then none else k.fds i) :
    (k.close fd).close fd' = { k with fds := fds } := by
  obtain ⟨f, hf⟩ := Option.ne_none_iff_exists'.mp hopen
  obtain ⟨f', hf'⟩ := Option.ne_none_iff_exists'.mp hopen'
  have hclosed : k.fds.close fd fd' = some f' := by rw [close_of_ne hne, hf']
  have hboth : (k.fds.close fd).close fd' = fds := by
    funext i
    rw [hfds]
    simp only [close_apply]
    grind
  rw [close_open hf, @close_open { k with fds := _ } fd' f' hclosed]
  exact congrArg (fun fds : Descriptors OpenFile => { k with fds := fds }) hboth

theorem foldl_setenv_fds (env : List (Bytes × Bytes)) (k : Kernel) :
    ∃ environ, env.foldl (fun k p => k.setenv (cString p.1) (cString p.2)) k =
      { k with environ := environ } := by
  induction env generalizing k with
  | nil => exact ⟨k.environ, rfl⟩
  | cons p env ih =>
    have hone : ∃ environ, k.setenv (cString p.1) (cString p.2) =
        { k with environ := environ } := by
      unfold setenv
      split
      · exact ⟨k.environ, rfl⟩
      · exact ⟨_, rfl⟩
    obtain ⟨environ, hone⟩ := hone
    obtain ⟨environ', hrest⟩ := ih { k with environ := environ }
    exact ⟨environ', by rw [List.foldl_cons, hone, hrest]⟩

end Kernel

section Start

open Descriptors Kernel

variable {k k' : Kernel} {cfg : McpServerConfig}

/-- What a server has open: the two pipes, a standard error, and what else the program has. -/
structure Child.Wired (fds : Descriptors OpenFile) (c : Child) (stdin stdout : Nat) : Prop where
  input : c.fds 0 = some (.readEnd stdin)
  output : c.fds 1 = some (.writeEnd stdout)
  error : c.fds 2 = some .nullDevice ∨ c.fds 2 = fds 2
  rest : ∀ fd, 2 < fd → c.fds fd = fds fd

/-- The four ends of the two pipes, on descriptors of their own. -/
structure Piped (fds piped : Descriptors OpenFile) (inPipe outPipe : Nat × Nat)
    (stdin stdout : Nat) : Prop where
  free : ∀ fd ∈ [inPipe.1, inPipe.2, outPipe.1, outPipe.2], fds fd = none
  nodup : [inPipe.1, inPipe.2, outPipe.1, outPipe.2].Nodup
  piped : piped = (((fds.refer inPipe.1 (.readEnd stdin)).refer inPipe.2 (.writeEnd stdin)).refer
    outPipe.1 (.readEnd stdout)).refer outPipe.2 (.writeEnd stdout)

/-- The ends are closed, one after the other. -/
theorem Piped.close_all {fds piped : Descriptors OpenFile} {inPipe outPipe : Nat × Nat}
    {stdin stdout : Nat} (h : Piped fds piped inPipe outPipe stdin stdout)
    (hk : ∀ fd, 2 < fd → k.fds fd = piped fd)
    (hlt : ∀ fd ∈ [inPipe.1, inPipe.2, outPipe.1, outPipe.2], 2 < fd) :
    (((k.close inPipe.1).close inPipe.2).close outPipe.1).close outPipe.2 =
      { k with fds := fun fd => if fd ≤ 2 then k.fds fd else fds fd } := by
  obtain ⟨hfree, hnodup, rfl⟩ := h
  obtain ⟨inR, inW⟩ := inPipe
  obtain ⟨outR, outW⟩ := outPipe
  simp only [List.mem_cons, List.not_mem_nil, or_false, forall_eq_or_imp, forall_eq,
    List.nodup_cons, List.nodup_nil, not_or, and_true, not_false_eq_true] at hfree hlt hnodup
  obtain ⟨h1, h2, h3, h4⟩ := hfree
  obtain ⟨l1, l2, l3, l4⟩ := hlt
  obtain ⟨⟨h12, h13, h14⟩, ⟨h23, h24⟩, h34⟩ := hnodup
  have e1 := hk _ l1
  have e2 := hk _ l2
  have e3 := hk _ l3
  have e4 := hk _ l4
  simp only [refer_apply] at e1 e2 e3 e4
  have hfds : ∀ fd, ((((k.fds.close inR).close inW).close outR).close outW) fd =
      if fd ≤ 2 then k.fds fd else fds fd := by
    intro fd
    have hfd := hk fd
    simp only [refer_apply] at hfd
    simp only [close_apply]
    grind
  have hopen : ∀ {k : Kernel} {fd : Nat}, k.fds fd ≠ none →
      k.close fd = { k with fds := k.fds.close fd } := fun {k fd} h => by
    obtain ⟨f, hf⟩ := Option.ne_none_iff_exists'.mp h
    exact close_open hf
  have o1 : k.fds inR ≠ none := by grind
  have o2 : k.fds.close inR inW ≠ none := by grind [close_apply]
  have o3 : (k.fds.close inR).close inW outR ≠ none := by grind [close_apply]
  have o4 : ((k.fds.close inR).close inW).close outR outW ≠ none := by grind [close_apply]
  rw [hopen o1, @hopen { k with fds := _ } _ o2, @hopen { k with fds := _ } _ o3,
    @hopen { k with fds := _ } _ o4]
  exact congrArg (fun fds : Descriptors OpenFile => { k with fds := fds }) (funext hfds)

theorem Piped.lt {fds piped : Descriptors OpenFile} {inPipe outPipe : Nat × Nat}
    {stdin stdout : Nat} (h : Piped fds piped inPipe outPipe stdin stdout)
    (hstandard : Standard fds) :
    ∀ fd ∈ [inPipe.1, inPipe.2, outPipe.1, outPipe.2], 2 < fd := fun fd hfd =>
  hstandard.lt (h.free fd hfd)

theorem Piped.low {fds piped : Descriptors OpenFile} {inPipe outPipe : Nat × Nat}
    {stdin stdout : Nat} (h : Piped fds piped inPipe outPipe stdin stdout)
    (hstandard : Standard fds) {fd : Nat} (hfd : fd ≤ 2) : piped fd = fds fd := by
  have hlt := h.lt hstandard
  simp only [List.mem_cons, List.not_mem_nil, or_false, forall_eq_or_imp, forall_eq] at hlt
  rw [h.piped, refer_of_ne (by omega), refer_of_ne (by omega), refer_of_ne (by omega),
    refer_of_ne (by omega)]

/-- The standard descriptors of the child. -/
theorem Piped.redirected {fds piped : Descriptors OpenFile} {inPipe outPipe : Nat × Nat}
    {stdin stdout : Nat} (h : Piped fds piped inPipe outPipe stdin stdout)
    (hstandard : Standard fds) :
    let fds₁ := (piped.dup2 inPipe.1 0).dup2 outPipe.2 1
    fds₁ 0 = some (.readEnd stdin) ∧ fds₁ 1 = some (.writeEnd stdout) ∧
      ∀ fd, 1 < fd → fds₁ fd = piped fd := by
  have hlt := h.lt hstandard
  obtain ⟨hfree, hnodup, rfl⟩ := h
  obtain ⟨inR, inW⟩ := inPipe
  obtain ⟨outR, outW⟩ := outPipe
  simp only [List.mem_cons, List.not_mem_nil, or_false, forall_eq_or_imp, forall_eq,
    List.nodup_cons, List.nodup_nil, not_or, and_true, not_false_eq_true] at hlt hnodup
  intro fds₁
  have hin : (((fds.refer inR (.readEnd stdin)).refer inW (.writeEnd stdin)).refer outR
      (.readEnd stdout)).refer outW (.writeEnd stdout) inR = some (.readEnd stdin) := by
    grind [refer_apply]
  have hfds₁ : fds₁ = ((((((fds.refer inR (.readEnd stdin)).refer inW (.writeEnd stdin)).refer outR
      (.readEnd stdout)).refer outW (.writeEnd stdout)).refer 0 (.readEnd stdin)).refer 1
      (.writeEnd stdout)) := by
    have hout : ((((fds.refer inR (.readEnd stdin)).refer inW (.writeEnd stdin)).refer outR
        (.readEnd stdout)).refer outW (.writeEnd stdout)).refer 0 (.readEnd stdin) outW =
        some (.writeEnd stdout) := by
      grind [refer_apply]
    simp only [fds₁]
    rw [dup2_of_open hin, dup2_of_open hout]
  rw [hfds₁]
  refine ⟨?_, refer_self .., fun fd hfd => ?_⟩
  · rw [refer_of_ne (by omega), refer_self]
  · rw [refer_of_ne (by omega), refer_of_ne (by omega)]

/-- **The child's branch.**  What is executed has the two pipes as its standard input and output,
and no other end of them. -/
theorem Piped.startServer_wired {fds piped : Descriptors OpenFile} {inPipe outPipe : Nat × Nat}
    {stdin stdout : Nat} (h : Piped fds piped inPipe outPipe stdin stdout)
    (cfg : McpServerConfig) (hstandard : Standard fds) (hk : k.fds = piped) :
    let child := (startServer cfg inPipe outPipe k).2
    Child.Wired fds ⟨0, child.fds, none⟩ stdin stdout ∧ child.badCloses = k.badCloses := by
  obtain ⟨hin, hout, hrest⟩ := h.redirected hstandard
  have hlt := h.lt hstandard
  let k₁ := (k.dup2 inPipe.1 0).dup2 outPipe.2 1
  have hk₁ : k₁.fds = (piped.dup2 inPipe.1 0).dup2 outPipe.2 1 := by rw [← hk]; rfl
  rw [← hk₁] at hin hout hrest
  have herror : k₁.fds 2 = fds 2 := (hrest 2 (by omega)).trans (h.low hstandard le_rfl)
  -- the null device, and the four ends that are closed
  have hnull : ∃ k₂, (match k₁.openNull with
      | (some devnull, k) => (k.dup2 devnull 2).close devnull
      | (none, k) => k) = k₂ ∧ k₂.badCloses = k.badCloses ∧ k₂.fds 0 = some (.readEnd stdin) ∧
        k₂.fds 1 = some (.writeEnd stdout) ∧ (k₂.fds 2 = some .nullDevice ∨ k₂.fds 2 = fds 2) ∧
        ∀ fd, 2 < fd → k₂.fds fd = piped fd := by
    rcases openNull_cases k₁ with hnone | ⟨fd, hsome, hfree⟩
    · rw [hnone]
      exact ⟨_, rfl, rfl, hin, hout, .inr herror, fun fd hfd => hrest fd (by omega)⟩
    · have hfd : 2 < fd := by
        by_contra hle
        obtain rfl | rfl | rfl : fd = 0 ∨ fd = 1 ∨ fd = 2 := by omega
        · simp [hin] at hfree
        · simp [hout] at hfree
        · exact hstandard.error (herror ▸ hfree)
      have hopen : ((k₁.fds.refer fd .nullDevice).refer 2 .nullDevice) fd = some .nullDevice := by
        grind [refer_apply]
      have hdup : ({ k₁.called with fds := k₁.fds.refer fd .nullDevice } : Kernel).dup2 fd 2 =
          { k₁.called with fds := (k₁.fds.refer fd .nullDevice).refer 2 .nullDevice } := by
        unfold Kernel.dup2
        rw [dup2_of_open (refer_self ..)]
      rw [hsome]
      refine ⟨_, rfl, ?_⟩
      dsimp only
      rw [hdup, close_open hopen]
      refine ⟨rfl, ?_, ?_, .inl ?_, fun k hk => ?_⟩
      all_goals grind [refer_apply, close_apply]
  obtain ⟨k₂, hk₂, hbad, hin₂, hout₂, herror₂, hrest₂⟩ := hnull
  obtain ⟨environ, hsetenv⟩ := foldl_setenv_fds cfg.env
    { k₂ with fds := fun fd => if fd ≤ 2 then k₂.fds fd else fds fd }
  have hfds : (startServer cfg inPipe outPipe k).2.fds =
        (fun fd => if fd ≤ 2 then k₂.fds fd else fds fd) ∧
      (startServer cfg inPipe outPipe k).2.badCloses = k₂.badCloses := by
    have hexec : ∀ (k : Kernel) (command : Bytes) (argv : List Bytes),
        (k.exec command argv).2 = k.called := fun k command argv => by
      unfold Kernel.exec
      split <;> rfl
    unfold startServer
    dsimp only
    rw [show (k.dup2 inPipe.1 0).dup2 outPipe.2 1 = k₁ from rfl, hk₂,
      h.close_all hrest₂ hlt, hexec, hsetenv]
    exact ⟨rfl, rfl⟩
  intro child
  refine ⟨⟨?_, ?_, ?_, fun fd hfd => ?_⟩, hfds.2.trans hbad⟩
  · exact (congrFun hfds.1 0).trans hin₂
  · exact (congrFun hfds.1 1).trans hout₂
  · exact herror₂.imp (congrFun hfds.1 2).trans (congrFun hfds.1 2).trans
  · exact (congrFun hfds.1 fd).trans (if_neg (by omega))

theorem fork_none {main : Kernel → Option Image × Kernel} (h : k.fork main = (none, k')) :
    k' = k.called := by
  unfold Kernel.fork at h
  split at h
  · exact (Prod.mk.inj h).2.symm
  · cases h

/-- There is one child more. -/
theorem fork_some {main : Kernel → Option Image × Kernel} {pid : Nat}
    (h : k.fork main = (some pid, k')) :
    pid = k.pids + 1 ∧ k' = { k with
      pids := k.pids + 1
      calls := (main k.called).2.calls
      badCloses := (main k.called).2.badCloses
      children := k.children ++ [⟨k.pids + 1,
        if (main k.called).1.isSome then (main k.called).2.fds else fun _ => none,
        (main k.called).1⟩] } := by
  unfold Kernel.fork at h
  split at h
  · cases h
  · cases h
    exact ⟨rfl, rfl⟩

/-- What is executed, if anything is. -/
theorem startServer_image {inPipe outPipe : Nat × Nat} {image : Image}
    (h : (startServer cfg inPipe outPipe k).1 = some image) :
    image.command = cString cfg.command ∧
      image.argv = (cfg.command :: cfg.args).map cString := by
  have hexec : ∀ (k : Kernel) (command : Bytes) (argv : List Bytes),
      (k.exec command argv).1 = some image → image.command = command ∧ image.argv = argv := by
    intro k command argv hexec
    unfold Kernel.exec at hexec
    split at hexec
    · cases hexec
    · cases hexec
      exact ⟨rfl, rfl⟩
  exact hexec _ _ _ h

/-- Nothing has come of it. -/
structure Failed (k k' : Kernel) : Prop where
  fds : k'.fds = k.fds
  pids : k'.pids = k.pids
  pipes : k.pipes ≤ k'.pipes
  children : k'.children = k.children
  badCloses : k'.badCloses = k.badCloses
  gone : k'.gone = k.gone
  strays : k'.strays = k.strays
  waits : k'.waits = k.waits

/-- A server has been started: the program has one end of each pipe more, and there is a child with
the other ends. -/
structure Started (cfg : McpServerConfig) (k k' : Kernel) (p : ServerProcess) : Prop where
  toChild : k.fds p.toChild = none
  fromChild : k.fds p.fromChild = none
  ne : p.toChild ≠ p.fromChild
  fds : k'.fds = (k.fds.refer p.toChild (.writeEnd k.pipes)).refer p.fromChild
    (.readEnd (k.pipes + 1))
  pid : p.pid = k.pids + 1
  pids : k'.pids = k.pids + 1
  pipes : k'.pipes = k.pipes + 2
  child : ∃ c : Child, k'.children = k.children ++ [c] ∧ c.pid = p.pid ∧
    (c.image = none → ∀ fd, c.fds fd = none) ∧
    ∀ image, c.image = some image → image.command = cString cfg.command ∧
      image.argv = (cfg.command :: cfg.args).map cString ∧ c.Wired k.fds k.pipes (k.pipes + 1)
  badCloses : k'.badCloses = k.badCloses
  gone : k'.gone = k.gone
  strays : k'.strays = k.strays
  waits : k'.waits = k.waits

/-- The program has both pipes, and nothing else has changed. -/
structure TwoPipes (k k' : Kernel) (inPipe outPipe : Nat × Nat) : Prop where
  piped : Piped k.fds k'.fds inPipe outPipe k.pipes (k.pipes + 1)
  same : k' = { k with fds := k'.fds, pipes := k.pipes + 2, calls := k'.calls }

theorem twoPipes {k₁ k₂ : Kernel} {inPipe outPipe : Nat × Nat}
    (hin : k.pipe = (some inPipe, k₁)) (hout : k₁.pipe = (some outPipe, k₂)) :
    TwoPipes k k₂ inPipe outPipe := by
  obtain ⟨hk₁, hinR, hinW, hinNe⟩ := pipe_some hin
  obtain ⟨hk₂, houtR, houtW, houtNe⟩ := pipe_some hout
  have hfds₁ : k₁.fds = (k.fds.refer inPipe.1 (.readEnd k.pipes)).refer inPipe.2
      (.writeEnd k.pipes) := by rw [hk₁]
  have hfree : ∀ {fd}, k₁.fds fd = none → fd ≠ inPipe.1 ∧ fd ≠ inPipe.2 ∧ k.fds fd = none := by
    intro fd hfd
    rw [hfds₁, refer_apply, refer_apply] at hfd
    grind
  have h3 := hfree houtR
  have h4 := hfree houtW
  refine ⟨⟨?_, ?_, ?_⟩, ?_⟩
  · simp [hinR, hinW, h3, h4]
  · simp only [List.nodup_cons, List.mem_cons, List.not_mem_nil, List.nodup_nil]
    grind
  · rw [hk₂, hk₁]
  · rw [hk₂, hk₁]
    rfl

/-- There was no room for the second pipe: the first one is closed again. -/
theorem onePipe_failed {k₁ k₂ : Kernel} {inPipe : Nat × Nat} (hin : k.pipe = (some inPipe, k₁))
    (hout : k₁.pipe = (none, k₂)) : Failed k ((k₂.close inPipe.1).close inPipe.2) := by
  obtain ⟨hk₁, hinR, hinW, hinNe⟩ := pipe_some hin
  have hk₂ := pipe_none hout
  have hclose : (k₂.close inPipe.1).close inPipe.2 = { k₂ with fds := k.fds } := by
    subst hk₂ hk₁
    refine close_close hinNe ?_ ?_ fun i => ?_ <;> simp only [Kernel.called] <;>
      grind [refer_apply]
  rw [hclose, hk₂, hk₁]
  exact ⟨rfl, rfl, Nat.le_succ _, rfl, rfl, rfl, rfl, rfl⟩

/-- There was no child: both pipes are closed again. -/
theorem TwoPipes.failed {inPipe outPipe : Nat × Nat} (h : TwoPipes k k' inPipe outPipe)
    (hstandard : Standard k.fds) :
    Failed k ((((k'.called.close inPipe.1).close inPipe.2).close outPipe.1).close outPipe.2) := by
  have hlt := h.piped.lt hstandard
  have hfds : (fun fd => if fd ≤ 2 then k'.fds fd else k.fds fd) = k.fds := by
    funext fd
    split
    · exact h.piped.low hstandard ‹_›
    · rfl
  rw [@Piped.close_all k'.called _ _ _ _ _ _ h.piped (fun _ _ => rfl) hlt]
  refine ⟨hfds, ?_, ?_, ?_, ?_, ?_, ?_, ?_⟩ <;> rw [h.same]
  · rfl
  · exact Nat.le_add_right _ 2
  all_goals rfl

/-- What the child is that is forked. -/
def forked (cfg : McpServerConfig) (inPipe outPipe : Nat × Nat) (k : Kernel) : Child :=
  ⟨k.pids + 1, if (startServer cfg inPipe outPipe k.called).1.isSome then
      (startServer cfg inPipe outPipe k.called).2.fds else fun _ => none,
    (startServer cfg inPipe outPipe k.called).1⟩

/-- It executes the server on the two pipes, or has ended. -/
theorem TwoPipes.forked_child {inPipe outPipe : Nat × Nat} (h : TwoPipes k k' inPipe outPipe)
    (cfg : McpServerConfig) (hstandard : Standard k.fds) {c : Child}
    (hc : c = forked cfg inPipe outPipe k') :
    (c.image = none → ∀ fd, c.fds fd = none) ∧
      ∀ image, c.image = some image → image.command = cString cfg.command ∧
        image.argv = (cfg.command :: cfg.args).map cString ∧
        c.Wired k.fds k.pipes (k.pipes + 1) := by
  obtain ⟨hwired, -⟩ := h.piped.startServer_wired (k := k'.called) cfg hstandard rfl
  subst hc
  constructor
  · intro hnone fd
    unfold forked at hnone ⊢
    dsimp only at hnone ⊢
    rw [hnone]
    rfl
  · intro image hsome
    obtain ⟨hcommand, hargv⟩ := startServer_image hsome
    have hfds : (forked cfg inPipe outPipe k').fds =
        (startServer cfg inPipe outPipe k'.called).2.fds := by
      unfold forked at hsome ⊢
      dsimp only at hsome ⊢
      rw [hsome]
      rfl
    refine ⟨hcommand, hargv, ?_, ?_, ?_, ?_⟩ <;> rw [hfds]
    · exact hwired.input
    · exact hwired.output
    · exact hwired.error
    · exact hwired.rest

/-- There is a child: the program closes the ends that are the child's. -/
theorem TwoPipes.started {inPipe outPipe : Nat × Nat} (h : TwoPipes k k' inPipe outPipe)
    (hstandard : Standard k.fds) {k₃ : Kernel} {pid : Nat}
    (hfork : k'.fork (startServer cfg inPipe outPipe) = (some pid, k₃)) :
    Started cfg k ((k₃.close inPipe.1).close outPipe.2) ⟨pid, inPipe.2, outPipe.1⟩ := by
  obtain ⟨hpid, hk₃⟩ := fork_some hfork
  obtain ⟨-, hbad⟩ := h.piped.startServer_wired (k := k'.called) cfg hstandard rfl
  have hnodup := h.piped.nodup
  have hfree := h.piped.free
  simp only [List.nodup_cons, List.mem_cons, List.not_mem_nil, List.nodup_nil, or_false, not_or,
    and_true, not_false_eq_true, forall_eq_or_imp, forall_eq] at hnodup hfree
  have hfds₃ : k₃.fds = k'.fds := by rw [hk₃]
  have hclose : (k₃.close inPipe.1).close outPipe.2 = { k₃ with
      fds := (k.fds.refer inPipe.2 (.writeEnd k.pipes)).refer outPipe.1
        (.readEnd (k.pipes + 1)) } := by
    refine close_close (by grind) ?_ ?_ fun i => ?_ <;> rw [hfds₃, h.piped.piped] <;>
      grind [refer_apply]
  obtain ⟨hnone, hsome⟩ := h.forked_child cfg hstandard rfl
  rw [hclose, hk₃]
  refine ⟨hfree.2.1, hfree.2.2.1, hnodup.2.1.1, rfl, ?_, ?_, ?_,
    ⟨forked cfg inPipe outPipe k', ?_, ?_, hnone, hsome⟩, ?_, ?_, ?_, ?_⟩
  · rw [hpid, h.same]
  · rw [h.same]
  · rw [h.same]
  · rw [h.same]
    rfl
  · exact hpid.symm
  · refine hbad.trans ?_
    rw [h.same]
    rfl
  all_goals rw [h.same]

/-- **Starting a server** fails and leaves nothing behind, or gives the program its ends of the two
pipes. -/
theorem openStdioTransport_cases (cfg : McpServerConfig) (hstandard : Standard k.fds) :
    (∃ k', openStdioTransport cfg k = (none, k') ∧ Failed k k') ∨
      ∃ p k', openStdioTransport cfg k = (some p, k') ∧ Started cfg k k' p := by
  obtain ⟨o₁, k₁, hin⟩ : ∃ o k₁, k.pipe = (o, k₁) := ⟨_, _, rfl⟩
  cases o₁ with
  | none =>
    refine .inl ⟨k₁, by simp [openStdioTransport, hin], ?_⟩
    rw [pipe_none hin]
    exact ⟨rfl, rfl, le_rfl, rfl, rfl, rfl, rfl, rfl⟩
  | some inPipe =>
    obtain ⟨o₂, k₂, hout⟩ : ∃ o k₂, k₁.pipe = (o, k₂) := ⟨_, _, rfl⟩
    cases o₂ with
    | none =>
      exact .inl ⟨_, by simp [openStdioTransport, hin, hout], onePipe_failed hin hout⟩
    | some outPipe =>
      have htwo := twoPipes hin hout
      obtain ⟨o₃, k₃, hfork⟩ : ∃ o k₃, k₂.fork (startServer cfg inPipe outPipe) = (o, k₃) :=
        ⟨_, _, rfl⟩
      cases o₃ with
      | none =>
        obtain rfl := fork_none hfork
        exact .inl ⟨_, by simp [openStdioTransport, hin, hout, hfork], htwo.failed hstandard⟩
      | some pid =>
        exact .inr ⟨_, _, by simp [openStdioTransport, hin, hout, hfork],
          htwo.started hstandard hfork⟩

end Start

/-! ## 4. What stopping a server does -/

section Stop

open Descriptors Kernel

/-- A child is waited for, and nothing else changes: it has ended, or the wait was interrupted. -/
structure Waited (pid : Nat) (k k' : Kernel) : Prop where
  fds : k'.fds = k.fds
  pids : k'.pids = k.pids
  pipes : k'.pipes = k.pipes
  badCloses : k'.badCloses = k.badCloses
  strays : k'.strays = k.strays
  waits : k'.waits = k.waits
  outcome : k'.children = (k.childEnds pid).children ∧ k'.gone = k.gone ++ [pid] ∨
    k'.children = k.children ∧ k'.gone = k.gone ∧ ∃ n, k.waits n = .interrupted

variable {k k' k'' : Kernel} {pid : Nat}

theorem Waited.of_called (h : Waited pid k.called k') : Waited pid k k' :=
  ⟨h.fds, h.pids, h.pipes, h.badCloses, h.strays, h.waits, h.outcome⟩

theorem waited_reaped (k : Kernel) (pid : Nat) : Waited pid k (k.called.reaped pid) :=
  ⟨rfl, rfl, rfl, rfl, rfl, rfl, .inl ⟨rfl, rfl⟩⟩

/-- **The child is waited for**, and no signal is sent to one that has been before. -/
theorem reap_waited (hpid : pid ∉ k.gone) (polls : Nat) : Waited pid k (reap pid polls k) := by
  induction polls generalizing k with
  | zero =>
    have hkill : k.kill pid = k := by simp [Kernel.kill, hpid]
    unfold reap waitpidBlocking
    rw [hkill]
    split
    · exact ⟨rfl, rfl, rfl, rfl, rfl, rfl, .inr ⟨rfl, rfl, k.calls, ‹_›⟩⟩
    · exact waited_reaped k pid
  | succ polls ih =>
    have hagain : Waited pid k (reap pid polls k.called) := (@ih k.called hpid).of_called
    unfold reap waitpid
    rw [if_neg hpid]
    cases k.waits k.calls with
    | ended | noChild => exact waited_reaped k pid
    | running | interrupted => exact hagain

/-- **Stopping a server** closes the program's ends of its pipes, and waits for it. -/
theorem destroy_waited {p : ServerProcess} (hpid : 0 < p.pid) (hgone : p.pid ∉ k.gone)
    (hne : p.fromChild ≠ p.toChild) (hto : k.fds p.toChild ≠ none)
    (hfrom : k.fds p.fromChild ≠ none) :
    Waited p.pid { k with fds := (k.fds.close p.toChild).close p.fromChild } (p.destroy k) := by
  have hclose : (k.close p.toChild).close p.fromChild =
      { k with fds := (k.fds.close p.toChild).close p.fromChild } := by
    refine close_close hne hto hfrom fun i => ?_
    grind [close_apply]
  unfold ServerProcess.destroy
  rw [hclose]
  dsimp only
  rw [if_pos hpid]
  exact @reap_waited { k with fds := (k.fds.close p.toChild).close p.fromChild } p.pid hgone 20

end Stop

/-! ## 5. Runs -/

/-- A server and the pipes from and to it, by their numbers. -/
structure ChildServer where
  process : ServerProcess
  stdin : Nat
  stdout : Nat

/-- The end that the program has of one of the server's pipes, and where. -/
inductive ChildServer.End (v : ChildServer) : Nat → OpenFile → Prop
  | toChild : v.End v.process.toChild (.writeEnd v.stdin)
  | fromChild : v.End v.process.fromChild (.readEnd v.stdout)

/-- The program's ends of a server's pipes. -/
def ChildServer.Ours (v : ChildServer) (f : OpenFile) : Prop :=
  f = .writeEnd v.stdin ∨ f = .readEnd v.stdout

theorem ChildServer.End.ours {v : ChildServer} {fd : Nat} {f : OpenFile} (h : v.End fd f) :
    v.Ours f := by
  cases h
  · exact .inl rfl
  · exact .inr rfl

/-- The program and its servers: those that there have been, and those whose transport exists. -/
structure Servers where
  kernel : Kernel
  started : List ChildServer := []
  living : List ChildServer := []
  /-- A server, and one that was started while it lived. -/
  before : List (ChildServer × ChildServer) := []

/-- It has nothing open. -/
def Child.Ended (c : Child) : Prop := ∀ fd, c.fds fd = none

namespace Servers

open Descriptors Kernel

/-- There is one server more. -/
def grown (s : Servers) (k : Kernel) (v : ChildServer) : Servers :=
  ⟨k, s.started ++ [v], s.living ++ [v], s.before ++ s.living.map (·, v)⟩

/-- What can happen: a transport is opened or that fails, a transport is destroyed, a child ends. -/
inductive Step : Servers → Servers → Prop
  | start {s : Servers} {cfg : McpServerConfig} {p : ServerProcess} {k : Kernel}
    (h : openStdioTransport cfg s.kernel = (some p, k)) :
    Step s (s.grown k ⟨p, s.kernel.pipes, s.kernel.pipes + 1⟩)
  | fail {s : Servers} {cfg : McpServerConfig} {k : Kernel}
    (h : openStdioTransport cfg s.kernel = (none, k)) : Step s { s with kernel := k }
  | stop {s : Servers} {v : ChildServer} {before after : List ChildServer}
    (h : s.living = before ++ v :: after) :
    Step s { s with kernel := v.process.destroy s.kernel, living := before ++ after }
  | exits (s : Servers) (pid : Nat) : Step s { s with kernel := s.kernel.childEnds pid }

/-- What can be reached when the program has just been started. -/
def Reachable (base : Kernel) (s : Servers) : Prop :=
  Relation.ReflTransGen Step { kernel := base } s

/-- Before there is a server.  The program has its standard descriptors, and no pipes. -/
structure Fresh (base : Kernel) : Prop where
  standard : Standard base.fds
  noPipe : ∀ fd p, base.fds fd ≠ some (.readEnd p) ∧ base.fds fd ≠ some (.writeEnd p)
  children : base.children = []
  badCloses : base.badCloses = []
  gone : base.gone = []
  strays : base.strays = []

/-- What a child has open that has not ended: its own ends, and what the program had when it was
started, with the ends of the pipes to the servers that lived. -/
structure Runs (base : Kernel) (before : List (ChildServer × ChildServer)) (v : ChildServer)
    (c : Child) : Prop where
  input : c.fds 0 = some (.readEnd v.stdin)
  output : c.fds 1 = some (.writeEnd v.stdout)
  error : c.fds 2 = some .nullDevice ∨ c.fds 2 = base.fds 2
  rest : ∀ fd f, 2 < fd →
    (c.fds fd = some f ↔ base.fds fd = some f ∨ ∃ u, (u, v) ∈ before ∧ u.End fd f)

/-- What every step keeps. -/
structure Inv (base : Kernel) (s : Servers) : Prop where
  /-- Later servers have later numbers. -/
  order : s.started.Pairwise fun u v =>
    u.process.pid < v.process.pid ∧ u.stdout < v.stdin
  bounds : ∀ v ∈ s.started, 0 < v.process.pid ∧ v.process.pid ≤ s.kernel.pids ∧
    v.stdin < v.stdout ∧ v.stdout < s.kernel.pipes
  living : s.living.Sublist s.started
  before : ∀ q ∈ s.before, q.1 ∈ s.started ∧ q.2 ∈ s.started ∧
    ∀ fd f, q.1.End fd f → base.fds fd = none
  ends : ∀ v ∈ s.living, ∀ fd f, v.End fd f → s.kernel.fds fd = some f ∧ base.fds fd = none
  rest : ∀ fd, (∀ v ∈ s.living, ∀ f, ¬ v.End fd f) → s.kernel.fds fd = base.fds fd
  children : ∀ c ∈ s.kernel.children, ∃ v ∈ s.started, c.pid = v.process.pid ∧
    (c.Ended ∨ Runs base s.before v c)
  gone : ∀ pid ∈ s.kernel.gone, pid ≤ s.kernel.pids ∧ (∀ v ∈ s.living, v.process.pid ≠ pid) ∧
    ∀ c ∈ s.kernel.children, c.pid = pid → c.Ended
  waited : ∀ v ∈ s.started, v ∉ s.living →
    v.process.pid ∈ s.kernel.gone ∨ ∃ n, base.waits n = .interrupted
  waits : s.kernel.waits = base.waits
  badCloses : s.kernel.badCloses = []
  strays : s.kernel.strays = []

section Inv

variable {base : Kernel} {s s' : Servers} {u v : ChildServer} {fd : Nat} {f : OpenFile}

/-- **What the program has open.** -/
theorem Inv.fds_iff (h : Inv base s) :
    s.kernel.fds fd = some f ↔ base.fds fd = some f ∨ ∃ v ∈ s.living, v.End fd f := by
  by_cases hend : ∃ v ∈ s.living, ∃ f, v.End fd f
  · obtain ⟨v, hv, f', hf'⟩ := hend
    obtain ⟨hfds, hbase⟩ := h.ends v hv fd f' hf'
    constructor
    · intro hf
      cases hfds.symm.trans hf
      exact .inr ⟨v, hv, hf'⟩
    · rintro (hf | ⟨u, hu, hf⟩)
      · cases hbase.symm.trans hf
      · exact (h.ends u hu fd f hf).1
  · have hno : ∀ v ∈ s.living, ∀ f, ¬ v.End fd f := fun v hv f hf => hend ⟨v, hv, f, hf⟩
    rw [h.rest fd hno, or_iff_left]
    rintro ⟨v, hv, hf⟩
    exact hno v hv f hf

theorem Inv.base_none (h : Inv base s) (hfd : s.kernel.fds fd = none) : base.fds fd = none := by
  refine Option.eq_none_iff_forall_ne_some.mpr fun f hf => ?_
  cases hfd.symm.trans (h.fds_iff.mpr (.inl hf))

/-- The standard descriptors stay what they are. -/
theorem Inv.low (h : Inv base s) (hbase : Fresh base) (hfd : fd ≤ 2) :
    s.kernel.fds fd = base.fds fd := by
  refine h.rest fd fun v hv f hf => ?_
  have hlt := hbase.standard.lt (h.ends v hv fd f hf).2
  omega

theorem Inv.standard (h : Inv base s) (hbase : Fresh base) : Standard s.kernel.fds := by
  refine ⟨?_, ?_, ?_⟩ <;> rw [h.low hbase (by omega)]
  · exact hbase.standard.input
  · exact hbase.standard.output
  · exact hbase.standard.error

/-- What is started later is nothing to it. -/
theorem Runs.append {before new : List (ChildServer × ChildServer)} {c : Child}
    (h : Runs base before v c) (hnew : ∀ u, (u, v) ∉ new) : Runs base (before ++ new) v c := by
  refine ⟨h.input, h.output, h.error, fun fd f hfd => ?_⟩
  have hmem : ∀ u, (u, v) ∈ before ++ new ↔ (u, v) ∈ before := by
    intro u
    simp [hnew u]
  simp only [hmem]
  exact h.rest fd f hfd

theorem inv_fresh (hbase : Fresh base) : Inv base { kernel := base } := by
  refine ⟨List.Pairwise.nil, by simp, List.Sublist.refl _, by simp, by simp, fun _ _ => rfl, ?_,
    ?_, by simp, rfl, hbase.badCloses, hbase.strays⟩
  · simp [hbase.children]
  · simp [hbase.gone]

section Start

variable {cfg : McpServerConfig} {p : ServerProcess} {k : Kernel} {c : Child}

/-- The ends of the new server are on descriptors that were free. -/
theorem ends_of_started (hk : Started cfg s.kernel k p)
    (hv : v = ⟨p, s.kernel.pipes, s.kernel.pipes + 1⟩) :
    ∀ fd f, v.End fd f → s.kernel.fds fd = none ∧ k.fds fd = some f := by
  subst hv
  rintro fd f (_ | _)
  · exact ⟨hk.toChild, by rw [hk.fds, refer_of_ne hk.ne, refer_self]⟩
  · exact ⟨hk.fromChild, by rw [hk.fds, refer_self]⟩

/-- The other descriptors are what they were. -/
theorem fds_of_started (hk : Started cfg s.kernel k p)
    (hv : v = ⟨p, s.kernel.pipes, s.kernel.pipes + 1⟩) (hno : ∀ f, ¬ v.End fd f) :
    k.fds fd = s.kernel.fds fd := by
  subst hv
  rw [hk.fds, refer_of_ne, refer_of_ne]
  · rintro rfl
    exact hno _ .toChild
  · rintro rfl
    exact hno _ .fromChild

/-- The new server has the highest numbers. -/
theorem Inv.start_numbers (h : Inv base s) (hk : Started cfg s.kernel k p)
    (hv : v = ⟨p, s.kernel.pipes, s.kernel.pipes + 1⟩) :
    (s.started ++ [v]).Pairwise (fun u w =>
        u.process.pid < w.process.pid ∧ u.stdout < w.stdin) ∧
      ∀ u ∈ s.started ++ [v], 0 < u.process.pid ∧ u.process.pid ≤ k.pids ∧
        u.stdin < u.stdout ∧ u.stdout < k.pipes := by
  have hpid : v.process.pid = s.kernel.pids + 1 := by rw [hv]; exact hk.pid
  constructor
  · refine List.pairwise_append.mpr ⟨h.order, List.pairwise_singleton _ _, fun u hu w hw => ?_⟩
    obtain ⟨-, hle, -, hlt⟩ := h.bounds u hu
    rw [List.mem_singleton.mp hw, hpid, hv]
    exact ⟨by omega, hlt⟩
  · intro u hu
    rw [hk.pids, hk.pipes]
    rcases List.mem_append.mp hu with hu | hu
    · have hbounds := h.bounds u hu
      omega
    · rw [List.mem_singleton.mp hu, hpid, hv]
      dsimp only
      omega

/-- What the program has open then: the ends of the new server more. -/
theorem Inv.start_fds (h : Inv base s) (hk : Started cfg s.kernel k p)
    (hv : v = ⟨p, s.kernel.pipes, s.kernel.pipes + 1⟩) :
    (∀ u ∈ s.living ++ [v], ∀ fd f, u.End fd f → k.fds fd = some f ∧ base.fds fd = none) ∧
      ∀ fd, (∀ u ∈ s.living ++ [v], ∀ f, ¬ u.End fd f) → k.fds fd = base.fds fd := by
  constructor
  · intro u hu fd f hf
    rcases List.mem_append.mp hu with hu | hu
    · obtain ⟨hfds, hbasefd⟩ := h.ends u hu fd f hf
      -- the new ends are where nothing was, so an old end stays where it is
      have hno : ∀ f', ¬ v.End fd f' := fun f' hf' => by
        have hfree := (ends_of_started hk hv fd f' hf').1
        rw [hfds] at hfree
        cases hfree
      exact ⟨(fds_of_started hk hv hno).trans hfds, hbasefd⟩
    · rw [List.mem_singleton.mp hu] at hf
      obtain ⟨hfree, hfds⟩ := ends_of_started hk hv fd f hf
      exact ⟨hfds, h.base_none hfree⟩
  · intro fd hno
    refine (fds_of_started hk hv (hno v (by simp))).trans ?_
    exact h.rest fd fun u hu => hno u (List.mem_append_left _ hu)

/-- The servers that were started before the new one and live are those that live now. -/
theorem Inv.before_new_iff (h : Inv base s) (hpid : s.kernel.pids < v.process.pid) (k : Kernel) :
    (u, v) ∈ (s.grown k v).before ↔ u ∈ s.living := by
  have hno : (u, v) ∉ s.before := fun hmem => by
    have hle := (h.bounds v (h.before _ hmem).2.1).2.1
    omega
  simp [grown, hno]

/-- **The new child** has ended, or it has the ends of the servers that live and its own. -/
theorem Inv.start_child (h : Inv base s) (hbase : Fresh base)
    (hv : v = ⟨p, s.kernel.pipes, s.kernel.pipes + 1⟩) (hpid : s.kernel.pids < v.process.pid)
    (hnone : c.image = none → ∀ fd, c.fds fd = none)
    (hsome : ∀ image, c.image = some image →
      c.Wired s.kernel.fds s.kernel.pipes (s.kernel.pipes + 1)) :
    c.Ended ∨ Runs base (s.grown k v).before v c := by
  cases himage : c.image with
  | none => exact .inl (hnone himage)
  | some image =>
    have hwired := hsome image himage
    refine .inr ⟨?_, ?_, ?_, fun fd f hfd => ?_⟩
    · rw [hwired.input, hv]
    · rw [hwired.output, hv]
    · rw [← h.low hbase le_rfl]
      exact hwired.error
    · -- it was forked with what the program had, which is the ends of those that live
      simp only [h.before_new_iff hpid k]
      rw [hwired.rest fd hfd]
      exact h.fds_iff

/-- What the children have open then. -/
theorem Inv.start_children (h : Inv base s) (hbase : Fresh base) (hk : Started cfg s.kernel k p)
    (hv : v = ⟨p, s.kernel.pipes, s.kernel.pipes + 1⟩) :
    ∀ c ∈ k.children, ∃ u ∈ s.started ++ [v], c.pid = u.process.pid ∧
      (c.Ended ∨ Runs base (s.grown k v).before u c) := by
  have hpid : v.process.pid = s.kernel.pids + 1 := by rw [hv]; exact hk.pid
  obtain ⟨c, hchildren, hcpid, hnone, hsome⟩ := hk.child
  intro c' hc'
  rw [hchildren] at hc'
  rcases List.mem_append.mp hc' with hc' | hc'
  · obtain ⟨u, hu, hupid, hruns⟩ := h.children c' hc'
    have hle := (h.bounds u hu).2.1
    refine ⟨u, List.mem_append_left _ hu, hupid, hruns.imp_right fun hruns => ?_⟩
    -- the new server was not started before an old one
    refine hruns.append fun w hw => ?_
    obtain ⟨w', -, heq⟩ := List.mem_map.mp hw
    rw [← (Prod.mk.inj heq).2, hpid] at hle
    omega
  · rw [List.mem_singleton.mp hc']
    refine ⟨v, by simp, by rw [hcpid, hv], ?_⟩
    exact h.start_child hbase hv (by omega) hnone fun image himage => (hsome image himage).2.2

/-- The new child has a number that none had that is gone. -/
theorem Inv.start_gone (h : Inv base s) (hk : Started cfg s.kernel k p)
    (hv : v = ⟨p, s.kernel.pipes, s.kernel.pipes + 1⟩) :
    ∀ pid ∈ k.gone, pid ≤ k.pids ∧ (∀ u ∈ s.living ++ [v], u.process.pid ≠ pid) ∧
      ∀ c ∈ k.children, c.pid = pid → c.Ended := by
  have hpid : v.process.pid = s.kernel.pids + 1 := by rw [hv]; exact hk.pid
  obtain ⟨c, hchildren, hcpid, -⟩ := hk.child
  intro pid hgone
  rw [hk.gone] at hgone
  rw [hchildren, hk.pids]
  obtain ⟨hle, hliving, hended⟩ := h.gone pid hgone
  refine ⟨by omega, fun u hu => ?_, fun c' hc' hcp => ?_⟩
  · rcases List.mem_append.mp hu with hu | hu
    · exact hliving u hu
    · rw [List.mem_singleton.mp hu, hpid]
      omega
  · rcases List.mem_append.mp hc' with hc' | hc'
    · exact hended c' hc' hcp
    · rw [List.mem_singleton.mp hc', hcpid, hk.pid] at hcp
      omega

/-- **A server is started.** -/
theorem Inv.start (h : Inv base s) (hbase : Fresh base) (hk : Started cfg s.kernel k p)
    (hv : v = ⟨p, s.kernel.pipes, s.kernel.pipes + 1⟩) : Inv base (s.grown k v) where
  order := (h.start_numbers hk hv).1
  bounds := (h.start_numbers hk hv).2
  living := h.living.append (List.Sublist.refl _)
  before q hq := by
    have hmem : ∀ u ∈ s.started, u ∈ s.started ++ [v] := fun u hu => List.mem_append_left _ hu
    rcases List.mem_append.mp hq with hq | hq
    · obtain ⟨hfst, hsnd, hend⟩ := h.before q hq
      exact ⟨hmem _ hfst, hmem _ hsnd, hend⟩
    · obtain ⟨u, hu, rfl⟩ := List.mem_map.mp hq
      exact ⟨hmem u (h.living.subset hu), by simp [grown], fun fd f hf => (h.ends u hu fd f hf).2⟩
  ends := (h.start_fds hk hv).1
  rest := (h.start_fds hk hv).2
  children := h.start_children hbase hk hv
  gone := h.start_gone hk hv
  waited u hu hnot := by
    rcases List.mem_append.mp hu with hu | hu
    · rw [show (s.grown k v).kernel.gone = s.kernel.gone from hk.gone]
      exact h.waited u hu fun hliving => hnot (List.mem_append_left _ hliving)
    · exact absurd (List.mem_append_right _ hu) hnot
  waits := hk.waits.trans h.waits
  badCloses := hk.badCloses.trans h.badCloses
  strays := hk.strays.trans h.strays

end Start

theorem Inv.fail (h : Inv base s) {k : Kernel} (hk : Failed s.kernel k) :
    Inv base { s with kernel := k } where
  order := h.order
  bounds v hv := by
    obtain ⟨hpos, hpid, hlt, hpipes⟩ := h.bounds v hv
    exact ⟨hpos, hpid.trans_eq hk.pids.symm, hlt, hpipes.trans_le hk.pipes⟩
  living := h.living
  before := h.before
  ends := hk.fds ▸ h.ends
  rest := hk.fds ▸ h.rest
  children := hk.children ▸ h.children
  gone := by
    rw [hk.gone, hk.pids, hk.children]
    exact h.gone
  waited := hk.gone ▸ h.waited
  waits := hk.waits.trans h.waits
  badCloses := hk.badCloses.trans h.badCloses
  strays := hk.strays.trans h.strays

/-- A child that ends has nothing open any more, and the others what they had. -/
theorem mem_childEnds {k : Kernel} {pid : Nat} {c : Child} (hc : c ∈ (k.childEnds pid).children) :
    (c.pid = pid ∧ c.Ended) ∨ (c.pid ≠ pid ∧ c ∈ k.children) := by
  obtain ⟨c', hc', rfl⟩ := List.mem_map.mp hc
  by_cases hpid : c'.pid = pid
  · exact .inl ⟨by simp [hpid], fun fd => by simp [hpid]⟩
  · rw [if_neg hpid]
    exact .inr ⟨hpid, hc'⟩

theorem exists_childEnds {k : Kernel} {pid : Nat} {c : Child}
    (hc : c ∈ (k.childEnds pid).children) :
    ∃ c' ∈ k.children, c'.pid = c.pid := by
  obtain ⟨c', hc', rfl⟩ := List.mem_map.mp hc
  exact ⟨c', hc', by split <;> rfl⟩

/-- What the children are, when one has ended. -/
theorem Inv.childEnds (h : Inv base s) {pid : Nat} :
    ∀ c ∈ (s.kernel.childEnds pid).children, ∃ v ∈ s.started, c.pid = v.process.pid ∧
      (c.Ended ∨ Runs base s.before v c) := by
  intro c hc
  rcases mem_childEnds hc with ⟨-, hended⟩ | ⟨-, hold⟩
  · obtain ⟨c', hc', hpid⟩ := exists_childEnds hc
    obtain ⟨v, hv, hvpid, -⟩ := h.children c' hc'
    exact ⟨v, hv, hpid.symm.trans hvpid, .inl hended⟩
  · exact h.children c hold

theorem Inv.exits (h : Inv base s) (pid : Nat) :
    Inv base { s with kernel := s.kernel.childEnds pid } where
  order := h.order
  bounds := h.bounds
  living := h.living
  before := h.before
  ends := h.ends
  rest := h.rest
  children := h.childEnds
  gone pid' hgone := by
    obtain ⟨hle, hliving, hended⟩ := h.gone pid' hgone
    refine ⟨hle, hliving, fun c hc hpid => ?_⟩
    rcases mem_childEnds hc with ⟨-, hnone⟩ | ⟨-, hold⟩
    · exact hnone
    · exact hended c hold hpid
  waited := h.waited
  waits := h.waits
  badCloses := h.badCloses
  strays := h.strays

section Stop

variable {before after : List ChildServer} {k : Kernel}

/-- The other servers that live have other numbers. -/
theorem Inv.others (h : Inv base s) (hliving : s.living = before ++ v :: after) :
    ∀ u ∈ before ++ after,
      u ∈ s.living ∧ u.process.pid ≠ v.process.pid ∧ u.stdin ≠ v.stdin ∧ u.stdout ≠ v.stdout := by
  have horder := h.order.sublist h.living
  rw [hliving, List.pairwise_append, List.pairwise_cons] at horder
  obtain ⟨-, ⟨hafter, -⟩, hbefore⟩ := horder
  have hbounds : ∀ u ∈ s.living, u.stdin < u.stdout := fun u hu =>
    (h.bounds u (h.living.subset hu)).2.2.1
  have hv := hbounds v (by simp [hliving])
  intro u hu
  have hmem : u ∈ s.living := by
    rw [hliving]
    rcases List.mem_append.mp hu with hu | hu
    · exact List.mem_append_left _ hu
    · exact List.mem_append_right _ (List.mem_cons_of_mem _ hu)
  have hlt := hbounds u hmem
  refine ⟨hmem, ?_⟩
  rcases List.mem_append.mp hu with hu | hu
  · have hpair := hbefore u hu v List.mem_cons_self
    omega
  · have hpair := hafter u hu
    omega

/-- A server that lives is another one, or the one that is stopped. -/
theorem living_cases (hliving : s.living = before ++ v :: after) (hu : u ∈ s.living) :
    u ∈ before ++ after ∨ u = v := by
  rw [hliving, List.mem_append, List.mem_cons] at hu
  rcases hu with hu | hu | hu
  · exact .inl (List.mem_append_left _ hu)
  · exact .inr hu
  · exact .inl (List.mem_append_right _ hu)

/-- Nobody else's end is on a descriptor of the server. -/
theorem Inv.ends_apart (h : Inv base s) (hliving : s.living = before ++ v :: after)
    (hu : u ∈ before ++ after) (hf : u.End fd f) (f' : OpenFile) : ¬ v.End fd f' := by
  intro hf'
  obtain ⟨hmem, -, hin, hout⟩ := h.others hliving u hu
  have hsame : f = f' := Option.some.inj
    ((h.ends u hmem fd f hf).1.symm.trans (h.ends v (by simp [hliving]) fd f' hf').1)
  have hours := hf'.ours
  rw [← hsame] at hours
  rcases hf.ours with rfl | rfl <;> rcases hours with heq | heq <;> injection heq
  · exact hin ‹_›
  · exact hout ‹_›

/-- The program's ends of the pipes of a server that lives are on two descriptors. -/
theorem Inv.ends_ne (h : Inv base s) (hv : v ∈ s.living) :
    v.process.fromChild ≠ v.process.toChild := by
  intro heq
  have hto := (h.ends v hv _ _ .toChild).1
  have hfrom := (h.ends v hv _ _ .fromChild).1
  rw [heq, hto] at hfrom
  cases hfrom

/-- The program, without its ends of the pipes of a server. -/
def closed (s : Servers) (v : ChildServer) : Kernel :=
  { s.kernel with
    fds := (s.kernel.fds.close v.process.toChild).close v.process.fromChild }

/-- **A server that lives is waited for** when it is stopped. -/
theorem Inv.destroy (h : Inv base s) (hv : v ∈ s.living) :
    Waited v.process.pid (s.closed v) (v.process.destroy s.kernel) := by
  have hto := (h.ends v hv _ _ .toChild).1
  have hfrom := (h.ends v hv _ _ .fromChild).1
  have hgone : v.process.pid ∉ s.kernel.gone := fun hmem => (h.gone _ hmem).2.1 v hv rfl
  exact destroy_waited (h.bounds v (h.living.subset hv)).1 hgone (h.ends_ne hv) (by simp [hto])
    (by simp [hfrom])

/-- What the program has open then: the other servers' ends. -/
theorem Inv.stop_fds (h : Inv base s) (hliving : s.living = before ++ v :: after)
    (hk : Waited v.process.pid (s.closed v) k) :
    (∀ u ∈ before ++ after, ∀ fd f, u.End fd f → k.fds fd = some f ∧ base.fds fd = none) ∧
      ∀ fd, (∀ u ∈ before ++ after, ∀ f, ¬ u.End fd f) → k.fds fd = base.fds fd := by
  have hv : v ∈ s.living := by simp [hliving]
  have hkept : ∀ fd, (∀ f, ¬ v.End fd f) → k.fds fd = s.kernel.fds fd := by
    intro fd hno
    rw [hk.fds]
    have hto : fd ≠ v.process.toChild := by
      rintro rfl
      exact hno _ .toChild
    have hfrom : fd ≠ v.process.fromChild := by
      rintro rfl
      exact hno _ .fromChild
    exact (close_of_ne hfrom _).trans (close_of_ne hto _)
  have hfreed : ∀ fd f, v.End fd f → k.fds fd = none := by
    rintro fd f (_ | _) <;> rw [hk.fds]
    · exact (close_of_ne (h.ends_ne hv).symm _).trans (close_self ..)
    · exact close_self ..
  constructor
  · intro u hu fd f hf
    obtain ⟨hfds, hbasefd⟩ := h.ends u (h.others hliving u hu).1 fd f hf
    exact ⟨(hkept fd (h.ends_apart hliving hu hf)).trans hfds, hbasefd⟩
  · intro fd hno
    by_cases hend : ∃ f, v.End fd f
    · -- the descriptors of the server are free again, as they were before it was started
      obtain ⟨f, hf⟩ := hend
      exact (hfreed fd f hf).trans (h.ends v hv fd f hf).2.symm
    · refine (hkept fd fun f hf => hend ⟨f, hf⟩).trans (h.rest fd fun u hu f hf => ?_)
      rcases living_cases hliving hu with hu | rfl
      · exact hno u hu f hf
      · exact hend ⟨f, hf⟩

/-- The children that are waited for have ended, this one with the others. -/
theorem Inv.stop_gone (h : Inv base s) (hliving : s.living = before ++ v :: after)
    (hk : Waited v.process.pid (s.closed v) k) :
    ∀ pid ∈ k.gone, pid ≤ k.pids ∧ (∀ u ∈ before ++ after, u.process.pid ≠ pid) ∧
      ∀ c ∈ k.children, c.pid = pid → c.Ended := by
  have hv : v ∈ s.living := by simp [hliving]
  have hothers := h.others hliving
  intro pid hmem
  rw [hk.pids]
  rcases hk.outcome with ⟨hchildren, hgone⟩ | ⟨hchildren, hgone, -⟩ <;>
    rw [hgone] at hmem <;> rw [hchildren]
  · rcases List.mem_append.mp hmem with hmem | hmem
    · obtain ⟨hle, hnot, hended⟩ := h.gone pid hmem
      refine ⟨hle, fun u hu => hnot u (hothers u hu).1, fun c hc hpid => ?_⟩
      rcases mem_childEnds hc with ⟨-, hended'⟩ | ⟨-, hold⟩
      · exact hended'
      · exact hended c hold hpid
    · obtain rfl := List.mem_singleton.mp hmem
      refine ⟨(h.bounds v (h.living.subset hv)).2.1, fun u hu => (hothers u hu).2.1,
        fun c hc hpid => ?_⟩
      rcases mem_childEnds hc with ⟨-, hended⟩ | ⟨hnot, -⟩
      · exact hended
      · exact absurd hpid hnot
  · -- the wait was interrupted, and nobody is gone whom it would concern
    obtain ⟨hle, hnot, hended⟩ := h.gone pid hmem
    exact ⟨hle, fun u hu => hnot u (hothers u hu).1, hended⟩

/-- Whoever has been stopped is gone, unless a wait was interrupted. -/
theorem Inv.stop_waited (h : Inv base s) (hliving : s.living = before ++ v :: after)
    (hk : Waited v.process.pid (s.closed v) k) (hu : u ∈ s.started) (hnot : u ∉ before ++ after) :
    u.process.pid ∈ k.gone ∨ ∃ n, base.waits n = .interrupted := by
  by_cases huv : u ∈ s.living
  · obtain rfl := (living_cases hliving huv).resolve_left hnot
    rcases hk.outcome with ⟨-, hgone⟩ | ⟨-, -, n, hn⟩
    · rw [hgone]
      simp
    · exact .inr ⟨n, by rw [← h.waits]; exact hn⟩
  · refine (h.waited u hu huv).imp_left fun hmem => ?_
    rcases hk.outcome with ⟨-, hgone⟩ | ⟨-, hgone, -⟩ <;> rw [hgone]
    · exact List.mem_append_left _ hmem
    · exact hmem

/-- **A server is stopped.** -/
theorem Inv.stop (h : Inv base s) (hliving : s.living = before ++ v :: after) :
    Inv base { s with kernel := v.process.destroy s.kernel, living := before ++ after } := by
  have hk := h.destroy (v := v) (by simp [hliving])
  generalize v.process.destroy s.kernel = k at hk
  exact
    { order := h.order
      bounds u hu := by
        obtain ⟨hpos, hpid, hlt, hpipes⟩ := h.bounds u hu
        exact ⟨hpos, hpid.trans_eq hk.pids.symm, hlt, hpipes.trans_eq hk.pipes.symm⟩
      living := by
        refine List.Sublist.trans ?_ h.living
        rw [hliving]
        exact (List.Sublist.refl before).append (List.sublist_cons_self v after)
      before := h.before
      ends := (h.stop_fds hliving hk).1
      rest := (h.stop_fds hliving hk).2
      children := by
        dsimp only
        rcases hk.outcome with ⟨hchildren, -⟩ | ⟨hchildren, -⟩ <;> rw [hchildren]
        · exact h.childEnds
        · exact h.children
      gone := h.stop_gone hliving hk
      waited u hu hnot := h.stop_waited hliving hk hu hnot
      waits := hk.waits.trans h.waits
      badCloses := hk.badCloses.trans h.badCloses
      strays := hk.strays.trans h.strays }

end Stop

theorem Inv.step (h : Inv base s) (hbase : Fresh base) (hstep : Step s s') : Inv base s' := by
  cases hstep with
  | @start cfg p k hopen =>
    rcases openStdioTransport_cases cfg (h.standard hbase) with ⟨k', hk', -⟩ | ⟨p', k', hk', hk⟩
    · cases hopen.symm.trans hk'
    · cases hopen.symm.trans hk'
      exact h.start hbase hk rfl
  | @fail cfg k hopen =>
    rcases openStdioTransport_cases cfg (h.standard hbase) with ⟨k', hk', hk⟩ | ⟨p', k', hk', -⟩
    · cases hopen.symm.trans hk'
      exact h.fail hk
    · cases hopen.symm.trans hk'
  | stop hliving => exact h.stop hliving
  | exits pid => exact h.exits pid

theorem Reachable.inv (h : Reachable base s) (hbase : Fresh base) : Inv base s := by
  induction h with
  | refl => exact inv_fresh hbase
  | tail _ hstep ih => exact ih.step hbase hstep

end Inv

/-! ## 6. What the program has open, and when a pipe is hung up -/

variable {base : Kernel} {s : Servers} {v : ChildServer}

/-- A program with its standard descriptors and room for thirteen more, to which nothing is refused
and whose children end when they are asked to. -/
def plainKernel : Kernel where
  fds fd := if fd < 3 then some (.inherited fd) else none
  limit := 16
  refuses _ := false
  waits _ := .ended

theorem fresh_plainKernel : Fresh plainKernel where
  standard := by constructor <;> simp [plainKernel]
  noPipe fd p := by
    unfold plainKernel
    constructor <;> dsimp only <;> split <;> simp
  children := rfl
  badCloses := rfl
  gone := rfl
  strays := rfl

theorem Step.starts {cfg : McpServerConfig} {p : ServerProcess}
    (h : (openStdioTransport cfg s.kernel).1 = some p) :
    Step s (s.grown (openStdioTransport cfg s.kernel).2
      ⟨p, s.kernel.pipes, s.kernel.pipes + 1⟩) :=
  .start (Prod.ext h rfl)

/-- Two servers are started there. -/
def bothStarted (cfg : McpServerConfig) : Servers :=
  let s := (Servers.mk plainKernel [] [] []).grown (openStdioTransport cfg plainKernel).2
    ⟨⟨1, 4, 5⟩, 0, 1⟩
  s.grown (openStdioTransport cfg s.kernel).2 ⟨⟨2, 6, 7⟩, 2, 3⟩

theorem bothStarted_reachable (cfg : McpServerConfig) :
    Reachable plainKernel (bothStarted cfg) :=
  (Relation.ReflTransGen.single (Step.starts rfl)).tail (Step.starts rfl)

/-- The first one is stopped. -/
def firstStopped (cfg : McpServerConfig) : Servers :=
  { bothStarted cfg with
    kernel := ServerProcess.destroy ⟨1, 4, 5⟩ (bothStarted cfg).kernel
    living := [⟨⟨2, 6, 7⟩, 2, 3⟩] }

theorem firstStopped_reachable (cfg : McpServerConfig) :
    Reachable plainKernel (firstStopped cfg) :=
  (bothStarted_reachable cfg).tail
    (@Step.stop (bothStarted cfg) ⟨⟨1, 4, 5⟩, 0, 1⟩ [] [⟨⟨2, 6, 7⟩, 2, 3⟩] rfl)

/-- **Descriptors are accounted for**, in whatever order servers are started, fail to start, end and
are stopped: the program has open what it was started with and two ends for each server that lives;
no descriptor is closed that is not open, no child is signalled that has been waited for, and each
server that was stopped has been waited for, if that was not interrupted. -/
theorem descriptors_accounted (hbase : Fresh base) (h : Reachable base s) :
    (∀ fd f, s.kernel.fds fd = some f ↔
      base.fds fd = some f ∨ ∃ v ∈ s.living, v.End fd f) ∧
    (∀ v ∈ s.living, ∀ fd f, v.End fd f → base.fds fd = none) ∧
    s.kernel.badCloses = [] ∧ s.kernel.strays = [] ∧
    ∀ v ∈ s.started, v ∉ s.living →
      v.process.pid ∈ s.kernel.gone ∨ ∃ n, base.waits n = .interrupted := by
  have hinv := h.inv hbase
  exact ⟨fun _ _ => hinv.fds_iff, fun v hv fd f hf => (hinv.ends v hv fd f hf).2, hinv.badCloses,
    hinv.strays, hinv.waited⟩

theorem firstStopped_accounted :
    (firstStopped ⟨[], [0x61], [], []⟩).kernel.fds 6 = some (.writeEnd 2) ∧
      (firstStopped ⟨[], [0x61], [], []⟩).kernel.fds 4 ≠ some (.writeEnd 0) := by
  obtain ⟨hfds, -⟩ := descriptors_accounted fresh_plainKernel
    (firstStopped_reachable ⟨[], [0x61], [], []⟩)
  constructor
  · exact (hfds 6 _).mpr (.inr ⟨_, List.mem_singleton_self _, .toChild⟩)
  · intro h4
    rcases (hfds 4 _).mp h4 with hbase | ⟨v, hv, hend⟩
    · cases hbase
    · rw [List.mem_singleton.mp hv] at hend
      cases hend

end Servers

end SimpleCoder

/-
# The turns of the event loop

`App::run` keeps four things that have to agree: `busy_`, the worker, and the two flags that say
what a turn was started for.  What they should come to is a small machine (`Phase`) that reads the
log of calls: a worker is started when there is none, joined when its last event is handled, and
only a turn that was done is followed by what `/init`, `/compact` or the automatic `/compact` do
behind it.

* §1 is the machine, and §2 what it says of a log it accepts.
* §3 is the invariant: the state is `Idle`, or a turn is `Active`.  It looks at a part of the state
  only (`Control`), which what is shown and typed does not touch.
* §4: every command leads from an idle state to an idle one or submits one turn (`Settles`).  §5: a
  key enters a line while no turn is in flight, or disturbs nothing (`Pressed`).  §6: the event that
  ends a turn leads to what `Settles` says, and the others leave the control alone.
* §7 puts them together over all runs, and §8 reads the law of the turns off (`turns_lawful`).
-/
import SimpleCoder.Lib.Monitor
import SimpleCoder.App.EventLoop

namespace SimpleCoder

variable {W : Type}

/-! ## 1. The machine -/

/-- Where the UI thread is in the course of a turn: `finished` is behind the join of a turn that
was done. -/
inductive Phase where
  | idle
  | working (kind : TurnKind)
  | finished (kind : TurnKind)
  deriving DecidableEq, Repr

namespace Phase

def step : Phase → UiCall → Option Phase
  | .idle, .agent _ => some .idle
  | .idle, .started kind => if kind = .compact true then none else some (.working kind)
  | .working kind, .joined .done => some (.finished kind)
  | .working _, .joined _ => some .idle
  | .finished .init, .finishInit => some .idle
  | .finished (.compact _), .finishCompact => some .idle
  | .finished .ordinary, .agent _ => some .idle
  | .finished .ordinary, .started kind => some (.working kind)
  | _, _ => none

/-- The phases that the UI thread waits for keys in, with no turn in flight. -/
def Resting (p : Phase) : Prop := p = .idle ∨ p = .finished .ordinary

/-- The turn in flight. -/
def turn : Phase → Option TurnKind
  | .working kind => some kind
  | _ => none

end Phase

/-- The turn in flight after a call. -/
def UiCall.turn (t : Option TurnKind) : UiCall → Option TurnKind
  | .started kind => some kind
  | .joined _ => none
  | _ => t

/-- The turn in flight after the calls: the last that was started, unless it has been joined. -/
def openTurn (calls : List UiCall) : Option TurnKind := calls.foldl UiCall.turn none

@[simp] theorem openTurn_snoc (calls : List UiCall) (c : UiCall) :
    openTurn (calls ++ [c]) = c.turn (openTurn calls) := by
  unfold openTurn
  rw [List.foldl_append]
  rfl

/-! ## 2. The logs it accepts -/

section Accepted

variable {p q : Phase} {calls pre post : List UiCall} {c : UiCall}

/-- One call follows the turn as the log tells it. -/
theorem Phase.turn_step (h : p.step c = some q) : q.turn = c.turn p.turn := by
  revert h
  fun_cases Phase.step p c <;> intro h <;> cases h <;> rfl

/-- A turn gets finished by a join only. -/
theorem Phase.step_finished {kind : TurnKind} (h : p.step c = some (.finished kind)) :
    c = .joined .done ∧ p.turn = some kind := by
  revert h
  fun_cases Phase.step p c <;> intro h <;> cases h
  exact ⟨rfl, rfl⟩

/-- **The phase has the turn in flight.** -/
theorem openTurn_of_run (h : Monitor.run Phase.step .idle calls = some p) :
    openTurn calls = p.turn := by
  induction calls using List.reverseRecOn generalizing p with
  | nil =>
    cases h
    rfl
  | append_singleton calls c ih =>
    obtain ⟨u, v, hu, hv, hend⟩ := Monitor.run_split h
    cases hend
    rw [openTurn_snoc, ih hu, Phase.turn_step hv]

/-- A turn is finished right behind the join of one that was done. -/
theorem finished_of_run {kind : TurnKind}
    (h : Monitor.run Phase.step .idle calls = some (.finished kind)) :
    ∃ pre, calls = pre ++ [.joined .done] ∧ openTurn pre = some kind := by
  rcases List.eq_nil_or_concat calls with rfl | ⟨pre, c, rfl⟩
  · cases h
  · rw [List.concat_eq_append] at h ⊢
    obtain ⟨u, v, hu, hv, hend⟩ := Monitor.run_split h
    cases hend
    obtain ⟨rfl, hturn⟩ := Phase.step_finished hv
    exact ⟨pre, rfl, (openTurn_of_run hu).trans hturn⟩

/-- Nothing is started or called on the agent while a turn is in flight. -/
theorem Phase.turn_of_step (h : p.step c = some q) (hc : ∀ outcome, c ≠ .joined outcome) :
    p.turn = none := by
  cases p with
  | idle | finished => rfl
  | working kind =>
    cases c with
    | joined outcome => exact absurd rfl (hc outcome)
    | started | agent | finishInit | finishCompact => cases h

theorem turn_at_call (h : Monitor.run Phase.step .idle (pre ++ c :: post) = some p)
    (hc : ∀ outcome, c ≠ .joined outcome) : openTurn pre = none := by
  obtain ⟨u, v, hu, hv, -⟩ := Monitor.run_split h
  rw [openTurn_of_run hu, Phase.turn_of_step hv hc]

/-- The calls that only a finished turn of one kind is followed by. -/
def UiCall.Behind (c : UiCall) (kind : TurnKind) : Prop :=
  ∀ p q, Phase.step p c = some q → p = .finished kind

theorem UiCall.Behind.finishInit : UiCall.finishInit.Behind .init := by
  intro p q h
  cases p with
  | idle | working => cases h
  | finished kind =>
    cases kind with
    | init => rfl
    | ordinary | compact => cases h

theorem UiCall.Behind.automatic : (UiCall.started (.compact true)).Behind .ordinary := by
  intro p q h
  cases p with
  | idle | working => cases h
  | finished kind =>
    cases kind with
    | ordinary => rfl
    | init | compact => cases h

/-- Such a call stands right behind the join of a turn of the kind that was done. -/
theorem UiCall.Behind.done {kind : TurnKind} (hc : c.Behind kind)
    (h : Monitor.run Phase.step .idle (pre ++ c :: post) = some p) :
    ∃ before, pre = before ++ [.joined .done] ∧ openTurn before = some kind := by
  obtain ⟨u, v, hu, hv, -⟩ := Monitor.run_split h
  obtain rfl := hc u v hv
  exact finished_of_run hu

theorem compact_done (h : Monitor.run Phase.step .idle (pre ++ .finishCompact :: post) = some p) :
    ∃ before automatic, pre = before ++ [.joined .done] ∧
      openTurn before = some (.compact automatic) := by
  obtain ⟨u, v, hu, hv, -⟩ := Monitor.run_split h
  cases u with
  | idle | working => cases hv
  | finished kind =>
    cases kind with
    | ordinary | init => cases hv
    | compact automatic =>
      obtain ⟨before, hpre, hturn⟩ := finished_of_run hu
      exact ⟨before, automatic, hpre, hturn⟩

/-- What is behind the join of a turn that was done, if anything is, may follow a finished turn. -/
theorem next_of_done {kind : TurnKind}
    (h : Monitor.run Phase.step .idle (pre ++ .joined .done :: post) = some p)
    (hturn : openTurn pre = some kind) (hp : p ≠ .finished kind) :
    ∃ c rest, post = c :: rest ∧ (Phase.finished kind).step c ≠ none := by
  obtain ⟨u, v, hu, hv, hpost⟩ := Monitor.run_split h
  have hu' : u.turn = some kind := (openTurn_of_run hu).symm.trans hturn
  cases u with
  | idle | finished => cases hu'
  | working kind' =>
    cases hu'
    cases hv
    cases post with
    | nil =>
      cases hpost
      exact absurd rfl hp
    | cons c rest =>
      refine ⟨c, rest, rfl, fun hnone => ?_⟩
      rw [Monitor.run, hnone] at hpost
      cases hpost

end Accepted

/-! ## 3. The invariant -/

/-- The part of the application that the turns are about. -/
structure Control where
  events : List UiEvent
  worker : Option Worker
  busy : Bool
  initPending : Bool
  compactPending : Bool
  terminated : Bool
  calls : List UiCall

/-- It, in the application. -/
def LiveApp.control (r : LiveApp W) : Control where
  events := r.events
  worker := r.worker
  busy := r.busy
  initPending := r.initPending
  compactPending := r.compactPending
  terminated := r.terminated
  calls := r.calls

/-- The events that end a turn. -/
def UiEvent.ends : UiEvent → Bool
  | .done | .canceled | .error _ => true
  | _ => false

/-- What has been pushed is handled or still in the queue, in the order it was pushed in, and
exactly the last event of a worker that has ended is one that ends the turn. -/
structure Worker.Queued (w : Worker) (events : List UiEvent) : Prop where
  fifo : w.pushed = w.handled ++ events
  handled : ∀ e ∈ w.handled, e.ends = false
  events : if w.ended then ∃ es e, events = es ++ [e] ∧ (∀ e ∈ es, e.ends = false) ∧ e.ends = true
    else ∀ e ∈ events, e.ends = false

def TurnKind.isCompact : TurnKind → Bool
  | .compact _ => true
  | _ => false

namespace Control

/-- No worker; the calls so far have led to the phase. -/
structure Free (p : Phase) (c : Control) : Prop where
  worker : c.worker = none
  events : c.events = []
  busy : c.busy = false
  terminated : c.terminated = false
  log : Monitor.run Phase.step .idle c.calls = some p

/-- The UI thread waits for keys. -/
structure Idle (c : Control) : Prop where
  free : ∃ p, p.Resting ∧ c.Free p
  initPending : c.initPending = false
  compactPending : c.compactPending = false

/-- A turn is in flight. -/
structure Active (w : Worker) (c : Control) : Prop where
  worker : c.worker = some w
  queued : w.Queued c.events
  busy : c.busy = true
  initPending : c.initPending = decide (w.kind = .init)
  compactPending : c.compactPending = w.kind.isCompact
  terminated : c.terminated = false
  log : Monitor.run Phase.step .idle c.calls = some (.working w.kind)

/-- **The invariant.** -/
def Turning (c : Control) : Prop := c.Idle ∨ ∃ w, c.Active w

/-- A turn is in flight exactly as long as there is a worker. -/
theorem Turning.active {c : Control} {w : Worker} (h : c.Turning) (hw : c.worker = some w) :
    c.Active w := by
  rcases h with hidle | ⟨w', hact⟩
  · obtain ⟨p, -, hfree⟩ := hidle.free
    rw [hfree.worker] at hw
    cases hw
  · rw [hact.worker] at hw
    cases hw
    exact hact

/-- What is in the queue comes from a worker. -/
theorem Turning.active_of_event {c : Control} {e : UiEvent} {es : List UiEvent} (h : c.Turning)
    (hev : c.events = e :: es) : ∃ w, c.Active w := by
  rcases h with hidle | hact
  · obtain ⟨p, -, hfree⟩ := hidle.free
    rw [hfree.events] at hev
    cases hev
  · exact hact

theorem Turning.idle {c : Control} (h : c.Turning) (hbusy : c.busy = false) : c.Idle := by
  rcases h with hidle | ⟨w, hact⟩
  · exact hidle
  · rw [hact.busy] at hbusy
    cases hbusy

/-- More calls. -/
def log (c : Control) (calls : List UiCall) : Control := { c with calls := c.calls ++ calls }

/-- The agent may be changed as long as no turn is in flight. -/
theorem run_agents (calls : List AgentCall) :
    Monitor.run Phase.step .idle (calls.map .agent) = some .idle := by
  induction calls with
  | nil => rfl
  | cons c calls ih => exact ih

theorem Free.agents {p : Phase} {c : Control} (h : c.Free p) (hp : p.Resting)
    (calls : List AgentCall) : ∃ q, q.Resting ∧ (c.log (calls.map .agent)).Free q := by
  have hrun : ∃ q, q.Resting ∧ Monitor.run Phase.step p (calls.map .agent) = some q := by
    rcases hp with rfl | rfl
    · exact ⟨.idle, .inl rfl, run_agents calls⟩
    · cases calls with
      | nil => exact ⟨_, .inr rfl, rfl⟩
      | cons c calls => exact ⟨.idle, .inl rfl, run_agents calls⟩
  obtain ⟨q, hq, hrun⟩ := hrun
  have hlog : Monitor.run Phase.step .idle (c.calls ++ calls.map .agent) = some q := by
    rw [Monitor.run_append, h.log]
    exact hrun
  exact ⟨q, hq, h.worker, h.events, h.busy, h.terminated, hlog⟩

theorem Idle.agents {c : Control} (h : c.Idle) (calls : List AgentCall) :
    (c.log (calls.map .agent)).Idle := by
  obtain ⟨p, hp, hfree⟩ := h.free
  exact ⟨hfree.agents hp calls, h.initPending, h.compactPending⟩

end Control

namespace LiveApp

open Control (Idle Active Free Turning)
open ChatView (Style)

/-! ## 4. The commands -/

@[simp] theorem control_notes (style : Style) (texts : List Bytes) (r : LiveApp W) :
    (r.notes style texts).control = r.control := by
  induction texts generalizing r with
  | nil => rfl
  | cons text texts ih => exact ih _

@[simp] theorem worker_notes (style : Style) (texts : List Bytes) (r : LiveApp W) :
    (r.notes style texts).worker = r.worker :=
  congrArg Control.worker (control_notes style texts r)

/-- A turn of the kind can be submitted. -/
structure Ready (kind : TurnKind) (r : LiveApp W) : Prop where
  free : ∃ p, p.step (.started kind) = some (.working kind) ∧ r.control.Free p
  initPending : r.initPending = decide (kind = .init)
  compactPending : r.compactPending = kind.isCompact

/-- The worker of a turn that is submitted. -/
def newWorker (kind : TurnKind) (payload : Bytes) (images : List ImagePart) (r : LiveApp W) :
    Worker :=
  { kind := kind, payload := payload, images := images, before := r.view.said }

/-- `submit` when no worker is left: the turn is in flight. -/
theorem control_submit {kind : TurnKind} {r : LiveApp W} (hw : r.worker = none)
    (display payload : Bytes) (images : List ImagePart) :
    (r.submit kind display payload images).control =
      { r.control with
        worker := some (r.newWorker kind payload images)
        busy := true
        calls := r.calls ++ [.started kind] } := by
  have hnotes := control_notes .dim (images.map imageLine)
    { r with view := r.view.add (bytes "> ") display .normal }
  unfold control at hnotes
  injection hnotes with hevents hworker hbusy hinit hcompact hterm hcalls
  unfold submit startWorker
  dsimp only
  split
  · rename_i w hsome
    rw [hworker, hw] at hsome
    cases hsome
  · unfold control
    simp only [hevents, hinit, hcompact, hterm, hcalls]
    rfl

/-- **A turn that is submitted is in flight.** -/
theorem Ready.submit {kind : TurnKind} {r : LiveApp W} (h : r.Ready kind)
    (display payload : Bytes) (images : List ImagePart) :
    (r.submit kind display payload images).control.Active (r.newWorker kind payload images) := by
  obtain ⟨p, hp, hfree⟩ := h.free
  rw [control_submit hfree.worker]
  have hlog : Monitor.run Phase.step .idle (r.calls ++ [.started kind]) = some (.working kind) :=
    (Monitor.run_snoc hfree.log _).trans hp
  have hqueued : (r.newWorker kind payload images).Queued r.events := by
    have hevents : r.events = [] := hfree.events
    rw [hevents]
    exact ⟨rfl, fun e he => absurd he List.not_mem_nil, fun e he => absurd he List.not_mem_nil⟩
  exact ⟨rfl, hqueued, rfl, h.initPending, h.compactPending, hfree.terminated, hlog⟩

/-- What the UI thread comes to while no turn is in flight: it stays idle, or submits one turn and
may then have something more to show. -/
inductive Settles (r' : LiveApp W) : Prop
  | idle (h : r'.control.Idle)
  | submitted {kind : TurnKind} {r : LiveApp W} (hr : r.Ready kind) (display payload : Bytes)
    (images : List ImagePart) (texts : List Bytes)
    (h : r' = (r.submit kind display payload images).notes .dim texts)

theorem Settles.turning {r : LiveApp W} (h : r.Settles) : r.control.Turning := by
  cases h with
  | idle h => exact .inl h
  | submitted hr display payload images texts h =>
    subst h
    rw [control_notes]
    exact .inr ⟨_, hr.submit display payload images⟩

/-- A typed command can submit any turn but an automatic one. -/
theorem ready_of_idle {kind : TurnKind} {r : LiveApp W} {c : Control} (h : c.Idle)
    (hkind : kind ≠ .compact true)
    (hc : r.control =
      { c with initPending := r.initPending, compactPending := r.compactPending })
    (hinit : r.initPending = decide (kind = .init)) (hcompact : r.compactPending = kind.isCompact) :
    r.Ready kind := by
  obtain ⟨p, hp, hfree⟩ := h.free
  have hstep : p.step (.started kind) = some (.working kind) := by
    rcases hp with rfl | rfl
    · exact if_neg hkind
    · rfl
  refine ⟨⟨p, hstep, ?_⟩, hinit, hcompact⟩
  rw [hc]
  exact ⟨hfree.worker, hfree.events, hfree.busy, hfree.terminated, hfree.log⟩

section Commands

variable {r : LiveApp W} (env : Surroundings W)

theorem settles_notes (h : r.control.Idle) (style : Style) (texts : List Bytes) :
    (r.notes style texts).Settles := by
  refine .idle ?_
  rw [control_notes]
  exact h

theorem settles_handleUserInput (h : r.control.Idle) (line : Bytes) :
    (r.handleUserInput env line).Settles := by
  unfold handleUserInput
  rcases expandAttachments env.readFile line r.session.agent.cfg.maxImageBytes r.session.world
    with ⟨ex, w⟩
  dsimp only
  have hready : ({ r.setWorld w with lastUserMessage := line }).Ready .ordinary :=
    ready_of_idle h (by decide) rfl h.initPending h.compactPending
  split
  · exact settles_notes (r := r.setWorld w) h _ _
  · split
    · exact .submitted hready _ _ _ [] rfl
    · exact .submitted hready _ _ _ [_] rfl

theorem settles_runInit (h : r.control.Idle) : (r.runInit env).Settles := by
  unfold runInit
  dsimp only
  generalize (if env.project.hasAgentsMd r.session.world then
    env.project.askOverwrite r.session.world else (ConfirmChoice.yes, r.session.world)) = asked
  split
  · exact .idle h
  · refine .submitted ?_ _ _ _ [] rfl
    exact ready_of_idle h (by decide) rfl rfl h.compactPending

/-- `/compact`, typed in or automatic. -/
theorem settles_runCompact {automatic : Bool} {p : Phase} (hp : p.Resting)
    (hstep : p.step (.started (.compact automatic)) = some (.working (.compact automatic)))
    (hfree : r.control.Free p) (hinit : r.initPending = false)
    (hcompact : r.compactPending = false) : (r.runCompact automatic).Settles := by
  unfold runCompact
  split
  · exact .idle ⟨⟨p, hp, hfree⟩, hinit, hcompact⟩
  · refine .submitted ?_ _ _ _ [] rfl
    exact ⟨⟨p, hstep, hfree.worker, hfree.events, hfree.busy, hfree.terminated, hfree.log⟩,
      hinit, rfl⟩

theorem settles_runSkill (h : r.control.Idle) (arg : Bytes) : (r.runSkill arg).Settles := by
  unfold LiveApp.runSkill
  split
  · split
    · exact .idle h
    · exact settles_notes (r := r.note _ _) h _ _
  · exact .idle h
  · refine .submitted ?_ _ _ _ [] rfl
    exact ready_of_idle h (by decide) rfl h.initPending h.compactPending

theorem idle_modelCommand (h : r.control.Idle) (arg : Bytes) :
    (r.modelCommand env arg).control.Idle := by
  unfold modelCommand
  split
  · dsimp only
    split <;> rw [control_notes] <;> exact h
  · exact h.agents [.setModel]

theorem settles_runLine (h : r.control.Idle) (line : Bytes) : (r.runLine env line).Settles := by
  unfold runLine
  dsimp only
  split
  · split
    · exact .idle h
    · exact settles_handleUserInput env h line
  · obtain ⟨p, hp, hfree⟩ := h.free
    have hquit : ({ r with running := false, worker := none } : LiveApp W).control.Free p :=
      ⟨rfl, hfree.events, hfree.busy, hfree.terminated, hfree.log⟩
    exact .idle ⟨⟨p, hp, hquit⟩, h.initPending, h.compactPending⟩
  · exact .idle h
  · exact .idle (h.agents [.reset])
  · split
    · exact .idle h
    · exact settles_handleUserInput env h _
  · exact .idle (idle_modelCommand env h _)
  · exact settles_runInit env h
  · obtain ⟨p, hp, hfree⟩ := h.free
    have hstep : p.step (.started (.compact false)) = some (.working (.compact false)) := by
      rcases hp with rfl | rfl <;> rfl
    exact settles_runCompact hp hstep hfree h.initPending h.compactPending
  · exact settles_runSkill h _
  · split
    · exact settles_runSkill h _
    · exact .idle h

end Commands

/-! ## 5. The keys -/

/-- Nothing has changed that a turn is about, but that the chat may say more. -/
structure Undisturbed (r r' : LiveApp W) : Prop where
  control : r'.control = r.control
  thinkingIdx : r'.thinkingIdx = r.thinkingIdx
  contentIdx : r'.contentIdx = r.contentIdx
  view : r.view.Grows r'.view

/-- What a key can do: change what is shown and typed, or, while no turn is in flight, enter a
line. -/
inductive Pressed (env : Surroundings W) (r : LiveApp W) : LiveApp W → Prop
  | looked {r' : LiveApp W} (h : r.Undisturbed r') : Pressed env r r'
  | entered (hbusy : r.busy = false) (line : Bytes) (bar : InputBar) :
    Pressed env r ({ r with input := bar }.runLine env line)

section Keys

variable (env : Surroundings W) (r : LiveApp W)

/-- Scrolling and folding. -/
theorem pressed_view {v : ChatView} (h : v.said = r.view.said) :
    r.Pressed env { r with view := v } := .looked ⟨rfl, rfl, rfl, .of_said_eq h⟩

theorem pressed_input (bar : InputBar) : r.Pressed env { r with input := bar } :=
  .looked ⟨rfl, rfl, rfl, .refl _⟩

theorem pressed_arrowKey (ch : Int) {scroll : ChatView → ChatView}
    (h : ∀ v, (scroll v).said = v.said) : r.Pressed env (r.arrowKey ch scroll) := by
  unfold arrowKey
  split
  · exact pressed_view env r (h _)
  · exact pressed_input env r _

theorem pressed_wheelKey (wheel : Option Wheel) : r.Pressed env (r.wheelKey wheel) := by
  unfold wheelKey
  split
  · exact .looked ⟨rfl, rfl, rfl, .refl _⟩
  · exact pressed_view env r rfl
  · exact pressed_view env r rfl

theorem pressed_altKey (next : Keypress) : r.Pressed env (r.altKey next) := by
  unfold altKey
  split
  · exact pressed_input env r _
  · split
    · exact .looked ⟨rfl, rfl, rfl, .refl _⟩
    · exact pressed_input env r _
    · exact pressed_input env r _

theorem pressed_inputKey (hbusy : r.busy = false) (ch : Int) :
    r.Pressed env (r.inputKey env ch) := by
  unfold inputKey
  split
  · exact pressed_input env r _
  · exact .entered hbusy _ _

theorem pressed_requestCancel : r.Pressed env r.requestCancel := by
  unfold requestCancel
  split
  · exact .looked ⟨rfl, rfl, rfl, .refl _⟩
  · exact .looked ⟨rfl, rfl, rfl, .add _ (by decide) _ _⟩

theorem pressed_controlKey (k : KeyRead) (ch : Int) : r.Pressed env (r.controlKey env k ch) := by
  have hsame : r.Pressed env r := .looked ⟨rfl, rfl, rfl, .refl _⟩
  unfold controlKey
  refine iteInduction (fun _ => hsame) fun _ => ?_
  refine iteInduction (fun _ => pressed_requestCancel env r) fun _ => ?_
  refine iteInduction (fun _ => pressed_view env r rfl) fun _ => ?_
  refine iteInduction (fun _ => pressed_view env r rfl) fun _ => ?_
  refine iteInduction (fun _ => pressed_view env r r.view.said_toggleLastCollapsible) fun _ => ?_
  refine iteInduction (fun _ => pressed_wheelKey env r k.wheel) fun _ => ?_
  refine iteInduction (fun _ => pressed_arrowKey env r ch fun _ => rfl) fun _ => ?_
  refine iteInduction (fun _ => pressed_arrowKey env r ch fun _ => rfl) fun _ => ?_
  refine iteInduction (fun _ => pressed_arrowKey env r ch fun _ => rfl) fun _ => ?_
  refine iteInduction (fun _ => pressed_arrowKey env r ch fun _ => rfl) fun _ => ?_
  refine iteInduction (fun _ => pressed_arrowKey env r ch fun _ => rfl) fun _ => ?_
  refine iteInduction (fun _ => .looked ⟨rfl, rfl, rfl, .refl _⟩) fun hbusy => ?_
  refine iteInduction (fun _ => pressed_altKey env r k.next) fun _ => ?_
  exact pressed_inputKey env r (Bool.eq_false_of_not_eq_true hbusy) ch

/-- **One key.** -/
theorem pressed_handleKey (k : KeyRead) : r.Pressed env (r.handleKey env k) := by
  unfold handleKey
  split
  · exact .looked ⟨rfl, rfl, rfl, .refl _⟩
  · split
    · split
      · exact .looked ⟨rfl, rfl, rfl, .refl _⟩
      · exact pressed_input env r _
    · exact pressed_controlKey env r k _
  · exact pressed_controlKey env r k _

end Keys

/-! ## 6. The events -/

end LiveApp

section Queue

variable {w : Worker} {e : UiEvent} {es : List UiEvent}

theorem Callback.event_ends (c : Callback) : c.event.ends = false := by
  cases c <;> rfl

theorem endEvent_ends (res : ApiResult) : (endEvent res).ends = true := by
  unfold endEvent
  split
  · rfl
  · split <;> rfl

/-- Behind an event that ends the turn there is none. -/
theorem Worker.Queued.ends (h : w.Queued (e :: es)) (he : e.ends = true) : es = [] := by
  have hevents := h.events
  split at hevents
  · obtain ⟨before, last, heq, hbefore, -⟩ := hevents
    cases before with
    | nil =>
      cases heq
      rfl
    | cons e' before =>
      cases heq
      rw [hbefore e List.mem_cons_self] at he
      cases he
  · rw [hevents e List.mem_cons_self] at he
    cases he

theorem Worker.Queued.pop (h : w.Queued (e :: es)) (he : e.ends = false) :
    { w with handled := w.handled ++ [e] }.Queued es := by
  refine ⟨?_, fun e' he' => ?_, ?_⟩
  · rw [List.append_assoc]
    exact h.fifo
  · rcases List.mem_append.mp he' with he' | he'
    · exact h.handled e' he'
    · rw [List.mem_singleton.mp he']
      exact he
  · have hevents := h.events
    dsimp only
    split at hevents
    · rw [if_pos (by assumption)]
      obtain ⟨before, last, heq, hbefore, hlast⟩ := hevents
      cases before with
      | nil =>
        cases heq
        rw [hlast] at he
        cases he
      | cons e' before =>
        cases heq
        exact ⟨before, last, rfl, fun e he => hbefore e (List.mem_cons_of_mem _ he), hlast⟩
    · rw [if_neg (by assumption)]
      exact fun e' he' => hevents e' (List.mem_cons_of_mem _ he')

theorem Worker.Queued.push (h : w.Queued es) (hrun : w.ended = false) (he : e.ends = false) :
    { w with pushed := w.pushed ++ [e] }.Queued (es ++ [e]) := by
  have hevents := h.events
  rw [hrun] at hevents
  refine ⟨?_, h.handled, ?_⟩
  · rw [h.fifo, List.append_assoc]
  · dsimp only
    rw [hrun]
    intro e' he'
    rcases List.mem_append.mp he' with he' | he'
    · exact hevents e' he'
    · rw [List.mem_singleton.mp he']
      exact he

theorem Worker.Queued.pushEnd (h : w.Queued es) (hrun : w.ended = false) (he : e.ends = true) :
    { w with pushed := w.pushed ++ [e], ended := true }.Queued (es ++ [e]) := by
  have hevents := h.events
  rw [hrun] at hevents
  refine ⟨?_, h.handled, ?_⟩
  · rw [h.fifo, List.append_assoc]
  · exact ⟨es, e, rfl, hevents, he⟩

end Queue

namespace LiveApp

section Events

variable {r : LiveApp W} (env : Surroundings W)

theorem control_foldThinking (r : LiveApp W) : r.foldThinking.control = r.control := by
  unfold foldThinking
  split <;> rfl

theorem control_joinWorker {w : Worker} (h : r.worker = some w) (outcome : Outcome) :
    (r.joinWorker outcome).control =
      { r.control with worker := none, calls := r.calls ++ [.joined outcome] } := by
  unfold joinWorker
  rw [h]
  rfl

theorem worker_pop {w : Worker} (h : r.worker = some w) (e : UiEvent) (es : List UiEvent) :
    (r.pop e es).worker = some { w with handled := w.handled ++ [e] } :=
  congrArg (Option.map _) h

/-- The flags are looked at behind the join only. -/
theorem flags_joinWorker (r : LiveApp W) (outcome : Outcome) :
    (r.joinWorker outcome).initPending = r.initPending ∧
      (r.joinWorker outcome).compactPending = r.compactPending := by
  unfold joinWorker
  split <;> exact ⟨rfl, rfl⟩

/-- An event in the course of a turn only changes what is shown. -/
theorem control_handleEvent {e : UiEvent} (he : e.ends = false) :
    (r.handleEvent env e).control = r.control := by
  cases e with
  | reasoning text =>
    show (r.showReasoning text).control = r.control
    unfold showReasoning
    split <;> rfl
  | delta text =>
    show (r.showDelta text).control = r.control
    unfold showDelta
    split
    · rfl
    · exact control_foldThinking r
  | toolInfo | toolResult | confirmRequest => rfl
  | done | canceled | error => cases he

theorem control_finishInit : ∃ calls : List AgentCall,
    (r.finishInit env).control = r.control.log (.finishInit :: calls.map .agent) := by
  unfold finishInit
  dsimp only
  split
  · exact ⟨[], rfl⟩
  · rcases env.project.openAgentsMd (r.call .finishInit).session.world with ⟨_ | _, w⟩
    · exact ⟨[], rfl⟩
    · refine ⟨[.setSystemPrompt], ?_⟩
      simp [control, Control.log, callAgent, note, call, setWorld]

theorem control_finishCompact : ∃ calls : List AgentCall,
    r.finishCompact.control = r.control.log (.finishCompact :: calls.map .agent) := by
  unfold finishCompact
  dsimp only
  split
  · exact ⟨[], rfl⟩
  · refine ⟨[.compactIntoSummary], ?_⟩
    simp [control, Control.log, callAgent, note, call]

theorem settles_maybeAutoCompact (hfree : r.control.Free (.finished .ordinary))
    (hinit : r.initPending = false) (hcompact : r.compactPending = false) :
    r.maybeAutoCompact.Settles := by
  have hrest : Phase.Resting (.finished .ordinary) := .inr rfl
  unfold maybeAutoCompact
  dsimp only
  split
  · exact settles_runCompact hrest rfl hfree hinit hcompact
  · exact .idle ⟨⟨_, hrest, hfree⟩, hinit, hcompact⟩

/-- The calls that finish a command lead back to the idle phase. -/
theorem idle_finish {kind : TurnKind} {c : UiCall} {r' : LiveApp W} {calls : List AgentCall}
    (hfree : r.control.Free (.finished kind)) (hc : Phase.step (.finished kind) c = some .idle)
    (h : r'.control = r.control.log (c :: calls.map .agent)) {c' : Control}
    (hc' : c' = { r'.control with initPending := false, compactPending := false }) : c'.Idle := by
  have hlog : Monitor.run Phase.step .idle (r.control.calls ++ c :: calls.map .agent) =
      some .idle := by
    rw [Monitor.run_append, hfree.log, Option.bind_some, Monitor.run, hc, Option.bind_some]
    exact Control.run_agents calls
  subst hc'
  rw [h]
  exact ⟨⟨.idle, .inl rfl, hfree.worker, hfree.events, hfree.busy, hfree.terminated, hlog⟩,
    rfl, rfl⟩

/-- **What follows a turn that was done**: by its kind, what was noted or the automatic
`/compact`. -/
theorem settles_afterDone {kind : TurnKind} (hfree : r.control.Free (.finished kind))
    (hinit : r.initPending = decide (kind = .init)) (hcompact : r.compactPending = kind.isCompact) :
    (r.afterDone env).Settles := by
  cases kind with
  | ordinary =>
    have hafter : r.afterDone env = r.maybeAutoCompact := by
      unfold afterDone finishNoted
      simp [hinit, hcompact, TurnKind.isCompact]
    rw [hafter]
    -- nothing was noted, so the history is compacted if it is due
    exact settles_maybeAutoCompact hfree hinit hcompact
  | init =>
    obtain ⟨calls, hcalls⟩ := control_finishInit (r := r) env
    have hcompact' : (r.finishInit env).compactPending = false :=
      (congrArg Control.compactPending hcalls).trans hcompact
    have hafter : r.afterDone env = { r.finishInit env with initPending := false } := by
      unfold afterDone finishNoted
      simp [hinit, hcompact']
    rw [hafter]
    refine .idle (idle_finish hfree rfl hcalls ?_)
    rw [← hcompact']
    rfl
  | compact automatic =>
    obtain ⟨calls, hcalls⟩ := control_finishCompact (r := r)
    have hinit' : r.finishCompact.initPending = false :=
      (congrArg Control.initPending hcalls).trans hinit
    have hafter : r.afterDone env = { r.finishCompact with compactPending := false } := by
      unfold afterDone finishNoted
      simp [hinit, hcompact, TurnKind.isCompact]
    rw [hafter]
    refine .idle (idle_finish hfree rfl hcalls ?_)
    rw [← hinit']
    rfl

/-- The worker is joined behind the last event of the turn. -/
theorem free_join {w : Worker} {e : UiEvent} {q : LiveApp W} (h : r.control.Active w)
    (hq : q.control = (r.pop e []).control) {outcome : Outcome} {p : Phase}
    (hp : Phase.step (.working w.kind) (.joined outcome) = some p) {c : Control}
    (hc : c = { (q.joinWorker outcome).control with
      busy := false
      initPending := c.initPending
      compactPending := c.compactPending }) : c.Free p := by
  have hworker : q.worker = some { w with handled := w.handled ++ [e] } :=
    (congrArg Control.worker hq).trans (worker_pop h.worker e [])
  have hcalls : q.calls = r.calls := congrArg Control.calls hq
  have hlog : Monitor.run Phase.step .idle (q.calls ++ [.joined outcome]) = some p := by
    rw [hcalls]
    exact (Monitor.run_snoc h.log _).trans hp
  rw [hc, control_joinWorker hworker, hq]
  exact ⟨rfl, rfl, rfl, h.terminated, hlog⟩

/-- **The event that ends a turn.** -/
theorem settles_end {w : Worker} {e : UiEvent} {es : List UiEvent} (h : r.control.Active w)
    (hev : r.events = e :: es) (he : e.ends = true) : ((r.pop e es).handleEvent env e).Settles := by
  have hqueued : w.Queued (e :: es) := hev ▸ h.queued
  obtain rfl := hqueued.ends he
  have hfold := control_foldThinking (r.pop e [])
  cases e with
  | done =>
    obtain ⟨hinit, hcompact⟩ := flags_joinWorker (r.pop .done []).foldThinking .done
    have hfold_init : (r.pop .done []).foldThinking.initPending = r.initPending :=
      congrArg Control.initPending hfold
    have hfold_compact : (r.pop .done []).foldThinking.compactPending = r.compactPending :=
      congrArg Control.compactPending hfold
    exact settles_afterDone env (free_join h hfold rfl rfl)
      (hinit.trans (hfold_init.trans h.initPending))
      (hcompact.trans (hfold_compact.trans h.compactPending))
  | canceled => exact .idle ⟨⟨.idle, .inl rfl, free_join h hfold rfl rfl⟩, rfl, rfl⟩
  | error text => exact .idle ⟨⟨.idle, .inl rfl, free_join h rfl rfl rfl⟩, rfl, rfl⟩
  | reasoning | delta | toolInfo | toolResult | confirmRequest => cases he

/-! ## 7. All runs -/

theorem Pressed.turning {r' : LiveApp W} (h : r.Pressed env r') (hr : r.control.Turning) :
    r'.control.Turning := by
  cases h with
  | looked hsame =>
    rw [hsame.control]
    exact hr
  | entered hbusy line bar =>
    have hidle : r.control.Idle := hr.idle hbusy
    exact (settles_runLine env (r := { r with input := bar }) hidle line).turning

/-- **One step keeps the invariant.** -/
theorem turning_step {r' : LiveApp W} (h : r.control.Turning) (hstep : Step env r r') :
    r'.control.Turning := by
  cases hstep with
  | key k hrun hdrain => exact (pressed_handleKey env r k).turning env h
  | @event e es hdrain hev =>
    obtain ⟨w, hact⟩ := h.active_of_event hev
    cases he : e.ends with
    | true => exact (settles_end env hact hev he).turning
    | false =>
      have hqueued : w.Queued (e :: es) := hev ▸ hact.queued
      rw [control_handleEvent env he]
      exact .inr ⟨_, worker_pop hact.worker e es, hqueued.pop he, hact.busy, hact.initPending,
        hact.compactPending, hact.terminated, hact.log⟩
  | drained hdrain hev => exact h
  | @callback w c hw hrun =>
    have hact := h.active hw
    exact .inr ⟨_, rfl, hact.queued.push hrun c.event_ends, hact.busy, hact.initPending,
      hact.compactPending, hact.terminated, hact.log⟩
  | @finish w round cb cancel res s hw hrun hsend =>
    have hact := h.active hw
    exact .inr ⟨_, rfl, hact.queued.pushEnd hrun (endEvent_ends res), hact.busy,
      hact.initPending, hact.compactPending, hact.terminated, hact.log⟩

/-- **The invariant holds in every state that comes up.** -/
theorem Reachable.turning (h : Reachable env r) : r.control.Turning := by
  induction h with
  | start session skills banner =>
    exact .inl ⟨⟨.idle, .inl rfl, rfl, rfl, rfl, rfl, rfl⟩, rfl, rfl⟩
  | step hr hstep ih => exact turning_step env ih hstep

end Events

/-! ## 8. The law of the turns -/

/-- What a state says of the turns so far: its flags, and the calls that have led to it. -/
structure TurnLaw (r : LiveApp W) : Prop where
  /-- It is busy while there is a turn that was started and whose last event is not handled. -/
  busy : r.busy = true ↔ openTurn r.calls ≠ none
  worker : r.worker.map Worker.kind = openTurn r.calls
  queued : ∀ w, r.worker = some w → w.Queued r.events
  terminated : r.terminated = false
  started : ∀ pre kind post, r.calls = pre ++ .started kind :: post → openTurn pre = none
  /-- The agent is only changed when no turn is in flight. -/
  agent : ∀ pre c post, r.calls = pre ++ .agent c :: post → openTurn pre = none
  exclusive : ¬ (r.initPending = true ∧ r.compactPending = true)
  pending : r.initPending = true ∨ r.compactPending = true → r.busy = true
  /-- The commands are finished behind turns that were started for them and done, and behind all
  of these. -/
  finishInit : ∀ pre post, r.calls = pre ++ .finishInit :: post →
    ∃ before, pre = before ++ [.joined .done] ∧ openTurn before = some .init
  finishCompact : ∀ pre post, r.calls = pre ++ .finishCompact :: post →
    ∃ before automatic, pre = before ++ [.joined .done] ∧
      openTurn before = some (.compact automatic)
  initDone : ∀ pre post, r.calls = pre ++ .joined .done :: post → openTurn pre = some .init →
    post.head? = some .finishInit
  compactDone : ∀ pre automatic post, r.calls = pre ++ .joined .done :: post →
    openTurn pre = some (.compact automatic) → post.head? = some .finishCompact
  /-- An automatic `/compact` is started right behind an ordinary turn that was done. -/
  automatic : ∀ pre post, r.calls = pre ++ .started (.compact true) :: post →
    ∃ before, pre = before ++ [.joined .done] ∧ openTurn before = some .ordinary

/-- What the state says itself. -/
structure Flags (r : LiveApp W) : Prop where
  log : ∃ p, Monitor.run Phase.step .idle r.calls = some p ∧
    (∀ kind, p = .finished kind → kind = .ordinary) ∧ r.worker.map Worker.kind = p.turn
  busy : r.busy = r.worker.isSome
  queued : ∀ w, r.worker = some w → w.Queued r.events
  terminated : r.terminated = false
  initPending : r.initPending = decide (r.worker.map Worker.kind = some .init)
  compactPending : r.compactPending = (r.worker.map Worker.kind).any TurnKind.isCompact

theorem flags_of_turning {r : LiveApp W} (h : r.control.Turning) : r.Flags := by
  rcases h with hidle | ⟨w, hact⟩
  · -- no turn is open
    obtain ⟨p, hp, hfree⟩ := hidle.free
    have hworker : r.worker = none := hfree.worker
    have hlog : Monitor.run Phase.step .idle r.calls = some p := hfree.log
    refine ⟨⟨p, hlog, ?_, ?_⟩, ?_, ?_, hfree.terminated, ?_, ?_⟩
    · rintro kind rfl
      rcases hp with hp | hp <;> cases hp
      rfl
    · rw [hworker]
      rcases hp with rfl | rfl <;> rfl
    · rw [hworker]
      exact hfree.busy
    · rw [hworker]
      rintro w ⟨⟩
    · rw [hworker]
      exact hidle.initPending
    · rw [hworker]
      exact hidle.compactPending
  · -- a worker runs
    have hworker : r.worker = some w := hact.worker
    have hlog : Monitor.run Phase.step .idle r.calls = some (.working w.kind) := hact.log
    refine ⟨⟨_, hlog, ?_, ?_⟩, ?_, ?_, hact.terminated, ?_, ?_⟩
    · rintro kind ⟨⟩
    · rw [hworker]
      rfl
    · rw [hworker]
      exact hact.busy
    · rw [hworker]
      rintro w' ⟨⟩
      exact hact.queued
    · rw [hworker]
      exact hact.initPending.trans (by simp)
    · rw [hworker]
      exact hact.compactPending

/-- **Every reachable state keeps the law of the turns.** -/
theorem turns_lawful (env : Surroundings W) {r : LiveApp W} (h : Reachable env r) : r.TurnLaw := by
  have hflags := flags_of_turning (h.turning env)
  obtain ⟨p, hlog, hdone, hturn⟩ := hflags.log
  have hopen : r.worker.map Worker.kind = openTurn r.calls :=
    hturn.trans (openTurn_of_run hlog).symm
  have hbusy : r.busy = true ↔ openTurn r.calls ≠ none := by
    rw [← hopen, hflags.busy]
    cases r.worker <;> simp
  refine ⟨hbusy, hopen, hflags.queued, hflags.terminated, ?_, ?_, ?_, ?_, ?_, ?_, ?_, ?_, ?_⟩
  · intro pre kind post heq
    exact turn_at_call (heq ▸ hlog) (by rintro _ ⟨⟩)
  · intro pre c post heq
    exact turn_at_call (heq ▸ hlog) (by rintro _ ⟨⟩)
  · rw [hflags.initPending, hflags.compactPending]
    rcases r.worker.map Worker.kind with _ | _ | _ | _ <;> simp [TurnKind.isCompact]
  · rw [hflags.initPending, hflags.compactPending, hflags.busy]
    cases r.worker <;> simp
  · intro pre post heq
    exact UiCall.Behind.finishInit.done (heq ▸ hlog)
  · intro pre post heq
    exact compact_done (heq ▸ hlog)
  · intro pre post heq hinit
    obtain ⟨c, rest, rfl, hc⟩ := next_of_done (heq ▸ hlog) hinit fun hp => by
      cases hdone _ hp
    cases c with
    | finishInit => rfl
    | started | joined | finishCompact | agent => exact absurd rfl hc
  · intro pre automatic post heq hcompact
    obtain ⟨c, rest, rfl, hc⟩ := next_of_done (heq ▸ hlog) hcompact fun hp => by
      cases hdone _ hp
    cases c with
    | finishCompact => rfl
    | started | joined | finishInit | agent => exact absurd rfl hc
  · intro pre post heq
    exact UiCall.Behind.automatic.done (heq ▸ hlog)

/-! ## 9. A run -/

/-- A directory without files, and no server. -/
def emptySurroundings : Surroundings Unit where
  lib := .empty
  net := .replying []
  project :=
    { hasAgentsMd := fun _ => false
      askOverwrite := fun w => (.no, w)
      tree := fun _ => []
      openAgentsMd := fun w => (true, w)
      writeAgentsMd := fun _ w => w }
  readFile _ w := (none, w)
  confirm _ _ w := w

/-- A model that answers with a heading. -/
def headingRound : Agent Unit → ChatRound Unit := fun _ _ =>
  pure { ok := true, content := bytes "# Notes" }

/-- A key and what it types. -/
def typed (c : UInt32) : KeyRead := { key := .char c }

def initStart : LiveApp Unit :=
  start (Session.start JsonText.empty (Net.replying []) {} none [] ()) {} []

/-- `/init` is typed, and the model answers with a heading; the UI thread has taken the answer from
the queue, but not the last event. -/
theorem init_answered : ∃ (r : LiveApp Unit) (w : Worker), Reachable emptySurroundings r ∧
    r.worker = some w ∧ w.pushed = [.delta (bytes "# Notes"), .done] ∧ r.draining = true ∧
    r.events = [.done] ∧ ((r.pop .done []).handleEvent emptySurroundings .done).calls =
      [.started .init, .joined .done, .finishInit, .agent .setSystemPrompt] := by
  have h0 : Reachable emptySurroundings initStart := .start _ _ _
  have h1 := h0.step (.key (typed 0x2F) rfl rfl)
  have h2 := h1.step (.key (typed 0x69) rfl rfl)
  have h3 := h2.step (.key (typed 0x6E) rfl rfl)
  have h4 := h3.step (.key (typed 0x69) rfl rfl)
  have h5 := h4.step (.key (typed 0x74) rfl rfl)
  have h6 := h5.step (.key (typed 10) rfl rfl)
  have h7 := h6.step (.callback (.content (bytes "# Notes")) rfl rfl)
  have h8 := h7.step (.finish headingRound {} none rfl rfl rfl)
  have h9 := h8.step (.key ⟨.none, .none, 0, none⟩ rfl rfl)
  have h10 := h9.step (.event rfl rfl)
  exact ⟨_, _, h10, rfl, rfl, rfl, rfl, rfl⟩

/-- Behind it, `/init` is finished. -/
theorem turns_lawful_init : ∃ r : LiveApp Unit,
    r.calls = [.started .init, .joined .done, .finishInit, .agent .setSystemPrompt] ∧
      r.TurnLaw := by
  obtain ⟨r, -, hr, -, -, hdrain, hev, hcalls⟩ := init_answered
  exact ⟨_, hcalls, turns_lawful emptySurroundings (hr.step (.event hdrain hev))⟩

end LiveApp

end SimpleCoder

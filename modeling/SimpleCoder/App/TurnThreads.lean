/-
# The threads of a turn

The worker pushes an event for each callback of the agent and goes on; to have a tool call
confirmed it pushes a request with a promise and waits on it (`request_confirmation`).  The UI
thread takes the events in order, sets the promise to what the dialog comes back with, and joins
the worker behind the last one; between two events it may handle any number of keys.

The threads are an instance of `Handshake`.  A turn is whatever the worker does (`Turn`), and the
letters are the queue, so that `events` stays empty.  However the threads take turns, the dialogs
are answered, and the chat changed, as if each callback had been handled on the spot; the UI thread
is busy all the while, and nothing keeps the turn from coming to its end (`turn_sequential`).
-/
import SimpleCoder.Lib.Handshake
import SimpleCoder.App.TurnMachine

namespace SimpleCoder

open Handshake (Client Alone System)
open Control (Active Turning)

variable {W : Type}

/-! ## 1. The threads -/

/-- A callback that the worker does not wait for. -/
structure Notice where
  callback : Callback
  plain : ∀ tool details, callback ≠ .confirm tool details

/-- What is asked of `request_confirmation`. -/
structure ConfirmQuestion where
  tool : Bytes
  details : Bytes

/-- How a turn has ended, and the agent that it leaves. -/
structure TurnEnd (W : Type) where
  result : ApiResult
  agent : Agent W

namespace LiveApp

/-- What the worker does in a turn. -/
abbrev WorkerTurn (W : Type) := Client Notice ConfirmQuestion ConfirmChoice (TurnEnd W)

/-- The last event of a worker is pushed and taken. -/
def endTurn (env : Surroundings W) (e : TurnEnd W) (r : LiveApp W) : LiveApp W :=
  match r.worker with
  | none => r
  | some w =>
    ((r.pushEnd w e.result { r.session with agent := e.agent }).pop (endEvent e.result) [])
      |>.handleEvent env (endEvent e.result)

/-- The UI thread.  `choice` is what `dialog.ask` comes back with. -/
def uiThread (env : Surroundings W) (choice : Bytes → Bytes → W → ConfirmChoice) :
    Handshake.Server Notice ConfirmQuestion ConfirmChoice (TurnEnd W) (LiveApp W) where
  handle n r := r.handleEvent env n.callback.event
  answer q r := (choice q.tool q.details r.session.world,
    r.handleEvent env (.confirmRequest q.tool q.details))
  finish e r := r.endTurn env e
  own r r' := ∃ k, r' = r.handleKey env k

/-! ## 2. The turn in flight -/

section Turns

variable {env : Surroundings W} {choice : Bytes → Bytes → W → ConfirmChoice} {w : Worker}
  {r : LiveApp W}

/-- No key ends a turn, or starts another. -/
theorem control_handleKey (hbusy : r.busy = true) (k : KeyRead) :
    (r.handleKey env k).control = r.control := by
  have hpressed := pressed_handleKey env r k
  generalize r.handleKey env k = r' at hpressed
  cases hpressed with
  | looked hsame => exact hsame.control
  | entered hidle line bar => cases hidle.symm.trans hbusy

/-- **The last event ends it.** -/
theorem settles_endTurn (h : r.control.Active w) (hrun : w.ended = false) (hev : r.events = [])
    (e : TurnEnd W) : (r.endTurn env e).Settles := by
  have hworker : r.worker = some w := h.worker
  have hqueued : w.Queued r.events := h.queued
  have hpushed : (r.pushEnd w e.result { r.session with agent := e.agent }).control.Active
      { w with pushed := w.pushed ++ [endEvent e.result], ended := true } :=
    ⟨rfl, hqueued.pushEnd hrun (endEvent_ends _), h.busy, h.initPending, h.compactPending,
      h.terminated, h.log⟩
  have hevents : (r.pushEnd w e.result { r.session with agent := e.agent }).events =
      [endEvent e.result] := by
    show r.events ++ [endEvent e.result] = _
    rw [hev]
    rfl
  unfold endTurn
  rw [hworker]
  exact settles_end env hpushed hevents (endEvent_ends _)

/-- The turn is in flight as long as the worker has something to do. -/
def InFlight (w : Worker)
    (y : Alone Notice ConfirmQuestion ConfirmChoice (TurnEnd W) (LiveApp W)) : Prop :=
  match y.client with
  | some _ => y.server.control.Active w ∧ y.server.events = []
  | none => y.server.control.Turning

theorem inFlight_of_control {c c' : Option (WorkerTurn W)} {r' : LiveApp W}
    {as as' : List ConfirmChoice} (h : InFlight w ⟨c, r, as⟩) (hc : c.isSome = c'.isSome)
    (hr : r'.control = r.control) : InFlight w ⟨c', r', as'⟩ := by
  have hevents : r'.events = r.events := congrArg Control.events hr
  unfold InFlight at *
  cases c with
  | none =>
    cases c' with
    | none =>
      rw [hr]
      exact h
    | some c' => cases hc
  | some c =>
    cases c' with
    | none => cases hc
    | some c' =>
      rw [hr, hevents]
      exact h

/-- **One step of the worker alone**, or one key. -/
theorem inFlight_step (hrun : w.ended = false)
    {y y' : Alone Notice ConfirmQuestion ConfirmChoice (TurnEnd W) (LiveApp W)}
    (h : InFlight w y) (hstep : Alone.Step (uiThread env choice) y y') : InFlight w y' := by
  cases hstep with
  | post n c r as =>
    exact inFlight_of_control h rfl (control_handleEvent env n.callback.event_ends)
  | ask q next r as => exact inFlight_of_control h rfl rfl
  | exit e r as =>
    obtain ⟨hactive, hevents⟩ := h
    exact (settles_endTurn hactive hrun hevents e).turning
  | @own c r r' as hkey =>
    obtain ⟨k, rfl⟩ := hkey
    cases c with
    | none => exact (pressed_handleKey env r k).turning env h
    | some c =>
      obtain ⟨hactive, hevents⟩ := h
      exact inFlight_of_control (c := some c) ⟨hactive, hevents⟩ rfl
        (control_handleKey hactive.busy k)

theorem inFlight_run (hrun : w.ended = false)
    {y y' : Alone Notice ConfirmQuestion ConfirmChoice (TurnEnd W) (LiveApp W)}
    (h : InFlight w y) (hsteps : Relation.ReflTransGen (Alone.Step (uiThread env choice)) y y') :
    InFlight w y' := by
  induction hsteps with
  | refl => exact h
  | tail _ hstep ih => exact inFlight_step hrun ih hstep

/-! ## 3. Every interleaving -/

/-- **The threads of a turn.**  From a state in which a turn has just been submitted, whatever the
worker does in it, whatever keys come in between and however the threads take turns: no promise is
set twice, and the UI thread has come to a state, with answers given, that it comes to when every
callback is handled on the spot.  Until the last event has been handled the turn is in flight and
one of the threads can go on without a key; behind it, the UI thread is idle or busy with a turn
again.  And whatever has happened, the turn can be brought to its end without any key. -/
theorem turn_sequential (env : Surroundings W) (choice : Bytes → Bytes → W → ConfirmChoice)
    {r : LiveApp W} {w : Worker} (hturn : r.control.Active w) (hrun : w.ended = false)
    (hev : r.events = []) (turn : WorkerTurn W)
    {x : System Notice ConfirmQuestion ConfirmChoice (TurnEnd W) (LiveApp W)}
    (h : Relation.ReflTransGen (System.Moves (uiThread env choice)) (System.start turn r) x) :
    x.broken = false ∧
      (∃ rest, Relation.ReflTransGen (Alone.Step (uiThread env choice)) ⟨some turn, r, []⟩
        ⟨rest, x.server, x.answers⟩ ∧ (x.Over ↔ rest = none)) ∧
      (¬ x.Over → x.server.control.Active w ∧ ∃ x', System.Step (uiThread env choice) x x') ∧
      (x.Over → x.server.control.Turning) ∧
      ∃ z, Relation.ReflTransGen (System.Step (uiThread env choice)) x z ∧ z.Over := by
  obtain ⟨hbroken, rest, halone, hover⟩ := Handshake.refines h
  have hflight := inFlight_run hrun (y := ⟨some turn, r, []⟩) ⟨hturn, hev⟩ halone
  refine ⟨hbroken, ⟨rest, halone, hover⟩, fun hnot => ?_, fun hdone => ?_,
    Handshake.comes_over h⟩
  · cases rest with
    | none => exact absurd (hover.mpr rfl) hnot
    | some c => exact ⟨hflight.1, (Handshake.progress h).resolve_left hnot⟩
  · obtain rfl := hover.mp hdone
    exact hflight

end Turns

/-! ## 4. A turn -/

/-- The model says something, and asks for a tool. -/
def askingTurn : WorkerTurn Unit :=
  .post ⟨.content (bytes "Hm"), fun _ _ h => nomatch h⟩
    (.ask ⟨bytes "run_bash", bytes "ls"⟩ fun choice =>
      .exit ⟨{ ok := choice ≠ .no }, (Session.start JsonText.empty (Net.replying []) {} none []
        ()).agent⟩)

/-- The state in which `hi` has been submitted, and nothing of the turn happened yet. -/
theorem hi_submitted : ∃ (r : LiveApp Unit) (w : Worker), r.control.Active w ∧ w.ended = false ∧
    r.events = [] := by
  have h0 : Reachable emptySurroundings initStart := .start _ _ _
  have h1 := h0.step (.key (typed 0x68) rfl rfl)
  have h2 := h1.step (.key (typed 0x69) rfl rfl)
  have h3 := h2.step (.key (typed 10) rfl rfl)
  exact ⟨_, _, (h3.turning emptySurroundings).active rfl, rfl, rfl⟩

/-- The question is in the queue before the text has been taken; then a key comes, and both are
handled. -/
theorem turn_sequential_asking : ∃ (w : Worker)
    (x : System Notice ConfirmQuestion ConfirmChoice (TurnEnd Unit) (LiveApp Unit)),
    x.answers = [.yes] ∧ x.broken = false ∧ x.server.control.Active w := by
  obtain ⟨r, w, hturn, hrun, hev⟩ := hi_submitted
  have h0 : Relation.ReflTransGen
      (System.Moves (uiThread emptySurroundings fun _ _ _ => ConfirmChoice.yes))
      (System.start askingTurn r) (System.start askingTurn r) := .refl
  have h1 := h0.tail (.step (.post rfl))
  have h2 := h1.tail (.step (.ask rfl))
  have h3 := h2.tail (.own ⟨⟨.code Key.resize, .none, 0, none⟩, rfl⟩)
  have h4 := h3.tail (.step (.handle rfl))
  have h5 := h4.tail (.step (.answer rfl))
  obtain ⟨hbroken, -, hflight, -, -⟩ := turn_sequential _ _ hturn hrun hev askingTurn h5
  exact ⟨w, _, rfl, hbroken, (hflight fun hover => nomatch hover.1).1⟩

end LiveApp

end SimpleCoder

/-
# The trace of the tool loop

`ToolLoop` says what a run of the loop can append.  This file says all that a run did, in order: the
rounds it ran, the calls of each round and what became of them, and how it ended.

* §1 has the log of one call, of one round and of the end, with the events and the messages that
  belong to each.
* §2 says when a log is what happened between two states: which callbacks ran, what `find_tool`, the
  gate and the tool gave, and in which world.
* §3 shows that the steps of the loop are such logs, and so is a run (`runToolLoop_steps`).
* §4 reads the whole trace off the log: the requests, the calls, the history, the result
  (`runToolLoop_trace`).
-/
import SimpleCoder.Agent.ToolLoop
import SimpleCoder.Lib.Labelled

namespace SimpleCoder

variable {W : Type}

/-! ## 1. Logs -/

/-- What became of a call. -/
inductive CallOutcome (W : Type) where
  /-- No tool has its name. -/
  | unknown
  /-- The gate said no, after this answer if it asked. -/
  | declined (tool : Tool W) (details : Bytes) (asked : Option ConfirmChoice)
  /-- The tool was executed, after this answer if the gate asked. -/
  | executed (tool : Tool W) (args : Json) (details : Bytes) (asked : Option ConfirmChoice)

def CallOutcome.events : CallOutcome W → List (Event W)
  | .unknown => []
  | .declined tool details asked => (asked.map (Event.confirm tool details)).toList
  | .executed tool args details asked =>
    (asked.map (Event.confirm tool details)).toList ++ [.execute tool args details]

/-- A call, what became of it, and the result it was answered with. -/
structure CallLog (W : Type) where
  call : ToolCall
  outcome : CallOutcome W
  result : ToolResult

namespace CallLog

def events (c : CallLog W) : List (Event W) :=
  .toolCall c.call :: (c.outcome.events ++ [.toolResult c.call c.result])

def message (c : CallLog W) : Message := Message.toolResult c.call.id c.result.output

end CallLog

/-- A round that asked for tools, and its calls. -/
structure RoundLog (W : Type) where
  result : ApiResult
  calls : List (CallLog W)

/-- What a loop head that goes on shows: the flag read false, if there is one. -/
def headEvents (cancel : Option (CancelFlag W)) : List (Event W) :=
  (cancel.map fun _ => Event.cancel false).toList

namespace RoundLog

def events (cancel : Option (CancelFlag W)) (history : List Message) (r : RoundLog W) :
    List (Event W) :=
  headEvents cancel ++ .request history :: r.calls.flatMap CallLog.events

def messages (r : RoundLog W) : List Message :=
  toolRequest r.result.content r.result.toolCalls :: r.calls.map CallLog.message

end RoundLog

/-- The events of some rounds, the first of which is run on this history. -/
def roundsEvents (cancel : Option (CancelFlag W)) :
    List Message → List (RoundLog W) → List (Event W)
  | _, [] => []
  | history, r :: rounds =>
    r.events cancel history ++ roundsEvents cancel (history ++ r.messages) rounds

/-- The four ways in which the loop ends. -/
inductive Ending where
  /-- The flag read true at a loop head. -/
  | canceled
  /-- A round failed. -/
  | failed (result : ApiResult)
  /-- A round gave an answer without tool calls. -/
  | answered (result : ApiResult)
  /-- The limit was used up. -/
  | exhausted

namespace Ending

def events (cancel : Option (CancelFlag W)) (history : List Message) : Ending → List (Event W)
  | .canceled => [.cancel true]
  | .failed _ => headEvents cancel ++ [.request history]
  | .answered _ => headEvents cancel ++ [.request history]
  | .exhausted => []

def messages : Ending → List Message
  | .answered result => [Message.assistant result.content]
  | _ => []

/-- The number of requests that the ending itself makes. -/
def requests : Ending → Nat
  | .failed _ => 1
  | .answered _ => 1
  | _ => 0

/-- What the loop returns. -/
def result (maxIters : Int) : Ending → ApiResult
  | .canceled => canceledResult
  | .failed result => result
  | .answered result => result
  | .exhausted => limitResult maxIters

end Ending

/-! ## 2. What the logs mean -/

section

variable (lib : JsonText) (round : ChatRound W) (tools : List (Tool W)) (cb : AgentCallbacks W)
  (cancel : Option (CancelFlag W))

/-- What handling a call comes to, from the gate and the world it starts in to those it leaves. -/
inductive Handled (call : ToolCall) :
    ConfirmGate W × W → CallOutcome W → ToolResult → ConfirmGate W × W → Prop where
  | unknown {g : ConfirmGate W} {w : W} :
      findTool tools call.name = none →
      Handled call (g, w) .unknown (unknownTool call.name) (g, w)
  | declined {g : ConfirmGate W} {w w' : W} {tool : Tool W} {details : Bytes} :
      findTool tools call.name = some tool →
      tool.confirmDetails (parsedArgs lib call) w = .ok details w' →
      (g.allow tool details w').allowed = false →
      Handled call (g, w) (.declined tool details (g.allow tool details w').asked) declined
        ((g.allow tool details w').gate, (g.allow tool details w').world)
  | executed {g : ConfirmGate W} {w w' w'' : W} {tool : Tool W} {details : Bytes}
      {result : ToolResult} :
      findTool tools call.name = some tool →
      tool.confirmDetails (parsedArgs lib call) w = .ok details w' →
      (g.allow tool details w').allowed = true →
      tool.execute (parsedArgs lib call) (g.allow tool details w').world = .ok result w'' →
      Handled call (g, w)
        (.executed tool (parsedArgs lib call) details (g.allow tool details w').asked) result
        ((g.allow tool details w').gate, w'')

/-- The call was handled between its two callbacks, and its result appended. -/
def CallStep (s : LoopState W) (c : CallLog W) (s' : LoopState W) : Prop :=
  ∃ g w, Handled lib tools c.call (s.gate, ((cb.onToolCall.map (· c.call)).getD id) s.world)
      c.outcome c.result (g, w) ∧
    s' = ⟨s.history ++ [c.message], g, ((cb.onToolResult.map (· c.call c.result)).getD id) w,
      s.trace ++ c.events⟩

/-- The loop head lets the round run: there is no flag, or it reads false. -/
def HeadPassed (w w' : W) : Prop :=
  match cancel with
  | none => w' = w
  | some load => load w = (false, w')

/-- The round function was called once, on the history, and gave the result. -/
def RanRound (s : LoopState W) (result : ApiResult) (w : W) : Prop :=
  ∃ w', HeadPassed cancel s.world w' ∧ round s.history w' = .ok result w

/-- One round that asked for tools, and its calls in the order of the list. -/
structure RoundStep (s : LoopState W) (r : RoundLog W) (s' : LoopState W) : Prop where
  ok : r.result.ok = true
  calls : r.calls.map CallLog.call = r.result.toolCalls
  asked : r.result.toolCalls ≠ []
  ran : ∃ w, RanRound round cancel s r.result w ∧
    Exec.Labelled (CallStep lib tools cb)
      ⟨s.history ++ [toolRequest r.result.content r.result.toolCalls], s.gate, w,
        s.trace ++ (headEvents cancel ++ [.request s.history])⟩ r.calls s'

/-- How the loop ends, from the last loop head on. -/
inductive Ends (s : LoopState W) : Ending → LoopState W → Prop where
  | canceled {load : CancelFlag W} {w : W} :
      cancel = some load → load s.world = (true, w) →
      Ends s .canceled { s with world := w, trace := s.trace ++ [.cancel true] }
  | failed {result : ApiResult} {w : W} :
      RanRound round cancel s result w → result.ok = false →
      Ends s (.failed result)
        { s with world := w, trace := s.trace ++ (headEvents cancel ++ [.request s.history]) }
  | answered {result : ApiResult} {w : W} :
      RanRound round cancel s result w → result.ok = true → result.toolCalls = [] →
      Ends s (.answered result)
        { s with
          history := s.history ++ [Message.assistant result.content]
          world := w
          trace := s.trace ++ (headEvents cancel ++ [.request s.history]) }
  | exhausted : Ends s .exhausted s

end

/-! ## 3. The steps of the loop -/

section

variable {lib : JsonText} {round : ChatRound W} {tools : List (Tool W)} {cb : AgentCallbacks W}
  {cancel : Option (CancelFlag W)} {maxIters : Int}

/-- **What becomes of a call.** -/
theorem runCall_handled (call : ToolCall) (s : LoopState W) :
    Exec.Post (runCall lib tools call) s
      (fun tr t => ∃ outcome g w, Handled lib tools call (s.gate, s.world) outcome tr (g, w) ∧
        t = ⟨s.history, g, w, s.trace ++ outcome.events⟩) (fun _ _ => True) := by
  unfold runCall
  split
  · rename_i hnone
    refine ⟨.unknown, s.gate, s.world, Handled.unknown hnone, ?_⟩
    simp [CallOutcome.events]
  · rename_i tool hsome
    unfold onWorld gateAllow emit
    rw [Exec.post_bind, Exec.post_zoom]
    refine Exec.post_iff.mpr ⟨fun details w hdetails => ?_, fun _ _ _ => trivial⟩
    rw [Exec.post_bind, Exec.post_modifyGet]
    dsimp only
    split
    · rename_i hallowed
      rw [Exec.post_bind, Exec.post_modify, Exec.post_zoom]
      refine Exec.post_iff.mpr ⟨fun tr w' hexecute => ?_, fun _ _ _ => trivial⟩
      refine ⟨_, _, _, Handled.executed hsome hdetails hallowed hexecute, ?_⟩
      simp [CallOutcome.events]
    · rename_i hallowed
      exact ⟨_, _, _, Handled.declined hsome hdetails (by simpa using hallowed), rfl⟩

/-- **One call.** -/
theorem answerCall_step (call : ToolCall) (s : LoopState W) :
    Exec.Post (answerCall lib tools cb call) s
      (fun _ t => ∃ c : CallLog W, c.call = call ∧ CallStep lib tools cb s c t)
      (fun _ _ => True) := by
  unfold answerCall emit notify pushBack
  simp only [Exec.post_bind, Exec.post_modify]
  refine (runCall_handled call _).mono (fun tr t ht => ?_) (fun _ _ h => h)
  obtain ⟨outcome, g, w, hhandled, rfl⟩ := ht
  refine ⟨⟨call, outcome, tr⟩, rfl, g, w, hhandled, ?_⟩
  simp [CallLog.events, CallLog.message]

theorem cancelSeen_step (s : LoopState W) :
    Exec.Post (cancelSeen cancel) s
      (fun flag t =>
        (flag = true → ∃ load w, cancel = some load ∧ load s.world = (true, w) ∧
          t = { s with world := w, trace := s.trace ++ [.cancel true] }) ∧
        (flag = false → ∃ w, HeadPassed cancel s.world w ∧
          t = { s with world := w, trace := s.trace ++ headEvents cancel }))
      (fun _ _ => False) := by
  cases cancel with
  | none =>
    refine ⟨fun h => absurd h (by simp), fun _ => ⟨s.world, rfl, ?_⟩⟩
    simp [headEvents]
  | some load =>
    unfold cancelSeen emit
    rw [Exec.post_bind, Exec.post_modifyGet, Exec.post_bind, Exec.post_modify, Exec.post_pure]
    constructor
    · intro hflag
      exact ⟨load, (load s.world).2, rfl, Prod.ext hflag rfl, by rw [hflag]⟩
    · intro hflag
      refine ⟨(load s.world).2, Prod.ext hflag rfl, ?_⟩
      rw [hflag]
      rfl

/-- **One time round**: a round that asks for tools, or the end. -/
theorem iteration_step (s : LoopState W) :
    Exec.Post (iteration lib round tools cb cancel) s
      (fun r t => r.elim (∃ b : RoundLog W, RoundStep lib round tools cb cancel s b t)
        (fun res => ∃ ending, Ends round cancel s ending t ∧ ending ≠ .exhausted ∧
          ∀ maxIters, ending.result maxIters = res))
      (fun _ _ => True) := by
  unfold iteration
  rw [Exec.post_bind]
  refine (cancelSeen_step s).mono (fun flag t ht => ?_) (fun _ _ h => h.elim)
  obtain ⟨htrue, hfalse⟩ := ht
  split
  · rename_i hflag
    obtain ⟨load, w, hcancel, hload, rfl⟩ := htrue hflag
    exact ⟨.canceled, Ends.canceled hcancel hload, by simp, fun _ => rfl⟩
  rename_i hflag
  obtain ⟨w, hhead, rfl⟩ := hfalse (by simpa using hflag)
  unfold onWorld emit pushBack
  simp only [Exec.post_bind, Exec.post_get, Exec.post_modify, Exec.post_zoom]
  refine Exec.post_iff.mpr ⟨fun res w' hround => ?_, fun _ _ _ => trivial⟩
  have hran : RanRound round cancel s res w' := ⟨w, hhead, hround⟩
  split
  · -- the round failed
    rename_i hok
    refine ⟨.failed res, ?_, by simp, fun _ => rfl⟩
    rw [List.append_assoc]
    exact Ends.failed hran hok
  rename_i hok
  have hok : res.ok = true := by simpa using hok
  split
  · -- it was answered in text
    rename_i hcalls
    simp only [Exec.post_bind, Exec.post_modify, Exec.post_pure, Option.elim_some]
    refine ⟨.answered res, ?_, by simp, fun _ => rfl⟩
    rw [List.append_assoc]
    exact Ends.answered hran hok hcalls
  · -- it asks for tools, and the loop goes on behind the calls
    rename_i hcalls
    simp only [Exec.post_bind, Exec.post_modify]
    refine (Exec.post_forM_labelled (fun call u => answerCall_step call u) res.toolCalls _).mono
      (fun _ u hu => ?_) (fun _ _ h => h)
    obtain ⟨calls, hkeys, hu⟩ := hu
    rw [List.append_assoc] at hu
    exact ⟨⟨res, calls⟩, hok, hkeys, hcalls, w', hran, hu⟩

/-- **A whole run**: rounds that asked for tools, one after another, and the end.  The limit is used
up exactly if there have been as many rounds. -/
theorem runToolLoop_steps (s : LoopState W) :
    Exec.Post (runToolLoop lib round tools cb maxIters cancel) s
      (fun res s' => ∃ (rounds : List (RoundLog W)) (t : LoopState W) (ending : Ending),
        Exec.Labelled (RoundStep lib round tools cb cancel) s rounds t ∧
        Ends round cancel t ending s' ∧ res = ending.result maxIters ∧
        rounds.length + ending.requests ≤ maxIters.toNat ∧
        (ending = .exhausted ↔ rounds.length = maxIters.toNat))
      (fun _ _ => True) := by
  have hspent : ∀ t : LoopState W, Exec.Post (pure (limitResult maxIters) : Act W ApiResult) t
      (fun res u => ∃ ending, Ends round cancel t ending u ∧ ending = .exhausted ∧
        ending.result maxIters = res) (fun _ _ => True) := fun t =>
    (Exec.post_pure _ t _ _).mpr ⟨.exhausted, Ends.exhausted, rfl, rfl⟩
  refine (Exec.post_untilSome_labelled iteration_step hspent _ s).mono
    (fun res s' h => ?_) (fun _ _ h => h)
  obtain ⟨rounds, t, ending, hrounds, hend⟩ := h
  refine ⟨rounds, t, ending, hrounds, ?_⟩
  rcases hend with ⟨hlt, hend, hne, hres⟩ | ⟨heq, hend, rfl, hres⟩
  · have hone : ending.requests ≤ 1 := by cases ending <;> simp [Ending.requests]
    exact ⟨hend, (hres maxIters).symm, by omega, iff_of_false hne (by omega)⟩
  · exact ⟨hend, hres.symm, by simp [Ending.requests, heq], iff_of_true rfl heq⟩

end

/-! ## 4. The whole trace -/

/-- The histories that the requests among some events carry. -/
def requestsOf (events : List (Event W)) : List (List Message) :=
  events.filterMap fun
    | .request history => some history
    | _ => none

/-- What the round that ended the loop gave. -/
def Ending.Fits : Ending → Prop
  | .failed result => result.ok = false
  | .answered result => result.ok = true ∧ result.toolCalls = []
  | _ => True

/-- **All that a run of the loop did**, from `s` to the result and `s'`. -/
structure LoopTrace (lib : JsonText) (round : ChatRound W) (tools : List (Tool W))
    (cb : AgentCallbacks W) (cancel : Option (CancelFlag W)) (maxIters : Int) (s : LoopState W)
    (res : ApiResult) (s' : LoopState W) (rounds : List (RoundLog W)) (ending : Ending)
    (events : List (Event W)) : Prop where
  /-- The rounds were run one after another, and then the loop ended. -/
  steps : ∃ t, Exec.Labelled (RoundStep lib round tools cb cancel) s rounds t ∧
    Ends round cancel t ending s'
  trace : s'.trace = s.trace ++ events
  /-- The visible calls are those of the rounds, in order, and of the end. -/
  events_eq : events = roundsEvents cancel s.history rounds ++
    ending.events cancel (s.history ++ rounds.flatMap RoundLog.messages)
  /-- At most `maxIters` requests, each with the messages of all rounds before it. -/
  requests : ∃ n : Nat, (n : Int) ≤ maxIters ∧ requestsOf events =
    (List.range n).map fun k => s.history ++ (rounds.take k).flatMap RoundLog.messages
  /-- The limit is used up exactly if as many rounds asked for tools. -/
  limit : ending = .exhausted ↔ rounds.length = maxIters.toNat
  /-- Nothing happens after a flag that read true. -/
  cancel : ∀ before after, events = before ++ .cancel true :: after → after = []
  /-- Each round returned ok with calls, and these are handled in the order of the list. -/
  calls : ∀ r ∈ rounds, r.result.ok = true ∧ r.result.toolCalls ≠ [] ∧
    r.calls.map CallLog.call = r.result.toolCalls
  /-- A tool is executed only where the name of the call is its own and the gate allowed it. -/
  handled : ∀ r ∈ rounds, ∀ c ∈ r.calls, ∃ before after,
    Handled lib tools c.call before c.outcome c.result after
  /-- The messages of the rounds are appended, and behind them the plain answer if there is one. -/
  history : s'.history = s.history ++ (rounds.flatMap RoundLog.messages ++ ending.messages)
  ended : ending.Fits
  result : res = ending.result maxIters
  ok : res.ok = true ↔ ∃ answer, ending = .answered answer

section

variable {lib : JsonText} {round : ChatRound W} {tools : List (Tool W)} {cb : AgentCallbacks W}
  {cancel : Option (CancelFlag W)} {maxIters : Int} {s s' t : LoopState W} {r : RoundLog W}
  {rounds : List (RoundLog W)} {ending : Ending}

/-! ### What the steps append -/

theorem RoundStep.history_eq (h : RoundStep lib round tools cb cancel s r t) :
    t.history = s.history ++ r.messages := by
  obtain ⟨w, -, hcalls⟩ := h.ran
  have hstep : ∀ (u : LoopState W) (c : CallLog W) (v : LoopState W),
      CallStep lib tools cb u c v → v.history = u.history ++ [c.message] := by
    rintro u c v ⟨g, w, -, rfl⟩
    rfl
  rw [hcalls.appends LoopState.history _ hstep, ← List.map_eq_flatMap, List.append_assoc]
  rfl

theorem RoundStep.trace_eq (h : RoundStep lib round tools cb cancel s r t) :
    t.trace = s.trace ++ r.events cancel s.history := by
  obtain ⟨w, -, hcalls⟩ := h.ran
  have hstep : ∀ (u : LoopState W) (c : CallLog W) (v : LoopState W),
      CallStep lib tools cb u c v → v.trace = u.trace ++ c.events := by
    rintro u c v ⟨g, w, -, rfl⟩
    rfl
  rw [hcalls.appends LoopState.trace _ hstep]
  simp [RoundLog.events]

theorem RoundStep.handled (h : RoundStep lib round tools cb cancel s r t) :
    ∀ c ∈ r.calls, ∃ before after, Handled lib tools c.call before c.outcome c.result after := by
  obtain ⟨w, -, hcalls⟩ := h.ran
  refine hcalls.forall_mem ?_
  rintro u c v ⟨g, w, hc, -⟩
  exact ⟨_, _, hc⟩

theorem rounds_history (h : Exec.Labelled (RoundStep lib round tools cb cancel) s rounds t) :
    t.history = s.history ++ rounds.flatMap RoundLog.messages :=
  h.appends LoopState.history _ fun _ _ _ hstep => hstep.history_eq

/-- The requests of later rounds carry what earlier ones appended. -/
theorem rounds_trace (h : Exec.Labelled (RoundStep lib round tools cb cancel) s rounds t) :
    t.trace = s.trace ++ roundsEvents cancel s.history rounds := by
  induction h with
  | nil s => simp [roundsEvents]
  | cons hr _ ih => rw [ih, hr.trace_eq, hr.history_eq, roundsEvents, List.append_assoc]

theorem Ends.appends (h : Ends round cancel t ending s') :
    s'.history = t.history ++ ending.messages ∧
      s'.trace = t.trace ++ ending.events cancel t.history ∧ ending.Fits := by
  cases h with
  | canceled hcancel hload => simp [Ending.messages, Ending.events, Ending.Fits]
  | failed hran hok => simp [Ending.messages, Ending.events, Ending.Fits, hok]
  | answered hran hok hcalls => simp [Ending.messages, Ending.events, Ending.Fits, hok, hcalls]
  | exhausted => simp [Ending.messages, Ending.events, Ending.Fits]

/-! ### The requests -/

theorem requestsOf_append (events events' : List (Event W)) :
    requestsOf (events ++ events') = requestsOf events ++ requestsOf events' :=
  List.filterMap_append

theorem requestsOf_headEvents (cancel : Option (CancelFlag W)) :
    requestsOf (headEvents cancel) = [] := by
  cases cancel <;> rfl

theorem requestsOf_call (c : CallLog W) : requestsOf c.events = [] := by
  obtain ⟨call, outcome, result⟩ := c
  cases outcome with
  | unknown => rfl
  | declined tool details asked => cases asked <;> rfl
  | executed tool args details asked => cases asked <;> rfl

/-- A round makes one request. -/
theorem requestsOf_round (cancel : Option (CancelFlag W)) (history : List Message)
    (r : RoundLog W) : requestsOf (r.events cancel history) = [history] := by
  have hcalls : requestsOf (r.calls.flatMap CallLog.events) = [] := by
    refine List.filterMap_eq_nil_iff.mpr fun e he => ?_
    obtain ⟨c, -, hc⟩ := List.mem_flatMap.mp he
    exact List.filterMap_eq_nil_iff.mp (requestsOf_call c) e hc
  have hrequest : requestsOf (Event.request history :: r.calls.flatMap CallLog.events) =
      history :: requestsOf (r.calls.flatMap CallLog.events) := rfl
  rw [RoundLog.events, requestsOf_append, requestsOf_headEvents, hrequest, hcalls]
  rfl

/-- The k-th request carries the messages of the rounds before it. -/
theorem requestsOf_rounds (cancel : Option (CancelFlag W)) (history : List Message)
    (rounds : List (RoundLog W)) :
    requestsOf (roundsEvents cancel history rounds) = (List.range rounds.length).map fun k =>
      history ++ (rounds.take k).flatMap RoundLog.messages := by
  induction rounds generalizing history with
  | nil => rfl
  | cons r rounds ih =>
    rw [roundsEvents, requestsOf_append, requestsOf_round, ih, List.length_cons,
      List.range_succ_eq_map, List.map_cons, List.map_map]
    simp

theorem requestsOf_run (cancel : Option (CancelFlag W)) (history : List Message)
    (rounds : List (RoundLog W)) (ending : Ending) :
    requestsOf (roundsEvents cancel history rounds ++
      ending.events cancel (history ++ rounds.flatMap RoundLog.messages)) =
      (List.range (rounds.length + ending.requests)).map fun k =>
        history ++ (rounds.take k).flatMap RoundLog.messages := by
  have hlast : ∀ h : List Message,
      requestsOf (headEvents cancel ++ [Event.request h]) = [h] := fun h => by
    rw [requestsOf_append, requestsOf_headEvents]
    rfl
  rw [requestsOf_append, requestsOf_rounds]
  cases ending with
  | canceled | exhausted => simp [Ending.events, Ending.requests, requestsOf]
  | failed result | answered result =>
    simp only [Ending.events, Ending.requests, hlast, List.range_succ, List.map_append,
      List.map_singleton, List.take_length]

/-! ### The cancel flag -/

theorem cancel_notMem_headEvents (cancel : Option (CancelFlag W)) :
    Event.cancel true ∉ headEvents cancel := by
  cases cancel <;> simp [headEvents]

theorem cancel_notMem_rounds (cancel : Option (CancelFlag W)) (history : List Message)
    (rounds : List (RoundLog W)) : Event.cancel true ∉ roundsEvents cancel history rounds := by
  have hcall : ∀ c : CallLog W, Event.cancel true ∉ c.events := by
    rintro ⟨call, outcome, result⟩
    cases outcome <;> simp [CallLog.events, CallOutcome.events]
  induction rounds generalizing history with
  | nil => simp [roundsEvents]
  | cons r rounds ih =>
    have hround : Event.cancel true ∉ r.events cancel history := by
      simp only [RoundLog.events, List.mem_append, List.mem_cons, List.mem_flatMap]
      rintro (h | h | ⟨c, -, hc⟩)
      · exact cancel_notMem_headEvents cancel h
      · cases h
      · exact hcall c hc
    rw [roundsEvents]
    exact fun h => (List.mem_append.mp h).elim hround (ih _)

/-- **A flag that read true is the last that happened.** -/
theorem cancel_last (cancel : Option (CancelFlag W)) (history : List Message)
    (rounds : List (RoundLog W)) (ending : Ending) {before after : List (Event W)}
    (h : roundsEvents cancel history rounds ++
      ending.events cancel (history ++ rounds.flatMap RoundLog.messages) =
        before ++ .cancel true :: after) : after = [] := by
  by_contra hne
  -- all but the last event is a round, or what a head that goes on shows
  have hmem : Event.cancel true ∈ (roundsEvents cancel history rounds ++
      ending.events cancel (history ++ rounds.flatMap RoundLog.messages)).dropLast := by
    rw [h, List.dropLast_append_of_ne_nil (by simp), List.dropLast_cons_of_ne_nil hne]
    simp
  have hinit : ∀ e ∈ (ending.events cancel (history ++
      rounds.flatMap RoundLog.messages)).dropLast, e ∈ headEvents cancel := by
    cases ending <;> simp [Ending.events]
  have hrounds := cancel_notMem_rounds cancel history rounds
  by_cases hnil : ending.events cancel (history ++ rounds.flatMap RoundLog.messages) = []
  · rw [hnil, List.append_nil] at hmem
    exact hrounds (List.mem_of_mem_dropLast hmem)
  · rw [List.dropLast_append_of_ne_nil hnil] at hmem
    rcases List.mem_append.mp hmem with h | h
    · exact hrounds h
    · exact cancel_notMem_headEvents cancel (hinit _ h)

/-- **The exact trace of the tool loop.**  Where rounds and tools do not raise, the loop returns,
and all that it did is the trace of some rounds and an ending. -/
theorem runToolLoop_trace (hround : ∀ h w, Exec.Returns (round h) w)
    (htools : ∀ t ∈ tools, t.Total) (hmax : 1 ≤ maxIters) (s : LoopState W) :
    ∃ res s' rounds ending events,
      runToolLoop lib round tools cb maxIters cancel s = .ok res s' ∧
        LoopTrace lib round tools cb cancel maxIters s res s' rounds ending events := by
  obtain ⟨res, s', hrun⟩ :=
    Exec.returns_iff.mp (runToolLoop_returns lib hround htools cb maxIters cancel s)
  obtain ⟨rounds, t, ending, hrounds, hend, hres, hcount, hlimit⟩ :=
    (runToolLoop_steps s).of_ok hrun
  obtain ⟨hhistory, htrace, hfits⟩ := hend.appends
  refine ⟨res, s', rounds, ending, _, hrun,
    { steps := ⟨t, hrounds, hend⟩
      trace := ?_
      events_eq := rfl
      requests := ⟨_, ?_, requestsOf_run cancel s.history rounds ending⟩
      limit := hlimit
      cancel := fun before after h => cancel_last cancel s.history rounds ending h
      calls := hrounds.forall_mem fun _ _ _ hr => ⟨hr.ok, hr.asked, hr.calls⟩
      handled := hrounds.forall_mem fun _ _ _ hr => hr.handled
      history := ?_
      ended := hfits
      result := hres
      ok := ?_ }⟩
  · rw [htrace, rounds_trace hrounds, rounds_history hrounds, List.append_assoc]
  · omega
  · rw [hhistory, rounds_history hrounds, List.append_assoc]
  · rw [hres]
    cases ending with
    | canceled => simp [Ending.result, canceledResult]
    | failed result =>
      have hfailed : result.ok = false := hfits
      simp [Ending.result, hfailed]
    | answered result =>
      have hanswered : result.ok = true := hfits.1
      simp [Ending.result, hanswered]
    | exhausted => simp [Ending.result, limitResult]

/-- A tool that says the same whatever it is called with. -/
def echoTool : Tool Nat where
  name := bytes "echo"
  schema := .object []
  requiresConfirmation := false
  confirmDetails _ := pure []
  execute _ := pure ⟨true, bytes "hi"⟩

/-- The first round asks for the tool, and later ones answer. -/
def echoRound : ChatRound Nat := fun _ => do
  let n ← modifyGet fun n => (n, n + 1)
  return if n = 0 then
    { ok := true, toolCalls := [{ id := bytes "1", name := bytes "echo" }] }
  else { ok := true, content := bytes "done" }

theorem runToolLoop_trace_echo :
    ∃ res s' rounds ending events,
      runToolLoop JsonText.empty echoRound [echoTool] {} 2 none ⟨[], {}, 0, []⟩ = .ok res s' ∧
        LoopTrace JsonText.empty echoRound [echoTool] {} none 2 ⟨[], {}, 0, []⟩ res s' rounds ending
          events := by
  have hround : ∀ h w, Exec.Returns (echoRound h) w := fun h w => by
    unfold echoRound
    exact trivial
  have htools : ∀ t ∈ [echoTool], t.Total := fun t ht => by
    rw [List.mem_singleton.mp ht]
    exact fun args w => ⟨trivial, trivial⟩
  exact runToolLoop_trace hround htools (by decide) _

end

end SimpleCoder

/-
# The tool-calling loop

`run_tool_loop` requests a completion; while the assistant answers with tool calls it runs each
of them, appends the results to the history and requests again.  It ends with a plain answer, a
failed or cancelled request, or when the iteration limit is used up.

The loop runs over `LoopState`: the history and the gate, which it changes in place, the world
that rounds, tools, callbacks, the user and the cancel flag live in, and a trace of the visible
calls it makes.  Nothing reads the trace; it is there to state properties of runs.

§2 to §4 say what one step, one call and one iteration can do to the state (`Frame`,
`answerCall_post`, `iteration_post`), and `runToolLoop_post` what a whole run can do: it only ever
appends, complete groups of a request for tools and its answers, and at most one final answer.
§6 reduces what a run may change to what its steps may (`StepsWithin`), and §7 says when it returns.
-/
import SimpleCoder.Agent.Confirm
import SimpleCoder.Llm.ApiClient

namespace SimpleCoder

/-! ## 1. The loop -/

/-- `AgentCallbacks`.  Each may be empty. -/
structure AgentCallbacks (W : Type) where
  onContent : Option (Bytes → W → W) := none
  onReasoning : Option (Bytes → W → W) := none
  onToolCall : Option (ToolCall → W → W) := none
  onToolResult : Option (ToolCall → ToolResult → W → W) := none

/-- `ChatRound`: one chat round against the given history. -/
abbrev ChatRound (W : Type) := List Message → EStateM Exn W ApiResult

/-- A visible call of the loop. -/
inductive Event (W : Type) where
  | cancel (flag : Bool)
  | request (history : List Message)
  | toolCall (call : ToolCall)
  | confirm (tool : Tool W) (details : Bytes) (choice : ConfirmChoice)
  | execute (tool : Tool W) (args : Json) (details : Bytes)
  | toolResult (call : ToolCall) (result : ToolResult)

/-- What the loop runs over. -/
structure LoopState (W : Type) where
  history : List Message
  gate : ConfirmGate W
  world : W
  trace : List (Event W) := []

variable {W : Type}

abbrev Act (W α : Type) := EStateM Exn (LoopState W) α

/-- A step of the world. -/
def onWorld {α : Type} (m : EStateM Exn W α) : Act W α :=
  Exec.zoom LoopState.world (fun w s => { s with world := w }) m

def emit (e : Event W) : Act W PUnit := modify fun s => { s with trace := s.trace ++ [e] }

/-- `history.push_back`. -/
def pushBack (m : Message) : Act W PUnit := modify fun s => { s with history := s.history ++ [m] }

/-- Call a callback, if there is one. -/
def notify (cb : Option (W → W)) : Act W PUnit :=
  modify fun s => { s with world := (cb.getD id) s.world }

/-- `cancel && cancel->load()`. -/
def cancelSeen : Option (CancelFlag W) → Act W Bool
  | none => pure false
  | some load => do
    let flag ← modifyGet fun s => ((load s.world).1, { s with world := (load s.world).2 })
    emit (.cancel flag)
    return flag

/-- `gate.allow(tool, details)`. -/
def gateAllow (tool : Tool W) (details : Bytes) : Act W Bool :=
  modifyGet fun s =>
    let v := s.gate.allow tool details s.world
    (v.allowed, { s with
      gate := v.gate
      world := v.world
      trace := s.trace ++ (v.asked.map (Event.confirm tool details)).toList })

/-- `find_tool`: the first tool of that name. -/
def findTool (tools : List (Tool W)) (name : Bytes) : Option (Tool W) :=
  tools.find? fun t => t.name = name

/-- The arguments of a call: its text parsed, or the empty object if it is not JSON. -/
def parsedArgs (lib : JsonText) (call : ToolCall) : Json :=
  (lib.parse call.arguments).getD (.object [])

def unknownTool (name : Bytes) : ToolResult :=
  ⟨false, bytes "error: unknown tool '" ++ name ++ bytes "'"⟩

def declined : ToolResult := ⟨false, bytes "User declined to run this tool."⟩

/-- Run one call: look the tool up, parse the arguments, ask the gate, execute. -/
def runCall (lib : JsonText) (tools : List (Tool W)) (call : ToolCall) : Act W ToolResult :=
  match findTool tools call.name with
  | none => pure (unknownTool call.name)
  | some tool => do
    let args := parsedArgs lib call
    let details ← onWorld (tool.confirmDetails args)
    if ← gateAllow tool details then
      emit (.execute tool args details)
      onWorld (tool.execute args)
    else
      return declined

/-- The body of the inner loop: run one call and append its result. -/
def answerCall (lib : JsonText) (tools : List (Tool W)) (cb : AgentCallbacks W)
    (call : ToolCall) : Act W PUnit := do
  emit (.toolCall call)
  notify (cb.onToolCall.map (· call))
  let tr ← runCall lib tools call
  emit (.toolResult call tr)
  notify (cb.onToolResult.map (· call tr))
  pushBack (Message.toolResult call.id tr.output)

/-- The assistant message that records a request for tools. -/
def toolRequest (content : Bytes) (calls : List ToolCall) : Message :=
  { role := .assistant, content := content, toolCalls := calls }

def canceledResult : ApiResult := { canceled := true, error := bytes "request canceled" }

def limitResult (maxIters : Int) : ApiResult :=
  { error := bytes "tool loop exceeded " ++ decimal maxIters ++ bytes " iterations" }

/-- The body of the outer loop; `none` is to go round again. -/
def iteration (lib : JsonText) (round : ChatRound W) (tools : List (Tool W))
    (cb : AgentCallbacks W) (cancel : Option (CancelFlag W)) : Act W (Option ApiResult) := do
  if ← cancelSeen cancel then
    return some canceledResult
  else
    let history := (← get).history
    emit (.request history)
    let res ← onWorld (round history)
    if res.ok = false then
      return some res
    else if res.toolCalls = [] then
      pushBack (Message.assistant res.content)
      return some res
    else
      pushBack (toolRequest res.content res.toolCalls)
      forM res.toolCalls (answerCall lib tools cb)
      return none

/-- `run_tool_loop`. -/
def runToolLoop (lib : JsonText) (round : ChatRound W) (tools : List (Tool W))
    (cb : AgentCallbacks W) (maxIters : Int) (cancel : Option (CancelFlag W)) :
    Act W ApiResult :=
  Exec.untilSome (iteration lib round tools cb cancel) (pure (limitResult maxIters))
    maxIters.toNat

/-! ## 2. What a step leaves alone -/

/-- The gate `g'` is `g` with at most more tools remembered. -/
structure GateLe (g g' : ConfirmGate W) : Prop where
  confirmer : g'.confirmer = g.confirmer
  policy : g'.policy = g.policy
  always : g.alwaysAllowed ⊆ g'.alwaysAllowed

theorem GateLe.refl (g : ConfirmGate W) : GateLe g g := ⟨rfl, rfl, Finset.Subset.refl _⟩

theorem GateLe.trans {g g' g'' : ConfirmGate W} (h : GateLe g g') (h' : GateLe g' g'') :
    GateLe g g'' :=
  ⟨h'.confirmer.trans h.confirmer, h'.policy.trans h.policy, h.always.trans h'.always⟩

/-- The gate after a call is the gate before it, with at most one more tool remembered. -/
theorem ConfirmGate.allow_gateLe (g : ConfirmGate W) (tool : Tool W) (details : Bytes) (w : W) :
    GateLe g (g.allow tool details w).gate := by
  rw [(g.allow_spec tool details w).gate]
  refine ⟨rfl, rfl, ?_⟩
  dsimp only
  split
  · exact Finset.subset_insert _ _
  · exact Finset.Subset.refl _

/-- A step that appends no message and makes no request: the history is untouched, the gate
remembers at most more, the trace grows by events that are not requests. -/
structure Frame (s s' : LoopState W) : Prop where
  history : s'.history = s.history
  gate : GateLe s.gate s'.gate
  trace : ∃ new, s'.trace = s.trace ++ new ∧ ∀ h, Event.request h ∉ new

theorem Frame.refl (s : LoopState W) : Frame s s :=
  ⟨rfl, GateLe.refl _, [], by simp, by simp⟩

theorem Frame.trans {s t u : LoopState W} (h : Frame s t) (h' : Frame t u) : Frame s u := by
  obtain ⟨n1, hn1, hr1⟩ := h.trace
  obtain ⟨n2, hn2, hr2⟩ := h'.trace
  refine ⟨h'.history.trans h.history, h.gate.trans h'.gate, n1 ++ n2, ?_, ?_⟩
  · rw [hn2, hn1, List.append_assoc]
  · intro x hx
    exact (List.mem_append.mp hx).elim (hr1 x) (hr2 x)

theorem Frame.world (s : LoopState W) (w : W) : Frame s { s with world := w } :=
  ⟨rfl, GateLe.refl _, [], by simp, by simp⟩

theorem Frame.event (s : LoopState W) {e : Event W} (he : ∀ h, e ≠ .request h) :
    Frame s { s with trace := s.trace ++ [e] } :=
  ⟨rfl, GateLe.refl _, [e], rfl, fun h => by simpa using (he h).symm⟩

theorem Frame.gateAllow (s : LoopState W) (tool : Tool W) (details : Bytes) :
    Frame s { s with
      gate := (s.gate.allow tool details s.world).gate
      world := (s.gate.allow tool details s.world).world
      trace := s.trace ++ ((s.gate.allow tool details s.world).asked.map
        (Event.confirm tool details)).toList } :=
  ⟨rfl, s.gate.allow_gateLe tool details s.world, _, rfl, fun h => by simp⟩

/-- A step of the world is framed, whether it returns or raises. -/
theorem onWorld_post {α : Type} (m : EStateM Exn W α) (s : LoopState W) :
    Exec.Post (onWorld m) s (fun _ s' => Frame s s') (fun _ s' => Frame s s') := by
  rw [onWorld, Exec.post_zoom]
  exact Exec.post_iff.mpr ⟨fun _ w _ => Frame.world s w, fun _ w _ => Frame.world s w⟩

theorem cancelSeen_post (cancel : Option (CancelFlag W)) (s : LoopState W) :
    Exec.Post (cancelSeen cancel) s (fun _ s' => Frame s s') (fun _ _ => False) := by
  cases cancel with
  | none => exact Frame.refl s
  | some load => exact (Frame.world s (load s.world).2).trans (Frame.event _ (by simp))

/-- **What running one call leaves alone**: everything but the gate's memory, the world and the
trace, on every path and also when a tool raises. -/
theorem runCall_post (lib : JsonText) (tools : List (Tool W)) (call : ToolCall)
    (s : LoopState W) :
    Exec.Post (runCall lib tools call) s (fun _ s' => Frame s s') (fun _ s' => Frame s s') := by
  unfold runCall
  split
  · exact Frame.refl s
  · rename_i tool _
    rw [Exec.post_bind]
    refine (onWorld_post _ s).mono (fun details s1 h1 => ?_) (fun _ _ h => h)
    rw [Exec.post_bind]
    unfold gateAllow
    rw [Exec.post_modifyGet]
    have h2 := h1.trans (Frame.gateAllow s1 tool details)
    dsimp only
    split
    · rw [Exec.post_bind]
      unfold emit
      rw [Exec.post_modify]
      have h3 := h2.trans (Frame.event _ (e := Event.execute tool (parsedArgs lib call) details)
        (by simp))
      exact (onWorld_post _ _).mono (fun _ _ h => h3.trans h) (fun _ _ h => h3.trans h)
    · exact h2

/-! ## 3. One call: its result is appended -/

/-- A step that appends the messages `ms` and is framed otherwise. -/
def Appends (ms : List Message) (s s' : LoopState W) : Prop :=
  Frame { s with history := s.history ++ ms } s'

theorem Frame.appends {s t u : LoopState W} {ms : List Message} (h : Frame s t)
    (h' : Appends ms t u) : Appends ms s u := by
  refine Frame.trans ?_ h'
  exact ⟨by rw [h.history], h.gate, h.trace⟩

theorem Appends.trans {s t u : LoopState W} {ms ms' : List Message} (h : Appends ms s t)
    (h' : Appends ms' t u) : Appends (ms ++ ms') s u := by
  refine Frame.trans ?_ h'
  refine ⟨?_, h.gate, h.trace⟩
  change t.history ++ ms' = s.history ++ (ms ++ ms')
  rw [h.history, List.append_assoc]

/-- **One call is answered once.**  Whatever the call is, if `answerCall` returns it has appended
exactly one message, the tool result for the id of the call. -/
theorem answerCall_post (lib : JsonText) (tools : List (Tool W)) (cb : AgentCallbacks W)
    (call : ToolCall) (s : LoopState W) :
    Exec.Post (answerCall lib tools cb call) s
      (fun _ s' => ∃ output, Appends [Message.toolResult call.id output] s s')
      (fun _ s' => Frame s s') := by
  unfold answerCall emit notify pushBack
  simp only [Exec.post_bind, Exec.post_modify]
  have h1 := (Frame.event s (e := Event.toolCall call) (by simp)).trans
    (Frame.world _ ((cb.onToolCall.map (· call)).getD id s.world))
  refine (runCall_post lib tools call _).mono (fun tr s1 h => ?_) (fun _ _ h => h1.trans h)
  have h2 := (h1.trans h).trans ((Frame.event s1 (e := Event.toolResult call tr) (by simp)).trans
    (Frame.world _ ((cb.onToolResult.map (· call tr)).getD id s1.world)))
  exact ⟨tr.output, h2.appends (Frame.refl _)⟩

/-! ## 4. One iteration: a complete group, or the end -/

/-- A request for tools followed by one result for each of its calls, in order. -/
inductive IsGroup : List Message → Prop where
  | mk (content : Bytes) {calls : List ToolCall} {outputs : List Bytes} :
      calls ≠ [] → outputs.length = calls.length →
      IsGroup (toolRequest content calls ::
        List.zipWith (fun c output => Message.toolResult c.id output) calls outputs)

/-- The inner loop answers the calls it is given, each once and in order. -/
theorem answerCalls_post (lib : JsonText) (tools : List (Tool W)) (cb : AgentCallbacks W)
    (calls : List ToolCall) (s : LoopState W) :
    Exec.Post (forM calls (answerCall lib tools cb)) s
      (fun _ s' => ∃ outputs : List Bytes, outputs.length = calls.length ∧
        Appends (List.zipWith (fun c output => Message.toolResult c.id output) calls outputs)
          s s')
      (fun _ s' => ∃ ms, Appends ms s s') := by
  -- the invariant: the calls already visited have been answered, in order
  have hloop := Exec.post_forM (f := answerCall lib tools cb)
    (I := fun rest t => ∃ visited outputs, visited ++ rest = calls ∧
      outputs.length = visited.length ∧
      Appends (List.zipWith (fun c output => Message.toolResult c.id output) visited outputs) s t)
    (E := fun _ t => ∃ ms, Appends ms s t)
    (fun call rest t h => by
      obtain ⟨visited, outputs, hv, hlen, ht⟩ := h
      refine (answerCall_post lib tools cb call t).mono (fun _ u hu => ?_) (fun _ u hu => ?_)
      · obtain ⟨output, hu⟩ := hu
        refine ⟨visited ++ [call], outputs ++ [output], by simpa using hv, by simp [hlen], ?_⟩
        rw [List.zipWith_append hlen.symm]
        exact ht.trans hu
      · exact ⟨_, Frame.trans ht hu⟩)
    calls s ⟨[], [], rfl, rfl, by simpa [Appends] using Frame.refl s⟩
  refine hloop.mono (fun _ t ht => ?_) (fun _ _ h => h)
  obtain ⟨visited, outputs, hv, hlen, ht⟩ := ht
  rw [List.append_nil] at hv
  subst hv
  exact ⟨outputs, hlen, ht⟩

/-- What happened to the state between the start `s` of a run and a later point `s'` of it: the
messages `ms` were appended, the gate remembers at most more, and every history handed to a
round was the starting history with complete groups behind it. -/
structure Progress (s s' : LoopState W) (ms : List Message) : Prop where
  history : s'.history = s.history ++ ms
  gate : GateLe s.gate s'.gate
  trace : ∃ new, s'.trace = s.trace ++ new ∧ ∀ h, Event.request h ∈ new →
    ∃ groups : List (List Message), (∀ g ∈ groups, IsGroup g) ∧
      h = s.history ++ groups.flatten

theorem Progress.refl (s : LoopState W) : Progress s s [] :=
  ⟨by simp, GateLe.refl _, [], by simp, by simp⟩

theorem Progress.appends {s t u : LoopState W} {ms ms' : List Message} (h : Progress s t ms)
    (h' : Appends ms' t u) : Progress s u (ms ++ ms') := by
  obtain ⟨n1, hn1, hr1⟩ := h.trace
  obtain ⟨n2, hn2, hr2⟩ := h'.trace
  refine ⟨?_, h.gate.trans h'.gate, n1 ++ n2, ?_, ?_⟩
  · rw [h'.history]
    change t.history ++ ms' = _
    rw [h.history, List.append_assoc]
  · rw [hn2]
    change t.trace ++ n2 = _
    rw [hn1, List.append_assoc]
  · intro x hx
    rcases List.mem_append.mp hx with hx | hx
    · exact hr1 x hx
    · exact absurd hx (hr2 x)

theorem Progress.frame {s t u : LoopState W} {ms : List Message} (h : Progress s t ms)
    (h' : Frame t u) : Progress s u ms := by
  have ha : Appends [] t u := by simpa [Appends] using h'
  simpa using h.appends ha

/-- The state at a loop head: only complete groups have been appended. -/
def AtHead (s s' : LoopState W) : Prop :=
  ∃ groups : List (List Message), (∀ g ∈ groups, IsGroup g) ∧ Progress s s' groups.flatten

/-- How a run that returned `res` has changed the state: complete groups, and behind them the
final answer if the run succeeded. -/
def Finished (s : LoopState W) (res : ApiResult) (s' : LoopState W) : Prop :=
  ∃ groups : List (List Message), (∀ g ∈ groups, IsGroup g) ∧
    Progress s s' (groups.flatten ++ if res.ok then [Message.assistant res.content] else [])

/-- How a run that raised has changed the state. -/
def Raised (s s' : LoopState W) : Prop := ∃ ms, Progress s s' ms

theorem AtHead.finished {s s' : LoopState W} {res : ApiResult} (h : AtHead s s')
    (hok : res.ok = false) : Finished s res s' := by
  obtain ⟨groups, hg, hp⟩ := h
  exact ⟨groups, hg, by simpa [hok] using hp⟩

/-- Making a request at a loop head. -/
theorem AtHead.request {s t : LoopState W} (h : AtHead s t) :
    AtHead s { t with trace := t.trace ++ [.request t.history] } := by
  obtain ⟨groups, hg, hp⟩ := h
  obtain ⟨new, hn, hr⟩ := hp.trace
  refine ⟨groups, hg, hp.history, hp.gate, new ++ [.request t.history], ?_, ?_⟩
  · dsimp only
    rw [hn, List.append_assoc]
  · intro x hx
    rcases List.mem_append.mp hx with hx | hx
    · exact hr x hx
    · have hxt : x = t.history := by simpa using hx
      exact ⟨groups, hg, by rw [hxt, hp.history]⟩

/-- **One iteration.**  From a loop head it comes back to a loop head, or ends the loop: on
cancellation and on a failed round with nothing appended, on a plain answer with that answer. -/
theorem iteration_post (lib : JsonText) (round : ChatRound W) (tools : List (Tool W))
    (cb : AgentCallbacks W) (cancel : Option (CancelFlag W)) (s t : LoopState W)
    (h : AtHead s t) :
    Exec.Post (iteration lib round tools cb cancel) t
      (fun r u => r.elim (AtHead s u) (fun res => Finished s res u)) (fun _ u => Raised s u) := by
  unfold iteration
  rw [Exec.post_bind]
  refine (cancelSeen_post cancel t).mono (fun flag t1 ht1 => ?_) (fun _ _ h => h.elim)
  have h1 : AtHead s t1 := by
    obtain ⟨groups, hg, hp⟩ := h
    exact ⟨groups, hg, hp.frame ht1⟩
  split
  · -- cancelled before the round
    exact h1.finished rfl
  simp only [Exec.post_bind, Exec.post_get, emit, Exec.post_modify]
  obtain ⟨groups, hg, hp⟩ := h1.request
  refine (onWorld_post _ _).mono (fun res t2 ht2 => ?_) (fun _ t2 ht2 => ⟨_, hp.frame ht2⟩)
  have hp2 := hp.frame ht2
  split
  · rename_i hok
    exact AtHead.finished ⟨groups, hg, hp2⟩ hok
  rename_i hok
  split
  · simp only [Exec.post_bind, pushBack, Exec.post_modify, Exec.post_pure, Option.elim_some]
    refine ⟨groups, hg, ?_⟩
    rw [if_pos (by simpa using hok)]
    exact hp2.appends (Frame.refl _)
  · rename_i hcalls
    simp only [Exec.post_bind, pushBack, Exec.post_modify]
    have hp3 : Progress s _ (groups.flatten ++ [toolRequest res.content res.toolCalls]) :=
      hp2.appends (Frame.refl _)
    -- the request and one result for each call make a group, unless a call raises
    refine (answerCalls_post lib tools cb res.toolCalls _).mono (fun _ u hu => ?_)
      (fun _ u hu => ?_)
    · obtain ⟨outputs, hlen, hu⟩ := hu
      refine ⟨groups ++ [toolRequest res.content res.toolCalls ::
        List.zipWith (fun c output => Message.toolResult c.id output) res.toolCalls outputs],
        fun g hgm => ?_, ?_⟩
      · rcases List.mem_append.mp hgm with hgm | hgm
        · exact hg g hgm
        · rw [List.mem_singleton.mp hgm]
          exact IsGroup.mk res.content hcalls hlen
      · rw [List.flatten_append, List.flatten_singleton, ← List.singleton_append,
          ← List.append_assoc]
        exact hp3.appends hu
    · obtain ⟨ms, hu⟩ := hu
      exact ⟨_, hp3.appends hu⟩

/-! ## 5. A whole run -/

/-- **What a run of the loop can do.**  It appends complete groups and, exactly when it succeeds,
the final answer behind them; every request it makes carries the starting history and complete
groups; the gate at most remembers more tools. -/
theorem runToolLoop_post (lib : JsonText) (round : ChatRound W) (tools : List (Tool W))
    (cb : AgentCallbacks W) (maxIters : Int) (cancel : Option (CancelFlag W))
    (s : LoopState W) :
    Exec.Post (runToolLoop lib round tools cb maxIters cancel) s
      (fun res u => Finished s res u) (fun _ u => Raised s u) :=
  Exec.post_untilSome (I := AtHead s)
    (fun t => iteration_post lib round tools cb cancel s t)
    (fun t ht => (Exec.post_pure (limitResult maxIters) t _ _).mpr (ht.finished rfl)) _ s
    ⟨[], by simp, by simpa using Progress.refl s⟩

/-! ## 6. What a run may change -/

/-- The steps of a run change the state only as `R` allows, where the results that the rounds give
satisfy `P`. -/
structure StepsWithin (R : LoopState W → LoopState W → Prop) (P : ApiResult → Prop)
    (lib : JsonText) (round : ChatRound W) (tools : List (Tool W)) (cb : AgentCallbacks W)
    (cancel : Option (CancelFlag W)) : Prop where
  cancel : Exec.Within R (cancelSeen cancel)
  request : ∀ s : LoopState W, R s { s with trace := s.trace ++ [.request s.history] }
  round : ∀ history s, Exec.Post (onWorld (round history)) s
    (fun res s' => P res ∧ R s s') (fun _ s' => R s s')
  answer : ∀ res, P res → Exec.Within R (pushBack (Message.assistant res.content))
  toolRequest : ∀ res, P res → Exec.Within R (pushBack (toolRequest res.content res.toolCalls))
  call : ∀ res, P res → ∀ call ∈ res.toolCalls, Exec.Within R (answerCall lib tools cb call)

section StepsWithin

variable {R : LoopState W → LoopState W → Prop} [Std.Refl R] [IsTrans (LoopState W) R]
  {P : ApiResult → Prop} {lib : JsonText} {round : ChatRound W} {tools : List (Tool W)}
  {cb : AgentCallbacks W} {cancel : Option (CancelFlag W)}

theorem StepsWithin.iteration (h : StepsWithin R P lib round tools cb cancel) :
    Exec.Within R (iteration lib round tools cb cancel) := by
  refine h.cancel.bind fun flag => ?_
  split
  · exact Exec.Within.pure _
  intro s
  -- the request carries the history of the state it is made in
  rw [Exec.post_bind, Exec.post_get, Exec.post_bind, emit, Exec.post_modify, Exec.post_bind]
  refine (h.round s.history _).mono (fun res t ht => ?_)
    (fun _ _ => IsTrans.trans _ _ _ (h.request s))
  refine Exec.Within.after ?_ (IsTrans.trans _ _ _ (h.request s) ht.2)
  split
  · exact Exec.Within.pure _
  split
  · exact (h.answer res ht.1).bind fun _ => Exec.Within.pure _
  · exact (h.toolRequest res ht.1).bind fun _ =>
      (Exec.Within.forM _ (h.call res ht.1)).bind fun _ => Exec.Within.pure _

/-- **What every step of a run keeps to, the run keeps to**, whether it returns or raises. -/
theorem StepsWithin.runToolLoop (h : StepsWithin R P lib round tools cb cancel) (maxIters : Int) :
    Exec.Within R (runToolLoop lib round tools cb maxIters cancel) :=
  Exec.Within.untilSome h.iteration (Exec.Within.pure _) _

end StepsWithin

/-! ## 7. Runs that return -/

theorem onWorld_returns_iff {α : Type} {m : EStateM Exn W α} {s : LoopState W} :
    Exec.Returns (onWorld m) s ↔ Exec.Returns m s.world := by
  unfold Exec.Returns onWorld
  rw [Exec.post_zoom]

/-- A call of a total tool, or of an unknown one, returns. -/
theorem answerCall_returns (lib : JsonText) {tools : List (Tool W)}
    (htools : ∀ t ∈ tools, t.Total) (cb : AgentCallbacks W) (call : ToolCall) (s : LoopState W) :
    Exec.Returns (answerCall lib tools cb call) s := by
  unfold Exec.Returns answerCall emit notify pushBack
  simp only [Exec.post_bind, Exec.post_modify]
  unfold runCall
  split
  · exact trivial
  rename_i tool htool
  have htot := htools tool (List.mem_of_find?_eq_some htool) (parsedArgs lib call)
  rw [Exec.post_bind]
  refine (onWorld_returns_iff.mpr (htot _).1).mono (fun details t1 _ => ?_) (fun _ _ h => h)
  rw [Exec.post_bind]
  unfold gateAllow
  rw [Exec.post_modifyGet]
  dsimp only
  split
  · rw [Exec.post_bind]
    unfold emit
    rw [Exec.post_modify]
    exact onWorld_returns_iff.mpr (htot _).2
  · exact trivial

/-- A run in which no round and no tool raises returns. -/
theorem runToolLoop_returns (lib : JsonText) {round : ChatRound W} {tools : List (Tool W)}
    (hround : ∀ h w, Exec.Returns (round h) w) (htools : ∀ t ∈ tools, t.Total)
    (cb : AgentCallbacks W) (maxIters : Int) (cancel : Option (CancelFlag W))
    (s : LoopState W) :
    Exec.Returns (runToolLoop lib round tools cb maxIters cancel) s := by
  refine Exec.post_untilSome (I := fun _ => True) (fun t _ => ?_)
    (fun t _ => (Exec.post_pure (limitResult maxIters) t _ _).mpr trivial) _ s trivial
  unfold iteration
  rw [Exec.post_bind]
  refine (cancelSeen_post cancel t).mono (fun flag t1 _ => ?_) (fun _ _ h => h)
  split
  · exact trivial
  simp only [Exec.post_bind, Exec.post_get, emit, Exec.post_modify]
  refine (onWorld_returns_iff.mpr (hround _ _)).mono (fun res t2 _ => ?_) (fun _ _ h => h)
  split
  · exact trivial
  split
  · exact trivial
  · simp only [Exec.post_bind, pushBack, Exec.post_modify]
    exact Exec.post_forM (I := fun _ _ => True)
      (fun call _ u _ => answerCall_returns lib htools cb call u) _ _ trivial

end SimpleCoder

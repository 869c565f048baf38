/-
# The agent

`Agent` owns the conversation, the tools and the gate, and runs turns against the API client.  It
keeps its configuration twice: `cfg` is the one its own members read and change, `client.cfg` is
the copy that the constructor handed to the API client.

The members run over `Session`: the agent, the world, and the trace of the visible calls of its
turns.  `AgentOp` is what can be asked of an agent, and `runOps` a whole session of it.
-/
import SimpleCoder.Agent.ToolLoop

namespace SimpleCoder

variable {W : Type}

/-! ## 1. The members -/

/-- `Agent`. -/
structure Agent (W : Type) where
  cfg : Config
  client : ApiClient
  tools : List (Tool W)
  toolSchemas : Json
  gate : ConfirmGate W
  history : List Message := []
  lastTotalTokens : Int := 0
  contextSize : Int := 0
  lastTokensPerSecond : ℚ := 0

namespace Agent

/-- The system prompt message of a fresh history, if there is a prompt. -/
def promptMessages (a : Agent W) : List Message :=
  if a.cfg.systemPrompt = [] then [] else [Message.system a.cfg.systemPrompt]

/-- `Agent::reset`. -/
def reset (a : Agent W) : Agent W := { a with history := a.promptMessages }

/-- The message that stands for compacted turns. -/
def summaryMessage (summary : Bytes) : Message :=
  Message.system (bytes "Summary of the conversation so far (earlier turns were compacted into " ++
    bytes "this):\n" ++ summary)

/-- `Agent::compact_into_summary`. -/
def compactIntoSummary (a : Agent W) (summary : Bytes) : Agent W :=
  { a with history := a.promptMessages ++ [summaryMessage summary], lastTotalTokens := 0 }

/-- `Agent::set_model`. -/
def setModel (a : Agent W) (model : Bytes) : Agent W :=
  { a with cfg := { a.cfg with model := model } }

/-- `Agent::set_system_prompt`. -/
def setSystemPrompt (a : Agent W) (prompt : Bytes) : Agent W :=
  { a with cfg := { a.cfg with systemPrompt := prompt } }

/-- The constructor, with the tools it has set up. -/
def create (lib : JsonText) (net : Net W) (cfg : Config) (confirmer : Option (Confirmer W))
    (tools : List (Tool W)) (w : W) : Agent W × W :=
  let client : ApiClient := ⟨cfg⟩
  let (probed, w) := if cfg.contextSize ≤ 0 then client.probeContextSize lib net w else (none, w)
  (reset
    { cfg := cfg
      client := client
      tools := tools
      toolSchemas := .array (tools.map Tool.schema)
      gate := { confirmer := confirmer, policy := makeConfirmPolicy cfg.allowRules cfg.denyRules }
      contextSize := probed.getD cfg.contextSize }, w)

/-- `history_.resize(mark)`. -/
def resize (history : List Message) (mark : Nat) : List Message :=
  history.take mark ++ List.replicate (mark - history.length) ({} : Message)

/-- What `send` does to the agent after the loop. -/
def finishSend (a : Agent W) (mark : Nat) (res : ApiResult) : Agent W :=
  if res.ok = false then { a with history := resize a.history mark }
  else
    { a with
      lastTotalTokens := if 0 < res.totalTokens then res.totalTokens else a.lastTotalTokens
      lastTokensPerSecond :=
        if 0 < res.genSeconds ∧ 0 < res.completionTokens then
          res.completionTokens / res.genSeconds
        else a.lastTokensPerSecond }

/-- The round that `send` runs: a request of the agent's own client. -/
def chatRound (lib : JsonText) (net : Net W) (cb : AgentCallbacks W)
    (cancel : Option (CancelFlag W)) (a : Agent W) : ChatRound W := fun history =>
  a.client.chat lib net history a.toolSchemas cb.onContent cb.onReasoning cancel

end Agent

/-! ## 2. A turn -/

/-- What the members of an agent run over. -/
structure Session (W : Type) where
  agent : Agent W
  world : W
  trace : List (Event W) := []

namespace Session

/-- The part of a session that the tool loop runs over. -/
def loop (s : Session W) : LoopState W := ⟨s.agent.history, s.agent.gate, s.world, s.trace⟩

def putLoop (t : LoopState W) (s : Session W) : Session W :=
  { agent := { s.agent with history := t.history, gate := t.gate }
    world := t.world
    trace := t.trace }

end Session

/-- `Agent::send`, with the round it runs as a parameter. -/
def sendRound (lib : JsonText) (round : Agent W → ChatRound W) (message : Bytes)
    (images : List ImagePart) (cb : AgentCallbacks W) (cancel : Option (CancelFlag W)) :
    EStateM Exn (Session W) ApiResult := do
  let a := (← get).agent
  let mark := a.history.length
  modify fun s =>
    { s with agent := { s.agent with history := s.agent.history ++ [Message.user message images] } }
  let res ← Exec.zoom Session.loop Session.putLoop
    (runToolLoop lib (round a) a.tools cb a.cfg.maxToolIterations cancel)
  modify fun s => { s with agent := s.agent.finishSend mark res }
  return res

/-- `Agent::send`. -/
def send (lib : JsonText) (net : Net W) (message : Bytes) (images : List ImagePart)
    (cb : AgentCallbacks W) (cancel : Option (CancelFlag W)) :
    EStateM Exn (Session W) ApiResult :=
  sendRound lib (Agent.chatRound lib net cb cancel) message images cb cancel

/-! ## 3. Sessions -/

/-- What can be asked of an agent.  A turn brings its own callbacks, cancel flag and round. -/
inductive AgentOp (W : Type) where
  | send (message : Bytes) (images : List ImagePart) (cb : AgentCallbacks W)
      (cancel : Option (CancelFlag W)) (round : Agent W → ChatRound W)
  | reset
  | compactIntoSummary (summary : Bytes)
  | setModel (model : Bytes)
  | setSystemPrompt (prompt : Bytes)

/-- A member that only changes the agent. -/
def change (f : Agent W → Agent W) : EStateM Exn (Session W) PUnit :=
  modify fun s => { s with agent := f s.agent }

def runOp (lib : JsonText) : AgentOp W → EStateM Exn (Session W) PUnit
  | .send message images cb cancel round => do
    let _ ← sendRound lib round message images cb cancel
  | .reset => change Agent.reset
  | .compactIntoSummary summary => change (·.compactIntoSummary summary)
  | .setModel model => change (·.setModel model)
  | .setSystemPrompt prompt => change (·.setSystemPrompt prompt)

/-- A session: operations one after another. -/
def runOps (lib : JsonText) (ops : List (AgentOp W)) : EStateM Exn (Session W) PUnit :=
  forM ops (runOp lib)

/-- The start of a session. -/
def Session.start (lib : JsonText) (net : Net W) (cfg : Config) (confirmer : Option (Confirmer W))
    (tools : List (Tool W)) (w : W) : Session W where
  agent := (Agent.create lib net cfg confirmer tools w).1
  world := (Agent.create lib net cfg confirmer tools w).2

/-! ## 4. What a turn does -/

/-- Cutting back to a mark below which nothing was touched. -/
theorem Agent.resize_append (history ms : List Message) :
    Agent.resize (history ++ ms) history.length = history := by
  simp [Agent.resize]

/-- **What a turn that returned has done.**  If it failed, the agent is as before but for what the
gate remembers; if it succeeded, the user message, complete groups and the answer have been
appended.  Every request it made carried the history before the turn, the user message and
complete groups. -/
structure Turned (message : Bytes) (images : List ImagePart) (s : Session W) (res : ApiResult)
    (s' : Session W) : Prop where
  gate : GateLe s.agent.gate s'.agent.gate
  failed : res.ok = false → s'.agent = { s.agent with gate := s'.agent.gate }
  succeeded : res.ok = true → ∃ groups : List (List Message), (∀ g ∈ groups, IsGroup g) ∧
    s'.agent.history = s.agent.history ++
      Message.user message images :: (groups.flatten ++ [Message.assistant res.content])
  kept : s'.agent.cfg = s.agent.cfg ∧ s'.agent.client = s.agent.client ∧
    s'.agent.tools = s.agent.tools ∧ s'.agent.toolSchemas = s.agent.toolSchemas ∧
    s'.agent.contextSize = s.agent.contextSize
  trace : ∃ new, s'.trace = s.trace ++ new ∧ ∀ h, Event.request h ∈ new →
    ∃ groups : List (List Message), (∀ g ∈ groups, IsGroup g) ∧
      h = s.agent.history ++ Message.user message images :: groups.flatten

theorem sendRound_post (lib : JsonText) (round : Agent W → ChatRound W) (message : Bytes)
    (images : List ImagePart) (cb : AgentCallbacks W) (cancel : Option (CancelFlag W))
    (s : Session W) :
    Exec.Post (sendRound lib round message images cb cancel) s
      (fun res s' => Turned message images s res s') (fun _ _ => True) := by
  unfold sendRound
  simp only [Exec.post_bind, Exec.post_get, Exec.post_modify, Exec.post_zoom, Exec.post_pure]
  refine (runToolLoop_post lib _ _ cb _ cancel _).mono (fun res t ht => ?_) (fun _ _ _ => trivial)
  obtain ⟨groups, hg, hp⟩ := ht
  have hhist : t.history = s.agent.history ++ ([Message.user message images] ++
      (groups.flatten ++ if res.ok then [Message.assistant res.content] else [])) := by
    rw [hp.history]
    exact List.append_assoc _ _ _
  obtain ⟨new, hnew, hreq⟩ := hp.trace
  have htrace : ∃ new, t.trace = s.trace ++ new ∧ ∀ h, Event.request h ∈ new →
      ∃ groups : List (List Message), (∀ g ∈ groups, IsGroup g) ∧
        h = s.agent.history ++ Message.user message images :: groups.flatten := by
    refine ⟨new, hnew, fun h hh => ?_⟩
    obtain ⟨gs, hgs, rfl⟩ := hreq h hh
    exact ⟨gs, hgs, List.append_assoc _ _ _⟩
  unfold Agent.finishSend
  cases hok : res.ok with
  | false =>
    rw [if_pos rfl]
    refine ⟨hp.gate, fun _ => ?_, by simp [hok], ⟨rfl, rfl, rfl, rfl, rfl⟩, htrace⟩
    simp only [Session.putLoop, hhist, Agent.resize_append]
  | true =>
    rw [if_neg (by simp)]
    refine ⟨hp.gate, by simp [hok], fun _ => ⟨groups, hg, ?_⟩, ⟨rfl, rfl, rfl, rfl, rfl⟩, htrace⟩
    rw [if_pos hok] at hhist
    exact hhist

/-- A turn whose round and tools do not raise returns. -/
theorem sendRound_returns (lib : JsonText) {round : Agent W → ChatRound W} {s : Session W}
    (hround : ∀ h w, Exec.Returns (round s.agent h) w) (htools : ∀ t ∈ s.agent.tools, t.Total)
    (message : Bytes) (images : List ImagePart) (cb : AgentCallbacks W)
    (cancel : Option (CancelFlag W)) :
    Exec.Returns (sendRound lib round message images cb cancel) s := by
  unfold Exec.Returns sendRound
  simp only [Exec.post_bind, Exec.post_get, Exec.post_modify, Exec.post_zoom, Exec.post_pure]
  exact runToolLoop_returns lib hround htools cb _ cancel _

end SimpleCoder

/-
# The application

`/compact` and `/init` send a prompt like any other turn and leave a note, `compact_pending` or
`init_pending`, that its reply is to be used.  The worker thread runs the turn; when it is done the
UI thread joins it and does what was noted (`App.done`).  While a turn is in flight only the worker
touches the agent, so a turn is one step here (`App.work`), and what follows it another.

What is shown is kept as far as these commands show it: `chat` has their lines, not the streamed
text.
-/
import SimpleCoder.Agent.Agent
import SimpleCoder.App.SystemPrompt

namespace SimpleCoder

variable {W : Type}

/-! ## 1. The state -/

inductive ChatStyle where
  | normal
  | dim
  | error
  deriving DecidableEq, Repr

/-- A line of the chat view. -/
structure ChatEntry where
  speaker : Bytes
  text : Bytes
  style : ChatStyle := .normal

/-- The working directory, as `/init` finds it. -/
structure Project (W : Type) where
  /-- Whether there is an `AGENTS.md`. -/
  hasAgentsMd : W → Bool
  /-- `dialog.ask`, about overwriting it. -/
  askOverwrite : W → ConfirmChoice × W
  /-- `project_tree(".")`. -/
  tree : W → Bytes
  /-- Open `AGENTS.md` for writing: whether it could be. -/
  openAgentsMd : W → Bool × W
  /-- Write the text to the file just opened. -/
  writeAgentsMd : Bytes → W → W

/-- `App`, with the prompt its worker has been given and, for the record, the texts that have been
written to `AGENTS.md`. -/
structure App (W : Type) where
  session : Session W
  chat : List ChatEntry := []
  busy : Bool := false
  initPending : Bool := false
  compactPending : Bool := false
  payload : Option Bytes := none
  agentsMd : List Bytes := []

namespace App

def say (a : App W) (text : Bytes) (style : ChatStyle) : App W :=
  { a with chat := a.chat ++ [⟨[], text, style⟩] }

def withAgent (a : App W) (f : Agent W → Agent W) : App W :=
  { a with session := { a.session with agent := f a.session.agent } }

def setWorld (a : App W) (w : W) : App W := { a with session := { a.session with world := w } }

/-! ## 2. Starting a command -/

/-- `submit`, without images. -/
def submit (a : App W) (display payload : Bytes) : App W :=
  { a with
    chat := a.chat ++ [⟨bytes "> ", display, .normal⟩]
    busy := true
    payload := some payload }

/-- `run_compact`. -/
def runCompact (a : App W) : App W :=
  if a.session.agent.history.all fun m => m.role = .system then
    a.say (bytes "Nothing to compact yet.") .dim
  else
    let a := a.say (bytes "Summarizing the conversation to compact the context…") .dim
    { a with compactPending := true }.submit (bytes "/compact") compactPrompt

/-- `run_init`. -/
def runInit (project : Project W) (a : App W) : App W :=
  let (choice, w) :=
    if project.hasAgentsMd a.session.world then project.askOverwrite a.session.world
    else (.yes, a.session.world)
  let a := a.setWorld w
  if choice = .no then a.say (bytes "/init cancelled.") .dim
  else
    let a := a.say (bytes "Scanning the project and generating AGENTS.md…") .dim
    { a with initPending := true }.submit (bytes "/init") (initPrompt (project.tree w))

/-! ## 3. The turn, and what follows it -/

/-- The turn that the worker runs. -/
def work (lib : JsonText) (round : Agent W → ChatRound W) (payload : Bytes)
    (cb : AgentCallbacks W) (cancel : Option (CancelFlag W)) : EStateM Exn (App W) ApiResult :=
  Exec.zoom App.session (fun s a => { a with session := s })
    (sendRound lib round payload [] cb cancel)

/-- The loop that `finish_compact` and `finish_init` share: from the end of the history back to the
last assistant message with some content. -/
def lastContent (history : List Message) : Bytes :=
  match history.findRev? fun m => m.role = .assistant ∧ m.content ≠ [] with
  | some m => m.content
  | none => []

/-- `finish_compact`. -/
def finishCompact (a : App W) : App W :=
  let summary := lastContent a.session.agent.history
  if summary = [] then
    a.say (bytes "/compact produced no summary; context left unchanged.") .error
  else
    (a.withAgent (·.compactIntoSummary summary)).say
      (bytes "✓ Context compacted — the model now continues from the summary above.") .dim

/-- The text with a newline at its end. -/
def endLine (text : Bytes) : Bytes :=
  if text.getLast? = some newline then text else text ++ [newline]

/-- `finish_init`. -/
def finishInit (project : Project W) (a : App W) : App W :=
  let content := stripCodeFence (lastContent a.session.agent.history)
  if content = [] then a.say (bytes "/init produced no content.") .error
  else
    match project.openAgentsMd a.session.world with
    | (false, w) => (a.setWorld w).say (bytes "Could not write AGENTS.md.") .error
    | (true, w) =>
      let a := a.setWorld (project.writeAgentsMd (endLine content) w)
      let a := { a with agentsMd := a.agentsMd ++ [endLine content] }
      (a.withAgent (·.setSystemPrompt content)).say
        (bytes "Wrote AGENTS.md. Use /clear to start a conversation with it as the system " ++
          bytes "prompt.") .dim

/-- What `drain_events` does when a turn is done, up to the automatic `/compact` that may follow an
ordinary one. -/
def done (project : Project W) (a : App W) : App W :=
  let a := { a with busy := false, payload := none }
  let a := if a.initPending then { a.finishInit project with initPending := false } else a
  if a.compactPending then { a.finishCompact with compactPending := false } else a

/-- What `drain_events` does when a turn has ended: what was noted is done only if it succeeded. -/
def settle (project : Project W) (res : ApiResult) (a : App W) : App W :=
  if res.ok then a.done project
  else
    let a := { a with
      busy := false
      payload := none
      initPending := false
      compactPending := false }
    if res.canceled then a.say (bytes "⏹ Generation cancelled.") .dim
    else { a with chat := a.chat ++ [⟨bytes "error", res.error, .error⟩] }

/-- A command's turn, from the worker's start to the end of what follows. -/
def turn (lib : JsonText) (project : Project W) (round : Agent W → ChatRound W)
    (cb : AgentCallbacks W) (cancel : Option (CancelFlag W)) : EStateM Exn (App W) PUnit := do
  match (← get).payload with
  | none => pure ⟨⟩
  | some payload => do
    let res ← work lib round payload cb cancel
    modify (settle project res)

end App

end SimpleCoder

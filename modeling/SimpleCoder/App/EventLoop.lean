/-
# The event loop

`App::run` is the UI thread: it reads keys, and between them takes the events from the queue that a
worker thread pushes.  A turn is submitted by starting the worker, which runs `Agent::send`, pushes
an event for each callback and then the one that says how the turn ended; the UI thread joins it
when it handles that event, and only then does what `/init` and `/compact` have left to do.

`LiveApp` is the whole of the application while its loop runs, and `Step` what either thread can do
next: the UI thread handles a key or, while it drains the queue, one event; the worker pushes an
event or ends.  Which of them moves is open, and so is what the worker pushes.

`calls` and the last fields of `Worker` record what happens; nothing reads them.
-/
import SimpleCoder.App.App
import SimpleCoder.App.Skill
import SimpleCoder.App.Attachments
import SimpleCoder.Agent.ContextGauge
import SimpleCoder.Ui.InputBar
import SimpleCoder.Ui.ChatView

namespace SimpleCoder

variable {W : Type}

/-! ## 1. Events -/

/-- `App::Event`. -/
inductive UiEvent where
  | delta (text : Bytes)
  | reasoning (text : Bytes)
  | toolInfo (text : Bytes)
  | toolResult (header text : Bytes)
  | confirmRequest (tool details : Bytes)
  | done
  | canceled
  | error (text : Bytes)

/-- What the agent calls back with in the course of a turn. -/
inductive Callback where
  | content (text : Bytes)
  | reasoning (text : Bytes)
  | toolCall (call : ToolCall)
  | toolResult (call : ToolCall) (result : ToolResult)
  | confirm (tool details : Bytes)

/-- `kMaxDisplay`. -/
def maxDisplay : Nat := 4000

/-- The event that a callback pushes. -/
def Callback.event : Callback → UiEvent
  | .content text => .delta text
  | .reasoning text => .reasoning text
  | .toolCall call => .toolInfo (bytes "↳ " ++ call.name ++ bytes " " ++ call.arguments)
  | .toolResult call result =>
    .toolResult (call.name ++ if result.ok then bytes " ✓" else bytes " ✗")
      (if maxDisplay < result.output.length then
        result.output.take maxDisplay ++ bytes "\n… [truncated]"
      else result.output)
  | .confirm tool details => .confirmRequest tool details

/-- The event that the worker pushes last. -/
def endEvent (res : ApiResult) : UiEvent :=
  if res.ok then .done else if res.canceled then .canceled else .error res.error

/-! ## 2. The state -/

/-- What a turn was started for. -/
inductive TurnKind where
  | ordinary
  | init
  | compact (automatic : Bool)
  deriving DecidableEq, Repr

inductive Outcome where
  | done
  | canceled
  | failed
  deriving DecidableEq, Repr

/-- The members of the agent that change it outside of a turn. -/
inductive AgentCall where
  | reset
  | setModel
  | setSystemPrompt
  | compactIntoSummary
  deriving DecidableEq, Repr

/-- What the UI thread does that matters here. -/
inductive UiCall where
  /-- A worker was started. -/
  | started (kind : TurnKind)
  /-- It was joined. -/
  | joined (outcome : Outcome)
  | finishInit
  | finishCompact
  | agent (call : AgentCall)
  deriving DecidableEq, Repr

/-- The worker thread: the turn it was given, and whether it has pushed its last event. -/
structure Worker where
  kind : TurnKind
  payload : Bytes
  images : List ImagePart
  ended : Bool := false
  /-- What the chat said when the turn was submitted. -/
  before : List ChatView.Said
  /-- What the worker has pushed, and what of it has been handled. -/
  pushed : List UiEvent := []
  handled : List UiEvent := []

/-- `App`, in its event loop.  `running` and `draining` say where the UI thread is. -/
structure LiveApp (W : Type) where
  session : Session W
  view : ChatView := {}
  input : InputBar := {}
  events : List UiEvent := []
  worker : Option Worker := none
  busy : Bool := false
  cancelRequested : Bool := false
  lastUserMessage : Bytes := []
  initPending : Bool := false
  compactPending : Bool := false
  skills : SkillRegistry := {}
  thinkingIdx : Option Nat := none
  contentIdx : Option Nat := none
  running : Bool := true
  draining : Bool := false
  /-- `std::terminate` has been called. -/
  terminated : Bool := false
  agentsMd : List Bytes := []
  calls : List UiCall := []

/-! ## 3. What is read from outside -/

/-- What the UI thread finds outside. -/
structure Surroundings (W : Type) where
  lib : JsonText
  net : Net W
  project : Project W
  /-- `read_file_opt`. -/
  readFile : Bytes → W → Option Bytes × W
  /-- `dialog.ask` about a tool call, and the answer handed to the worker. -/
  confirm : Bytes → Bytes → W → W

namespace Key

def f1 : Int := 265
def npage : Int := 338
def ppage : Int := 339
def mouse : Int := 409
def resize : Int := 410

end Key

/-- What `wget_wch` comes back with: nothing in time, a character, or the code of a key. -/
inductive Keypress where
  | none
  | char (c : UInt32)
  | code (ch : Int)
  deriving DecidableEq

/-- The value that it stores. -/
def Keypress.value : Keypress → Int
  | .none => 0
  | .char c => c.toNat
  | .code ch => ch

/-- A character that is typed, not one that controls. -/
def isTyped (c : UInt32) : Bool := 32 ≤ c && c ≠ 127

inductive Wheel where
  | up
  | down
  deriving DecidableEq

/-- What one pass of the loop reads: a key and what is there behind it, and what it asks of curses,
the rows of the chat window and the way that the mouse wheel went. -/
structure KeyRead where
  key : Keypress
  next : Keypress := .none
  rows : Int := 0
  wheel : Option Wheel := none

namespace LiveApp

open ChatView (Style)

/-! ## 4. The members -/

def call (c : UiCall) (r : LiveApp W) : LiveApp W := { r with calls := r.calls ++ [c] }

/-- A member of the agent is called. -/
def callAgent (c : AgentCall) (f : Agent W → Agent W) (r : LiveApp W) : LiveApp W :=
  { r with
    session := { r.session with agent := f r.session.agent }
    calls := r.calls ++ [.agent c] }

def setWorld (w : W) (r : LiveApp W) : LiveApp W :=
  { r with session := { r.session with world := w } }

/-- `chat_.add` without a speaker. -/
def note (text : Bytes) (style : Style) (r : LiveApp W) : LiveApp W :=
  { r with view := r.view.add [] text style }

/-- The same for some lines. -/
def notes (style : Style) : List Bytes → LiveApp W → LiveApp W
  | [], r => r
  | text :: texts, r => notes style texts (r.note text style)

/-- The assignment to `worker_`: it terminates the program if there is a worker to be joined. -/
def startWorker (w : Worker) (r : LiveApp W) : LiveApp W :=
  match r.worker with
  | some _ => { r with terminated := true }
  | none => { r with worker := some w, calls := r.calls ++ [.started w.kind] }

/-- `n / d` to the nearest whole number, and from the middle to the even one, as `printf` rounds. -/
def roundDiv (n d : Nat) : Nat :=
  if 2 * (n % d) < d ∨ (2 * (n % d) = d ∧ n / d % 2 = 0) then n / d else n / d + 1

/-- `human_size`. -/
def humanSize (n : Nat) : Bytes :=
  if n < 1024 then decimal n ++ bytes " B"
  else if n < 1024 * 1024 then decimal (roundDiv n 1024) ++ bytes " KB"
  else
    let tenths := roundDiv (10 * n) (1024 * 1024)
    decimal (tenths / 10 : Nat) ++ bytes "." ++ decimal (tenths % 10 : Nat) ++ bytes " MB"

/-- The line that stands for an image. -/
def imageLine (img : ImagePart) : Bytes :=
  bytes "🖼 " ++ img.name ++ bytes " (" ++ humanSize img.bytes ++ bytes ")"

/-- `submit`. -/
def submit (kind : TurnKind) (display payload : Bytes) (images : List ImagePart) (r : LiveApp W) :
    LiveApp W :=
  let shown := { r with view := r.view.add (bytes "> ") display .normal }
  { shown.notes .dim (images.map imageLine) with
    thinkingIdx := none
    contentIdx := none
    busy := true
    cancelRequested := false }.startWorker
      { kind := kind, payload := payload, images := images, before := r.view.said }

/-- `handle_user_input`. -/
def handleUserInput (env : Surroundings W) (line : Bytes) (r : LiveApp W) : LiveApp W :=
  let (ex, w) := expandAttachments env.readFile line r.session.agent.cfg.maxImageBytes
    r.session.world
  let r := r.setWorld w
  if ex.errors ≠ [] then r.notes .error ex.errors
  else
    let r := { r with lastUserMessage := line }.submit .ordinary line ex.text ex.images
    if ex.attached = [] then r
    else r.note (bytes "attached:" ++ (ex.attached.map fun p => bytes " " ++ p).flatten) .dim

/-- `run_init`. -/
def runInit (env : Surroundings W) (r : LiveApp W) : LiveApp W :=
  let (choice, w) :=
    if env.project.hasAgentsMd r.session.world then env.project.askOverwrite r.session.world
    else (.yes, r.session.world)
  let r := r.setWorld w
  if choice = .no then r.note (bytes "/init cancelled.") .dim
  else
    let r := r.note (bytes "Scanning the project and generating AGENTS.md…") .dim
    { r with initPending := true }.submit .init (bytes "/init") (initPrompt (env.project.tree w)) []

/-- `finish_init`. -/
def finishInit (env : Surroundings W) (r : LiveApp W) : LiveApp W :=
  let r := r.call .finishInit
  let content := stripCodeFence (App.lastContent r.session.agent.history)
  if content = [] then r.note (bytes "/init produced no content.") .error
  else
    match env.project.openAgentsMd r.session.world with
    | (false, w) => (r.setWorld w).note (bytes "Could not write AGENTS.md.") .error
    | (true, w) =>
      let r := r.setWorld (env.project.writeAgentsMd (App.endLine content) w)
      let r := { r with agentsMd := r.agentsMd ++ [App.endLine content] }
      (r.callAgent .setSystemPrompt (·.setSystemPrompt content)).note
        (bytes "Wrote AGENTS.md. Use /clear to start a conversation with it as the system " ++
          bytes "prompt.") .dim

/-- The line that lists a skill. -/
def skillItem (s : Skill) : Bytes :=
  bytes "  /" ++ s.name ++ if s.description = [] then [] else bytes " — " ++ s.description

/-- `run_skill`. -/
def runSkill (arg : Bytes) (r : LiveApp W) : LiveApp W :=
  match SimpleCoder.runSkill r.skills arg with
  | .listed =>
    if r.skills.skills = [] then
      r.note (bytes "No skills found. Add *.md files under ./skills or " ++
        bytes "~/.config/SimpleCoder/skills.") .dim
    else (r.note (bytes "Available skills (run with /<name>):") .dim).notes .dim
      (r.skills.skills.map skillItem)
  | .unknown name =>
    r.note (bytes "Unknown skill: " ++ name ++ bytes "  (try /skill to list)") .error
  | .turn s extra => r.submit .ordinary (s.display extra) (s.payload extra) []

/-- `run_compact`. -/
def runCompact (automatic : Bool) (r : LiveApp W) : LiveApp W :=
  if r.session.agent.history.all fun m => m.role = .system then
    r.note (bytes "Nothing to compact yet.") .dim
  else
    let r := r.note (bytes "Summarizing the conversation to compact the context…") .dim
    { r with compactPending := true }.submit (.compact automatic) (bytes "/compact")
      compactPrompt []

/-- `finish_compact`. -/
def finishCompact (r : LiveApp W) : LiveApp W :=
  let r := r.call .finishCompact
  let summary := App.lastContent r.session.agent.history
  if summary = [] then
    r.note (bytes "/compact produced no summary; context left unchanged.") .error
  else
    (r.callAgent .compactIntoSummary (·.compactIntoSummary summary)).note
      (bytes "✓ Context compacted — the model now continues from the summary above.") .dim

/-- `maybe_auto_compact`. -/
def maybeAutoCompact (r : LiveApp W) : LiveApp W :=
  let a := r.session.agent
  if a.cfg.autoCompact && contextIsFull a.lastTotalTokens a.contextSize a.cfg.autoCompactThreshold
  then (r.note (bytes "Context is nearly full — auto-compacting…") .dim).runCompact true
  else r

/-- `join_worker`. -/
def joinWorker (outcome : Outcome) (r : LiveApp W) : LiveApp W :=
  match r.worker with
  | none => r
  | some _ => { r with worker := none, calls := r.calls ++ [.joined outcome] }

/-- Fold the reasoning away, if there is some. -/
def foldThinking (r : LiveApp W) : LiveApp W :=
  match r.thinkingIdx with
  | none => r
  | some i => { r with view := r.view.setCollapsed i true }

/-! ## 5. The events -/

/-- What was noted when the turn was submitted is done now. -/
def finishNoted (env : Surroundings W) (r : LiveApp W) : LiveApp W :=
  let r := if r.initPending then { r.finishInit env with initPending := false } else r
  if r.compactPending then { r.finishCompact with compactPending := false } else r

/-- What is left to do when a turn is done and the worker joined: only an ordinary turn is followed
by an automatic `/compact`. -/
def afterDone (env : Surroundings W) (r : LiveApp W) : LiveApp W :=
  let noted := r.initPending || r.compactPending
  let r := r.finishNoted env
  if noted then r else r.maybeAutoCompact

/-- The worker is joined and what it was started for given up. -/
def abandon (outcome : Outcome) (r : LiveApp W) : LiveApp W :=
  { r.joinWorker outcome with busy := false, initPending := false, compactPending := false }

/-- A piece of reasoning. -/
def showReasoning (text : Bytes) (r : LiveApp W) : LiveApp W :=
  match r.thinkingIdx with
  | some i => { r with view := r.view.appendTo i text }
  | none =>
    { r with
      view := r.view.addThinking.appendTo r.view.next text
      thinkingIdx := some r.view.next }

/-- A piece of the answer; when the answer starts, the reasoning is folded away. -/
def showDelta (text : Bytes) (r : LiveApp W) : LiveApp W :=
  match r.contentIdx with
  | some i => { r with view := r.view.appendTo i text }
  | none =>
    let r := r.foldThinking
    { r with
      view := (r.view.add (bytes "* ") [] .normal).appendTo r.view.next text
      contentIdx := some r.view.next }

/-- The switch of `drain_events`. -/
def handleEvent (env : Surroundings W) (r : LiveApp W) : UiEvent → LiveApp W
  | .reasoning text => r.showReasoning text
  | .delta text => r.showDelta text
  | .toolInfo text => { r.note text .dim with contentIdx := none }
  | .toolResult header text =>
    { r with view := r.view.addToolOutput header text, contentIdx := none }
  | .confirmRequest tool details => r.setWorld (env.confirm tool details r.session.world)
  | .done => { r.foldThinking.joinWorker .done with busy := false }.afterDone env
  | .canceled => (r.foldThinking.abandon .canceled).note (bytes "⏹ Generation cancelled.") .dim
  | .error text =>
    let r := r.abandon .failed
    { r with view := r.view.add (bytes "error") text .error }

/-! ## 6. The keys -/

/-- `/model`. -/
def modelCommand (env : Surroundings W) (arg : Bytes) (r : LiveApp W) : LiveApp W :=
  if arg = [] then
    let cur := r.session.agent.cfg.model
    let (models, w) := r.session.agent.client.listModels env.lib env.net r.session.world
    let r := r.setWorld w
    if models = [] then
      r.notes .dim
        [bytes "Current model: " ++ (if cur = [] then bytes "(server default)" else cur),
          bytes "(could not fetch the model list from the server)"]
    else
      r.notes .dim (bytes "Available models (• = current) — /model <name> to switch:" ::
        models.map fun m => (if m = cur then bytes "  • " else bytes "    ") ++ m)
  else
    (r.callAgent .setModel (·.setModel arg)).note (bytes "Model set to " ++ arg ++ bytes ".") .dim

/-- The branch of the loop for a line that was entered. -/
def runLine (env : Surroundings W) (line : Bytes) (r : LiveApp W) : LiveApp W :=
  let cmd := parseCommand line
  match cmd.kind with
  | .none => if line = [] then r else r.handleUserInput env line
  -- the loop ends, and `join_worker` is called behind it
  | .quit => { r with running := false, worker := none }
  | .help => r
  | .clear => { r with view := r.view.clear }.callAgent .reset Agent.reset
  | .retry =>
    if r.lastUserMessage = [] then r.note (bytes "Nothing to retry yet.") .dim
    else r.handleUserInput env r.lastUserMessage
  | .model => r.modelCommand env cmd.arg
  | .init => r.runInit env
  | .compact => r.runCompact false
  | .skill => r.runSkill cmd.arg
  | .unknown =>
    if (r.skills.find cmd.arg).isSome then r.runSkill cmd.arg
    else r.note (bytes "Unknown command: /" ++ cmd.arg ++ bytes "  (try /help)") .error

/-- Esc while a turn is in flight: only the first one is noted. -/
def requestCancel (r : LiveApp W) : LiveApp W :=
  if r.cancelRequested then r
  else { r with cancelRequested := true }.note (bytes "⏹ Cancelling…") .dim

/-- Esc otherwise: with Enter behind it, it puts in a newline. -/
def altKey (next : Keypress) (r : LiveApp W) : LiveApp W :=
  if next.value = 10 ∨ next.value = 13 ∨ next.value = Key.enter then
    { r with input := r.input.insertNewline }
  else
    match next with
    | .none => r
    | .char c =>
      { r with
        input := if isTyped c then r.input.insertText (Utf8.encode c)
          else (r.input.handleKey c.toNat).2 }
    | .code ch => { r with input := (r.input.handleKey ch).2 }

/-- A key that goes to the input bar; Enter hands out a line. -/
def inputKey (env : Surroundings W) (ch : Int) (r : LiveApp W) : LiveApp W :=
  match r.input.handleKey ch with
  | (none, bar) => { r with input := bar }
  | (some line, bar) => { r with input := bar }.runLine env line

/-- A key that moves the cursor while there is a text, and scrolls the chat otherwise. -/
def arrowKey (ch : Int) (scroll : ChatView → ChatView) (r : LiveApp W) : LiveApp W :=
  if r.input.buffer = [] then { r with view := scroll r.view }
  else { r with input := (r.input.handleKey ch).2 }

/-- The mouse wheel. -/
def wheelKey (r : LiveApp W) : Option Wheel → LiveApp W
  | none => r
  | some .up => { r with view := r.view.scrollUp 3 }
  | some .down => { r with view := r.view.scrollDown 3 }

/-- A control character or the code of a key. -/
def controlKey (env : Surroundings W) (k : KeyRead) (ch : Int) (r : LiveApp W) : LiveApp W :=
  if ch = Key.resize ∨ ch = Key.f1 then r
  else if r.busy ∧ ch = 27 then r.requestCancel
  else if ch = Key.ppage then { r with view := r.view.scrollPageUp k.rows }
  else if ch = Key.npage then { r with view := r.view.scrollPageDown k.rows }
  else if ch = 9 then { r with view := r.view.toggleLastCollapsible }
  else if ch = Key.mouse then r.wheelKey k.wheel
  else if ch = Key.up then r.arrowKey ch (·.scrollUp 1)
  else if ch = Key.down then r.arrowKey ch (·.scrollDown 1)
  else if ch = Key.left ∨ ch = Key.right then r.arrowKey ch id
  else if ch = Key.home then r.arrowKey ch (·.scrollToTop)
  else if ch = Key.toEnd then r.arrowKey ch (·.scrollToBottom)
  -- typing is ignored while a reply is in flight
  else if r.busy then { r with draining := true }
  else if ch = 27 then r.altKey k.next
  else r.inputKey env ch

/-- One pass of the loop, up to the draining of the queue. -/
def handleKey (env : Surroundings W) (k : KeyRead) (r : LiveApp W) : LiveApp W :=
  match k.key with
  | .none => { r with draining := true }
  | .char c =>
    if isTyped c then
      if r.busy then r else { r with input := r.input.insertText (Utf8.encode c) }
    else r.controlKey env k c.toNat
  | .code ch => r.controlKey env k ch

/-! ## 7. The threads -/

/-- The worker pushes an event. -/
def push (w : Worker) (e : UiEvent) (r : LiveApp W) : LiveApp W :=
  { r with events := r.events ++ [e], worker := some { w with pushed := w.pushed ++ [e] } }

/-- The worker pushes its last event. -/
def pushEnd (w : Worker) (res : ApiResult) (s : Session W) (r : LiveApp W) : LiveApp W :=
  { r.push w (endEvent res) with
    session := s
    worker := some { w with pushed := w.pushed ++ [endEvent res], ended := true } }

/-- `try_pop`, when the event is the first in the queue. -/
def pop (e : UiEvent) (es : List UiEvent) (r : LiveApp W) : LiveApp W :=
  { r with
    events := es
    worker := r.worker.map fun w => { w with handled := w.handled ++ [e] } }

/-- What can happen next. -/
inductive Step (env : Surroundings W) : LiveApp W → LiveApp W → Prop
  /-- A pass of the loop of the UI thread. -/
  | key {r : LiveApp W} (k : KeyRead) (hrun : r.running = true) (hdrain : r.draining = false) :
    Step env r (r.handleKey env k)
  /-- A pass of the loop of `drain_events`. -/
  | event {r : LiveApp W} {e : UiEvent} {es : List UiEvent} (hdrain : r.draining = true)
    (hev : r.events = e :: es) : Step env r ((r.pop e es).handleEvent env e)
  /-- That loop ends. -/
  | drained {r : LiveApp W} (hdrain : r.draining = true) (hev : r.events = []) :
    Step env r { r with draining := false }
  /-- The agent calls back in the worker. -/
  | callback {r : LiveApp W} {w : Worker} (c : Callback) (hw : r.worker = some w)
    (hrun : w.ended = false) : Step env r (r.push w c.event)
  /-- `send` returns in the worker. -/
  | finish {r : LiveApp W} {w : Worker} (round : Agent W → ChatRound W) (cb : AgentCallbacks W)
    (cancel : Option (CancelFlag W)) {res : ApiResult} {s : Session W} (hw : r.worker = some w)
    (hrun : w.ended = false)
    (hsend : sendRound env.lib round w.payload w.images cb cancel r.session = .ok res s) :
    Step env r (r.pushEnd w res s)

/-- The application when its loop begins: the banner is shown. -/
def start (session : Session W) (skills : SkillRegistry) (banner : Bytes) : LiveApp W :=
  { session := session
    skills := skills
    view := @ChatView.addPreformatted {} banner .accent }

/-- The states that come up. -/
inductive Reachable (env : Surroundings W) : LiveApp W → Prop
  | start (session : Session W) (skills : SkillRegistry) (banner : Bytes) :
    Reachable env (start session skills banner)
  | step {r r' : LiveApp W} (hr : Reachable env r) (hstep : Step env r r') : Reachable env r'

/-! ## 8. The commands of `App`

Seen as an `App`, the application starts and finishes `/init` and `/compact` as that one does. -/

/-- A style as `App` has it. -/
def chatStyle : Style → ChatStyle
  | .normal | .accent => .normal
  | .dim => .dim
  | .error => .error

/-- An entry as `App` has it. -/
def chatEntry (e : ChatView.Entry) : ChatEntry := ⟨e.speaker, e.text, chatStyle e.style⟩

/-- The application as its commands see it. -/
def app (r : LiveApp W) : App W where
  session := r.session
  chat := r.view.entries.map chatEntry
  busy := r.busy
  initPending := r.initPending
  compactPending := r.compactPending
  payload := r.worker.map Worker.payload
  agentsMd := r.agentsMd

section Refines

variable (r : LiveApp W) (env : Surroundings W)

theorem map_add (v : ChatView) (speaker text : Bytes) (style : Style) :
    (v.add speaker text style).entries.map chatEntry =
      v.entries.map chatEntry ++ [⟨speaker, text, chatStyle style⟩] := by
  simp [ChatView.add, ChatView.push, chatEntry]

theorem app_note (text : Bytes) (style : Style) :
    (r.note text style).app = r.app.say text (chatStyle style) := by
  unfold app note App.say
  rw [map_add]

/-- A turn without images is submitted as `App` has it. -/
theorem app_submit (hw : r.worker = none) (kind : TurnKind) (display payload : Bytes) :
    (r.submit kind display payload []).app = r.app.submit display payload := by
  simp [app, submit, notes, startWorker, hw, App.submit, map_add, chatStyle]

theorem app_runCompact (hw : r.worker = none) (automatic : Bool) :
    (r.runCompact automatic).app = r.app.runCompact := by
  have hsub := app_submit
    { r.note (bytes "Summarizing the conversation to compact the context…") .dim with
      compactPending := true }
    hw (.compact automatic) (bytes "/compact") compactPrompt
  unfold runCompact App.runCompact
  split
  · rw [if_pos (by assumption), app_note]
    rfl
  · rw [if_neg (by assumption), hsub]
    simp [app, note, App.say, map_add, chatStyle]

theorem app_finishCompact : r.finishCompact.app = r.app.finishCompact := by
  unfold finishCompact App.finishCompact
  dsimp only
  split
  · rw [if_pos (by assumption), app_note]
    rfl
  · rw [if_neg (by assumption), app_note]
    rfl

theorem app_finishInit : (r.finishInit env).app = r.app.finishInit env.project := by
  have hsession : (r.call .finishInit).session = r.app.session := rfl
  unfold finishInit App.finishInit
  dsimp only
  rw [hsession]
  split
  · exact app_note _ _ _
  · rcases env.project.openAgentsMd r.app.session.world with ⟨_ | _, w⟩
    · exact app_note _ _ _
    · exact app_note _ _ _

theorem app_runInit (hw : r.worker = none) : (r.runInit env).app = r.app.runInit env.project := by
  have hsession : r.app.session = r.session := rfl
  unfold runInit App.runInit
  dsimp only
  rw [hsession]
  generalize (if env.project.hasAgentsMd r.session.world then
    env.project.askOverwrite r.session.world else (ConfirmChoice.yes, r.session.world)) = asked
  split
  · exact app_note _ _ _
  · rw [app_submit _ (by exact hw)]
    simp [app, note, App.say, map_add, chatStyle, setWorld, App.setWorld]

/-- **When a turn is done**, what was noted is finished as in `App`. -/
theorem app_finishNoted (hw : r.worker = none) :
    ({ r with busy := false }.finishNoted env).app = r.app.done env.project := by
  have hfree : { r with busy := false }.app = { r.app with busy := false, payload := none } := by
    simp [app, hw]
  have hinit : ∀ q : LiveApp W,
      (if q.initPending then { q.finishInit env with initPending := false } else q).app =
        if q.app.initPending then { q.app.finishInit env.project with initPending := false }
        else q.app := by
    intro q
    rw [← app_finishInit, show q.app.initPending = q.initPending from rfl]
    split <;> rfl
  have hcompact : ∀ q : LiveApp W,
      (if q.compactPending then { q.finishCompact with compactPending := false } else q).app =
        if q.app.compactPending then { q.app.finishCompact with compactPending := false }
        else q.app := by
    intro q
    rw [← app_finishCompact, show q.app.compactPending = q.compactPending from rfl]
    split <;> rfl
  unfold finishNoted App.done
  rw [hcompact, hinit, hfree]

end Refines
end LiveApp

end SimpleCoder

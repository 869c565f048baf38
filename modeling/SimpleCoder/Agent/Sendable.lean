/-
# Which histories can be sent

A request is written out with the strict error handler: one message with a text that is not valid
UTF-8 and the request raises, however long ago the text got into the history.  Nothing on the way
checks: `read_file` returns a file as it is, `run_bash` what a command printed.

§1 follows the texts through the tool loop, §2 through a session.  As long as what comes from
outside is valid (the operations' own texts, the prompt, the schemas, and the outputs of the tools
that were executed), every history the agent reaches can be sent; what the server sends always is.
-/
import SimpleCoder.Agent.Agent
import SimpleCoder.Agent.Tools.Builtin
import SimpleCoder.Llm.Reassembly
import SimpleCoder.Llm.ValidText

namespace SimpleCoder

variable {W : Type}

/-! ## 1. The tool loop -/

/-- The outputs of the tools that were executed are valid text. -/
def OutputsValid : Exec.LogProp (Event W) where
  holds trace := ∀ before tool args details call result after,
    trace = before ++ .execute tool args details :: .toolResult call result :: after →
      Utf8 result.output
  of_prefix := by
    rintro l _ ⟨rest, rfl⟩ h before tool args details call result after rfl
    exact h before tool args details call result (after ++ rest) (by simp)

/-- The history is valid, and so is every history that was handed to a round. -/
structure LoopState.Valid (s : LoopState W) : Prop where
  history : ∀ msg ∈ s.history, msg.Valid
  requests : ∀ h, Event.request h ∈ s.trace → ∀ msg ∈ h, msg.Valid

/-- The loop keeps the texts valid as long as the tools return valid text. -/
abbrev KeepsTexts : LoopState W → LoopState W → Prop :=
  Exec.KeepsWhile LoopState.trace OutputsValid LoopState.Valid

theorem Frame.keepsTexts {s s' : LoopState W} (h : Frame s s') : KeepsTexts s s' := by
  obtain ⟨new, hnew, hreq⟩ := h.trace
  refine ⟨⟨new, hnew.symm⟩, fun _ hs => ⟨h.history ▸ hs.history, fun x hx => ?_⟩⟩
  rw [hnew] at hx
  exact (List.mem_append.mp hx).elim (hs.requests x) fun hx => absurd hx (hreq x)

theorem keepsTexts_onWorld {α : Type} (m : EStateM Exn W α) :
    Exec.Within KeepsTexts (onWorld m) := fun s =>
  (onWorld_post m s).mono (fun _ _ h => h.keepsTexts) (fun _ _ h => h.keepsTexts)

theorem keepsTexts_pushBack {msg : Message} (h : msg.Valid) :
    Exec.Within KeepsTexts (pushBack msg : Act W PUnit) := fun _ =>
  Exec.KeepsWhile.of_log_eq rfl fun hs =>
    ⟨fun m hm => (List.mem_append.mp hm).elim (hs.history m)
      fun hm => List.mem_singleton.mp hm ▸ h, hs.requests⟩

/-- Whatever running a call answers is valid, unless a tool has been executed last. -/
theorem runCall_output (lib : JsonText) (tools : List (Tool W)) {call : ToolCall}
    (hname : Utf8 call.name) (s : LoopState W) :
    Exec.Post (runCall lib tools call) s
      (fun result s' => Utf8 result.output ∨
        ∃ before tool args details, s'.trace = before ++ [.execute tool args details])
      (fun _ _ => True) := by
  unfold runCall
  split
  · exact Or.inl (((utf8_bytes _).append hname).append (utf8_bytes _))
  rename_i tool _
  simp only [Exec.post_bind, onWorld, Exec.post_zoom, gateAllow, Exec.post_modifyGet]
  refine Exec.post_iff.mpr ⟨fun details w _ => ?_, fun _ _ _ => trivial⟩
  split
  · simp only [Exec.post_bind, emit, Exec.post_modify, Exec.post_zoom]
    exact Exec.post_iff.mpr ⟨fun _ _ _ => Or.inr ⟨_, tool, _, details, rfl⟩, fun _ _ _ => trivial⟩
  · exact Or.inl (utf8_bytes _)

/-- **One call.**  The message that answers it is valid if the tool's output is. -/
theorem keepsTexts_answerCall (lib : JsonText) (tools : List (Tool W)) (cb : AgentCallbacks W)
    {call : ToolCall} (hcall : call.Valid) :
    Exec.Within KeepsTexts (answerCall lib tools cb call) := by
  intro s
  unfold answerCall emit notify
  simp only [Exec.post_bind, Exec.post_modify]
  have h1 := (Frame.event s (e := Event.toolCall call) (by simp)).trans
    (Frame.world _ ((cb.onToolCall.map (· call)).getD id s.world))
  refine ((runCall_post lib tools call _).and (Exec.Post.mono
    (runCall_output lib tools hcall.name _) (fun _ _ h => h) (fun _ _ _ => trivial))).mono
    (fun result s2 h => ?_) (fun _ _ h => (h1.trans h.1).keepsTexts)
  obtain ⟨h2, hout⟩ := h
  have h3 := (Frame.event s2 (e := Event.toolResult call result) (by simp)).trans
    (Frame.world _ ((cb.onToolResult.map (· call result)).getD id s2.world))
  refine ⟨((h1.trans h2).trans h3).keepsTexts.grows, fun hok hs => ?_⟩
  have hutf8 : Utf8 result.output := by
    rcases hout with hout | ⟨before, tool, args, details, htrace⟩
    · exact hout
    · refine hok before tool args details call result [] ?_
      change s2.trace ++ [.toolResult call result] = _
      rw [htrace, List.append_assoc]
      rfl
  have hmsg : (Message.toolResult call.id result.output).Valid :=
    (Message.valid_tool rfl).mpr ⟨hutf8, hcall.id⟩
  exact (keepsTexts_pushBack hmsg _).keeps hok ((((h1.trans h2).trans h3).keepsTexts).keeps hok hs)

/-- Every round returns valid text. -/
def RoundValid (round : ChatRound W) : Prop :=
  ∀ history w, Exec.Post (round history) w (fun res _ => res.Valid) (fun _ _ => True)

/-- **One run of the loop.** -/
theorem keepsTexts_runToolLoop (lib : JsonText) {round : ChatRound W} (hround : RoundValid round)
    (tools : List (Tool W)) (cb : AgentCallbacks W) (maxIters : Int)
    (cancel : Option (CancelFlag W)) :
    Exec.Within KeepsTexts (runToolLoop lib round tools cb maxIters cancel) := by
  -- what is handed out is the history, which is valid
  have hrequest : ∀ s : LoopState W,
      KeepsTexts s { s with trace := s.trace ++ [.request s.history] } := by
    refine fun s => ⟨⟨_, rfl⟩, fun _ hs => ⟨hs.history, fun h hh => ?_⟩⟩
    rcases List.mem_append.mp hh with hh | hh
    · exact hs.requests h hh
    · cases List.mem_singleton.mp hh
      exact hs.history
  have hresult : ∀ history s, Exec.Post (onWorld (round history)) s
      (fun res s' => res.Valid ∧ KeepsTexts s s') (fun _ s' => KeepsTexts s s') := by
    intro history s
    have hval : Exec.Post (onWorld (round history)) s (fun res _ => res.Valid)
        (fun _ _ => True) := by
      rw [onWorld, Exec.post_zoom]
      exact hround history s.world
    exact (hval.and (keepsTexts_onWorld _ s)).mono (fun _ _ h => h) (fun _ _ h => h.2)
  have hsteps : StepsWithin KeepsTexts ApiResult.Valid lib round tools cb cancel := {
    cancel := fun s => (cancelSeen_post cancel s).mono (fun _ _ h => h.keepsTexts)
      (fun _ _ h => h.elim)
    request := hrequest
    round := hresult
    answer := fun res h => keepsTexts_pushBack
      ((Message.valid_assistant rfl).mpr ⟨h.content, by simp [Message.assistant]⟩)
    toolRequest := fun res h => keepsTexts_pushBack
      ((Message.valid_assistant rfl).mpr ⟨h.content, h.toolCalls⟩)
    call := fun res h call hcall => keepsTexts_answerCall lib tools cb (h.toolCalls call hcall) }
  exact hsteps.runToolLoop maxIters

/-! ## 2. A session -/

/-- The request with the history can be written out, for the history as it is and for every history
that was handed to a round. -/
def Session.Sendable (lib : JsonText) (s : Session W) : Prop :=
  ∀ h, h = s.agent.history ∨ Event.request h ∈ s.trace →
    ∃ req, s.agent.client.request lib h s.agent.toolSchemas = .ok req

/-- The operation brings valid text, and its rounds, if it is a turn, are requests of the agent. -/
def AgentOp.Valid (lib : JsonText) (net : Net W) : AgentOp W → Prop
  | .send message images cb cancel round =>
    Utf8 message ∧ (∀ img ∈ images, Utf8 img.dataUrl) ∧ round = Agent.chatRound lib net cb cancel
  | .compactIntoSummary summary => Utf8 summary
  | .setSystemPrompt prompt => Utf8 prompt
  | .reset | .setModel _ => True

/-- The invariant of a session: the client and the schemas it started with, and valid texts. -/
structure Session.Valid (cfg : Config) (schemas : List Json) (s : Session W) : Prop where
  client : s.agent.client = ⟨cfg⟩
  schemas : s.agent.toolSchemas = .array schemas
  prompt : Utf8 s.agent.cfg.systemPrompt
  loop : s.loop.Valid

/-- A session keeps its texts valid as long as the tools return valid text. -/
abbrev KeepsSession (cfg : Config) (schemas : List Json) : Session W → Session W → Prop :=
  Exec.KeepsWhile Session.trace OutputsValid (Session.Valid cfg schemas)

theorem Agent.promptMessages_valid {a : Agent W} (h : Utf8 a.cfg.systemPrompt) :
    ∀ msg ∈ a.promptMessages, msg.Valid := by
  unfold promptMessages
  split
  · simp
  · intro msg hmsg
    rw [List.mem_singleton.mp hmsg]
    exact (Message.valid_system rfl).mpr h

/-- What `send` does after the loop leaves the texts valid: it may cut the history back. -/
theorem Session.Valid.finishSend {cfg : Config} {schemas : List Json} {s : Session W}
    (h : s.Valid cfg schemas) (mark : Nat) (res : ApiResult) :
    Session.Valid cfg schemas { s with agent := s.agent.finishSend mark res } := by
  unfold Agent.finishSend
  split
  · refine ⟨h.client, h.schemas, h.prompt, fun msg hmsg => ?_, h.loop.requests⟩
    rcases List.mem_append.mp hmsg with hmsg | hmsg
    · exact h.loop.history msg (List.mem_of_mem_take hmsg)
    · rw [List.eq_of_mem_replicate hmsg]
      exact (Message.valid_user rfl).mpr ⟨utf8_nil, by simp⟩
  · exact ⟨h.client, h.schemas, h.prompt, h.loop.history, h.loop.requests⟩

/-- **A turn**, whether it returns or raises. -/
theorem keepsSession_send (lib : JsonText) (net : Net W) {cfg : Config} {schemas : List Json}
    {message : Bytes} (hmessage : Utf8 message) {images : List ImagePart}
    (himages : ∀ img ∈ images, Utf8 img.dataUrl) (cb : AgentCallbacks W)
    (cancel : Option (CancelFlag W)) :
    Exec.Within (KeepsSession cfg schemas)
      (sendRound lib (Agent.chatRound lib net cb cancel) message images cb cancel) := by
  intro s
  unfold sendRound
  simp only [Exec.post_bind, Exec.post_get, Exec.post_modify, Exec.post_zoom, Exec.post_pure]
  have hround : RoundValid (Agent.chatRound lib net cb cancel s.agent) := fun history w =>
    s.agent.client.chat_valid lib net history s.agent.toolSchemas cb.onContent cb.onReasoning
      cancel w
  have huser : (Message.user message images).Valid :=
    (Message.valid_user rfl).mpr ⟨hmessage, himages⟩
  have hloop : ∀ t, KeepsTexts ⟨s.agent.history ++ [Message.user message images], s.agent.gate,
      s.world, s.trace⟩ t → OutputsValid.holds t.trace → s.Valid cfg schemas →
      (Session.putLoop t s).Valid cfg schemas := by
    intro t h hok hs
    have hhistory : ∀ msg ∈ s.agent.history ++ [Message.user message images], msg.Valid :=
      fun msg hmsg => (List.mem_append.mp hmsg).elim (hs.loop.history msg)
        fun hmsg => List.mem_singleton.mp hmsg ▸ huser
    exact ⟨hs.client, hs.schemas, hs.prompt, h.keeps hok ⟨hhistory, hs.loop.requests⟩⟩
  refine (keepsTexts_runToolLoop lib hround s.agent.tools cb s.agent.cfg.maxToolIterations
    cancel _).mono (fun res t h => ?_) (fun _ t h => ?_)
  · exact ⟨h.grows, fun hok hs => (hloop t h hok hs).finishSend _ res⟩
  · exact ⟨h.grows, hloop t h⟩

/-- **One operation.** -/
theorem keepsSession_runOp (lib : JsonText) (net : Net W) {cfg : Config} {schemas : List Json}
    {op : AgentOp W} (hop : op.Valid lib net) :
    Exec.Within (KeepsSession cfg schemas) (runOp lib op) := by
  cases op with
  | send message images cb cancel round =>
    obtain ⟨hmessage, himages, rfl⟩ := hop
    exact (keepsSession_send lib net hmessage himages cb cancel).bind fun _ => Exec.Within.pure _
  | reset =>
    exact fun s => Exec.KeepsWhile.of_log_eq rfl fun hs =>
      ⟨hs.client, hs.schemas, hs.prompt, Agent.promptMessages_valid hs.prompt, hs.loop.requests⟩
  | compactIntoSummary summary =>
    refine fun s => Exec.KeepsWhile.of_log_eq rfl fun hs =>
      ⟨hs.client, hs.schemas, hs.prompt, fun msg hmsg => ?_, hs.loop.requests⟩
    rcases List.mem_append.mp hmsg with hmsg | hmsg
    · exact Agent.promptMessages_valid hs.prompt msg hmsg
    · rw [List.mem_singleton.mp hmsg]
      exact (Message.valid_system rfl).mpr (((utf8_bytes _).append (utf8_bytes _)).append hop)
  | setModel model =>
    exact fun s => Exec.KeepsWhile.of_log_eq rfl fun hs =>
      ⟨hs.client, hs.schemas, hs.prompt, hs.loop.history, hs.loop.requests⟩
  | setSystemPrompt prompt =>
    exact fun s => Exec.KeepsWhile.of_log_eq rfl fun hs =>
      ⟨hs.client, hs.schemas, hop, hs.loop.history, hs.loop.requests⟩

theorem Session.start_valid (lib : JsonText) (net : Net W) {cfg : Config}
    (hprompt : Utf8 cfg.systemPrompt) (confirmer : Option (Confirmer W)) (tools : List (Tool W))
    (w : W) :
    (Session.start lib net cfg confirmer tools w).Valid cfg (tools.map Tool.schema) := by
  have hstart : ∀ a : Agent W, a.client = ⟨cfg⟩ → a.toolSchemas = .array (tools.map Tool.schema) →
      a.cfg = cfg → ∀ w', Session.Valid cfg (tools.map Tool.schema) ⟨a.reset, w', []⟩ :=
    fun a hclient hschemas hcfg w' =>
      have hp : Utf8 a.cfg.systemPrompt := hcfg ▸ hprompt
      ⟨hclient, hschemas, hp, Agent.promptMessages_valid hp, by simp [Session.loop]⟩
  unfold Session.start Agent.create
  split <;> exact hstart _ rfl rfl rfl _

theorem Session.Valid.sendable {lib : JsonText} {cfg : Config} {schemas : List Json}
    {s : Session W} (h : s.Valid cfg schemas) (hmodel : Utf8 cfg.model)
    (hschemas : ∀ t ∈ schemas, t.ValidText) : s.Sendable lib := by
  intro history hh
  rw [h.client, h.schemas, ApiClient.request_ok_iff]
  refine ⟨hmodel, ?_, hschemas⟩
  rcases hh with rfl | hh
  · exact h.loop.history
  · exact h.loop.requests history hh

/-- **Which sessions can go on.**  In a session whose operations, prompt, model and schemas are
valid text, and whose executed tools have returned valid text so far, every history that was
reached can be sent, also where the session has raised. -/
theorem runOps_sendable (lib : JsonText) (net : Net W) (cfg : Config)
    (confirmer : Option (Confirmer W)) (tools : List (Tool W)) (w : W) (ops : List (AgentOp W))
    (hmodel : Utf8 cfg.model) (hprompt : Utf8 cfg.systemPrompt)
    (hschemas : ∀ t ∈ tools, t.schema.ValidText) (hops : ∀ op ∈ ops, op.Valid lib net) :
    Exec.Post (runOps lib ops) (Session.start lib net cfg confirmer tools w)
      (fun _ s => OutputsValid.holds s.trace → s.Sendable lib)
      (fun _ s => OutputsValid.holds s.trace → s.Sendable lib) := by
  have hrun := Exec.Within.forM (R := KeepsSession cfg (tools.map Tool.schema)) ops
    (fun op hop => keepsSession_runOp lib net (hops op hop))
  have hstart := Session.start_valid lib net hprompt confirmer tools w
  have hschemas' : ∀ t ∈ tools.map Tool.schema, t.ValidText := by simpa using hschemas
  exact (hrun _).mono
    (fun _ _ h hok => (h.keeps hok hstart).sendable hmodel hschemas')
    (fun _ _ h hok => (h.keeps hok hstart).sendable hmodel hschemas')

def notesArgs : Bytes := bytes "\x7b\"path\":\"notes\"\x7d"

/-- A call of `read_file`, in one fragment. -/
def notesCall : List Fragment := [⟨0, some (bytes "1", bytes "read_file"), notesArgs⟩]

def notesCallText : Bytes :=
  bytes "\x7b\"choices\":[\x7b\"delta\":\x7b\"tool_calls\":[" ++
    bytes "\x7b\"id\":\"1\",\"index\":0,\"function\":\x7b\"name\":\"read_file\"," ++
    bytes "\"arguments\":\"\x7b\\\"path\\\":\\\"notes\\\"\x7d\"\x7d\x7d]\x7d\x7d]\x7d"

def notesLib : JsonText :=
  .ofTable [(notesCallText, chunkOf notesCall),
    (notesArgs, .object [(bytes "path", .string (bytes "notes"))])] (by
    simp (disch := decide) [chunkOf, notesCall, notesArgs, Fragment.toJson, Fragment.functionJson,
      Json.validText_ofFields_iff, Json.ValidText, Json.ValidItems, Json.ValidFields])

/-- A server that asks for the file `notes` at every request. -/
def notesNet : Net Unit := Net.replying [dataLine notesCallText ++ [newline]]

def notesConfig : Config := { contextSize := 8192, maxToolIterations := 2 }

def notesTools (content : Bytes) : List (Tool Unit) :=
  [readFileTool notesLib (Host.ofFiles [(bytes "notes", content)])]

def notesOps : List (AgentOp Unit) :=
  [.send (bytes "hi") [] {} none (Agent.chatRound notesLib notesNet {} none)]

theorem runOps_sendable_notes :
    Exec.Post (runOps notesLib notesOps)
      (Session.start notesLib notesNet notesConfig none (notesTools (bytes "milk")) ())
      (fun _ s => OutputsValid.holds s.trace → s.Sendable notesLib)
      (fun _ s => OutputsValid.holds s.trace → s.Sendable notesLib) := by
  have hschemas : ∀ t ∈ notesTools (bytes "milk"), t.schema.ValidText := by
    intro t ht
    rw [List.mem_singleton.mp ht]
    exact Builtin.schema_validText notesLib (Host.ofFiles [(bytes "notes", bytes "milk")]) {}
      .readFile
  have hops : ∀ op ∈ notesOps, op.Valid notesLib notesNet := by
    intro op hop
    rw [List.mem_singleton.mp hop]
    exact ⟨utf8_bytes _, by simp, rfl⟩
  -- with the operations opaque, stating the instance does not run them
  generalize notesOps = ops at hops ⊢
  exact runOps_sendable notesLib notesNet notesConfig none (notesTools (bytes "milk")) () ops
    utf8_nil utf8_nil hschemas hops

theorem Session.Sendable.valid {lib : JsonText} {s : Session W} (h : s.Sendable lib)
    {schemas : List Json} (hs : s.agent.toolSchemas = .array schemas) :
    ∀ msg ∈ s.agent.history, msg.Valid := by
  have hreq := h s.agent.history (Or.inl rfl)
  rw [hs, ApiClient.request_ok_iff] at hreq
  exact hreq.2.1

set_option maxRecDepth 10000 in
/-- A file with a byte that is no text: the request after `read_file` raises. -/
theorem readFile_notSendable :
    ∃ s, runOps notesLib notesOps
        (Session.start notesLib notesNet notesConfig none (notesTools [0xFF]) ()) =
          .error (.typeError 316) s ∧
      ¬ s.Sendable notesLib := by
  obtain ⟨s, hrun, hlast, hschemas⟩ : ∃ s, runOps notesLib notesOps
      (Session.start notesLib notesNet notesConfig none (notesTools [0xFF]) ()) =
        .error (.typeError 316) s ∧
      s.agent.history.getLast? = some (Message.toolResult (bytes "1") [0xFF]) ∧
      s.agent.toolSchemas = .array ((notesTools [0xFF]).map Tool.schema) := ⟨_, rfl, rfl, rfl⟩
  refine ⟨s, hrun, fun h => ?_⟩
  exact absurd (h.valid hschemas _ (List.mem_of_getLast? hlast)).content (by decide)

end SimpleCoder

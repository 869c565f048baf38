/-
# The conversation of the event loop

The agent is changed from two threads: a turn runs in the worker, and `/clear`, `/model`, `/init`
and `/compact` call its members in the UI thread.  Whatever is typed, whatever the server and the
tools do and however the threads take turns, the history stays a conversation, and what the user
has said in it is what has been sent.

* §1: what the UI thread does to the session is what the calls it logs do (`Acted`).
* §2 says so of the commands, and §3 of the keys and the events.
* §4 keeps a list of the messages sent: a turn that is done adds its own, and forgetting the
  conversation empties the list.  §5 is the invariant, and §6 holds it over all runs.
-/
import SimpleCoder.Lib.Labelled
import SimpleCoder.Agent.Protocol
import SimpleCoder.App.TurnMachine

namespace SimpleCoder

variable {W : Type}

/-! ## 1. The calls on the agent -/

/-- What a call does to the agent. -/
inductive AgentCall.Does : Agent W → AgentCall → Agent W → Prop
  | reset (a : Agent W) : Does a .reset a.reset
  | setModel (a : Agent W) (model : Bytes) : Does a .setModel (a.setModel model)
  | setSystemPrompt (a : Agent W) (prompt : Bytes) :
    Does a .setSystemPrompt (a.setSystemPrompt prompt)
  | compactIntoSummary (a : Agent W) (summary : Bytes) :
    Does a .compactIntoSummary (a.compactIntoSummary summary)

/-- The calls that empty the conversation. -/
def AgentCall.forgets : AgentCall → Bool
  | .reset | .compactIntoSummary => true
  | .setModel | .setSystemPrompt => false

/-- The calls on the agent in a log. -/
def agentCalls (calls : List UiCall) : List AgentCall :=
  calls.filterMap fun
    | .agent c => some c
    | _ => none

namespace LiveApp

/-- The UI thread has come from one state to the other. -/
def Acted (r r' : LiveApp W) : Prop :=
  r'.session.trace = r.session.trace ∧ ∃ calls, agentCalls r'.calls = agentCalls r.calls ++ calls ∧
    Exec.Labelled AgentCall.Does r.session.agent calls r'.session.agent

/-- It has left the agent alone. -/
structure Spared (r r' : LiveApp W) : Prop where
  trace : r'.session.trace = r.session.trace
  agent : r'.session.agent = r.session.agent
  calls : agentCalls r'.calls = agentCalls r.calls

section Acted

variable {r r' r'' : LiveApp W}

theorem Spared.refl (r : LiveApp W) : r.Spared r := ⟨rfl, rfl, rfl⟩

theorem Spared.trans (h : r.Spared r') (h' : r'.Spared r'') : r.Spared r'' :=
  ⟨h'.trace.trans h.trace, h'.agent.trans h.agent, h'.calls.trans h.calls⟩

theorem Spared.acted (h : r.Spared r') : r.Acted r' := by
  refine ⟨h.trace, [], by rw [h.calls, List.append_nil], ?_⟩
  rw [h.agent]
  exact .nil _

theorem Acted.refl (r : LiveApp W) : r.Acted r := (Spared.refl r).acted

theorem Acted.trans (h : r.Acted r') (h' : r'.Acted r'') : r.Acted r'' := by
  obtain ⟨htrace, calls, hcalls, hdoes⟩ := h
  obtain ⟨htrace', calls', hcalls', hdoes'⟩ := h'
  refine ⟨htrace'.trans htrace, calls ++ calls', ?_, hdoes.append hdoes'⟩
  rw [hcalls', hcalls, List.append_assoc]

theorem Acted.spared (h : r.Acted r') (h' : r'.Spared r'') : r.Acted r'' := h.trans h'.acted

theorem Spared.acts (h : r.Spared r') (h' : r'.Acted r'') : r.Acted r'' := h.acted.trans h'

theorem agentCalls_snoc (calls : List UiCall) (c : AgentCall) :
    agentCalls (calls ++ [.agent c]) = agentCalls calls ++ [c] := by
  simp [agentCalls]

/-- **A member of the agent is called.** -/
theorem acted_callAgent (r : LiveApp W) {c : AgentCall} {f : Agent W → Agent W}
    (h : c.Does r.session.agent (f r.session.agent)) : r.Acted (r.callAgent c f) :=
  ⟨rfl, [c], agentCalls_snoc r.calls c, .cons h (.nil _)⟩

/-! ## 2. The commands -/

theorem spared_note (r : LiveApp W) (text : Bytes) (style : ChatView.Style) :
    r.Spared (r.note text style) := ⟨rfl, rfl, rfl⟩

theorem spared_notes (r : LiveApp W) (style : ChatView.Style) (texts : List Bytes) :
    r.Spared (r.notes style texts) := by
  induction texts generalizing r with
  | nil => exact .refl r
  | cons text texts ih => exact (spared_note r text style).trans (ih _)

theorem spared_setWorld (r : LiveApp W) (w : W) : r.Spared (r.setWorld w) := ⟨rfl, rfl, rfl⟩

theorem spared_startWorker (r : LiveApp W) (w : Worker) : r.Spared (r.startWorker w) := by
  unfold startWorker
  split
  · exact ⟨rfl, rfl, rfl⟩
  · exact ⟨rfl, rfl, by simp [agentCalls]⟩

theorem Spared.submit (h : r.Spared r') (kind : TurnKind) (display payload : Bytes)
    (images : List ImagePart) : r.Spared (r'.submit kind display payload images) := by
  unfold LiveApp.submit
  have hnotes := spared_notes { r' with view := r'.view.add (bytes "> ") display .normal } .dim
    (images.map imageLine)
  have hshown : r'.Spared { r' with view := r'.view.add (bytes "> ") display .normal } :=
    ⟨rfl, rfl, rfl⟩
  have hall := h.trans (hshown.trans hnotes)
  refine Spared.trans ?_ (spared_startWorker _ _)
  exact ⟨hall.trace, hall.agent, hall.calls⟩

theorem spared_handleUserInput (env : Surroundings W) (r : LiveApp W) (line : Bytes) :
    r.Spared (r.handleUserInput env line) := by
  unfold handleUserInput
  rcases expandAttachments env.readFile line r.session.agent.cfg.maxImageBytes r.session.world
    with ⟨ex, w⟩
  have hworld := spared_setWorld r w
  dsimp only
  split
  · exact hworld.trans (spared_notes _ _ _)
  · have hsent : r.Spared (({ r.setWorld w with lastUserMessage := line }).submit .ordinary line
        ex.text ex.images) := by
      refine Spared.submit ?_ _ _ _ _
      exact ⟨rfl, rfl, rfl⟩
    split
    · exact hsent
    · exact hsent.trans (spared_note _ _ _)

theorem spared_runInit (env : Surroundings W) (r : LiveApp W) : r.Spared (r.runInit env) := by
  unfold runInit
  dsimp only
  generalize (if env.project.hasAgentsMd r.session.world then
    env.project.askOverwrite r.session.world else (ConfirmChoice.yes, r.session.world)) = choice
  split
  · exact (spared_setWorld r choice.2).trans (spared_note _ _ _)
  · refine Spared.submit ?_ _ _ _ _
    exact ⟨rfl, rfl, rfl⟩

theorem spared_runCompact (r : LiveApp W) (automatic : Bool) :
    r.Spared (r.runCompact automatic) := by
  unfold runCompact
  split
  · exact spared_note _ _ _
  · refine Spared.submit ?_ _ _ _ _
    exact ⟨rfl, rfl, rfl⟩

theorem spared_runSkill (r : LiveApp W) (arg : Bytes) : r.Spared (r.runSkill arg) := by
  unfold LiveApp.runSkill
  split
  · split
    · exact spared_note _ _ _
    · exact (spared_note _ _ _).trans (spared_notes _ _ _)
  · exact spared_note _ _ _
  · exact (Spared.refl r).submit _ _ _ _

theorem acted_finishInit (env : Surroundings W) (r : LiveApp W) : r.Acted (r.finishInit env) := by
  have hcall : r.Spared (r.call .finishInit) := ⟨rfl, rfl, by simp [agentCalls, call]⟩
  unfold finishInit
  dsimp only
  split
  · exact (hcall.trans (spared_note _ _ _)).acted
  · rcases env.project.openAgentsMd (r.call .finishInit).session.world with ⟨_ | _, w⟩
    · exact (hcall.trans ((spared_setWorld _ w).trans (spared_note _ _ _))).acted
    · refine (hcall.acts ?_).spared (spared_note _ _ _)
      exact (Spared.mk rfl rfl rfl).acts (acted_callAgent _ (.setSystemPrompt _ _))

theorem acted_finishCompact (r : LiveApp W) : r.Acted r.finishCompact := by
  have hcall : r.Spared (r.call .finishCompact) := ⟨rfl, rfl, by simp [agentCalls, call]⟩
  unfold finishCompact
  dsimp only
  split
  · exact (hcall.trans (spared_note _ _ _)).acted
  · exact (hcall.acts (acted_callAgent _ (.compactIntoSummary _ _))).spared (spared_note _ _ _)

theorem acted_modelCommand (env : Surroundings W) (r : LiveApp W) (arg : Bytes) :
    r.Acted (r.modelCommand env arg) := by
  unfold modelCommand
  split
  · dsimp only
    split <;> exact ((spared_setWorld r _).trans (spared_notes _ _ _)).acted
  · exact (acted_callAgent r (.setModel _ _)).spared (spared_note _ _ _)

/-- **A line that was entered.** -/
theorem acted_runLine (env : Surroundings W) (r : LiveApp W) (line : Bytes) :
    r.Acted (r.runLine env line) := by
  unfold runLine
  dsimp only
  split
  · split
    · exact .refl r
    · exact (spared_handleUserInput env r line).acted
  · exact (Spared.mk rfl rfl rfl).acted
  · exact .refl r
  · exact (Spared.mk rfl rfl rfl : r.Spared { r with view := r.view.clear }).acts
      (acted_callAgent _ (.reset _))
  · split
    · exact (spared_note _ _ _).acted
    · exact (spared_handleUserInput env r _).acted
  · exact acted_modelCommand env r _
  · exact (spared_runInit env r).acted
  · exact (spared_runCompact r false).acted
  · exact (spared_runSkill r _).acted
  · split
    · exact (spared_runSkill r _).acted
    · exact (spared_note _ _ _).acted

/-! ## 3. The keys and the events -/

theorem acted_inputKey (env : Surroundings W) (r : LiveApp W) (ch : Int) :
    r.Acted (r.inputKey env ch) := by
  unfold inputKey
  split
  · exact (Spared.mk rfl rfl rfl).acted
  · exact (Spared.mk rfl rfl rfl).acts (acted_runLine env _ _)

theorem spared_arrowKey (r : LiveApp W) (ch : Int) (scroll : ChatView → ChatView) :
    r.Spared (r.arrowKey ch scroll) := by
  unfold arrowKey
  split <;> exact ⟨rfl, rfl, rfl⟩

theorem spared_wheelKey (r : LiveApp W) (wheel : Option Wheel) :
    r.Spared (r.wheelKey wheel) := by
  unfold wheelKey
  split <;> exact ⟨rfl, rfl, rfl⟩

theorem spared_altKey (r : LiveApp W) (next : Keypress) : r.Spared (r.altKey next) := by
  unfold altKey
  split
  · exact ⟨rfl, rfl, rfl⟩
  · split <;> exact ⟨rfl, rfl, rfl⟩

theorem spared_requestCancel (r : LiveApp W) : r.Spared r.requestCancel := by
  unfold requestCancel
  split <;> exact ⟨rfl, rfl, rfl⟩

theorem acted_controlKey (env : Surroundings W) (r : LiveApp W) (k : KeyRead) (ch : Int) :
    r.Acted (r.controlKey env k ch) := by
  have hview : ∀ v : ChatView, r.Spared { r with view := v } := fun _ => ⟨rfl, rfl, rfl⟩
  have harrow : ∀ scroll, r.Acted (r.arrowKey ch scroll) :=
    fun scroll => (spared_arrowKey r ch scroll).acted
  unfold controlKey
  refine iteInduction (fun _ => .refl r) fun _ => ?_
  refine iteInduction (fun _ => (spared_requestCancel r).acted) fun _ => ?_
  refine iteInduction (fun _ => (hview _).acted) fun _ => ?_
  refine iteInduction (fun _ => (hview _).acted) fun _ => ?_
  refine iteInduction (fun _ => (hview _).acted) fun _ => ?_
  refine iteInduction (fun _ => (spared_wheelKey r k.wheel).acted) fun _ => ?_
  refine iteInduction (fun _ => harrow _) fun _ => ?_
  refine iteInduction (fun _ => harrow _) fun _ => ?_
  refine iteInduction (fun _ => harrow _) fun _ => ?_
  refine iteInduction (fun _ => harrow _) fun _ => ?_
  refine iteInduction (fun _ => harrow _) fun _ => ?_
  refine iteInduction (fun _ => (Spared.mk rfl rfl rfl).acted) fun _ => ?_
  refine iteInduction (fun _ => (spared_altKey r k.next).acted) fun _ => ?_
  exact acted_inputKey env r ch

/-- **A key.** -/
theorem acted_handleKey (env : Surroundings W) (r : LiveApp W) (k : KeyRead) :
    r.Acted (r.handleKey env k) := by
  unfold handleKey
  split
  · exact (Spared.mk rfl rfl rfl).acted
  · split
    · split
      · exact .refl r
      · exact (Spared.mk rfl rfl rfl).acted
    · exact acted_controlKey env r k _
  · exact acted_controlKey env r k _

theorem spared_foldThinking (r : LiveApp W) : r.Spared r.foldThinking := by
  unfold foldThinking
  split <;> exact ⟨rfl, rfl, rfl⟩

theorem spared_joinWorker (r : LiveApp W) (outcome : Outcome) :
    r.Spared (r.joinWorker outcome) := by
  unfold joinWorker
  split
  · exact .refl r
  · exact ⟨rfl, rfl, by simp [agentCalls]⟩

theorem spared_showReasoning (r : LiveApp W) (text : Bytes) : r.Spared (r.showReasoning text) := by
  unfold showReasoning
  split <;> exact ⟨rfl, rfl, rfl⟩

theorem spared_showDelta (r : LiveApp W) (text : Bytes) : r.Spared (r.showDelta text) := by
  have hfold := spared_foldThinking r
  unfold showDelta
  split
  · exact ⟨rfl, rfl, rfl⟩
  · exact ⟨hfold.trace, hfold.agent, hfold.calls⟩

theorem acted_finishNoted (env : Surroundings W) (r : LiveApp W) :
    r.Acted (r.finishNoted env) := by
  have hinit : r.Acted (if r.initPending then { r.finishInit env with initPending := false }
      else r) := by
    split
    · exact (acted_finishInit env r).spared ⟨rfl, rfl, rfl⟩
    · exact .refl r
  have hcompact : ∀ q : LiveApp W, q.Acted
      (if q.compactPending then { q.finishCompact with compactPending := false } else q) := by
    intro q
    split
    · exact (acted_finishCompact q).spared ⟨rfl, rfl, rfl⟩
    · exact .refl q
  unfold finishNoted
  exact hinit.trans (hcompact _)

theorem spared_maybeAutoCompact (r : LiveApp W) : r.Spared r.maybeAutoCompact := by
  unfold maybeAutoCompact
  dsimp only
  split
  · exact (spared_note _ _ _).trans (spared_runCompact _ _)
  · exact .refl r

theorem acted_afterDone (env : Surroundings W) (r : LiveApp W) : r.Acted (r.afterDone env) := by
  unfold afterDone
  dsimp only
  split
  · exact acted_finishNoted env r
  · exact (acted_finishNoted env r).spared (spared_maybeAutoCompact _)

/-- **An event.** -/
theorem acted_handleEvent (env : Surroundings W) (r : LiveApp W) (e : UiEvent) :
    r.Acted (r.handleEvent env e) := by
  cases e with
  | reasoning text => exact (spared_showReasoning r text).acted
  | delta text => exact (spared_showDelta r text).acted
  | toolInfo | toolResult | confirmRequest => exact (Spared.mk rfl rfl rfl).acted
  | done =>
    have hjoin := (spared_foldThinking r).trans (spared_joinWorker _ .done)
    have hfree : r.Spared { r.foldThinking.joinWorker .done with busy := false } :=
      ⟨hjoin.trace, hjoin.agent, hjoin.calls⟩
    exact hfree.acts (acted_afterDone env _)
  | canceled =>
    have hjoin := (spared_foldThinking r).trans (spared_joinWorker _ .canceled)
    exact (Spared.mk hjoin.trace hjoin.agent hjoin.calls).acted
  | error text =>
    have hjoin := spared_joinWorker r .failed
    exact (Spared.mk hjoin.trace hjoin.agent hjoin.calls).acted

end Acted
end LiveApp

/-! ## 4. The messages sent -/

/-- What the user has said in a history. -/
def userSaid (history : List Message) : List Message := history.filter fun m => m.role = .user

/-- The message that a worker sends. -/
def Worker.message (w : Worker) : Message := Message.user w.payload w.images

def UiEvent.isDone : UiEvent → Bool
  | .done => true
  | _ => false

namespace LiveApp

/-- The message of the turn, if this is the step in which the worker says that it is done. -/
def doneMessage (r r' : LiveApp W) : List Message :=
  match r.worker, r'.worker with
  | some w, some w' =>
    if !w.ended && w'.ended && w'.pushed.getLast?.any UiEvent.isDone then [w.message] else []
  | _, _ => []

/-- Whether the conversation is forgotten in this step. -/
def forgets (r r' : LiveApp W) : Bool :=
  ((agentCalls r'.calls).drop (agentCalls r.calls).length).any AgentCall.forgets

/-- A run, and the messages sent in it since the conversation was last forgotten. -/
inductive Run (env : Surroundings W) (r₀ : LiveApp W) : LiveApp W → List Message → Prop
  | start : Run env r₀ r₀ []
  | step {r r' : LiveApp W} {sent : List Message} (hrun : Run env r₀ r sent)
    (hstep : Step env r r') :
    Run env r₀ r' ((if r.forgets r' then [] else sent) ++ r.doneMessage r')

end LiveApp

theorem userSaid_append (history history' : List Message) :
    userSaid (history ++ history') = userSaid history ++ userSaid history' :=
  List.filter_append ..

theorem userSaid_promptMessages (a : Agent W) : userSaid a.promptMessages = [] := by
  obtain ⟨prompt, hprompt⟩ := a.promptMessages_eq
  rw [hprompt]
  cases prompt <;> rfl

/-- The groups of a turn are between the model and its tools. -/
theorem IsGroup.userSaid {group : List Message} (h : IsGroup group) : userSaid group = [] := by
  obtain @⟨content, calls, outputs, hcalls, hlen⟩ := h
  refine List.filter_eq_nil_iff.mpr fun m hm => ?_
  rcases List.mem_cons.mp hm with rfl | hm
  · simp [toolRequest]
  · rw [← List.map_uncurry_zip_eq_zipWith] at hm
    obtain ⟨⟨c, output⟩, -, rfl⟩ := List.mem_map.mp hm
    simp [Message.toolResult]

theorem userSaid_groups {groups : List (List Message)} (h : ∀ g ∈ groups, IsGroup g) :
    userSaid groups.flatten = [] := by
  induction groups with
  | nil => rfl
  | cons g groups ih =>
    rw [List.flatten_cons, userSaid_append, (h g List.mem_cons_self).userSaid,
      ih fun g' hg' => h g' (List.mem_cons_of_mem _ hg')]
    rfl

theorem userSaid_user (text : Bytes) (images : List ImagePart) {groups : List (List Message)}
    (h : ∀ g ∈ groups, IsGroup g) :
    userSaid (Message.user text images :: groups.flatten) = [Message.user text images] := by
  rw [show Message.user text images :: groups.flatten =
    [Message.user text images] ++ groups.flatten from rfl, userSaid_append, userSaid_groups h]
  rfl

/-! ## 5. The invariant -/

/-- An agent to which the user has said these messages. -/
structure Conversed (tools : List (Tool W)) (sent : List Message) (a : Agent W) : Prop where
  tools : a.tools = tools
  history : IsConversation a.history
  userSaid : userSaid a.history = sent

section Conversed

variable {tools : List (Tool W)} {sent : List Message} {a a' : Agent W}

theorem Conversed.reset (h : a.tools = tools) : Conversed tools [] a.reset :=
  ⟨h, a.isConversation_reset, userSaid_promptMessages a⟩

theorem Conversed.compactIntoSummary (h : a.tools = tools) (summary : Bytes) :
    Conversed tools [] (a.compactIntoSummary summary) := by
  refine ⟨h, a.isConversation_compact summary, ?_⟩
  show SimpleCoder.userSaid (a.promptMessages ++ [Agent.summaryMessage summary]) = []
  rw [userSaid_append, userSaid_promptMessages]
  rfl

/-- A call on the agent. -/
theorem AgentCall.Does.conversed {c : AgentCall} (h : c.Does a a') (ha : Conversed tools sent a) :
    Conversed tools (if c.forgets then [] else sent) a' := by
  cases h with
  | reset => exact .reset ha.tools
  | setModel model => exact ⟨ha.tools, ha.history, ha.userSaid⟩
  | setSystemPrompt prompt => exact ⟨ha.tools, ha.history, ha.userSaid⟩
  | compactIntoSummary summary => exact .compactIntoSummary ha.tools summary

theorem conversed_calls {calls : List AgentCall} (h : Exec.Labelled AgentCall.Does a calls a')
    (ha : Conversed tools sent a) :
    Conversed tools (if calls.any AgentCall.forgets then [] else sent) a' := by
  induction h generalizing sent with
  | nil a => exact ha
  | @cons a b a' c calls hc _ ih =>
    have hrest := ih (hc.conversed ha)
    rw [List.any_cons]
    cases hforgets : c.forgets with
    | false => simpa [hforgets] using hrest
    | true => simpa [hforgets] using hrest

variable {message : Bytes} {images : List ImagePart} {s s' : Session W} {res : ApiResult}

/-- **A turn**: its message is kept if it was done. -/
theorem Turned.conversed (h : Turned message images s res s') (hs : Conversed tools sent s.agent) :
    Conversed tools (sent ++ if res.ok then [Message.user message images] else []) s'.agent := by
  have htools : s'.agent.tools = tools := h.kept.2.2.1.trans hs.tools
  cases hok : res.ok with
  | false =>
    have hagent := h.failed hok
    rw [if_neg Bool.false_ne_true, List.append_nil]
    exact ⟨htools, by rw [hagent]; exact hs.history, by rw [hagent]; exact hs.userSaid⟩
  | true =>
    obtain ⟨groups, hgroups, hhistory⟩ := h.succeeded hok
    refine ⟨htools, ?_, ?_⟩
    · rw [hhistory]
      exact hs.history.turn (IsTurn.mk message images res.content hgroups)
    · rw [hhistory, ← List.cons_append, userSaid_append, userSaid_append,
        userSaid_user _ _ hgroups, hs.userSaid]
      rfl

/-- Its requests carry what has been said before and its message. -/
theorem Turned.requests (h : Turned message images s res s') (hs : Conversed tools sent s.agent)
    {history : List Message}
    (hreq : Event.request history ∈ s'.trace.drop s.trace.length) :
    IsRequest history ∧ userSaid history = sent ++ [Message.user message images] := by
  obtain ⟨new, hnew, hnewReq⟩ := h.trace
  rw [hnew, List.drop_left] at hreq
  obtain ⟨groups, hgroups, rfl⟩ := hnewReq history hreq
  refine ⟨IsRequest.mk message images hs.history hgroups, ?_⟩
  rw [userSaid_append, hs.userSaid, userSaid_user _ _ hgroups]

end Conversed

/-! ## 6. All runs -/

namespace LiveApp

section Runs

variable {tools : List (Tool W)} {sent : List Message} {r r' : LiveApp W} {env : Surroundings W}

/-- What the UI thread does. -/
theorem Acted.conversed (h : r.Acted r') (hr : Conversed tools sent r.session.agent) :
    Conversed tools (if r.forgets r' then [] else sent) r'.session.agent := by
  obtain ⟨-, calls, hcalls, hdoes⟩ := h
  unfold forgets
  rw [hcalls, List.drop_left]
  exact conversed_calls hdoes hr

/-- No turn is done when the worker had ended before, or goes on. -/
theorem doneMessage_eq_nil
    (h : ∀ w w', r.worker = some w → r'.worker = some w' → w.ended = false → w'.ended = false) :
    r.doneMessage r' = [] := by
  unfold doneMessage
  split
  · rename_i w w' hw hw'
    cases hended : w.ended with
    | true => rfl
    | false =>
      rw [h w w' hw hw' hended]
      rfl
  · rfl

theorem Pressed.doneMessage (h : r.Pressed env r') (hr : r.control.Turning) :
    r.doneMessage r' = [] := by
  refine doneMessage_eq_nil fun w w' hw hw' hended => ?_
  cases h with
  | looked hsame =>
    have hworker : r'.worker = r.worker := congrArg Control.worker hsame.control
    rw [hworker, hw] at hw'
    cases hw'
    exact hended
  | entered hbusy line bar =>
    obtain ⟨p, -, hfree⟩ := (hr.idle hbusy).free
    cases hw.symm.trans hfree.worker

/-- The worker ends before its last event is handled. -/
theorem doneMessage_event (hr : r.control.Turning) {e : UiEvent} {es : List UiEvent}
    (hev : r.events = e :: es) : r.doneMessage ((r.pop e es).handleEvent env e) = [] := by
  obtain ⟨w₀, hact⟩ := hr.active_of_event hev
  have hqueued : w₀.Queued (e :: es) := hev ▸ hact.queued
  refine doneMessage_eq_nil fun w w' hw hw' hended => ?_
  cases hact.worker.symm.trans hw
  cases he : e.ends with
  | true =>
    have hevents := hqueued.events
    rw [hended, if_neg Bool.false_ne_true] at hevents
    rw [hevents e List.mem_cons_self] at he
    cases he
  | false =>
    have hworker : ((r.pop e es).handleEvent env e).worker = (r.pop e es).worker :=
      congrArg Control.worker (control_handleEvent env he)
    rw [hworker, worker_pop hw] at hw'
    cases hw'
    exact hended

theorem forgets_of_calls (h : r'.calls = r.calls) : r.forgets r' = false := by
  unfold forgets
  rw [h, List.drop_length]
  rfl

theorem endEvent_isDone (res : ApiResult) : (endEvent res).isDone = res.ok := by
  unfold endEvent
  cases res.ok with
  | true => rfl
  | false => cases res.canceled <;> rfl

/-- **The step in which the worker ends.** -/
theorem doneMessage_finish {w : Worker} (hw : r.worker = some w) (hrun : w.ended = false)
    (res : ApiResult) (s : Session W) :
    r.doneMessage (r.pushEnd w res s) = if res.ok then [w.message] else [] := by
  unfold doneMessage
  rw [hw]
  simp [pushEnd, hrun, endEvent_isDone]

/-- What a step keeps. -/
theorem conversed_step (hturning : r.control.Turning) (hr : Conversed tools sent r.session.agent)
    (hstep : Step env r r') :
    Conversed tools ((if r.forgets r' then [] else sent) ++ r.doneMessage r') r'.session.agent := by
  cases hstep with
  | key k hrun hdrain =>
    rw [(pressed_handleKey env r k).doneMessage hturning, List.append_nil]
    exact (acted_handleKey env r k).conversed hr
  | @event e es hdrain hev =>
    rw [doneMessage_event hturning hev, List.append_nil]
    have hacted := acted_handleEvent env (r.pop e es) e
    exact @Acted.conversed _ _ _ _ _ hacted hr
  | drained hdrain hev =>
    have hquiet : r.doneMessage { r with draining := false } = [] := by
      refine doneMessage_eq_nil fun w w' hw hw' hended => ?_
      cases hw.symm.trans hw'
      exact hended
    rw [hquiet, List.append_nil]
    exact (Spared.mk rfl rfl rfl).acted.conversed hr
  | @callback w c hw hrun =>
    have hquiet : r.doneMessage (r.push w c.event) = [] := by
      refine doneMessage_eq_nil fun w₀ w' hw₀ hw' _ => ?_
      cases hw'
      exact hrun
    rw [hquiet, List.append_nil]
    exact (Spared.mk rfl rfl rfl).acted.conversed hr
  | @finish w round cb cancel res s hw hrun hsend =>
    have hkept : r.forgets (r.pushEnd w res s) = false := forgets_of_calls rfl
    rw [hkept, doneMessage_finish hw hrun, if_neg Bool.false_ne_true]
    exact ((sendRound_post env.lib round w.payload w.images cb cancel r.session).of_ok
      hsend).conversed hr

/-- The requests of a step. -/
theorem requests_step (hr : Conversed tools sent r.session.agent) (hstep : Step env r r')
    {history : List Message}
    (hreq : Event.request history ∈ r'.session.trace.drop r.session.trace.length) :
    IsRequest history ∧ ∃ w, r.worker = some w ∧ userSaid history = sent ++ [w.message] := by
  have hsame : r'.session.trace ≠ r.session.trace := by
    intro htrace
    rw [htrace, List.drop_length] at hreq
    cases hreq
  cases hstep with
  | key k hrun hdrain => exact absurd (acted_handleKey env r k).1 hsame
  | @event e es hdrain hev => exact absurd (acted_handleEvent env (r.pop e es) e).1 hsame
  | drained hdrain hev => exact absurd rfl hsame
  | callback c hw hrun => exact absurd rfl hsame
  | @finish w round cb cancel res s hw hrun hsend =>
    have hturned := (sendRound_post env.lib round w.payload w.images cb cancel r.session).of_ok
      hsend
    obtain ⟨hrequest, hasked⟩ := hturned.requests hr hreq
    exact ⟨hrequest, w, hw, hasked⟩

theorem Run.turning {r₀ : LiveApp W} (h : Run env r₀ r sent) (h₀ : r₀.control.Turning) :
    r.control.Turning := by
  induction h with
  | start => exact h₀
  | step hrun hstep ih => exact turning_step env ih hstep

theorem Run.conversed {r₀ : LiveApp W} (h : Run env r₀ r sent) (h₀ : r₀.control.Turning)
    (hstart : Conversed tools [] r₀.session.agent) : Conversed tools sent r.session.agent := by
  induction h with
  | start => exact hstart
  | step hrun hstep ih => exact conversed_step (hrun.turning h₀) ih hstep

end Runs

/-- **The conversation of every run.**  Whatever is typed, whatever the server, the tools and the
gate do and however the two threads take turns, the history is a conversation, and what the user
has said in it is what was sent since it was last forgotten: the messages of the turns that were
done, each once and in order.  Every request that goes out next carries these and the message of
the turn in flight. -/
theorem run_conversed (env : Surroundings W) (cfg : Config) (confirmer : Option (Confirmer W))
    (tools : List (Tool W)) (w : W) (skills : SkillRegistry) (banner : Bytes) {r : LiveApp W}
    {sent : List Message}
    (h : Run env (start (Session.start env.lib env.net cfg confirmer tools w) skills banner) r
      sent) :
    IsConversation r.session.agent.history ∧ userSaid r.session.agent.history = sent ∧
      ∀ r' history, Step env r r' →
        Event.request history ∈ r'.session.trace.drop r.session.trace.length →
          IsRequest history ∧ ∃ w, r.worker = some w ∧ userSaid history = sent ++ [w.message] := by
  have hturning : (start (Session.start env.lib env.net cfg confirmer tools w) skills
      banner).control.Turning :=
    .inl ⟨⟨.idle, .inl rfl, rfl, rfl, rfl, rfl, rfl⟩, rfl, rfl⟩
  have hstart : Conversed tools [] (Session.start env.lib env.net cfg confirmer tools w).agent :=
    .reset rfl
  have hr := h.conversed hturning hstart
  exact ⟨hr.history, hr.userSaid, fun r' history hstep hreq => requests_step hr hstep hreq⟩

/-- `hi` is typed, and answered with a heading. -/
theorem run_greeted : ∃ r : LiveApp Unit,
    Run emptySurroundings initStart r [Message.user (bytes "hi") []] := by
  have h0 : Run emptySurroundings initStart initStart [] := .start
  have h1 := h0.step (.key (typed 0x68) rfl rfl)
  have h2 := h1.step (.key (typed 0x69) rfl rfl)
  have h3 := h2.step (.key (typed 10) rfl rfl)
  have h4 := h3.step (.finish headingRound {} none rfl rfl rfl)
  exact ⟨_, h4⟩

theorem run_conversed_greeted : ∃ r : LiveApp Unit,
    Run emptySurroundings initStart r [Message.user (bytes "hi") []] ∧
      IsConversation r.session.agent.history ∧
      userSaid r.session.agent.history = [Message.user (bytes "hi") []] := by
  obtain ⟨r, hr⟩ := run_greeted
  obtain ⟨hconv, hasked, -⟩ := run_conversed emptySurroundings {} none [] () {} [] hr
  exact ⟨r, hr, hconv, hasked⟩

end LiveApp

end SimpleCoder

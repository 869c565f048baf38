/-
# The conversation protocol

A server accepts a history only if every tool call in it is answered, once and in order, by the
messages right behind it.  §1 says what histories of an agent look like between operations
(`IsConversation`) and when a request goes out (`IsRequest`), and §2 that no operation leaves them:
whatever the server, the tools, the gate and the cancel flag do, in whatever order.
-/
import SimpleCoder.Agent.Agent

namespace SimpleCoder

variable {W : Type}

/-! ## 1. Conversations -/

/-- A completed turn: a user message, complete groups, and an answer without tool calls. -/
inductive IsTurn : List Message → Prop where
  | mk (text : Bytes) (images : List ImagePart) {groups : List (List Message)} (answer : Bytes) :
      (∀ g ∈ groups, IsGroup g) →
      IsTurn (Message.user text images :: (groups.flatten ++ [Message.assistant answer]))

/-- A history between operations: at most a system prompt, at most a summary, completed turns. -/
inductive IsConversation : List Message → Prop where
  | mk (prompt summary : Option Bytes) {turns : List (List Message)} : (∀ t ∈ turns, IsTurn t) →
      IsConversation ((prompt.map Message.system).toList ++
        (summary.map Agent.summaryMessage).toList ++ turns.flatten)

/-- A history that goes out with a request: a conversation, a user message, complete groups. -/
inductive IsRequest : List Message → Prop where
  | mk {history : List Message} (text : Bytes) (images : List ImagePart)
      {groups : List (List Message)} : IsConversation history → (∀ g ∈ groups, IsGroup g) →
      IsRequest (history ++ Message.user text images :: groups.flatten)

theorem IsConversation.turn {history turn : List Message} (h : IsConversation history)
    (ht : IsTurn turn) : IsConversation (history ++ turn) := by
  obtain @⟨prompt, summary, turns, hturns⟩ := h
  have hnew : ∀ t ∈ turns ++ [turn], IsTurn t := fun t hmem =>
    (List.mem_append.mp hmem).elim (hturns t) fun hlast => List.mem_singleton.mp hlast ▸ ht
  have h' := IsConversation.mk prompt summary hnew
  rwa [List.flatten_append, List.flatten_singleton, ← List.append_assoc] at h'

theorem Agent.promptMessages_eq (a : Agent W) :
    ∃ prompt : Option Bytes, a.promptMessages = (prompt.map Message.system).toList := by
  unfold promptMessages
  split
  · exact ⟨none, rfl⟩
  · exact ⟨some a.cfg.systemPrompt, rfl⟩

theorem Agent.isConversation_reset (a : Agent W) : IsConversation a.reset.history := by
  obtain ⟨prompt, hp⟩ := a.promptMessages_eq
  have h := @IsConversation.mk prompt none [] (by simp)
  simpa [Agent.reset, hp] using h

theorem Agent.isConversation_compact (a : Agent W) (summary : Bytes) :
    IsConversation (a.compactIntoSummary summary).history := by
  obtain ⟨prompt, hp⟩ := a.promptMessages_eq
  have h := @IsConversation.mk prompt (some summary) [] (by simp)
  simpa [Agent.compactIntoSummary, hp] using h

/-! ## 2. No operation leaves them -/

/-- The invariant of a session: the tools it started with, a conversation, and only requests that
may go out. -/
structure Session.Protocol (tools : List (Tool W)) (s : Session W) : Prop where
  tools : s.agent.tools = tools
  history : IsConversation s.agent.history
  requests : ∀ h, Event.request h ∈ s.trace → IsRequest h

/-- A turn keeps the invariant: a failed one leaves the history as it was, a successful one adds a
completed turn. -/
theorem Turned.protocol {tools : List (Tool W)} {message : Bytes} {images : List ImagePart}
    {s s' : Session W} {res : ApiResult} (h : Turned message images s res s')
    (hs : s.Protocol tools) : s'.Protocol tools := by
  refine ⟨h.kept.2.2.1.trans hs.tools, ?_, ?_⟩
  · cases hok : res.ok with
    | false =>
      rw [h.failed hok]
      exact hs.history
    | true =>
      obtain ⟨groups, hg, hh⟩ := h.succeeded hok
      rw [hh]
      exact hs.history.turn (IsTurn.mk message images res.content hg)
  · obtain ⟨new, hnew, hreq⟩ := h.trace
    intro x hx
    rw [hnew] at hx
    rcases List.mem_append.mp hx with hx | hx
    · exact hs.requests x hx
    · obtain ⟨groups, hg, rfl⟩ := hreq x hx
      exact IsRequest.mk message images hs.history hg

/-- The rounds of a turn do not raise. -/
def AgentOp.RoundsReturn : AgentOp W → Prop
  | .send _ _ _ _ round => ∀ a h w, Exec.Returns (round a h) w
  | _ => True

/-- **One operation** returns and keeps the invariant. -/
theorem runOp_protocol (lib : JsonText) {tools : List (Tool W)} (htools : ∀ t ∈ tools, t.Total)
    {op : AgentOp W} (hop : op.RoundsReturn) {s : Session W} (hs : s.Protocol tools) :
    Exec.Post (runOp lib op) s (fun _ s' => s'.Protocol tools) (fun _ _ => False) := by
  cases op with
  | send message images cb cancel round =>
    have hret : Exec.Returns (sendRound lib round message images cb cancel) s :=
      sendRound_returns lib (hop s.agent) (by rw [hs.tools]; exact htools) _ _ _ _
    unfold runOp
    rw [Exec.post_bind]
    exact (hret.and (sendRound_post lib round message images cb cancel s)).mono
      (fun _ _ h => h.2.protocol hs) (fun _ _ h => h.1)
  | reset => exact ⟨hs.tools, s.agent.isConversation_reset, hs.requests⟩
  | compactIntoSummary summary =>
    exact ⟨hs.tools, s.agent.isConversation_compact summary, hs.requests⟩
  | setModel model => exact ⟨hs.tools, hs.history, hs.requests⟩
  | setSystemPrompt prompt => exact ⟨hs.tools, hs.history, hs.requests⟩

theorem Session.start_protocol (lib : JsonText) (net : Net W) (cfg : Config)
    (confirmer : Option (Confirmer W)) (tools : List (Tool W)) (w : W) :
    (Session.start lib net cfg confirmer tools w).Protocol tools :=
  ⟨rfl, Agent.isConversation_reset _, by simp [Session.start]⟩

/-- **The conversation protocol.**  Any sequence of operations on a fresh agent, whose rounds and
tools do not raise, runs to its end and leaves a conversation behind; and every history it has
handed to a round was a conversation with an open turn, in which every tool call is answered once
and in order. -/
theorem runOps_conversation (lib : JsonText) (net : Net W) (cfg : Config)
    (confirmer : Option (Confirmer W)) (tools : List (Tool W)) (w : W) (ops : List (AgentOp W))
    (htools : ∀ t ∈ tools, t.Total) (hops : ∀ op ∈ ops, op.RoundsReturn) :
    ∃ s, runOps lib ops (Session.start lib net cfg confirmer tools w) = .ok ⟨⟩ s ∧
      IsConversation s.agent.history ∧ ∀ h, Event.request h ∈ s.trace → IsRequest h := by
  have hrun : Exec.Post (runOps lib ops) (Session.start lib net cfg confirmer tools w)
      (fun _ s => s.Protocol tools) (fun _ _ => False) := by
    refine (Exec.post_forM (I := fun rest s => (∀ op ∈ rest, op.RoundsReturn) ∧ s.Protocol tools)
      (fun op rest s hs => ?_) ops _ ⟨hops, Session.start_protocol ..⟩).mono
      (fun _ _ h => h.2) (fun _ _ h => h)
    obtain ⟨hrest, hs⟩ := hs
    refine (runOp_protocol lib htools (hrest op List.mem_cons_self) hs).mono
      (fun _ _ h => ⟨fun o ho => hrest o (List.mem_cons_of_mem _ ho), h⟩) (fun _ _ h => h)
  obtain ⟨_, s, hs⟩ := Exec.returns_iff.mp (hrun.mono (fun _ _ _ => trivial) (fun _ _ h => h))
  have h := hrun.of_ok hs
  exact ⟨s, hs, h.history, h.requests⟩

/-- A tool that does nothing. -/
def idleTool : Tool Nat where
  name := bytes "idle"
  schema := .null
  requiresConfirmation := false
  confirmDetails _ := pure []
  execute _ := pure ⟨true, bytes "done"⟩

/-- A server that asks for the tool, and for one it made up, at every other request. -/
def alternatingRound : Agent Nat → ChatRound Nat := fun _ _ => modifyGet fun n =>
  (if n % 2 = 0 then
    { ok := true, toolCalls := [⟨bytes "1", bytes "idle", []⟩, ⟨bytes "2", bytes "magic", []⟩] }
  else { ok := true, content := bytes "done" }, n + 1)

theorem runOps_conversation_alternating :
    ∃ s, runOps JsonText.empty
        [.send (bytes "hi") [] {} none alternatingRound, .compactIntoSummary (bytes "idled"),
          .send (bytes "again") [] {} none alternatingRound, .setSystemPrompt (bytes "Idle.")]
        (Session.start JsonText.empty (Net.replying []) {} none [idleTool] 0) =
          .ok ⟨⟩ s ∧
      IsConversation s.agent.history ∧ ∀ h, Event.request h ∈ s.trace → IsRequest h := by
  refine runOps_conversation _ _ _ _ _ _ _ (fun t ht args w => ?_) (fun op hop => ?_)
  · rw [List.mem_singleton.mp ht]
    exact ⟨trivial, trivial⟩
  · simp only [List.mem_cons, List.not_mem_nil, or_false] at hop
    rcases hop with rfl | rfl | rfl | rfl
    · exact fun _ _ _ => trivial
    · exact trivial
    · exact fun _ _ _ => trivial
    · exact trivial

/-- **A failed turn is a no-op.**  From any state, and however the turn came to fail, the agent
that `send` leaves is the agent before it, history, token counts, configuration and all; only the
gate may remember more tools. -/
theorem sendRound_failed (lib : JsonText) (round : Agent W → ChatRound W) (message : Bytes)
    (images : List ImagePart) (cb : AgentCallbacks W) (cancel : Option (CancelFlag W))
    (s : Session W) :
    Exec.Post (sendRound lib round message images cb cancel) s
      (fun res s' => res.ok = false →
        s'.agent = { s.agent with gate := s'.agent.gate } ∧ GateLe s.agent.gate s'.agent.gate)
      (fun _ _ => True) :=
  (sendRound_post lib round message images cb cancel s).mono
    (fun _ _ h hok => ⟨h.failed hok, h.gate⟩) (fun _ _ h => h)

end SimpleCoder

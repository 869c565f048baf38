/-
# Whose reply a command uses

`finish_compact` is to replace the history with the summary, `finish_init` to write the model's
reply to `AGENTS.md`.  Both search the whole history for it, and pass over messages without
content: when the reply to the command is empty, they find an earlier one.

§1 says what using the reply of its own turn means, §2 exactly when the commands do.
-/
import SimpleCoder.App.App

namespace SimpleCoder

variable {W : Type}

/-! ## 1. Using a reply -/

/-- The reply has become the summary; if it is empty the agent is as it was. -/
def SummaryIs (reply : Bytes) (a a' : App W) : Prop :=
  a'.session.agent =
    if reply = [] then a.session.agent else a.session.agent.compactIntoSummary reply

/-- Nothing has been written to `AGENTS.md`, and the agent is as it was. -/
def NothingWritten (a a' : App W) : Prop :=
  a'.agentsMd = a.agentsMd ∧ a'.session.agent = a.session.agent

/-- What has been written to `AGENTS.md` and has become the system prompt, if anything, is the
reply, unwrapped; if it is empty nothing has been written. -/
def AgentsMdIs (reply : Bytes) (a a' : App W) : Prop :=
  NothingWritten a a' ∨
    (reply ≠ [] ∧ a'.agentsMd = a.agentsMd ++ [App.endLine (stripCodeFence reply)] ∧
      a'.session.agent = a.session.agent.setSystemPrompt (stripCodeFence reply))

/-! ## 2. When the commands do -/

/-- The last assistant message of the history that has some content. -/
def IsLastAnswer (history : List Message) (m : Message) : Prop :=
  ∃ before after, history = before ++ m :: after ∧ m.role = .assistant ∧ m.content ≠ [] ∧
    ∀ x ∈ after, x.role = .assistant → x.content = []

/-- There is no assistant message with some content. -/
def NoAnswer (history : List Message) : Prop :=
  ∀ m ∈ history, m.role = .assistant → m.content = []

namespace App

/-- **What the search finds.** -/
theorem findRev_eq_some_iff {history : List Message} {m : Message} :
    (history.findRev? fun m => m.role = .assistant ∧ m.content ≠ []) = some m ↔
      IsLastAnswer history m := by
  rw [List.findRev?_eq_find?_reverse, List.find?_eq_some_iff_append]
  unfold IsLastAnswer
  constructor
  · rintro ⟨hm, after, before, hsplit, hafter⟩
    have hm' : m.role = .assistant ∧ m.content ≠ [] := by simpa using hm
    refine ⟨before.reverse, after.reverse, ?_, hm'.1, hm'.2, fun x hx hr => ?_⟩
    · rw [← List.reverse_reverse history, hsplit]
      simp
    · have h := hafter x (List.mem_reverse.mp hx)
      simpa [hr] using h
  · rintro ⟨before, after, rfl, hr, hne, hafter⟩
    refine ⟨by simp [hr, hne], after.reverse, before.reverse, by simp, fun x hx => ?_⟩
    have h := hafter x (List.mem_reverse.mp hx)
    simpa [imp_iff_not_or] using h

theorem findRev_eq_none_iff {history : List Message} :
    (history.findRev? fun m => m.role = .assistant ∧ m.content ≠ []) = none ↔
      NoAnswer history := by
  rw [List.findRev?_eq_find?_reverse, List.find?_eq_none]
  simp [NoAnswer]

theorem lastContent_eq_nil_iff {history : List Message} :
    lastContent history = [] ↔ NoAnswer history := by
  rw [← findRev_eq_none_iff]
  unfold lastContent
  cases hfind : history.findRev? fun m => m.role = .assistant ∧ m.content ≠ [] with
  | none => simp
  | some m =>
    obtain ⟨_, _, _, _, hne, _⟩ := findRev_eq_some_iff.mp hfind
    simpa using hne

/-- What `finish_init` writes is empty exactly when the last answer is, unwrapped. -/
theorem stripCodeFence_lastContent {history : List Message} :
    stripCodeFence (lastContent history) = [] ↔
      ∀ m, IsLastAnswer history m → stripCodeFence m.content = [] := by
  simp only [← findRev_eq_some_iff]
  unfold lastContent
  cases history.findRev? fun m => m.role = .assistant ∧ m.content ≠ [] with
  | none => simp [stripCodeFence_nil]
  | some m => simp

/-- Behind an answer with some content the search ends at once, behind one without it goes on. -/
theorem lastContent_snoc (before : List Message) {reply : Bytes} (h : reply ≠ []) :
    lastContent (before ++ [Message.assistant reply]) = reply := by
  have hlast : IsLastAnswer (before ++ [Message.assistant reply]) (Message.assistant reply) :=
    ⟨before, [], rfl, rfl, h, by simp⟩
  unfold lastContent
  rw [findRev_eq_some_iff.mpr hlast]
  rfl

/-! ### `/compact` -/

theorem finishCompact_agent (a : App W) :
    a.finishCompact.session.agent =
      if lastContent a.session.agent.history = [] then a.session.agent
      else a.session.agent.compactIntoSummary (lastContent a.session.agent.history) := by
  unfold finishCompact
  dsimp only
  split <;> rfl

/-- Compacting a history that ends with an answer changes it. -/
theorem compactIntoSummary_ne {a : Agent W} {before : List Message} {reply : Bytes}
    (h : a.history = before ++ [Message.assistant reply]) (summary : Bytes) :
    a.compactIntoSummary summary ≠ a := by
  intro he
  have hlast := congrArg (fun b => b.history.getLast?.map Message.role) he
  rw [h] at hlast
  simp [Agent.compactIntoSummary, Agent.summaryMessage, Message.system, Message.assistant] at hlast

/-- **When `/compact` uses its own reply.** -/
theorem done_summaryIs_iff (project : Project W) {a : App W} (hinit : a.initPending = false)
    (hcompact : a.compactPending = true) {before : List Message} {reply : Bytes}
    (h : a.session.agent.history = before ++ [Message.assistant reply]) :
    SummaryIs reply a (a.done project) ↔ reply ≠ [] ∨ NoAnswer a.session.agent.history := by
  have hdone := finishCompact_agent { a with busy := false, payload := none }
  have hagent : (a.done project).session.agent =
      (finishCompact { a with busy := false, payload := none }).session.agent := by
    simp [done, hinit, hcompact]
  rw [← hagent] at hdone
  unfold SummaryIs
  rw [hdone]
  by_cases hr : reply = []
  · rw [if_pos hr, ← lastContent_eq_nil_iff]
    split
    · rename_i hnil
      simp [hnil]
    · rename_i hne
      simp [hr, hne, compactIntoSummary_ne h]
  · rw [if_neg hr, h, lastContent_snoc before hr, if_neg hr]
    simp [hr]

/-! ### `/init` -/

/-- The two ways `finish_init` can end. -/
theorem finishInit_spec (project : Project W) (a : App W) :
    let content := stripCodeFence (lastContent a.session.agent.history)
    if content = [] ∨ (project.openAgentsMd a.session.world).1 = false then
      NothingWritten a (a.finishInit project)
    else
      (a.finishInit project).agentsMd = a.agentsMd ++ [endLine content] ∧
        (a.finishInit project).session.agent = a.session.agent.setSystemPrompt content := by
  unfold finishInit
  dsimp only
  by_cases hnil : stripCodeFence (lastContent a.session.agent.history) = []
  · rw [if_pos (Or.inl hnil), if_pos hnil]
    exact ⟨rfl, rfl⟩
  · rw [if_neg hnil]
    rcases project.openAgentsMd a.session.world with ⟨_ | _, w⟩
    · rw [if_pos (Or.inr rfl)]
      exact ⟨rfl, rfl⟩
    · rw [if_neg (by simp [hnil])]
      exact ⟨rfl, rfl⟩

@[simp] theorem finishInit_compactPending (project : Project W) (a : App W) :
    (a.finishInit project).compactPending = a.compactPending := by
  unfold finishInit
  dsimp only
  split
  · rfl
  · rcases project.openAgentsMd a.session.world with ⟨_ | _, w⟩ <;> rfl

/-- **When `/init` uses its own reply.** -/
theorem done_agentsMdIs_iff (project : Project W) {a : App W} (hinit : a.initPending = true)
    (hcompact : a.compactPending = false) {before : List Message} {reply : Bytes}
    (h : a.session.agent.history = before ++ [Message.assistant reply]) :
    AgentsMdIs reply a (a.done project) ↔
      reply ≠ [] ∨
        (∀ m, IsLastAnswer a.session.agent.history m → stripCodeFence m.content = []) ∨
        (project.openAgentsMd a.session.world).1 = false := by
  have hdone : (a.done project).agentsMd =
        (finishInit project { a with busy := false, payload := none }).agentsMd ∧
      (a.done project).session.agent =
        (finishInit project { a with busy := false, payload := none }).session.agent := by
    simp [done, hinit, hcompact]
  have hspec := finishInit_spec project { a with busy := false, payload := none }
  dsimp only at hspec
  unfold NothingWritten at hspec
  rw [← hdone.1, ← hdone.2] at hspec
  unfold AgentsMdIs NothingWritten
  rw [← stripCodeFence_lastContent]
  split at hspec
  · rename_i hnothing
    exact iff_of_true (Or.inl hspec) (Or.inr hnothing)
  · rename_i hsome
    rw [or_iff_left hsome]
    have hlonger : (a.done project).agentsMd ≠ a.agentsMd := by
      rw [hspec.1]
      simp
    by_cases hr : reply = []
    · simp [hr, hlonger]
    · rw [h, lastContent_snoc before hr] at hspec
      simp [hr, hspec]

end App

/-- **Whose reply a command uses.**  When a turn has succeeded, its reply is the last message of the
history.  After a `/compact` turn it has become the summary if and only if it has some content, or
no answer in the whole history has.  After an `/init` turn it is what has been written, if and only
if it has some content, or the last answer in the history that has is nothing but a code fence, or
`AGENTS.md` cannot be opened. -/
theorem work_ownReply_iff (lib : JsonText) (project : Project W) (round : Agent W → ChatRound W)
    (payload : Bytes) (cb : AgentCallbacks W) (cancel : Option (CancelFlag W)) (app : App W) :
    Exec.Post (App.work lib round payload cb cancel) app
      (fun res a => res.ok = true →
        a.session.agent.history.getLast? = some (Message.assistant res.content) ∧
        (app.initPending = false → app.compactPending = true →
          (SummaryIs res.content a (a.done project) ↔
            res.content ≠ [] ∨ NoAnswer a.session.agent.history)) ∧
        (app.initPending = true → app.compactPending = false →
          (AgentsMdIs res.content a (a.done project) ↔
            res.content ≠ [] ∨
              (∀ m, IsLastAnswer a.session.agent.history m → stripCodeFence m.content = []) ∨
              (project.openAgentsMd a.session.world).1 = false)))
      (fun _ _ => True) := by
  unfold App.work
  rw [Exec.post_zoom]
  refine (sendRound_post lib round payload [] cb cancel app.session).mono (fun res s h hok => ?_)
    (fun _ _ _ => trivial)
  obtain ⟨groups, -, hhistory⟩ := h.succeeded hok
  have hlast : s.agent.history = (app.session.agent.history ++
      Message.user payload [] :: groups.flatten) ++ [Message.assistant res.content] := by
    rw [hhistory]
    simp
  refine ⟨?_, fun hinit hcompact => ?_, fun hinit hcompact => ?_⟩
  · change s.agent.history.getLast? = _
    rw [hlast, List.getLast?_concat]
  · exact App.done_summaryIs_iff project (a := { app with session := s }) hinit hcompact hlast
  · exact App.done_agentsMdIs_iff project (a := { app with session := s }) hinit hcompact hlast

/-- A server that always answers with this text. -/
def replyRound (text : Bytes) : Agent Unit → ChatRound Unit := fun _ _ =>
  pure { ok := true, content := text }

/-- A session in which a question has been answered. -/
def tabsApp : App Unit where
  session := Exec.stateAfter
    (runOps JsonText.empty
      [.send (bytes "Tabs or spaces?") [] {} none (replyRound (bytes "Use tabs."))])
    (Session.start JsonText.empty (Net.replying []) { contextSize := 8192 } none [] ())

/-- A directory that can be written to and has no `AGENTS.md`. -/
def emptyProject : Project Unit where
  hasAgentsMd _ := false
  askOverwrite w := (.no, w)
  tree _ := []
  openAgentsMd w := (true, w)
  writeAgentsMd _ w := w

/-- After an empty reply `/compact` makes the earlier answer the summary, and `/init` makes it
`AGENTS.md`. -/
theorem emptyReply_usesEarlier :
    (∃ a, App.work JsonText.empty (replyRound []) compactPrompt {} none
        tabsApp.runCompact = .ok { ok := true } a ∧
      (a.done emptyProject).session.agent.history = [Agent.summaryMessage (bytes "Use tabs.")] ∧
      ¬ SummaryIs [] a (a.done emptyProject)) ∧
    ∃ a, App.work JsonText.empty (replyRound []) (initPrompt []) {} none
        (tabsApp.runInit emptyProject) = .ok { ok := true } a ∧
      (a.done emptyProject).agentsMd = [bytes "Use tabs.\n"] ∧
      ¬ AgentsMdIs [] a (a.done emptyProject) := by
  have hcompact : ∃ a, App.work JsonText.empty (replyRound []) compactPrompt {}
      none tabsApp.runCompact = .ok { ok := true } a ∧ a.session.agent.history.length = 4 ∧
      (a.done emptyProject).session.agent.history =
        [Agent.summaryMessage (bytes "Use tabs.")] := ⟨_, rfl, rfl, rfl⟩
  have hinit : ∃ a, App.work JsonText.empty (replyRound []) (initPrompt []) {}
      none (tabsApp.runInit emptyProject) = .ok { ok := true } a ∧ a.agentsMd = [] ∧
      (a.done emptyProject).agentsMd = [bytes "Use tabs.\n"] := ⟨_, rfl, rfl, rfl⟩
  constructor
  · obtain ⟨a, hwork, hlen, hdone⟩ := hcompact
    refine ⟨a, hwork, hdone, fun h => ?_⟩
    rw [SummaryIs, if_pos rfl] at h
    rw [← h, hdone] at hlen
    cases hlen
  · obtain ⟨a, hwork, hnone, hdone⟩ := hinit
    refine ⟨a, hwork, hdone, fun h => ?_⟩
    rcases h with h | h
    · rw [h.1, hnone] at hdone
      cases hdone
    · exact h.1 rfl

end SimpleCoder

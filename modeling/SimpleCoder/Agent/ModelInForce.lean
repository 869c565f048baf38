/-
# The model in force

`set_model` is documented to switch the model for subsequent requests.  It changes the agent's
configuration, but requests are built from the copy the constructor handed to the API client, which
no member ever changes.  So `config().model` follows `set_model` and the requests do not.

§1 carries the two copies through a session, §2 says when they agree.
-/
import SimpleCoder.Agent.Agent

namespace SimpleCoder

variable {W : Type}

/-! ## 1. The two copies -/

/-- The model an operation asks for, if it is a `set_model`. -/
def AgentOp.model : AgentOp W → Option Bytes
  | .setModel model => some model
  | _ => none

/-- The model that was asked for last, starting from the constructor's. -/
def lastModel (start : Bytes) (ops : List (AgentOp W)) : Bytes :=
  ops.foldl (fun model op => op.model.getD model) start

/-- The client still has the constructor's configuration, and the agent the given model. -/
structure Session.Copies (cfg : Config) (model : Bytes) (s : Session W) : Prop where
  client : s.agent.client = ⟨cfg⟩
  agent : s.agent.cfg.model = model

/-- **One operation** leaves the client's copy alone. -/
theorem runOp_copies (lib : JsonText) {cfg : Config} {model : Bytes} (op : AgentOp W)
    {s : Session W} (hs : s.Copies cfg model) :
    Exec.Post (runOp lib op) s (fun _ s' => s'.Copies cfg (op.model.getD model))
      (fun _ _ => True) := by
  cases op with
  | send message images cb cancel round =>
    unfold runOp
    rw [Exec.post_bind]
    refine (sendRound_post lib round message images cb cancel s).mono (fun _ s' h => ?_)
      (fun _ _ h => h)
    obtain ⟨hcfg, hclient, -⟩ := h.kept
    exact ⟨hclient.trans hs.client, (congrArg Config.model hcfg).trans hs.agent⟩
  | reset => exact ⟨hs.client, hs.agent⟩
  | compactIntoSummary summary => exact ⟨hs.client, hs.agent⟩
  | setModel m => exact ⟨hs.client, rfl⟩
  | setSystemPrompt prompt => exact ⟨hs.client, hs.agent⟩

theorem runOps_copies (lib : JsonText) {cfg : Config} (ops : List (AgentOp W)) {model : Bytes}
    {s : Session W} (hs : s.Copies cfg model) :
    Exec.Post (runOps lib ops) s (fun _ s' => s'.Copies cfg (lastModel model ops))
      (fun _ _ => True) := by
  -- the invariant: what is left to run takes the agent's model to the last one asked for
  refine (Exec.post_forM
    (I := fun rest t => ∃ m, t.Copies cfg m ∧ lastModel m rest = lastModel model ops)
    (fun op rest t ht => ?_) ops s ⟨model, hs, rfl⟩).mono (fun _ t ht => ?_) (fun _ _ h => h)
  · obtain ⟨m, ht, hlast⟩ := ht
    exact (runOp_copies lib op ht).mono (fun _ _ hu => ⟨op.model.getD m, hu, hlast⟩)
      (fun _ _ h => h)
  · obtain ⟨m, ht, hlast⟩ := ht
    exact hlast ▸ ht

theorem Session.start_copies (lib : JsonText) (net : Net W) (cfg : Config)
    (confirmer : Option (Confirmer W)) (tools : List (Tool W)) (w : W) :
    (Session.start lib net cfg confirmer tools w).Copies cfg cfg.model := by
  unfold Session.start Agent.create
  split <;> exact ⟨rfl, rfl⟩

/-! ## 2. When they agree -/

/-- The model is in force: the configuration names it, and so does the body of every request that a
turn begun in this state makes. -/
structure Session.InForce (model : Bytes) (s : Session W) : Prop where
  config : s.agent.cfg.model = model
  requests : ∀ history, (s.agent.client.requestBody history s.agent.toolSchemas).find
    (bytes "model") = some (.string model)

theorem Session.Copies.inForce_iff {cfg : Config} {model : Bytes} {s : Session W}
    (h : s.Copies cfg model) : s.InForce model ↔ model = cfg.model := by
  have hbody : ∀ history, (s.agent.client.requestBody history s.agent.toolSchemas).find
      (bytes "model") = some (.string cfg.model) := fun history => by
    rw [h.client]
    exact buildChatRequest_model cfg history _ true
  constructor
  · intro hs
    have h' := hs.requests []
    rw [hbody] at h'
    cases h'
    rfl
  · rintro rfl
    exact ⟨h.agent, hbody⟩

/-- **When `set_model` takes effect.**  After any operations on a fresh agent, the model that was
asked for last is in force if and only if it is the constructor's. -/
theorem runOps_inForce_iff (lib : JsonText) (net : Net W) (cfg : Config)
    (confirmer : Option (Confirmer W)) (tools : List (Tool W)) (w : W) (ops : List (AgentOp W)) :
    Exec.Post (runOps lib ops) (Session.start lib net cfg confirmer tools w)
      (fun _ s => s.InForce (lastModel cfg.model ops) ↔ lastModel cfg.model ops = cfg.model)
      (fun _ _ => True) :=
  (runOps_copies lib ops (Session.start_copies lib net cfg confirmer tools w)).mono
    (fun _ _ h => h.inForce_iff) (fun _ _ h => h)

/-- A session with a known window, so that nothing is asked of the server at the start. -/
def switchStart (model : Bytes) : Session Unit :=
  Session.start JsonText.empty (Net.replying [])
    { model := model, contextSize := 8192 } none [] ()

/-- After a switch the configuration names the new model and the requests the old one. -/
theorem setModel_notInForce :
    ∃ s, runOps JsonText.empty [.setModel (bytes "large")]
        (switchStart (bytes "small")) = .ok ⟨⟩ s ∧
      ¬ s.InForce (lastModel (bytes "small") [AgentOp.setModel (W := Unit) (bytes "large")]) := by
  refine ⟨_, rfl, ?_⟩
  have hcopies := (runOps_copies JsonText.empty [.setModel (bytes "large")]
    (Session.start_copies _ _ _ _ _ _ : (switchStart (bytes "small")).Copies _ _)).of_ok rfl
  exact fun h => absurd (hcopies.inForce_iff.mp h) (by decide)

end SimpleCoder

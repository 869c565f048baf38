/-
# The context gauge

`last_total_tokens` is shown as the part of the context window in use, and starts the automatic
compaction.  It is documented as the `total_tokens` of the most recent successful turn, 0 if there
is none yet or the server reported no usage, and a compaction resets it.  `gaugeStep` says what it
should be after each operation (cleared by `reset` too, which begins a new conversation), and
`gauge_accurate_iff` which runs keep it there.

* `reset` leaves the gauge alone, so it is right only where no usage has been reported since the
  last compaction.
* A successful turn without usage leaves it alone as well.
-/
import SimpleCoder.Agent.Agent

namespace SimpleCoder

variable {W : Type}

/-! ## 1. When the context is full -/

/-- `context_is_full`.  The product, which the source rounds, is exact here. -/
def contextIsFull (usedTokens contextSize : Int) : Double → Bool
  | .finite threshold =>
    decide (0 < usedTokens ∧ 0 < contextSize ∧ 0 < threshold ∧
      threshold * contextSize ≤ usedTokens)
  | .infinity _ => false
  | .nan => false

/-- An unused context is never full. -/
theorem contextIsFull_zero (contextSize : Int) (threshold : Double) :
    contextIsFull 0 contextSize threshold = false := by
  cases threshold <;> simp [contextIsFull]

/-! ## 2. What the gauge should show -/

/-- The reply of a turn, if the operation is one that returns. -/
def AgentOp.reply (lib : JsonText) (s : Session W) : AgentOp W → Option ApiResult
  | .send message images cb cancel round =>
    match sendRound lib round message images cb cancel s with
    | .ok res _ => some res
    | .error _ _ => none
  | _ => none

/-- What the gauge should show after the operation, if it should have shown `gauge` before. -/
def gaugeStep (lib : JsonText) (s : Session W) (gauge : Int) (op : AgentOp W) : Int :=
  match op with
  | .reset | .compactIntoSummary _ => 0
  | .setModel _ | .setSystemPrompt _ => gauge
  | .send .. =>
    match op.reply lib s with
    | some res => if res.ok then res.totalTokens else gauge
    | none => gauge

/-- The session after some operations, whether or not one of them raised, and what its gauge should
show then. -/
def runGauge (lib : JsonText) : List (AgentOp W) → Session W × Int → Session W × Int
  | [], p => p
  | op :: ops, p =>
    runGauge lib ops (Exec.stateAfter (runOp lib op) p.1, gaugeStep lib p.1 p.2 op)

/-- The gauge of the session shows what it should. -/
def Accurate (p : Session W × Int) : Prop := p.1.agent.lastTotalTokens = p.2

/-- The operation is a successful turn that reports some usage. -/
def AgentOp.Reports (lib : JsonText) (s : Session W) (op : AgentOp W) : Prop :=
  ∃ res, op.reply lib s = some res ∧ res.ok = true ∧ 0 < res.totalTokens

/-- No usage has been reported since the last compaction. -/
def Unreported (lib : JsonText) (ops : List (AgentOp W)) (p : Session W × Int) : Prop :=
  ∀ before op after, ops = before ++ op :: after → op.Reports lib (runGauge lib before p).1 →
    ∃ summary, .compactIntoSummary summary ∈ after

/-- The operations that set the gauge right: `reset` if no usage has been reported so far, and a
successful turn that reports some usage, or none if none has been reported so far. -/
def AgentOp.SetsGauge (lib : JsonText) (s : Session W) (unreported : Prop) (op : AgentOp W) :
    Prop :=
  match op with
  | .reset => unreported
  | .send .. => ∀ res, op.reply lib s = some res → res.ok = true →
      0 < res.totalTokens ∨ res.totalTokens = 0 ∧ unreported
  | _ => True

/-! ## 3. One operation -/

/-- **What a turn does to the gauge.** -/
theorem sendRound_gauge (lib : JsonText) (round : Agent W → ChatRound W) (message : Bytes)
    (images : List ImagePart) (cb : AgentCallbacks W) (cancel : Option (CancelFlag W))
    (s : Session W) :
    Exec.Post (sendRound lib round message images cb cancel) s
      (fun res s' => s'.agent.lastTotalTokens =
        if res.ok = true ∧ 0 < res.totalTokens then res.totalTokens
        else s.agent.lastTotalTokens)
      (fun _ s' => s'.agent.lastTotalTokens = s.agent.lastTotalTokens) := by
  unfold sendRound
  simp only [Exec.post_bind, Exec.post_get, Exec.post_modify, Exec.post_zoom, Exec.post_pure]
  refine Exec.post_iff.mpr ⟨fun res t _ => ?_, fun _ t _ => rfl⟩
  unfold Agent.finishSend
  cases hok : res.ok with
  | false => simp [Session.putLoop]
  | true =>
    by_cases hpos : 0 < res.totalTokens
    · simp [hpos]
    · simp [hpos, Session.putLoop]

/-- A turn that replied, and the state it left. -/
theorem runOp_send {lib : JsonText} {round : Agent W → ChatRound W} {message : Bytes}
    {images : List ImagePart} {cb : AgentCallbacks W} {cancel : Option (CancelFlag W)}
    {s : Session W} :
    Exec.stateAfter (runOp lib (.send message images cb cancel round)) s =
      Exec.stateAfter (sendRound lib round message images cb cancel) s := by
  unfold runOp Exec.stateAfter
  simp only [bind, EStateM.bind]
  cases sendRound lib round message images cb cancel s <;> rfl

/-- **One operation**: from an accurate gauge, which is 0 if no usage has been reported, it leads to
an accurate one exactly if it sets it right. -/
theorem accurate_step_iff (lib : JsonText) {s : Session W} {gauge : Int} {unreported : Prop}
    (h : Accurate (s, gauge)) (hpos : 0 ≤ s.agent.lastTotalTokens)
    (hzero : s.agent.lastTotalTokens = 0 ↔ unreported) (op : AgentOp W) :
    Accurate (Exec.stateAfter (runOp lib op) s, gaugeStep lib s gauge op) ↔
      op.SetsGauge lib s unreported := by
  have hs : s.agent.lastTotalTokens = gauge := h
  cases op with
  | reset => exact hzero
  | compactIntoSummary summary => exact iff_of_true rfl trivial
  | setModel model => exact iff_of_true hs trivial
  | setSystemPrompt prompt => exact iff_of_true hs trivial
  | send message images cb cancel round =>
    have hgauge := sendRound_gauge lib round message images cb cancel s
    unfold Accurate gaugeStep AgentOp.SetsGauge AgentOp.reply
    rw [runOp_send]
    unfold Exec.stateAfter
    dsimp only
    cases hm : sendRound lib round message images cb cancel s with
    | error e s' => exact iff_of_true ((hgauge.of_error hm).trans hs) (by simp)
    | ok res s' =>
      have hres := hgauge.of_ok hm
      dsimp only
      simp only [Option.some.injEq, forall_eq']
      cases hok : res.ok with
      | false =>
        rw [hok] at hres
        exact iff_of_true (by simpa using hres.trans hs) (by simp)
      | true =>
        rw [hres, hok, ← hzero]
        by_cases hsome : 0 < res.totalTokens
        · simp [hsome]
        · simp only [hsome, and_false, if_false, if_true, true_implies, false_or]
          omega

/-- A compaction sets the gauge to 0, a turn that reports some usage to that, and nothing else sets
it. -/
theorem gauge_step (lib : JsonText) (s : Session W) (op : AgentOp W) :
    (∀ summary, op = .compactIntoSummary summary →
      (Exec.stateAfter (runOp lib op) s).agent.lastTotalTokens = 0) ∧
    (op.Reports lib s → 0 < (Exec.stateAfter (runOp lib op) s).agent.lastTotalTokens) ∧
    ((∀ summary, op ≠ .compactIntoSummary summary) → ¬ op.Reports lib s →
      (Exec.stateAfter (runOp lib op) s).agent.lastTotalTokens = s.agent.lastTotalTokens) := by
  cases op with
  | compactIntoSummary summary =>
    refine ⟨fun _ _ => rfl, ?_, fun hne => absurd rfl (hne summary)⟩
    rintro ⟨res, hreply, -⟩
    cases hreply
  | send message images cb cancel round =>
    have hgauge := sendRound_gauge lib round message images cb cancel s
    refine ⟨fun summary heq => (by cases heq), ?_⟩
    unfold AgentOp.Reports AgentOp.reply
    rw [runOp_send]
    unfold Exec.stateAfter
    dsimp only
    cases hm : sendRound lib round message images cb cancel s with
    | error e s' => exact ⟨by simp, fun _ _ => hgauge.of_error hm⟩
    | ok res s' =>
      have hres := hgauge.of_ok hm
      simp only [Option.some.injEq, exists_eq_left']
      refine ⟨fun hreports => ?_, fun _ hnone => ?_⟩
      · rw [hres, if_pos hreports]
        exact hreports.2
      · rw [hres, if_neg hnone]
  | reset | setModel | setSystemPrompt =>
    refine ⟨fun summary heq => (by cases heq), ?_, fun _ _ => rfl⟩
    rintro ⟨res, hreply, -⟩
    cases hreply

/-! ## 4. A run -/

section Run

variable {lib : JsonText} {ops : List (AgentOp W)} {op : AgentOp W} {p : Session W × Int}

theorem runGauge_append (lib : JsonText) (ops : List (AgentOp W)) (op : AgentOp W)
    (p : Session W × Int) : runGauge lib (ops ++ [op]) p =
      (Exec.stateAfter (runOp lib op) (runGauge lib ops p).1,
        gaugeStep lib (runGauge lib ops p).1 (runGauge lib ops p).2 op) := by
  induction ops generalizing p with
  | nil => rfl
  | cons op' ops ih => exact ih _

/-- What holds of every operation of a longer run. -/
theorem forall_split_append {α : Type} {l : List α} {a : α} {P : List α → α → List α → Prop} :
    (∀ before b after, l ++ [a] = before ++ b :: after → P before b after) ↔
      (∀ before b after, l = before ++ b :: after → P before b (after ++ [a])) ∧ P l a [] := by
  constructor
  · intro h
    exact ⟨fun before b after heq => h before b (after ++ [a]) (by simp [heq]), h l a [] rfl⟩
  · rintro ⟨hall, hlast⟩ before b after heq
    rcases List.eq_nil_or_concat after with rfl | ⟨after, a', rfl⟩
    · obtain ⟨rfl, rfl⟩ := List.append_singleton_inj.mp heq
      exact hlast
    · rw [List.concat_eq_append, ← List.cons_append, ← List.append_assoc] at heq
      obtain ⟨rfl, rfl⟩ := List.append_singleton_inj.mp heq
      rw [List.concat_eq_append]
      exact hall before b after rfl

/-- After a compaction nothing has been reported, and after anything else nothing if it reports
nothing and nothing had been before. -/
theorem unreported_append : Unreported lib (ops ++ [op]) p ↔
    (∃ summary, op = .compactIntoSummary summary) ∨
      (Unreported lib ops p ∧ ¬ op.Reports lib (runGauge lib ops p).1) := by
  unfold Unreported
  rw [forall_split_append]
  simp only [List.mem_append, List.mem_singleton, List.not_mem_nil, exists_false]
  constructor
  · rintro ⟨hall, hlast⟩
    by_cases hcompact : ∃ summary, op = .compactIntoSummary summary
    · exact Or.inl hcompact
    · refine Or.inr ⟨fun before op' after heq hreports => ?_, hlast⟩
      obtain ⟨summary, hmem | rfl⟩ := hall before op' after heq hreports
      · exact ⟨summary, hmem⟩
      · exact absurd ⟨summary, rfl⟩ hcompact
  · rintro (⟨summary, rfl⟩ | ⟨hall, hlast⟩)
    · refine ⟨fun _ _ _ _ _ => ⟨summary, Or.inr rfl⟩, ?_⟩
      rintro ⟨res, hreply, -⟩
      cases hreply
    · refine ⟨fun before op' after heq hreports => ?_, hlast⟩
      obtain ⟨summary, hmem⟩ := hall before op' after heq hreports
      exact ⟨summary, Or.inl hmem⟩

/-- **The gauge is 0** exactly as long as no usage has been reported since the last compaction. -/
theorem gauge_eq_zero_iff (lib : JsonText) (ops : List (AgentOp W))
    (h : p.1.agent.lastTotalTokens = 0) :
    0 ≤ (runGauge lib ops p).1.agent.lastTotalTokens ∧
      ((runGauge lib ops p).1.agent.lastTotalTokens = 0 ↔ Unreported lib ops p) := by
  induction ops using List.reverseRecOn with
  | nil =>
    refine ⟨h.ge, iff_of_true h fun before op after heq => ?_⟩
    simp at heq
  | append_singleton ops op ih =>
    obtain ⟨hcompacted, hreported, hkept⟩ := gauge_step lib (runGauge lib ops p).1 op
    rw [unreported_append, runGauge_append]
    by_cases hcompact : ∃ summary, op = .compactIntoSummary summary
    · obtain ⟨summary, hop⟩ := hcompact
      have hzero := hcompacted summary hop
      exact ⟨hzero.ge, iff_of_true hzero (Or.inl ⟨summary, hop⟩)⟩
    · by_cases hreports : op.Reports lib (runGauge lib ops p).1
      · have hpos := hreported hreports
        refine ⟨hpos.le, iff_of_false hpos.ne' ?_⟩
        rintro (hop | ⟨-, hnone⟩)
        · exact hcompact hop
        · exact hnone hreports
      · rw [hkept (fun summary hop => hcompact ⟨summary, hop⟩) hreports]
        exact ⟨ih.1, ih.2.trans ⟨fun hall => Or.inr ⟨hall, hreports⟩, fun hor =>
          (hor.resolve_left hcompact).1⟩⟩

/-- Every operation of the run sets the gauge right where it is performed. -/
def AllSetGauge (lib : JsonText) (ops : List (AgentOp W)) (p : Session W × Int) : Prop :=
  ∀ before op after, ops = before ++ op :: after →
    op.SetsGauge lib (runGauge lib before p).1 (Unreported lib before p)

/-- **A run** that begins at 0: the gauge is accurate all the way exactly if every operation sets it
right. -/
theorem accurate_run_iff (lib : JsonText) (ops : List (AgentOp W)) (h : Accurate p)
    (hzero : p.1.agent.lastTotalTokens = 0) :
    (∀ before, before <+: ops → Accurate (runGauge lib before p)) ↔ AllSetGauge lib ops p := by
  induction ops using List.reverseRecOn with
  | nil =>
    refine iff_of_true (fun before hb => ?_) fun before op after heq => by simp at heq
    rw [List.prefix_nil.mp hb]
    exact h
  | append_singleton ops op ih =>
    obtain ⟨hpos, hquiet⟩ := gauge_eq_zero_iff lib ops hzero
    have hstep := fun hacc : Accurate (runGauge lib ops p) =>
      accurate_step_iff lib hacc hpos hquiet op
    have hall : AllSetGauge lib (ops ++ [op]) p ↔ AllSetGauge lib ops p ∧
        op.SetsGauge lib (runGauge lib ops p).1 (Unreported lib ops p) := forall_split_append
    simp only [List.prefix_concat_iff, or_imp, forall_and, forall_eq]
    rw [hall, ih, runGauge_append, and_comm]
    refine and_congr_right fun hsets => hstep (ih.mpr hsets ops (List.prefix_refl ops))

end Run

/-- **When the gauge describes the conversation.**  Over a session it shows what it should after
every operation exactly if every operation sets it right; and then it never says that a
conversation is full which no successful turn has been part of since it was begun. -/
theorem gauge_accurate_iff (lib : JsonText) (net : Net W) (cfg : Config)
    (confirmer : Option (Confirmer W)) (tools : List (Tool W)) (w : W)
    (ops : List (AgentOp W)) :
    ((∀ before, before <+: ops →
        Accurate (runGauge lib before (Session.start lib net cfg confirmer tools w, 0))) ↔
      AllSetGauge lib ops (Session.start lib net cfg confirmer tools w, 0)) ∧
    (AllSetGauge lib ops (Session.start lib net cfg confirmer tools w, 0) →
      ∀ before, before <+: ops → ∀ s gauge,
        runGauge lib before (Session.start lib net cfg confirmer tools w, 0) = (s, gauge) →
          gauge = 0 → contextIsFull s.agent.lastTotalTokens s.agent.contextSize
            s.agent.cfg.autoCompactThreshold = false) := by
  have hrun := accurate_run_iff lib ops
    (show Accurate (Session.start lib net cfg confirmer tools w, 0) from rfl) rfl
  refine ⟨hrun, fun hsets before hb s gauge heq hzero => ?_⟩
  have hacc := hrun.mpr hsets before hb
  rw [heq, hzero] at hacc
  have hgauge : s.agent.lastTotalTokens = 0 := hacc
  rw [hgauge]
  exact contextIsFull_zero _ _

/-- A turn whose reply reports this usage. -/
def usageTurn (totalTokens : Int) : AgentOp Unit :=
  .send (bytes "hello") [] {} none
    fun _ _ => pure { ok := true, content := bytes "hi", totalTokens := totalTokens }

/-- A session with a window of 8192 tokens. -/
def gaugeStart : Session Unit :=
  Session.start .empty (Net.replying []) { contextSize := 8192 } none [] ()

/-- **A cleared conversation that counts as full**: a turn that used 8000 tokens, and then
`reset`. -/
theorem reset_not_accurate :
    ¬ (∀ before, before <+: [usageTurn 8000, .reset] →
      Accurate (runGauge .empty before (gaugeStart, 0))) ∧
    (runGauge .empty [usageTurn 8000, .reset] (gaugeStart, 0)).2 = 0 ∧
    contextIsFull (runGauge .empty [usageTurn 8000, .reset] (gaugeStart, 0)).1.agent.lastTotalTokens
      8192 (.finite (85 / 100)) = true := by
  have hgauge :
      (runGauge .empty [usageTurn 8000, .reset] (gaugeStart, 0)).1.agent.lastTotalTokens = 8000 :=
    rfl
  refine ⟨fun h => ?_, rfl, ?_⟩
  · have hacc := h _ (List.prefix_refl _)
    unfold Accurate at hacc
    rw [hgauge] at hacc
    exact absurd (hacc.trans (rfl : _ = (0 : Int))) (by decide)
  · rw [hgauge]
    norm_num [contextIsFull]

end SimpleCoder

/-
# The gate over a session

What the gate decides about one call depends on what the user answered at earlier ones.  §1 says
when a trace of a session is safe: `GateSafe` speaks of the rules, of what was executed and of what
the user was asked, and of nothing inside the gate.  §2 finds the invariant that ties the gate's
memory to the answers in the trace (`Watched`) and carries it through a call, and §3 through any
number of turns.
-/
import SimpleCoder.Agent.ToolLoop

namespace SimpleCoder

variable {W : Type}

/-! ## 1. Safe traces -/

/-- Some rule of the list matches a call of the tool with these details. -/
def Ruled (rules : List Bytes) (tool : Tool W) (details : Bytes) : Prop :=
  ∃ rule ∈ rules, RuleMatches rule tool.name details

/-- The user has answered "always" about a tool of this name. -/
def Remembered (trace : List (Event W)) (name : Bytes) : Prop :=
  ∃ tool details, Event.confirm tool details .always ∈ trace ∧ tool.name = name

/-- What may come next in a trace.  A gated tool is executed only if no deny rule matches, and
because an allow rule does, or the user said "always" about it before, or has just let exactly
this call pass.  The user is asked only about a gated tool that no rule decides and that is not
remembered, and only if there is someone to ask. -/
def MayFollow (allow deny : List Bytes) (confirmer : Option (Confirmer W))
    (trace : List (Event W)) : Event W → Prop
  | .execute tool args details =>
    (∃ w w', tool.confirmDetails args w = .ok details w') ∧
      (tool.requiresConfirmation = true →
        ¬ Ruled deny tool details ∧
          (Ruled allow tool details ∨ Remembered trace tool.name ∨
            ∃ before choice, trace = before ++ [.confirm tool details choice] ∧ choice ≠ .no))
  | .confirm tool details _ =>
    tool.requiresConfirmation = true ∧ ¬ Ruled deny tool details ∧ ¬ Ruled allow tool details ∧
      ¬ Remembered trace tool.name ∧ confirmer.isSome = true
  | _ => True

/-- Every event of the trace was one that might follow what was before it. -/
def GateSafe (allow deny : List Bytes) (confirmer : Option (Confirmer W))
    (trace : List (Event W)) : Prop :=
  ∀ before e after, trace = before ++ e :: after → MayFollow allow deny confirmer before e

section

variable {allow deny : List Bytes} {confirmer : Option (Confirmer W)}

/-- A safe trace may be continued with an event that may follow it. -/
theorem GateSafe.snoc {trace : List (Event W)} {e : Event W}
    (h : GateSafe allow deny confirmer trace) (he : MayFollow allow deny confirmer trace e) :
    GateSafe allow deny confirmer (trace ++ [e]) := by
  intro before x after heq
  rcases List.eq_nil_or_concat after with rfl | ⟨after, y, rfl⟩
  · obtain ⟨rfl, hx⟩ := List.append_inj' heq rfl
    cases hx
    exact he
  · rw [List.concat_eq_append, ← List.cons_append, ← List.append_assoc] at heq
    exact h before x after (List.append_inj' heq rfl).1

/-- The gate holds the policy and the confirmer of the session and remembers exactly the tools the
user said "always" to, and the trace is safe. -/
structure Watched (allow deny : List Bytes) (confirmer : Option (Confirmer W))
    (s : LoopState W) : Prop where
  policy : s.gate.policy = makeConfirmPolicy allow deny
  asks : s.gate.confirmer = confirmer
  always : ∀ name, name ∈ s.gate.alwaysAllowed ↔ Remembered s.trace name
  safe : GateSafe allow deny confirmer s.trace

theorem remembered_snoc {trace : List (Event W)} {e : Event W} {name : Bytes} :
    Remembered (trace ++ [e]) name ↔ Remembered trace name ∨
      ∃ tool details, e = .confirm tool details .always ∧ tool.name = name := by
  unfold Remembered
  constructor
  · rintro ⟨tool, details, hmem, hname⟩
    rcases List.mem_append.mp hmem with hmem | hmem
    · exact Or.inl ⟨tool, details, hmem, hname⟩
    · exact Or.inr ⟨tool, details, (List.mem_singleton.mp hmem).symm, hname⟩
  · rintro (⟨tool, details, hmem, hname⟩ | ⟨tool, details, rfl, hname⟩)
    · exact ⟨tool, details, List.mem_append_left _ hmem, hname⟩
    · exact ⟨tool, details, List.mem_append_right _ (List.mem_singleton_self _), hname⟩

/-- A new event that is no answer of the user. -/
theorem Watched.event {s : LoopState W} {e : Event W} (h : Watched allow deny confirmer s)
    (he : MayFollow allow deny confirmer s.trace e)
    (hno : ∀ tool details choice, e ≠ .confirm tool details choice) :
    Watched allow deny confirmer { s with trace := s.trace ++ [e] } := by
  refine ⟨h.policy, h.asks, fun name => ?_, h.safe.snoc he⟩
  rw [remembered_snoc]
  refine (h.always name).trans (or_iff_left ?_).symm
  rintro ⟨tool, details, rfl, -⟩
  exact hno tool details .always rfl

theorem Watched.world {s : LoopState W} (h : Watched allow deny confirmer s) (w : W) :
    Watched allow deny confirmer { s with world := w } :=
  ⟨h.policy, h.asks, h.always, h.safe⟩

/-- What is remembered when the user has answered. -/
theorem remembered_confirm {trace : List (Event W)} {tool : Tool W} {details : Bytes}
    {choice : ConfirmChoice} {name : Bytes} :
    Remembered (trace ++ [.confirm tool details choice]) name ↔
      Remembered trace name ∨ (choice = .always ∧ name = tool.name) := by
  rw [remembered_snoc]
  refine or_congr_right ⟨?_, ?_⟩
  · rintro ⟨tool', details', heq, rfl⟩
    cases heq
    exact ⟨rfl, rfl⟩
  · rintro ⟨rfl, rfl⟩
    exact ⟨tool, details, rfl, rfl⟩

/-- The gate remembers the tools that the user said "always" to, also after an answer. -/
theorem Watched.always_confirm {s : LoopState W} (h : Watched allow deny confirmer s)
    {tool : Tool W} {details : Bytes} {choice : ConfirmChoice} (name : Bytes) :
    name ∈ (if some choice = some ConfirmChoice.always then insert tool.name s.gate.alwaysAllowed
        else s.gate.alwaysAllowed) ↔
      Remembered (s.trace ++ [.confirm tool details choice]) name := by
  rw [remembered_confirm]
  split
  · rename_i hc
    rw [Finset.mem_insert, h.always name, or_comm, Option.some.inj hc]
    simp
  · rename_i hc
    refine (h.always name).trans (or_iff_left ?_).symm
    rintro ⟨rfl, -⟩
    exact hc rfl

/-- Why the gate let a gated call pass, in terms of the rules and of what has happened. -/
theorem Watched.admitted {s : LoopState W} (h : Watched allow deny confirmer s) {tool : Tool W}
    {details : Bytes} {asked : Option ConfirmChoice} (hreq : tool.requiresConfirmation = true)
    (hadm : Admitted s.gate tool details asked) {trace : List (Event W)}
    (htrace : trace = s.trace ++ (asked.map (.confirm tool details)).toList) :
    ¬ Ruled deny tool details ∧
      (Ruled allow tool details ∨ Remembered trace tool.name ∨
        ∃ before choice, trace = before ++ [.confirm tool details choice] ∧ choice ≠ .no) := by
  subst htrace
  cases hadm with
  | ungated hun =>
    rw [hreq] at hun
    cases hun
  | rule hd =>
    rw [h.policy, decide_eq_allow_iff] at hd
    exact ⟨hd.1, Or.inl hd.2⟩
  | remembered hd hmem =>
    rw [h.policy, decide_eq_prompt_iff] at hd
    refine ⟨hd.1, Or.inr (Or.inl ?_)⟩
    simpa using (h.always _).mp hmem
  | yes hd =>
    rw [h.policy, decide_eq_prompt_iff] at hd
    exact ⟨hd.1, Or.inr (Or.inr ⟨s.trace, .yes, rfl, by decide⟩)⟩
  | always hd =>
    rw [h.policy, decide_eq_prompt_iff] at hd
    exact ⟨hd.1, Or.inr (Or.inr ⟨s.trace, .always, rfl, by decide⟩)⟩

/-- **One call of the gate** keeps the invariant, and lets the tool pass only if it may be executed
next. -/
theorem Watched.gateAllow {s : LoopState W} (h : Watched allow deny confirmer s) (tool : Tool W)
    (details : Bytes) :
    Exec.Post (gateAllow tool details) s
      (fun allowed s' => Watched allow deny confirmer s' ∧
        (allowed = true → tool.requiresConfirmation = true →
          ¬ Ruled deny tool details ∧
            (Ruled allow tool details ∨ Remembered s'.trace tool.name ∨
              ∃ before choice, s'.trace = before ++ [.confirm tool details choice] ∧
                choice ≠ .no)))
      (fun _ _ => False) := by
  unfold SimpleCoder.gateAllow
  rw [Exec.post_modifyGet]
  dsimp only
  have hspec := s.gate.allow_spec tool details s.world
  generalize s.gate.allow tool details s.world = v at hspec
  obtain ⟨hadm, hasked, hgate⟩ := hspec
  have hpolicy : v.gate.policy = makeConfirmPolicy allow deny := by rw [hgate]; exact h.policy
  have hconf : v.gate.confirmer = confirmer := by rw [hgate]; exact h.asks
  refine ⟨?_, fun hallowed hreq => h.admitted hreq (hadm hallowed) rfl⟩
  cases ha : v.asked with
  | none =>
    -- nothing is asked, so nothing is remembered
    rw [ha] at hgate
    refine ⟨hpolicy, hconf, fun name => ?_, ?_⟩
    · simpa [hgate] using h.always name
    · simpa using h.safe
  | some choice =>
    obtain ⟨hreq, hprompt, hnot, hsome⟩ := hasked choice ha
    rw [h.policy, decide_eq_prompt_iff] at hprompt
    -- the answer is asked for lawfully, and remembered only if it is always
    refine ⟨hpolicy, hconf, fun name => ?_, h.safe.snoc ⟨hreq, hprompt.1, hprompt.2, ?_, ?_⟩⟩
    · rw [hgate, ha]
      exact h.always_confirm name
    · exact fun hrem => hnot ((h.always _).mpr hrem)
    · rw [← h.asks]
      exact hsome

end

variable {allow deny : List Bytes} {confirmer : Option (Confirmer W)}

end SimpleCoder

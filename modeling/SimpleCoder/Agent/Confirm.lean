/-
# Allow and deny rules, and the confirmation gate

Before a tool that needs confirmation runs, `ConfirmGate::allow` decides whether it may.  The
order of the checks is the whole of its safety: an ungated tool passes; then the deny rules
block, then the allow rules pass, then the tools the user said "always" to pass, and only then
the user is asked.

* §1 is the rule matcher of `ConfirmPolicy`, and §2 says what it computes: `RuleMatches` is what
  it means for one rule to match, and the order, repetition and grouping in which the policy
  stores its rules do not matter (`RuleSet.hits_foldl_add`, `decide_eq_deny_iff`).
* §3 is the gate, and `ConfirmGate.allow_spec` says everything one call of it can do.  What holds
  over a session is derived from that in `GateSafety`.
-/
import SimpleCoder.Agent.Tool
import SimpleCoder.Lib.Lines
import Mathlib.Data.Finset.Insert
import Std.Data.TreeMap

namespace SimpleCoder

/-! ## 1. The rule matcher -/

/-- The byte that separates a rule's tool from its prefix. -/
def colon : UInt8 := 0x3A

/-- A rule, taken apart. -/
structure Rule where
  tool : Bytes
  rulePrefix : Bytes
  hasPrefix : Bool

/-- `split_rule`: at the first colon, if there is one. -/
def splitRule (rule : Bytes) : Rule :=
  match Lines.takeLine colon rule with
  | none => ⟨rule, [], false⟩
  | some (tool, rest) => ⟨tool, rest, true⟩

/-- The rules of one kind: the bare tool names, and for each tool its prefixes. -/
structure RuleSet where
  tools : Finset Bytes := ∅
  prefixes : Std.TreeMap Bytes (List Bytes) := ∅

/-- The body that `add_allow` and `add_deny` share. -/
def RuleSet.add (rs : RuleSet) (rule : Bytes) : RuleSet :=
  if rule = [] then rs
  else
    let r := splitRule rule
    if r.hasPrefix then
      { rs with prefixes := rs.prefixes.alter r.tool fun ps => some (ps.getD [] ++ [r.rulePrefix]) }
    else { rs with tools := insert r.tool rs.tools }

/-- The check that `decide` makes for each kind: the tool's own name, then its prefixes. -/
def RuleSet.hits (rs : RuleSet) (tool details : Bytes) : Bool :=
  decide (tool ∈ rs.tools) || ((rs.prefixes[tool]?).getD []).any (startsWith details)

/-- `ConfirmPolicy`. -/
structure ConfirmPolicy where
  allow : RuleSet := {}
  deny : RuleSet := {}

/-- `PolicyDecision`. -/
inductive PolicyDecision where
  | prompt
  | allow
  | deny
  deriving DecidableEq, Repr

namespace ConfirmPolicy

def addAllow (p : ConfirmPolicy) (rule : Bytes) : ConfirmPolicy :=
  { p with allow := p.allow.add rule }

def addDeny (p : ConfirmPolicy) (rule : Bytes) : ConfirmPolicy :=
  { p with deny := p.deny.add rule }

/-- `ConfirmPolicy::decide`.  Deny wins over everything. -/
def decide (p : ConfirmPolicy) (tool details : Bytes) : PolicyDecision :=
  if p.deny.hits tool details then .deny
  else if p.allow.hits tool details then .allow
  else .prompt

end ConfirmPolicy

/-- `makeConfirmPolicy`. -/
def makeConfirmPolicy (allowRules denyRules : List Bytes) : ConfirmPolicy :=
  denyRules.foldl ConfirmPolicy.addDeny (allowRules.foldl ConfirmPolicy.addAllow {})

/-! ## 2. What a rule matches -/

/-- A rule matches a call when it is the bare name of the tool, or the tool's name, a colon and
something the details start with.  The tool's name ends at the first colon, so a rule never
matches a tool that has one in its name; the empty rule matches nothing. -/
def RuleMatches (rule tool details : Bytes) : Prop :=
  rule ≠ [] ∧ colon ∉ tool ∧
    (rule = tool ∨ ∃ start, rule = tool ++ colon :: start ∧ start <+: details)

/-- A rule is for one tool only: what stands before its first colon. -/
theorem rule_named_iff {name : Bytes} (hname : colon ∉ name) (start tool details : Bytes) :
    (colon ∉ tool ∧ (name ++ colon :: start = tool ∨
        ∃ start', name ++ colon :: start = tool ++ colon :: start' ∧ start' <+: details)) ↔
      name = tool ∧ start <+: details := by
  constructor
  · rintro ⟨hc, rfl | ⟨start', he, hp⟩⟩
    · simp at hc
    · have htake : Lines.takeLine colon (name ++ colon :: start) = some (name, start) :=
        Lines.takeLine_eq_some_iff.mpr ⟨hname, rfl⟩
      have htake' := Lines.takeLine_eq_some_iff.mpr ⟨hc, he⟩
      obtain ⟨rfl, rfl⟩ := Prod.mk.inj (Option.some.inj (htake.symm.trans htake'))
      exact ⟨rfl, hp⟩
  · rintro ⟨rfl, hp⟩
    exact ⟨hname, Or.inr ⟨start, rfl, hp⟩⟩

/-- **Adding a rule adds exactly its matches.** -/
theorem RuleSet.hits_add (rs : RuleSet) (rule tool details : Bytes) :
    (rs.add rule).hits tool details = true ↔
      rs.hits tool details = true ∨ RuleMatches rule tool details := by
  unfold RuleSet.add RuleMatches splitRule
  by_cases hr : rule = []
  · simp [hr]
  cases ht : Lines.takeLine colon rule with
  | none =>
    -- the name alone
    have hc : colon ∉ rule := Lines.takeLine_eq_none_iff.mp ht
    have hno : ¬ ∃ start, rule = tool ++ colon :: start ∧ start <+: details := by
      rintro ⟨start, rfl, -⟩
      simp at hc
    simp only [hr, hits, Bool.false_eq_true, if_false, Bool.or_eq_true, decide_eq_true_eq,
      Finset.mem_insert, ne_eq, not_false_eq_true, true_and, hno, or_false]
    constructor
    · rintro ((rfl | h) | h)
      · exact Or.inr ⟨hc, rfl⟩
      · exact Or.inl (Or.inl h)
      · exact Or.inl (Or.inr h)
    · rintro ((h | h) | ⟨-, rfl⟩)
      · exact Or.inl (Or.inr h)
      · exact Or.inr h
      · exact Or.inl (Or.inl rfl)
  | some p =>
    obtain ⟨name, start⟩ := p
    obtain ⟨hn, rfl⟩ := Lines.takeLine_eq_some_iff.mp ht
    -- a name and what the details begin with
    have hiff := rule_named_iff hn start tool details
    simp only [hits, if_true, ne_eq, hr, not_false_eq_true, true_and, hiff, if_false,
      Bool.or_eq_true, decide_eq_true_eq, Std.TreeMap.getElem?_alter]
    by_cases hnt : name = tool
    · subst hnt
      simp only [Std.ReflOrd.compare_self, if_true, Option.getD_some, List.any_append,
        List.any_cons, List.any_nil, Bool.or_false, Bool.or_eq_true, true_and, startsWith,
        List.isPrefixOf_iff_prefix]
      exact or_assoc.symm
    · have hcmp : ¬ compare name tool = .eq := fun h => hnt (Std.LawfulEqOrd.eq_of_compare h)
      simp [hcmp, hnt]

/-- The matches of a list of rules: order and repetition do not matter. -/
theorem RuleSet.hits_foldl_add (rules : List Bytes) (rs : RuleSet) (tool details : Bytes) :
    (rules.foldl RuleSet.add rs).hits tool details = true ↔
      rs.hits tool details = true ∨ ∃ rule ∈ rules, RuleMatches rule tool details := by
  induction rules generalizing rs with
  | nil => simp
  | cons rule rules ih => simp [ih, hits_add, or_assoc]

theorem makeConfirmPolicy_eq (allowRules denyRules : List Bytes) :
    makeConfirmPolicy allowRules denyRules =
      ⟨allowRules.foldl RuleSet.add {}, denyRules.foldl RuleSet.add {}⟩ := by
  have ha : ∀ (l : List Bytes) (p : ConfirmPolicy), l.foldl ConfirmPolicy.addAllow p =
      { p with allow := l.foldl RuleSet.add p.allow } := by
    intro l
    induction l with
    | nil => intro p; rfl
    | cons r l ih => intro p; rw [List.foldl_cons, ih]; rfl
  have hd : ∀ (l : List Bytes) (p : ConfirmPolicy), l.foldl ConfirmPolicy.addDeny p =
      { p with deny := l.foldl RuleSet.add p.deny } := by
    intro l
    induction l with
    | nil => intro p; rfl
    | cons r l ih => intro p; rw [List.foldl_cons, ih]; rfl
  rw [makeConfirmPolicy, ha, hd]

theorem hits_empty (tool details : Bytes) : ({} : RuleSet).hits tool details = false := by
  simp [RuleSet.hits]

/-- **Deny is exactly: some deny rule matches.** -/
theorem decide_eq_deny_iff {allowRules denyRules : List Bytes} {tool details : Bytes} :
    (makeConfirmPolicy allowRules denyRules).decide tool details = .deny ↔
      ∃ rule ∈ denyRules, RuleMatches rule tool details := by
  have h := RuleSet.hits_foldl_add denyRules {} tool details
  rw [hits_empty] at h
  rw [makeConfirmPolicy_eq, ConfirmPolicy.decide]
  dsimp only
  split
  · rename_i hd
    simpa using h.mp hd
  · rename_i hd
    rw [h] at hd
    split <;> simpa using hd

/-- **Allow is exactly: some allow rule matches and no deny rule does.** -/
theorem decide_eq_allow_iff {allowRules denyRules : List Bytes} {tool details : Bytes} :
    (makeConfirmPolicy allowRules denyRules).decide tool details = .allow ↔
      (¬ ∃ rule ∈ denyRules, RuleMatches rule tool details) ∧
        ∃ rule ∈ allowRules, RuleMatches rule tool details := by
  have h := RuleSet.hits_foldl_add allowRules {} tool details
  rw [hits_empty] at h
  rw [← @decide_eq_deny_iff allowRules, makeConfirmPolicy_eq,
    ConfirmPolicy.decide]
  dsimp only
  split
  · simp
  · split
    · rename_i ha
      simpa using h.mp ha
    · rename_i ha
      rw [h] at ha
      simpa using ha

/-- **The user is asked exactly when no rule matches.** -/
theorem decide_eq_prompt_iff {allowRules denyRules : List Bytes} {tool details : Bytes} :
    (makeConfirmPolicy allowRules denyRules).decide tool details = .prompt ↔
      (¬ ∃ rule ∈ denyRules, RuleMatches rule tool details) ∧
        ¬ ∃ rule ∈ allowRules, RuleMatches rule tool details := by
  have hd := @decide_eq_deny_iff allowRules denyRules tool details
  have ha := @decide_eq_allow_iff allowRules denyRules tool details
  constructor
  · intro h
    have hno : ¬ ∃ rule ∈ denyRules, RuleMatches rule tool details := fun hdeny => by
      rw [hd.mpr hdeny] at h
      cases h
    refine ⟨hno, fun hallow => ?_⟩
    rw [ha.mpr ⟨hno, hallow⟩] at h
    cases h
  · rintro ⟨hdeny, hallow⟩
    cases h : (makeConfirmPolicy allowRules denyRules).decide tool details with
    | prompt => rfl
    | allow => exact absurd (ha.mp h).2 hallow
    | deny => exact absurd (hd.mp h) hdeny

/-! ## 3. The gate -/

/-- The user's answer to a confirmation prompt. -/
inductive ConfirmChoice where
  | yes
  | no
  | always
  deriving DecidableEq, Repr

/-- `Confirmer`: asks the user about a tool, showing the details. -/
abbrev Confirmer (W : Type) := Bytes → Bytes → W → ConfirmChoice × W

/-- `ConfirmGate`.  The confirmer may be empty. -/
structure ConfirmGate (W : Type) where
  confirmer : Option (Confirmer W) := none
  policy : ConfirmPolicy := {}
  alwaysAllowed : Finset Bytes := ∅

/-- What one call of the gate comes to: the answer, the gate and the world after it, and what the
user said if asked. -/
structure Verdict (W : Type) where
  allowed : Bool
  gate : ConfirmGate W
  world : W
  asked : Option ConfirmChoice := none

/-- `ConfirmGate::allow`. -/
def ConfirmGate.allow {W : Type} (g : ConfirmGate W) (tool : Tool W) (details : Bytes) (w : W) :
    Verdict W :=
  if tool.requiresConfirmation = false then ⟨true, g, w, none⟩
  else
    match g.policy.decide tool.name details with
    | .deny => ⟨false, g, w, none⟩
    | .allow => ⟨true, g, w, none⟩
    | .prompt =>
      if tool.name ∈ g.alwaysAllowed then ⟨true, g, w, none⟩
      else
        match g.confirmer with
        | none => ⟨false, g, w, none⟩  -- no confirmer wired up: fail closed
        | some ask =>
          match ask tool.name details w with
          | (.yes, w') => ⟨true, g, w', some .yes⟩
          | (.always, w') =>
            ⟨true, { g with alwaysAllowed := insert tool.name g.alwaysAllowed }, w', some .always⟩
          | (.no, w') => ⟨false, g, w', some .no⟩

/-- Why the gate lets a call pass: it is ungated, a rule allows it, the tool is remembered, or the
user just said so. -/
inductive Admitted {W : Type} (g : ConfirmGate W) (tool : Tool W) (details : Bytes) :
    Option ConfirmChoice → Prop where
  | ungated : tool.requiresConfirmation = false → Admitted g tool details none
  | rule : g.policy.decide tool.name details = .allow → Admitted g tool details none
  | remembered : g.policy.decide tool.name details = .prompt → tool.name ∈ g.alwaysAllowed →
      Admitted g tool details none
  | yes : g.policy.decide tool.name details = .prompt → Admitted g tool details (some .yes)
  | always : g.policy.decide tool.name details = .prompt → Admitted g tool details (some .always)

/-- **What one call of the gate can do.**  It passes only for a reason in `Admitted`; the user is
asked only about a gated call that no rule decides and the session does not remember; and the
gate itself changes only by remembering the tool the user said "always" to. -/
structure AllowSpec {W : Type} (g : ConfirmGate W) (tool : Tool W) (details : Bytes)
    (v : Verdict W) : Prop where
  admitted : v.allowed = true → Admitted g tool details v.asked
  asked : ∀ c, v.asked = some c → tool.requiresConfirmation = true ∧
    g.policy.decide tool.name details = .prompt ∧ tool.name ∉ g.alwaysAllowed ∧
    g.confirmer.isSome = true
  gate : v.gate = { g with
    alwaysAllowed :=
      if v.asked = some ConfirmChoice.always then insert tool.name g.alwaysAllowed
      else g.alwaysAllowed }

theorem ConfirmGate.allow_spec {W : Type} (g : ConfirmGate W) (tool : Tool W) (details : Bytes)
    (w : W) : AllowSpec g tool details (g.allow tool details w) := by
  unfold allow
  split
  · rename_i hreq
    exact ⟨fun _ => .ungated hreq, by simp, by simp⟩
  rename_i hreq
  split
  · exact ⟨by simp, by simp, by simp⟩
  · rename_i hd
    exact ⟨fun _ => .rule hd, by simp, by simp⟩
  rename_i hd
  split
  · rename_i hmem
    exact ⟨fun _ => .remembered hd hmem, by simp, by simp⟩
  rename_i hmem
  split
  · exact ⟨by simp, by simp, by simp⟩
  rename_i ask hask
  have hreq' : tool.requiresConfirmation = true := by simpa using hreq
  split
  · exact ⟨fun _ => .yes hd, by simp [hreq', hd, hmem, hask], by simp⟩
  · exact ⟨fun _ => .always hd, by simp [hreq', hd, hmem, hask], by simp⟩
  · exact ⟨by simp, by simp [hreq', hd, hmem, hask], by simp⟩

end SimpleCoder

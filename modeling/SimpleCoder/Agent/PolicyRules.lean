/-
# The policy as a list of rules

`makeConfirmPolicy` scatters the rules over sets and maps.  What it decides only depends on which
rules there are: deny wins over allow, and otherwise the user is asked (`policyDecision`).  So the
order and the repetition of the rules do not matter, and adding one can only move decisions towards
its own side (`decide_policy`).
-/
import SimpleCoder.Agent.Approval

namespace SimpleCoder

/-- Some rule of the list, not the empty one, matches the call. -/
def RuledBy (rules : List Bytes) (tool details : Bytes) : Prop :=
  ∃ rule ∈ rules, rule ≠ [] ∧ RuleMeans rule tool details

open Classical in
/-- What the rules say of a call: deny, else allow, else ask. -/
noncomputable def policyDecision (allowRules denyRules : List Bytes) (tool details : Bytes) :
    PolicyDecision :=
  if RuledBy denyRules tool details then .deny
  else if RuledBy allowRules tool details then .allow
  else .prompt

section

variable {allowRules denyRules : List Bytes} {tool details : Bytes}

/-- For a tool without a colon in its name, the matcher's rules are those that match. -/
theorem ruledBy_iff (hcolon : colon ∉ tool) {rules : List Bytes} :
    RuledBy rules tool details ↔ ∃ rule ∈ rules, RuleMatches rule tool details := by
  refine exists_congr fun rule => and_congr_right fun _ => and_congr_right fun _ => ?_
  exact (and_iff_right hcolon).symm

/-- **The scattered rules decide as the list does.** -/
theorem decide_eq_policyDecision (hcolon : colon ∉ tool) :
    (makeConfirmPolicy allowRules denyRules).decide tool details =
      policyDecision allowRules denyRules tool details := by
  unfold policyDecision
  rw [ruledBy_iff hcolon, ruledBy_iff hcolon]
  split
  · rename_i hdeny
    exact decide_eq_deny_iff.mpr hdeny
  rename_i hdeny
  split
  · rename_i hallow
    exact decide_eq_allow_iff.mpr ⟨hdeny, hallow⟩
  · rename_i hallow
    exact decide_eq_prompt_iff.mpr ⟨hdeny, hallow⟩

/-- The same rules, in whatever order and however often, match the same calls. -/
theorem ruledBy_congr {rules rules' : List Bytes} (h : ∀ rule, rule ∈ rules ↔ rule ∈ rules') :
    RuledBy rules tool details ↔ RuledBy rules' tool details :=
  exists_congr fun rule => and_congr_left' (h rule)

theorem policyDecision_congr {allowRules' denyRules' : List Bytes}
    (hallow : ∀ rule, rule ∈ allowRules ↔ rule ∈ allowRules')
    (hdeny : ∀ rule, rule ∈ denyRules ↔ rule ∈ denyRules') :
    policyDecision allowRules denyRules tool details =
      policyDecision allowRules' denyRules' tool details := by
  unfold policyDecision
  rw [propext (ruledBy_congr hallow), propext (ruledBy_congr hdeny)]

/-- Another deny rule can only move the decision to deny. -/
theorem policyDecision_deny_cons (rule : Bytes) :
    policyDecision allowRules (rule :: denyRules) tool details = .deny ∨
      policyDecision allowRules (rule :: denyRules) tool details =
        policyDecision allowRules denyRules tool details := by
  unfold policyDecision
  by_cases h : RuledBy (rule :: denyRules) tool details
  · exact Or.inl (if_pos h)
  · have hbefore : ¬ RuledBy denyRules tool details := fun ⟨r, hr, hmatch⟩ =>
      h ⟨r, List.mem_cons_of_mem _ hr, hmatch⟩
    rw [if_neg h, if_neg hbefore]
    exact Or.inr rfl

/-- Another allow rule can only move the decision from asking to allow. -/
theorem policyDecision_allow_cons (rule : Bytes) :
    (policyDecision allowRules denyRules tool details = .prompt ∧
      policyDecision (rule :: allowRules) denyRules tool details = .allow) ∨
      policyDecision (rule :: allowRules) denyRules tool details =
        policyDecision allowRules denyRules tool details := by
  unfold policyDecision
  by_cases hdeny : RuledBy denyRules tool details
  · rw [if_pos hdeny, if_pos hdeny]
    exact Or.inr rfl
  rw [if_neg hdeny, if_neg hdeny]
  by_cases hbefore : RuledBy allowRules tool details
  · have hafter : RuledBy (rule :: allowRules) tool details := by
      obtain ⟨r, hr, hmatch⟩ := hbefore
      exact ⟨r, List.mem_cons_of_mem _ hr, hmatch⟩
    rw [if_pos hbefore, if_pos hafter]
    exact Or.inr rfl
  · rw [if_neg hbefore]
    by_cases hafter : RuledBy (rule :: allowRules) tool details
    · exact Or.inl ⟨rfl, if_pos hafter⟩
    · exact Or.inr (if_neg hafter)

/-- **What the policy decides depends on the set of rules only.**  It is deny if a deny rule
matches, else allow if an allow rule does, else the user is asked.  So permuting or repeating rules
changes nothing, another deny rule moves decisions to deny if at all, and another allow rule moves
them from asking to allow if at all. -/
theorem decide_policy (allowRules denyRules : List Bytes) {tool : Bytes} (hcolon : colon ∉ tool)
    (details : Bytes) :
    (makeConfirmPolicy allowRules denyRules).decide tool details =
      policyDecision allowRules denyRules tool details ∧
    (∀ allowRules' denyRules', (∀ rule, rule ∈ allowRules ↔ rule ∈ allowRules') →
      (∀ rule, rule ∈ denyRules ↔ rule ∈ denyRules') →
      (makeConfirmPolicy allowRules' denyRules').decide tool details =
        (makeConfirmPolicy allowRules denyRules).decide tool details) ∧
    (∀ rule, (makeConfirmPolicy allowRules (rule :: denyRules)).decide tool details = .deny ∨
      (makeConfirmPolicy allowRules (rule :: denyRules)).decide tool details =
        (makeConfirmPolicy allowRules denyRules).decide tool details) ∧
    ∀ rule, ((makeConfirmPolicy allowRules denyRules).decide tool details = .prompt ∧
      (makeConfirmPolicy (rule :: allowRules) denyRules).decide tool details = .allow) ∨
      (makeConfirmPolicy (rule :: allowRules) denyRules).decide tool details =
        (makeConfirmPolicy allowRules denyRules).decide tool details := by
  simp only [decide_eq_policyDecision hcolon]
  refine ⟨trivial, fun allowRules' denyRules' hallow hdeny => ?_, policyDecision_deny_cons,
    policyDecision_allow_cons⟩
  exact (policyDecision_congr hallow hdeny).symm

theorem decide_policy_bash :
    (makeConfirmPolicy [bytes "run_bash:git", bytes "run_bash:git"] []).decide (bytes "run_bash")
      (bytes "git status") =
    (makeConfirmPolicy [bytes "run_bash:git"] []).decide (bytes "run_bash") (bytes "git status") :=
  (decide_policy [bytes "run_bash:git"] [] (by decide) (bytes "git status")).2.1
    [bytes "run_bash:git", bytes "run_bash:git"] [] (by simp) (by simp)

end

end SimpleCoder

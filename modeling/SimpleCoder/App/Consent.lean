/-
# What the user said yes to

The gate asks the user about a call by way of the dialog, which shows the details of the call; if
the answer is yes, the tool is executed.

* §1: the dialog as the confirmer of the gate.
* §2: if the details were on the screen, so was everything that the tool then does outside
  (`consented`).  A NUL, behind which the shell would read nothing, is not on the screen.
-/
import SimpleCoder.Agent.Approval
import SimpleCoder.Ui.ConfirmDialog

namespace SimpleCoder

open ConfirmDialog (Screen ShowsDetails ask answer detailRows seenDetails waitForAnswer)

variable {W : Type}

/-! ## 1. The dialog behind the gate -/

/-- The screen, and the keys that are pressed while the dialog is open: one of them is an answer, or
it would still be. -/
structure Terminal (W : Type) where
  screen : W → Screen
  keys : W → List Int × W
  answered : ∀ w, (waitForAnswer (keys w).1).isSome

/-- The confirmer that `App` sets up: `request_confirmation` comes back with what `ask` does. -/
def Terminal.confirmer (t : Terminal W) : Confirmer W := fun tool details w =>
  ((ask (t.screen w) tool details (t.keys w).1).2.getD .no, (t.keys w).2)

/-- The user was asked: the confirmer said so. -/
theorem ConfirmGate.asked_eq {g : ConfirmGate W} {tool : Tool W} {details : Bytes} {w : W}
    {choice : ConfirmChoice} (h : (g.allow tool details w).asked = some choice) :
    ∃ confirmer, g.confirmer = some confirmer ∧ (confirmer tool.name details w).1 = choice ∧
      ((g.allow tool details w).allowed = true ↔ choice ≠ .no) := by
  unfold allow at h ⊢
  split at h
  · cases h
  rename_i hgated
  rw [if_neg hgated]
  split at h
  · cases h
  · cases h
  split at h
  · cases h
  rename_i hnew
  rw [if_neg hnew]
  split at h
  · cases h
  rename_i confirmer hconfirmer
  rw [hconfirmer]
  refine ⟨confirmer, rfl, ?_⟩
  split at h <;> rename_i hsaid <;> cases h <;> rw [hsaid] <;> simp

/-- The keys that let a call pass. -/
theorem answer_consents {ch : Int} {choice : ConfirmChoice} (h : answer ch = some choice)
    (hyes : choice ≠ .no) : ch = 0x79 ∨ ch = 0x59 ∨ ch = 0x61 ∨ ch = 0x41 := by
  unfold answer at h
  split at h
  · rename_i hch
    exact hch.elim .inl fun h => .inr (.inl h)
  split at h
  · rename_i hch
    exact .inr (.inr hch)
  split at h
  · cases h
    exact absurd rfl hyes
  · cases h

/-! ## 2. What is done was on the screen -/

/-- What stands on the screen of a text that is wrapped. -/
def solid (s : Bytes) : Bytes := (s.filter (· ≠ newline)).filter (· ≠ space)

/-- What is done stands on the screen: all of the command that the shell runs, or the path. -/
def Effect.OnScreen (seen : List Bytes) : Effect → Prop
  | .shell text => ∃ command, text = bytes "( " ++ command ++ bytes " ) 2>&1" ∧
      seen.flatMap (List.filter (· ≠ space)) = solid command
  | .write path | .createDirectory path =>
      solid (bytes "path: " ++ path) <+: seen.flatMap (List.filter (· ≠ space))

section

variable {scr : Screen} {tool details : Bytes}

/-- What is named in the details stands on the screen if they do. -/
theorem Effect.ShownIn.onScreen {e : Effect} (he : e.ShownIn details)
    (hshown : ShowsDetails scr tool details) : e.OnScreen (seenDetails scr tool details) := by
  have hseen : (seenDetails scr tool details).flatMap (List.filter (· ≠ space)) =
      solid details := by
    unfold ShowsDetails at hshown
    rw [hshown]
    exact ConfirmDialog.flatMap_detailRows scr details
  cases e with
  | shell text => exact ⟨details, he, hseen⟩
  | write path =>
    unfold Effect.OnScreen
    rw [hseen]
    exact (List.IsPrefix.filter _ he).filter _
  | createDirectory path =>
    unfold Effect.OnScreen
    rw [hseen]
    exact (List.IsPrefix.filter _ he).filter _

/-- A row with a NUL is not seen whole. -/
theorem zero_notMem_of_showsDetails (hshown : ShowsDetails scr tool details) : 0 ∉ details := by
  intro hzero
  have hrows : 0 ∈ (detailRows scr details).flatMap (List.filter (· ≠ space)) := by
    rw [ConfirmDialog.flatMap_detailRows scr details]
    exact List.mem_filter.mpr ⟨List.mem_filter.mpr ⟨hzero, by decide⟩, by decide⟩
  obtain ⟨line, hline, hmem⟩ := List.mem_flatMap.mp hrows
  exact ((ConfirmDialog.showsDetails_iff.mp hshown).2 line hline).1 (List.mem_of_mem_filter hmem)

end

section

variable (lib : JsonText) (host : Host W) (web : WebToolsConfig) {b : Builtin} {args : Json}
  {details : Bytes} {w w₁ : W} {scr : Screen}

/-- What is on the screen is approved. -/
theorem approved_of_showsDetails (hb : b.Gated)
    (hdetails : (b.tool lib host web).confirmDetails args w = .ok details w₁)
    (hshown : ShowsDetails scr (b.tool lib host web).name details)
    (hdir : b = .makeDir → ∀ command, args.find (bytes "command") ≠ some (.string command))
    (w' : W) : Approved lib host web b args w w' := by
  cases b with
  | writeFile => exact approved_write lib host web args w w' (.inl rfl)
  | strReplace => exact approved_write lib host web args w w' (.inr rfl)
  | runBash =>
    refine (approved_runBash_iff lib host web args w w').mpr fun hzero => ?_
    have ht := find_of_argText_ne_nil (List.ne_nil_of_mem hzero)
    have hcommand : details = argText args (bytes "command") :=
      (details_eq_shown lib host web hb ht hdetails).trans (defaultShown_of_command ht)
    rw [← hcommand] at hzero
    exact zero_notMem_of_showsDetails hshown hzero
  | makeDir =>
    refine (approved_makeDir_iff lib host web args w w').mpr fun _ _ command hcommand => ?_
    exact absurd hcommand (hdir rfl command)
  | _ => exact hb.elim

/-- **What the user said yes to.**  If the gate lets a call pass because of the dialog, the first
key that was an answer was one for yes; and if the details were on the screen, so was what the tool
does outside, in whatever world it is executed.  Only `make_dir` may show something else, which is a
command among its arguments. -/
theorem consented (t : Terminal W) {g : ConfirmGate W} (hg : g.confirmer = some t.confirmer)
    (hb : b.Gated) (hdetails : (b.tool lib host web).confirmDetails args w = .ok details w₁)
    {choice : ConfirmChoice}
    (hasked : (g.allow (b.tool lib host web) details w₁).asked = some choice)
    (hallowed : (g.allow (b.tool lib host web) details w₁).allowed = true) :
    (∃ ignored ch later, (t.keys w₁).1 = ignored ++ ch :: later ∧
      (∀ k ∈ ignored, answer k = none) ∧ (ch = 0x79 ∨ ch = 0x59 ∨ ch = 0x61 ∨ ch = 0x41)) ∧
    (ShowsDetails (t.screen w₁) (b.tool lib host web).name details →
      (b = .makeDir → ∀ command, args.find (bytes "command") ≠ some (.string command)) →
      ∀ w', ∀ e ∈ b.effects lib host web args w',
        e.OnScreen (seenDetails (t.screen w₁) (b.tool lib host web).name details)) := by
  constructor
  · obtain ⟨confirmer, hconfirmer, hsaid, hyes⟩ := ConfirmGate.asked_eq hasked
    rw [hg] at hconfirmer
    cases hconfirmer
    obtain ⟨said, hanswer⟩ := Option.isSome_iff_exists.mp (t.answered w₁)
    have hchoice : said = choice := by
      rw [← hsaid]
      unfold Terminal.confirmer ask
      dsimp only
      rw [hanswer, Option.getD_some]
    obtain ⟨ignored, ch, later, hkeys, hignored, hch⟩ :=
      ConfirmDialog.waitForAnswer_eq_some_iff.mp hanswer
    rw [hchoice] at hch
    exact ⟨ignored, ch, later, hkeys, hignored, answer_consents hch (hyes.mp hallowed)⟩
  · intro hshown hdir w' e he
    obtain ⟨named, w₂, hnamed, hin⟩ :=
      approved_of_showsDetails lib host web hb hdetails hshown hdir w' e he
    rw [hdetails] at hnamed
    cases hnamed
    exact hin.onScreen hshown

end

/-- A user who presses some other key first, and then `y`. -/
def Terminal.patient : Terminal Unit where
  screen _ := ⟨24, 80⟩
  keys w := ([0x20, 0x79], w)
  answered _ := rfl

/-- A command that is on the screen when the user says yes. -/
theorem consented_ls :
    (Effect.shell (bytes "( ls -l ) 2>&1")).OnScreen
      (seenDetails ⟨24, 80⟩ (bytes "run_bash") (bytes "ls -l")) := by
  have hshown : ShowsDetails ⟨24, 80⟩ (bytes "run_bash") (bytes "ls -l") := by
    unfold ShowsDetails
    decide +kernel
  have hargs : (Builtin.runBash.tool .empty (Host.ofFiles [] : Host Unit) {}).confirmDetails
      (Json.ofFields [(bytes "command", .string (bytes "ls -l"))]) () =
        .ok (bytes "ls -l") () := rfl
  have hasked : (({ confirmer := some Terminal.patient.confirmer } : ConfirmGate Unit).allow
      (Builtin.runBash.tool .empty (Host.ofFiles []) {}) (bytes "ls -l") ()).asked = some .yes := by
    decide +kernel
  have hall := (consented .empty (Host.ofFiles []) {} (b := .runBash) Terminal.patient rfl trivial
    hargs hasked (by decide +kernel)).2
  refine hall hshown (fun h => absurd h (by decide)) () _ ?_
  rw [runBash_effects]
  decide +kernel

end SimpleCoder

/-
# What `str_replace` edits, and what its preview promises

`str_replace` replaces a text that is in the file exactly once, and shows the edit before it is
confirmed.  Both search the file for the text, and a second time behind what they found.

* §1: what the two searches find (`occurrence_spec`): a second occurrence that begins inside the
  first is not seen.
* §2: so the tool does what it says unless all occurrences overlap the first
  (`strReplace_edits_iff`).
* §3: the preview announces a failure exactly if the tool then fails, and shows the edit it then
  makes otherwise (`strReplace_previewed`).
* §4: a preview without changes, of `write_file` too (`noChanges_iff`).
-/
import SimpleCoder.Agent.Approval
import SimpleCoder.Lib.Occurs
import SimpleCoder.Util.Hunks

namespace SimpleCoder

open Occurs

variable {W : Type}

/-! ## 1. The two searches -/

/-- **The search from the left** takes the text apart at the first occurrence, if there is one. -/
theorem splitAtText_spec {needle : Bytes} (hne : needle ≠ []) (c : Bytes) :
    match splitAtText needle c with
    | none => ∀ p, ¬ OccursAt needle c p
    | some (before, after) => c = before ++ needle ++ after ∧ IsFirst needle c before.length := by
  induction c with
  | nil =>
    intro p h
    obtain ⟨before, after, -, h⟩ := h
    simp [hne] at h
  | cons x c ih =>
    unfold splitAtText
    -- the text begins with what is looked for, or its tail is searched
    by_cases hstart : needle <+: x :: c
    · rw [if_pos (by simpa [startsWith] using hstart)]
      obtain ⟨after, hafter⟩ := hstart
      refine ⟨?_, occursAt_zero_iff.mpr ⟨after, hafter⟩, fun q _ => Nat.zero_le q⟩
      rw [← hafter, List.drop_left]
      rfl
    · rw [if_neg (by simpa [startsWith] using hstart)]
      have hzero : ¬ OccursAt needle (x :: c) 0 := fun h => hstart (occursAt_zero_iff.mp h)
      cases hsplit : splitAtText needle c with
      | none =>
        rw [hsplit] at ih
        intro p h
        cases p with
        | zero => exact hzero h
        | succ p => exact ih p ((occursAt_cons_iff x).mp h)
      | some found =>
        obtain ⟨before, after⟩ := found
        rw [hsplit] at ih
        obtain ⟨heq, hfound, hfirst⟩ := ih
        refine ⟨by rw [heq]; rfl, (occursAt_cons_iff x).mpr hfound, fun q h => ?_⟩
        cases q with
        | zero => exact absurd h hzero
        | succ q => exact Nat.succ_le_succ (hfirst q ((occursAt_cons_iff x).mp h))

/-- What the two searches say of the text to replace. -/
def OccurrenceSpec (content oldStr : Bytes) : Occurrence → Prop
  | .absent => ∀ p, ¬ OccursAt oldStr content p
  | .unique before after => content = before ++ oldStr ++ after ∧
      IsFirst oldStr content before.length ∧
      ∀ q, OccursAt oldStr content q → q < before.length + oldStr.length
  | .ambiguous => ∃ p q, IsFirst oldStr content p ∧ OccursAt oldStr content q ∧
      p + oldStr.length ≤ q

/-- **What the two searches find.** -/
theorem occurrence_spec (content : Bytes) {oldStr : Bytes} (hne : oldStr ≠ []) :
    OccurrenceSpec content oldStr (occurrence content oldStr) := by
  have hfirst := splitAtText_spec hne content
  unfold occurrence
  cases hsplit : splitAtText oldStr content with
  | none =>
    rw [hsplit] at hfirst
    exact hfirst
  | some found =>
    obtain ⟨before, after⟩ := found
    rw [hsplit] at hfirst
    obtain ⟨rfl, hfirst⟩ := hfirst
    have hsecond := splitAtText_spec hne after
    dsimp only
    cases hagain : splitAtText oldStr after with
    | none =>
      rw [hagain] at hsecond
      exact ⟨rfl, hfirst, notMem_after_iff.mp hsecond⟩
    | some found =>
      rw [hagain] at hsecond
      obtain ⟨-, hfound, -⟩ := hsecond
      have hbehind := (occursAt_append_iff (before ++ oldStr)).mpr hfound
      rw [List.length_append] at hbehind
      exact ⟨before.length, _, hfirst, hbehind, Nat.le_add_right _ _⟩

/-! ## 2. The edit -/

/-- What opening the file and reading it gives. -/
def Host.fileAt (host : Host W) (path : Bytes) (w : W) : Option Bytes := (host.readFile path w).1

/-- What the system promises of the file at the path: reading it does not change it, and what has
been written to it is what is read from then on. -/
structure Host.KeepsFile (host : Host W) (path : Bytes) : Prop where
  read : ∀ w, host.fileAt path (host.readFile path w).2 = host.fileAt path w
  written : ∀ text w, (host.writeFile path text w).1 = .written →
    host.fileAt path (host.writeFile path text w).2 = some text

/-- The file can be written. -/
def Host.Writable (host : Host W) (path : Bytes) : Prop :=
  ∀ text w, (host.writeFile path text w).1 = .written

/-- What the file is to become, if the text is there to be replaced. -/
def plannedEdit (file : Option Bytes) (oldStr newStr : Bytes) : Option Bytes :=
  match file with
  | none => none
  | some current =>
    if oldStr = [] then none
    else
      match occurrence current oldStr with
      | .unique before after => some (before ++ newStr ++ after)
      | _ => none

theorem writeAndReport_run {host : Host W} {path text done : Bytes} {w : W}
    (h : (host.writeFile path text w).1 = .written) :
    writeAndReport host path text done w = .ok (success done) (host.writeFile path text w).2 := by
  unfold writeAndReport
  rw [Exec.modifyGet_bind, h]
  rfl

/-- **What the second half of the tool does**: the planned edit, or nothing. -/
theorem replaceUnique_run {host : Host W} {path : Bytes} (hkeeps : host.KeepsFile path)
    (hwritable : host.Writable path) (oldStr newStr : Bytes) (w : W) :
    ∃ r w', replaceUnique host path oldStr newStr w = .ok r w' ∧
      match plannedEdit (host.fileAt path w) oldStr newStr with
      | some updated => r.ok = true ∧ host.fileAt path w' = some updated
      | none => r.ok = false ∧ host.fileAt path w' = host.fileAt path w := by
  unfold replaceUnique plannedEdit
  by_cases hne : oldStr = []
  · rw [if_pos hne]
    refine ⟨_, w, rfl, ?_⟩
    cases host.fileAt path w with
    | none => exact ⟨rfl, rfl⟩
    | some current =>
      dsimp only
      rw [if_pos hne]
      exact ⟨rfl, rfl⟩
  · rw [if_neg hne]
    have hread := hkeeps.read w
    simp only [Exec.modifyGet_bind]
    cases hfile : host.fileAt path w with
    | none =>
      rw [show (host.readFile path w).1 = none from hfile]
      exact ⟨_, _, rfl, rfl, by rw [hread, hfile]⟩
    | some content =>
      rw [show (host.readFile path w).1 = some content from hfile]
      rw [hfile] at hread
      dsimp only
      rw [if_neg hne]
      cases occurrence content oldStr with
      | absent => exact ⟨_, _, rfl, rfl, hread⟩
      | ambiguous => exact ⟨_, _, rfl, rfl, hread⟩
      | unique before after =>
        exact ⟨_, _, writeAndReport_run (hwritable _ _), rfl, hkeeps.written _ _ (hwritable _ _)⟩

/-- What an execution leaves behind: the planned edit and success, or the file as it was and a
failure. -/
def MakesEdit (host : Host W) (args : Json) (w : W) (r : ToolResult) (w' : W) : Prop :=
  let path := argText args (bytes "path")
  match plannedEdit (host.fileAt path w) (argText args (bytes "old_str"))
      (argText args (bytes "new_str")) with
  | some updated => r.ok = true ∧ host.fileAt path w' = some updated
  | none => r.ok = false ∧ host.fileAt path w' = host.fileAt path w

/-- **What the tool does**: the planned edit, or nothing.  An empty path names no file. -/
theorem strReplace_execute_run {host : Host W} {args : Json}
    (hargs : Builtin.strReplace.DetailsOk args)
    (hkeeps : host.KeepsFile (argText args (bytes "path")))
    (hwritable : host.Writable (argText args (bytes "path"))) {w : W}
    (hempty : argText args (bytes "path") = [] → host.fileAt [] w = none) :
    ∃ r w', (strReplaceTool host).execute args w = .ok r w' ∧ MakesEdit host args w r w' := by
  obtain ⟨hpath, hold, hnew⟩ := hargs
  unfold strReplaceTool MakesEdit
  dsimp only
  rw [textArg_bind hpath]
  by_cases hp : argText args (bytes "path") = []
  · rw [if_pos hp, hp, hempty hp]
    exact ⟨_, w, rfl, rfl, hempty hp⟩
  rw [if_neg hp]
  by_cases hc : args.contains (bytes "old_str") = false
  · have hno : argText args (bytes "old_str") = [] := by
      by_contra hne
      have hfind := find_of_argText_ne_nil hne
      simp [Json.contains, hfind] at hc
    rw [if_pos hc, hno]
    refine ⟨_, w, rfl, ?_⟩
    cases host.fileAt (argText args (bytes "path")) w <;> exact ⟨rfl, rfl⟩
  · rw [if_neg hc, textArg_bind hold, textArg_bind hnew]
    exact replaceUnique_run hkeeps hwritable _ _ w

/-- What the tool promises: the one occurrence is replaced and nothing else is changed; a text that
is not there exactly once is refused, and the file stays as it was. -/
def EditsUnique (host : Host W) (path content oldStr newStr : Bytes) (r : ToolResult) (w' : W) :
    Prop :=
  (∀ p, OccursAt oldStr content p → (∀ q, OccursAt oldStr content q → q = p) → r.ok = true ∧
    host.fileAt path w' =
      some (content.take p ++ newStr ++ content.drop (p + oldStr.length))) ∧
  ((¬ ∃! p, OccursAt oldStr content p) → r.ok = false ∧ host.fileAt path w' = some content)

/-- The text occurs more than once, and each time begins inside the first occurrence. -/
def OnlyOverlapping (oldStr content : Bytes) : Prop :=
  ∃ p q, IsFirst oldStr content p ∧ p < q ∧ OccursAt oldStr content q ∧
    ∀ r, OccursAt oldStr content r → r < p + oldStr.length

theorem plannedEdit_some {oldStr : Bytes} (hne : oldStr ≠ []) (content newStr : Bytes) :
    plannedEdit (some content) oldStr newStr =
      match occurrence content oldStr with
      | .unique before after => some (before ++ newStr ++ after)
      | _ => none := if_neg hne

/-- What becomes of the promise, if the planned edit is made. -/
theorem editsUnique_iff {host : Host W} {path content oldStr newStr : Bytes} (hne : oldStr ≠ [])
    {r : ToolResult} {w' : W}
    (hedit : match plannedEdit (some content) oldStr newStr with
      | some updated => r.ok = true ∧ host.fileAt path w' = some updated
      | none => r.ok = false ∧ host.fileAt path w' = some content) :
    EditsUnique host path content oldStr newStr r w' ↔ ¬ OnlyOverlapping oldStr content := by
  have hspec := occurrence_spec content hne
  rw [plannedEdit_some hne] at hedit
  cases hocc : occurrence content oldStr with
  | absent =>
    rw [hocc] at hspec hedit
    refine iff_of_true ⟨fun p hp => absurd hp (hspec p), fun _ => hedit⟩ ?_
    rintro ⟨p, q, ⟨hp, -⟩, -⟩
    exact hspec p hp
  | ambiguous =>
    rw [hocc] at hspec hedit
    obtain ⟨p, q, ⟨hp, hfirst⟩, hq, hbehind⟩ := hspec
    have hlength : 0 < oldStr.length := List.length_pos_iff.mpr hne
    -- the second search found another one, so there are several and the edit is refused
    refine iff_of_true ⟨fun p' _ hall => ?_, fun _ => hedit⟩ ?_
    · have := hall p hp
      have := hall q hq
      omega
    · rintro ⟨p', q', ⟨hp', hfirst'⟩, -, -, hinside⟩
      have := hfirst p' hp'
      have := hfirst' p hp
      have := hinside q hq
      omega
  | unique before after =>
    rw [hocc] at hspec hedit
    obtain ⟨rfl, hfirst, hinside⟩ := hspec
    obtain ⟨hok, hfile⟩ := hedit
    constructor
    · -- the edit is made although an overlapping one follows
      rintro ⟨-, hrefused⟩ ⟨p, q, hp, hlt, hq, -⟩
      have hseveral : ¬ ∃! p, OccursAt oldStr (before ++ oldStr ++ after) p := by
        rintro ⟨u, -, hu⟩
        have := hu p hp.1
        have := hu q hq
        omega
      rw [hok] at hrefused
      exact absurd (hrefused hseveral).1 (by simp)
    · intro hoverlap
      -- nothing behind the first one, and nothing over it: it is the only one
      have hall : ∀ q, OccursAt oldStr (before ++ oldStr ++ after) q → q = before.length := by
        intro q hq
        by_contra hne'
        have := hfirst.2 q hq
        exact hoverlap ⟨before.length, q, hfirst, by omega, hq, hinside⟩
      refine ⟨fun p hp _ => ⟨hok, ?_⟩, fun hno => ?_⟩
      · rw [hfile, hall p hp, ← List.length_append, List.drop_left,
          List.append_assoc before oldStr after, List.take_left]
      · exact absurd ⟨before.length, hfirst.1, hall⟩ hno

/-- **When `str_replace` edits the one occurrence or nothing**: unless there are several, all of
them overlapping the first.  Then the second search does not see them, and the first is replaced. -/
theorem strReplace_edits_iff {host : Host W} {args : Json}
    (hargs : Builtin.strReplace.DetailsOk args)
    (hkeeps : host.KeepsFile (argText args (bytes "path")))
    (hwritable : host.Writable (argText args (bytes "path")))
    (hpath : argText args (bytes "path") ≠ []) (hold : argText args (bytes "old_str") ≠ [])
    {content : Bytes} {w : W} (hfile : host.fileAt (argText args (bytes "path")) w = some content) :
    ∃ r w', (strReplaceTool host).execute args w = .ok r w' ∧
      (EditsUnique host (argText args (bytes "path")) content (argText args (bytes "old_str"))
        (argText args (bytes "new_str")) r w' ↔
          ¬ OnlyOverlapping (argText args (bytes "old_str")) content) := by
  obtain ⟨r, w', hrun, hedit⟩ :=
    strReplace_execute_run hargs hkeeps hwritable (w := w) fun h => absurd h hpath
  unfold MakesEdit at hedit
  dsimp only at hedit
  rw [hfile] at hedit
  exact ⟨r, w', hrun, editsUnique_iff hold hedit⟩

/-- An outside that has one file, under every path but the empty one; its content is the world. -/
def Host.ofContent : Host Bytes :=
  { (Host.ofFiles [] : Host Bytes) with
    readFile := fun path content => (if path = [] then none else some content, content)
    writeFile := fun _ text _ => (.written, text) }

theorem Host.ofContent_keepsFile {path : Bytes} (hpath : path ≠ []) :
    Host.ofContent.KeepsFile path where
  read _ := rfl
  written _ _ _ := if_neg hpath

theorem Host.ofContent_writable (path : Bytes) : Host.ofContent.Writable path := fun _ _ => rfl

/-- Arguments with all three texts. -/
def editArgs (path oldStr newStr : Bytes) : Json :=
  .object [(bytes "new_str", .string newStr), (bytes "old_str", .string oldStr),
    (bytes "path", .string path)]

theorem editArgs_ok (path oldStr newStr : Bytes) :
    Builtin.strReplace.DetailsOk (editArgs path oldStr newStr) :=
  ⟨⟨rfl, fun _ h => ⟨path, (Option.some.inj h).symm⟩⟩,
    ⟨rfl, fun _ h => ⟨oldStr, (Option.some.inj h).symm⟩⟩,
    ⟨rfl, fun _ h => ⟨newStr, (Option.some.inj h).symm⟩⟩⟩

theorem strReplace_edits_iff_once :
    ∃ r w', (strReplaceTool Host.ofContent).execute
        (editArgs (bytes "f") (bytes "world") (bytes "there")) (bytes "hello world") = .ok r w' ∧
      (EditsUnique Host.ofContent (bytes "f") (bytes "hello world") (bytes "world")
        (bytes "there") r w' ↔ ¬ OnlyOverlapping (bytes "world") (bytes "hello world")) :=
  strReplace_edits_iff (editArgs_ok _ _ _) (Host.ofContent_keepsFile (by decide))
    (Host.ofContent_writable _) (by decide) (by decide) rfl

/-- **An ambiguous text is replaced**: `aa` is in `aaa` twice, and the file becomes `ba`. -/
theorem not_editsUnique_overlap :
    ∃ r w', (strReplaceTool Host.ofContent).execute
        (editArgs (bytes "f") (bytes "aa") (bytes "b")) (bytes "aaa") = .ok r w' ∧
      ¬ EditsUnique Host.ofContent (bytes "f") (bytes "aaa") (bytes "aa") (bytes "b") r w' := by
  refine ⟨success (bytes "replaced 1 occurrence in f"), bytes "ba", rfl, fun h => ?_⟩
  have hseveral : ¬ ∃! p, OccursAt (bytes "aa") (bytes "aaa") p := by
    rintro ⟨p, -, hall⟩
    have hzero : 0 = p := hall 0 (by decide)
    have hone : 1 = p := hall 1 (by decide)
    omega
  exact absurd (h.2 hseveral).1 (by decide)

/-! ## 3. The preview -/

/-- Behind the header, the details say that the edit will fail, and why. -/
def WillFail (header details : Bytes) : Prop :=
  ∃ why, newline ∉ why ∧ details = header ++ bytes "\n(" ++ why ++ bytes " — edit will fail)"

theorem willFail_of_line {line : Bytes} (header why : Bytes) (hwhy : newline ∉ why)
    (hline : line = bytes "\n(" ++ why ++ bytes " — edit will fail)") :
    WillFail header (header ++ line) := by
  refine ⟨why, hwhy, ?_⟩
  rw [hline]
  simp only [List.append_assoc]

theorem previewText_eq (header current updated : Bytes) :
    previewText header current updated = header ++ bytes "\n" ++
      (if unifiedDiff current updated 3 4000 = [] then bytes "(no changes)"
        else unifiedDiff current updated 3 4000) := by
  unfold previewText editPreview
  dsimp only
  split
  · rw [List.append_assoc]
    rfl
  · rfl

/-- Texts whose last bytes differ are different. -/
theorem append_ne_of_ends {a b : Bytes} (n : Nat) (ha : n ≤ a.length) (hb : n ≤ b.length)
    (h : a.drop (a.length - n) ≠ b.drop (b.length - n)) (s t : Bytes) : s ++ a ≠ t ++ b := by
  have hend : ∀ (s a : Bytes), n ≤ a.length →
      (s ++ a).drop ((s ++ a).length - n) = a.drop (a.length - n) := by
    intro s a ha
    rw [List.length_append, Nat.add_sub_assoc ha, List.drop_length_add_append]
  intro heq
  rw [← hend s a ha, ← hend t b hb, heq] at h
  exact h rfl

/-- How the details of a preview end: that there are no changes, or with the end of a diff. -/
theorem previewText_end (header current updated : Bytes) :
    (editPreview current updated = [] ∧
      previewText header current updated = header ++ bytes "\n(no changes)") ∨
    (editPreview current updated ≠ [] ∧ ∃ front,
      previewText header current updated = front ++ [newline] ∨
        previewText header current updated = front ++ bytes " preview)") := by
  unfold previewText
  dsimp only
  by_cases hnil : editPreview current updated = []
  · exact Or.inl ⟨hnil, if_pos hnil⟩
  · rw [if_neg hnil]
    refine Or.inr ⟨hnil, ?_⟩
    rcases unifiedDiff_end current updated 3 4000 with h | ⟨front, h⟩ | ⟨front, h⟩
    · exact absurd h hnil
    · exact ⟨header ++ bytes "\n" ++ front, Or.inl (by rw [editPreview, h, ← List.append_assoc])⟩
    · exact ⟨header ++ bytes "\n" ++ front, Or.inr (by rw [editPreview, h, ← List.append_assoc])⟩

/-- A preview of changes does not say that the edit will fail: it ends otherwise. -/
theorem not_willFail_previewText (header current updated : Bytes) :
    ¬ WillFail header (previewText header current updated) := by
  rintro ⟨why, -, h⟩
  rcases previewText_end header current updated with ⟨-, hend⟩ | ⟨-, front, hend | hend⟩
  · rw [hend] at h
    exact append_ne_of_ends 4 (by decide) (by decide) (by decide) _ _ h
  · rw [hend] at h
    exact append_ne_of_ends 1 (by decide) (by decide) (by decide) _ _ h
  · rw [hend] at h
    exact append_ne_of_ends 4 (by decide) (by decide) (by decide) _ _ h

/-- **The text of the details** is the preview of the planned edit, or says why there is none. -/
theorem strReplace_shown (args : Json) (file : Option Bytes) :
    let header := bytes "path: " ++ argText args (bytes "path")
    match plannedEdit file (argText args (bytes "old_str")) (argText args (bytes "new_str")) with
    | some updated => ∃ current, file = some current ∧
        Builtin.strReplace.shown args file = previewText header current updated
    | none => WillFail header (Builtin.strReplace.shown args file) := by
  unfold plannedEdit Builtin.shown
  dsimp only
  cases file with
  | none => exact willFail_of_line _ (bytes "cannot read file") (by decide) (by decide)
  | some current =>
    dsimp only
    by_cases hne : argText args (bytes "old_str") = []
    · rw [if_pos hne, if_pos hne]
      exact willFail_of_line _ (bytes "old_str is empty") (by decide) (by decide)
    · rw [if_neg hne, if_neg hne]
      cases occurrence current (argText args (bytes "old_str")) with
      | absent =>
        exact willFail_of_line _ (bytes "old_str not found") (by decide) (by decide)
      | ambiguous =>
        exact willFail_of_line _ (bytes "old_str is not unique") (by decide) (by decide)
      | unique before after => exact ⟨current, rfl, rfl⟩

/-- **The preview predicts the edit.**  If the file does not change in between, then the details say
that the edit will fail exactly if it does, and otherwise show, behind the path, the difference that
it makes. -/
theorem strReplace_previewed {host : Host W} {args : Json}
    (hargs : Builtin.strReplace.DetailsOk args)
    (hkeeps : host.KeepsFile (argText args (bytes "path")))
    (hwritable : host.Writable (argText args (bytes "path")))
    (hempty : ∀ w, host.fileAt [] w = none) {w w' : W}
    (hsame : host.fileAt (argText args (bytes "path")) w' =
      host.fileAt (argText args (bytes "path")) w) :
    let path := argText args (bytes "path")
    let header := bytes "path: " ++ path
    ∃ details w₁ r w₂, (strReplaceTool host).confirmDetails args w = .ok details w₁ ∧
      (strReplaceTool host).execute args w' = .ok r w₂ ∧
      (WillFail header details ↔ r.ok = false) ∧
      (r.ok = true → ∃ before after, host.fileAt path w' = some before ∧
        host.fileAt path w₂ = some after ∧
        details = header ++ bytes "\n" ++
          (if unifiedDiff before after 3 4000 = [] then bytes "(no changes)"
            else unifiedDiff before after 3 4000)) := by
  intro path header
  have hdetails := strReplace_details_run host hargs w
  obtain ⟨r, w₂, hrun, hedit⟩ := strReplace_execute_run hargs hkeeps hwritable (w := w')
    fun _ => hempty w'
  have hshown := strReplace_shown args (host.fileAt path w')
  unfold MakesEdit at hedit
  dsimp only at hedit hshown
  refine ⟨_, _, r, w₂, hdetails, hrun, ?_⟩
  rw [show (host.readFile (argText args (bytes "path")) w).1 = host.fileAt path w' from hsame.symm]
  cases hplan : plannedEdit (host.fileAt path w') (argText args (bytes "old_str"))
      (argText args (bytes "new_str")) with
  | none =>
    rw [hplan] at hshown hedit
    -- no edit is planned: it is refused, and the preview says so
    exact ⟨iff_of_true hshown hedit.1, fun hok => absurd hok (by simp [hedit.1])⟩
  | some updated =>
    rw [hplan] at hshown hedit
    -- the same edit is shown and made, since the file has not changed in between
    obtain ⟨current, hcurrent, htext⟩ := hshown
    obtain ⟨hok, hafter⟩ := hedit
    rw [htext]
    refine ⟨iff_of_false (not_willFail_previewText _ _ _) (by simp [hok]), fun _ => ?_⟩
    refine ⟨current, updated, hcurrent, hafter, ?_⟩
    exact previewText_eq header current updated

theorem strReplace_previewed_once :
    let path := bytes "f"
    let header := bytes "path: " ++ path
    ∃ details w₁ r w₂,
      (strReplaceTool Host.ofContent).confirmDetails
        (editArgs path (bytes "b") (bytes "B")) (bytes "a\nb\n") = .ok details w₁ ∧
      (strReplaceTool Host.ofContent).execute
        (editArgs path (bytes "b") (bytes "B")) (bytes "a\nb\n") = .ok r w₂ ∧
      (WillFail header details ↔ r.ok = false) ∧
      (r.ok = true → ∃ before after, Host.ofContent.fileAt path (bytes "a\nb\n") = some before ∧
        Host.ofContent.fileAt path w₂ = some after ∧
        details = header ++ bytes "\n" ++
          (if unifiedDiff before after 3 4000 = [] then bytes "(no changes)"
            else unifiedDiff before after 3 4000)) :=
  strReplace_previewed (editArgs_ok _ _ _) (Host.ofContent_keepsFile (by decide))
    (Host.ofContent_writable _) (fun _ => rfl) rfl

/-! ## 4. Previews without changes -/

/-- The details end by saying that nothing changes. -/
def ShowsNoChanges (details : Bytes) : Prop := bytes "\n(no changes)" <:+ details

theorem showsNoChanges_previewText_iff (header current updated : Bytes) :
    ShowsNoChanges (previewText header current updated) ↔ editPreview current updated = [] := by
  unfold ShowsNoChanges
  rcases previewText_end header current updated with ⟨hnil, hend⟩ | ⟨hne, front, hend | hend⟩
  · rw [hend]
    exact iff_of_true (List.suffix_append _ _) hnil
  · refine iff_of_false ?_ hne
    rintro ⟨before, h⟩
    rw [hend] at h
    exact append_ne_of_ends 1 (by decide) (by decide) (by decide) _ _ h
  · refine iff_of_false ?_ hne
    rintro ⟨before, h⟩
    rw [hend] at h
    exact append_ne_of_ends 4 (by decide) (by decide) (by decide) _ _ h

/-- The texts differ, but the preview does not show it: only a newline at the end is new or gone. -/
def HiddenChange (oldText newText : Bytes) (maxLines : Int) : Prop :=
  OnlyFinalNewline oldText newText ∧ ((splitLines oldText).length : Int) ≤ maxLines

theorem OnlyFinalNewline.ne {s t : Bytes} (h : OnlyFinalNewline s t) : s ≠ t := by
  rintro rfl
  rcases h with ⟨-, h⟩ | ⟨-, h⟩ <;> simp at h

/-- **When an empty diff means that nothing changes.** -/
theorem unifiedDiff_honest_iff (oldText newText : Bytes) (context maxLines : Int) :
    (unifiedDiff oldText newText context maxLines = [] ↔ oldText = newText) ↔
      ¬ HiddenChange oldText newText maxLines := by
  rw [unifiedDiff_eq_nil_iff]
  change (oldText = newText ∨ HiddenChange oldText newText maxLines ↔ oldText = newText) ↔ _
  constructor
  · intro h hhidden
    exact hhidden.1.ne (h.mp (Or.inr hhidden))
  · intro h
    exact or_iff_left h

/-- What a preview without changes hides of writing a text to the file: that it is new, or a
newline at its end. -/
def HiddenWrite (file : Option Bytes) (written : Bytes) : Prop :=
  match file with
  | none => written = []
  | some current => HiddenChange current written 4000

/-- **When a preview without changes means that nothing changes.** -/
theorem previewText_honest_iff (header : Bytes) (file : Option Bytes) (written : Bytes) :
    (ShowsNoChanges (previewText header (file.getD []) written) → file = some written) ↔
      ¬ HiddenWrite file written := by
  rw [showsNoChanges_previewText_iff]
  unfold editPreview
  cases file with
  | none =>
    have hnew : unifiedDiff [] written 3 4000 = [] ↔ written = [] := by
      rw [unifiedDiff_eq_nil_iff]
      constructor
      · rintro (h | ⟨⟨h, -⟩ | ⟨-, h⟩, -⟩)
        · exact h.symm
        · exact absurd rfl h.1
        · simp at h
      · exact fun h => Or.inl h.symm
    simp [HiddenWrite, hnew]
  | some current =>
    rw [Option.getD_some, Option.some.injEq]
    refine Iff.trans ?_ (unifiedDiff_honest_iff current written 3 4000)
    constructor
    · intro h
      exact ⟨h, fun heq => (unifiedDiff_eq_nil_iff _ _ _ _).mpr (Or.inl heq)⟩
    · exact fun h => h.mp

/-- **When a preview says that nothing changes.**  A diff is empty only for the same text, unless
there is a newline more or less at the end; and so `write_file` and `str_replace` show no changes
only if the file already has the bytes to be written, unless it differs in that newline, or is new
and empty. -/
theorem noChanges_iff (host : Host W) (w : W) :
    (∀ (oldText newText : Bytes) (context maxLines : Int),
      (unifiedDiff oldText newText context maxLines = [] ↔ oldText = newText) ↔
        ¬ HiddenChange oldText newText maxLines) ∧
    (∀ args : Json, Builtin.writeFile.DetailsOk args →
      ∃ details w', (writeFileTool host).confirmDetails args w = .ok details w' ∧
        let file := host.fileAt (argText args (bytes "path")) w
        let content := argText args (bytes "content")
        ((ShowsNoChanges details → file = some content) ↔ ¬ HiddenWrite file content)) ∧
    ∀ (args : Json) (updated : Bytes), Builtin.strReplace.DetailsOk args →
      plannedEdit (host.fileAt (argText args (bytes "path")) w) (argText args (bytes "old_str"))
        (argText args (bytes "new_str")) = some updated →
      ∃ details w', (strReplaceTool host).confirmDetails args w = .ok details w' ∧
        let file := host.fileAt (argText args (bytes "path")) w
        ((ShowsNoChanges details → file = some updated) ↔ ¬ HiddenWrite file updated) := by
  refine ⟨unifiedDiff_honest_iff, fun args hargs => ?_, fun args updated hargs hplan => ?_⟩
  · exact ⟨_, _, writeFile_details_run host hargs w, previewText_honest_iff _ _ _⟩
  · refine ⟨_, _, strReplace_details_run host hargs w, ?_⟩
    have hshown := strReplace_shown args (host.fileAt (argText args (bytes "path")) w)
    dsimp only at hshown
    rw [hplan] at hshown
    obtain ⟨current, hcurrent, htext⟩ := hshown
    have hhonest := previewText_honest_iff (bytes "path: " ++ argText args (bytes "path"))
      (some current) updated
    rw [Option.getD_some, ← htext, ← hcurrent] at hhonest
    exact hhonest

theorem noChanges_iff_same :
    let args := editArgs (bytes "f") (bytes "b") (bytes "b")
    ∃ details w', (strReplaceTool Host.ofContent).confirmDetails args (bytes "abc") =
        .ok details w' ∧
      ((ShowsNoChanges details → Host.ofContent.fileAt (bytes "f") (bytes "abc") =
        some (bytes "abc")) ↔ ¬ HiddenWrite (some (bytes "abc")) (bytes "abc")) :=
  (noChanges_iff Host.ofContent (bytes "abc")).2.2 (editArgs (bytes "f") (bytes "b") (bytes "b"))
    (bytes "abc") (editArgs_ok _ _ _) rfl

/-- **A newline at the end is not shown.** -/
theorem not_unifiedDiff_honest :
    ¬ (unifiedDiff (bytes "a") (bytes "a\n") 3 4000 = [] ↔ bytes "a" = bytes "a\n") := by
  intro h
  exact absurd (h.mp (by decide)) (by decide)

end SimpleCoder

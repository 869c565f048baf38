/-
# What a turn leaves on the screen

The worker pushes pieces of text; the UI thread takes them from the queue and adds them to entries
of the chat, which it finds by the indices it has noted, `thinking_idx_` and `content_idx_`.  When
the last event of the turn is handled, the entries say what was pushed: the answer in as many
entries as there are runs of deltas between tool events, the reasoning in one, and the output of
every tool.

* §1 is what the entries have to say, in terms of the events.
* §2 is the invariant, for the answer and for the reasoning: what the entries say, and where the
  entry is that the next piece is added to.  There is a lemma for each way in which they change.
* §3 carries it over to the events of a turn, §4 to the last one, and §5 to all runs: `turn_shown`.
-/
import SimpleCoder.App.TurnMachine

namespace SimpleCoder

open Growing
open ChatView (Said Part)

variable {W : Type}

/-! ## 1. What the worker has to say -/

namespace UiEvent

/-- The events of a tool call. -/
def isTool : UiEvent → Bool
  | .toolInfo _ | .toolResult _ _ => true
  | _ => false

/-- A piece of the answer. -/
def answer : UiEvent → Option Bytes
  | .delta text => some text
  | _ => none

/-- A piece of the reasoning. -/
def thought : UiEvent → Option Bytes
  | .reasoning text => some text
  | _ => none

/-- The output of a tool, with the line above it. -/
def output : UiEvent → Option (Bytes × Bytes)
  | .toolResult header text => some (header, text)
  | _ => none

end UiEvent

/-- The answer: a text for each run of deltas that no tool event interrupts. -/
def answers (events : List UiEvent) : List Bytes :=
  (runs UiEvent.isTool UiEvent.answer events).map List.flatten

/-- The reasoning: one text, if there is any. -/
def thoughts (events : List UiEvent) : List Bytes :=
  if events.filterMap UiEvent.thought = [] then [] else [(events.filterMap UiEvent.thought).flatten]

/-- **No piece of the answer is lost or moved** when it is cut into texts. -/
theorem flatten_answers (events : List UiEvent) :
    (answers events).flatten = (events.filterMap UiEvent.answer).flatten := by
  have hpick : ∀ e, UiEvent.isTool e = true → UiEvent.answer e = none := by
    intro e he
    cases e with
    | toolInfo | toolResult => rfl
    | delta | reasoning | confirmRequest | done | canceled | error => cases he
  unfold answers
  rw [← flatten_runs hpick events, List.flatten_flatten]

example : answers [.delta (bytes "Let me "), .delta (bytes "look."), .toolInfo (bytes "↳ glob"),
    .toolResult (bytes "glob ✓") [], .reasoning (bytes "Hm."), .delta (bytes "Done."), .done] =
    [bytes "Let me look.", bytes "Done."] := by decide

/-- The texts of the entries of a part. -/
def textsOf (part : Part) (l : List Said) : List Bytes := (ofClass Said.part part l).map Said.text

/-- The outputs of tools that are shown. -/
def outputsOf (l : List Said) : List (Bytes × Bytes) :=
  (ofClass Said.part .output l).map fun s => (s.speaker, s.text)

/-- The entries say what the events have to say. -/
structure Streamed (events : List UiEvent) (l : List Said) : Prop where
  answers : textsOf .answer l = answers events
  thoughts : textsOf .thought l = thoughts events
  outputs : outputsOf l = events.filterMap UiEvent.output

/-! ## 2. The entries of a turn -/

section Parts

variable {events : List UiEvent} {e : UiEvent} {offset : Nat} {l l' : List Said} {idx : Option Nat}
  {text : Bytes} {s : Said}

/-- The entries of the answer, the first entry of the turn having the index `offset`; the index
that is noted is that of the last one while it is being written. -/
structure Answering (events : List UiEvent) (offset : Nat) (l : List Said) (idx : Option Nat) :
    Prop where
  texts : textsOf .answer l = answers events
  last : ∀ i, idx = some i → ∃ j, i = offset + j ∧ LastAt Said.part .answer l j
  closed : idx = none ↔ openRun UiEvent.isTool UiEvent.answer events = []

namespace Answering

theorem same (h : Answering events offset l idx) (hl : SameClass Said.part .answer l l') :
    Answering events offset l' idx := by
  refine ⟨?_, fun i hi => ?_, h.closed⟩
  · rw [← h.texts]
    exact congrArg (List.map Said.text) hl.members
  · obtain ⟨j, hj, hlast⟩ := h.last i hi
    exact ⟨j, hj, hl.last j hlast⟩

theorem skip (h : Answering events offset l idx) (htool : e.isTool = false)
    (hanswer : e.answer = none) : Answering (events ++ [e]) offset l idx := by
  refine ⟨?_, h.last, ?_⟩
  · unfold answers
    rw [runs_skip htool hanswer]
    exact h.texts
  · rw [openRun_snoc htool, hanswer, Option.toList_none, List.append_nil]
    exact h.closed

/-- A tool event closes the entry. -/
theorem tool (h : Answering events offset l idx) (htool : e.isTool = true) :
    Answering (events ++ [e]) offset l none := by
  refine ⟨?_, by rintro i ⟨⟩, ?_⟩
  · unfold answers
    rw [runs_sep htool]
    exact h.texts
  · rw [openRun_sep htool]
    exact ⟨fun _ => rfl, fun _ => rfl⟩

/-- The first delta of a run begins an entry. -/
theorem first (h : Answering events offset l none) (hs : s.part = .answer) (htext : s.text = text) :
    Answering (events ++ [.delta text]) offset (l ++ [s]) (some (offset + l.length)) := by
  have hruns : runs UiEvent.isTool UiEvent.answer (events ++ [.delta text]) =
      runs UiEvent.isTool UiEvent.answer events ++ [[text]] :=
    runs_begin rfl rfl (h.closed.mp rfl)
  refine ⟨?_, ?_, ?_⟩
  · have htexts := h.texts
    unfold answers textsOf at htexts ⊢
    rw [hruns, List.map_append, ofClass_append, ofClass_self hs, List.map_append, htexts, ← htext]
    simp
  · rintro i ⟨⟩
    exact ⟨l.length, rfl, lastAt_snoc hs⟩
  · rw [openRun_snoc rfl]
    simp [UiEvent.answer]

/-- The next one is added to it. -/
theorem next {j : Nat} (h : Answering events offset l (some (offset + j)))
    (hj : LastAt Said.part .answer l j) :
    Answering (events ++ [.delta text]) offset (l.modify j (Said.more text))
      (some (offset + j)) := by
  have hpart := ChatView.part_more text
  have hrun : openRun UiEvent.isTool UiEvent.answer events ≠ [] := fun hnil => by
    cases h.closed.mpr hnil
  refine ⟨?_, ?_, ?_⟩
  · obtain ⟨before, s, hl, hmod⟩ := hj.ofClass_modify hpart
    obtain ⟨closed, hruns, hruns'⟩ := runs_extend (a := .delta text) (b := text) rfl rfl hrun
    have htexts := h.texts
    unfold answers textsOf at htexts
    rw [hl, hruns, List.map_append, List.map_append] at htexts
    obtain ⟨hbefore, hlast⟩ := List.append_inj' htexts rfl
    have hs : s.text = (openRun UiEvent.isTool UiEvent.answer events).flatten :=
      List.singleton_inj.mp hlast
    unfold answers textsOf
    rw [hmod, hruns', List.map_append, List.map_append, hbefore, List.map_singleton,
      List.map_singleton, List.flatten_append, List.flatten_singleton, ← hs]
    rfl
  · rintro i ⟨⟩
    exact ⟨j, rfl, hj.modify hpart j⟩
  · rw [openRun_snoc rfl]
    simp [UiEvent.answer]

end Answering

/-- The entry of the reasoning, with the index that is noted for it. -/
structure Thinking (events : List UiEvent) (offset : Nat) (l : List Said) (idx : Option Nat) :
    Prop where
  texts : textsOf .thought l = thoughts events
  last : ∀ i, idx = some i → ∃ j, i = offset + j ∧ LastAt Said.part .thought l j
  closed : idx = none ↔ events.filterMap UiEvent.thought = []

namespace Thinking

theorem same (h : Thinking events offset l idx) (hl : SameClass Said.part .thought l l') :
    Thinking events offset l' idx := by
  refine ⟨?_, fun i hi => ?_, h.closed⟩
  · rw [← h.texts]
    exact congrArg (List.map Said.text) hl.members
  · obtain ⟨j, hj, hlast⟩ := h.last i hi
    exact ⟨j, hj, hl.last j hlast⟩

theorem skip (h : Thinking events offset l idx) (hthought : e.thought = none) :
    Thinking (events ++ [e]) offset l idx := by
  have hsame : (events ++ [e]).filterMap UiEvent.thought = events.filterMap UiEvent.thought := by
    rw [List.filterMap_append, List.filterMap_cons_none hthought]
    exact List.append_nil _
  refine ⟨?_, h.last, ?_⟩
  · unfold thoughts
    rw [hsame]
    exact h.texts
  · rw [hsame]
    exact h.closed

/-- What the reasoning is with one piece more. -/
theorem thoughts_snoc (events : List UiEvent) (text : Bytes) :
    thoughts (events ++ [.reasoning text]) =
      [(events.filterMap UiEvent.thought).flatten ++ text] := by
  unfold thoughts
  simp [UiEvent.thought]

/-- The first piece begins the entry. -/
theorem first (h : Thinking events offset l none) (hs : s.part = .thought) (htext : s.text = text) :
    Thinking (events ++ [.reasoning text]) offset (l ++ [s]) (some (offset + l.length)) := by
  have hnone := h.closed.mp rfl
  refine ⟨?_, ?_, ?_⟩
  · have htexts := h.texts
    unfold thoughts at htexts
    rw [if_pos hnone] at htexts
    unfold textsOf at htexts ⊢
    rw [thoughts_snoc, hnone, ofClass_append, ofClass_self hs, List.map_append, htexts, ← htext]
    rfl
  · rintro i ⟨⟩
    exact ⟨l.length, rfl, lastAt_snoc hs⟩
  · simp [UiEvent.thought]

/-- The next one is added to it. -/
theorem next {j : Nat} (h : Thinking events offset l (some (offset + j)))
    (hj : LastAt Said.part .thought l j) :
    Thinking (events ++ [.reasoning text]) offset (l.modify j (Said.more text))
      (some (offset + j)) := by
  have hpart := ChatView.part_more text
  have hsome : events.filterMap UiEvent.thought ≠ [] := fun hnil => by
    cases h.closed.mpr hnil
  refine ⟨?_, ?_, ?_⟩
  · obtain ⟨before, s, hl, hmod⟩ := hj.ofClass_modify hpart
    have htexts := h.texts
    unfold thoughts textsOf at htexts
    rw [if_neg hsome, hl, List.map_append] at htexts
    obtain ⟨hbefore, hlast⟩ := List.append_eq_singleton_iff.mp htexts |>.resolve_right
      fun h => by cases h.2
    have hs : s.text = (events.filterMap UiEvent.thought).flatten := List.singleton_inj.mp hlast
    unfold textsOf
    rw [thoughts_snoc, hmod, List.map_append, hbefore, ← hs]
    rfl
  · rintro i ⟨⟩
    exact ⟨j, rfl, hj.modify hpart j⟩
  · simp [UiEvent.thought]

end Thinking

/-- Entries that are no part of a turn do not matter. -/
theorem sameClass_other (h : ∀ s ∈ l', s.part = .other) {part : Part} (hpart : part ≠ .other) :
    SameClass Said.part part l (l ++ l') :=
  .append fun s hs heq => hpart (heq.symm.trans (h s hs))

theorem Streamed.append (h : Streamed events l) (hl' : ∀ s ∈ l', s.part = .other) :
    Streamed events (l ++ l') := by
  have hsame : ∀ part, part ≠ .other →
      ofClass Said.part part (l ++ l') = ofClass Said.part part l :=
    fun part hpart => (sameClass_other hl' hpart).members
  exact ⟨(congrArg (List.map Said.text) (hsame .answer (by decide))).trans h.answers,
    (congrArg (List.map Said.text) (hsame .thought (by decide))).trans h.thoughts,
    (congrArg (List.map _) (hsame .output (by decide))).trans h.outputs⟩

/-- The outputs that are shown, when nothing is put out. -/
theorem outputsOf_same (h : outputsOf l = events.filterMap UiEvent.output)
    (hl : SameClass Said.part .output l l') (he : e.output = none) :
    outputsOf l' = (events ++ [e]).filterMap UiEvent.output := by
  rw [List.filterMap_append, List.filterMap_cons_none he]
  refine (congrArg (List.map fun s : Said => (s.speaker, s.text)) hl.members).trans ?_
  exact h.trans (List.append_nil _).symm

theorem outputsOf_snoc {header : Bytes} :
    outputsOf (l ++ [⟨.tool, header, text⟩]) = outputsOf l ++ [(header, text)] := by
  have hself : ofClass Said.part .output [⟨.tool, header, text⟩] = [⟨.tool, header, text⟩] :=
    ofClass_self rfl
  unfold outputsOf
  rw [ofClass_append, hself, List.map_append]
  rfl

end Parts

/-! ## 3. The events of a turn -/

/-- The entries of a turn in flight say what has been handled of it. -/
structure Writing (events : List UiEvent) (offset : Nat) (l : List Said)
    (thinkingIdx contentIdx : Option Nat) : Prop where
  answering : Answering events offset l contentIdx
  thinking : Thinking events offset l thinkingIdx
  outputs : outputsOf l = events.filterMap UiEvent.output

theorem Writing.streamed {events : List UiEvent} {offset : Nat} {l : List Said}
    {thinkingIdx contentIdx : Option Nat} (h : Writing events offset l thinkingIdx contentIdx) :
    Streamed events l :=
  ⟨h.answering.texts, h.thinking.texts, h.outputs⟩

/-- A turn begins with entries that are no part of it. -/
theorem Writing.begin (offset : Nat) {l : List Said} (h : ∀ s ∈ l, s.part = .other) :
    Writing [] offset l none none := by
  have hnone : ∀ part, part ≠ .other → ofClass Said.part part l = [] := by
    intro part hpart
    refine ofClass_eq_nil fun s hs heq => hpart ?_
    rw [← heq, h s hs]
  refine ⟨⟨?_, by rintro i ⟨⟩, fun _ => rfl, fun _ => rfl⟩,
    ⟨?_, by rintro i ⟨⟩, fun _ => rfl, fun _ => rfl⟩, ?_⟩
  · unfold textsOf
    rw [hnone _ (by decide)]
    rfl
  · unfold textsOf
    rw [hnone _ (by decide)]
    rfl
  · unfold outputsOf
    rw [hnone _ (by decide)]
    rfl

/-- The next event, if it has nothing to say. -/
theorem Writing.skip {events : List UiEvent} {e : UiEvent} {offset : Nat} {l : List Said}
    {thinkingIdx contentIdx : Option Nat} (h : Writing events offset l thinkingIdx contentIdx)
    (htool : e.isTool = false) (hanswer : e.answer = none) (hthought : e.thought = none)
    (houtput : e.output = none) :
    Writing (events ++ [e]) offset l thinkingIdx contentIdx := by
  refine ⟨h.answering.skip htool hanswer, h.thinking.skip hthought, ?_⟩
  rw [List.filterMap_append, List.filterMap_cons_none houtput]
  exact h.outputs.trans (List.append_nil _).symm

namespace LiveApp

/-- The chat says what it said before the turn, and then what has been handled of the turn. -/
def Showing (events : List UiEvent) (before : List Said) (r : LiveApp W) : Prop :=
  ∃ l, r.view.said = before ++ l ∧
    Writing events before.length l r.thinkingIdx r.contentIdx

section Events

variable {events : List UiEvent} {before : List Said} {r r' : LiveApp W}

theorem Showing.grow (h : r.Showing events before) (hview : r.view.Grows r'.view)
    (hthinking : r'.thinkingIdx = r.thinkingIdx) (hcontent : r'.contentIdx = r.contentIdx) :
    r'.Showing events before := by
  obtain ⟨l, hl, hw⟩ := h
  obtain ⟨l', hl', hother⟩ := hview
  refine ⟨l ++ l', by rw [hl', hl, List.append_assoc], ?_⟩
  rw [hthinking, hcontent]
  refine ⟨hw.answering.same (sameClass_other hother (by decide)),
    hw.thinking.same (sameClass_other hother (by decide)), ?_⟩
  exact (congrArg _ (sameClass_other hother (by decide)).members).trans hw.outputs

theorem showing_reasoning (h : r.Showing events before) (text : Bytes) :
    (r.showReasoning text).Showing (events ++ [.reasoning text]) before := by
  obtain ⟨l, hl, hw⟩ := h
  have hpart := ChatView.part_more text
  have hnext : r.view.next = before.length + l.length := by
    rw [← ChatView.length_said, hl, List.length_append]
  have hw' := hw.thinking
  unfold showReasoning
  split
  · rename_i i hi
    rw [hi] at hw'
    obtain ⟨j, rfl, hj⟩ := hw'.last i rfl
    refine ⟨l.modify j (Said.more text), r.view.said_appendTo_add hl hj.lt text, ?_, ?_, ?_⟩
    · exact (hw.answering.skip rfl rfl).same (hj.sameClass hpart (by decide))
    · rw [hi]
      exact hw'.next hj
    · exact outputsOf_same hw.outputs (hj.sameClass hpart (by decide)) rfl
  · rename_i hnone
    rw [hnone] at hw'
    let s : Said := ⟨.thinking, bytes "thinking", text⟩
    have hother : ∀ part, part ≠ .thought → SameClass Said.part part l (l ++ [s]) :=
      fun part hne => .snoc hne.symm
    refine ⟨l ++ [s], ?_, ?_, ?_, ?_⟩
    · refine (r.view.said_push_appendTo _ text).trans ?_
      rw [hl, List.append_assoc]
      rfl
    · exact (hw.answering.skip rfl rfl).same (hother _ (by decide))
    · dsimp only
      rw [hnext]
      exact hw'.first rfl rfl
    · exact outputsOf_same hw.outputs (hother _ (by decide)) rfl

theorem foldThinking_said (r : LiveApp W) : r.foldThinking.view.said = r.view.said := by
  unfold foldThinking
  split
  · rfl
  · exact r.view.said_setCollapsed _ _

theorem foldThinking_idx (r : LiveApp W) : r.foldThinking.thinkingIdx = r.thinkingIdx := by
  unfold foldThinking
  split <;> rfl

theorem showing_delta (h : r.Showing events before) (text : Bytes) :
    (r.showDelta text).Showing (events ++ [.delta text]) before := by
  obtain ⟨l, hl, hw⟩ := h
  have hpart := ChatView.part_more text
  have hw' := hw.answering
  unfold showDelta
  split
  · -- the text goes behind the answer that is being shown
    rename_i i hi
    rw [hi] at hw'
    obtain ⟨j, rfl, hj⟩ := hw'.last i rfl
    refine ⟨l.modify j (Said.more text), r.view.said_appendTo_add hl hj.lt text, ?_, ?_, ?_⟩
    · rw [hi]
      exact hw'.next hj
    · exact (hw.thinking.skip rfl).same (hj.sameClass hpart (by decide))
    · exact outputsOf_same hw.outputs (hj.sameClass hpart (by decide)) rfl
  · -- a new entry is opened for it
    rename_i hnone
    rw [hnone] at hw'
    let s : Said := ⟨.normal, bytes "* ", text⟩
    have hs : s.part = .answer := ChatView.part_answer text
    have hother : ∀ part, part ≠ .answer → SameClass Said.part part l (l ++ [s]) :=
      fun part hne => .snoc fun heq => hne (heq.symm.trans hs)
    have hnext : r.foldThinking.view.next = before.length + l.length := by
      rw [← ChatView.length_said, foldThinking_said, hl, List.length_append]
    refine ⟨l ++ [s], ?_, ?_, ?_, ?_⟩
    · refine (r.foldThinking.view.said_push_appendTo _ text).trans ?_
      rw [foldThinking_said, hl, List.append_assoc]
      rfl
    · dsimp only
      rw [hnext]
      exact hw'.first hs rfl
    · dsimp only
      rw [foldThinking_idx]
      exact (hw.thinking.skip rfl).same (hother _ (by decide))
    · exact outputsOf_same hw.outputs (hother _ (by decide)) rfl

/-- **An event in the course of a turn.** -/
theorem showing_event (env : Surroundings W) (h : r.Showing events before) {e : UiEvent}
    (he : e.ends = false) : (r.handleEvent env e).Showing (events ++ [e]) before := by
  cases e with
  | reasoning text => exact showing_reasoning h text
  | delta text => exact showing_delta h text
  | toolInfo text =>
    obtain ⟨l, hl, hw⟩ := h
    let s : Said := ⟨.normal, [], text⟩
    have hs : ∀ s' ∈ [s], s'.part = .other := by
      intro s' hs'
      rw [List.mem_singleton.mp hs']
      exact ChatView.part_other (by decide) text
    refine ⟨l ++ [s], ?_, ?_, ?_, ?_⟩
    · rw [← List.append_assoc, ← hl]
      exact r.view.said_add _ _ _
    · exact (hw.answering.tool rfl).same (sameClass_other hs (by decide))
    · exact (hw.thinking.skip rfl).same (sameClass_other hs (by decide))
    · exact outputsOf_same hw.outputs (sameClass_other hs (by decide)) rfl
  | toolResult header text =>
    obtain ⟨l, hl, hw⟩ := h
    let s : Said := ⟨.tool, header, text⟩
    have hother : ∀ part, part ≠ .output → SameClass Said.part part l (l ++ [s]) :=
      fun part hne => .snoc hne.symm
    refine ⟨l ++ [s], ?_, ?_, ?_, ?_⟩
    · rw [← List.append_assoc, ← hl]
      exact r.view.said_addToolOutput _ _
    · exact (hw.answering.tool rfl).same (hother _ (by decide))
    · exact (hw.thinking.skip rfl).same (hother _ (by decide))
    · rw [outputsOf_snoc, hw.outputs]
      simp [UiEvent.output]
  | confirmRequest tool details =>
    obtain ⟨l, hl, hw⟩ := h
    exact ⟨l, hl, hw.skip rfl rfl rfl rfl⟩
  | done | canceled | error => cases he

end Events

/-! ## 4. The ends of a turn -/

section Ends

variable (env : Surroundings W) (r : LiveApp W)

theorem grows_note (text : Bytes) (style : ChatView.Style) :
    r.view.Grows (r.note text style).view := .add _ (by decide) _ _

theorem grows_notes (style : ChatView.Style) (texts : List Bytes) :
    r.view.Grows (r.notes style texts).view := by
  induction texts generalizing r with
  | nil => exact .refl _
  | cons text texts ih => exact (grows_note r text style).trans (ih _)

theorem grows_submit (kind : TurnKind) (display payload : Bytes) (images : List ImagePart) :
    r.view.Grows (r.submit kind display payload images).view := by
  have hshown : r.view.Grows (r.view.add (bytes "> ") display .normal) := .add _ (by decide) _ _
  have hnotes := grows_notes { r with view := r.view.add (bytes "> ") display .normal } .dim
    (images.map imageLine)
  unfold submit startWorker
  dsimp only
  split <;> exact hshown.trans hnotes

theorem grows_runCompact (automatic : Bool) : r.view.Grows (r.runCompact automatic).view := by
  unfold runCompact
  split
  · exact grows_note r _ _
  · exact (grows_note r _ _).trans (grows_submit _ _ _ _ _)

theorem grows_finishInit : r.view.Grows (r.finishInit env).view := by
  unfold finishInit
  dsimp only
  split
  · exact grows_note (r.call .finishInit) _ _
  · rcases env.project.openAgentsMd (r.call .finishInit).session.world with ⟨_ | _, w⟩
    · exact grows_note (r.call .finishInit) _ _
    · exact grows_note (r.call .finishInit) _ _

theorem grows_finishCompact : r.view.Grows r.finishCompact.view := by
  unfold finishCompact
  dsimp only
  split <;> exact grows_note (r.call .finishCompact) _ _

theorem grows_maybeAutoCompact : r.view.Grows r.maybeAutoCompact.view := by
  unfold maybeAutoCompact
  dsimp only
  split
  · exact (grows_note r _ _).trans (grows_runCompact _ _)
  · exact .refl _

theorem grows_finishNoted : r.view.Grows (r.finishNoted env).view := by
  have hinit : r.view.Grows
      (if r.initPending then { r.finishInit env with initPending := false } else r).view := by
    split
    · exact grows_finishInit env r
    · exact .refl _
  unfold finishNoted
  dsimp only
  refine hinit.trans ?_
  generalize (if r.initPending then { r.finishInit env with initPending := false } else r) = q
  split
  · exact grows_finishCompact q
  · exact .refl _

theorem grows_afterDone : r.view.Grows (r.afterDone env).view := by
  unfold afterDone
  dsimp only
  split
  · exact grows_finishNoted env r
  · exact (grows_finishNoted env r).trans (grows_maybeAutoCompact _)

theorem joinWorker_view (outcome : Outcome) : (r.joinWorker outcome).view = r.view := by
  unfold joinWorker
  split <;> rfl

/-- **The event that ends a turn** leaves what is shown of the turn as it is. -/
theorem grows_end {e : UiEvent} (he : e.ends = true) : r.view.Grows (r.handleEvent env e).view := by
  have hfold : r.view.Grows r.foldThinking.view := .of_said_eq r.foldThinking_said
  have hjoin : ∀ (q : LiveApp W) (outcome : Outcome), q.view.Grows (q.joinWorker outcome).view := by
    intro q outcome
    rw [joinWorker_view]
    exact .refl _
  cases e with
  | done =>
    have hafter := grows_afterDone env { r.foldThinking.joinWorker .done with busy := false }
    exact hfold.trans ((hjoin _ .done).trans hafter)
  | canceled =>
    have hnote := grows_note (r.foldThinking.abandon .canceled)
      (bytes "⏹ Generation cancelled.") .dim
    exact hfold.trans ((hjoin _ .canceled).trans hnote)
  | error text =>
    exact (hjoin r .failed).trans (.add (r.joinWorker .failed).view (by decide) text .error)
  | reasoning | delta | toolInfo | toolResult | confirmRequest => cases he

theorem notes_idx (style : ChatView.Style) (texts : List Bytes) :
    (r.notes style texts).thinkingIdx = r.thinkingIdx ∧
      (r.notes style texts).contentIdx = r.contentIdx := by
  induction texts generalizing r with
  | nil => exact ⟨rfl, rfl⟩
  | cons text texts ih => exact ih _

theorem submit_idx (kind : TurnKind) (display payload : Bytes) (images : List ImagePart) :
    (r.submit kind display payload images).thinkingIdx = none ∧
      (r.submit kind display payload images).contentIdx = none := by
  unfold submit startWorker
  dsimp only
  split <;> exact ⟨rfl, rfl⟩

variable {r}

/-- A turn that has just been submitted. -/
theorem Settles.showing (h : r.Settles) {w : Worker} (hw : r.worker = some w) :
    r.Showing w.handled w.before := by
  cases h with
  | idle h =>
    obtain ⟨p, -, hfree⟩ := h.free
    have hnone : r.worker = none := hfree.worker
    rw [hw] at hnone
    cases hnone
  | @submitted kind q hq display payload images texts h =>
    subst h
    obtain ⟨p, -, hfree⟩ := hq.free
    have hworker : (q.submit kind display payload images).worker =
        some (q.newWorker kind payload images) :=
      congrArg Control.worker (control_submit hfree.worker display payload images)
    obtain rfl : q.newWorker kind payload images = w := by
      rw [worker_notes] at hw
      exact Option.some.inj (hworker.symm.trans hw)
    have hgrows := (grows_submit q kind display payload images).trans (grows_notes _ .dim texts)
    obtain ⟨l, hl, hother⟩ := hgrows
    refine ⟨l, hl, ?_⟩
    rw [(notes_idx _ _ _).1, (notes_idx _ _ _).2, (submit_idx _ _ _ _ _).1,
      (submit_idx _ _ _ _ _).2]
    exact .begin _ hother

end Ends

/-! ## 5. All runs -/

section Runs

variable (env : Surroundings W) {r r' : LiveApp W}

/-- **The invariant.** -/
def Streaming (r : LiveApp W) : Prop :=
  ∀ w, r.worker = some w → r.Showing w.handled w.before

theorem Pressed.streaming (h : r.Pressed env r') (hturn : r.control.Turning) (hr : r.Streaming) :
    r'.Streaming := by
  intro w hw
  cases h with
  | looked hsame =>
    have hworker : r'.worker = r.worker := congrArg Control.worker hsame.control
    rw [hworker] at hw
    exact (hr w hw).grow hsame.view hsame.thinkingIdx hsame.contentIdx
  | entered hbusy line bar =>
    have hidle : r.control.Idle := hturn.idle hbusy
    exact (settles_runLine env (r := { r with input := bar }) hidle line).showing hw

/-- **One step keeps the invariant.** -/
theorem streaming_step (hturn : r.control.Turning) (hr : r.Streaming) (hstep : Step env r r') :
    r'.Streaming := by
  cases hstep with
  | key k hrun hdrain => exact (pressed_handleKey env r k).streaming env hturn hr
  | @event e es hdrain hev =>
    obtain ⟨w, hact⟩ := hturn.active_of_event hev
    intro w' hw'
    cases he : e.ends with
    | true => exact (settles_end env hact hev he).showing hw'
    | false =>
      have hworker : r.worker = some w := hact.worker
      have hkeep : ((r.pop e es).handleEvent env e).worker = (r.pop e es).worker :=
        congrArg Control.worker (control_handleEvent env he)
      rw [hkeep, worker_pop hworker] at hw'
      cases hw'
      have hshow : (r.pop e es).Showing w.handled w.before := hr w hworker
      exact showing_event env hshow he
  | drained hdrain hev => exact hr
  | @callback w c hw hrun =>
    rintro w' ⟨⟩
    exact hr w hw
  | @finish w round cb cancel res s hw hrun hsend =>
    rintro w' ⟨⟩
    exact hr w hw

/-- **The invariant holds in every state that comes up.** -/
theorem Reachable.streaming (h : Reachable env r) : r.Streaming := by
  induction h with
  | start session skills banner =>
    rintro w ⟨⟩
  | step hr hstep ih => exact streaming_step env (hr.turning env) ih hstep

/-- **What a turn leaves on the screen.**  When its last event is handled, the chat says what it
said before the turn, and then, entry by entry, what the worker has pushed. -/
theorem turn_shown (h : Reachable env r) {w : Worker} (hw : r.worker = some w) {e : UiEvent}
    {es : List UiEvent} (hev : r.events = e :: es) (he : e.ends = true) :
    ∃ l, ((r.pop e es).handleEvent env e).view.said = w.before ++ l ∧ Streamed w.pushed l ∧
      (textsOf .answer l).flatten = (w.pushed.filterMap UiEvent.answer).flatten := by
  have hqueued := (flags_of_turning (h.turning env)).queued w hw
  rw [hev] at hqueued
  obtain rfl := hqueued.ends he
  have hsilent : e.isTool = false ∧ e.answer = none ∧ e.thought = none ∧ e.output = none := by
    cases e with
    | done | canceled | error => exact ⟨rfl, rfl, rfl, rfl⟩
    | reasoning | delta | toolInfo | toolResult | confirmRequest => cases he
  obtain ⟨htool, hanswer, hthought, houtput⟩ := hsilent
  obtain ⟨l, hl, hwriting⟩ := h.streaming env w hw
  obtain ⟨l', hl', hother⟩ := grows_end env (r.pop e []) he
  have hstreamed : Streamed w.pushed (l ++ l') := by
    have hsaid := (hwriting.skip htool hanswer hthought houtput).streamed
    rw [← hqueued.fifo] at hsaid
    exact hsaid.append hother
  refine ⟨l ++ l', ?_, hstreamed, ?_⟩
  · have hview : (r.pop e []).view.said = w.before ++ l := hl
    rw [hl', hview, List.append_assoc]
  · rw [hstreamed.answers, flatten_answers]

/-- A call of a tool, and what it puts out. -/
def globCall : ToolCall := { id := bytes "1", name := bytes "glob", arguments := bytes "{}" }

def globResult : ToolResult := { ok := true, output := bytes "a.txt" }

/-- The worker of a turn that says "h". -/
def globWorker (pushed handled : List UiEvent) : Worker :=
  { kind := .ordinary
    payload := bytes "h"
    images := []
    before := initStart.view.said
    pushed := pushed
    handled := handled }

/-- The model thinks, says something in two pieces, calls a tool and says more.  The first pieces
are taken from the queue while the others come, and Tab is hit before the call. -/
theorem glob_answered : ∃ (r : LiveApp Unit) (w : Worker), Reachable emptySurroundings r ∧
    r.worker = some w ∧ r.events = [.done] ∧
    w.pushed = [.reasoning (bytes "Hm."), .delta (bytes "Let me "), .delta (bytes "look."),
      .toolInfo (bytes "↳ glob {}"), .toolResult (bytes "glob ✓") (bytes "a.txt"),
      .delta (bytes "Done."), .done] := by
  let e₁ : UiEvent := .reasoning (bytes "Hm.")
  let e₂ : UiEvent := .delta (bytes "Let me ")
  let e₃ : UiEvent := .delta (bytes "look.")
  let e₄ := (Callback.toolCall globCall).event
  let e₅ := (Callback.toolResult globCall globResult).event
  let e₆ : UiEvent := .delta (bytes "Done.")
  have hr : Reachable emptySurroundings initStart := .start _ _ _
  replace hr := hr.step (.key (typed 0x68) rfl rfl)
  replace hr := hr.step (.key (typed 10) rfl rfl)
  replace hr := hr.step (@Step.callback _ _ _ (globWorker [] []) (.reasoning (bytes "Hm.")) rfl rfl)
  replace hr := hr.step (.key ⟨.none, .none, 0, none⟩ rfl rfl)
  replace hr := hr.step
    (@Step.callback _ _ _ (globWorker [e₁] []) (.content (bytes "Let me ")) rfl rfl)
  replace hr := hr.step (@Step.event _ _ _ e₁ [e₂] rfl rfl)
  replace hr := hr.step (@Step.event _ _ _ e₂ [] rfl rfl)
  replace hr := hr.step
    (@Step.callback _ _ _ (globWorker [e₁, e₂] [e₁, e₂]) (.content (bytes "look.")) rfl rfl)
  replace hr := hr.step (@Step.event _ _ _ e₃ [] rfl rfl)
  replace hr := hr.step (.drained rfl rfl)
  replace hr := hr.step (.key (typed 9) rfl rfl)
  -- from here on the pieces wait in the queue until the turn is over
  let handled := [e₁, e₂, e₃]
  replace hr := hr.step
    (@Step.callback _ _ _ (globWorker [e₁, e₂, e₃] handled) (.toolCall globCall) rfl rfl)
  replace hr := hr.step (@Step.callback _ _ _ (globWorker [e₁, e₂, e₃, e₄] handled)
    (.toolResult globCall globResult) rfl rfl)
  replace hr := hr.step (@Step.callback _ _ _ (globWorker [e₁, e₂, e₃, e₄, e₅] handled)
    (.content (bytes "Done.")) rfl rfl)
  replace hr := hr.step (@Step.finish _ _ _ (globWorker [e₁, e₂, e₃, e₄, e₅, e₆] handled)
    headingRound {} none _ _ rfl rfl rfl)
  replace hr := hr.step (.key ⟨.none, .none, 0, none⟩ rfl rfl)
  replace hr := hr.step (@Step.event _ _ _ e₄ [e₅, e₆, .done] rfl rfl)
  replace hr := hr.step (@Step.event _ _ _ e₅ [e₆, .done] rfl rfl)
  replace hr := hr.step (@Step.event _ _ _ e₆ [.done] rfl rfl)
  exact ⟨_, _, hr, rfl, rfl, rfl⟩

/-- Behind it, the answer is in two entries, one in front of the call and one behind it. -/
theorem turn_shown_glob : ∃ (r : LiveApp Unit) (before l : List Said),
    r.view.said = before ++ l ∧ textsOf .answer l = [bytes "Let me look.", bytes "Done."] ∧
      textsOf .thought l = [bytes "Hm."] ∧ outputsOf l = [(bytes "glob ✓", bytes "a.txt")] := by
  obtain ⟨r, w, hr, hw, hev, hpushed⟩ := glob_answered
  obtain ⟨l, hl, hstreamed, -⟩ := turn_shown emptySurroundings hr hw hev rfl
  refine ⟨_, w.before, l, hl, ?_, ?_, ?_⟩
  · rw [hstreamed.answers, hpushed]
    decide
  · rw [hstreamed.thoughts, hpushed]
    decide
  · rw [hstreamed.outputs, hpushed]
    decide

end Runs

end LiveApp

end SimpleCoder

/-
# What a server sends is valid text

The JSON parser checks the encoding of what it reads, so whatever bytes a server sends, the texts
that come out of `chat` are valid UTF-8: `StreamParser.Valid` is kept by every line (§1), and a
result is made of a parser (§2).  Only the text of an error may be anything.
-/
import SimpleCoder.Llm.ApiClient

namespace SimpleCoder

variable {W : Type}

/-! ## 1. The parser -/

/-- The text and the tool calls read so far are valid. -/
structure StreamParser.Valid (p : StreamParser) : Prop where
  content : Utf8 p.content
  calls : ∀ (i : Int) (tc : ToolCall), p.toolByIndex[i]? = some tc → tc.Valid

theorem toolCall_valid_empty : ({} : ToolCall).Valid := ⟨utf8_nil, utf8_nil, utf8_nil⟩

/-- A string found in a valid value. -/
theorem Json.ValidText.find_string {j : Json} (h : j.ValidText) {key s : Bytes}
    (hs : j.find key = some (.string s)) : Utf8 s := h.find hs

theorem useString_valid {j : Json} (hj : j.ValidText) (key : Bytes)
    {f : Bytes → ToolCall → ToolCall} {acc : ToolCall} (h : acc.Valid)
    (hf : ∀ s, Utf8 s → (f s acc).Valid) : (useString j key f acc).Valid := by
  unfold useString
  split
  · rename_i s hs
    exact hf s (hj.find_string hs)
  · exact h

theorem mergeFragment_valid {tc : Json} (htc : tc.ValidText) {acc : ToolCall} (h : acc.Valid) :
    (mergeFragment tc acc).Valid := by
  have hid := useString_valid htc (bytes "id") h
    (f := fun id acc => { acc with id := id }) fun s hs => ⟨hs, h.name, h.arguments⟩
  unfold mergeFragment
  dsimp only
  split
  · rename_i fn hfn
    split
    · have hname := useString_valid (htc.find hfn) (bytes "name") hid
        (f := fun name acc => { acc with name := name }) fun s hs => ⟨hid.id, hs, hid.arguments⟩
      exact useString_valid (htc.find hfn) (bytes "arguments") hname
        fun s hs => ⟨hname.id, hname.name, hname.arguments.append hs⟩
    · exact hid
  · exact hid

/-- What every step on a line keeps. -/
abbrev KeepsValid : Stream W → Stream W → Prop := Exec.Keeps (·.parser.Valid)

theorem SameTexts.keepsValid {s s' : Stream W} (h : SameTexts s s') : KeepsValid s s' := fun hs =>
  ⟨h.content ▸ hs.content, h.tools ▸ hs.calls⟩

theorem keepsValid_readContent (cb : StreamCallbacks W) {delta : Json} (h : delta.ValidText) :
    Exec.Within KeepsValid (readContent cb delta) := by
  unfold readContent
  split
  · rename_i piece hpiece
    refine Exec.Within.bind (fun s hs => ?_) fun _ => ?_
    · exact ⟨hs.content.append (h.find_string hpiece), hs.calls⟩
    · split
      · exact fun _ hs => ⟨hs.content, hs.calls⟩
      · exact Exec.Within.pure _
  · exact Exec.Within.pure _

theorem keepsValid_readReasoning (cb : StreamCallbacks W) (delta : Json) :
    Exec.Within KeepsValid (readReasoning cb delta) := by
  unfold readReasoning
  split
  · refine Exec.Within.bind (fun s hs => ⟨hs.content, hs.calls⟩) fun _ => ?_
    split
    · exact fun _ hs => ⟨hs.content, hs.calls⟩
    · exact Exec.Within.pure _
  · exact Exec.Within.pure _

theorem keepsValid_readToolCall {tc : Json} (h : tc.ValidText) :
    Exec.Within KeepsValid (readToolCall tc : Parse W PUnit) := by
  refine (Exec.Within.ofExcept _).bind fun index s hs => ⟨hs.content, fun i call hcall => ?_⟩
  have hold : ((s.parser.toolByIndex[index]?).getD {}).Valid := by
    cases hc : s.parser.toolByIndex[index]? with
    | none => exact toolCall_valid_empty
    | some old => exact hs.calls index old hc
  rw [Std.TreeMap.getElem?_alter] at hcall
  split at hcall
  · cases hcall
    exact mergeFragment_valid h hold
  · exact hs.calls i call hcall

theorem keepsValid_readChunk (cb : StreamCallbacks W) {chunk : Json} (h : chunk.ValidText) :
    Exec.Within KeepsValid (readChunk cb chunk) := by
  refine ((sameTexts_readUsage chunk).mono fun _ _ h => h.keepsValid).bind fun _ => ?_
  split
  · exact Exec.Within.pure _
  rename_i choice hchoice
  have hcv : choice.ValidText := by
    unfold firstChoice at hchoice
    split at hchoice
    · rename_i items hfind
      cases hchoice
      exact (Json.validItems_iff.mp (h.find hfind)) _ List.mem_cons_self
    · cases hchoice
  refine ((sameTexts_readFinishReason choice).mono fun _ _ h => h.keepsValid).bind fun _ => ?_
  split
  · exact Exec.Within.pure _
  rename_i delta hdelta
  have hdv : delta.ValidText := hcv.find (Option.filter_eq_some_iff.mp hdelta).1
  refine (keepsValid_readContent cb hdv).bind fun _ => ?_
  refine (keepsValid_readReasoning cb delta).bind fun _ => ?_
  refine Exec.Within.forM _ fun tc htc => keepsValid_readToolCall ?_
  unfold toolCallItems at htc
  split at htc
  · rename_i items hfind
    exact Json.validItems_iff.mp (hdv.find hfind) tc htc
  · simp at htc

theorem keepsValid_processLine (lib : JsonText) (cb : StreamCallbacks W) (line : Bytes) :
    Exec.Within KeepsValid (processLine lib cb line) := by
  unfold processLine
  split
  · exact Exec.Within.pure _
  · exact fun _ hs => ⟨hs.content, hs.calls⟩
  · split
    · exact Exec.Within.pure _
    · rename_i chunk hparse
      exact keepsValid_readChunk cb (lib.parse_validText hparse)

/-- **Whatever bytes are fed, the parser holds valid text.** -/
theorem keepsValid_feed (lib : JsonText) (cb : StreamCallbacks W) (piece : Bytes) :
    Exec.Within KeepsValid (feed lib cb piece) :=
  Lines.within_feed (keepsValid_processLine lib cb) (fun _ _ hs => ⟨hs.content, hs.calls⟩) _

/-! ## 2. The result -/

/-- The texts of a result that get into the history are valid. -/
structure ApiResult.Valid (res : ApiResult) : Prop where
  content : Utf8 res.content
  toolCalls : ∀ tc ∈ res.toolCalls, tc.Valid

theorem StreamParser.Valid.toolCalls {p : StreamParser} (h : p.Valid) :
    ∀ tc ∈ p.toolCalls, tc.Valid := by
  intro tc htc
  obtain ⟨⟨i, call⟩, hmem, rfl⟩ := List.mem_map.mp htc
  exact h.calls i call (Std.TreeMap.mem_toList_iff_getElem?_eq_some.mp hmem)

/-- A piece that arrives either goes to the parser or to the text of an error. -/
theorem keepsValid_writeCb (lib : JsonText) (cb : StreamCallbacks (Timed W)) (piece : Int × Bytes) :
    Exec.Within (Exec.Keeps (·.stream.parser.Valid)) (writeCb lib cb piece) := by
  refine Exec.Within.bind (fun ctx hs => ?_) fun _ => Exec.Within.get fun ctx => ?_
  · dsimp only
    split <;> exact hs
  · split
    · exact fun _ hs => hs
    · intro ctx
      rw [Exec.post_zoom]
      exact keepsValid_feed lib cb piece.2 ctx.stream

theorem chatResult_valid (net : Net W) (t : Transfer) {ctx : WriteCtx W}
    (h : ctx.stream.parser.Valid) (w : W) : (chatResult net t ctx w).1.Valid := by
  have hempty : ∀ res : ApiResult, res.content = [] → res.toolCalls = [] → res.Valid :=
    fun res hc ht => ⟨hc ▸ utf8_nil, by simp [ht]⟩
  unfold chatResult
  split
  · exact hempty _ rfl rfl
  · exact hempty _ rfl rfl
  · dsimp only
    split
    · exact ⟨h.content, h.toolCalls⟩
    · exact hempty _ rfl rfl

/-- **Whatever a server sends, what `chat` returns is valid text.** -/
theorem ApiClient.chat_valid (lib : JsonText) (net : Net W) (client : ApiClient)
    (messages : List Message) (tools : Json) (onContent onReasoning : Option (Bytes → W → W))
    (cancel : Option (CancelFlag W)) (w : W) :
    Exec.Post (client.chat lib net messages tools onContent onReasoning cancel) w
      (fun res _ => res.Valid) (fun _ _ => True) := by
  unfold ApiClient.chat
  rw [Exec.post_bind, Exec.post_modifyGet]
  split
  · exact ⟨utf8_nil, by simp⟩
  rw [Exec.post_bind, Exec.post_ofExcept]
  refine ⟨fun req _ => ?_, fun _ _ => trivial⟩
  rw [Exec.post_bind, Exec.post_modifyGet, Exec.post_bind, Exec.post_enclosed]
  have hrun := Exec.Within.forM (net.perform req cancel (net.init w).2).1.pieces fun piece _ =>
    keepsValid_writeCb lib ⟨some (timed net onContent), some (timed net onReasoning)⟩ piece
  refine (hrun _).mono (fun _ ctx h => ?_) (fun _ _ _ => trivial)
  rw [Exec.post_modifyGet]
  exact chatResult_valid net _ (h ⟨utf8_nil, by simp⟩) _

/-- **When a request can be made**: exactly when the model's name, every message and every schema
is valid text. -/
theorem ApiClient.request_ok_iff (lib : JsonText) (client : ApiClient) (messages : List Message)
    (tools : List Json) :
    (∃ req, client.request lib messages (.array tools) = .ok req) ↔
      Utf8 client.cfg.model ∧ (∀ msg ∈ messages, msg.Valid) ∧ ∀ t ∈ tools, t.ValidText := by
  unfold request requestBody
  rw [Json.except_bind_ok_iff, ← buildChatRequest_validText_iff client.cfg messages tools true,
    ← Json.dump_ok_iff lib]
  simp [pure, Except.pure]

end SimpleCoder

/-
# The stream parser

`StreamParser` reads a streamed response piece by piece: each complete line is an SSE field, and
each `data:` line a JSON chunk whose deltas it accumulates.

* §1 is the parser.  It runs over `Stream`: the parser's members, the world its callbacks act on,
  and a record of the strings it has passed to them, which nothing reads.
* §2: the actions on a line never touch the buffer, so the way a stream is cut does not matter
  (`feed_chunking`).
* §3: what the callbacks have been told is what the parser holds (`Stream.Told`), in every state it
  can reach.
* §4: which lines raise (`LineOk`), and that a stream is read to its end exactly when it has none
  of them (`feedAll_reads_iff`).
-/
import SimpleCoder.Lib.Keyed
import SimpleCoder.Lib.Lines
import SimpleCoder.Llm.Message

namespace SimpleCoder

/-! ## 1. The parser -/

/-- The members of `StreamParser`. -/
structure StreamParser where
  buffer : Bytes := []
  content : Bytes := []
  reasoning : Bytes := []
  finishReason : Bytes := []
  promptTokens : Int := 0
  completionTokens : Int := 0
  totalTokens : Int := 0
  done : Bool := false
  toolByIndex : Std.TreeMap Int ToolCall := ∅

/-- `StreamParser::tool_calls`: in ascending index order. -/
def StreamParser.toolCalls (p : StreamParser) : List ToolCall := p.toolByIndex.toList.map Prod.snd

/-- The two callbacks of a parser.  Each may be empty. -/
structure StreamCallbacks (W : Type) where
  onContent : Option (Bytes → W → W) := none
  onReasoning : Option (Bytes → W → W) := none

/-- What the parser runs over. -/
structure Stream (W : Type) where
  parser : StreamParser := {}
  world : W
  contentCalls : List Bytes := []
  reasoningCalls : List Bytes := []

variable {W : Type}

abbrev Parse (W α : Type) := EStateM Exn (Stream W) α

def update (f : StreamParser → StreamParser) : Parse W PUnit :=
  modify fun s => { s with parser := f s.parser }

def isSpace (b : UInt8) : Bool := b = 0x20 || b = 0x09 || b = 0x0D || b = 0x0A

/-- `trim`. -/
def trim (s : Bytes) : Bytes := ((s.dropWhile isSpace).reverse.dropWhile isSpace).reverse

/-- One token count: `count_ = u->value(key, count_)`. -/
def readCount (u : Json) (key : Bytes) (get : StreamParser → Int)
    (set : Int → StreamParser → StreamParser) : Parse W PUnit := do
  let n ← Exec.ofExcept (u.valueInt key (get (← MonadState.get).parser))
  update (set n)

def readUsage (chunk : Json) : Parse W PUnit :=
  match chunk.find (bytes "usage") with
  | none => pure ⟨⟩
  | some u =>
    if u.isObject then do
      readCount u (bytes "prompt_tokens") (·.promptTokens) fun n p => { p with promptTokens := n }
      readCount u (bytes "completion_tokens") (·.completionTokens)
        fun n p => { p with completionTokens := n }
      readCount u (bytes "total_tokens") (·.totalTokens) fun n p => { p with totalTokens := n }
    else pure ⟨⟩

/-- `chunk["choices"][0]`, if there is one. -/
def firstChoice (chunk : Json) : Option Json :=
  match chunk.find (bytes "choices") with
  | some (.array (choice :: _)) => some choice
  | _ => none

def readFinishReason (choice : Json) : Parse W PUnit :=
  match choice.find (bytes "finish_reason") with
  | some (.string reason) => update fun p => { p with finishReason := reason }
  | _ => pure ⟨⟩

def readContent (cb : StreamCallbacks W) (delta : Json) : Parse W PUnit :=
  match delta.find (bytes "content") with
  | some (.string piece) => do
    update fun p => { p with content := p.content ++ piece }
    match cb.onContent with
    | some f => modify fun s =>
      { s with world := f piece s.world, contentCalls := s.contentCalls ++ [piece] }
    | none => pure ⟨⟩
  | _ => pure ⟨⟩

def readReasoning (cb : StreamCallbacks W) (delta : Json) : Parse W PUnit :=
  match delta.find (bytes "reasoning_content") with
  | some (.string piece) => do
    update fun p => { p with reasoning := p.reasoning ++ piece }
    match cb.onReasoning with
    | some f => modify fun s =>
      { s with world := f piece s.world, reasoningCalls := s.reasoningCalls ++ [piece] }
    | none => pure ⟨⟩
  | _ => pure ⟨⟩

/-- Use the string at the key, if there is one, to change a call. -/
def useString (j : Json) (key : Bytes) (f : Bytes → ToolCall → ToolCall) (acc : ToolCall) :
    ToolCall :=
  match j.find key with
  | some (.string s) => f s acc
  | _ => acc

theorem useString_of_find {j : Json} {key s : Bytes} (h : j.find key = some (.string s))
    (f : Bytes → ToolCall → ToolCall) (acc : ToolCall) : useString j key f acc = f s acc := by
  simp [useString, h]

theorem useString_of_not {j : Json} {key : Bytes} (h : ∀ s, j.find key ≠ some (.string s))
    (f : Bytes → ToolCall → ToolCall) (acc : ToolCall) : useString j key f acc = acc := by
  unfold useString
  split
  · rename_i s hs
    exact absurd hs (h s)
  · rfl

/-- What the element `tc` of `tool_calls` does to the call of its index. -/
def mergeFragment (tc : Json) (acc : ToolCall) : ToolCall :=
  let acc := useString tc (bytes "id") (fun id acc => { acc with id := id }) acc
  match tc.find (bytes "function") with
  | some fn =>
    if fn.isObject then
      let acc := useString fn (bytes "name") (fun name acc => { acc with name := name }) acc
      useString fn (bytes "arguments")
        (fun arguments acc => { acc with arguments := acc.arguments ++ arguments }) acc
    else acc
  | none => acc

def readToolCall (tc : Json) : Parse W PUnit := do
  let index ← Exec.ofExcept (tc.valueInt (bytes "index") 0)
  update fun p => { p with
    toolByIndex := p.toolByIndex.alter index fun acc => some (mergeFragment tc (acc.getD {})) }

/-- The elements of the `tool_calls` array of a delta. -/
def toolCallItems (delta : Json) : List Json :=
  match delta.find (bytes "tool_calls") with
  | some (.array items) => items
  | _ => []

def readDelta (cb : StreamCallbacks W) (delta : Json) : Parse W PUnit := do
  readContent cb delta
  readReasoning cb delta
  forM (toolCallItems delta) readToolCall

/-- `choice.find("delta")`, if it is an object. -/
def objectDelta (choice : Json) : Option Json :=
  (choice.find (bytes "delta")).filter Json.isObject

/-- `process_chunk`, once the payload is parsed. -/
def readChunk (cb : StreamCallbacks W) (chunk : Json) : Parse W PUnit := do
  readUsage chunk
  match firstChoice chunk with
  | none => pure ⟨⟩
  | some choice =>
    readFinishReason choice
    match objectDelta choice with
    | none => pure ⟨⟩
    | some delta => readDelta cb delta

/-- What a line is. -/
inductive LineKind where
  | ignored
  | done
  | chunk (payload : Bytes)

/-- The case distinction of `process_line`. -/
def lineKind (raw : Bytes) : LineKind :=
  let line := trim raw
  if line = [] then .ignored
  else if line.head? = some 0x3A then .ignored
  else if line.take 5 ≠ bytes "data:" then .ignored
  else
    let payload := trim (line.drop 5)
    if payload = bytes "[DONE]" then .done else .chunk payload

/-- `process_line`. -/
def processLine (lib : JsonText) (cb : StreamCallbacks W) (raw : Bytes) : Parse W PUnit :=
  match lineKind raw with
  | .ignored => pure ⟨⟩
  | .done => update fun p => { p with done := true }
  | .chunk payload =>
    match lib.parse payload with
    | none => pure ⟨⟩  -- skip malformed chunks
    | some chunk => readChunk cb chunk

def parserBuffer (W : Type) : Lines.Buffer (Stream W) UInt8 where
  get s := s.parser.buffer
  set b s := { s with parser := { s.parser with buffer := b } }
  get_set _ _ := rfl
  set_set _ _ _ := rfl
  set_get _ := rfl

/-- `StreamParser::feed`. -/
def feed (lib : JsonText) (cb : StreamCallbacks W) (piece : Bytes) : Parse W PUnit :=
  Lines.feed (parserBuffer W) newline (processLine lib cb) piece

/-- Feed the pieces one after another. -/
def feedAll (lib : JsonText) (cb : StreamCallbacks W) (pieces : List Bytes) : Parse W PUnit :=
  forM pieces (feed lib cb)

/-! ## 2. The way a stream is cut -/

section LeavesBuffer

variable (b : Bytes)

theorem commutes_update {f : StreamParser → StreamParser}
    (hf : ∀ p : StreamParser, f { p with buffer := b } = { f p with buffer := b }) :
    Exec.Commutes ((parserBuffer W).set b) (update f) :=
  Exec.Commutes.modify fun s =>
    congrArg (fun p => ({ s with parser := p } : Stream W)) (hf s.parser)

theorem commutes_readCount (u : Json) (key : Bytes) {get : StreamParser → Int}
    {set : Int → StreamParser → StreamParser}
    (hget : ∀ p : StreamParser, get { p with buffer := b } = get p)
    (hset : ∀ (n : Int) (p : StreamParser),
      set n { p with buffer := b } = { set n p with buffer := b }) :
    Exec.Commutes ((parserBuffer W).set b) (readCount u key get set) := by
  refine Exec.Commutes.get (fun s => ?_) (fun s => ?_)
  · change (Exec.ofExcept (u.valueInt key (get { s.parser with buffer := b })) >>= _) = _
    rw [hget]
  · exact (Exec.Commutes.ofExcept _).bind fun n => commutes_update b (hset n)

theorem commutes_readUsage (chunk : Json) :
    Exec.Commutes ((parserBuffer W).set b) (readUsage chunk) := by
  unfold readUsage
  split
  · exact Exec.Commutes.pure _
  split
  · refine (commutes_readCount b _ _ (fun _ => rfl) (fun _ _ => rfl)).bind fun _ => ?_
    refine (commutes_readCount b _ _ (fun _ => rfl) (fun _ _ => rfl)).bind fun _ => ?_
    exact commutes_readCount b _ _ (fun _ => rfl) (fun _ _ => rfl)
  · exact Exec.Commutes.pure _

theorem commutes_readFinishReason (choice : Json) :
    Exec.Commutes ((parserBuffer W).set b) (readFinishReason choice) := by
  unfold readFinishReason
  split
  · exact commutes_update b fun _ => rfl
  · exact Exec.Commutes.pure _

theorem commutes_readContent (cb : StreamCallbacks W) (delta : Json) :
    Exec.Commutes ((parserBuffer W).set b) (readContent cb delta) := by
  unfold readContent
  split
  · refine (commutes_update b fun _ => rfl).bind fun _ => ?_
    split
    · exact Exec.Commutes.modify fun _ => rfl
    · exact Exec.Commutes.pure _
  · exact Exec.Commutes.pure _

theorem commutes_readReasoning (cb : StreamCallbacks W) (delta : Json) :
    Exec.Commutes ((parserBuffer W).set b) (readReasoning cb delta) := by
  unfold readReasoning
  split
  · refine (commutes_update b fun _ => rfl).bind fun _ => ?_
    split
    · exact Exec.Commutes.modify fun _ => rfl
    · exact Exec.Commutes.pure _
  · exact Exec.Commutes.pure _

theorem commutes_readToolCall (tc : Json) :
    Exec.Commutes ((parserBuffer W).set b) (readToolCall tc) :=
  (Exec.Commutes.ofExcept _).bind fun _ => commutes_update b fun _ => rfl

theorem commutes_readChunk (cb : StreamCallbacks W) (chunk : Json) :
    Exec.Commutes ((parserBuffer W).set b) (readChunk cb chunk) := by
  refine (commutes_readUsage b chunk).bind fun _ => ?_
  split
  · exact Exec.Commutes.pure _
  · refine (commutes_readFinishReason b _).bind fun _ => ?_
    split
    · exact Exec.Commutes.pure _
    · exact (commutes_readContent b cb _).bind fun _ =>
        (commutes_readReasoning b cb _).bind fun _ =>
          Exec.Commutes.forM (commutes_readToolCall b) _

end LeavesBuffer

/-- Processing a line leaves the buffer alone. -/
theorem processLine_leavesBuffer (lib : JsonText) (cb : StreamCallbacks W) :
    Lines.LeavesBuffer (parserBuffer W) (processLine lib cb) := by
  intro line b
  unfold processLine
  split
  · exact Exec.Commutes.pure _
  · exact commutes_update b fun _ => rfl
  · split
    · exact Exec.Commutes.pure _
    · exact commutes_readChunk b cb _

/-! ## 3. What the callbacks are told -/

/-- What the parser holds is what it has told its callbacks, piece by piece. -/
structure Stream.Told (cb : StreamCallbacks W) (s : Stream W) : Prop where
  content : cb.onContent.isSome = true → s.contentCalls.flatten = s.parser.content
  reasoning : cb.onReasoning.isSome = true → s.reasoningCalls.flatten = s.parser.reasoning

/-- What reading anything but the delta may do to the stream: the texts, the calls and the record of
the callbacks stay. -/
structure SameTexts (s s' : Stream W) : Prop where
  content : s'.parser.content = s.parser.content
  reasoning : s'.parser.reasoning = s.parser.reasoning
  tools : s'.parser.toolByIndex = s.parser.toolByIndex
  contentCalls : s'.contentCalls = s.contentCalls
  reasoningCalls : s'.reasoningCalls = s.reasoningCalls

section SameTexts

instance : Std.Refl (SameTexts (W := W)) := ⟨fun _ => ⟨rfl, rfl, rfl, rfl, rfl⟩⟩

instance : IsTrans (Stream W) SameTexts :=
  ⟨fun _ _ _ h h' => ⟨h'.content.trans h.content, h'.reasoning.trans h.reasoning,
    h'.tools.trans h.tools, h'.contentCalls.trans h.contentCalls,
    h'.reasoningCalls.trans h.reasoningCalls⟩⟩

theorem sameTexts_readUsage (chunk : Json) :
    Exec.Within SameTexts (readUsage chunk : Parse W PUnit) := by
  have hcount : ∀ (u : Json) (key : Bytes) (get : StreamParser → Int)
      (set : Int → StreamParser → StreamParser), (∀ n p, (set n p).content = p.content) →
      (∀ n p, (set n p).reasoning = p.reasoning) →
      (∀ n p, (set n p).toolByIndex = p.toolByIndex) →
      Exec.Within SameTexts (readCount u key get set : Parse W PUnit) :=
    fun u key get set hc hr ht => Exec.Within.get fun _ =>
      (Exec.Within.ofExcept _).bind fun n s =>
        ⟨hc n s.parser, hr n s.parser, ht n s.parser, rfl, rfl⟩
  unfold readUsage
  split
  · exact Exec.Within.pure _
  split
  · refine Exec.Within.bind ?_ fun _ => Exec.Within.bind ?_ fun _ => ?_
    all_goals exact hcount _ _ _ _ (fun _ _ => rfl) (fun _ _ => rfl) (fun _ _ => rfl)
  · exact Exec.Within.pure _

theorem sameTexts_readFinishReason (choice : Json) :
    Exec.Within SameTexts (readFinishReason choice : Parse W PUnit) := by
  unfold readFinishReason
  split
  · exact fun _ => ⟨rfl, rfl, rfl, rfl, rfl⟩
  · exact Exec.Within.pure _

end SameTexts

/-- What reading anything but the tool calls may do to the stream: the calls read so far stay, and
the callbacks hear of every change of the texts. -/
structure TextStep (cb : StreamCallbacks W) (s s' : Stream W) : Prop where
  tools : s'.parser.toolByIndex = s.parser.toolByIndex
  told : s.Told cb → s'.Told cb

section TextStep

variable {cb : StreamCallbacks W}

theorem SameTexts.textStep {s s' : Stream W} (h : SameTexts s s') : TextStep cb s s' :=
  ⟨h.tools, fun hs =>
    ⟨fun hc => by rw [h.contentCalls, h.content, hs.content hc],
      fun hr => by rw [h.reasoningCalls, h.reasoning, hs.reasoning hr]⟩⟩

instance : Std.Refl (TextStep cb) := ⟨fun _ => ⟨rfl, id⟩⟩

theorem textStep_readContent (delta : Json) :
    Exec.Within (TextStep cb) (readContent cb delta) := by
  unfold readContent
  split
  · intro s
    simp only [Exec.post_bind, update, Exec.post_modify]
    split
    · exact ⟨rfl, fun hs => ⟨fun h => by simp [hs.content h], hs.reasoning⟩⟩
    · rename_i hf
      exact ⟨rfl, fun hs => ⟨by simp [hf], hs.reasoning⟩⟩
  · exact Exec.Within.pure _

theorem textStep_readReasoning (delta : Json) :
    Exec.Within (TextStep cb) (readReasoning cb delta) := by
  unfold readReasoning
  split
  · intro s
    simp only [Exec.post_bind, update, Exec.post_modify]
    split
    · exact ⟨rfl, fun hs => ⟨hs.content, fun h => by simp [hs.reasoning h]⟩⟩
    · rename_i hf
      exact ⟨rfl, fun hs => ⟨hs.content, by simp [hf]⟩⟩
  · exact Exec.Within.pure _

end TextStep

/-- What every step on a line keeps. -/
abbrev KeepsTold (cb : StreamCallbacks W) : Stream W → Stream W → Prop := Exec.Keeps (·.Told cb)

section KeepsTold

variable {cb : StreamCallbacks W}

theorem keepsTold_of_textStep {m : Parse W PUnit} (h : Exec.Within (TextStep cb) m) :
    Exec.Within (KeepsTold cb) m := h.mono fun _ _ h' => h'.told

theorem keepsTold_of_sameTexts {m : Parse W PUnit} (h : Exec.Within SameTexts m) :
    Exec.Within (KeepsTold cb) m := h.mono fun _ _ h' => h'.textStep.told

theorem keepsTold_readToolCall (tc : Json) :
    Exec.Within (KeepsTold cb) (readToolCall tc : Parse W PUnit) :=
  (Exec.Within.ofExcept _).bind fun _ _ hs => ⟨hs.content, hs.reasoning⟩

theorem keepsTold_readChunk (chunk : Json) :
    Exec.Within (KeepsTold cb) (readChunk cb chunk) := by
  refine (keepsTold_of_sameTexts (sameTexts_readUsage chunk)).bind fun _ => ?_
  split
  · exact Exec.Within.pure _
  refine (keepsTold_of_sameTexts (sameTexts_readFinishReason _)).bind fun _ => ?_
  split
  · exact Exec.Within.pure _
  refine (keepsTold_of_textStep (textStep_readContent _)).bind fun _ => ?_
  refine (keepsTold_of_textStep (textStep_readReasoning _)).bind fun _ => ?_
  exact Exec.Within.forM _ fun tc _ => keepsTold_readToolCall tc

theorem keepsTold_processLine (lib : JsonText) (line : Bytes) :
    Exec.Within (KeepsTold cb) (processLine lib cb line) := by
  unfold processLine
  split
  · exact Exec.Within.pure _
  · exact fun _ hs => ⟨hs.content, hs.reasoning⟩
  · split
    · exact Exec.Within.pure _
    · exact keepsTold_readChunk _

/-- Feeding a piece keeps `Told`, also when it raises. -/
theorem keepsTold_feed (lib : JsonText) (piece : Bytes) :
    Exec.Within (KeepsTold cb) (feed lib cb piece) :=
  Lines.within_feed (keepsTold_processLine lib) (fun _ _ hs => ⟨hs.content, hs.reasoning⟩) _

end KeepsTold

/-- The states a parser with these callbacks can be in: fresh, or left by a call of `feed`. -/
inductive Reachable (lib : JsonText) (cb : StreamCallbacks W) : Stream W → Prop where
  | fresh (w : W) : Reachable lib cb { world := w }
  | fed {s s' : Stream W} (piece : Bytes) :
      Reachable lib cb s → feed lib cb piece s = .ok ⟨⟩ s' → Reachable lib cb s'
  | raised {s s' : Stream W} {e : Exn} (piece : Bytes) :
      Reachable lib cb s → feed lib cb piece s = .error e s' → Reachable lib cb s'

theorem Reachable.told {lib : JsonText} {cb : StreamCallbacks W} {s : Stream W}
    (h : Reachable lib cb s) : s.Told cb := by
  induction h with
  | fresh w => exact ⟨fun _ => rfl, fun _ => rfl⟩
  | fed piece _ hfeed ih => exact (keepsTold_feed lib piece _).of_ok hfeed ih
  | raised piece _ hfeed ih => exact (keepsTold_feed lib piece _).of_error hfeed ih

/-- **The way a stream is cut does not matter, and the callbacks hear all of it.**  From any state,
feeding the pieces of a stream and feeding it at once both raise, or both return, in the same
state and with the same calls made; and in every reachable state the strings passed to a callback
make up the text the parser holds. -/
theorem feed_chunking (lib : JsonText) (cb : StreamCallbacks W) :
    (∀ (s : Stream W) (p : Bytes) (ps : List Bytes),
      Lines.Alike (parserBuffer W) (feedAll lib cb (p :: ps) s)
        (feed lib cb (p :: ps).flatten s)) ∧
    ∀ s, Reachable lib cb s → s.Told cb :=
  ⟨fun s p ps => Lines.feed_pieces (processLine_leavesBuffer lib cb) ps p s, fun _ h => h.told⟩

/-! ## 4. Which lines raise -/

/-- The counts of a usage object convert to `int`. -/
def UsageOk (chunk : Json) : Prop :=
  ∀ u, chunk.find (bytes "usage") = some u → u.isObject = true →
    ∀ key ∈ [bytes "prompt_tokens", bytes "completion_tokens", bytes "total_tokens"],
      u.Field Json.IsInt key

/-- The elements of `choices[0].delta.tool_calls`. -/
def deltaItems (chunk : Json) : List Json :=
  match firstChoice chunk with
  | none => []
  | some choice =>
    match objectDelta choice with
    | none => []
    | some delta => toolCallItems delta

/-- Its elements are objects whose index, if there, converts to `int`. -/
def IndicesOk (chunk : Json) : Prop :=
  ∀ tc ∈ deltaItems chunk, tc.Field Json.IsInt (bytes "index")

/-- A line that does not raise: it is no chunk, is not JSON, or is a chunk of the expected shape
where `value` is used to read it. -/
def LineOk (lib : JsonText) (line : Bytes) : Prop :=
  ∀ payload, lineKind line = .chunk payload → ∀ chunk, lib.parse payload = some chunk →
    UsageOk chunk ∧ IndicesOk chunk

theorem readCount_returns_iff (u : Json) (key : Bytes) {get : StreamParser → Int}
    {set : Int → StreamParser → StreamParser} (s : Stream W) :
    Exec.Returns (readCount u key get set) s ↔ u.Field Json.IsInt key := by
  unfold Exec.Returns readCount
  rw [Exec.post_bind, Exec.post_get, Exec.post_bind, Exec.post_ofExcept,
    ← Json.valueInt_ok_iff (get s.parser)]
  cases u.valueInt key (get s.parser) with
  | ok n => simp [update]
  | error e => simp

theorem readUsage_returns_iff (chunk : Json) (s : Stream W) :
    Exec.Returns (readUsage chunk) s ↔ UsageOk chunk := by
  unfold readUsage UsageOk
  cases hu : chunk.find (bytes "usage") with
  | none => exact iff_of_true trivial (by simp)
  | some u =>
    dsimp only
    split
    · rename_i hobj
      rw [Exec.bind_returns_iff_and (fun s => readCount_returns_iff u _ s)
        (fun _ => Exec.bind_returns_iff_and (fun s => readCount_returns_iff u _ s)
          (fun _ s => readCount_returns_iff u _ s))]
      simp [hobj]
    · rename_i hobj
      exact iff_of_true trivial (by simp [hobj])

theorem returns_update (f : StreamParser → StreamParser) (s : Stream W) :
    Exec.Returns (update f) s := trivial

theorem readFinishReason_returns (choice : Json) (s : Stream W) :
    Exec.Returns (readFinishReason choice) s := by
  unfold readFinishReason
  split
  · exact returns_update _ _
  · exact trivial

theorem readContent_returns (cb : StreamCallbacks W) (delta : Json) (s : Stream W) :
    Exec.Returns (readContent cb delta) s := by
  unfold readContent
  split
  · split <;> exact trivial
  · exact trivial

theorem readReasoning_returns (cb : StreamCallbacks W) (delta : Json) (s : Stream W) :
    Exec.Returns (readReasoning cb delta) s := by
  unfold readReasoning
  split
  · split <;> exact trivial
  · exact trivial

theorem readToolCall_returns_iff (tc : Json) (s : Stream W) :
    Exec.Returns (readToolCall tc) s ↔ tc.Field Json.IsInt (bytes "index") := by
  unfold Exec.Returns readToolCall
  rw [Exec.post_bind, Exec.post_ofExcept, ← Json.valueInt_ok_iff 0]
  cases tc.valueInt (bytes "index") 0 with
  | ok n => simp [update]
  | error e => simp

theorem readDelta_returns_iff (cb : StreamCallbacks W) (delta : Json) (s : Stream W) :
    Exec.Returns (readDelta cb delta) s ↔
      ∀ tc ∈ toolCallItems delta, tc.Field Json.IsInt (bytes "index") := by
  unfold readDelta
  rw [Exec.bind_returns_iff_and (P := True) (fun s => iff_true_intro (readContent_returns cb _ s))
    (fun _ => Exec.bind_returns_iff_and (P := True)
      (fun s => iff_true_intro (readReasoning_returns cb _ s))
      (fun _ => Exec.forM_returns_iff_forall readToolCall_returns_iff _)),
    true_and, true_and]

theorem readChunk_returns_iff (cb : StreamCallbacks W) (chunk : Json) (s : Stream W) :
    Exec.Returns (readChunk cb chunk) s ↔ UsageOk chunk ∧ IndicesOk chunk := by
  unfold readChunk
  refine Exec.bind_returns_iff_and (fun s => readUsage_returns_iff chunk s) (fun _ s => ?_) s
  unfold IndicesOk deltaItems
  cases hc : firstChoice chunk with
  | none => exact iff_of_true trivial (by simp)
  | some choice =>
    dsimp only
    rw [Exec.bind_returns_iff_and (P := True)
      (fun s => iff_true_intro (readFinishReason_returns choice s)), true_and]
    intro _ s
    cases hd : objectDelta choice with
    | none => exact iff_of_true trivial (by simp)
    | some delta => exact readDelta_returns_iff cb delta s

/-- **Which lines raise**, in any state. -/
theorem processLine_returns_iff (lib : JsonText) (cb : StreamCallbacks W) (line : Bytes)
    (s : Stream W) : Exec.Returns (processLine lib cb line) s ↔ LineOk lib line := by
  unfold processLine LineOk
  cases hk : lineKind line with
  | ignored => exact iff_of_true trivial (by simp)
  | done => exact iff_of_true trivial (by simp)
  | chunk payload =>
    dsimp only
    cases hp : lib.parse payload with
    | none => exact iff_of_true trivial (by simp [hp])
    | some chunk =>
      rw [readChunk_returns_iff]
      simp [hp]

/-- The lines of a stream of pieces that are complete. -/
def completeLines (pieces : List Bytes) : List Bytes := (Lines.lines newline pieces.flatten).1

/-- The pieces are read to their end: no `feed` raises, and what results is every complete line
processed, one after another, with what is left in the buffer. -/
def ReadToEnd (lib : JsonText) (cb : StreamCallbacks W) (pieces : List Bytes) (w : W) : Prop :=
  ∃ s : Stream W, forM (completeLines pieces) (processLine lib cb) { world := w } = .ok ⟨⟩ s ∧
    feedAll lib cb pieces { world := w } =
      .ok ⟨⟩ ((parserBuffer W).set (Lines.lines newline pieces.flatten).2 s)

/-- What feeding the pieces to a fresh parser comes to. -/
theorem feedAll_spec (lib : JsonText) (cb : StreamCallbacks W) (pieces : List Bytes) (w : W) :
    Lines.Alike (parserBuffer W) (feedAll lib cb pieces { world := w })
      (Exec.mapState ((parserBuffer W).set (Lines.lines newline pieces.flatten).2)
        (forM (completeLines pieces) (processLine lib cb) { world := w })) := by
  have hleaves := processLine_leavesBuffer lib cb
  refine (Lines.feed_pieces_of_notMem hleaves (by simp [parserBuffer]) pieces).trans ?_
  exact Lines.feed_spec newline hleaves pieces.flatten _

/-- **When a stream is read to its end**: exactly when none of its complete lines raises. -/
theorem feedAll_reads_iff (lib : JsonText) (cb : StreamCallbacks W) (pieces : List Bytes) (w : W) :
    ReadToEnd lib cb pieces w ↔ ∀ line ∈ completeLines pieces, LineOk lib line := by
  rw [← Exec.forM_returns_iff_forall (processLine_returns_iff lib cb) _ { world := w },
    Exec.returns_iff]
  have hspec := feedAll_spec lib cb pieces w
  constructor
  · rintro ⟨s, hs, -⟩
    exact ⟨⟨⟩, s, hs⟩
  · rintro ⟨_, s, hs⟩
    rw [hs] at hspec
    rcases hspec with ⟨t, hx, hy⟩ | ⟨e, t, t', -, hy, -⟩
    · cases hy
      exact ⟨s, hs, hx⟩
    · cases hy

/-- The body of a chunk with a token count that is not known yet. -/
def nullCount : Json := .object [(bytes "usage", .object [(bytes "prompt_tokens", .null)])]

def nullCountText : Bytes := bytes "\x7b\"usage\":\x7b\"prompt_tokens\":null\x7d\x7d"

def nullCountLib : JsonText :=
  .ofTable [(nullCountText, nullCount)] (by simp [nullCount, Json.ValidText, Json.ValidFields])

/-- A token count that is `null` raises: the stream is not read to its end. -/
theorem nullCount_raises :
    (∃ s, feedAll nullCountLib ({} : StreamCallbacks Unit)
      [bytes "data: " ++ nullCountText ++ bytes "\n"] { world := () } =
        .error (.typeError 302) s) ∧
    ¬ ReadToEnd nullCountLib ({} : StreamCallbacks Unit)
      [bytes "data: " ++ nullCountText ++ bytes "\n"] () := by
  refine ⟨⟨_, rfl⟩, ?_⟩
  rintro ⟨s, hlines, -⟩
  cases hlines

end SimpleCoder

/-
# What a server streams is what `chat` returns

A server streams its answer as chunks, each the text of a JSON value on a `data:` line: pieces of
the answer and of the reasoning, fragments of tool calls, the reason for which it has stopped and
the token counts.  In between there may be comments and blank lines, and the network cuts the text
as it likes.

* §1 says what a chunk says (`Says`), whatever else is in it, and which lines stream it.
* §2 reads one line, to the last member of the parser: it does what its chunk says (`hear`).
* §3 is the whole request (`chat_streamed`).
-/
import SimpleCoder.Json.RoundTrip
import SimpleCoder.Llm.ApiClient
import SimpleCoder.Llm.Reassembly
import SimpleCoder.Llm.RequestText

namespace SimpleCoder

variable {W : Type}

/-! ## 1. Chunks -/

/-- The three counts of a `usage`, each an `int`. -/
structure TokenCounts where
  prompt : Int
  completion : Int
  total : Int
  int : ∀ n ∈ [prompt, completion, total], -2 ^ 31 ≤ n ∧ n < 2 ^ 31

/-- What a chunk says. -/
structure ReplyChunk where
  content : Option Bytes := none
  reasoning : Option Bytes := none
  fragments : List Fragment := []
  finishReason : Option Bytes := none
  usage : Option TokenCounts := none
  /-- It is the end mark. -/
  done : Bool := false

/-- The string at a key, if there is one. -/
def Json.HasText (j : Json) (key : Bytes) (text : Option Bytes) : Prop :=
  ∀ s, j.find key = some (.string s) ↔ text = some s

/-- What the first choice of a chunk says; there need not be one. -/
inductive SaysChoice : Option Json → ReplyChunk → Prop where
  | none (usage : Option TokenCounts) : SaysChoice none { usage := usage }
  | some {choice delta : Json} {c : ReplyChunk}
    (hfinish : choice.HasText (bytes "finish_reason") c.finishReason)
    (hdelta : objectDelta choice = some delta)
    (hcontent : delta.HasText (bytes "content") c.content)
    (hreasoning : delta.HasText (bytes "reasoning_content") c.reasoning)
    (htools : List.Forall₂ Carries (toolCallItems delta) c.fragments) :
    SaysChoice (some choice) c

/-- What the usage of a chunk says; where it is missing, or null, the counts are not known. -/
def SaysUsage (usage : Option Json) : Option TokenCounts → Prop
  | none => ∀ u, usage = some u → u.isObject = false
  | some n => ∃ u, usage = some u ∧ u.isObject = true ∧
    u.find (bytes "prompt_tokens") = some (.integer n.prompt) ∧
    u.find (bytes "completion_tokens") = some (.integer n.completion) ∧
    u.find (bytes "total_tokens") = some (.integer n.total)

/-- The value is a chunk that says this, and may hold anything else. -/
structure Says (j : Json) (c : ReplyChunk) : Prop where
  object : j.isObject = true
  usage : SaysUsage (j.find (bytes "usage")) c.usage
  choice : SaysChoice (firstChoice j) c
  done : c.done = false
  int : ∀ f ∈ c.fragments, -2 ^ 31 ≤ f.index ∧ f.index < 2 ^ 31

/-- The lines of a stream: those with a chunk, and those that say nothing. -/
inductive Streams (lib : JsonText) : Bytes → ReplyChunk → Prop where
  | blank {line : Bytes} (h : Blank line) : Streams lib line {}
  | comment {a text : Bytes} (h : Blank a) : Streams lib (a ++ 0x3A :: text) {}
  | done {line : Bytes} (h : IsData line (bytes "[DONE]")) : Streams lib line { done := true }
  | chunk {line payload : Bytes} {j : Json} {c : ReplyChunk} (h : IsData line payload)
    (hdump : j.dump lib = .ok payload) (hstored : j.Stored fun _ => True) (hsaid : Says j c) :
    Streams lib line c

/-! ## 2. One line -/

/-- A callback is told. -/
def tell (f : Option (Bytes → W → W)) (text : Bytes) (w : W) : W := (f.map (· text)).getD id w

/-- What a parser does with a piece of the answer. -/
def hearContent (cb : StreamCallbacks W) : Option Bytes → Stream W → Stream W
  | none, s => s
  | some piece, s =>
    { s with
      parser := { s.parser with content := s.parser.content ++ piece }
      world := tell cb.onContent piece s.world
      contentCalls := s.contentCalls ++ if cb.onContent.isSome then [piece] else [] }

/-- The same for the reasoning. -/
def hearReasoning (cb : StreamCallbacks W) : Option Bytes → Stream W → Stream W
  | none, s => s
  | some piece, s =>
    { s with
      parser := { s.parser with reasoning := s.parser.reasoning ++ piece }
      world := tell cb.onReasoning piece s.world
      reasoningCalls := s.reasoningCalls ++ if cb.onReasoning.isSome then [piece] else [] }

def hearParser (f : StreamParser → StreamParser) (s : Stream W) : Stream W :=
  { s with parser := f s.parser }

/-- What a parser does with the rest of a chunk. -/
def ReplyChunk.counted (c : ReplyChunk) (p : StreamParser) : StreamParser :=
  match c.usage with
  | none => p
  | some n => { p with
    promptTokens := n.prompt, completionTokens := n.completion, totalTokens := n.total }

def ReplyChunk.finished (c : ReplyChunk) (p : StreamParser) : StreamParser :=
  { p with finishReason := c.finishReason.getD p.finishReason }

def ReplyChunk.collected (c : ReplyChunk) (p : StreamParser) : StreamParser :=
  { p with toolByIndex := collect p.toolByIndex c.fragments }

def ReplyChunk.marked (c : ReplyChunk) (p : StreamParser) : StreamParser :=
  if c.done then { p with done := true } else p

/-- What a chunk says is heard. -/
def ReplyChunk.hear (cb : StreamCallbacks W) (c : ReplyChunk) (s : Stream W) : Stream W :=
  hearParser c.marked (hearParser c.collected (hearReasoning cb c.reasoning
    (hearContent cb c.content (hearParser c.finished (hearParser c.counted s)))))

/-- The chunks are heard, one after another. -/
def heard (cb : StreamCallbacks W) (chunks : List ReplyChunk) (s : Stream W) : Stream W :=
  chunks.foldl (fun s c => c.hear cb s) s

theorem heard_cons (cb : StreamCallbacks W) (c : ReplyChunk) (chunks : List ReplyChunk)
    (s : Stream W) : heard cb (c :: chunks) s = heard cb chunks (c.hear cb s) := rfl

section Line

variable (cb : StreamCallbacks W) {j : Json} {c : ReplyChunk} (s : Stream W)

theorem update_run (f : StreamParser → StreamParser) :
    update f s = .ok ⟨⟩ (hearParser f s) := rfl

theorem valueInt_of_find {key : Bytes} {n : Int} (h : j.find key = some (.integer n))
    (hint : -2 ^ 31 ≤ n ∧ n < 2 ^ 31) (default : Int) : j.valueInt key default = .ok n := by
  rw [Json.valueInt, Json.value_of_find h, Json.getInt, intCast,
    Int.bmod_eq_of_le (by omega) (by omega)]

theorem readCount_run {key : Bytes} {n : Int} (h : j.find key = some (.integer n))
    (hint : -2 ^ 31 ≤ n ∧ n < 2 ^ 31) (get : StreamParser → Int)
    (set : Int → StreamParser → StreamParser) :
    readCount j key get set s = .ok ⟨⟩ (hearParser (set n) s) := by
  have hvalue := valueInt_of_find h hint (get s.parser)
  have hget : (MonadState.get : Parse W (Stream W)) s = .ok s s := rfl
  unfold readCount
  rw [Exec.bind_of_ok hget, Exec.ofExcept_bind_ok hvalue]
  rfl

theorem readUsage_run (h : SaysUsage (j.find (bytes "usage")) c.usage) :
    readUsage j s = .ok ⟨⟩ (hearParser c.counted s) := by
  unfold readUsage ReplyChunk.counted
  cases husage : c.usage with
  | none =>
    rw [husage] at h
    cases hfind : j.find (bytes "usage") with
    | none => rfl
    | some u =>
      dsimp only
      rw [if_neg (by simp [h u hfind])]
      rfl
  | some n =>
    rw [husage] at h
    obtain ⟨u, hfind, hobject, hprompt, hcompletion, htotal⟩ := h
    have hint := n.int
    simp only [List.forall_mem_cons] at hint
    rw [hfind]
    dsimp only
    rw [if_pos hobject, Exec.bind_of_ok (readCount_run s hprompt hint.1 _ _),
      Exec.bind_of_ok (readCount_run _ hcompletion hint.2.1 _ _),
      readCount_run _ htotal hint.2.2.1]
    rfl

theorem readFinishReason_run (h : j.HasText (bytes "finish_reason") c.finishReason) :
    readFinishReason j s = .ok ⟨⟩ (hearParser c.finished s) := by
  unfold ReplyChunk.finished
  generalize c.finishReason = text at h
  cases text with
  | none =>
    have hskip : (readFinishReason j : Parse W PUnit) = pure ⟨⟩ := by
      unfold readFinishReason
      split
      · rename_i reason hfind
        cases (h reason).mp hfind
      · rfl
    rw [hskip]
    rfl
  | some reason =>
    unfold readFinishReason
    rw [(h reason).mpr rfl]
    rfl

theorem readContent_run {text : Option Bytes} (h : j.HasText (bytes "content") text) :
    readContent cb j s = .ok ⟨⟩ (hearContent cb text s) := by
  cases text with
  | none =>
    have hskip : readContent cb j = pure ⟨⟩ := by
      unfold readContent
      split
      · rename_i piece hfind
        cases (h piece).mp hfind
      · rfl
    rw [hskip]
    rfl
  | some piece =>
    unfold readContent hearContent tell
    rw [(h piece).mpr rfl]
    dsimp only
    rw [Exec.bind_of_ok (update_run s _)]
    cases cb.onContent with
    | some f => rfl
    | none => simp [hearParser, pure, EStateM.pure]

theorem readReasoning_run {text : Option Bytes} (h : j.HasText (bytes "reasoning_content") text) :
    readReasoning cb j s = .ok ⟨⟩ (hearReasoning cb text s) := by
  cases text with
  | none =>
    have hskip : readReasoning cb j = pure ⟨⟩ := by
      unfold readReasoning
      split
      · rename_i piece hfind
        cases (h piece).mp hfind
      · rfl
    rw [hskip]
    rfl
  | some piece =>
    unfold readReasoning hearReasoning tell
    rw [(h piece).mpr rfl]
    dsimp only
    rw [Exec.bind_of_ok (update_run s _)]
    cases cb.onReasoning with
    | some f => rfl
    | none => simp [hearParser, pure, EStateM.pure]

theorem readToolCall_run {f : Fragment} (h : Carries j f)
    (hint : -2 ^ 31 ≤ f.index ∧ f.index < 2 ^ 31) :
    readToolCall j s =
      .ok ⟨⟩ (hearParser (fun p => { p with toolByIndex := collect p.toolByIndex [f] }) s) := by
  have hmerge : (fun acc => some (mergeFragment j (Option.getD acc {}))) =
      fun acc => some (f.merge (Option.getD acc {})) :=
    funext fun acc => by rw [mergeFragment_carries h]
  unfold readToolCall
  rw [Exec.ofExcept_bind_ok (valueInt_of_find h.index hint 0), hmerge]
  rfl

theorem readToolCalls_run {items : List Json} {frags : List Fragment}
    (h : List.Forall₂ Carries items frags)
    (hint : ∀ f ∈ frags, -2 ^ 31 ≤ f.index ∧ f.index < 2 ^ 31) :
    forM items readToolCall s =
      .ok ⟨⟩ (hearParser (fun p => { p with toolByIndex := collect p.toolByIndex frags }) s) := by
  induction h generalizing s with
  | nil => rfl
  | @cons tc f items frags hf _ ih =>
    obtain ⟨hhead, hrest⟩ := List.forall_mem_cons.mp hint
    rw [List.forM_cons, Exec.bind_of_ok (readToolCall_run s hf hhead), ih _ hrest]
    refine congrArg (EStateM.Result.ok _) ?_
    unfold hearParser
    dsimp only
    rw [← collect_append]
    rfl

/-- **A chunk** is heard. -/
theorem readChunk_run (h : Says j c) : readChunk cb j s = .ok ⟨⟩ (c.hear cb s) := by
  obtain ⟨-, husage, hchoice, hdone, hint⟩ := h
  have hmarked : ∀ t : Stream W, hearParser c.marked t = t := by
    intro t
    simp [hearParser, ReplyChunk.marked, hdone]
  unfold ReplyChunk.hear
  rw [hmarked]
  unfold readChunk
  rw [Exec.bind_of_ok (readUsage_run s husage)]
  generalize firstChoice j = choice at hchoice
  cases hchoice with
  | none usage => rfl
  | some hfinish hdelta hcontent hreasoning htools =>
    dsimp only
    rw [Exec.bind_of_ok (readFinishReason_run _ hfinish), hdelta]
    dsimp only [readDelta]
    rw [Exec.bind_of_ok (readContent_run cb _ hcontent),
      Exec.bind_of_ok (readReasoning_run cb _ hreasoning), readToolCalls_run _ htools hint]
    rfl

end Line

/-! ### Chunks as they are read -/

section Written

variable {floats : FloatText} {j : Json} {c : ReplyChunk}

theorem FloatText.written_eq_string_iff {v : Json} {s : Bytes} :
    floats.written v = .string s ↔ v = .string s := by
  cases v with
  | float d => cases d <;> simp [FloatText.written]
  | _ => simp [FloatText.written]

theorem FloatText.isObject_written (v : Json) : (floats.written v).isObject = v.isObject := by
  cases v with
  | float d => cases d <;> rfl
  | _ => rfl

theorem find_written_integer {key : Bytes} {n : Int} (h : j.find key = some (.integer n)) :
    (floats.written j).find key = some (.integer n) := by
  rw [floats.find_written, h]
  rfl

theorem hasText_written {key : Bytes} {text : Option Bytes} (h : j.HasText key text) :
    (floats.written j).HasText key text := by
  intro s
  rw [← h s, floats.find_written]
  cases j.find key with
  | none => simp
  | some v => simp [FloatText.written_eq_string_iff]

theorem Carries.written {f : Fragment} (h : Carries j f) : Carries (floats.written j) f := by
  obtain ⟨fn, hfn, hobject, hname, harguments⟩ := h.function
  have hid : j.HasText (bytes "id") (f.head.map Prod.fst) := h.id
  have hname' : fn.HasText (bytes "name") (f.head.map Prod.snd) := hname
  refine ⟨find_written_integer h.index, hasText_written hid, floats.written fn, ?_, ?_,
    hasText_written hname', ?_⟩
  · rw [floats.find_written, hfn]
    rfl
  · rw [FloatText.isObject_written, hobject]
  · rw [floats.find_written, harguments]
    rfl

theorem firstChoice_written (j : Json) :
    firstChoice (floats.written j) = (firstChoice j).map floats.written := by
  unfold firstChoice
  rw [floats.find_written]
  cases j.find (bytes "choices") with
  | none => rfl
  | some v =>
    cases v with
    | array items => cases items <;> rfl
    | float d => cases d <;> rfl
    | _ => rfl

theorem toolCallItems_written (delta : Json) :
    toolCallItems (floats.written delta) = (toolCallItems delta).map floats.written := by
  unfold toolCallItems
  rw [floats.find_written]
  cases delta.find (bytes "tool_calls") with
  | none => rfl
  | some v =>
    cases v with
    | array items => exact floats.writtenItems_eq_map items
    | float d => cases d <;> rfl
    | _ => rfl

theorem objectDelta_written {choice delta : Json} (h : objectDelta choice = some delta) :
    objectDelta (floats.written choice) = some (floats.written delta) := by
  obtain ⟨hfind, hobject⟩ := Option.filter_eq_some_iff.mp h
  refine Option.filter_eq_some_iff.mpr ⟨?_, ?_⟩
  · rw [floats.find_written, hfind]
    rfl
  · rw [FloatText.isObject_written, hobject]

theorem SaysUsage.written {usage : Option Json} {counts : Option TokenCounts}
    (h : SaysUsage usage counts) : SaysUsage (usage.map floats.written) counts := by
  cases counts with
  | none =>
    intro v hv
    obtain ⟨u, hu, rfl⟩ := Option.map_eq_some_iff.mp hv
    rw [FloatText.isObject_written, h u hu]
  | some n =>
    obtain ⟨u, hu, hobject, hprompt, hcompletion, htotal⟩ := h
    refine ⟨floats.written u, by rw [hu]; rfl, ?_, find_written_integer hprompt,
      find_written_integer hcompletion, find_written_integer htotal⟩
    rw [FloatText.isObject_written, hobject]

theorem SaysChoice.written {choice : Option Json} (h : SaysChoice choice c) :
    SaysChoice (choice.map floats.written) c := by
  cases h with
  | none usage => exact .none usage
  | some hfinish hdelta hcontent hreasoning htools =>
    refine .some (hasText_written hfinish) (objectDelta_written hdelta) (hasText_written hcontent)
      (hasText_written hreasoning) ?_
    rw [toolCallItems_written, List.forall₂_map_left_iff]
    exact htools.imp fun _ _ h => h.written

/-- **A chunk says the same when it is read.** -/
theorem Says.written (h : Says j c) : Says (floats.written j) c := by
  refine ⟨?_, ?_, ?_, h.done, h.int⟩
  · rw [FloatText.isObject_written, h.object]
  · rw [floats.find_written]
    exact h.usage.written
  · rw [firstChoice_written]
    exact h.choice.written

/-- The text of an object is not the end mark. -/
theorem dump_ne_done {lib : JsonText} {payload : Bytes} (hobject : j.isObject = true)
    (h : j.dump lib = .ok payload) : payload ≠ bytes "[DONE]" := by
  cases j with
  | object fields =>
    obtain ⟨ts, -, hpayload⟩ := Json.except_bind_eq_ok_iff.mp h
    cases hpayload
    have hfirst : ∀ s : Bytes, bytes "\x7b" ++ s ≠ bytes "[DONE]" := by
      intro s hs
      cases hs
    rw [List.append_assoc]
    exact hfirst _
  | null | boolean | integer | float | string | array => cases hobject

end Written

section Lines

variable {floats : FloatText} (cb : StreamCallbacks W)

/-- **One line.** -/
theorem processLine_run {line : Bytes} {c : ReplyChunk} (h : Streams floats.jsonText line c)
    (s : Stream W) : processLine floats.jsonText cb line s = .ok ⟨⟩ (c.hear cb s) := by
  unfold processLine
  cases h with
  | blank hb =>
    rw [lineKind_blank hb]
    rfl
  | comment ha =>
    rw [lineKind_comment ha]
    rfl
  | done hd =>
    rw [lineKind_isData hd, if_pos rfl]
    rfl
  | chunk hd hdump hstored hsaid =>
    rw [lineKind_isData hd, if_neg (dump_ne_done hsaid.object hdump)]
    dsimp only
    rw [floats.parse_dump hstored hdump]
    exact readChunk_run cb s hsaid.written

theorem processLines_run {ls : List Bytes} {chunks : List ReplyChunk}
    (h : List.Forall₂ (Streams floats.jsonText) ls chunks) (s : Stream W) :
    forM ls (processLine floats.jsonText cb) s =
      .ok ⟨⟩ (heard cb chunks s) := by
  induction h generalizing s with
  | nil => rfl
  | cons hl _ ih => rw [List.forM_cons, Exec.bind_of_ok (processLine_run cb hl s), ih, heard_cons]

/-- **A stream**, however it is cut. -/
theorem feedAll_run {ls : List Bytes} {chunks : List ReplyChunk}
    (h : List.Forall₂ (Streams floats.jsonText) ls chunks) (hlines : ∀ line ∈ ls, newline ∉ line)
    {pieces : List Bytes} (hpieces : pieces.flatten = ls.flatMap (· ++ [newline])) (w : W) :
    feedAll floats.jsonText cb pieces { world := w } =
      .ok ⟨⟩ ((parserBuffer W).set [] (heard cb chunks { world := w })) := by
  have hcut : Lines.lines newline pieces.flatten = (ls, []) := by
    have hls := Lines.lines_flatMap hlines []
    rw [List.append_nil] at hls
    rw [hpieces, hls]
    simp [Lines.lines]
  have hspec := feedAll_spec floats.jsonText cb pieces w
  unfold completeLines at hspec
  rw [hcut, processLines_run cb h] at hspec
  rcases hspec with ⟨s, hx, hy⟩ | ⟨e, s, s', -, hy, -⟩
  · cases hy
    exact hx
  · cases hy

end Lines

/-! ## 3. The request -/

/-- The callbacks are told what a chunk says. -/
def ReplyChunk.told (cb : StreamCallbacks W) (w : W) (c : ReplyChunk) : W :=
  let w := c.content.elim w fun piece => tell cb.onContent piece w
  c.reasoning.elim w fun piece => tell cb.onReasoning piece w

/-- What was said last. -/
def lastSaid {α : Type} (chunks : List ReplyChunk) (out : ReplyChunk → Option α) (default : α) :
    α :=
  (chunks.filterMap out).getLast?.getD default

/-- The answer that the chunks make up. -/
def streamedReply (status : Int) (chunks : List ReplyChunk) (calls : CallMap) (genSeconds : ℚ) :
    ApiResult where
  ok := true
  httpStatus := status
  content := chunks.flatMap fun c => c.content.getD []
  reasoning := chunks.flatMap fun c => c.reasoning.getD []
  toolCalls := calls.entries.map Prod.snd
  finishReason := lastSaid chunks ReplyChunk.finishReason []
  promptTokens := lastSaid chunks (·.usage.map TokenCounts.prompt) 0
  completionTokens := lastSaid chunks (·.usage.map TokenCounts.completion) 0
  totalTokens := lastSaid chunks (·.usage.map TokenCounts.total) 0
  genSeconds := genSeconds

/-- The time since the first token, and the world behind it. -/
def spent (net : Net W) (t : Timed W) : ℚ × W :=
  match t.firstToken with
  | some first => ((net.now t.world).1 - first, (net.now t.world).2)
  | none => (0, t.world)

section Heard

variable (cb : StreamCallbacks W) (chunks : List ReplyChunk) (s : Stream W)

/-- What every chunk adds something to. -/
theorem heard_appended (get : Stream W → Bytes) (out : ReplyChunk → Bytes)
    (h : ∀ c s, get (c.hear cb s) = get s ++ out c) :
    get (heard cb chunks s) = get s ++ chunks.flatMap out := by
  induction chunks generalizing s with
  | nil => exact (List.append_nil _).symm
  | cons c chunks ih => rw [heard_cons, ih, h, List.flatMap_cons, List.append_assoc]

/-- What some chunks replace. -/
theorem heard_last {α : Type} (get : Stream W → α) (out : ReplyChunk → Option α)
    (h : ∀ c s, get (c.hear cb s) = (out c).getD (get s)) :
    get (heard cb chunks s) = lastSaid chunks out (get s) := by
  unfold lastSaid
  induction chunks generalizing s with
  | nil => rfl
  | cons c chunks ih =>
    rw [heard_cons, ih, h, List.filterMap_cons]
    cases out c with
    | none => rfl
    | some a =>
      rw [List.getLast?_cons]
      rfl

theorem heard_tools :
    (heard cb chunks s).parser.toolByIndex =
      collect s.parser.toolByIndex (chunks.flatMap ReplyChunk.fragments) := by
  have hone : ∀ (c : ReplyChunk) (s : Stream W),
      (c.hear cb s).parser.toolByIndex = collect s.parser.toolByIndex c.fragments := by
    intro c s
    obtain ⟨_ | _, _ | _, frags, finish, _ | _, _ | _⟩ := c <;> rfl
  induction chunks generalizing s with
  | nil => rfl
  | cons c chunks ih => rw [heard_cons, ih, hone, List.flatMap_cons, collect_append]

theorem heard_world : (heard cb chunks s).world = chunks.foldl (ReplyChunk.told cb) s.world := by
  have hone : ∀ (c : ReplyChunk) (s : Stream W), (c.hear cb s).world = c.told cb s.world := by
    intro c s
    obtain ⟨_ | _, _ | _, frags, finish, usage, done⟩ := c <;> rfl
  induction chunks generalizing s with
  | nil => rfl
  | cons c chunks ih => rw [heard_cons, ih, hone, List.foldl_cons]

/-- **What the parser holds in the end.** -/
theorem heard_fields (w : W) :
    let p := (heard cb chunks { world := w }).parser
    p.content = (chunks.flatMap fun c => c.content.getD []) ∧
      p.reasoning = (chunks.flatMap fun c => c.reasoning.getD []) ∧
      p.finishReason = lastSaid chunks ReplyChunk.finishReason [] ∧
      p.promptTokens = lastSaid chunks (·.usage.map TokenCounts.prompt) 0 ∧
      p.completionTokens = lastSaid chunks (·.usage.map TokenCounts.completion) 0 ∧
      p.totalTokens = lastSaid chunks (·.usage.map TokenCounts.total) 0 := by
  have hnil : ∀ (t out : Bytes), t = [] ++ out → t = out := fun _ _ h => h
  refine ⟨hnil _ _ (heard_appended cb chunks _ (·.parser.content) _ fun c s => ?_),
    hnil _ _ (heard_appended cb chunks _ (·.parser.reasoning) _ fun c s => ?_),
    heard_last cb chunks _ (·.parser.finishReason) _ fun c s => ?_,
    heard_last cb chunks _ (·.parser.promptTokens) _ fun c s => ?_,
    heard_last cb chunks _ (·.parser.completionTokens) _ fun c s => ?_,
    heard_last cb chunks _ (·.parser.totalTokens) _ fun c s => ?_⟩
  all_goals
    obtain ⟨_ | _, _ | _, frags, finish, _ | _, _ | _⟩ := c <;>
      first | rfl | exact (List.append_nil _).symm

end Heard

section Chat

variable {lib : JsonText} {cb : StreamCallbacks (Timed W)}

/-- The status is noted when it is known. -/
theorem modify_status {status : Int} (hstatus : status ≠ 0) {ctx : WriteCtx W}
    (hctx : ctx.statusKnown = true → ctx.status = status) :
    (modify fun ctx : WriteCtx W => if ctx.statusKnown then ctx
      else { ctx with status := status, statusKnown := status ≠ 0 } :
        EStateM Exn (WriteCtx W) PUnit) ctx =
      .ok ⟨⟩ { ctx with status := status, statusKnown := true } := by
  obtain ⟨stream, errorBody, known, isKnown⟩ := ctx
  cases isKnown with
  | true =>
    obtain rfl : known = status := hctx rfl
    rfl
  | false =>
    refine congrArg (EStateM.Result.ok _) ?_
    simp [hstatus]

theorem get_run (ctx : WriteCtx W) :
    (get : EStateM Exn (WriteCtx W) (WriteCtx W)) ctx = .ok ctx ctx := rfl

/-- A piece of an answer that is no error goes to the parser. -/
theorem writeCb_run {status : Int} (hstatus : 0 < status ∧ status < 400) (piece : Bytes)
    {ctx : WriteCtx W} (hctx : ctx.statusKnown = true → ctx.status = status)
    {s : Stream (Timed W)} (hfeed : feed lib cb piece ctx.stream = .ok ⟨⟩ s) :
    writeCb lib cb (status, piece) ctx =
      .ok ⟨⟩ { ctx with stream := s, status := status, statusKnown := true } := by
  have hnot : ¬ 400 ≤ status := by omega
  unfold writeCb
  rw [Exec.bind_of_ok (modify_status (by omega) hctx), Exec.bind_of_ok (get_run _), if_neg hnot]
  unfold Exec.zoom
  rw [hfeed]

theorem writes_run {status : Int} (hstatus : 0 < status ∧ status < 400)
    {pieces : List (Int × Bytes)} (hpieces : ∀ p ∈ pieces, p.1 = status) (ctx : WriteCtx W)
    (hctx : ctx.statusKnown = true → ctx.status = status) {s : Stream (Timed W)}
    (hfeed : feedAll lib cb (pieces.map Prod.snd) ctx.stream = .ok ⟨⟩ s) :
    ∃ ctx', forM pieces (writeCb lib cb) ctx = .ok ⟨⟩ ctx' ∧ ctx'.stream = s := by
  induction pieces generalizing ctx with
  | nil =>
    cases hfeed
    exact ⟨ctx, rfl, rfl⟩
  | cons p pieces ih =>
    obtain ⟨hp, hrest⟩ := List.forall_mem_cons.mp hpieces
    obtain ⟨code, piece⟩ := p
    obtain rfl : code = status := hp
    unfold feedAll at hfeed ih
    rw [List.map_cons, List.forM_cons] at hfeed
    cases hone : feed lib cb piece ctx.stream with
    | ok u t =>
      rw [Exec.bind_of_ok hone] at hfeed
      rw [List.forM_cons, Exec.bind_of_ok (writeCb_run hstatus piece hctx hone)]
      exact ih hrest _ (fun _ => rfl) hfeed
    | error e t =>
      have hraise : (feed lib cb piece >>= fun _ => forM (pieces.map Prod.snd) (feed lib cb))
          ctx.stream = .error e t := by
        change EStateM.bind _ _ _ = _
        unfold EStateM.bind
        rw [hone]
      cases hraise.symm.trans hfeed

/-- The callbacks of the parser of `chat`. -/
def chatCallbacks (net : Net W) (onContent onReasoning : Option (Bytes → W → W)) :
    StreamCallbacks (Timed W) :=
  ⟨some (timed net onContent), some (timed net onReasoning)⟩

/-- What is made of the chunks, when the transfer has ended well. -/
theorem chatResult_heard (net : Net W) {t : Transfer} {chunks : List ReplyChunk} (calls : CallMap)
    (hcode : t.code = .ok) (hstatus : 200 ≤ t.status ∧ t.status < 300) {ctx : WriteCtx W}
    {told : Timed W}
    (hstream : ctx.stream = (parserBuffer (Timed W)).set [] (heard cb chunks { world := told }))
    (hcalls : Interleaves calls (chunks.flatMap ReplyChunk.fragments)) :
    let behind := chunks.foldl (ReplyChunk.told cb) told
    chatResult net t ctx behind.world =
      (streamedReply t.status chunks calls (spent net behind).1, (spent net behind).2) := by
  intro behind
  have hworld : ctx.stream.world = behind := by
    rw [hstream]
    exact heard_world cb chunks _
  obtain ⟨hcontent, hreasoning, hfinish, hprompt, hcompletion, htotal⟩ :=
    heard_fields cb chunks told
  have htools : ctx.stream.parser.toolCalls = calls.entries.map Prod.snd := by
    rw [hstream]
    show ((heard cb chunks { world := told }).parser.toolByIndex.toList).map Prod.snd = _
    rw [heard_tools, collect_interleaves hcalls]
  unfold chatResult spent
  rw [hcode, hworld]
  dsimp only
  rw [if_pos hstatus, htools, hstream]
  unfold streamedReply
  rw [← hcontent, ← hreasoning, ← hfinish, ← hprompt, ← hcompletion, ← htotal]
  cases behind.firstToken <;> rfl

/-- `chat`, once the pieces have been written. -/
theorem chat_run {net : Net W} {client : ApiClient} {messages : List Message} {tools : Json}
    {onContent onReasoning : Option (Bytes → W → W)} {cancel : Option (CancelFlag W)} {w w₁ : W}
    {post : ChatPost} {t : Transfer} {ctx : WriteCtx W} (hinit : (net.init w).1 = true)
    (hreq : client.request lib messages tools = .ok post)
    (hperform : net.perform post cancel (net.init w).2 = (t, w₁))
    (hwrites : forM t.pieces (writeCb lib (chatCallbacks net onContent onReasoning))
      { stream := { world := { world := w₁ } } } = .ok ⟨⟩ ctx) :
    client.chat lib net messages tools onContent onReasoning cancel w =
      .ok (chatResult net t ctx ctx.stream.world.world).1
        (chatResult net t ctx ctx.stream.world.world).2 := by
  have henclosed : Exec.enclosed (fun w => { stream := { world := { world := w } } })
      (fun ctx : WriteCtx W => ctx.stream.world.world)
      (forM t.pieces (writeCb lib (chatCallbacks net onContent onReasoning))) w₁ =
        .ok (⟨⟩, ctx) ctx.stream.world.world := by
    unfold Exec.enclosed
    rw [hwrites]
  unfold ApiClient.chat
  rw [Exec.modifyGet_bind, if_neg (by simp [hinit]), Exec.ofExcept_bind_ok hreq,
    Exec.modifyGet_bind, hperform]
  exact Exec.bind_of_ok henclosed _

/-- **What a server streams is what `chat` returns.**  Take any chunks, with fragments of tool calls
interleaved in any way, each written as JSON on a line of its own, among lines that say nothing, and
the text cut by the network as it likes: `chat` returns the answer that they make up, and its
callbacks have been told each text in its turn. -/
theorem chat_streamed (floats : FloatText) (net : Net W) (client : ApiClient)
    (messages : List Message) (tools : Json) (onContent onReasoning : Option (Bytes → W → W))
    (cancel : Option (CancelFlag W)) (w : W) (hinit : (net.init w).1 = true) {post : ChatPost}
    (hreq : client.request floats.jsonText messages tools = .ok post) {t : Transfer} {w₁ : W}
    (hperform : net.perform post cancel (net.init w).2 = (t, w₁)) (hcode : t.code = .ok)
    (hstatus : 200 ≤ t.status ∧ t.status < 300) (hpieces : ∀ p ∈ t.pieces, p.1 = t.status)
    {ls : List Bytes} {chunks : List ReplyChunk}
    (hls : List.Forall₂ (Streams floats.jsonText) ls chunks) (hlines : ∀ line ∈ ls, newline ∉ line)
    (hcut : (t.pieces.map Prod.snd).flatten = ls.flatMap (· ++ [newline])) (calls : CallMap)
    (hcalls : Interleaves calls (chunks.flatMap ReplyChunk.fragments)) :
    let told := chunks.foldl (ReplyChunk.told (chatCallbacks net onContent onReasoning))
      { world := w₁ }
    client.chat floats.jsonText net messages tools onContent onReasoning cancel w =
      .ok (streamedReply t.status chunks calls (spent net told).1) (spent net told).2 := by
  intro told
  have hfeed := feedAll_run (chatCallbacks net onContent onReasoning) hls hlines hcut
    ({ world := w₁ } : Timed W)
  obtain ⟨ctx, hwrites, hstream⟩ := writes_run (by omega) hpieces
    { stream := { world := { world := w₁ } } } nofun hfeed
  have hworld : ctx.stream.world = told := by
    rw [hstream]
    exact heard_world _ chunks _
  rw [chat_run hinit hreq hperform hwrites, hworld,
    chatResult_heard net calls hcode hstatus hstream hcalls]

/-- A piece of an error is kept for the message. -/
theorem writeCb_error {status : Int} (hstatus : 400 ≤ status) (piece : Bytes) {ctx : WriteCtx W}
    (hctx : ctx.statusKnown = true → ctx.status = status) :
    writeCb lib cb (status, piece) ctx =
      .ok ⟨⟩ { ctx with
        errorBody := ctx.errorBody ++ piece, status := status, statusKnown := true } := by
  unfold writeCb
  rw [Exec.bind_of_ok (modify_status (by omega) hctx), Exec.bind_of_ok (get_run _),
    if_pos hstatus]
  rfl

theorem writes_error {status : Int} (hstatus : 400 ≤ status) {pieces : List (Int × Bytes)}
    (hpieces : ∀ p ∈ pieces, p.1 = status) (ctx : WriteCtx W)
    (hctx : ctx.statusKnown = true → ctx.status = status) :
    ∃ ctx', forM pieces (writeCb lib cb) ctx = .ok ⟨⟩ ctx' ∧ ctx'.stream = ctx.stream ∧
      ctx'.errorBody = ctx.errorBody ++ (pieces.map Prod.snd).flatten := by
  induction pieces generalizing ctx with
  | nil => exact ⟨ctx, rfl, rfl, (List.append_nil _).symm⟩
  | cons p pieces ih =>
    obtain ⟨hp, hrest⟩ := List.forall_mem_cons.mp hpieces
    obtain ⟨code, piece⟩ := p
    obtain rfl : code = status := hp
    obtain ⟨ctx', hrun, hstream, herror⟩ := ih hrest
      { ctx with errorBody := ctx.errorBody ++ piece, status := code, statusKnown := true }
      fun _ => rfl
    refine ⟨ctx', ?_, hstream, ?_⟩
    · rw [List.forM_cons, Exec.bind_of_ok (writeCb_error hstatus piece hctx), hrun]
    · rw [herror, List.map_cons, List.flatten_cons, List.append_assoc]

/-- **A request that is refused.**  Whatever the body of an error is, and however it is cut: it ends
up whole in the message, nothing of it is parsed, and no callback hears of it. -/
theorem chat_refused (lib : JsonText) (net : Net W) (client : ApiClient) (messages : List Message)
    (tools : Json) (onContent onReasoning : Option (Bytes → W → W)) (cancel : Option (CancelFlag W))
    (w : W) (hinit : (net.init w).1 = true) {post : ChatPost}
    (hreq : client.request lib messages tools = .ok post) {t : Transfer} {w₁ : W}
    (hperform : net.perform post cancel (net.init w).2 = (t, w₁)) (hcode : t.code = .ok)
    (hstatus : 400 ≤ t.status) (hpieces : ∀ p ∈ t.pieces, p.1 = t.status) :
    let body := (t.pieces.map Prod.snd).flatten
    client.chat lib net messages tools onContent onReasoning cancel w =
      .ok { httpStatus := t.status
            error := bytes "HTTP " ++ decimal t.status ++ bytes ": " ++
              if body = [] then bytes "no response body" else body } w₁ := by
  intro body
  obtain ⟨ctx, hwrites, hstream, herror⟩ := @writes_error W lib
    (chatCallbacks net onContent onReasoning) t.status hstatus t.pieces hpieces
    { stream := { world := { world := w₁ } } } nofun
  have hnot : ¬ (200 ≤ t.status ∧ t.status < 300) := by omega
  rw [chat_run hinit hreq hperform hwrites]
  unfold chatResult
  rw [hcode]
  dsimp only
  rw [if_neg hnot, herror, hstream]
  rfl

end Chat

/-- A server that is busy; its answer comes in two pieces. -/
def busyNet : Net Unit :=
  { Net.replying [] with
    perform _ _ w := (⟨[(429, bytes "slow"), (429, bytes " down")], .ok, 429⟩, w) }

theorem chat_refused_busy :
    ApiClient.chat .empty busyNet ⟨{}⟩ [Message.user (bytes "hi") []] (.array []) none none none
      () = .ok { httpStatus := 429, error := bytes "HTTP 429: slow down" } () := by
  have hmessage : (Message.user (bytes "hi") []).Valid := ⟨utf8_bytes _, nofun, nofun, nofun⟩
  obtain ⟨post, hpost⟩ := (ApiClient.request_ok_iff .empty ⟨{}⟩ [Message.user (bytes "hi") []]
    []).mpr ⟨utf8_nil, List.forall_mem_singleton.mpr hmessage, nofun⟩
  have hstatus : 400 ≤ (429 : Int) := by decide
  have hpieces : ∀ p ∈ [((429 : Int), bytes "slow"), (429, bytes " down")], p.1 = 429 := by simp
  exact chat_refused .empty busyNet ⟨{}⟩ _ _ none none none () rfl hpost rfl rfl hstatus hpieces

/-! ## 4. Any answer can be streamed -/

/-- The fields that a chunk has a text for. -/
def textField (key : Bytes) (text : Option Bytes) : List (Bytes × Json) :=
  (text.map fun s => (key, Json.string s)).toList

def ReplyChunk.deltaJson (c : ReplyChunk) : Json :=
  Json.ofFields (textField (bytes "content") c.content ++
    textField (bytes "reasoning_content") c.reasoning ++
    [(bytes "tool_calls", .array (c.fragments.map Fragment.toJson))])

def TokenCounts.toJson (n : TokenCounts) : Json :=
  Json.ofFields [(bytes "prompt_tokens", .integer n.prompt),
    (bytes "completion_tokens", .integer n.completion), (bytes "total_tokens", .integer n.total)]

/-- A chunk that says this and nothing else. -/
def ReplyChunk.toJson (c : ReplyChunk) : Json :=
  Json.ofFields ([(bytes "choices", .array [Json.ofFields
      ((bytes "delta", c.deltaJson) :: textField (bytes "finish_reason") c.finishReason)])] ++
    (c.usage.map fun n => (bytes "usage", n.toJson)).toList)

/-- What can be written. -/
structure ReplyChunk.Valid (c : ReplyChunk) : Prop where
  content : ∀ s, c.content = some s → Utf8 s
  reasoning : ∀ s, c.reasoning = some s → Utf8 s
  finishReason : ∀ s, c.finishReason = some s → Utf8 s
  head : ∀ f ∈ c.fragments, ∀ p, f.head = some p → Utf8 p.1 ∧ Utf8 p.2
  arguments : ∀ f ∈ c.fragments, Utf8 f.arguments
  int : ∀ f ∈ c.fragments, -2 ^ 31 ≤ f.index ∧ f.index < 2 ^ 31
  done : c.done = false

theorem TokenCounts.says_toJson (n : TokenCounts) : SaysUsage (some n.toJson) (some n) := by
  have h1 : bytes "prompt_tokens" ≠ bytes "completion_tokens" := by decide
  have h2 : bytes "prompt_tokens" ≠ bytes "total_tokens" := by decide
  have h3 : bytes "completion_tokens" ≠ bytes "total_tokens" := by decide
  refine ⟨n.toJson, rfl, rfl, ?_, ?_, ?_⟩ <;>
    simp [toJson, Json.find_ofFields, Json.lookup_cons_ite, h1, h2, h3]

/-- A text that is the only field of its name. -/
theorem hasText_ofFields {key : Bytes} {text : Option Bytes} {fields fields' : List (Bytes × Json)}
    (h : ∀ p ∈ fields ++ fields', p.1 ≠ key) :
    (Json.ofFields (fields ++ textField key text ++ fields')).HasText key text := by
  have hnone : ∀ {l : List (Bytes × Json)}, (∀ p ∈ l, p.1 ≠ key) → l.reverse.lookup key = none := by
    intro l hl
    refine List.lookup_eq_none_iff.mpr fun p hp => ?_
    simpa using (hl p (List.mem_reverse.mp hp)).symm
  intro s
  rw [Json.find_ofFields, List.reverse_append, List.reverse_append, List.lookup_append,
    List.lookup_append, hnone fun p hp => h p (List.mem_append_left _ hp),
    hnone fun p hp => h p (List.mem_append_right _ hp)]
  cases text <;> simp [textField]

/-- **A chunk that is written says what it was written for.** -/
theorem ReplyChunk.says_toJson {c : ReplyChunk} (hdone : c.done = false)
    (hint : ∀ f ∈ c.fragments, -2 ^ 31 ≤ f.index ∧ f.index < 2 ^ 31) : Says c.toJson c := by
  have h1 : bytes "content" ≠ bytes "reasoning_content" := by decide
  have h2 : bytes "content" ≠ bytes "tool_calls" := by decide
  have h3 : bytes "reasoning_content" ≠ bytes "tool_calls" := by decide
  have h4 : bytes "delta" ≠ bytes "finish_reason" := by decide
  have h5 : bytes "choices" ≠ bytes "usage" := by decide
  have hmem : ∀ {key : Bytes} {text : Option Bytes} {p : Bytes × Json}, p ∈ textField key text →
      p.1 = key := by
    intro key text p hp
    cases text with
    | none => cases hp
    | some s => rw [List.mem_singleton.mp hp]
  refine ⟨rfl, ?_, ?_, hdone, hint⟩
  · cases husage : c.usage with
    | none =>
      intro u hu
      simp [toJson, Json.find_ofFields, Json.lookup_cons_ite, husage, h5.symm] at hu
    | some n =>
      have hfind : c.toJson.find (bytes "usage") = some n.toJson := by
        simp [toJson, Json.find_ofFields, husage]
      rw [hfind]
      exact n.says_toJson
  · have hchoice : firstChoice c.toJson = some (Json.ofFields
        ((bytes "delta", c.deltaJson) :: textField (bytes "finish_reason") c.finishReason)) := by
      unfold firstChoice toJson
      cases c.usage <;> simp [Json.find_ofFields, Json.lookup_cons_ite, h5]
    rw [hchoice]
    refine @SaysChoice.some _ c.deltaJson c ?_ ?_ ?_ ?_ ?_
    · have hfinish := @hasText_ofFields (bytes "finish_reason") c.finishReason
        [(bytes "delta", c.deltaJson)] [] (List.forall_mem_singleton.mpr h4)
      rwa [List.append_nil] at hfinish
    · refine Option.filter_eq_some_iff.mpr ⟨?_, rfl⟩
      cases c.finishReason <;> simp [textField, Json.find_ofFields, Json.lookup_cons_ite, h4]
    · -- the other keys of the delta do not say content
      have hbehind : ∀ p ∈ textField (bytes "reasoning_content") c.reasoning ++
          [(bytes "tool_calls", Json.array (c.fragments.map Fragment.toJson))],
          p.1 ≠ bytes "content" := by
        intro p hp
        rcases List.mem_append.mp hp with hp | hp
        · rw [hmem hp]
          exact h1.symm
        · rw [List.mem_singleton.mp hp]
          exact h2.symm
      rw [deltaJson, List.append_assoc]
      exact @hasText_ofFields (bytes "content") c.content [] _ hbehind
    · refine hasText_ofFields fun p hp => ?_
      rcases List.mem_append.mp hp with hp | hp
      · rw [hmem hp]
        exact h1
      · rw [List.mem_singleton.mp hp]
        exact h3.symm
    · have hitems : toolCallItems c.deltaJson = c.fragments.map Fragment.toJson := by
        unfold toolCallItems deltaJson
        cases c.content <;> cases c.reasoning <;> simp [textField, Json.find_ofFields]
      rw [hitems, List.forall₂_map_left_iff]
      exact List.forall₂_same.mpr fun f _ => f.carries_toJson

theorem textField_stored {P : Double → Prop} {key : Bytes} {text : Option Bytes} (hkey : Utf8 key)
    (htext : ∀ s, text = some s → Utf8 s) :
    ∀ p ∈ textField key text, Utf8 p.1 ∧ p.2.Stored P := by
  intro p hp
  cases text with
  | none => cases hp
  | some s =>
    rw [List.mem_singleton.mp hp]
    exact ⟨hkey, htext s rfl⟩

theorem int_stored {P : Double → Prop} {n : Int} (h : -2 ^ 31 ≤ n ∧ n < 2 ^ 31) :
    (Json.integer n).Stored P := by
  constructor <;> omega

theorem Fragment.toJson_stored {P : Double → Prop} {f : Fragment}
    (hhead : ∀ p, f.head = some p → Utf8 p.1 ∧ Utf8 p.2) (hargs : Utf8 f.arguments)
    (hint : -2 ^ 31 ≤ f.index ∧ f.index < 2 ^ 31) : f.toJson.Stored P := by
  have hfunction : f.functionJson.Stored P := by
    unfold functionJson
    cases hf : f.head with
    | none => exact Json.stored_ofFields (List.forall_mem_singleton.mpr ⟨utf8_bytes _, hargs⟩)
    | some p =>
      exact Json.stored_ofFields (List.forall_mem_cons.mpr ⟨⟨utf8_bytes _, (hhead p hf).2⟩,
        List.forall_mem_singleton.mpr ⟨utf8_bytes _, hargs⟩⟩)
  have hrest : ∀ p ∈ [(bytes "index", Json.integer f.index), (bytes "function", f.functionJson)],
      Utf8 p.1 ∧ p.2.Stored P :=
    List.forall_mem_cons.mpr ⟨⟨utf8_bytes _, int_stored hint⟩,
      List.forall_mem_singleton.mpr ⟨utf8_bytes _, hfunction⟩⟩
  unfold toJson
  cases hf : f.head with
  | none => exact Json.stored_ofFields hrest
  | some p =>
    exact Json.stored_ofFields (List.forall_mem_cons.mpr ⟨⟨utf8_bytes _, (hhead p hf).1⟩, hrest⟩)

theorem TokenCounts.toJson_stored {P : Double → Prop} (n : TokenCounts) : n.toJson.Stored P := by
  have hint := n.int
  simp only [List.forall_mem_cons] at hint
  exact Json.stored_ofFields (List.forall_mem_cons.mpr ⟨⟨utf8_bytes _, int_stored hint.1⟩,
    List.forall_mem_cons.mpr ⟨⟨utf8_bytes _, int_stored hint.2.1⟩,
      List.forall_mem_singleton.mpr ⟨utf8_bytes _, int_stored hint.2.2.1⟩⟩⟩)

theorem ReplyChunk.toJson_stored {P : Double → Prop} {c : ReplyChunk} (h : c.Valid) :
    c.toJson.Stored P := by
  have hitems : (Json.array (c.fragments.map Fragment.toJson)).Stored P := by
    refine Json.storedItems_iff.mpr fun j hj => ?_
    obtain ⟨f, hf, rfl⟩ := List.mem_map.mp hj
    exact Fragment.toJson_stored (h.head f hf) (h.arguments f hf) (h.int f hf)
  have hdelta : c.deltaJson.Stored P := by
    refine Json.stored_ofFields fun p hp => ?_
    rcases List.mem_append.mp hp with hp | hp
    · rcases List.mem_append.mp hp with hp | hp
      · exact textField_stored (utf8_bytes _) h.content p hp
      · exact textField_stored (utf8_bytes _) h.reasoning p hp
    · rw [List.mem_singleton.mp hp]
      exact ⟨utf8_bytes _, hitems⟩
  have hchoice : (Json.ofFields ((bytes "delta", c.deltaJson) ::
      textField (bytes "finish_reason") c.finishReason)).Stored P :=
    Json.stored_ofFields (List.forall_mem_cons.mpr ⟨⟨utf8_bytes _, hdelta⟩,
      textField_stored (utf8_bytes _) h.finishReason⟩)
  refine Json.stored_ofFields (List.forall_mem_cons.mpr ⟨⟨utf8_bytes _, hchoice, trivial⟩, ?_⟩)
  intro p hp
  obtain ⟨n, -, rfl⟩ := Option.map_eq_some_iff.mp (Option.mem_toList.mp hp)
  exact ⟨utf8_bytes _, n.toJson_stored⟩

/-- The text of an object begins and ends with its braces. -/
theorem dump_trimmed {lib : JsonText} {j : Json} {payload : Bytes} (hobject : j.isObject = true)
    (h : j.dump lib = .ok payload) : Trimmed payload := by
  cases j with
  | object fields =>
    obtain ⟨ts, -, hpayload⟩ := Json.except_bind_eq_ok_iff.mp h
    cases hpayload
    refine ⟨fun x hx => ?_, fun x hx => ?_⟩
    · rw [List.append_assoc] at hx
      cases hx
      rfl
    · rw [List.getLast?_append] at hx
      cases hx
      rfl
  | null | boolean | integer | float | string | array => cases hobject

/-- **Any chunk can be sent on a line.** -/
theorem ReplyChunk.Valid.streams (floats : FloatText) {c : ReplyChunk} (h : c.Valid) :
    ∃ line, Streams floats.jsonText line c ∧ newline ∉ line := by
  have hstored : c.toJson.Stored fun _ => True := c.toJson_stored h
  obtain ⟨payload, hdump⟩ := (Json.dump_ok_iff floats.jsonText _).mpr hstored.validText
  refine ⟨dataLine payload, .chunk (isData_dataLine (dump_trimmed rfl hdump)) hdump hstored
    (c.says_toJson h.done h.int), fun hmem => ?_⟩
  rcases List.mem_append.mp hmem with hmem | hmem
  · revert hmem
    decide
  · exact (Json.dump_printable _ hdump).newline_notMem hmem

/-- Some text, two calls, interleaved, and the counts. -/
def twoCallChunks : List ReplyChunk :=
  [{ reasoning := some (bytes "Hm") }, { content := some (bytes "Two calls.") },
    { fragments := twoStarts },
    { fragments := restOfFirst, finishReason := some (bytes "tool_calls") },
    { usage := some ⟨12, 30, 42, by decide⟩ }]

theorem twoCallChunks_valid : ∀ c ∈ twoCallChunks, c.Valid := by
  intro c hc
  simp only [twoCallChunks, List.mem_cons, List.not_mem_nil, or_false] at hc
  rcases hc with rfl | rfl | rfl | rfl | rfl <;>
    constructor <;> simp [twoStarts, restOfFirst]

/-- Every line in a read of its own. -/
theorem chat_streamed_twoCalls : ∃ (body : List Bytes) (genSeconds : ℚ),
    ApiClient.chat oneAndHalf.jsonText (Net.replying body) ⟨{}⟩ [Message.user (bytes "hi") []]
        (.array []) none none none () =
      .ok (streamedReply 200 twoCallChunks twoCalls genSeconds) () := by
  have hlines : ∀ chunks : List ReplyChunk, (∀ c ∈ chunks, c.Valid) →
      ∃ ls, List.Forall₂ (Streams oneAndHalf.jsonText) ls chunks ∧ ∀ line ∈ ls, newline ∉ line := by
    intro chunks hchunks
    induction chunks with
    | nil => exact ⟨[], .nil, nofun⟩
    | cons c chunks ih =>
      obtain ⟨hc, hrest⟩ := List.forall_mem_cons.mp hchunks
      obtain ⟨line, hline, hnewline⟩ := hc.streams oneAndHalf
      obtain ⟨ls, hls, hnewlines⟩ := ih hrest
      exact ⟨line :: ls, .cons hline hls, List.forall_mem_cons.mpr ⟨hnewline, hnewlines⟩⟩
  obtain ⟨ls, hls, hnewline⟩ := hlines twoCallChunks twoCallChunks_valid
  have hmessage : (Message.user (bytes "hi") []).Valid := ⟨utf8_bytes _, nofun, nofun, nofun⟩
  obtain ⟨post, hpost⟩ := (ApiClient.request_ok_iff oneAndHalf.jsonText ⟨{}⟩
    [Message.user (bytes "hi") []] []).mpr
      ⟨utf8_nil, List.forall_mem_singleton.mpr hmessage, nofun⟩
  have hpieces : ∀ p ∈ (ls.map (· ++ [newline])).map fun p => ((200 : Int), p), p.1 = 200 := by
    simp
  have hcut : (((ls.map (· ++ [newline])).map fun p => ((200 : Int), p)).map Prod.snd).flatten =
      ls.flatMap (· ++ [newline]) := by
    rw [List.map_map, List.flatMap_def]
    simp
  have hstatus : 200 ≤ (200 : Int) ∧ (200 : Int) < 300 := by decide
  exact ⟨ls.map (· ++ [newline]), _, chat_streamed oneAndHalf _ ⟨{}⟩ _ _ none none none () rfl hpost
    rfl rfl hstatus hpieces hls hnewline hcut twoCalls interleaves_twoCalls⟩

end SimpleCoder

/-
# A session over the wire

Both sides write their messages as lines, and neither sees the other's values: only bytes, cut by
the operating system as it likes.  With the library's own parser (`FloatText.jsonText`) the messages
that are read are those that were written (`wire_roundTrip`).

A run of calls, then, gets the answers that the server gives to them, each call its own, whatever
else the server writes before each answer: notifications, requests of its own, answers that come too
late, and lines that are no JSON at all (`calls_answered`).
-/
import SimpleCoder.Json.RoundTrip
import SimpleCoder.Mcp.Framing

namespace SimpleCoder

open StdioTransport (answers awaitReply writeLine)
open McpClient

/-! ## 1. Lines -/

/-- The text of some lines. -/
def linesText (lines : List Bytes) : Bytes := lines.flatMap fun line => line ++ [newline]

theorem messages_linesText (lib : JsonText) {lines : List Bytes} (h : ∀ l ∈ lines, newline ∉ l)
    (rest : Bytes) :
    messages lib (linesText lines ++ rest) = lines.filterMap lib.parse ++ messages lib rest := by
  induction lines with
  | nil => rfl
  | cons line lines ih =>
    obtain ⟨hline, hlines⟩ := List.forall_mem_cons.mp h
    rw [linesText, List.flatMap_cons, List.append_assoc, List.append_assoc, List.singleton_append,
      messages_line lib hline]
    change _ ++ messages lib (linesText lines ++ rest) = _
    rw [ih hlines, List.filterMap_cons]
    cases lib.parse line <;> rfl

/-- Nothing is left behind the last line. -/
theorem messages_lines {lib : JsonText} (hblank : lib.parse [] = none) {lines : List Bytes}
    (h : ∀ l ∈ lines, newline ∉ l) :
    messages lib (linesText lines) = lines.filterMap lib.parse := by
  have hempty : messages lib [] = [] := by
    rw [messages_piece lib List.not_mem_nil, hblank]
    rfl
  have hlines := messages_linesText lib h []
  rwa [List.append_nil, hempty, List.append_nil] at hlines

/-- The line of each message. -/
def Dumped (lib : JsonText) : List Json → List Bytes → Prop :=
  List.Forall₂ fun msg line => msg.dump lib = .ok line

theorem Dumped.newline_notMem {floats : FloatText} {msgs : List Json} {lines : List Bytes}
    (h : Dumped floats.jsonText msgs lines) : ∀ line ∈ lines, newline ∉ line := by
  induction h with
  | nil => exact fun _ h => absurd h List.not_mem_nil
  | cons hdump _ ih =>
    exact List.forall_mem_cons.mpr ⟨(Json.dump_printable _ hdump).newline_notMem, ih⟩

theorem Dumped.parsed {floats : FloatText} {P : Double → Prop} {msgs : List Json}
    {lines : List Bytes} (h : Dumped floats.jsonText msgs lines) (hmsgs : ∀ m ∈ msgs, m.Stored P) :
    lines.filterMap floats.jsonText.parse = msgs.map floats.written := by
  induction h with
  | nil => rfl
  | cons hdump _ ih =>
    obtain ⟨hm, hmsgs⟩ := List.forall_mem_cons.mp hmsgs
    rw [List.filterMap_cons, floats.parse_dump hm hdump, ih hmsgs]
    rfl

theorem FloatText.parse_blank (floats : FloatText) : floats.jsonText.parse [] = none := rfl

/-- **What is written is what is read.**  Any messages, one a line, cut in any way: calls of
`read_line` return them in order, and then the end of the stream. -/
theorem wire_roundTrip (floats : FloatText) {msgs : List Json} {lines : List Bytes}
    (hmsgs : ∀ m ∈ msgs, m.Stored fun _ => True) (hlines : Dumped floats.jsonText msgs lines)
    {cuts : List ReadOutcome} (hcuts : ∀ c ∈ cuts, c.Goes)
    (hstream : cuts.flatMap ReadOutcome.data = linesText lines) (n : Nat) :
    (readLines floats.jsonText (msgs.length + n)
        { reads := cuts ++ List.replicate (n + 1) (.chunk []) }).1 =
      (msgs.map fun m => some (floats.written m)) ++ List.replicate n none := by
  have hread : messages floats.jsonText (linesText lines) = msgs.map floats.written := by
    rw [messages_lines floats.parse_blank hlines.newline_notMem, hlines.parsed hmsgs]
  have hholds : StdioTransport.Holds floats.jsonText n
      { reads := cuts ++ List.replicate (n + 1) (.chunk []) } (msgs.map floats.written) :=
    .inl ⟨n, linesText lines, Nat.le_refl n, hstream ▸ readsGive_cuts hcuts _, hread⟩
  have hlen : msgs.length + n ≤ (msgs.map floats.written).length + n := by
    rw [List.length_map]
  rw [(readLines_holds floats.parse_blank hholds hlen).1, List.map_map, List.take_of_length_le]
  · rfl
  · rw [List.length_append, List.length_map, List.length_replicate]

/-- A value on a line, with a read that is interrupted. -/
theorem wire_roundTrip_sampleValue : ∃ line, sampleValue.dump oneAndHalf.jsonText = .ok line ∧
    (readLines oneAndHalf.jsonText 2
        { reads := [.chunk (linesText [line]), .interrupted, .chunk [], .chunk []] }).1 =
      [some (oneAndHalf.written sampleValue), none] := by
  obtain ⟨line, hline⟩ :=
    (Json.dump_ok_iff oneAndHalf.jsonText sampleValue).mpr sampleValue_stored.validText
  have hgoes : ∀ c ∈ [ReadOutcome.chunk (linesText [line]), .interrupted], c.Goes := by
    intro c hc
    simp only [List.mem_cons, List.not_mem_nil, or_false] at hc
    rcases hc with rfl | rfl
    · simp [ReadOutcome.Goes, linesText]
    · trivial
  exact ⟨line, hline, wire_roundTrip oneAndHalf
    (List.forall_mem_singleton.mpr sampleValue_stored) (.cons hline .nil) hgoes
    (List.append_nil _) 1⟩

/-! ## 2. A request and its answer -/

section

variable {lib : JsonText} (hblank : lib.parse [] = none)

include hblank

/-- **Waiting for a reply**: what answers another request or none is skipped, and nothing behind the
reply is lost. -/
theorem awaitReply_finds {req reply : Json} {n : Nat} {skipped rest : List Json}
    (hskipped : ∀ m ∈ skipped, answers req m = false) (hreply : answers req reply = true)
    {s : StdioTransport} (hholds : s.Holds lib n (skipped ++ reply :: rest)) :
    (awaitReply lib req s).1 = ⟨true, reply, []⟩ ∧ (awaitReply lib req s).2.Holds lib n rest ∧
      (awaitReply lib req s).2.writes = s.writes := by
  induction skipped generalizing s with
  | nil =>
    obtain ⟨hsome, hleft, -, -⟩ := nextMessage_holds_cons hblank hholds
    rcases hnext : s.nextMessage lib with ⟨m, s'⟩
    rw [hnext] at hsome hleft
    cases hsome
    have hwrites : s'.writes = s.writes := congrArg (fun p => p.2.writes) hnext.symm
    unfold awaitReply
    split
    · rename_i h
      rw [hnext] at h
      cases h
    · rename_i h
      rw [hnext] at h
      cases h
      rw [if_pos hreply]
      exact ⟨rfl, hleft, hwrites⟩
  | cons m skipped ih =>
    obtain ⟨hm, hskipped⟩ := List.forall_mem_cons.mp hskipped
    obtain ⟨hsome, hleft, -, -⟩ := nextMessage_holds_cons hblank hholds
    rcases hnext : s.nextMessage lib with ⟨m', s'⟩
    rw [hnext] at hsome hleft
    cases hsome
    have hwrites : s'.writes = s.writes := congrArg (fun p => p.2.writes) hnext.symm
    obtain ⟨hreturned, hrest, hwrites'⟩ := ih hskipped hleft
    unfold awaitReply
    split
    · rename_i h
      rw [hnext] at h
      cases h
    · rename_i h
      rw [hnext] at h
      cases h
      -- it answers another request or none, so the next one is read
      rw [if_neg (by rw [hm]; exact Bool.false_ne_true)]
      exact ⟨hreturned, hrest, hwrites'.trans hwrites⟩

/-- One request over a transport that can write. -/
theorem request_finds {req reply : Json} {n : Nat} {skipped rest : List Json}
    (hvalid : req.ValidText) (hskipped : ∀ m ∈ skipped, answers req m = false)
    (hreply : answers req reply = true) {s : StdioTransport} (hwrites : s.writes = [])
    (hholds : s.Holds lib n (skipped ++ reply :: rest)) :
    ∃ s', StdioTransport.request lib req s = .ok ⟨true, reply, []⟩ s' ∧ s'.Holds lib n rest ∧
      s'.writes = [] := by
  obtain ⟨text, htext⟩ := (Json.dump_ok_iff lib req).mpr hvalid
  have hwrite : writeLine lib req s = .ok true (s.record (.sent req)) := by
    unfold writeLine
    rw [Exec.ofExcept_bind_ok htext]
    change EStateM.Result.ok _ _ = _
    rw [hwrites]
  have hholds' : (s.record (.sent req)).Holds lib n (skipped ++ reply :: rest) := hholds
  obtain ⟨hreturned, hrest, hwrites'⟩ := awaitReply_finds hblank hskipped hreply hholds'
  refine ⟨(awaitReply lib req (s.record (.sent req))).2, ?_, hrest, hwrites'.trans hwrites⟩
  unfold StdioTransport.request
  rw [Exec.bind_of_ok hwrite, if_pos rfl]
  change EStateM.Result.ok _ _ = _
  rw [hreturned]

end

/-! ## 3. A run of calls -/

/-- A call, and what the server writes until it has answered it. -/
structure WireCall where
  tool : Bytes
  args : Json
  /-- Lines before the answer. -/
  chatter : List Bytes
  line : Bytes
  reply : Json
  result : McpCallResult

def WireCall.lines (t : WireCall) : List Bytes := t.chatter ++ [t.line]

/-- The call can be written, and its answer is the first line under its number.  Nothing else is
asked of the lines before. -/
structure WireCall.Answered (lib : JsonText) (id : Int) (t : WireCall) : Prop where
  tool : Utf8 t.tool
  args : t.args.ValidText
  lines : ∀ line ∈ t.lines, newline ∉ line
  chatter : ∀ line ∈ t.chatter, ∀ m ∈ lib.parse line, ¬ CarriesId m id
  parsed : lib.parse t.line = some t.reply
  carries : CarriesId t.reply id
  result : callResult t.reply = .ok t.result

theorem callRequest_validText {tool : Bytes} {args : Json} (htool : Utf8 tool)
    (hargs : args.ValidText) (id : Int) : (callRequest id tool args).ValidText := by
  unfold callRequest
  rw [Json.validText_ofFields_iff (by simp only [List.map]; decide)]
  simp only [List.forall_mem_cons, utf8_bytes, true_and, Json.ValidText, List.not_mem_nil,
    IsEmpty.forall_iff, implies_true, and_true]
  rw [Json.validText_ofFields_iff (by simp only [List.map]; decide)]
  simp only [List.forall_mem_cons, utf8_bytes, true_and, Json.ValidText, List.not_mem_nil,
    IsEmpty.forall_iff, implies_true, and_true]
  refine ⟨htool, ?_⟩
  split
  · trivial
  · exact hargs

section

variable {lib : JsonText} (hblank : lib.parse [] = none)

include hblank

/-- **One call.** -/
theorem call_answered {t : WireCall} {c : McpClient StdioTransport} {n : Nat} {rest : Bytes}
    (h : t.Answered lib (c.id + 1)) (hwrites : c.transport.writes = [])
    (hholds : c.transport.Holds lib n (messages lib (linesText t.lines ++ rest))) :
    ∃ c', call (stdioTransport lib) t.tool t.args c = .ok t.result c' ∧ c'.id = c.id + 1 ∧
      c'.transport.writes = [] ∧ c'.transport.Holds lib n (messages lib rest) := by
  have hreq : (callRequest (c.id + 1) t.tool t.args).find (bytes "id") =
      some (.integer (c.id + 1)) := rfl
  have hmsgs : messages lib (linesText t.lines ++ rest) =
      t.chatter.filterMap lib.parse ++ t.reply :: messages lib rest := by
    rw [messages_linesText lib h.lines, WireCall.lines, List.filterMap_append, List.filterMap_cons,
      h.parsed, List.filterMap_nil, List.append_assoc]
    rfl
  have hskipped : ∀ m ∈ t.chatter.filterMap lib.parse,
      answers (callRequest (c.id + 1) t.tool t.args) m = false := by
    intro m hm
    obtain ⟨line, hline, hparse⟩ := List.mem_filterMap.mp hm
    rw [Bool.eq_false_iff, Ne, answers_iff hreq]
    exact h.chatter line hline m hparse
  rw [hmsgs] at hholds
  obtain ⟨s', hrun, hrest, hwrites'⟩ := request_finds hblank
    (callRequest_validText h.tool h.args (c.id + 1)) hskipped
    ((answers_iff hreq).mpr h.carries) hwrites hholds
  have hon : onTransport ((stdioTransport lib).request (callRequest (c.id + 1) t.tool t.args))
      { c with id := c.id + 1 } =
        .ok ⟨true, t.reply, []⟩ { c with id := c.id + 1, transport := s' } := by
    unfold onTransport Exec.zoom
    dsimp only [stdioTransport]
    rw [hrun]
  refine ⟨{ c with id := c.id + 1, transport := s' }, ?_, rfl, hwrites', hrest⟩
  unfold call nextId
  rw [Exec.modifyGet_bind, Exec.bind_of_ok hon, if_pos rfl]
  dsimp only
  rw [h.result]
  rfl

/-- A run of calls, with the messages still to come. -/
theorem calls_answered_holds (calls : List WireCall) {c : McpClient StdioTransport} {n : Nat}
    {rest : Bytes}
    (h : ∀ (i : Nat) (t : WireCall), calls[i]? = some t → t.Answered lib (c.id + 1 + i))
    (hwrites : c.transport.writes = [])
    (hholds : c.transport.Holds lib n
      (messages lib (linesText (calls.flatMap WireCall.lines) ++ rest))) :
    ∃ c', (calls.mapM fun t => call (stdioTransport lib) t.tool t.args) c =
        .ok (calls.map WireCall.result) c' ∧ c'.id = c.id + calls.length ∧
      c'.transport.Holds lib n (messages lib rest) := by
  induction calls generalizing c with
  | nil => exact ⟨c, rfl, (Int.add_zero _).symm, hholds⟩
  | cons t calls ih =>
    have ht : t.Answered lib (c.id + 1) := by
      have h0 := h 0 t rfl
      rwa [Int.natCast_zero, Int.add_zero] at h0
    rw [List.flatMap_cons, linesText, List.flatMap_append, List.append_assoc] at hholds
    obtain ⟨c₁, hcall, hid, hwrites₁, hrest⟩ := call_answered hblank ht hwrites hholds
    have hnext : ∀ (i : Nat) (t : WireCall), calls[i]? = some t →
        t.Answered lib (c₁.id + 1 + i) := by
      intro i t' hi
      have hsucc := h (i + 1) t' hi
      rwa [show c₁.id + 1 + (i : Int) = c.id + 1 + ((i + 1 : Nat) : Int) by omega]
    obtain ⟨c₂, hcalls, hid₂, hlast⟩ := ih hnext hwrites₁ hrest
    refine ⟨c₂, ?_, by rw [hid₂, hid, List.length_cons]; omega, hlast⟩
    rw [List.mapM_cons, Exec.bind_of_ok hcall, Exec.bind_of_ok hcalls]
    rfl

end

/-- **A run of calls gets the answers of the server**, each call its own.  Whatever the server
writes before each answer, and however its bytes are cut, every call returns what is made of the
line that answers it, and what the server writes behind the last of them is still to be read. -/
theorem calls_answered (lib : JsonText) (hblank : lib.parse [] = none) (calls : List WireCall)
    (name rest : Bytes) (id : Int)
    (h : ∀ (i : Nat) (t : WireCall), calls[i]? = some t → t.Answered lib (id + 1 + i))
    (cuts : List ReadOutcome) (hcuts : ∀ c ∈ cuts, c.Goes)
    (hstream : cuts.flatMap ReadOutcome.data = linesText (calls.flatMap WireCall.lines) ++ rest)
    (n : Nat) :
    let c : McpClient StdioTransport :=
      { openClient name (cuts ++ List.replicate (n + 1) (.chunk [])) [] with id := id }
    ∃ c', (calls.mapM fun t => call (stdioTransport lib) t.tool t.args) c =
        .ok (calls.map WireCall.result) c' ∧ c'.id = id + calls.length ∧
      c'.transport.Holds lib n (messages lib rest) := by
  intro c
  have hreads := readsGive_cuts hcuts (n + 1)
  rw [hstream] at hreads
  exact calls_answered_holds hblank calls (c := c) h rfl (.inl ⟨n, _, Nat.le_refl n, hreads, rfl⟩)

/-- Two calls.  The answer to the first comes behind a line that is no JSON and a notification, that
to the second behind one under the number of the first. -/
def sampleCalls : List WireCall :=
  [{ tool := bytes "a", args := .null,
     chatter := [bytes "starting", bytes "\x7b\"method\":\"log\"\x7d"],
     line := bytes "\x7b\"id\":1,\"result\":\x7b\x7d\x7d",
     reply := .object [(bytes "id", .integer 1), (bytes "result", .object [])],
     result := ⟨true, []⟩ },
   { tool := bytes "b", args := .object [],
     chatter := [bytes "\x7b\"id\":1,\"result\":\x7b\x7d\x7d"],
     line := bytes "\x7b\"error\":\x7b\"message\":\"no\"\x7d,\"id\":2\x7d",
     reply := .object [(bytes "error", .object [(bytes "message", .string (bytes "no"))]),
       (bytes "id", .integer 2)],
     result := ⟨false, bytes "error: no"⟩ }]

theorem sampleCalls_answered : ∀ (i : Nat) (t : WireCall), sampleCalls[i]? = some t →
    t.Answered oneAndHalf.jsonText (0 + 1 + i) := by
  intro i t hi
  match i, hi with
  | 0, rfl =>
    refine ⟨utf8_bytes _, trivial, by decide, fun line hline m hm => ?_, rfl, ⟨_, rfl, rfl⟩, rfl⟩
    rcases List.mem_cons.mp hline with rfl | hline
    · cases hm
    · cases List.mem_singleton.mp hline
      cases hm
      rintro ⟨got, hgot, -⟩
      cases hgot
  | 1, rfl =>
    refine ⟨utf8_bytes _, trivial, by decide, fun line hline m hm => ?_, rfl, ⟨_, rfl, rfl⟩, rfl⟩
    cases List.mem_singleton.mp hline
    cases hm
    rintro ⟨got, hgot, heq⟩
    cases hgot
    cases heq

theorem calls_answered_sampleCalls :
    let stream := linesText (sampleCalls.flatMap WireCall.lines)
    let c : McpClient StdioTransport :=
      { openClient (bytes "s") [.chunk (stream.take 7), .interrupted, .chunk (stream.drop 7),
          .chunk []] [] with id := 0 }
    ∃ c', (sampleCalls.mapM fun t => call (stdioTransport oneAndHalf.jsonText) t.tool t.args) c =
        .ok (sampleCalls.map WireCall.result) c' ∧ c'.id = 2 := by
  intro stream c
  have hcuts : ∀ c ∈ [ReadOutcome.chunk (stream.take 7), .interrupted, .chunk (stream.drop 7)],
      c.Goes := by
    intro c hc
    simp only [List.mem_cons, List.not_mem_nil, or_false] at hc
    rcases hc with rfl | rfl | rfl
    · exact nofun
    · trivial
    · exact nofun
  obtain ⟨c', hcalls, hid, -⟩ := calls_answered oneAndHalf.jsonText rfl sampleCalls (bytes "s") [] 0
    sampleCalls_answered _ hcuts (by
      simp only [List.flatMap_cons, ReadOutcome.data, List.flatMap_nil, List.append_nil,
        List.nil_append, List.take_append_drop, stream]) 0
  exact ⟨c', hcalls, hid⟩

end SimpleCoder

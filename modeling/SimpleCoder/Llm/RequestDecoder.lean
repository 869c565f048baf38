/-
# Reading a request back

`to_json` writes a message in one of several shapes: the content is a string, null or an array of
parts, an empty text is left out of two of them, and the calls of an assistant turn and the call id
of a tool result have fields of their own.  This file has a reader for all of them
(`decodeMessage`), which shows that no two messages are written alike that a server should tell
apart.

* §1: what of a message is for the server (`Message.carried`), and the messages whose fields go
  with their role.
* §2: the reader.
* §3: the shapes are one: which fields there are depends on what there is to carry
  (`Message.toJson_eq`), so the reader is right on each of them (`decodeMessage_toJson`).

`buildChatRequest_carries` is about the whole request.
-/
import SimpleCoder.Llm.ChatRequest

namespace SimpleCoder

/-! ## 1. What a message carries -/

/-- What the server is told of a message: all of it but the names, types and sizes of its images. -/
structure Carried where
  role : Role
  content : Bytes
  toolCalls : List ToolCall
  toolCallId : Bytes
  dataUrls : List Bytes
  deriving DecidableEq

def Message.carried (msg : Message) : Carried :=
  ⟨msg.role, msg.content, msg.toolCalls, msg.toolCallId, msg.images.map ImagePart.dataUrl⟩

/-- What is written of a message: of the calls, the call id and the images, those that go with its
role. -/
def Message.told (msg : Message) : Carried where
  role := msg.role
  content := msg.content
  toolCalls := if msg.role = .assistant then msg.toolCalls else []
  toolCallId := if msg.role = .tool then msg.toolCallId else []
  dataUrls := if msg.role = .user then msg.images.map ImagePart.dataUrl else []

/-- Only assistant turns have calls, only tool results a call id, and only user turns images. -/
structure Message.RoleConsistent (msg : Message) : Prop where
  toolCalls : msg.toolCalls ≠ [] → msg.role = .assistant
  toolCallId : msg.toolCallId ≠ [] → msg.role = .tool
  images : msg.images ≠ [] → msg.role = .user

theorem Message.RoleConsistent.told_eq {msg : Message} (h : msg.RoleConsistent) :
    msg.told = msg.carried := by
  have hcalls : msg.role ≠ .assistant → msg.toolCalls = [] :=
    fun hr => not_not.mp (mt h.toolCalls hr)
  have hid : msg.role ≠ .tool → msg.toolCallId = [] := fun hr => not_not.mp (mt h.toolCallId hr)
  have himages : msg.role ≠ .user → msg.images = [] := fun hr => not_not.mp (mt h.images hr)
  unfold told carried
  congr 1
  · split_ifs with hr
    · rfl
    · rw [hcalls hr]
  · split_ifs with hr
    · rfl
    · rw [hid hr]
  · split_ifs with hr
    · rfl
    · rw [himages hr, List.map_nil]

/-! ## 2. The reader -/

/-- The string under a key. -/
def Json.findString (j : Json) (key : Bytes) : Option Bytes := (j.find key).bind string?

/-- The text of a text part. -/
def partText (part : Json) : Option Bytes := part.findString (bytes "text")

/-- The data of an image part. -/
def partUrl (part : Json) : Option Bytes :=
  (part.find (bytes "image_url")).bind fun image => image.findString (bytes "url")

/-- The text of the content, and the data of its images. -/
def decodeContent : Json → Option (Bytes × List Bytes)
  | .null => some ([], [])
  | .string s => some (s, [])
  | .array parts =>
    some ((parts.filterMap partText).flatten, parts.filterMap partUrl)
  | _ => none

def decodeCall (j : Json) : Option ToolCall := do
  let id ← j.findString (bytes "id")
  let function ← j.find (bytes "function")
  let name ← function.findString (bytes "name")
  let arguments ← function.findString (bytes "arguments")
  some ⟨id, name, arguments⟩

/-- The calls; without the field there are none. -/
def decodeCalls : Option Json → Option (List ToolCall)
  | none => some []
  | some (.array calls) => calls.mapM decodeCall
  | some _ => none

/-- The call id; without the field it is empty. -/
def decodeCallId : Option Json → Option Bytes
  | none => some []
  | some id => id.string?

/-- An element of `messages`. -/
def decodeMessage (j : Json) : Option Carried := do
  let role ← (j.findString (bytes "role")).bind roleFromString
  let content ← (j.find (bytes "content")).bind decodeContent
  let toolCalls ← decodeCalls (j.find (bytes "tool_calls"))
  let toolCallId ← decodeCallId (j.find (bytes "tool_call_id"))
  some ⟨role, content.1, toolCalls, toolCallId, content.2⟩

/-! ## 3. One shape -/

/-- The content as it is written. -/
def Message.contentJson (msg : Message) : Json :=
  if msg.images ≠ [] then toContentParts msg
  else if msg.toolCalls ≠ [] ∧ msg.content = [] then .null
  else .string msg.content

/-- The fields behind the content, of which a message has at most one. -/
def Message.extraFields (msg : Message) : List (Bytes × Json) :=
  if msg.toolCalls ≠ [] then [(bytes "tool_calls", .array (msg.toolCalls.map ToolCall.toJson))]
  else if msg.role = .tool then [(bytes "tool_call_id", .string msg.toolCallId)]
  else []

/-- **One shape for all roles.** -/
theorem Message.toJson_eq {msg : Message} (h : msg.RoleConsistent) :
    msg.toJson = Json.ofFields ([(bytes "role", .string msg.role.toBytes),
      (bytes "content", msg.contentJson)] ++ msg.extraFields) := by
  have hcalls : msg.role ≠ .assistant → msg.toolCalls = [] :=
    fun hr => not_not.mp (mt h.toolCalls hr)
  have himages : msg.role ≠ .user → msg.images = [] := fun hr => not_not.mp (mt h.images hr)
  unfold Message.toJson Message.contentJson Message.extraFields
  simp only [Json.set_ofFields]
  cases hrole : msg.role with
  | system => simp [hcalls (by simp [hrole]), himages (by simp [hrole])]
  | user =>
    rw [hcalls (by simp [hrole])]
    by_cases himg : msg.images = []
    · simp [himg]
    · simp [himg]
  | assistant =>
    rw [himages (by simp [hrole])]
    by_cases hnone : msg.toolCalls = []
    · simp [hnone]
    · simp [hnone]
  | tool => simp [hcalls (by simp [hrole]), himages (by simp [hrole])]

/-- The keys of a message are different. -/
theorem messageKeys_ne :
    bytes "role" ≠ bytes "content" ∧ bytes "role" ≠ bytes "tool_calls" ∧
      bytes "role" ≠ bytes "tool_call_id" ∧ bytes "content" ≠ bytes "tool_calls" ∧
      bytes "content" ≠ bytes "tool_call_id" ∧ bytes "tool_calls" ≠ bytes "tool_call_id" := by
  decide

section

variable {msg : Message}

theorem find_role (h : msg.RoleConsistent) :
    msg.toJson.find (bytes "role") = some (.string msg.role.toBytes) := by
  obtain ⟨hcontent, hcalls, hid, -, -, -⟩ := messageKeys_ne
  rw [Message.toJson_eq h, Json.find_ofFields]
  unfold Message.extraFields
  split_ifs <;> simp [Json.lookup_cons_ite, hcontent, hcalls, hid]

theorem find_content (h : msg.RoleConsistent) :
    msg.toJson.find (bytes "content") = some msg.contentJson := by
  obtain ⟨-, -, -, hcalls, hid, -⟩ := messageKeys_ne
  rw [Message.toJson_eq h, Json.find_ofFields]
  unfold Message.extraFields
  split_ifs <;> simp [Json.lookup_cons_ite, hcalls, hid]

theorem find_toolCalls (h : msg.RoleConsistent) :
    msg.toJson.find (bytes "tool_calls") =
      if msg.toolCalls = [] then none else some (.array (msg.toolCalls.map ToolCall.toJson)) := by
  obtain ⟨-, hrole, -, hcontent, -, hid⟩ := messageKeys_ne
  rw [Message.toJson_eq h, Json.find_ofFields]
  unfold Message.extraFields
  split_ifs <;> simp_all [Json.lookup_cons_ite, hrole.symm, hcontent.symm]

theorem find_toolCallId (h : msg.RoleConsistent) :
    msg.toJson.find (bytes "tool_call_id") =
      if msg.role = .tool then some (.string msg.toolCallId) else none := by
  obtain ⟨-, -, hrole, -, hcontent, hcalls⟩ := messageKeys_ne
  have hexcl : msg.toolCalls ≠ [] → msg.role ≠ .tool := fun hne => by simp [h.toolCalls hne]
  rw [Message.toJson_eq h, Json.find_ofFields]
  unfold Message.extraFields
  split_ifs <;> simp_all [Json.lookup_cons_ite, hrole.symm, hcontent.symm, hcalls.symm]

/-- The part for a text. -/
def textPart (text : Bytes) : Json :=
  Json.ofFields [(bytes "type", .string (bytes "text")), (bytes "text", .string text)]

/-- The part for an image. -/
def imageUrlPart (url : Bytes) : Json :=
  Json.ofFields
    [(bytes "type", .string (bytes "image_url")),
      (bytes "image_url", Json.ofFields [(bytes "url", .string url)])]

theorem toContentParts_eq (msg : Message) :
    toContentParts msg = .array ((if msg.content = [] then [] else [textPart msg.content]) ++
      (msg.images.map ImagePart.dataUrl).map imageUrlPart) := by
  rw [List.map_map]
  rfl

/-- A text part gives its text and no image. -/
theorem textPart_read (text : Bytes) :
    partText (textPart text) = some text ∧ partUrl (textPart text) = none := by
  have himage : bytes "image_url" ≠ bytes "text" ∧ bytes "image_url" ≠ bytes "type" := by decide
  unfold textPart partText partUrl Json.findString
  simp [Json.find_ofFields, Json.lookup_cons_ite, himage.1, himage.2, Json.string?]

/-- An image part gives the data of its image and no text. -/
theorem imageUrlPart_read (url : Bytes) :
    partText (imageUrlPart url) = none ∧ partUrl (imageUrlPart url) = some url := by
  have htext : bytes "text" ≠ bytes "image_url" ∧ bytes "text" ≠ bytes "type" := by decide
  unfold imageUrlPart partText partUrl Json.findString
  simp [Json.find_ofFields, Json.lookup_cons_ite, htext.1, htext.2, Json.string?]

/-- **The parts**: the text if there is one, and the images in order. -/
theorem decodeContent_parts (msg : Message) :
    decodeContent (toContentParts msg) =
      some (msg.content, msg.images.map ImagePart.dataUrl) := by
  rw [toContentParts_eq]
  generalize msg.images.map ImagePart.dataUrl = urls
  have htexts : (urls.map imageUrlPart).filterMap partText = [] := by
    rw [List.filterMap_map, List.filterMap_eq_nil_iff]
    exact fun url _ => (imageUrlPart_read url).1
  have hurls : (urls.map imageUrlPart).filterMap partUrl = urls := by
    rw [List.filterMap_map]
    exact (List.filterMap_congr fun url _ => (imageUrlPart_read url).2).trans List.filterMap_some
  obtain ⟨htext, hnone⟩ := textPart_read msg.content
  unfold decodeContent
  dsimp only
  by_cases hempty : msg.content = []
  · rw [if_pos hempty, hempty, List.nil_append, htexts, hurls]
    rfl
  · rw [if_neg hempty, List.singleton_append, List.filterMap_cons_some htext,
      List.filterMap_cons_none hnone, htexts, hurls, List.flatten_singleton]

/-- **The content**, whichever of the three shapes it has. -/
theorem decodeContent_contentJson (msg : Message) :
    decodeContent msg.contentJson = some (msg.content, msg.images.map ImagePart.dataUrl) := by
  unfold Message.contentJson
  split_ifs with himages hnull
  · exact decodeContent_parts msg
  · rw [not_not.mp himages, hnull.2]
    rfl
  · rw [not_not.mp himages]
    rfl

/-- **A call**: the arguments are the text they are in the message. -/
theorem decodeCall_toJson (tc : ToolCall) : decodeCall tc.toJson = some tc := by
  have hid : bytes "id" ≠ bytes "function" ∧ bytes "id" ≠ bytes "type" := by decide
  have hname : bytes "name" ≠ bytes "arguments" := by decide
  simp [decodeCall, ToolCall.toJson, Json.findString, Json.find_ofFields, Json.lookup_cons_ite,
    Json.string?, hid.1, hid.2, hname]

theorem decodeCalls_toolCalls (h : msg.RoleConsistent) :
    decodeCalls (msg.toJson.find (bytes "tool_calls")) = some msg.toolCalls := by
  have hall : ∀ calls : List ToolCall,
      (calls.map ToolCall.toJson).mapM decodeCall = some calls := by
    intro calls
    induction calls with
    | nil => rfl
    | cons tc calls ih => simp [decodeCall_toJson, ih]
  rw [find_toolCalls h]
  split_ifs with hnone
  · rw [hnone]
    rfl
  · exact hall msg.toolCalls

theorem decodeCallId_toolCallId (h : msg.RoleConsistent) :
    decodeCallId (msg.toJson.find (bytes "tool_call_id")) = some msg.toolCallId := by
  rw [find_toolCallId h]
  split_ifs with htool
  · rfl
  · rw [not_not.mp (mt h.toolCallId htool)]
    rfl

/-- **A message is read back** as what it carries. -/
theorem decodeMessage_toJson (h : msg.RoleConsistent) :
    decodeMessage msg.toJson = some msg.carried := by
  have hrole : (msg.toJson.findString (bytes "role")).bind roleFromString = some msg.role := by
    unfold Json.findString
    rw [find_role h]
    exact roleFromString_toBytes msg.role
  unfold decodeMessage
  rw [hrole, find_content h, decodeCalls_toolCalls h, decodeCallId_toolCallId h]
  simp only [Option.bind_eq_bind, Option.bind_some, decodeContent_contentJson]
  rfl

/-- **What is read of any message** is what goes with its role. -/
theorem decodeMessage_eq_told (msg : Message) : decodeMessage msg.toJson = some msg.told := by
  -- the message without what is not written
  let kept : Message :=
    { role := msg.role
      content := msg.content
      toolCalls := if msg.role = .assistant then msg.toolCalls else []
      toolCallId := if msg.role = .tool then msg.toolCallId else []
      images := if msg.role = .user then msg.images else [] }
  have hkept : kept.RoleConsistent := by
    refine ⟨fun h => ?_, fun h => ?_, fun h => ?_⟩ <;> by_contra hr <;> exact h (if_neg hr)
  have hwritten : msg.toJson = kept.toJson := by
    unfold Message.toJson toContentParts
    cases hr : msg.role <;> simp [kept, hr]
  rw [hwritten, decodeMessage_toJson hkept]
  refine congrArg some ?_
  unfold Message.carried Message.told
  cases hr : msg.role <;> simp [kept, hr]

end

/-! ## 4. The request -/

/-- The messages of a request. -/
theorem buildChatRequest_find_messages (cfg : Config) (messages : List Message) (tools : Json)
    (stream : Bool) :
    (buildChatRequest cfg messages tools stream).find (bytes "messages") =
      some (.array (messages.map Message.toJson)) := by
  have hne : bytes "messages" ≠ bytes "tools" := by decide
  unfold buildChatRequest
  cases stream <;> dsimp only <;> split <;>
    simp [Json.find_ofFields, Json.lookup_cons_ite, hne]

/-- **A request loses nothing of the conversation.**  Its messages are those of the history in
order, each is read back, and so a history with the same messages carries the same. -/
theorem buildChatRequest_carries {messages : List Message}
    (h : ∀ msg ∈ messages, msg.RoleConsistent) (cfg : Config) (tools : Json) (stream : Bool) :
    (∃ items, (buildChatRequest cfg messages tools stream).find (bytes "messages") =
        some (.array items) ∧ items.length = messages.length ∧
          items.map decodeMessage = messages.map fun msg => some msg.carried) ∧
      ∀ (messages' : List Message) (cfg' : Config) (tools' : Json) (stream' : Bool),
        (∀ msg ∈ messages', msg.RoleConsistent) →
          (buildChatRequest cfg messages tools stream).find (bytes "messages") =
            (buildChatRequest cfg' messages' tools' stream').find (bytes "messages") →
          messages.map Message.carried = messages'.map Message.carried := by
  have hread : ∀ {history : List Message}, (∀ msg ∈ history, msg.RoleConsistent) →
      (history.map Message.toJson).map decodeMessage =
        history.map fun msg => some msg.carried := by
    intro history hall
    rw [List.map_map]
    exact List.map_congr_left fun msg hmsg => decodeMessage_toJson (hall msg hmsg)
  refine ⟨⟨_, buildChatRequest_find_messages .., List.length_map .., hread h⟩, ?_⟩
  intro messages' cfg' tools' stream' h' heq
  rw [buildChatRequest_find_messages, buildChatRequest_find_messages] at heq
  have hitems : messages.map Message.toJson = messages'.map Message.toJson :=
    Json.array.inj (Option.some.inj heq)
  have hcarried := congrArg (List.map decodeMessage) hitems
  rw [hread h, hread h'] at hcarried
  refine List.map_injective_iff.mpr (Option.some_injective Carried) ?_
  rw [List.map_map, List.map_map]
  exact hcarried

/-- A turn with an image and no text, its answer that calls a tool and says nothing, and the result:
all three shapes of the content. -/
def describedImage : List Message :=
  [.user [] [⟨bytes "p.png", bytes "image/png", bytes "data:image/png;base64,AAAA", 3⟩],
    { role := .assistant, toolCalls := [⟨bytes "1", bytes "read_file", bytes "{}"⟩] },
    .toolResult (bytes "1") (bytes "a file")]

theorem buildChatRequest_carries_describedImage :
    (∃ items, (buildChatRequest {} describedImage .null true).find (bytes "messages") =
        some (.array items) ∧ items.length = 3 ∧
          items.map decodeMessage = describedImage.map fun msg => some msg.carried) ∧
      ∀ (messages' : List Message) (cfg' : Config) (tools' : Json) (stream' : Bool),
        (∀ msg ∈ messages', msg.RoleConsistent) →
          (buildChatRequest {} describedImage .null true).find (bytes "messages") =
            (buildChatRequest cfg' messages' tools' stream').find (bytes "messages") →
          describedImage.map Message.carried = messages'.map Message.carried := by
  refine buildChatRequest_carries (fun msg hmsg => ?_) {} .null true
  simp only [describedImage, List.mem_cons, List.not_mem_nil, or_false] at hmsg
  rcases hmsg with rfl | rfl | rfl
  · exact ⟨by decide, by decide, fun _ => rfl⟩
  · exact ⟨fun _ => rfl, by decide, by decide⟩
  · exact ⟨by decide, fun _ => rfl, by decide⟩

end SimpleCoder

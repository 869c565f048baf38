/-
# The chat request

`build_chat_request` turns the history into the body of a request.  Every text of the history
ends up in it, so it can be serialised exactly when the texts are valid UTF-8
(`buildChatRequest_validText_iff`); which texts of a message are written depends on its role.
-/
import SimpleCoder.Config
import SimpleCoder.Llm.Message

namespace SimpleCoder

/-! ## 1. Building the body -/

/-- `to_content_parts`. -/
def toContentParts (msg : Message) : Json :=
  let text :=
    if msg.content = [] then []
    else [Json.ofFields
      [(bytes "type", .string (bytes "text")), (bytes "text", .string msg.content)]]
  let images := msg.images.map fun img => Json.ofFields
    [(bytes "type", .string (bytes "image_url")),
      (bytes "image_url", Json.ofFields [(bytes "url", .string img.dataUrl)])]
  .array (text ++ images)

/-- The element of `tool_calls` for one call. -/
def ToolCall.toJson (tc : ToolCall) : Json :=
  Json.ofFields
    [(bytes "id", .string tc.id),
      (bytes "type", .string (bytes "function")),
      (bytes "function", Json.ofFields
        [(bytes "name", .string tc.name), (bytes "arguments", .string tc.arguments)])]

/-- `to_json`. -/
def Message.toJson (msg : Message) : Json :=
  let j := Json.ofFields [(bytes "role", .string msg.role.toBytes)]
  if msg.role = .user ∧ msg.images ≠ [] then j.set (bytes "content") (toContentParts msg)
  else
    match msg.role with
    | .assistant =>
      if msg.toolCalls = [] then j.set (bytes "content") (.string msg.content)
      else
        (j.set (bytes "content") (if msg.content = [] then .null else .string msg.content)).set
          (bytes "tool_calls") (.array (msg.toolCalls.map ToolCall.toJson))
    | .tool =>
      (j.set (bytes "content") (.string msg.content)).set
        (bytes "tool_call_id") (.string msg.toolCallId)
    | .system | .user => j.set (bytes "content") (.string msg.content)

/-- `build_chat_request`. -/
def buildChatRequest (cfg : Config) (messages : List Message) (tools : Json) (stream : Bool) :
    Json :=
  let body := Json.ofFields
    [(bytes "model", .string cfg.model),
      (bytes "stream", .boolean stream),
      (bytes "temperature", .float cfg.temperature)]
  let body :=
    if stream then
      body.set (bytes "stream_options") (Json.ofFields [(bytes "include_usage", .boolean true)])
    else body
  let body := body.set (bytes "messages") (.array (messages.map Message.toJson))
  match tools with
  | .array (t :: ts) => body.set (bytes "tools") (.array (t :: ts))
  | _ => body

/-! ## 2. Which texts are written -/

/-- The texts of a call are valid. -/
structure ToolCall.Valid (tc : ToolCall) : Prop where
  id : Utf8 tc.id
  name : Utf8 tc.name
  arguments : Utf8 tc.arguments

/-- The texts of a message that a request carries are valid: the content, and with it the image
data of a user turn, the calls of an assistant turn, the call id of a tool result. -/
structure Message.Valid (msg : Message) : Prop where
  content : Utf8 msg.content
  images : msg.role = .user → ∀ img ∈ msg.images, Utf8 img.dataUrl
  toolCalls : msg.role = .assistant → ∀ tc ∈ msg.toolCalls, tc.Valid
  toolCallId : msg.role = .tool → Utf8 msg.toolCallId

theorem ToolCall.toJson_validText_iff (tc : ToolCall) : tc.toJson.ValidText ↔ tc.Valid := by
  unfold ToolCall.toJson
  rw [Json.validText_ofFields_iff (by simp only [List.map]; decide)]
  simp only [List.forall_mem_cons, utf8_bytes, true_and, Json.ValidText, List.not_mem_nil,
    IsEmpty.forall_iff, implies_true, and_true]
  rw [Json.validText_ofFields_iff (by simp only [List.map]; decide)]
  simp only [List.forall_mem_cons, utf8_bytes, true_and, Json.ValidText, List.not_mem_nil,
    IsEmpty.forall_iff, implies_true, and_true]
  constructor
  · rintro ⟨hid, hname, harguments⟩
    exact ⟨hid, hname, harguments⟩
  · rintro ⟨hid, hname, harguments⟩
    exact ⟨hid, hname, harguments⟩

theorem toContentParts_validText_iff (msg : Message) :
    (toContentParts msg).ValidText ↔
      Utf8 msg.content ∧ ∀ img ∈ msg.images, Utf8 img.dataUrl := by
  have himg : ∀ img : ImagePart, (Json.ofFields
      [(bytes "type", .string (bytes "image_url")),
        (bytes "image_url", Json.ofFields [(bytes "url", .string img.dataUrl)])]).ValidText ↔
      Utf8 img.dataUrl := by
    intro img
    rw [Json.validText_ofFields_iff (by simp only [List.map]; decide)]
    simp [Json.ofFields, Json.insertField, Json.ValidText, Json.ValidFields]
  have htext : (Json.ofFields
      [(bytes "type", .string (bytes "text")), (bytes "text", .string msg.content)]).ValidText ↔
      Utf8 msg.content := by
    rw [Json.validText_ofFields_iff (by simp only [List.map]; decide)]
    simp [Json.ValidText]
  unfold toContentParts
  rw [Json.ValidText, Json.validItems_iff]
  simp only [List.forall_mem_append, List.forall_mem_map, himg]
  refine and_congr_left fun _ => ?_
  split
  · rename_i h
    simp [h]
  · simp [htext]

theorem Role.utf8_toBytes (r : Role) : Utf8 r.toBytes := by cases r <;> exact utf8_bytes _

/-- An assistant turn: its calls count, its images and its call id do not. -/
theorem Message.valid_assistant {msg : Message} (h : msg.role = .assistant) :
    msg.Valid ↔ Utf8 msg.content ∧ ∀ tc ∈ msg.toolCalls, tc.Valid :=
  ⟨fun hv => ⟨hv.content, hv.toolCalls h⟩,
    fun hv => ⟨hv.1, by simp [h], fun _ => hv.2, by simp [h]⟩⟩

theorem Message.valid_tool {msg : Message} (h : msg.role = .tool) :
    msg.Valid ↔ Utf8 msg.content ∧ Utf8 msg.toolCallId :=
  ⟨fun hv => ⟨hv.content, hv.toolCallId h⟩,
    fun hv => ⟨hv.1, by simp [h], by simp [h], fun _ => hv.2⟩⟩

theorem Message.valid_system {msg : Message} (h : msg.role = .system) :
    msg.Valid ↔ Utf8 msg.content :=
  ⟨fun hv => hv.content, fun hv => ⟨hv, by simp [h], by simp [h], by simp [h]⟩⟩

theorem Message.valid_user {msg : Message} (h : msg.role = .user) :
    msg.Valid ↔ Utf8 msg.content ∧ ∀ img ∈ msg.images, Utf8 img.dataUrl :=
  ⟨fun hv => ⟨hv.content, hv.images h⟩,
    fun hv => ⟨hv.1, fun _ => hv.2, by simp [h], by simp [h]⟩⟩

/-- **A message can be written out exactly when its texts are valid.** -/
theorem Message.toJson_validText_iff (msg : Message) : msg.toJson.ValidText ↔ msg.Valid := by
  unfold Message.toJson
  simp only [Json.set_ofFields, List.cons_append, List.nil_append]
  split
  · rename_i h
    rw [Json.validText_ofFields_iff (by simp only [List.map]; decide), valid_user h.1]
    simp [Role.utf8_toBytes, Json.ValidText, toContentParts_validText_iff]
  rename_i himg
  split
  · rename_i hr
    rw [valid_assistant hr]
    split
    · rename_i hc
      rw [Json.validText_ofFields_iff (by simp only [List.map]; decide)]
      simp [hc, Role.utf8_toBytes, Json.ValidText]
    · have hcontent : (if msg.content = [] then Json.null else .string msg.content).ValidText ↔
          Utf8 msg.content := by
        split
        · rename_i h
          simp [h, Json.ValidText]
        · rfl
      rw [Json.validText_ofFields_iff (by simp only [List.map]; decide)]
      simp [Role.utf8_toBytes, hcontent, Json.ValidText, Json.validItems_iff,
        ToolCall.toJson_validText_iff]
  · rename_i hr
    rw [Json.validText_ofFields_iff (by simp only [List.map]; decide), valid_tool hr]
    simp [Role.utf8_toBytes, Json.ValidText]
  · rename_i hr
    rw [Json.validText_ofFields_iff (by simp only [List.map]; decide), valid_system hr]
    simp [Role.utf8_toBytes, Json.ValidText]
  · rename_i hr
    have hnone : msg.images = [] := by
      by_contra hne
      exact himg ⟨hr, hne⟩
    rw [Json.validText_ofFields_iff (by simp only [List.map]; decide), valid_user hr]
    simp [Role.utf8_toBytes, Json.ValidText, hnone]

/-- **A request can be written out exactly when the model's name, the messages and the tool
schemas are valid text.** -/
theorem buildChatRequest_validText_iff (cfg : Config) (messages : List Message) (tools : List Json)
    (stream : Bool) :
    (buildChatRequest cfg messages (.array tools) stream).ValidText ↔
      Utf8 cfg.model ∧ (∀ msg ∈ messages, msg.Valid) ∧ ∀ t ∈ tools, t.ValidText := by
  have hopts : (Json.ofFields [(bytes "include_usage", .boolean true)]).ValidText := by
    rw [Json.validText_ofFields_iff (by simp only [List.map]; decide)]
    simp [Json.ValidText]
  unfold buildChatRequest
  cases stream <;> cases tools <;>
    simp only [Json.set_ofFields, List.cons_append, List.nil_append, if_true,
      Bool.false_eq_true, if_false] <;>
    rw [Json.validText_ofFields_iff (by simp only [List.map]; decide)] <;>
    simp [Json.ValidText, Json.validItems_iff, Message.toJson_validText_iff, hopts]

/-- The model a request names. -/
theorem buildChatRequest_model (cfg : Config) (messages : List Message) (tools : Json)
    (stream : Bool) :
    (buildChatRequest cfg messages tools stream).find (bytes "model") =
      some (.string cfg.model) := by
  have hne : bytes "model" ≠ bytes "stream_options" ∧ bytes "model" ≠ bytes "messages" ∧
      bytes "model" ≠ bytes "tools" ∧ bytes "model" ≠ bytes "temperature" ∧
      bytes "model" ≠ bytes "stream" := by decide
  obtain ⟨h1, h2, h3, h4, h5⟩ := hne
  unfold buildChatRequest
  cases stream <;> dsimp only <;> split <;>
    simp [Json.find_ofFields, Json.lookup_cons_ite, h1, h2, h3, h4, h5]

end SimpleCoder

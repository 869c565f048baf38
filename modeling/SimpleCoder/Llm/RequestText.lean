/-
# What a server reads

`chat` posts the text of a request.  A server that parses it finds every message of the history in
it, the model and the tools, however the texts are escaped: no part of a conversation is lost on
its way through bytes.

§1: the request holds nothing that the library does not write as it is, but for the floating-point
number of the temperature.  §2 is the round trip (`request_read`), of any history; in those of an
agent every message has only what goes with its role (`IsRequest.roleConsistent`).
-/
import SimpleCoder.Agent.Protocol
import SimpleCoder.Json.RoundTrip
import SimpleCoder.Llm.RequestDecoder
import SimpleCoder.Llm.ValidText

namespace SimpleCoder

/-! ## 1. What is in a request -/

section

variable {P : Double → Prop}

theorem Json.storedItems_iff {items : List Json} :
    Json.StoredItems P items ↔ ∀ j ∈ items, j.Stored P := by
  induction items with
  | nil => simp [Json.StoredItems]
  | cons j items ih => simp [Json.StoredItems, ih]

theorem ToolCall.toJson_stored {tc : ToolCall} (h : tc.Valid) : tc.toJson.Stored P := by
  have hfunction : (Json.ofFields [(bytes "name", .string tc.name),
      (bytes "arguments", .string tc.arguments)]).Stored P := by
    refine Json.stored_ofFields ?_
    simp only [List.forall_mem_cons, utf8_bytes, true_and, List.not_mem_nil, IsEmpty.forall_iff,
      implies_true, and_true]
    exact ⟨h.name, h.arguments⟩
  refine Json.stored_ofFields ?_
  simp only [List.forall_mem_cons, utf8_bytes, true_and, List.not_mem_nil, IsEmpty.forall_iff,
    implies_true, and_true]
  exact ⟨h.id, utf8_bytes _, hfunction⟩

theorem toContentParts_stored {msg : Message} (hcontent : Utf8 msg.content)
    (himages : ∀ img ∈ msg.images, Utf8 img.dataUrl) : (toContentParts msg).Stored P := by
  unfold toContentParts
  refine Json.storedItems_iff.mpr fun j hj => ?_
  rcases List.mem_append.mp hj with hj | hj
  · split at hj
    · cases hj
    · rw [List.mem_singleton.mp hj]
      refine Json.stored_ofFields ?_
      simp only [List.forall_mem_cons, utf8_bytes, true_and, List.not_mem_nil, IsEmpty.forall_iff,
        implies_true, and_true]
      exact ⟨utf8_bytes _, hcontent⟩
  · obtain ⟨img, himg, rfl⟩ := List.mem_map.mp hj
    refine Json.stored_ofFields ?_
    simp only [List.forall_mem_cons, utf8_bytes, true_and, List.not_mem_nil, IsEmpty.forall_iff,
      implies_true, and_true]
    refine ⟨utf8_bytes _, Json.stored_ofFields ?_⟩
    exact List.forall_mem_singleton.mpr ⟨utf8_bytes _, himages img himg⟩

theorem Message.toJson_stored {msg : Message} (h : msg.Valid) : msg.toJson.Stored P := by
  have hrole : Utf8 (bytes "role") ∧ (Json.string msg.role.toBytes).Stored P :=
    ⟨utf8_bytes _, Role.utf8_toBytes msg.role⟩
  unfold Message.toJson
  simp only [Json.set_ofFields, List.cons_append, List.nil_append]
  split
  · rename_i himg
    refine Json.stored_ofFields (List.forall_mem_cons.mpr ⟨hrole, List.forall_mem_singleton.mpr ?_⟩)
    exact ⟨utf8_bytes _, toContentParts_stored h.content (h.images himg.1)⟩
  have hcontent : Utf8 (bytes "content") ∧ (Json.string msg.content).Stored P :=
    ⟨utf8_bytes _, h.content⟩
  split
  · rename_i hassistant
    split
    · exact Json.stored_ofFields
        (List.forall_mem_cons.mpr ⟨hrole, List.forall_mem_singleton.mpr hcontent⟩)
    · refine Json.stored_ofFields (List.forall_mem_cons.mpr ⟨hrole, List.forall_mem_cons.mpr
        ⟨⟨utf8_bytes _, ?_⟩, List.forall_mem_singleton.mpr ⟨utf8_bytes _, ?_⟩⟩⟩)
      · dsimp only
        split
        · trivial
        · exact h.content
      · refine Json.storedItems_iff.mpr fun j hj => ?_
        obtain ⟨tc, htc, rfl⟩ := List.mem_map.mp hj
        exact ToolCall.toJson_stored (h.toolCalls hassistant tc htc)
  · rename_i htool
    exact Json.stored_ofFields (List.forall_mem_cons.mpr ⟨hrole, List.forall_mem_cons.mpr
      ⟨hcontent, List.forall_mem_singleton.mpr ⟨utf8_bytes _, h.toolCallId htool⟩⟩⟩)
  · exact Json.stored_ofFields
      (List.forall_mem_cons.mpr ⟨hrole, List.forall_mem_singleton.mpr hcontent⟩)
  · exact Json.stored_ofFields
      (List.forall_mem_cons.mpr ⟨hrole, List.forall_mem_singleton.mpr hcontent⟩)

end

/-- Whatever is in the request is stored as the library writes it. -/
theorem buildChatRequest_stored {cfg : Config} {messages : List Message} {tools : List Json}
    (hmodel : Utf8 cfg.model) (hmessages : ∀ msg ∈ messages, msg.Valid)
    (htools : ∀ t ∈ tools, t.Stored fun _ => True) (stream : Bool) :
    (buildChatRequest cfg messages (.array tools) stream).Stored fun _ => True := by
  have hitems : (Json.array (messages.map Message.toJson)).Stored fun _ => True := by
    refine Json.storedItems_iff.mpr fun j hj => ?_
    obtain ⟨msg, hmsg, rfl⟩ := List.mem_map.mp hj
    exact Message.toJson_stored (hmessages msg hmsg)
  have hopts : (Json.ofFields [(bytes "include_usage", .boolean true)]).Stored fun _ => True :=
    Json.stored_ofFields (List.forall_mem_singleton.mpr ⟨utf8_bytes _, trivial⟩)
  have htools' : (Json.array tools).Stored fun _ => True := Json.storedItems_iff.mpr htools
  unfold buildChatRequest
  cases stream <;> cases tools <;>
    simp only [Json.set_ofFields, List.cons_append, List.nil_append, if_true, Bool.false_eq_true,
      if_false] <;>
    refine Json.stored_ofFields ?_ <;>
    simp only [List.forall_mem_cons, utf8_bytes, true_and, List.not_mem_nil, IsEmpty.forall_iff,
      implies_true, and_true]
  · exact ⟨hmodel, trivial, trivial, hitems⟩
  · exact ⟨hmodel, trivial, trivial, hitems, htools'⟩
  · exact ⟨hmodel, trivial, trivial, hopts, hitems⟩
  · exact ⟨hmodel, trivial, trivial, hopts, hitems, htools'⟩

/-! ## 2. The round trip -/

namespace FloatText

variable (floats : FloatText)

theorem writtenItems_eq_map (items : List Json) :
    floats.writtenItems items = items.map floats.written := by
  induction items with
  | nil => rfl
  | cons j items ih => rw [writtenItems, ih, List.map_cons]

theorem lookup_writtenFields (key : Bytes) (fields : List (Bytes × Json)) :
    (floats.writtenFields fields).lookup key = (fields.lookup key).map floats.written := by
  induction fields with
  | nil => rfl
  | cons p fields ih =>
    obtain ⟨k, j⟩ := p
    rw [writtenFields, Json.lookup_cons_ite, Json.lookup_cons_ite, ih]
    split <;> rfl

/-- What is found in a value that was written and read is what was there, written and read. -/
theorem find_written (j : Json) (key : Bytes) :
    (floats.written j).find key = (j.find key).map floats.written := by
  cases j with
  | object fields =>
    rw [written]
    exact floats.lookup_writtenFields key fields
  | float d => cases d <;> rfl
  | _ => rfl

end FloatText

theorem buildChatRequest_find_tools (cfg : Config) (messages : List Message) (tools : List Json)
    (stream : Bool) :
    (buildChatRequest cfg messages (.array tools) stream).find (bytes "tools") =
      if tools = [] then none else some (.array tools) := by
  have h1 : bytes "tools" ≠ bytes "messages" := by decide
  have h2 : bytes "tools" ≠ bytes "stream_options" := by decide
  have h3 : bytes "tools" ≠ bytes "temperature" := by decide
  have h4 : bytes "tools" ≠ bytes "stream" := by decide
  have h5 : bytes "tools" ≠ bytes "model" := by decide
  unfold buildChatRequest
  cases stream <;> cases tools <;>
    simp [Json.find_ofFields, Json.lookup_cons_ite, h1, h2, h3, h4, h5]

theorem IsGroup.roleConsistent {group : List Message} (h : IsGroup group) :
    ∀ msg ∈ group, msg.RoleConsistent := by
  obtain ⟨content, -, -⟩ := h
  refine List.forall_mem_cons.mpr ⟨⟨fun _ => rfl, by simp [toolRequest], by simp [toolRequest]⟩,
    fun msg hmsg => ?_⟩
  rw [← List.map_uncurry_zip_eq_zipWith] at hmsg
  obtain ⟨⟨call, output⟩, -, rfl⟩ := List.mem_map.mp hmsg
  exact ⟨by simp [Message.toolResult], fun _ => rfl, by simp [Message.toolResult]⟩

theorem roleConsistent_of_groups {groups : List (List Message)} (h : ∀ g ∈ groups, IsGroup g) :
    ∀ msg ∈ groups.flatten, msg.RoleConsistent := by
  intro msg hmsg
  obtain ⟨g, hg, hmem⟩ := List.mem_flatten.mp hmsg
  exact (h g hg).roleConsistent msg hmem

theorem Message.user_roleConsistent (text : Bytes) (images : List ImagePart) :
    (Message.user text images).RoleConsistent :=
  ⟨by simp [Message.user], by simp [Message.user], fun _ => rfl⟩

theorem IsConversation.roleConsistent {history : List Message} (h : IsConversation history) :
    ∀ msg ∈ history, msg.RoleConsistent := by
  obtain ⟨prompt, summary, hturns⟩ := h
  rw [List.forall_mem_append, List.forall_mem_append]
  refine ⟨⟨fun msg hmsg => ?_, fun msg hmsg => ?_⟩, fun msg hmsg => ?_⟩
  · obtain ⟨text, -, rfl⟩ := Option.map_eq_some_iff.mp (Option.mem_toList.mp hmsg)
    exact ⟨by simp [Message.system], by simp [Message.system], by simp [Message.system]⟩
  · obtain ⟨text, -, rfl⟩ := Option.map_eq_some_iff.mp (Option.mem_toList.mp hmsg)
    exact ⟨by simp [Agent.summaryMessage, Message.system],
      by simp [Agent.summaryMessage, Message.system],
      by simp [Agent.summaryMessage, Message.system]⟩
  · obtain ⟨turn, hturn, hmem⟩ := List.mem_flatten.mp hmsg
    obtain ⟨text, images, answer, hgroups⟩ := hturns turn hturn
    rcases List.mem_cons.mp hmem with rfl | hmem
    · exact Message.user_roleConsistent text images
    rcases List.mem_append.mp hmem with hmem | hmem
    · exact roleConsistent_of_groups hgroups msg hmem
    · rw [List.mem_singleton.mp hmem]
      exact ⟨by simp [Message.assistant], by simp [Message.assistant], by simp [Message.assistant]⟩

/-- **The histories that an agent hands to a round** have nothing that is not written. -/
theorem IsRequest.roleConsistent {history : List Message} (h : IsRequest history) :
    ∀ msg ∈ history, msg.RoleConsistent := by
  obtain ⟨text, images, hhistory, hgroups⟩ := h
  rw [List.forall_mem_append, List.forall_mem_cons]
  exact ⟨hhistory.roleConsistent, Message.user_roleConsistent text images,
    roleConsistent_of_groups hgroups⟩

/-- **A request is read as it was meant.**  Whatever request `chat` posts, a server that parses its
body finds the model, each message of the history with what goes with its role, and each tool in it;
and that is all that the messages of an agent's history have. -/
theorem ApiClient.request_read (floats : FloatText) (client : ApiClient) {messages : List Message}
    {tools : List Json}
    (htools : ∀ t ∈ tools, t.Stored fun _ => True) {post : ChatPost}
    (h : client.request floats.jsonText messages (.array tools) = .ok post) :
    ∃ j, floats.jsonText.parse post.body = some j ∧
      j.find (bytes "model") = some (.string client.cfg.model) ∧
      (∃ items, j.find (bytes "messages") = some (.array items) ∧
        items.map decodeMessage = messages.map fun msg => some msg.told) ∧
      j.find (bytes "tools") =
        (if tools = [] then none else some (.array (tools.map floats.written))) ∧
      (IsRequest messages → messages.map Message.told = messages.map Message.carried) := by
  obtain ⟨text, htext, hpost⟩ := Json.except_bind_eq_ok_iff.mp h
  cases hpost
  obtain ⟨hmodel, hmessages, -⟩ := (buildChatRequest_validText_iff client.cfg messages tools
    true).mp ((Json.dump_ok_iff floats.jsonText _).mp ⟨text, htext⟩)
  have hparse := floats.parse_dump (buildChatRequest_stored hmodel hmessages htools true) htext
  refine ⟨_, hparse, ?_, ⟨messages.map Message.toJson, ?_, ?_⟩, ?_, fun hrequest => ?_⟩
  · rw [floats.find_written, buildChatRequest_model]
    rfl
  · -- there are no floating-point numbers in the messages
    have hwritten : floats.writtenItems (messages.map Message.toJson) =
        messages.map Message.toJson := by
      refine floats.writtenItems_of_read (Json.storedItems_iff.mpr fun j hj => ?_)
      obtain ⟨msg, hmsg, rfl⟩ := List.mem_map.mp hj
      exact Message.toJson_stored (hmessages msg hmsg)
    rw [floats.find_written, buildChatRequest_find_messages, Option.map_some,
      FloatText.written, hwritten]
  · rw [List.map_map]
    exact List.map_congr_left fun msg _ => decodeMessage_eq_told msg
  · rw [floats.find_written, buildChatRequest_find_tools]
    split
    · rfl
    · rw [Option.map_some, FloatText.written, floats.writtenItems_eq_map]
  · exact List.map_congr_left fun msg hmsg => (hrequest.roleConsistent msg hmsg).told_eq

/-- A history with all three shapes of the content, and a tool. -/
theorem request_read_describedImage :
    let client : ApiClient := ⟨{ temperature := .finite (3 / 2) }⟩
    let tool : Json := .object [(bytes "type", .string (bytes "function"))]
    ∃ post j, client.request oneAndHalf.jsonText describedImage (.array [tool]) = .ok post ∧
      oneAndHalf.jsonText.parse post.body = some j ∧
      (∃ items, j.find (bytes "messages") = some (.array items) ∧
        items.map decodeMessage = describedImage.map fun msg => some msg.carried) ∧
      j.find (bytes "tools") = some (.array [tool]) := by
  intro client tool
  have hrequest : IsRequest describedImage :=
    @IsRequest.mk [] [] _ [_] (@IsConversation.mk none none [] (by simp)) <|
      List.forall_mem_singleton.mpr <|
        @IsGroup.mk [] [⟨bytes "1", bytes "read_file", bytes "{}"⟩] [bytes "a file"] (by simp) rfl
  have hvalid : ∀ msg ∈ describedImage, msg.Valid := by
    intro msg hmsg
    simp only [describedImage, List.mem_cons, List.not_mem_nil, or_false] at hmsg
    rcases hmsg with rfl | rfl | rfl
    · refine ⟨utf8_nil, fun _ => List.forall_mem_singleton.mpr (utf8_bytes _), ?_, ?_⟩ <;>
        rintro ⟨⟩
    · refine ⟨utf8_nil, by rintro ⟨⟩, fun _ => List.forall_mem_singleton.mpr ?_, by rintro ⟨⟩⟩
      exact ⟨utf8_bytes _, utf8_bytes _, utf8_bytes _⟩
    · exact ⟨utf8_bytes _, by rintro ⟨⟩, by rintro ⟨⟩, fun _ => utf8_bytes _⟩
  have htool : tool.Stored fun _ => True :=
    ⟨utf8_bytes _, utf8_bytes _, List.forall_mem_nil _, trivial⟩
  obtain ⟨post, hpost⟩ := (ApiClient.request_ok_iff oneAndHalf.jsonText client describedImage
    [tool]).mpr ⟨utf8_nil, hvalid, List.forall_mem_singleton.mpr htool.validText⟩
  obtain ⟨j, hparse, -, ⟨items, hitems, hread⟩, htools, htold⟩ :=
    ApiClient.request_read oneAndHalf client (List.forall_mem_singleton.mpr htool) hpost
  have hcarried := congrArg (List.map some) (htold hrequest)
  rw [List.map_map, List.map_map] at hcarried
  exact ⟨post, j, hpost, hparse, ⟨items, hitems, hread.trans hcarried⟩, htools⟩

end SimpleCoder

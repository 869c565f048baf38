/-
# Messages

The conversation is a list of messages with the OpenAI chat roles.
-/
import SimpleCoder.Json

namespace SimpleCoder

inductive Role where
  | system
  | user
  | assistant
  | tool
  deriving DecidableEq, Repr

/-- `to_string(Role)`. -/
def Role.toBytes : Role → Bytes
  | .system => bytes "system"
  | .user => bytes "user"
  | .assistant => bytes "assistant"
  | .tool => bytes "tool"

/-- `role_from_string`. -/
def roleFromString (s : Bytes) : Option Role :=
  if s = bytes "system" then some .system
  else if s = bytes "user" then some .user
  else if s = bytes "assistant" then some .assistant
  else if s = bytes "tool" then some .tool
  else none

theorem roleFromString_toBytes (role : Role) : roleFromString role.toBytes = some role := by
  cases role <;> decide

/-- A tool invocation the assistant asks for; `arguments` is the raw text the model produced. -/
structure ToolCall where
  id : Bytes := []
  name : Bytes := []
  arguments : Bytes := []
  deriving DecidableEq

/-- An image attached to a user turn. -/
structure ImagePart where
  name : Bytes
  mediaType : Bytes
  dataUrl : Bytes
  bytes : Nat := 0
  deriving DecidableEq

/-- One message of the history. -/
structure Message where
  role : Role := .user
  content : Bytes := []
  toolCalls : List ToolCall := []
  toolCallId : Bytes := []
  images : List ImagePart := []
  deriving DecidableEq

namespace Message

def system (text : Bytes) : Message := { role := .system, content := text }

def user (text : Bytes) (images : List ImagePart) : Message :=
  { role := .user, content := text, images := images }

def assistant (text : Bytes) : Message := { role := .assistant, content := text }

/-- A tool result answering the call with the given id. -/
def toolResult (callId text : Bytes) : Message :=
  { role := .tool, content := text, toolCallId := callId }

end Message

end SimpleCoder

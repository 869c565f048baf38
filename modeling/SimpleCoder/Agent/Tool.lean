/-
# Tools

A tool is what the model can invoke by name.  Everything a tool does to the outside (files,
processes, the network) and everything it finds there is a change of the world `W`, which stays
abstract here; a tool may also raise.
-/
import SimpleCoder.Json

namespace SimpleCoder

/-- Outcome of running a tool; `output` is what the model is told. -/
structure ToolResult where
  ok : Bool := true
  output : Bytes := []
  deriving DecidableEq

/-- `Tool`: the virtual members, each in the world it runs in. -/
structure Tool (W : Type) where
  name : Bytes
  schema : Json
  requiresConfirmation : Bool
  confirmDetails : Json → EStateM Exn W Bytes
  execute : Json → EStateM Exn W ToolResult

/-- Neither member of the tool raises. -/
def Tool.Total {W : Type} (t : Tool W) : Prop :=
  ∀ args w, Exec.Returns (t.confirmDetails args) w ∧ Exec.Returns (t.execute args) w

end SimpleCoder

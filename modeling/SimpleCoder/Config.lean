/-
# The configuration

The settings a session runs with, at the defaults of `Config.hpp`.
-/
import SimpleCoder.Json

namespace SimpleCoder

/-- `Config`. -/
structure Config where
  baseUrl : Bytes := []
  model : Bytes := []
  apiKey : Bytes := []
  temperature : Double := .finite (7 / 10)
  systemPrompt : Bytes := []
  /-- 0: detect it from the server. -/
  contextSize : Int := 0
  autoCompact : Bool := true
  autoCompactThreshold : Double := .finite (85 / 100)
  maxImageBytes : Nat := 10 * 1024 * 1024
  maxToolIterations : Int := 50
  allowWeb : Bool := false
  searchUrl : Bytes := []
  searchApiKey : Bytes := []
  searchBackend : Bytes := bytes "searxng"
  mcpConfig : Bytes := []
  allowRules : List Bytes := []
  denyRules : List Bytes := []

end SimpleCoder

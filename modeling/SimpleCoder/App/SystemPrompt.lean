/-
# Prompts

The texts that `/init` and `/compact` send to the model, and what `/init` does to the reply before
it becomes `AGENTS.md`.
-/
import SimpleCoder.Lib.Lines
import SimpleCoder.Llm.ChatResponse

namespace SimpleCoder

/-! ## 1. What is sent -/

/-- `initPrompt`. -/
def initPrompt (fileListing : Bytes) : Bytes :=
  bytes "Generate the contents of an AGENTS.md file for this project. It will be " ++
    bytes "used as system-prompt guidance for an AI coding assistant working in " ++
    bytes "this repository. Cover, concisely: what the project is, how to " ++
    bytes "build/test/run it, and important conventions or constraints. Output ONLY " ++
    bytes "the markdown contents, with no preamble and no surrounding code fences.\n\n" ++
    bytes "Project files:\n" ++ fileListing

/-- `compactPrompt`. -/
def compactPrompt : Bytes :=
  bytes "Summarize our conversation so far so the summary can replace the full " ++
    bytes "history as your working context for continuing. Capture, concisely but " ++
    bytes "completely: the user's goals and constraints, key facts and decisions, " ++
    bytes "important file paths and any code changes made, and any open or pending " ++
    bytes "tasks. Write it as notes to yourself for resuming the work. Output ONLY " ++
    bytes "the summary, with no preamble and no surrounding code fences."

/-! ## 2. The reply, unwrapped -/

def codeFence : Bytes := bytes "```"

/-- The text up to its last newline, with the newline; nothing if there is none. -/
def throughLastNewline (s : Bytes) : Bytes := (s.reverse.dropWhile (· ≠ newline)).reverse

/-- Drop a closing fence, and what is before it on its line. -/
def dropClosingFence (inner : Bytes) : Bytes :=
  let text := (inner.reverse.dropWhile isSpace).reverse
  if 3 ≤ text.length ∧ text.drop (text.length - 3) = codeFence then
    -- the search for the line starts at `e - 3`, which wraps around for a fence at the very start:
    -- it then starts at the end, behind the fence
    if text.length = 3 then throughLastNewline inner
    else throughLastNewline (text.take (text.length - 3))
  else inner

/-- `stripCodeFence`. -/
def stripCodeFence (s : Bytes) : Bytes :=
  let body := s.dropWhile isSpace
  if body.take 3 ≠ codeFence then s
  else
    match Lines.takeLine newline body with
    | none => s
    | some (_, inner) => dropClosingFence inner

theorem stripCodeFence_nil : stripCodeFence [] = [] := rfl

example : stripCodeFence (bytes "```markdown\n# Title\nbody\n```") = bytes "# Title\nbody\n" := by
  decide

end SimpleCoder

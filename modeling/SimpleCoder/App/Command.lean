/-
# Slash commands

What `parse_command` makes of a line, and the words it knows.
-/
import SimpleCoder.Util.Text
import SimpleCoder.Llm.ApiClient

namespace SimpleCoder

open Text

/-- `CommandKind`. -/
inductive CommandKind where
  | none
  | help
  | clear
  | retry
  | model
  | init
  | compact
  | skill
  | quit
  | unknown
  deriving DecidableEq, Repr

/-- `Command`. -/
structure Command where
  kind : CommandKind := .none
  arg : Bytes := []
  deriving DecidableEq

/-- The command that a word stands for. -/
def CommandKind.ofWord (word : Bytes) : CommandKind :=
  if word = bytes "help" ∨ word = bytes "?" then .help
  else if word = bytes "clear" then .clear
  else if word = bytes "retry" then .retry
  else if word = bytes "model" then .model
  else if word = bytes "init" then .init
  else if word = bytes "compact" then .compact
  else if word = bytes "skill" ∨ word = bytes "skills" then .skill
  else if word = bytes "quit" ∨ word = bytes "exit" then .quit
  else .unknown

/-- What is kept of a command line: the rest of it for `/model` and `/skill`, the word itself if it
is unknown. -/
def CommandKind.argOf (word rest : Bytes) : CommandKind → Bytes
  | .model | .skill => rest
  | .unknown => word
  | _ => []

/-- The line without its slash: the word, up to the first space or tab, and what follows. -/
def commandOf (s : Bytes) : Command :=
  let word := lower (s.takeWhile fun c => !isBlank c)
  let rest := Text.trim (s.dropWhile fun c => !isBlank c)
  ⟨.ofWord word, (CommandKind.ofWord word).argOf word rest⟩

/-- `parse_command`. -/
def parseCommand (line : Bytes) : Command :=
  let s := Text.trim line
  if s.head? = some slash then commandOf s.tail else ⟨.none, s⟩

/-- Trimming a line that starts with a slash only drops its end. -/
theorem trim_slash (s : Bytes) : Text.trim (slash :: s) = slash :: s.rdropWhile isspace := by
  unfold Text.trim
  rw [dropWhile_eq_self (by simp only [List.head?_cons, Option.some.injEq]; rintro _ rfl; decide)]
  induction s using List.reverseRecOn with
  | nil => decide
  | append_singleton s x ih =>
    rw [← List.cons_append]
    by_cases hx : isspace x = true
    · rw [List.rdropWhile_concat_pos _ _ _ hx, List.rdropWhile_concat_pos _ _ _ hx, ih]
    · rw [List.rdropWhile_concat_neg _ _ _ hx, List.rdropWhile_concat_neg _ _ _ hx]
      rfl

/-- A line with a slash is read as what follows the slash, without blanks at its end. -/
theorem parseCommand_slash (s : Bytes) :
    parseCommand (slash :: s) = commandOf (s.rdropWhile isspace) := by
  unfold parseCommand
  rw [trim_slash]
  rfl

section

variable {word tail : Bytes}

/-- A text that starts with one word is split behind it. -/
theorem takeWhile_word (hword : ∀ c ∈ word, isBlank c = false)
    (htail : ∀ c, tail.head? = some c → isBlank c = true) :
    (word ++ tail).takeWhile (fun c => !isBlank c) = word := by
  rw [List.takeWhile_append_of_pos (by simpa using hword)]
  cases tail with
  | nil => simp
  | cons c tail => simp [htail c rfl]

theorem dropWhile_word (hword : ∀ c ∈ word, isBlank c = false)
    (htail : ∀ c, tail.head? = some c → isBlank c = true) :
    (word ++ tail).dropWhile (fun c => !isBlank c) = tail := by
  rw [List.dropWhile_append_of_pos (by simpa using hword)]
  exact dropWhile_eq_self (by simpa using htail)

theorem commandOf_word (hword : ∀ c ∈ word, isBlank c = false)
    (htail : ∀ c, tail.head? = some c → isBlank c = true) :
    commandOf (word ++ tail) = ⟨.ofWord (lower word),
      (CommandKind.ofWord (lower word)).argOf (lower word) (Text.trim tail)⟩ := by
  unfold commandOf
  rw [takeWhile_word hword htail, dropWhile_word hword htail]

end

example : parseCommand (bytes "  /Model   llama3  ") = ⟨.model, bytes "llama3"⟩ := by decide

end SimpleCoder

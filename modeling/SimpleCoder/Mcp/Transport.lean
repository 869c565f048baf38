/-
# The transport to an MCP server

A server is a child process that speaks JSON-RPC, one value a line, over its standard input and
output.  The client is synchronous: `request` writes a line and then reads lines until it sees one
that carries the id of the request.  What it reads ahead stays in a buffer for the next request.

What the operating system answers to each `poll` and `read`, and to each line written, is settled
beforehand as a list (`reads`, `writes`), so that a request which returns at all does so for a
finite list.  The log records what passes the transport; nothing reads it.
-/
import SimpleCoder.Json
import SimpleCoder.Lib.Lines

namespace SimpleCoder

/-! ## 1. The seam -/

/-- Result of one round trip: `ok` is false only on a failure of the transport, while an error
object of the server is a response. -/
structure RpcResult where
  ok : Bool := false
  response : Json := .null
  error : Bytes := []

/-- `Transport`: the two members, over the state `T` of the channel. -/
structure Transport (T : Type) where
  request : Json → EStateM Exn T RpcResult
  notify : Json → EStateM Exn T Bool

/-! ## 2. A child process -/

/-- What one turn of `read_line`'s loop gets from `poll` and `read`. -/
inductive ReadOutcome where
  | timedOut
  | pollFailed (error : Bytes)
  | readFailed (error : Bytes)
  /-- Either of them was interrupted (`EINTR`). -/
  | interrupted
  /-- Some bytes, none at the end of the stream. -/
  | chunk (data : Bytes)

/-- What an outcome leaves to read: its bytes, and one for itself. -/
def ReadOutcome.size : ReadOutcome → Nat
  | .chunk data => data.length + 1
  | _ => 1

/-- What passes the transport, in order. -/
inductive WireEvent where
  /-- A line was written. -/
  | sent (msg : Json)
  /-- `read_line` returned a message. -/
  | received (msg : Json)
  /-- `request(req)` returned this message. -/
  | returned (req msg : Json)

structure StdioTransport where
  buf : Bytes := []
  lastError : Bytes := []
  reads : List ReadOutcome := []
  /-- Whether the next lines can be written; all that follow can. -/
  writes : List Bool := []
  log : List WireEvent := []

def timeoutError : Bytes := bytes "mcp: timed out waiting for the server"

def closedError : Bytes := bytes "mcp: server closed the connection"

/-- The first message among the lines the buffer completes, and the rest of the buffer.  Lines that
are not JSON are skipped.  The count is the number of lines. -/
def takeMessage (lib : JsonText) : Nat → Bytes → Option Json × Bytes
  | 0, buf => (none, buf)
  | n + 1, buf =>
    match Lines.takeLine newline buf with
    | none => (none, buf)
    | some (line, rest) =>
      match lib.parse line with
      | none => takeMessage lib n rest
      | some j => (some j, rest)

/-- What `read_line` returns and leaves: a message or none, the buffer, the outcomes to come, and
the error it sets. -/
structure Reading where
  message : Option Json
  buf : Bytes
  reads : List ReadOutcome
  error : Option Bytes := none

/-- `read_line`. -/
def StdioTransport.readLine (lib : JsonText) (buf : Bytes) (reads : List ReadOutcome) : Reading :=
  match takeMessage lib (buf.count newline) buf with
  | (some j, rest) => ⟨some j, rest, reads, none⟩
  | (none, rest) =>
    match reads with
    | [] => ⟨none, rest, [], some timeoutError⟩
    | .timedOut :: reads => ⟨none, rest, reads, some timeoutError⟩
    | .pollFailed e :: reads => ⟨none, rest, reads, some (bytes "mcp: poll failed: " ++ e)⟩
    | .readFailed e :: reads => ⟨none, rest, reads, some (bytes "mcp: read failed: " ++ e)⟩
    | .interrupted :: reads => readLine lib rest reads
    | .chunk [] :: reads =>
      -- the end of the stream: what is left in the buffer is the last line
      ⟨if rest = [] then none else lib.parse rest, [], reads, none⟩
    | .chunk (b :: data) :: reads => readLine lib (rest ++ b :: data) reads

namespace StdioTransport

def record (e : WireEvent) (s : StdioTransport) : StdioTransport := { s with log := s.log ++ [e] }

/-- `write_line`.  The line is `msg.dump()` and a newline; partial and interrupted writes are
continued, so it is written whole or an error is reported. -/
def writeLine (lib : JsonText) (msg : Json) : EStateM Exn StdioTransport Bool := do
  let _ ← Exec.ofExcept (msg.dump lib)
  modifyGet fun s =>
    match s.writes with
    | [] => (true, s.record (.sent msg))
    | true :: writes => (true, { s with writes := writes }.record (.sent msg))
    | false :: writes => (false, { s with writes := writes })

/-- One call of `read_line`. -/
def nextMessage (lib : JsonText) (s : StdioTransport) : Option Json × StdioTransport :=
  let r := readLine lib s.buf s.reads
  (r.message,
    { s with
      buf := r.buf
      reads := r.reads
      lastError := r.error.getD s.lastError
      log := s.log ++ (r.message.map WireEvent.received).toList })

/-- The bytes and outcomes that are left to read. -/
def left (buf : Bytes) (reads : List ReadOutcome) : Nat :=
  buf.length + (reads.map ReadOutcome.size).sum

end StdioTransport

/-! ## 3. A message uses something up -/

open StdioTransport (left readLine)

theorem takeMessage_length (lib : JsonText) :
    ∀ (n : Nat) (buf : Bytes), (takeMessage lib n buf).2.length ≤ buf.length ∧
      ((takeMessage lib n buf).1 ≠ none → (takeMessage lib n buf).2.length < buf.length)
  | 0, buf => ⟨Nat.le_refl _, fun h => absurd rfl h⟩
  | n + 1, buf => by
    rw [takeMessage]
    cases hline : Lines.takeLine newline buf with
    | none => exact ⟨Nat.le_refl _, fun h => absurd rfl h⟩
    | some p =>
      obtain ⟨line, rest⟩ := p
      obtain ⟨-, rfl⟩ := Lines.takeLine_eq_some_iff.mp hline
      have hlt : rest.length < (line ++ newline :: rest).length := by
        rw [List.length_append, List.length_cons]
        omega
      dsimp only
      cases lib.parse line with
      | some j => exact ⟨hlt.le, fun _ => hlt⟩
      | none =>
        obtain ⟨hle, -⟩ := takeMessage_length lib n rest
        exact ⟨hle.trans hlt.le, fun _ => hle.trans_lt hlt⟩

/-- A message that is there already is read from the buffer alone. -/
theorem readLine_found {lib : JsonText} {buf rest : Bytes} {j : Json}
    (h : takeMessage lib (buf.count newline) buf = (some j, rest)) (reads : List ReadOutcome) :
    left (readLine lib buf reads).buf (readLine lib buf reads).reads < left buf reads := by
  have hlt := (takeMessage_length lib (buf.count newline) buf).2
  rw [h] at hlt
  have hrest : rest.length < buf.length := hlt (Option.some_ne_none j)
  cases reads with
  | nil =>
    rw [readLine, h]
    simpa [left] using hrest
  | cons outcome reads =>
    rw [readLine, h]
    simp only [left]
    omega

/-- **A message that is read was among what was left.** -/
theorem readLine_left (lib : JsonText) (buf : Bytes) (reads : List ReadOutcome) :
    (readLine lib buf reads).message ≠ none →
      left (readLine lib buf reads).buf (readLine lib buf reads).reads < left buf reads := by
  induction reads generalizing buf with
  | nil =>
    rcases hmsg : takeMessage lib (buf.count newline) buf with ⟨_ | j, rest⟩
    · rw [readLine, hmsg]
      intro h
      exact absurd rfl h
    · exact fun _ => readLine_found hmsg []
  | cons outcome reads ih =>
    rcases hmsg : takeMessage lib (buf.count newline) buf with ⟨_ | j, rest⟩
    · have hle := (takeMessage_length lib (buf.count newline) buf).1
      rw [readLine, hmsg]
      rw [hmsg] at hle
      dsimp only at hle ⊢
      rcases outcome with - | e | e | - | data
      · intro h
        exact absurd rfl h
      · intro h
        exact absurd rfl h
      · intro h
        exact absurd rfl h
      · intro h
        have hrec := ih rest h
        simp only [left, List.map_cons, List.sum_cons, ReadOutcome.size] at hrec ⊢
        omega
      · rcases data with - | ⟨b, data⟩
        · intro _
          simp only [left, List.map_cons, List.sum_cons, ReadOutcome.size, List.length_nil]
          omega
        · intro h
          have hrec := ih (rest ++ b :: data) h
          simp only [left, List.map_cons, List.sum_cons, ReadOutcome.size, List.length_append,
            List.length_cons] at hrec ⊢
          omega
    · exact fun _ => readLine_found hmsg (outcome :: reads)

namespace StdioTransport

/-! ## 4. Requests -/

/-- Whether a message is the one `request` waits for: any message, or one with the same id. -/
def answers (req msg : Json) : Bool :=
  match req.find (bytes "id") with
  | none => true
  | some want =>
    match msg.find (bytes "id") with
    | none => false
    | some got => got.eq want

theorem nextMessage_left {lib : JsonText} {s s' : StdioTransport} {m : Json}
    (h : s.nextMessage lib = (some m, s')) : left s'.buf s'.reads < left s.buf s.reads := by
  obtain ⟨hm, rfl⟩ := Prod.mk.inj h
  exact readLine_left lib s.buf s.reads (by rw [hm]; exact Option.some_ne_none m)

/-- The loop of `request`: skip notifications and responses to other ids, and return the match. -/
def awaitReply (lib : JsonText) (req : Json) (s : StdioTransport) : RpcResult × StdioTransport :=
  match _h : s.nextMessage lib with
  | (none, s') =>
    (⟨false, .null, if s'.lastError = [] then closedError else s'.lastError⟩, s')
  | (some m, s') =>
    if answers req m then (⟨true, m, []⟩, s'.record (.returned req m)) else awaitReply lib req s'
termination_by left s.buf s.reads
decreasing_by exact nextMessage_left _h

/-- `request`. -/
def request (lib : JsonText) (req : Json) : EStateM Exn StdioTransport RpcResult := do
  if ← writeLine lib req then
    modifyGet (awaitReply lib req)
  else
    return ⟨false, .null, bytes "mcp: write to server failed"⟩

end StdioTransport

/-- `StdioTransport`, behind the seam. -/
def stdioTransport (lib : JsonText) : Transport StdioTransport where
  request := StdioTransport.request lib
  notify := StdioTransport.writeLine lib

end SimpleCoder

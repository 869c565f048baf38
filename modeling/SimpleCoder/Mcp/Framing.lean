/-
# Messages and the boundaries of reads

A server writes one message a line, and the operating system hands the bytes over in pieces of its
own choosing.  What `read_line` has not used stays in the buffer, for the next call and for the next
request.  The messages of a stream are those of its lines that parse, and of what follows the last
line break.

`Left` is the invariant: which messages are still to come, whatever part of them is in the buffer
and in the reads ahead.  One call takes the first of them (`nextMessage_left_eq`); so do any number
of calls, by themselves or in requests (`framing_independent`).
-/
import SimpleCoder.Mcp.Matching

namespace SimpleCoder

open StdioTransport (awaitReply nextMessage readLine writeLine)

/-! ## 1. The messages of a stream -/

/-- The messages of a stream: its pieces between the line breaks that parse. -/
def messages (lib : JsonText) (stream : Bytes) : List Json :=
  (stream.splitOn newline).filterMap lib.parse

theorem messages_line (lib : JsonText) {line : Bytes} (h : newline ∉ line) (rest : Bytes) :
    messages lib (line ++ newline :: rest) = (lib.parse line).toList ++ messages lib rest := by
  unfold messages
  rw [List.splitOn_append_cons_self_of_not_mem h, List.filterMap_cons]
  cases lib.parse line <;> rfl

/-- A stream without a line break is one piece. -/
theorem messages_piece (lib : JsonText) {piece : Bytes} (h : newline ∉ piece) :
    messages lib piece = (lib.parse piece).toList := by
  unfold messages
  rw [List.splitOn_eq_singleton h, List.filterMap_cons]
  cases lib.parse piece <;> rfl

/-- **What the buffer gives**: the first message of its lines, and the rest of it. -/
theorem takeMessage_messages (lib : JsonText) (n : Nat) (buf ahead : Bytes)
    (hn : buf.count newline ≤ n) :
    messages lib (buf ++ ahead) = (takeMessage lib n buf).1.toList ++
        messages lib ((takeMessage lib n buf).2 ++ ahead) ∧
      ((takeMessage lib n buf).1 = none → newline ∉ (takeMessage lib n buf).2) := by
  induction n generalizing buf with
  | zero =>
    refine ⟨rfl, fun _ => ?_⟩
    exact List.count_eq_zero.mp (Nat.le_zero.mp hn)
  | succ n ih =>
    rw [takeMessage]
    cases hline : Lines.takeLine newline buf with
    | none => exact ⟨rfl, fun _ => Lines.takeLine_eq_none_iff.mp hline⟩
    | some p =>
      obtain ⟨line, rest⟩ := p
      obtain ⟨hnot, rfl⟩ := Lines.takeLine_eq_some_iff.mp hline
      dsimp only
      rw [List.append_assoc, List.cons_append, messages_line lib hnot]
      cases lib.parse line with
      | some j =>
        refine ⟨rfl, fun hnone => ?_⟩
        cases hnone
      | none =>
        rw [List.count_append, List.count_cons_self] at hn
        exact ih rest (by omega)

/-! ## 2. The reads ahead -/

/-- The reads give the bytes, in pieces and with interruptions, and then report the end of the
stream so many times. -/
inductive ReadsGive : Nat → List ReadOutcome → Bytes → Prop where
  | nothing : ReadsGive 0 [] []
  | ended {n : Nat} {reads : List ReadOutcome} :
      ReadsGive n reads [] → ReadsGive (n + 1) (.chunk [] :: reads) []
  | interrupted {n : Nat} {reads : List ReadOutcome} {stream : Bytes} :
      ReadsGive n reads stream → ReadsGive n (.interrupted :: reads) stream
  | piece {n : Nat} {reads : List ReadOutcome} {stream : Bytes} (b : UInt8) (data : Bytes) :
      ReadsGive n reads stream → ReadsGive n (.chunk (b :: data) :: reads) (b :: data ++ stream)

/-- The messages still to come, with at least so many ends of the stream reported after them: the
end is still ahead of what is to be read, or it has been reached and the buffer is empty. -/
def Left (lib : JsonText) (n : Nat) (buf : Bytes) (reads : List ReadOutcome) (msgs : List Json) :
    Prop :=
  (∃ k stream, n ≤ k ∧ ReadsGive (k + 1) reads stream ∧ messages lib (buf ++ stream) = msgs) ∨
    buf = [] ∧ msgs = [] ∧ ∃ k, n ≤ k ∧ ReadsGive k reads []

theorem readLine_of_some {lib : JsonText} {buf rest : Bytes} {j : Json}
    (h : takeMessage lib (buf.count newline) buf = (some j, rest)) (reads : List ReadOutcome) :
    readLine lib buf reads = ⟨some j, rest, reads, none⟩ := by
  cases reads <;> rw [readLine, h]

section Call

variable {lib : JsonText} (hblank : lib.parse [] = none)

include hblank

/-- **One call, the end of the stream being ahead.** -/
theorem readLine_readsGive {k : Nat} {reads : List ReadOutcome} {stream : Bytes}
    (h : ReadsGive (k + 1) reads stream) (buf : Bytes) :
    (readLine lib buf reads).error = none ∧
      ((∃ j stream', (readLine lib buf reads).message = some j ∧
          ReadsGive (k + 1) (readLine lib buf reads).reads stream' ∧
          messages lib (buf ++ stream) =
            j :: messages lib ((readLine lib buf reads).buf ++ stream')) ∨
        (readLine lib buf reads).buf = [] ∧ ReadsGive k (readLine lib buf reads).reads [] ∧
          messages lib (buf ++ stream) = (readLine lib buf reads).message.toList) := by
  induction reads generalizing buf stream with
  | nil => cases h
  | cons outcome reads ih =>
    -- the pieces read before may hold a message already
    rcases hmsg : takeMessage lib (buf.count newline) buf with ⟨_ | j, rest⟩
    · have htake := fun ahead => takeMessage_messages lib _ buf ahead (Nat.le_refl _)
      rw [hmsg] at htake
      have hrest : newline ∉ rest := (htake []).2 rfl
      have hsame : ∀ ahead, messages lib (buf ++ ahead) = messages lib (rest ++ ahead) :=
        fun ahead => (htake ahead).1
      rw [readLine, hmsg]
      cases h with
      | ended h =>
        -- at the end of the stream what is left is one line more
        refine ⟨rfl, Or.inr ⟨rfl, h, ?_⟩⟩
        rw [hsame, List.append_nil, messages_piece lib hrest]
        dsimp only
        split
        · rename_i hempty
          rw [hempty, hblank]
        · rfl
      | interrupted h =>
        rw [hsame]
        exact ih h rest
      | piece b data h =>
        rw [hsame, ← List.append_assoc]
        exact ih h (rest ++ b :: data)
    · have htake := takeMessage_messages lib _ buf stream (Nat.le_refl _)
      rw [hmsg] at htake
      rw [readLine_of_some hmsg]
      exact ⟨rfl, Or.inl ⟨j, stream, rfl, h, htake.1⟩⟩

/-- A call while there are messages to come returns the first of them. -/
theorem readLine_left_cons {n : Nat} {buf : Bytes} {reads : List ReadOutcome} {m : Json}
    {msgs : List Json} (h : Left lib n buf reads (m :: msgs)) :
    (readLine lib buf reads).message = some m ∧ (readLine lib buf reads).error = none ∧
      Left lib n (readLine lib buf reads).buf (readLine lib buf reads).reads msgs := by
  rcases h with ⟨k, stream, hk, hgive, hmsgs⟩ | ⟨-, hmsgs, -⟩
  · obtain ⟨herror, ⟨j, stream', hj, hgive', heq⟩ | ⟨hbuf, hgive', heq⟩⟩ :=
      readLine_readsGive hblank hgive buf
    · obtain ⟨rfl, rfl⟩ := List.cons.inj (hmsgs.symm.trans heq)
      exact ⟨hj, herror, Or.inl ⟨k, stream', hk, hgive', rfl⟩⟩
    · rw [hmsgs] at heq
      cases hmessage : (readLine lib buf reads).message with
      | none =>
        rw [hmessage] at heq
        cases heq
      | some j =>
        rw [hmessage] at heq
        obtain ⟨rfl, rfl⟩ := List.cons.inj heq
        exact ⟨rfl, herror, Or.inr ⟨hbuf, rfl, k, hk, hgive'⟩⟩
  · cases hmsgs

/-- A call when there are none left returns none, and it is the end of the stream. -/
theorem readLine_left_nil {n : Nat} {buf : Bytes} {reads : List ReadOutcome}
    (h : Left lib (n + 1) buf reads []) :
    (readLine lib buf reads).message = none ∧ (readLine lib buf reads).error = none ∧
      Left lib n (readLine lib buf reads).buf (readLine lib buf reads).reads [] := by
  obtain ⟨k, stream, hk, hgive, hmsgs⟩ : ∃ k stream, n ≤ k ∧ ReadsGive (k + 1) reads stream ∧
      messages lib (buf ++ stream) = [] := by
    rcases h with ⟨k, stream, hk, hgive, hmsgs⟩ | ⟨hbuf, -, k, hk, hgive⟩
    · exact ⟨k, stream, by omega, hgive, hmsgs⟩
    · obtain ⟨k, rfl⟩ : ∃ k', k = k' + 1 := ⟨k - 1, by omega⟩
      refine ⟨k, [], by omega, hgive, ?_⟩
      rw [hbuf, List.append_nil, messages_piece lib List.not_mem_nil, hblank]
      rfl
  obtain ⟨herror, ⟨j, stream', -, -, heq⟩ | ⟨hbuf, hgive', heq⟩⟩ :=
    readLine_readsGive hblank hgive buf
  · rw [hmsgs] at heq
    cases heq
  · rw [hmsgs] at heq
    exact ⟨Option.toList_eq_nil_iff.mp heq.symm, herror, Or.inr ⟨hbuf, rfl, k, hk, hgive'⟩⟩

end Call

theorem Left.mono {lib : JsonText} {n n' : Nat} {buf : Bytes} {reads : List ReadOutcome}
    {msgs : List Json} (h : Left lib n' buf reads msgs) (hle : n ≤ n') :
    Left lib n buf reads msgs := by
  rcases h with ⟨k, stream, hk, hgive, hmsgs⟩ | ⟨hbuf, hmsgs, k, hk, hgive⟩
  · exact Or.inl ⟨k, stream, hle.trans hk, hgive, hmsgs⟩
  · exact Or.inr ⟨hbuf, hmsgs, k, hle.trans hk, hgive⟩

/-! ## 3. Successive calls -/

/-- What so many successive calls of `read_line` return, and the transport they leave. -/
def readLines (lib : JsonText) : Nat → StdioTransport → List (Option Json) × StdioTransport
  | 0, s => ([], s)
  | k + 1, s =>
    let later := readLines lib k (s.nextMessage lib).2
    ((s.nextMessage lib).1 :: later.1, later.2)

/-- The transport still has the messages to come. -/
def StdioTransport.Holds (lib : JsonText) (n : Nat) (s : StdioTransport) (msgs : List Json) :
    Prop :=
  Left lib n s.buf s.reads msgs

/-- The messages that were read, in order. -/
def received (log : List WireEvent) : List Json :=
  log.filterMap fun e => match e with
    | .received m => some m
    | _ => none

/-- From the first transport to the second, the first of the messages to come have been read, and
the others are still to come. -/
def Takes (lib : JsonText) (n : Nat) (msgs : List Json) (s s' : StdioTransport) : Prop :=
  ∃ taken rest, msgs = taken ++ rest ∧ s'.Holds lib n rest ∧ s'.lastError = s.lastError ∧
    received s'.log = received s.log ++ taken

section Calls

variable {lib : JsonText} (hblank : lib.parse [] = none)

include hblank

/-- **One call** takes the first message to come, if there is one. -/
theorem nextMessage_holds_cons {n : Nat} {s : StdioTransport} {m : Json} {msgs : List Json}
    (h : s.Holds lib n (m :: msgs)) :
    (s.nextMessage lib).1 = some m ∧ (s.nextMessage lib).2.Holds lib n msgs ∧
      (s.nextMessage lib).2.lastError = s.lastError ∧
      received (s.nextMessage lib).2.log = received s.log ++ [m] := by
  obtain ⟨hmessage, herror, hleft⟩ := readLine_left_cons hblank h
  refine ⟨hmessage, hleft, ?_, ?_⟩
  · simp [nextMessage, herror]
  · simp [nextMessage, hmessage, received]

theorem nextMessage_holds_nil {n : Nat} {s : StdioTransport} (h : s.Holds lib (n + 1) []) :
    (s.nextMessage lib).1 = none ∧ (s.nextMessage lib).2.Holds lib n [] ∧
      (s.nextMessage lib).2.lastError = s.lastError ∧
      received (s.nextMessage lib).2.log = received s.log := by
  obtain ⟨hmessage, herror, hleft⟩ := readLine_left_nil hblank h
  refine ⟨hmessage, hleft, ?_, ?_⟩
  · simp [nextMessage, herror]
  · simp [nextMessage, hmessage]

/-- **Successive calls** return the messages to come, one after another, and then none. -/
theorem readLines_holds {n k : Nat} {s : StdioTransport} {msgs : List Json}
    (h : s.Holds lib n msgs) (hk : k ≤ msgs.length + n) :
    (readLines lib k s).1 = (msgs.map some ++ List.replicate n none).take k ∧
      (readLines lib k s).2.lastError = s.lastError := by
  induction k generalizing n s msgs with
  | zero => exact ⟨rfl, rfl⟩
  | succ k ih =>
    unfold readLines
    cases msgs with
    | nil =>
      obtain ⟨n, rfl⟩ : ∃ n', n = n' + 1 := ⟨n - 1, by simp at hk; omega⟩
      obtain ⟨hnone, hholds, herror, -⟩ := nextMessage_holds_nil hblank h
      obtain ⟨hlater, herror'⟩ := ih hholds (by simp at hk ⊢; omega)
      refine ⟨?_, herror'.trans herror⟩
      dsimp only
      rw [hnone, hlater]
      rfl
    | cons m msgs =>
      obtain ⟨hsome, hholds, herror, -⟩ := nextMessage_holds_cons hblank h
      obtain ⟨hlater, herror'⟩ := ih hholds (by simp at hk ⊢; omega)
      refine ⟨?_, herror'.trans herror⟩
      dsimp only
      rw [hsome, hlater]
      rfl

/-- Waiting for a reply takes some of the messages to come. -/
theorem awaitReply_takes (req : Json) {n : Nat} {s : StdioTransport} {msgs : List Json}
    (h : s.Holds lib (n + 1) msgs) : Takes lib n msgs s (awaitReply lib req s).2 := by
  have hrecord : ∀ (s : StdioTransport) (m : Json),
      received (s.record (.returned req m)).log = received s.log := fun s m => by
    simp [StdioTransport.record, received]
  fun_induction awaitReply lib req s generalizing msgs with
  | case1 s s' hnext =>
    cases msgs with
    | nil =>
      obtain ⟨-, hholds, herror, hlog⟩ := nextMessage_holds_nil hblank h
      rw [hnext] at hholds herror hlog
      exact ⟨[], [], rfl, hholds, herror, by rw [hlog, List.append_nil]⟩
    | cons m msgs =>
      obtain ⟨hsome, -⟩ := nextMessage_holds_cons hblank h
      rw [hnext] at hsome
      cases hsome
  | case2 s m s' hnext hanswers =>
    cases msgs with
    | nil =>
      obtain ⟨hnone, -⟩ := nextMessage_holds_nil hblank h
      rw [hnext] at hnone
      cases hnone
    | cons m' msgs =>
      obtain ⟨hsome, hholds, herror, hlog⟩ := nextMessage_holds_cons hblank h
      rw [hnext] at hsome hholds herror hlog
      exact ⟨[m'], msgs, rfl, Left.mono hholds (Nat.le_succ n), herror, (hrecord s' m).trans hlog⟩
  | case3 s m s' hnext hanswers ih =>
    cases msgs with
    | nil =>
      obtain ⟨hnone, -⟩ := nextMessage_holds_nil hblank h
      rw [hnext] at hnone
      cases hnone
    | cons m' msgs =>
      obtain ⟨hsome, hholds, herror, hlog⟩ := nextMessage_holds_cons hblank h
      rw [hnext] at hsome hholds herror hlog
      obtain ⟨taken, rest, rfl, hholds', herror', hlog'⟩ := ih hholds
      exact ⟨m' :: taken, rest, rfl, hholds', herror'.trans herror, by
        rw [hlog', hlog, List.append_assoc, List.singleton_append]⟩

end Calls

/-! ## 4. Requests -/

/-- What is done with a transport. -/
inductive TransportOp where
  | request (req : Json)
  | notify (note : Json)

/-- The transport after one operation, whether it returned or raised. -/
def runTransportOp (lib : JsonText) (s : StdioTransport) : TransportOp → StdioTransport
  | .request req => Exec.stateAfter (StdioTransport.request lib req) s
  | .notify note => Exec.stateAfter (writeLine lib note) s

/-- The reads ahead are the same, and so is what has been read. -/
def SameReads (s s' : StdioTransport) : Prop :=
  s'.buf = s.buf ∧ s'.reads = s.reads ∧ s'.lastError = s.lastError ∧
    received s'.log = received s.log

/-- Writing leaves what is read alone. -/
theorem writeLine_sameReads (lib : JsonText) (msg : Json) (s : StdioTransport) :
    Exec.Post (writeLine lib msg) s (fun _ s' => SameReads s s') (fun _ s' => SameReads s s') := by
  unfold writeLine
  rw [Exec.post_bind, Exec.post_ofExcept]
  refine ⟨fun _ _ => ?_, fun _ _ => ⟨rfl, rfl, rfl, rfl⟩⟩
  rw [Exec.post_modifyGet]
  rcases s.writes with - | ⟨_ | _, writes⟩ <;>
    simp [SameReads, StdioTransport.record, received]

theorem SameReads.takes {lib : JsonText} {n : Nat} {s s' : StdioTransport} {msgs : List Json}
    (h : SameReads s s') (hholds : s.Holds lib n msgs) : Takes lib n msgs s s' := by
  obtain ⟨hbuf, hreads, herror, hlog⟩ := h
  refine ⟨[], msgs, rfl, ?_, herror, by rw [hlog, List.append_nil]⟩
  unfold StdioTransport.Holds
  rwa [hbuf, hreads]

theorem Takes.mono {lib : JsonText} {n n' : Nat} {s s' : StdioTransport} {msgs : List Json}
    (h : Takes lib n' msgs s s') (hle : n ≤ n') : Takes lib n msgs s s' := by
  obtain ⟨taken, rest, hmsgs, hholds, h⟩ := h
  exact ⟨taken, rest, hmsgs, Left.mono hholds hle, h⟩

section Ops

variable {lib : JsonText} (hblank : lib.parse [] = none)

include hblank

/-- **One operation** takes some of the messages to come, and at most one end of the stream. -/
theorem runTransportOp_takes (op : TransportOp) {n : Nat} {s : StdioTransport} {msgs : List Json}
    (h : s.Holds lib (n + 1) msgs) : Takes lib n msgs s (runTransportOp lib s op) := by
  cases op with
  | notify note =>
    have hsame : SameReads s (Exec.stateAfter (writeLine lib note) s) :=
      (writeLine_sameReads lib note s).stateAfter
    exact (hsame.takes h).mono (Nat.le_succ n)
  | request req =>
    refine Exec.Post.stateAfter (m := StdioTransport.request lib req) ?_
    unfold StdioTransport.request
    rw [Exec.post_bind]
    refine (writeLine_sameReads lib req s).mono ?_ ?_
    · intro ok s' hsame
      cases ok with
      | false => exact (hsame.takes h).mono (Nat.le_succ n)
      | true =>
        obtain ⟨hbuf, hreads, herror, hlog⟩ := hsame
        have hholds : s'.Holds lib (n + 1) msgs := by
          unfold StdioTransport.Holds
          rwa [hbuf, hreads]
        obtain ⟨taken, rest, hmsgs, hrest, herror', hlog'⟩ := awaitReply_takes hblank req hholds
        exact ⟨taken, rest, hmsgs, hrest, herror'.trans herror, by rw [hlog', hlog]⟩
    · intro _ s' hsame
      exact (hsame.takes h).mono (Nat.le_succ n)

/-- **Any number of operations.** -/
theorem runTransportOps_takes (ops : List TransportOp) {n : Nat} {s : StdioTransport}
    {msgs : List Json} (h : s.Holds lib (n + ops.length) msgs) :
    Takes lib n msgs s (ops.foldl (runTransportOp lib) s) := by
  induction ops generalizing s msgs with
  | nil => exact ⟨[], msgs, rfl, h, rfl, (List.append_nil _).symm⟩
  | cons op ops ih =>
    obtain ⟨taken, rest, rfl, hholds, herror, hlog⟩ := runTransportOp_takes hblank op h
    obtain ⟨taken', rest', rfl, hholds', herror', hlog'⟩ := ih hholds
    exact ⟨taken ++ taken', rest', (List.append_assoc _ _ _).symm, hholds',
      herror'.trans herror, by rw [List.foldl_cons, hlog', hlog, List.append_assoc]⟩

end Ops

/-! ## 5. Any way of cutting the stream -/

/-- What a read gives. -/
def ReadOutcome.data : ReadOutcome → Bytes
  | .chunk data => data
  | _ => []

/-- A read that goes well and is not the last: it gives some bytes, or is interrupted. -/
def ReadOutcome.Goes : ReadOutcome → Prop
  | .chunk data => data ≠ []
  | .interrupted => True
  | _ => False

theorem readsGive_cuts {cuts : List ReadOutcome} (hcuts : ∀ c ∈ cuts, c.Goes) (n : Nat) :
    ReadsGive n (cuts ++ List.replicate n (.chunk [])) (cuts.flatMap ReadOutcome.data) := by
  induction cuts with
  | nil =>
    rw [List.nil_append]
    induction n with
    | zero => exact ReadsGive.nothing
    | succ n ih => exact ReadsGive.ended ih
  | cons c cuts ih =>
    obtain ⟨hc, hrest⟩ := List.forall_mem_cons.mp hcuts
    rw [List.flatMap_cons]
    rcases c with - | e | e | - | data
    · cases hc
    · cases hc
    · cases hc
    · exact ReadsGive.interrupted (ih hrest)
    · rcases data with - | ⟨b, data⟩
      · exact absurd rfl hc
      · exact ReadsGive.piece b data (ih hrest)

/-- **The way the stream is cut does not matter.**  However it is handed over, successive calls of
`read_line` return its messages in order and then the end of the stream; and after any requests and
notifications, which have read the first of the messages, they return the others. -/
theorem framing_independent (lib : JsonText) (hblank : lib.parse [] = none) (stream : Bytes)
    (cuts : List ReadOutcome) (hcuts : ∀ c ∈ cuts, c.Goes)
    (hstream : cuts.flatMap ReadOutcome.data = stream) (writes : List Bool) (n : Nat)
    (ops : List TransportOp) :
    let opened : StdioTransport :=
      { reads := cuts ++ List.replicate (n + ops.length + 1) (.chunk []), writes := writes }
    let s := ops.foldl (runTransportOp lib) opened
    ∃ rest, messages lib stream = received s.log ++ rest ∧
      ∀ k ≤ rest.length + n, (readLines lib k s).1 =
          (rest.map some ++ List.replicate n none).take k ∧
        (readLines lib k s).2.lastError = [] := by
  intro opened s
  have hholds : opened.Holds lib (n + ops.length) (messages lib stream) :=
    Or.inl ⟨n + ops.length, stream, Nat.le_refl _, hstream ▸ readsGive_cuts hcuts _, rfl⟩
  obtain ⟨taken, rest, hmsgs, hrest, herror, hlog⟩ := runTransportOps_takes hblank ops hholds
  refine ⟨rest, ?_, fun k hk => ?_⟩
  · rw [hmsgs, show received s.log = taken from hlog]
  · obtain ⟨hread, herror'⟩ := readLines_holds hblank hrest hk
    exact ⟨hread, herror'.trans herror⟩

/-- The line of a ping, cut in two, a blank line before it and half a line after it: one message,
and then the end. -/
theorem framing_independent_ping :
    ∃ rest, messages pingText (newline :: pingLine ++ [newline, 0x7B]) = received [] ++ rest ∧
      ∀ k ≤ rest.length + 1, (readLines pingText k
          { reads := [.chunk (newline :: pingLine.take 5), .interrupted,
              .chunk (pingLine.drop 5 ++ [newline, 0x7B]), .chunk [], .chunk []] }).1 =
        (rest.map some ++ [none]).take k := by
  obtain ⟨rest, hmsgs, hread⟩ := framing_independent pingText rfl
    (newline :: pingLine ++ [newline, 0x7B])
    [.chunk (newline :: pingLine.take 5), .interrupted, .chunk (pingLine.drop 5 ++ [newline, 0x7B])]
    (by simp [ReadOutcome.Goes]) (by decide) [] 1 []
  exact ⟨rest, hmsgs, fun k hk => (hread k hk).1⟩

end SimpleCoder

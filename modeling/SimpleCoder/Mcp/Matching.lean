/-
# Requests and responses over the standard streams

The client numbers its requests and takes the first message that carries the number as the reply.
A server may put anything else in between: notifications, requests of its own, late responses to
requests the client has given up.

`Dialogue` is what the log of every run looks like: notifications and exchanges, each exchange a
request under a number of its own, the messages skipped while it waited, and the reply if one came.
So a reply is always read while its own request waits, carries its number, and is returned once.

Whether it is a response is another matter.  The numbers of the server's own requests are chosen
by the server, and `request` compares nothing else: a `ping` that carries the number awaited is
taken for the reply.  `run_matched_iff` says that this is the only way to go wrong.
-/
import SimpleCoder.Mcp.McpClient

namespace SimpleCoder

open StdioTransport (answers awaitReply writeLine)
open McpClient

/-! ## 1. What a run should look like -/

/-- The message carries the number of a request. -/
def CarriesId (m : Json) (k : Int) : Prop :=
  ∃ got, m.find (bytes "id") = some got ∧ got.eq (.integer k) = true

/-- A message of JSON-RPC that answers: a result or an error, and no method to be invoked. -/
def IsResponse (m : Json) : Prop :=
  m.find (bytes "method") = none ∧
    (m.find (bytes "result") ≠ none ∨ m.find (bytes "error") ≠ none)

def WireEvent.sentMessage : WireEvent → Option Json
  | .sent msg => some msg
  | _ => none

/-- The line sent last. -/
def lastSent (log : List WireEvent) : Option Json := (log.filterMap WireEvent.sentMessage).getLast?

/-- **Every message a request returned is the response to that request**: it was read while the
request waited, it is the first since to carry its number, no message returned before carries that
number, and it is a response. -/
def Matched (log : List WireEvent) : Prop :=
  ∀ pre req m post, log = pre ++ .returned req m :: post →
    IsResponse m ∧ ∃ (k : Int) (before : List WireEvent) (skipped : List Json),
      req.find (bytes "id") = some (.integer k) ∧ CarriesId m k ∧
      pre = before ++ .sent req :: skipped.map WireEvent.received ++ [.received m] ∧
      (∀ s ∈ skipped, ¬ CarriesId s k) ∧
      ∀ req' m', .returned req' m' ∈ before → ¬ CarriesId m' k

/-- The server never writes, while a request waits, anything but a response under its number: in
particular no request of its own. -/
def NumbersKept (log : List WireEvent) : Prop :=
  ∀ pre m post, log = pre ++ .received m :: post →
    ∀ req k, lastSent pre = some req → req.find (bytes "id") = some (.integer k) → CarriesId m k →
      IsResponse m

/-! ## 2. What a run does look like -/

/-- One request that was written, and what was read until it returned. -/
structure Exchange where
  id : Int
  request : Json
  skipped : List Json
  reply : Option Json
  request_id : request.find (bytes "id") = some (.integer id)
  skipped_id : ∀ m ∈ skipped, ¬ CarriesId m id
  reply_id : ∀ m ∈ reply, CarriesId m id

/-- How the wait for a reply ends. -/
@[simp] def replyEvents (req : Json) : Option Json → List WireEvent
  | none => []
  | some m => [.received m, .returned req m]

def Exchange.events (x : Exchange) : List WireEvent :=
  .sent x.request :: x.skipped.map .received ++ replyEvents x.request x.reply

/-- The logs of the runs that have used the numbers up to `n`. -/
inductive Dialogue : Int → List WireEvent → Prop where
  | start : Dialogue 0 []
  | notified {n : Int} {log : List WireEvent} (note : Json) :
      Dialogue n log → Dialogue n (log ++ [.sent note])
  /-- A number was used, but the request could not be written. -/
  | unwritten {n : Int} {log : List WireEvent} : Dialogue n log → Dialogue (n + 1) log
  | exchanged {n : Int} {log : List WireEvent} (x : Exchange) (hx : x.id = n + 1) :
      Dialogue n log → Dialogue (n + 1) (log ++ x.events)

theorem CarriesId.unique {m : Json} {k k' : Int} (h : CarriesId m k) (h' : CarriesId m k') :
    k = k' := by
  obtain ⟨got, hgot, heq⟩ := h
  obtain ⟨got', hgot', heq'⟩ := h'
  obtain rfl : got = got' := Option.some.inj (hgot.symm.trans hgot')
  rcases Json.eq_integer_iff.mp heq with rfl | rfl
  · simpa using Json.eq_integer_iff.mp heq'
  · simpa using Json.eq_integer_iff.mp heq'

/-- Where an entry of a log that was extended stands. -/
theorem split_append {α : Type} {l l' pre post : List α} {e : α}
    (h : l ++ l' = pre ++ e :: post) :
    (∃ post', l = pre ++ e :: post') ∨ ∃ pre', pre = l ++ pre' ∧ l' = pre' ++ e :: post := by
  rcases List.append_eq_append_iff.mp h with ⟨pre', hpre, hl'⟩ | ⟨c, hl, hc⟩
  · exact Or.inr ⟨pre', hpre, hl'⟩
  · cases c with
    | nil => exact Or.inr ⟨[], by simpa using hl.symm, by simpa using hc.symm⟩
    | cons d c =>
      obtain ⟨rfl, -⟩ := List.cons.inj hc
      exact Or.inl ⟨c, hl⟩

/-- **Every event belongs to a notification or to an exchange.** -/
theorem Dialogue.split {n : Int} {log pre post : List WireEvent} {e : WireEvent}
    (h : Dialogue n log) (hlog : log = pre ++ e :: post) :
    e.sentMessage ≠ none ∨ ∃ (x : Exchange) (before pre' post' : List WireEvent),
      Dialogue (x.id - 1) before ∧ before ++ x.events <+: log ∧ pre = before ++ pre' ∧
        x.events = pre' ++ e :: post' := by
  induction h generalizing post with
  | start => exact absurd hlog (by simp)
  | notified note h ih =>
    rcases split_append hlog with ⟨post', hlog'⟩ | ⟨pre', -, hnote⟩
    · obtain hsent | ⟨x, before, pre', post'', hbefore, hprefix, h⟩ := ih hlog'
      · exact Or.inl hsent
      · exact Or.inr ⟨x, before, pre', post'', hbefore,
          hprefix.trans (List.prefix_append _ _), h⟩
    · have hmem : e ∈ [WireEvent.sent note] := by simp [hnote]
      rw [List.mem_singleton.mp hmem]
      exact Or.inl (Option.some_ne_none note)
  | unwritten h ih => exact ih hlog
  | exchanged x hx h ih =>
    rcases split_append hlog with ⟨post', hlog'⟩ | ⟨pre', hpre, hevents⟩
    · obtain hsent | ⟨x', before, pre', post'', hbefore, hprefix, h⟩ := ih hlog'
      · exact Or.inl hsent
      · exact Or.inr ⟨x', before, pre', post'', hbefore,
          hprefix.trans (List.prefix_append _ _), h⟩
    · refine Or.inr ⟨x, _, pre', post, ?_, List.prefix_refl _, hpre, hevents⟩
      rw [hx, Int.add_sub_cancel]
      exact h

namespace Exchange

variable {x : Exchange} {pre post : List WireEvent} {req m : Json}

/-- A message is returned at the end of an exchange, right after it was read. -/
theorem of_returned (h : x.events = pre ++ .returned req m :: post) :
    x.reply = some m ∧ req = x.request ∧
      pre = .sent x.request :: x.skipped.map .received ++ [.received m] := by
  unfold events at h
  cases hreply : x.reply with
  | none =>
    rw [hreply] at h
    have hmem : WireEvent.returned req m ∈ .sent x.request :: x.skipped.map .received ++
        replyEvents x.request none := by
      rw [h]
      simp
    simp at hmem
  | some m' =>
    rw [hreply] at h
    have hsplit : (WireEvent.sent x.request :: x.skipped.map .received ++ [.received m']) ++
        .returned x.request m' :: [] = pre ++ .returned req m :: post := by
      rw [← h]
      simp
    obtain ⟨hpre, he, -⟩ := (List.append_cons_inj_of_notMem (by simp) (by simp)).mp hsplit
    obtain ⟨rfl, rfl⟩ := WireEvent.returned.inj he
    exact ⟨rfl, rfl, hpre.symm⟩

theorem filterMap_sent (msg : Json) (log : List WireEvent) :
    (WireEvent.sent msg :: log).filterMap WireEvent.sentMessage =
      msg :: log.filterMap WireEvent.sentMessage := rfl

theorem sentMessage_events (x : Exchange) :
    x.events.filterMap WireEvent.sentMessage = [x.request] := by
  have hskipped : (x.skipped.map WireEvent.received).filterMap WireEvent.sentMessage = [] := by
    simp [List.filterMap_eq_nil_iff, WireEvent.sentMessage]
  unfold events
  rw [List.filterMap_append, filterMap_sent, hskipped]
  cases x.reply <;> rfl

/-- A message that is read in an exchange is read while its request waits, and is skipped or is the
reply. -/
theorem of_received (h : x.events = pre ++ .received m :: post) :
    (∀ before, lastSent (before ++ pre) = some x.request) ∧ (m ∈ x.skipped ∨ x.reply = some m) := by
  constructor
  · intro before
    have hsent := x.sentMessage_events
    rw [h, List.filterMap_append] at hsent
    cases pre with
    | nil => exact absurd (List.cons.inj h).1 (by simp)
    | cons e pre =>
      obtain ⟨rfl, -⟩ := List.cons.inj h
      rw [filterMap_sent, List.cons_append] at hsent
      obtain ⟨hpre, -⟩ := List.append_eq_nil_iff.mp (List.cons.inj hsent).2
      unfold lastSent
      rw [List.filterMap_append, filterMap_sent, hpre]
      simp
  · have hmem : WireEvent.received m ∈ x.events := by
      rw [h]
      simp
    unfold events at hmem
    cases hreply : x.reply with
    | none =>
      rw [hreply] at hmem
      exact Or.inl (by simpa using hmem)
    | some m' =>
      rw [hreply] at hmem
      rcases (by simpa using hmem : m ∈ x.skipped ∨ m = m') with hskip | rfl
      · exact Or.inl hskip
      · exact Or.inr rfl

end Exchange

/-- A message that was returned carries a number that has been used. -/
theorem Dialogue.returned_id {n : Int} {log : List WireEvent} (h : Dialogue n log) :
    ∀ req m, WireEvent.returned req m ∈ log → ∃ k ≤ n, CarriesId m k := by
  induction h with
  | start => simp
  | notified note h ih =>
    intro req m hmem
    exact ih req m (by simpa using hmem)
  | unwritten h ih =>
    intro req m hmem
    obtain ⟨k, hk, hcarries⟩ := ih req m hmem
    exact ⟨k, by omega, hcarries⟩
  | exchanged x hx h ih =>
    intro req m hmem
    rcases List.mem_append.mp hmem with hold | hnew
    · obtain ⟨k, hk, hcarries⟩ := ih req m hold
      exact ⟨k, by omega, hcarries⟩
    · obtain ⟨pre, post, hsplit⟩ := List.append_of_mem hnew
      obtain ⟨hreply, -, -⟩ := x.of_returned hsplit
      exact ⟨x.id, hx.le, x.reply_id m hreply⟩

/-- **When a run is matched**: in whatever way the server goes on, exactly if it keeps the numbers
of the waiting requests to its responses. -/
theorem Dialogue.matched_iff {n : Int} {log : List WireEvent} (h : Dialogue n log) :
    Matched log ↔ NumbersKept log := by
  constructor
  · -- a message with the number of the waiting request is returned for it, and is its answer
    intro hmatched pre m post hlog req k hlast hreq hcarries
    obtain hsent | ⟨x, before, pre', post', -, hprefix, rfl, hevents⟩ := h.split hlog
    · exact absurd rfl hsent
    · obtain ⟨hwaits, hread⟩ := x.of_received hevents
      obtain rfl := Option.some.inj ((hwaits before).symm.trans hlast)
      have hk : x.id = k := by
        simpa using x.request_id.symm.trans hreq
      rcases hread with hskip | hreply
      · rw [← hk] at hcarries
        exact absurd hcarries (x.skipped_id m hskip)
      · have hreturned : WireEvent.returned x.request m ∈ log := by
          refine hprefix.subset (List.mem_append_right _ ?_)
          unfold Exchange.events
          rw [hreply]
          simp
        obtain ⟨pre'', post'', hlog''⟩ := List.append_of_mem hreturned
        exact (hmatched pre'' x.request m post'' hlog'').1
  · -- what is returned has the number, and comes while the request waits
    intro hkept pre req m post hlog
    obtain hsent | ⟨x, before, pre', post', hbefore, -, rfl, hevents⟩ := h.split hlog
    · exact absurd rfl hsent
    · obtain ⟨hreply, rfl, rfl⟩ := x.of_returned hevents
      have hcarries := x.reply_id m hreply
      refine ⟨?_, x.id, before, x.skipped, x.request_id, hcarries, by simp, x.skipped_id, ?_⟩
      · refine hkept (before ++ .sent x.request :: x.skipped.map .received) m
          (.returned x.request m :: post) (by rw [hlog]; simp) x.request x.id ?_ x.request_id
          hcarries
        have hreceived : x.events = (.sent x.request :: x.skipped.map .received) ++
            .received m :: .returned x.request m :: post' := by
          rw [hevents]
          simp
        exact (x.of_received hreceived).1 before
      · intro req' m' hmem hcarries'
        obtain ⟨k, hk, hold⟩ := hbefore.returned_id req' m' hmem
        have heq := hold.unique hcarries'
        omega

/-! ## 3. Every run is such a dialogue -/

theorem answers_iff {req m : Json} {k : Int} (hreq : req.find (bytes "id") = some (.integer k)) :
    answers req m = true ↔ CarriesId m k := by
  unfold answers CarriesId
  rw [hreq]
  cases m.find (bytes "id") <;> simp

/-- What waiting for the reply adds to the log. -/
theorem awaitReply_log (lib : JsonText) (req : Json) (s : StdioTransport) :
    ∃ (skipped : List Json) (reply : Option Json), (∀ m ∈ skipped, answers req m = false) ∧
      (∀ m ∈ reply, answers req m = true) ∧
      (awaitReply lib req s).2.log = s.log ++ skipped.map .received ++ replyEvents req reply ∧
      ((awaitReply lib req s).1.ok = true → reply = some (awaitReply lib req s).1.response) := by
  fun_induction awaitReply lib req s with
  | case1 s s' hnext =>
    obtain ⟨hm, rfl⟩ := Prod.mk.inj hnext
    exact ⟨[], none, by simp, by simp, by simp [hm], fun hok => absurd hok Bool.false_ne_true⟩
  | case2 s m s' hnext hanswers =>
    obtain ⟨hm, rfl⟩ := Prod.mk.inj hnext
    refine ⟨[], some m, by simp, by simpa using hanswers, ?_, fun _ => rfl⟩
    simp [hm, StdioTransport.record]
  | case3 s m s' hnext hanswers ih =>
    obtain ⟨hm, rfl⟩ := Prod.mk.inj hnext
    obtain ⟨skipped, reply, hskipped, hreply, hlog, hok⟩ := ih
    refine ⟨m :: skipped, reply, ?_, hreply, ?_, hok⟩
    · rw [List.forall_mem_cons]
      exact ⟨by simpa using hanswers, hskipped⟩
    · rw [hlog]
      simp [hm]

/-- A line that was written is logged, one that was not leaves the log as it is. -/
theorem writeLine_log (lib : JsonText) (msg : Json) (s : StdioTransport) :
    Exec.Post (writeLine lib msg) s
      (fun ok s' => s'.log = if ok then s.log ++ [.sent msg] else s.log)
      (fun _ s' => s'.log = s.log) := by
  unfold writeLine
  rw [Exec.post_bind, Exec.post_ofExcept]
  refine ⟨fun _ _ => ?_, fun _ _ => rfl⟩
  rw [Exec.post_modifyGet]
  rcases s.writes with - | ⟨_ | _, writes⟩ <;> rfl

/-- **One request**, under the next number. -/
theorem request_dialogue (lib : JsonText) {req : Json} {n : Int} {s : StdioTransport}
    (hreq : req.find (bytes "id") = some (.integer (n + 1))) (h : Dialogue n s.log) :
    Exec.Post (StdioTransport.request lib req) s (fun _ s' => Dialogue (n + 1) s'.log)
      (fun _ s' => Dialogue (n + 1) s'.log) := by
  unfold StdioTransport.request
  rw [Exec.post_bind]
  refine (writeLine_log lib req s).mono ?_ ?_
  · intro ok s' hlog
    cases ok with
    | false =>
      have hsame : s'.log = s.log := hlog
      exact (hsame ▸ h.unwritten : Dialogue (n + 1) s'.log)
    | true =>
      have hsent : s'.log = s.log ++ [.sent req] := hlog
      obtain ⟨skipped, reply, hskipped, hreply, hlog', -⟩ := awaitReply_log lib req s'
      change Dialogue (n + 1) (awaitReply lib req s').2.log
      rw [hlog', hsent]
      have hnot : ∀ m ∈ skipped, ¬ CarriesId m (n + 1) := by
        intro m hm hcarries
        exact Bool.false_ne_true ((hskipped m hm).symm.trans ((answers_iff hreq).mpr hcarries))
      have hx := h.exchanged ⟨n + 1, req, skipped, reply, hreq, hnot,
        fun m hm => (answers_iff hreq).mp (hreply m hm)⟩ rfl
      simpa [Exchange.events] using hx
  · intro _ s' hlog
    exact hlog ▸ h.unwritten

/-- **The log tells the truth**: what a request returns is what it logs last. -/
theorem request_returned (lib : JsonText) (req : Json) (s : StdioTransport) :
    Exec.Post (StdioTransport.request lib req) s
      (fun r s' => r.ok = true → ∃ log, s'.log = log ++ [.returned req r.response])
      (fun _ _ => True) := by
  unfold StdioTransport.request
  rw [Exec.post_bind]
  refine (writeLine_log lib req s).mono ?_ (fun _ _ _ => trivial)
  intro ok s' _
  cases ok with
  | false => exact fun hok => absurd hok Bool.false_ne_true
  | true =>
    obtain ⟨skipped, reply, -, -, hlog, hreply⟩ := awaitReply_log lib req s'
    change (awaitReply lib req s').1.ok = true → ∃ log, (awaitReply lib req s').2.log = _
    intro hok
    rw [hlog, hreply hok]
    exact ⟨s'.log ++ skipped.map .received ++ [.received (awaitReply lib req s').1.response],
      by simp⟩

/-- The client has talked to the server under the numbers it has used. -/
def Talks (c : McpClient StdioTransport) : Prop := Dialogue c.id c.transport.log

section Client

open Exec

variable {α : Type} (lib : JsonText)

/-- A request under a new number, and what follows it. -/
theorem within_request {f : Int → Json}
    (hf : ∀ id, (f id).find (bytes "id") = some (.integer id))
    {k : RpcResult → EStateM Exn (McpClient StdioTransport) α}
    (hk : ∀ r, Within (Keeps Talks) (k r)) :
    Within (Keeps Talks)
      (nextId >>= fun id => onTransport ((stdioTransport lib).request (f id)) >>= k) := by
  rw [within_keeps_iff]
  intro c hc
  unfold nextId onTransport
  rw [post_bind, post_modifyGet, post_bind, post_zoom]
  refine (request_dialogue lib (hf (c.id + 1)) hc).mono ?_ (fun _ _ h => h)
  intro r t ht
  exact within_keeps_iff.mp (hk r) _ ht

/-- A notification. -/
theorem within_notify (note : Json) :
    Within (Keeps Talks) (onTransport ((stdioTransport lib).notify note)) := by
  rw [within_keeps_iff]
  intro c hc
  unfold onTransport
  rw [post_zoom]
  refine (writeLine_log lib note c.transport).mono ?_ ?_
  · intro ok t hlog
    change Dialogue c.id t.log
    rw [hlog]
    cases ok with
    | false => exact hc
    | true => exact hc.notified note
  · intro _ t hlog
    change Dialogue c.id t.log
    rw [hlog]
    exact hc

theorem within_setError (error : Bytes) : Within (Keeps Talks) (setError error) :=
  (Within.modify fun _ h => h).bind fun _ => Within.pure _

theorem within_addTool (t : Json) : Within (Keeps Talks) (addTool t) := by
  unfold addTool
  refine (Within.ofExcept _).bind fun name => (Within.ofExcept _).bind fun description => ?_
  dsimp only
  split
  · exact Within.modify fun _ h => h
  · exact Within.pure _

theorem listRequest_id (id : Int) (cursor : Bytes) :
    (listRequest id cursor).find (bytes "id") = some (.integer id) := by
  unfold listRequest
  dsimp only
  split
  · rfl
  · rw [Json.set_ofFields]
    rfl

theorem within_listTools : ∀ (pages : Nat) (cursor : Bytes),
    Within (Keeps Talks) (listTools (stdioTransport lib) pages cursor)
  | 0, _ => Within.pure _
  | pages + 1, cursor => by
    unfold listTools
    refine within_request lib (listRequest_id · cursor) fun lr => ?_
    split
    · refine (Within.ofExcept _).bind fun err => ?_
      split
      · refine (Within.ofExcept _).bind fun result => ?_
        refine (Within.forM _ fun t _ => within_addTool t).bind fun _ => ?_
        split
        · exact Within.pure _
        · exact within_listTools pages _
      · exact within_setError _
    · exact within_setError _

theorem within_start (pages : Nat) : Within (Keeps Talks) (start (stdioTransport lib) pages) := by
  unfold start
  refine within_request lib (fun _ => rfl) fun r => ?_
  split
  · refine (Within.ofExcept _).bind fun err => ?_
    split
    · refine (within_notify lib _).bind fun _ => ?_
      exact (Within.modify fun _ h => h).bind fun _ => within_listTools lib pages []
    · exact within_setError _
  · exact within_setError _

theorem within_call (tool : Bytes) (args : Json) :
    Within (Keeps Talks) (call (stdioTransport lib) tool args) := by
  unfold call
  refine within_request lib (fun _ => rfl) fun r => ?_
  split
  · exact Within.ofExcept _
  · exact Within.pure _

end Client

/-! ## 4. Runs -/

/-- What is done with a client. -/
inductive McpOp where
  | start (pages : Nat)
  | call (tool : Bytes) (args : Json)

/-- The client after one operation, whether it returned or raised. -/
def runMcpOp (lib : JsonText) (op : McpOp) (c : McpClient StdioTransport) :
    McpClient StdioTransport :=
  match op with
  | .start pages => Exec.stateAfter (start (stdioTransport lib) pages) c
  | .call tool args => Exec.stateAfter (call (stdioTransport lib) tool args) c

def runMcpOps (lib : JsonText) (ops : List McpOp) (c : McpClient StdioTransport) :
    McpClient StdioTransport :=
  ops.foldl (fun c op => runMcpOp lib op c) c

/-- A client that has just been made, of a server of which it will read and write this. -/
def openClient (name : Bytes) (reads : List ReadOutcome) (writes : List Bool) :
    McpClient StdioTransport where
  transport := { reads := reads, writes := writes }
  name := name

theorem runMcpOp_talks (lib : JsonText) (op : McpOp) {c : McpClient StdioTransport} (h : Talks c) :
    Talks (runMcpOp lib op c) := by
  cases op with
  | start pages => exact (Exec.within_keeps_iff.mp (within_start lib pages) c h).stateAfter
  | call tool args => exact (Exec.within_keeps_iff.mp (within_call lib tool args) c h).stateAfter

theorem runMcpOps_talks (lib : JsonText) (ops : List McpOp) {c : McpClient StdioTransport}
    (h : Talks c) : Talks (runMcpOps lib ops c) := by
  induction ops generalizing c with
  | nil => exact h
  | cons op ops ih => exact ih (runMcpOp_talks lib op h)

/-- **When every request gets its own response**: in every run of a client, whatever the server
writes and however it is read, exactly if the server puts nothing but responses under the numbers
of the requests that wait. -/
theorem run_matched_iff (lib : JsonText) (name : Bytes) (reads : List ReadOutcome)
    (writes : List Bool) (ops : List McpOp) :
    Matched (runMcpOps lib ops (openClient name reads writes)).transport.log ↔
      NumbersKept (runMcpOps lib ops (openClient name reads writes)).transport.log :=
  (runMcpOps_talks lib ops (show Talks (openClient name reads writes) from .start)).matched_iff

/-- A request of the server's own, the first it makes. -/
def ping : Json :=
  Json.ofFields
    [(bytes "jsonrpc", .string (bytes "2.0")),
      (bytes "id", .integer 1),
      (bytes "method", .string (bytes "ping"))]

def pingLine : Bytes := bytes "\x7b\"jsonrpc\":\"2.0\",\"id\":1,\"method\":\"ping\"\x7d"

theorem ping_validText : ∀ p ∈ [(pingLine, ping)], p.2.ValidText := by
  rw [List.forall_mem_singleton]
  refine (Json.validText_ofFields_iff (by simp only [List.map]; decide)).mpr ?_
  simp [Json.ValidText]

/-- A parser that knows this line. -/
def pingText : JsonText := .ofTable [(pingLine, ping)] ping_validText

/-- A server whose first line it is. -/
def pingServer : StdioTransport := { reads := [.chunk (pingLine ++ [newline])] }

/-- What passes the transport then. -/
def pingLog : List WireEvent :=
  [.sent (initializeRequest 1), .received ping, .returned (initializeRequest 1) ping]

theorem ping_requested :
    StdioTransport.request pingText (initializeRequest 1) pingServer =
      .ok ⟨true, ping, []⟩ { log := pingLog } := by
  have hreply : awaitReply pingText (initializeRequest 1)
      { pingServer with log := [.sent (initializeRequest 1)] } =
        (⟨true, ping, []⟩, { log := pingLog }) := by
    rw [awaitReply]
    rfl
  have hwrite : writeLine pingText (initializeRequest 1) pingServer =
      .ok true { pingServer with log := [.sent (initializeRequest 1)] } := rfl
  unfold StdioTransport.request
  simp only [bind, EStateM.bind, hwrite]
  change EStateM.Result.ok (awaitReply pingText _ _).1 (awaitReply pingText _ _).2 = _
  rw [hreply]

/-- **A ping is taken for the reply**: the server asks for a sign of life under its own number 1,
and `initialize`, number 1 of the client, returns with it. -/
theorem ping_not_matched :
    ¬ Matched (runMcpOps pingText [.start 0]
      (openClient (bytes "a") [.chunk (pingLine ++ [newline])] [])).transport.log := by
  have hrun : Exec.Post (start (stdioTransport pingText) 0)
      (openClient (bytes "a") [.chunk (pingLine ++ [newline])] [])
      (fun _ c => c.transport.log = pingLog ++ [.sent initializedNote])
      (fun _ c => c.transport.log = pingLog ++ [.sent initializedNote]) := by
    unfold start nextId onTransport
    rw [Exec.post_bind, Exec.post_modifyGet, Exec.post_bind, Exec.post_zoom]
    change Exec.Post (StdioTransport.request pingText (initializeRequest 1)) pingServer _ _
    unfold Exec.Post
    rw [ping_requested]
    rfl
  intro h
  have hlog : (runMcpOps pingText [.start 0]
      (openClient (bytes "a") [.chunk (pingLine ++ [newline])] [])).transport.log =
        pingLog ++ [.sent initializedNote] := hrun.stateAfter
  obtain ⟨⟨hmethod, -⟩, -⟩ := h _ _ _ [.sent initializedNote]
    (hlog.trans (show _ = [.sent (initializeRequest 1), .received ping] ++ _ by rfl))
  exact absurd hmethod (by decide)

end SimpleCoder

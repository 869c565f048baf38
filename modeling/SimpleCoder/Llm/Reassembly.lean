/-
# Tool calls come back out of the stream

A server streams the tool calls of one answer as fragments, each with the index of its call: the
first carries the id, the name and the start of the arguments, the others more of the arguments.
The fragments of different calls may be interleaved, and be spread over chunks in any way.

§1 says what such a stream is, without the parser: calls cut into fragments (`IsCut`), fragments
interleaved (`Interleaves`), elements of a chunk that carry them (`Carries`), and lines that
deliver them or nothing (`Delivers`).  §2 reads one line; §3 shows that every list of fragments
has a line that delivers it; §4 reads the whole stream.
-/
import SimpleCoder.Llm.ChatResponse
import Mathlib.Data.List.TakeWhile

namespace SimpleCoder

/-! ## 1. Fragmented calls -/

/-- A fragment of a tool call; the first one of a call has the id and the name. -/
structure Fragment where
  index : Int
  head : Option (Bytes × Bytes)
  arguments : Bytes

/-- The fragments are the call `call`, cut up: the first with its id, its name and a start of its
arguments, the others with the rest of the arguments. -/
inductive IsCut (index : Int) (call : ToolCall) : List Fragment → Prop where
  | mk (start : Bytes) (pieces : List Bytes) : start ++ pieces.flatten = call.arguments →
      IsCut index call
        (⟨index, some (call.id, call.name), start⟩ :: pieces.map fun p => ⟨index, none, p⟩)

/-- A finite map from `int` indices to calls, listed by ascending index. -/
structure CallMap where
  entries : List (Int × ToolCall)
  ascending : entries.Pairwise fun a b => a.1 < b.1
  int : ∀ p ∈ entries, -2 ^ 31 ≤ p.1 ∧ p.1 < 2 ^ 31

/-- The fragments are those of all the calls, interleaved: those of one call are in order. -/
structure Interleaves (calls : CallMap) (frags : List Fragment) : Prop where
  known : ∀ f ∈ frags, ∃ call, (f.index, call) ∈ calls.entries
  cut : ∀ i call, (i, call) ∈ calls.entries → IsCut i call (frags.filter fun f => f.index = i)

/-- The element of a `tool_calls` array carries the fragment.  An id or a name that the fragment
does not have may be missing or be of any other type. -/
structure Carries (tc : Json) (f : Fragment) : Prop where
  index : tc.find (bytes "index") = some (.integer f.index)
  id : ∀ s, tc.find (bytes "id") = some (.string s) ↔ f.head.map Prod.fst = some s
  function : ∃ fn, tc.find (bytes "function") = some fn ∧ fn.isObject = true ∧
    (∀ s, fn.find (bytes "name") = some (.string s) ↔ f.head.map Prod.snd = some s) ∧
    fn.find (bytes "arguments") = some (.string f.arguments)

/-- White space only. -/
def Blank (s : Bytes) : Prop := ∀ x ∈ s, isSpace x = true

/-- No white space at either end. -/
structure Trimmed (s : Bytes) : Prop where
  first : ∀ x, s.head? = some x → isSpace x = false
  last : ∀ x, s.getLast? = some x → isSpace x = false

/-- The line is a `data:` field with the given payload. -/
inductive IsData : Bytes → Bytes → Prop where
  | mk {a b c payload : Bytes} : Blank a → Blank b → Blank c → Trimmed payload →
      IsData (a ++ (bytes "data:" ++ b ++ payload ++ c)) payload

/-- The line delivers the fragments, in this order: none if it is blank, a comment, the end mark or
not JSON, and otherwise those in the `tool_calls` of its chunk, which may hold anything else too
as long as its usage, if it has one, is in numbers. -/
inductive Delivers (lib : JsonText) : Bytes → List Fragment → Prop where
  | blank {line : Bytes} : Blank line → Delivers lib line []
  | comment {a text : Bytes} : Blank a → Delivers lib (a ++ 0x3A :: text) []
  | done {line : Bytes} : IsData line (bytes "[DONE]") → Delivers lib line []
  | unparsable {line payload : Bytes} : IsData line payload → lib.parse payload = none →
      Delivers lib line []
  | chunk {line payload : Bytes} {chunk : Json} {group : List Fragment} : IsData line payload →
      payload ≠ bytes "[DONE]" → lib.parse payload = some chunk → UsageOk chunk →
      List.Forall₂ Carries (deltaItems chunk) group → Delivers lib line group

/-! ## 2. One line -/

theorem trim_of_blank {a : Bytes} (ha : Blank a) : trim a = [] := by
  unfold trim
  rw [List.dropWhile_eq_nil_iff.mpr ha]
  rfl

theorem dropWhile_blank {a s : Bytes} (ha : Blank a)
    (hs : ∀ x, s.head? = some x → isSpace x = false) (hne : s ≠ []) (c : Bytes) :
    (a ++ (s ++ c)).dropWhile isSpace = s ++ c := by
  rw [List.dropWhile_append_of_pos ha]
  cases s with
  | nil => exact absurd rfl hne
  | cons x s => simp [hs x rfl]

theorem trim_of_pad {a s c : Bytes} (ha : Blank a) (hc : Blank c) (hs : Trimmed s) :
    trim (a ++ (s ++ c)) = s := by
  by_cases hne : s = []
  · subst hne
    refine trim_of_blank fun x hx => ?_
    rw [List.nil_append] at hx
    exact (List.mem_append.mp hx).elim (ha x) (hc x)
  · unfold trim
    have hc' : Blank c.reverse := fun x hx => hc x (List.mem_reverse.mp hx)
    rw [dropWhile_blank ha hs.first hne, List.reverse_append]
    have hrev := dropWhile_blank hc' (s := s.reverse) (by simpa using hs.last) (by simpa) []
    rw [List.append_nil] at hrev
    rw [hrev, List.reverse_reverse]

theorem lineKind_blank {line : Bytes} (h : Blank line) : lineKind line = .ignored := by
  simp [lineKind, trim_of_blank h]

theorem lineKind_comment {a text : Bytes} (ha : Blank a) :
    lineKind (a ++ 0x3A :: text) = .ignored := by
  have hcolon : (trim (a ++ 0x3A :: text)).head? = some 0x3A := by
    unfold trim
    rw [List.dropWhile_append_of_pos ha, List.dropWhile_cons_of_neg (by decide),
      List.reverse_cons, List.dropWhile_append]
    split
    · rfl
    · simp
  unfold lineKind
  dsimp only
  rw [if_neg (by rintro h; simp [h] at hcolon), if_pos hcolon]

theorem data_eq : bytes "data:" = [0x64, 0x61, 0x74, 0x61, 0x3A] := by decide

theorem lineKind_isData {line payload : Bytes} (h : IsData line payload) :
    lineKind line = if payload = bytes "[DONE]" then .done else .chunk payload := by
  obtain @⟨a, b, c, _, ha, hb, hc, hp⟩ := h
  -- an empty payload leaves no white space behind the colon
  obtain ⟨tail, htrim, htail⟩ : ∃ tail,
      trim (a ++ (bytes "data:" ++ b ++ payload ++ c)) = bytes "data:" ++ tail ∧
        trim tail = payload := by
    by_cases hne : payload = []
    · subst hne
      have hbc : Blank (b ++ c) := fun x hx => (List.mem_append.mp hx).elim (hb x) (hc x)
      refine ⟨[], ?_, rfl⟩
      have := trim_of_pad ha hbc (s := bytes "data:") ⟨by simp [data_eq, isSpace], by
        simp [data_eq, isSpace]⟩
      simpa using this
    · refine ⟨b ++ payload, ?_, ?_⟩
      · have hs : Trimmed (bytes "data:" ++ (b ++ payload)) :=
          ⟨by simp [data_eq, isSpace], fun x hx => hp.last x (by
            rw [List.getLast?_append, List.getLast?_append] at hx
            simpa [List.getLast?_eq_some_getLast hne] using hx)⟩
        have := trim_of_pad ha hc hs
        simpa using this
      · have := trim_of_pad hb (c := []) (by simp [Blank]) hp
        simpa using this
  unfold lineKind
  rw [htrim]
  simp [data_eq, htail]

/-- What a fragment does to the call it belongs to. -/
def Fragment.merge (f : Fragment) (acc : ToolCall) : ToolCall where
  id := (f.head.map Prod.fst).getD acc.id
  name := (f.head.map Prod.snd).getD acc.name
  arguments := acc.arguments ++ f.arguments

theorem mergeFragment_carries {tc : Json} {f : Fragment} (h : Carries tc f) (acc : ToolCall) :
    mergeFragment tc acc = f.merge acc := by
  obtain ⟨fn, hfn, hobj, hname, hargs⟩ := h.function
  have hid := h.id
  unfold mergeFragment Fragment.merge
  simp only [hfn, hobj, if_true, useString_of_find hargs]
  cases hh : f.head with
  | some p =>
    obtain ⟨id, name⟩ := p
    rw [hh] at hid hname
    rw [useString_of_find ((hname name).mpr rfl), useString_of_find ((hid id).mpr rfl)]
    rfl
  | none =>
    rw [hh] at hid hname
    rw [useString_of_not fun s hs => by simpa using (hname s).mp hs,
      useString_of_not fun s hs => by simpa using (hid s).mp hs]
    rfl

/-- The calls of the fragments read so far. -/
def collect (m : Std.TreeMap Int ToolCall) (frags : List Fragment) : Std.TreeMap Int ToolCall :=
  Keyed.accumulate Fragment.index Fragment.merge {} m frags

theorem collect_append (m : Std.TreeMap Int ToolCall) (frags frags' : List Fragment) :
    collect m (frags ++ frags') = collect (collect m frags) frags' :=
  Keyed.accumulate_append m frags frags'

theorem readToolCall_carries {tc : Json} {f : Fragment} (h : Carries tc f)
    (hint : -2 ^ 31 ≤ f.index ∧ f.index < 2 ^ 31) (s : Stream W) :
    Exec.Post (readToolCall tc) s
      (fun _ s' => s'.parser.toolByIndex = collect s.parser.toolByIndex [f])
      (fun _ _ => False) := by
  have hindex : tc.valueInt (bytes "index") 0 = .ok f.index := by
    rw [Json.valueInt, Json.value_of_find h.index, Json.getInt, intCast,
      Int.bmod_eq_of_le (by omega) (by omega)]
  unfold readToolCall
  rw [Exec.post_bind, Exec.post_ofExcept, hindex]
  refine ⟨fun n hn => ?_, by simp⟩
  cases hn
  have hmerge : (fun acc => some (mergeFragment tc (Option.getD acc {}))) =
      fun acc => some (f.merge (Option.getD acc {})) :=
    funext fun acc => by rw [mergeFragment_carries h]
  rw [hmerge]
  rfl

theorem readToolCalls_carries {items : List Json} {group : List Fragment}
    (h : List.Forall₂ Carries items group)
    (hint : ∀ f ∈ group, -2 ^ 31 ≤ f.index ∧ f.index < 2 ^ 31) (s : Stream W) :
    Exec.Post (forM items readToolCall) s
      (fun _ s' => s'.parser.toolByIndex = collect s.parser.toolByIndex group)
      (fun _ _ => False) := by
  induction h generalizing s with
  | nil => exact rfl
  | @cons tc f items group hf _ ih =>
    rw [List.forM_cons, Exec.post_bind]
    refine (readToolCall_carries hf (hint f List.mem_cons_self) s).mono (fun _ t ht => ?_)
      (fun _ _ he => he)
    refine (ih (fun g hg => hint g (List.mem_cons_of_mem _ hg)) t).mono (fun _ u hu => ?_)
      (fun _ _ he => he)
    rw [hu, ht, ← collect_append]
    rfl

/-- A step that reads anything but the tool calls, and returns. -/
theorem returns_within {R : Stream W → Stream W → Prop} {m : Parse W PUnit} {s : Stream W}
    (hr : Exec.Returns m s) (hm : Exec.Within R m)
    (hR : ∀ s', R s s' → s'.parser.toolByIndex = s.parser.toolByIndex) :
    Exec.Post m s (fun _ s' => s'.parser.toolByIndex = s.parser.toolByIndex)
      (fun _ _ => False) :=
  (hr.and (hm s)).mono (fun _ s' h => hR s' h.2) (fun _ _ h => h.1)

theorem readChunk_carries (cb : StreamCallbacks W) {chunk : Json} {group : List Fragment}
    (hu : UsageOk chunk) (h : List.Forall₂ Carries (deltaItems chunk) group)
    (hint : ∀ f ∈ group, -2 ^ 31 ≤ f.index ∧ f.index < 2 ^ 31) (s : Stream W) :
    Exec.Post (readChunk cb chunk) s
      (fun _ s' => s'.parser.toolByIndex = collect s.parser.toolByIndex group)
      (fun _ _ => False) := by
  have hnil : ∀ t : Stream W, t.parser.toolByIndex = s.parser.toolByIndex → group = [] →
      t.parser.toolByIndex = collect s.parser.toolByIndex group := by
    rintro t ht rfl
    exact ht
  unfold deltaItems at h
  unfold readChunk
  rw [Exec.post_bind]
  refine (returns_within ((readUsage_returns_iff chunk s).mpr hu) (sameTexts_readUsage chunk)
    fun _ h => h.tools).mono (fun _ s1 h1 => ?_) (fun _ _ he => he)
  split
  · rename_i hc
    rw [hc] at h
    exact hnil s1 h1 (List.forall₂_nil_left_iff.mp h)
  rename_i choice hc
  rw [hc] at h
  rw [Exec.post_bind]
  refine (returns_within (readFinishReason_returns choice s1) (sameTexts_readFinishReason choice)
    fun _ h => h.tools).mono (fun _ s2 h2 => ?_) (fun _ _ he => he)
  split
  · rename_i hd
    simp only [hd] at h
    exact hnil s2 (h2.trans h1) (List.forall₂_nil_left_iff.mp h)
  rename_i delta hd
  simp only [hd] at h
  unfold readDelta
  rw [Exec.post_bind]
  refine (returns_within (readContent_returns cb delta s2) (textStep_readContent delta)
    fun _ h => h.tools).mono (fun _ s3 h3 => ?_) (fun _ _ he => he)
  rw [Exec.post_bind]
  refine (returns_within (readReasoning_returns cb delta s3) (textStep_readReasoning delta)
    fun _ h => h.tools).mono (fun _ s4 h4 => ?_) (fun _ _ he => he)
  -- nothing but the calls touches the map
  refine (readToolCalls_carries h hint s4).mono (fun _ s5 h5 => ?_) (fun _ _ he => he)
  rw [h5, h4, h3, h2, h1]

/-- **One line.**  The parser adds exactly the fragments that the line delivers. -/
theorem processLine_delivers {lib : JsonText} (cb : StreamCallbacks W) {line : Bytes}
    {group : List Fragment} (h : Delivers lib line group)
    (hint : ∀ f ∈ group, -2 ^ 31 ≤ f.index ∧ f.index < 2 ^ 31) (s : Stream W) :
    Exec.Post (processLine lib cb line) s
      (fun _ s' => s'.parser.toolByIndex = collect s.parser.toolByIndex group)
      (fun _ _ => False) := by
  unfold processLine
  cases h with
  | blank hb =>
    rw [lineKind_blank hb]
    exact rfl
  | comment ha =>
    rw [lineKind_comment ha]
    exact rfl
  | done hd =>
    rw [lineKind_isData hd, if_pos rfl]
    exact rfl
  | unparsable hd hp =>
    rw [lineKind_isData hd]
    split_ifs
    · exact rfl
    · simp only [hp]
      exact rfl
  | chunk hd hne hp hu hc =>
    rw [lineKind_isData hd, if_neg hne]
    simp only [hp]
    exact readChunk_carries cb hu hc hint s

/-! ## 3. Any fragments can be sent -/

/-- The `function` of an element of `tool_calls` for the fragment. -/
def Fragment.functionJson (f : Fragment) : Json :=
  Json.ofFields ((f.head.map fun p => (bytes "name", Json.string p.2)).toList ++
    [(bytes "arguments", .string f.arguments)])

/-- An element of `tool_calls` for the fragment. -/
def Fragment.toJson (f : Fragment) : Json :=
  Json.ofFields ((f.head.map fun p => (bytes "id", Json.string p.1)).toList ++
    [(bytes "index", .integer f.index), (bytes "function", f.functionJson)])

theorem Fragment.carries_toJson (f : Fragment) : Carries f.toJson f := by
  obtain ⟨index, head, arguments⟩ := f
  have hne : bytes "id" ≠ bytes "index" ∧ bytes "id" ≠ bytes "function" ∧
      bytes "index" ≠ bytes "function" ∧ bytes "name" ≠ bytes "arguments" := by decide
  obtain ⟨hid, hidf, hindex, hname⟩ := hne
  refine ⟨?_, fun s => ?_, Fragment.functionJson ⟨index, head, arguments⟩, ?_, rfl,
    fun s => ?_, ?_⟩
  all_goals cases head <;>
    simp [toJson, functionJson, Json.find_ofFields, Json.lookup_cons_ite, hid, hidf, hindex, hname]

/-- A chunk with the fragments and nothing else. -/
def chunkOf (group : List Fragment) : Json :=
  Json.ofFields [(bytes "choices", .array [Json.ofFields
    [(bytes "delta", Json.ofFields
      [(bytes "tool_calls", .array (group.map Fragment.toJson))])]])]

theorem deltaItems_chunkOf (group : List Fragment) :
    deltaItems (chunkOf group) = group.map Fragment.toJson := rfl

/-- A `data:` line with the payload. -/
def dataLine (payload : Bytes) : Bytes := bytes "data: " ++ payload

theorem isData_dataLine {payload : Bytes} (h : Trimmed payload) :
    IsData (dataLine payload) payload := by
  have hspace : Blank [0x20] := by simp [Blank, isSpace]
  have hnil : Blank [] := by simp [Blank]
  have h' := IsData.mk hnil hspace hnil h
  rwa [List.nil_append, List.append_nil] at h'

/-- **Any fragments can be sent in one chunk.** -/
theorem delivers_chunkOf {lib : JsonText} {payload : Bytes} {group : List Fragment}
    (htrim : Trimmed payload) (hdone : payload ≠ bytes "[DONE]")
    (hparse : lib.parse payload = some (chunkOf group)) :
    Delivers lib (dataLine payload) group := by
  refine Delivers.chunk (isData_dataLine htrim) hdone hparse (fun u hu => ?_) ?_
  · have hnone : (chunkOf group).find (bytes "usage") = none := rfl
    rw [hnone] at hu
    cases hu
  · rw [deltaItems_chunkOf, List.forall₂_map_left_iff]
    exact List.forall₂_same.mpr fun f _ => f.carries_toJson

/-! ## 4. The stream -/

/-- The fragments of one call, folded together, are the call. -/
theorem IsCut.foldl_merge {index : Int} {call : ToolCall} {frags : List Fragment}
    (h : IsCut index call frags) :
    frags ≠ [] ∧ frags.foldl (fun acc f => f.merge acc) {} = call := by
  have hpieces : ∀ (pieces : List Bytes) (acc : ToolCall),
      (pieces.map fun p => (⟨index, none, p⟩ : Fragment)).foldl (fun acc f => f.merge acc) acc =
        { acc with arguments := acc.arguments ++ pieces.flatten } := by
    intro pieces
    induction pieces with
    | nil => simp
    | cons p pieces ih =>
      intro acc
      rw [List.map_cons, List.foldl_cons, ih]
      simp [Fragment.merge]
  obtain ⟨start, pieces, hargs⟩ := h
  refine ⟨by simp, ?_⟩
  rw [List.foldl_cons, hpieces]
  simp [Fragment.merge, hargs]

/-- What is collected from interleaved fragments is the map they were cut from. -/
theorem collect_interleaves {calls : CallMap} {frags : List Fragment}
    (h : Interleaves calls frags) : (collect ∅ frags).toList = calls.entries := by
  have hval : ∀ {i : Int} {call : ToolCall}, (i, call) ∈ calls.entries →
      (collect ∅ frags)[i]? = some call := by
    intro i call hmem
    obtain ⟨hne, hfold⟩ := (h.cut i call hmem).foldl_merge
    unfold collect
    rw [Keyed.getElem?_accumulate, if_neg hne, Std.TreeMap.getElem?_emptyc, Option.getD_none,
      hfold]
  refine Keyed.toList_eq (calls.ascending.imp fun hlt => compare_lt_iff_lt.mpr hlt)
    fun i call => ⟨fun hi => ?_, hval⟩
  by_cases hnone : frags.filter (fun f => f.index = i) = []
  · unfold collect at hi
    rw [Keyed.getElem?_accumulate, if_pos hnone] at hi
    simp at hi
  · obtain ⟨f, hf⟩ := List.exists_mem_of_ne_nil _ hnone
    obtain ⟨hmem, hi'⟩ := List.mem_filter.mp hf
    have hidx : f.index = i := by simpa using hi'
    obtain ⟨call', hcall'⟩ := h.known f hmem
    rw [hidx] at hcall'
    rw [hval hcall'] at hi
    cases hi
    exact hcall'

/-- The lines of a stream add the fragments they deliver, one line after another. -/
theorem processLines_delivers {lib : JsonText} (cb : StreamCallbacks W) {ls : List Bytes}
    {groups : List (List Fragment)} (h : List.Forall₂ (Delivers lib) ls groups)
    (hint : ∀ f ∈ groups.flatten, -2 ^ 31 ≤ f.index ∧ f.index < 2 ^ 31) (s : Stream W) :
    Exec.Post (forM ls (processLine lib cb)) s
      (fun _ s' => s'.parser.toolByIndex = collect s.parser.toolByIndex groups.flatten)
      (fun _ _ => False) := by
  induction h generalizing s with
  | nil => exact rfl
  | @cons line group ls groups hl _ ih =>
    rw [List.flatten_cons] at hint ⊢
    rw [List.forM_cons, Exec.post_bind]
    refine (processLine_delivers cb hl (fun f hf => hint f (List.mem_append_left _ hf)) s).mono
      (fun _ t ht => ?_) (fun _ _ he => he)
    refine (ih (fun f hf => hint f (List.mem_append_right _ hf)) t).mono (fun _ u hu => ?_)
      (fun _ _ he => he)
    rw [hu, ht, ← collect_append]

/-- **Reassembly inverts fragmentation.**  However the calls are cut into fragments, the fragments
interleaved and spread over the chunks, and the text of the stream cut into pieces: after the
pieces have been fed, `tool_calls` gives the calls in ascending index order. -/
theorem toolCalls_reassembled (lib : JsonText) (cb : StreamCallbacks W) (calls : CallMap)
    {frags : List Fragment} (hcalls : Interleaves calls frags) {ls : List Bytes}
    {groups : List (List Fragment)} (hgroups : groups.flatten = frags)
    (hls : List.Forall₂ (Delivers lib) ls groups) (hlines : ∀ line ∈ ls, newline ∉ line)
    (pieces : List Bytes) (hpieces : pieces.flatten = ls.flatMap (· ++ [newline])) (w : W) :
    ∃ s, feedAll lib cb pieces { world := w } = .ok ⟨⟩ s ∧
      s.parser.toolCalls = calls.entries.map Prod.snd := by
  have hint : ∀ f ∈ groups.flatten, -2 ^ 31 ≤ f.index ∧ f.index < 2 ^ 31 := by
    intro f hf
    obtain ⟨call, hcall⟩ := hcalls.known f (hgroups ▸ hf)
    exact calls.int _ hcall
  -- however the text is cut, the lines are the ones that were sent
  have hcut : Lines.lines newline pieces.flatten = (ls, []) := by
    have h := Lines.lines_flatMap hlines []
    rw [List.append_nil] at h
    rw [hpieces, h]
    simp [Lines.lines]
  have hspec := feedAll_spec lib cb pieces w
  have hpost := processLines_delivers cb hls hint { world := w }
  unfold completeLines at hspec
  rw [hcut] at hspec
  cases hrun : forM ls (processLine lib cb) ({ world := w } : Stream W) with
  | error e t => exact (hpost.of_error hrun).elim
  | ok u t =>
    rw [hrun] at hspec
    have htools := hpost.of_ok hrun
    rcases hspec with ⟨s, hx, hy⟩ | ⟨e, s, s', -, hy, -⟩
    · refine ⟨s, hx, ?_⟩
      cases hy
      change (t.parser.toolByIndex.toList).map Prod.snd = _
      rw [htools, hgroups]
      change ((collect ∅ frags).toList).map Prod.snd = _
      rw [collect_interleaves hcalls]
    · cases hy

/-- Two calls, of `date` and of `ls`. -/
def twoCalls : CallMap where
  entries :=
    [(0, ⟨bytes "a", bytes "date", bytes "\x7b\x7d"⟩), (1, ⟨bytes "b", bytes "ls", bytes "[]"⟩)]
  ascending := by simp
  int := by simp

/-- The start of the first and all of the second. -/
def twoStarts : List Fragment :=
  [⟨0, some (bytes "a", bytes "date"), bytes "\x7b"⟩, ⟨1, some (bytes "b", bytes "ls"), bytes "[]"⟩]

/-- The rest of the first. -/
def restOfFirst : List Fragment := [⟨0, none, bytes "\x7d"⟩]

theorem interleaves_twoCalls : Interleaves twoCalls (twoStarts ++ restOfFirst) where
  known f hf := by
    simp only [twoStarts, restOfFirst, List.cons_append, List.nil_append, List.mem_cons,
      List.not_mem_nil, or_false] at hf
    rcases hf with rfl | rfl | rfl <;> simp [twoCalls]
  cut i call h := by
    simp only [twoCalls, List.mem_cons, Prod.mk.injEq, List.not_mem_nil, or_false] at h
    rcases h with ⟨rfl, rfl⟩ | ⟨rfl, rfl⟩
    · exact IsCut.mk (bytes "\x7b") [bytes "\x7d"] rfl
    · exact IsCut.mk (bytes "[]") [] rfl

def twoStartsText : Bytes :=
  bytes "\x7b\"choices\":[\x7b\"delta\":\x7b\"tool_calls\":[" ++
    bytes "\x7b\"id\":\"a\",\"index\":0,\"function\":" ++
    bytes "\x7b\"name\":\"date\",\"arguments\":\"\x7b\"\x7d\x7d," ++
    bytes "\x7b\"id\":\"b\",\"index\":1,\"function\":" ++
    bytes "\x7b\"name\":\"ls\",\"arguments\":\"[]\"\x7d\x7d" ++
    bytes "]\x7d\x7d]\x7d"

def restOfFirstText : Bytes :=
  bytes "\x7b\"choices\":[\x7b\"delta\":\x7b\"tool_calls\":[" ++
    bytes "\x7b\"index\":0,\"function\":\x7b\"arguments\":\"\x7d\"\x7d\x7d]\x7d\x7d]\x7d"

def twoCallsLib : JsonText :=
  .ofTable [(twoStartsText, chunkOf twoStarts), (restOfFirstText, chunkOf restOfFirst)] (by
    simp (disch := decide) [chunkOf, twoStarts, restOfFirst, Fragment.toJson,
      Fragment.functionJson, Json.validText_ofFields_iff, Json.ValidText, Json.ValidItems])

set_option maxRecDepth 4000 in
/-- The two calls come back, also with the end of the first line in a piece of its own. -/
theorem toolCalls_reassembled_two :
    ∃ s, feedAll twoCallsLib ({} : StreamCallbacks Unit)
        [dataLine twoStartsText, [newline], dataLine restOfFirstText ++ [newline]]
        { world := () } = .ok ⟨⟩ s ∧
      s.parser.toolCalls = twoCalls.entries.map Prod.snd := by
  have hgroups : [twoStarts, restOfFirst].flatten = twoStarts ++ restOfFirst := rfl
  have hls : List.Forall₂ (Delivers twoCallsLib) [dataLine twoStartsText, dataLine restOfFirstText]
      [twoStarts, restOfFirst] := by
    refine .cons (delivers_chunkOf ⟨?_, ?_⟩ (by decide) rfl)
      (.cons (delivers_chunkOf ⟨?_, ?_⟩ (by decide) rfl) .nil) <;>
      exact fun x h => by cases h; rfl
  have hlines : ∀ line ∈ [dataLine twoStartsText, dataLine restOfFirstText], newline ∉ line := by
    simp only [List.forall_mem_cons]
    decide
  exact toolCalls_reassembled twoCallsLib {} twoCalls interleaves_twoCalls hgroups hls hlines _
    (by simp) ()

end SimpleCoder

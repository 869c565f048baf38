/-
# What the search backend is asked

`web_search` puts the model's query into a URL or, for tavily, into a JSON body.  Whatever bytes the
query has, the backend finds just this query there: it cannot end the field it is in, add another
one, or change the path.

* §1: `url_encode` leaves no separator and is decoded again.
* §2: what each backend reads (`webSearch_asks`).
-/
import SimpleCoder.Agent.Tools.Builtin
import SimpleCoder.Llm.RequestText
import SimpleCoder.Lib.Query

namespace SimpleCoder

/-! ## 1. Encoding -/

theorem hexValue_upperHexDigit : ∀ n < 16,
    Query.hexValue (upperHexDigit n) = some n.toUInt8 ∧ isUnreserved (upperHexDigit n) = true := by
  decide

theorem isUnreserved_ne {c : UInt8} (h : isUnreserved c = true) :
    c ≠ 0x25 ∧ c ≠ 0x2B ∧ c ≠ 0x26 ∧ c ≠ 0x3D ∧ c ≠ 0x23 ∧ c ≠ 0x3F := by
  refine ⟨?_, ?_, ?_, ?_, ?_, ?_⟩ <;> rintro rfl <;> exact absurd h (by decide)

/-- The two digits of a byte make the byte. -/
theorem digits_byte (c : UInt8) :
    16 * (c.toNat / 16).toUInt8 + (c.toNat % 16).toUInt8 = c := by
  have hc := c.toNat_lt
  apply UInt8.toNat_inj.mp
  simp only [UInt8.toNat_add, UInt8.toNat_mul, Nat.toUInt8, UInt8.toNat_ofNat, UInt8.toNat_ofNat']
  omega

theorem mem_urlEncode {s : Bytes} {c : UInt8} (hc : c ∈ urlEncode s) :
    isUnreserved c = true ∨ c = 0x25 := by
  obtain ⟨b, -, hb⟩ := List.mem_flatMap.mp hc
  have hlt := b.toNat_lt
  split at hb
  · rw [List.mem_singleton.mp hb]
    exact .inl ‹_›
  · simp only [List.mem_cons, List.not_mem_nil, or_false] at hb
    rcases hb with rfl | rfl | rfl
    · exact .inr rfl
    · exact .inl (hexValue_upperHexDigit _ (by omega)).2
    · exact .inl (hexValue_upperHexDigit _ (by omega)).2

/-- **What is encoded is decoded again.** -/
theorem decode_urlEncode (s : Bytes) : Query.decode (urlEncode s) = s := by
  induction s with
  | nil => rfl
  | cons c s ih =>
    have hlt := c.toNat_lt
    unfold urlEncode at ih ⊢
    rw [List.flatMap_cons]
    split
    · rename_i hc
      obtain ⟨hpercent, hplus, -⟩ := isUnreserved_ne hc
      rw [List.singleton_append, Query.decode_cons hpercent, ih]
      simp [Query.plus, hplus]
    · have hhigh := (hexValue_upperHexDigit (c.toNat / 16) (by omega)).1
      have hlow := (hexValue_upperHexDigit (c.toNat % 16) (by omega)).1
      simp only [List.cons_append, List.nil_append]
      rw [Query.decode_escape hhigh hlow, ih, digits_byte]

theorem encodes_urlEncode : Query.Encodes urlEncode where
  decoded := decode_urlEncode
  separators s c hc := by
    rcases mem_urlEncode hc with h | rfl
    · exact (isUnreserved_ne h).2.2
    · decide

/-! ## 2. What is asked -/

variable {W : Type}

/-- What the backend finds in the request: the query, and how many results are wanted where that can
be said. -/
def Asks (lib : JsonText) (cfg : WebToolsConfig) (query : Bytes) (n : Int) (req : HttpRequest) :
    Prop :=
  if cfg.searchBackend = bytes "tavily" then
    req.method = bytes "POST" ∧ req.url = cfg.searchUrl ∧
      ∃ j, lib.parse req.body = some j ∧
        j.find (bytes "api_key") = some (.string cfg.searchApiKey) ∧
        j.find (bytes "query") = some (.string query) ∧
        j.find (bytes "max_results") = some (.integer n)
  else if cfg.searchBackend = bytes "brave" then
    req.method = bytes "GET" ∧ req.body = [] ∧
      Query.readUrl req.url = (cfg.searchUrl, [(bytes "q", query)])
  else
    req.method = bytes "GET" ∧ req.body = [] ∧
      Query.readUrl req.url =
        (joinUrl cfg.searchUrl (bytes "/search"),
          [(bytes "q", query), (bytes "format", bytes "json")])

/-- The URL with one field, and with two. -/
theorem readUrl_query {path query : Bytes} (hpath : ∀ c ∈ path, c ≠ 0x23 ∧ c ≠ 0x3F) :
    Query.readUrl (path ++ bytes "?q=" ++ urlEncode query) = (path, [(bytes "q", query)]) ∧
    Query.readUrl (path ++ bytes "?q=" ++ urlEncode query ++ bytes "&format=json") =
      (path, [(bytes "q", query), (bytes "format", bytes "json")]) := by
  have hq : bytes "?q=" = 0x3F :: (urlEncode (bytes "q") ++ [0x3D]) := by decide
  have hformat : bytes "&format=json" =
      0x26 :: Query.render urlEncode (bytes "format", bytes "json") := by decide
  have hone := encodes_urlEncode.readUrl_render hpath (bytes "q", query) []
  have htwo := encodes_urlEncode.readUrl_render hpath (bytes "q", query)
    [(bytes "format", bytes "json")]
  rw [hq, hformat]
  refine ⟨?_, ?_⟩
  · simpa [Query.render] using hone
  · simpa [Query.render] using htwo

theorem joinUrl_path {base : Bytes} (hbase : ∀ c ∈ base, c ≠ 0x23 ∧ c ≠ 0x3F) :
    ∀ c ∈ joinUrl base (bytes "/search"), c ≠ 0x23 ∧ c ≠ 0x3F := by
  intro c hc
  rcases List.mem_append.mp hc with hc | hc
  · refine hbase c ?_
    unfold dropSlash at hc
    split at hc
    · exact List.mem_of_mem_dropLast hc
    · exact hc
  · have hsearch : ∀ c ∈ bytes "/search", c ≠ 0x23 ∧ c ≠ 0x3F := by decide +kernel
    exact hsearch c hc

/-- **A request asks for the query.** -/
theorem searchRequest_asks (floats : FloatText) {cfg : WebToolsConfig} {query : Bytes} {n : Int}
    (hurl : ∀ c ∈ cfg.searchUrl, c ≠ 0x23 ∧ c ≠ 0x3F) (hn : 1 ≤ n ∧ n ≤ 10) {req : HttpRequest}
    (h : searchRequest floats.jsonText cfg query n = .ok req) :
    Asks floats.jsonText cfg query n req := by
  unfold searchRequest at h
  unfold Asks
  split at h
  · rename_i htavily
    rw [if_pos htavily]
    obtain ⟨text, htext, hreq⟩ := Json.except_bind_eq_ok_iff.mp h
    cases hreq
    -- a body that could be written is valid, so it is read back
    have hvalid := (Json.dump_ok_iff floats.jsonText _).mp ⟨text, htext⟩
    rw [Json.validText_ofFields_iff (by simp only [List.map]; decide)] at hvalid
    simp only [List.forall_mem_cons, utf8_bytes, true_and, Json.ValidText, List.not_mem_nil,
      IsEmpty.forall_iff, implies_true, and_true] at hvalid
    have hstored : (Json.ofFields [(bytes "api_key", .string cfg.searchApiKey),
        (bytes "query", .string query), (bytes "max_results", .integer n)]).Stored
        fun _ => True := by
      refine Json.stored_ofFields ?_
      simp only [List.forall_mem_cons, utf8_bytes, true_and, List.not_mem_nil,
        IsEmpty.forall_iff, implies_true, and_true]
      exact ⟨hvalid.1, hvalid.2, by omega, by omega⟩
    refine ⟨rfl, rfl, _, floats.parse_dump hstored htext, ?_, ?_, ?_⟩
    all_goals rw [floats.find_written, Json.find_ofFields]
    · rfl
    · rfl
    · rfl
  · rename_i htavily
    rw [if_neg htavily]
    dsimp only at h
    split at h
    · rename_i hbrave
      cases h
      rw [if_pos hbrave]
      exact ⟨rfl, rfl, (readUrl_query hurl).1⟩
    · rename_i hbrave
      cases h
      rw [if_neg hbrave]
      refine ⟨rfl, rfl, ?_⟩
      -- the parameter is behind the path of the instance
      have hjoin : joinUrl cfg.searchUrl (bytes "/search?q=") =
          joinUrl cfg.searchUrl (bytes "/search") ++ bytes "?q=" := by
        unfold joinUrl
        rw [List.append_assoc]
        rfl
      dsimp only
      rw [hjoin]
      exact (readUrl_query (joinUrl_path hurl)).2

theorem searchRequest_error {lib : JsonText} {cfg : WebToolsConfig} {query : Bytes} {n : Int}
    {e : Exn} (h : searchRequest lib cfg query n = .error e) :
    cfg.searchBackend = bytes "tavily" ∧ ¬ (Utf8 query ∧ Utf8 cfg.searchApiKey) := by
  have hnot : ¬ ∃ req, searchRequest lib cfg query n = .ok req := by
    rw [h]
    rintro ⟨req, hreq⟩
    cases hreq
  by_cases htavily : cfg.searchBackend = bytes "tavily"
  · refine ⟨htavily, fun ⟨hquery, hkey⟩ => hnot ?_⟩
    exact (searchRequest_ok_iff lib cfg hquery n).mpr fun _ => hkey
  · unfold searchRequest at h
    rw [if_neg htavily] at h
    dsimp only at h
    split at h <;> cases h

/-- **A search asks for the query**: the one request that goes out is read by the backend as asking
for the text that the model gave, with at most ten results; only tavily cannot be asked for text, or
with a key, that is not valid. -/
theorem webSearch_asks (floats : FloatText) (host : Host W) {cfg : WebToolsConfig}
    (hurl : ∀ c ∈ cfg.searchUrl, c ≠ 0x23 ∧ c ≠ 0x3F) (hset : cfg.searchUrl ≠ []) {args : Json}
    {query : Bytes} {n : Int} (hquery : args.valueString (bytes "query") [] = .ok query)
    (hne : query ≠ []) (hn : args.valueInt (bytes "max_results") 5 = .ok n) (w : W) :
    (∃ req m, Asks floats.jsonText cfg query m req ∧ 1 ≤ m ∧ m ≤ 10 ∧ (1 ≤ n → m ≤ n) ∧
      (webSearchTool floats.jsonText host cfg).execute args w =
        Exec.ofExcept (searchReport floats.jsonText cfg.searchBackend m (host.http req w).1)
          (host.http req w).2) ∨
    (cfg.searchBackend = bytes "tavily" ∧ ¬ (Utf8 query ∧ Utf8 cfg.searchApiKey) ∧
      ∃ e, (webSearchTool floats.jsonText host cfg).execute args w = .error e w) := by
  have hcount : 1 ≤ clampCount n 5 10 ∧ clampCount n 5 10 ≤ 10 ∧
      (1 ≤ n → clampCount n 5 10 ≤ n) := by
    unfold clampCount
    split <;> omega
  have hexecute : (webSearchTool floats.jsonText host cfg).execute args w =
      (do
        let req ← Exec.ofExcept (searchRequest floats.jsonText cfg query (clampCount n 5 10))
        let resp ← modifyGet (host.http req)
        Exec.ofExcept (searchReport floats.jsonText cfg.searchBackend (clampCount n 5 10) resp) :
        EStateM Exn W ToolResult) w := by
    unfold webSearchTool textArg intArg
    dsimp only
    rw [Exec.ofExcept_bind_ok hquery, if_neg hne, if_neg hset, Exec.ofExcept_bind_ok hn]
  cases hreq : searchRequest floats.jsonText cfg query (clampCount n 5 10) with
  | ok req =>
    refine .inl ⟨req, _, searchRequest_asks floats hurl ⟨hcount.1, hcount.2.1⟩ hreq, hcount.1,
      hcount.2.1, hcount.2.2, ?_⟩
    rw [hexecute, Exec.ofExcept_bind_ok hreq]
    rfl
  | error e =>
    refine .inr ?_
    obtain ⟨htavily, hvalid⟩ := searchRequest_error hreq
    refine ⟨htavily, hvalid, e, ?_⟩
    rw [hexecute, Exec.ofExcept_bind_error hreq]

/-- A query that would add a field of its own, if it were not encoded. -/
theorem webSearch_asks_ampersand :
    let cfg : WebToolsConfig := { searchUrl := bytes "http://localhost/" }
    let args := Json.ofFields [(bytes "query", .string (bytes "a&format=html#"))]
    ∃ req m, Asks oneAndHalf.jsonText cfg (bytes "a&format=html#") m req ∧
      (webSearchTool oneAndHalf.jsonText (Host.ofFiles [] : Host Unit) cfg).execute args () =
        Exec.ofExcept (searchReport oneAndHalf.jsonText cfg.searchBackend m
          ((Host.ofFiles [] : Host Unit).http req ()).1) () := by
  intro cfg args
  have hurl : ∀ c ∈ cfg.searchUrl, c ≠ 0x23 ∧ c ≠ 0x3F := by decide +kernel
  rcases webSearch_asks oneAndHalf (Host.ofFiles [] : Host Unit) hurl (by decide)
    (show args.valueString (bytes "query") [] = .ok (bytes "a&format=html#") by rfl) (by decide)
    (show args.valueInt (bytes "max_results") 5 = .ok 5 by rfl) () with
    ⟨req, m, hasks, -, -, -, hexecute⟩ | ⟨htavily, -⟩
  · exact ⟨req, m, hasks, hexecute⟩
  · exact absurd htavily (by decide)

end SimpleCoder

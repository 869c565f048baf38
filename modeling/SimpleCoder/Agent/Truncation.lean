/-
# Output that is cut off

Three tools cut long output after a number of bytes: `fetch_url` a page after `max_chars`,
`grep_search` a line and `web_search` a snippet after 300.  The rest of what they write is valid
text if their sources are.  So their output is valid exactly if none of the cuts it shows is within
a character (`truncation_valid_iff`).
-/
import SimpleCoder.Agent.TolerantJson
import SimpleCoder.Util.Utf8

namespace SimpleCoder

open Utf8 (AtBoundary isCont)

variable {W : Type}

/-! ## 1. One cut -/

/-- The text is cut after `n` bytes, if it is longer, at the start of a character. -/
def CutWell (s : Bytes) (n : Nat) : Prop := n < s.length → AtBoundary s n

/-- A text that begins with one of these bytes does not begin within a character. -/
theorem head_lead {b : UInt8} {t : Bytes} (hb : isCont b = false) :
    ∀ b', (b :: t).head? = some b' → isCont b' = false := by
  intro b' h
  rwa [← Option.some.inj h]

theorem utf8_append_newline_iff (s t : Bytes) :
    Utf8 (s ++ newline :: t) ↔ Utf8 s ∧ Utf8 t := by
  rw [Utf8.valid_append_iff (head_lead (by decide))]
  exact and_congr_right fun _ => Utf8.valid_append_iff_right (s := [newline]) (by decide) t

/-- **A text and a valid ending** that does not begin within a character. -/
theorem utf8_take_append_iff {s ending : Bytes} (hs : Utf8 s) (n : Nat) (hending : Utf8 ending)
    (hlead : ∀ b, ending.head? = some b → isCont b = false) :
    Utf8 (s.take n ++ ending) ↔ AtBoundary s n := by
  rw [Utf8.valid_append_iff hlead, Utf8.valid_take_iff hs]
  exact and_iff_left hending

/-- **What `truncate` gives.** -/
theorem truncateText_valid_iff {s : Bytes} (hs : Utf8 s) (n : Nat) :
    Utf8 (truncateText s n) ↔ CutWell s n := by
  unfold truncateText CutWell
  split
  · rename_i hlong
    rw [utf8_take_append_iff hs n (utf8_bytes _) (by decide +kernel)]
    exact ⟨fun h _ => h, fun h => h hlong⟩
  · rename_i hshort
    exact iff_of_true hs fun h => absurd h hshort

/-! ## 2. `fetch_url` -/

/-- A page that is passed on as it is: its type says plain text. -/
def PlainPage (contentType : Bytes) : Prop :=
  containsText (bytes "text/plain") (toLower contentType) = true ∧
    containsText (bytes "html") (toLower contentType) = false

theorem htmlToText_plain {contentType : Bytes} (h : PlainPage contentType) (body : Bytes) :
    htmlToText body contentType = body := by
  unfold htmlToText
  simp [h.1, h.2]

/-- The page that is reported is cut well, if it is cut. -/
def PageCutWell (maxChars : Int) (resp : HttpResponse) : Prop :=
  resp.status ≠ 0 → resp.status < 400 → maxChars < intCast resp.body.length →
    AtBoundary resp.body maxChars.toNat

theorem transportError_valid {what : Bytes} {resp : HttpResponse} (hwhat : Utf8 what)
    (herror : Utf8 resp.error) : Utf8 (transportError what resp) := by
  unfold transportError
  refine Utf8.append (((utf8_bytes _).append hwhat).append (utf8_bytes _)) ?_
  split
  · exact utf8_bytes _
  · exact herror

/-- What is put behind a page that is cut. -/
def pageMark : Bytes := bytes "\n… [truncated]"

theorem pageMark_lead : ∀ b, pageMark.head? = some b → isCont b = false := by
  decide +kernel

/-- The page as it is reported. -/
def reportedPage (maxChars : Int) (resp : HttpResponse) : Bytes :=
  if intCast resp.body.length > maxChars then resp.body.take maxChars.toNat ++ pageMark
  else if resp.truncated then resp.body ++ pageMark
  else resp.body

theorem fetchReport_page (url : Bytes) (maxChars : Int) {resp : HttpResponse}
    (hstatus : resp.status ≠ 0) (h400 : ¬ 400 ≤ resp.status)
    (hplain : PlainPage resp.contentType) :
    fetchReport url maxChars resp =
      if reportedPage maxChars resp = [] then success (bytes "(no readable text on page)")
      else success (reportedPage maxChars resp) := by
  unfold fetchReport reportedPage pageMark
  rw [if_neg hstatus, if_neg h400, htmlToText_plain hplain]

theorem pageMark_valid : Utf8 pageMark := utf8_bytes _

/-- **The reported page** is valid exactly if it is cut well. -/
theorem reportedPage_valid_iff {resp : HttpResponse} (maxChars : Int) (hbody : Utf8 resp.body) :
    Utf8 (reportedPage maxChars resp) ↔
      (maxChars < intCast resp.body.length → AtBoundary resp.body maxChars.toNat) := by
  unfold reportedPage
  split
  · rename_i hlong
    rw [utf8_take_append_iff hbody _ pageMark_valid pageMark_lead]
    exact ⟨fun h _ => h, fun h => h hlong⟩
  rename_i hshort
  refine iff_of_true ?_ fun h => absurd h hshort
  split
  · exact hbody.append pageMark_valid
  · exact hbody

theorem fetchReport_failed (url : Bytes) (maxChars : Int) {resp : HttpResponse}
    (hstatus : resp.status = 0) :
    (fetchReport url maxChars resp).output = transportError (bytes "request") resp := by
  unfold fetchReport
  rw [if_pos hstatus, failure_output]

theorem fetchReport_refused (url : Bytes) (maxChars : Int) {resp : HttpResponse}
    (hstatus : resp.status ≠ 0) (h400 : 400 ≤ resp.status) :
    (fetchReport url maxChars resp).output =
      bytes "error: HTTP " ++ decimal resp.status ++ bytes " fetching " ++ url := by
  unfold fetchReport
  rw [if_neg hstatus, if_pos h400, failure_output]

/-- **What `fetch_url` reports** is valid exactly if the page is cut well. -/
theorem fetchReport_valid_iff {url : Bytes} {resp : HttpResponse} (maxChars : Int)
    (hurl : Utf8 url) (herror : Utf8 resp.error) (hbody : Utf8 resp.body)
    (hplain : PlainPage resp.contentType) :
    Utf8 (fetchReport url maxChars resp).output ↔ PageCutWell maxChars resp := by
  unfold PageCutWell
  by_cases hstatus : resp.status = 0
  · refine iff_of_true ?_ fun h => absurd hstatus h
    rw [fetchReport_failed url maxChars hstatus]
    exact transportError_valid (utf8_bytes _) herror
  by_cases h400 : 400 ≤ resp.status
  · refine iff_of_true ?_ fun _ h => absurd h (by omega)
    rw [fetchReport_refused url maxChars hstatus h400]
    exact (((utf8_bytes _).append (utf8_bytes _)).append (utf8_bytes _)).append hurl
  rw [fetchReport_page url maxChars hstatus h400 hplain]
  have hpage := reportedPage_valid_iff maxChars hbody
  have hvalid : Utf8 (reportedPage maxChars resp) ↔
      (resp.status ≠ 0 → resp.status < 400 → maxChars < intCast resp.body.length →
        AtBoundary resp.body maxChars.toNat) :=
    hpage.trans ⟨fun h _ _ => h, fun h => h hstatus (by omega)⟩
  rw [apply_ite ToolResult.output, success_output, success_output]
  split
  · rename_i hempty
    refine iff_of_true (utf8_bytes _) (hvalid.mp ?_)
    rw [hempty]
    exact utf8_nil
  · exact hvalid

/-! ## 3. `grep_search` -/

/-- A line of a file that the expression finds. -/
structure Match where
  file : Bytes
  lineno : Nat
  line : Bytes

/-- The line of the report for it. -/
def Match.shown (m : Match) : Bytes := matchLine m.file m.lineno m.line

/-- The matches in a file's numbered lines. -/
def lineMatches (file : Bytes) (re : Bytes → Bool) (lines : List (Bytes × Nat)) : List Match :=
  (lines.filter fun p => re p.1).map fun p => ⟨file, p.2, p.1⟩

/-- The matches in a file. -/
def fileMatches (host : Host W) (re : Bytes → Bool) (file : Bytes) (w : W) : List Match × W :=
  match host.readFile file w with
  | (none, w) => ([], w)
  | (some content, w) => (lineMatches file re ((splitLines content).zipIdx 1), w)

/-- The matches in the files of a directory, in the order of the walk. -/
def treeMatches (host : Host W) (re : Bytes → Bool) : List WalkEntry → W → List Match
  | [], _ => []
  | e :: es, w =>
    if e.isRegularFile then
      let (found, w) := fileMatches host re e.path w
      found ++ treeMatches host re es w
    else treeMatches host re es w

/-- The matches that `grep_search` reports. -/
def reportedMatches (host : Host W) (re : Bytes → Bool) (path : Bytes) (w : W) : List Match :=
  (if host.isDirectory path w then treeMatches host re (host.walk path w).entries w
    else (fileMatches host re path w).1).take maxMatches

theorem lineMatches_cons_of_pos (file : Bytes) {re : Bytes → Bool} {p : Bytes × Nat}
    (h : re p.1 = true) (rest : List (Bytes × Nat)) :
    lineMatches file re (p :: rest) = ⟨file, p.2, p.1⟩ :: lineMatches file re rest := by
  simp [lineMatches, h]

theorem lineMatches_cons_of_neg (file : Bytes) {re : Bytes → Bool} {p : Bytes × Nat}
    (h : ¬ re p.1 = true) (rest : List (Bytes × Nat)) :
    lineMatches file re (p :: rest) = lineMatches file re rest := by
  simp [lineMatches, h]

theorem searchLines_eq (file : Bytes) (re : Bytes → Bool) (lines : List (Bytes × Nat))
    (budget : Nat) :
    searchLines file re budget lines =
      (((lineMatches file re lines).take budget).flatMap Match.shown,
        ((lineMatches file re lines).take budget).length) := by
  induction lines generalizing budget with
  | nil => cases budget <;> simp [searchLines, lineMatches]
  | cons p rest ih =>
    obtain ⟨line, lineno⟩ := p
    cases budget with
    | zero => simp [searchLines]
    | succ budget =>
      rw [searchLines]
      split
      · rename_i hfound
        rw [ih budget, lineMatches_cons_of_pos file hfound]
        rfl
      · rename_i hfound
        rw [ih (budget + 1), lineMatches_cons_of_neg file hfound]

theorem search_eq (host : Host W) (re : Bytes → Bool) (file : Bytes) (f : Found) (w : W) :
    f.search host re file w =
      ({ f with
          out := f.out ++
            ((fileMatches host re file w).1.take f.remaining).flatMap Match.shown
          remaining := f.remaining - (fileMatches host re file w).1.length },
        (fileMatches host re file w).2) := by
  unfold Found.search searchFile fileMatches
  rcases host.readFile file w with ⟨_ | content, w'⟩
  · simp
  · dsimp only
    rw [searchLines_eq]
    simp only [List.length_take, Prod.mk.injEq, and_true, Found.mk.injEq, true_and]
    omega

/-- **The loop over a directory** appends the matches that are left in the budget. -/
theorem searchTree_out (host : Host W) (re : Bytes → Bool) (es : List WalkEntry) (f : Found)
    (w : W) :
    (searchTree host re es f w).1.out =
      f.out ++ ((treeMatches host re es w).take f.remaining).flatMap Match.shown := by
  induction es generalizing f w with
  | nil => simp [searchTree, treeMatches]
  | cons e es ih =>
    rw [searchTree, treeMatches]
    by_cases hspent : f.remaining = 0
    · rw [if_pos hspent, hspent]
      simp
    rw [if_neg hspent]
    split
    · rw [search_eq]
      dsimp only
      rw [ih, List.take_append, List.flatMap_append, List.append_assoc]
    · exact ih f w

theorem searchPath_out (host : Host W) (re : Bytes → Bool) (path : Bytes) (w : W) :
    Exec.Post (searchPath host re path) w
      (fun f _ => f.out = (reportedMatches host re path w).flatMap Match.shown)
      (fun _ _ => True) := by
  unfold searchPath reportedMatches
  rw [Exec.post_bind, Exec.post_get]
  split
  · rw [Exec.post_bind, Exec.post_modifyGet]
    split
    · trivial
    · exact searchTree_out host re _ {} w
  · rw [Exec.post_modifyGet, search_eq]
    rfl

/-! ### What is valid of it -/

/-- Texts that end in themselves, one behind the other. -/
theorem utf8_flatMap_iff {α : Type} {f : α → Bytes} {P : α → Prop} {l : List α}
    (h : ∀ a ∈ l, ∀ rest, Utf8 (f a ++ rest) ↔ P a ∧ Utf8 rest) :
    Utf8 (l.flatMap f) ↔ ∀ a ∈ l, P a := by
  induction l with
  | nil => simp
  | cons a l ih =>
    obtain ⟨ha, hl⟩ := List.forall_mem_cons.mp h
    rw [List.flatMap_cons, ha, List.forall_mem_cons, ih hl]

theorem Match.utf8_shown_append_iff {m : Match} (hfile : Utf8 m.file) (hline : Utf8 m.line)
    (rest : Bytes) : Utf8 (m.shown ++ rest) ↔ CutWell m.line maxLineLen ∧ Utf8 rest := by
  have hlead : Utf8 (m.file ++ bytes ":" ++ decimal m.lineno ++ bytes ": ") :=
    ((hfile.append (utf8_bytes _)).append (utf8_bytes _)).append (utf8_bytes _)
  have hshown : m.shown ++ rest =
      m.file ++ bytes ":" ++ decimal m.lineno ++ bytes ": " ++ truncateText m.line maxLineLen ++
        newline :: rest := by
    unfold Match.shown matchLine truncateText
    simp only [List.append_assoc, List.singleton_append]
  rw [hshown, utf8_append_newline_iff, Utf8.valid_append_iff_right hlead,
    truncateText_valid_iff hline]

theorem Found.report_valid_iff (f : Found) : Utf8 f.report.output ↔ Utf8 f.out := by
  have hlead : ∀ b, (bytes "[truncated at " ++ decimal maxMatches ++ bytes " matches]\n").head? =
      some b → isCont b = false := by decide +kernel
  unfold Found.report
  split
  · rename_i hempty
    rw [hempty]
    exact iff_of_true (utf8_bytes _) utf8_nil
  split
  · rw [success_output, List.append_assoc, List.append_assoc, ← List.append_assoc (bytes _),
      Utf8.valid_append_iff hlead]
    exact and_iff_left (((utf8_bytes _).append (utf8_bytes _)).append (utf8_bytes _))
  · rfl

/-! ## 4. `web_search` -/

/-- The texts of a result are valid. -/
structure SearchResult.Valid (r : SearchResult) : Prop where
  title : Utf8 r.title
  url : Utf8 r.url
  snippet : Utf8 r.snippet

theorem utf8_resultLines_append_iff {r : SearchResult} (hr : r.Valid) (number : Nat)
    (rest : Bytes) :
    Utf8 (resultLines r number ++ rest) ↔ CutWell r.snippet maxSnippet ∧ Utf8 rest := by
  have htitle : Utf8 (decimal number ++ bytes ". " ++ (if r.title = [] then r.url else r.title) ++
      [newline] ++ bytes "   " ++ r.url ++ [newline]) := by
    refine ((((Utf8.append ((utf8_bytes _).append (utf8_bytes _)) ?_).append ?_).append
      (utf8_bytes _)).append hr.url).append ?_
    · split
      · exact hr.url
      · exact hr.title
    · decide
    · decide
  unfold resultLines
  rw [List.append_assoc, Utf8.valid_append_iff_right htitle]
  split
  · rename_i hnone
    rw [hnone]
    exact (and_iff_right fun h => absurd h (by decide)).symm
  · rw [List.append_assoc, List.singleton_append, utf8_append_newline_iff,
      Utf8.valid_append_iff_right (utf8_bytes _), truncateText_valid_iff hr.snippet]

theorem resultReport_valid_iff {results : List SearchResult} (hvalid : ∀ r ∈ results, r.Valid)
    (maxResults : Int) :
    Utf8 (resultReport results maxResults).output ↔
      ∀ r ∈ results.take maxResults.toNat, CutWell r.snippet maxSnippet := by
  unfold resultReport
  split
  · rename_i hnone
    rw [hnone]
    exact iff_of_true (utf8_bytes _) (by simp)
  have hfst := List.zipIdx_map_fst 1 (results.take maxResults.toNat)
  rw [success_output, utf8_flatMap_iff (P := fun p => CutWell p.1.snippet maxSnippet)]
  · rw [← hfst, List.forall_mem_map, hfst]
  · intro p hp
    have hmem : p.1 ∈ results.take maxResults.toNat := hfst ▸ List.mem_map_of_mem hp
    exact utf8_resultLines_append_iff (hvalid p.1 (List.mem_of_mem_take hmem)) p.2

theorem resultItems_valid {j : Json} (h : j.ValidText) : ∀ r ∈ resultItems j, r.ValidText := by
  unfold resultItems
  split
  · rename_i items hitems
    exact Json.validItems_iff.mp (h.find hitems)
  · simp

theorem searchItems_valid (backend : Bytes) {j : Json} (h : j.ValidText) :
    ∀ r ∈ searchItems backend j, r.ValidText := by
  unfold searchItems
  split
  · split
    · rename_i web hweb
      split
      · exact resultItems_valid (h.find hweb)
      · simp
    · simp
  · exact resultItems_valid h

theorem describedResults_valid (backend : Bytes) {j : Json} (h : j.ValidText) :
    ∀ r ∈ describedResults backend j, r.Valid := by
  intro result hresult
  obtain ⟨r, hr, heq⟩ := List.mem_filterMap.mp hresult
  have hvalid := searchItems_valid backend h r hr
  unfold describedResult at heq
  split at heq
  · rw [← Option.some.inj heq]
    exact ⟨argText_valid hvalid _, argText_valid hvalid _, argText_valid hvalid _⟩
  · cases heq

/-- The snippets that are shown are cut well. -/
def SnippetsCutWell (lib : JsonText) (backend : Bytes) (maxResults : Int) (resp : HttpResponse) :
    Prop :=
  resp.status ≠ 0 → resp.status < 400 → ∀ j, lib.parse resp.body = some j →
    ∀ r ∈ (describedResults backend j).take maxResults.toNat, CutWell r.snippet maxSnippet

/-- **What `web_search` reports** is valid exactly if the snippets are cut well. -/
theorem searchReport_valid_iff {lib : JsonText} {backend : Bytes} {maxResults : Int}
    {resp : HttpResponse} {r : ToolResult} (herror : Utf8 resp.error)
    (hr : searchReport lib backend maxResults resp = .ok r) :
    Utf8 r.output ↔ SnippetsCutWell lib backend maxResults resp := by
  unfold searchReport at hr
  unfold SnippetsCutWell
  by_cases hstatus : resp.status = 0
  · rw [if_pos hstatus] at hr
    rw [← Except.ok.inj hr]
    exact iff_of_true (transportError_valid (utf8_bytes _) herror) fun h => absurd hstatus h
  rw [if_neg hstatus] at hr
  by_cases h400 : 400 ≤ resp.status
  · rw [if_pos h400] at hr
    rw [← Except.ok.inj hr]
    exact iff_of_true ((utf8_bytes _).append (utf8_bytes _)) fun _ h => absurd h (by omega)
  rw [if_neg h400] at hr
  have hlt : resp.status < 400 := by omega
  cases hparse : lib.parse resp.body with
  | none =>
    rw [hparse] at hr
    rw [← Except.ok.inj hr]
    exact iff_of_true (utf8_bytes _) (by simp)
  | some j =>
    rw [hparse] at hr
    obtain ⟨results, hresults, hreport⟩ := Json.except_bind_eq_ok_iff.mp hr
    have hplain := (parseSearchResults_ok_iff backend j).mp ⟨_, hresults⟩
    rw [(parseSearchResults_eq_iff backend j).mpr hplain] at hresults
    rw [← Except.ok.inj hreport, ← Except.ok.inj hresults,
      resultReport_valid_iff (describedResults_valid backend (lib.parse_validText hparse))]
    simp [hstatus, hlt]

/-! ## 5. The tools -/

/-- The tools that cut what they show. -/
inductive Cutter where
  | fetchUrl
  | grepSearch
  | webSearch

namespace Cutter

def builtin : Cutter → Builtin
  | fetchUrl => .fetchUrl
  | grepSearch => .grepSearch
  | webSearch => .webSearch

/-- The texts from outside that a call may show are valid, and a page is plain text. -/
def SourcesValid (lib : JsonText) (host : Host W) (web : WebToolsConfig) (t : Cutter) (args : Json)
    (w : W) : Prop :=
  match t with
  | fetchUrl =>
    let resp := (host.http { url := argText args (bytes "url") } w).1
    Utf8 resp.error ∧ Utf8 resp.body ∧ PlainPage resp.contentType
  | grepSearch =>
    let pattern := argText args (bytes "pattern")
    (∀ message, host.regex pattern = .error message → Utf8 message) ∧
      ∀ re, host.regex pattern = .ok re →
        ∀ m ∈ reportedMatches host re (argText args (bytes "path")) w, Utf8 m.file ∧ Utf8 m.line
  | webSearch =>
    ∀ n, args.valueInt (bytes "max_results") 5 = .ok n →
      ∀ req, searchRequest lib web (argText args (bytes "query")) (clampCount n 5 10) = .ok req →
        Utf8 (host.http req w).1.error

/-- No cut that a call shows is within a character. -/
def CutsWell (lib : JsonText) (host : Host W) (web : WebToolsConfig) (t : Cutter) (args : Json)
    (w : W) : Prop :=
  match t with
  | fetchUrl =>
    let url := argText args (bytes "url")
    startsWith url (bytes "http://") = true ∨ startsWith url (bytes "https://") = true →
      ∀ n, args.valueInt (bytes "max_chars") 20000 = .ok n →
        PageCutWell (clampCount n 20000 200000) (host.http { url := url } w).1
  | grepSearch =>
    let path := argText args (bytes "path")
    argText args (bytes "pattern") ≠ [] → path ≠ [] →
      ∀ re, host.regex (argText args (bytes "pattern")) = .ok re →
        host.pathExists path w = true →
          ∀ m ∈ reportedMatches host re path w, CutWell m.line maxLineLen
  | webSearch =>
    let query := argText args (bytes "query")
    query ≠ [] → web.searchUrl ≠ [] →
      ∀ n, args.valueInt (bytes "max_results") 5 = .ok n →
        ∀ req, searchRequest lib web query (clampCount n 5 10) = .ok req →
          SnippetsCutWell lib web.searchBackend (clampCount n 5 10) (host.http req w).1

end Cutter

/-- Of what a program that reads an argument returns, it is enough to look at what it does with the
argument's text. -/
theorem post_of_argText {α : Type} {args : Json} {key : Bytes} {k : Bytes → EStateM Exn W α} {w : W}
    {Q : α → W → Prop} (h : Exec.Post (k (argText args key)) w Q fun _ _ => True) :
    Exec.Post (textArg args key >>= k) w Q fun _ _ => True := by
  unfold textArg
  rw [Exec.post_bind, Exec.post_ofExcept]
  refine ⟨fun s hs => ?_, fun _ _ => trivial⟩
  rw [valueString_eq ((Json.valueString_ok_iff []).mp ⟨s, hs⟩)] at hs
  rwa [← Except.ok.inj hs]

theorem fetchUrl_cuts {lib : JsonText} {host : Host W} {web : WebToolsConfig} {args : Json} {w : W}
    (hargs : args.ValidText) (hsources : Cutter.fetchUrl.SourcesValid lib host web args w) :
    Exec.Post ((fetchUrlTool lib host).execute args) w
      (fun r _ => Utf8 r.output ↔ Cutter.fetchUrl.CutsWell lib host web args w)
      (fun _ _ => True) := by
  obtain ⟨herror, hbody, hplain⟩ := hsources
  unfold fetchUrlTool Cutter.CutsWell
  refine post_of_argText ?_
  dsimp only
  split
  · rename_i hnone
    refine iff_of_true (utf8_bytes _) fun h => ?_
    rw [hnone] at h
    exact absurd h (by decide)
  split
  · rename_i hno
    exact iff_of_true (utf8_bytes _) fun h => by simp [hno.1, hno.2] at h
  rename_i hno
  have hyes : startsWith (argText args (bytes "url")) (bytes "http://") = true ∨
      startsWith (argText args (bytes "url")) (bytes "https://") = true := by
    by_contra hneither
    exact hno (by simpa using hneither)
  unfold intArg
  rw [Exec.post_bind, Exec.post_ofExcept]
  refine ⟨fun n hn => ?_, fun _ _ => trivial⟩
  rw [Exec.post_bind, Exec.post_modifyGet, Exec.post_pure,
    fetchReport_valid_iff _ (argText_valid hargs _) herror hbody hplain]
  simp [hyes, hn]

theorem grepSearch_cuts {lib : JsonText} {host : Host W} {web : WebToolsConfig} {args : Json}
    {w : W} (hargs : args.ValidText)
    (hsources : Cutter.grepSearch.SourcesValid lib host web args w) :
    Exec.Post ((grepSearchTool lib host).execute args) w
      (fun r _ => Utf8 r.output ↔ Cutter.grepSearch.CutsWell lib host web args w)
      (fun _ _ => True) := by
  obtain ⟨hmessage, hmatches⟩ := hsources
  unfold grepSearchTool Cutter.CutsWell
  refine post_of_argText (post_of_argText ?_)
  dsimp only
  split
  · -- a report of what went wrong is valid, and nothing is cut
    rename_i hnone
    exact iff_of_true (utf8_bytes _) fun h => absurd hnone h
  split
  · rename_i hnone
    exact iff_of_true (utf8_bytes _) fun _ h => absurd hnone h
  rename_i hpattern hpath
  split
  · rename_i message hre
    exact iff_of_true ((utf8_bytes _).append (hmessage message hre)) fun _ _ re h => by
      simp [hre] at h
  rename_i re hre
  rw [Exec.post_bind, Exec.post_get]
  split
  · rename_i hmissing
    refine iff_of_true ((((utf8_bytes _).append ?_)).append (utf8_bytes _)) fun _ _ _ _ h => by
      simp [hmissing] at h
    exact ((utf8_bytes _).append (argText_valid hargs _)).append (utf8_bytes _)
  rename_i hexists
  rw [Exec.post_bind]
  refine (searchPath_out host re _ w).mono (fun f w' hf => ?_) fun _ _ h => h
  rw [Exec.post_pure, Found.report_valid_iff, hf, utf8_flatMap_iff fun m hm =>
    Match.utf8_shown_append_iff (hmatches re hre m hm).1 (hmatches re hre m hm).2]
  simp [hpattern, hpath, hre, hexists]

theorem webSearch_cuts {lib : JsonText} {host : Host W} {web : WebToolsConfig} {args : Json}
    {w : W} (hsources : Cutter.webSearch.SourcesValid lib host web args w) :
    Exec.Post ((webSearchTool lib host web).execute args) w
      (fun r _ => Utf8 r.output ↔ Cutter.webSearch.CutsWell lib host web args w)
      (fun _ _ => True) := by
  unfold webSearchTool Cutter.CutsWell
  refine post_of_argText ?_
  dsimp only
  split
  · rename_i hnone
    exact iff_of_true (utf8_bytes _) fun h => absurd hnone h
  split
  · rename_i hnone
    exact iff_of_true ((utf8_bytes _).append (utf8_bytes _)) fun _ h => absurd hnone h
  rename_i hquery hurl
  unfold intArg
  rw [Exec.post_bind, Exec.post_ofExcept]
  refine ⟨fun n hn => ?_, fun _ _ => trivial⟩
  rw [Exec.post_bind, Exec.post_ofExcept]
  refine ⟨fun req hreq => ?_, fun _ _ => trivial⟩
  rw [Exec.post_bind, Exec.post_modifyGet, Exec.post_ofExcept]
  refine ⟨fun r hr => ?_, fun _ _ => trivial⟩
  rw [searchReport_valid_iff (hsources n hn req hreq) hr]
  simp [hquery, hurl, hn, hreq]

/-- **When cut output is valid text**: exactly when no cut it shows is within a character. -/
theorem truncation_valid_iff {lib : JsonText} {host : Host W} {web : WebToolsConfig} (t : Cutter)
    {args : Json} {w w' : W} {r : ToolResult} (hargs : args.ValidText)
    (hsources : t.SourcesValid lib host web args w)
    (hrun : (t.builtin.tool lib host web).execute args w = .ok r w') :
    Utf8 r.output ↔ t.CutsWell lib host web args w := by
  cases t with
  | fetchUrl => exact (fetchUrl_cuts hargs hsources).of_ok hrun
  | grepSearch => exact (grepSearch_cuts hargs hsources).of_ok hrun
  | webSearch => exact (webSearch_cuts hsources).of_ok hrun

/-- A page of plain text. -/
def plainPage (body : Bytes) : HttpResponse :=
  { status := 200, body := body, contentType := bytes "text/plain" }

theorem plainPage_plain (body : Bytes) : PlainPage (plainPage body).contentType :=
  have h : PlainPage (bytes "text/plain") := ⟨by decide, by decide⟩
  h

/-- An outside in which every address is this page. -/
def Host.ofPage (body : Bytes) : Host Unit :=
  { (Host.ofFiles [] : Host Unit) with http := fun _ w => (plainPage body, w) }

/-- Arguments of `fetch_url`. -/
def fetchArgs (maxChars : Int) : Json :=
  .object [(bytes "max_chars", .integer maxChars), (bytes "url", .string (bytes "http://a"))]

theorem fetchArgs_valid (maxChars : Int) : (fetchArgs maxChars).ValidText :=
  ⟨utf8_bytes _, trivial, utf8_bytes _, utf8_bytes _, trivial⟩

theorem Host.ofPage_valid (lib : JsonText) {body : Bytes} (hbody : Utf8 body) (maxChars : Int) :
    Cutter.fetchUrl.SourcesValid lib (Host.ofPage body) {} (fetchArgs maxChars) () :=
  ⟨utf8_nil, hbody, plainPage_plain body⟩

theorem fetchUrl_ofPage (lib : JsonText) (body : Bytes) :
    (fetchUrlTool lib (Host.ofPage body)).execute (fetchArgs 1) () =
      .ok (fetchReport (bytes "http://a") 1 (plainPage body)) () := by
  rfl

theorem truncation_valid_page :
    Utf8 (fetchReport (bytes "http://a") 1 (plainPage (bytes "ab"))).output ↔
      Cutter.fetchUrl.CutsWell .empty (Host.ofPage (bytes "ab")) {} (fetchArgs 1) () :=
  truncation_valid_iff .fetchUrl (fetchArgs_valid 1) (Host.ofPage_valid .empty (utf8_bytes _) 1)
    (fetchUrl_ofPage .empty _)

/-- **A character is cut in two**: of a page that is an `é`, one byte is shown. -/
theorem truncation_cuts_character :
    (fetchArgs 1).ValidText ∧
      Cutter.fetchUrl.SourcesValid .empty (Host.ofPage (bytes "é")) {} (fetchArgs 1) () ∧
      ∃ r, (Cutter.fetchUrl.builtin.tool .empty (Host.ofPage (bytes "é")) {}).execute
        (fetchArgs 1) () = .ok r () ∧ ¬ Utf8 r.output := by
  refine ⟨fetchArgs_valid 1, Host.ofPage_valid .empty (utf8_bytes _) 1,
    fetchReport (bytes "http://a") 1 (plainPage (bytes "é")), fetchUrl_ofPage .empty _, ?_⟩
  have hbody : Utf8 (plainPage (bytes "é")).body := utf8_bytes "é"
  intro hvalid
  have hwell :=
    (fetchReport_valid_iff 1 (utf8_bytes _) utf8_nil hbody (plainPage_plain _)).mp hvalid
  have hcut : AtBoundary (bytes "é") 1 := hwell (by decide) (by decide) (by decide)
  exact absurd (hcut 0xA9 rfl) (by decide)

end SimpleCoder

/-
# Stripping the markup of a page

A page that is put together from texts, tags, scripts and styles (`Segment`) is taken apart by the
scan of `html_to_text` at the same places.  After each segment the scan stands at the next one: the
`>` of a tag is the first there is, and the closing tag of a script or style is the first that the
search for it can find, since neither its attributes nor its content have one.

So what is left of the page is what is left of its segments (`htmlToText_segments`).
-/
import SimpleCoder.Lib.Occurs
import SimpleCoder.Net.Entities

namespace SimpleCoder

open Text (tolower)

/-! ## 1. Segments -/

/-- The elements that are dropped with their content. -/
inductive RawKind where
  | script
  | style

def RawKind.opening : RawKind → Bytes
  | script => bytes "<script"
  | style => bytes "<style"

def RawKind.closing : RawKind → Bytes
  | script => bytes "</script"
  | style => bytes "</style"

/-- A tag, `<name rest>` or `</name rest>`. -/
structure Tag where
  slash : Bool
  name : Bytes
  rest : Bytes
  name_alnum : ∀ c ∈ name, isAlnum c = true
  /-- The name does not go on. -/
  name_ends : ∀ c, rest.head? = some c → isAlnum c = false
  /-- A slash directly behind the `<` is the slash of the tag. -/
  slash_first : slash = false → name = [] → rest.head? ≠ some 0x2F
  rest_open : 0x3E ∉ rest
  notRaw : ∀ kind : RawKind, ¬ kind.opening <+:
    toLower (0x3C :: ((if slash then [0x2F] else []) ++ name ++ rest ++ [0x3E]))

/-- A script or style, with its content and its closing tag. -/
structure RawElement where
  kind : RawKind
  opening : Bytes
  attrs : Bytes
  body : Bytes
  closing : Bytes
  junk : Bytes
  opening_eq : toLower opening = kind.opening
  closing_eq : toLower closing = kind.closing
  attrs_open : 0x3E ∉ attrs
  junk_open : 0x3E ∉ junk
  attrs_free : ¬ kind.closing <:+: toLower attrs
  body_free : ¬ kind.closing <:+: toLower body

/-- A piece of a page. -/
inductive Segment where
  | text (s : Bytes) (noTag : 0x3C ∉ s)
  | tag (t : Tag)
  | raw (r : RawElement)

/-- The part of a tag up to its `>`. -/
def Tag.core (t : Tag) : Bytes := (if t.slash then [0x2F] else []) ++ t.name ++ t.rest

/-- The segment as it stands in the page. -/
def Segment.source : Segment → Bytes
  | text s _ => s
  | tag t => 0x3C :: (t.core ++ [0x3E])
  | raw r => r.opening ++ r.attrs ++ [0x3E] ++ r.body ++ r.closing ++ r.junk ++ [0x3E]

/-- In a text, white space is soft. -/
def softByte (c : UInt8) : UInt8 := if c = newline ∨ c = 0x0D ∨ c = 0x09 then 0x20 else c

/-- What is left of the segment. -/
def Segment.kept : Segment → Bytes
  | text s _ => s.map softByte
  | tag t => [if blockTags.contains (toLower t.name) then newline else 0x20]
  | raw _ => [newline]

/-! ## 2. The searches -/

theorem ciStartsWith_iff {s start : Bytes} :
    ciStartsWith s start = true ↔ toLower start <+: toLower s :=
  List.isPrefixOf_iff_prefix

theorem toLower_append (s t : Bytes) : toLower (s ++ t) = toLower s ++ toLower t :=
  List.map_append

theorem toLower_cons (c : UInt8) (s : Bytes) : toLower (c :: s) = tolower c :: toLower s := rfl

theorem tolower_eq_iff : ∀ c : UInt8,
    (tolower c = 0x3C ↔ c = 0x3C) ∧ (tolower c = 0x3E ↔ c = 0x3E) :=
  Utf8.forall_byte (by decide)

theorem containsText_iff {needle s : Bytes} : containsText needle s = true ↔ needle <:+: s := by
  induction s with
  | nil => simp [containsText]
  | cons c s ih =>
    rw [containsText, Bool.or_eq_true, ih, List.infix_cons_iff]
    exact or_congr_left List.isPrefixOf_iff_prefix

/-- **A search skips a part of the text** in which nothing that it looks for begins. -/
theorem findCi_append {needle u v : Bytes}
    (h : ∀ q, q <:+ u → q ≠ [] → ¬ toLower needle <+: toLower (q ++ v)) :
    findCi needle (u ++ v) = findCi needle v := by
  induction u with
  | nil => rfl
  | cons c u ih =>
    have hc := h (c :: u) (List.suffix_refl _) (by simp)
    rw [List.cons_append] at hc ⊢
    rw [findCi, if_neg fun hstarts => hc (ciStartsWith_iff.mp hstarts)]
    exact ih fun q hq => h q (hq.trans (List.suffix_cons c u))

theorem findCi_of_prefix {needle v : Bytes} (hne : v ≠ [])
    (h : toLower needle <+: toLower v) : findCi needle v = some v := by
  obtain ⟨c, v, rfl⟩ := List.exists_cons_of_ne_nil hne
  rw [findCi, if_pos (ciStartsWith_iff.mpr h)]

theorem RawKind.toLower_closing (k : RawKind) : toLower k.closing = k.closing := by
  cases k <;> decide

theorem RawKind.toLower_opening (k : RawKind) : toLower k.opening = k.opening := by
  cases k <;> decide

theorem RawKind.closing_eq (k : RawKind) : ∃ name, k.closing = 0x3C :: name ∧ 0x3C ∉ name ∧
    0x3E ∉ name := by
  cases k
  · exact ⟨bytes "/script", by decide, by decide, by decide⟩
  · exact ⟨bytes "/style", by decide, by decide, by decide⟩

theorem RawKind.opening_eq (k : RawKind) : ∃ name, k.opening = 0x3C :: name ∧ 0x3C ∉ name ∧
    0x3E ∉ name := by
  cases k
  · exact ⟨bytes "script", by decide, by decide, by decide⟩
  · exact ⟨bytes "style", by decide, by decide, by decide⟩

/-- Without a `<` there is no closing tag. -/
theorem findCi_closing_append (k : RawKind) {u : Bytes} (hu : 0x3C ∉ u) (v : Bytes) :
    findCi k.closing (u ++ v) = findCi k.closing v := by
  refine findCi_append fun q hq hne hstarts => ?_
  obtain ⟨c, q, rfl⟩ := List.exists_cons_of_ne_nil hne
  obtain ⟨name, hname, -⟩ := k.closing_eq
  rw [k.toLower_closing, hname, List.cons_append, toLower_cons, List.cons_prefix_cons] at hstarts
  rw [(tolower_eq_iff c).1.mp hstarts.1.symm] at hq
  exact hu (hq.subset List.mem_cons_self)

/-- And none that begins in a text without one goes on over a `<` or a `>`. -/
theorem findCi_closing_append_cons (k : RawKind) {u : Bytes} (hu : ¬ k.closing <:+: toLower u)
    {c : UInt8} (hc : c = 0x3C ∨ c = 0x3E) (v : Bytes) :
    findCi k.closing (u ++ c :: v) = findCi k.closing (c :: v) := by
  refine findCi_append fun q hq hne hstarts => hu ?_
  have hlower : tolower c = c := by rcases hc with rfl | rfl <;> decide
  have hnot : tolower c ∉ (k.closing).tail := by
    obtain ⟨name, hname, hless, hgreater⟩ := k.closing_eq
    rw [hname, hlower, List.tail_cons]
    rcases hc with rfl | rfl
    · exact hless
    · exact hgreater
  rw [k.toLower_closing, toLower_append, toLower_cons] at hstarts
  have hinside := Occurs.prefix_of_prefix_append_cons hstarts hnot (by simpa [toLower] using hne)
  exact hinside.isInfix.trans (hq.map tolower).isInfix

theorem pastTag_append {u : Bytes} (hu : 0x3E ∉ u) (v : Bytes) :
    pastTag (u ++ 0x3E :: v) = v := by
  have hall : ∀ c ∈ u, (decide (c ≠ 0x3E)) = true := by
    intro c hc
    rw [decide_eq_true_eq]
    rintro rfl
    exact hu hc
  unfold pastTag
  rw [List.dropWhile_append_of_pos hall]
  rfl

/-! ## 3. One segment -/

theorem stripMarkup_text {s : Bytes} (hs : 0x3C ∉ s) (n : Nat) (rest : Bytes) :
    stripMarkup (n + s.length) (s ++ rest) = s.map softByte ++ stripMarkup n rest := by
  induction s with
  | nil => rfl
  | cons c s ih =>
    rw [List.mem_cons, not_or] at hs
    rw [List.length_cons, ← Nat.add_assoc, List.cons_append, stripMarkup, if_pos (Ne.symm hs.1),
      ih hs.2]
    rfl

theorem Tag.core_open (t : Tag) : 0x3E ∉ t.core := by
  unfold Tag.core
  simp only [List.mem_append, not_or]
  refine ⟨⟨?_, fun h => absurd (t.name_alnum _ h) (by decide)⟩, t.rest_open⟩
  split <;> decide

/-- **The name of a tag** is read as it is. -/
theorem Tag.tagName_eq (t : Tag) (rest : Bytes) :
    tagName (t.core ++ 0x3E :: rest) = toLower t.name := by
  have hname : (t.name ++ (t.rest ++ 0x3E :: rest)).takeWhile isAlnum = t.name := by
    rw [List.takeWhile_append_of_pos t.name_alnum]
    have hends : (t.rest ++ 0x3E :: rest).takeWhile isAlnum = [] := by
      cases hrest : t.rest with
      | nil => rfl
      | cons c r =>
        have hc := t.name_ends c (by rw [hrest]; rfl)
        rw [List.cons_append, List.takeWhile_cons, hc]
        rfl
    rw [hends, List.append_nil]
  unfold tagName Tag.core
  cases hslash : t.slash with
  | true =>
    simp only [if_true, List.nil_append, List.cons_append, List.head?_cons, List.drop_one,
      List.tail_cons, List.append_assoc]
    rw [hname]
  | false =>
    -- without its slash it does not begin with another one
    have hhead : (t.name ++ (t.rest ++ 0x3E :: rest)).head? ≠ some 0x2F := by
      cases hn : t.name with
      | nil =>
        cases hrest : t.rest with
        | nil => exact fun h => absurd (Option.some.inj h) (by decide)
        | cons c r =>
          have h := t.slash_first hslash hn
          rwa [hrest] at h
      | cons c name =>
        have hc := t.name_alnum c (by rw [hn]; exact List.mem_cons_self)
        intro h
        rw [Option.some.inj h] at hc
        cases hc
    simp only [Bool.false_eq_true, if_false, List.nil_append, List.append_assoc]
    rw [if_neg hhead, hname]

theorem stripMarkup_tag (t : Tag) (n : Nat) (rest : Bytes) :
    stripMarkup (n + 1) ((Segment.tag t).source ++ rest) =
      (Segment.tag t).kept ++ stripMarkup n rest := by
  have hsource : (Segment.tag t).source ++ rest = 0x3C :: (t.core ++ 0x3E :: rest) := by
    simp [Segment.source]
  have hraw : ∀ k : RawKind,
      ¬ ciStartsWith (0x3C :: (t.core ++ 0x3E :: rest)) k.opening = true := by
    intro k hstarts
    obtain ⟨name, hname, -, hgreater⟩ := k.opening_eq
    rw [ciStartsWith_iff, k.toLower_opening, ← List.cons_append, toLower_append, toLower_cons]
      at hstarts
    have hinside := Occurs.prefix_of_prefix_append_cons hstarts
      (by rw [hname]; exact hgreater) (by simp [toLower])
    refine t.notRaw k (hinside.trans ?_)
    change toLower (0x3C :: t.core) <+: toLower (0x3C :: t.core ++ [0x3E])
    rw [toLower_append]
    exact List.prefix_append _ _
  have hscript : ¬ ciStartsWith (0x3C :: (t.core ++ 0x3E :: rest)) (bytes "<script") = true :=
    hraw .script
  have hstyle : ¬ ciStartsWith (0x3C :: (t.core ++ 0x3E :: rest)) (bytes "<style") = true :=
    hraw .style
  rw [hsource, stripMarkup, if_neg (by decide), if_neg hscript, if_neg hstyle, t.tagName_eq,
    ← List.cons_append, pastTag_append]
  · rfl
  · rw [List.mem_cons, not_or]
    exact ⟨by decide, t.core_open⟩

theorem eq_cons_of_toLower {s name : Bytes} (h : toLower s = 0x3C :: name) :
    ∃ t, s = 0x3C :: t ∧ toLower t = name := by
  cases s with
  | nil => cases h
  | cons c t =>
    rw [toLower_cons, List.cons.injEq] at h
    exact ⟨t, by rw [(tolower_eq_iff c).1.mp h.1], h.2⟩

/-- A text without a `<` or `>` has none in lower case. -/
theorem mem_of_mem_toLower {c : UInt8} (hc : c = 0x3C ∨ c = 0x3E) {s : Bytes} (h : c ∈ s) :
    c ∈ toLower s :=
  List.mem_map.mpr ⟨c, h, by rcases hc with rfl | rfl <;> decide⟩

/-- What is behind the `<` of a script or style, up to its closing tag. -/
def RawElement.inner (r : RawElement) : Bytes := r.opening.tail ++ r.attrs ++ [0x3E] ++ r.body

theorem RawElement.source_append (r : RawElement) (rest : Bytes) :
    (Segment.raw r).source ++ rest =
      0x3C :: (r.inner ++ (r.closing ++ (r.junk ++ 0x3E :: rest))) := by
  obtain ⟨name, hname, -⟩ := r.kind.opening_eq
  obtain ⟨opening, ho, -⟩ := eq_cons_of_toLower (r.opening_eq.trans hname)
  simp [Segment.source, RawElement.inner, ho]

/-- **The closing tag** of a script or style is the one that the search finds. -/
theorem RawElement.findCi_closing (r : RawElement) (rest : Bytes) :
    findCi r.kind.closing (r.inner ++ (r.closing ++ rest)) = some (r.closing ++ rest) := by
  obtain ⟨name, hname, -⟩ := r.kind.closing_eq
  obtain ⟨closing, hc, -⟩ := eq_cons_of_toLower (r.closing_eq.trans hname)
  obtain ⟨opening, hopening, hless, -⟩ := r.kind.opening_eq
  obtain ⟨tail, ho, htail⟩ := eq_cons_of_toLower (r.opening_eq.trans hopening)
  have hopen : 0x3C ∉ r.opening.tail := by
    rw [ho, List.tail_cons]
    exact fun hmem => hless (htail ▸ mem_of_mem_toLower (Or.inl rfl) hmem)
  have hfound : findCi r.kind.closing (r.closing ++ rest) = some (r.closing ++ rest) := by
    refine findCi_of_prefix (by rw [hc]; simp) ?_
    rw [r.kind.toLower_closing, toLower_append, r.closing_eq]
    exact List.prefix_append _ _
  unfold RawElement.inner
  simp only [List.append_assoc]
  rw [findCi_closing_append _ hopen, List.singleton_append,
    findCi_closing_append_cons _ r.attrs_free (Or.inr rfl), ← List.singleton_append,
    findCi_closing_append _ (by decide)]
  rw [hc, List.cons_append] at hfound ⊢
  rw [findCi_closing_append_cons _ r.body_free (Or.inl rfl), hfound]

theorem RawElement.closing_open (r : RawElement) : 0x3E ∉ r.closing ++ r.junk := by
  rw [List.mem_append, not_or]
  refine ⟨fun hmem => ?_, r.junk_open⟩
  obtain ⟨name, hname, -, hgreater⟩ := r.kind.closing_eq
  have hlower := mem_of_mem_toLower (Or.inr rfl) hmem
  rw [r.closing_eq, hname, List.mem_cons] at hlower
  rcases hlower with h | h
  · exact absurd h (by decide)
  · exact hgreater h

theorem RawElement.opens (r : RawElement) (rest : Bytes) :
    ciStartsWith ((Segment.raw r).source ++ rest) r.kind.opening = true := by
  rw [ciStartsWith_iff, r.kind.toLower_opening]
  unfold Segment.source
  simp only [List.append_assoc]
  rw [toLower_append, r.opening_eq]
  exact List.prefix_append _ _

theorem not_script_of_style {s : Bytes} (h : ciStartsWith s (bytes "<style") = true) :
    ¬ ciStartsWith s (bytes "<script") = true := by
  intro hscript
  have hboth : toLower (bytes "<style") <+: toLower (bytes "<script") :=
    List.prefix_of_prefix_length_le (ciStartsWith_iff.mp h) (ciStartsWith_iff.mp hscript)
      (by decide)
  exact absurd hboth (by decide)

theorem stripMarkup_raw (r : RawElement) (n : Nat) (rest : Bytes) :
    stripMarkup (n + 1) ((Segment.raw r).source ++ rest) =
      (Segment.raw r).kept ++ stripMarkup n rest := by
  have hopens := r.opens rest
  have hpast : pastTag (((findCi r.kind.closing (r.inner ++ (r.closing ++ (r.junk ++
      0x3E :: rest)))).getD [])) = rest := by
    rw [r.findCi_closing, Option.getD_some, ← List.append_assoc, pastTag_append r.closing_open]
  rw [r.source_append] at hopens ⊢
  rw [stripMarkup, if_neg (by decide)]
  cases hkind : r.kind with
  | script =>
    rw [hkind] at hopens hpast
    have hscript : ciStartsWith _ (bytes "<script") = true := hopens
    rw [if_pos hscript]
    exact congrArg (fun t => newline :: stripMarkup n t) hpast
  | style =>
    rw [hkind] at hopens hpast
    have hstyle : ciStartsWith _ (bytes "<style") = true := hopens
    have hscript : ¬ ciStartsWith (0x3C :: (r.inner ++ (r.closing ++ (r.junk ++ 0x3E :: rest))))
        (bytes "<script") = true := not_script_of_style hstyle
    rw [if_neg hscript, if_pos hstyle]
    exact congrArg (fun t => newline :: stripMarkup n t) hpast

/-! ## 4. The page -/

/-- The scan of one segment, whatever comes behind it. -/
theorem stripMarkup_segment (s : Segment) :
    ∃ k ≤ s.source.length, ∀ n rest,
      stripMarkup (n + k) (s.source ++ rest) = s.kept ++ stripMarkup n rest := by
  cases s with
  | text s noTag => exact ⟨s.length, le_refl _, stripMarkup_text noTag⟩
  | tag t => exact ⟨1, by simp [Segment.source], stripMarkup_tag t⟩
  | raw r => exact ⟨1, by simp [Segment.source]; omega, stripMarkup_raw r⟩

theorem stripMarkup_segments (segs : List Segment) :
    ∀ n, (segs.flatMap Segment.source).length ≤ n →
      stripMarkup n (segs.flatMap Segment.source) = segs.flatMap Segment.kept := by
  induction segs with
  | nil =>
    intro n _
    cases n <;> rfl
  | cons s segs ih =>
    intro n hn
    rw [List.flatMap_cons, List.length_append] at hn
    obtain ⟨k, hk, hscan⟩ := stripMarkup_segment s
    rw [List.flatMap_cons, List.flatMap_cons, ← Nat.sub_add_cancel (show k ≤ n by omega), hscan,
      ih (n - k) (by omega)]

/-- **Stripping markup is exact**: of a page that is put together from segments, what is left of the
segments is decoded and collapsed. -/
theorem htmlToText_segments (segs : List Segment) {contentType : Bytes}
    (hhtml : bytes "html" <:+: toLower contentType) :
    htmlToText (segs.flatMap Segment.source) contentType =
      collapseWs (decoded (segs.flatMap Segment.kept)) := by
  unfold htmlToText
  dsimp only
  rw [if_pos (containsText_iff.mpr hhtml), if_neg (by decide),
    stripMarkup_segments segs _ (le_refl _)]
  rfl

/-- The opening tag of a paragraph. -/
def paragraphTag : Tag where
  slash := false
  name := bytes "p"
  rest := []
  name_alnum := by decide +kernel
  name_ends := by simp
  slash_first := by decide
  rest_open := by simp
  notRaw := by rintro (_ | _) <;> decide

/-- A script with a `<` in it. -/
def comparingScript : RawElement where
  kind := .script
  opening := bytes "<SCRIPT"
  attrs := []
  body := bytes "a<b"
  closing := bytes "</script"
  junk := []
  opening_eq := by decide
  closing_eq := by decide
  attrs_open := by decide
  junk_open := by decide
  attrs_free := by decide
  body_free := by decide

theorem htmlToText_segments_paragraph :
    htmlToText (bytes "<p>x<SCRIPT>a<b</script>") (bytes "text/HTML") =
      collapseWs (decoded (bytes "\nx\n")) :=
  htmlToText_segments [.tag paragraphTag, .text (bytes "x") (by decide), .raw comparingScript]
    (by decide)

end SimpleCoder

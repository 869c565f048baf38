/-
# The query of a URL

What a server makes of the URL that it is asked for: the path, and the fields of the query, which
are separated and whose names and values are percent-encoded.

* §1: reading a URL.
* §2: what is encoded so that no separator is left, and is decoded again, is read back field by
  field (`fields_render`).
-/
import SimpleCoder.Lib.Lines
import Mathlib.Data.List.TakeWhile

namespace Query

/-! ## 1. Reading -/

/-- The value of a hexadecimal digit. -/
def hexValue (c : UInt8) : Option UInt8 :=
  if 0x30 ≤ c ∧ c ≤ 0x39 then some (c - 0x30)
  else if 0x41 ≤ c ∧ c ≤ 0x46 then some (c - 0x37)
  else if 0x61 ≤ c ∧ c ≤ 0x66 then some (c - 0x57)
  else none

/-- A `+` is a space. -/
def plus (c : UInt8) : UInt8 := if c = 0x2B then 0x20 else c

/-- What `%` and the two bytes behind it stand for, if they are an escape. -/
def escaped (c a b : UInt8) : Option UInt8 :=
  if c = 0x25 then
    match hexValue a, hexValue b with
    | some x, some y => some (16 * x + y)
    | _, _ => none
  else none

/-- Percent-decoding.  A `%` that is no escape stands for itself. -/
def decode : List UInt8 → List UInt8
  | c :: a :: b :: s =>
    match escaped c a b with
    | some x => x :: decode s
    | none => plus c :: decode (a :: b :: s)
  | c :: s => plus c :: decode s
  | [] => []

/-- A field is a name and a value, and the value may be missing. -/
def field (s : List UInt8) : List UInt8 × List UInt8 :=
  match Lines.takeLine 0x3D s with
  | some (name, value) => (decode name, decode value)
  | none => (decode s, [])

/-- The fields of a query. -/
def fields (s : List UInt8) : List (List UInt8 × List UInt8) :=
  let (fs, last) := Lines.lines 0x26 s
  (fs ++ [last]).map field

/-- The URL up to the query, and the fields. -/
def readUrl (url : List UInt8) : List UInt8 × List (List UInt8 × List UInt8) :=
  let url := url.takeWhile (· ≠ 0x23)
  match Lines.takeLine 0x3F url with
  | some (path, query) => (path, fields query)
  | none => (url, [])

/-! ## 2. What was written is read -/

theorem decode_cons {c : UInt8} (hc : c ≠ 0x25) (s : List UInt8) :
    decode (c :: s) = plus c :: decode s := by
  have hnone : ∀ a b, escaped c a b = none := fun a b => by simp [escaped, hc]
  cases s with
  | nil => simp [decode]
  | cons a s =>
    cases s with
    | nil => simp [decode]
    | cons b s => rw [decode, hnone]

theorem decode_escape {a b x y : UInt8} (ha : hexValue a = some x) (hb : hexValue b = some y)
    (s : List UInt8) : decode (0x25 :: a :: b :: s) = (16 * x + y) :: decode s := by
  have hsome : escaped 0x25 a b = some (16 * x + y) := by simp [escaped, ha, hb]
  rw [decode, hsome]

variable {enc : List UInt8 → List UInt8}

/-- A text is encoded so that it is decoded again and contains no separator. -/
structure Encodes (enc : List UInt8 → List UInt8) : Prop where
  decoded : ∀ s, decode (enc s) = s
  separators : ∀ s, ∀ c ∈ enc s, c ≠ 0x26 ∧ c ≠ 0x3D ∧ c ≠ 0x23 ∧ c ≠ 0x3F

/-- A field, as it is written. -/
def render (enc : List UInt8 → List UInt8) (f : List UInt8 × List UInt8) : List UInt8 :=
  enc f.1 ++ 0x3D :: enc f.2

theorem Encodes.field_render (h : Encodes enc) (f : List UInt8 × List UInt8) :
    field (render enc f) = f := by
  have hname : Lines.takeLine 0x3D (render enc f) = some (enc f.1, enc f.2) :=
    Lines.takeLine_eq_some_iff.mpr ⟨fun hmem => (h.separators _ _ hmem).2.1 rfl, rfl⟩
  unfold field
  rw [hname]
  dsimp only
  rw [h.decoded, h.decoded]

theorem Encodes.separators_render (h : Encodes enc) (f : List UInt8 × List UInt8) :
    ∀ c ∈ render enc f, c ≠ 0x26 ∧ c ≠ 0x23 ∧ c ≠ 0x3F := by
  intro c hc
  rcases List.mem_append.mp hc with hc | hc
  · have := h.separators _ c hc
    exact ⟨this.1, this.2.2⟩
  · rcases List.mem_cons.mp hc with rfl | hc
    · decide
    · have := h.separators _ c hc
      exact ⟨this.1, this.2.2⟩

/-- **Fields are read back** as they were written. -/
theorem Encodes.fields_render (h : Encodes enc) (f : List UInt8 × List UInt8)
    (fs : List (List UInt8 × List UInt8)) :
    fields (render enc f ++ fs.flatMap fun g => 0x26 :: render enc g) = f :: fs := by
  have hamp : ∀ f, (0x26 : UInt8) ∉ render enc f := fun f hmem =>
    (h.separators_render f _ hmem).1 rfl
  unfold fields
  induction fs generalizing f with
  | nil =>
    rw [List.flatMap_nil, List.append_nil, Lines.lines_of_notMem (hamp f)]
    simp [h.field_render]
  | cons g fs ih =>
    have hlines := Lines.lines_line_append (hamp f)
      (render enc g ++ fs.flatMap fun g => 0x26 :: render enc g)
    have hrest := ih g
    dsimp only at hrest ⊢
    rw [List.flatMap_cons, List.cons_append, hlines]
    simp only [List.cons_append, List.map_cons, h.field_render, hrest]

/-- A URL is read as its path and the fields of its query. -/
theorem Encodes.readUrl_render (h : Encodes enc) {path : List UInt8}
    (hpath : ∀ c ∈ path, c ≠ 0x23 ∧ c ≠ 0x3F) (f : List UInt8 × List UInt8)
    (fs : List (List UInt8 × List UInt8)) :
    readUrl (path ++ 0x3F :: (render enc f ++ fs.flatMap fun g => 0x26 :: render enc g)) =
      (path, f :: fs) := by
  have hhash : ∀ c ∈ path ++ 0x3F :: (render enc f ++ fs.flatMap fun g => 0x26 :: render enc g),
      decide (c ≠ 0x23) = true := by
    intro c hc
    rw [decide_eq_true_eq]
    rcases List.mem_append.mp hc with hc | hc
    · exact (hpath c hc).1
    rcases List.mem_cons.mp hc with rfl | hc
    · decide
    rcases List.mem_append.mp hc with hc | hc
    · exact (h.separators_render f c hc).2.1
    obtain ⟨g, -, hc⟩ := List.mem_flatMap.mp hc
    rcases List.mem_cons.mp hc with rfl | hc
    · decide
    · exact (h.separators_render g c hc).2.1
  have hquery : Lines.takeLine 0x3F
      (path ++ 0x3F :: (render enc f ++ fs.flatMap fun g => 0x26 :: render enc g)) =
      some (path, render enc f ++ fs.flatMap fun g => 0x26 :: render enc g) :=
    Lines.takeLine_eq_some_iff.mpr ⟨fun hmem => (hpath _ hmem).2 rfl, rfl⟩
  unfold readUrl
  rw [List.takeWhile_eq_self_iff.mpr hhash]
  dsimp only
  rw [hquery]
  dsimp only
  rw [h.fields_render]

end Query

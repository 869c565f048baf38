/-
# The layout of the input box

`wrap_layout` walks the buffer line by line, and each line row by row, and finds the row of the
cursor on the way.

* §1 has the function.  The loops have fuel, which is as much as the buffer is long.
* §2: the walk does not depend on the cursor.  It goes over rows (`rowSpans`), and looks at each
  with the loop's body (`visit`).
* §3: the rows of a line tile it (`LineRows`), and the lines tile the buffer (`BufferRows`).  So
  each position between two characters is claimed by one row.
* §4 is about valid text, where the rows have whole characters and fit the box.
-/
import SimpleCoder.Ui.InputBar
import SimpleCoder.Util.Boundaries
import SimpleCoder.Lib.Fill

namespace SimpleCoder

namespace InputBar

/-! ## 1. The function -/

/-- `WrapLayout`, and whether the cursor has been found. -/
structure WrapLayout where
  rows : List Bytes := []
  cursorRow : Nat := 0
  cursorCol : Int := 0
  cursorSet : Bool := false

/-- `bytes_for_cols`. -/
def bytesForCols (s : Bytes) (maxCols : Nat) : Nat := Utf8.advance s maxCols 0

/-- A visual row: where it and its logical line end, and the column it begins in. -/
structure Row where
  start : Nat
  stop : Nat
  lineEnd : Nat
  col0 : Int

/-- The row from a position on.  The prompt takes columns of the very first row only, and the last
column is kept free for the cursor. -/
def rowAt (s : Bytes) (width promptCols : Int) (gend : Nat) (first : Bool) (p : Nat) : Row :=
  let w := if width < 1 then 1 else width
  let col0 := if first then (if promptCols < 0 then 0 else promptCols) else 0
  let budget := (max 1 (w - 1 - col0)).toNat
  ⟨p, p + bytesForCols ((s.drop p).take (gend - p)) budget, gend, col0⟩

/-- The row claims the cursor.  At a soft wrap the cursor belongs to the next row, at the end of a
logical line to this one. -/
def Row.claims (r : Row) (cursor : Nat) : Bool :=
  r.start ≤ cursor && cursor ≤ r.stop && (cursor < r.stop || r.stop = r.lineEnd)

def Row.text (r : Row) (s : Bytes) : Bytes := (s.drop r.start).take (r.stop - r.start)

/-- The loop's body for a row. -/
def visit (b : InputBar) (out : WrapLayout) (r : Row) : WrapLayout :=
  let out :=
    if !out.cursorSet && r.claims b.cursor then
      { out with
        cursorRow := out.rows.length
        cursorCol := r.col0 +
          (Utf8.count ((b.buffer.drop r.start).take (b.cursor - r.start)) : Int)
        cursorSet := true }
    else out
  { out with rows := out.rows ++ [r.text b.buffer] }

/-- The loop over the visual rows of a logical line. -/
def visualRows (b : InputBar) (width promptCols : Int) (gend : Nat) :
    Nat → Bool → Nat → WrapLayout → WrapLayout
  | 0, _, _, out => out
  | fuel + 1, first, p, out =>
    let r := rowAt b.buffer width promptCols gend first p
    let out := b.visit out r
    if r.stop < gend then visualRows b width promptCols gend fuel false r.stop out else out

/-- The loop over the logical lines. -/
def logicalLines (b : InputBar) (width promptCols : Int) :
    Nat → Bool → Nat → WrapLayout → WrapLayout
  | 0, _, _, out => out
  | fuel + 1, first, gstart, out =>
    let gend := lineEnd b.buffer gstart
    let out := visualRows b width promptCols gend (b.buffer.length + 1) first gstart out
    if gend = b.buffer.length then out
    else logicalLines b width promptCols fuel false (gend + 1) out

/-- `wrap_layout`.  A cursor that no row claims is pinned to the last. -/
def wrapLayout (b : InputBar) (width promptCols : Int) : WrapLayout :=
  let out := logicalLines b width promptCols (b.buffer.length + 1) true 0 {}
  if out.cursorSet then out else { out with cursorRow := out.rows.length - 1 }

/-! ## 2. The walk -/

/-- The rows of a logical line. -/
def lineRows (s : Bytes) (width promptCols : Int) (gend : Nat) : Nat → Bool → Nat → List Row
  | 0, _, _ => []
  | fuel + 1, first, p =>
    let r := rowAt s width promptCols gend first p
    r :: if r.stop < gend then lineRows s width promptCols gend fuel false r.stop else []

/-- The rows of the logical lines from a position on. -/
def bufferRows (s : Bytes) (width promptCols : Int) : Nat → Bool → Nat → List (List Row)
  | 0, _, _ => []
  | fuel + 1, first, gstart =>
    let gend := lineEnd s gstart
    lineRows s width promptCols gend (s.length + 1) first gstart ::
      if gend = s.length then [] else bufferRows s width promptCols fuel false (gend + 1)

/-- The rows of each logical line of a buffer. -/
def rowSpans (s : Bytes) (width promptCols : Int) : List (List Row) :=
  bufferRows s width promptCols (s.length + 1) true 0

section Walk

variable (b : InputBar) (width promptCols : Int)

theorem visualRows_eq (gend fuel : Nat) (first : Bool) (p : Nat) (out : WrapLayout) :
    visualRows b width promptCols gend fuel first p out =
      (lineRows b.buffer width promptCols gend fuel first p).foldl b.visit out := by
  induction fuel generalizing first p out with
  | zero => rfl
  | succ fuel ih =>
    rw [visualRows, lineRows, List.foldl_cons]
    split
    · rw [ih]
    · rfl

theorem logicalLines_eq (fuel : Nat) (first : Bool) (gstart : Nat) (out : WrapLayout) :
    logicalLines b width promptCols fuel first gstart out =
      (bufferRows b.buffer width promptCols fuel first gstart).flatten.foldl b.visit out := by
  induction fuel generalizing first gstart out with
  | zero => rfl
  | succ fuel ih =>
    rw [logicalLines, bufferRows, List.flatten_cons, List.foldl_append, visualRows_eq]
    split
    · rfl
    · rw [ih]

end Walk

section Visit

variable {b : InputBar} {out : WrapLayout}

/-- Rows that do not claim the cursor, and those behind the one that does, leave it alone. -/
theorem foldl_visit_eq {spans : List Row}
    (h : out.cursorSet = true ∨ ∀ r ∈ spans, r.claims b.cursor = false) :
    spans.foldl b.visit out =
      { out with rows := out.rows ++ spans.map fun r => r.text b.buffer } := by
  induction spans generalizing out with
  | nil =>
    rw [List.map_nil, List.append_nil]
    rfl
  | cons r spans ih =>
    have hvisit : b.visit out r = { out with rows := out.rows ++ [r.text b.buffer] } := by
      have hcond : (!out.cursorSet && r.claims b.cursor) = false := by
        rcases h with hset | hno
        · rw [hset]
          rfl
        · rw [hno r List.mem_cons_self, Bool.and_false]
      unfold visit
      rw [hcond]
      rfl
    have hrest : (b.visit out r).cursorSet = true ∨ ∀ r' ∈ spans, r'.claims b.cursor = false := by
      rw [hvisit]
      exact h.imp_right fun hno r' hr' => hno r' (List.mem_cons_of_mem _ hr')
    rw [List.foldl_cons, ih hrest, hvisit]
    simp

/-- **The cursor is found** on the row that claims it. -/
theorem wrapLayout_eq {width promptCols : Int} {before after : List Row} {r : Row}
    (hspans : (rowSpans b.buffer width promptCols).flatten = before ++ r :: after)
    (hbefore : ∀ r' ∈ before, r'.claims b.cursor = false) (hclaims : r.claims b.cursor = true) :
    b.wrapLayout width promptCols =
      ⟨(before ++ r :: after).map fun r => r.text b.buffer, before.length,
        r.col0 + (Utf8.count ((b.buffer.drop r.start).take (b.cursor - r.start)) : Int), true⟩ := by
  have hvisit : ∀ rows : List Bytes, b.visit { rows := rows } r =
      ⟨rows ++ [r.text b.buffer], rows.length,
        r.col0 + (Utf8.count ((b.buffer.drop r.start).take (b.cursor - r.start)) : Int), true⟩ := by
    intro rows
    unfold visit
    rw [hclaims]
    rfl
  unfold wrapLayout
  rw [logicalLines_eq]
  change (rowSpans b.buffer width promptCols).flatten = _ at hspans
  unfold rowSpans at hspans
  rw [hspans, List.foldl_append, List.foldl_cons, foldl_visit_eq (Or.inr hbefore)]
  dsimp only
  rw [hvisit, foldl_visit_eq (Or.inl rfl)]
  simp

end Visit

/-! ## 3. Rows and lines tile the buffer -/

/-- The bytes between two positions. -/
def between (s : Bytes) (start stop : Nat) : Bytes := (s.drop start).take (stop - start)

/-- Rows that tile a logical line from a position to its end.  All but the last end in a soft
wrap. -/
inductive LineRows (s : Bytes) (gend : Nat) : Nat → List Row → Prop
  | last {r : Row} : r.start ≤ r.stop → r.stop = gend → r.lineEnd = gend →
      LineRows s gend r.start [r]
  | wrapped {r : Row} {rows : List Row} : r.start < r.stop → r.stop < gend → r.lineEnd = gend →
      LineRows s gend r.stop rows → LineRows s gend r.start (r :: rows)

/-- Lines that tile the buffer from a position to its end. -/
inductive BufferRows (s : Bytes) : Nat → List (List Row) → Prop
  | last {gstart : Nat} {rows : List Row} : newline ∉ s.drop gstart →
      LineRows s s.length gstart rows → BufferRows s gstart [rows]
  | line {gstart gend : Nat} {rows : List Row} {lines : List (List Row)} :
      s[gend]? = some newline → newline ∉ between s gstart gend →
      LineRows s gend gstart rows → BufferRows s (gend + 1) lines →
      BufferRows s gstart (rows :: lines)

section Tiles

variable {s : Bytes} {gend p c : Nat} {rows : List Row} {lines : List (List Row)}

theorem LineRows.le (h : LineRows s gend p rows) : p ≤ gend := by
  cases h with
  | last hle hstop => exact hle.trans_eq hstop
  | wrapped hlt hstop => exact hlt.le.trans hstop.le

theorem claims_iff {r : Row} : r.claims c = true ↔
    r.start ≤ c ∧ c ≤ r.stop ∧ (c < r.stop ∨ r.stop = r.lineEnd) := by
  unfold Row.claims
  simp only [Bool.and_eq_true, Bool.or_eq_true, decide_eq_true_eq, and_assoc]

/-- The rows of a line claim no position outside it. -/
theorem LineRows.not_claims (h : LineRows s gend p rows) (hc : c < p ∨ gend < c) :
    ∀ r ∈ rows, r.claims c = false := by
  have hno : ∀ r : Row, c < r.start ∨ r.stop < c → r.claims c = false := fun r hr => by
    rw [← Bool.not_eq_true, claims_iff]
    omega
  induction h with
  | @last r hle hstop _ =>
    intro r' hr'
    rw [List.mem_singleton.mp hr']
    exact hno r (by omega)
  | @wrapped r rows hlt hstop _ _ ih =>
    intro r' hr'
    rcases List.mem_cons.mp hr' with rfl | hr'
    · exact hno _ (by omega)
    · exact ih (by omega) r' hr'

theorem between_append (s : Bytes) {start mid stop : Nat} (h : start ≤ mid) (h' : mid ≤ stop) :
    between s start mid ++ between s mid stop = between s start stop := by
  unfold between
  have hsplit : stop - start = (mid - start) + (stop - mid) := by omega
  rw [hsplit, List.take_add, List.drop_drop, Nat.add_sub_cancel' h]

/-- The rows of a line are the line. -/
theorem LineRows.flatten (h : LineRows s gend p rows) :
    (rows.map fun r => r.text s).flatten = between s p gend := by
  induction h with
  | @last r _ hstop _ =>
    rw [List.map_singleton, List.flatten_singleton, ← hstop]
    rfl
  | @wrapped r rows hlt hstop _ hrest ih =>
    rw [List.map_cons, List.flatten_cons, ih]
    exact between_append s hlt.le hrest.le

/-- **A position in a line** is claimed by one of its rows, and has the rows before that one, and a
part of that one, before it. -/
theorem LineRows.claimed (h : LineRows s gend p rows) (hp : p ≤ c) (hc : c ≤ gend) :
    ∃ earlier r later, rows = earlier ++ r :: later ∧ r.claims c = true ∧
      (∀ r' ∈ earlier, r'.claims c = false) ∧ (∀ r' ∈ later, r'.claims c = false) ∧
      between s p c = (earlier.map fun r => r.text s).flatten ++ between s r.start c := by
  induction h with
  | @last r hle hstop hend =>
    refine ⟨[], r, [], rfl, claims_iff.mpr ?_, by simp, by simp, rfl⟩
    omega
  | @wrapped r rows hlt hstop hend hrest ih =>
    rcases Nat.lt_or_ge c r.stop with hinside | hbehind
    · exact ⟨[], r, rows, rfl, claims_iff.mpr ⟨hp, hinside.le, Or.inl hinside⟩, by simp,
        hrest.not_claims (Or.inl hinside), rfl⟩
    · obtain ⟨earlier, r', later, hrows, hclaims, hearlier, hlater, hbefore⟩ := ih hbehind
      refine ⟨r :: earlier, r', later, by rw [hrows]; rfl, hclaims, fun r'' hr'' => ?_, hlater, ?_⟩
      · rcases List.mem_cons.mp hr'' with rfl | hr''
        · rw [← Bool.not_eq_true, claims_iff]
          omega
        · exact hearlier r'' hr''
      · rw [List.map_cons, List.flatten_cons, List.append_assoc, ← hbefore]
        exact (between_append s hlt.le hbehind).symm

/-- The rows behind a position claim nothing before it. -/
theorem BufferRows.not_claims (h : BufferRows s p lines) (hc : c < p) :
    ∀ r ∈ lines.flatten, r.claims c = false := by
  induction h with
  | last _ hrows =>
    rw [List.flatten_singleton]
    exact hrows.not_claims (Or.inl hc)
  | @line gstart gend rows lines _ _ hrows _ ih =>
    have hle := hrows.le
    intro r hr
    rcases List.mem_append.mp hr with hr | hr
    · exact hrows.not_claims (Or.inl hc) r hr
    · exact ih (by omega) r hr

/-- The lines are those between the newlines. -/
theorem BufferRows.lines_eq (h : BufferRows s p lines) :
    (lines.map fun rows => (rows.map fun r => r.text s).flatten) = (s.drop p).splitOn newline := by
  induction h with
  | @last gstart rows hno hrows =>
    have hall : between s gstart s.length = s.drop gstart :=
      List.take_of_length_le (by rw [List.length_drop])
    rw [List.splitOn_eq_singleton hno, List.map_singleton, hrows.flatten, hall]
  | @line gstart gend rows lines hnl hno hrows hrest ih =>
    have hle := hrows.le
    have hsplit : s.drop gstart = between s gstart gend ++ newline :: s.drop (gend + 1) := by
      obtain ⟨hlt, hget⟩ := List.getElem?_eq_some_iff.mp hnl
      rw [← hget, List.getElem_cons_drop]
      unfold between
      conv_lhs => rw [← List.take_append_drop (gend - gstart) (s.drop gstart)]
      rw [List.drop_drop, Nat.add_sub_cancel' hle]
    rw [hsplit, List.splitOn_append_cons_self_of_not_mem hno, List.map_cons, hrows.flatten, ih]

/-- **A position in the buffer** is claimed by one row.  It has the lines before that row's before
it, the rows before it in its line, and a part of it. -/
theorem BufferRows.claimed (h : BufferRows s p lines) (hp : p ≤ c) (hc : c ≤ s.length) :
    ∃ before earlier r later after, lines = before ++ (earlier ++ r :: later) :: after ∧
      r.claims c = true ∧ (∀ r' ∈ before.flatten ++ earlier, r'.claims c = false) ∧
      (∀ r' ∈ later ++ after.flatten, r'.claims c = false) ∧
      between s p c =
        (before.flatMap fun rows => (rows.map fun r => r.text s).flatten ++ [newline]) ++
          (earlier.map fun r => r.text s).flatten ++ between s r.start c := by
  induction h with
  | @last gstart rows _ hrows =>
    obtain ⟨earlier, r, later, rfl, hclaims, hearlier, hlater, hbefore⟩ := hrows.claimed hp hc
    refine ⟨[], earlier, r, later, [], rfl, hclaims, hearlier, ?_, hbefore⟩
    rwa [List.flatten_nil, List.append_nil]
  | @line gstart gend rows lines hnl _ hrows hrest ih =>
    have hle := hrows.le
    rcases Nat.lt_or_ge gend c with hbehind | hinside
    · -- the cursor is behind the line and its newline
      obtain ⟨before, earlier, r, later, after, rfl, hclaims, hearlier, hlater, hbefore⟩ :=
        ih hbehind
      have hfront : between s gstart gend ++ [newline] = between s gstart (gend + 1) := by
        have hnewline : between s gend (gend + 1) = [newline] := by
          obtain ⟨hlt, hget⟩ := List.getElem?_eq_some_iff.mp hnl
          unfold between
          rw [← List.getElem_cons_drop hlt, hget, Nat.add_sub_cancel_left]
          rfl
        rw [← hnewline]
        exact between_append s hle (Nat.le_succ gend)
      refine ⟨rows :: before, earlier, r, later, after, rfl, hclaims, fun r' hr' => ?_, hlater, ?_⟩
      · rw [List.flatten_cons, List.append_assoc] at hr'
        rcases List.mem_append.mp hr' with hr' | hr'
        · exact hrows.not_claims (Or.inr hbehind) r' hr'
        · exact hearlier r' hr'
      · rw [List.flatMap_cons, hrows.flatten, hfront, List.append_assoc, List.append_assoc,
          ← List.append_assoc (before.flatMap _), ← hbefore]
        exact (between_append s (hle.trans (Nat.le_succ gend)) hbehind).symm
    · -- it is in the line, or at its end
      obtain ⟨earlier, r, later, rfl, hclaims, hearlier, hlater, hbefore⟩ :=
        hrows.claimed hp hinside
      refine ⟨[], earlier, r, later, lines, rfl, hclaims, hearlier, fun r' hr' => ?_, hbefore⟩
      rcases List.mem_append.mp hr' with hr' | hr'
      · exact hlater r' hr'
      · exact hrest.not_claims (by omega) r' hr'

end Tiles

/-! ## 4. What the walk goes over -/

section Spans

variable {s : Bytes} {width promptCols : Int} {gend p fuel : Nat} {first : Bool} {r : Row}
  {rows : List Row}

/-- The line of a position ends at the first newline, or at the end. -/
theorem lineEnd_cases (h : p ≤ s.length) :
    (lineEnd s p = s.length ∧ newline ∉ s.drop p) ∨
      (p ≤ lineEnd s p ∧ lineEnd s p < s.length ∧ s[lineEnd s p]? = some newline ∧
        newline ∉ between s p (lineEnd s p)) := by
  unfold lineEnd between
  split
  · rename_i hmem
    have hlt := List.idxOf_lt_length_of_mem hmem
    rw [List.length_drop] at hlt
    refine Or.inr ⟨Nat.le_add_right _ _, by omega, ?_, ?_⟩
    · rw [← List.getElem?_drop]
      exact List.getElem?_idxOf hmem
    · rw [Nat.add_sub_cancel_left]
      exact fun hbefore => Nat.lt_irrefl _ ((List.mem_take_iff_idxOf_lt hmem).mp hbefore)
  · rename_i hno
    exact Or.inl ⟨rfl, hno⟩

theorem length_between (h : gend ≤ s.length) : (between s p gend).length = gend - p := by
  unfold between
  rw [List.length_take, List.length_drop]
  omega

/-- The columns of a row: there is always one. -/
def budget (width promptCols : Int) (first : Bool) : Nat :=
  let w := if width < 1 then 1 else width
  let col0 := if first then (if promptCols < 0 then 0 else promptCols) else 0
  (max 1 (w - 1 - col0)).toNat

theorem rowAt_stop (s : Bytes) (width promptCols : Int) (gend : Nat) (first : Bool) (p : Nat) :
    (rowAt s width promptCols gend first p).stop =
      p + Utf8.advance (between s p gend) (budget width promptCols first) 0 := rfl

theorem rowAt_le (width promptCols : Int) (first : Bool) (hp : p ≤ gend)
    (hgend : gend ≤ s.length) :
    p ≤ (rowAt s width promptCols gend first p).stop ∧
      (rowAt s width promptCols gend first p).stop ≤ gend := by
  have hle := Utf8.advance_le (budget width promptCols first)
    (Nat.zero_le (between s p gend).length)
  rw [length_between hgend] at hle
  rw [rowAt_stop]
  omega

theorem lt_rowAt (width promptCols : Int) (first : Bool) (hp : p < gend)
    (hgend : gend ≤ s.length) :
    p < (rowAt s width promptCols gend first p).stop := by
  have hbudget : 0 < budget width promptCols first := by
    unfold budget
    dsimp only
    omega
  have hlt : 0 < Utf8.advance (between s p gend) (budget width promptCols first) 0 :=
    Utf8.lt_advance hbudget (by rw [length_between hgend]; omega)
  rw [rowAt_stop]
  omega

/-- **The loop over a line** tiles it. -/
theorem lineRows_tile (hgend : gend ≤ s.length) (hp : p ≤ gend) (hfuel : gend - p < fuel) :
    LineRows s gend p (lineRows s width promptCols gend fuel first p) := by
  induction fuel generalizing first p with
  | zero => exact absurd hfuel (Nat.not_lt_zero _)
  | succ fuel ih =>
    obtain ⟨hle, hstop⟩ := rowAt_le width promptCols first hp hgend
    rw [lineRows]
    split
    · rename_i hlt
      have hlt' := lt_rowAt width promptCols first (hle.trans_lt hlt) hgend
      have hfewer : gend - (rowAt s width promptCols gend first p).stop < fuel := by omega
      exact .wrapped hlt' hlt rfl (ih hlt.le hfewer)
    · rename_i hge
      exact .last hle (Nat.le_antisymm hstop (Nat.le_of_not_lt hge)) rfl

/-- **The loop over the lines** tiles the buffer. -/
theorem bufferRows_tile (hp : p ≤ s.length) (hfuel : s.length - p < fuel) :
    BufferRows s p (bufferRows s width promptCols fuel first p) := by
  induction fuel generalizing first p with
  | zero => exact absurd hfuel (Nat.not_lt_zero _)
  | succ fuel ih =>
    rw [bufferRows]
    rcases lineEnd_cases hp with ⟨hend, hno⟩ | ⟨hle, hlt, hnl, hno⟩
    · rw [if_pos hend, hend]
      exact .last hno (lineRows_tile (Nat.le_refl _) hp (by omega))
    · rw [if_neg (Nat.ne_of_lt hlt)]
      exact .line hnl hno (lineRows_tile hlt.le hle (by omega)) (ih hlt (by omega))

/-- The rows are those of `rowAt`, the first with the prompt. -/
theorem mem_lineRows (h : r ∈ lineRows s width promptCols gend fuel false p) :
    r = rowAt s width promptCols r.lineEnd false r.start := by
  induction fuel generalizing p with
  | zero => cases h
  | succ fuel ih =>
    rw [lineRows] at h
    rcases List.mem_cons.mp h with rfl | h
    · rfl
    · split at h
      · exact ih h
      · cases h

theorem mem_bufferRows (h : r ∈ (bufferRows s width promptCols fuel false p).flatten) :
    r = rowAt s width promptCols r.lineEnd false r.start := by
  induction fuel generalizing p with
  | zero => cases h
  | succ fuel ih =>
    rw [bufferRows, List.flatten_cons] at h
    rcases List.mem_append.mp h with h | h
    · exact mem_lineRows h
    · split at h
      · cases h
      · exact ih h

theorem rowSpans_flatten (s : Bytes) (width promptCols : Int) : ∃ rest,
    (rowSpans s width promptCols).flatten =
      rowAt s width promptCols (lineEnd s 0) true 0 :: rest ∧
    ∀ r ∈ rest, r = rowAt s width promptCols r.lineEnd false r.start := by
  unfold rowSpans
  rw [bufferRows, List.flatten_cons, lineRows, List.cons_append]
  refine ⟨_, rfl, fun r hr => ?_⟩
  rcases List.mem_append.mp hr with hr | hr
  · split at hr
    · exact mem_lineRows hr
    · cases hr
  · split at hr
    · cases hr
    · exact mem_bufferRows hr

end Spans

/-! ## 5. Valid text -/

section Valid

variable {s : Bytes} {width promptCols : Int} {gend p c c' : Nat} {first : Bool} {r : Row}
  {rows : List Row} {lines : List (List Row)}

/-- A row has the columns it is given. -/
theorem text_rowAt (s : Bytes) (width promptCols : Int) (gend : Nat) (first : Bool) (p : Nat) :
    (rowAt s width promptCols gend first p).text s =
      (between s p gend).take
        (Utf8.advance (between s p gend) (budget width promptCols first) 0) := by
  have hle := Utf8.advance_le (budget width promptCols first)
    (Nat.zero_le (between s p gend).length)
  have hlen : (between s p gend).length ≤ gend - p := List.length_take_le _ _
  change (s.drop p).take ((rowAt s width promptCols gend first p).stop - p) = _
  rw [rowAt_stop, Nat.add_sub_cancel_left]
  unfold between at hle hlen ⊢
  rw [List.take_take, Nat.min_eq_left (hle.trans hlen)]

theorem count_text_rowAt (s : Bytes) (width promptCols : Int) (gend : Nat) (first : Bool)
    (p : Nat) :
    Utf8.count ((rowAt s width promptCols gend first p).text s) ≤
      budget width promptCols first := by
  rw [text_rowAt]
  exact Utf8.count_take_advance_le _ _

/-- The rows of a valid line are valid. -/
theorem LineRows.valid (h : LineRows s gend p rows)
    (hrow : ∀ r ∈ rows, ∃ first, r = rowAt s width promptCols r.lineEnd first r.start)
    (hvalid : Utf8 (between s p gend)) : ∀ r ∈ rows, Utf8 (r.text s) := by
  induction h with
  | @last r _ hstop _ =>
    intro r' hr'
    rw [List.mem_singleton.mp hr']
    rw [← hstop] at hvalid
    exact hvalid
  | @wrapped r rows hlt hstop hend hrest ih =>
    obtain ⟨first, hr⟩ := hrow r List.mem_cons_self
    rw [hend] at hr
    obtain ⟨htake, hdrop⟩ := Utf8.valid_take_advance hvalid (budget width promptCols first)
    rw [← text_rowAt s width promptCols gend first r.start, ← hr] at htake
    have hleft : (between s r.start gend).drop
        (Utf8.advance (between s r.start gend) (budget width promptCols first) 0) =
          between s r.stop gend := by
      have hsplit := rowAt_stop s width promptCols gend first r.start
      rw [← hr] at hsplit
      unfold between at hsplit ⊢
      rw [List.drop_take, List.drop_drop, ← hsplit]
      congr 1
      omega
    rw [hleft] at hdrop
    intro r' hr'
    rcases List.mem_cons.mp hr' with rfl | hr'
    · exact htake
    · exact ih (fun r'' hr'' => hrow r'' (List.mem_cons_of_mem _ hr'')) hdrop r' hr'

theorem BufferRows.mem (h : BufferRows s p lines) (hrows : rows ∈ lines) :
    rows ≠ [] ∧ ∃ gstart gend, LineRows s gend gstart rows := by
  have hne : ∀ {gend gstart : Nat} {rows : List Row}, LineRows s gend gstart rows → rows ≠ [] :=
    fun h => by cases h <;> exact List.cons_ne_nil _ _
  induction h with
  | last _ h =>
    rw [List.mem_singleton.mp hrows]
    exact ⟨hne h, _, _, h⟩
  | line _ _ h _ ih =>
    rcases List.mem_cons.mp hrows with rfl | hrows
    · exact ⟨hne h, _, _, h⟩
    · exact ih hrows

/-- **The rows of a valid buffer are valid.** -/
theorem BufferRows.valid (h : BufferRows s p lines) (hvalid : Utf8 (s.drop p))
    (hrow : ∀ r ∈ lines.flatten, ∃ first, r = rowAt s width promptCols r.lineEnd first r.start) :
    ∀ r ∈ lines.flatten, Utf8 (r.text s) := by
  intro r hr
  obtain ⟨rows, hrows, hmem⟩ := List.mem_flatten.mp hr
  obtain ⟨-, gstart, gend, hline⟩ := h.mem hrows
  have hpiece : between s gstart gend ∈ (s.drop p).splitOn newline := by
    rw [← h.lines_eq, ← hline.flatten]
    exact List.mem_map_of_mem (f := fun rows : List Row =>
      (rows.map fun r => r.text s).flatten) hrows
  exact hline.valid (fun r' hr' => hrow r' (List.mem_flatten.mpr ⟨rows, hrows, hr'⟩))
    (Utf8.valid_of_mem_splitOn (by decide) hvalid hpiece) r hmem

theorem rowSpans_tile (s : Bytes) (width promptCols : Int) :
    BufferRows s 0 (rowSpans s width promptCols) :=
  bufferRows_tile (Nat.zero_le _) (by omega)

/-- The row at an index: the prompt is in front of the first. -/
theorem rowSpans_get {i : Nat}
    (h : (rowSpans s width promptCols).flatten[i]? = some r) :
    r = rowAt s width promptCols r.lineEnd (i = 0) r.start := by
  obtain ⟨rest, hspans, hrest⟩ := rowSpans_flatten s width promptCols
  rw [hspans] at h
  cases i with
  | zero =>
    rw [List.getElem?_cons_zero] at h
    rw [← Option.some.inj h]
    rfl
  | succ i =>
    rw [List.getElem?_cons_succ] at h
    exact hrest r (List.mem_of_getElem? h)

theorem budget_eq (hprompt : 0 ≤ promptCols) (hwidth : promptCols + 2 ≤ width) (first : Bool) :
    (budget width promptCols first : Int) =
      width - 1 - (if first then promptCols else 0) := by
  unfold budget
  dsimp only
  cases first
  · simp only [Bool.false_eq_true, if_false]
    omega
  · simp only [if_true]
    omega

theorem col0_eq (hprompt : 0 ≤ promptCols) (s : Bytes) (width : Int) (gend : Nat) (first : Bool)
    (p : Nat) : (rowAt s width promptCols gend first p).col0 =
      if first then promptCols else 0 := by
  unfold rowAt
  dsimp only
  rw [if_neg (Int.not_lt.mpr hprompt)]

/-- **Two positions of one row with as many characters before them** are one. -/
theorem eq_of_count_between (hle : p ≤ c) (hle' : c ≤ c') (hc' : c' ≤ s.length)
    (hvalid : Utf8 (between s p c))
    (hcount : Utf8.count (between s p c) = Utf8.count (between s p c')) : c = c' := by
  rw [← between_append s hle hle', Utf8.count_append hvalid] at hcount
  have hnil : between s c c' = [] := Utf8.eq_nil_of_count (by omega)
  have hlen := length_between (p := c) hc'
  rw [hnil, List.length_nil] at hlen
  omega

end Valid

/-- A position between two characters of a valid buffer. -/
structure Position (s : Bytes) (cursor : Nat) : Prop where
  inside : cursor ≤ s.length
  before : Utf8 (s.take cursor)

/-- The rows and the cursor that are on the screen, and what is before the cursor. -/
structure LaidOut (b : InputBar) (width promptCols : Int) (lines : List (List Bytes)) : Prop where
  rows : (b.wrapLayout width promptCols).rows = lines.flatten
  nonempty : [] ∉ lines
  /-- The rows of each logical line are that line. -/
  split : lines.map List.flatten = b.buffer.splitOn newline
  joined : [newline].intercalate (lines.map List.flatten) = b.buffer
  valid : ∀ row ∈ lines.flatten, Utf8 row
  fits : ∀ i row, lines.flatten[i]? = some row →
    (Utf8.count row : Int) ≤ width - 1 - (if i = 0 then promptCols else 0)
  /-- The rows the loops go over, one of which claims the cursor. -/
  spans : lines.flatten =
    (rowSpans b.buffer width promptCols).flatten.map fun r => r.text b.buffer
  claimed : ∃ r, (rowSpans b.buffer width promptCols).flatten[
      (b.wrapLayout width promptCols).cursorRow]? = some r ∧ r.claims b.cursor = true ∧
    ∀ (i : Nat) (r' : Row), (rowSpans b.buffer width promptCols).flatten[i]? = some r' →
      r'.claims b.cursor = true → i = (b.wrapLayout width promptCols).cursorRow
  found : (b.wrapLayout width promptCols).cursorSet = true
  cursorRow_lt : (b.wrapLayout width promptCols).cursorRow < lines.flatten.length
  cursorCol_nonneg : 0 ≤ (b.wrapLayout width promptCols).cursorCol
  cursorCol_le : (b.wrapLayout width promptCols).cursorCol ≤ width - 1
  /-- Before the cursor there are the lines before its line, the rows of its line before its row,
  and the characters of its row that are left of it. -/
  before : ∃ (above : List (List Bytes)) (earlier : List Bytes) (row : Bytes) (later : List Bytes)
      (below : List (List Bytes)) (left : Bytes),
    lines = above ++ (earlier ++ row :: later) :: below ∧
    (b.wrapLayout width promptCols).cursorRow = (above.flatten ++ earlier).length ∧
    left <+: row ∧ Utf8 left ∧
    (b.wrapLayout width promptCols).cursorCol =
      (if (b.wrapLayout width promptCols).cursorRow = 0 then promptCols else 0) +
        Utf8.count left ∧
    b.buffer.take b.cursor =
      (above.flatMap fun rows => rows.flatten ++ [newline]) ++ earlier.flatten ++ left

section LaysOut

variable {b : InputBar} {width promptCols : Int}

/-- The row `r` is that of the cursor, with the lines above and below its line and the rows of its
line before and behind it: no other row claims the cursor. -/
structure CursorRow (b : InputBar) (width promptCols : Int) (above : List (List Row))
    (earlier : List Row) (r : Row) (later : List Row) (below : List (List Row)) : Prop where
  spans : rowSpans b.buffer width promptCols = above ++ (earlier ++ r :: later) :: below
  claims : r.claims b.cursor = true
  front : ∀ r' ∈ above.flatten ++ earlier, r'.claims b.cursor = false
  behind : ∀ r' ∈ later ++ below.flatten, r'.claims b.cursor = false
  /-- What is left of the cursor on it. -/
  left : Utf8 (between b.buffer r.start b.cursor)
  before : b.buffer.take b.cursor =
    (above.flatMap fun rows => (rows.map fun r => r.text b.buffer).flatten ++ [newline]) ++
      (earlier.map fun r => r.text b.buffer).flatten ++ between b.buffer r.start b.cursor

/-- The rows of a valid buffer are valid. -/
theorem valid_rowSpans (hvalid : Utf8 b.buffer) (width promptCols : Int) :
    ∀ r ∈ (rowSpans b.buffer width promptCols).flatten, Utf8 (r.text b.buffer) :=
  (rowSpans_tile b.buffer width promptCols).valid hvalid fun r hr => by
    obtain ⟨i, hi⟩ := List.mem_iff_getElem?.mp hr
    exact ⟨_, rowSpans_get hi⟩

/-- **There is a row of the cursor.** -/
theorem exists_cursor_row (hvalid : Utf8 b.buffer) (hcursor : Position b.buffer b.cursor)
    (width promptCols : Int) :
    ∃ above earlier r later below, CursorRow b width promptCols above earlier r later below := by
  obtain ⟨above, earlier, r, later, below, hspans, hclaims, hno, hno', hbefore⟩ :=
    (rowSpans_tile b.buffer width promptCols).claimed (Nat.zero_le _) hcursor.inside
  have hrows := valid_rowSpans hvalid width promptCols
  have htake : between b.buffer 0 b.cursor = b.buffer.take b.cursor := rfl
  have hmem : ∀ rows ∈ above, ∀ r' ∈ rows, Utf8 (r'.text b.buffer) := fun rows hr r' hr' =>
    hrows r' (List.mem_flatten.mpr ⟨rows, by rw [hspans]; simp [hr], hr'⟩)
  -- what is before the row is valid, so what is left of the cursor on it is
  have hfront : Utf8 ((above.flatMap fun rows =>
      (rows.map fun r => r.text b.buffer).flatten ++ [newline]) ++
        (earlier.map fun r => r.text b.buffer).flatten) := by
    refine Utf8.append (Utf8.flatten fun l hl => ?_) (Utf8.flatten fun t ht => ?_)
    · obtain ⟨rows, hr, rfl⟩ := List.mem_map.mp hl
      refine Utf8.append (Utf8.flatten fun t ht => ?_) (by decide)
      obtain ⟨r', hr', rfl⟩ := List.mem_map.mp ht
      exact hmem rows hr r' hr'
    · obtain ⟨r', hr', rfl⟩ := List.mem_map.mp ht
      exact hrows r' (by rw [hspans]; simp [hr'])
  rw [htake] at hbefore
  have hleft := hcursor.before
  rw [hbefore] at hleft
  exact ⟨above, earlier, r, later, below, hspans, hclaims, hno, hno',
    (Utf8.valid_append_iff_right hfront _).mp hleft, hbefore⟩

/-- A claimed position is within its row. -/
theorem between_isPrefix_text {s : Bytes} {r : Row} {c : Nat} (h : r.claims c = true) :
    between s r.start c <+: r.text s := by
  obtain ⟨hle, hstop, -⟩ := claims_iff.mp h
  change between s r.start c <+: between s r.start r.stop
  rw [← between_append s hle hstop]
  exact List.prefix_append _ _

namespace CursorRow

variable {above below : List (List Row)} {earlier later : List Row} {r r' : Row} {i : Nat}

theorem flat (h : CursorRow b width promptCols above earlier r later below) :
    (rowSpans b.buffer width promptCols).flatten =
      (above.flatten ++ earlier) ++ r :: (later ++ below.flatten) := by
  rw [h.spans]
  simp

/-- What the loops come to. -/
theorem layout (h : CursorRow b width promptCols above earlier r later below) :
    b.wrapLayout width promptCols =
      ⟨(rowSpans b.buffer width promptCols).flatten.map fun r => r.text b.buffer,
        (above.flatten ++ earlier).length,
        r.col0 + (Utf8.count (between b.buffer r.start b.cursor) : Int), true⟩ := by
  rw [wrapLayout_eq h.flat h.front h.claims, h.flat]
  rfl

theorem get (h : CursorRow b width promptCols above earlier r later below) :
    (rowSpans b.buffer width promptCols).flatten[(above.flatten ++ earlier).length]? = some r := by
  rw [h.flat, List.getElem?_append_right (Nat.le_refl _), Nat.sub_self]
  rfl

/-- The prompt is in front of it if it is the first row. -/
theorem col0_eq (h : CursorRow b width promptCols above earlier r later below)
    (hprompt : 0 ≤ promptCols) :
    r.col0 = if (above.flatten ++ earlier).length = 0 then promptCols else 0 := by
  rw [rowSpans_get h.get, InputBar.col0_eq hprompt]
  simp only [decide_eq_true_eq]

/-- A row that claims the cursor is the row of the cursor. -/
theorem unique (h : CursorRow b width promptCols above earlier r later below)
    (hi : (rowSpans b.buffer width promptCols).flatten[i]? = some r')
    (hclaims : r'.claims b.cursor = true) : i = (above.flatten ++ earlier).length := by
  rw [h.flat] at hi
  rcases Nat.lt_trichotomy i (above.flatten ++ earlier).length with hlt | rfl | hgt
  · rw [List.getElem?_append_left hlt] at hi
    rw [h.front r' (List.mem_of_getElem? hi)] at hclaims
    cases hclaims
  · rfl
  · obtain ⟨j, rfl⟩ : ∃ j, i = (above.flatten ++ earlier).length + (j + 1) :=
      ⟨i - (above.flatten ++ earlier).length - 1, by omega⟩
    rw [List.getElem?_append_right (Nat.le_add_right _ _), Nat.add_sub_cancel_left,
      List.getElem?_cons_succ] at hi
    rw [h.behind r' (List.mem_of_getElem? hi)] at hclaims
    cases hclaims

/-- The cursor is no further right than its row goes. -/
theorem count_left_le (h : CursorRow b width promptCols above earlier r later below) :
    Utf8.count (between b.buffer r.start b.cursor) ≤ Utf8.count (r.text b.buffer) := by
  obtain ⟨rest, hrest⟩ := between_isPrefix_text (s := b.buffer) h.claims
  rw [← hrest, Utf8.count_append h.left]
  exact Nat.le_add_right _ _

end CursorRow

/-- **Every row has room**, the first one less by the prompt. -/
theorem count_rowSpans_le (hprompt : 0 ≤ promptCols) (hwidth : promptCols + 2 ≤ width) {i : Nat}
    {r : Row} (hi : (rowSpans b.buffer width promptCols).flatten[i]? = some r) :
    (Utf8.count (r.text b.buffer) : Int) ≤ width - 1 - (if i = 0 then promptCols else 0) := by
  have hcount := count_text_rowAt b.buffer width promptCols r.lineEnd (i = 0) r.start
  have hbudget := budget_eq hprompt hwidth (decide (i = 0))
  rw [← rowSpans_get hi] at hcount
  simp only [decide_eq_true_eq] at hbudget
  omega

/-- **One layout.** -/
theorem laidOut (hvalid : Utf8 b.buffer) (hcursor : Position b.buffer b.cursor)
    (hprompt : 0 ≤ promptCols) (hwidth : promptCols + 2 ≤ width) :
    LaidOut b width promptCols ((rowSpans b.buffer width promptCols).map fun rows =>
      rows.map fun r => r.text b.buffer) := by
  have htile := rowSpans_tile b.buffer width promptCols
  obtain ⟨above, earlier, r, later, below, h⟩ := exists_cursor_row hvalid hcursor width promptCols
  have htexts : ((rowSpans b.buffer width promptCols).map fun rows =>
      rows.map fun r => r.text b.buffer).flatten =
        (rowSpans b.buffer width promptCols).flatten.map fun r => r.text b.buffer :=
    List.map_flatten.symm
  have hsplit : ((rowSpans b.buffer width promptCols).map fun rows =>
      rows.map fun r => r.text b.buffer).map List.flatten = b.buffer.splitOn newline := by
    rw [List.map_map]
    exact htile.lines_eq
  have hcol := h.col0_eq hprompt
  have hcount := h.count_left_le
  have hroom := count_rowSpans_le hprompt hwidth h.get
  refine ⟨?_, ?_, hsplit, ?_, ?_, ?_, htexts, ?_, ?_, ?_, ?_, ?_, ?_⟩
  · rw [h.layout, htexts]
  · intro hnil
    obtain ⟨rows, hmem, hrows⟩ := List.mem_map.mp hnil
    exact (htile.mem hmem).1 (List.map_eq_nil_iff.mp hrows)
  · rw [hsplit, List.intercalate_splitOn]
  · intro row hrow
    rw [htexts] at hrow
    obtain ⟨r', hr', rfl⟩ := List.mem_map.mp hrow
    exact valid_rowSpans hvalid width promptCols r' hr'
  · intro i row hi
    rw [htexts, List.getElem?_map] at hi
    obtain ⟨r', hr', rfl⟩ := Option.map_eq_some_iff.mp hi
    exact count_rowSpans_le hprompt hwidth hr'
  · rw [h.layout]
    exact ⟨r, h.get, h.claims, fun i r' hi hclaims => h.unique hi hclaims⟩
  · rw [h.layout]
  · rw [h.layout, htexts, List.length_map]
    exact (List.getElem?_eq_some_iff.mp h.get).1
  · rw [h.layout]
    dsimp only
    rw [hcol]
    split <;> omega
  · rw [h.layout]
    dsimp only
    omega
  · refine ⟨above.map fun rows => rows.map fun r => r.text b.buffer,
      earlier.map fun r => r.text b.buffer, r.text b.buffer,
      later.map fun r => r.text b.buffer, below.map fun rows => rows.map fun r => r.text b.buffer,
      between b.buffer r.start b.cursor, ?_, ?_, between_isPrefix_text h.claims, h.left, ?_, ?_⟩
    · rw [h.spans]
      simp
    · rw [h.layout]
      dsimp only
      rw [← List.map_flatten, ← List.map_append, List.length_map]
    · rw [h.layout]
      dsimp only
      rw [hcol]
    · rw [h.before, List.flatMap_map]

/-- **Different positions are in different places** on the screen. -/
theorem position_inj {s : Bytes} {c c' : Nat} (hvalid : Utf8 s) (hc : Position s c)
    (hc' : Position s c')
    (hrow : ((⟨s, c⟩ : InputBar).wrapLayout width promptCols).cursorRow =
      ((⟨s, c'⟩ : InputBar).wrapLayout width promptCols).cursorRow)
    (hcol : ((⟨s, c⟩ : InputBar).wrapLayout width promptCols).cursorCol =
      ((⟨s, c'⟩ : InputBar).wrapLayout width promptCols).cursorCol) : c = c' := by
  obtain ⟨above, earlier, r, later, below, h⟩ :=
    exists_cursor_row (b := ⟨s, c⟩) hvalid hc width promptCols
  obtain ⟨above', earlier', r', later', below', h'⟩ :=
    exists_cursor_row (b := ⟨s, c'⟩) hvalid hc' width promptCols
  rw [h.layout, h'.layout] at hrow hcol
  dsimp only at hrow hcol
  -- the rows are the same, so the two are on one row
  obtain ⟨-, hrest⟩ := List.append_inj (h.flat.symm.trans h'.flat) hrow
  obtain ⟨rfl, -⟩ := List.cons.inj hrest
  obtain ⟨hle, -, -⟩ := claims_iff.mp h.claims
  obtain ⟨hle', -, -⟩ := claims_iff.mp h'.claims
  have hcount : Utf8.count (between s r.start c) = Utf8.count (between s r.start c') := by
    omega
  rcases Nat.le_total c c' with hcc | hcc
  · exact eq_of_count_between hle hcc hc'.inside h.left hcount
  · exact (eq_of_count_between hle' hcc hc.inside h'.left hcount.symm).symm

end LaysOut

/-- The cursor of a bar that can be reached is between two characters. -/
theorem position_run (ops : List Op) :
    Utf8 (run ops {}).2.buffer ∧ Position (run ops {}).2.buffer (run ops {}).2.cursor := by
  obtain ⟨-, hshows⟩ := Shows.run ops shows_empty
  have hvalid : Utf8 (run ops {}).2.buffer := by
    rw [hshows.buffer]
    exact Utf8.valid_iff.mpr ⟨_, rfl⟩
  refine ⟨hvalid, ?_⟩
  rw [hshows.cursor_eq, hshows.buffer]
  constructor
  · rw [← Utf8.offset_of_length_le (Nat.le_refl _)]
    exact Utf8.offset_mono (Editor.inside _)
  · rw [Utf8.take_offset]
    exact Utf8.valid_iff.mpr ⟨_, rfl⟩

/-- **The input box.**  Of every bar that can be reached, at every width that leaves room for the
prompt, a character and the cursor: the rows of each logical line are that line, they fit, and the
cursor is on the one row that claims it, behind what is before it in the buffer.  No two positions
of a buffer are in one place. -/
theorem wrapLayout_laidOut (ops : List Op) (width promptCols : Int) (hprompt : 0 ≤ promptCols)
    (hwidth : promptCols + 2 ≤ width) :
    (∃ lines, LaidOut (run ops {}).2 width promptCols lines) ∧
    ∀ c c', Position (run ops {}).2.buffer c → Position (run ops {}).2.buffer c' → c ≠ c' →
      (((⟨(run ops {}).2.buffer, c⟩ : InputBar).wrapLayout width promptCols).cursorRow,
        ((⟨(run ops {}).2.buffer, c⟩ : InputBar).wrapLayout width promptCols).cursorCol) ≠
      (((⟨(run ops {}).2.buffer, c'⟩ : InputBar).wrapLayout width promptCols).cursorRow,
        ((⟨(run ops {}).2.buffer, c'⟩ : InputBar).wrapLayout width promptCols).cursorCol) := by
  obtain ⟨hvalid, hcursor⟩ := position_run ops
  refine ⟨⟨_, laidOut hvalid hcursor hprompt hwidth⟩, fun c c' hc hc' hne heq => hne ?_⟩
  obtain ⟨hrow, hcol⟩ := Prod.mk.inj heq
  exact position_inj hvalid hc hc' hrow hcol

theorem wrapLayout_laidOut_typed :
    (∃ lines, LaidOut (run [.insertText ['c', 'a', 'f', 'é', 's']] {}).2 6 2 lines) ∧
    ((run [.insertText ['c', 'a', 'f', 'é', 's']] {}).2.wrapLayout 6 2).rows =
      [bytes "caf", bytes "és"] ∧
    ((run [.insertText ['c', 'a', 'f', 'é', 's']] {}).2.wrapLayout 6 2).cursorRow = 1 ∧
    ((run [.insertText ['c', 'a', 'f', 'é', 's']] {}).2.wrapLayout 6 2).cursorCol = 2 :=
  ⟨(wrapLayout_laidOut _ 6 2 (by decide) (by decide)).1, by decide +kernel, by decide +kernel,
    by decide +kernel⟩

end InputBar

end SimpleCoder

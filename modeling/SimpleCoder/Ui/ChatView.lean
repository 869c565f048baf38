/-
# The chat view

The conversation panel is a list of entries that grows at its end.  An entry is referred to by its
index, which stays its index until the view is cleared; `appendTo` an index beyond the end does
nothing.

`said` is what the entries say, folded or not.  Folding and scrolling leave it alone, and every
other member adds an entry at the end or text to one.  How the entries are laid out on the screen is
not part of this file.
-/
import SimpleCoder.Lib.Growing
import SimpleCoder.Bytes

namespace SimpleCoder

namespace ChatView

/-! ## 1. The members -/

inductive Style where
  | normal
  | dim
  | error
  | accent
  deriving DecidableEq, Repr

/-- Thinking and tool entries can be folded into one line; preformatted ones are shown verbatim. -/
inductive Kind where
  | normal
  | thinking
  | preformatted
  | tool
  deriving DecidableEq, Repr

structure Entry where
  speaker : Bytes
  text : Bytes
  style : Style := .normal
  kind : Kind := .normal
  collapsed : Bool := false
  deriving DecidableEq

end ChatView

/-- `ChatView`, with the number of lines it is scrolled back from the newest. -/
structure ChatView where
  entries : List ChatView.Entry := []
  scrollFromBottom : Int := 0

namespace ChatView

/-- A new entry at the end; its index is the number of entries before it. -/
def push (v : ChatView) (e : Entry) : ChatView := ⟨v.entries ++ [e], 0⟩

/-- The index of the entry that is pushed next. -/
def next (v : ChatView) : Nat := v.entries.length

def add (v : ChatView) (speaker text : Bytes) (style : Style) : ChatView :=
  v.push { speaker := speaker, text := text, style := style }

def addPreformatted (v : ChatView) (text : Bytes) (style : Style) : ChatView :=
  v.push { speaker := [], text := text, style := style, kind := .preformatted }

def addThinking (v : ChatView) : ChatView :=
  v.push { speaker := bytes "thinking", text := [], style := .dim, kind := .thinking }

def addToolOutput (v : ChatView) (header body : Bytes) : ChatView :=
  v.push { speaker := header, text := body, style := .dim, kind := .tool, collapsed := true }

def appendTo (v : ChatView) (index : Nat) (text : Bytes) : ChatView :=
  if index < v.entries.length then
    ⟨v.entries.modify index fun e => { e with text := e.text ++ text }, 0⟩
  else v

/-- `append_delta`: to the newest entry, and to one of no speaker if there is none. -/
def appendDelta (v : ChatView) (text : Bytes) : ChatView :=
  let entries := if v.entries = [] then [{ speaker := [], text := [] }] else v.entries
  ⟨entries.modify (entries.length - 1) fun e => { e with text := e.text ++ text }, 0⟩

def Entry.collapsible (e : Entry) : Bool := e.kind = .thinking || e.kind = .tool

def setCollapsed (v : ChatView) (index : Nat) (collapsed : Bool) : ChatView :=
  { v with entries := v.entries.modify index fun e =>
      if e.collapsible then { e with collapsed := collapsed } else e }

/-- Toggle the first entry that can be folded. -/
def toggleFirst : List Entry → List Entry
  | [] => []
  | e :: es =>
    if e.collapsible then { e with collapsed := !e.collapsed } :: es else e :: toggleFirst es

def toggleLastCollapsible (v : ChatView) : ChatView :=
  { v with entries := (toggleFirst v.entries.reverse).reverse }

def clear (_ : ChatView) : ChatView := {}

def scrollUp (v : ChatView) (lines : Int) : ChatView :=
  { v with scrollFromBottom := v.scrollFromBottom + max 0 lines }

def scrollDown (v : ChatView) (lines : Int) : ChatView :=
  { v with scrollFromBottom := max 0 (v.scrollFromBottom - max 0 lines) }

def scrollPageUp (v : ChatView) (viewportRows : Int) : ChatView :=
  v.scrollUp (max 1 (viewportRows - 1))

def scrollPageDown (v : ChatView) (viewportRows : Int) : ChatView :=
  v.scrollDown (max 1 (viewportRows - 1))

/-- `scroll_to_top`: to `INT_MAX / 2`, which drawing clamps. -/
def scrollToTop (v : ChatView) : ChatView := { v with scrollFromBottom := 1073741823 }

def scrollToBottom (v : ChatView) : ChatView := { v with scrollFromBottom := 0 }

/-! ## 2. What the entries say -/

/-- What an entry says, folded or not. -/
structure Said where
  kind : Kind
  speaker : Bytes
  text : Bytes
  deriving DecidableEq

def Entry.said (e : Entry) : Said := ⟨e.kind, e.speaker, e.text⟩

def said (v : ChatView) : List Said := v.entries.map Entry.said

/-- More text in an entry. -/
def Said.more (text : Bytes) (s : Said) : Said := { s with text := s.text ++ text }

section Said

variable (v : ChatView)

@[simp] theorem length_said : v.said.length = v.next := List.length_map _

@[simp] theorem said_push (e : Entry) : (v.push e).said = v.said ++ [e.said] := by
  simp [push, said]

@[simp] theorem said_add (speaker text : Bytes) (style : Style) :
    (v.add speaker text style).said = v.said ++ [⟨.normal, speaker, text⟩] := v.said_push _

@[simp] theorem said_addToolOutput (header body : Bytes) :
    (v.addToolOutput header body).said = v.said ++ [⟨.tool, header, body⟩] := v.said_push _

@[simp] theorem said_appendTo {index : Nat} (h : index < v.next) (text : Bytes) :
    (v.appendTo index text).said = v.said.modify index (Said.more text) := by
  have hmore : ∀ e : Entry,
      ({ e with text := e.text ++ text } : Entry).said = Said.more text e.said := fun _ => rfl
  unfold appendTo said
  rw [if_pos (show index < v.entries.length from h)]
  exact Growing.map_modify hmore index v.entries

/-- Text for an entry behind the first part. -/
theorem said_appendTo_add {before l : List Said} (h : v.said = before ++ l) {j : Nat}
    (hj : j < l.length) (text : Bytes) :
    (v.appendTo (before.length + j) text).said = before ++ l.modify j (Said.more text) := by
  have hlt : before.length + j < v.next := by
    rw [← length_said, h, List.length_append]
    omega
  rw [said_appendTo _ hlt, h, Growing.modify_append_add]

/-- Text for the entry that has just been added. -/
theorem said_push_appendTo (e : Entry) (text : Bytes) :
    ((v.push e).appendTo v.next text).said = v.said ++ [e.said.more text] := by
  have hlt : v.next < (v.push e).next := by
    simp [push, next]
  rw [said_appendTo _ hlt, said_push, ← length_said]
  exact Growing.modify_append_add _ _ _ 0

@[simp] theorem said_setCollapsed (index : Nat) (collapsed : Bool) :
    (v.setCollapsed index collapsed).said = v.said := by
  have hsame : ∀ e : Entry,
      (if e.collapsible then { e with collapsed := collapsed } else e).said = id e.said := by
    intro e
    split <;> rfl
  unfold setCollapsed said
  rw [Growing.map_modify hsame, List.modify_id]

theorem map_toggleFirst (es : List Entry) :
    (toggleFirst es).map Entry.said = es.map Entry.said := by
  induction es with
  | nil => rfl
  | cons e es ih =>
    unfold toggleFirst
    split
    · rfl
    · rw [List.map_cons, List.map_cons, ih]

@[simp] theorem said_toggleLastCollapsible : v.toggleLastCollapsible.said = v.said := by
  unfold toggleLastCollapsible said
  rw [List.map_reverse, map_toggleFirst, ← List.map_reverse, List.reverse_reverse]

end Said

/-! ## 3. The parts of a turn -/

/-- What an entry has of a turn: a piece of the answer, the reasoning, the output of a tool, or
none of these. -/
inductive Part where
  | answer
  | thought
  | output
  | other
  deriving DecidableEq, Repr

def Said.part (s : Said) : Part :=
  match s.kind with
  | .thinking => .thought
  | .tool => .output
  | .preformatted => .other
  | .normal => if s.speaker = bytes "* " then .answer else .other

theorem part_answer (text : Bytes) : (⟨.normal, bytes "* ", text⟩ : Said).part = .answer := by
  unfold Said.part
  exact if_pos rfl

theorem part_other {speaker : Bytes} (h : speaker ≠ bytes "* ") (text : Bytes) :
    (⟨.normal, speaker, text⟩ : Said).part = .other := if_neg h

theorem part_more (text : Bytes) (s : Said) : (s.more text).part = s.part := rfl

/-- Nothing has changed but that there may be some entries more, which are no part of a turn. -/
def Grows (v v' : ChatView) : Prop := ∃ l, v'.said = v.said ++ l ∧ ∀ s ∈ l, s.part = .other

theorem Grows.of_said_eq {v v' : ChatView} (h : v'.said = v.said) : v.Grows v' :=
  ⟨[], by rw [h, List.append_nil], fun s hs => absurd hs List.not_mem_nil⟩

theorem Grows.refl (v : ChatView) : v.Grows v := .of_said_eq rfl

theorem Grows.trans {v v' v'' : ChatView} (h : v.Grows v') (h' : v'.Grows v'') : v.Grows v'' := by
  obtain ⟨l, hl, hother⟩ := h
  obtain ⟨l', hl', hother'⟩ := h'
  refine ⟨l ++ l', by rw [hl', hl, List.append_assoc], fun s hs => ?_⟩
  rcases List.mem_append.mp hs with hs | hs
  · exact hother s hs
  · exact hother' s hs

theorem Grows.add (v : ChatView) {speaker : Bytes} (h : speaker ≠ bytes "* ") (text : Bytes)
    (style : Style) : v.Grows (v.add speaker text style) := by
  refine ⟨_, v.said_add speaker text style, fun s hs => ?_⟩
  rw [List.mem_singleton.mp hs]
  exact part_other h text

end ChatView

end SimpleCoder

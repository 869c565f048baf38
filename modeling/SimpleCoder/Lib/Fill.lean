/-
# Filling lines

Filling lines with words is greedy: a word goes on the open line if it still fits behind what is
there, with one separator between, and on a new line if it does not.  A word that is wider than a
line is cut into pieces first.

* §1: the words of a text, and words joined again.
* §2: `Filled` says what a greedy filling is.  It is built word by word (`Filled.onNew`,
  `Filled.onOpen`), and there is only one (`Filled.unique`).
* §3: a ruler measures texts that are not one column a letter, and cuts them.
* §4: two lines in a row hold more than one line could, so the number of lines of a filling is
  within bounds (`Filled.room`, `Filled.used`), and depends little on the width
  (`length_le_of_le_succ`).
-/
import SimpleCoder.Lib.Growing
import Mathlib.Algebra.Ring.Nat
import Mathlib.Data.List.Chain

namespace Fill

/-! ## 1. Words -/

section Words

variable {α : Type} {sep : α} {l u : List α} {us : List (List α)}

/-- No separator in front, none at the end, and no two together. -/
structure Spaced (sep : α) (l : List α) : Prop where
  front : l.head? ≠ some sep
  back : l.getLast? ≠ some sep
  single : ¬ [sep, sep] <:+: l

theorem intercalate_ne_nil (h : u ≠ []) : [sep].intercalate (u :: us) ≠ [] := by
  cases us with
  | nil => rwa [List.intercalate_singleton]
  | cons v us =>
    rw [List.intercalate_cons_cons]
    simp

/-- One more word behind some. -/
theorem intercalate_snoc (sep : α) (h : us ≠ []) (u : List α) :
    [sep].intercalate (us ++ [u]) = [sep].intercalate us ++ sep :: u := by
  induction us with
  | nil => exact absurd rfl h
  | cons v us ih =>
    cases us with
    | nil => simp
    | cons v' us =>
      have hrest := ih (List.cons_ne_nil _ _)
      rw [List.cons_append, List.intercalate_cons_of_ne_nil (by simp), hrest,
        List.intercalate_cons_cons]
      simp

/-- **Joined words are spaced.** -/
theorem spaced_intercalate (h : ∀ u ∈ us, u ≠ [] ∧ sep ∉ u) :
    Spaced sep ([sep].intercalate us) := by
  have hword : ∀ u : List α, sep ∉ u → Spaced sep u := fun u hu =>
    ⟨fun hhead => hu (List.mem_of_mem_head? hhead),
      fun hlast => hu (List.mem_of_mem_getLast? hlast),
      fun hin => hu (hin.subset List.mem_cons_self)⟩
  induction us with
  | nil => exact hword _ List.not_mem_nil
  | cons u us ih =>
    obtain ⟨hne, hno⟩ := h u List.mem_cons_self
    cases us with
    | nil =>
      rw [List.intercalate_singleton]
      exact hword u hno
    | cons v us =>
      have hrest := ih fun w hw => h w (List.mem_cons_of_mem _ hw)
      have hjoin : [sep].intercalate (v :: us) ≠ [] :=
        intercalate_ne_nil (h v (List.mem_cons_of_mem _ List.mem_cons_self)).1
      rw [List.intercalate_cons_cons, List.append_assoc, List.singleton_append]
      constructor
      · rw [List.head?_append_of_ne_nil _ hne]
        exact (hword u hno).front
      · rw [List.getLast?_append_of_ne_nil _ (List.cons_ne_nil _ _),
          List.getLast?_cons_of_ne_nil hjoin]
        exact hrest.back
      · intro hin
        obtain ⟨pre, post, heq⟩ := hin
        -- the two separators are not in the first word, so they are behind it
        rw [List.append_assoc] at heq
        rcases List.append_eq_append_iff.mp heq with ⟨mid, hu, hpost⟩ | ⟨mid, hpre, hpost⟩
        · cases mid with
          | nil =>
            simp only [List.nil_append, List.cons_append, List.cons.injEq, true_and] at hpost
            refine hrest.front ?_
            rw [← hpost]
            rfl
          | cons a mid =>
            have ha : a = sep := by
              simp only [List.cons_append, List.cons.injEq] at hpost
              exact hpost.1.symm
            exact hno (by rw [hu, ha]; simp)
        · cases mid with
          | nil =>
            simp only [List.nil_append, List.cons_append, List.cons.injEq, true_and] at hpost
            refine hrest.front ?_
            rw [hpost]
            rfl
          | cons a mid =>
            simp only [List.cons_append, List.cons.injEq] at hpost
            exact hrest.single ⟨mid, post, by simp [hpost.2]⟩

variable [DecidableEq α]

/-- What stands between separators, where it is anything. -/
def words (sep : α) (l : List α) : List (List α) := (l.splitOn sep).filter (· ≠ [])

/-- A text without a separator is a word, if it is anything. -/
theorem words_of_notMem (h : sep ∉ l) : words sep l = [l].filter (· ≠ []) := by
  unfold words
  rw [List.splitOn_eq_singleton h]

theorem words_nil (sep : α) : words sep [] = [] := words_of_notMem List.not_mem_nil

theorem words_append_cons (sep : α) (l rest : List α) :
    words sep (l ++ sep :: rest) = words sep l ++ words sep rest := by
  unfold words
  rw [List.splitOn_append_cons_self, List.filter_append]

theorem words_cons_sep (sep : α) (l : List α) : words sep (sep :: l) = words sep l :=
  words_append_cons sep [] l

/-- The words behind some separators. -/
theorem words_dropWhile (sep : α) (l : List α) :
    words sep (l.dropWhile (· = sep)) = words sep l := by
  induction l with
  | nil => rfl
  | cons a l ih =>
    by_cases ha : a = sep
    · rw [List.dropWhile_cons_of_pos (by simpa using ha), ih, ha, words_cons_sep]
    · rw [List.dropWhile_cons_of_neg (by simpa using ha)]

/-- A text that starts with no separator starts with a word. -/
theorem words_eq_cons (hne : l ≠ []) (hhead : l.head? ≠ some sep) :
    words sep l = l.takeWhile (· ≠ sep) :: words sep (l.dropWhile (· ≠ sep)) := by
  have hword : l.takeWhile (· ≠ sep) ≠ [] := by
    cases l with
    | nil => exact absurd rfl hne
    | cons a l =>
      rw [List.takeWhile_cons_of_pos (by simpa using hhead)]
      exact List.cons_ne_nil _ _
  have hno : sep ∉ l.takeWhile (· ≠ sep) := fun hmem => by
    simpa using List.mem_takeWhile_imp hmem
  have hone : [l.takeWhile (· ≠ sep)].filter (· ≠ []) = [l.takeWhile (· ≠ sep)] := by
    simpa using hword
  conv_lhs => rw [← List.takeWhile_append_dropWhile (p := (· ≠ sep)) (l := l)]
  cases hrest : l.dropWhile (· ≠ sep) with
  | nil => rw [List.append_nil, words_of_notMem hno, hone, words_nil]
  | cons a rest =>
    have hne' : l.dropWhile (· ≠ sep) ≠ [] := by rw [hrest]; exact List.cons_ne_nil _ _
    have ha : a = sep := by
      have hfirst := List.head_dropWhile_not (· ≠ sep) hne'
      simp only [hrest, List.head_cons] at hfirst
      simpa using hfirst
    rw [ha, words_append_cons, words_of_notMem hno, hone, words_cons_sep, List.singleton_append]

/-- What stands between separators has none in it. -/
theorem notMem_of_mem_splitOn (h : u ∈ l.splitOn sep) : sep ∉ u := by
  induction l using Growing.pieces_induction (· == sep) with
  | last l hl =>
    have hno : sep ∉ l := fun hsep => by simpa using hl sep hsep
    rw [List.splitOn_eq_singleton hno] at h
    rwa [List.mem_singleton.mp h]
  | piece l c rest hl hc ih =>
    have hno : sep ∉ l := fun hsep => by simpa using hl sep hsep
    rw [show c = sep by simpa using hc, List.splitOn_append_cons_self_of_not_mem hno] at h
    rcases List.mem_cons.mp h with rfl | h
    · exact hno
    · exact ih h

theorem mem_words (h : u ∈ words sep l) : u ≠ [] ∧ sep ∉ u := by
  obtain ⟨hmem, hne⟩ := List.mem_filter.mp h
  exact ⟨by simpa using hne, notMem_of_mem_splitOn hmem⟩

/-- The words are the text without its separators. -/
theorem flatten_words (sep : α) (l : List α) :
    (words sep l).flatten = l.filter (· ≠ sep) := by
  induction l using Growing.pieces_induction (· == sep) with
  | last l hl =>
    have hno : sep ∉ l := fun hsep => by simpa using hl sep hsep
    have hall : l.filter (· ≠ sep) = l := List.filter_eq_self.mpr fun a ha => by
      simpa using hl a ha
    rw [words_of_notMem hno, hall]
    by_cases hne : l = [] <;> simp [hne]
  | piece l c rest hl hc ih =>
    have hno : sep ∉ l := fun hsep => by simpa using hl sep hsep
    have hall : l.filter (· ≠ sep) = l := List.filter_eq_self.mpr fun a ha => by
      simpa using hl a ha
    have hone : ([l].filter (· ≠ [])).flatten = l := by
      by_cases hne : l = [] <;> simp [hne]
    rw [show c = sep by simpa using hc, words_append_cons, List.flatten_append, ih,
      words_of_notMem hno, hone, List.filter_append, hall, List.filter_cons_of_neg (by simp)]

/-- What stands between separators is what is no separator. -/
theorem exists_mem_splitOn_iff {a : α} :
    (∃ u ∈ l.splitOn sep, a ∈ u) ↔ a ∈ l ∧ a ≠ sep := by
  have hflatten : a ∈ (words sep l).flatten ↔ a ∈ l ∧ a ≠ sep := by
    rw [flatten_words, List.mem_filter, decide_eq_true_iff]
  rw [← hflatten, List.mem_flatten]
  constructor
  · rintro ⟨u, hu, ha⟩
    exact ⟨u, List.mem_filter.mpr ⟨hu, by simpa using List.ne_nil_of_mem ha⟩, ha⟩
  · rintro ⟨u, hu, ha⟩
    exact ⟨u, List.mem_of_mem_filter hu, ha⟩

/-- What is joined, without its separators. -/
theorem filter_intercalate (h : ∀ u ∈ us, sep ∉ u) :
    ([sep].intercalate us).filter (· ≠ sep) = us.flatten := by
  have hall : ∀ u ∈ us, u.filter (· ≠ sep) = u := fun u hu => by
    refine List.filter_eq_self.mpr fun a ha => ?_
    have hne : a ≠ sep := fun heq => h u hu (heq ▸ ha)
    simpa using hne
  induction us with
  | nil => rfl
  | cons u us ih =>
    have hrest := ih (fun v hv => h v (List.mem_cons_of_mem _ hv))
      fun v hv => hall v (List.mem_cons_of_mem _ hv)
    cases us with
    | nil => rw [List.intercalate_singleton, hall u List.mem_cons_self, List.flatten_singleton]
    | cons v us =>
      rw [List.intercalate_cons_cons, List.filter_append, List.filter_append, hrest,
        hall u List.mem_cons_self, List.filter_cons_of_neg (by simp), List.filter_nil,
        List.append_nil, List.flatten_cons (L := v :: us)]

/-- **A text is its words joined** exactly if it is spaced. -/
theorem intercalate_words_iff : [sep].intercalate (words sep l) = l ↔ Spaced sep l := by
  constructor
  · intro h
    rw [← h]
    exact spaced_intercalate fun u hu => mem_words hu
  · intro h
    induction l using Growing.pieces_induction (· == sep) with
    | last l hl =>
      have hno : sep ∉ l := fun hsep => by simpa using hl sep hsep
      rw [words_of_notMem hno]
      by_cases hne : l = [] <;> simp [hne]
    | piece l c rest hl hc ih =>
      have hno : sep ∉ l := fun hsep => by simpa using hl sep hsep
      obtain rfl : c = sep := by simpa using hc
      have hne : l ≠ [] := by
        rintro rfl
        exact h.front rfl
      have hrest : rest ≠ [] := by
        rintro rfl
        exact h.back List.getLast?_concat
      -- the gap is one separator wide, so the rest does not begin with another
      have hspaced : Spaced c rest := by
        constructor
        · intro hhead
          obtain ⟨tail, rfl⟩ := List.head?_eq_some_iff.mp hhead
          exact h.single ⟨l, tail, by simp⟩
        · have hback := h.back
          rwa [List.getLast?_append_of_ne_nil _ (List.cons_ne_nil _ _),
            List.getLast?_cons_of_ne_nil hrest] at hback
        · intro hin
          exact h.single (hin.trans ⟨l ++ [c], [], by simp⟩)
      have hwords : words c rest ≠ [] := fun hnil => hrest <| by
        rw [← ih hspaced, hnil, List.intercalate_nil]
      have hone : [l].filter (· ≠ []) = [l] := by simpa using hne
      rw [words_append_cons, words_of_notMem hno, hone, List.singleton_append,
        List.intercalate_cons_of_ne_nil hwords, ih hspaced, List.append_assoc,
        List.singleton_append]

/-- The words of joined words. -/
theorem words_intercalate (h : ∀ u ∈ us, u ≠ [] ∧ sep ∉ u) :
    words sep ([sep].intercalate us) = us := by
  rcases eq_or_ne us [] with rfl | hne
  · exact words_nil sep
  · unfold words
    rw [List.splitOn_intercalate sep (fun u hu => (h u hu).2) hne]
    exact List.filter_eq_self.mpr fun u hu => by simpa using (h u hu).1

end Words

/-! ## 2. Greedy filling -/

section Greedy

variable {β : Type} {size : β → Nat} {w : Nat} {items g : List β} {b : β}
  {groups groups' : List (List β)}

/-- The columns some items take on a line, with one between. -/
def width (size : β → Nat) (g : List β) : Nat := (g.map size).sum + (g.length - 1)

@[simp] theorem width_singleton (size : β → Nat) (b : β) : width size [b] = size b := by
  simp [width]

theorem width_snoc (size : β → Nat) (h : g ≠ []) (b : β) :
    width size (g ++ [b]) = width size g + 1 + size b := by
  have hlen := List.length_pos_of_ne_nil h
  simp only [width, List.map_append, List.sum_append, List.map_singleton, List.sum_singleton,
    List.length_append, List.length_singleton]
  omega

theorem width_le_append (size : β → Nat) (g g' : List β) :
    width size g ≤ width size (g ++ g') := by
  simp only [width, List.map_append, List.sum_append, List.length_append]
  omega

theorem width_cons_cons (size : β → Nat) (b b' : β) (g : List β) :
    width size (b :: b' :: g) = size b + 1 + width size (b' :: g) := by
  simp only [width, List.map_cons, List.sum_cons, List.length_cons]
  omega

/-- Each item is part of the width. -/
theorem size_le_width (size : β → Nat) (h : b ∈ g) : size b ≤ width size g := by
  obtain ⟨before, after, rfl⟩ := List.append_of_mem h
  simp only [width, List.map_append, List.sum_append, List.map_cons, List.sum_cons]
  omega

/-- **Greedy filling.**  The lines have the items in order, none is empty, all fit, and the first
item of a line would not have fitted on the line before. -/
structure Filled (size : β → Nat) (w : Nat) (items : List β) (groups : List (List β)) : Prop where
  flatten : groups.flatten = items
  ne_nil : [] ∉ groups
  fits : ∀ g ∈ groups, width size g ≤ w
  greedy : groups.IsChain fun g g' => ∀ b ∈ g'.head?, w < width size g + 1 + size b

theorem Filled.nil : Filled size w [] [] :=
  ⟨rfl, List.not_mem_nil, fun _ h => absurd h List.not_mem_nil, List.isChain_nil⟩

/-- An item that does not fit on the open line begins a new one. -/
theorem Filled.onNew (h : Filled size w items groups) (hb : size b ≤ w)
    (hfull : ∀ g ∈ groups.getLast?, w < width size g + 1 + size b) :
    Filled size w (items ++ [b]) (groups ++ [[b]]) := by
  refine ⟨by simp [h.flatten], ?_, ?_, ?_⟩
  · simpa using h.ne_nil
  · intro g hg
    rcases List.mem_append.mp hg with hg | hg
    · exact h.fits g hg
    · rw [List.mem_singleton.mp hg, width_singleton]
      exact hb
  · refine h.greedy.append (List.isChain_singleton _) fun g hg g' hg' b' hb' => ?_
    obtain rfl : [b] = g' := by simpa using hg'
    obtain rfl : b = b' := by simpa using hb'
    exact hfull g hg

/-- An item that fits on the open line goes there. -/
theorem Filled.onOpen (h : Filled size w items (groups ++ [g]))
    (hb : width size g + 1 + size b ≤ w) :
    Filled size w (items ++ [b]) (groups ++ [g ++ [b]]) := by
  have hne : g ≠ [] := fun hnil => h.ne_nil (by simp [hnil])
  refine ⟨by simp [← h.flatten], ?_, ?_, ?_⟩
  · have hno := h.ne_nil
    simp only [List.mem_append, not_or] at hno
    simp [hno.1]
  · intro g' hg'
    rcases List.mem_append.mp hg' with hg' | hg'
    · exact h.fits g' (List.mem_append_left _ hg')
    · rw [List.mem_singleton.mp hg', width_snoc size hne]
      exact hb
  · refine h.greedy.left_of_append.append (List.isChain_singleton _) fun l hl l' hl' b' hb' => ?_
    obtain rfl : g ++ [b] = l' := by simpa using hl'
    rw [List.head?_append_of_ne_nil _ hne] at hb'
    exact (List.isChain_append.mp h.greedy).2.2 l hl g rfl b' hb'

/-- The filling behind the first line. -/
theorem Filled.tail (h : Filled size w items (g :: groups)) :
    Filled size w groups.flatten groups :=
  ⟨rfl, fun hmem => h.ne_nil (List.mem_cons_of_mem _ hmem),
    fun g' hg' => h.fits g' (List.mem_cons_of_mem _ hg'), h.greedy.tail⟩

/-- A line cannot be continued with what the next one has. -/
theorem Filled.length_le {g' : List β} (h : Filled size w items (g :: groups))
    (h' : Filled size w items (g' :: groups')) : g'.length ≤ g.length := by
  by_contra hlt
  have hne : g ≠ [] := fun hnil => h.ne_nil (by simp [hnil])
  have heq : g ++ groups.flatten = g' ++ groups'.flatten := by
    rw [← List.flatten_cons, ← List.flatten_cons, h.flatten, h'.flatten]
  obtain ⟨mid, hmid, hflat⟩ : ∃ mid, g' = g ++ mid ∧ groups.flatten = mid ++ groups'.flatten := by
    rcases List.append_eq_append_iff.mp heq with ⟨mid, hg', hflat⟩ | ⟨mid, hg, -⟩
    · exact ⟨mid, hg', hflat⟩
    · rw [hg, List.length_append] at hlt
      omega
  cases mid with
  | nil =>
    rw [hmid, List.append_nil] at hlt
    exact hlt (Nat.le_refl _)
  | cons b mid =>
    cases groups with
    | nil => cases hflat
    | cons next rest =>
      have hnext : next ≠ [] := fun hnil => h.ne_nil (by simp [hnil])
      have hhead : next.head? = some b := by
        have hfirst := congrArg List.head? hflat
        rwa [List.flatten_cons, List.head?_append_of_ne_nil _ hnext] at hfirst
      have hfull := h.greedy.rel_head? (y := next) rfl b hhead
      have hfits := h'.fits g' List.mem_cons_self
      have hle := width_le_append size (g ++ [b]) mid
      rw [hmid, List.append_cons] at hfits
      rw [width_snoc size hne] at hle
      omega

/-- **There is one greedy filling.** -/
theorem Filled.unique (h : Filled size w items groups) (h' : Filled size w items groups') :
    groups = groups' := by
  induction groups generalizing items groups' with
  | nil =>
    cases groups' with
    | nil => rfl
    | cons g' groups' =>
      have hflat := h'.flatten
      rw [← h.flatten, List.flatten_cons, List.flatten_nil, List.append_eq_nil_iff] at hflat
      exact absurd (by simp [hflat.1]) h'.ne_nil
  | cons g groups ih =>
    cases groups' with
    | nil =>
      have hflat := h.flatten
      rw [← h'.flatten, List.flatten_cons, List.flatten_nil, List.append_eq_nil_iff] at hflat
      exact absurd (by simp [hflat.1]) h.ne_nil
    | cons g' groups' =>
      have hlen : g.length = g'.length := Nat.le_antisymm (h'.length_le h) (h.length_le h')
      have heq : g ++ groups.flatten = g' ++ groups'.flatten := by
        rw [← List.flatten_cons, ← List.flatten_cons, h.flatten, h'.flatten]
      obtain ⟨rfl, hflat⟩ := List.append_inj heq hlen
      rw [ih h.tail (hflat ▸ h'.tail)]

/-- What fits on one line is on one line. -/
theorem Filled.singleton (hne : items ≠ []) (h : width size items ≤ w) :
    Filled size w items [items] := by
  refine ⟨List.flatten_singleton, ?_, ?_, List.isChain_singleton _⟩
  · simpa using hne.symm
  · intro g hg
    rwa [List.mem_singleton.mp hg]

end Greedy

/-! ## 3. Rulers -/

/-- What measures a text in columns, and takes so many columns from its start. -/
structure Ruler (α : Type) where
  cols : List α → Nat
  takeCols : List α → Nat → List α
  cols_nil : cols [] = 0
  takeCols_append_drop : ∀ l n, takeCols l n ++ l.drop (takeCols l n).length = l
  cols_takeCols : ∀ l n, n ≤ cols l → cols (takeCols l n) = n
  cols_drop : ∀ l n, cols (l.drop (takeCols l n).length) = cols l - n

namespace Ruler

variable {α : Type} (r : Ruler α) (w : Nat)

/-- What is left of a text when a line is taken from it. -/
def rest (u : List α) : List α := u.drop (r.takeCols u w).length

/-- A word is cut while it is wider than a line. -/
def cut : Nat → List α → List (List α)
  | 0, u => [u]
  | fuel + 1, u => if w < r.cols u then r.takeCols u w :: cut fuel (r.rest w u) else [u]

/-- The pieces of a word: there are no more cuts than columns. -/
def pieces (u : List α) : List (List α) := r.cut w (r.cols u) u

variable {r w} {u v : List α}

theorem ne_nil_of_cols (h : 0 < r.cols u) : u ≠ [] := by
  rintro rfl
  rw [r.cols_nil] at h
  exact Nat.lt_irrefl 0 h

theorem cols_rest (r : Ruler α) (w : Nat) (u : List α) : r.cols (r.rest w u) = r.cols u - w :=
  r.cols_drop u w

theorem takeCols_append_rest (r : Ruler α) (w : Nat) (u : List α) :
    r.takeCols u w ++ r.rest w u = u := r.takeCols_append_drop u w

theorem cut_of_le (h : r.cols u ≤ w) (fuel : Nat) : r.cut w fuel u = [u] := by
  cases fuel with
  | zero => rfl
  | succ fuel => rw [cut, if_neg (Nat.not_lt.mpr h)]

/-- **The cutting ends**: more fuel than there are columns makes no difference. -/
theorem cut_eq (hw : 0 < w) {fuel fuel' : Nat} (h : r.cols u ≤ fuel) (h' : r.cols u ≤ fuel') :
    r.cut w fuel u = r.cut w fuel' u := by
  induction fuel generalizing fuel' u with
  | zero => rw [cut_of_le (by omega), cut_of_le (by omega)]
  | succ fuel ih =>
    rcases Nat.lt_or_ge w (r.cols u) with hlt | hge
    · cases fuel' with
      | zero => omega
      | succ fuel' =>
        have hrest := cols_rest r w u
        have hcut : r.cut w fuel (r.rest w u) = r.cut w fuel' (r.rest w u) :=
          ih (by omega) (by omega)
        rw [cut, cut, if_pos hlt, if_pos hlt, hcut]
    · rw [cut_of_le hge, cut_of_le hge]

/-- A word that is no wider than a line is left whole. -/
theorem pieces_of_le (h : r.cols u ≤ w) : r.pieces w u = [u] := cut_of_le h _

theorem pieces_of_lt (hw : 0 < w) (h : w < r.cols u) :
    r.pieces w u = r.takeCols u w :: r.pieces w (r.rest w u) := by
  have hrest := cols_rest r w u
  unfold pieces
  rw [cut_eq hw (Nat.le_refl _) (show r.cols u ≤ (r.cols u - 1) + 1 by omega), cut, if_pos h,
    cut_eq hw (by omega) (Nat.le_refl _)]

/-- What is true of a word that fits on a line and carries over to one with a line in front is true
of every word and its pieces. -/
theorem pieces_induction (hw : 0 < w) {P : List α → List (List α) → Prop}
    (whole : ∀ u, r.cols u ≤ w → P u [u])
    (chunk : ∀ u, w < r.cols u → P (r.rest w u) (r.pieces w (r.rest w u)) →
      P u (r.takeCols u w :: r.pieces w (r.rest w u)))
    (u : List α) : P u (r.pieces w u) := by
  induction hn : r.cols u using Nat.strong_induction_on generalizing u with
  | _ n ih =>
    rcases Nat.lt_or_ge w (r.cols u) with hlt | hge
    · rw [pieces_of_lt hw hlt]
      have hrest := cols_rest r w u
      exact chunk u hlt (ih _ (by omega) _ rfl)
    · rw [pieces_of_le hge]
      exact whole u hge

/-- The pieces of a word are the word. -/
theorem flatten_pieces (hw : 0 < w) (u : List α) : (r.pieces w u).flatten = u := by
  induction u using pieces_induction hw (r := r) with
  | whole u h => exact List.flatten_singleton
  | chunk u h ih => rw [List.flatten_cons, ih, takeCols_append_rest]

theorem mem_pieces (hw : 0 < w) (hu : u ≠ []) (hv : v ∈ r.pieces w u) :
    v ≠ [] ∧ r.cols v ≤ w := by
  induction u using pieces_induction hw (r := r) with
  | whole u h =>
    rw [List.mem_singleton.mp hv]
    exact ⟨hu, h⟩
  | chunk u h ih =>
    rcases List.mem_cons.mp hv with rfl | hv
    · have hcols := r.cols_takeCols u w h.le
      exact ⟨ne_nil_of_cols (hw.trans_eq hcols.symm), hcols.le⟩
    · have hrest : 0 < r.cols (r.rest w u) := by
        rw [cols_rest]
        omega
      exact ih (ne_nil_of_cols hrest) hv

/-- The pieces of a word are as wide as a line, but for the last. -/
theorem cols_of_mem_dropLast (hw : 0 < w) (u : List α) :
    ∀ v ∈ (r.pieces w u).dropLast, r.cols v = w := by
  refine (?_ : r.pieces w u ≠ [] ∧ ∀ v ∈ (r.pieces w u).dropLast, r.cols v = w).2
  induction u using pieces_induction hw (r := r) with
  | whole u h => exact ⟨List.cons_ne_nil _ _, nofun⟩
  | chunk u h ih =>
    rw [List.dropLast_cons_of_ne_nil ih.1]
    exact ⟨List.cons_ne_nil _ _, List.forall_mem_cons.mpr ⟨r.cols_takeCols u w h.le, ih.2⟩⟩

end Ruler

/-! ## 4. How many lines -/

section Count

variable {β : Type} {size : β → Nat} {w : Nat} {items g : List β} {groups : List (List β)}

/-- The columns of some items, each with one for the gap behind it. -/
def total (size : β → Nat) (items : List β) : Nat := (items.map fun b => size b + 1).sum

theorem total_cons (size : β → Nat) (b : β) (items : List β) :
    total size (b :: items) = size b + 1 + total size items := List.sum_cons

theorem total_append (size : β → Nat) (items items' : List β) :
    total size (items ++ items') = total size items + total size items' := by
  simp [total]

theorem total_eq_width (size : β → Nat) (h : g ≠ []) : total size g = width size g + 1 := by
  have hlen := List.length_pos_of_ne_nil h
  have hsum : ∀ l : List β, total size l = (l.map size).sum + l.length := fun l => by
    induction l with
    | nil => rfl
    | cons b l ih =>
      rw [total_cons, ih, List.map_cons, List.sum_cons, List.length_cons]
      omega
  rw [hsum]
  unfold width
  omega

/-- **The room there is**: the items are no wider than the lines. -/
theorem Filled.room (h : Filled size w items groups) :
    total size items ≤ groups.length * (w + 1) := by
  rw [← h.flatten]
  have hne := h.ne_nil
  have hfits := h.fits
  clear h
  induction groups with
  | nil => exact Nat.zero_le _
  | cons g groups ih =>
    have hrest := ih (fun hmem => hne (List.mem_cons_of_mem _ hmem))
      fun g' hg' => hfits g' (List.mem_cons_of_mem _ hg')
    have hg := hfits g List.mem_cons_self
    have hwidth := total_eq_width size fun hnil : g = [] => hne (by simp [hnil])
    rw [List.flatten_cons, total_append, List.length_cons, Nat.succ_mul]
    omega

/-- **The room that is used**: two lines in a row hold more than one could. -/
theorem Filled.used (h : Filled size w items (g :: groups)) :
    groups.length * (w + 2) + total size g ≤ 2 * total size items := by
  induction groups generalizing items g with
  | nil =>
    have hitems : total size items = total size g := by
      rw [← h.flatten, List.flatten_singleton]
    simp only [List.length_nil]
    omega
  | cons g' groups ih =>
    have hrest := ih h.tail
    have hne : g' ≠ [] := fun hnil => h.ne_nil (by simp [hnil])
    have hg := total_eq_width size fun hnil : g = [] => h.ne_nil (by simp [hnil])
    have hg' := total_eq_width size hne
    obtain ⟨b, g', rfl⟩ := List.exists_cons_of_ne_nil hne
    have hfull := (List.isChain_cons_cons.mp h.greedy).1 b rfl
    have hb : size b ≤ width size (b :: g') := size_le_width size List.mem_cons_self
    have hitems : total size items = total size g + total size ((b :: g') :: groups).flatten := by
      rw [← total_append, ← List.flatten_cons, h.flatten]
    rw [List.length_cons, Nat.succ_mul]
    omega

variable {α : Type} {r : Ruler α} {w' : Nat} {us : List (List α)}

/-- Cutting adds to the total, but does not double it. -/
theorem Ruler.total_pieces (hw : 0 < w) (u : List α) :
    r.cols u + 1 ≤ total r.cols (r.pieces w u) ∧
      total r.cols (r.pieces w u) ≤ 2 * (r.cols u + 1) := by
  induction u using Ruler.pieces_induction hw (r := r) with
  | whole u h =>
    simp only [total, List.map_singleton, List.sum_singleton]
    omega
  | chunk u h ih =>
    have hchunk := r.cols_takeCols u w h.le
    have hrest := Ruler.cols_rest r w u
    rw [total_cons]
    omega

theorem Ruler.total_flatMap_pieces (hw : 0 < w) (us : List (List α)) :
    total r.cols us ≤ total r.cols (us.flatMap (r.pieces w)) ∧
      total r.cols (us.flatMap (r.pieces w)) ≤ 2 * total r.cols us := by
  induction us with
  | nil => exact ⟨Nat.le_refl _, Nat.le_refl _⟩
  | cons u us ih =>
    have hu := Ruler.total_pieces (r := r) hw u
    rw [List.flatMap_cons, total_append, total_cons]
    omega

/-- **One column less** makes for no more than five times as many lines. -/
theorem length_le_of_le_succ {groups' : List (List (List α))} {groups : List (List (List α))}
    (hw : 0 < w) (hw' : 0 < w') (hle : w' ≤ w + 1)
    (h : Filled r.cols w (us.flatMap (r.pieces w)) groups)
    (h' : Filled r.cols w' (us.flatMap (r.pieces w')) groups') :
    groups.length ≤ 5 * groups'.length := by
  cases groups with
  | nil => exact Nat.zero_le _
  | cons g groups =>
    have hused := h.used
    have htotal := (Ruler.total_flatMap_pieces (r := r) hw us).2
    have htotal' := (Ruler.total_flatMap_pieces (r := r) hw' us).1
    have hroom : groups'.length * (w' + 1) ≤ groups'.length * (w + 2) :=
      Nat.mul_le_mul_left _ (by omega)
    have hlines : groups.length * (w + 2) ≤ 4 * groups'.length * (w + 2) := by
      have hroom' := h'.room
      rw [Nat.mul_assoc]
      omega
    have hlen := Nat.le_of_mul_le_mul_right hlines (by omega)
    have hpos : 0 < groups'.length := by
      refine List.length_pos_of_ne_nil fun hnil => ?_
      have hroom' := h'.room
      have hg := total_eq_width r.cols fun hnil : g = [] => h.ne_nil (by simp [hnil])
      rw [hnil, List.length_nil, Nat.zero_mul] at hroom'
      omega
    rw [List.length_cons]
    omega

end Count

end Fill

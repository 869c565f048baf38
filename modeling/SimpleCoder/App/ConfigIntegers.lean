/-
# The integers of the configuration

`context_size` and `max_tool_iterations` are read with `strtol` and kept in an `int`.  The check of
the range is on the `long`, and the conversion comes after it.  So a number from 2^31 on passes the
check and another one is stored: 4294967296 tool rounds are none at all, and what `strtol` cuts off
at 2^63 - 1 is -1.

* §1 says what integer a text denotes, with no bound on it; `strtol` gives that one if it fits in a
  `long` (`strtol_of_denotes`).
* §2 what a line stores: a value of the key, and the one denoted if that is below 2^31
  (`parse_eq_of_denotes`).
* §3 carries the limit into the sessions that are started with the configuration.
* §4 when all that documents store is exact (`integersExact_iff`).

A text with a zero byte in it denotes nothing, and `strtol` reads up to that byte.
-/
import SimpleCoder.App.ConfigFile
import SimpleCoder.Agent.Agent

namespace SimpleCoder

open Text

/-! ## 1. Numerals -/

/-- The text is a decimal numeral of `z`, perhaps with white space before it and a sign. -/
def Denotes (val : Bytes) (z : Int) : Prop :=
  ∃ pad sign digits : Bytes, val = pad ++ (sign ++ digits) ∧ (∀ c ∈ pad, isspace c = true) ∧
    digits ≠ [] ∧ (∀ c ∈ digits, isDigit c = true) ∧
    ((sign = [] ∨ sign = [0x2B]) ∧ z = digitsValue digits ∨
      sign = [0x2D] ∧ z = -(digitsValue digits : Int))

/-- What is neither blank nor a sign: a digit is not. -/
theorem isDigit_head {c : UInt8} (h : isDigit c = true) :
    isspace c = false ∧ c ≠ 0x2B ∧ c ≠ 0x2D := by
  unfold isDigit at h
  unfold isspace
  simp only [Bool.and_eq_true, decide_eq_true_eq, UInt8.le_iff_toNat_le] at h
  simp only [Bool.or_eq_false_iff, Bool.and_eq_false_iff, decide_eq_false_iff_not,
    UInt8.le_iff_toNat_le, ne_eq, ← UInt8.toNat_inj]
  simp only [UInt8.reduceToNat] at h ⊢
  omega

theorem takeWhile_digits {digits : Bytes} (h : ∀ c ∈ digits, isDigit c = true) :
    digits.takeWhile isDigit = digits ∧ digits.dropWhile isDigit = [] :=
  ⟨List.takeWhile_eq_self_iff.mpr h, List.dropWhile_eq_nil_iff.mpr h⟩

/-- **`strtol` on a numeral** reads all of it, and cuts the number off at the ends of `long`. -/
theorem strtol_of_denotes {val : Bytes} {z : Int} (h : Denotes val z) :
    strtol val = some (max (-2 ^ 63) (min z (2 ^ 63 - 1)), []) := by
  obtain ⟨pad, sign, digits, rfl, hpad, hne, hdigits, hsign⟩ := h
  obtain ⟨d, ds, rfl⟩ := List.exists_cons_of_ne_nil hne
  obtain ⟨hspace, hplus, hminus⟩ := isDigit_head (hdigits d List.mem_cons_self)
  obtain ⟨htake, hdrop⟩ := takeWhile_digits hdigits
  have hskip : (pad ++ (sign ++ d :: ds)).dropWhile isspace = sign ++ d :: ds := by
    rw [List.dropWhile_append_of_pos hpad]
    refine dropWhile_eq_self fun c hc => ?_
    rcases hsign with ⟨rfl | rfl, -⟩ | ⟨rfl, -⟩
    · cases hc
      exact hspace
    · cases hc
      rfl
    · cases hc
      rfl
  unfold strtol
  simp only [hskip]
  rcases hsign with ⟨rfl | rfl, rfl⟩ | ⟨rfl, rfl⟩
  · simp [hplus, hminus, htake, hdrop]
  · simp [htake, hdrop]
  · simp [htake, hdrop]

/-! ## 2. What a line stores -/

/-- The keys whose value is kept in an `int`. -/
inductive IntKey where
  | contextSize
  | maxToolIterations
  deriving DecidableEq, Repr

namespace IntKey

def key : IntKey → ConfigKey
  | .contextSize => .contextSize
  | .maxToolIterations => .maxToolIterations

def field : IntKey → Config → Int
  | .contextSize => Config.contextSize
  | .maxToolIterations => Config.maxToolIterations

/-- The least value that the key may have. -/
def least : IntKey → Int
  | .contextSize => 0
  | .maxToolIterations => 1

def parse : IntKey → Bytes → Except Bytes Int
  | .contextSize => parseContextSize
  | .maxToolIterations => parseMaxToolIterations

end IntKey

section

variable {strtod : Strtod} {k : IntKey} {val : Bytes} {cfg cfg' : Config}

/-- Both conversions check the `long`, and then convert it. -/
theorem IntKey.parse_eq_ok {n : Int} (h : k.parse val = .ok n) :
    ∃ i, whole (strtol val) = some i ∧ k.least ≤ i ∧ n = intCast i := by
  have hparse : ∀ (least : Int) (message : Bytes), (parseAtLeast least message val).map intCast =
      .ok n → ∃ i, whole (strtol val) = some i ∧ least ≤ i ∧ n = intCast i := by
    intro least message h
    unfold parseAtLeast at h
    cases hw : whole (strtol val) with
    | none =>
      rw [hw] at h
      cases h
    | some i =>
      rw [hw] at h
      by_cases hlt : i < least
      · simp only [if_pos hlt] at h
        cases h
      · simp only [if_neg hlt] at h
        cases h
        exact ⟨i, rfl, not_lt.mp hlt, rfl⟩
  cases k with
  | contextSize => exact hparse _ _ h
  | maxToolIterations => exact hparse _ _ h

/-- What is stored is some `int`. -/
theorem IntKey.parse_lt {n : Int} (h : k.parse val = .ok n) : n < 2 ^ 31 := by
  obtain ⟨i, -, -, rfl⟩ := IntKey.parse_eq_ok h
  have hlt := Int.bmod_lt (x := i) (m := 2 ^ 32) (by decide)
  unfold intCast
  omega

/-- **A number below 2^31 is stored as it is**, and is one that the key may have. -/
theorem IntKey.parse_eq_of_denotes {n z : Int} (hz : Denotes val z) (hlt : z < 2 ^ 31)
    (h : k.parse val = .ok n) : n = z ∧ k.least ≤ z := by
  obtain ⟨i, hi, hleast, rfl⟩ := IntKey.parse_eq_ok h
  have hwhole : whole (strtol val) = some (max (-2 ^ 63) (min z (2 ^ 63 - 1))) := by
    rw [strtol_of_denotes hz]
    rfl
  have hclamp : i = max (-2 ^ 63) (min z (2 ^ 63 - 1)) := by
    rw [hwhole] at hi
    exact (Option.some.inj hi).symm
  have hnonneg : 0 ≤ k.least := by cases k <;> decide
  have hzi : i = z := by omega
  subst hzi
  refine ⟨Int.bmod_eq_of_le ?_ ?_, hleast⟩ <;> omega

example : IntKey.contextSize.parse (bytes "9223372036854775808") = .ok (-1) := by rfl

theorem applyKey_int (h : applyKey strtod cfg k.key val = .ok cfg') :
    k.parse val = .ok (k.field cfg') := by
  cases k with
  | contextSize | maxToolIterations =>
    obtain ⟨n, hn⟩ := exists_of_map_ok h
    simp only [IntKey.key, applyKey, hn] at h
    cases h
    exact hn

/-- The value of a line that does not raise is one for its key. -/
theorem RightLine.keyOk {raw : Bytes} {key : ConfigKey} (h : RightLine strtod raw)
    (hset : lineSetting raw = some (key, val)) : KeyOk strtod key val := by
  unfold RightLine at h
  unfold lineSetting at hset
  cases hread : readLine raw with
  | skipped =>
    rw [hread] at hset
    cases hset
  | malformed =>
    rw [hread] at hset
    cases hset
  | setting name w =>
    rw [hread] at h hset
    obtain ⟨key', hname, heq⟩ := Option.map_eq_some_iff.mp hset
    cases heq
    exact h key hname

theorem layered_field (k : IntKey) (sets : List (ConfigKey × Bytes)) :
    k.field (layered strtod cfg sets) = settled sets k.key k.parse (k.field cfg) := by
  cases k <;> rfl

/-- **The fields hold what their last settings were read as.** -/
theorem layered_int (cfg : Config) {sets : List (ConfigKey × Bytes)}
    (hok : KeyOk strtod k.key val) (hlast : lastValue sets k.key = some val) :
    k.parse val = .ok (k.field (layered strtod cfg sets)) := by
  obtain ⟨c, hc⟩ := hok
  have hparse := applyKey_int hc
  rw [layered_field]
  simp only [settled, hlast, hparse]

/-- A field that nothing sets is as before. -/
theorem layered_int_none (strtod : Strtod) (cfg : Config) {sets : List (ConfigKey × Bytes)}
    (hlast : lastValue sets k.key = none) :
    k.field (layered strtod cfg sets) = k.field cfg := by
  rw [layered_field]
  simp only [settled, hlast]

/-- A line that is merged without raising has stored what its value was read as. -/
theorem mergeLine_int {origin raw : Bytes} {lineno : Nat}
    (hset : lineSetting raw = some (k.key, val))
    (h : mergeLine strtod origin raw lineno cfg = .ok ⟨⟩ cfg') :
    k.parse val = .ok (k.field cfg') := by
  have hpost := @mergeLine_post strtod cfg [] origin raw lineno
  rw [layered_nil] at hpost
  obtain ⟨hright, hcfg⟩ := hpost.of_ok h
  rw [hcfg, hset]
  refine layered_int cfg (hright.keyOk hset) ?_
  exact (lastValue_concat [] k.key k.key val).trans (if_pos rfl)

/-- Among the settings of some documents is the last one of a key. -/
theorem exists_line_of_lastValue {docs : List ConfigDoc} {key : ConfigKey}
    (h : lastValue (settings docs) key = some val) :
    ∃ d ∈ docs, ∃ raw ∈ docLines d.text, lineSetting raw = some (key, val) := by
  obtain ⟨set, hfind, rfl⟩ := Option.map_eq_some_iff.mp h
  have hkey : set.1 = key := by simpa using List.find?_some hfind
  have hmem : set ∈ settings docs := List.mem_reverse.mp (List.mem_of_find?_eq_some hfind)
  obtain ⟨d, hd, hmem⟩ := List.mem_flatMap.mp hmem
  obtain ⟨raw, hraw, hset⟩ := List.mem_filterMap.mp hmem
  refine ⟨d, hd, raw, docLines_eq_splitOn d.text ▸ hraw, ?_⟩
  rw [hset, ← hkey]

end

/-! ## 3. The limit in force -/

section

variable {W : Type}

/-- Operations on an agent, one after another; one that raises is over, and the next one comes. -/
def Session.after (lib : JsonText) (s : Session W) (ops : List (AgentOp W)) : Session W :=
  ops.foldl (fun s op => Exec.stateAfter (runOp lib op) s) s

/-- No operation changes the limit of the loop, whether it returns or raises. -/
theorem runOp_limit (lib : JsonText) (op : AgentOp W) (s : Session W) :
    (Exec.stateAfter (runOp lib op) s).agent.cfg.maxToolIterations =
      s.agent.cfg.maxToolIterations := by
  refine Exec.Post.stateAfter (Q := fun t : Session W =>
    t.agent.cfg.maxToolIterations = s.agent.cfg.maxToolIterations) ?_
  cases op with
  | send message images cb cancel round =>
    unfold runOp sendRound
    simp only [Exec.post_bind, Exec.post_get, Exec.post_modify, Exec.post_zoom, Exec.post_pure]
    refine Exec.post_iff.mpr ⟨fun res t _ => ?_, fun _ _ _ => rfl⟩
    unfold Agent.finishSend
    split <;> rfl
  | reset => exact rfl
  | compactIntoSummary summary => exact rfl
  | setModel m => exact rfl
  | setSystemPrompt prompt => exact rfl

theorem Session.after_limit (lib : JsonText) (ops : List (AgentOp W)) (s : Session W) :
    (s.after lib ops).agent.cfg.maxToolIterations = s.agent.cfg.maxToolIterations := by
  induction ops generalizing s with
  | nil => rfl
  | cons op ops ih =>
    have hrest := ih (Exec.stateAfter (runOp lib op) s)
    rw [runOp_limit] at hrest
    exact hrest

theorem Session.start_limit (lib : JsonText) (net : Net W) (cfg : Config)
    (confirmer : Option (Confirmer W)) (tools : List (Tool W)) (w : W) :
    (Session.start lib net cfg confirmer tools w).agent.cfg.maxToolIterations =
      cfg.maxToolIterations := by
  unfold Session.start Agent.create
  split <;> rfl

end

/-! ## 4. When all is exact -/

/-- The line stores the integer that its value denotes, whatever configuration it is merged into. -/
def StoresExactly (strtod : Strtod) (raw : Bytes) : Prop :=
  ∀ (k : IntKey) (val : Bytes), lineSetting raw = some (k.key, val) →
    ∀ origin lineno cfg cfg', mergeLine strtod origin raw lineno cfg = .ok ⟨⟩ cfg' →
      Denotes val (k.field cfg')

/-- What is promised of documents that were accepted and gave this configuration. -/
structure IntegersExact (strtod : Strtod) (docs : List ConfigDoc) (cfg : Config) : Prop where
  /-- Each line stores its integer. -/
  lines : ∀ d ∈ docs, ∀ raw ∈ docLines d.text, StoresExactly strtod raw
  /-- In the end a field has the integer of the last line for it. -/
  last : ∀ (k : IntKey) (val : Bytes), lastValue (settings docs) k.key = some val →
    Denotes val (k.field cfg)
  /-- The fields are in the range that the messages give. -/
  range : ∀ k : IntKey, k.least ≤ k.field cfg
  /-- An agent with this configuration runs every loop with a limit of at least one. -/
  limit : ∀ (W : Type) (lib : JsonText) (net : Net W) (confirmer : Option (Confirmer W))
    (tools : List (Tool W)) (w : W) (ops : List (AgentOp W)),
    1 ≤ ((Session.start lib net cfg confirmer tools w).after lib
      ops).agent.cfg.maxToolIterations

/-- The line gives its key a numeral of a number below 2^31, if it is for one of these keys. -/
def LineFits (raw : Bytes) : Prop :=
  ∀ (k : IntKey) (val : Bytes), lineSetting raw = some (k.key, val) →
    ∃ z, Denotes val z ∧ z < 2 ^ 31

section

variable {strtod : Strtod} {docs : List ConfigDoc} {env : EnvLookup}

theorem storesExactly_iff {raw : Bytes} (hright : RightLine strtod raw) :
    StoresExactly strtod raw ↔ LineFits raw := by
  constructor
  · intro h k val hset
    have hpost := @mergeLine_post strtod {} [] [] raw 1
    cases hm : mergeLine strtod [] raw 1 (layered strtod {} []) with
    | error e c => exact absurd hright (hpost.of_error hm).1
    | ok u c => exact ⟨k.field c, h k val hset _ _ _ _ hm, IntKey.parse_lt (mergeLine_int hset hm)⟩
  · intro h k val hset origin lineno cfg cfg' hm
    obtain ⟨z, hz, hlt⟩ := h k val hset
    rw [(IntKey.parse_eq_of_denotes hz hlt (mergeLine_int hset hm)).1]
    exact hz

/-- In the end a field is what its last line denotes. -/
theorem field_of_lastValue {cfg : Config}
    (hright : ∀ d ∈ docs, ∀ raw ∈ docLines d.text, RightLine strtod raw)
    (hfits : ∀ d ∈ docs, ∀ raw ∈ docLines d.text, LineFits raw)
    (hcfg : cfg = mergeEnv env (layered strtod {} (settings docs))) {k : IntKey} {val : Bytes}
    (hval : lastValue (settings docs) k.key = some val) :
    Denotes val (k.field cfg) ∧ k.least ≤ k.field cfg := by
  obtain ⟨d, hd, raw, hraw, hset⟩ := exists_line_of_lastValue hval
  obtain ⟨z, hz, hlt⟩ := hfits d hd raw hraw k val hset
  have hparse : k.parse val = .ok (k.field cfg) := by
    have hlayered := layered_int {} ((hright d hd raw hraw).keyOk hset) hval
    rw [hcfg]
    cases k <;> exact hlayered
  obtain ⟨heq, hleast⟩ := IntKey.parse_eq_of_denotes hz hlt hparse
  rw [heq]
  exact ⟨hz, hleast⟩

/-- A field without a line has its default, which is in the range too. -/
theorem least_le_field {cfg : Config}
    (hright : ∀ d ∈ docs, ∀ raw ∈ docLines d.text, RightLine strtod raw)
    (hfits : ∀ d ∈ docs, ∀ raw ∈ docLines d.text, LineFits raw)
    (hcfg : cfg = mergeEnv env (layered strtod {} (settings docs))) (k : IntKey) :
    k.least ≤ k.field cfg := by
  cases hval : lastValue (settings docs) k.key with
  | some val => exact (field_of_lastValue hright hfits hcfg hval).2
  | none =>
    have hnone := layered_int_none strtod {} hval
    rw [hcfg]
    cases k with
    | contextSize => exact le_of_eq hnone.symm
    | maxToolIterations =>
      have hdefault : (mergeEnv env (layered strtod {} (settings docs))).maxToolIterations =
        50 := hnone
      simp only [IntKey.least, IntKey.field, hdefault]
      decide

/-- **When the integers are exact.**  Documents that are accepted store every integer exactly, in
its range and for every loop after, if and only if each is below 2^31 as it is written. -/
theorem integersExact_iff :
    (∀ cfg, mergeAll strtod docs env {} = .ok ⟨⟩ cfg → IntegersExact strtod docs cfg) ↔
      (∃ d ∈ docs, ∃ raw ∈ docLines d.text, ¬ RightLine strtod raw) ∨
        ∀ d ∈ docs, ∀ raw ∈ docLines d.text, LineFits raw := by
  have hpost := mergeAll_post strtod docs env
  constructor
  · intro h
    cases hm : mergeAll strtod docs env {} with
    | error e c => exact Or.inl (hpost.of_error hm)
    | ok u cfg =>
      obtain ⟨hright, -⟩ := hpost.of_ok hm
      refine Or.inr fun d hd raw hraw => ?_
      exact (storesExactly_iff (hright d hd raw hraw)).mp ((h cfg hm).lines d hd raw hraw)
  · intro h cfg hm
    obtain ⟨hright, hcfg⟩ := hpost.of_ok hm
    have hfits : ∀ d ∈ docs, ∀ raw ∈ docLines d.text, LineFits raw := by
      refine h.resolve_left ?_
      rintro ⟨d, hd, raw, hraw, hbad⟩
      exact hbad (hright d hd raw hraw)
    refine ⟨fun d hd raw hraw => ?_, fun k val hval => ?_,
      least_le_field hright hfits hcfg, ?_⟩
    · exact (storesExactly_iff (hright d hd raw hraw)).mpr (hfits d hd raw hraw)
    · exact (field_of_lastValue hright hfits hcfg hval).1
    · intro W lib net confirmer tools w ops
      rw [Session.after_limit, Session.start_limit]
      exact least_le_field hright hfits hcfg .maxToolIterations

/-- 2^32 passes for a positive integer, and is stored as 0. -/
theorem not_integersExact_wrapped :
    ∃ cfg, mergeAll (fun _ => none) [⟨bytes "max_tool_iterations = 4294967296", []⟩]
        (fun _ => none) {} = .ok ⟨⟩ cfg ∧ cfg.maxToolIterations = 0 ∧
      ¬ IntegersExact (fun _ => none) [⟨bytes "max_tool_iterations = 4294967296", []⟩] cfg := by
  refine ⟨_, rfl, by decide, fun h => ?_⟩
  have hrange := h.range .maxToolIterations
  revert hrange
  decide

end

end SimpleCoder

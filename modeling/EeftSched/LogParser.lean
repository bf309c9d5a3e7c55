/-
  The log parser (`parse_all_logs`, `build_core_time_series` in
  `tools/log_parser.py`).

  * `parses_core_iff`: in a line of `LOG` the patterns read its time, processor
    and core, and nothing else;
  * `fill_iff`: painted up to the next event, a tick has the state of the last
    event that is not after it.
-/
import EeftSched.Lib.FoldMax
import EeftSched.Lib.Regex
import EeftSched.LogRecord
import Mathlib.Data.List.DropRight
import Mathlib.Data.List.Dedup

namespace EeftSched.LogParser

open Regex Lines Log

/-! ## The patterns -/

/-- `\s` -/
def isSpace (c : Char) : Bool := [' ', '\t', newline, '\r', '\x0b', '\x0c'].contains c

def word (s : String) : Item Char := .word s.toList

/-- `(\d+)` -/
def number : Item Char := .many Char.isDigit 1 true

/-- `\s*` or `\s+` -/
def spaces (least : ℕ) : Item Char := .many isSpace least false

/-- `.*` -/
def anything : Item Char := .many (· != newline) 0 false

/-- `^\[(\d+)\].*\[P(\d+):\s*C(\d+)\].*` -/
def coreItems : List (Item Char) :=
  [word "[", number, word "]", anything, word "[P", number, word ":", spaces 0, word "C", number,
    word "]", anything]

/-- `RE_STATUS_IDLE` -/
def reStatusIdle : List (Item Char) := coreItems ++ [word "Status:", spaces 0, word "IDLE"]

/-- `RE_STATUS_RUN` -/
def reStatusRun : List (Item Char) :=
  coreItems ++ [word "Status:", spaces 0, word "RUNNING", spaces 0, word "->", spaces 0, word "Job",
    spaces 1, number]

/-- `RE_LOW_POWER` -/
def reLowPower : List (Item Char) := coreItems ++ [word "low power state"]

/-- `RE_SCALING` -/
def reScaling : List (Item Char) :=
  coreItems ++ [word "DVFS Level:", spaces 0, number, word ",", spaces 0, word "Frequency Scaling:",
    spaces 0, .many (fun c => c.isDigit || c == '.') 1 true]

/-- `RE_MODE_CHANGE` -/
def reModeChange : List (Item Char) := coreItems ++ [word "Mode Change to", spaces 1, number]

/-! ## `parse_all_logs` -/

inductive CoreState where
  | busy
  | idle
  | sleep
deriving DecidableEq, Repr

/-- The states in the order of their names -/
def CoreState.rank : CoreState → ℕ
  | busy => 0
  | idle => 1
  | sleep => 2

/-- An entry of `states` -/
structure StateRecord where
  time : ℕ
  proc : ℕ
  core : ℕ
  state : CoreState
  job : Option ℕ

/-- An entry of `scaling_records`; `scaling` is the text of the number. -/
structure ScalingRecord where
  processor : ℕ
  core : ℕ
  time : ℕ
  dvfs : ℕ
  scaling : List Char

/-- An entry of `mode_changes` -/
structure ModeChange where
  processor : ℕ
  core : ℕ
  time : ℕ
  mode : ℕ

inductive Entry where
  | state (r : StateRecord)
  | scaling (r : ScalingRecord)
  | modeChange (r : ModeChange)

/-- `int()` of digits -/
def intOf (s : List Char) : ℕ := Nat.ofDigitChars 10 s 0

def statusRun (line : List Char) : Option Entry :=
  match matchFrom reStatusRun line with
  | some [t, proc, core, job] => some (.state ⟨intOf t, intOf proc, intOf core, .busy, some (intOf job)⟩)
  | _ => none

def statusIdle (line : List Char) : Option Entry :=
  match matchFrom reStatusIdle line with
  | some [t, proc, core] => some (.state ⟨intOf t, intOf proc, intOf core, .idle, none⟩)
  | _ => none

def lowPower (line : List Char) : Option Entry :=
  match matchFrom reLowPower line with
  | some [t, proc, core] => some (.state ⟨intOf t, intOf proc, intOf core, .sleep, none⟩)
  | _ => none

def scaling (line : List Char) : Option Entry :=
  match matchFrom reScaling line with
  | some [t, proc, core, dvfs, scaling] =>
    some (.scaling ⟨intOf proc, intOf core, intOf t, intOf dvfs, scaling⟩)
  | _ => none

def modeChange (line : List Char) : Option Entry :=
  match matchFrom reModeChange line with
  | some [t, proc, core, mode] => some (.modeChange ⟨intOf proc, intOf core, intOf t, intOf mode⟩)
  | _ => none

/-- The first pattern that matches -/
def parseLine (line : List Char) : Option Entry :=
  (statusRun line).or ((statusIdle line).or ((lowPower line).or ((scaling line).or (modeChange line))))

/-- `strip()` -/
def strip (raw : List Char) : List Char := (raw.dropWhile isSpace).rdropWhile isSpace

def parseRaw (raw : List Char) : Option Entry :=
  let line := strip raw
  if line.isEmpty then none else parseLine line

def Entry.state? : Entry → Option StateRecord
  | state r => some r
  | _ => none

def Entry.scaling? : Entry → Option ScalingRecord
  | scaling r => some r
  | _ => none

def Entry.modeChange? : Entry → Option ModeChange
  | modeChange r => some r
  | _ => none

/-- The order by processor, core and time -/
def ScalingRecord.le (a b : ScalingRecord) : Bool :=
  decide (a.processor < b.processor ∨ a.processor = b.processor ∧
    (a.core < b.core ∨ a.core = b.core ∧ a.time ≤ b.time))

/-- `parse_all_logs`, for the texts of the files -/
def parseAllLogs (files : List (List Char)) :
    List StateRecord × List ScalingRecord × List ModeChange :=
  let entries := (files.flatMap (lines newline)).filterMap parseRaw
  ((entries.filterMap Entry.state?).mergeSort fun a b => decide (a.time ≤ b.time),
    (entries.filterMap Entry.scaling?).mergeSort ScalingRecord.le,
    (entries.filterMap Entry.modeChange?).mergeSort fun a b => decide (a.time ≤ b.time))

/-! ## `build_core_time_series` -/

/-- The columns `busy`, `idle` and `sleep` -/
abbrev Flags := CoreState → ℤ → Bool

/-- `df.loc[t:end_t, column] = 1` -/
def paint (t endT : ℤ) (state : CoreState) (df : Flags) : Flags := fun column x =>
  if column = state ∧ t ≤ x ∧ x ≤ endT then true else df column x

/-- The loop over the events of a core -/
def fill (globalMax : ℤ) : List (ℕ × CoreState) → Flags → Flags
  | [], df => df
  | [(t, state)], df => paint t globalMax state df
  | (t, state) :: (t', state') :: events, df =>
    fill globalMax ((t', state') :: events) (paint t (t' - 1) state df)

/-- The order of pairs of a time and the name of a state -/
def eventLe (a b : ℕ × CoreState) : Bool := decide (a.1 < b.1 ∨ a.1 = b.1 ∧ a.2.rank ≤ b.2.rank)

/-- The entries of `state_map` for a core -/
def coreEvents (states : List StateRecord) (core : ℕ × ℕ) : List (ℕ × CoreState) :=
  (states.filter fun s => (s.proc, s.core) == core).map fun s => (s.time, s.state)

/-- The table of a core, up to its column `scaling` -/
structure CoreSeries where
  globalMin : ℤ
  globalMax : ℤ
  df : Flags

/-- `build_core_time_series` -/
def buildCoreTimeSeries (states : List StateRecord) (scalingRecords : List ScalingRecord) :
    List ((ℕ × ℕ) × CoreSeries) :=
  let cores := (states.map fun s => (s.proc, s.core)) ++ scalingRecords.map fun s => (s.processor, s.core)
  let allTimes := (states.map fun s => (s.time : ℤ)) ++ scalingRecords.map fun s => (s.time : ℤ)
  match allTimes with
  | [] => []
  | t :: times =>
    let globalMax := times.foldl max t
    cores.dedup.map fun core =>
      (core, ⟨times.foldl min t, globalMax,
        fill globalMax ((coreEvents states core).mergeSort eventLe) fun _ _ => false⟩)

/-! ## Lines of a core -/

/-- A line that begins with a time, a processor and a core -/
def coreLine (t p c : ℕ) (rest : List Char) : List Char :=
  ['['] ++ (fmtU t ++ ']' :: ' ' :: (['[', 'P'] ++ (fmtU p ++ ':' :: ([' '] ++ 'C' :: (fmtU c ++ ']' :: rest)))))

section
variable {t p c : ℕ} {rest : List Char} {re : List (Item Char)} {groups : List (List Char)}

theorem isDigit_of_mem_fmtU {k : ℕ} : ∀ x ∈ fmtU k, x.isDigit = true := fun _ hx =>
  Nat.isDigit_of_mem_toDigits (by decide) (by decide) hx

theorem not_infix_append {x : Char} {w a b : List Char} (ha : x ∉ a) (hb : ¬ (x :: w) <:+: b) :
    ¬ (x :: w) <:+: a ++ b := by
  induction a with
  | nil => exact hb
  | cons y a ih =>
    rw [List.mem_cons, not_or] at ha
    rw [List.cons_append, List.infix_cons_iff, not_or]
    refine ⟨fun h => ?_, ih ha.2⟩
    exact ha.1 (List.cons_prefix_cons.1 h).1

/-- The only `[P` of a text that begins with it -/
theorem parses_core_word {q : Char → Bool} {s : List Char} (hq : q ' ' = true) (hs : ¬ ['[', 'P'] <:+: s) :
    Parses (.many q 0 false :: .word ['[', 'P'] :: re) (' ' :: (['[', 'P'] ++ s)) groups ↔
      Parses re s groups := by
  constructor
  · intro h
    obtain ⟨a, s', groups', heq, -, -, hword, rfl⟩ := parses_many_iff.1 h
    obtain ⟨s'', rfl, hre⟩ := parses_word_iff.1 hword
    match a with
    | [] => cases heq
    | [y] =>
      obtain rfl : s = s'' := List.append_cancel_left (List.cons.inj heq).2
      exact hre
    | [y, z] => cases heq
    | y :: z :: v :: a =>
      -- a second one
      refine absurd ⟨a, s'', ?_⟩ hs
      have htail : s = a ++ (['[', 'P'] ++ s'') :=
        (List.cons.inj (List.cons.inj (List.cons.inj heq).2).2).2
      rw [htail, List.append_assoc]
  · intro h
    have hword := (parses_word_append_iff (w := ['[', 'P'])).2 h
    refine Parses.many (a := [' ']) (fun x hx => ?_) (Nat.zero_le _) hword
    rw [List.mem_singleton.1 hx]
    exact hq

theorem parses_char_iff {y : Char} {s : List Char} :
    Parses (.word [y] :: re) (y :: s) groups ↔ Parses re s groups :=
  parses_word_append_iff (w := [y])

/-- A number is read up to the character after it. -/
theorem parses_number_iff {k : ℕ} {y : Char} {s : List Char} (hy : y.isDigit = false) :
    Parses (.many Char.isDigit 1 true :: .word [y] :: re) (fmtU k ++ y :: s) groups ↔
      ∃ groups', Parses re s groups' ∧ groups = fmtU k :: groups' := by
  rw [parses_run_iff isDigit_of_mem_fmtU (length_fmtU k) hy hy]
  simp only [parses_char_iff, if_true]

theorem isSpace_of_mem : ∀ x ∈ [' '], isSpace x = true := by
  intro x hx
  rw [List.mem_singleton.1 hx]
  rfl

theorem parses_space_iff {y : Char} {s : List Char} (hy : isSpace y = false) :
    Parses (.many isSpace 0 false :: .word [y] :: re) ([' '] ++ y :: s) groups ↔ Parses re s groups := by
  rw [parses_run_iff isSpace_of_mem (Nat.zero_le _) hy hy]
  simp only [parses_char_iff, Bool.false_eq_true, if_false, exists_eq_right']

/-- **In a line of a core the patterns read its time, processor and core.** -/
theorem parses_core_iff (hrest : ¬ ['[', 'P'] <:+: rest) :
    Parses (coreItems ++ re) (coreLine t p c rest) groups ↔
      ∃ y z groups', rest = y ++ z ∧ (∀ x ∈ y, (x != newline) = true) ∧ Parses re z groups' ∧
        groups = fmtU t :: fmtU p :: fmtU c :: groups' := by
  have hcore : ¬ ['[', 'P'] <:+: fmtU p ++ ':' :: ([' '] ++ 'C' :: (fmtU c ++ ']' :: rest)) := by
    have hno : ∀ k, '[' ∉ fmtU k := fun k h => by
      have hdigit := isDigit_of_mem_fmtU _ h
      cases hdigit
    have hend : ¬ ['[', 'P'] <:+: fmtU c ++ ([']'] ++ rest) :=
      not_infix_append (hno c) (not_infix_append (by decide) hrest)
    exact not_infix_append (hno p) (not_infix_append (a := [':', ' ', 'C']) (by decide) hend)
  have hitems : coreItems ++ re = .word ['['] :: .many Char.isDigit 1 true :: .word [']'] ::
      .many (· != newline) 0 false :: .word ['[', 'P'] :: .many Char.isDigit 1 true :: .word [':'] ::
      .many isSpace 0 false :: .word ['C'] :: .many Char.isDigit 1 true :: .word [']'] ::
      .many (· != newline) 0 false :: re := rfl
  rw [hitems, coreLine, parses_word_append_iff, parses_number_iff rfl]
  constructor
  · rintro ⟨groups₁, h₁, rfl⟩
    have h₂ := (parses_core_word rfl hcore).1 h₁
    obtain ⟨groups₃, h₃, rfl⟩ := (parses_number_iff rfl).1 h₂
    have h₄ := (parses_space_iff rfl).1 h₃
    obtain ⟨groups₅, h₅, rfl⟩ := (parses_number_iff rfl).1 h₄
    obtain ⟨y, z, groups', heq, hy, -, hre, hgroups⟩ := parses_many_iff.1 h₅
    exact ⟨y, z, groups', heq, hy, hre, by rw [hgroups]; rfl⟩
  · rintro ⟨y, z, groups', rfl, hy, hre, rfl⟩
    have h₅ : Parses (.many (· != newline) 0 false :: re) (y ++ z) groups' := .many hy (Nat.zero_le _) hre
    have h₄ := (parses_number_iff (k := c) (y := ']') rfl).2 ⟨_, h₅, rfl⟩
    have h₃ := (parses_space_iff (y := 'C') rfl).2 h₄
    have h₂ := (parses_number_iff (k := p) (y := ':') rfl).2 ⟨_, h₃, rfl⟩
    exact ⟨_, (parses_core_word rfl hcore).2 h₂, rfl⟩

end

/-! ## Painting -/

/-- The state of the last of the events that are not after `x` -/
def current (events : List (ℕ × CoreState)) (x : ℤ) : Option CoreState :=
  ((events.filter fun e => decide ((e.1 : ℤ) ≤ x)).getLast?).map Prod.snd

section
variable {events : List (ℕ × CoreState)} {t t' : ℕ} {state state' column : CoreState} {x globalMax : ℤ}
  {df : Flags}

theorem current_nil (x : ℤ) : current [] x = none := rfl

theorem current_cons_of_lt (h : x < t) : current ((t, state) :: events) x = current events x := by
  rw [current, List.filter_cons_of_neg]
  · rfl
  · rw [decide_eq_true_iff]
    omega

theorem current_cons_of_le (h : (t : ℤ) ≤ x) :
    current ((t, state) :: events) x = some ((current events x).getD state) := by
  have hcons : (((t, state) :: events).filter fun e => decide ((e.1 : ℤ) ≤ x)) =
      (t, state) :: events.filter fun e => decide ((e.1 : ℤ) ≤ x) :=
    List.filter_cons_of_pos (decide_eq_true h)
  rw [current, hcons, List.getLast?_cons, current]
  cases (events.filter fun e => decide ((e.1 : ℤ) ≤ x)).getLast? with
  | none => rfl
  | some e => rfl

theorem current_eq_none (h : ∀ e ∈ events, x < e.1) : current events x = none := by
  rw [current, List.filter_eq_nil_iff.2]
  · rfl
  · intro e he hle
    have hlt := h e he
    rw [decide_eq_true_iff] at hle
    omega

theorem paint_iff : paint t globalMax state df column x = true ↔
    df column x = true ∨ (t : ℤ) ≤ x ∧ x ≤ globalMax ∧ state = column := by
  unfold paint
  split_ifs with h
  · exact iff_of_true rfl (.inr ⟨h.2.1, h.2.2, h.1.symm⟩)
  · refine ⟨.inl, fun hor => hor.resolve_right ?_⟩
    rintro ⟨h1, h2, rfl⟩
    exact h ⟨rfl, h1, h2⟩

/-- **Painted up to the next event, a tick has the state of the last event that
    is not after it.** -/
theorem fill_iff (hs : events.Pairwise fun a b => a.1 ≤ b.1) (hx : x ≤ globalMax) :
    fill globalMax events df column x = true ↔
      df column x = true ∨ current events x = some column := by
  induction events generalizing df with
  | nil =>
    rw [fill, current_nil]
    exact ⟨.inl, fun h => h.resolve_right nofun⟩
  | cons e events ih =>
    obtain ⟨t, state⟩ := e
    obtain ⟨hfirst, hs⟩ := List.pairwise_cons.1 hs
    cases events with
    | nil =>
      rw [fill, paint_iff]
      refine or_congr_right ?_
      by_cases hle : (t : ℤ) ≤ x
      · rw [current_cons_of_le hle, current_nil]
        simp [hle, hx]
      · rw [current_cons_of_lt (not_le.1 hle), current_nil]
        simp [hle]
    | cons e' events =>
      obtain ⟨t', state'⟩ := e'
      have htt' : t ≤ t' := hfirst _ List.mem_cons_self
      rw [fill, ih hs, paint_iff, or_assoc]
      refine or_congr_right ?_
      by_cases hle' : (t' : ℤ) ≤ x
      · -- the next event is not after `x` either
        have hle : (t : ℤ) ≤ x := by omega
        rw [current_cons_of_le hle, current_cons_of_le hle']
        simp only [Option.getD_some]
        refine ⟨fun h => h.resolve_left fun h => ?_, .inr⟩
        omega
      · have hnone : current ((t', state') :: events) x = none := by
          refine current_eq_none fun e he => ?_
          have hge : t' ≤ e.1 := by
            rcases List.mem_cons.1 he with rfl | he
            · exact le_rfl
            · exact (List.pairwise_cons.1 hs).1 e he
          omega
        rw [hnone]
        by_cases hle : (t : ℤ) ≤ x
        · rw [current_cons_of_le hle, hnone]
          have hbefore : x ≤ (t' : ℤ) - 1 := by omega
          simp [hle, hbefore]
        · rw [current_cons_of_lt (not_le.1 hle), hnone]
          simp [hle]

/-- From the first event on there is a current state. -/
theorem current_isSome {e : ℕ × CoreState} (he : e ∈ events) (hle : (e.1 : ℤ) ≤ x) :
    ∃ state, current events x = some state := by
  induction events with
  | nil => cases he
  | cons e' events ih =>
    obtain ⟨t, state⟩ := e'
    by_cases ht : (t : ℤ) ≤ x
    · exact ⟨_, current_cons_of_le ht⟩
    · rcases List.mem_cons.1 he with rfl | he
      · exact absurd hle ht
      · rw [current_cons_of_lt (not_le.1 ht)]
        exact ih he

/-- It is that of an event, and none is later that is not after `x`. -/
theorem current_mem (h : current events x = some state) (hs : events.Pairwise fun a b => eventLe a b = true) :
    ∃ t : ℕ, (t, state) ∈ events ∧ (t : ℤ) ≤ x ∧
      ∀ e ∈ events, (e.1 : ℤ) ≤ x → eventLe e (t, state) = true := by
  obtain ⟨⟨t, state⟩, hlast, rfl⟩ := Option.map_eq_some_iff.1 h
  have hmem := List.mem_of_getLast? hlast
  obtain ⟨hmem, hle⟩ := List.mem_filter.1 hmem
  refine ⟨t, hmem, of_decide_eq_true hle, fun e he hex => ?_⟩
  have hefilter : e ∈ events.filter fun e => decide ((e.1 : ℤ) ≤ x) :=
    List.mem_filter.2 ⟨he, decide_eq_true hex⟩
  obtain ⟨l, hl⟩ := List.getLast?_eq_some_iff.1 hlast
  have hsorted := hs.filter fun e => decide ((e.1 : ℤ) ≤ x)
  rw [hl] at hsorted hefilter
  rcases List.mem_append.1 hefilter with he | he
  · exact (List.pairwise_append.1 hsorted).2.2 e he _ (List.mem_singleton_self _)
  · rw [List.mem_singleton.1 he]
    simp [eventLe]

end

end EeftSched.LogParser

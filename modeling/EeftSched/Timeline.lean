/-
  The states of the cores as logged by `scheduler_tick` and as read by the log
  parser (`sched_core.c`, `power_management.c`, `tools/log_parser.py`).

  A tick of a core is logged as asleep, idle or running. A core that wakes up
  logs so in the same tick as its next `Status` record, and one that enters a low
  power state for good in a tick in which it is idle. Records are whole here:
  what the buffer of `LOG` cuts off is in `LogRecord`.

  * `statusText_eq`: the `Status` record of a core in a reachable state;
  * `parseRaw_state`, `parseRaw_other`: what the parser reads in the records of a
    core;
  * `Emitted.busy_iff`: a tick in which a core runs is busy in the timeline if
    and only if it does not wake up in it;
  * `timeline_iff`: the timeline agrees with the log if and only if no core wakes
    up and runs in one tick;
  * `wake_up_not_busy`: a core that does.
-/
import EeftSched.LogParser
import EeftSched.Ownership

namespace EeftSched.LogParser

open Regex Lines Log

/-! ## The records of a core -/

/-- A record with its newline -/
def wholeRecord (call : LogCall) : List Char := call.header ++ call.message ++ [newline]

/-- It fits in the buffer. -/
def Whole (call : LogCall) : Prop := call.header.length + call.message.length + 2 ≤ maxLogMsgSize

theorem record_of_whole {call : LogCall} (h : Whole call) : call.record = wholeRecord call :=
  LogCall.record_of_le h

/-- What a tick logs about the state of its core -/
inductive StateMsg where
  | running (job : ℕ)
  | idle
  | inLowPower
  | exiting
  | entering
deriving DecidableEq, Repr

namespace StateMsg

def text : StateMsg → List Char
  | running job => "Status: RUNNING -> Job ".toList ++ fmtU job
  | idle => "Status: IDLE".toList
  | inLowPower => "Core in low power state".toList
  | exiting => "Exiting low power state".toList
  | entering => "No upcoming task arrivals. Entering indefinite low power state...".toList

/-- The format, with the id of the job in place of its conversion -/
def fmt : StateMsg → List FmtPart
  | running job => [.text "Status: RUNNING -> Job ".toList, .arg (fmtU job)]
  | msg => [.text msg.text]

def level : StateMsg → LogLevel
  | running _ | idle | inLowPower => .debug
  | exiting | entering => .info

def fileName : StateMsg → String
  | entering => "power_management.c"
  | _ => "sched_core.c"

def line : StateMsg → ℕ
  | running _ => 553
  | idle => 551
  | inLowPower => 584
  | exiting => 582
  | entering => 91

theorem newline_notMem_fileName (msg : StateMsg) : newline ∉ msg.fileName.toList := by
  cases msg with
  | running job => exact (by decide : newline ∉ "sched_core.c".toList)
  | _ => decide

def call (msg : StateMsg) (time proc core : ℕ) : LogCall where
  level := msg.level
  ctx := ⟨proc, core, true⟩
  systemTime := time
  fileName := msg.fileName
  line := msg.line
  fmt := msg.fmt
  fileName_ok := msg.newline_notMem_fileName

theorem message_call (msg : StateMsg) (time proc core : ℕ) : (msg.call time proc core).message = msg.text := by
  have htext : ∀ s t : List Char, [FmtPart.text s, .arg t].flatMap FmtPart.str = s ++ t := by
    intro s t
    simp only [List.flatMap_cons, List.flatMap_nil, List.append_nil, FmtPart.str]
  cases msg with
  | running job => exact htext _ _
  | _ => exact List.append_nil _

/-- The state that the patterns read in it -/
def state : StateMsg → CoreState
  | running _ => .busy
  | idle => .idle
  | inLowPower | exiting | entering => .sleep

end StateMsg

/-! ## What the parser reads -/

/-- A record after its core -/
def tailText (level : LogLevel) (fileName : String) (line : ℕ) (message : List Char) : List Char :=
  " [".toList ++ level.str.toList ++ "] [".toList ++ fileName.toList ++ ":".toList ++ fmtU line ++
    "] ".toList ++ message

def callTail (call : LogCall) : List Char := tailText call.level call.fileName call.line call.message

section
variable {call : LogCall} {time proc core : ℕ} {rest : List Char} {re : List (Item Char)}

theorem wholeRecord_eq (hctx : call.ctx = ⟨proc, core, true⟩) (ht : call.systemTime = time) :
    wholeRecord call = coreLine time proc core (callTail call ++ [newline]) := by
  have h1 : "[".toList = ['['] := rfl
  have h2 : "] [P".toList = [']', ' ', '[', 'P'] := rfl
  have h3 : ": C".toList = [':', ' ', 'C'] := rfl
  have h4 : "] [".toList = ']' :: " [".toList := rfl
  unfold wholeRecord LogCall.header callTail tailText coreLine
  rw [hctx, ht, if_pos rfl, h1, h2, h3]
  simp only [List.append_assoc, List.cons_append, List.nil_append, h4]

theorem rdropWhile_append_cons {q : Char → Bool} {y : Char} (hy : q y = false) (a s : List Char) :
    (a ++ y :: s).rdropWhile q = a ++ y :: s.rdropWhile q := by
  induction s using List.reverseRecOn with
  | nil =>
    rw [List.rdropWhile_concat_neg _ _ _ (by rw [hy]; exact Bool.false_ne_true), List.rdropWhile_nil]
  | append_singleton s x ih =>
    have hassoc : a ++ y :: (s ++ [x]) = a ++ y :: s ++ [x] := by simp
    rw [hassoc]
    by_cases hx : q x = true
    · rw [List.rdropWhile_concat_pos _ _ _ hx, List.rdropWhile_concat_pos _ _ _ hx, ih]
    · rw [List.rdropWhile_concat_neg _ _ _ hx, List.rdropWhile_concat_neg _ _ _ hx, hassoc]

theorem strip_coreLine (time proc core : ℕ) (rest : List Char) :
    strip (coreLine time proc core rest) = coreLine time proc core (rest.rdropWhile isSpace) := by
  have hfirst : (coreLine time proc core rest).dropWhile isSpace = coreLine time proc core rest := rfl
  have hbracket : isSpace ']' = false := rfl
  have hassoc : ∀ r, coreLine time proc core r = ['['] ++ fmtU time ++ [']', ' ', '[', 'P'] ++ fmtU proc ++
      [':', ' ', 'C'] ++ fmtU core ++ ']' :: r := by
    intro r
    simp [coreLine]
  rw [strip, hfirst, hassoc, rdropWhile_append_cons hbracket, ← hassoc]

theorem parseRaw_wholeRecord (hctx : call.ctx = ⟨proc, core, true⟩) (ht : call.systemTime = time) :
    parseRaw (wholeRecord call) =
      parseLine (coreLine time proc core ((callTail call).rdropWhile isSpace)) := by
  have hnewline : isSpace newline = true := rfl
  rw [parseRaw, wholeRecord_eq hctx ht, strip_coreLine, List.rdropWhile_concat_pos _ _ _ hnewline]
  rfl

theorem intOf_fmtU (k : ℕ) : intOf (fmtU k) = k := Nat.ofDigitChars_toDigits (by decide) (by decide)

/-- A pattern does not match a line without one of its words. -/
theorem matchFrom_core_eq_none {w : List Char} (hrest : ¬ ['[', 'P'] <:+: rest) (hw : .word w ∈ re)
    (hno : ¬ w <:+: rest) : matchFrom (coreItems ++ re) (coreLine time proc core rest) = none := by
  refine matchFrom_eq_none fun groups h => hno ?_
  obtain ⟨y, z, groups', rfl, -, hz, -⟩ := (parses_core_iff hrest).1 h
  exact (hz.infix_of_mem hw).trans (List.suffix_append y z).isInfix

theorem matchFrom_core {groups : List (List Char)} (hrest : ¬ ['[', 'P'] <:+: rest)
    (h : matchFrom (coreItems ++ re) (coreLine time proc core rest) = some groups) :
    ∃ groups', groups = fmtU time :: fmtU proc :: fmtU core :: groups' ∧
      groups'.length = (re.filter Item.isGroup).length := by
  obtain ⟨y, z, groups', -, -, hz, heq⟩ := (parses_core_iff hrest).1 (matchFrom_sound h)
  exact ⟨groups', heq, hz.length_groups⟩

theorem matchFrom_core_isSome (time proc core : ℕ) {y z : List Char} {groups : List (List Char)}
    (hrest : ¬ ['[', 'P'] <:+: rest) (heq : rest = y ++ z) (hy : newline ∉ y) (hz : Parses re z groups) :
    ∃ groups', matchFrom (coreItems ++ re) (coreLine time proc core rest) =
        some (fmtU time :: fmtU proc :: fmtU core :: groups') ∧
      groups'.length = (re.filter Item.isGroup).length := by
  have hline : ∀ x ∈ y, (x != newline) = true := by
    intro x hx
    rw [bne_iff_ne]
    rintro rfl
    exact hy hx
  have hsome : (matchFrom (coreItems ++ re) (coreLine time proc core rest)).isSome :=
    matchFrom_isSome ((parses_core_iff hrest).2 ⟨y, z, groups, heq, hline, hz, rfl⟩)
  obtain ⟨all, hall⟩ := Option.isSome_iff_exists.1 hsome
  obtain ⟨groups', rfl, hlen⟩ := matchFrom_core hrest hall
  exact ⟨groups', hall, hlen⟩

theorem statusRun_eq_none (hrest : ¬ ['[', 'P'] <:+: rest)
    (hno : ¬ "Status:".toList <:+: rest ∨ ¬ "RUNNING".toList <:+: rest) :
    statusRun (coreLine time proc core rest) = none := by
  have hnone : matchFrom reStatusRun (coreLine time proc core rest) = none := by
    rcases hno with hno | hno
    · exact matchFrom_core_eq_none hrest (by simp [word]) hno
    · exact matchFrom_core_eq_none hrest (by simp [word]) hno
  rw [statusRun, hnone]

theorem statusIdle_eq_none (hrest : ¬ ['[', 'P'] <:+: rest) (hno : ¬ "Status:".toList <:+: rest) :
    statusIdle (coreLine time proc core rest) = none := by
  have hnone : matchFrom reStatusIdle (coreLine time proc core rest) = none :=
    matchFrom_core_eq_none hrest (by simp [word]) hno
  rw [statusIdle, hnone]

theorem lowPower_eq_none (hrest : ¬ ['[', 'P'] <:+: rest) (hno : ¬ "low power state".toList <:+: rest) :
    lowPower (coreLine time proc core rest) = none := by
  have hnone : matchFrom reLowPower (coreLine time proc core rest) = none :=
    matchFrom_core_eq_none hrest (by simp [word]) hno
  rw [lowPower, hnone]

/-! ## The records about states -/

theorem parses_running (job : ℕ) :
    Parses [word "Status:", spaces 0, word "RUNNING", spaces 0, word "->", spaces 0, word "Job", spaces 1, number]
      (StateMsg.text (.running job)) [fmtU job] := by
  have hnumber : Parses [number] (fmtU job ++ []) [fmtU job] :=
    .many isDigit_of_mem_fmtU (length_fmtU job) (.nil [])
  have hjob : Parses [word "Job", spaces 1, number] ("Job".toList ++ ([' '] ++ (fmtU job ++ [])))
      [fmtU job] := .word (.many isSpace_of_mem le_rfl hnumber)
  have harrow : Parses [word "->", spaces 0, word "Job", spaces 1, number]
      ("->".toList ++ ([' '] ++ ("Job".toList ++ ([' '] ++ (fmtU job ++ []))))) [fmtU job] :=
    .word (.many isSpace_of_mem (Nat.zero_le _) hjob)
  have hrunning : Parses [word "RUNNING", spaces 0, word "->", spaces 0, word "Job", spaces 1, number]
      ("RUNNING".toList ++ ([' '] ++ ("->".toList ++ ([' '] ++ ("Job".toList ++ ([' '] ++
        (fmtU job ++ []))))))) [fmtU job] := .word (.many isSpace_of_mem (Nat.zero_le _) harrow)
  have htext : StateMsg.text (.running job) = "Status:".toList ++ ([' '] ++ ("RUNNING".toList ++ ([' '] ++
      ("->".toList ++ ([' '] ++ ("Job".toList ++ ([' '] ++ (fmtU job ++ [])))))))) := by
    rw [List.append_nil]
    rfl
  rw [htext]
  exact .word (.many isSpace_of_mem (Nat.zero_le _) hrunning)

theorem parses_idle : Parses [word "Status:", spaces 0, word "IDLE"] StateMsg.idle.text [] := by
  have hidle : Parses [word "IDLE"] ("IDLE".toList ++ []) [] := .word (.nil [])
  have hstatus : Parses [word "Status:", spaces 0, word "IDLE"]
      ("Status:".toList ++ ([' '] ++ ("IDLE".toList ++ []))) [] :=
    .word (.many isSpace_of_mem (Nat.zero_le _) hidle)
  exact hstatus

theorem statusRun_running {y : List Char} {job : ℕ} (hrest : ¬ ['[', 'P'] <:+: rest)
    (heq : rest = y ++ StateMsg.text (.running job)) (hy : newline ∉ y) :
    ∃ j, statusRun (coreLine time proc core rest) = some (.state ⟨time, proc, core, .busy, j⟩) := by
  obtain ⟨groups, hmatch, hlen⟩ :=
    matchFrom_core_isSome time proc core hrest heq hy (parses_running job)
  obtain ⟨j, rfl⟩ := List.length_eq_one_iff.1 hlen
  refine ⟨some (intOf j), ?_⟩
  rw [statusRun, show matchFrom reStatusRun (coreLine time proc core rest) = _ from hmatch]
  simp only [intOf_fmtU]

theorem statusIdle_idle {y : List Char} (hrest : ¬ ['[', 'P'] <:+: rest)
    (heq : rest = y ++ StateMsg.idle.text) (hy : newline ∉ y) :
    statusIdle (coreLine time proc core rest) = some (.state ⟨time, proc, core, .idle, none⟩) := by
  obtain ⟨groups, hmatch, hlen⟩ :=
    matchFrom_core_isSome time proc core hrest heq hy parses_idle
  obtain rfl := List.length_eq_zero_iff.1 hlen
  rw [statusIdle, show matchFrom reStatusIdle (coreLine time proc core rest) = _ from hmatch]
  simp only [intOf_fmtU]

theorem lowPower_state {y z : List Char} (hrest : ¬ ['[', 'P'] <:+: rest)
    (heq : rest = y ++ ("low power state".toList ++ z)) (hy : newline ∉ y) :
    lowPower (coreLine time proc core rest) = some (.state ⟨time, proc, core, .sleep, none⟩) := by
  have hparse : Parses [word "low power state"] ("low power state".toList ++ z) [] := .word (.nil z)
  obtain ⟨groups, hmatch, hlen⟩ :=
    matchFrom_core_isSome time proc core hrest heq hy hparse
  obtain rfl := List.length_eq_zero_iff.1 hlen
  rw [lowPower, show matchFrom reLowPower (coreLine time proc core rest) = _ from hmatch]
  simp only [intOf_fmtU]

theorem isSpace_of_isDigit {x : Char} (h : x.isDigit = true) : isSpace x = false := by
  by_contra hspace
  simp only [isSpace, Bool.not_eq_false, List.contains_iff_mem, List.mem_cons, List.not_mem_nil,
    or_false] at hspace
  rcases hspace with rfl | rfl | rfl | rfl | rfl | rfl <;> cases h

theorem not_infix_of_notMem {x : Char} {w : List Char} (hw : x ∈ w) (hx : x ∉ rest) : ¬ w <:+: rest :=
  fun h => hx (h.subset hw)

/-- A record that ends in a number keeps its end. -/
theorem rdropWhile_append_fmtU (y : List Char) (k : ℕ) :
    (y ++ fmtU k).rdropWhile isSpace = y ++ fmtU k := by
  refine List.rdropWhile_eq_self_iff.2 fun hne hspace => ?_
  have hfmt : fmtU k ≠ [] := List.ne_nil_of_length_pos (length_fmtU k)
  rw [List.getLast_append_of_ne_nil _ hfmt,
    isSpace_of_isDigit (isDigit_of_mem_fmtU _ (List.getLast_mem hfmt))] at hspace
  cases hspace

theorem parseLine_running (time proc core job : ℕ) :
    ∃ j, parseLine (coreLine time proc core
        ((tailText .debug "sched_core.c" 553 (StateMsg.text (.running job))).rdropWhile isSpace)) =
      some (.state ⟨time, proc, core, .busy, j⟩) := by
  let y := " [DEBUG] [sched_core.c:553] ".toList
  have htail : tailText .debug "sched_core.c" 553 (StateMsg.text (.running job)) =
      y ++ "Status: RUNNING -> Job ".toList ++ fmtU job := by
    have hhead : tailText .debug "sched_core.c" 553 [] = y := by decide
    rw [← hhead, tailText, tailText, List.append_nil, List.append_assoc]
    rfl
  have hP : ∀ k, 'P' ∉ fmtU k := fun k h => by
    have hdigit := isDigit_of_mem_fmtU _ h
    cases hdigit
  have hrest : ¬ ['[', 'P'] <:+: y ++ "Status: RUNNING -> Job ".toList ++ fmtU job := by
    refine not_infix_of_notMem (x := 'P') (by decide) ?_
    rw [List.mem_append, not_or]
    exact ⟨by decide, hP job⟩
  have hrun : ∃ j, statusRun (coreLine time proc core
      (y ++ "Status: RUNNING -> Job ".toList ++ fmtU job)) = some (.state ⟨time, proc, core, .busy, j⟩) :=
    statusRun_running hrest (List.append_assoc ..) (by decide : newline ∉ y)
  obtain ⟨j, hj⟩ := hrun
  refine ⟨j, ?_⟩
  rw [htail, rdropWhile_append_fmtU, parseLine, hj, Option.some_or]

theorem parseLine_idle (time proc core : ℕ) :
    parseLine (coreLine time proc core
        ((tailText .debug "sched_core.c" 551 StateMsg.idle.text).rdropWhile isSpace)) =
      some (.state ⟨time, proc, core, .idle, none⟩) := by
  have htail : (tailText .debug "sched_core.c" 551 StateMsg.idle.text).rdropWhile isSpace =
      " [DEBUG] [sched_core.c:551] ".toList ++ StateMsg.idle.text := by decide
  have hrest : ¬ ['[', 'P'] <:+: " [DEBUG] [sched_core.c:551] ".toList ++ StateMsg.idle.text :=
    not_infix_of_notMem (x := 'P') (by decide) (by decide)
  have hrun : ¬ "RUNNING".toList <:+: " [DEBUG] [sched_core.c:551] ".toList ++ StateMsg.idle.text :=
    not_infix_of_notMem (x := 'R') (by decide) (by decide)
  rw [htail, parseLine, statusRun_eq_none hrest (.inr hrun), Option.none_or,
    statusIdle_idle hrest rfl (by decide), Option.some_or]

theorem parseLine_lowPower {y z : List Char} (hrest : ¬ ['[', 'P'] <:+: rest)
    (hno : ¬ "Status:".toList <:+: rest) (heq : rest = y ++ ("low power state".toList ++ z))
    (hy : newline ∉ y) :
    parseLine (coreLine time proc core rest) = some (.state ⟨time, proc, core, .sleep, none⟩) := by
  rw [parseLine, statusRun_eq_none hrest (.inl hno), statusIdle_eq_none hrest hno,
    lowPower_state hrest heq hy]
  rfl

/-- **The parser reads the state of a core in a record about it**: any message
    about low power states is read as sleep. -/
theorem parseRaw_state (msg : StateMsg) (time proc core : ℕ) :
    ∃ job, parseRaw (wholeRecord (msg.call time proc core)) =
      some (.state ⟨time, proc, core, msg.state, job⟩) := by
  have hraw : parseRaw (wholeRecord (msg.call time proc core)) = parseLine (coreLine time proc core
      ((tailText msg.level msg.fileName msg.line msg.text).rdropWhile isSpace)) := by
    rw [← msg.message_call time proc core]
    exact parseRaw_wholeRecord rfl rfl
  rw [hraw]
  cases msg with
  | running job => exact parseLine_running time proc core job
  | idle => exact ⟨none, parseLine_idle time proc core⟩
  | inLowPower =>
    have htail : (tailText .debug "sched_core.c" 584 StateMsg.inLowPower.text).rdropWhile isSpace =
        " [DEBUG] [sched_core.c:584] Core in ".toList ++ ("low power state".toList ++ []) := by decide
    refine ⟨none, parseLine_lowPower ?_ ?_ htail (by decide)⟩
    · exact not_infix_of_notMem (x := 'P') (by decide) (by decide)
    · exact not_infix_of_notMem (x := 'S') (by decide) (by decide)
  | exiting =>
    have htail : (tailText .info "sched_core.c" 582 StateMsg.exiting.text).rdropWhile isSpace =
        " [INFO] [sched_core.c:582] Exiting ".toList ++ ("low power state".toList ++ []) := by decide
    refine ⟨none, parseLine_lowPower ?_ ?_ htail (by decide)⟩
    · exact not_infix_of_notMem (x := 'P') (by decide) (by decide)
    · exact not_infix_of_notMem (x := 'S') (by decide) (by decide)
  | entering =>
    have htail : (tailText .info "power_management.c" 91 StateMsg.entering.text).rdropWhile isSpace =
        (" [INFO] [power_management.c:91] ".toList ++
          "No upcoming task arrivals. Entering indefinite ".toList) ++
            ("low power state".toList ++ "...".toList) := by decide
    refine ⟨none, parseLine_lowPower ?_ ?_ htail (by decide)⟩
    · exact not_infix_of_notMem (x := 'P') (by decide) (by decide)
    · exact not_infix_of_notMem (x := 'S') (by decide) (by decide)

/-! ## The other records -/

/-- A record of a core about something else than its state -/
structure Other (time proc core : ℕ) (call : LogCall) : Prop where
  ctx : call.ctx = ⟨proc, core, true⟩
  time : call.systemTime = time
  message : newline ∉ call.message
  status : ¬ "Status:".toList <:+: callTail call
  lowPower : ¬ "low power state".toList <:+: callTail call
  core : ¬ ['[', 'P'] <:+: callTail call

theorem scaling_eq_some {entry : Entry} (hrest : ¬ ['[', 'P'] <:+: rest)
    (h : scaling (coreLine time proc core rest) = some entry) :
    ∃ r, entry = .scaling r ∧ r.time = time ∧ r.processor = proc ∧ r.core = core := by
  unfold scaling at h
  split at h
  · rename_i t p c dvfs text hmatch
    obtain ⟨groups', heq, -⟩ := matchFrom_core hrest hmatch
    simp only [List.cons.injEq] at heq
    obtain ⟨rfl, rfl, rfl, -⟩ := heq
    obtain rfl := Option.some.inj h
    exact ⟨_, rfl, intOf_fmtU time, intOf_fmtU proc, intOf_fmtU core⟩
  · cases h

theorem modeChange_eq_some {line : List Char} {entry : Entry} (h : modeChange line = some entry) :
    ∃ r, entry = .modeChange r := by
  unfold modeChange at h
  split at h
  · exact ⟨_, (Option.some.inj h).symm⟩
  · cases h

/-- **The parser reads no state in a record about something else.** -/
theorem parseRaw_other {entry : Entry} (hc : Other time proc core call)
    (h : parseRaw (wholeRecord call) = some entry) :
    (∃ r, entry = .scaling r ∧ r.time = time ∧ r.processor = proc ∧ r.core = core) ∨
      ∃ r, entry = .modeChange r := by
  have hpart := List.rdropWhile_prefix isSpace (l := callTail call)
  have hpartOf : ∀ {w : List Char}, ¬ w <:+: callTail call →
      ¬ w <:+: (callTail call).rdropWhile isSpace := fun hno hw => hno (hw.trans hpart.isInfix)
  have hrest := hpartOf hc.core
  rw [parseRaw_wholeRecord hc.ctx hc.time, parseLine, statusRun_eq_none hrest (.inl (hpartOf hc.status)),
    statusIdle_eq_none hrest (hpartOf hc.status), lowPower_eq_none hrest (hpartOf hc.lowPower),
    Option.none_or, Option.none_or, Option.none_or, Option.or_eq_some_iff] at h
  rcases h with h | ⟨-, h⟩
  · exact .inl (scaling_eq_some hrest h)
  · exact .inr (modeChange_eq_some h)

/-- No pattern matches a line without a processor. -/
theorem matchFrom_eq_none_of_system {line : List Char} (h : ¬ ['[', 'P'] <:+: line) :
    matchFrom (coreItems ++ re) line = none := by
  refine matchFrom_eq_none fun groups hparse => h (hparse.infix_of_mem ?_)
  exact List.mem_append_left _ (by simp [coreItems, word])

theorem parseRaw_eq_none {raw : List Char} (h : ¬ ['[', 'P'] <:+: raw) : parseRaw raw = none := by
  have hstrip : strip raw <:+: raw := by
    have hpart := List.rdropWhile_prefix isSpace (l := raw.dropWhile isSpace)
    exact hpart.isInfix.trans (List.dropWhile_suffix isSpace).isInfix
  have hnone : ∀ {re : List (Item Char)}, matchFrom (coreItems ++ re) (strip raw) = none :=
    matchFrom_eq_none_of_system fun hw => h (hw.trans hstrip)
  have hline : parseLine (strip raw) = none := by
    unfold parseLine statusRun statusIdle lowPower scaling modeChange
    rw [reStatusRun, reStatusIdle, reLowPower, reScaling, reModeChange, hnone, hnone, hnone, hnone, hnone]
    rfl
  rw [parseRaw, hline]
  split_ifs <;> rfl

end

/-! ## The log of a run -/

/-- The first record of `log_core_state`; `id` is the id of the task of a job. -/
def statusText {n : ℕ} (cs : Core n) (id : JobId n → ℕ) : List Char :=
  if cs.isIdle then "Status: IDLE".toList
  else
    "Status: RUNNING -> Job ".toList ++
      match cs.runningJob with
      | some j => fmtU (id j)
      | none => "-1".toList

/-- In a reachable state a core that is not idle has a job to print. -/
theorem statusText_eq {n : ℕ} {cfg : Config} {S : Sys n} (h : Reachable cfg S) (c : Fin n)
    (hp : (S.core c).pc.hand = none) (id : JobId n → ℕ) :
    statusText (S.core c) id = StateMsg.text
      (((S.core c).runningJob.map fun j => StateMsg.running (id j)).getD .idle) := by
  have hidle : (S.core c).isIdle = (S.core c).runningJob.isNone := (h.inv.ok c).isIdle_eq hp
  rw [statusText, hidle]
  cases (S.core c).runningJob with
  | none => rfl
  | some j => rfl

/-- What a tick logs about the state of its core -/
inductive TickKind where
  | asleep
  | idle (exiting entering : Bool)
  | running (exiting : Bool) (job : ℕ)
deriving DecidableEq, Repr

namespace TickKind

def msgs : TickKind → List StateMsg
  | asleep => [.inLowPower]
  | idle exiting entering =>
    (if exiting then [.exiting] else []) ++ (if entering then [.entering] else []) ++ [.idle]
  | running exiting job => (if exiting then [.exiting] else []) ++ [.running job]

/-- The `Status` record of the tick is `RUNNING`. -/
def Runs : TickKind → Prop
  | running _ _ => True
  | _ => False

/-- The core also wakes up in the tick. -/
def WakesRunning : TickKind → Prop
  | running exiting _ => exiting = true
  | _ => False

end TickKind

/-- The records of a core in a tick -/
structure TickLog where
  time : ℕ
  proc : ℕ
  core : ℕ
  kind : TickKind
  others : List LogCall
  others_ok : ∀ call ∈ others, Other time proc core call

def TickLog.calls (e : TickLog) : List LogCall :=
  (e.kind.msgs.map fun msg => msg.call e.time e.proc e.core) ++ e.others

/-- A record of another thread -/
structure System (call : LogCall) : Prop where
  message : newline ∉ call.message
  core : ¬ ['[', 'P'] <:+: wholeRecord call

def allCalls (ticks : List TickLog) (system : List LogCall) : List LogCall :=
  ticks.flatMap TickLog.calls ++ system

/-- The log files, as lists of records: those of the ticks in any order, and
    those of other threads. -/
structure Emitted (ticks : List TickLog) (system : List LogCall) (files : List (List (List Char))) :
    Prop where
  nodup : (ticks.map fun e => (e.time, e.proc, e.core)).Nodup
  system_ok : ∀ call ∈ system, System call
  records : files.flatten.Perm ((allCalls ticks system).map LogCall.record)

/-- The table of a core -/
def seriesOf (files : List (List (List Char))) (core : ℕ × ℕ) : Option CoreSeries :=
  let logs := parseAllLogs (files.map List.flatten)
  ((buildCoreTimeSeries logs.1 logs.2.1).find? (·.1 == core)).map Prod.snd

/-! ## What the parser makes of it -/

section
variable {ticks : List TickLog} {system : List LogCall} {files : List (List (List Char))} {e : TickLog}

theorem isLine_wholeRecord {call : LogCall} (h : newline ∉ call.message) :
    IsLine newline (wholeRecord call) := by
  refine ⟨call.header ++ call.message, ?_, rfl⟩
  rw [List.mem_append, not_or]
  exact ⟨newline_notMem_header call, h⟩

theorem newline_notMem_text (msg : StateMsg) : newline ∉ msg.text := by
  cases msg with
  | running job =>
    have hhead : newline ∉ "Status: RUNNING -> Job ".toList := by decide
    have htail : newline ∉ fmtU job := newline_notMem_fmtU job
    exact fun h => (List.mem_append.1 h).elim hhead htail
  | _ => decide

theorem TickLog.newline_notMem {call : LogCall} (hcall : call ∈ e.calls) : newline ∉ call.message := by
  rcases List.mem_append.1 hcall with hcall | hcall
  · obtain ⟨msg, -, rfl⟩ := List.mem_map.1 hcall
    rw [msg.message_call]
    exact newline_notMem_text msg
  · exact (e.others_ok call hcall).message

theorem Emitted.newline_notMem (h : Emitted ticks system files) {call : LogCall}
    (hcall : call ∈ allCalls ticks system) : newline ∉ call.message := by
  rcases List.mem_append.1 hcall with hcall | hcall
  · obtain ⟨e, -, hcall⟩ := List.mem_flatMap.1 hcall
    exact e.newline_notMem hcall
  · exact (h.system_ok call hcall).message

theorem Emitted.perm (h : Emitted ticks system files) (hw : ∀ call ∈ allCalls ticks system, Whole call) :
    files.flatten.Perm ((allCalls ticks system).map wholeRecord) := by
  have hmap : (allCalls ticks system).map LogCall.record = (allCalls ticks system).map wholeRecord :=
    List.map_congr_left fun call hcall => record_of_whole (hw call hcall)
  rw [← hmap]
  exact h.records

/-- The lines of the files are the records. -/
theorem Emitted.lines_eq (h : Emitted ticks system files)
    (hw : ∀ call ∈ allCalls ticks system, Whole call) :
    (files.map List.flatten).flatMap (lines newline) = files.flatten := by
  have hline : ∀ file ∈ files, lines newline file.flatten = file := by
    intro file hfile
    refine lines_flatten fun r hr => ?_
    have hmem : r ∈ files.flatten := List.mem_flatten.2 ⟨file, hfile, hr⟩
    obtain ⟨call, hcall, rfl⟩ := List.mem_map.1 ((h.perm hw).mem_iff.1 hmem)
    exact isLine_wholeRecord (h.newline_notMem hcall)
  rw [List.flatMap_map, List.flatMap_def, List.map_congr_left hline, List.map_id']

theorem Emitted.mem_entries (h : Emitted ticks system files)
    (hw : ∀ call ∈ allCalls ticks system, Whole call) {entry : Entry} :
    entry ∈ files.flatten.filterMap parseRaw ↔
      ∃ e ∈ ticks, ∃ call ∈ e.calls, parseRaw (wholeRecord call) = some entry := by
  rw [List.mem_filterMap]
  constructor
  · rintro ⟨r, hr, hparse⟩
    obtain ⟨call, hcall, rfl⟩ := List.mem_map.1 ((h.perm hw).mem_iff.1 hr)
    rcases List.mem_append.1 hcall with hcall | hcall
    · obtain ⟨e, he, hcall⟩ := List.mem_flatMap.1 hcall
      exact ⟨e, he, call, hcall, hparse⟩
    · rw [parseRaw_eq_none (h.system_ok call hcall).core] at hparse
      cases hparse
  · rintro ⟨e, he, call, hcall, hparse⟩
    have hmem : call ∈ allCalls ticks system := List.mem_append_left _ (List.mem_flatMap.2 ⟨e, he, hcall⟩)
    exact ⟨_, (h.perm hw).mem_iff.2 (List.mem_map.2 ⟨call, hmem, rfl⟩), hparse⟩

theorem Entry.state?_eq_some {entry : Entry} {r : StateRecord} : entry.state? = some r ↔ entry = .state r := by
  cases entry <;> simp [Entry.state?]

/-- The states that are read are those of the messages. -/
theorem Emitted.state_of_mem (h : Emitted ticks system files)
    (hw : ∀ call ∈ allCalls ticks system, Whole call) {r : StateRecord}
    (hr : r ∈ (parseAllLogs (files.map List.flatten)).1) :
    ∃ e ∈ ticks, ∃ msg ∈ e.kind.msgs,
      r.time = e.time ∧ r.proc = e.proc ∧ r.core = e.core ∧ r.state = msg.state := by
  rw [parseAllLogs, h.lines_eq hw] at hr
  obtain ⟨entry, hentry, hstate⟩ := List.mem_filterMap.1 (List.mem_mergeSort.1 hr)
  obtain ⟨e, he, call, hcall, hparse⟩ := (h.mem_entries hw).1 hentry
  rw [Entry.state?_eq_some.1 hstate] at hparse
  refine ⟨e, he, ?_⟩
  rcases List.mem_append.1 hcall with hcall | hcall
  · obtain ⟨msg, hmsg, rfl⟩ := List.mem_map.1 hcall
    obtain ⟨job, hjob⟩ := parseRaw_state msg e.time e.proc e.core
    rw [hjob] at hparse
    obtain rfl := Entry.state.inj (Option.some.inj hparse)
    exact ⟨msg, hmsg, rfl, rfl, rfl, rfl⟩
  · rcases parseRaw_other (e.others_ok call hcall) hparse with ⟨r, hr, -⟩ | ⟨r, hr⟩
    · cases hr
    · cases hr

theorem Emitted.exists_state (h : Emitted ticks system files)
    (hw : ∀ call ∈ allCalls ticks system, Whole call) (he : e ∈ ticks) {msg : StateMsg}
    (hmsg : msg ∈ e.kind.msgs) :
    ∃ r ∈ (parseAllLogs (files.map List.flatten)).1,
      r.time = e.time ∧ r.proc = e.proc ∧ r.core = e.core ∧ r.state = msg.state := by
  obtain ⟨job, hjob⟩ := parseRaw_state msg e.time e.proc e.core
  refine ⟨⟨e.time, e.proc, e.core, msg.state, job⟩, ?_, rfl, rfl, rfl, rfl⟩
  have hcall : msg.call e.time e.proc e.core ∈ e.calls :=
    List.mem_append_left _ (List.mem_map.2 ⟨msg, hmsg, rfl⟩)
  rw [parseAllLogs, h.lines_eq hw]
  refine List.mem_mergeSort.2
    (List.mem_filterMap.2 ⟨_, (h.mem_entries hw).2 ⟨e, he, _, hcall, hjob⟩, ?_⟩)
  exact Entry.state?_eq_some.2 rfl

end

/-! ## The timeline of a core -/

section
variable {states : List StateRecord} {core : ℕ × ℕ}

theorem find?_map_fst {β : Type} (g : ℕ × ℕ → β) {cores : List (ℕ × ℕ)} (h : core ∈ cores) :
    (cores.map fun c => (c, g c)).find? (·.1 == core) = some (core, g core) := by
  induction cores with
  | nil => cases h
  | cons c cores ih =>
    rw [List.map_cons]
    by_cases hc : c = core
    · rw [List.find?_cons_of_pos (by simpa using hc), hc]
    · rw [List.find?_cons_of_neg (by simpa using hc)]
      exact ih ((List.mem_cons.1 h).resolve_left (Ne.symm hc))

/-- The table of a core with a state -/
theorem buildCoreTimeSeries_spec (scalingRecords : List ScalingRecord) {r : StateRecord} (hr : r ∈ states) :
    ∃ series : CoreSeries,
      (buildCoreTimeSeries states scalingRecords).find? (·.1 == (r.proc, r.core)) =
        some ((r.proc, r.core), series) ∧
      (∀ s ∈ states, series.globalMin ≤ s.time ∧ s.time ≤ series.globalMax) ∧
      series.df = fill series.globalMax ((coreEvents states (r.proc, r.core)).mergeSort eventLe)
        fun _ _ => false := by
  unfold buildCoreTimeSeries
  have hmem : ∀ s ∈ states, (s.time : ℤ) ∈ (states.map fun s => (s.time : ℤ)) ++
      scalingRecords.map fun s => (s.time : ℤ) := fun s hs =>
    List.mem_append_left _ (List.mem_map.2 ⟨s, hs, rfl⟩)
  generalize (states.map fun s => (s.time : ℤ)) ++ scalingRecords.map (fun s => (s.time : ℤ)) = times at hmem ⊢
  cases times with
  | nil => cases hmem r hr
  | cons t times =>
    have hcore : (r.proc, r.core) ∈ ((states.map fun s => (s.proc, s.core)) ++
        scalingRecords.map fun s => (s.processor, s.core)).dedup :=
      List.mem_dedup.2 (List.mem_append_left _ (List.mem_map.2 ⟨r, hr, rfl⟩))
    refine ⟨_, find?_map_fst _ hcore, fun s hs => ?_, rfl⟩
    exact ⟨FoldMax.foldl_min_le t times (hmem s hs), FoldMax.le_foldl_max t times (hmem s hs)⟩

theorem eventLe_iff {a b : ℕ × CoreState} :
    eventLe a b = true ↔ a.1 < b.1 ∨ a.1 = b.1 ∧ a.2.rank ≤ b.2.rank := decide_eq_true_iff

theorem pairwise_eventLe (events : List (ℕ × CoreState)) :
    (events.mergeSort eventLe).Pairwise fun a b => eventLe a b = true := by
  refine List.pairwise_mergeSort (fun a b c hab hbc => ?_) (fun a b => ?_) events
  · rw [eventLe_iff] at hab hbc ⊢
    omega
  · rw [Bool.or_eq_true, eventLe_iff, eventLe_iff]
    omega

theorem mem_coreEvents {t : ℕ} {state : CoreState} :
    (t, state) ∈ coreEvents states core ↔
      ∃ r ∈ states, r.time = t ∧ r.proc = core.1 ∧ r.core = core.2 ∧ r.state = state := by
  simp only [coreEvents, List.mem_map, List.mem_filter, beq_iff_eq, Prod.ext_iff]
  constructor
  · rintro ⟨r, ⟨hr, hproc, hcore⟩, htime, hstate⟩
    exact ⟨r, hr, htime, hproc, hcore, hstate⟩
  · rintro ⟨r, hr, htime, hproc, hcore, hstate⟩
    exact ⟨r, ⟨hr, hproc, hcore⟩, htime, hstate⟩

end

section
variable {ticks : List TickLog} {system : List LogCall} {files : List (List (List Char))} {e : TickLog}

/-- The events of a core at a tick are the messages of the tick. -/
theorem Emitted.mem_coreEvents (h : Emitted ticks system files)
    (hw : ∀ call ∈ allCalls ticks system, Whole call) (he : e ∈ ticks) {state : CoreState} :
    (e.time, state) ∈ coreEvents (parseAllLogs (files.map List.flatten)).1 (e.proc, e.core) ↔
      ∃ msg ∈ e.kind.msgs, msg.state = state := by
  rw [LogParser.mem_coreEvents]
  constructor
  · rintro ⟨r, hr, htime, hproc, hcore, hstate⟩
    obtain ⟨e', he', msg, hmsg, htime', hproc', hcore', hstate'⟩ := h.state_of_mem hw hr
    have hkey : (e'.time, e'.proc, e'.core) = (e.time, e.proc, e.core) := by
      rw [← htime', ← hproc', ← hcore', htime, hproc, hcore]
    obtain rfl := List.inj_on_of_nodup_map h.nodup he' he hkey
    exact ⟨msg, hmsg, hstate'.symm.trans hstate⟩
  · rintro ⟨msg, hmsg, rfl⟩
    exact h.exists_state hw he hmsg

theorem TickKind.exists_msg (kind : TickKind) : ∃ msg, msg ∈ kind.msgs := by
  cases kind with
  | asleep => exact ⟨_, List.mem_singleton_self _⟩
  | idle exiting entering => exact ⟨_, List.mem_append_right _ (List.mem_singleton_self _)⟩
  | running exiting job => exact ⟨_, List.mem_append_right _ (List.mem_singleton_self _)⟩

theorem TickKind.running_mem {kind : TickKind} (h : kind.Runs) :
    ∃ msg ∈ kind.msgs, msg.state = .busy := by
  cases kind with
  | running exiting job => exact ⟨.running job, List.mem_append_right _ (List.mem_singleton_self _), rfl⟩
  | _ => cases h

/-- A running core that wakes up also logs a message that is read as sleep. -/
theorem TickKind.wakes_iff {kind : TickKind} (h : kind.Runs) :
    kind.WakesRunning ↔ ∃ msg ∈ kind.msgs, msg.state ≠ .busy := by
  cases kind with
  | running exiting job =>
    cases exiting with
    | true => exact iff_of_true rfl ⟨.exiting, List.mem_cons_self, nofun⟩
    | false =>
      refine iff_of_false Bool.false_ne_true ?_
      rintro ⟨msg, hmsg, hstate⟩
      rw [List.mem_singleton.1 hmsg] at hstate
      exact hstate rfl
  | _ => cases h

/-- The table of a core that logs a tick -/
theorem Emitted.seriesOf_spec (h : Emitted ticks system files)
    (hw : ∀ call ∈ allCalls ticks system, Whole call) (he : e ∈ ticks) :
    ∃ (series : CoreSeries) (events : List (ℕ × CoreState)),
      seriesOf files (e.proc, e.core) = some series ∧
      (series.globalMin ≤ e.time ∧ (e.time : ℤ) ≤ series.globalMax) ∧
      events.Pairwise (fun a b => eventLe a b = true) ∧
      (∀ state, (e.time, state) ∈ events ↔ ∃ msg ∈ e.kind.msgs, msg.state = state) ∧
      ∀ column x, x ≤ series.globalMax →
        (series.df column x = true ↔ current events x = some column) := by
  obtain ⟨msg, hmsg⟩ := e.kind.exists_msg
  obtain ⟨r, hr, htime, hproc, hcore, -⟩ := h.exists_state hw he hmsg
  obtain ⟨series, hfind, hbounds, hdf⟩ :=
    buildCoreTimeSeries_spec (parseAllLogs (files.map List.flatten)).2.1 hr
  rw [hproc, hcore] at hfind hdf
  have hsorted := pairwise_eventLe (coreEvents (parseAllLogs (files.map List.flatten)).1 (e.proc, e.core))
  refine ⟨series, _, ?_, ?_, hsorted, fun state => ?_, fun column x hx => ?_⟩
  · rw [seriesOf]
    simp only [hfind, Option.map_some]
  · rw [← htime]
    exact hbounds r hr
  · rw [List.mem_mergeSort, h.mem_coreEvents hw he]
  · have htimes : ((coreEvents (parseAllLogs (files.map List.flatten)).1 (e.proc, e.core)).mergeSort
        eventLe).Pairwise fun a b => a.1 ≤ b.1 :=
      hsorted.imp fun hle => (eventLe_iff.1 hle).elim le_of_lt fun heq => heq.1.le
    rw [hdf, fill_iff htimes hx]
    exact or_iff_right Bool.false_ne_true

/-- From a tick of the core on there is one state. -/
theorem Emitted.existsUnique_column (h : Emitted ticks system files)
    (hw : ∀ call ∈ allCalls ticks system, Whole call) (he : e ∈ ticks) :
    ∃ series, seriesOf files (e.proc, e.core) = some series ∧
      series.globalMin ≤ e.time ∧ (e.time : ℤ) ≤ series.globalMax ∧
      ∀ x : ℤ, (e.time : ℤ) ≤ x → x ≤ series.globalMax → ∃! column, series.df column x = true := by
  obtain ⟨series, events, hseries, hbounds, -, hevents, hdf⟩ := h.seriesOf_spec hw he
  obtain ⟨msg, hmsg⟩ := e.kind.exists_msg
  refine ⟨series, hseries, hbounds.1, hbounds.2, fun x hex hx => ?_⟩
  obtain ⟨state, hstate⟩ := current_isSome ((hevents msg.state).2 ⟨msg, hmsg, rfl⟩) hex
  refine ⟨state, (hdf state x hx).2 hstate, fun column hcolumn => ?_⟩
  have hcurrent := (hdf column x hx).1 hcolumn
  rw [hstate] at hcurrent
  exact (Option.some.inj hcurrent).symm

/-- **A tick in which the core runs is busy if and only if the core does not wake
    up in it**: of the events of a tick the last by name counts. -/
theorem Emitted.busy_iff (h : Emitted ticks system files)
    (hw : ∀ call ∈ allCalls ticks system, Whole call) (he : e ∈ ticks) (hruns : e.kind.Runs) :
    (∃ series, seriesOf files (e.proc, e.core) = some series ∧ series.df .busy e.time = true) ↔
      ¬ e.kind.WakesRunning := by
  obtain ⟨series, events, hseries, hbounds, hsorted, hevents, hdf⟩ := h.seriesOf_spec hw he
  have hbusy : (e.time, .busy) ∈ events := (hevents .busy).2 (e.kind.running_mem hruns)
  rw [TickKind.wakes_iff hruns]
  constructor
  · rintro ⟨series', hseries', hflag⟩ ⟨msg, hmsg, hstate⟩
    obtain rfl := Option.some.inj (hseries.symm.trans hseries')
    obtain ⟨t, -, hle, hlast⟩ := current_mem ((hdf .busy e.time hbounds.2).1 hflag) hsorted
    have hother := eventLe_iff.1 (hlast _ ((hevents msg.state).2 ⟨msg, hmsg, rfl⟩) le_rfl)
    have hrank : msg.state.rank ≠ 0 := by
      cases hmsgState : msg.state with
      | busy => exact absurd hmsgState hstate
      | idle => exact one_ne_zero
      | sleep => exact two_ne_zero
    have hzero : CoreState.busy.rank = 0 := rfl
    simp only at hother
    omega
  · intro hall
    obtain ⟨state, hstate⟩ := current_isSome hbusy le_rfl
    obtain ⟨t, hmem, hle, hlast⟩ := current_mem hstate hsorted
    -- the last event is one of this tick, and all of its messages are about a running job
    have hnot := eventLe_iff.1 (hlast _ hbusy le_rfl)
    obtain rfl : t = e.time := by
      simp only at hnot
      omega
    obtain ⟨msg, hmsg, rfl⟩ := (hevents state).1 hmem
    have hmsgBusy : msg.state = .busy := by
      by_contra hne
      exact hall ⟨msg, hmsg, hne⟩
    rw [hmsgBusy] at hstate
    exact ⟨series, hseries, (hdf .busy e.time hbounds.2).2 hstate⟩

/-- The timeline agrees with the log: from each tick of a core on it has one
    state, and it is busy in the ticks in which it runs. -/
structure Agrees (ticks : List TickLog) (files : List (List (List Char))) : Prop where
  one : ∀ e ∈ ticks, ∃ series, seriesOf files (e.proc, e.core) = some series ∧
    series.globalMin ≤ e.time ∧ (e.time : ℤ) ≤ series.globalMax ∧
    ∀ x : ℤ, (e.time : ℤ) ≤ x → x ≤ series.globalMax → ∃! column, series.df column x = true
  busy : ∀ e ∈ ticks, e.kind.Runs →
    ∃ series, seriesOf files (e.proc, e.core) = some series ∧ series.df .busy e.time = true

theorem timeline_iff (h : Emitted ticks system files)
    (hw : ∀ call ∈ allCalls ticks system, Whole call) :
    Agrees ticks files ↔ ∀ e ∈ ticks, ¬ e.kind.WakesRunning := by
  constructor
  · intro hagrees e he hwakes
    have hruns : e.kind.Runs := by
      cases hkind : e.kind with
      | running exiting job => trivial
      | _ =>
        rw [hkind] at hwakes
        cases hwakes
    exact (h.busy_iff hw he hruns).1 (hagrees.busy e he hruns) hwakes
  · intro hno
    exact ⟨fun e he => h.existsUnique_column hw he, fun e he hruns => (h.busy_iff hw he hruns).2 (hno e he)⟩

end

/-! ## Two cores, and a core that wakes up -/

/-- The third record of `log_core_state` -/
def criticalityCall (time proc core level : ℕ) : LogCall where
  level := .debug
  ctx := ⟨proc, core, true⟩
  systemTime := time
  fileName := "sched_core.c"
  line := 559
  fmt := [.text "Criticality Level: ".toList, .arg (fmtU level)]
  fileName_ok := newline_notMem_schedCore

/-- The last record of `scheduler_init` -/
def initCall : LogCall where
  level := .info
  ctx := ⟨0, 0, false⟩
  systemTime := 0
  fileName := "sched_core.c"
  line := 543
  fmt := [.text "Scheduler Initialization Complete.".toList]
  fileName_ok := newline_notMem_schedCore

theorem criticalityCall_other (time proc core : ℕ) :
    Other time proc core (criticalityCall time proc core 0) where
  ctx := rfl
  time := rfl
  message := (by decide : newline ∉ "Criticality Level: 0".toList)
  status := not_infix_of_notMem (x := 'S') (by decide)
    (by decide : 'S' ∉ tailText .debug "sched_core.c" 559 (criticalityCall 0 0 0 0).message)
  lowPower := not_infix_of_notMem (x := 'w') (by decide)
    (by decide : 'w' ∉ tailText .debug "sched_core.c" 559 (criticalityCall 0 0 0 0).message)
  core := not_infix_of_notMem (x := 'P') (by decide)
    (by decide : 'P' ∉ tailText .debug "sched_core.c" 559 (criticalityCall 0 0 0 0).message)

theorem initCall_system : System initCall where
  message := by decide
  core := not_infix_of_notMem (x := 'P') (by decide) (by decide)

/-- A tick of a core of processor 0 in level 0 -/
def coreTick (time core : ℕ) (kind : TickKind) : TickLog where
  time := time
  proc := 0
  core := core
  kind := kind
  others := [criticalityCall time 0 core 0]
  others_ok := by
    intro call hcall
    rw [List.mem_singleton.1 hcall]
    exact criticalityCall_other time 0 core

/-- Core 0 runs, gets idle and sleeps, wakes up idle and runs again, while core 1
    runs. -/
def awakeTicks : List TickLog :=
  [coreTick 5 0 (.running false 1), coreTick 6 0 (.idle false true), coreTick 7 0 .asleep,
    coreTick 7 1 (.running false 2), coreTick 8 0 (.idle true false), coreTick 9 0 (.running false 3)]

theorem emitted_records {ticks : List TickLog} {system : List LogCall}
    (hnodup : (ticks.map fun e => (e.time, e.proc, e.core)).Nodup) (hsystem : ∀ call ∈ system, System call) :
    Emitted ticks system [(allCalls ticks system).map LogCall.record] where
  nodup := hnodup
  system_ok := hsystem
  records := by rw [List.flatten_singleton]

theorem timeline_iff_awake : Agrees awakeTicks [(allCalls awakeTicks [initCall]).map LogCall.record] := by
  have hsystem : ∀ call ∈ [initCall], System call := by
    intro call hcall
    rw [List.mem_singleton.1 hcall]
    exact initCall_system
  have hwhole : ∀ call ∈ allCalls awakeTicks [initCall], Whole call := by
    unfold Whole
    decide +kernel
  refine (timeline_iff (emitted_records (by decide) hsystem) hwhole).2 fun e he => ?_
  have hawake : ∀ kind ∈ awakeTicks.map TickLog.kind, ¬ kind.WakesRunning := by
    intro kind hkind
    simp only [awakeTicks, coreTick, List.map_cons, List.map_nil, List.mem_cons, List.not_mem_nil,
      or_false] at hkind
    rcases hkind with rfl | rfl | rfl | rfl | rfl | rfl <;> nofun
  exact hawake _ (List.mem_map_of_mem he)

/-- A core wakes up, or was awake, and runs the first job. -/
def runningTick (exiting : Bool) : TickLog where
  time := 5
  proc := 0
  core := 0
  kind := .running exiting 1
  others := []
  others_ok := nofun

theorem runningTick_emitted (exiting : Bool) :
    Emitted [runningTick exiting] [] [(runningTick exiting).calls.map LogCall.record] where
  nodup := List.nodup_singleton _
  system_ok := nofun
  records := by simp [allCalls]

theorem runningTick_whole (exiting : Bool) : ∀ call ∈ allCalls [runningTick exiting] [], Whole call := by
  unfold Whole
  cases exiting <;> decide

/-- A core that wakes up and runs is not busy in its timeline. -/
theorem wake_up_not_busy :
    Emitted [runningTick true] [] [(runningTick true).calls.map LogCall.record] ∧
      (∀ call ∈ allCalls [runningTick true] [], Whole call) ∧
      ¬ Agrees [runningTick true] [(runningTick true).calls.map LogCall.record] := by
  refine ⟨runningTick_emitted true, runningTick_whole true, fun hagrees => ?_⟩
  have hbusy := hagrees.busy (runningTick true) List.mem_cons_self trivial
  exact ((runningTick_emitted true).busy_iff (runningTick_whole true) List.mem_cons_self trivial).1 hbusy rfl

end EeftSched.LogParser

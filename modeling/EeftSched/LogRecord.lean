/-
  The records of `LOG` (`lib/log.h`), of `log_job_queue` and of the calls about a
  NULL queue (`task_management.c`), and the lines of the log file.

  A buffer holds a string that ends at its first zero byte; what does not fit is
  cut off by `snprintf` and `strncat`, the newline at the end of a record too.
  `LOG` puts that newline after its format, which may have one of its own.

  * `queueStr_eq`: `log_job_queue` leaves the first 255 characters of the text;
  * `LogCall.oneLine_iff`: a record is one line if and only if all of it fits in
    the buffer and its format has no newline;
  * `log_one_line_iff`: so it is for the lines of the file;
  * `long_queue_cut`: the record of a queue of eleven jobs is cut;
  * `nullQueueCall_oneLine_iff`: the record about a NULL queue takes two lines;
  * `lines_logFile`: the lines of the file of a run of the logger.
-/
import EeftSched.Lib.Lines
import EeftSched.Lib.Rounding
import EeftSched.Log
import EeftSched.Task
import Mathlib.Data.Nat.Digits.Defs

namespace EeftSched.Log

open Lts Lines Rounding

/-- `MAX_LOG_MSG_SIZE` -/
def maxLogMsgSize : ℕ := 256

def newline : Char := '\n'

inductive LogLevel where
  | debug
  | info
  | warn
  | error
  | fatal
  /-- any other value of the type -/
  | other (k : ℕ)
deriving DecidableEq, Repr

namespace LogLevel

def value : LogLevel → ℕ
  | debug => 0
  | info => 1
  | warn => 2
  | error => 3
  | fatal => 4
  | other k => k + 5

def str : LogLevel → String
  | debug => "DEBUG"
  | info => "INFO"
  | warn => "WARN"
  | error => "ERROR"
  | fatal => "FATAL"
  | other _ => "UNKNOWN"

end LogLevel

/-- `log_thread_context` -/
structure LogThreadContext where
  procId : ℕ
  coreId : ℕ
  isSet : Bool

/-! ## Formatted output -/

/-- `%u` -/
def fmtU (k : ℕ) : List Char := Nat.toDigits 10 k

/-- `%.2f` -/
def fmtF2 (q : ℚ) : List Char :=
  let hundredths := (roundHalfEven (|q| * 100)).toNat
  (if q < 0 then "-" else "").toList ++ fmtU (hundredths / 100) ++ ".".toList ++
    fmtU (hundredths / 10 % 10) ++ fmtU (hundredths % 10)

/-- What `snprintf` leaves of `s` in a buffer of `size` bytes -/
def snprintf (size : ℕ) (s : List Char) : List Char := s.take (size - 1)

/-- `strncat` of at most `k` characters -/
def strncat (dest src : List Char) (k : ℕ) : List Char := dest ++ src.take k

/-! ## `LOG` -/

/-- A piece of a format: text of its own, or a conversion with its argument
    filled in -/
inductive FmtPart where
  | text (s : List Char)
  | arg (s : List Char)
deriving DecidableEq, Repr

def FmtPart.str : FmtPart → List Char
  | text s => s
  | arg s => s

/-- A call of `LOG` -/
structure LogCall where
  level : LogLevel
  ctx : LogThreadContext
  systemTime : ℕ
  fileName : String
  line : ℕ
  fmt : List FmtPart
  /-- a name of a source file -/
  fileName_ok : newline ∉ fileName.toList

namespace LogCall

/-- `fmt` with its arguments filled in -/
def message (call : LogCall) : List Char := call.fmt.flatMap FmtPart.str

/-- What stands before the message -/
def header (call : LogCall) : List Char :=
  "[".toList ++ fmtU call.systemTime ++
    (if call.ctx.isSet then
      "] [P".toList ++ fmtU call.ctx.procId ++ ": C".toList ++ fmtU call.ctx.coreId
    else "] [SYS".toList) ++
    "] [".toList ++ call.level.str.toList ++ "] [".toList ++ call.fileName.toList ++ ":".toList ++
    fmtU call.line ++ "] ".toList

/-- What is handed to `ring_buffer_try_enqueue` -/
def record (call : LogCall) : List Char :=
  snprintf maxLogMsgSize (call.header ++ call.message ++ [newline])

end LogCall

/-- `LOG` -/
def log (currentLogLevel : LogLevel) (call : LogCall) : Option (List Char) :=
  if call.level.value ≥ currentLogLevel.value then some call.record else none

/-! ## `log_job_queue` -/

def jobToStr (job : Job) : List Char :=
  snprintf 64 ("Job(ID:".toList ++ fmtU job.parentTask.id ++ " VDL:".toList ++ fmtU job.virtualDeadline ++
    " REM:".toList ++ fmtF2 (job.acet - job.executedTime) ++ ")".toList)

/-- The size of `queue_str` -/
def queueStrSize : ℕ := 256

/-- The loop over the queue -/
def appendJobs : List Job → List Char → List Char
  | [], queueStr => queueStr
  | job :: jobs, queueStr =>
    let queueStr := queueStr ++ snprintf (queueStrSize - queueStr.length) (jobToStr job)
    appendJobs jobs
      (if jobs.isEmpty then queueStr
      else strncat queueStr " -> ".toList (queueStrSize - queueStr.length - 1))

def queueStr (name : String) (jobs : List Job) : List Char :=
  let queueStr := snprintf queueStrSize ("Queue '".toList ++ name.toList ++ "': ".toList)
  appendJobs jobs
    (if jobs.isEmpty then queueStr ++ snprintf (queueStrSize - queueStr.length) "(Empty)".toList
    else queueStr)

theorem newline_notMem_taskManagement : newline ∉ "task_management.c".toList := by decide

theorem newline_notMem_schedCore : newline ∉ "sched_core.c".toList := by decide

/-- The call of `LOG` in `log_job_queue` -/
def queueCall (level : LogLevel) (ctx : LogThreadContext) (systemTime : ℕ) (name : String)
    (jobs : List Job) : LogCall where
  level := level
  ctx := ctx
  systemTime := systemTime
  fileName := "task_management.c"
  line := 201
  fmt := [.arg (queueStr name jobs)]
  fileName_ok := newline_notMem_taskManagement

def logJobQueue (currentLogLevel level : LogLevel) (ctx : LogThreadContext) (systemTime : ℕ)
    (name : String) (jobs : List Job) : Option (List Char) :=
  if level.value < currentLogLevel.value then none
  else log currentLogLevel (queueCall level ctx systemTime name jobs)

/-- The lines of `add_to_queue_sorted` and `add_to_queue_sorted_by_arrival` that
    log a NULL queue or job -/
inductive NullQueueLine where
  | sorted
  | sortedByArrival

def NullQueueLine.line : NullQueueLine → ℕ
  | sorted => 114
  | sortedByArrival => 132

/-- The call of `LOG` there -/
def nullQueueCall (site : NullQueueLine) (ctx : LogThreadContext) (systemTime : ℕ) : LogCall where
  level := .error
  ctx := ctx
  systemTime := systemTime
  fileName := "task_management.c"
  line := site.line
  fmt := [.text ("Attempted to add job to a NULL queue".toList ++ [newline])]
  fileName_ok := newline_notMem_taskManagement

/-! ## The text of a queue -/

/-- The jobs as `log_job_queue` would print them into a buffer without end -/
def jobsText : List Job → List Char
  | [] => []
  | job :: jobs => jobToStr job ++ ((if jobs.isEmpty then [] else " -> ".toList) ++ jobsText jobs)

def queueText (name : String) (jobs : List Job) : List Char :=
  "Queue '".toList ++ name.toList ++ "': ".toList ++
    (if jobs.isEmpty then "(Empty)".toList else jobsText jobs)

section
variable {name : String} {jobs : List Job} {s x : List Char} {size : ℕ}

theorem take_append_take (s x : List Char) (k : ℕ) :
    s.take k ++ x.take (k - (s.take k).length) = (s ++ x).take k := by
  rw [List.take_append, List.length_take]
  congr 2
  omega

/-- What is printed at the end of a string is cut as the whole would be. -/
theorem append_snprintf (hs : s = x.take (size - 1)) (y : List Char) :
    s ++ snprintf (size - s.length) y = (x ++ y).take (size - 1) := by
  rw [snprintf, Nat.sub_right_comm, hs]
  exact take_append_take x y (size - 1)

theorem append_strncat (hs : s = x.take (size - 1)) (y : List Char) :
    strncat s y (size - s.length - 1) = (x ++ y).take (size - 1) := append_snprintf hs y

theorem appendJobs_eq (jobs : List Job) (x : List Char) :
    appendJobs jobs (x.take (queueStrSize - 1)) = (x ++ jobsText jobs).take (queueStrSize - 1) := by
  induction jobs generalizing x with
  | nil => rw [appendJobs, jobsText, List.append_nil]
  | cons job jobs ih =>
    have hjob := append_snprintf (rfl : x.take (queueStrSize - 1) = _) (jobToStr job)
    rw [appendJobs, jobsText]
    simp only [hjob]
    cases hempty : jobs.isEmpty with
    | true =>
      rw [if_pos rfl, if_pos rfl, List.nil_append, ih, List.append_assoc]
    | false =>
      rw [if_neg Bool.false_ne_true, if_neg Bool.false_ne_true, append_strncat rfl, ih, List.append_assoc,
        List.append_assoc]

theorem queueStr_eq (name : String) (jobs : List Job) :
    queueStr name jobs = (queueText name jobs).take (queueStrSize - 1) := by
  unfold queueStr queueText
  cases jobs with
  | nil =>
    simp only [List.isEmpty_nil, if_true, appendJobs]
    exact append_snprintf rfl _
  | cons job jobs =>
    simp only [List.isEmpty_cons, Bool.false_eq_true, if_false]
    exact appendJobs_eq (job :: jobs) _

end

/-! ## The newline -/

theorem newline_notMem_fmtU (k : ℕ) : newline ∉ fmtU k := by
  intro h
  have hdigit := Nat.isDigit_of_mem_toDigits (by decide) (by decide) h
  cases hdigit

theorem newline_notMem_fmtF2 (q : ℚ) : newline ∉ fmtF2 q := by
  unfold fmtF2
  simp only [List.mem_append, newline_notMem_fmtU, or_false]
  split_ifs <;> decide

theorem newline_notMem_str (level : LogLevel) : newline ∉ level.str.toList := by
  cases level with
  | other k => exact (by decide : newline ∉ "UNKNOWN".toList)
  | _ => decide

theorem newline_notMem_jobToStr (job : Job) : newline ∉ jobToStr job := by
  intro h
  have hmem := List.mem_of_mem_take h
  simp only [List.mem_append, newline_notMem_fmtU, newline_notMem_fmtF2, or_false] at hmem
  revert hmem
  decide

theorem newline_notMem_jobsText (jobs : List Job) : newline ∉ jobsText jobs := by
  induction jobs with
  | nil => nofun
  | cons job jobs ih =>
    have harrow : newline ∉ if jobs.isEmpty then [] else " -> ".toList := by
      split_ifs <;> decide
    rw [jobsText]
    simp only [List.mem_append, newline_notMem_jobToStr, harrow, ih, or_false, not_false_eq_true]

theorem newline_notMem_queueText {name : String} (hname : newline ∉ name.toList) (jobs : List Job) :
    newline ∉ queueText name jobs := by
  have hjobs : newline ∉ if jobs.isEmpty then "(Empty)".toList else jobsText jobs := by
    split_ifs
    · decide
    · exact newline_notMem_jobsText jobs
  unfold queueText
  simp only [List.mem_append, hname, hjobs, or_false]
  decide

theorem newline_notMem_header (call : LogCall) : newline ∉ call.header := by
  have hctx : newline ∉ if call.ctx.isSet then
      "] [P".toList ++ fmtU call.ctx.procId ++ ": C".toList ++ fmtU call.ctx.coreId
      else "] [SYS".toList := by
    split_ifs
    · simp only [List.mem_append, newline_notMem_fmtU, or_false]
      decide
    · decide
  unfold LogCall.header
  simp only [List.mem_append, newline_notMem_fmtU, newline_notMem_str, call.fileName_ok, hctx, or_false]
  decide

/-! ## The records -/

namespace LogCall

variable {currentLogLevel : LogLevel} {call : LogCall} {record : List Char}

/-- No argument has a newline. -/
def PlainArgs (call : LogCall) : Prop := ∀ s, .arg s ∈ call.fmt → newline ∉ s

/-- The format has no newline of its own. -/
def PlainText (call : LogCall) : Prop := ∀ s, .text s ∈ call.fmt → newline ∉ s

/-- What a record should be: it ends in a newline, and has no other one unless
    an argument has. -/
def OneLine (currentLogLevel : LogLevel) (call : LogCall) : Prop :=
  ∀ record, log currentLogLevel call = some record →
    record.getLast? = some newline ∧ (call.PlainArgs → newline ∉ record.dropLast)

/-- The header, the message, the newline and the zero byte fit in the buffer, and
    the format has no newline. Or the last character that fits is the first
    newline of the message. -/
def Fits (currentLogLevel : LogLevel) (call : LogCall) : Prop :=
  call.level.value < currentLogLevel.value ∨
    call.header.length + call.message.length + 2 ≤ maxLogMsgSize ∧ (call.PlainArgs → call.PlainText) ∨
    (call.header ++ call.message)[maxLogMsgSize - 2]? = some newline ∧
      (call.PlainArgs → newline ∉ call.message.take (maxLogMsgSize - 2 - call.header.length))

theorem newline_notMem_message : newline ∉ call.message ↔ call.PlainArgs ∧ call.PlainText := by
  rw [message, List.mem_flatMap]
  constructor
  · intro h
    exact ⟨fun s hs hmem => h ⟨_, hs, hmem⟩, fun s hs hmem => h ⟨_, hs, hmem⟩⟩
  · rintro ⟨hargs, htext⟩ ⟨part, hpart, hmem⟩
    cases part with
    | text s => exact htext s hpart hmem
    | arg s => exact hargs s hpart hmem

theorem log_eq_some : log currentLogLevel call = some record ↔
    currentLogLevel.value ≤ call.level.value ∧ call.record = record := by
  unfold log
  split_ifs with h
  · simp [h]
  · simp [h]

theorem oneLine_of_lt (h : call.level.value < currentLogLevel.value) : call.OneLine currentLogLevel := by
  intro record hrec
  have hle := (log_eq_some.1 hrec).1
  omega

theorem oneLine_iff_of_le (h : currentLogLevel.value ≤ call.level.value) :
    call.OneLine currentLogLevel ↔ call.record.getLast? = some newline ∧
      (call.PlainArgs → newline ∉ call.record.dropLast) := by
  refine ⟨fun hone => hone _ (log_eq_some.2 ⟨h, rfl⟩), fun hone record hrec => ?_⟩
  rw [← (log_eq_some.1 hrec).2]
  exact hone

theorem record_of_le (h : call.header.length + call.message.length + 2 ≤ maxLogMsgSize) :
    call.record = call.header ++ call.message ++ [newline] := by
  refine List.take_of_length_le ?_
  rw [List.length_append, List.length_append, List.length_singleton]
  omega

theorem getElem?_ne_of_le (h : call.header.length + call.message.length + 2 ≤ maxLogMsgSize) :
    (call.header ++ call.message)[maxLogMsgSize - 2]? ≠ some newline := by
  rw [List.getElem?_eq_none]
  · exact (Option.some_ne_none newline).symm
  · rw [List.length_append]
    omega

/-- The newline at the end does not fit. -/
theorem record_of_not_le (h : ¬ call.header.length + call.message.length + 2 ≤ maxLogMsgSize) :
    call.record = (call.header ++ call.message).take (maxLogMsgSize - 1) := by
  refine List.take_append_of_le_length ?_
  rw [List.length_append]
  omega

theorem newline_mem_header_append {s : List Char} : newline ∈ call.header ++ s ↔ newline ∈ s := by
  rw [List.mem_append, or_iff_right (newline_notMem_header call)]

theorem oneLine_iff (currentLogLevel : LogLevel) (call : LogCall) :
    call.OneLine currentLogLevel ↔ call.Fits currentLogLevel := by
  by_cases hlevel : call.level.value < currentLogLevel.value
  · exact iff_of_true (oneLine_of_lt hlevel) (.inl hlevel)
  rw [oneLine_iff_of_le (not_lt.1 hlevel), Fits, or_iff_right hlevel]
  by_cases hfits : call.header.length + call.message.length + 2 ≤ maxLogMsgSize
  · have hno := getElem?_ne_of_le hfits
    rw [record_of_le hfits, List.getLast?_concat, List.dropLast_concat, newline_mem_header_append,
      newline_notMem_message, or_iff_left fun h => hno h.1]
    exact ⟨fun h => ⟨hfits, fun hargs => (h.2 hargs).2⟩, fun h => ⟨rfl, fun hargs => ⟨hargs, h.2 hargs⟩⟩⟩
  · rw [or_iff_right fun h => hfits h.1]
    have hlen : maxLogMsgSize - 1 ≤ (call.header ++ call.message).length := by
      rw [List.length_append]
      omega
    have hlast : call.record.getLast? = (call.header ++ call.message)[maxLogMsgSize - 2]? := by
      rw [record_of_not_le hfits, List.getLast?_eq_getElem?, List.length_take, min_eq_left hlen,
        List.getElem?_take]
      exact if_pos (by decide)
    have hinit : call.record.dropLast = (call.header ++ call.message).take (maxLogMsgSize - 2) := by
      rw [record_of_not_le hfits, List.dropLast_eq_take, List.length_take, min_eq_left hlen, List.take_take]
      rfl
    have htake : newline ∈ (call.header ++ call.message).take (maxLogMsgSize - 2) ↔
        newline ∈ call.message.take (maxLogMsgSize - 2 - call.header.length) := by
      rw [List.take_append, List.mem_append, or_iff_right]
      exact fun h => newline_notMem_header call (List.mem_of_mem_take h)
    rw [hlast, hinit, htake]

end LogCall

/-! ## The queues -/

theorem logJobQueue_eq (currentLogLevel level : LogLevel) (ctx : LogThreadContext) (systemTime : ℕ)
    (name : String) (jobs : List Job) : logJobQueue currentLogLevel level ctx systemTime name jobs =
      log currentLogLevel (queueCall level ctx systemTime name jobs) := by
  unfold logJobQueue
  split_ifs with h
  · exact (if_neg (not_le.2 h)).symm
  · rfl

theorem queueCall_oneLine_iff (currentLogLevel level : LogLevel) (ctx : LogThreadContext)
    (systemTime : ℕ) {name : String} (hname : newline ∉ name.toList) (jobs : List Job) :
    (queueCall level ctx systemTime name jobs).OneLine currentLogLevel ↔
      level.value < currentLogLevel.value ∨
        (queueCall level ctx systemTime name jobs).header.length + (queueText name jobs).length + 2 ≤
          maxLogMsgSize := by
  let call := queueCall level ctx systemTime name jobs
  have hmsg : call.message = (queueText name jobs).take (queueStrSize - 1) := by
    rw [← queueStr_eq]
    exact List.append_nil _
  have htext : call.PlainText := by
    intro s hs
    cases List.mem_singleton.1 hs
  have hno : ¬ (call.header ++ call.message)[maxLogMsgSize - 2]? = some newline := by
    intro h
    rcases List.mem_append.1 (List.mem_of_getElem? h) with h | h
    · exact newline_notMem_header call h
    · rw [hmsg] at h
      exact newline_notMem_queueText hname jobs (List.mem_of_mem_take h)
  have hlen : call.message.length = min 255 (queueText name jobs).length := by
    rw [hmsg, List.length_take]
    rfl
  have hsize : maxLogMsgSize = 256 := rfl
  rw [LogCall.oneLine_iff, LogCall.Fits]
  refine or_congr_right ?_
  rw [or_iff_left fun h => hno h.1, and_iff_left fun _ => htext, hlen]
  omega

theorem length_fmtU (k : ℕ) : 1 ≤ (fmtU k).length := Nat.length_toDigits_pos

theorem length_fmtF2 (q : ℚ) : 4 ≤ (fmtF2 q).length := by
  have h1 := length_fmtU ((roundHalfEven (|q| * 100)).toNat / 100)
  have h2 := length_fmtU ((roundHalfEven (|q| * 100)).toNat / 10 % 10)
  have h3 := length_fmtU ((roundHalfEven (|q| * 100)).toNat % 10)
  have hdot : ".".toList.length = 1 := rfl
  simp only [fmtF2, List.length_append]
  omega

theorem length_jobToStr (job : Job) : 24 ≤ (jobToStr job).length := by
  have hid := length_fmtU job.parentTask.id
  have hvdl := length_fmtU job.virtualDeadline
  have hrem := length_fmtF2 (job.acet - job.executedTime)
  have h1 : "Job(ID:".toList.length = 7 := rfl
  have h2 : " VDL:".toList.length = 5 := rfl
  have h3 : " REM:".toList.length = 5 := rfl
  have h4 : ")".toList.length = 1 := rfl
  simp only [jobToStr, snprintf, List.length_take, List.length_append]
  omega

theorem length_jobsText (jobs : List Job) : 24 * jobs.length ≤ (jobsText jobs).length := by
  induction jobs with
  | nil => exact le_rfl
  | cons job jobs ih =>
    have hjob := length_jobToStr job
    rw [jobsText, List.length_append, List.length_append, List.length_cons]
    omega

/-- **The record of a queue of eleven jobs is cut**, and the newline with it. -/
theorem long_queue_cut {currentLogLevel level : LogLevel} (hlevel : currentLogLevel.value ≤ level.value)
    (ctx : LogThreadContext) (systemTime : ℕ) {name : String} (hname : newline ∉ name.toList)
    {jobs : List Job} (hlong : 11 ≤ jobs.length) :
    ¬ (queueCall level ctx systemTime name jobs).OneLine currentLogLevel := by
  have hjobs := length_jobsText jobs
  have hempty : jobs.isEmpty = false := by
    rw [List.isEmpty_eq_false_iff, ← List.length_pos_iff]
    omega
  have htext : (jobsText jobs).length ≤ (queueText name jobs).length := by
    unfold queueText
    simp only [hempty, Bool.false_eq_true, if_false, List.length_append]
    omega
  have hsize : maxLogMsgSize = 256 := rfl
  rw [queueCall_oneLine_iff _ _ _ _ hname]
  omega

/-! ## The calls about a NULL queue -/

theorem length_fmtU_le {k : ℕ} (e : ℕ) (he : 0 < e) (hk : k < 10 ^ e) : (fmtU k).length ≤ e :=
  Nat.toDigits_length 10 k e he hk

/-- The two calls fit in the buffer. -/
theorem nullQueueCall_length (site : NullQueueLine) {ctx : LogThreadContext} {systemTime : ℕ}
    (hproc : ctx.procId < 2 ^ 8) (hcore : ctx.coreId < 2 ^ 8) (htime : systemTime < 2 ^ 32) :
    (nullQueueCall site ctx systemTime).header.length +
      (nullQueueCall site ctx systemTime).message.length + 2 ≤ maxLogMsgSize := by
  have h1 : (fmtU systemTime).length ≤ 10 := length_fmtU_le 10 (by decide) (by omega)
  have h2 : (fmtU ctx.procId).length ≤ 3 := length_fmtU_le 3 (by decide) (by omega)
  have h3 : (fmtU ctx.coreId).length ≤ 3 := length_fmtU_le 3 (by decide) (by omega)
  have h4 : (fmtU site.line).length = 3 := by cases site <;> decide
  have hctx : (if ctx.isSet then
      "] [P".toList ++ fmtU ctx.procId ++ ": C".toList ++ fmtU ctx.coreId
      else "] [SYS".toList).length ≤ 13 := by
    have h5 : "] [P".toList.length = 4 := rfl
    have h6 : ": C".toList.length = 3 := rfl
    split_ifs
    · simp only [List.length_append]
      omega
    · decide
  have hmessage : (nullQueueCall site ctx systemTime).message.length = 37 := rfl
  have h7 : "[".toList.length = 1 := rfl
  have h8 : "] [".toList.length = 3 := rfl
  have h9 : LogLevel.error.str.toList.length = 5 := rfl
  have h10 : "task_management.c".toList.length = 17 := rfl
  have h11 : ":".toList.length = 1 := rfl
  have h12 : "] ".toList.length = 2 := rfl
  have hsize : maxLogMsgSize = 256 := rfl
  have hheader : (nullQueueCall site ctx systemTime).header = "[".toList ++ fmtU systemTime ++
      (if ctx.isSet then
        "] [P".toList ++ fmtU ctx.procId ++ ": C".toList ++ fmtU ctx.coreId
      else "] [SYS".toList) ++
      "] [".toList ++ LogLevel.error.str.toList ++ "] [".toList ++ "task_management.c".toList ++
      ":".toList ++ fmtU site.line ++ "] ".toList := rfl
  generalize (if ctx.isSet then
      "] [P".toList ++ fmtU ctx.procId ++ ": C".toList ++ fmtU ctx.coreId
      else "] [SYS".toList) = context at hctx hheader
  rw [hmessage, hheader, hsize]
  simp only [List.length_append]
  omega

/-- **The record about a NULL queue is never one line**: its format ends in a
    newline of its own. -/
theorem nullQueueCall_oneLine_iff (currentLogLevel : LogLevel) (site : NullQueueLine)
    {ctx : LogThreadContext} {systemTime : ℕ} (hproc : ctx.procId < 2 ^ 8)
    (hcore : ctx.coreId < 2 ^ 8) (htime : systemTime < 2 ^ 32) :
    (nullQueueCall site ctx systemTime).OneLine currentLogLevel ↔
      LogLevel.error.value < currentLogLevel.value := by
  let call := nullQueueCall site ctx systemTime
  have hlen : call.header.length + call.message.length + 2 ≤ maxLogMsgSize :=
    nullQueueCall_length site hproc hcore htime
  have hargs : call.PlainArgs := by
    intro s hs
    cases List.mem_singleton.1 hs
  have htext : ¬ call.PlainText := fun h =>
    h _ List.mem_cons_self (List.mem_append_right _ (List.mem_singleton_self newline))
  rw [LogCall.oneLine_iff, LogCall.Fits]
  refine or_iff_left ?_
  rintro (⟨-, h⟩ | ⟨h, -⟩)
  · exact htext (h hargs)
  · exact LogCall.getElem?_ne_of_le hlen h

/-! ## The lines of the file -/

theorem isLine_of_oneLine {currentLogLevel : LogLevel} {call : LogCall} {record : List Char}
    (h : call.OneLine currentLogLevel) (hargs : call.PlainArgs)
    (hr : log currentLogLevel call = some record) : IsLine newline record := by
  obtain ⟨hlast, hbody⟩ := h record hr
  exact isLine_iff.2 ⟨hlast, hbody hargs⟩

/-- **A record is one line, and the lines of the log file are the records, if
    and only if each record fits in its buffer and its format has no newline**;
    that of a queue if and only if the text of the queue fits, and that about a
    NULL queue never. -/
theorem log_one_line_iff (currentLogLevel : LogLevel) :
    (∀ calls : List LogCall,
      ((∀ call ∈ calls, call.OneLine currentLogLevel) ∧
        ((∀ call ∈ calls, call.PlainArgs) →
          lines newline (calls.filterMap (log currentLogLevel)).flatten =
            calls.filterMap (log currentLogLevel))) ↔
      ∀ call ∈ calls, call.Fits currentLogLevel) ∧
    (∀ level ctx systemTime name jobs, newline ∉ name.toList →
      logJobQueue currentLogLevel level ctx systemTime name jobs =
          log currentLogLevel (queueCall level ctx systemTime name jobs) ∧
        ((queueCall level ctx systemTime name jobs).OneLine currentLogLevel ↔
          level.value < currentLogLevel.value ∨
            (queueCall level ctx systemTime name jobs).header.length + (queueText name jobs).length + 2 ≤
              maxLogMsgSize)) ∧
    ∀ site (ctx : LogThreadContext) systemTime, ctx.procId < 2 ^ 8 → ctx.coreId < 2 ^ 8 →
      systemTime < 2 ^ 32 → ((nullQueueCall site ctx systemTime).OneLine currentLogLevel ↔
        LogLevel.error.value < currentLogLevel.value) := by
  refine ⟨fun calls => ⟨fun h call hcall => (call.oneLine_iff _).1 (h.1 call hcall), fun h => ?_⟩,
    fun level ctx systemTime name jobs hname =>
      ⟨logJobQueue_eq _ _ _ _ _ _, queueCall_oneLine_iff _ _ _ _ hname jobs⟩,
    fun site ctx systemTime hproc hcore htime =>
      nullQueueCall_oneLine_iff currentLogLevel site hproc hcore htime⟩
  have hone : ∀ call ∈ calls, call.OneLine currentLogLevel := fun call hcall =>
    (call.oneLine_iff _).2 (h call hcall)
  refine ⟨hone, fun hargs => lines_flatten fun record hrecord => ?_⟩
  obtain ⟨call, hcall, hr⟩ := List.mem_filterMap.1 hrecord
  exact isLine_of_oneLine (hone call hcall) (hargs call hcall) hr

/-- A job of task 1 -/
def queuedJob : Job where
  parentTask := ⟨1, 100, 100, fun _ => 10, 0⟩
  arrivalTime := 0
  relativeTunedDeadlines _ := 100
  actualDeadline := 100
  virtualDeadline := 100
  wcet := 10
  acet := 10
  executedTime := 0
  jobPoolId := 0
  isReplica := false
  state := .ready
  nextMigrationEligibleTick := 0

/-- Eleven jobs in a ready queue -/
theorem ready_queue_cut : ¬ (queueCall .debug ⟨0, 0, true⟩ 5 "Ready Queue"
    (List.replicate 11 queuedJob)).OneLine .debug :=
  long_queue_cut le_rfl _ _ (by decide) (by rw [List.length_replicate])

/-- The record of `log_core_state` about that job -/
def statusCall : LogCall where
  level := .debug
  ctx := ⟨0, 0, true⟩
  systemTime := 5
  fileName := "sched_core.c"
  line := 553
  fmt := [.text "Status: RUNNING -> Job ".toList, .arg (fmtU queuedJob.parentTask.id)]
  fileName_ok := newline_notMem_schedCore

/-- A core logs its state and a queue of two jobs. -/
def coreCalls : List LogCall :=
  [statusCall, queueCall .debug ⟨0, 0, true⟩ 5 "Ready Queue" [queuedJob, queuedJob]]

theorem statusCall_fits : statusCall.Fits .debug := by
  refine .inr (.inl ⟨by decide, fun _ s hs => ?_⟩)
  obtain rfl : s = "Status: RUNNING -> Job ".toList := by simpa [statusCall] using hs
  decide

theorem log_one_line_iff_core : (∀ call ∈ coreCalls, call.OneLine .debug) ∧
    (coreCalls.filterMap (log .debug)).length = 2 ∧
    lines newline (coreCalls.filterMap (log .debug)).flatten = coreCalls.filterMap (log .debug) := by
  have hiff := log_one_line_iff .debug
  have hqueue : (queueCall .debug ⟨0, 0, true⟩ 5 "Ready Queue" [queuedJob, queuedJob]).OneLine .debug :=
    (hiff.2.1 .debug ⟨0, 0, true⟩ 5 "Ready Queue" [queuedJob, queuedJob] (by decide)).2.2
      (.inr (by decide +kernel))
  have hfits : ∀ call ∈ coreCalls, call.Fits .debug := by
    intro call hcall
    rcases List.mem_cons.1 hcall with rfl | hcall
    · exact statusCall_fits
    · rw [List.mem_singleton.1 hcall]
      exact (LogCall.oneLine_iff _ _).1 hqueue
  obtain ⟨hone, hlines⟩ := (hiff.1 coreCalls).2 hfits
  refine ⟨hone, rfl, hlines fun call hcall s hs => ?_⟩
  rcases List.mem_cons.1 hcall with rfl | hcall
  · obtain rfl : s = fmtU queuedJob.parentTask.id := by simpa [statusCall] using hs
    exact newline_notMem_fmtU _
  · rw [List.mem_singleton.1 hcall] at hs
    obtain rfl : s = queueStr "Ready Queue" [queuedJob, queuedJob] := by simpa [queueCall] using hs
    rw [queueStr_eq]
    exact fun h => newline_notMem_queueText (by decide) _ (List.mem_of_mem_take h)

/-- When the system is shut down, the lines of the log file are what the logger
    has written, if the records are lines. -/
theorem lines_logFile {Θ : Type} [DecidableEq Θ] {buffer : ℕ → List Char} {opened : Bool}
    {tr : List (Trans (Sys Θ (List Char)) (Label (List Char)))} {S : Sys Θ (List Char)}
    (h : Exec Step (logSystemInit buffer opened) tr S) (hn : (records tr).length + 1 < 2 ^ 64)
    (hj : S.shutdown = .joined) (hl : ∀ r ∈ records tr, IsLine newline r) :
    lines newline (S.logFile.getD []).flatten = S.logFile.getD [] := by
  have hinv := inv_of_exec h hn
  obtain ⟨G, hG⟩ := hinv.queue
  have hexit := hinv.control.joined hj
  have hwritten := hG.delivered_eq (hinv.control.quiet (by rw [hexit]; nofun))
  refine lines_flatten fun r hr => hl r ?_
  have hrecords : records tr = G.elems := hG.recorded.elems.symm
  rw [hinv.file] at hr
  cases opened with
  | false => cases hr
  | true =>
    have hr' : r ∈ (Mpmc.delivered (queueTrace tr)).map Prod.snd := hr
    rw [hwritten] at hr'
    rw [hrecords]
    exact List.mem_of_mem_take hr'

end EeftSched.Log

/-
  The static task set and the jobs of the scheduler (`task_management.h`,
  `task_alloc.h`, `sys_config.h`).

  A time is a natural number of ticks; a level is a natural number below
  `maxCriticalityLevels`; the float fields of a job (`wcet`, `acet`,
  `executedTime`) are rationals, and an execution time of a task is rounded
  when it becomes a float (`toFloat`).  An array indexed by level is a function.
-/
import EeftSched.Lib.Binary32
import Mathlib.Data.List.Basic
import Mathlib.Order.Bounds.Basic

namespace EeftSched

/-- `task_struct` -/
structure Task where
  id : ℕ
  period : ℕ
  deadline : ℕ
  wcet : ℕ → ℕ
  critLevel : ℕ

/-- `TaskType` -/
inductive TaskType where
  | primary
  | replica
deriving DecidableEq, Repr

/-- `task_alloc_map` -/
structure TaskAlloc where
  taskId : ℕ
  taskType : TaskType
  procId : ℕ
  coreId : ℕ
  tunedDeadlines : ℕ → ℕ

/-- The generated configuration (`sys_config.h`, `task_alloc.c`) of one
    processor, and the build options of the `Makefile`. -/
structure Config where
  maxCriticalityLevels : ℕ
  maxTasks : ℕ
  systemTasks : List Task
  allocationMap : List TaskAlloc
  procId : ℕ
  enableEcc : Bool := true
  enableMigration : Bool := true
  enableProcrastination : Bool := true
  enableDvfs : Bool := true
  enableDpm : Bool := true

/-- `find_task_by_id`; `task_lookup` is filled in the order of
    `system_tasks`, so the last task with an id is the one found. -/
def Config.findTaskById (cfg : Config) (taskId : ℕ) : Option Task :=
  if taskId > cfg.maxTasks then none else cfg.systemTasks.reverse.find? (·.id == taskId)

/-- The allocation entry belongs to core `coreId` of this processor. -/
def Config.owns (cfg : Config) (coreId : ℕ) (m : TaskAlloc) : Bool :=
  m.procId == cfg.procId && m.coreId == coreId

/-- The allocated tasks of a core, in the order of the allocation map. -/
def Config.entries (cfg : Config) (coreId : ℕ) : List TaskAlloc :=
  cfg.allocationMap.filter (cfg.owns coreId ·)

/-- `job_state` -/
inductive JobState where
  | idle
  | ready
  | running
  | completed
  | removed
deriving DecidableEq, Repr

/-- `job_struct`: what the analysis and the queues read of a job -/
structure Job where
  parentTask : Task
  arrivalTime : ℕ
  relativeTunedDeadlines : ℕ → ℕ
  actualDeadline : ℕ
  virtualDeadline : ℕ
  wcet : ℚ
  acet : ℚ
  executedTime : ℚ
  jobPoolId : ℕ
  isReplica : Bool
  state : JobState
  nextMigrationEligibleTick : ℕ

/-- `(float)n` -/
def toFloat (n : ℕ) : ℚ := Binary32.round n

theorem toFloat_eq {n : ℕ} (h : n ≤ 2 ^ 24) : toFloat n = n := Binary32.round_natCast h

/-- The level `handle_running_job` asks for when a job of execution times
    `wcet` overruns at level `current`: the least level above `current` whose
    budget is not yet used up, `current` itself if there is none. -/
def newCritLevel (maxLevels : ℕ) (wcet : ℕ → ℕ) (executedTime : ℚ) (current : ℕ) : ℕ :=
  ((List.range' (current + 1) (maxLevels - (current + 1))).find?
    fun level => executedTime < toFloat (wcet level)).getD current

theorem newCritLevel_ge (maxLevels : ℕ) (wcet : ℕ → ℕ) (executedTime : ℚ) (current : ℕ) :
    current ≤ newCritLevel maxLevels wcet executedTime current := by
  unfold newCritLevel
  cases h : (List.range' (current + 1) (maxLevels - (current + 1))).find?
      (fun level => executedTime < toFloat (wcet level)) with
  | none => simp
  | some l =>
    have := List.mem_range'_1.1 (List.mem_of_find?_eq_some h)
    simp only [Option.getD_some]; omega

theorem newCritLevel_lt {maxLevels : ℕ} (wcet : ℕ → ℕ) (executedTime : ℚ) {current : ℕ}
    (hc : current < maxLevels) : newCritLevel maxLevels wcet executedTime current < maxLevels := by
  unfold newCritLevel
  cases h : (List.range' (current + 1) (maxLevels - (current + 1))).find?
      (fun level => executedTime < toFloat (wcet level)) with
  | none => simpa using hc
  | some l =>
    have := List.mem_range'_1.1 (List.mem_of_find?_eq_some h)
    simp only [Option.getD_some]; omega

/-- The level asked for is the least one above the current one that leaves some
    budget, when there is one. -/
theorem newCritLevel_isLeast {maxLevels : ℕ} {wcet : ℕ → ℕ} {executedTime : ℚ} {current l : ℕ}
    (hlt : current < l) (hmax : l < maxLevels) (hl : executedTime < toFloat (wcet l)) :
    IsLeast {l | current < l ∧ l < maxLevels ∧ executedTime < toFloat (wcet l)}
      (newCritLevel maxLevels wcet executedTime current) := by
  unfold newCritLevel
  cases hfind : (List.range' (current + 1) (maxLevels - (current + 1))).find?
      (fun level => executedTime < toFloat (wcet level)) with
  | none =>
    have hmem : l ∈ List.range' (current + 1) (maxLevels - (current + 1)) := by
      rw [List.mem_range'_1]
      omega
    have hno := List.find?_eq_none.1 hfind l hmem
    exact absurd (decide_eq_true hl) hno
  | some m =>
    obtain ⟨hm, hmem, hleast⟩ := List.find?_range'_eq_some.1 hfind
    rw [List.mem_range'_1] at hmem
    refine ⟨⟨by simp only [Option.getD_some]; omega, by simp only [Option.getD_some]; omega,
      of_decide_eq_true hm⟩, ?_⟩
    rintro l' ⟨hlt', -, hl'⟩
    by_contra hnot
    have hlow := hleast l' hlt' (Nat.lt_of_not_le hnot)
    rw [decide_eq_true hl'] at hlow
    cases hlow

/-- A level above the current one is asked for only if it leaves some budget. -/
theorem newCritLevel_budget {maxLevels : ℕ} {wcet : ℕ → ℕ} {executedTime : ℚ} {current : ℕ}
    (h : current < newCritLevel maxLevels wcet executedTime current) :
    newCritLevel maxLevels wcet executedTime current < maxLevels ∧
      executedTime < toFloat (wcet (newCritLevel maxLevels wcet executedTime current)) := by
  unfold newCritLevel at h ⊢
  cases hfind : (List.range' (current + 1) (maxLevels - (current + 1))).find?
      (fun level => executedTime < toFloat (wcet level)) with
  | none =>
    rw [hfind, Option.getD_none] at h
    exact absurd h (lt_irrefl current)
  | some m =>
    obtain ⟨hm, hmem, -⟩ := List.find?_range'_eq_some.1 hfind
    rw [List.mem_range'_1] at hmem
    exact ⟨by simp only [Option.getD_some]; omega, of_decide_eq_true hm⟩

end EeftSched

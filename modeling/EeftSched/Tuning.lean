/-
  A core of the offline allocator and the tuning of its virtual deadlines
  (`Task`, `Core` in `tools/task_allocator.py`), over exact arithmetic.

  The objects of a core are a list of records; `tune_mode` works on the tasks of
  the core and the new one, known by their places in that list.  A loop that
  `while` leaves open gets fuel.

  * `Core.tuneSystem`: the new task is tuned together with those of the core,
    and added to them if that succeeds;
  * `Core.tuneSystem_spec`: up to virtual deadlines the tasks of the core stay
    what they are, and the new one is added exactly on success;
  * `Core.tuneSystem_transaction`: without success, or without `commit`, nothing
    has changed.
-/
import EeftSched.Lib.Checked
import Mathlib.Data.Rat.Floor
import Mathlib.Algebra.Order.Ring.Rat
import Mathlib.Data.List.Sort
import Mathlib.Logic.Function.Basic
import Mathlib.Tactic.NormNum

namespace EeftSched.TaskAllocator

/-- The exceptions that end the allocator; a loop that runs out of fuel has no
    result either. -/
inductive Error where
  | zeroDivision
  | assertion
  | index
  | value
  | key
  | raised (message : String)
  | fuel
deriving DecidableEq, Repr

abbrev Py := Except Error

/-- The entries of `system_config.yaml` that the allocator reads; `levels` is a
    dictionary. -/
structure SysConfig where
  numProcessors : ℕ
  numCoresPerProcessor : ℕ
  maxLevels : ℕ
  levels : List (String × ℕ)
  nodup : (levels.map Prod.fst).Nodup

/-- The levels, the highest number first -/
def SysConfig.levelsHighToLow (cfg : SysConfig) : List (String × ℕ) :=
  cfg.levels.insertionSort (fun a b => b.2 ≤ a.2)

/-- `Task`; the lists indexed by level are functions. -/
structure Task where
  id : ℕ
  period : ℤ
  deadline : ℤ
  virtualDeadline : ℕ → ℤ
  criticalityStr : String
  wcet : ℕ → ℤ
  replicas : ℕ
  criticalityLevel : ℕ
  utilizationTuple : List ℚ

namespace Task

def getUtilization (cfg : SysConfig) (t : Task) (levelStr : String) : Py ℚ :=
  match cfg.levels.lookup levelStr with
  | none => .ok 0
  | some targetCritNum =>
    if t.period = 0 then .error .zeroDivision else .ok (t.wcet targetCritNum / t.period)

def resetVirtualDeadlines (t : Task) : Task := { t with virtualDeadline := fun _ => t.deadline }

/-- `t.virtual_deadline[m] = d` -/
def setDeadline (m : ℕ) (d : ℤ) (t : Task) : Task :=
  { t with virtualDeadline := Function.update t.virtualDeadline m d }

/-- `t.virtual_deadline[m] += delta` -/
def shift (m : ℕ) (delta : ℤ) (t : Task) : Task := t.setDeadline m (t.virtualDeadline m + delta)

end Task

/-! ## `tune_mode` -/

/-- `dbf(t, m, m_prime, l)` for `m = m_prime - 1` -/
def dbf (t : Task) (mPrime : ℕ) (l : ℤ) : Py ℤ :=
  if l < 0 then .ok 0
  else if t.criticalityLevel < mPrime then .ok 0
  else if t.period = 0 then .error .zeroDivision
  else
    let vd := t.virtualDeadline
    let dbfVal :=
      match mPrime with
      | 0 => max (((l - vd 0).fdiv t.period + 1) * t.wcet 0) 0
      | m + 1 =>
        let full := max (((l - (vd (m + 1) - vd m)).fdiv t.period + 1) * t.wcet (m + 1)) 0
        let x := l.fmod t.period
        let done :=
          if vd (m + 1) > x ∧ x ≥ vd (m + 1) - vd m then t.wcet m - x + vd (m + 1) - vd m else 0
        full - max 0 (min done (t.wcet (m + 1)))
    if dbfVal ≥ 0 then .ok (max 0 dbfVal) else .error .assertion

def sumDbf (tasks : List Task) (mPrime : ℕ) (l : ℤ) : Py ℤ :=
  tasks.foldlM (fun sum t => do
    let d ← dbf t mPrime l
    .ok (sum + d)) 0

/-- `max` of a list that is not empty -/
def maximum (a : ℤ) (l : List ℤ) : ℤ := l.foldl max a

/-- `get_mode_l_max`, with the deadlines of the mode -/
def getModeLMax (mode : ℕ) (deadline : Task → ℤ) (taskSubset : List Task) : Py ℚ :=
  match taskSubset with
  | [] => .ok 0
  | t :: ts =>
    if taskSubset.any (·.period == 0) then .error .zeroDivision
    else
      let util := (taskSubset.map fun t => (t.wcet mode : ℚ) / t.period).sum
      let hyperperiod := (taskSubset.map (·.period.natAbs)).foldr Nat.lcm 1
      let boundHyper : ℚ := hyperperiod + maximum (deadline t) (ts.map deadline)
      if util < 1 then
        let maxDiff := maximum (t.period - deadline t) (ts.map fun t => t.period - deadline t)
        .ok (min boundHyper (util / (1 - util) * maxDiff))
      else .ok boundHyper

/-- `int()` -/
def truncate (q : ℚ) : ℤ := if 0 ≤ q then ⌊q⌋ else ⌈q⌉

/-- `compute_l_max` -/
def computeLMaxCap (cap : ℤ) (tasks : List Task) (m : ℕ) : Py ℤ := do
  let lMaxM ← getModeLMax m (·.virtualDeadline m) (tasks.filter (m ≤ ·.criticalityLevel))
  let lMaxMp ← getModeLMax (m + 1) (fun t => t.virtualDeadline (m + 1) - t.virtualDeadline m)
    (tasks.filter (m + 1 ≤ ·.criticalityLevel))
  .ok (if cap > 0 then min cap (truncate (max lMaxM lMaxMp)) else truncate (max lMaxM lMaxMp))

/-- The cap of `compute_l_max` in `tune_mode` -/
def lMaxCap : ℤ := 10 ^ 6

def computeLMax (tasks : List Task) (m : ℕ) : Py ℤ := computeLMaxCap lMaxCap tasks m

/-- What the tuning loop works on: the tasks, the places of
    `tuning_candidates`, and `mods` with the last one first. -/
structure TuneState where
  allCandidates : List Task
  tuningCandidates : List ℕ
  mods : List ℕ

/-- How one pass over the lengths ends: no length is overloaded, tuning fails,
    or a virtual deadline has changed. -/
inductive Scan where
  | unchanged
  | fail
  | changed (s : TuneState)

/-- The candidate whose demand grows most at `l` -/
def pickTarget (tasks : List Task) (mPrime : ℕ) (l : ℤ) : List ℕ → ℕ → ℤ → Py ℕ
  | [], target, _ => .ok target
  | i :: is, target, maxDelta =>
    match tasks[i]? with
    | none => .error .index
    | some t => do
      let a ← dbf t mPrime l
      let b ← dbf t mPrime (l - 1)
      if a - b > maxDelta then pickTarget tasks mPrime l is i (a - b)
      else pickTarget tasks mPrime l is target maxDelta

/-- `list.remove` -/
def remove (i : ℕ) (places : List ℕ) : Py (List ℕ) :=
  if i ∈ places then .ok (places.erase i) else .error .value

/-- The task at place `i` is no candidate any more once its deadline is down to
    its execution time. -/
def removeTight (tasks : List Task) (m i : ℕ) (places : List ℕ) : Py (List ℕ) :=
  match tasks[i]? with
  | none => .error .index
  | some t => if t.virtualDeadline m = t.wcet m then remove i places else .ok places

/-- The test of mode 0 in itself, for the lowest level alone -/
def startOverloaded (m : ℕ) (tasks : List Task) (l : ℤ) : Py Bool :=
  if m = 0 then do
    let sum ← sumDbf tasks 0 l
    .ok (decide (sum > l))
  else .ok false

/-- The loop over `range(0, l_max + 1)`, from `l` on -/
def scan (m : ℕ) (s : TuneState) : ℕ → ℤ → Py Scan
  | 0, _ => .ok .unchanged
  | k + 1, l => do
    let overloaded ← startOverloaded m s.allCandidates l
    if overloaded then
      match s.mods with
      | [] => .ok .fail
      | i :: mods => do
        let tuning ← remove i
          (if i ∈ s.tuningCandidates then s.tuningCandidates else s.tuningCandidates ++ [i])
        .ok (.changed ⟨s.allCandidates.modify i (Task.shift 0 1), tuning, mods⟩)
    else
      let sum ← sumDbf s.allCandidates (m + 1) l
      if sum > l then
        match s.tuningCandidates with
        | [] => .ok .fail
        | i :: _ =>
          let target ← pickTarget s.allCandidates (m + 1) l s.tuningCandidates i 0
          let tasks := s.allCandidates.modify target (Task.shift m (-1))
          let tuning ← removeTight tasks m target s.tuningCandidates
          .ok (.changed ⟨tasks, tuning, target :: s.mods⟩)
      else scan m s k (l + 1)

/-- `while changed` -/
def tuneLoop (m : ℕ) : ℕ → TuneState → Py (Bool × List Task)
  | 0, _ => .error .fuel
  | fuel + 1, s => do
    let lMax ← computeLMax s.allCandidates m
    match ← scan m s (lMax + 1).toNat 0 with
    | .unchanged => .ok (true, s.allCandidates)
    | .fail => .ok (false, s.allCandidates)
    | .changed s => tuneLoop m fuel s

/-- The loop that brings the deadlines of mode `m` below those of the next one;
    `none` when a task has no time left. -/
def clampDeadlines (m : ℕ) : List ℕ → List Task → List ℕ → Py (List Task × Option (List ℕ))
  | [], tasks, tuning => .ok (tasks, some tuning)
  | i :: is, tasks, tuning =>
    match tasks[i]? with
    | none => .error .index
    | some t =>
      let d := min (t.virtualDeadline m) (t.virtualDeadline (m + 1))
      if d < t.wcet m then .ok (tasks, none)
      else do
        let tasks := tasks.modify i (Task.setDeadline m d)
        let tuning ← removeTight tasks m i tuning
        clampDeadlines m is tasks tuning

/-- The places of the tasks that go on after mode `critNum` -/
def initialCandidates (allCandidates : List Task) (critNum : ℕ) : List ℕ :=
  (List.range allCandidates.length).filter fun i =>
    allCandidates[i]?.any fun t => critNum < t.criticalityLevel

/-- `tune_mode` for the tasks of a core and the new one -/
def tuneMode (cfg : SysConfig) (fuel : ℕ) (allCandidates : List Task) (critNum : ℕ) :
    Py (Bool × List Task) :=
  if critNum + 1 = cfg.maxLevels then .ok (true, allCandidates)
  else if initialCandidates allCandidates critNum = [] then .ok (true, allCandidates)
  else do
    let (tasks, tuning) ← clampDeadlines critNum (initialCandidates allCandidates critNum) allCandidates
      (initialCandidates allCandidates critNum)
    match tuning with
    | none => .ok (false, tasks)
    | some tuning => tuneLoop critNum fuel ⟨tasks, tuning, []⟩

/-! ## `tune_system` -/

/-- `TaskType` -/
inductive TaskType where
  | primary
  | replica
deriving DecidableEq, Repr

structure Core where
  id : ℕ
  processorId : ℕ
  assignedPrimaries : List Task
  assignedReplicas : List Task
  utilization : String → ℚ

namespace Core

def new (id processorId : ℕ) : Core := ⟨id, processorId, [], [], fun _ => 0⟩

/-- The new task does not fit at a level that it goes up to. -/
def overloaded (cfg : SysConfig) (core : Core) (task : Task) (level : String) (critNum : ℕ) :
    Py Bool :=
  if task.criticalityLevel ≥ critNum then do
    let u ← task.getUtilization cfg level
    .ok (decide (core.utilization level + u > 1))
  else .ok false

/-- The loop over the levels -/
def tuneLevels (cfg : SysConfig) (fuel : ℕ) (core : Core) (task : Task) :
    List (String × ℕ) → List Task → Py (Bool × List Task)
  | [], tasks => .ok (true, tasks)
  | (level, critNum) :: levels, tasks => do
    let overloaded ← core.overloaded cfg task level critNum
    if overloaded then .ok (false, tasks)
    else
      let (success, tasks) ← tuneMode cfg fuel tasks critNum
      if success then tuneLevels cfg fuel core task levels tasks else .ok (false, tasks)

/-- Give the tasks back the virtual deadlines recorded under their ids; of two
    records with one id the later one counts. -/
def restoreDeadlines (original tasks : List Task) : List Task :=
  tasks.map fun t =>
    match original.reverse.find? (·.id == t.id) with
    | none => t
    | some o => { t with virtualDeadline := o.virtualDeadline }

/-- The core and the new task, with the tasks as tuned -/
def put (core : Core) (task : Task) (tasks : List Task) : Core × Task :=
  let primaries := core.assignedPrimaries.length
  let replicas := core.assignedReplicas.length
  ({ core with
      assignedPrimaries := tasks.take primaries
      assignedReplicas := (tasks.drop primaries).take replicas },
    tasks.getLast?.getD task)

def assign (core : Core) (task : Task) : TaskType → Core
  | .primary => { core with assignedPrimaries := core.assignedPrimaries ++ [task] }
  | .replica => { core with assignedReplicas := core.assignedReplicas ++ [task] }

def addUtilization (cfg : SysConfig) (task : Task) (utilization : String → ℚ) : Py (String → ℚ) :=
  cfg.levels.foldlM (fun utilization (levelName, critNum) =>
    if task.criticalityLevel ≥ critNum then do
      let u ← task.getUtilization cfg levelName
      .ok (Function.update utilization levelName (utilization levelName + u))
    else .ok utilization) utilization

/-- `tune_system`; in its body `task` is the last of the affected tasks, the new
    one. -/
def tuneSystem (cfg : SysConfig) (fuel : ℕ) (core : Core) (task : Task) (allocationType : TaskType)
    (commit : Bool) : Py (Bool × Core × Task) := do
  let affectedTasks := core.assignedPrimaries ++ core.assignedReplicas ++ [task]
  let (success, tasks) ← tuneLevels cfg fuel core task cfg.levelsHighToLow
    (affectedTasks.map Task.resetVirtualDeadlines)
  if success = false ∨ commit = false then
    .ok (success, core.put task (restoreDeadlines affectedTasks tasks))
  else
    let (core, task) := core.put task tasks
    let core := core.assign task allocationType
    let utilization ← addUtilization cfg task core.utilization
    .ok (true, { core with utilization := utilization }, task)

end Core

/-! ## What tuning leaves alone -/

/-- The task up to its virtual deadlines -/
def Task.base (t : Task) : Task := { t with virtualDeadline := fun _ => 0 }

@[simp] theorem Task.base_setDeadline (m : ℕ) (d : ℤ) (t : Task) : (t.setDeadline m d).base = t.base :=
  rfl

@[simp] theorem Task.base_shift (m : ℕ) (delta : ℤ) (t : Task) : (t.shift m delta).base = t.base := rfl

@[simp] theorem Task.base_reset (t : Task) : t.resetVirtualDeadlines.base = t.base := rfl

theorem Task.base_id {t t' : Task} (h : t.base = t'.base) : t.id = t'.id := by
  show t.base.id = t'.base.id
  rw [h]

/-- The tasks of a list up to their virtual deadlines -/
def bases (tasks : List Task) : List Task := tasks.map Task.base

theorem bases_modify {f : Task → Task} (hf : ∀ t, (f t).base = t.base) (tasks : List Task) (i : ℕ) :
    bases (tasks.modify i f) = bases tasks := by
  unfold bases
  induction tasks generalizing i with
  | nil => cases i <;> rfl
  | cons t tasks ih =>
    cases i with
    | zero => simp [hf]
    | succ i => simp [ih]

theorem bases_clampDeadlines {m : ℕ} {is tuning : List ℕ} {tasks tasks' : List Task}
    {r : Option (List ℕ)} (h : clampDeadlines m is tasks tuning = .ok (tasks', r)) :
    bases tasks' = bases tasks := by
  induction is generalizing tasks tuning with
  | nil =>
    cases h
    rfl
  | cons i is ih =>
    unfold clampDeadlines at h
    split at h
    · cases h
    · simp only at h
      split_ifs at h
      · cases h
        rfl
      · obtain ⟨tuning', -, h⟩ := Except.bind_eq_ok.1 h
        rw [ih h, bases_modify (Task.base_setDeadline m _)]

theorem bases_scan {m k : ℕ} {s s' : TuneState} {l : ℤ} (h : scan m s k l = .ok (.changed s')) :
    bases s'.allCandidates = bases s.allCandidates := by
  induction k generalizing l with
  | zero => cases h
  | succ k ih =>
    rw [scan] at h
    obtain ⟨overloaded, -, h⟩ := Except.bind_eq_ok.1 h
    cases overloaded with
    | true =>
      simp only [if_true] at h
      split at h
      · cases h
      · obtain ⟨tuning, -, h⟩ := Except.bind_eq_ok.1 h
        cases h
        exact bases_modify (Task.base_shift 0 1) _ _
    | false =>
      simp only [Bool.false_eq_true, if_false] at h
      obtain ⟨sum, -, h⟩ := Except.bind_eq_ok.1 h
      split_ifs at h
      · split at h
        · cases h
        · obtain ⟨target, -, h⟩ := Except.bind_eq_ok.1 h
          obtain ⟨tuning, -, h⟩ := Except.bind_eq_ok.1 h
          cases h
          exact bases_modify (Task.base_shift m (-1)) _ _
      · exact ih h

theorem bases_tuneLoop {m fuel : ℕ} {s : TuneState} {b : Bool} {tasks : List Task}
    (h : tuneLoop m fuel s = .ok (b, tasks)) : bases tasks = bases s.allCandidates := by
  induction fuel generalizing s with
  | zero => cases h
  | succ fuel ih =>
    obtain ⟨lMax, -, h⟩ := Except.bind_eq_ok.1 h
    obtain ⟨r, hr, h⟩ := Except.bind_eq_ok.1 h
    cases r with
    | unchanged | fail =>
      cases h
      rfl
    | changed s' => rw [ih h, bases_scan hr]

theorem bases_tuneMode {cfg : SysConfig} {fuel critNum : ℕ} {tasks tasks' : List Task} {b : Bool}
    (h : tuneMode cfg fuel tasks critNum = .ok (b, tasks')) : bases tasks' = bases tasks := by
  unfold tuneMode at h
  split_ifs at h
  · cases h
    rfl
  · cases h
    rfl
  · obtain ⟨⟨tasks₁, tuning⟩, hc, h⟩ := Except.bind_eq_ok.1 h
    have hb := bases_clampDeadlines hc
    cases tuning with
    | none =>
      cases h
      exact hb
    | some tuning => rw [bases_tuneLoop h, hb]

namespace Core

theorem bases_tuneLevels {cfg : SysConfig} {fuel : ℕ} {core : Core} {task : Task}
    {levels : List (String × ℕ)} {tasks tasks' : List Task} {b : Bool}
    (h : tuneLevels cfg fuel core task levels tasks = .ok (b, tasks')) :
    bases tasks' = bases tasks := by
  induction levels generalizing tasks with
  | nil =>
    cases h
    rfl
  | cons x levels ih =>
    obtain ⟨level, critNum⟩ := x
    rw [tuneLevels] at h
    obtain ⟨overloaded, -, h⟩ := Except.bind_eq_ok.1 h
    cases overloaded with
    | true =>
      cases h
      rfl
    | false =>
      simp only [Bool.false_eq_true, if_false] at h
      obtain ⟨⟨success, tasks₁⟩, hm, h⟩ := Except.bind_eq_ok.1 h
      have hb := bases_tuneMode hm
      cases success with
      | true => rw [ih h, hb]
      | false =>
        cases h
        exact hb

theorem bases_restoreDeadlines (original tasks : List Task) :
    bases (restoreDeadlines original tasks) = bases tasks := by
  unfold bases restoreDeadlines
  rw [List.map_map]
  refine List.map_congr_left fun t _ => ?_
  dsimp only [Function.comp]
  split <;> rfl

/-- Up to virtual deadlines the core has the tasks it had, and the new task is
    what it was. -/
theorem put_spec {core : Core} {task : Task} {tasks : List Task}
    (h : bases tasks = bases (core.assignedPrimaries ++ core.assignedReplicas ++ [task])) :
    bases (core.put task tasks).1.assignedPrimaries = bases core.assignedPrimaries ∧
      bases (core.put task tasks).1.assignedReplicas = bases core.assignedReplicas ∧
      (core.put task tasks).2.base = task.base := by
  have hp : (bases core.assignedPrimaries).length = core.assignedPrimaries.length := List.length_map _
  have hr : (bases core.assignedReplicas).length = core.assignedReplicas.length := List.length_map _
  have h' : tasks.map Task.base =
      bases core.assignedPrimaries ++ (bases core.assignedReplicas ++ [task.base]) := by
    rw [show tasks.map Task.base = bases tasks from rfl, h]
    simp [bases]
  refine ⟨?_, ?_, ?_⟩
  · show (tasks.take _).map Task.base = _
    rw [List.map_take, h', ← hp, List.take_left']
    rfl
  · show ((tasks.drop _).take _).map Task.base = _
    rw [List.map_take, List.map_drop, h', ← hp, List.drop_left' rfl, ← hr, List.take_left' rfl]
  · show (tasks.getLast?.getD task).base = _
    have hlast : (tasks.map Task.base).getLast? = some task.base := by
      rw [h', ← List.append_assoc, List.getLast?_append]
      rfl
    rw [List.getLast?_map] at hlast
    obtain ⟨t, ht, hb⟩ := Option.map_eq_some_iff.1 hlast
    rw [ht]
    exact hb

/-- **What `tune_system` does to the tasks.** -/
theorem tuneSystem_spec {cfg : SysConfig} {fuel : ℕ} {core core' : Core} {task task' : Task}
    {allocationType : TaskType} {b : Bool}
    (h : core.tuneSystem cfg fuel task allocationType true = .ok (b, core', task')) :
    core'.id = core.id ∧ task'.base = task.base ∧
      bases core'.assignedPrimaries = bases core.assignedPrimaries ++
        (if b = true ∧ allocationType = .primary then [task.base] else []) ∧
      bases core'.assignedReplicas = bases core.assignedReplicas ++
        (if b = true ∧ allocationType = .replica then [task.base] else []) := by
  obtain ⟨⟨success, tasks⟩, ht, h⟩ := Except.bind_eq_ok.1 h
  have hb : bases tasks = bases (core.assignedPrimaries ++ core.assignedReplicas ++ [task]) := by
    rw [bases_tuneLevels ht]
    unfold bases
    rw [List.map_map]
    rfl
  cases success with
  | false =>
    simp only [true_or, if_true] at h
    have hr := (bases_restoreDeadlines
      (core.assignedPrimaries ++ core.assignedReplicas ++ [task]) tasks).trans hb
    obtain ⟨h1, h2, h3⟩ := put_spec hr
    cases h
    refine ⟨rfl, h3, ?_, ?_⟩
    · rw [if_neg (by simp), List.append_nil]
      exact h1
    · rw [if_neg (by simp), List.append_nil]
      exact h2
  | true =>
    simp only [reduceCtorEq, or_self, if_false] at h
    obtain ⟨h1, h2, h3⟩ := put_spec hb
    obtain ⟨utilization, -, h⟩ := Except.bind_eq_ok.1 h
    cases h
    have h3' : [(core.put task tasks).2].map Task.base = [task.base] := by rw [← h3]; rfl
    cases allocationType with
    | primary =>
      refine ⟨rfl, h3, ?_, by simp [← h2, assign]⟩
      show ((core.put task tasks).1.assignedPrimaries ++ _).map Task.base = _
      rw [List.map_append, h3', ← h1]
      rfl
    | replica =>
      refine ⟨rfl, h3, by simp [← h1, assign], ?_⟩
      show ((core.put task tasks).1.assignedReplicas ++ _).map Task.base = _
      rw [List.map_append, h3', ← h2]
      rfl

/-! ## Undoing -/

/-- A record is found under its id. -/
theorem find_original {original : List Task} (hn : (original.map Task.id).Nodup) {t o : Task}
    (ho : o ∈ original) (hid : o.id = t.id) : original.reverse.find? (·.id == t.id) = some o := by
  cases hf : original.reverse.find? (·.id == t.id) with
  | none =>
    have hno := List.find?_eq_none.1 hf o (List.mem_reverse.2 ho)
    simp [hid] at hno
  | some x =>
    have hx : x ∈ original := List.mem_reverse.1 (List.mem_of_find?_eq_some hf)
    have hxid : x.id = t.id := by simpa using List.find?_some hf
    rw [List.inj_on_of_nodup_map hn hx ho (hxid.trans hid.symm)]

/-- Tuning is undone. -/
theorem restoreDeadlines_eq {original tasks : List Task} (hn : (original.map Task.id).Nodup)
    (hb : bases tasks = bases original) : restoreDeadlines original tasks = original := by
  have go : ∀ ts os : List Task, bases ts = bases os → (∀ o ∈ os, o ∈ original) →
      restoreDeadlines original ts = os := by
    intro ts
    induction ts with
    | nil =>
      intro os hb _
      cases os with
      | nil => rfl
      | cons o os => cases hb
    | cons t ts ih =>
      intro os hb hos
      cases os with
      | nil => cases hb
      | cons o os =>
        obtain ⟨hto, hb⟩ := List.cons.inj hb
        have hfind := find_original hn (hos o List.mem_cons_self) (Task.base_id hto).symm
        have hrest := ih os hb fun o ho => hos o (List.mem_cons_of_mem _ ho)
        unfold restoreDeadlines at hrest ⊢
        rw [List.map_cons, hrest, hfind]
        have hsame : ({ t with virtualDeadline := o.virtualDeadline } : Task) = o := by
          show ({ t.base with virtualDeadline := o.virtualDeadline } : Task) = o
          rw [hto]
          rfl
        rw [← hsame]
  exact go tasks original hb fun _ ho => ho

/-- The tasks of the core and the new one put back are the core and the new one. -/
theorem put_affected (core : Core) (task : Task) :
    core.put task (core.assignedPrimaries ++ core.assignedReplicas ++ [task]) = (core, task) := by
  unfold put
  simp only
  rw [List.append_assoc, List.take_left, List.drop_left, List.take_left, ← List.append_assoc,
    List.getLast?_append]
  rfl

/-- The utilization of a task at a level that it goes up to -/
def utilizationShare (task : Task) (critNum : ℕ) : ℚ :=
  if critNum ≤ task.criticalityLevel then task.wcet critNum / task.period else 0

theorem lookup_of_mem {levels : List (String × ℕ)} (hn : (levels.map Prod.fst).Nodup)
    {level : String} {critNum : ℕ} (h : (level, critNum) ∈ levels) :
    levels.lookup level = some critNum := by
  induction levels with
  | nil => cases h
  | cons x levels ih =>
    obtain ⟨name, num⟩ := x
    rw [List.map_cons, List.nodup_cons] at hn
    rcases List.mem_cons.1 h with heq | htail
    · cases heq
      exact List.lookup_cons_self
    · have hne : level ≠ name := by
        rintro rfl
        exact hn.1 (List.mem_map.2 ⟨_, htail, rfl⟩)
      rw [List.lookup_cons, beq_false_of_ne hne]
      exact ih hn.2 htail

theorem addUtilization_spec {cfg : SysConfig} {task : Task} {utilization utilization' : String → ℚ}
    (h : addUtilization cfg task utilization = .ok utilization') :
    (∀ level critNum, (level, critNum) ∈ cfg.levels →
      utilization' level = utilization level + utilizationShare task critNum) ∧
    ∀ level, level ∉ cfg.levels.map Prod.fst → utilization' level = utilization level := by
  -- the levels handled one by one; `ls` are those still to handle
  have go : ∀ (ls : List (String × ℕ)) (u : String → ℚ), (∀ x ∈ ls, x ∈ cfg.levels) →
      (ls.map Prod.fst).Nodup →
      ls.foldlM (fun utilization (levelName, critNum) =>
        if task.criticalityLevel ≥ critNum then do
          let u ← task.getUtilization cfg levelName
          Except.ok (Function.update utilization levelName (utilization levelName + u))
        else Except.ok utilization) u = .ok utilization' →
      (∀ level critNum, (level, critNum) ∈ ls →
        utilization' level = u level + utilizationShare task critNum) ∧
      ∀ level, level ∉ ls.map Prod.fst → utilization' level = u level := by
    intro ls
    induction ls with
    | nil =>
      rintro u - - h
      cases h
      exact ⟨nofun, fun _ _ => rfl⟩
    | cons x ls ih =>
      obtain ⟨name, num⟩ := x
      intro u hmem hn h
      rw [List.map_cons, List.nodup_cons] at hn
      rw [List.foldlM_cons] at h
      obtain ⟨u₁, hu₁, h⟩ := Except.bind_eq_ok.1 h
      have hstep : u₁ name = u name + utilizationShare task num ∧ ∀ l ≠ name, u₁ l = u l := by
        simp only at hu₁
        unfold utilizationShare
        by_cases hc : num ≤ task.criticalityLevel
        · rw [if_pos hc] at hu₁ ⊢
          unfold Task.getUtilization at hu₁
          rw [lookup_of_mem cfg.nodup (hmem _ List.mem_cons_self)] at hu₁
          obtain ⟨v, hv, hu₁⟩ := Except.bind_eq_ok.1 hu₁
          simp only at hv
          split_ifs at hv
          cases hv
          cases hu₁
          exact ⟨Function.update_self .., fun l hl => Function.update_of_ne hl ..⟩
        · rw [if_neg hc] at hu₁ ⊢
          cases hu₁
          exact ⟨(add_zero _).symm, fun _ _ => rfl⟩
      obtain ⟨h1, h2⟩ := ih u₁ (fun y hy => hmem y (List.mem_cons_of_mem _ hy)) hn.2 h
      constructor
      · intro level critNum hl
        rcases List.mem_cons.1 hl with heq | htail
        · cases heq
          rw [h2 name hn.1, hstep.1]
        · rw [h1 level critNum htail, hstep.2 level]
          rintro rfl
          exact hn.1 (List.mem_map.2 ⟨_, htail, rfl⟩)
      · intro level hl
        rw [List.map_cons, List.mem_cons, not_or] at hl
        rw [h2 level hl.2, hstep.2 level hl.1]
  exact go cfg.levels utilization (fun _ hx => hx) cfg.nodup h

/-- **`tune_system` is a transaction.** -/
theorem tuneSystem_transaction {cfg : SysConfig} {fuel : ℕ} {core core' : Core} {task task' : Task}
    {allocationType : TaskType} {commit b : Bool}
    (hn : ((core.assignedPrimaries ++ core.assignedReplicas ++ [task]).map Task.id).Nodup)
    (h : core.tuneSystem cfg fuel task allocationType commit = .ok (b, core', task')) :
    (b = false ∨ commit = false → core' = core ∧ task' = task) ∧
    (b = true → commit = true →
      (∃ primaries replicas, bases primaries = bases core.assignedPrimaries ∧
        bases replicas = bases core.assignedReplicas ∧ task'.base = task.base ∧
        core'.assignedPrimaries = primaries ++ (if allocationType = .primary then [task'] else []) ∧
        core'.assignedReplicas = replicas ++ (if allocationType = .replica then [task'] else [])) ∧
      (∀ level critNum, (level, critNum) ∈ cfg.levels →
        core'.utilization level = core.utilization level +
          (if critNum ≤ task.criticalityLevel then (task.wcet critNum : ℚ) / task.period else 0)) ∧
      ∀ level, level ∉ cfg.levels.map Prod.fst → core'.utilization level = core.utilization level) := by
  obtain ⟨⟨success, tasks⟩, ht, h⟩ := Except.bind_eq_ok.1 h
  have hb : bases tasks = bases (core.assignedPrimaries ++ core.assignedReplicas ++ [task]) := by
    rw [bases_tuneLevels ht]
    unfold bases
    rw [List.map_map]
    rfl
  simp only at h
  by_cases hc : success = false ∨ commit = false
  · rw [if_pos hc, restoreDeadlines_eq hn hb, put_affected] at h
    cases h
    refine ⟨fun _ => ⟨rfl, rfl⟩, fun hs hcommit => ?_⟩
    rcases hc with hc | hc
    · rw [hc] at hs
      cases hs
    · rw [hc] at hcommit
      cases hcommit
  · rw [if_neg hc] at h
    obtain ⟨h1, h2, h3⟩ := put_spec hb
    obtain ⟨utilization, hu, h⟩ := Except.bind_eq_ok.1 h
    cases h
    rw [not_or] at hc
    refine ⟨?_, fun _ _ => ⟨?_, ?_⟩⟩
    · rintro (hf | hf)
      · cases hf
      · exact absurd hf hc.2
    · refine ⟨_, _, h1, h2, h3, ?_, ?_⟩
      · cases allocationType
        · rfl
        · exact (List.append_nil _).symm
      · cases allocationType
        · exact (List.append_nil _).symm
        · rfl
    · have hspec := addUtilization_spec hu
      have hu₀ : ((core.put task tasks).1.assign (core.put task tasks).2 allocationType).utilization =
          core.utilization := by cases allocationType <;> rfl
      have hshare : ∀ critNum, utilizationShare (core.put task tasks).2 critNum =
          utilizationShare task critNum := by
        intro critNum
        show utilizationShare (core.put task tasks).2.base critNum = _
        rw [h3]
        rfl
      rw [hu₀] at hspec
      refine ⟨fun level critNum hl => ?_, hspec.2⟩
      have := hspec.1 level critNum hl
      rw [hshare] at this
      exact this

end Core

/-- One level, and no mode above it -/
def oneLevel : SysConfig := ⟨1, 1, 1, [("QM", 0)], by decide⟩

def twoLevels : SysConfig := ⟨1, 1, 2, [("QM", 0), ("HI", 1)], by decide⟩

def halfTask : Task := ⟨1, 10, 10, fun _ => 10, "QM", fun _ => 5, 0, 0, [1 / 2]⟩

/-- A task of both levels that has been tuned at the lower one -/
def tunedTask : Task :=
  ⟨1, 10, 10, fun m => if m = 0 then 7 else 10, "HI", fun _ => 5, 0, 1, [1 / 2, 1 / 2]⟩

/-- A task whose deadline is shorter than its execution time -/
def hastyTask : Task := ⟨2, 100, 3, fun _ => 3, "HI", fun _ => 4, 0, 1, [1 / 25, 1 / 25]⟩

namespace Core

/-- The first core with `halfTask` on it -/
def halfCore : Core :=
  ⟨0, 0, [halfTask], [], Function.update (fun _ => 0) "QM" (0 + ((5 : ℤ) : ℚ) / ((10 : ℤ) : ℚ))⟩

theorem tuneSystem_half :
    (new 0 0).tuneSystem oneLevel 0 halfTask .primary true = .ok (true, halfCore, halfTask) := by
  have hfits : (new 0 0).overloaded oneLevel halfTask "QM" 0 = .ok false := by
    have hu : halfTask.getUtilization oneLevel "QM" = .ok (1 / 2) := by
      show (Except.ok (((5 : ℤ) : ℚ) / ((10 : ℤ) : ℚ)) : Py ℚ) = _
      norm_num
    unfold overloaded
    rw [hu]
    show (Except.ok (decide ((0 : ℚ) + 1 / 2 > 1)) : Py Bool) = _
    norm_num
  have hl : oneLevel.levelsHighToLow = [("QM", 0)] := rfl
  unfold tuneSystem
  simp only [hl, tuneLevels, hfits]
  rfl

/-- A core with `tunedTask` -/
def tunedCore : Core := ⟨0, 0, [tunedTask], [], fun _ => 1 / 2⟩

/-- There is room for `hastyTask` at both levels, and tuning the lower one fails
    after the deadlines have been reset. -/
theorem tuneSystem_hasty : ∃ core' task',
    tunedCore.tuneSystem twoLevels 0 hastyTask .replica true = .ok (false, core', task') := by
  have hu : ∀ level k, twoLevels.levels.lookup level = some k →
      tunedCore.overloaded twoLevels hastyTask level k = .ok false := by
    intro level k hk
    have hget : hastyTask.getUtilization twoLevels level = .ok (1 / 25) := by
      unfold Task.getUtilization
      rw [hk]
      show (Except.ok (((4 : ℤ) : ℚ) / ((100 : ℤ) : ℚ)) : Py ℚ) = _
      norm_num
    unfold overloaded
    split_ifs
    · rw [hget]
      show (Except.ok (decide ((1 : ℚ) / 2 + 1 / 25 > 1)) : Py Bool) = _
      norm_num
    · rfl
  have hl : twoLevels.levelsHighToLow = [("HI", 1), ("QM", 0)] := rfl
  obtain ⟨tasks, ht⟩ : ∃ tasks, tuneLevels twoLevels 0 tunedCore hastyTask twoLevels.levelsHighToLow
      ([tunedTask, hastyTask].map Task.resetVirtualDeadlines) = .ok (false, tasks) := by
    simp only [hl, tuneLevels, hu "HI" 1 rfl, hu "QM" 0 rfl]
    exact ⟨_, rfl⟩
  let restored := tunedCore.put hastyTask (restoreDeadlines [tunedTask, hastyTask] tasks)
  refine ⟨restored.1, restored.2, ?_⟩
  have haffected : tunedCore.assignedPrimaries ++ tunedCore.assignedReplicas ++ [hastyTask] =
      [tunedTask, hastyTask] := rfl
  unfold tuneSystem
  simp only [haffected, ht]
  rfl

/-- `halfTask` is committed to an empty core; `hastyTask` fails on `tunedCore`,
    whose task gets its tuned deadline back. -/
theorem tuneSystem_transaction_half : halfCore.utilization "QM" = 1 / 2 ∧
    ∃ core' task', tunedCore.tuneSystem twoLevels 0 hastyTask .replica true = .ok (false, core', task') ∧
      core' = tunedCore ∧ task' = hastyTask ∧
      core'.assignedPrimaries.map (·.virtualDeadline 0) = [7] := by
  have hgrows := ((tuneSystem_transaction (by decide) tuneSystem_half).2 rfl rfl).2.1 "QM" 0
    List.mem_cons_self
  obtain ⟨core', task', hcall⟩ := tuneSystem_hasty
  obtain ⟨hcore, htask⟩ := (tuneSystem_transaction (by decide) hcall).1 (.inl rfl)
  refine ⟨?_, core', task', hcall, hcore, htask, ?_⟩
  · rw [hgrows, if_pos (Nat.zero_le _)]
    show (0 : ℚ) + ((5 : ℤ) : ℚ) / ((10 : ℤ) : ℚ) = 1 / 2
    norm_num
  · rw [hcore]
    rfl

end Core

end EeftSched.TaskAllocator

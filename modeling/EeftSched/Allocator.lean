/-
  The offline allocator (`Processor`, `Allocator` in `tools/task_allocator.py`).

  The tasks go to the cores of a growing number of processors: the primary of a
  task first, then its replicas, each by the next processor that takes it.  The
  objects on the cores are records, and each clone is on one core at most.

  * `Allocator.run`: the allocation of all tasks;
  * `Allocator.held`: the instances on the cores, by processor and core;
  * `placeFrom_spec`: an attempt that fails has left the instances as they
    were, one that succeeds has added one;
  * `run_placement`: each task has its primary and its replicas on processors
    of their own, and the cores hold nothing else.
-/
import EeftSched.Tuning
import Mathlib.Data.List.Lex

namespace EeftSched.TaskAllocator

structure Processor where
  id : ℕ
  cores : List Core

namespace Processor

def new (cfg : SysConfig) (processorId : ℕ) : Processor :=
  ⟨processorId, (List.range cfg.numCoresPerProcessor).map fun coreId => .new coreId processorId⟩

def containsTaskPrimary (proc : Processor) (taskId : ℕ) : Bool :=
  proc.cores.any fun core => core.assignedPrimaries.any fun t => t.id == taskId

def containsTaskReplica (proc : Processor) (taskId : ℕ) : Bool :=
  proc.cores.any fun core => core.assignedReplicas.any fun t => t.id == taskId

end Processor

structure Allocator where
  processors : List Processor
  numProcsEstimate : ℕ
  nextProcIndex : ℕ

namespace Allocator

/-- `total_utilization` of `_calculate_num_proc_estimate` -/
def totalUtilization (tasks : List Task) : Py ℚ :=
  tasks.foldlM (fun total task =>
    match task.utilizationTuple[task.criticalityLevel]? with
    | none => .error .index
    | some u => .ok (total + u * (task.replicas + 1))) 0

/-- `_calculate_num_proc_estimate` -/
def calculateNumProcEstimate (cfg : SysConfig) (tasks : List Task) : Py ℕ := do
  let total ← totalUtilization tasks
  let maxReplicas := (tasks.map Task.replicas).foldl max 0
  if cfg.numCoresPerProcessor = 0 then .error .zeroDivision
  else
    let numProcsEst := max ⌈total / cfg.numCoresPerProcessor⌉ (maxReplicas + 1 : ℤ)
    if numProcsEst > cfg.numProcessors then
      .error (.raised "Initial processor estimate exceeds available processors.")
    else .ok numProcsEst.toNat

/-- `__init__` -/
def new (cfg : SysConfig) (tasks : List Task) : Py Allocator := do
  let numProcsEstimate ← calculateNumProcEstimate cfg tasks
  .ok ⟨(List.range cfg.numProcessors).map (Processor.new cfg), numProcsEstimate, 0⟩

/-- `grouped_tasks`, by level -/
def groupTasks (cfg : SysConfig) : List Task → (String → List Task) → Py (String → List Task)
  | [], grouped => .ok grouped
  | task :: tasks, grouped =>
    if (cfg.levels.lookup task.criticalityStr).isNone then .error .key
    else groupTasks cfg tasks
      (Function.update grouped task.criticalityStr (grouped task.criticalityStr ++ [task]))

/-- `_sort_tasks` -/
def sortTasks (cfg : SysConfig) (tasks : List Task) : Py (List (List Task)) := do
  let grouped ← groupTasks cfg tasks fun _ => []
  .ok (cfg.levelsHighToLow.map fun level =>
    (grouped level.1).insertionSort fun a b => b.utilizationTuple ≤ a.utilizationTuple)

def findProcessorOfPrimary (a : Allocator) (taskId : ℕ) : Option Processor :=
  a.processors.find? fun proc => proc.containsTaskPrimary taskId

/-- The loop over the cores of a processor, those that are not safe left out -/
def tryCores (cfg : SysConfig) (fuel : ℕ) (type : TaskType) (isSafe : Core → Bool) :
    List Core → Task → Py (Bool × List Core × Task)
  | [], task => .ok (false, [], task)
  | core :: cores, task =>
    if isSafe core then do
      let (success, core, task) ← core.tuneSystem cfg fuel task type true
      if success then .ok (true, core :: cores, task)
      else
        let (success, cores, task) ← tryCores cfg fuel type isSafe cores task
        .ok (success, core :: cores, task)
    else do
      let (success, cores, task) ← tryCores cfg fuel type isSafe cores task
      .ok (success, core :: cores, task)

/-- The loop over the processors from `start` on, those to skip left out -/
def placeFrom (cfg : SysConfig) (fuel : ℕ) (type : TaskType) (skip : Processor → Bool)
    (isSafe : Core → Bool) (start : ℕ) : List ℕ → Allocator → Task → Py (Bool × Allocator × Task)
  | [], a, task => .ok (false, a, task)
  | offset :: offsets, a, task =>
    let procId := (start + offset) % a.numProcsEstimate
    match a.processors[procId]? with
    | none => .error .index
    | some proc =>
      if skip proc then placeFrom cfg fuel type skip isSafe start offsets a task
      else do
        let (success, cores, task) ← tryCores cfg fuel type isSafe proc.cores task
        let a := { a with processors := a.processors.set procId { proc with cores := cores } }
        if success then
          .ok (true, { a with nextProcIndex := (procId + 1) % a.numProcsEstimate }, task)
        else placeFrom cfg fuel type skip isSafe start offsets a task

def allocatePrimary (cfg : SysConfig) (fuel : ℕ) (a : Allocator) (task : Task) :
    Py (Bool × Allocator × Task) :=
  placeFrom cfg fuel .primary (fun _ => false) (fun _ => true) a.nextProcIndex
    (List.range a.numProcsEstimate) a task

/-- The processor of the primary is not touched meanwhile. -/
def allocateReplica (cfg : SysConfig) (fuel : ℕ) (a : Allocator) (task : Task) :
    Py (Bool × Allocator × Task) :=
  match a.findProcessorOfPrimary task.id with
  | none => .error (.raised s!"Cannot allocate replica for Task {task.id}, primary not found.")
  | some primaryProc =>
    placeFrom cfg fuel .replica
      (fun proc => proc.id == primaryProc.id || proc.containsTaskReplica task.id)
      (fun core => !(task.replicas == 1 &&
        core.assignedPrimaries.any fun other => primaryProc.containsTaskReplica other.id))
      a.nextProcIndex (List.range a.numProcsEstimate) a task

/-- `while not allocate(task)`; the estimate grows in each turn, so that there
    are `numProcessors + 1` turns at most. -/
def retry (cfg : SysConfig) (allocate : Allocator → Task → Py (Bool × Allocator × Task)) :
    ℕ → Allocator → Task → Py Allocator
  | 0, _, _ => .error .fuel
  | turns + 1, a, task => do
    let (success, a, task) ← allocate a task
    if success then .ok a
    else
      let a := { a with numProcsEstimate := a.numProcsEstimate + 1 }
      if a.numProcsEstimate > cfg.numProcessors then
        .error (.raised "Insufficient processors to allocate all tasks.")
      else retry cfg allocate turns a task

/-- One task of `allocate_tasks`; a clone has the values of the task. -/
def allocateTask (cfg : SysConfig) (fuel : ℕ) (a : Allocator) (task : Task) : Py Allocator := do
  let a ← retry cfg (allocatePrimary cfg fuel) (cfg.numProcessors + 1) a task
  (List.range task.replicas).foldlM
    (fun a _ => retry cfg (allocateReplica cfg fuel) (cfg.numProcessors + 1) a task) a

def allocateTasks (cfg : SysConfig) (fuel : ℕ) (a : Allocator) (taskset : List Task) : Py Allocator :=
  taskset.foldlM (allocateTask cfg fuel) a

def run (cfg : SysConfig) (fuel : ℕ) (tasks : List Task) (a : Allocator) : Py Allocator := do
  let sortedTasks ← sortTasks cfg tasks
  sortedTasks.foldlM (allocateTasks cfg fuel) a

end Allocator

/-! ## The instances on the cores -/

/-- A task object on a core -/
structure Instance where
  proc : ℕ
  core : ℕ
  type : TaskType
  task : Task

/-- The instance up to its virtual deadlines -/
def Instance.base (i : Instance) : Instance := { i with task := i.task.base }

def Core.held (proc : ℕ) (core : Core) : List Instance :=
  core.assignedPrimaries.map (⟨proc, core.id, .primary, ·⟩) ++
    core.assignedReplicas.map (⟨proc, core.id, .replica, ·⟩)

def Processor.held (proc : Processor) : List Instance := proc.cores.flatMap (Core.held proc.id)

def Allocator.held (a : Allocator) : List Instance := a.processors.flatMap Processor.held

/-- The instances of a kind of a task -/
def instances (held : List Instance) (type : TaskType) (taskId : ℕ) : List Instance :=
  held.filter fun i => i.type = type ∧ i.task.id = taskId

/-- A task has one primary and `k` replicas, on processors of their own. -/
structure Placed (held : List Instance) (taskId k : ℕ) : Prop where
  primary : (instances held .primary taskId).length = 1
  replicas : (instances held .replica taskId).length = k
  apart : ((instances held .primary taskId ++ instances held .replica taskId).map Instance.proc).Nodup

/-- Every task is placed, and nothing else is on a core. -/
structure Placement (tasks : List Task) (held : List Instance) : Prop where
  placed : ∀ t ∈ tasks, Placed held t.id t.replicas
  only : ∀ i ∈ held, ∃ t ∈ tasks, i.task.base = t.base

/-- A new instance of a task may be on processor `proc`. -/
def Apart (held : List Instance) (type : TaskType) (taskId proc : ℕ) : Prop :=
  type = .replica →
    (∀ i ∈ held, i.type = .replica → i.task.id = taskId → i.proc ≠ proc) ∧
      ∃ i ∈ held, i.type = .primary ∧ i.task.id = taskId ∧ i.proc ≠ proc

/-! ### Adding one -/

section
variable {held held' : List Instance} {i : Instance} {type : TaskType} {taskId k proc : ℕ}
  {tasks : List Task}

theorem mem_instances : i ∈ instances held type taskId ↔ i ∈ held ∧ i.type = type ∧ i.task.id = taskId := by
  rw [instances, List.mem_filter, decide_eq_true_iff]

theorem instances_perm (h : held.Perm held') (type : TaskType) (taskId : ℕ) :
    (instances held type taskId).Perm (instances held' type taskId) :=
  h.filter _

theorem instances_cons_self : instances (i :: held) i.type i.task.id = i :: instances held i.type i.task.id :=
  List.filter_cons_of_pos (decide_eq_true ⟨rfl, rfl⟩)

theorem instances_cons_ne (h : i.type ≠ type ∨ i.task.id ≠ taskId) :
    instances (i :: held) type taskId = instances held type taskId := by
  refine List.filter_cons_of_neg ?_
  rw [decide_eq_true_iff, not_and_or]
  exact h

theorem instances_base (held : List Instance) (type : TaskType) (taskId : ℕ) :
    instances (held.map Instance.base) type taskId = (instances held type taskId).map Instance.base := by
  rw [instances, List.filter_map]
  rfl

theorem Placed.perm (h : Placed held taskId k) (hp : held.Perm held') : Placed held' taskId k where
  primary := (instances_perm hp .primary taskId).length_eq ▸ h.primary
  replicas := (instances_perm hp .replica taskId).length_eq ▸ h.replicas
  apart := ((((instances_perm hp .primary taskId).append (instances_perm hp .replica taskId)).map _).nodup_iff).1
    h.apart

/-- Virtual deadlines do not matter. -/
theorem Placed.of_base (h : Placed (held.map Instance.base) taskId k) : Placed held taskId k := by
  obtain ⟨h1, h2, h3⟩ := h
  simp only [instances_base, List.length_map, ← List.map_append, List.map_map] at h1 h2 h3
  exact ⟨h1, h2, h3⟩

theorem Placed.other (h : Placed held taskId k) (hi : i.task.id ≠ taskId) : Placed (i :: held) taskId k := by
  refine ⟨?_, ?_, ?_⟩
  · rw [instances_cons_ne (.inr hi)]
    exact h.primary
  · rw [instances_cons_ne (.inr hi)]
    exact h.replicas
  · rw [instances_cons_ne (.inr hi), instances_cons_ne (.inr hi)]
    exact h.apart

/-- The first instance of a task -/
theorem Placed.first (hfresh : ∀ j ∈ held, j.task.id ≠ i.task.id) (ht : i.type = .primary) :
    Placed (i :: held) i.task.id 0 := by
  have hnone : ∀ type, instances held type i.task.id = [] := by
    intro type
    refine List.eq_nil_iff_forall_not_mem.2 fun j hj => ?_
    obtain ⟨hj, -, hid⟩ := mem_instances.1 hj
    exact hfresh j hj hid
  have hp : instances (i :: held) .primary i.task.id = [i] := by
    rw [← ht, instances_cons_self, hnone]
  have hr : instances (i :: held) .replica i.task.id = [] := by
    rw [instances_cons_ne (.inl (by rw [ht]; nofun)), hnone]
  refine ⟨by rw [hp]; rfl, by rw [hr]; rfl, ?_⟩
  rw [hp, hr]
  exact List.nodup_singleton _

/-- One more replica, apart from the others -/
theorem Placed.replica (h : Placed held i.task.id k) (ht : i.type = .replica)
    (ha : Apart held .replica i.task.id i.proc) : Placed (i :: held) i.task.id (k + 1) := by
  have hp : instances (i :: held) .primary i.task.id = instances held .primary i.task.id :=
    instances_cons_ne (.inl (by rw [ht]; nofun))
  have hr : instances (i :: held) .replica i.task.id = i :: instances held .replica i.task.id := by
    rw [← ht, instances_cons_self]
  obtain ⟨hreplicas, j, hj, hjt, hjid, hjp⟩ := ha rfl
  -- the primary is the one that is on another processor
  obtain ⟨j', hj'⟩ := List.length_eq_one_iff.1 h.primary
  have hjj : j = j' := by
    have hmem := mem_instances.2 ⟨hj, hjt, hjid⟩
    rw [hj'] at hmem
    exact List.mem_singleton.1 hmem
  refine ⟨by rw [hp]; exact h.primary, by rw [hr, List.length_cons, h.replicas], ?_⟩
  rw [hp, hr]
  have hmiddle : ((instances held .primary i.task.id ++ i :: instances held .replica i.task.id).map
      Instance.proc).Perm (i.proc :: (instances held .primary i.task.id ++
        instances held .replica i.task.id).map Instance.proc) :=
    List.perm_middle.map _
  refine hmiddle.nodup_iff.2 (List.nodup_cons.2 ⟨?_, h.apart⟩)
  rw [List.mem_map]
  rintro ⟨x, hx, hxp⟩
  rcases List.mem_append.1 hx with hx | hx
  · rw [hj', ← hjj] at hx
    rw [List.mem_singleton.1 hx] at hxp
    exact hjp hxp
  · obtain ⟨hx, hxt, hxid⟩ := mem_instances.1 hx
    exact hreplicas x hx hxt hxid hxp

end

/-! ## One attempt -/

/-- The instances up to virtual deadlines -/
def bare (held : List Instance) : List Instance := held.map Instance.base

/-- The instance that an attempt adds, if it succeeds -/
def added (success : Bool) (i : Instance) : List Instance := if success then [i] else []

section
variable {cfg : SysConfig} {fuel : ℕ} {type : TaskType} {isSafe : Core → Bool} {skip : Processor → Bool}
  {cores cores' : List Core} {task task' : Task} {success : Bool} {a a' : Allocator}

theorem Core.held_bare (proc : ℕ) (core : Core) : bare (core.held proc) =
    (bases core.assignedPrimaries).map (⟨proc, core.id, .primary, ·⟩) ++
      (bases core.assignedReplicas).map (⟨proc, core.id, .replica, ·⟩) := by
  unfold bare Core.held bases
  rw [List.map_append, List.map_map, List.map_map, List.map_map, List.map_map]
  rfl

theorem Core.tuneSystem_held {core core' : Core}
    (h : core.tuneSystem cfg fuel task type true = .ok (success, core', task')) (proc : ℕ) :
    task'.base = task.base ∧ (bare (core'.held proc)).Perm
      (added success ⟨proc, core.id, type, task.base⟩ ++ bare (core.held proc)) := by
  obtain ⟨hid, htask, hprimaries, hreplicas⟩ := tuneSystem_spec h
  refine ⟨htask, ?_⟩
  rw [Core.held_bare, Core.held_bare, hid, hprimaries, hreplicas]
  cases success with
  | false => simp [added]
  | true =>
    cases type with
    | primary =>
      simp only [added, if_true, true_and, reduceCtorEq, if_false, List.append_nil, List.map_append]
      exact (List.perm_append_comm.append_right _).trans (.of_eq (List.append_assoc ..))
    | replica =>
      simp only [added, if_true, true_and, reduceCtorEq, if_false, List.append_nil, List.map_append]
      rw [← List.append_assoc]
      exact List.perm_append_comm

/-- The cores of one processor: one of them has the instance, or all are as
    they were. -/
theorem Allocator.tryCores_spec (proc : ℕ) :
    ∀ {cores cores' : List Core} {task task' : Task} {success : Bool},
    tryCores cfg fuel type isSafe cores task = .ok (success, cores', task') →
    task'.base = task.base ∧ ∃ core, (bare (cores'.flatMap (Core.held proc))).Perm
      (added success ⟨proc, core, type, task.base⟩ ++ bare (cores.flatMap (Core.held proc)))
  | [], _, task, task', success, h => by
    cases h
    exact ⟨rfl, 0, .refl _⟩
  | core :: cores, cores', task, task', success, h => by
    -- what the rest of the loop does, after this core has become `core₁`
    have hrest : ∀ {core₁ : Core} {task₁ : Task}, task₁.base = task.base →
        (bare (core₁.held proc)).Perm (bare (core.held proc)) →
        (tryCores cfg fuel type isSafe cores task₁ >>= fun (success, cores, task) =>
          .ok (success, core₁ :: cores, task)) = Except.ok (success, cores', task') →
        task'.base = task.base ∧ ∃ c, (bare (cores'.flatMap (Core.held proc))).Perm
          (added success ⟨proc, c, type, task.base⟩ ++
            bare ((core :: cores).flatMap (Core.held proc))) := by
      intro core₁ task₁ htask hcore h
      obtain ⟨⟨success₁, cores₁, task₂⟩, h₁, h₂⟩ := Except.bind_eq_ok.1 h
      cases h₂
      obtain ⟨htask', c, hperm⟩ := tryCores_spec proc h₁
      refine ⟨htask'.trans htask, c, ?_⟩
      unfold bare at hcore hperm ⊢
      rw [List.flatMap_cons, List.flatMap_cons, List.map_append, List.map_append]
      rw [htask] at hperm
      refine (hcore.append hperm).trans ?_
      rw [← List.append_assoc, ← List.append_assoc]
      exact List.perm_append_comm.append_right _
    rw [tryCores] at h
    split_ifs at h with hsafe
    · obtain ⟨⟨success₁, core₁, task₁⟩, h₁, h⟩ := Except.bind_eq_ok.1 h
      obtain ⟨htask, hperm⟩ := Core.tuneSystem_held h₁ proc
      cases success₁ with
      | true =>
        cases h
        refine ⟨htask, core.id, ?_⟩
        unfold bare at hperm ⊢
        rw [List.flatMap_cons, List.flatMap_cons, List.map_append, List.map_append, ← List.append_assoc]
        exact hperm.append_right _
      | false => exact hrest htask hperm h
    · exact hrest rfl (.refl _) h

theorem Processor.held_set {processors : List Processor} {proc proc' : Processor} {i : ℕ} {new : List Instance}
    (hi : processors[i]? = some proc) (h : (bare proc'.held).Perm (new ++ bare proc.held)) :
    (bare ((processors.set i proc').flatMap held)).Perm (new ++ bare (processors.flatMap held)) := by
  obtain ⟨hlt, rfl⟩ := List.getElem?_eq_some_iff.1 hi
  have hsplit : processors.flatMap held = (processors.take i).flatMap held ++
      (processors[i].held ++ (processors.drop (i + 1)).flatMap held) := by
    conv_lhs => rw [← List.take_append_drop i processors, List.drop_eq_getElem_cons hlt]
    rw [List.flatMap_append, List.flatMap_cons]
  rw [List.set_eq_take_append_cons_drop, if_pos hlt, List.flatMap_append, List.flatMap_cons, hsplit]
  unfold bare at h ⊢
  simp only [List.map_append]
  refine ((h.append_right _).append_left _).trans ?_
  rw [List.append_assoc new]
  exact List.perm_append_comm_assoc ..

/-- The processors are those of the configuration. -/
def Allocator.Numbered (cfg : SysConfig) (a : Allocator) : Prop :=
  a.processors.map Processor.id = List.range cfg.numProcessors

/-- What an attempt to allocate a task does: an instance is added to a processor
    where it may be, or nothing has changed. -/
def Allocator.Attempt (cfg : SysConfig) (type : TaskType)
    (allocate : Allocator → Task → Py (Bool × Allocator × Task)) : Prop :=
  ∀ {a a' : Allocator} {task task' : Task} {success : Bool}, a.Numbered cfg →
    allocate a task = .ok (success, a', task') →
    a'.Numbered cfg ∧ task'.base = task.base ∧ ∃ proc core,
      (bare a'.held).Perm (added success ⟨proc, core, type, task.base⟩ ++ bare a.held) ∧
        (success = true → Apart (bare a.held) type task.id proc)

theorem Allocator.Numbered.set {i : ℕ} {proc : Processor} (h : a.Numbered cfg)
    (hi : a.processors[i]? = some proc) (cores : List Core) (next : ℕ) :
    Allocator.Numbered cfg
      ⟨a.processors.set i { proc with cores := cores }, a.numProcsEstimate, next⟩ := by
  show (a.processors.set i { proc with cores := cores }).map Processor.id = _
  rw [List.map_set]
  show (a.processors.map Processor.id).set i proc.id = _
  have hget : (a.processors.map Processor.id)[i]? = some proc.id := by
    rw [List.getElem?_map, hi]
    rfl
  obtain ⟨hlt, hget⟩ := List.getElem?_eq_some_iff.1 hget
  rw [← hget, List.set_getElem_self]
  exact h

/-- The loop over the processors, started with the instances `held` -/
theorem Allocator.placeFrom_spec {held : List Instance} {taskId start : ℕ}
    (hskip : ∀ a : Allocator, a.Numbered cfg → (bare a.held).Perm held → ∀ proc ∈ a.processors,
      skip proc = false → Apart held type taskId proc.id) :
    ∀ {offsets : List ℕ} {a a' : Allocator} {task task' : Task} {success : Bool}, a.Numbered cfg →
    (bare a.held).Perm held →
    placeFrom cfg fuel type skip isSafe start offsets a task = .ok (success, a', task') →
    a'.Numbered cfg ∧ task'.base = task.base ∧ ∃ proc core,
      (bare a'.held).Perm (added success ⟨proc, core, type, task.base⟩ ++ held) ∧
        (success = true → Apart held type taskId proc)
  | [], a, _, task, task', success, hn, hp, h => by
    cases h
    exact ⟨hn, rfl, 0, 0, hp, nofun⟩
  | offset :: offsets, a, a', task, task', success, hn, hp, h => by
    rw [placeFrom] at h
    simp only at h
    split at h
    · cases h
    next proc hproc =>
    split_ifs at h with hs
    · exact placeFrom_spec hskip hn hp h
    · obtain ⟨⟨success₁, cores₁, task₁⟩, h₁, h⟩ := Except.bind_eq_ok.1 h
      obtain ⟨htask, core, hcores⟩ := tryCores_spec proc.id h₁
      have hheld : (bare ((a.processors.set ((start + offset) % a.numProcsEstimate)
          { proc with cores := cores₁ }).flatMap Processor.held)).Perm _ :=
        Processor.held_set hproc hcores
      cases success₁ with
      | true =>
        cases h
        have hapart := hskip a hn hp proc (List.mem_of_getElem? hproc) (Bool.not_eq_true _ ▸ hs)
        exact ⟨hn.set hproc _ _, htask, proc.id, core, hheld.trans (hp.append_left _), fun _ => hapart⟩
      | false =>
        obtain ⟨hn', htask', hrest⟩ := placeFrom_spec hskip (hn.set hproc cores₁ a.nextProcIndex)
          (hheld.trans hp) h
        rw [htask] at htask' hrest
        exact ⟨hn', htask', hrest⟩

theorem Apart.of_primary {held : List Instance} {taskId proc : ℕ} : Apart held .primary taskId proc :=
  fun h => nomatch h

theorem Allocator.allocatePrimary_attempt : Attempt cfg .primary (allocatePrimary cfg fuel) := by
  intro a a' task task' success hn h
  exact placeFrom_spec (fun _ _ _ _ _ _ => Apart.of_primary) hn (.refl _) h

/-- Two processors with one number are one. -/
theorem Allocator.Numbered.eq {p q : Processor} (h : a.Numbered cfg) (hp : p ∈ a.processors)
    (hq : q ∈ a.processors) (hid : p.id = q.id) : p = q := by
  have hn : (a.processors.map Processor.id).Nodup := by
    rw [h]
    exact List.nodup_range
  exact List.inj_on_of_nodup_map hn hp hq hid

theorem Processor.mem_bare {proc : Processor} {i : Instance} : i ∈ bare proc.held ↔ ∃ core ∈ proc.cores,
    (∃ t ∈ core.assignedPrimaries, i = ⟨proc.id, core.id, .primary, t.base⟩) ∨
      ∃ t ∈ core.assignedReplicas, i = ⟨proc.id, core.id, .replica, t.base⟩ := by
  unfold bare held Core.held
  simp only [List.mem_map, List.mem_flatMap, List.mem_append]
  constructor
  · rintro ⟨_, ⟨core, hcore, ⟨t, ht, rfl⟩ | ⟨t, ht, rfl⟩⟩, rfl⟩
    · exact ⟨core, hcore, .inl ⟨t, ht, rfl⟩⟩
    · exact ⟨core, hcore, .inr ⟨t, ht, rfl⟩⟩
  · rintro ⟨core, hcore, ⟨t, ht, rfl⟩ | ⟨t, ht, rfl⟩⟩
    · exact ⟨_, ⟨core, hcore, .inl ⟨t, ht, rfl⟩⟩, rfl⟩
    · exact ⟨_, ⟨core, hcore, .inr ⟨t, ht, rfl⟩⟩, rfl⟩

theorem Processor.held_proc {proc : Processor} {i : Instance} (h : i ∈ bare proc.held) : i.proc = proc.id := by
  obtain ⟨core, -, ⟨t, -, rfl⟩ | ⟨t, -, rfl⟩⟩ := mem_bare.1 h
  · rfl
  · rfl

theorem Processor.containsTaskReplica_of_mem {proc : Processor} {i : Instance} (h : i ∈ bare proc.held)
    (ht : i.type = .replica) : proc.containsTaskReplica i.task.id = true := by
  unfold containsTaskReplica
  simp only [List.any_eq_true, beq_iff_eq]
  obtain ⟨core, hcore, ⟨t, -, rfl⟩ | ⟨t, hmem, rfl⟩⟩ := mem_bare.1 h
  · cases ht
  · exact ⟨core, hcore, t, hmem, rfl⟩

theorem Processor.mem_of_containsTaskPrimary {proc : Processor} {taskId : ℕ}
    (h : proc.containsTaskPrimary taskId = true) :
    ∃ i ∈ bare proc.held, i.type = .primary ∧ i.task.id = taskId := by
  unfold containsTaskPrimary at h
  simp only [List.any_eq_true, beq_iff_eq] at h
  obtain ⟨core, hcore, t, ht, hid⟩ := h
  exact ⟨_, mem_bare.2 ⟨core, hcore, .inl ⟨t, ht, rfl⟩⟩, rfl, hid⟩

theorem Allocator.mem_bare {i : Instance} :
    i ∈ bare a.held ↔ ∃ proc ∈ a.processors, i ∈ bare proc.held := by
  unfold bare held
  simp only [List.mem_map, List.mem_flatMap]
  constructor
  · rintro ⟨j, ⟨proc, hproc, hj⟩, rfl⟩
    exact ⟨proc, hproc, j, hj, rfl⟩
  · rintro ⟨proc, hproc, j, hj, rfl⟩
    exact ⟨j, ⟨proc, hproc, hj⟩, rfl⟩

theorem Allocator.allocateReplica_attempt : Attempt cfg .replica (allocateReplica cfg fuel) := by
  intro a a' task task' success hn h
  unfold allocateReplica at h
  split at h
  · cases h
  next primaryProc hprimary =>
  refine placeFrom_spec ?_ hn (.refl _) h
  intro a₁ hn₁ hp₁ proc hproc hs _
  obtain ⟨hne, hnone⟩ := Bool.or_eq_false_iff.1 hs
  refine ⟨?_, ?_⟩
  · -- a replica on the processor would be seen
    intro i hi htype hid heq
    obtain ⟨p, hpmem, hip⟩ := mem_bare.1 (hp₁.mem_iff.2 hi)
    have hpid : p.id = proc.id := (Processor.held_proc hip).symm.trans heq
    obtain rfl := hn₁.eq hpmem hproc hpid
    rw [← hid, Processor.containsTaskReplica_of_mem hip htype] at hnone
    cases hnone
  · have hfind : a.processors.find? (fun proc => proc.containsTaskPrimary task.id) = some primaryProc :=
      hprimary
    have hcontains : primaryProc.containsTaskPrimary task.id = true := by
      have h := List.find?_some hfind
      exact h
    obtain ⟨i, hi, htype, hid⟩ := Processor.mem_of_containsTaskPrimary hcontains
    refine ⟨i, mem_bare.2 ⟨primaryProc, List.mem_of_find?_eq_some hfind, hi⟩, htype, hid, ?_⟩
    rw [Processor.held_proc hi]
    intro heq
    rw [heq] at hne
    simp at hne

/-! ## The loops -/

theorem Apart.perm {held held' : List Instance} {taskId proc : ℕ} (h : Apart held type taskId proc)
    (hp : held.Perm held') : Apart held' type taskId proc := by
  intro ht
  obtain ⟨h1, i, hi, h2⟩ := h ht
  exact ⟨fun j hj => h1 j (hp.mem_iff.2 hj), i, hp.mem_iff.1 hi, h2⟩

/-- `while not allocate(task)` ends with the instance added. -/
theorem Allocator.retry_spec {allocate : Allocator → Task → Py (Bool × Allocator × Task)}
    (hattempt : Attempt cfg type allocate) : ∀ {turns : ℕ} {a a' : Allocator} {task : Task}, a.Numbered cfg →
    retry cfg allocate turns a task = .ok a' →
    a'.Numbered cfg ∧ ∃ proc core,
      (bare a'.held).Perm (⟨proc, core, type, task.base⟩ :: bare a.held) ∧
        Apart (bare a.held) type task.id proc
  | 0, _, _, _, _, h => by cases h
  | turns + 1, a, a', task, hn, h => by
    rw [retry] at h
    obtain ⟨⟨success, a₁, task₁⟩, h₁, h⟩ := Except.bind_eq_ok.1 h
    obtain ⟨hn₁, htask, proc, core, hheld, hapart⟩ := hattempt hn h₁
    cases success with
    | true =>
      cases h
      exact ⟨hn₁, proc, core, hheld, hapart rfl⟩
    | false =>
      simp only [Bool.false_eq_true, if_false] at h
      split_ifs at h with hlt
      obtain ⟨hn', proc', core', hheld', hapart'⟩ := retry_spec hattempt
        (a := { a₁ with numProcsEstimate := a₁.numProcsEstimate + 1 }) hn₁ h
      rw [htask] at hheld'
      rw [Task.base_id htask] at hapart'
      exact ⟨hn', proc', core', hheld'.trans (hheld.cons _), hapart'.perm hheld⟩

/-- The loop over the replicas of a task -/
theorem Allocator.replicas_spec {l : List ℕ} {k : ℕ} : ∀ {a : Allocator}, a.Numbered cfg →
    Placed (bare a.held) task.id k →
    l.foldlM (fun a _ => retry cfg (allocateReplica cfg fuel) (cfg.numProcessors + 1) a task) a = .ok a' →
    a'.Numbered cfg ∧ Placed (bare a'.held) task.id (k + l.length) ∧
      ∃ new, (bare a'.held).Perm (new ++ bare a.held) ∧ ∀ i ∈ new, i.task = task.base := by
  induction l generalizing k with
  | nil =>
    intro a hn hp h
    cases h
    exact ⟨hn, hp, [], .refl _, nofun⟩
  | cons r l ih =>
    intro a hn hp h
    rw [List.foldlM_cons] at h
    obtain ⟨a₁, h₁, h⟩ := Except.bind_eq_ok.1 h
    obtain ⟨hn₁, proc, core, hheld, hapart⟩ := retry_spec allocateReplica_attempt hn h₁
    have hp₁ : Placed (bare a₁.held) task.id (k + 1) :=
      (hp.replica (i := ⟨proc, core, .replica, task.base⟩) rfl hapart).perm hheld.symm
    obtain ⟨hn', hp', new, hnew, htask⟩ := ih hn₁ hp₁ h
    refine ⟨hn', ?_, new ++ [⟨proc, core, .replica, task.base⟩], ?_, ?_⟩
    · rw [List.length_cons, Nat.add_comm l.length, ← Nat.add_assoc]
      exact hp'
    · rw [List.append_assoc]
      exact hnew.trans (hheld.append_left new)
    · intro i hi
      rcases List.mem_append.1 hi with hi | hi
      · exact htask i hi
      · rw [List.mem_singleton.1 hi]

/-- A task that is on no core yet gets its primary and its replicas. -/
theorem Allocator.allocateTask_spec (hn : a.Numbered cfg)
    (hfresh : ∀ i ∈ bare a.held, i.task.id ≠ task.id) (h : allocateTask cfg fuel a task = .ok a') :
    a'.Numbered cfg ∧ Placed (bare a'.held) task.id task.replicas ∧
      ∃ new, (bare a'.held).Perm (new ++ bare a.held) ∧ ∀ i ∈ new, i.task = task.base := by
  obtain ⟨a₁, h₁, h⟩ := Except.bind_eq_ok.1 h
  obtain ⟨hn₁, proc, core, hheld, -⟩ := retry_spec allocatePrimary_attempt hn h₁
  have hp₁ : Placed (bare a₁.held) task.id 0 :=
    (Placed.first (i := ⟨proc, core, .primary, task.base⟩) hfresh rfl).perm hheld.symm
  obtain ⟨hn', hp', new, hnew, htask⟩ := replicas_spec hn₁ hp₁ h
  rw [List.length_range, Nat.zero_add] at hp'
  refine ⟨hn', hp', new ++ [⟨proc, core, .primary, task.base⟩], ?_, ?_⟩
  · rw [List.append_assoc]
    exact hnew.trans (hheld.append_left new)
  · intro i hi
    rcases List.mem_append.1 hi with hi | hi
    · exact htask i hi
    · rw [List.mem_singleton.1 hi]

/-- New instances of other tasks leave a task placed. -/
theorem Placed.append {held new : List Instance} {taskId k : ℕ} (h : Placed held taskId k)
    (hnew : ∀ i ∈ new, i.task.id ≠ taskId) : Placed (new ++ held) taskId k := by
  induction new with
  | nil => exact h
  | cons i new ih =>
    have hrest := ih fun j hj => hnew j (List.mem_cons_of_mem _ hj)
    exact hrest.other (hnew i List.mem_cons_self)

/-- One more task is placed, and those before it still are. -/
theorem Allocator.allocateTask_placement {done : List Task} (hn : a.Numbered cfg)
    (hdone : Placement done (bare a.held)) (hfresh : ∀ t ∈ done, t.id ≠ task.id)
    (h : allocateTask cfg fuel a task = .ok a') :
    a'.Numbered cfg ∧ Placement (done ++ [task]) (bare a'.held) := by
  have hother : ∀ i ∈ bare a.held, i.task.id ≠ task.id := by
    intro i hi
    obtain ⟨t, ht, hbase⟩ := hdone.only i hi
    rw [Task.base_id hbase]
    exact hfresh t ht
  obtain ⟨hn', hp', new, hnew, htask⟩ := allocateTask_spec hn hother h
  refine ⟨hn', ?_, ?_⟩
  · intro t ht
    rcases List.mem_append.1 ht with ht | ht
    · refine ((hdone.placed t ht).append fun i hi => ?_).perm hnew.symm
      rw [htask i hi]
      exact (hfresh t ht).symm
    · rw [List.mem_singleton.1 ht]
      exact hp'
  · intro i hi
    rcases List.mem_append.1 (hnew.mem_iff.1 hi) with hi | hi
    · refine ⟨task, List.mem_append_right _ (List.mem_singleton_self _), ?_⟩
      rw [htask i hi]
      rfl
    · obtain ⟨t, ht, hbase⟩ := hdone.only i hi
      exact ⟨t, List.mem_append_left _ ht, hbase⟩

/-- A list of tasks, one after the other -/
theorem Allocator.allocateTasks_placement {taskset : List Task} : ∀ {done : List Task} {a : Allocator},
    a.Numbered cfg → Placement done (bare a.held) → ((done ++ taskset).map Task.id).Nodup →
    allocateTasks cfg fuel a taskset = .ok a' →
    a'.Numbered cfg ∧ Placement (done ++ taskset) (bare a'.held) := by
  induction taskset with
  | nil =>
    intro done a hn hp _ h
    cases h
    rw [List.append_nil]
    exact ⟨hn, hp⟩
  | cons task taskset ih =>
    intro done a hn hp hid h
    rw [allocateTasks, List.foldlM_cons] at h
    obtain ⟨a₁, h₁, h⟩ := Except.bind_eq_ok.1 h
    have hfresh : ∀ t ∈ done, t.id ≠ task.id := by
      intro t ht heq
      rw [List.map_append, List.map_cons] at hid
      refine (List.nodup_append'.1 hid).2.2 (List.mem_map_of_mem ht) ?_
      rw [heq]
      exact List.mem_cons_self
    obtain ⟨hn₁, hp₁⟩ := allocateTask_placement hn hp hfresh h₁
    rw [List.append_cons] at hid ⊢
    exact ih hn₁ hp₁ hid h

/-- All groups, one after the other -/
theorem Allocator.groups_placement {groups : List (List Task)} : ∀ {done : List Task} {a : Allocator},
    a.Numbered cfg → Placement done (bare a.held) → ((done ++ groups.flatten).map Task.id).Nodup →
    groups.foldlM (allocateTasks cfg fuel) a = .ok a' →
    a'.Numbered cfg ∧ Placement (done ++ groups.flatten) (bare a'.held) := by
  induction groups with
  | nil =>
    intro done a hn hp _ h
    cases h
    rw [List.flatten_nil, List.append_nil]
    exact ⟨hn, hp⟩
  | cons taskset groups ih =>
    intro done a hn hp hid h
    rw [List.foldlM_cons] at h
    obtain ⟨a₁, h₁, h⟩ := Except.bind_eq_ok.1 h
    rw [List.flatten_cons, ← List.append_assoc] at hid ⊢
    have hid₁ : ((done ++ taskset).map Task.id).Nodup := by
      rw [List.map_append] at hid
      exact (List.nodup_append'.1 hid).1
    obtain ⟨hn₁, hp₁⟩ := allocateTasks_placement hn hp hid₁ h₁
    exact ih hn₁ hp₁ hid h

/-! ## Sorting -/

/-- The groups hold the tasks of their levels. -/
theorem Allocator.groupTasks_spec : ∀ {tasks : List Task} {grouped grouped' : String → List Task},
    groupTasks cfg tasks grouped = .ok grouped' →
    (∀ level, grouped' level = grouped level ++ tasks.filter (·.criticalityStr = level)) ∧
      ∀ t ∈ tasks, t.criticalityStr ∈ cfg.levels.map Prod.fst
  | [], _, _, h => by
    cases h
    exact ⟨fun _ => (List.append_nil _).symm, nofun⟩
  | task :: tasks, grouped, grouped', h => by
    rw [groupTasks] at h
    split_ifs at h with hkey
    obtain ⟨hgroups, hkeys⟩ := groupTasks_spec h
    have hmem : task.criticalityStr ∈ cfg.levels.map Prod.fst := by
      by_contra hnone
      refine hkey ?_
      rw [Option.isNone_iff_eq_none, List.lookup_eq_none_iff]
      intro p hp
      rw [bne_iff_ne]
      intro heq
      exact hnone (heq ▸ List.mem_map_of_mem hp)
    refine ⟨fun level => ?_, ?_⟩
    · rw [hgroups]
      by_cases hl : task.criticalityStr = level
      · rw [← hl, Function.update_self, List.filter_cons_of_pos (by simp), List.append_assoc]
        rfl
      · rw [Function.update_of_ne (Ne.symm hl), List.filter_cons_of_neg (by simpa using hl)]
    · intro t ht
      rcases List.mem_cons.1 ht with rfl | ht
      · exact hmem
      · exact hkeys t ht

theorem partition_perm {κ : Type} [DecidableEq κ] (key : Task → κ) : ∀ {names : List κ} {tasks : List Task},
    names.Nodup → (∀ t ∈ tasks, key t ∈ names) →
    (names.flatMap fun name => tasks.filter (key · = name)).Perm tasks
  | [], tasks, _, h => by
    have hnil : tasks = [] := List.eq_nil_iff_forall_not_mem.2 fun t ht => List.not_mem_nil (h t ht)
    rw [hnil]
    rfl
  | name :: names, tasks, hn, h => by
    obtain ⟨hname, hn⟩ := List.nodup_cons.1 hn
    have hrest := @partition_perm κ _ key names (tasks.filter fun t => !decide (key t = name)) hn (by
      intro t ht
      obtain ⟨ht, hne⟩ := List.mem_filter.1 ht
      rcases List.mem_cons.1 (h t ht) with heq | hmem
      · simp [heq] at hne
      · exact hmem)
    have hsame : (names.flatMap fun x => (tasks.filter fun t => !decide (key t = name)).filter (key · = x)) =
        names.flatMap fun x => tasks.filter (key · = x) := by
      refine List.flatMap_congr fun x hx => ?_
      rw [List.filter_filter]
      refine List.filter_congr fun t _ => ?_
      by_cases hk : key t = x
      · have hne : x ≠ name := fun heq => hname (heq ▸ hx)
        simp [hk, hne]
      · simp [hk]
    rw [hsame] at hrest
    rw [List.flatMap_cons]
    exact (hrest.append_left _).trans (List.filter_append_perm _ _)

/-- The sorted groups hold all tasks. -/
theorem Allocator.sortTasks_perm {tasks : List Task} {sorted : List (List Task)}
    (h : sortTasks cfg tasks = .ok sorted) : sorted.flatten.Perm tasks := by
  obtain ⟨grouped, hg, h⟩ := Except.bind_eq_ok.1 h
  cases h
  obtain ⟨hgroups, hkeys⟩ := groupTasks_spec hg
  have hlevels : (cfg.levelsHighToLow.map Prod.fst).Perm (cfg.levels.map Prod.fst) :=
    (List.perm_insertionSort _ _).map _
  refine List.Perm.trans ?_ (partition_perm Task.criticalityStr (hlevels.nodup_iff.2 cfg.nodup)
    fun t ht => hlevels.mem_iff.2 (hkeys t ht))
  rw [List.flatMap_map, ← List.flatMap_def]
  refine List.Perm.flatMap_left _ fun level _ => ?_
  refine (List.perm_insertionSort _ _).trans (.of_eq ?_)
  rw [hgroups, List.nil_append]

/-! ## The result -/

theorem Allocator.new_spec {tasks : List Task} (h : Allocator.new cfg tasks = .ok a) :
    a.Numbered cfg ∧ bare a.held = [] := by
  obtain ⟨estimate, -, h⟩ := Except.bind_eq_ok.1 h
  cases h
  refine ⟨?_, ?_⟩
  · show ((List.range cfg.numProcessors).map (Processor.new cfg)).map Processor.id = _
    rw [List.map_map]
    exact List.map_id _
  · refine List.eq_nil_iff_forall_not_mem.2 fun i hi => ?_
    obtain ⟨proc, hproc, hi⟩ := mem_bare.1 hi
    obtain ⟨p, -, rfl⟩ := List.mem_map.1 hproc
    obtain ⟨core, hcore, hi⟩ := Processor.mem_bare.1 hi
    obtain ⟨c, -, rfl⟩ := List.mem_map.1 hcore
    rcases hi with ⟨t, ht, -⟩ | ⟨t, ht, -⟩
    · cases ht
    · cases ht

/-- **The placement tolerates the loss of a processor.**  When the allocator
    returns, each task has one primary and its number of replicas, all on
    different processors, and the cores hold nothing else. -/
theorem Allocator.run_placement {tasks : List Task} (hid : (tasks.map Task.id).Nodup)
    (hnew : Allocator.new cfg tasks = .ok a) (hrun : a.run cfg fuel tasks = .ok a') :
    Placement tasks a'.held := by
  obtain ⟨sorted, hsort, hrun⟩ := Except.bind_eq_ok.1 hrun
  obtain ⟨hn, hempty⟩ := new_spec hnew
  have hperm := sortTasks_perm hsort
  have hstart : Placement [] (bare a.held) := by
    rw [hempty]
    exact ⟨nofun, nofun⟩
  obtain ⟨-, hp⟩ := groups_placement hn hstart ((hperm.map Task.id).nodup_iff.2 hid) hrun
  refine ⟨fun t ht => ?_, fun i hi => ?_⟩
  · exact (hp.placed t (hperm.mem_iff.2 ht)).of_base
  · obtain ⟨t, ht, hbase⟩ := hp.only i.base (List.mem_map_of_mem hi)
    exact ⟨t, hperm.mem_iff.1 ht, hbase⟩

theorem nodup_qm : ([("QM", 0)].map (Prod.fst : String × ℕ → String)).Nodup := by decide

/-- Two processors of one core -/
def twoProcessors : SysConfig := ⟨2, 1, 1, [("QM", 0)], nodup_qm⟩

/-- A task with a replica, and one without -/
def twoTasks : List Task :=
  [{ halfTask with replicas := 1 }, { halfTask with id := 2, utilizationTuple := [1 / 4], wcet := fun _ => 2 }]

theorem Allocator.run_placement_two : ∃ a a' : Allocator, Allocator.new twoProcessors twoTasks = .ok a ∧
    a.run twoProcessors 0 twoTasks = .ok a' ∧ a'.held.length = 3 ∧ Placement twoTasks a'.held := by
  have hok : ((Allocator.new twoProcessors twoTasks).bind fun a =>
      (a.run twoProcessors 0 twoTasks).bind fun a' =>
        if a'.held.length = 3 then Except.ok () else .error .fuel).toBool = true := by
    decide +kernel
  cases hnew : Allocator.new twoProcessors twoTasks with
  | error e => rw [hnew] at hok; cases hok
  | ok a =>
    rw [hnew] at hok
    cases hrun : a.run twoProcessors 0 twoTasks with
    | error e =>
      simp only [Except.bind, hrun] at hok
      cases hok
    | ok a' =>
      simp only [Except.bind, hrun] at hok
      split_ifs at hok with hlen
      · exact ⟨a, a', rfl, hrun, hlen, run_placement (by decide) hnew hrun⟩
      · cases hok

end

end EeftSched.TaskAllocator

/-
  The tables that the offline allocator generates for the scheduler (`Task`,
  `generate_task_config_c`, `main` in `tools/task_allocator.py`).

  The tools work on integers without bound, the tables are of `uint32_t` and
  `uint8_t`; C converts the values when the scheduler is built with them.

  * `main`: the tables for a list of tasks;
  * `allocationMap_eq`: the allocation map lists the instances on the cores;
  * `main_config`: the scheduler built with the tables finds every task, each has
    its primary and its replicas on processors of their own, and no tick faults.
-/
import EeftSched.AllocatorCores
import EeftSched.TasksetGenerator
import EeftSched.TickFaults

namespace EeftSched.TaskAllocator

open Except
open TasksetGenerator (TaskDict)

/-- `sys_config`, with the entry that only the generated files need -/
structure SystemConfig extends SysConfig where
  maxTasks : ℕ

/-- The levels, the lowest number first -/
def SysConfig.levelsLowToHigh (cfg : SysConfig) : List (String × ℕ) :=
  cfg.levels.insertionSort (fun a b => a.2 ≤ b.2)

namespace Task

/-- What `__init__` reads off the dictionary.  Beyond its entries `wcet` goes on
    with the last one, which nothing reads. -/
def ofDict (d : TaskDict) (criticalityLevel : ℕ) : Task where
  id := d.taskId
  period := d.period
  deadline := d.deadline
  virtualDeadline := fun _ => d.deadline
  criticalityStr := d.criticality
  wcet := fun k => d.wcet.getD k (d.wcet.getLastD 0)
  replicas := d.replicas.toNat
  criticalityLevel := criticalityLevel
  utilizationTuple := []

/-- `__init__` -/
def init (cfg : SysConfig) (d : TaskDict) : Py Task :=
  match cfg.levels.lookup d.criticality with
  | none => .error .key
  | some criticalityLevel => do
    let utilizationTuple ← cfg.levelsLowToHigh.mapM fun level =>
      if level.2 < d.wcet.length then (ofDict d criticalityLevel).getUtilization cfg level.1
      else .error .index
    .ok { ofDict d criticalityLevel with utilizationTuple := utilizationTuple }

end Task

/-- What C makes of an integer that it stores as `uint32_t` -/
def uint32 (x : ℤ) : ℕ := (x % 2 ^ 32).toNat

/-- What it makes of one that it stores as `uint8_t` -/
def uint8 (x : ℕ) : ℕ := x % 2 ^ 8

/-- `format_array` -/
def formatArray (arr : List ℤ) (maxLevels : ℕ) : Py (List ℤ) :=
  if arr.length > maxLevels then .error .value
  else .ok (arr ++ List.replicate (maxLevels - arr.length) 0)

/-- `system_tasks` and `allocation_map` -/
structure Tables where
  systemTasks : List EeftSched.Task
  allocationMap : List TaskAlloc

/-- The names of the types in C -/
def TaskType.toC : TaskType → EeftSched.TaskType
  | .primary => .primary
  | .replica => .replica

/-! ## `generate_task_config_c` -/

section
variable (maxCritLevels : ℕ) (count : ℕ → ℕ)

/-- An entry of `system_tasks`; the lists of task `id` have `count id` entries. -/
def taskDefinition (t : Task) : Py EeftSched.Task := do
  let wcet ← formatArray ((List.range (count t.id)).map t.wcet) maxCritLevels
  .ok
    { id := uint32 t.id
      period := uint32 t.period
      deadline := uint32 t.deadline
      wcet := fun k => uint32 (wcet.getD k 0)
      critLevel := t.criticalityLevel }

/-- An entry of `allocation_map` -/
def mapEntry (procId coreId : ℕ) (type : TaskType) (task : Task) : Py TaskAlloc := do
  let virtualDeadline ← formatArray ((List.range (count task.id)).map task.virtualDeadline) maxCritLevels
  .ok
    { taskId := uint32 task.id
      taskType := type.toC
      procId := uint8 procId
      coreId := uint8 coreId
      tunedDeadlines := fun k => uint32 (virtualDeadline.getD k 0) }

def coreEntries (procId : ℕ) (core : Core) : Py (List TaskAlloc) := do
  let primaries ← core.assignedPrimaries.mapM (mapEntry maxCritLevels count procId core.id .primary)
  let replicas ← core.assignedReplicas.mapM (mapEntry maxCritLevels count procId core.id .replica)
  .ok (primaries ++ replicas)

def processorEntries (proc : Processor) : Py (List TaskAlloc) := do
  let entries ← proc.cores.mapM (coreEntries maxCritLevels count proc.id)
  .ok entries.flatten

def generateTaskConfigC (tasks : List Task) (a : Allocator) : Py Tables := do
  let taskDefinitions ← tasks.mapM (taskDefinition maxCritLevels count)
  let mapEntries ← a.processors.mapM (processorEntries maxCritLevels count)
  .ok ⟨taskDefinitions, mapEntries.flatten⟩

end

/-- `len(task_dict["wcet"])` of the task -/
def wcetCount (tasks : List TaskDict) (taskId : ℕ) : ℕ :=
  match tasks.find? (·.taskId == taskId) with
  | some d => d.wcet.length
  | none => 0

/-- `main`, from the contents of the two files on; without tasks it generates
    nothing. -/
def main (cfg : SystemConfig) (fuel : ℕ) (tasks : List TaskDict) : Py (Option Tables) :=
  if tasks.isEmpty then .ok none
  else do
    let objects ← tasks.mapM (Task.init cfg.toSysConfig)
    let allocator ← Allocator.new cfg.toSysConfig objects
    let allocator ← allocator.run cfg.toSysConfig fuel objects
    let tables ← generateTaskConfigC cfg.maxLevels (wcetCount tasks) objects allocator
    .ok (some tables)

/-- The scheduler of processor `procId`, built with the tables and the options
    of `build` -/
def Tables.config (T : Tables) (cfg : SystemConfig) (build : Config) (procId : ℕ) : Config :=
  { build with
    maxCriticalityLevels := cfg.maxLevels
    maxTasks := cfg.maxTasks
    systemTasks := T.systemTasks
    allocationMap := T.allocationMap
    procId := procId }

/-- The entries of a kind of a task -/
def Tables.entries (T : Tables) (type : EeftSched.TaskType) (taskId : ℕ) : List TaskAlloc :=
  T.allocationMap.filter fun m => m.taskType = type ∧ m.taskId = taskId

/-- The task has one primary and its replicas, on processors of their own. -/
structure Tables.Places (T : Tables) (d : TaskDict) : Prop where
  primary : (T.entries .primary d.taskId).length = 1
  replicas : (T.entries .replica d.taskId).length = d.replicas.toNat
  apart : ((T.entries .primary d.taskId ++ T.entries .replica d.taskId).map TaskAlloc.procId).Nodup

/-- Every value fits the type that the scheduler has for it. -/
structure Storable (cfg : SystemConfig) (tasks : List TaskDict) : Prop where
  ids : (tasks.map TaskDict.taskId).Nodup
  known : ∀ d ∈ tasks, d.taskId ≤ cfg.maxTasks
  maxTasks : cfg.maxTasks < 2 ^ 32
  period : ∀ d ∈ tasks, 0 ≤ d.period ∧ d.period < 2 ^ 32
  deadline : ∀ d ∈ tasks, 0 ≤ d.deadline ∧ d.deadline < 2 ^ 32
  wcet : ∀ d ∈ tasks, ∀ w ∈ d.wcet, 0 ≤ w ∧ w < 2 ^ 32
  processors : cfg.numProcessors ≤ 2 ^ 8
  cores : cfg.numCoresPerProcessor ≤ 2 ^ 8

/-! ## Values and lists -/

theorem uint32_eq {x : ℤ} (h0 : 0 ≤ x) (h : x < 2 ^ 32) : uint32 x = x.toNat := by
  rw [uint32, Int.emod_eq_of_lt h0 h]

theorem uint32_natCast {x : ℕ} (h : x < 2 ^ 32) : uint32 x = x := by
  rw [uint32_eq (Int.natCast_nonneg x) (by exact_mod_cast h), Int.toNat_natCast]

theorem uint8_eq {x : ℕ} (h : x < 2 ^ 8) : uint8 x = x := Nat.mod_eq_of_lt h

/-- Padding does not show. -/
theorem formatArray_getD {arr arr' : List ℤ} {maxLevels : ℕ} (h : formatArray arr maxLevels = .ok arr') (k : ℕ) :
    arr'.getD k 0 = arr.getD k 0 := by
  unfold formatArray at h
  split_ifs at h
  cases h
  rw [List.getD_eq_getElem?_getD, List.getD_eq_getElem?_getD, List.getElem?_append]
  split_ifs with hk
  · rfl
  · rw [List.getElem?_eq_none (not_lt.1 hk), List.getElem?_replicate]
    split_ifs <;> rfl

/-- An entry of a list that is a function in the model -/
theorem getD_map_range (f : ℕ → ℤ) (count k : ℕ) :
    ((List.range count).map f).getD k 0 = if k < count then f k else 0 := by
  rw [List.getD_eq_getElem?_getD, List.getElem?_map]
  split_ifs with hk
  · rw [List.getElem?_range hk]
    rfl
  · rw [List.getElem?_eq_none (by simpa using hk)]
    rfl

/-- With distinct keys a search by key finds the one element. -/
theorem find?_key {α : Type} {key : α → ℕ} {l : List α} {a : α} (hl : (l.map key).Nodup) (ha : a ∈ l) :
    l.find? (key · == key a) = some a := by
  cases hf : l.find? (key · == key a) with
  | none =>
    have hno := List.find?_eq_none.1 hf a ha
    rw [beq_self_eq_true] at hno
    exact absurd rfl hno
  | some b =>
    have hkey : key b = key a := by simpa using List.find?_some hf
    rw [List.inj_on_of_nodup_map hl (List.mem_of_find?_eq_some hf) ha hkey]

/-! ## The objects -/

variable {cfg : SystemConfig} {fuel : ℕ} {tasks : List TaskDict} {d : TaskDict} {T : Tables}
  {maxCritLevels : ℕ} {count : ℕ → ℕ} {a a' : Allocator} {t : Task} {i : Instance}

/-- A dictionary that has an object -/
theorem Task.init_spec (h : Task.init cfg.toSysConfig d = .ok t) : d.period ≠ 0 ∧ ∃ level u,
    cfg.levels.lookup d.criticality = some level ∧
      t = { Task.ofDict d level with utilizationTuple := u } := by
  unfold Task.init at h
  split at h
  · cases h
  next level hlevel =>
  obtain ⟨u, hu, h⟩ := bind_eq_ok.1 h
  cases h
  refine ⟨fun hp => ?_, level, u, hlevel, rfl⟩
  -- its own level is one of those it computes a utilization for
  obtain ⟨before, after, heq, -⟩ := List.lookup_eq_some_iff.1 hlevel
  have hmem : (d.criticality, level) ∈ cfg.levelsLowToHigh := by
    refine (List.perm_insertionSort _ _).mem_iff.2 ?_
    rw [heq]
    exact List.mem_append_right _ List.mem_cons_self
  obtain ⟨b, hb⟩ := exists_ok_of_mapM hu hmem
  simp only at hb
  split_ifs at hb with hlen
  unfold Task.getUtilization at hb
  rw [hlevel] at hb
  simp only at hb
  rw [if_pos (show (Task.ofDict d level).period = 0 from hp)] at hb
  cases hb

/-- The object of a dictionary, if there is one -/
def Task.object (cfg : SysConfig) (d : TaskDict) : Task := (Task.init cfg d).toOption.getD (Task.ofDict d 0)

theorem Task.init_eq (h : Task.init cfg.toSysConfig d = .ok t) : t = Task.object cfg.toSysConfig d := by
  rw [Task.object, h]
  rfl

theorem Task.object_fields (cfg : SysConfig) (d : TaskDict) :
    (Task.object cfg d).id = d.taskId ∧ (Task.object cfg d).replicas = d.replicas.toNat := by
  unfold Task.object
  cases h : Task.init cfg d with
  | error e => exact ⟨rfl, rfl⟩
  | ok t =>
    unfold Task.init at h
    split at h
    · cases h
    · obtain ⟨u, -, h⟩ := bind_eq_ok.1 h
      cases h
      exact ⟨rfl, rfl⟩

theorem Task.object_id (cfg : SysConfig) (d : TaskDict) : (Task.object cfg d).id = d.taskId :=
  (Task.object_fields cfg d).1

/-! ## The tables -/

/-- What an object is in `system_tasks` -/
def definitionOf (count : ℕ → ℕ) (t : Task) : EeftSched.Task where
  id := uint32 t.id
  period := uint32 t.period
  deadline := uint32 t.deadline
  wcet := fun k => uint32 (if k < count t.id then t.wcet k else 0)
  critLevel := t.criticalityLevel

/-- What an instance is in `allocation_map` -/
def entryOf (count : ℕ → ℕ) (i : Instance) : TaskAlloc where
  taskId := uint32 i.task.id
  taskType := i.type.toC
  procId := uint8 i.proc
  coreId := uint8 i.core
  tunedDeadlines := fun k => uint32 (if k < count i.task.id then i.task.virtualDeadline k else 0)

theorem taskDefinition_eq {u : EeftSched.Task} (h : taskDefinition maxCritLevels count t = .ok u) :
    u = definitionOf count t := by
  obtain ⟨wcet, hw, h⟩ := bind_eq_ok.1 h
  cases h
  simp only [formatArray_getD hw, getD_map_range]
  rfl

theorem mapEntry_eq {procId coreId : ℕ} {type : TaskType} {m : TaskAlloc}
    (h : mapEntry maxCritLevels count procId coreId type t = .ok m) :
    m = entryOf count ⟨procId, coreId, type, t⟩ := by
  obtain ⟨virtualDeadline, hvd, h⟩ := bind_eq_ok.1 h
  cases h
  simp only [formatArray_getD hvd, getD_map_range]
  rfl

theorem coreEntries_eq {procId : ℕ} {core : Core} {entries : List TaskAlloc}
    (h : coreEntries maxCritLevels count procId core = .ok entries) :
    entries = (core.held procId).map (entryOf count) := by
  obtain ⟨primaries, hp, h⟩ := bind_eq_ok.1 h
  obtain ⟨replicas, hr, h⟩ := bind_eq_ok.1 h
  cases h
  rw [mapM_eq_map hp fun t m => mapEntry_eq, mapM_eq_map hr fun t m => mapEntry_eq, Core.held,
    List.map_append, List.map_map, List.map_map]
  rfl

theorem processorEntries_eq {proc : Processor} {entries : List TaskAlloc}
    (h : processorEntries maxCritLevels count proc = .ok entries) :
    entries = proc.held.map (entryOf count) := by
  obtain ⟨cores, hc, h⟩ := bind_eq_ok.1 h
  cases h
  rw [mapM_eq_map hc fun core entries => coreEntries_eq, Processor.held, List.map_flatMap, List.flatMap_def]

/-- The allocation map lists the instances on the cores, in their order. -/
theorem allocationMap_eq {objects : List Task} (h : generateTaskConfigC maxCritLevels count objects a = .ok T) :
    T.systemTasks = objects.map (definitionOf count) ∧ T.allocationMap = a.held.map (entryOf count) := by
  obtain ⟨definitions, hd, h⟩ := bind_eq_ok.1 h
  obtain ⟨entries, he, h⟩ := bind_eq_ok.1 h
  cases h
  refine ⟨mapM_eq_map hd fun t u => taskDefinition_eq, ?_⟩
  show entries.flatten = _
  rw [mapM_eq_map he fun proc entries => processorEntries_eq, Allocator.held, List.map_flatMap,
    List.flatMap_def]

/-- What has happened when `main` has generated tables -/
theorem main_spec (h : main cfg fuel tasks = .ok (some T)) :
    ∃ a a' : Allocator, Allocator.new cfg.toSysConfig (tasks.map (Task.object cfg.toSysConfig)) = .ok a ∧
      a.run cfg.toSysConfig fuel (tasks.map (Task.object cfg.toSysConfig)) = .ok a' ∧
      (∀ d ∈ tasks, Task.init cfg.toSysConfig d = .ok (Task.object cfg.toSysConfig d)) ∧
      T.systemTasks =
        tasks.map (fun d => definitionOf (wcetCount tasks) (Task.object cfg.toSysConfig d)) ∧
      T.allocationMap = a'.held.map (entryOf (wcetCount tasks)) := by
  unfold main at h
  split_ifs at h with hempty
  · cases h
  obtain ⟨objects, ho, h⟩ := bind_eq_ok.1 h
  obtain ⟨a, hnew, h⟩ := bind_eq_ok.1 h
  obtain ⟨a', hrun, h⟩ := bind_eq_ok.1 h
  obtain ⟨tables, hgen, h⟩ := bind_eq_ok.1 h
  cases h
  obtain ⟨hdefs, hmap⟩ := allocationMap_eq hgen
  obtain rfl := mapM_eq_map ho fun d t => Task.init_eq
  refine ⟨a, a', hnew, hrun, fun d hd => ?_, ?_, hmap⟩
  · obtain ⟨t, ht⟩ := exists_ok_of_mapM ho hd
    rw [ht, Task.init_eq ht]
  · rw [hdefs, List.map_map]
    rfl

/-! ## What the scheduler finds -/

theorem wcetCount_eq (hs : Storable cfg tasks) (hd : d ∈ tasks) : wcetCount tasks d.taskId = d.wcet.length := by
  unfold wcetCount
  rw [find?_key hs.ids hd]

/-- A dictionary as the scheduler has it -/
theorem definitionOf_object (hs : Storable cfg tasks) (hd : d ∈ tasks)
    (h : Task.init cfg.toSysConfig d = .ok (Task.object cfg.toSysConfig d)) :
    d.period ≠ 0 ∧ ∃ level, cfg.levels.lookup d.criticality = some level ∧
      definitionOf (wcetCount tasks) (Task.object cfg.toSysConfig d) =
        { id := d.taskId
          period := d.period.toNat
          deadline := d.deadline.toNat
          wcet := fun k => (d.wcet.getD k 0).toNat
          critLevel := level } := by
  obtain ⟨hp, level, u, hlevel, ht⟩ := Task.init_spec h
  refine ⟨hp, level, hlevel, ?_⟩
  have hid : uint32 d.taskId = d.taskId := uint32_natCast ((hs.known d hd).trans_lt hs.maxTasks)
  have hperiod : uint32 d.period = d.period.toNat := uint32_eq (hs.period d hd).1 (hs.period d hd).2
  have hdeadline : uint32 d.deadline = d.deadline.toNat :=
    uint32_eq (hs.deadline d hd).1 (hs.deadline d hd).2
  have hwcet : ∀ k, uint32 (if k < d.wcet.length then d.wcet.getD k (d.wcet.getLastD 0) else 0) =
      (d.wcet.getD k 0).toNat := by
    intro k
    rw [List.getD_eq_getElem?_getD, List.getD_eq_getElem?_getD]
    split_ifs with hk
    · rw [List.getElem?_eq_getElem hk, Option.getD_some, Option.getD_some]
      obtain ⟨h0, hlt⟩ := hs.wcet d hd _ (List.getElem_mem hk)
      exact uint32_eq h0 hlt
    · rw [List.getElem?_eq_none (not_lt.1 hk)]
      rfl
  rw [ht]
  show EeftSched.Task.mk (uint32 d.taskId) (uint32 d.period) (uint32 d.deadline)
    (fun k => uint32 (if k < wcetCount tasks d.taskId then d.wcet.getD k (d.wcet.getLastD 0) else 0)) level = _
  rw [hid, hperiod, hdeadline, wcetCount_eq hs hd]
  simp only [hwcet]

theorem findTaskById_eq (hs : Storable cfg tasks) (hd : d ∈ tasks)
    (hT : T.systemTasks =
      tasks.map fun d => definitionOf (wcetCount tasks) (Task.object cfg.toSysConfig d))
    (build : Config) (p : ℕ) : (T.config cfg build p).findTaskById d.taskId =
      some (definitionOf (wcetCount tasks) (Task.object cfg.toSysConfig d)) := by
  have hid : ∀ d ∈ tasks, (definitionOf (wcetCount tasks) (Task.object cfg.toSysConfig d)).id = d.taskId := by
    intro d hd
    show uint32 (Task.object cfg.toSysConfig d).id = d.taskId
    rw [Task.object_id]
    exact uint32_natCast ((hs.known d hd).trans_lt hs.maxTasks)
  have hids : (T.systemTasks.map EeftSched.Task.id).Nodup := by
    rw [hT, List.map_map]
    exact (List.map_congr_left hid) ▸ hs.ids
  show (if d.taskId > cfg.maxTasks then none else T.systemTasks.reverse.find? (·.id == d.taskId)) = _
  rw [if_neg (not_lt.2 (hs.known d hd)), ← hid d hd]
  refine find?_key ?_ ?_
  · rw [List.map_reverse, List.nodup_reverse]
    exact hids
  · rw [List.mem_reverse, hT]
    exact List.mem_map_of_mem hd

/-! ## Where the entries are -/

/-- An instance is on a processor and a core of the configuration. -/
theorem held_lt {done : List Task} {P : Core → Prop}
    (hr : Allocator.Reached cfg.toSysConfig P done a) (hi : i ∈ a.held) :
    i.proc < cfg.numProcessors ∧ i.core < cfg.numCoresPerProcessor := by
  obtain ⟨proc, hproc, hi⟩ := Allocator.mem_bare.1 (List.mem_map_of_mem (f := Instance.base) hi)
  have hnum : proc.id ∈ List.range cfg.numProcessors := hr.numbered ▸ List.mem_map_of_mem hproc
  obtain ⟨core, hcore, hi⟩ := Processor.mem_bare.1 hi
  have hcores : core.id ∈ List.range cfg.numCoresPerProcessor :=
    (hr.sound proc hproc).ids ▸ List.mem_map_of_mem hcore
  have hat : i.base.proc = proc.id ∧ i.base.core = core.id := by
    rcases hi with ⟨t, -, heq⟩ | ⟨t, -, heq⟩
    · rw [heq]
      exact ⟨rfl, rfl⟩
    · rw [heq]
      exact ⟨rfl, rfl⟩
  exact ⟨hat.1 ▸ List.mem_range.1 hnum, hat.2 ▸ List.mem_range.1 hcores⟩

/-- The task of an instance has a dictionary. -/
theorem held_dict {done : List Task} {P : Core → Prop} (hr : Allocator.Reached cfg.toSysConfig P done a)
    (hdone : done.Perm (tasks.map (Task.object cfg.toSysConfig))) (hi : i ∈ a.held) :
    ∃ d ∈ tasks, i.task.id = d.taskId := by
  obtain ⟨t, ht, hbase⟩ := hr.placement.only i.base (List.mem_map_of_mem hi)
  obtain ⟨d, hd, rfl⟩ := List.mem_map.1 (hdone.mem_iff.1 ht)
  have hid : i.task.id = (Task.object cfg.toSysConfig d).id := Task.base_id (hbase : i.task.base = _)
  exact ⟨d, hd, hid.trans (Task.object_id _ d)⟩

theorem TaskType.toC_eq {type type' : TaskType} : type.toC = type'.toC ↔ type = type' := by
  cases type <;> cases type' <;> simp [TaskType.toC]

/-- The entries of a task are its instances. -/
theorem entries_eq {held : List Instance} (hids : ∀ i ∈ held, i.task.id < 2 ^ 32)
    (hT : T.allocationMap = held.map (entryOf count)) (type : TaskType) (taskId : ℕ) :
    T.entries type.toC taskId = (instances held type taskId).map (entryOf count) := by
  rw [Tables.entries, hT, List.filter_map, instances]
  congr 1
  refine List.filter_congr fun i hi => ?_
  show decide (i.type.toC = type.toC ∧ uint32 i.task.id = taskId) = _
  simp only [uint32_natCast (hids i hi), TaskType.toC_eq]

/-- Where the instances are, the entries are. -/
theorem Tables.Places.of_placed {held : List Instance} (hids : ∀ i ∈ held, i.task.id < 2 ^ 32)
    (hprocs : ∀ i ∈ held, i.proc < 2 ^ 8) (hT : T.allocationMap = held.map (entryOf count))
    (h : Placed held d.taskId d.replicas.toNat) : T.Places d := by
  have hprimary : T.entries .primary d.taskId = _ := entries_eq hids hT .primary d.taskId
  have hreplica : T.entries .replica d.taskId = _ := entries_eq hids hT .replica d.taskId
  refine ⟨?_, ?_, ?_⟩
  · rw [hprimary, List.length_map]
    exact h.primary
  · rw [hreplica, List.length_map]
    exact h.replicas
  · rw [hprimary, hreplica, ← List.map_append, List.map_map]
    have hsame : (instances held .primary d.taskId ++ instances held .replica d.taskId).map
        (TaskAlloc.procId ∘ entryOf count) =
        (instances held .primary d.taskId ++ instances held .replica d.taskId).map Instance.proc := by
      refine List.map_congr_left fun i hi => uint8_eq (hprocs i ?_)
      rcases List.mem_append.1 hi with hi | hi
      · exact (mem_instances.1 hi).1
      · exact (mem_instances.1 hi).1
    rw [hsame]
    exact h.apart

/-- **The scheduler can rely on its tables.**  Every task is in them with the
    values of its dictionary, with one primary and its replicas on processors of
    their own; every entry belongs to a core that exists, and no tick of a core
    faults. -/
theorem main_config (h : main cfg fuel tasks = .ok (some T)) (hs : Storable cfg tasks) (build : Config) :
    (∀ d ∈ tasks, T.Places d ∧ ∃ level, cfg.levels.lookup d.criticality = some level ∧
      ∀ p, (T.config cfg build p).findTaskById d.taskId = some
        { id := d.taskId
          period := d.period.toNat
          deadline := d.deadline.toNat
          wcet := fun k => (d.wcet.getD k 0).toNat
          critLevel := level }) ∧
    (∀ m ∈ T.allocationMap, (∃ d ∈ tasks, m.taskId = d.taskId) ∧
      m.procId < cfg.numProcessors ∧ m.coreId < cfg.numCoresPerProcessor) ∧
    ∀ (p n : ℕ) (c : Fin n), FaultFree (T.config cfg build p) c := by
  obtain ⟨a, a', hnew, hrun, hinit, hdefs, hmap⟩ := main_spec h
  have hids : ((tasks.map (Task.object cfg.toSysConfig)).map Task.id).Nodup := by
    rw [List.map_map]
    exact (List.map_congr_left fun d _ => Task.object_id cfg.toSysConfig d) ▸ hs.ids
  obtain ⟨done, hdone, hr⟩ := Allocator.run_reached (P := fun _ => True) (fun _ _ => trivial) hids
    (fun t ht => fun _ _ _ _ => trivial) hnew hrun
  have hheld : ∀ i ∈ a'.held, i.task.id < 2 ^ 32 := by
    intro i hi
    obtain ⟨d, hd, hid⟩ := held_dict hr hdone hi
    rw [hid]
    exact (hs.known d hd).trans_lt hs.maxTasks
  have hentry : ∀ m ∈ T.allocationMap, ∃ i ∈ a'.held, ∃ d ∈ tasks, m = entryOf (wcetCount tasks) i ∧
      m.taskId = d.taskId := by
    intro m hm
    rw [hmap] at hm
    obtain ⟨i, hi, rfl⟩ := List.mem_map.1 hm
    obtain ⟨d, hd, hid⟩ := held_dict hr hdone hi
    refine ⟨i, hi, d, hd, rfl, ?_⟩
    show uint32 i.task.id = d.taskId
    rw [uint32_natCast (hheld i hi), hid]
  refine ⟨fun d hd => ⟨?_, ?_⟩, fun m hm => ?_, fun p n c => faultFree_of_periodic fun m hm => ?_⟩
  · have hplaced := hr.placement.placed _ (hdone.mem_iff.2 (List.mem_map_of_mem hd))
    rw [Task.object_id, (Task.object_fields _ d).2] at hplaced
    refine .of_placed hheld (fun i hi => ?_) hmap hplaced.of_base
    exact (held_lt hr hi).1.trans_le hs.processors
  · obtain ⟨-, level, hlevel, hdef⟩ := definitionOf_object hs hd (hinit d hd)
    refine ⟨level, hlevel, fun p => ?_⟩
    rw [findTaskById_eq hs hd hdefs, hdef]
  · obtain ⟨i, hi, d, hd, rfl, hid⟩ := hentry m hm
    obtain ⟨hproc, hcore⟩ := held_lt hr hi
    refine ⟨⟨d, hd, hid⟩, ?_, ?_⟩
    · exact (uint8_eq (hproc.trans_le hs.processors)).trans_lt hproc
    · exact (uint8_eq (hcore.trans_le hs.cores)).trans_lt hcore
  · obtain ⟨i, hi, d, hd, -, hid⟩ := hentry m (List.mem_filter.1 hm).1
    obtain ⟨hperiod, level, -, hdef⟩ := definitionOf_object hs hd (hinit d hd)
    refine ⟨_, by rw [hid, findTaskById_eq hs hd hdefs, hdef], ?_⟩
    have h0 := (hs.period d hd).1
    show d.period.toNat ≠ 0
    omega

/-- Two processors of one core -/
def pairConfig : SystemConfig := { twoProcessors with maxTasks := 1 }

/-- A task of half a core, with a replica -/
def halfDict : TaskDict := ⟨1, "Task_1", 10, 10, "QM", [5], 1⟩

theorem main_pair : ∃ T : Tables, main pairConfig 0 [halfDict] = .ok (some T) ∧ T.allocationMap.length = 2 := by
  have hok : ((main pairConfig 0 [halfDict]).toOption.bind id).any (fun T => T.allocationMap.length == 2) =
      true := by
    decide +kernel
  cases h : main pairConfig 0 [halfDict] with
  | error e => rw [h] at hok; cases hok
  | ok T =>
    rw [h] at hok
    cases T with
    | none => cases hok
    | some T => exact ⟨T, rfl, beq_iff_eq.1 hok⟩

theorem halfDict_storable : Storable pairConfig [halfDict] := by
  have hall : ∀ {P : TaskDict → Prop}, P halfDict → ∀ d ∈ [halfDict], P d :=
    fun h d hd => List.mem_singleton.1 hd ▸ h
  refine ⟨List.nodup_singleton _, hall le_rfl, ?_, hall ?_, hall ?_, hall fun w hw => ?_, ?_, ?_⟩
  · decide
  · decide
  · decide
  · rw [List.mem_singleton.1 hw]
    decide
  · decide
  · decide

theorem main_config_pair : ∃ T : Tables, T.allocationMap.length = 2 ∧ T.Places halfDict ∧
    ∀ (p n : ℕ) (c : Fin n),
      FaultFree (T.config pairConfig ⟨1, 1, [], [], 0, true, true, true, true, true⟩ p) c := by
  obtain ⟨T, hT, hlen⟩ := main_pair
  obtain ⟨htasks, -, hfree⟩ :=
    main_config hT halfDict_storable ⟨1, 1, [], [], 0, true, true, true, true, true⟩
  exact ⟨T, hlen, (htasks halfDict (List.mem_singleton_self _)).1, hfree⟩

end EeftSched.TaskAllocator

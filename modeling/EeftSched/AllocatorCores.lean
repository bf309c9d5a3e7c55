/-
  What the offline allocator leaves on the cores (`Allocator.run` in
  `tools/task_allocator.py`), over exact arithmetic.

  * `Kept`: a property of a core that calls of `tune_system` keep, with a task
    the core has not;
  * `placeFrom_sound`, `allocateTask_sound`: an attempt to place a task, and all
    attempts for one task, make such calls only;
  * `run_reached`: so does a whole allocation, and keeps the property;
  * `run_filled`: no core is overloaded;
  * `Reached.share_le`: nor are all cores together.
-/
import Mathlib.Algebra.Order.BigOperators.Group.List
import EeftSched.Allocator
import EeftSched.Feasible

namespace EeftSched.TaskAllocator

open Except

variable {cfg : SysConfig} {fuel : ℕ} {type : TaskType} {isSafe : Core → Bool} {skip : Processor → Bool}
  {core core' : Core} {cores cores' : List Core} {proc : Processor} {task task' : Task} {success : Bool}
  {a a' : Allocator} {held : List Instance} {k : ℕ}
  {P : Core → Prop}

/-! ## One core -/

/-- The ids of the tasks on a core -/
def Core.ids (core : Core) : List ℕ := core.assigned.map Task.id

/-- Calls of `tune_system` keep `P`, with the task or a copy of it on a core
    that lacks it. -/
def Kept (cfg : SysConfig) (fuel : ℕ) (P : Core → Prop) (task : Task) : Prop :=
  ∀ {core core' : Core} {task₁ task' : Task} {type : TaskType} {success : Bool},
    P core → task₁.base = task.base → ((core.assigned ++ [task₁]).map Task.id).Nodup →
    core.tuneSystem cfg fuel task₁ type true = .ok (success, core', task') → P core'

theorem Kept.congr (h : Kept cfg fuel P task) (hb : task'.base = task.base) : Kept cfg fuel P task' :=
  fun hp hb' => h hp (hb'.trans hb)

/-- What `tune_system` needs of a task -/
structure Task.Fits (cfg : SysConfig) (t : Task) : Prop where
  deadline : t.deadline ≤ t.period
  wcet : ∀ k, t.wcet k ≤ t.wcet (k + 1)
  level : t.criticalityLevel < cfg.maxLevels

theorem Task.Fits.kept (h : task.Fits cfg) : Kept cfg fuel (Filled cfg) task := by
  intro core core' task₁ task' type success hfilled hb hnodup hcall
  obtain ⟨hdeadline, hperiod, hlevel, hwcet⟩ := Task.base_fields hb
  refine hfilled.call ?_ ?_ ?_ hnodup hcall
  · rw [hdeadline, hperiod]
    exact h.deadline
  · rw [hwcet]
    exact h.wcet
  · rw [hlevel]
    exact h.level

/-- A core that has no task twice, with the property -/
structure Core.Sound (P : Core → Prop) (core : Core) : Prop where
  holds : P core
  nodup : core.ids.Nodup

theorem Core.ids_eq (core : Core) :
    core.ids = (bases core.assignedPrimaries ++ bases core.assignedReplicas).map Task.id := by
  unfold ids assigned bases
  rw [← List.map_append, List.map_map]
  rfl

/-- A call of `tune_system` keeps the core sound; the core has the task if it succeeds. -/
theorem Core.Sound.tuneSystem (hc : core.Sound P) (ht : Kept cfg fuel P task) (hfree : task.id ∉ core.ids)
    (h : core.tuneSystem cfg fuel task type true = .ok (success, core', task')) :
    core'.id = core.id ∧ core'.Sound P ∧ (success = false → core'.ids = core.ids) := by
  obtain ⟨hid, -, hprimaries, hreplicas⟩ := tuneSystem_spec h
  have hnodup : ((core.assigned ++ [task]).map Task.id).Nodup := by
    rw [List.map_append, List.nodup_append]
    refine ⟨hc.nodup, List.nodup_singleton _, fun i hi j hj heq => hfree ?_⟩
    rw [← List.mem_singleton.1 hj, ← heq]
    exact hi
  have hids : core'.ids.Perm (core.ids ++ if success then [task.id] else []) := by
    rw [Core.ids_eq, Core.ids_eq, hprimaries, hreplicas]
    cases success with
    | false => simp
    | true =>
      cases type with
      | primary =>
        simp only [if_true, true_and, reduceCtorEq, if_false, List.append_nil, List.map_append]
        rw [List.append_assoc, List.append_assoc]
        exact List.perm_append_comm.append_left _
      | replica =>
        simp only [if_true, true_and, reduceCtorEq, if_false, List.append_nil, List.map_append]
        rw [List.append_assoc]
        rfl
  refine ⟨hid, ⟨ht hc.holds rfl hnodup h, hids.nodup_iff.2 ?_⟩, ?_⟩
  · cases success with
    | false =>
      rw [if_neg nofun, List.append_nil]
      exact hc.nodup
    | true =>
      rw [List.map_append] at hnodup
      exact hnodup
  · rintro rfl
    rw [Core.ids_eq, Core.ids_eq, hprimaries, hreplicas]
    simp

/-! ## One attempt -/

/-- The cores of one processor, none of which has the task -/
theorem tryCores_sound {cores cores' : List Core} {task task' : Task} {success : Bool}
    (hc : ∀ core ∈ cores, core.Sound P ∧ task.id ∉ core.ids) (ht : Kept cfg fuel P task)
    (h : Allocator.tryCores cfg fuel type isSafe cores task = .ok (success, cores', task')) :
    cores'.map Core.id = cores.map Core.id ∧
      ∀ core ∈ cores', core.Sound P ∧ (success = false → task.id ∉ core.ids) := by
  induction cores generalizing cores' task with
  | nil =>
    cases h
    exact ⟨rfl, List.forall_mem_nil _⟩
  | cons core cores ih =>
    obtain ⟨hsound, hfree⟩ := hc core List.mem_cons_self
    -- what the rest of the loop does, after this core has become `core₁`
    have hrest : ∀ {core₁ : Core} {task₁ : Task}, task₁.base = task.base → core₁.id = core.id →
        core₁.Sound P → task.id ∉ core₁.ids →
        (Allocator.tryCores cfg fuel type isSafe cores task₁ >>= fun r =>
          .ok (r.1, core₁ :: r.2.1, r.2.2)) = Except.ok (success, cores', task') →
        cores'.map Core.id = (core :: cores).map Core.id ∧
          ∀ core ∈ cores', core.Sound P ∧ (success = false → task.id ∉ core.ids) := by
      intro core₁ task₁ htask hid hs hf h
      obtain ⟨r, h₁, h₂⟩ := bind_eq_ok.1 h
      cases h₂
      have htid := Task.base_id htask
      obtain ⟨hids, hall⟩ := ih (fun core hm => by
        rw [htid]
        exact hc core (List.mem_cons_of_mem _ hm)) (ht.congr htask) h₁
      refine ⟨by rw [List.map_cons, List.map_cons, hid, hids], fun core hm => ?_⟩
      rcases List.mem_cons.1 hm with rfl | hm
      · exact ⟨hs, fun _ => hf⟩
      · rw [← htid]
        exact hall core hm
    rw [Allocator.tryCores] at h
    split_ifs at h with hsafe
    · obtain ⟨⟨success₁, core₁, task₁⟩, h₁, h⟩ := bind_eq_ok.1 h
      obtain ⟨hid, hs, hids⟩ := hsound.tuneSystem ht hfree h₁
      have htask := (Core.tuneSystem_spec h₁).2.1
      cases success₁ with
      | true =>
        cases h
        refine ⟨by rw [List.map_cons, List.map_cons, hid], fun core hm => ⟨?_, fun hs => Bool.noConfusion hs⟩⟩
        rcases List.mem_cons.1 hm with rfl | hm
        · exact hs
        · exact (hc core (List.mem_cons_of_mem _ hm)).1
      | false => exact hrest htask hid hs (by rw [hids rfl]; exact hfree) h
    · exact hrest rfl rfl hsound hfree h

/-- The cores of a processor -/
structure Processor.Sound (cfg : SysConfig) (P : Core → Prop) (proc : Processor) : Prop where
  ids : proc.cores.map Core.id = List.range cfg.numCoresPerProcessor
  cores : ∀ core ∈ proc.cores, core.Sound P

/-- No core of the processor has the task. -/
def Processor.Lacks (proc : Processor) (taskId : ℕ) : Prop := ∀ core ∈ proc.cores, taskId ∉ core.ids

namespace Allocator

/-- All processors -/
def Sound (cfg : SysConfig) (P : Core → Prop) (a : Allocator) : Prop :=
  ∀ proc ∈ a.processors, proc.Sound cfg P

theorem Sound.set {i : ℕ} (h : a.Sound cfg P) (hids : cores'.map Core.id = List.range cfg.numCoresPerProcessor)
    (hc : ∀ core ∈ cores', core.Sound P) (next : ℕ) :
    Sound cfg P ⟨a.processors.set i { proc with cores := cores' }, a.numProcsEstimate, next⟩ := by
  intro p hp
  rcases List.mem_or_eq_of_mem_set hp with hp | rfl
  · exact h p hp
  · exact ⟨hids, hc⟩

/-- The loop over the processors: those it does not skip lack the task. -/
theorem placeFrom_sound {start : ℕ}
    (hskip : ∀ a : Allocator, a.Numbered cfg → (bare a.held).Perm held → ∀ proc ∈ a.processors,
      skip proc = false → proc.Lacks task.id) (ht : Kept cfg fuel P task) :
    ∀ {offsets : List ℕ} {a a' : Allocator} {task₁ task' : Task} {success : Bool}, a.Numbered cfg →
    (bare a.held).Perm held → a.Sound cfg P → task₁.base = task.base →
    placeFrom cfg fuel type skip isSafe start offsets a task₁ = .ok (success, a', task') → a'.Sound cfg P
  | [], _, _, _, _, _, _, _, hs, _, h => by
    cases h
    exact hs
  | offset :: offsets, a, a', task₁, task', success, hn, hp, hs, hb, h => by
    rw [placeFrom] at h
    simp only at h
    split at h
    · cases h
    next proc hproc =>
    have hmem := List.mem_of_getElem? hproc
    split_ifs at h with hsk
    · exact placeFrom_sound hskip ht hn hp hs hb h
    · obtain ⟨⟨success₁, cores₁, task₂⟩, h₁, h⟩ := bind_eq_ok.1 h
      have hlacks := hskip a hn hp proc hmem (Bool.not_eq_true _ ▸ hsk)
      obtain ⟨hids, hall⟩ := tryCores_sound (fun core hm => by
        rw [Task.base_id hb]
        exact ⟨(hs proc hmem).cores core hm, hlacks core hm⟩) (ht.congr hb) h₁
      obtain ⟨hb₂, c, hcores⟩ := tryCores_spec proc.id h₁
      have hset : ∀ next, Sound cfg P ⟨a.processors.set ((start + offset) % a.numProcsEstimate)
          { proc with cores := cores₁ }, a.numProcsEstimate, next⟩ :=
        hs.set (hids.trans (hs proc hmem).ids) fun core hm => (hall core hm).1
      cases success₁ with
      | true =>
        cases h
        exact hset _
      | false =>
        have hheld : (bare ((a.processors.set ((start + offset) % a.numProcsEstimate)
            { proc with cores := cores₁ }).flatMap Processor.held)).Perm _ :=
          Processor.held_set hproc hcores
        exact placeFrom_sound hskip ht (hn.set hproc cores₁ a.nextProcIndex) (hheld.trans hp)
          (hset a.nextProcIndex) (hb₂.trans hb) h

/-! ## The tasks, one after the other -/

/-- A task on a core is an instance of the allocator. -/
theorem exists_instance (hproc : proc ∈ a.processors) (hcore : core ∈ proc.cores)
    (ht : task ∈ core.assigned) : ∃ i ∈ bare a.held, i.proc = proc.id ∧ i.task = task.base ∧
      (i.type = .primary ∨ proc.containsTaskReplica task.id = true) := by
  rcases List.mem_append.1 ht with ht | ht
  · exact ⟨⟨proc.id, core.id, .primary, task.base⟩,
      mem_bare.2 ⟨proc, hproc, Processor.mem_bare.2 ⟨core, hcore, .inl ⟨task, ht, rfl⟩⟩⟩, rfl, rfl, .inl rfl⟩
  · have hi : (⟨proc.id, core.id, .replica, task.base⟩ : Instance) ∈ bare proc.held :=
      Processor.mem_bare.2 ⟨core, hcore, .inr ⟨task, ht, rfl⟩⟩
    exact ⟨_, mem_bare.2 ⟨proc, hproc, hi⟩, rfl, rfl, .inr (Processor.containsTaskReplica_of_mem hi rfl)⟩

/-- What an attempt to allocate a task keeps, as long as the instances are `held` -/
def Keeps (cfg : SysConfig) (P : Core → Prop) (held : List Instance) (task : Task)
    (allocate : Allocator → Task → Py (Bool × Allocator × Task)) : Prop :=
  ∀ {a a' : Allocator} {task₁ task' : Task} {success : Bool}, a.Numbered cfg → (bare a.held).Perm held →
    a.Sound cfg P → task₁.base = task.base → allocate a task₁ = .ok (success, a', task') → a'.Sound cfg P

/-- The primary of a task that is on no core yet -/
theorem allocatePrimary_keeps (ht : Kept cfg fuel P task) (hfresh : ∀ i ∈ held, i.task.id ≠ task.id) :
    Keeps cfg P held task (allocatePrimary cfg fuel) := by
  intro a a' task₁ task' success hn hp hs hb h
  refine placeFrom_sound (fun a₁ _ hp₁ proc hproc _ core hcore hmem => ?_) ht hn hp hs hb h
  obtain ⟨t, hmem, htid⟩ := List.mem_map.1 hmem
  obtain ⟨i, hi, -, htask, -⟩ := exists_instance hproc hcore hmem
  refine hfresh i (hp₁.mem_iff.1 hi) ?_
  rw [htask, ← htid]
  rfl

/-- A replica: the processor of the primary, the only one that has it, and those
    that have a replica are left out. -/
theorem allocateReplica_keeps (ht : Kept cfg fuel P task) (hplaced : Placed held task.id k) :
    Keeps cfg P held task (allocateReplica cfg fuel) := by
  intro a a' task₁ task' success hn hp hs hb h
  have hid := Task.base_id hb
  unfold allocateReplica at h
  rw [hid] at h
  split at h
  · cases h
  next primaryProc hprimary =>
  refine placeFrom_sound (fun a₁ _ hp₁ proc hproc hsk core hcore hmem => ?_) ht hn hp hs hb h
  obtain ⟨hne, hnone⟩ := Bool.or_eq_false_iff.1 hsk
  obtain ⟨t, hmem, htid⟩ := List.mem_map.1 hmem
  obtain ⟨i, hi, hiproc, htask, hkind⟩ := exists_instance hproc hcore hmem
  have hi' : i.task.id = task.id := by
    rw [htask, ← htid]
    rfl
  rcases hkind with htype | hrep
  · have hfind : a.processors.find? (fun proc => proc.containsTaskPrimary task.id) = some primaryProc :=
      hprimary
    have hcontains : primaryProc.containsTaskPrimary task.id = true := by
      have h := List.find?_some hfind
      exact h
    obtain ⟨j, hj, htype', hj'⟩ := Processor.mem_of_containsTaskPrimary hcontains
    have hjheld : j ∈ bare a.held := mem_bare.2 ⟨primaryProc, List.mem_of_find?_eq_some hfind, hj⟩
    -- there is one primary only
    obtain ⟨x, hx⟩ := List.length_eq_one_iff.1 hplaced.primary
    have hix : i = x := List.mem_singleton.1 (hx ▸ mem_instances.2 ⟨hp₁.mem_iff.1 hi, htype, hi'⟩)
    have hjx : j = x := List.mem_singleton.1 (hx ▸ mem_instances.2 ⟨hp.mem_iff.1 hjheld, htype', hj'⟩)
    have heq : proc.id = primaryProc.id := by
      rw [← hiproc, hix, ← hjx]
      exact Processor.held_proc hj
    rw [heq] at hne
    simp at hne
  · rw [htid] at hrep
    rw [hrep] at hnone
    cases hnone

/-- `while not allocate(task)` -/
theorem retry_sound {allocate : Allocator → Task → Py (Bool × Allocator × Task)}
    (hattempt : Attempt cfg type allocate) (hkeeps : Keeps cfg P held task allocate) :
    ∀ {turns : ℕ} {a a' : Allocator} {task₁ : Task}, a.Numbered cfg → (bare a.held).Perm held → a.Sound cfg P →
    task₁.base = task.base → retry cfg allocate turns a task₁ = .ok a' → a'.Sound cfg P
  | 0, _, _, _, _, _, _, _, h => by cases h
  | turns + 1, a, a', task₁, hn, hp, hs, hb, h => by
    rw [retry] at h
    obtain ⟨⟨success, a₁, task₂⟩, h₁, h⟩ := bind_eq_ok.1 h
    have hs₁ := hkeeps hn hp hs hb h₁
    obtain ⟨hn₁, htask, proc, c, hheld, -⟩ := hattempt hn h₁
    cases success with
    | true =>
      cases h
      exact hs₁
    | false =>
      simp only [Bool.false_eq_true, if_false] at h
      split_ifs at h with hlt
      exact retry_sound hattempt hkeeps (a := { a₁ with numProcsEstimate := a₁.numProcsEstimate + 1 }) hn₁
        (hheld.trans hp) hs₁ (htask.trans hb) h

/-- All attempts for one task that is on no core yet -/
theorem allocateTask_sound (ht : Kept cfg fuel P task) (hn : a.Numbered cfg) (hs : a.Sound cfg P)
    (hfresh : ∀ i ∈ bare a.held, i.task.id ≠ task.id) (h : allocateTask cfg fuel a task = .ok a') :
    a'.Sound cfg P := by
  obtain ⟨a₁, h₁, h⟩ := bind_eq_ok.1 h
  have hs₁ := retry_sound allocatePrimary_attempt (allocatePrimary_keeps ht hfresh) hn (.refl _) hs rfl h₁
  obtain ⟨hn₁, p, c, hheld, -⟩ := retry_spec allocatePrimary_attempt hn h₁
  have hp₁ : Placed (bare a₁.held) task.id 0 :=
    (Placed.first (i := ⟨p, c, .primary, task.base⟩) hfresh rfl).perm hheld.symm
  refine (foldlM_invariant (I := fun done a =>
    Numbered cfg a ∧ Placed (bare a.held) task.id done.length ∧ a.Sound cfg P) h ⟨hn₁, hp₁, hs₁⟩ ?_).2.2
  rintro done i rest b b' - ⟨hn, hp, hs⟩ h
  obtain ⟨hn', p, c, hheld, hapart⟩ := retry_spec allocateReplica_attempt hn h
  refine ⟨hn', ?_, ?_⟩
  · rw [List.length_append, List.length_singleton]
    exact (hp.replica (i := ⟨p, c, .replica, task.base⟩) rfl hapart).perm hheld.symm
  · exact retry_sound allocateReplica_attempt (allocateReplica_keeps ht hp) hn (.refl _) hs rfl h

/-- Where the allocation of `done` is -/
structure Reached (cfg : SysConfig) (P : Core → Prop) (done : List Task) (a : Allocator) : Prop where
  numbered : a.Numbered cfg
  placement : Placement done (bare a.held)
  sound : a.Sound cfg P

theorem Reached.allocateTasks {done taskset : List Task} (hr : Reached cfg P done a)
    (hid : ((done ++ taskset).map Task.id).Nodup) (ht : ∀ t ∈ taskset, Kept cfg fuel P t)
    (h : Allocator.allocateTasks cfg fuel a taskset = .ok a') : Reached cfg P (done ++ taskset) a' := by
  refine foldlM_invariant (I := fun part a => Reached cfg P (done ++ part) a) h (by rwa [List.append_nil]) ?_
  rintro part task rest b b' rfl ⟨hn, hp, hs⟩ h
  have hfresh : ∀ t ∈ done ++ part, t.id ≠ task.id := by
    intro t hmem heq
    rw [← List.append_assoc, List.map_append, List.map_cons] at hid
    refine (List.nodup_append'.1 hid).2.2 (List.mem_map_of_mem hmem) ?_
    rw [heq]
    exact List.mem_cons_self
  obtain ⟨hn', hp'⟩ := allocateTask_placement hn hp hfresh h
  rw [← List.append_assoc]
  refine ⟨hn', hp', allocateTask_sound (ht task (by simp)) hn hs (fun i hi => ?_) h⟩
  obtain ⟨t, hmem, hbase⟩ := hp.only i hi
  rw [Task.base_id hbase]
  exact hfresh t hmem

theorem new_sound {tasks : List Task} (hP : ∀ id processorId, P (Core.new id processorId))
    (h : Allocator.new cfg tasks = .ok a) : a.Sound cfg P := by
  obtain ⟨estimate, -, h⟩ := bind_eq_ok.1 h
  cases h
  intro proc hproc
  obtain ⟨p, -, rfl⟩ := List.mem_map.1 hproc
  refine ⟨?_, fun core hcore => ?_⟩
  · show ((List.range cfg.numCoresPerProcessor).map fun coreId => Core.new coreId p).map Core.id = _
    rw [List.map_map]
    exact List.map_id _
  · obtain ⟨c, -, rfl⟩ := List.mem_map.1 hcore
    exact ⟨hP c p, List.nodup_nil⟩

/-- **Run rule**: what holds of an empty core, and what calls of `tune_system`
    keep, holds of every core when the allocator returns. -/
theorem run_reached {tasks : List Task} (hP : ∀ id processorId, P (Core.new id processorId))
    (hid : (tasks.map Task.id).Nodup) (ht : ∀ t ∈ tasks, Kept cfg fuel P t)
    (hnew : Allocator.new cfg tasks = .ok a) (hrun : a.run cfg fuel tasks = .ok a') :
    ∃ done : List Task, done.Perm tasks ∧ Reached cfg P done a' := by
  obtain ⟨sorted, hsort, hrun⟩ := bind_eq_ok.1 hrun
  have hperm := sortTasks_perm hsort
  obtain ⟨hn, hempty⟩ := new_spec hnew
  have hstart : Reached cfg P [] a := ⟨hn, by rw [hempty]; exact ⟨nofun, nofun⟩, new_sound hP hnew⟩
  refine ⟨sorted.flatten, hperm, foldlM_invariant (I := fun groups a => Reached cfg P groups.flatten a)
    hrun hstart ?_⟩
  rintro groups taskset rest b b' rfl hr h
  rw [List.flatten_append, List.flatten_cons, ← List.append_assoc] at hperm
  rw [List.flatten_append, List.flatten_singleton]
  refine hr.allocateTasks ?_ (fun t hmem => ht t (hperm.mem_iff.1 (by simp [hmem]))) h
  have hall := (hperm.map Task.id).nodup_iff.2 hid
  rw [List.map_append] at hall
  exact (List.nodup_append'.1 hall).1

/-- **No core is overloaded.**  When the allocator returns, every processor has
    the cores of the configuration.  Each was filled by calls of `tune_system`
    that never offered it a task twice; in every mode the utilization it records
    is that of its tasks, and at most 1. -/
theorem run_filled {tasks : List Task} (hid : (tasks.map Task.id).Nodup) (ht : ∀ t ∈ tasks, t.Fits cfg)
    (hnew : Allocator.new cfg tasks = .ok a) (hrun : a.run cfg fuel tasks = .ok a') :
    ∀ proc ∈ a'.processors, proc.cores.map Core.id = List.range cfg.numCoresPerProcessor ∧
      ∀ core ∈ proc.cores, Filled cfg core ∧ core.ids.Nodup ∧ ∀ level k, (level, k) ∈ cfg.levels →
        core.utilization level = modeUtilization k core.assigned ∧ core.utilization level ≤ 1 := by
  obtain ⟨done, -, hr⟩ := run_reached (P := Filled cfg) .new hid (fun t hmem => (ht t hmem).kept) hnew hrun
  intro proc hproc
  have hs := hr.sound proc hproc
  refine ⟨hs.ids, fun core hcore => ?_⟩
  obtain ⟨hfilled, hnodup⟩ := hs.cores core hcore
  exact ⟨hfilled, hnodup, hfilled.limits.2⟩

/-- One core and one task -/
theorem run_half : ∃ a a' : Allocator, Allocator.new oneLevel [halfTask] = .ok a ∧
    a.run oneLevel 0 [halfTask] = .ok a' ∧ a'.held.length = 1 := by
  have hok : ((Allocator.new oneLevel [halfTask]).bind fun a =>
      (a.run oneLevel 0 [halfTask]).bind fun a' =>
        if a'.held.length = 1 then Except.ok () else .error .fuel).toBool = true := by
    decide +kernel
  cases hnew : Allocator.new oneLevel [halfTask] with
  | error e => rw [hnew] at hok; cases hok
  | ok a =>
    rw [hnew] at hok
    cases hrun : a.run oneLevel 0 [halfTask] with
    | error e =>
      simp only [Except.bind, hrun] at hok
      cases hok
    | ok a' =>
      simp only [Except.bind, hrun] at hok
      split_ifs at hok with hlen
      · exact ⟨a, a', rfl, hrun, hlen⟩
      · cases hok

theorem halfTask_fits : halfTask.Fits oneLevel := by
  refine ⟨?_, fun k => ?_, ?_⟩
  · exact le_rfl
  · exact le_rfl
  · exact Nat.zero_lt_one

theorem run_filled_half : ∃ a' : Allocator, a'.held.length = 1 ∧ ∀ proc ∈ a'.processors,
    proc.cores.map Core.id = List.range 1 ∧ ∀ core ∈ proc.cores, Filled oneLevel core ∧ core.ids.Nodup ∧
      ∀ level k, (level, k) ∈ oneLevel.levels →
        core.utilization level = modeUtilization k core.assigned ∧ core.utilization level ≤ 1 := by
  obtain ⟨a, a', hnew, hrun, hlen⟩ := run_half
  have hid : ([halfTask].map Task.id).Nodup := List.nodup_singleton _
  refine ⟨a', hlen, run_filled hid (fun t ht => ?_) hnew hrun⟩
  rw [List.mem_singleton.1 ht]
  exact halfTask_fits

end Allocator

/-! ## All cores together -/

theorem sum_flatMap_le {α β : Type} {l : List α} {g : α → List β} {f : β → ℚ} {bound : ℚ}
    (h : ∀ x ∈ l, ((g x).map f).sum ≤ bound) : ((l.flatMap g).map f).sum ≤ l.length * bound := by
  induction l with
  | nil => simp
  | cons x l ih =>
    obtain ⟨hx, hl⟩ := List.forall_mem_cons.1 h
    have hrest := ih hl
    rw [List.flatMap_cons, List.map_append, List.sum_append, List.length_cons]
    push_cast
    linarith

/-- The primaries alone: every task has one. -/
theorem Placement.sum_le {f : Task → ℚ} {done : List Task} {held : List Instance} (hp : Placement done held)
    (hid : (done.map Task.id).Nodup) (hbase : ∀ t, f t.base = f t) (h0 : ∀ i ∈ held, 0 ≤ f i.task) :
    (done.map f).sum ≤ (held.map fun i => f i.task).sum := by
  have hprimary : ∀ t ∈ done, ∃ i ∈ held, instances held .primary t.id = [i] ∧ f i.task = f t := by
    intro t ht
    obtain ⟨i, hi⟩ := List.length_eq_one_iff.1 (hp.placed t ht).primary
    obtain ⟨hmem, -, hti⟩ := mem_instances.1 (hi ▸ List.mem_singleton_self i)
    obtain ⟨t', ht', hb⟩ := hp.only i hmem
    obtain rfl : t' = t := List.inj_on_of_nodup_map hid ht' ht ((Task.base_id hb).symm.trans hti)
    exact ⟨i, hmem, hi, by rw [← hbase, hb, hbase]⟩
  let primaries := held.filter fun i => i.type = .primary
  have hpart : ((done.map Task.id).flatMap fun id => (primaries.map Instance.task).filter (Task.id · = id)) =
      done.flatMap fun t => (instances held .primary t.id).map Instance.task := by
    rw [List.flatMap_map]
    refine List.flatMap_congr fun t _ => ?_
    rw [List.filter_map, List.filter_filter, instances]
    congr 1
    refine List.filter_congr fun i _ => ?_
    simp [and_comm]
  have hperm : ((done.map Task.id).flatMap fun id =>
      (primaries.map Instance.task).filter (Task.id · = id)).Perm (primaries.map Instance.task) := by
    refine partition_perm Task.id hid fun t ht => ?_
    obtain ⟨i, hi, rfl⟩ := List.mem_map.1 ht
    obtain ⟨t', ht', hb⟩ := hp.only i (List.mem_filter.1 hi).1
    rw [Task.base_id hb]
    exact List.mem_map_of_mem ht'
  rw [hpart] at hperm
  have hsum : (done.map f).sum = ((primaries.map Instance.task).map f).sum := by
    rw [← (hperm.map f).sum_eq, List.map_flatMap]
    congr 1
    have hone : ∀ t ∈ done, ((instances held .primary t.id).map Instance.task).map f = [f t] := by
      intro t ht
      obtain ⟨i, -, hi, hf⟩ := hprimary t ht
      rw [hi, ← hf]
      rfl
    rw [List.flatMap_congr hone, List.map_eq_flatMap]
  rw [hsum, List.map_map]
  refine (List.filter_sublist.map _).sum_le_sum fun x hx => ?_
  obtain ⟨i, hi, rfl⟩ := List.mem_map.1 hx
  exact h0 i hi

/-- The tasks fit on the cores all together. -/
theorem Allocator.Reached.share_le {done : List Task} {level : String} {num : ℕ}
    (hr : Reached cfg (Filled cfg) done a) (hid : (done.map Task.id).Nodup)
    (h0 : ∀ t ∈ done, 0 ≤ Core.utilizationShare t num) (hl : (level, num) ∈ cfg.levels) :
    (done.map (Core.utilizationShare · num)).sum ≤ cfg.numProcessors * cfg.numCoresPerProcessor := by
  have hsum := hr.placement.sum_le (f := (Core.utilizationShare · num)) hid (fun _ => rfl) fun i hi => by
    obtain ⟨t, ht, hb⟩ := hr.placement.only i hi
    exact (h0 t ht).trans_eq (congrArg (Core.utilizationShare · num) hb).symm
  refine hsum.trans ?_
  have hbare : ((bare a.held).map fun i => Core.utilizationShare i.task num) =
      a.held.map fun i => Core.utilizationShare i.task num := by
    unfold bare
    rw [List.map_map]
    rfl
  have hcore : ∀ proc ∈ a.processors, ∀ core ∈ proc.cores,
      ((core.held proc.id).map fun i => Core.utilizationShare i.task num).sum ≤ 1 := by
    intro proc hproc core hcore
    have hle := (((hr.sound proc hproc).cores core hcore).holds.limits.2 level num hl)
    rw [hle.1, Core.modeUtilization_eq] at hle
    unfold Core.held
    rw [List.map_append, List.map_map, List.map_map]
    unfold Core.assigned at hle
    rw [List.map_append] at hle
    exact hle.2
  have hproc : ∀ proc ∈ a.processors,
      (proc.held.map fun i => Core.utilizationShare i.task num).sum ≤ cfg.numCoresPerProcessor := by
    intro proc hproc
    refine (sum_flatMap_le (hcore proc hproc)).trans_eq ?_
    have hlen := congrArg List.length (hr.sound proc hproc).ids
    rw [List.length_map, List.length_range] at hlen
    rw [hlen, mul_one]
  rw [hbare]
  refine (sum_flatMap_le hproc).trans_eq ?_
  have hlen := congrArg List.length hr.numbered
  rw [List.length_map, List.length_range] at hlen
  rw [hlen]

end EeftSched.TaskAllocator

/-
  The offline allocator ends (`Allocator.run`, `main` in
  `tools/task_allocator.py`), over exact arithmetic.

  Its loops tune cores, and take a core or a processor after the other; only the
  number of processors can stop it.

  * `tuneSystem_settles`: an attempt to tune a core ends, and raises nothing;
  * `retry_settles`: a task is placed, or the processors are used up;
  * `main_ends`: the allocator generates tables, or raises that the processors
    do not suffice.
-/
import EeftSched.Lib.Fuel
import EeftSched.TaskConfig

namespace EeftSched.TaskAllocator

open Except
open TasksetGenerator (TaskDict)

variable {cfg : SysConfig} {type : TaskType} {isSafe : Core → Bool} {skip : Processor → Bool}
  {core core' : Core} {cores : List Core} {proc : Processor} {task task' : Task} {tasks tasks' : List Task}
  {a a' : Allocator} {E : Error → Prop}

/-! ## One core -/

theorem Task.Regular.of_base (h : task.Regular) (hb : task'.base = task.base) : task'.Regular := by
  obtain ⟨-, hperiod, -, hwcet⟩ := Task.base_fields hb
  refine ⟨?_, fun level => ?_⟩
  · rw [hperiod]
    exact h.period
  · rw [hwcet]
    exact h.wcet level

theorem Task.Regular.share_nonneg (h : task.Regular) (num : ℕ) : 0 ≤ Core.utilizationShare task num := by
  unfold Core.utilizationShare
  split_ifs
  · exact div_nonneg (Int.cast_nonneg (h.wcet num)) (Int.cast_nonneg (zero_le_one.trans h.period))
  · exact le_rfl

theorem regular_bases : (∀ b ∈ bases tasks, b.Regular) ↔ ∀ t ∈ tasks, t.Regular := by
  constructor
  · exact fun h t ht => (h t.base (List.mem_map_of_mem ht)).of_base rfl
  · intro h b hb
    obtain ⟨t, ht, rfl⟩ := List.mem_map.1 hb
    exact (h t ht).of_base rfl

theorem regular_of_bases (h : ∀ t ∈ tasks, t.Regular) (hb : bases tasks' = bases tasks) :
    ∀ t ∈ tasks', t.Regular := by
  rw [← regular_bases, hb, regular_bases]
  exact h

theorem Task.Regular.getUtilization (h : task.Regular) (cfg : SysConfig) (level : String) :
    ∃ u, task.getUtilization cfg level = .ok u := by
  have hperiod := h.period
  unfold Task.getUtilization
  split
  · exact ⟨0, rfl⟩
  · exact ⟨_, if_neg (by omega)⟩

theorem tuneMode_settles (h : ∀ t ∈ tasks, t.Regular) (critNum : ℕ) :
    Settles E (fun fuel => tuneMode cfg fuel tasks critNum) fun r => bases r.2 = bases tasks := by
  suffices hends : Settles E (fun fuel => tuneMode cfg fuel tasks critNum) fun _ => True from
    (hends.and fun _ r hr => bases_tuneMode hr).mono (fun _ hr => hr.2) fun _ he => he
  unfold tuneMode
  split_ifs
  · exact .pure trivial
  · exact .pure trivial
  · obtain ⟨tasks₁, r, hr, hok⟩ := (clamping_start h critNum).clampDeadlines_ok
    simp only [hr, ok_bind]
    cases r with
    | none => exact .pure trivial
    | some tuning =>
      obtain ⟨r, hloop⟩ := tuneLoop_ok (hok tuning rfl) (Nat.lt_succ_self _)
      exact .ok _ (fun _ hle => tuneLoop_mono hloop hle) trivial

namespace Core

theorem overloaded_ok (cfg : SysConfig) (core : Core) (ht : task.Regular) (level : String) (critNum : ℕ) :
    ∃ b, core.overloaded cfg task level critNum = .ok b := by
  unfold overloaded
  split_ifs
  · obtain ⟨u, hu⟩ := ht.getUtilization cfg level
    exact ⟨_, by rw [hu]; rfl⟩
  · exact ⟨_, rfl⟩

theorem tuneLevels_settles (ht : task.Regular) {levels : List (String × ℕ)} (h : ∀ t ∈ tasks, t.Regular) :
    Settles E (fun fuel => tuneLevels cfg fuel core task levels tasks) fun r => bases r.2 = bases tasks := by
  induction levels generalizing tasks with
  | nil => exact .pure rfl
  | cons x levels ih =>
    obtain ⟨overloaded, ho⟩ := core.overloaded_ok cfg ht x.1 x.2
    simp only [tuneLevels, ho, ok_bind]
    cases overloaded with
    | true => exact .pure rfl
    | false =>
      refine (tuneMode_settles h x.2).bind fun r hr => ?_
      cases r.1 with
      | true => exact (ih (regular_of_bases h hr)).mono (fun _ hb => hb.trans hr) fun _ he => he
      | false => exact .pure hr

theorem addUtilization_ok (cfg : SysConfig) (ht : task.Regular) (utilization : String → ℚ) :
    ∃ utilization', addUtilization cfg task utilization = .ok utilization' := by
  have hstep : ∀ (u : String → ℚ) (x : String × ℕ), ∃ u', (if task.criticalityLevel ≥ x.2 then do
      let v ← task.getUtilization cfg x.1
      Except.ok (Function.update u x.1 (u x.1 + v))
    else Except.ok u : Py (String → ℚ)) = .ok u' := by
    intro u x
    split_ifs
    · obtain ⟨v, hv⟩ := ht.getUtilization cfg x.1
      exact ⟨_, by rw [hv]; rfl⟩
    · exact ⟨u, rfl⟩
  choose g hg using hstep
  exact ⟨_, foldlM_eq_ok (fun u x _ => hg u x) utilization⟩

/-- **An attempt to tune a core ends.** -/
theorem tuneSystem_settles (hc : ∀ t ∈ core.assigned, t.Regular) (ht : task.Regular) :
    Settles E (fun fuel => core.tuneSystem cfg fuel task type true) fun r =>
      (∀ t ∈ r.2.1.assigned, t.Regular) ∧ r.2.2.base = task.base := by
  suffices hends : Settles E (fun fuel => core.tuneSystem cfg fuel task type true) fun _ => True by
    refine (hends.and fun fuel r hr => ?_).mono (fun _ hr => hr.2) fun _ he => he
    obtain ⟨-, htask, hprimaries, hreplicas⟩ := tuneSystem_spec hr
    have hnew : ∀ {p : Prop} [Decidable p], ∀ b ∈ (if p then [task.base] else []), b.Regular := by
      intro p _ b hb
      split_ifs at hb
      · rw [List.mem_singleton.1 hb]
        exact ht.of_base rfl
      · cases hb
    obtain ⟨hp, hr⟩ := List.forall_mem_append.1 hc
    refine ⟨List.forall_mem_append.2 ⟨?_, ?_⟩, htask⟩
    · rw [← regular_bases, hprimaries]
      exact List.forall_mem_append.2 ⟨regular_bases.2 hp, hnew⟩
    · rw [← regular_bases, hreplicas]
      exact List.forall_mem_append.2 ⟨regular_bases.2 hr, hnew⟩
  have hall : ∀ t ∈ (core.assignedPrimaries ++ core.assignedReplicas ++ [task]).map Task.resetVirtualDeadlines,
      t.Regular := by
    intro t hmem
    obtain ⟨t₁, ht₁, rfl⟩ := List.mem_map.1 hmem
    have hregular := List.forall_mem_append.2 ⟨hc, List.forall_mem_singleton.2 ht⟩ t₁ ht₁
    exact hregular.of_base (Task.base_reset t₁)
  unfold tuneSystem
  refine (tuneLevels_settles ht hall).bind fun r hr => ?_
  simp only [or_false, Bool.true_eq_false]
  by_cases hs : r.1 = false
  · simp only [hs, if_true]
    exact .pure trivial
  · simp only [hs]
    have hput : (core.put task r.2).2.base = task.base := by
      refine (put_spec ?_).2.2
      rw [hr]
      unfold bases
      rw [List.map_map]
      rfl
    obtain ⟨u, hu⟩ := addUtilization_ok cfg (ht.of_base hput)
      ((core.put task r.2).1.assign (core.put task r.2).2 type).utilization
    simp only [hu, ok_bind]
    exact .pure trivial

end Core

/-! ## One attempt -/

namespace Allocator

/-- The loops of the allocator can go on. -/
structure Ready (cfg : SysConfig) (a : Allocator) : Prop where
  numbered : a.Numbered cfg
  estimate : a.numProcsEstimate ≤ cfg.numProcessors
  regular : ∀ proc ∈ a.processors, ∀ core ∈ proc.cores, ∀ t ∈ core.assigned, t.Regular

theorem tryCores_settles (hc : ∀ core ∈ cores, ∀ t ∈ core.assigned, t.Regular) (ht : task.Regular) :
    Settles E (fun fuel => tryCores cfg fuel type isSafe cores task) fun r =>
      (∀ core ∈ r.2.1, ∀ t ∈ core.assigned, t.Regular) ∧ r.2.2.base = task.base := by
  induction cores generalizing task with
  | nil => exact .pure ⟨nofun, rfl⟩
  | cons core cores ih =>
    obtain ⟨hcore, hcores⟩ := List.forall_mem_cons.1 hc
    -- the rest of the loop, after this core has become `core₁`
    have hrest : ∀ {core₁ : Core} {task₁ : Task}, (∀ t ∈ core₁.assigned, t.Regular) →
        task₁.base = task.base →
        Settles E (fun fuel => tryCores cfg fuel type isSafe cores task₁ >>= fun r =>
          .ok (r.1, core₁ :: r.2.1, r.2.2)) fun r =>
        (∀ core ∈ r.2.1, ∀ t ∈ core.assigned, t.Regular) ∧ r.2.2.base = task.base := by
      intro core₁ task₁ hcore₁ htask
      refine (ih hcores (ht.of_base htask)).bind fun r hr => .pure ⟨?_, hr.2.trans htask⟩
      exact List.forall_mem_cons.2 ⟨hcore₁, hr.1⟩
    by_cases hsafe : isSafe core = true
    · simp only [tryCores, hsafe, if_true]
      refine (Core.tuneSystem_settles hcore ht).bind fun r hr => ?_
      cases r.1 with
      | true =>
        simp only [if_true]
        exact .pure ⟨List.forall_mem_cons.2 ⟨hr.1, hcores⟩, hr.2⟩
      | false =>
        simp only [Bool.false_eq_true, if_false]
        exact hrest hr.1 hr.2
    · simp only [tryCores, hsafe, Bool.false_eq_true, if_false]
      exact hrest hcore rfl

theorem Ready.set {i : ℕ} (h : a.Ready cfg) (hi : a.processors[i]? = some proc)
    (hc : ∀ core ∈ cores, ∀ t ∈ core.assigned, t.Regular) (next : ℕ) :
    Ready cfg ⟨a.processors.set i { proc with cores := cores }, a.numProcsEstimate, next⟩ := by
  refine ⟨h.numbered.set hi cores next, h.estimate, fun p hp => ?_⟩
  rcases List.mem_or_eq_of_mem_set hp with hp | rfl
  · exact h.regular p hp
  · exact hc

/-- What an attempt leaves -/
def Attempted (cfg : SysConfig) (a : Allocator) (task : Task) (r : Bool × Allocator × Task) : Prop :=
  r.2.1.Ready cfg ∧ r.2.1.numProcsEstimate = a.numProcsEstimate ∧ r.2.2.base = task.base

theorem Ready.getElem? (h : a.Ready cfg) {i : ℕ} (hi : i < a.numProcsEstimate) :
    ∃ proc, a.processors[i]? = some proc := by
  have hlen : a.processors.length = cfg.numProcessors := by
    have hlen := congrArg List.length h.numbered
    rwa [List.length_map, List.length_range] at hlen
  exact ⟨_, List.getElem?_eq_getElem (hlen.symm ▸ hi.trans_le h.estimate)⟩

/-- The loop over the processors -/
theorem placeFrom_settles {start : ℕ} {offsets : List ℕ} (ha : a.Ready cfg) (ht : task.Regular)
    (hoff : ∀ offset ∈ offsets, offset < a.numProcsEstimate) :
    Settles E (fun fuel => placeFrom cfg fuel type skip isSafe start offsets a task) (Attempted cfg a task) := by
  induction offsets generalizing a task with
  | nil => exact .pure ⟨ha, rfl, rfl⟩
  | cons offset offsets ih =>
    obtain ⟨hlt, hoffs⟩ := List.forall_mem_cons.1 hoff
    have hmod : (start + offset) % a.numProcsEstimate < a.numProcsEstimate :=
      Nat.mod_lt _ (Nat.zero_lt_of_lt hlt)
    obtain ⟨proc, hproc⟩ := ha.getElem? hmod
    simp only [placeFrom, hproc]
    by_cases hskip : skip proc = true
    · simp only [hskip, if_true]
      exact ih ha ht hoffs
    · simp only [hskip, Bool.false_eq_true, if_false]
      refine (tryCores_settles (ha.regular proc (List.mem_of_getElem? hproc)) ht).bind fun r hr => ?_
      have hset := ha.set hproc hr.1
      cases r.1 with
      | true =>
        simp only [if_true]
        exact .pure ⟨hset _, rfl, hr.2⟩
      | false =>
        simp only [Bool.false_eq_true, if_false]
        refine (ih (hset a.nextProcIndex) (ht.of_base hr.2) hoffs).mono (fun r' hr' => ?_) fun _ he => he
        exact ⟨hr'.1, hr'.2.1, hr'.2.2.trans hr.2⟩

theorem allocatePrimary_settles (ha : a.Ready cfg) (ht : task.Regular) :
    Settles E (fun fuel => allocatePrimary cfg fuel a task) (Attempted cfg a task) :=
  placeFrom_settles ha ht fun _ h => List.mem_range.1 h

/-- The primary of the task is on a core. -/
def HasPrimary (a : Allocator) (taskId : ℕ) : Prop :=
  ∃ i ∈ bare a.held, i.type = .primary ∧ i.task.id = taskId

theorem HasPrimary.find (h : a.HasPrimary task.id) : ∃ proc, a.findProcessorOfPrimary task.id = some proc := by
  obtain ⟨i, hi, htype, hid⟩ := h
  obtain ⟨proc, hproc, hi⟩ := mem_bare.1 hi
  obtain ⟨core, hcore, hi⟩ := Processor.mem_bare.1 hi
  refine Option.isSome_iff_exists.1 (List.find?_isSome.2 ⟨proc, hproc, ?_⟩)
  rcases hi with ⟨t, hmem, rfl⟩ | ⟨t, -, rfl⟩
  · refine List.any_eq_true.2 ⟨core, hcore, List.any_eq_true.2 ⟨t, hmem, ?_⟩⟩
    exact beq_iff_eq.2 hid
  · cases htype

theorem allocateReplica_settles (ha : a.Ready cfg) (ht : task.Regular) (hp : a.HasPrimary task.id) :
    Settles E (fun fuel => allocateReplica cfg fuel a task) (Attempted cfg a task) := by
  obtain ⟨proc, hproc⟩ := hp.find
  simp only [allocateReplica, hproc]
  exact placeFrom_settles ha ht fun _ h => List.mem_range.1 h

/-! ## All attempts -/

/-- The processors do not suffice. -/
def Insufficient (e : Error) : Prop := e = .raised "Insufficient processors to allocate all tasks."

/-- `while not allocate(task)`; attempts that fail keep `I`. -/
theorem retry_settles {allocate : ℕ → Allocator → Task → Py (Bool × Allocator × Task)}
    {I : Allocator → Prop}
    (hattempt : ∀ {a : Allocator} {task₁ : Task}, a.Ready cfg → I a → task₁.base = task.base →
      Settles Insufficient (fun fuel => allocate fuel a task₁)
        fun r => Attempted cfg a task₁ r ∧ (r.1 = false → ∀ estimate,
          I { r.2.1 with numProcsEstimate := estimate })) :
    ∀ {turns : ℕ} {a : Allocator} {task₁ : Task}, cfg.numProcessors < a.numProcsEstimate + turns →
    a.Ready cfg → I a → task₁.base = task.base →
    Settles Insufficient (fun fuel => retry cfg (allocate fuel) turns a task₁) (Ready cfg)
  | 0, a, _, hturns, ha, _, _ => by
    have hle := ha.estimate
    omega
  | turns + 1, a, task₁, hturns, ha, hi, hb => by
    simp only [retry]
    refine (hattempt ha hi hb).bind fun r hr => ?_
    obtain ⟨⟨hready, hestimate, htask⟩, hkeep⟩ := hr
    cases hs : r.1 with
    | true => exact .pure hready
    | false =>
      simp only [Bool.false_eq_true, if_false]
      split_ifs with hlt
      · exact .throw rfl
      · refine retry_settles hattempt (a := { r.2.1 with numProcsEstimate := r.2.1.numProcsEstimate + 1 }) ?_
          ⟨hready.numbered, not_lt.1 hlt, hready.regular⟩ (hkeep hs _) (htask.trans hb)
        show cfg.numProcessors < r.2.1.numProcsEstimate + 1 + turns
        omega

/-- All attempts for one task -/
theorem allocateTask_settles (ha : a.Ready cfg) (ht : task.Regular) :
    Settles Insufficient (fun fuel => allocateTask cfg fuel a task) (Ready cfg) := by
  unfold allocateTask
  have hprimary : Settles Insufficient
      (fun fuel => retry cfg (allocatePrimary cfg fuel) (cfg.numProcessors + 1) a task)
      fun a' => a'.Ready cfg ∧ a'.HasPrimary task.id := by
    refine (retry_settles (I := fun _ => True) (fun ha _ hb => ?_) (by omega) ha trivial rfl).and ?_
    · exact (allocatePrimary_settles ha (ht.of_base hb)).mono (fun _ hr => ⟨hr, fun _ _ => trivial⟩)
        fun _ he => he
    · intro fuel a' h
      obtain ⟨-, proc, core, hheld, -⟩ := retry_spec allocatePrimary_attempt ha.numbered h
      exact ⟨_, hheld.mem_iff.2 List.mem_cons_self, rfl, rfl⟩
  refine hprimary.bind fun a₁ ha₁ => ?_
  suffices hends : Settles Insufficient _ fun a => Ready cfg a ∧ HasPrimary a task.id from
    hends.mono (fun _ ha => ha.1) fun _ he => he
  refine Settles.foldlM (I := fun _ a => Ready cfg a ∧ HasPrimary a task.id) ha₁ fun _ _ _ a₂ _ ha₂ => ?_
  have hreplica : Settles Insufficient
      (fun fuel => retry cfg (allocateReplica cfg fuel) (cfg.numProcessors + 1) a₂ task) (Ready cfg) := by
    refine retry_settles (I := fun a => a.HasPrimary task.id) (fun {a₃ task₁} ha₃ hp hb => ?_) (by omega)
      ha₂.1 ha₂.2 rfl
    have hid := Task.base_id hb
    refine (allocateReplica_settles ha₃ (ht.of_base hb) (hid ▸ hp)).and fun fuel r h _ estimate => ?_
    obtain ⟨-, -, proc, core, hheld, -⟩ := allocateReplica_attempt ha₃.numbered h
    obtain ⟨i, hi, htype, hid⟩ := hp
    exact ⟨i, hheld.mem_iff.2 (List.mem_append_right _ hi), htype, hid⟩
  refine hreplica.and fun fuel a₃ h => ?_
  obtain ⟨-, proc, core, hheld, -⟩ := retry_spec allocateReplica_attempt ha₂.1.numbered h
  obtain ⟨i, hi, htype, hid⟩ := ha₂.2
  exact ⟨i, hheld.mem_iff.2 (List.mem_cons_of_mem _ hi), htype, hid⟩

theorem groupTasks_ok (h : ∀ t ∈ tasks, t.criticalityStr ∈ cfg.levels.map Prod.fst)
    (grouped : String → List Task) : ∃ grouped', groupTasks cfg tasks grouped = .ok grouped' := by
  induction tasks generalizing grouped with
  | nil => exact ⟨grouped, rfl⟩
  | cons task tasks ih =>
    obtain ⟨htask, htasks⟩ := List.forall_mem_cons.1 h
    have hknown : ¬(cfg.levels.lookup task.criticalityStr).isNone := by
      rw [Option.isNone_iff_eq_none, List.lookup_eq_none_iff]
      intro hnone
      obtain ⟨level, hlevel, heq⟩ := List.mem_map.1 htask
      exact absurd heq.symm (bne_iff_ne.1 (hnone level hlevel))
    rw [groupTasks, if_neg hknown]
    exact ih htasks _

/-- **An allocation ends.** -/
theorem run_settles (ha : a.Ready cfg) (ht : ∀ t ∈ tasks, t.Regular)
    (hknown : ∀ t ∈ tasks, t.criticalityStr ∈ cfg.levels.map Prod.fst) :
    Settles Insufficient (fun fuel => a.run cfg fuel tasks) (Ready cfg) := by
  obtain ⟨grouped, hgrouped⟩ := groupTasks_ok hknown fun _ => []
  obtain ⟨sorted, hsort⟩ : ∃ sorted, sortTasks cfg tasks = .ok sorted := ⟨_, by rw [sortTasks, hgrouped]; rfl⟩
  have hmem : ∀ taskset ∈ sorted, ∀ t ∈ taskset, t.Regular := by
    intro taskset hset t htask
    exact ht t ((sortTasks_perm hsort).mem_iff.1 (List.mem_flatten_of_mem hset htask))
  simp only [run, hsort, ok_bind]
  refine Settles.foldlM (I := fun _ => Ready cfg) ha fun done taskset rest a₁ hsplit ha₁ => ?_
  have hset : taskset ∈ sorted := by
    rw [hsplit]
    exact List.mem_append_right _ List.mem_cons_self
  refine Settles.foldlM (I := fun _ => Ready cfg) ha₁ fun done task rest a₂ hsplit ha₂ => ?_
  refine allocateTask_settles ha₂ (hmem taskset hset task ?_)
  rw [hsplit]
  exact List.mem_append_right _ List.mem_cons_self

theorem calculateNumProcEstimate_ok (hcores : cfg.numCoresPerProcessor ≠ 0)
    (ht : ∀ t ∈ tasks, t.criticalityLevel < t.utilizationTuple.length) :
    calculateNumProcEstimate cfg tasks =
        .error (.raised "Initial processor estimate exceeds available processors.") ∨
      ∃ estimate ≤ cfg.numProcessors, calculateNumProcEstimate cfg tasks = .ok estimate := by
  obtain ⟨total, htotal⟩ : ∃ total, totalUtilization tasks = .ok total := by
    refine ⟨_, foldlM_eq_ok (g := fun (total : ℚ) (task : Task) => total +
      task.utilizationTuple.getD task.criticalityLevel 0 * ((task.replicas : ℚ) + 1))
      (fun total task hmem => ?_) 0⟩
    rw [List.getD_eq_getElem?_getD, List.getElem?_eq_getElem (ht task hmem)]
    rfl
  unfold calculateNumProcEstimate
  simp only [htotal, ok_bind, if_neg hcores]
  split_ifs with hlt
  · exact .inl rfl
  · exact .inr ⟨_, by omega, rfl⟩

/-- The start: only the estimate can be too high. -/
theorem new_ok (hcores : cfg.numCoresPerProcessor ≠ 0)
    (ht : ∀ t ∈ tasks, t.criticalityLevel < t.utilizationTuple.length) :
    Allocator.new cfg tasks = .error (.raised "Initial processor estimate exceeds available processors.") ∨
      ∃ a, Allocator.new cfg tasks = .ok a ∧ a.Ready cfg := by
  rcases calculateNumProcEstimate_ok hcores ht with he | ⟨estimate, hle, he⟩
  · exact .inl (by rw [Allocator.new, he]; rfl)
  · obtain ⟨a, hnew, hestimate⟩ : ∃ a, Allocator.new cfg tasks = .ok a ∧ a.numProcsEstimate = estimate :=
      ⟨_, by rw [Allocator.new, he]; rfl, rfl⟩
    have hsound := new_sound (P := fun core => ∀ t ∈ core.assigned, t.Regular) (fun _ _ => nofun) hnew
    refine .inr ⟨a, hnew, (new_spec hnew).1, hestimate.trans_le hle, fun proc hproc core hcore => ?_⟩
    exact ((hsound proc hproc).cores core hcore).holds

end Allocator

/-! ## The tables -/

/-- What the tool relies on in a configuration: the levels are numbered from 0,
    and there are cores. -/
structure SysConfig.Usable (cfg : SysConfig) : Prop where
  cores : cfg.numCoresPerProcessor ≠ 0
  levels : ∀ level ∈ cfg.levels, level.2 < cfg.levels.length ∧ level.2 < cfg.maxLevels

/-- What it relies on in the dictionary of a task -/
structure Usable (cfg : SysConfig) (d : TaskDict) : Prop where
  criticality : d.criticality ∈ cfg.levels.map Prod.fst
  period : 1 ≤ d.period
  length : d.wcet.length = cfg.maxLevels
  wcet : ∀ w ∈ d.wcet, 0 ≤ w

variable {d : TaskDict} {dicts : List TaskDict} {maxCritLevels : ℕ} {count : ℕ → ℕ}

theorem SysConfig.levelsLowToHigh_perm (cfg : SysConfig) : cfg.levelsLowToHigh.Perm cfg.levels :=
  List.perm_insertionSort _ _

/-- The object of a dictionary -/
theorem Task.init_ok (hc : cfg.Usable) (hd : Usable cfg d) :
    ∃ t, Task.init cfg d = .ok t ∧ t.Regular ∧ t.criticalityStr ∈ cfg.levels.map Prod.fst ∧
      t.criticalityLevel < t.utilizationTuple.length := by
  obtain ⟨⟨name, level⟩, hmem, hname⟩ := List.mem_map.1 hd.criticality
  have hlevel : cfg.levels.lookup d.criticality = some level := by
    rw [← hname]
    exact Core.lookup_of_mem cfg.nodup hmem
  have hregular : (ofDict d level).Regular := by
    refine ⟨hd.period, fun k => ?_⟩
    show 0 ≤ d.wcet.getD k (d.wcet.getLastD 0)
    rw [List.getD_eq_getElem?_getD]
    cases hk : d.wcet[k]? with
    | some w => exact hd.wcet w (List.mem_of_getElem? hk)
    | none =>
      show 0 ≤ d.wcet.getLastD 0
      cases hw : d.wcet with
      | nil => exact le_rfl
      | cons w wcet =>
        rw [List.getLastD_cons]
        exact hd.wcet _ (hw.symm ▸ List.getLastD_mem_cons)
  have hutil : ∀ x ∈ cfg.levelsLowToHigh, ∃ u, (if x.2 < d.wcet.length then
      (ofDict d level).getUtilization cfg x.1 else .error .index) = .ok u := by
    intro x hx
    rw [if_pos (by rw [hd.length]; exact (hc.levels x (cfg.levelsLowToHigh_perm.mem_iff.1 hx)).2)]
    exact hregular.getUtilization cfg x.1
  obtain ⟨us, hus, hlen⟩ := mapM_ok hutil
  refine ⟨{ ofDict d level with utilizationTuple := us }, ?_, ⟨hregular.period, hregular.wcet⟩, hd.criticality, ?_⟩
  · unfold init
    simp only [hlevel, hus, ok_bind]
  · show level < us.length
    rw [hlen, cfg.levelsLowToHigh_perm.length_eq]
    exact (hc.levels _ hmem).1

/-- Lists that are not longer than the tables allow are formatted. -/
theorem formatArray_ok {f : ℕ → ℤ} {id : ℕ} (h : count id ≤ maxCritLevels) :
    ∃ arr, formatArray ((List.range (count id)).map f) maxCritLevels = .ok arr := by
  refine ⟨_, if_neg ?_⟩
  rw [List.length_map, List.length_range]
  exact not_lt.2 h

theorem generateTaskConfigC_ok (h : ∀ id, count id ≤ maxCritLevels) (objects : List Task) (a : Allocator) :
    ∃ T, generateTaskConfigC maxCritLevels count objects a = .ok T := by
  have hdefinition : ∀ t, ∃ u, taskDefinition maxCritLevels count t = .ok u := by
    intro t
    obtain ⟨arr, harr⟩ := formatArray_ok (f := t.wcet) (h t.id)
    exact ⟨_, by rw [taskDefinition, harr]; rfl⟩
  have hentry : ∀ procId coreId type t, ∃ m, mapEntry maxCritLevels count procId coreId type t = .ok m := by
    intro procId coreId type t
    obtain ⟨arr, harr⟩ := formatArray_ok (f := t.virtualDeadline) (h t.id)
    exact ⟨_, by rw [mapEntry, harr]; rfl⟩
  have hcore : ∀ procId core, ∃ entries, coreEntries maxCritLevels count procId core = .ok entries := by
    intro procId core
    obtain ⟨primaries, hp, -⟩ := mapM_ok (l := core.assignedPrimaries) fun t _ =>
      hentry procId core.id .primary t
    obtain ⟨replicas, hr, -⟩ := mapM_ok (l := core.assignedReplicas) fun t _ =>
      hentry procId core.id .replica t
    exact ⟨_, by rw [coreEntries, hp, hr]; rfl⟩
  have hproc : ∀ proc, ∃ entries, processorEntries maxCritLevels count proc = .ok entries := by
    intro proc
    obtain ⟨entries, he, -⟩ := mapM_ok (l := proc.cores) fun core _ => hcore proc.id core
    exact ⟨_, by rw [processorEntries, he]; rfl⟩
  obtain ⟨definitions, hd, -⟩ := mapM_ok (l := objects) fun t _ => hdefinition t
  obtain ⟨entries, he, -⟩ := mapM_ok (l := a.processors) fun proc _ => hproc proc
  exact ⟨_, by rw [generateTaskConfigC, hd, he]; rfl⟩

theorem wcetCount_le {n : ℕ} (h : ∀ d ∈ dicts, d.wcet.length ≤ n) (taskId : ℕ) : wcetCount dicts taskId ≤ n := by
  unfold wcetCount
  cases hf : dicts.find? (·.taskId == taskId) with
  | none => exact Nat.zero_le n
  | some d => exact h d (List.mem_of_find?_eq_some hf)

/-- How the tool refuses a task set -/
def TooFew (e : Error) : Prop :=
  e = .raised "Initial processor estimate exceeds available processors." ∨
    e = .raised "Insufficient processors to allocate all tasks."

/-- **The tool ends.**  With enough fuel for its tuning loops it always returns
    the same, tables if there are tasks, or raises that the processors do not
    suffice; it raises nothing else. -/
theorem main_ends {cfg : SystemConfig} (hc : cfg.Usable) (hd : ∀ d ∈ dicts, Usable cfg.toSysConfig d) :
    ∃ fuel r, (∀ fuel' ≥ fuel, main cfg fuel' dicts = r) ∧
      ((∃ T, r = .ok T ∧ (dicts ≠ [] → T.isSome)) ∨ ∃ e, r = .error e ∧ TooFew e) := by
  suffices hends : Settles TooFew (fun fuel => main cfg fuel dicts) fun T => dicts ≠ [] → T.isSome by
    cases hends with
    | ok fuel h hT => exact ⟨fuel, _, h, .inl ⟨_, rfl, hT⟩⟩
    | error fuel h he => exact ⟨fuel, _, h, .inr ⟨_, rfl, he⟩⟩
  unfold main
  by_cases hempty : dicts.isEmpty = true
  · simp only [hempty, if_true]
    exact .pure fun hne => absurd (List.isEmpty_iff.1 hempty) hne
  simp only [hempty, Bool.false_eq_true, if_false]
  obtain ⟨objects, hobjects, -⟩ := mapM_ok fun d hmem =>
    (Task.init_ok hc (hd d hmem)).imp fun _ h => h.1
  have hgood : ∀ t ∈ objects, t.Regular ∧ t.criticalityStr ∈ cfg.levels.map Prod.fst ∧
      t.criticalityLevel < t.utilizationTuple.length := by
    intro t ht
    rw [mapM_eq_map hobjects fun d t h => Task.init_eq h] at ht
    obtain ⟨d, hmem, rfl⟩ := List.mem_map.1 ht
    obtain ⟨t, ht, hgood⟩ := Task.init_ok hc (hd d hmem)
    rw [← Task.init_eq ht]
    exact hgood
  simp only [hobjects, ok_bind]
  rcases Allocator.new_ok hc.cores fun t ht => (hgood t ht).2.2 with hnew | ⟨a, hnew, ha⟩
  · simp only [hnew]
    exact .throw (.inl rfl)
  simp only [hnew, ok_bind]
  have hrun := Allocator.run_settles ha (fun t ht => (hgood t ht).1) fun t ht => (hgood t ht).2.1
  refine (hrun.mono (fun _ h => h) fun e he => .inr he).bind fun a' _ => ?_
  obtain ⟨T, hT⟩ : ∃ T, generateTaskConfigC cfg.maxLevels (wcetCount dicts) objects a' = .ok T :=
    generateTaskConfigC_ok (wcetCount_le fun d hmem => (hd d hmem).length.le) objects a'
  simp only [hT, ok_bind]
  exact .pure fun _ => rfl

theorem main_ends_pair : ∃ fuel r, (∀ fuel' ≥ fuel, main pairConfig fuel' [halfDict] = r) ∧
    ((∃ T : Option Tables, r = .ok T ∧ T.isSome) ∨ ∃ e, r = .error e ∧ TooFew e) := by
  have hc : SysConfig.Usable pairConfig.toSysConfig := by
    refine ⟨Nat.one_ne_zero, fun level hlevel => ?_⟩
    rw [List.mem_singleton.1 hlevel]
    exact ⟨Nat.zero_lt_one, Nat.zero_lt_one⟩
  have hd : ∀ d ∈ [halfDict], Usable pairConfig.toSysConfig d := by
    intro d hd
    rw [List.mem_singleton.1 hd]
    refine ⟨List.mem_cons_self, ?_, rfl, fun w hw => ?_⟩
    · show (1 : ℤ) ≤ 10
      norm_num
    · rw [List.mem_singleton.1 hw]
      norm_num
  obtain ⟨fuel, r, h, hr⟩ := main_ends hc hd
  refine ⟨fuel, r, h, hr.imp_left ?_⟩
  rintro ⟨T, hT, hsome⟩
  exact ⟨T, hT, hsome (List.cons_ne_nil _ _)⟩

end EeftSched.TaskAllocator

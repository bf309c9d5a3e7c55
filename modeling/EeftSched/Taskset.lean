/-
  The task sets that the generator writes (`generate_taskset`, `sanity_check` in
  `tools/taskset_generator.py`), and the allocator that reads them, over exact
  arithmetic.

  * `generateTaskset_usable`: whatever is drawn, a task set meets all that the
    allocator and the scheduler assume of theirs;
  * `sanityCheck_of_run`: the check that follows passes for every task set that
    can be allocated.
-/
import EeftSched.AllocatorEnds
import EeftSched.TasksetDraws

namespace EeftSched.TasksetGenerator

open Except Outcome
open TaskAllocator (SysConfig SystemConfig Storable)

/-- `GenArgs`, of one task set; without choices `periodChoices` is empty, and so
    is `critDist`. -/
structure GenArgs where
  numTasks : ℕ
  avgUtil : ℚ
  totalUtil : Option ℚ
  replicaMean : ℚ
  replicaMax : ℤ
  critDist : List (String × ℚ)
  periodMin : ℤ
  periodMax : ℤ
  periodMode : String
  periodChoices : List ℤ
  enforceHarmonic : Bool
  wcetScale : List ℚ
  utilSampler : String
  utilStddev : ℚ
  deadlineEqualPeriod : Bool

/-- The utilizations of the primaries -/
def sampleUtils (m : FloatMath) (args : GenArgs) (uTotal : ℚ) : Gen (List ℚ) :=
  if args.utilSampler = "uunifast" then uunifastDiscard m args.numTasks uTotal
  else if args.utilSampler = "normal" then do
    let raw ← (List.range args.numTasks).mapM fun _ => do
      let x ← gauss args.avgUtil args.utilStddev
      pure (max (1 / 10 ^ 4) x)
    pure (raw.map fun u => u / raw.sum * uTotal)
  else do
    let raw ← (List.range args.numTasks).mapM fun _ => do
      let r ← random
      pure (r.1 * args.avgUtil * 2)
    let s := if raw.sum = 0 then 1 else raw.sum
    pure (raw.map fun u => u / s * uTotal)

/-- The draw of `generate_single_task` for the deadline, when it makes one -/
def drawForDeadline (deadlineEqualPeriod : Bool) : Gen Draw :=
  if deadlineEqualPeriod then pure halfDraw else random

/-- One turn of the loop over the tasks -/
def sampleTask (m : FloatMath) (fuel : ℕ) (cfg : SystemConfig) (args : GenArgs) (critDist : List (String × ℚ))
    (taskId : ℕ) (util : ℚ) (replicas : ℤ) : Gen TaskDict := do
  let crit ← sampleCriticality critDist
  let period ← samplePeriod m args.periodMin args.periodMax args.periodMode args.periodChoices
    args.enforceHarmonic
  let sampled ← sampleReplicas m fuel args.replicaMean args.replicaMax
  let draw ← drawForDeadline args.deadlineEqualPeriod
  match generateSingleTask taskId util crit period args.deadlineEqualPeriod cfg.levels cfg.maxLevels
    args.wcetScale args.replicaMax sampled draw with
  | .error e => throw (.raised e)
  | .ok t => pure { t with replicas := replicas }

/-- The loop over the tasks, with the ids from `taskId` on -/
def sampleTasks (m : FloatMath) (fuel : ℕ) (cfg : SystemConfig) (args : GenArgs)
    (critDist : List (String × ℚ)) : ℕ → List (ℚ × ℤ) → Gen (List TaskDict)
  | _, [] => pure []
  | taskId, (util, replicas) :: rest => do
    let t ← sampleTask m fuel cfg args critDist taskId util replicas
    let tasks ← sampleTasks m fuel cfg args critDist (taskId + 1) rest
    pure (t :: tasks)

/-- `crit_dist` of `generate_taskset` -/
def criticalityDist (cfg : SystemConfig) (args : GenArgs) : Gen (List (String × ℚ)) :=
  if args.critDist = [] then pure (cfg.levels.map fun level => (level.1, 1))
  else normalizeWeights args.critDist

/-- `generate_taskset` -/
def generateTaskset (m : FloatMath) (fuel : ℕ) (cfg : SystemConfig) (args : GenArgs) : Gen (List TaskDict) :=
  if args.numTasks > cfg.maxTasks then throw .exit
  else do
    let critDist ← criticalityDist cfg args
    let prelimReplicas ← (List.range args.numTasks).mapM fun _ =>
      sampleReplicas m fuel args.replicaMean args.replicaMax
    let totalInstances : ℤ := (prelimReplicas.map fun r => 1 + r).sum
    if totalInstances = 0 then throw .zeroDivision
    else
      let uTotalAll :=
        match args.totalUtil with
        | some totalUtil => totalUtil
        | none => args.avgUtil * totalInstances
      let utils ← sampleUtils m args (uTotalAll * ((args.numTasks : ℚ) / totalInstances))
      sampleTasks m fuel cfg args critDist 1 (utils.zip prelimReplicas)

/-! ## `sanity_check` -/

/-- What a task adds at the level with number `num` -/
def checkedShare (cfg : SysConfig) (num : ℕ) (t : TaskDict) : Except Abort ℚ :=
  match cfg.levels.lookup t.criticality with
  | none => .error (.raised .key)
  | some taskCritNum =>
    if taskCritNum ≥ num then
      match if num < t.wcet.length then t.wcet[num]? else t.wcet.getLast? with
      | none => .error (.raised .index)
      | some wcetVal => if t.period = 0 then .error .zeroDivision else .ok (wcetVal / t.period)
    else .ok 0

/-- `per_level_util` of the level with number `num` -/
def perLevelUtil (cfg : SysConfig) (num : ℕ) (tasks : List TaskDict) : Except Abort ℚ :=
  tasks.foldlM (fun util t => do
    let u ← checkedShare cfg num t
    .ok (util + u)) 0

/-- `sanity_check`, level by level: whether the task set passes -/
def sanityCheck (cfg : SystemConfig) (tasks : List TaskDict) : Except Abort Bool :=
  if tasks.length > cfg.maxTasks then .ok false
  else do
    let totalCores : ℕ := cfg.numProcessors * cfg.numCoresPerProcessor
    let utils ← cfg.levels.mapM fun level => perLevelUtil cfg.toSysConfig level.2 tasks
    .ok (utils.all fun util => util ≤ totalCores + 1 / 10 ^ 9)

variable {m : FloatMath} {cfg : SystemConfig} {args : GenArgs} {t : TaskDict} {tasks : List TaskDict}

/-! ## One task -/

/-- What the generator relies on in its arguments -/
structure GenArgs.Valid (args : GenArgs) : Prop where
  positive : 1 ≤ args.periodMin
  ordered : args.periodMin ≤ args.periodMax
  bounded : args.periodMax < 2 ^ 32
  choices : ∀ p ∈ args.periodChoices, 1 ≤ p ∧ p < 2 ^ 32
  wcetScale : args.wcetScale ≠ []

/-- What the allocator and the scheduler assume of a task -/
structure TaskDict.Proper (cfg : SysConfig) (t : TaskDict) : Prop where
  criticality : t.criticality ∈ cfg.levels.map Prod.fst
  period : 1 ≤ t.period ∧ t.period < 2 ^ 32
  deadline : 1 ≤ t.deadline ∧ t.deadline ≤ t.period
  length : t.wcet.length = cfg.maxLevels
  wcet : ∀ w ∈ t.wcet, 1 ≤ w ∧ w ≤ max 1 (min t.period t.deadline - 1)
  nondecreasing : t.wcet.Pairwise (· ≤ ·)

/-- What `generate_single_task` returns -/
theorem generateSingleTask_proper {cfg : SysConfig} {taskId : ℕ} {util : ℚ} {crit : String} {period : ℤ}
    {deadlineEqualPeriod : Bool} {wcetScale : List ℚ} {replicaMax sampled : ℤ} {draw : Draw}
    (hlevels : ∀ level ∈ cfg.levels, level.2 < cfg.maxLevels) (hs : wcetScale ≠ [])
    (hp : 1 ≤ period ∧ period < 2 ^ 32)
    (h : generateSingleTask taskId util crit period deadlineEqualPeriod cfg.levels cfg.maxLevels wcetScale
      replicaMax sampled draw = .ok t) :
    t.Proper cfg ∧ t.taskId = taskId := by
  cases hlevel : cfg.levels.lookup crit with
  | none =>
    simp only [generateSingleTask, hlevel] at h
    cases h
  | some critLevel =>
  simp only [generateSingleTask, hlevel, ok_bind] at h
  obtain ⟨floatWcet, hfloat, h⟩ := bind_eq_ok.1 h
  obtain ⟨wcet, hfit, h⟩ := bind_eq_ok.1 h
  cases h
  have hmem : (crit, critLevel) ∈ cfg.levels := by
    obtain ⟨before, after, heq, -⟩ := List.lookup_eq_some_iff.1 hlevel
    rw [heq]
    exact List.mem_append_right _ List.mem_cons_self
  have hlen : floatWcet.length = cfg.maxLevels := by
    obtain ⟨w, hw, hlen⟩ := floatWcets_ok hs (hlevels _ hmem) (max 1 (util * period))
    rw [hfloat] at hw
    cases hw
    exact hlen
  have hraised : (raise (floatWcet.map fun x => max 1 (Rounding.roundHalfEven x))).length = cfg.maxLevels := by
    rw [length_raise, List.length_map, hlen]
  have hne : raise (floatWcet.map fun x => max 1 (Rounding.roundHalfEven x)) ≠ [] := by
    rw [← List.length_pos_iff_ne_nil, hraised]
    exact Nat.zero_lt_of_lt (hlevels _ hmem)
  have hone : ∀ w ∈ raise (floatWcet.map fun x => max 1 (Rounding.roundHalfEven x)), 1 ≤ w := by
    intro w hw
    obtain ⟨x, -, rfl⟩ := List.mem_map.1 (mem_of_mem_raise hw)
    exact le_max_left _ _
  obtain ⟨fitted, hfitted, hlenf, hsorted, hbounds⟩ :=
    fit_spec (le_max_left 1 (min period (drawDeadline period deadlineEqualPeriod draw) - 1)) hne
      (raise_pairwise _) hone
  rw [hfit] at hfitted
  cases hfitted
  exact ⟨⟨List.mem_map_of_mem hmem, hp, drawDeadline_bounds hp.1 deadlineEqualPeriod draw,
    hlenf.trans hraised, hbounds, hsorted⟩, rfl⟩

theorem sampleTask_yields (hm : m.Lawful) (ha : args.Valid)
    (hlevels : ∀ level ∈ cfg.levels, level.2 < cfg.maxLevels) (fuel : ℕ) (critDist : List (String × ℚ))
    (taskId : ℕ) (util : ℚ) (replicas : ℤ) :
    Yields (sampleTask m fuel cfg args critDist taskId util replicas) fun t =>
      t.Proper cfg.toSysConfig ∧ t.taskId = taskId ∧ t.replicas = replicas := by
  refine (Yields.any _).bind fun crit _ => ?_
  refine (samplePeriod_yields hm ha.ordered ha.bounded args.periodMode args.periodChoices args.enforceHarmonic).bind
    fun period hperiod => ?_
  have hp : 1 ≤ period ∧ period < 2 ^ 32 := by
    have h1 := ha.positive
    have h2 := ha.bounded
    split_ifs at hperiod with hharmonic hchoices
    · obtain ⟨hlow, hhigh⟩ := hperiod
      omega
    · exact ha.choices period hperiod
    · omega
  refine (Yields.any _).bind fun sampled _ => ?_
  refine (Yields.any _).bind fun draw _ => ?_
  split
  · exact .throw _
  · next t ht =>
    obtain ⟨hproper, hid⟩ := generateSingleTask_proper hlevels ha.wcetScale hp ht
    exact .pure ⟨⟨hproper.criticality, hproper.period, hproper.deadline, hproper.length, hproper.wcet,
      hproper.nondecreasing⟩, hid, rfl⟩

/-! ## The task set -/

theorem sampleTasks_yields (hm : m.Lawful) (ha : args.Valid)
    (hlevels : ∀ level ∈ cfg.levels, level.2 < cfg.maxLevels) (fuel : ℕ) (critDist : List (String × ℚ))
    (taskId : ℕ) (plan : List (ℚ × ℤ)) :
    Yields (sampleTasks m fuel cfg args critDist taskId plan) fun tasks =>
      tasks.map TaskDict.taskId = List.range' taskId plan.length ∧
        tasks.map TaskDict.replicas = plan.map Prod.snd ∧ ∀ t ∈ tasks, t.Proper cfg.toSysConfig := by
  induction plan generalizing taskId with
  | nil => exact .pure ⟨rfl, rfl, nofun⟩
  | cons x rest ih =>
    refine (sampleTask_yields hm ha hlevels fuel critDist taskId x.1 x.2).bind fun t ht => ?_
    obtain ⟨hproper, hid, hreplicas⟩ := ht
    refine (ih (taskId + 1)).bind fun tasks htasks => .pure ?_
    obtain ⟨hids, hrs, hall⟩ := htasks
    refine ⟨?_, ?_, List.forall_mem_cons.2 ⟨hproper, hall⟩⟩
    · rw [List.map_cons, hid, hids, List.length_cons, List.range'_succ]
    · rw [List.map_cons, hreplicas, hrs, List.map_cons]

theorem sampleUtils_yields (hn : args.numTasks ≠ 0) (uTotal : ℚ) :
    Yields (sampleUtils m args uTotal) fun us => us.length = args.numTasks := by
  have hraw : ∀ (draw : Gen ℚ) (f : List ℚ → ℚ → ℚ),
      Yields ((List.range args.numTasks).mapM (fun _ => draw) >>= fun raw => pure (raw.map (f raw)))
        fun us => us.length = args.numTasks := by
    intro draw f
    refine (Yields.mapM fun _ _ => Yields.any draw).bind fun raw hraw => .pure ?_
    rw [List.length_map, hraw.1, List.length_range]
  unfold sampleUtils
  split_ifs
  · exact uunifastDiscard_length m hn uTotal
  · exact hraw _ fun raw u => u / raw.sum * uTotal
  · exact hraw _ fun raw u => u / (if raw.sum = 0 then 1 else raw.sum) * uTotal

/-- The ids are 1, 2, ..., and there are no more replicas than allowed. -/
theorem generateTaskset_yields (hm : m.Lawful) (ha : args.Valid)
    (hlevels : ∀ level ∈ cfg.levels, level.2 < cfg.maxLevels) (fuel : ℕ) :
    Yields (generateTaskset m fuel cfg args) fun tasks =>
      args.numTasks ≤ cfg.maxTasks ∧ tasks.map TaskDict.taskId = List.range' 1 args.numTasks ∧
        ∀ t ∈ tasks, t.Proper cfg.toSysConfig ∧ 0 ≤ t.replicas ∧ t.replicas ≤ max 0 args.replicaMax := by
  unfold generateTaskset
  split_ifs with hmax
  · exact .throw _
  refine (Yields.any (criticalityDist cfg args)).bind fun critDist _ => ?_
  refine (Yields.mapM fun _ _ => sampleReplicas_yields m fuel args.replicaMean args.replicaMax).bind
    fun prelim hprelim => ?_
  obtain ⟨hlen, hreplicas⟩ := hprelim
  rw [List.length_range] at hlen
  simp only
  split_ifs with htotal
  · exact .throw _
  have hn : args.numTasks ≠ 0 := by
    intro hzero
    rw [hzero] at hlen
    rw [List.length_eq_zero_iff.1 hlen] at htotal
    exact htotal rfl
  refine (sampleUtils_yields hn _).bind fun utils hutils => ?_
  refine (sampleTasks_yields hm ha hlevels fuel critDist 1 _).mono fun tasks htasks => ?_
  obtain ⟨hids, hrs, hproper⟩ := htasks
  have hzip : (utils.zip prelim).length = args.numTasks := by
    rw [List.length_zip, hutils, hlen, min_self]
  rw [hzip] at hids
  refine ⟨not_lt.1 hmax, hids, fun t ht => ⟨hproper t ht, ?_⟩⟩
  have hmem : t.replicas ∈ tasks.map TaskDict.replicas := List.mem_map_of_mem ht
  rw [hrs, List.map_snd_zip (hlen.trans hutils.symm).le] at hmem
  exact hreplicas _ hmem

/-! ## What the allocator gets -/

namespace TaskDict.Proper

variable {cfg : SysConfig}

theorem usable (h : t.Proper cfg) : TaskAllocator.Usable cfg t where
  criticality := h.criticality
  period := h.period.1
  length := h.length
  wcet w hw := zero_le_one.trans (h.wcet w hw).1

/-- Past its end the list goes on with its last entry. -/
theorem getD_le_getD {wcet : List ℤ} (h : wcet.Pairwise (· ≤ ·)) (k : ℕ) :
    wcet.getD k (wcet.getLastD 0) ≤ wcet.getD (k + 1) (wcet.getLastD 0) := by
  have hlast : ∀ {w : ℤ}, w ∈ wcet → w ≤ wcet.getLastD 0 := by
    intro w hw
    have hne := List.ne_nil_of_mem hw
    rw [List.getLastD_eq_getLast?, List.getLast?_eq_some_getLast hne, Option.getD_some]
    rw [← List.dropLast_append_getLast hne, List.mem_append, List.mem_singleton] at hw
    rcases hw with hw | hw
    · rw [← List.dropLast_append_getLast hne, List.pairwise_append] at h
      exact h.2.2 w hw _ (List.mem_singleton_self _)
    · exact hw.le
  rw [List.getD_eq_getElem?_getD, List.getD_eq_getElem?_getD]
  cases hk : wcet[k]? with
  | none => rw [List.getElem?_eq_none ((List.getElem?_eq_none_iff.1 hk).trans k.le_succ)]
  | some w =>
    cases hk' : wcet[k + 1]? with
    | none => exact hlast (List.mem_of_getElem? hk)
    | some w' =>
      obtain ⟨hlt, rfl⟩ := List.getElem?_eq_some_iff.1 hk
      obtain ⟨hlt', rfl⟩ := List.getElem?_eq_some_iff.1 hk'
      exact List.pairwise_iff_getElem.1 h k (k + 1) hlt hlt' k.lt_succ_self

theorem init (h : t.Proper cfg) (hc : cfg.Usable) :
    TaskAllocator.Task.init cfg t = .ok (TaskAllocator.Task.object cfg t) := by
  obtain ⟨u, hu, -⟩ := TaskAllocator.Task.init_ok hc h.usable
  rw [TaskAllocator.Task.object, hu]
  rfl

end TaskDict.Proper

theorem TaskDict.Proper.fits (h : t.Proper cfg.toSysConfig) (hc : cfg.Usable) :
    (TaskAllocator.Task.object cfg.toSysConfig t).Fits cfg.toSysConfig := by
  obtain ⟨-, level, u, hlevel, ht⟩ := TaskAllocator.Task.init_spec (h.init hc)
  obtain ⟨before, after, heq, -⟩ := List.lookup_eq_some_iff.1 hlevel
  have hmem : (t.criticality, level) ∈ cfg.levels := by
    rw [heq]
    exact List.mem_append_right _ List.mem_cons_self
  rw [ht]
  exact ⟨h.deadline.2, TaskDict.Proper.getD_le_getD h.nondecreasing, (hc.levels _ hmem).2⟩

/-- The tables of the scheduler have room for what the configuration allows. -/
structure Deployable (cfg : SystemConfig) : Prop where
  usable : cfg.Usable
  maxTasks : cfg.maxTasks < 2 ^ 32
  processors : cfg.numProcessors ≤ 2 ^ 8
  cores : cfg.numCoresPerProcessor ≤ 2 ^ 8

/-- **A generated task set can be used**, whatever is drawn: its values fit the
    tables of the scheduler, and each task is one that the allocator handles. -/
theorem generateTaskset_usable (hm : m.Lawful) (hc : Deployable cfg) (ha : args.Valid) (fuel : ℕ) :
    Yields (generateTaskset m fuel cfg args) fun tasks =>
      tasks.length = args.numTasks ∧ Storable cfg tasks ∧
        ∀ t ∈ tasks, 0 ≤ t.replicas ∧ t.replicas ≤ max 0 args.replicaMax ∧
          TaskAllocator.Usable cfg.toSysConfig t ∧
          (TaskAllocator.Task.object cfg.toSysConfig t).Fits cfg.toSysConfig := by
  refine (generateTaskset_yields hm ha (fun level hl => (hc.usable.levels level hl).2) fuel).mono ?_
  rintro tasks ⟨hmax, hids, hall⟩
  have hlen : tasks.length = args.numTasks := by
    have hlen := congrArg List.length hids
    rwa [List.length_map, List.length_range'] at hlen
  refine ⟨hlen, ⟨?_, ?_, hc.maxTasks, ?_, ?_, ?_, hc.processors, hc.cores⟩, ?_⟩
  · rw [hids]
    exact List.nodup_range'
  · intro t ht
    have hid : t.taskId ∈ List.range' 1 args.numTasks := hids ▸ List.mem_map_of_mem ht
    rw [List.mem_range'_1] at hid
    omega
  · intro t ht
    obtain ⟨hlow, hhigh⟩ := (hall t ht).1.period
    omega
  · intro t ht
    obtain ⟨hlow, hhigh⟩ := (hall t ht).1.period
    obtain ⟨hone, hle⟩ := (hall t ht).1.deadline
    omega
  · intro t ht w hw
    obtain ⟨hlow, hhigh⟩ := (hall t ht).1.period
    obtain ⟨hone, hle⟩ := (hall t ht).1.wcet w hw
    omega
  · intro t ht
    obtain ⟨hproper, hnonneg, hle⟩ := hall t ht
    exact ⟨hnonneg, hle, hproper.usable, hproper.fits hc.usable⟩

/-- One task of half a core -/
def oneTask : GenArgs where
  numTasks := 1
  avgUtil := 1 / 2
  totalUtil := none
  replicaMean := 0
  replicaMax := 0
  critDist := []
  periodMin := 10
  periodMax := 20
  periodMode := "uniform"
  periodChoices := []
  enforceHarmonic := false
  wcetScale := [1]
  utilSampler := "uunifast"
  utilStddev := 0
  deadlineEqualPeriod := true

theorem oneTask_valid : oneTask.Valid := by
  refine ⟨?_, ?_, ?_, nofun, List.cons_ne_nil _ _⟩
  · show (1 : ℤ) ≤ 10
    norm_num
  · show (10 : ℤ) ≤ 20
    norm_num
  · show (20 : ℤ) < 2 ^ 32
    norm_num

theorem pairConfig_deployable : Deployable TaskAllocator.pairConfig := by
  refine ⟨⟨Nat.one_ne_zero, fun level hlevel => ?_⟩, ?_, ?_, ?_⟩
  · rw [List.mem_singleton.1 hlevel]
    exact ⟨Nat.zero_lt_one, Nat.zero_lt_one⟩
  · show 1 < 2 ^ 32
    norm_num
  · show 2 ≤ 2 ^ 8
    norm_num
  · show 1 ≤ 2 ^ 8
    norm_num

theorem generateTaskset_usable_one : ∃ tasks, tasks.length = 1 ∧ Storable TaskAllocator.pairConfig tasks := by
  have hok : ((generateTaskset roughMath 1 TaskAllocator.pairConfig oneTask).run
      ⟨fun _ => halfDraw, fun _ => 0, []⟩).toBool = true := by
    decide +kernel
  cases hrun : (generateTaskset roughMath 1 TaskAllocator.pairConfig oneTask).run
      ⟨fun _ => halfDraw, fun _ => 0, []⟩ with
  | error e =>
    rw [hrun] at hok
    cases hok
  | ok r =>
    obtain ⟨hlen, hstorable, -⟩ := generateTaskset_usable roughMath_lawful pairConfig_deployable
      oneTask_valid 1 _ r.1 r.2 hrun
    exact ⟨r.1, hlen, hstorable⟩

/-! ## The check -/

section
variable {cfg : SystemConfig} {tasks : List TaskDict} {num : ℕ}

open TaskAllocator.Core (utilizationShare)

/-- What the check counts is what the allocator counts. -/
theorem checkedShare_eq (hc : cfg.Usable) (hnum : num < cfg.maxLevels) (h : t.Proper cfg.toSysConfig) :
    checkedShare cfg.toSysConfig num t = .ok (utilizationShare (TaskAllocator.Task.object cfg.toSysConfig t) num) := by
  obtain ⟨hperiod, level, u, hlevel, ht⟩ := TaskAllocator.Task.init_spec (h.init hc)
  have hlt : num < t.wcet.length := by
    rw [h.length]
    exact hnum
  have hget : t.wcet.getD num (t.wcet.getLastD 0) = t.wcet[num] := by
    rw [List.getD_eq_getElem?_getD, List.getElem?_eq_getElem hlt, Option.getD_some]
  rw [ht]
  show _ = Except.ok (if num ≤ level then ((t.wcet.getD num (t.wcet.getLastD 0) : ℤ) : ℚ) / (t.period : ℚ) else 0)
  unfold checkedShare
  rw [hlevel, hget]
  simp only [if_pos hlt, List.getElem?_eq_getElem hlt, if_neg hperiod, ge_iff_le]
  split_ifs <;> rfl

theorem perLevelUtil_eq (hc : cfg.Usable) (hnum : num < cfg.maxLevels)
    (h : ∀ t ∈ tasks, t.Proper cfg.toSysConfig) :
    perLevelUtil cfg.toSysConfig num tasks =
      .ok (tasks.map fun t => utilizationShare (TaskAllocator.Task.object cfg.toSysConfig t) num).sum := by
  unfold perLevelUtil
  rw [foldlM_eq_ok (g := fun util t => util + utilizationShare (TaskAllocator.Task.object cfg.toSysConfig t) num)
    fun util t ht => by rw [checkedShare_eq hc hnum (h t ht)]; rfl]
  rw [List.sum_eq_foldl, List.foldl_map]

/-- **The check rejects no task set that can be allocated.** -/
theorem sanityCheck_of_main {fuel : ℕ} {T : TaskAllocator.Tables} (hc : cfg.Usable)
    (hlen : tasks.length ≤ cfg.maxTasks) (hids : (tasks.map TaskDict.taskId).Nodup)
    (h : ∀ t ∈ tasks, t.Proper cfg.toSysConfig) (hmain : TaskAllocator.main cfg fuel tasks = .ok (some T)) :
    sanityCheck cfg tasks = .ok true := by
  obtain ⟨a, a', hnew, hrun, -⟩ := TaskAllocator.main_spec hmain
  have hid : ((tasks.map (TaskAllocator.Task.object cfg.toSysConfig)).map TaskAllocator.Task.id).Nodup := by
    rw [List.map_map]
    exact (List.map_congr_left fun t _ => TaskAllocator.Task.object_id cfg.toSysConfig t) ▸ hids
  obtain ⟨done, hdone, hr⟩ := TaskAllocator.Allocator.run_reached (P := TaskAllocator.Filled cfg.toSysConfig)
    .new hid (fun t ht => by
      obtain ⟨d, hd, rfl⟩ := List.mem_map.1 ht
      exact ((h d hd).fits hc).kept) hnew hrun
  unfold sanityCheck
  rw [if_neg (not_lt.2 hlen), mapM_eq_ok fun level hl => perLevelUtil_eq hc (hc.levels level hl).2 h]
  simp only [ok_bind]
  congr 1
  refine List.all_eq_true.2 fun util hutil => decide_eq_true ?_
  obtain ⟨level, hl, rfl⟩ := List.mem_map.1 hutil
  have hshare := hr.share_le ((hdone.map TaskAllocator.Task.id).nodup_iff.2 hid) (fun t ht => ?_) hl
  · rw [(hdone.map _).sum_eq, List.map_map] at hshare
    push_cast
    exact hshare.trans (le_add_of_nonneg_right (by norm_num))
  · obtain ⟨d, hd, rfl⟩ := List.mem_map.1 (hdone.mem_iff.1 ht)
    obtain ⟨u, hu, hregular, -⟩ := TaskAllocator.Task.init_ok hc (h d hd).usable
    rw [TaskAllocator.Task.init_eq hu] at hregular
    exact hregular.share_nonneg level.2

theorem sanityCheck_of_main_pair :
    sanityCheck TaskAllocator.pairConfig [TaskAllocator.halfDict] = .ok true := by
  obtain ⟨T, hmain, -⟩ := TaskAllocator.main_pair
  refine sanityCheck_of_main pairConfig_deployable.usable le_rfl (List.nodup_singleton _) ?_ hmain
  intro t ht
  rw [List.mem_singleton.1 ht]
  refine ⟨List.mem_cons_self, ?_, ?_, rfl, ?_, List.pairwise_singleton _ _⟩
  · show (1 : ℤ) ≤ 10 ∧ (10 : ℤ) < 2 ^ 32
    norm_num
  · show (1 : ℤ) ≤ 10 ∧ (10 : ℤ) ≤ 10
    norm_num
  · show ∀ w ∈ [(5 : ℤ)], 1 ≤ w ∧ w ≤ max 1 (min 10 10 - 1)
    norm_num

end

end EeftSched.TasksetGenerator

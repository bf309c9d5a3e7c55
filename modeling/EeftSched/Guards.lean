/-
  The task table as the tick reads it (`sched_core.c`, `sched_migration.c`,
  `sched_util.c`, `power_management.c`), with the faults it can run into: a
  task that `find_task_by_id` does not know, and a division by a period of 0.

  Each loop has the tests of the source and no others.

  * `dueTask_eq`, `findNextEffectiveArrivalTimeChecked_eq`: the release of jobs
    and the search for the next release test what they use, and never fault;
  * `findSlackChecked_eq`: at a level whose tasks are all known, with positive
    periods, the analysis does not fault, and finds the slack `findSlack` finds;
  * `findSlackChecked_fails`: an unknown task, or one of the level with period
    0, makes it fault;
  * `futureReleaseChecked_fails_iff`: so does a task with period 0 that
    `attempt_future_load_shedding` takes for worth a migration.
-/
import EeftSched.Lib.Checked
import EeftSched.Slack
import EeftSched.Processor

namespace EeftSched

open Except

/-- What ends the program -/
inductive Fault where
  | nullTask
  | divByZero
deriving DecidableEq, Repr

/-- `task->` -/
def deref : Option Task → Except Fault Task
  | none => .error .nullTask
  | some task => .ok task

/-- `a / b` -/
def divide (a b : ℕ) : Except Fault ℕ := if b = 0 then .error .divByZero else .ok (a / b)

/-- `a % b` -/
def modulo (a b : ℕ) : Except Fault ℕ := if b = 0 then .error .divByZero else .ok (a % b)

theorem divide_eq {b : ℕ} (a : ℕ) (h : b ≠ 0) : divide a b = .ok (a / b) := if_neg h

theorem modulo_eq {b : ℕ} (a : ℕ) (h : b ≠ 0) : modulo a b = .ok (a % b) := if_neg h

theorem divide_fails_iff {a b : ℕ} : (divide a b).Fails ↔ b = 0 := by
  unfold divide
  split_ifs with h <;> simp [h]

/-! ## The horizon -/

/-- The loop of `gcd`; the second argument falls, so that it bounds the passes. -/
def gcdLoop : ℕ → ℕ → ℕ → Except Fault ℕ
  | 0, a, _ => .ok a
  | fuel + 1, a, b =>
    if b = 0 then .ok a
    else do
      let r ← modulo a b
      gcdLoop fuel b r

theorem gcdLoop_eq {fuel a b : ℕ} (h : b < fuel) : gcdLoop fuel a b = .ok (a.gcd b) := by
  induction fuel generalizing a b with
  | zero => omega
  | succ fuel ih =>
    unfold gcdLoop
    split_ifs with hb
    · rw [hb, Nat.gcd_zero_right]
    · have hlt := Nat.mod_lt a (Nat.pos_of_ne_zero hb)
      rw [modulo_eq a hb, ok_bind, ih (by omega), Nat.gcd_comm a b, Nat.gcd_rec b a, Nat.gcd_comm]

def safeLcmChecked (a b cap : ℕ) : Except Fault ℕ :=
  if a = 0 ∨ b = 0 then .ok 0
  else do
    let g ← gcdLoop (b + 1) a b
    let q ← divide a g
    let result := q * b
    .ok (if result > cap then cap else result)

/-- The test for 0 is enough. -/
theorem safeLcmChecked_eq (a b cap : ℕ) : safeLcmChecked a b cap = .ok (safeLcm a b cap) := by
  unfold safeLcmChecked safeLcm
  split_ifs with h
  · rfl
  · have hg : a.gcd b ≠ 0 := by
      rw [Ne, Nat.gcd_eq_zero_iff]
      tauto
    rw [gcdLoop_eq (Nat.lt_succ_self b), ok_bind, divide_eq a hg, ok_bind]

def calculateQueueHorizonChecked : List Job → ℕ → Except Fault ℕ
  | [], horizon => .ok horizon
  | job :: queue, horizon =>
    if horizon = 0 then calculateQueueHorizonChecked queue job.parentTask.period
    else do
      let horizon ← safeLcmChecked horizon job.parentTask.period slackCalcHorizonTicksCap
      if horizon ≥ slackCalcHorizonTicksCap then .ok slackCalcHorizonTicksCap
      else calculateQueueHorizonChecked queue horizon

theorem calculateQueueHorizonChecked_eq (queue : List Job) (horizon : ℕ) :
    calculateQueueHorizonChecked queue horizon = .ok (calculateQueueHorizon queue horizon) := by
  induction queue generalizing horizon with
  | nil => rfl
  | cons job queue ih =>
    unfold calculateQueueHorizonChecked calculateQueueHorizon
    split_ifs with h
    · exact ih _
    · rw [safeLcmChecked_eq, ok_bind]
      simp only
      split_ifs
      · rfl
      · exact ih _

def calculateHorizonChecked (v : CoreView) : Except Fault ℕ := do
  let horizon := v.cachedSlackHorizon
  let horizon ←
    match v.runningJob with
    | some job => safeLcmChecked horizon job.parentTask.period slackCalcHorizonTicksCap
    | none => .ok horizon
  let horizon ← calculateQueueHorizonChecked v.readyQueue horizon
  let horizon ← calculateQueueHorizonChecked v.replicaQueue horizon
  calculateQueueHorizonChecked v.pendingJobsQueue horizon

theorem calculateHorizonChecked_eq (v : CoreView) :
    calculateHorizonChecked v = .ok (calculateHorizon v) := by
  unfold calculateHorizonChecked calculateHorizon
  cases v.runningJob with
  | none => simp only [ok_bind, calculateQueueHorizonChecked_eq]
  | some job => simp only [ok_bind, safeLcmChecked_eq, calculateQueueHorizonChecked_eq]

/-! ## The analysis -/

/-- One allocation entry in `collect_active_and_future_deadlines`, which takes
    the task without a test -/
def processEntryChecked (cfg : Config) (critLvl tstart horizon : ℕ) (deadlines : List ℕ)
    (m : TaskAlloc) : Except Fault (List ℕ) := do
  let task ← deref (cfg.findTaskById m.taskId)
  if task.critLevel < critLvl then .ok deadlines
  else
    let q ← divide tstart task.period
    .ok (processReleases cfg.maxDeadlines tstart horizon task.period (m.tunedDeadlines critLvl)
      (horizon + 1) ((q + 1) * task.period) deadlines)

def collectActiveAndFutureDeadlinesChecked (cfg : Config) (v : CoreView) (critLvl tstart : ℕ)
    (extraJob : Option Job) : Except Fault (List ℕ) :=
  if cfg.maxDeadlines = 0 ∨ critLvl ≥ cfg.maxCriticalityLevels then .ok []
  else do
    let horizon ← calculateHorizonChecked v
    let process := processJobDeadlines cfg.maxDeadlines critLvl tstart
    let deadlines := process v.pendingJobsQueue (process v.replicaQueue (process v.readyQueue
      (process v.runningJob.toList (process extraJob.toList []))))
    let deadlines ←
      (cfg.entries v.coreId).foldlM (processEntryChecked cfg critLvl tstart horizon) deadlines
    .ok (unique (deadlines.insertionSort (· ≤ ·)))

/-- One allocation entry in `__find_slack`, which tests the task and not the
    period -/
def addEntryDemandChecked (cfg : Config) (critLvl tstart d : ℕ) (scalingFactor : ℚ) (demand : ℚ)
    (m : TaskAlloc) : Except Fault ℚ :=
  match cfg.findTaskById m.taskId with
  | none => .ok demand
  | some task =>
    if task.critLevel < critLvl then .ok demand
    else do
      let q ← divide tstart task.period
      .ok (addReleases .exact (m.tunedDeadlines critLvl) task.period d
        ⌈(task.wcet critLvl : ℚ) / scalingFactor⌉ (d + 1) ((q + 1) * task.period) demand)

def slackAtChecked (cfg : Config) (v : CoreView) (critLvl tstart : ℕ) (scalingFactor : ℚ)
    (extraJob : Option Job) (d : ℕ) : Except Fault ℚ := do
  let demand ←
    (cfg.entries v.coreId).foldlM (addEntryDemandChecked cfg critLvl tstart d scalingFactor)
      (jobsUpTo .exact v critLvl d scalingFactor extraJob)
  .ok (((d - tstart : ℕ) : ℚ) - demand)

/-- `__find_slack` -/
def findSlackChecked (cfg : Config) (systemTime : ℕ) (v : CoreView) (critLvl tstart : ℕ)
    (scalingFactor : ℚ) (extraJob : Option Job) : Except Fault ℚ :=
  if critLvl ≥ cfg.maxCriticalityLevels then .ok 0
  else do
    let scalingFactor := if scalingFactor ≤ 0 then 1 else scalingFactor
    let tstart := if tstart > systemTime then tstart else systemTime
    let deadlines ← collectActiveAndFutureDeadlinesChecked cfg v critLvl tstart extraJob
    if deadlines.length = 0 then .ok fltMax
    else
      let minSlack ← deadlines.foldlM (fun minSlack d => do
        let slack ← slackAtChecked cfg v critLvl tstart scalingFactor extraJob d
        .ok (if slack < minSlack then slack else minSlack)) fltMax
      .ok (if minSlack < 0 then 0 else minSlack)

/-- `__is_admissible` -/
def isAdmissibleChecked (cfg : Config) (systemTime : ℕ) (v : CoreView) (candidateJob : Job)
    (extraMargin : ℚ) : Except Fault Bool :=
  (List.range' v.localCriticalityLevel (cfg.maxCriticalityLevels - v.localCriticalityLevel)).allM
    fun critLvl =>
      let virtualDeadline := candidateJob.arrivalTime + candidateJob.relativeTunedDeadlines critLvl
      if virtualDeadline ≤ systemTime then .ok false
      else do
        let available ←
          findSlackChecked cfg systemTime v critLvl candidateJob.arrivalTime 1 (some candidateJob)
        .ok (!decide (available < slackMarginTicks + extraMargin))

/-- The task of the entry is known, and has a period if it is one of the tasks
    of level `critLvl`. -/
def TaskAlloc.Sound (cfg : Config) (critLvl : ℕ) (m : TaskAlloc) : Prop :=
  ∃ task, cfg.findTaskById m.taskId = some task ∧ (critLvl ≤ task.critLevel → task.period ≠ 0)

section
variable {cfg : Config} {critLvl : ℕ} {m : TaskAlloc}

theorem processEntryChecked_eq (h : m.Sound cfg critLvl) (tstart horizon : ℕ) (deadlines : List ℕ) :
    processEntryChecked cfg critLvl tstart horizon deadlines m =
      .ok (processEntry cfg critLvl tstart horizon deadlines m) := by
  obtain ⟨task, htask, hp⟩ := h
  unfold processEntryChecked processEntry
  simp only [htask, deref, ok_bind]
  split_ifs with hc
  · rfl
  · rw [divide_eq tstart (hp (not_lt.1 hc))]
    rfl

theorem addEntryDemandChecked_eq (h : m.Sound cfg critLvl) (tstart d : ℕ) (scalingFactor demand : ℚ) :
    addEntryDemandChecked cfg critLvl tstart d scalingFactor demand m =
      .ok (addEntryDemand .exact cfg critLvl tstart d scalingFactor demand m) := by
  obtain ⟨task, htask, hp⟩ := h
  unfold addEntryDemandChecked addEntryDemand
  rw [htask]
  simp only
  split_ifs with hc
  · rfl
  · rw [divide_eq tstart (hp (not_lt.1 hc))]
    rfl

/-- An entry that is not sound stops the collection. -/
theorem processEntryChecked_fails (h : ¬ m.Sound cfg critLvl) (tstart horizon : ℕ)
    (deadlines : List ℕ) : (processEntryChecked cfg critLvl tstart horizon deadlines m).Fails := by
  unfold processEntryChecked
  cases htask : cfg.findTaskById m.taskId with
  | none => exact ⟨.nullTask, rfl⟩
  | some task =>
    have hp : critLvl ≤ task.critLevel ∧ task.period = 0 := by
      by_contra hn
      exact h ⟨task, htask, fun hc hp => hn ⟨hc, hp⟩⟩
    show (if _ then _ else _ : Except Fault (List ℕ)).Fails
    rw [if_neg (not_lt.2 hp.1)]
    exact Fails.bind (divide_fails_iff.2 hp.2) _

variable {v : CoreView}

theorem collectChecked_eq (h : ∀ m ∈ cfg.entries v.coreId, m.Sound cfg critLvl) (tstart : ℕ)
    (extraJob : Option Job) :
    collectActiveAndFutureDeadlinesChecked cfg v critLvl tstart extraJob =
      .ok (collectActiveAndFutureDeadlines cfg v critLvl tstart extraJob) := by
  unfold collectActiveAndFutureDeadlinesChecked collectActiveAndFutureDeadlines collected
  split_ifs
  · rfl
  · rw [calculateHorizonChecked_eq, ok_bind]
    simp only
    rw [foldlM_eq_ok fun ds m hm => processEntryChecked_eq (h m hm) _ _ ds, ok_bind]

theorem slackAtChecked_eq (h : ∀ m ∈ cfg.entries v.coreId, m.Sound cfg critLvl) (tstart : ℕ)
    (scalingFactor : ℚ) (extraJob : Option Job) (d : ℕ) :
    slackAtChecked cfg v critLvl tstart scalingFactor extraJob d =
      .ok (slackAt cfg v critLvl tstart scalingFactor extraJob d) := by
  unfold slackAtChecked slackAt demandUpTo
  rw [foldlM_eq_ok fun demand m hm => addEntryDemandChecked_eq (h m hm) _ _ _ demand, ok_bind]

/-- **Where the entries are sound, the analysis does not fault.** -/
theorem findSlackChecked_eq (h : ∀ m ∈ cfg.entries v.coreId, m.Sound cfg critLvl)
    (systemTime tstart : ℕ) (scalingFactor : ℚ) (extraJob : Option Job) :
    findSlackChecked cfg systemTime v critLvl tstart scalingFactor extraJob =
      .ok (findSlack cfg systemTime v critLvl tstart scalingFactor extraJob) := by
  unfold findSlackChecked findSlack
  by_cases hl : critLvl ≥ cfg.maxCriticalityLevels
  · rw [if_pos hl, if_pos hl]
  · rw [if_neg hl, if_neg hl]
    simp only [collectChecked_eq h, ok_bind]
    generalize (if scalingFactor ≤ 0 then 1 else scalingFactor) = scalingFactor
    generalize (if tstart > systemTime then tstart else systemTime) = tstart
    by_cases hlen : (collectActiveAndFutureDeadlines cfg v critLvl tstart extraJob).length = 0
    · rw [if_pos hlen, if_pos hlen]
    · have hpass : ∀ minSlack d,
          (do
            let slack ← slackAtChecked cfg v critLvl tstart scalingFactor extraJob d
            Except.ok (if slack < minSlack then slack else minSlack)) =
          (Except.ok (if slackAt cfg v critLvl tstart scalingFactor extraJob d < minSlack then
            slackAt cfg v critLvl tstart scalingFactor extraJob d else minSlack) : Except Fault ℚ) := by
        intro minSlack d
        rw [slackAtChecked_eq h, ok_bind]
      rw [if_neg hlen, if_neg hlen, foldlM_eq_ok fun minSlack d _ => hpass minSlack d, ok_bind]

/-- **One entry that is not sound makes the analysis fault.** -/
theorem findSlackChecked_fails (hl : critLvl < cfg.maxCriticalityLevels) (hd : cfg.maxDeadlines ≠ 0)
    (hm : m ∈ cfg.entries v.coreId) (h : ¬ m.Sound cfg critLvl) (systemTime tstart : ℕ)
    (scalingFactor : ℚ) (extraJob : Option Job) :
    (findSlackChecked cfg systemTime v critLvl tstart scalingFactor extraJob).Fails := by
  unfold findSlackChecked
  rw [if_neg (not_le.2 hl)]
  refine Fails.bind ?_ _
  unfold collectActiveAndFutureDeadlinesChecked
  rw [if_neg (not_or.2 ⟨hd, not_le.2 hl⟩), calculateHorizonChecked_eq, ok_bind]
  exact Fails.bind (foldlM_fails hm (fun ds => processEntryChecked_fails h _ _ ds) _) _

theorem isAdmissibleChecked_eq (h : ∀ l, ∀ m ∈ cfg.entries v.coreId, m.Sound cfg l) (systemTime : ℕ)
    (candidateJob : Job) (extraMargin : ℚ) :
    isAdmissibleChecked cfg systemTime v candidateJob extraMargin =
      .ok (isAdmissible cfg systemTime v candidateJob extraMargin) := by
  unfold isAdmissibleChecked isAdmissible
  refine allM_eq_ok fun critLvl _ => ?_
  simp only
  split_ifs with hd
  · simp [hd]
  · rw [findSlackChecked_eq (h critLvl), ok_bind]
    simp [hd]

/-- The least slack over the levels from the local one on. -/
def minSlackChecked (cfg : Config) (systemTime : ℕ) (v : CoreView) (scalingFactor : ℚ) :
    Except Fault ℚ :=
  (List.range' v.localCriticalityLevel (cfg.maxCriticalityLevels - v.localCriticalityLevel)).foldlM
    (fun minSlack critLvl => do
      let slack ← findSlackChecked cfg systemTime v critLvl systemTime scalingFactor none
      .ok (if slack < minSlack then slack else minSlack)) fltMax

theorem minSlackChecked_not_fails (h : ∀ l, ∀ m ∈ cfg.entries v.coreId, m.Sound cfg l)
    (systemTime : ℕ) (scalingFactor : ℚ) :
    ¬ (minSlackChecked cfg systemTime v scalingFactor).Fails := by
  refine not_fails_foldlM (fun minSlack critLvl _ => ?_) fltMax
  rw [findSlackChecked_eq (h critLvl)]
  exact not_fails_ok _

end

/-! ## The tests that suffice -/

section
variable {n : ℕ} {cfg : Config} {X : Ctx n} {K : Core n} {J : Jobs n} {m : TaskAlloc} {task : Task}

/-- The test of an allocation entry in `handle_job_arrivals`: the task with a
    release at this tick -/
def dueTask (cfg : Config) (systemTime : ℕ) (m : TaskAlloc) : Except Fault (Option Task) :=
  match cfg.findTaskById m.taskId with
  | none => .ok none
  | some task =>
    if task.period = 0 then .ok none
    else do
      let r ← modulo systemTime task.period
      .ok (if r ≠ 0 then none else some task)

theorem dueTask_not_fails (cfg : Config) (systemTime : ℕ) (m : TaskAlloc) :
    ¬ (dueTask cfg systemTime m).Fails := by
  unfold dueTask
  cases cfg.findTaskById m.taskId with
  | none => exact not_fails_ok _
  | some task =>
    simp only
    split_ifs with hp
    · exact not_fails_ok _
    · rw [modulo_eq systemTime hp]
      exact not_fails_ok _

/-- The jobs that are released are those of the tasks that pass the test. -/
theorem dueTask_eq_iff : dueTask X.cfg X.systemTime m = .ok (some task) ↔ X.releases m task := by
  unfold dueTask Ctx.releases
  cases X.cfg.findTaskById m.taskId with
  | none => simp
  | some task' =>
    simp only [Option.some.injEq]
    split_ifs with hp
    · constructor
      · rintro ⟨⟩
      · rintro ⟨rfl, hp', -⟩
        exact absurd hp hp'
    · rw [modulo_eq X.systemTime hp, ok_bind]
      split_ifs with hr
      · constructor
        · rintro ⟨⟩
        · rintro ⟨rfl, -, hr'⟩
          exact absurd hr' hr
      · rw [not_not] at hr
        constructor
        · rintro ⟨⟩
          exact ⟨rfl, hp, hr⟩
        · rintro ⟨rfl, -, -⟩
          rfl

/-- `calculate_allocated_horizon`, with the checks -/
def calculateAllocatedHorizonChecked (cfg : Config) : List TaskAlloc → ℕ → Except Fault ℕ
  | [], horizon => .ok horizon
  | m :: ms, horizon =>
    match cfg.findTaskById m.taskId with
    | none => calculateAllocatedHorizonChecked cfg ms horizon
    | some t =>
      if t.period = 0 then calculateAllocatedHorizonChecked cfg ms horizon
      else do
        let horizon ← safeLcmChecked horizon t.period slackCalcHorizonTicksCap
        if horizon ≥ slackCalcHorizonTicksCap then .ok slackCalcHorizonTicksCap
        else calculateAllocatedHorizonChecked cfg ms horizon

theorem calculateAllocatedHorizonChecked_eq (cfg : Config) (coreId : ℕ) :
    calculateAllocatedHorizonChecked cfg (cfg.entries coreId) 1 =
      .ok (calculateAllocatedHorizon cfg coreId) := by
  have go : ∀ (ms : List TaskAlloc) (horizon : ℕ), calculateAllocatedHorizonChecked cfg ms horizon =
      .ok (calculateAllocatedHorizon.go cfg ms horizon) := by
    intro ms
    induction ms with
    | nil => exact fun _ => rfl
    | cons m ms ih =>
      intro horizon
      unfold calculateAllocatedHorizonChecked calculateAllocatedHorizon.go
      cases cfg.findTaskById m.taskId with
      | none => exact ih horizon
      | some t =>
        simp only [safeLcmChecked_eq, ok_bind]
        split_ifs
        · exact ih horizon
        · rfl
        · exact ih _
  exact go _ 1

def findNextEffectiveArrivalTimeChecked (X : Ctx n) (K : Core n) (J : Jobs n) : Except Fault ℕ :=
  let pending := K.pendingJobsQueue.foldl (fun min j =>
    if (J j).arrivalTime > X.systemTime ∧ (J j).arrivalTime < min then (J j).arrivalTime else min)
    uint32Max
  X.entries.foldlM (fun min m =>
    match X.cfg.findTaskById m.taskId with
    | none => .ok min
    | some task =>
      if task.period = 0 ∨ task.critLevel < K.localCriticalityLevel then .ok min
      else do
        let remainder ← modulo X.systemTime task.period
        let next := nextRelease task K.delegatedJobQueue (X.systemTime + (task.period - remainder))
        .ok (if next < min then next else min)) pending

theorem findNextEffectiveArrivalTimeChecked_eq (X : Ctx n) (K : Core n) (J : Jobs n) :
    findNextEffectiveArrivalTimeChecked X K J = .ok (findNextEffectiveArrivalTime X K J) := by
  unfold findNextEffectiveArrivalTimeChecked findNextEffectiveArrivalTime
  refine foldlM_eq_ok (fun min m _ => ?_) _
  cases X.cfg.findTaskById m.taskId with
  | none => rfl
  | some task =>
    simp only
    by_cases h : task.period = 0 ∨ task.critLevel < K.localCriticalityLevel
    · rw [if_pos h, if_pos h]
    · rw [if_neg h, if_neg h, modulo_eq _ fun hp => h (.inl hp), ok_bind]

/-! ## The test that does not -/

/-- The release that `attempt_future_load_shedding` would offer for an entry;
    the task is tested, its period is not. -/
def futureReleaseChecked (cfg : Config) (systemTime level : ℕ) (m : TaskAlloc) :
    Except Fault (Option (Task × ℕ)) :=
  match cfg.findTaskById m.taskId with
  | none => .ok none
  | some task =>
    if toFloat (task.wcet level) < minMigrationBenefitThreshold then .ok none
    else do
      let q ← divide systemTime task.period
      let arrivalTime := (q + 1) * task.period
      .ok (if arrivalTime ≥ systemTime + dpmMigrationLookaheadTicks then none
        else some (task, arrivalTime))

theorem futureReleaseChecked_fails_iff {systemTime level : ℕ} :
    (futureReleaseChecked cfg systemTime level m).Fails ↔
      ∃ task, cfg.findTaskById m.taskId = some task ∧
        minMigrationBenefitThreshold ≤ toFloat (task.wcet level) ∧ task.period = 0 := by
  unfold futureReleaseChecked
  cases cfg.findTaskById m.taskId with
  | none => simp
  | some task =>
    simp only [Option.some.injEq, exists_eq_left']
    split_ifs with hw
    · simp [not_le.2 hw]
    · rw [fails_bind, divide_fails_iff]
      simp [not_lt.1 hw]

/-- The releases that are offered are those that pass the tests, and are not on
    offer yet. -/
theorem offersFuture_iff : K.offersFuture X m task ↔ task.period ≠ 0 ∧
    futureReleaseChecked X.cfg X.systemTime K.localCriticalityLevel m =
      .ok (some (task, futureArrival X.systemTime task)) ∧
    hasDelegation task.id (futureArrival X.systemTime task) K.delegatedJobQueue = false := by
  unfold Core.offersFuture futureReleaseChecked
  constructor
  · rintro ⟨htask, hp, hw, ha, hd⟩
    refine ⟨hp, ?_, hd⟩
    simp only [htask]
    rw [if_neg (not_lt.2 hw), divide_eq _ hp, ok_bind]
    exact congrArg Except.ok (if_neg (not_le.2 ha))
  · rintro ⟨hp, hr, hd⟩
    cases htask : X.cfg.findTaskById m.taskId with
    | none =>
      rw [htask] at hr
      cases hr
    | some task' =>
      simp only [htask] at hr
      split_ifs at hr with hw
      · cases hr
      · have hp' : task'.period ≠ 0 := by
          intro h0
          rw [divide, if_pos h0] at hr
          cases hr
        rw [divide_eq _ hp', ok_bind] at hr
        split_ifs at hr with ha
        · cases hr
        · cases hr
          exact ⟨rfl, hp, not_lt.1 hw, not_le.1 ha, hd⟩

end

end EeftSched

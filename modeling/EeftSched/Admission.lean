/-
  The admission test against what the demand analysis should say
  (`__is_admissible`, `sched_util.c`).

  * `admission_iff`: an admitted job leaves the margin after its insertion iff
    the jobs and releases do so up to the new deadlines, those that the horizon
    with the job takes in;
  * `admission_demand_iff`: the test of a job that arrives later charges all
    releases still to come iff none of them is before its arrival.  The demand
    is added up in floats there.
-/
import EeftSched.SlackSpec

namespace EeftSched

open SortedQueue

/-! ## The slack after the insertion -/

section
variable {cfg : Config} {v v' : CoreView} {j : Job} {now critLvl d : ℕ}

/-- The deadline is one of the first `MAX_DEADLINES` after the insertion of `j`,
    but not when `j` is the candidate. -/
def NewDeadline (cfg : Config) (now : ℕ) (v v' : CoreView) (j : Job) (critLvl d : ℕ) : Prop :=
  d ∈ (allDeadlines cfg v' critLvl now v'.horizon none).take cfg.maxDeadlines ∧
    d ∉ (allDeadlines cfg v critLvl now v.horizon (some j)).take cfg.maxDeadlines

/-- All deadlines fit into the array, before and after the insertion. -/
def HasRoom (cfg : Config) (now : ℕ) (v v' : CoreView) (j : Job) (critLvl : ℕ) : Prop :=
  (allDeadlines cfg v critLvl now v.horizon (some j)).length ≤ cfg.maxDeadlines ∧
    (allDeadlines cfg v' critLvl now v'.horizon none).length ≤ cfg.maxDeadlines

/-- The deadline of a release beyond the horizon of the core and within the one
    that takes the period of `j` in; no job has it. -/
def BeyondHorizon (cfg : Config) (now : ℕ) (v : CoreView) (j : Job) (critLvl d : ℕ) : Prop :=
  d ∉ (v.jobs (some j)).map (getJobDeadline · critLvl) ∧ cfg.Release v.coreId critLvl now d ∧
    now + v.horizon < d ∧ d ≤ now + min (v.horizon.lcm j.parentTask.period) slackCalcHorizonTicksCap

/-- The jobs of the core, `j` and the releases from now on leave the margin of
    the time up to `d`. -/
def LeavesMargin (cfg : Config) (now : ℕ) (v : CoreView) (j : Job) (critLvl : ℕ) (margin : ℚ) (d : ℕ) :
    Prop :=
  margin ≤ 0 ∨
    v.jobDemand critLvl d 1 (some j) + cfg.releaseDemand v.coreId critLvl now d 1 + margin ≤ (d : ℚ) - now

theorem newDeadline_iff_collect (hin : v.Inserted j v') (hv : v.Wf) (hp : 0 < j.parentTask.period)
    (hlt : critLvl < cfg.maxCriticalityLevels) :
    NewDeadline cfg now v v' j critLvl d ↔
      d ∈ collectActiveAndFutureDeadlines cfg v' critLvl now none ∧
        d ∉ collectActiveAndFutureDeadlines cfg v critLvl now (some j) := by
  unfold NewDeadline
  rw [mem_collect_iff, mem_collect_iff, calculateHorizon_eq hv, calculateHorizon_eq (hin.wf hv hp)]
  simp only [hlt, true_and]

/-- **The new deadlines**, unless the array is too short -/
theorem newDeadline_iff (hin : v.Inserted j v') (hv : v.Wf) (hk : cfg.EntriesKnown v.coreId)
    (hp : 0 < j.parentTask.period) (hroom : HasRoom cfg now v v' j critLvl) :
    NewDeadline cfg now v v' j critLvl d ↔ BeyondHorizon cfg now v j critLvl d := by
  have hjobs : d ∈ (v'.jobs none).map (getJobDeadline · critLvl) ↔
      d ∈ (v.jobs (some j)).map (getJobDeadline · critLvl) := (hin.jobs_perm.map _).mem_iff
  have hfuture : cfg.Release v.coreId critLvl now d → now < d := by
    rintro ⟨e, -, k, hlt, rfl⟩
    omega
  rw [NewDeadline, List.take_of_length_le hroom.1, List.take_of_length_le hroom.2, allDeadlines,
    allDeadlines, List.mem_append, List.mem_append, hin.frame.1, mem_entryDeadlines_iff hk,
    mem_entryDeadlines_iff hk, release_iff hk, hin.horizon hv hp, List.mem_filter, List.mem_filter,
    hjobs]
  simp only [decide_eq_true_eq]
  constructor
  · rintro ⟨h, hn⟩
    rw [not_or] at hn
    rcases h with h | ⟨hf, hle⟩
    · exact absurd h hn.1
    · exact ⟨fun hm => hn.1 ⟨hm, hfuture hf⟩, hf, not_le.1 fun h => hn.2 ⟨hf, h⟩, hle⟩
  · rintro ⟨hm, hf, hlt, hle⟩
    exact ⟨Or.inr ⟨hf, hle⟩, fun h => h.elim (fun h => hm h.1) fun h => absurd h.2 (not_le.2 hlt)⟩

/-- What the demand leaves is the slack, which is clamped at 0. -/
theorem leavesMargin_iff {margin : ℚ} (hk : cfg.EntriesKnown v.coreId) (h : now ≤ d) :
    LeavesMargin cfg now v j critLvl margin d ↔
      margin ≤ 0 ∨ margin ≤ slackAt cfg v critLvl now 1 (some j) d := by
  unfold LeavesMargin
  rw [slackAt_eq hk h, slackBy]
  refine or_congr Iff.rfl ⟨fun h => ?_, fun h => ?_⟩ <;> linarith

/-- A bound the test found at one level holds after the insertion iff it holds
    at the new deadlines. -/
theorem findSlack_inserted_iff {x : ℚ} (hin : v.Inserted j v') (hv : v.Wf)
    (hk : cfg.EntriesKnown v.coreId) (hp : 0 < j.parentTask.period) (hj : j.arrivalTime ≤ now)
    (hlt : critLvl < cfg.maxCriticalityLevels)
    (hbefore : x ≤ findSlack cfg now v critLvl j.arrivalTime 1 (some j)) :
    x ≤ findSlack cfg now v' critLvl now 1 none ↔
      ∀ d, NewDeadline cfg now v v' j critLvl d → LeavesMargin cfg now v j critLvl x d := by
  rw [le_findSlack_iff hlt hj] at hbefore
  rw [le_findSlack_iff hlt le_rfl]
  simp only [slackAt_inserted hin]
  have hk' : cfg.EntriesKnown v'.coreId := by rwa [hin.frame.1]
  have hle : ∀ d ∈ collectActiveAndFutureDeadlines cfg v' critLvl now none, now ≤ d := fun d hd =>
    (lt_of_mem_examined hk' ((mem_examined_iff hlt).1 hd)).le
  constructor
  · intro h d hd
    have hnew := ((newDeadline_iff_collect hin hv hp hlt).1 hd).1
    rw [leavesMargin_iff hk (hle d hnew)]
    exact h.imp_right fun h => h.2 d hnew
  · intro h
    rcases hbefore with h0 | ⟨hmax, hold⟩
    · exact Or.inl h0
    · by_cases h0 : x ≤ 0
      · exact Or.inl h0
      · refine Or.inr ⟨hmax, fun d hd => ?_⟩
        by_cases hd' : d ∈ collectActiveAndFutureDeadlines cfg v critLvl now (some j)
        · exact hold d hd'
        · have hleaves := h d ((newDeadline_iff_collect hin hv hp hlt).2 ⟨hd, hd'⟩)
          exact ((leavesMargin_iff hk (hle d hd)).1 hleaves).resolve_left h0

/-- A job whose period divides the horizon brings no new deadline, and the
    slack after its insertion is what the test found. -/
theorem le_findSlack_inserted {x : ℚ} (hin : v.Inserted j v') (hv : v.Wf)
    (hk : cfg.EntriesKnown v.coreId) (hp : 0 < j.parentTask.period) (hj : j.arrivalTime ≤ now)
    (hlt : critLvl < cfg.maxCriticalityLevels) (hroom : HasRoom cfg now v v' j critLvl)
    (hdvd : j.parentTask.period ∣ v.horizon)
    (hx : x ≤ findSlack cfg now v critLvl j.arrivalTime 1 (some j)) :
    x ≤ findSlack cfg now v' critLvl now 1 none := by
  refine (findSlack_inserted_iff hin hv hk hp hj hlt hx).2 fun d hd => ?_
  obtain ⟨-, -, hlo, hhi⟩ := (newDeadline_iff hin hv hk hp hroom).1 hd
  rw [Nat.lcm_eq_left hdvd] at hhi
  omega

/-- **Admission and the slack after the insertion.**  An admitted job leaves
    at every level the slack that the test asked for iff the demand leaves it
    up to every new deadline.  Where the array is long enough these are the
    deadlines of the releases that only the horizon with the job reaches. -/
theorem admission_iff {m : ℚ} (hin : v.Inserted j v') (hv : v.Wf) (hk : cfg.EntriesKnown v.coreId)
    (hp : 0 < j.parentTask.period) (hj : j.arrivalTime ≤ now) (hadm : isAdmissible cfg now v j m = true) :
    ((∀ critLvl, v'.localCriticalityLevel ≤ critLvl → critLvl < cfg.maxCriticalityLevels →
      slackMarginTicks + m ≤ findSlack cfg now v' critLvl now 1 none) ↔
    ∀ critLvl, v'.localCriticalityLevel ≤ critLvl → critLvl < cfg.maxCriticalityLevels →
      ∀ d, NewDeadline cfg now v v' j critLvl d →
        LeavesMargin cfg now v j critLvl (slackMarginTicks + m) d) ∧
    ∀ critLvl, HasRoom cfg now v v' j critLvl →
      ∀ d, NewDeadline cfg now v v' j critLvl d ↔ BeyondHorizon cfg now v j critLvl d := by
  refine ⟨forall_congr' fun c => forall_congr' fun hc => forall_congr' fun hlt => ?_,
    fun c hroom d => newDeadline_iff hin hv hk hp hroom⟩
  have hbefore := (isAdmissible_iff.1 hadm c (hin.frame.2.2 ▸ hc) hlt).2
  exact findSlack_inserted_iff hin hv hk hp hj hlt hbefore

end

/-- Core 0 has a task of period 10 and tuned deadline 8; a job of a task of
    period 12 was released at 24 by core 1. -/
def gapTask (wcet : ℕ) : Task := ⟨1, 10, 8, fun _ => wcet, 0⟩

def gapOther (wcet : ℕ) : Task := ⟨2, 12, 12, fun _ => wcet, 0⟩

def gapCfg (wcet wcet' : ℕ) : Config where
  maxCriticalityLevels := 1
  maxTasks := 2
  systemTasks := [gapTask wcet, gapOther wcet']
  allocationMap := [⟨1, .primary, 0, 0, fun _ => 8⟩, ⟨2, .primary, 0, 1, fun _ => 12⟩]
  procId := 0

def gapView : CoreView := ⟨0, [], [], [], none, 0, 10⟩

def gapJob (wcet : ℕ) : Job where
  parentTask := gapOther wcet
  arrivalTime := 24
  relativeTunedDeadlines _ := 12
  actualDeadline := 36
  virtualDeadline := 36
  wcet := wcet
  acet := wcet
  executedTime := 0
  jobPoolId := 1
  isReplica := false
  state := .ready
  nextMigrationEligibleTick := 0

def gapView' (wcet : ℕ) : CoreView :=
  { gapView with readyQueue := addToQueueSorted (gapJob wcet) gapView.readyQueue }

/-- At 24 the test sees no deadline after 36, the job's own; the release at 30
    needs 8 ticks up to 38, where the job leaves it 3. -/
theorem admission_gap : calculateAllocatedHorizon (gapCfg 8 11) 0 = gapView.cachedSlackHorizon ∧
    isAdmissible (gapCfg 8 11) 24 gapView (gapJob 11) 0 = true ∧
    ∃ v', gapView.Inserted (gapJob 11) v' ∧
      ¬ slackMarginTicks + 0 ≤ findSlack (gapCfg 8 11) 24 v' 0 24 1 none := by
  refine ⟨by decide +kernel, by decide +kernel, _, .ready, ?_⟩
  decide +kernel

theorem gapView_wf : gapView.Wf := ⟨fun i hi => (by cases hi), by decide, by decide⟩

theorem gapCfg_known (wcet wcet' : ℕ) : (gapCfg wcet wcet').EntriesKnown gapView.coreId := by
  intro m hm
  obtain rfl := List.mem_singleton.1 hm
  exact ⟨gapTask wcet, rfl, Nat.succ_pos 9⟩

/-- A shorter job, and shorter releases: the deadline at 38 is new, and the
    margin is left there. -/
theorem admission_iff_gap :
    isAdmissible (gapCfg 2 3) 24 gapView (gapJob 3) 0 = true ∧
    NewDeadline (gapCfg 2 3) 24 gapView (gapView' 3) (gapJob 3) 0 38 ∧
    (∀ d, NewDeadline (gapCfg 2 3) 24 gapView (gapView' 3) (gapJob 3) 0 d →
      LeavesMargin (gapCfg 2 3) 24 gapView (gapJob 3) 0 (slackMarginTicks + 0) d) ∧
    ∀ critLvl, 0 ≤ critLvl → critLvl < 1 →
      slackMarginTicks + 0 ≤ findSlack (gapCfg 2 3) 24 (gapView' 3) critLvl 24 1 none := by
  have hadm : isAdmissible (gapCfg 2 3) 24 gapView (gapJob 3) 0 = true := by decide +kernel
  have hnew : ∀ d ∈ (allDeadlines (gapCfg 2 3) (gapView' 3) 0 24 (gapView' 3).horizon none).take
      (gapCfg 2 3).maxDeadlines,
      d ∈ (allDeadlines (gapCfg 2 3) gapView 0 24 gapView.horizon (some (gapJob 3))).take
        (gapCfg 2 3).maxDeadlines ∨
      gapView.jobDemand 0 d 1 (some (gapJob 3)) + (gapCfg 2 3).releaseDemand 0 0 24 d 1 +
        (slackMarginTicks + 0) ≤ (d : ℚ) - 24 := by decide +kernel
  have hleaves : ∀ d, NewDeadline (gapCfg 2 3) 24 gapView (gapView' 3) (gapJob 3) 0 d →
      LeavesMargin (gapCfg 2 3) 24 gapView (gapJob 3) 0 (slackMarginTicks + 0) d :=
    fun d hd => .inr ((hnew d hd.1).resolve_left hd.2)
  refine ⟨hadm, ⟨by decide +kernel, by decide +kernel⟩, hleaves, ?_⟩
  refine (admission_iff .ready gapView_wf (gapCfg_known 2 3) (by decide) (by decide) hadm).1.2 ?_
  intro c _ hc d hd
  obtain rfl : c = 0 := Nat.lt_one_iff.1 hc
  exact hleaves d hd

/-! ## A job that arrives later -/

variable {cfg : Config} {v : CoreView} {now critLvl t d : ℕ} {extraJob : Option Job}

/-- What `__find_slack` adds to the demand up to `d` for the tasks allocated to
    the core -/
def chargedDemand (F : Arith) (cfg : Config) (v : CoreView) (critLvl t d : ℕ) (extraJob : Option Job) :
    ℚ :=
  demandUpTo F cfg v critLvl t d 1 extraJob - jobsUpTo F v critLvl d 1 extraJob

/-- The execution time of the releases after `t` with deadlines up to `d` -/
def Config.futureDemand (cfg : Config) (coreId critLvl t d : ℕ) : ℕ :=
  ((cfg.allocated coreId critLvl).map fun e =>
    e.2.wcet critLvl * releasesUpTo t e.2.period (e.1.tunedDeadlines critLvl) d).sum

/-- What a job with a deadline up to `d` still needs, in whole ticks -/
def Job.remaining (critLvl d : ℕ) (j : Job) : ℕ :=
  if getJobDeadline j critLvl ≤ d then
    ⌈toFloat (j.parentTask.wcet critLvl) - j.executedTime⌉.toNat
  else 0

/-- All that is to be done up to `d` is a number that floats count up to. -/
def InFloatRange (cfg : Config) (v : CoreView) (critLvl now d : ℕ) (extraJob : Option Job) : Prop :=
  ((v.jobs extraJob).map (Job.remaining critLvl d)).sum + cfg.futureDemand v.coreId critLvl now d ≤ 2 ^ 24

/-- No release from `now` to `a` has a deadline up to `d`. -/
def NoEarlyRelease (cfg : Config) (coreId critLvl now a d : ℕ) : Prop :=
  ∀ e ∈ cfg.allocated coreId critLvl, 0 < e.2.wcet critLvl →
    ∀ k, now < k * e.2.period → k * e.2.period ≤ a → d < k * e.2.period + e.1.tunedDeadlines critLvl

/-! ### Sums of floats -/

theorem float_add {m n : ℕ} (h : m + n ≤ 2 ^ 24) : Arith.float.rnd (m + n) = ((m + n : ℕ) : ℚ) := by
  rw [← Nat.cast_add]
  exact Binary32.round_natCast h

theorem float_ofNat {n : ℕ} (h : n ≤ 2 ^ 24) : Arith.float.ofNat n = n := toFloat_eq h

/-- The demand of a job is a number of ticks, at most what the job needs. -/
theorem calculateJobDemand_float {j : Job} (h : j.remaining critLvl d ≤ 2 ^ 24) :
    ∃ n ≤ j.remaining critLvl d, calculateJobDemand .float critLvl d 1 j = n := by
  unfold Job.remaining getJobDeadline at h ⊢
  unfold calculateJobDemand
  simp only
  split_ifs at h ⊢ with hd
  · obtain ⟨q, hq⟩ : ∃ q, toFloat (j.parentTask.wcet critLvl) - j.executedTime = q := ⟨_, rfl⟩
    rw [hq] at h ⊢
    have hle : q ≤ (⌈q⌉.toNat : ℚ) := (Int.le_ceil q).trans (by exact_mod_cast Int.self_le_toNat _)
    have hround : Arith.float.rnd (Arith.float.rnd q / 1) ≤ (⌈q⌉.toNat : ℚ) := by
      rw [div_one]
      exact Binary32.round_le_natCast (Binary32.round_le_natCast hle h) h
    refine ⟨⌈Arith.float.rnd (Arith.float.rnd q / 1)⌉.toNat, ?_, ?_⟩
    · rw [Int.toNat_le]
      exact Int.ceil_le.2 (by exact_mod_cast hround)
    · change max 0 ((⌈Arith.float.rnd (Arith.float.rnd
        (toFloat (j.parentTask.wcet critLvl) - j.executedTime) / 1)⌉ : ℤ) : ℚ) = _
      rw [hq, max_comm]
      exact_mod_cast (Int.toNat_eq_max _).symm
  · exact ⟨0, le_rfl, Nat.cast_zero.symm⟩

theorem addJobDemands_float {jobs : List Job} {m : ℕ}
    (h : m + (jobs.map (Job.remaining critLvl d)).sum ≤ 2 ^ 24) :
    ∃ n ≤ m + (jobs.map (Job.remaining critLvl d)).sum,
      addJobDemands .float critLvl d 1 jobs m = n := by
  unfold addJobDemands
  induction jobs generalizing m with
  | nil => exact ⟨m, by simp, rfl⟩
  | cons j jobs ih =>
    rw [List.map_cons, List.sum_cons] at h ⊢
    have hle : j.remaining critLvl d ≤ 2 ^ 24 := by omega
    obtain ⟨i, hi, hj⟩ := calculateJobDemand_float hle
    rw [List.foldl_cons, hj, float_add (by omega)]
    obtain ⟨n, hn, hjobs⟩ := ih (m := m + i) (by omega)
    exact ⟨n, by omega, hjobs⟩

theorem jobsUpTo_eq (F : Arith) (v : CoreView) (critLvl d : ℕ) (s : ℚ) (extraJob : Option Job) :
    jobsUpTo F v critLvl d s extraJob =
      addJobDemands F critLvl d s (v.runningJob.toList ++ v.readyQueue ++ v.replicaQueue ++
        v.pendingJobsQueue ++ extraJob.toList) 0 := by
  unfold jobsUpTo addJobDemands
  simp only [List.foldl_append]

theorem jobsUpTo_float (h : ((v.jobs extraJob).map (Job.remaining critLvl d)).sum ≤ 2 ^ 24) :
    ∃ n ≤ ((v.jobs extraJob).map (Job.remaining critLvl d)).sum,
      jobsUpTo .float v critLvl d 1 extraJob = (n : ℕ) := by
  have hsum : ((v.runningJob.toList ++ v.readyQueue ++ v.replicaQueue ++ v.pendingJobsQueue ++
      extraJob.toList).map (Job.remaining critLvl d)).sum =
      ((v.jobs extraJob).map (Job.remaining critLvl d)).sum := by
    simp only [CoreView.jobs, List.map_append, List.sum_append]
    omega
  rw [jobsUpTo_eq, ← hsum]
  rw [← hsum] at h
  obtain ⟨n, hn, hjobs⟩ := addJobDemands_float (m := 0) (by rwa [Nat.zero_add])
  rw [Nat.zero_add] at hn
  exact ⟨n, hn, by exact_mod_cast hjobs⟩

/-- The loop over the releases, as long as it stays in the range -/
theorem addReleases_float {period : ℕ} (hp : 0 < period) (tunedDl : ℕ) {c m fuel k₀ : ℕ}
    (hf : d < k₀ * period + fuel) (h : m + c * releasesFrom k₀ period tunedDl d ≤ 2 ^ 24) :
    addReleases .float tunedDl period d c fuel (k₀ * period) m =
      ((m + c * releasesFrom k₀ period tunedDl d : ℕ) : ℚ) := by
  induction fuel generalizing k₀ m with
  | zero => rw [releasesFrom_zero (by omega), addReleases, Nat.mul_zero, Nat.add_zero]
  | succ fuel ih =>
    unfold addReleases
    split_ifs with hd
    · have hnext : k₀ * period + period = (k₀ + 1) * period := by ring
      rw [releasesFrom_pos hp hd, Nat.mul_succ] at h ⊢
      rw [hnext, float_add (by omega), ih (by rw [← hnext]; omega) (by omega)]
      congr 1
      omega
    · rw [releasesFrom_zero hd, Nat.mul_zero, Nat.add_zero]

/-- One entry; where no release is charged, its cost does not matter. -/
theorem addEntryDemand_float {e : TaskAlloc} {task : Task} {m : ℕ}
    (ht : cfg.findTaskById e.taskId = some task) (hp : 0 < task.period) (hc : critLvl ≤ task.critLevel)
    (h : m + task.wcet critLvl * releasesUpTo t task.period (e.tunedDeadlines critLvl) d ≤ 2 ^ 24) :
    addEntryDemand .float cfg critLvl t d 1 m e =
      ((m + task.wcet critLvl * releasesUpTo t task.period (e.tunedDeadlines critLvl) d : ℕ) : ℚ) := by
  rw [addEntryDemand, ht]
  simp only [if_neg (not_lt.2 hc)]
  rw [releasesUpTo_eq hp] at h ⊢
  by_cases hd : firstArrival t task.period + e.tunedDeadlines critLvl ≤ d
  · have hpos : 0 < releasesFrom (t / task.period + 1) task.period (e.tunedDeadlines critLvl) d := by
      rw [releasesFrom_pos hp hd]
      exact Nat.succ_pos _
    have hw : task.wcet critLvl ≤ 2 ^ 24 := by
      have := Nat.le_mul_of_pos_right (task.wcet critLvl) hpos
      omega
    have hcost : (⌈Arith.float.rnd (Arith.float.ofNat (task.wcet critLvl) / 1)⌉ : ℚ) =
        task.wcet critLvl := by
      have hround : Arith.float.rnd (task.wcet critLvl : ℚ) = task.wcet critLvl :=
        Binary32.round_natCast hw
      rw [float_ofNat hw, div_one, hround, Int.ceil_natCast, Int.cast_natCast]
    rw [hcost, firstArrival]
    exact addReleases_float hp _ (by omega) h
  · rw [releasesFrom_zero hd, addReleases, if_neg hd, Nat.mul_zero, Nat.add_zero]

/-- **The releases in floats**: their execution time, as long as the demand stays
    in the range -/
theorem addEntries_float {coreId : ℕ} (hk : cfg.EntriesKnown coreId) {m : ℕ}
    (h : m + cfg.futureDemand coreId critLvl t d ≤ 2 ^ 24) :
    (cfg.entries coreId).foldl (addEntryDemand .float cfg critLvl t d 1) m =
      ((m + cfg.futureDemand coreId critLvl t d : ℕ) : ℚ) := by
  unfold Config.futureDemand Config.allocated at h ⊢
  unfold Config.EntriesKnown at hk
  generalize cfg.entries coreId = entries at hk h ⊢
  induction entries generalizing m with
  | nil => simp
  | cons e es ih =>
    obtain ⟨task, ht, hp⟩ := hk e List.mem_cons_self
    have hes := fun m => ih (m := m) fun e' he' => hk e' (List.mem_cons_of_mem _ he')
    rw [List.foldl_cons]
    rw [List.filterMap_cons, ht] at h ⊢
    simp only at h ⊢
    by_cases hc : critLvl ≤ task.critLevel
    · rw [if_pos hc, List.map_cons, List.sum_cons] at h ⊢
      simp only at h ⊢
      rw [addEntryDemand_float ht hp hc (by omega), hes _ (by omega), Nat.add_assoc]
    · rw [if_neg hc] at h ⊢
      rw [addEntryDemand, ht]
      simp only [if_pos (not_le.1 hc)]
      exact hes m h

/-- **What is charged**, in the range: the execution time of the releases after
    the arrival of the job. -/
theorem chargedDemand_float (hk : cfg.EntriesKnown v.coreId)
    (h : ((v.jobs extraJob).map (Job.remaining critLvl d)).sum + cfg.futureDemand v.coreId critLvl t d ≤
      2 ^ 24) :
    chargedDemand .float cfg v critLvl t d extraJob = cfg.futureDemand v.coreId critLvl t d := by
  have hle : ((v.jobs extraJob).map (Job.remaining critLvl d)).sum ≤ 2 ^ 24 := by omega
  obtain ⟨n, hn, hjobs⟩ := jobsUpTo_float hle
  rw [chargedDemand, demandUpTo, hjobs, addEntries_float hk (by omega), Nat.cast_add,
    add_sub_cancel_left]

/-! ### Releases between now and the arrival -/

theorem releasesUpTo_anti (period tunedDl d : ℕ) (h : now ≤ t) :
    releasesUpTo t period tunedDl d ≤ releasesUpTo now period tunedDl d := by
  refine Finset.card_le_card fun k hk => ?_
  obtain ⟨hk, hlt, hd⟩ := Finset.mem_filter.1 hk
  exact Finset.mem_filter.2 ⟨hk, by omega, hd⟩

/-- Two starts see the same releases iff there is none between them. -/
theorem releasesUpTo_eq_iff {period : ℕ} (hp : 0 < period) (tunedDl d : ℕ) (h : now ≤ t) :
    releasesUpTo t period tunedDl d = releasesUpTo now period tunedDl d ↔
      ∀ k, now < k * period → k * period ≤ t → d < k * period + tunedDl := by
  have hsub : ((Finset.range (d + 1)).filter fun k => t < k * period ∧ k * period + tunedDl ≤ d) ⊆
      (Finset.range (d + 1)).filter fun k => now < k * period ∧ k * period + tunedDl ≤ d := by
    intro k hk
    obtain ⟨hk, hlt, hd⟩ := Finset.mem_filter.1 hk
    exact Finset.mem_filter.2 ⟨hk, by omega, hd⟩
  constructor
  · intro heq k hnow hle
    have hset := Finset.eq_of_subset_of_card_le hsub heq.ge
    by_contra hd
    have hk : k ≤ k * period := Nat.le_mul_of_pos_right _ hp
    have hmem : k ∈ (Finset.range (d + 1)).filter fun k => now < k * period ∧
        k * period + tunedDl ≤ d :=
      Finset.mem_filter.2 ⟨Finset.mem_range.2 (by omega), hnow, by omega⟩
    rw [← hset] at hmem
    have := (Finset.mem_filter.1 hmem).2.1
    omega
  · intro hnone
    refine congrArg Finset.card (hsub.antisymm fun k hk => ?_)
    obtain ⟨hk, hnow, hd⟩ := Finset.mem_filter.1 hk
    refine Finset.mem_filter.2 ⟨hk, ?_, hd⟩
    by_contra hle
    have := hnone k hnow (not_lt.1 hle)
    omega

theorem sum_eq_iff_of_le {α : Type} {f g : α → ℕ} {l : List α} (h : ∀ x ∈ l, f x ≤ g x) :
    (l.map f).sum = (l.map g).sum ↔ ∀ x ∈ l, f x = g x := by
  induction l with
  | nil => simp
  | cons x l ih =>
    have hx := h x List.mem_cons_self
    have hrest : ∀ y ∈ l, f y ≤ g y := fun y hy => h y (List.mem_cons_of_mem _ hy)
    have hsum : (l.map f).sum ≤ (l.map g).sum := List.sum_le_sum hrest
    rw [List.map_cons, List.map_cons, List.sum_cons, List.sum_cons, List.forall_mem_cons,
      ← ih hrest]
    omega

theorem futureDemand_anti (coreId critLvl d : ℕ) (h : now ≤ t) :
    cfg.futureDemand coreId critLvl t d ≤ cfg.futureDemand coreId critLvl now d :=
  List.sum_le_sum fun _ _ => Nat.mul_le_mul_left _ (releasesUpTo_anti _ _ _ h)

theorem futureDemand_eq_iff {coreId : ℕ} (hk : cfg.EntriesKnown coreId) (h : now ≤ t) :
    cfg.futureDemand coreId critLvl t d = cfg.futureDemand coreId critLvl now d ↔
      NoEarlyRelease cfg coreId critLvl now t d := by
  unfold Config.futureDemand
  rw [sum_eq_iff_of_le fun _ _ => Nat.mul_le_mul_left _ (releasesUpTo_anti _ _ _ h)]
  refine forall_congr' fun e => forall_congr' fun he => ?_
  obtain ⟨hm, ht, -⟩ := mem_allocated.1 he
  obtain ⟨task', ht', hp⟩ := hk e.1 hm
  obtain rfl : e.2 = task' := Option.some.inj (ht.symm.trans ht')
  rw [← releasesUpTo_eq_iff hp _ _ h]
  constructor
  · intro heq hw
    exact Nat.eq_of_mul_eq_mul_left hw heq
  · intro hrel
    rcases Nat.eq_zero_or_pos (e.2.wcet critLvl) with hw | hw
    · rw [hw, zero_mul, zero_mul]
    · rw [hrel hw]

/-- In the range, what is charged is what is to come iff no release comes before
    the job. -/
theorem chargedDemand_eq_iff (hk : cfg.EntriesKnown v.coreId) (h : now ≤ t)
    (hr : InFloatRange cfg v critLvl now d extraJob) :
    chargedDemand .float cfg v critLvl t d extraJob = cfg.futureDemand v.coreId critLvl now d ↔
      NoEarlyRelease cfg v.coreId critLvl now t d := by
  have hle : cfg.futureDemand v.coreId critLvl t d ≤ cfg.futureDemand v.coreId critLvl now d :=
    futureDemand_anti _ _ _ h
  unfold InFloatRange at hr
  rw [chargedDemand_float hk (by omega), Nat.cast_inj, futureDemand_eq_iff hk h]

/-- Core 0 has a task of period 10; a job of a task of core 1 is tested that
    arrives at 12. -/
def soonTask (wcet : ℕ) : Task := ⟨1, 10, 10, fun _ => wcet, 0⟩

def soonOther : Task := ⟨2, 12, 12, fun _ => 4, 0⟩

def soonCfg (wcet : ℕ) : Config where
  maxCriticalityLevels := 1
  maxTasks := 2
  systemTasks := [soonTask wcet, soonOther]
  allocationMap := [⟨1, .primary, 0, 0, fun _ => 4⟩, ⟨2, .primary, 0, 1, fun _ => 12⟩]
  procId := 0

def soonView : CoreView := ⟨0, [], [], [], none, 0, 10⟩

def soonJob : Job where
  parentTask := soonOther
  arrivalTime := 12
  relativeTunedDeadlines _ := 12
  actualDeadline := 24
  virtualDeadline := 24
  wcet := 4
  acet := 4
  executedTime := 0
  jobPoolId := 1
  isReplica := false
  state := .idle
  nextMigrationEligibleTick := 0

theorem soonCfg_known (wcet : ℕ) : (soonCfg wcet).EntriesKnown soonView.coreId := by
  intro m hm
  obtain rfl := List.mem_singleton.1 hm
  exact ⟨soonTask wcet, rfl, Nat.succ_pos 9⟩

/-- Beyond the range what is charged is rounded. -/
example : chargedDemand .float (soonCfg (2 ^ 24 + 1)) soonView 0 12 24 (some soonJob) = 2 ^ 24 := by
  decide +kernel

end EeftSched

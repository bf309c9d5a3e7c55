/-
  The demand analysis of a core and the admission test (`sched_util.c`), over
  exact arithmetic: no 32-bit wrap, and rationals for floats.

  * `findSlack`, `isAdmissible`: the analysis at one level, and the test of a
    candidate job at all levels from the local one on;
  * `calculateHorizon_eq`: the horizon is the capped least common multiple of
    the periods of the core's jobs and allocated tasks;
  * `mem_collect_iff`: which deadlines the analysis examines;
  * `le_findSlack_iff`, `isAdmissible_iff`: what a bound on the slack and an
    admission say;
  * `slackAt_inserted`: the slack at a deadline is the same with a job as the
    candidate and with the job in a queue.
-/
import EeftSched.Lib.SortedQueue
import EeftSched.Task
import Mathlib.Algebra.BigOperators.Group.List.Basic
import Mathlib.Algebra.Order.Ring.Rat
import Mathlib.Algebra.GCDMonoid.Nat
import Mathlib.Tactic.Linarith

namespace EeftSched

open SortedQueue

/-- `SLACK_MARGIN_TICKS` -/
def slackMarginTicks : ℚ := 1 / 20

/-- `SLACK_CALC_HORIZON_TICKS_CAP` -/
def slackCalcHorizonTicksCap : ℕ := 5000

/-- `MAX_DEADLINES` -/
def Config.maxDeadlines (cfg : Config) : ℕ := cfg.maxTasks * 64

/-- `FLT_MAX` -/
def fltMax : ℚ := 2 ^ 128 - 2 ^ 104

/-- What the analysis reads of `core_state`. -/
structure CoreView where
  coreId : ℕ
  readyQueue : List Job
  replicaQueue : List Job
  pendingJobsQueue : List Job
  runningJob : Option Job
  localCriticalityLevel : ℕ
  cachedSlackHorizon : ℕ

/-! ## The horizon -/

def safeLcm (a b cap : ℕ) : ℕ :=
  if a = 0 ∨ b = 0 then 0
  else
    let result := a / a.gcd b * b
    if result > cap then cap else result

def calculateAllocatedHorizon (cfg : Config) (coreId : ℕ) : ℕ :=
  go (cfg.entries coreId) 1
where
  go : List TaskAlloc → ℕ → ℕ
    | [], horizon => horizon
    | m :: ms, horizon =>
      match cfg.findTaskById m.taskId with
      | none => go ms horizon
      | some t =>
        if t.period = 0 then go ms horizon
        else
          let horizon := safeLcm horizon t.period slackCalcHorizonTicksCap
          if horizon ≥ slackCalcHorizonTicksCap then slackCalcHorizonTicksCap else go ms horizon

def calculateQueueHorizon : List Job → ℕ → ℕ
  | [], horizon => horizon
  | job :: queue, horizon =>
    if horizon = 0 then calculateQueueHorizon queue job.parentTask.period
    else
      let horizon := safeLcm horizon job.parentTask.period slackCalcHorizonTicksCap
      if horizon ≥ slackCalcHorizonTicksCap then slackCalcHorizonTicksCap
      else calculateQueueHorizon queue horizon

def calculateHorizon (v : CoreView) : ℕ :=
  let horizon := v.cachedSlackHorizon
  let horizon :=
    match v.runningJob with
    | some job => safeLcm horizon job.parentTask.period slackCalcHorizonTicksCap
    | none => horizon
  calculateQueueHorizon v.pendingJobsQueue
    (calculateQueueHorizon v.replicaQueue (calculateQueueHorizon v.readyQueue horizon))

/-! ## The deadlines examined -/

def getJobDeadline (job : Job) (critLvl : ℕ) : ℕ :=
  job.arrivalTime + job.relativeTunedDeadlines critLvl

def addDeadlineToArray (maxDeadlines tstart : ℕ) (deadlines : List ℕ) (d : ℕ) : List ℕ :=
  if d > tstart ∧ deadlines.length < maxDeadlines then deadlines ++ [d] else deadlines

/-- `process_job_deadline`, for a queue, for the running job, which may be
    absent, or for the extra job -/
def processJobDeadlines (maxDeadlines critLvl tstart : ℕ) (jobs : List Job) (deadlines : List ℕ) :
    List ℕ :=
  jobs.foldl (fun ds job => addDeadlineToArray maxDeadlines tstart ds (getJobDeadline job critLvl))
    deadlines

/-- The loop over the releases of a task.  The arrival grows by `period` in
    every pass, so that a positive period ends the loop within `horizon + 1`
    passes, the fuel it gets. -/
def processReleases (maxDeadlines tstart horizon period deadline : ℕ) :
    ℕ → ℕ → List ℕ → List ℕ
  | 0, _, deadlines => deadlines
  | fuel + 1, arrival, deadlines =>
    if arrival + deadline > tstart ∧ arrival + deadline ≤ tstart + horizon ∧
        deadlines.length < maxDeadlines then
      processReleases maxDeadlines tstart horizon period deadline fuel (arrival + period)
        (deadlines ++ [arrival + deadline])
    else deadlines

/-- `(tstart / period + 1) * period` -/
def firstArrival (tstart period : ℕ) : ℕ := (tstart / period + 1) * period

/-- One allocation entry; an unknown task, which the source dereferences
    without a test, counts for nothing. -/
def processEntry (cfg : Config) (critLvl tstart horizon : ℕ) (deadlines : List ℕ) (m : TaskAlloc) :
    List ℕ :=
  match cfg.findTaskById m.taskId with
  | none => deadlines
  | some task =>
    if task.critLevel < critLvl then deadlines
    else
      processReleases cfg.maxDeadlines tstart horizon task.period (m.tunedDeadlines critLvl)
        (horizon + 1) (firstArrival tstart task.period) deadlines

/-- Remove the repetitions from a sorted array; `last` was kept last. -/
def uniqueFrom (last : ℕ) : List ℕ → List ℕ
  | [] => [last]
  | d :: ds => if d ≠ last then last :: uniqueFrom d ds else uniqueFrom last ds

def unique : List ℕ → List ℕ
  | [] => []
  | d :: ds => uniqueFrom d ds

/-- The deadlines in the order in which they are collected. -/
def collected (cfg : Config) (v : CoreView) (critLvl tstart : ℕ) (extraJob : Option Job) : List ℕ :=
  let horizon := calculateHorizon v
  let process := processJobDeadlines cfg.maxDeadlines critLvl tstart
  let deadlines := process v.pendingJobsQueue (process v.replicaQueue (process v.readyQueue
    (process v.runningJob.toList (process extraJob.toList []))))
  (cfg.entries v.coreId).foldl (processEntry cfg critLvl tstart horizon) deadlines

def collectActiveAndFutureDeadlines (cfg : Config) (v : CoreView) (critLvl tstart : ℕ)
    (extraJob : Option Job) : List ℕ :=
  if cfg.maxDeadlines = 0 ∨ critLvl ≥ cfg.maxCriticalityLevels then []
  else unique ((collected cfg v critLvl tstart extraJob).insertionSort (· ≤ ·))

/-! ## Demand and slack -/

/-- The arithmetic of the demand: `(float)n`, and what becomes of a result -/
structure Arith where
  ofNat : ℕ → ℚ
  rnd : ℚ → ℚ

namespace Arith

def exact : Arith := ⟨fun n => n, fun q => q⟩

/-- That of the source -/
def float : Arith := ⟨toFloat, Binary32.round⟩

@[simp] theorem exact_ofNat (n : ℕ) : exact.ofNat n = n := rfl

@[simp] theorem exact_rnd (q : ℚ) : exact.rnd q = q := rfl

end Arith

def calculateJobDemand (F : Arith) (critLvl d : ℕ) (scalingFactor : ℚ) (j : Job) : ℚ :=
  let vdl := j.arrivalTime + j.relativeTunedDeadlines critLvl
  if vdl ≤ d then
    max 0 ⌈F.rnd (F.rnd (F.ofNat (j.parentTask.wcet critLvl) - j.executedTime) / scalingFactor)⌉
  else 0

def addJobDemands (F : Arith) (critLvl d : ℕ) (scalingFactor : ℚ) (jobs : List Job) (demand : ℚ) : ℚ :=
  jobs.foldl (fun demand job => F.rnd (demand + calculateJobDemand F critLvl d scalingFactor job)) demand

/-- The loop over the releases of a task with deadlines up to `d`, at most
    `d + 1` of them for a positive period. -/
def addReleases (F : Arith) (tunedDl period d : ℕ) (cost : ℚ) : ℕ → ℕ → ℚ → ℚ
  | 0, _, demand => demand
  | fuel + 1, arrival, demand =>
    if arrival + tunedDl ≤ d then
      addReleases F tunedDl period d cost fuel (arrival + period) (F.rnd (demand + cost))
    else demand

def addEntryDemand (F : Arith) (cfg : Config) (critLvl tstart d : ℕ) (scalingFactor : ℚ) (demand : ℚ)
    (m : TaskAlloc) : ℚ :=
  match cfg.findTaskById m.taskId with
  | none => demand
  | some task =>
    if task.critLevel < critLvl then demand
    else
      addReleases F (m.tunedDeadlines critLvl) task.period d
        ⌈F.rnd (F.ofNat (task.wcet critLvl) / scalingFactor)⌉ (d + 1)
        (firstArrival tstart task.period) demand

/-- What `__find_slack` charges up to `d` for the jobs -/
def jobsUpTo (F : Arith) (v : CoreView) (critLvl d : ℕ) (scalingFactor : ℚ) (extraJob : Option Job) : ℚ :=
  let add := addJobDemands F critLvl d scalingFactor
  add extraJob.toList (add v.pendingJobsQueue (add v.replicaQueue (add v.readyQueue
    (add v.runningJob.toList 0))))

/-- The demand up to `d` in `__find_slack` -/
def demandUpTo (F : Arith) (cfg : Config) (v : CoreView) (critLvl tstart d : ℕ) (scalingFactor : ℚ)
    (extraJob : Option Job) : ℚ :=
  (cfg.entries v.coreId).foldl (addEntryDemand F cfg critLvl tstart d scalingFactor)
    (jobsUpTo F v critLvl d scalingFactor extraJob)

def slackAt (cfg : Config) (v : CoreView) (critLvl tstart : ℕ) (scalingFactor : ℚ)
    (extraJob : Option Job) (d : ℕ) : ℚ :=
  ((d - tstart : ℕ) : ℚ) - demandUpTo .exact cfg v critLvl tstart d scalingFactor extraJob

/-- `__find_slack` -/
def findSlack (cfg : Config) (systemTime : ℕ) (v : CoreView) (critLvl tstart : ℕ)
    (scalingFactor : ℚ) (extraJob : Option Job) : ℚ :=
  if critLvl ≥ cfg.maxCriticalityLevels then 0
  else
    let scalingFactor := if scalingFactor ≤ 0 then 1 else scalingFactor
    let tstart := if tstart > systemTime then tstart else systemTime
    let deadlines := collectActiveAndFutureDeadlines cfg v critLvl tstart extraJob
    if deadlines.length = 0 then fltMax
    else
      let minSlack := deadlines.foldl (fun minSlack d =>
        let slack := slackAt cfg v critLvl tstart scalingFactor extraJob d
        if slack < minSlack then slack else minSlack) fltMax
      if minSlack < 0 then 0 else minSlack

/-- `__is_admissible` -/
def isAdmissible (cfg : Config) (systemTime : ℕ) (v : CoreView) (candidateJob : Job)
    (extraMargin : ℚ) : Bool :=
  (List.range' v.localCriticalityLevel (cfg.maxCriticalityLevels - v.localCriticalityLevel)).all
    fun critLvl =>
      let virtualDeadline := candidateJob.arrivalTime + candidateJob.relativeTunedDeadlines critLvl
      !decide (virtualDeadline ≤ systemTime) &&
      !decide (findSlack cfg systemTime v critLvl candidateJob.arrivalTime 1 (some candidateJob) <
        slackMarginTicks + extraMargin)

/-- `add_to_queue_sorted` -/
def addToQueueSorted (jobToAdd : Job) (queue : List Job) : List Job :=
  insertBy Job.virtualDeadline jobToAdd queue

/-- The candidate goes to the ready or to the replica queue. -/
inductive CoreView.Inserted (v : CoreView) (j : Job) : CoreView → Prop
  | ready : Inserted v j { v with readyQueue := addToQueueSorted j v.readyQueue }
  | replica : Inserted v j { v with replicaQueue := addToQueueSorted j v.replicaQueue }

/-! ## Which deadlines are examined -/

section
variable {n t : ℕ} {l : List ℕ}

theorem addDeadlineToArray_take (d : ℕ) :
    addDeadlineToArray n t (l.take n) d = (l ++ [d].filter (t < ·)).take n := by
  unfold addDeadlineToArray
  by_cases hd : t < d
  · by_cases hn : l.length < n
    · rw [if_pos ⟨hd, by rw [List.length_take]; omega⟩, List.take_of_length_le hn.le,
        List.take_of_length_le (by simp [hd]; omega)]
      simp [hd]
    · rw [if_neg (by rw [List.length_take]; omega), List.take_append_of_le_length (not_lt.1 hn)]
  · rw [if_neg (fun h => hd h.1)]
    simp [hd]

theorem processJobDeadlines_take (critLvl : ℕ) (jobs : List Job) :
    processJobDeadlines n critLvl t jobs (l.take n) =
      (l ++ (jobs.map (getJobDeadline · critLvl)).filter (t < ·)).take n := by
  unfold processJobDeadlines
  induction jobs generalizing l with
  | nil => simp
  | cons j jobs ih =>
    rw [List.foldl_cons, addDeadlineToArray_take, ih, List.map_cons, List.append_assoc,
      ← List.filter_append, List.singleton_append]

/-- The deadlines of the releases of a task from `arrival` on, up to the
    horizon. -/
def releaseDeadlines (tstart horizon period deadline : ℕ) : ℕ → ℕ → List ℕ
  | 0, _ => []
  | fuel + 1, arrival =>
    if arrival + deadline > tstart ∧ arrival + deadline ≤ tstart + horizon then
      (arrival + deadline) ::
        releaseDeadlines tstart horizon period deadline fuel (arrival + period)
    else []

theorem processReleases_take {horizon period deadline : ℕ} (fuel arrival : ℕ) :
    processReleases n t horizon period deadline fuel arrival (l.take n) =
      (l ++ releaseDeadlines t horizon period deadline fuel arrival).take n := by
  induction fuel generalizing l arrival with
  | zero => simp [processReleases, releaseDeadlines]
  | succ fuel ih =>
    unfold processReleases releaseDeadlines
    by_cases hd : arrival + deadline > t ∧ arrival + deadline ≤ t + horizon
    · by_cases hn : l.length < n
      · have htake : l.take n ++ [arrival + deadline] = (l ++ [arrival + deadline]).take n := by
          rw [List.take_of_length_le hn.le, List.take_of_length_le (by simp; omega)]
        rw [if_pos ⟨hd.1, hd.2, by rw [List.length_take]; omega⟩, if_pos hd, htake, ih,
          List.append_assoc, List.singleton_append]
      · rw [if_neg (by rw [List.length_take]; omega), List.take_append_of_le_length (not_lt.1 hn)]
    · rw [if_neg (fun h => hd ⟨h.1, h.2.1⟩), if_neg hd, List.append_nil]

/-- The releases after `tstart` with deadlines up to the horizon. -/
theorem mem_releaseDeadlines {horizon period deadline d : ℕ} (hp : 0 < period) {fuel arrival : ℕ}
    (ha : t < arrival) (hf : t + horizon < arrival + fuel) :
    d ∈ releaseDeadlines t horizon period deadline fuel arrival ↔
      ∃ k, d = arrival + k * period + deadline ∧ d ≤ t + horizon := by
  induction fuel generalizing arrival with
  | zero =>
    simp only [releaseDeadlines, List.not_mem_nil, false_iff, not_exists, not_and]
    intro k hk; omega
  | succ fuel ih =>
    unfold releaseDeadlines
    by_cases hd : arrival + deadline ≤ t + horizon
    · rw [if_pos ⟨by omega, hd⟩, List.mem_cons, ih (by omega) (by omega)]
      constructor
      · rintro (rfl | ⟨k, hk, hle⟩)
        · exact ⟨0, by omega, hd⟩
        · exact ⟨k + 1, by rw [hk]; ring, hle⟩
      · rintro ⟨k, hk, hle⟩
        cases k with
        | zero => left; omega
        | succ k => right; exact ⟨k, by rw [hk]; ring, hle⟩
    · rw [if_neg (fun h => hd h.2)]
      simp only [List.not_mem_nil, false_iff, not_exists, not_and]
      intro k hk
      have := Nat.zero_le (k * period)
      omega

end

theorem lt_firstArrival (tstart : ℕ) {period : ℕ} (hp : 0 < period) :
    tstart < firstArrival tstart period := by
  unfold firstArrival
  have := Nat.lt_div_mul_add (a := tstart) hp
  rw [Nat.add_mul, Nat.one_mul]; exact this

/-- The deadlines of the future releases of one allocated task. -/
def entryDeadlines (cfg : Config) (critLvl tstart horizon : ℕ) (m : TaskAlloc) : List ℕ :=
  match cfg.findTaskById m.taskId with
  | none => []
  | some task =>
    if task.critLevel < critLvl then []
    else
      releaseDeadlines tstart horizon task.period (m.tunedDeadlines critLvl) (horizon + 1)
        (firstArrival tstart task.period)

/-- The jobs whose deadlines are examined. -/
def CoreView.jobs (v : CoreView) (extraJob : Option Job) : List Job :=
  extraJob.toList ++ v.runningJob.toList ++ v.readyQueue ++ v.replicaQueue ++ v.pendingJobsQueue

/-- All deadlines there are to examine, up to a horizon. -/
def allDeadlines (cfg : Config) (v : CoreView) (critLvl tstart horizon : ℕ) (extraJob : Option Job) :
    List ℕ :=
  ((v.jobs extraJob).map (getJobDeadline · critLvl)).filter (tstart < ·) ++
    (cfg.entries v.coreId).flatMap (entryDeadlines cfg critLvl tstart horizon)

theorem processEntries_take (cfg : Config) (critLvl tstart horizon : ℕ) (l : List ℕ)
    (ms : List TaskAlloc) :
    ms.foldl (processEntry cfg critLvl tstart horizon) (l.take cfg.maxDeadlines) =
      (l ++ ms.flatMap (entryDeadlines cfg critLvl tstart horizon)).take cfg.maxDeadlines := by
  induction ms generalizing l with
  | nil => simp
  | cons m ms ih =>
    have hm : processEntry cfg critLvl tstart horizon (l.take cfg.maxDeadlines) m =
        (l ++ entryDeadlines cfg critLvl tstart horizon m).take cfg.maxDeadlines := by
      unfold processEntry entryDeadlines
      cases cfg.findTaskById m.taskId with
      | none => simp
      | some task =>
        simp only
        split_ifs
        · simp
        · exact processReleases_take _ _
    rw [List.foldl_cons, hm, ih, List.flatMap_cons, List.append_assoc]

/-- **What is collected**: all deadlines there are, as far as they fit. -/
theorem collected_eq (cfg : Config) (v : CoreView) (critLvl tstart : ℕ) (extraJob : Option Job) :
    collected cfg v critLvl tstart extraJob =
      (allDeadlines cfg v critLvl tstart (calculateHorizon v) extraJob).take cfg.maxDeadlines := by
  have hnil : ([] : List ℕ) = ([] : List ℕ).take cfg.maxDeadlines := by simp
  unfold collected allDeadlines CoreView.jobs
  rw [hnil]
  simp only [processJobDeadlines_take, processEntries_take, List.map_append, List.filter_append,
    List.append_assoc, List.nil_append]

theorem mem_uniqueFrom {last d : ℕ} {ds : List ℕ} : d ∈ uniqueFrom last ds ↔ d = last ∨ d ∈ ds := by
  induction ds generalizing last with
  | nil => simp [uniqueFrom]
  | cons e ds ih =>
    unfold uniqueFrom
    split_ifs with he
    · simp [ih]
    · rw [not_not] at he
      subst he
      rw [ih]; simp

theorem mem_unique {d : ℕ} {ds : List ℕ} : d ∈ unique ds ↔ d ∈ ds := by
  cases ds with
  | nil => rfl
  | cons e ds => rw [unique, mem_uniqueFrom, List.mem_cons]

theorem mem_collect_iff {cfg : Config} {v : CoreView} {critLvl tstart d : ℕ} {extraJob : Option Job} :
    d ∈ collectActiveAndFutureDeadlines cfg v critLvl tstart extraJob ↔
      critLvl < cfg.maxCriticalityLevels ∧
        d ∈ (allDeadlines cfg v critLvl tstart (calculateHorizon v) extraJob).take
          cfg.maxDeadlines := by
  unfold collectActiveAndFutureDeadlines
  split_ifs with h
  · rcases h with h | h
    · simp [h]
    · simp [not_lt.2 h]
  · rw [mem_unique, List.mem_insertionSort, collected_eq]
    simp only [not_or, not_le] at h
    simp [h.2]

/-! ## The horizon of the new state -/

/-- `safe_lcm` is the least common multiple, capped. -/
theorem safeLcm_eq {a b : ℕ} (ha : 0 < a) (hb : 0 < b) (cap : ℕ) :
    safeLcm a b cap = min (a.lcm b) cap := by
  have hlcm : a / a.gcd b * b = a.lcm b := by
    rw [Nat.lcm_eq_mul_div, Nat.div_mul_right_comm (Nat.gcd_dvd_left a b)]
  unfold safeLcm
  rw [if_neg (by omega), hlcm]
  simp only
  split_ifs <;> omega

/-- Once the cap is reached, further periods change nothing. -/
theorem min_lcm_min {a b cap : ℕ} (ha : 0 < a) (hb : 0 < b) (hc : 0 < cap) :
    min ((min a cap).lcm b) cap = min (a.lcm b) cap := by
  rcases le_total a cap with h | h
  · rw [min_eq_left h]
  · have h1 : cap ≤ cap.lcm b := Nat.le_of_dvd (Nat.lcm_pos hc hb) (Nat.dvd_lcm_left cap b)
    have h2 : a ≤ a.lcm b := Nat.le_of_dvd (Nat.lcm_pos ha hb) (Nat.dvd_lcm_left a b)
    rw [min_eq_right h, min_eq_right h1, min_eq_right (h.trans h2)]

/-- The least common multiple of the periods of some jobs and `a`. -/
def lcmPeriods (a : ℕ) (jobs : List Job) : ℕ := jobs.foldl (fun h j => h.lcm j.parentTask.period) a

theorem lcmPeriods_append (a : ℕ) (l l' : List Job) :
    lcmPeriods a (l ++ l') = lcmPeriods (lcmPeriods a l) l' := List.foldl_append ..

theorem lcmPeriods_pos {a : ℕ} (ha : 0 < a) {l : List Job} (hl : ∀ j ∈ l, 0 < j.parentTask.period) :
    0 < lcmPeriods a l := by
  induction l generalizing a with
  | nil => exact ha
  | cons j l ih =>
    exact ih (Nat.lcm_pos ha (hl j List.mem_cons_self)) fun i hi => hl i (List.mem_cons_of_mem _ hi)

theorem lcmPeriods_perm {a : ℕ} {l l' : List Job} (h : l.Perm l') : lcmPeriods a l = lcmPeriods a l' :=
  h.foldl_eq' (fun x _ y _ z => by rw [Nat.lcm_assoc, Nat.lcm_assoc, Nat.lcm_comm x.parentTask.period])
    a

theorem lcmPeriods_cons (a : ℕ) (j : Job) (l : List Job) :
    lcmPeriods a (j :: l) = (lcmPeriods a l).lcm j.parentTask.period := by
  rw [lcmPeriods_perm (List.perm_append_singleton j l).symm, lcmPeriods_append]; rfl

theorem dvd_lcmPeriods (a : ℕ) (l : List Job) : a ∣ lcmPeriods a l := by
  induction l generalizing a with
  | nil => exact dvd_rfl
  | cons j l ih => exact (Nat.dvd_lcm_left a _).trans (ih _)

theorem calculateQueueHorizon_eq {a : ℕ} (ha : 0 < a) {queue : List Job}
    (hq : ∀ j ∈ queue, 0 < j.parentTask.period) :
    calculateQueueHorizon queue (min a slackCalcHorizonTicksCap) =
      min (lcmPeriods a queue) slackCalcHorizonTicksCap := by
  have hc : 0 < slackCalcHorizonTicksCap := by decide
  induction queue generalizing a with
  | nil => rfl
  | cons j queue ih =>
    have hj := hq j List.mem_cons_self
    have htail : ∀ i ∈ queue, 0 < i.parentTask.period := fun i hi => hq i (List.mem_cons_of_mem _ hi)
    have hlcm := Nat.lcm_pos ha hj
    unfold calculateQueueHorizon
    rw [if_neg (by omega), safeLcm_eq (by omega) hj, min_lcm_min ha hj hc]
    simp only
    split_ifs with hcap
    · have hle : slackCalcHorizonTicksCap ≤ lcmPeriods a (j :: queue) :=
        (le_min_iff.1 hcap).1.trans
          (Nat.le_of_dvd (lcmPeriods_pos hlcm htail) (dvd_lcmPeriods (a.lcm _) queue))
      exact (min_eq_right hle).symm
    · exact ih hlcm htail

/-- The jobs whose periods enter the horizon. -/
abbrev CoreView.horizonJobs (v : CoreView) : List Job := v.jobs none

/-- A core state whose jobs have positive periods and whose cached horizon is
    one `calculate_allocated_horizon` returns. -/
structure CoreView.Wf (v : CoreView) : Prop where
  periods : ∀ j ∈ v.horizonJobs, 0 < j.parentTask.period
  cached : 0 < v.cachedSlackHorizon
  cachedLe : v.cachedSlackHorizon ≤ slackCalcHorizonTicksCap

/-- The capped least common multiple of all periods -/
def CoreView.horizon (v : CoreView) : ℕ :=
  min (lcmPeriods v.cachedSlackHorizon v.horizonJobs) slackCalcHorizonTicksCap

/-- **The horizon** is that of the periods. -/
theorem calculateHorizon_eq {v : CoreView} (h : v.Wf) : calculateHorizon v = v.horizon := by
  have hp := h.periods
  have hrun : ∀ j ∈ v.runningJob.toList, 0 < j.parentTask.period := by
    intro j hj
    exact hp j (by simp only [CoreView.jobs, List.mem_append]; tauto)
  have hready : ∀ j ∈ v.readyQueue, 0 < j.parentTask.period := by
    intro j hj
    exact hp j (by simp only [CoreView.jobs, List.mem_append]; tauto)
  have hreplica : ∀ j ∈ v.replicaQueue, 0 < j.parentTask.period := by
    intro j hj
    exact hp j (by simp only [CoreView.jobs, List.mem_append]; tauto)
  have hpend : ∀ j ∈ v.pendingJobsQueue, 0 < j.parentTask.period := by
    intro j hj
    exact hp j (by simp only [CoreView.jobs, List.mem_append]; tauto)
  have hfirst : (match v.runningJob with
      | some job => safeLcm v.cachedSlackHorizon job.parentTask.period slackCalcHorizonTicksCap
      | none => v.cachedSlackHorizon) =
      min (lcmPeriods v.cachedSlackHorizon v.runningJob.toList) slackCalcHorizonTicksCap := by
    cases hj : v.runningJob with
    | none => exact (min_eq_left h.cachedLe).symm
    | some j => exact safeLcm_eq h.cached (hrun j (by simp [hj])) _
  unfold calculateHorizon
  simp only
  rw [hfirst, calculateQueueHorizon_eq (lcmPeriods_pos h.cached hrun) hready,
    calculateQueueHorizon_eq (lcmPeriods_pos (lcmPeriods_pos h.cached hrun) hready) hreplica,
    calculateQueueHorizon_eq
      (lcmPeriods_pos (lcmPeriods_pos (lcmPeriods_pos h.cached hrun) hready) hreplica) hpend]
  simp only [CoreView.horizon, CoreView.horizonJobs, CoreView.jobs, Option.toList_none,
    List.nil_append, lcmPeriods_append]

/-- The jobs after the insertion are those the admission test looked at. -/
theorem CoreView.Inserted.jobs_perm {v v' : CoreView} {j : Job} (h : v.Inserted j v') :
    (v'.jobs none).Perm (v.jobs (some j)) := by
  have hmid : ∀ a b c d : List Job, (a ++ (j :: b) ++ c ++ d).Perm (j :: (a ++ b ++ c ++ d)) :=
    fun a b c d => by simp
  cases h with
  | ready =>
    have hins := insertBy_perm Job.virtualDeadline j v.readyQueue
    exact ((((hins.append_left _).append_right _).append_right _)).trans (hmid _ _ _ _)
  | replica =>
    have hins := insertBy_perm Job.virtualDeadline j v.replicaQueue
    refine (((hins.append_left (v.runningJob.toList ++ v.readyQueue)).append_right _)).trans ?_
    simpa [CoreView.jobs] using hmid (v.runningJob.toList ++ v.readyQueue) v.replicaQueue
      v.pendingJobsQueue []

theorem CoreView.Inserted.frame {v v' : CoreView} {j : Job} (h : v.Inserted j v') :
    v'.coreId = v.coreId ∧ v'.cachedSlackHorizon = v.cachedSlackHorizon ∧
      v'.localCriticalityLevel = v.localCriticalityLevel := by
  cases h <;> exact ⟨rfl, rfl, rfl⟩

theorem CoreView.Inserted.wf {v v' : CoreView} {j : Job} (h : v.Inserted j v') (hv : v.Wf)
    (hj : 0 < j.parentTask.period) : v'.Wf := by
  refine ⟨fun i hi => ?_, by rw [h.frame.2.1]; exact hv.cached, by rw [h.frame.2.1]; exact hv.cachedLe⟩
  rcases List.mem_cons.1 (h.jobs_perm.subset hi) with rfl | hi
  · exact hj
  · exact hv.periods i hi

/-- **The horizon after the insertion** takes the period of the job in. -/
theorem CoreView.Inserted.horizon {v v' : CoreView} {j : Job} (h : v.Inserted j v') (hv : v.Wf)
    (hj : 0 < j.parentTask.period) :
    v'.horizon = min (v.horizon.lcm j.parentTask.period) slackCalcHorizonTicksCap := by
  unfold CoreView.horizon
  rw [h.frame.2.1, lcmPeriods_perm h.jobs_perm,
    min_lcm_min (lcmPeriods_pos hv.cached hv.periods) hj (by decide)]
  exact congrArg (min · _) (lcmPeriods_cons _ j (v.jobs none))

/-! ## The slack of the new state -/

theorem addJobDemands_eq (critLvl d : ℕ) (s : ℚ) (jobs : List Job) (demand : ℚ) :
    addJobDemands .exact critLvl d s jobs demand =
      demand + (jobs.map (calculateJobDemand .exact critLvl d s)).sum := by
  unfold addJobDemands
  induction jobs generalizing demand with
  | nil => simp
  | cons j jobs ih =>
    rw [List.foldl_cons, ih, Arith.exact_rnd, List.map_cons, List.sum_cons, add_assoc]

theorem demandUpTo_eq (cfg : Config) (v : CoreView) (critLvl tstart d : ℕ) (s : ℚ)
    (extraJob : Option Job) :
    demandUpTo .exact cfg v critLvl tstart d s extraJob =
      (cfg.entries v.coreId).foldl (addEntryDemand .exact cfg critLvl tstart d s)
        (((v.jobs extraJob).map (calculateJobDemand .exact critLvl d s)).sum) := by
  unfold demandUpTo jobsUpTo
  simp only [addJobDemands_eq, CoreView.jobs, List.map_append, List.sum_append]
  congr 1; ring

/-- The slack at a deadline does not depend on where the job is counted. -/
theorem slackAt_inserted {cfg : Config} {v v' : CoreView} {j : Job} (h : v.Inserted j v')
    (critLvl tstart d : ℕ) (s : ℚ) :
    slackAt cfg v' critLvl tstart s none d = slackAt cfg v critLvl tstart s (some j) d := by
  unfold slackAt
  rw [demandUpTo_eq, demandUpTo_eq, h.frame.1, (h.jobs_perm.map _).sum_eq]

theorem le_foldl_min {x init : ℚ} {f : ℕ → ℚ} {ds : List ℕ} :
    x ≤ ds.foldl (fun m d => if f d < m then f d else m) init ↔ x ≤ init ∧ ∀ d ∈ ds, x ≤ f d := by
  induction ds generalizing init with
  | nil => simp
  | cons e ds ih =>
    rw [List.foldl_cons, ih, List.forall_mem_cons]
    split_ifs with h
    · exact ⟨fun ⟨h1, h2⟩ => ⟨h1.trans h.le, h1, h2⟩, fun ⟨_, h1, h2⟩ => ⟨h1, h2⟩⟩
    · exact ⟨fun ⟨h1, h2⟩ => ⟨h1, h1.trans (not_lt.1 h), h2⟩, fun ⟨h1, _, h2⟩ => ⟨h1, h2⟩⟩

/-- **What a lower bound on the slack says**: it is trivial, or it holds at
    every deadline examined. -/
theorem le_findSlack_iff {cfg : Config} {now : ℕ} {v : CoreView} {critLvl tstart : ℕ}
    {extraJob : Option Job} {x : ℚ} (hl : critLvl < cfg.maxCriticalityLevels) (ht : tstart ≤ now) :
    x ≤ findSlack cfg now v critLvl tstart 1 extraJob ↔
      x ≤ 0 ∨ x ≤ fltMax ∧ ∀ d ∈ collectActiveAndFutureDeadlines cfg v critLvl now extraJob,
        x ≤ slackAt cfg v critLvl now 1 extraJob d := by
  have h0 : (0 : ℚ) ≤ fltMax := by unfold fltMax; norm_num
  have hone : (if (1 : ℚ) ≤ 0 then 1 else 1) = (1 : ℚ) := by norm_num
  unfold findSlack
  simp only [if_neg (not_le.2 hl), if_neg (not_lt.2 ht), hone]
  split_ifs with hlen hneg
  · rw [List.length_eq_zero_iff.1 hlen]
    simp only [List.not_mem_nil, false_imp_iff, implies_true, and_true]
    exact ⟨Or.inr, fun h => h.elim (fun h => h.trans h0) id⟩
  · rw [← le_foldl_min]
    exact ⟨Or.inl, fun h => h.elim id fun h => h.trans hneg.le⟩
  · rw [← le_foldl_min]
    exact ⟨Or.inr, fun h => h.elim (fun h => h.trans (not_lt.1 hneg)) id⟩

theorem isAdmissible_iff {cfg : Config} {now : ℕ} {v : CoreView} {j : Job} {m : ℚ} :
    isAdmissible cfg now v j m = true ↔
      ∀ critLvl, v.localCriticalityLevel ≤ critLvl → critLvl < cfg.maxCriticalityLevels →
        now < j.arrivalTime + j.relativeTunedDeadlines critLvl ∧
        slackMarginTicks + m ≤ findSlack cfg now v critLvl j.arrivalTime 1 (some j) := by
  unfold isAdmissible
  simp only [List.all_eq_true, List.mem_range'_1, Bool.and_eq_true, Bool.not_eq_true',
    decide_eq_false_iff_not, not_le, not_lt]
  refine ⟨fun h c h1 h2 => h c ⟨h1, by omega⟩, fun h c hc => h c hc.1 (by omega)⟩

/-- Every task allocated to a core is known and has a positive period. -/
def Config.EntriesKnown (cfg : Config) (coreId : ℕ) : Prop :=
  ∀ m ∈ cfg.entries coreId, ∃ task, cfg.findTaskById m.taskId = some task ∧ 0 < task.period

/-- A release of an allocated task after `now`, by its deadline. -/
def FutureRelease (cfg : Config) (coreId critLvl now d : ℕ) : Prop :=
  ∃ m ∈ cfg.entries coreId, ∃ task, cfg.findTaskById m.taskId = some task ∧
    critLvl ≤ task.critLevel ∧
    ∃ k, d = firstArrival now task.period + k * task.period + m.tunedDeadlines critLvl

theorem mem_entryDeadlines_iff {cfg : Config} {coreId critLvl now horizon d : ℕ}
    (hk : cfg.EntriesKnown coreId) :
    d ∈ (cfg.entries coreId).flatMap (entryDeadlines cfg critLvl now horizon) ↔
      FutureRelease cfg coreId critLvl now d ∧ d ≤ now + horizon := by
  rw [List.mem_flatMap]
  constructor
  · rintro ⟨m, hm, hd⟩
    obtain ⟨task, ht, hp⟩ := hk m hm
    have hlt := lt_firstArrival now hp
    rw [entryDeadlines, ht] at hd
    simp only at hd
    split_ifs at hd with hc
    · simp at hd
    · obtain ⟨k, hk, hle⟩ := (mem_releaseDeadlines hp hlt (by omega)).1 hd
      exact ⟨⟨m, hm, task, ht, not_lt.1 hc, k, hk⟩, hle⟩
  · rintro ⟨⟨m, hm, task, ht, hc, k, hk'⟩, hle⟩
    obtain ⟨task', ht', hp⟩ := hk m hm
    obtain rfl : task = task' := Option.some.inj (ht.symm.trans ht')
    have hlt := lt_firstArrival now hp
    refine ⟨m, hm, ?_⟩
    rw [entryDeadlines, ht]
    simp only [if_neg (not_lt.2 hc)]
    exact (mem_releaseDeadlines hp hlt (by omega)).2 ⟨k, hk', hle⟩

end EeftSched

/-
  The horizon of the analysis in machine arithmetic (`gcd`, `safe_lcm` in
  `lib/math.h`, `calculate_allocated_horizon` .. `calculate_horizon` in
  `sched_util.c`).

  A value that does not fit into its type ends the computation here.

  * `safeLcm64_eq`: for 32-bit arguments the product of `safe_lcm` fits into 64
    bits, and what is returned into 32;
  * `calculateHorizon32_eq`: the horizon is the capped least common multiple of
    all periods, in whatever order they come, and nothing overflows.
-/
import EeftSched.Lib.Checked
import EeftSched.Slack
import Mathlib.Algebra.GCDMonoid.Multiset

namespace EeftSched

open Except

/-- A value outside its type -/
inductive Overflow where
  | u32
  | u64
deriving DecidableEq, Repr

/-- A `uint32_t` -/
def u32 (a : ℕ) : Except Overflow ℕ := if a < 2 ^ 32 then .ok a else .error .u32

/-- A `uint64_t` -/
def u64 (a : ℕ) : Except Overflow ℕ := if a < 2 ^ 64 then .ok a else .error .u64

theorem u32_eq {a : ℕ} (h : a < 2 ^ 32) : u32 a = .ok a := if_pos h

theorem u64_eq {a : ℕ} (h : a < 2 ^ 64) : u64 a = .ok a := if_pos h

/-- The loop of `gcd`; `b` falls in every pass and bounds their number. -/
def gcdFrom : ℕ → ℕ → ℕ → ℕ
  | 0, a, _ => a
  | fuel + 1, a, b => if b = 0 then a else gcdFrom fuel b (a % b)

/-- `gcd` -/
def gcd32 (a b : ℕ) : ℕ := gcdFrom (b + 1) a b

theorem gcdFrom_eq {fuel a b : ℕ} (h : b < fuel) : gcdFrom fuel a b = a.gcd b := by
  induction fuel generalizing a b with
  | zero => omega
  | succ fuel ih =>
    unfold gcdFrom
    split_ifs with hb
    · rw [hb, Nat.gcd_zero_right]
    · have hlt := Nat.mod_lt a (Nat.pos_of_ne_zero hb)
      rw [ih (by omega), Nat.gcd_comm a b, Nat.gcd_rec b a, Nat.gcd_comm]

@[simp] theorem gcd32_eq (a b : ℕ) : gcd32 a b = a.gcd b := gcdFrom_eq (Nat.lt_succ_self b)

/-- `safe_lcm`: the product in 64 bits, the result in 32 -/
def safeLcm64 (a b cap : ℕ) : Except Overflow ℕ :=
  if a = 0 ∨ b = 0 then .ok 0
  else do
    let result ← u64 (a / gcd32 a b * b)
    if result > cap then .ok cap else u32 result

/-- `calculate_allocated_horizon` -/
def calculateAllocatedHorizon32 (cfg : Config) (coreId : ℕ) : Except Overflow ℕ :=
  go (cfg.entries coreId) 1
where
  go : List TaskAlloc → ℕ → Except Overflow ℕ
    | [], horizon => .ok horizon
    | m :: ms, horizon =>
      match cfg.findTaskById m.taskId with
      | none => go ms horizon
      | some t =>
        if t.period = 0 then go ms horizon
        else do
          let horizon ← safeLcm64 horizon t.period slackCalcHorizonTicksCap
          if horizon ≥ slackCalcHorizonTicksCap then .ok slackCalcHorizonTicksCap
          else go ms horizon

/-- `calculate_queue_horizon` -/
def calculateQueueHorizon32 : List Job → ℕ → Except Overflow ℕ
  | [], horizon => .ok horizon
  | job :: queue, horizon =>
    if horizon = 0 then calculateQueueHorizon32 queue job.parentTask.period
    else do
      let horizon ← safeLcm64 horizon job.parentTask.period slackCalcHorizonTicksCap
      if horizon ≥ slackCalcHorizonTicksCap then .ok slackCalcHorizonTicksCap
      else calculateQueueHorizon32 queue horizon

/-- `calculate_horizon` -/
def calculateHorizon32 (v : CoreView) : Except Overflow ℕ := do
  let horizon := v.cachedSlackHorizon
  let horizon ←
    match v.runningJob with
    | some job => safeLcm64 horizon job.parentTask.period slackCalcHorizonTicksCap
    | none => .ok horizon
  let horizon ← calculateQueueHorizon32 v.readyQueue horizon
  let horizon ← calculateQueueHorizon32 v.replicaQueue horizon
  calculateQueueHorizon32 v.pendingJobsQueue horizon

/-! ## Nothing overflows -/

variable {cfg : Config} {v : CoreView} {a b cap : ℕ}

/-- **The product of `safe_lcm` fits** for all 32-bit arguments. -/
theorem safeLcm64_eq (ha : a < 2 ^ 32) (hb : b < 2 ^ 32) (hc : cap < 2 ^ 32) :
    safeLcm64 a b cap = .ok (safeLcm a b cap) := by
  unfold safeLcm64 safeLcm
  rw [gcd32_eq]
  split_ifs with h
  · rfl
  · have hprod : a / a.gcd b * b < 2 ^ 64 := by
      calc a / a.gcd b * b ≤ a * b := Nat.mul_le_mul_right b (Nat.div_le_self a _)
        _ < 2 ^ 32 * 2 ^ 32 := Nat.mul_lt_mul'' ha hb
        _ = 2 ^ 64 := by norm_num
    rw [u64_eq hprod, ok_bind]
    simp only
    split_ifs with hcap
    · rfl
    · exact u32_eq (by omega)

theorem slackCalcHorizonTicksCap_lt : slackCalcHorizonTicksCap < 2 ^ 32 := by
  norm_num [slackCalcHorizonTicksCap]

theorem safeLcm_le_cap (a b cap : ℕ) : safeLcm a b cap ≤ cap := by
  unfold safeLcm
  split_ifs with h
  · exact Nat.zero_le _
  · simp only
    split_ifs <;> omega

theorem calculateQueueHorizon32_eq {queue : List Job} (hq : ∀ j ∈ queue, j.parentTask.period < 2 ^ 32)
    (ha : a < 2 ^ 32) :
    calculateQueueHorizon32 queue a = .ok (calculateQueueHorizon queue a) ∧
      calculateQueueHorizon queue a < 2 ^ 32 := by
  have hcap := slackCalcHorizonTicksCap_lt
  induction queue generalizing a with
  | nil => exact ⟨rfl, ha⟩
  | cons j queue ih =>
    have hj := hq j List.mem_cons_self
    have htail : ∀ i ∈ queue, i.parentTask.period < 2 ^ 32 := fun i hi => hq i (List.mem_cons_of_mem _ hi)
    unfold calculateQueueHorizon32 calculateQueueHorizon
    split_ifs with h
    · exact ih htail hj
    · rw [safeLcm64_eq ha hj hcap, ok_bind]
      simp only
      split_ifs with hle
      · exact ⟨rfl, hcap⟩
      · exact ih htail (by omega)

theorem calculateHorizon32_eq_calculateHorizon (hj : ∀ j ∈ v.jobs none, j.parentTask.period < 2 ^ 32)
    (hc : v.cachedSlackHorizon < 2 ^ 32) : calculateHorizon32 v = .ok (calculateHorizon v) := by
  have hcap := slackCalcHorizonTicksCap_lt
  simp only [CoreView.jobs, List.mem_append, Option.mem_toList] at hj
  have hready : ∀ j ∈ v.readyQueue, j.parentTask.period < 2 ^ 32 := fun j h => hj j (by tauto)
  have hreplica : ∀ j ∈ v.replicaQueue, j.parentTask.period < 2 ^ 32 := fun j h => hj j (by tauto)
  have hpending : ∀ j ∈ v.pendingJobsQueue, j.parentTask.period < 2 ^ 32 := fun j h => hj j (by tauto)
  have hqueues : ∀ h < 2 ^ 32, (do
      let h ← calculateQueueHorizon32 v.readyQueue h
      let h ← calculateQueueHorizon32 v.replicaQueue h
      calculateQueueHorizon32 v.pendingJobsQueue h) =
      .ok (calculateQueueHorizon v.pendingJobsQueue
        (calculateQueueHorizon v.replicaQueue (calculateQueueHorizon v.readyQueue h))) := by
    intro h hh
    obtain ⟨h1, hlt1⟩ := calculateQueueHorizon32_eq hready hh
    obtain ⟨h2, hlt2⟩ := calculateQueueHorizon32_eq hreplica hlt1
    rw [h1, ok_bind, h2, ok_bind]
    exact (calculateQueueHorizon32_eq hpending hlt2).1
  unfold calculateHorizon32 calculateHorizon
  cases hr : v.runningJob with
  | none => exact hqueues _ hc
  | some job =>
    simp only
    rw [safeLcm64_eq hc (hj job (by simp [hr])) hcap, ok_bind]
    exact hqueues _ ((safeLcm_le_cap _ _ _).trans_lt hcap)

/-! ## The least common multiple of all periods -/

/-- The periods of the known tasks among some allocation entries -/
def Config.knownPeriods (cfg : Config) (entries : List TaskAlloc) : List ℕ :=
  entries.filterMap fun m => (cfg.findTaskById m.taskId).map (·.period)

/-- All periods the horizon of a core depends on, in no order -/
def CoreView.periods (cfg : Config) (v : CoreView) : Multiset ℕ :=
  ↑(cfg.knownPeriods (cfg.entries v.coreId)) + ↑((v.jobs none).map (·.parentTask.period))

theorem lcmPeriods_eq_lcm (a : ℕ) (jobs : List Job) :
    lcmPeriods a jobs = a.lcm (Multiset.lcm ↑(jobs.map (·.parentTask.period))) := by
  induction jobs generalizing a with
  | nil => simp [lcmPeriods]
  | cons j jobs ih =>
    have hcons : lcmPeriods a (j :: jobs) = lcmPeriods (a.lcm j.parentTask.period) jobs := rfl
    rw [hcons, ih, List.map_cons, ← Multiset.cons_coe, Multiset.lcm_cons, lcm_eq_nat_lcm, Nat.lcm_assoc]

theorem multiset_lcm_pos {s : Multiset ℕ} (h : ∀ p ∈ s, 0 < p) : 0 < s.lcm := by
  refine Nat.pos_of_ne_zero fun h0 => ?_
  have hmem := (Multiset.lcm_eq_zero_iff s).1 h0
  exact absurd (h 0 hmem) (lt_irrefl 0)

/-- The loop over the allocation entries takes the least common multiple. -/
theorem calculateAllocatedHorizon32_go {ms : List TaskAlloc}
    (hp : ∀ p ∈ cfg.knownPeriods ms, 0 < p ∧ p < 2 ^ 32) (ha : 0 < a) :
    calculateAllocatedHorizon32.go cfg ms (min a slackCalcHorizonTicksCap) =
      .ok (min (a.lcm (Multiset.lcm ↑(cfg.knownPeriods ms))) slackCalcHorizonTicksCap) := by
  have hcap := slackCalcHorizonTicksCap_lt
  have hcap0 : 0 < slackCalcHorizonTicksCap := by norm_num [slackCalcHorizonTicksCap]
  induction ms generalizing a with
  | nil => simp [calculateAllocatedHorizon32.go, Config.knownPeriods]
  | cons m ms ih =>
    unfold calculateAllocatedHorizon32.go
    cases ht : cfg.findTaskById m.taskId with
    | none =>
      have hknown : cfg.knownPeriods (m :: ms) = cfg.knownPeriods ms := by
        simp [Config.knownPeriods, ht]
      rw [hknown] at hp ⊢
      exact ih hp ha
    | some t =>
      have hknown : cfg.knownPeriods (m :: ms) = t.period :: cfg.knownPeriods ms := by
        simp [Config.knownPeriods, ht]
      rw [hknown] at hp ⊢
      obtain ⟨hpos, hlt⟩ := hp t.period List.mem_cons_self
      have htail : ∀ p ∈ cfg.knownPeriods ms, 0 < p ∧ p < 2 ^ 32 :=
        fun p h => hp p (List.mem_cons_of_mem _ h)
      have hlcm := Nat.lcm_pos ha hpos
      rw [← Multiset.cons_coe, Multiset.lcm_cons, lcm_eq_nat_lcm, ← Nat.lcm_assoc]
      simp only
      rw [if_neg hpos.ne', safeLcm64_eq (by omega) hlt hcap, ok_bind,
        safeLcm_eq (by omega) hpos, min_lcm_min ha hpos hcap0]
      split_ifs with hle
      · have hrest : 0 < Multiset.lcm (↑(cfg.knownPeriods ms) : Multiset ℕ) :=
          multiset_lcm_pos fun p h => (htail p h).1
        have hmono := Nat.le_of_dvd (Nat.lcm_pos hlcm hrest) (Nat.dvd_lcm_left _ _)
        rw [min_eq_right ((le_min_iff.1 hle).1.trans hmono)]
      · exact ih htail hlcm

/-- **The horizon is the capped least common multiple** of the periods of all
    known allocated tasks and of all jobs of the core, and no value on the way
    leaves its type. -/
theorem calculateHorizon32_eq
    (hp : ∀ p ∈ cfg.knownPeriods (cfg.entries v.coreId), 0 < p ∧ p < 2 ^ 32)
    (hj : ∀ j ∈ v.jobs none, 0 < j.parentTask.period ∧ j.parentTask.period < 2 ^ 32) :
    ∃ cached, calculateAllocatedHorizon32 cfg v.coreId = .ok cached ∧
      calculateHorizon32 { v with cachedSlackHorizon := cached } =
        .ok (min slackCalcHorizonTicksCap (v.periods cfg).lcm) := by
  have hcap := slackCalcHorizonTicksCap_lt
  have hcap0 : 0 < slackCalcHorizonTicksCap := by norm_num [slackCalcHorizonTicksCap]
  have hone : 1 = min 1 slackCalcHorizonTicksCap := by norm_num [slackCalcHorizonTicksCap]
  have halloc := calculateAllocatedHorizon32_go hp one_pos
  rw [← hone, Nat.lcm_one_left] at halloc
  generalize hs : (↑(cfg.knownPeriods (cfg.entries v.coreId)) : Multiset ℕ) = s at halloc
  generalize hs' : (↑((v.jobs none).map (·.parentTask.period)) : Multiset ℕ) = s'
  have htasks : 0 < s.lcm := by
    rw [← hs]
    exact multiset_lcm_pos fun p h => (hp p h).1
  have hjobs : 0 < s'.lcm := by
    rw [← hs']
    refine multiset_lcm_pos fun p h => ?_
    obtain ⟨j, hmem, rfl⟩ := List.mem_map.1 (Multiset.mem_coe.1 h)
    exact (hj j hmem).1
  refine ⟨min s.lcm slackCalcHorizonTicksCap, halloc, ?_⟩
  have hwf : { v with cachedSlackHorizon := min s.lcm slackCalcHorizonTicksCap : CoreView }.Wf :=
    ⟨fun j h => (hj j h).1, lt_min htasks hcap0, min_le_right _ _⟩
  have hle : min s.lcm slackCalcHorizonTicksCap < 2 ^ 32 := (min_le_right _ _).trans_lt hcap
  have heq : calculateHorizon32 { v with cachedSlackHorizon := min s.lcm slackCalcHorizonTicksCap } =
      .ok (calculateHorizon { v with cachedSlackHorizon := min s.lcm slackCalcHorizonTicksCap }) :=
    calculateHorizon32_eq_calculateHorizon (fun j h => (hj j h).2) hle
  rw [heq, calculateHorizon_eq hwf]
  refine congrArg Except.ok ?_
  change min (lcmPeriods (min s.lcm slackCalcHorizonTicksCap) (v.jobs none)) _ = _
  rw [lcmPeriods_eq_lcm, hs', min_lcm_min htasks hjobs hcap0, CoreView.periods, hs, hs',
    Multiset.lcm_add, lcm_eq_nat_lcm, min_comm]

/-- A core with a known task of period 12 and an unknown one, and a pending job
    of a task of another core, of period 18 -/
def guestTask : Task := ⟨2, 18, 18, fun _ => 1, 0⟩

def guestCfg : Config where
  maxCriticalityLevels := 1
  maxTasks := 3
  systemTasks := [⟨1, 12, 12, fun _ => 1, 0⟩, guestTask]
  allocationMap := [⟨3, .primary, 0, 0, fun _ => 9⟩, ⟨1, .primary, 0, 0, fun _ => 12⟩]
  procId := 0

def guestJob : Job := ⟨guestTask, 36, fun _ => 18, 54, 54, 1, 1, 0, 0, false, .ready, 0⟩

def guestView : CoreView := ⟨0, [], [], [guestJob], none, 0, 0⟩

theorem calculateHorizon32_eq_guest :
    ∃ cached, calculateAllocatedHorizon32 guestCfg guestView.coreId = .ok cached ∧
      calculateHorizon32 { guestView with cachedSlackHorizon := cached } =
        .ok (min slackCalcHorizonTicksCap (guestView.periods guestCfg).lcm) := by
  refine calculateHorizon32_eq (v := guestView) (fun p hp => ?_) fun j hj => ?_
  · obtain rfl : p = 12 := List.mem_singleton.1 hp
    norm_num
  · obtain rfl : j = guestJob := List.mem_singleton.1 hj
    norm_num [guestJob, guestTask]

end EeftSched

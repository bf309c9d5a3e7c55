/-
  Which ticks fault (`scheduler_tick`).

  * `Faults`: what a core does at its program point faults;
  * `SafeStep`: a core whose code faults takes no step;
  * `Sys.Known`: every job in use has a task of the table as its parent, and a
    core goes through entries of its own;
  * `faultFree_iff`: no tick of a core faults iff the entries of the core have
    tasks that are known and have a period;
  * `unknown_task_faults`: an allocation entry of an unknown task, or of a task
    with period 0.
-/
import EeftSched.Guards
import EeftSched.Ownership

namespace EeftSched

open Lts Except

variable {n : ℕ} {cfg : Config} {S S' : Sys n} {K K' : Core n} {J J' : Jobs n} {j : JobId n}
  {c : Fin n} {X : Ctx n}

/-- `MIGRATION_PENALTY_TICKS` -/
def migrationPenaltyTicks : ℚ := 1 / 20

/-- `NUM_DVFS_LEVELS` -/
def numDvfsLevels : ℕ := 6

/-- What the analysis reads of core `c`; `scheduler_init` computes its
    `cached_slack_horizon`. -/
def Sys.view (cfg : Config) (S : Sys n) (c : Fin n) : CoreView where
  coreId := c
  readyQueue := (S.core c).readyQueue.map fun j => (S.job j).toJob
  replicaQueue := (S.core c).replicaQueue.map fun j => (S.job j).toJob
  pendingJobsQueue := (S.core c).pendingJobsQueue.map fun j => (S.job j).toJob
  runningJob := (S.core c).runningJob.map fun j => (S.job j).toJob
  localCriticalityLevel := (S.core c).localCriticalityLevel
  cachedSlackHorizon := calculateAllocatedHorizon cfg c

namespace Sys

/-- `is_admissible_locked` -/
def isAdmissibleLocked (cfg : Config) (S : Sys n) (c : Fin n) (j : JobId n) (extraMargin : ℚ) :
    Except Fault Bool :=
  isAdmissibleChecked cfg S.systemTime (S.view cfg c) (S.job j).toJob extraMargin

/-- The loop of `calc_required_dvfs_level` over the levels, from the fastest on -/
def dvfsLoop (cfg : Config) (S : Sys n) (c : Fin n) : List ℕ → ℕ → Except Fault ℕ
  | [], bestLevel => .ok bestLevel
  | i :: levels, bestLevel => do
    let minSlack ← minSlackChecked cfg S.systemTime (S.view cfg c) (scalingFactor i)
    if minSlack ≥ slackMarginTicks then dvfsLoop cfg S c levels i else .ok bestLevel

def calcRequiredDvfsLevel (cfg : Config) (S : Sys n) (c : Fin n) : Except Fault ℕ :=
  if (S.core c).isIdle = true ∨ (S.core c).runningJob = none then .ok (numDvfsLevels - 1)
  else dvfsLoop cfg S c (List.range numDvfsLevels) 0

def nextArrivalTime (cfg : Config) (S : Sys n) (c : Fin n) : Except Fault ℕ :=
  findNextEffectiveArrivalTimeChecked (S.ctx cfg c) (S.core c) S.job

/-- The first part of `power_management_try_procrastination`: for how long the
    running job can be deferred, if that pays -/
def deferrableTime (cfg : Config) (S : Sys n) (c : Fin n) : Except Fault (Option ℚ) := do
  let minArrivalTime ← S.nextArrivalTime cfg c
  if minArrivalTime = uint32Max then .ok none
  else if minArrivalTime - S.systemTime < dpmThreshold then .ok none
  else do
    let minSlack ← minSlackChecked cfg S.systemTime (S.view cfg c) (scalingFactor (numDvfsLevels - 1))
    .ok (if minSlack < dpmThreshold then none
      else some (min minSlack (minArrivalTime - S.systemTime : ℕ)))

/-- The slack and the next arrival in `update_core_summary` -/
def coreSummary (cfg : Config) (S : Sys n) (c : Fin n) : Except Fault (ℚ × ℕ) := do
  let slack ← findSlackChecked cfg S.systemTime (S.view cfg c) (S.core c).localCriticalityLevel
    S.systemTime (scalingFactor (S.core c).currentDvfsLevel) none
  let nextArrival ← S.nextArrivalTime cfg c
  .ok (slack, nextArrival)

end Sys

/-- **A fault**: what core `c` does at its program point reads the task table,
    and faults. -/
inductive Faults (cfg : Config) (S : Sys n) (c : Fin n) : Prop
  | arrival {m : TaskAlloc} {ms : List TaskAlloc} (h : (S.core c).pc = .alloc (m :: ms))
      (hf : (dueTask cfg S.systemTime m).Fails)
  | reclaim {j : JobId n} (h : (S.core c).pc = .reclaimHand j)
      (hf : (S.isAdmissibleLocked cfg c j 0).Fails)
  | reclaimQueue {k : ℕ} {j : JobId n} (h : (S.core c).pc = .reclaimQueue k)
      (hj : S.discardQueue[k]? = some j)
      (hf : (S.isAdmissibleLocked cfg c j migrationPenaltyTicks).Fails)
  | future {m : TaskAlloc} {ms : List TaskAlloc} (h : (S.core c).pc = .future (m :: ms))
      (hf : (futureReleaseChecked cfg S.systemTime (S.core c).localCriticalityLevel m).Fails)
  | request {r : MigrationRequest n} (h : (S.core c).pc = .procDecide r)
      (hf : (S.isAdmissibleLocked cfg c r.job migrationPenaltyTicks).Fails)
  | procrastinate (h : (S.core c).pc = .procrastinate) (hf : (S.deferrableTime cfg c).Fails)
  | dvfs (h : (S.core c).pc = .dvfs) (he : cfg.enableDvfs = true)
      (hd : (S.core c).decisionPoint = true) (hf : (S.calcRequiredDvfsLevel cfg c).Fails)
  | dpm (h : (S.core c).pc = .dpm) (he : cfg.enableDpm = true) (hi : (S.core c).isIdle = true)
      (hf : (S.nextArrivalTime cfg c).Fails)
  | summary (h : (S.core c).pc = .summary) (hf : (S.coreSummary cfg c).Fails)

/-- A step of a processor whose cores do not go on after a fault. -/
def SafeStep (cfg : Config) (S : Sys n) (a : Label n) (S' : Sys n) : Prop :=
  Step cfg S a S' ∧ ∀ c, a = .core c → ¬ Faults cfg S c

/-- The jobs whose `parent_task` core `c` may read. -/
def Sys.reads (S : Sys n) (c : Fin n) : Multiset (JobId n) :=
  (S.core c).held + ↑S.discardQueue + ↑(S.core c).pc.request.toList

/-- `create_job` has set `parent_task`, to a task of the table; the period of a
    record before its first use is 0. -/
def JobRec.Created (cfg : Config) (r : JobRec) : Prop :=
  ∃ taskId, cfg.findTaskById taskId = some r.parentTask ∧ r.parentTask.period ≠ 0

/-- No tick of core `c` faults, whatever the processor does. -/
def FaultFree (cfg : Config) (c : Fin n) : Prop :=
  ∀ S : Sys n, Lts.Reachable (SafeStep cfg) (Sys.init n) S →
    ¬ Faults cfg S c ∧ ∀ j ∈ S.reads c, (S.job j).Created cfg

/-! ## What the cores know -/

/-- The allocation entries still to handle -/
def Pc.entries : Pc n → List TaskAlloc
  | .alloc ms | .allocIns _ ms | .future ms | .futureHand _ ms | .futureClaim _ _ ms
  | .futurePublish _ _ ms => ms
  | _ => []

structure Sys.Known (cfg : Config) (S : Sys n) : Prop where
  entries : ∀ c, ∀ m ∈ (S.core c).pc.entries, m ∈ cfg.entries c
  parents : ∀ j ∉ S.free, (S.job j).Created cfg

/-- What a step of core `c` does to the entries and the parent tasks. -/
structure KnownStep (cfg : Config) (c : Fin n) (S S' : Sys n) : Prop where
  own : ∀ m ∈ (S'.core c).pc.entries, m ∈ (S.core c).pc.entries ∨ m ∈ cfg.entries c
  others : ∀ d ≠ c, (S'.core d).pc = (S.core d).pc
  parents : ∀ j ∉ S'.free,
    j ∉ S.free ∧ (S'.job j).parentTask = (S.job j).parentTask ∨ (S'.job j).Created cfg

theorem LocalStep.entries (hs : LocalStep X K J K' J') :
    ∀ m ∈ K'.pc.entries, m ∈ K.pc.entries ∨ m ∈ X.entries := by
  cases hs with
  | cancel h => cases h <;> nofun
  | sync h =>
    cases h with
    | start h => dsimp only [Core.goto]; split <;> nofun
    | modeBody h => dsimp only [Core.goto]; split <;> nofun
    | _ => nofun
  | run h => cases h <;> nofun
  | arrival h =>
    cases h with
    | pendingEnd h hj => exact fun m hm => .inr hm
    | allocSkip h hm | allocDelegated h hm hd =>
      rw [h]
      exact fun m hm => .inl (List.mem_cons_of_mem _ hm)
    | allocIns h =>
      rw [h]
      exact fun m hm => .inl hm
    | _ => nofun
  | reclaim h => cases h <;> nofun
  | push h =>
    cases h with
    | future h he => exact fun m hm => .inr hm
    | futureSkip h =>
      rw [h]
      exact fun m hm => .inl (List.mem_cons_of_mem _ hm)
    | _ => nofun
  | process h =>
    cases h with
    | lock1 h => dsimp only [Core.goto]; split <;> nofun
    | _ => nofun
  | dispatch h => cases h <;> nofun
  | power h =>
    cases h with
    | begin h => dsimp only [Core.goto]; split <;> nofun
    | _ => nofun

theorem JobRec.Created.congr {r r' : JobRec} (h : r.Created cfg)
    (ht : r'.parentTask = r.parentTask) : r'.Created cfg := by
  unfold JobRec.Created
  rw [ht]
  exact h

theorem Jobs.set_parentTask {r : JobRec} (h : r.parentTask = (J j).parentTask) (i : JobId n) :
    (J.set j r i).parentTask = (J i).parentTask := Jobs.set_field (fun r => r.parentTask) h i

namespace KnownStep

/-- No job is taken from a pool. -/
theorem keep (hcore : S'.core = Function.update S.core c K')
    (he : ∀ m ∈ K'.pc.entries, m ∈ (S.core c).pc.entries ∨ m ∈ cfg.entries c)
    (hfree : ∀ j ∉ S'.free, j ∉ S.free)
    (htask : ∀ j, (S'.job j).parentTask = (S.job j).parentTask) : KnownStep cfg c S S' where
  own := by
    rw [hcore, Function.update_self]
    exact he
  others d hd := by
    rw [hcore, Function.update_of_ne hd]
  parents j hj := .inl ⟨hfree j hj, htask j⟩

/-- A job is taken from a pool for a task of the table. -/
theorem take (hj : S.takeFree c = some (j, S')) {r : JobRec} (hr : r.Created cfg)
    (he : ∀ m ∈ K'.pc.entries, m ∈ (S.core c).pc.entries ∨ m ∈ cfg.entries c) :
    KnownStep cfg c S ((S'.setJob j r).setCore c K') := by
  obtain ⟨hfree, f, g, rfl⟩ := Sys.takeFree_eq_some hj
  refine ⟨?_, fun d hd => ?_, fun i hi => ?_⟩
  · show ∀ m ∈ (Function.update S.core c K' c).pc.entries, _
    rw [Function.update_self]
    exact he
  · show (Function.update S.core c K' d).pc = _
    rw [Function.update_of_ne hd]
  · show _ ∨ (S.job.set j r i).Created cfg
    by_cases hij : i = j
    · rw [hij, Jobs.set_self]
      exact .inr hr
    · refine .inl ⟨fun hm => ?_, ?_⟩
      · rw [hfree, Multiset.mem_cons] at hm
        exact hi (hm.resolve_left hij)
      · show (S.job.set j r i).parentTask = _
        rw [Jobs.set_ne _ _ hij]

/-- A reference is dropped; the job may go back to its pool. -/
theorem put {me : Option (Fin n)} {T : Sys n} (hs : KnownStep cfg c S T) (j : JobId n) :
    KnownStep cfg c S (T.putJobRef me j) := by
  have hfree := T.putJobRef_free me j
  obtain ⟨f, g, he⟩ := T.putJobRef_eq me j
  have htask : ∀ i, ((T.putJobRef me j).job i).parentTask = (T.job i).parentTask := by
    rw [he]
    exact Jobs.set_parentTask rfl
  have hcore : (T.putJobRef me j).core = T.core := by rw [he]
  refine ⟨by rw [hcore]; exact hs.own, by rw [hcore]; exact hs.others, fun i hi => ?_⟩
  have hi' : i ∉ T.free := by
    rw [hfree] at hi
    split_ifs at hi
    · exact fun hm => hi (Multiset.mem_cons_of_mem hm)
    · exact hi
  rcases hs.parents i hi' with ⟨hm, ht⟩ | hnew
  · exact .inl ⟨hm, (htask i).trans ht⟩
  · exact .inr (hnew.congr (htask i))

end KnownStep

theorem PutStep.entries (hs : PutStep K j K') : ∀ m ∈ K'.pc.entries, m ∈ K.pc.entries := by
  cases hs with
  | futurePut h =>
    rw [h]
    exact fun m hm => hm
  | _ => nofun

theorem ArriveStep.known (hs : ArriveStep cfg c S S') : KnownStep cfg c S S' := by
  cases hs with
  | modeStore h => exact .keep rfl nofun (fun _ => id) fun _ => rfl
  | complete h hr => exact .keep rfl nofun (fun _ => id) (Jobs.set_parentTask rfl)
  | missFatal h => exact .keep rfl nofun (fun _ => id) fun _ => rfl
  | @put j K' h =>
    have hT : KnownStep cfg c S (S.setCore c K') :=
      .keep rfl (fun m hm => .inl (h.entries m hm)) (fun _ => id) fun _ => rfl
    exact hT.put _
  | create h hm hd hj =>
    refine .take hj ⟨_, hm.1, hm.2.1⟩ fun m' hm' => .inl ?_
    rw [h]
    exact List.mem_cons_of_mem _ hm'
  | exhausted h hm hd hj =>
    refine .keep rfl (fun m' hm' => .inl ?_) (fun _ => id) fun _ => rfl
    rw [h]
    exact List.mem_cons_of_mem _ hm'

theorem DiscardStep.known (hs : DiscardStep cfg c S S') : KnownStep cfg c S S' := by
  cases hs with
  | discard h hf hl | accommodate h hj =>
    exact .keep rfl nofun (fun _ => id) (Jobs.set_parentTask rfl)
  | done h hj =>
    refine .keep rfl ?_ (fun _ => id) fun _ => rfl
    dsimp only [Core.goto]
    split <;> nofun
  | ack h hq =>
    refine .keep rfl (fun m hm => ?_) (fun _ => id) fun _ => rfl
    rw [show (S.core c).pc.entries = [] by rw [h]; rfl] at hm
    cases hm
  | _ => exact .keep rfl nofun (fun _ => id) fun _ => rfl

theorem OfferStep.known (hs : OfferStep cfg c S S') : KnownStep cfg c S S' := by
  cases hs with
  | exchange | withdraw | getRef =>
    exact .keep rfl nofun (fun _ => id) (Jobs.set_parentTask rfl)
  | claim | publish => exact .keep rfl nofun (fun _ => id) fun _ => rfl
  | createFuture h ho hj =>
    refine .take hj ⟨_, ho.1, ho.2.1⟩ fun m' hm' => .inl ?_
    rw [h]
    exact List.mem_cons_of_mem _ hm'
  | sendFuture h hd hr =>
    refine .keep rfl (fun m hm => .inl ?_) (fun _ => id) fun _ => rfl
    rw [h]
    exact hm
  | claimFuture h =>
    refine .keep rfl (fun m hm => .inl ?_) (fun _ => id) fun _ => rfl
    rw [h]
    exact hm
  | publishFuture h hf =>
    refine .keep rfl (fun m hm => .inl ?_) (fun _ => id) fun _ => rfl
    rw [h]
    exact hm

theorem RequestStep.known (hs : RequestStep cfg c S S') : KnownStep cfg c S S' := by
  cases hs with
  | dequeue | done | ackClaim => exact .keep rfl nofun (fun _ => id) fun _ => rfl
  | reject | acceptFuture | ackPublish | clear =>
    exact .keep rfl nofun (fun _ => id) (Jobs.set_parentTask rfl)
  | @accept r h hi hl =>
    have hself : ((S.listDel r.job).goto c (.procInsert r)).core c =
        ((S.core c).listDel r.job).goto (.procInsert r) := Function.update_self ..
    have hother : ∀ d ≠ c, ((S.listDel r.job).goto c (.procInsert r)).core d =
        (S.core d).listDel r.job := fun d hd => Function.update_of_ne hd ..
    refine ⟨?_, fun d hd => ?_, fun i hi => .inl ⟨hi, ?_⟩⟩
    · rw [hself]
      nofun
    · rw [hother d hd, Core.listDel_pc]
    · exact Jobs.set_parentTask (J := S.job) (r := (S.job r.job).unlink) rfl i
  | putReject h =>
    have hT : KnownStep cfg c S (S.goto c .process) := .keep rfl nofun (fun _ => id) fun _ => rfl
    exact hT.put _
  | @putAccept r h =>
    let T := S.setJob r.job
      { S.job r.job with nextMigrationEligibleTick := S.systemTime + jobMigrationCooldownTicks }
    have hT : KnownStep cfg c S (T.goto c .process) :=
      .keep rfl nofun (fun _ => id) (Jobs.set_parentTask rfl)
    exact hT.put _

theorem CoreStep.known (hs : CoreStep cfg c S S') (hi : Inv S) : KnownStep cfg c S S' := by
  cases hs with
  | own hs he =>
    subst he
    have hspec := hs.spec (hi.ok c) (hi.core_nodup c)
    exact .keep rfl hs.entries (fun _ => id) fun j => (hspec.kept j).task
  | arrive hs => exact hs.known
  | discard hs => exact hs.known
  | offer hs => exact hs.known
  | request hs => exact hs.known

namespace Sys.Known

theorem init (cfg : Config) : (Sys.init n).Known cfg := by
  refine ⟨nofun, fun j hj => absurd ?_ hj⟩
  rw [← Multiset.count_pos, Sys.init_free j]
  exact Nat.one_pos

theorem core_step (h : S.Known cfg) (hs : KnownStep cfg c S S') : S'.Known cfg := by
  constructor
  · intro d m hm
    by_cases hd : d = c
    · subst hd
      rcases hs.own m hm with hm | hm
      · exact h.entries d m hm
      · exact hm
    · rw [hs.others d hd] at hm
      exact h.entries d m hm
  · intro j hj
    rcases hs.parents j hj with ⟨hfree, htask⟩ | hnew
    · exact (h.parents j hfree).congr htask
    · exact hnew

/-- A step that changes no core; `put` also drops a reference. -/
theorem timer_step (h : S.Known cfg) (hs : TimerStep cfg S S') : S'.Known cfg := by
  cases hs with
  | sweep | keep => exact ⟨h.entries, h.parents⟩
  | @expire k j hp hj ht =>
    have htask := Jobs.set_parentTask (J := S.job) (r := (S.job j).unlink) rfl
    exact ⟨h.entries, fun i hi => (h.parents i hi).congr (htask i)⟩
  | @put k j hp =>
    let T : Sys n := { S with timer := .sweep k }
    have hfree := T.putJobRef_free none j
    obtain ⟨f, g, he⟩ := T.putJobRef_eq none j
    refine ⟨by rw [he]; exact h.entries, fun i hi => ?_⟩
    have htask : ((T.putJobRef none j).job i).parentTask = (S.job i).parentTask := by
      rw [he]
      exact Jobs.set_parentTask (J := S.job)
        (r := { S.job j with refcount := (S.job j).refcount - 1 }) rfl i
    refine (h.parents i ?_).congr htask
    rw [hfree] at hi
    split_ifs at hi
    · exact fun hm => hi (Multiset.mem_cons_of_mem hm)
    · exact hi
  | advance hp hj hf hl => exact ⟨nofun, h.parents⟩

theorem step {a : Label n} (h : S.Known cfg) (hi : Inv S) (hs : Step cfg S a S') : S'.Known cfg := by
  cases hs with
  | core hl hs => exact h.core_step (hs.known hi)
  | timer hs => exact h.timer_step hs

end Sys.Known

/-! ## Entries that have tasks -/

/-- The task of the entry is known, and has a period. -/
def TaskAlloc.Periodic (cfg : Config) (m : TaskAlloc) : Prop :=
  ∃ task, cfg.findTaskById m.taskId = some task ∧ task.period ≠ 0

theorem TaskAlloc.Periodic.sound {m : TaskAlloc} (h : m.Periodic cfg) (critLvl : ℕ) :
    m.Sound cfg critLvl := by
  obtain ⟨task, htask, hp⟩ := h
  exact ⟨task, htask, fun _ => hp⟩

/-- The analysis of level 0 needs all entries. -/
theorem TaskAlloc.sound_zero {m : TaskAlloc} : m.Sound cfg 0 ↔ m.Periodic cfg := by
  constructor
  · rintro ⟨task, htask, hp⟩
    exact ⟨task, htask, hp (Nat.zero_le _)⟩
  · exact fun h => h.sound 0

section
variable (hm : ∀ m ∈ cfg.entries c, m.Periodic cfg)
include hm

theorem Sys.minSlack_not_fails (S : Sys n) (scalingFactor : ℚ) :
    ¬ (minSlackChecked cfg S.systemTime (S.view cfg c) scalingFactor).Fails :=
  minSlackChecked_not_fails (v := S.view cfg c) (fun l m h => (hm m h).sound l) _ _

theorem Sys.isAdmissibleLocked_not_fails (S : Sys n) (j : JobId n) (extraMargin : ℚ) :
    ¬ (S.isAdmissibleLocked cfg c j extraMargin).Fails := by
  unfold isAdmissibleLocked
  rw [isAdmissibleChecked_eq (v := S.view cfg c) fun l m h => (hm m h).sound l]
  exact not_fails_ok _

theorem Sys.dvfsLoop_not_fails (S : Sys n) (levels : List ℕ) (bestLevel : ℕ) :
    ¬ (S.dvfsLoop cfg c levels bestLevel).Fails := by
  induction levels generalizing bestLevel with
  | nil => exact not_fails_ok _
  | cons i levels ih =>
    refine not_fails_bind (S.minSlack_not_fails hm _) fun minSlack => ?_
    split_ifs
    · exact ih i
    · exact not_fails_ok _

omit hm in
theorem Sys.nextArrivalTime_not_fails (cfg : Config) (S : Sys n) (c : Fin n) :
    ¬ (S.nextArrivalTime cfg c).Fails := by
  unfold nextArrivalTime
  rw [findNextEffectiveArrivalTimeChecked_eq]
  exact not_fails_ok _

theorem Sys.deferrableTime_not_fails (S : Sys n) : ¬ (S.deferrableTime cfg c).Fails := by
  refine not_fails_bind (S.nextArrivalTime_not_fails cfg c) fun minArrivalTime => ?_
  split_ifs
  · exact not_fails_ok _
  · exact not_fails_ok _
  · exact not_fails_bind (S.minSlack_not_fails hm _) fun _ => not_fails_ok _

theorem Sys.coreSummary_not_fails (S : Sys n) : ¬ (S.coreSummary cfg c).Fails := by
  unfold coreSummary
  rw [findSlackChecked_eq (v := S.view cfg c) fun m h => (hm m h).sound _]
  exact not_fails_bind (not_fails_ok _) fun _ =>
    not_fails_bind (S.nextArrivalTime_not_fails cfg c) fun _ => not_fails_ok _

/-- **A core whose entries have tasks does not fault.** -/
theorem Sys.Known.not_faults (h : S.Known cfg) : ¬ Faults cfg S c := by
  rintro (⟨_, hf⟩ | ⟨_, hf⟩ | ⟨_, _, hf⟩ | ⟨hp, hf⟩ | ⟨_, hf⟩ | ⟨_, hf⟩ | ⟨_, _, _, hf⟩ |
    ⟨_, _, _, hf⟩ | ⟨_, hf⟩)
  · exact dueTask_not_fails _ _ _ hf
  · exact S.isAdmissibleLocked_not_fails hm _ _ hf
  · exact S.isAdmissibleLocked_not_fails hm _ _ hf
  · -- the entry is one of the core, and its task has a period
    obtain ⟨task, htask, -, hz⟩ := futureReleaseChecked_fails_iff.1 hf
    obtain ⟨task', htask', hnz⟩ := hm _ (h.entries c _ (by rw [hp]; exact List.mem_cons_self))
    rw [htask] at htask'
    cases htask'
    exact hnz hz
  · exact S.isAdmissibleLocked_not_fails hm _ _ hf
  · exact S.deferrableTime_not_fails hm hf
  · unfold Sys.calcRequiredDvfsLevel at hf
    split_ifs at hf
    · exact not_fails_ok _ hf
    · exact S.dvfsLoop_not_fails hm _ _ hf
  · exact S.nextArrivalTime_not_fails cfg c hf
  · exact S.coreSummary_not_fails hm hf

end

/-- A job whose parent a core may read is in use. -/
theorem Inv.notMem_free (hi : Inv S) (hj : j ∈ S.reads c) : j ∉ S.free := by
  intro hf
  obtain ⟨hheld, hreqs⟩ := hi.of_free hf
  unfold Sys.reads at hj
  rcases Multiset.mem_add.1 hj with hj | hj
  · rcases Multiset.mem_add.1 hj with hj | hj
    · exact hheld (Sys.mem_held.2 (.inl ⟨c, hj⟩))
    · exact hheld (Sys.mem_held.2 (.inr (Multiset.mem_add.2 (.inl hj))))
  · refine hreqs (Sys.mem_reqs.2 (.inr ⟨c, ?_⟩))
    simpa using hj

theorem SafeStep.reachable (h : Lts.Reachable (SafeStep cfg) (Sys.init n) S) :
    EeftSched.Reachable cfg S :=
  Lts.Reachable.invariant h Lts.Reachable.refl fun _ _ _ hr hs => hr.snoc hs.1

theorem Reachable.known (h : EeftSched.Reachable cfg S) : S.Known cfg := by
  refine (@Lts.Reachable.invariant _ _ _ _ _ (fun T : Sys n => Inv T ∧ T.Known cfg) h
    ⟨Inv.init, .init cfg⟩ ?_).2
  rintro T a T' ⟨hi, hk⟩ hs
  exact ⟨hs.inv hi, hk.step hi hs⟩

theorem faultFree_of_periodic (hm : ∀ m ∈ cfg.entries c, m.Periodic cfg) : FaultFree cfg c := by
  intro S hS
  have hr := SafeStep.reachable hS
  refine ⟨hr.known.not_faults hm, fun j hj => hr.known.parents j (hr.inv.notMem_free hj)⟩

/-! ## The first tick of a core -/

/-- Only core `c` has taken steps, and its level is 0. -/
structure Sys.Alone (S : Sys n) (c : Fin n) : Prop where
  others : ∀ d ≠ c, (S.core d).pc = .start
  level : (S.core c).localCriticalityLevel = 0

/-- The core is in its first tick, and runs no job yet. -/
structure Core.First (K : Core n) : Prop where
  level : K.localCriticalityLevel = 0
  discardList : K.discardList = []
  pending : K.pendingJobsQueue = []
  running : K.runningJob = none
  awake : K.inLowPowerState = false

/-- Core `c` is in its first tick, and nothing has reached it from outside. -/
structure Sys.First (S : Sys n) (c : Fin n) : Prop where
  others : ∀ d ≠ c, (S.core d).pc = .start
  own : (S.core c).First
  systemLevel : S.systemCriticalityLevel = 0
  incoming : S.incoming = []
  timer : S.timer = .idle
  requests : S.migrationRequestQueue c = .empty
  acks : S.delegationAckQueue c = .empty
  discardQueue : S.discardQueue = []

theorem Sys.Alone.unblocked (h : S.Alone c) : S.Unblocked c := by
  intro l _ e he hm
  rw [h.others e he] at hm
  exact absurd hm (Finset.notMem_empty l)

theorem Sys.First.alone (h : S.First c) : S.Alone c := ⟨h.others, h.own.level⟩

theorem Core.First.goto (h : K.First) (q : Pc n) : (K.goto q).First :=
  ⟨h.level, h.discardList, h.pending, h.running, h.awake⟩

theorem Core.First.scanned (h : K.First) (taskId systemTime : ℕ) :
    (K.scanned taskId systemTime).First := ⟨h.level, h.discardList, h.pending, h.running, h.awake⟩

/-- At level 0 no job is discarded on arrival. -/
theorem Core.First.addArrival (h : K.First) (J : Jobs n) (j : JobId n) : (K.addArrival J j).First := by
  unfold Core.addArrival
  rw [if_neg (by rw [h.level]; exact Nat.not_lt_zero _)]
  unfold Core.addByKind Core.setQueue
  split_ifs <;> exact ⟨h.level, h.discardList, h.pending, h.running, h.awake⟩

theorem Sys.Alone.update (h : S.Alone c) (hcore : S'.core = Function.update S.core c K')
    (hl : K'.localCriticalityLevel = (S.core c).localCriticalityLevel) : S'.Alone c := by
  constructor
  · intro d hd
    rw [hcore, Function.update_of_ne hd]
    exact h.others d hd
  · rw [hcore, Function.update_self, hl]
    exact h.level

theorem Sys.First.update (h : S.First c) (hcore : S'.core = Function.update S.core c K')
    (hK : K'.First)
    (hS : S'.systemCriticalityLevel = S.systemCriticalityLevel ∧ S'.incoming = S.incoming ∧
      S'.timer = S.timer ∧ S'.migrationRequestQueue = S.migrationRequestQueue ∧
      S'.delegationAckQueue = S.delegationAckQueue ∧ S'.discardQueue = S.discardQueue) :
    S'.First c := by
  obtain ⟨h1, h2, h3, h4, h5, h6⟩ := hS
  constructor
  · intro d hd
    rw [hcore, Function.update_of_ne hd]
    exact h.others d hd
  · rw [hcore, Function.update_self]
    exact hK
  · rw [h1, h.systemLevel]
  · rw [h2, h.incoming]
  · rw [h3, h.timer]
  · rw [h4, h.requests]
  · rw [h5, h.acks]
  · rw [h6, h.discardQueue]

/-- The steps of core `c` -/
def OwnStep (cfg : Config) (c : Fin n) (S : Sys n) (a : Label n) (S' : Sys n) : Prop :=
  a = .core c ∧ Step cfg S a S'

/-- Core `c` gets to program point `q` by itself. -/
def Gets (cfg : Config) (c : Fin n) (P : Sys n → Prop) (q : Pc n) : Prop :=
  ∃ S : Sys n, Lts.Reachable (OwnStep cfg c) (Sys.init n) S ∧ P S ∧ (S.core c).pc = q

theorem Sys.Alone.step (h : S.Alone c) (hr : Lts.Reachable (OwnStep cfg c) (Sys.init n) S)
    (hs : CoreStep cfg c S S') : Lts.Reachable (OwnStep cfg c) (Sys.init n) S' :=
  hr.snoc ⟨rfl, .core h.unblocked hs⟩

theorem Sys.pc_update {q : Pc n} (hcore : S'.core = Function.update S.core c K') (hK : K'.pc = q) :
    (S'.core c).pc = q := by
  rw [hcore, Function.update_self]
  exact hK

/-- A step that changes the program point alone. -/
theorem Gets.goto {P : Sys n → Prop} {q q' : Pc n} (h : Gets cfg c P q)
    (hP : ∀ S, P S → S.Alone c ∧ P (S.goto c q'))
    (hs : ∀ S, P S → (S.core c).pc = q → CoreStep cfg c S (S.goto c q')) : Gets cfg c P q' := by
  obtain ⟨S, hr, hS, hq⟩ := h
  exact ⟨S.goto c q', (hP S hS).1.step hr (hs S hS hq), (hP S hS).2, Sys.pc_update rfl rfl⟩

theorem Gets.first {q q' : Pc n} (h : Gets cfg c (Sys.First · c) q)
    (hs : ∀ S : Sys n, S.First c → (S.core c).pc = q → CoreStep cfg c S (S.goto c q')) :
    Gets cfg c (Sys.First · c) q' :=
  h.goto (fun _ hS => ⟨hS.alone, hS.update rfl (hS.own.goto q') ⟨rfl, rfl, rfl, rfl, rfl, rfl⟩⟩) hs

theorem Gets.alone {q q' : Pc n} (h : Gets cfg c (Sys.Alone · c) q)
    (hs : ∀ S : Sys n, S.Alone c → (S.core c).pc = q → CoreStep cfg c S (S.goto c q')) :
    Gets cfg c (Sys.Alone · c) q' :=
  h.goto (fun _ hS => ⟨hS, hS.update rfl rfl⟩) hs

theorem Sys.First.init (c : Fin n) : (Sys.init n).First c :=
  ⟨fun _ _ => rfl, ⟨rfl, rfl, rfl, rfl, rfl⟩, rfl, rfl, rfl, rfl, rfl, rfl⟩

/-- The core synchronises, and has nothing to run and no pending job. -/
theorem gets_alloc (cfg : Config) (c : Fin n) : Gets cfg c (Sys.First · c) (.alloc (cfg.entries c)) := by
  have hstart : Gets cfg c (Sys.First · c) .start := ⟨_, Lts.Reachable.refl, .init c, rfl⟩
  have hsync : Gets cfg c (Sys.First · c) .sync := by
    cases he : cfg.enableEcc with
    | false =>
      refine hstart.first fun S hS hq => .own (.sync (.start hq)) ?_
      rw [show (S.ctx cfg c).cfg.enableEcc = false from he]
      rfl
    | true =>
      have hcancel : Gets cfg c (Sys.First · c) (.cancel []) := by
        refine hstart.first fun S hS hq => .own (.sync (.start hq)) ?_
        rw [show (S.ctx cfg c).cfg.enableEcc = true from he,
          show (S.ctx cfg c).incoming = [] from hS.incoming]
        rfl
      exact hcancel.first fun S hS hq => .own (.cancel (.done hq)) rfl
  have hlow : Gets cfg c (Sys.First · c) .lowPower :=
    hsync.first fun S hS hq => .own (.sync (.equal hq (hS.own.level.trans hS.systemLevel.symm))) rfl
  have hrun : Gets cfg c (Sys.First · c) .run :=
    hlow.first fun S hS hq => .own (.sync (.awake hq hS.own.awake)) rfl
  have hpending : Gets cfg c (Sys.First · c) (.pending 0) :=
    hrun.first fun S hS hq => .own (.run (.idle hq hS.own.running)) rfl
  refine hpending.first fun S hS hq => .own (.arrival (.pendingEnd hq ?_)) rfl
  rw [hS.own.pending]
  nofun

/-- A new job goes to its queue. -/
theorem Gets.allocIns {j : JobId n} {ms : List TaskAlloc}
    (h : Gets cfg c (Sys.First · c) (.allocIns j ms)) : Gets cfg c (Sys.First · c) (.alloc ms) := by
  obtain ⟨S, hr, hS, hq⟩ := h
  refine ⟨_, hS.alone.step hr (.own (.arrival (.allocIns hq)) rfl), ?_, Sys.pc_update rfl rfl⟩
  exact hS.update rfl ((hS.own.addArrival S.job j).goto _) ⟨rfl, rfl, rfl, rfl, rfl, rfl⟩

/-- The core handles an allocation entry: it releases a job or not. -/
theorem Gets.alloc_cons {m : TaskAlloc} {ms : List TaskAlloc}
    (h : Gets cfg c (Sys.First · c) (.alloc (m :: ms))) : Gets cfg c (Sys.First · c) (.alloc ms) := by
  obtain ⟨S, hr, hS, hq⟩ := h
  by_cases hrel : ∃ task, (S.ctx cfg c).releases m task
  · obtain ⟨task, hrel⟩ := hrel
    have hK : ∀ q, (((S.core c).scanned task.id S.systemTime).goto q).First := fun q =>
      (hS.own.scanned _ _).goto q
    by_cases hd : (S.core c).delegatedAt task.id S.systemTime
    · refine ⟨_, hS.alone.step hr (.own (.arrival (.allocDelegated hq hrel hd)) rfl), ?_,
        Sys.pc_update rfl rfl⟩
      exact hS.update rfl (hK _) ⟨rfl, rfl, rfl, rfl, rfl, rfl⟩
    · cases hj : S.takeFree c with
      | none =>
        refine ⟨_, hS.alone.step hr (.arrive (.exhausted hq hrel hd hj)), ?_, Sys.pc_update rfl rfl⟩
        exact hS.update rfl (hK _) ⟨rfl, rfl, rfl, rfl, rfl, rfl⟩
      | some x =>
        obtain ⟨j, S₁⟩ := x
        have hs := @ArriveStep.create n cfg c S m ms task j S₁ 0 hq hrel hd hj
        obtain ⟨-, f, g, rfl⟩ := Sys.takeFree_eq_some hj
        have hins : Gets cfg c (Sys.First · c) (.allocIns j ms) := by
          refine ⟨_, hS.alone.step hr (.arrive hs), ?_, Sys.pc_update rfl rfl⟩
          exact hS.update rfl (hK _) ⟨rfl, rfl, rfl, rfl, rfl, rfl⟩
        exact hins.allocIns
  · have hskip : ∀ task, ¬ (S.ctx cfg c).releases m task := fun task ht => hrel ⟨task, ht⟩
    refine ⟨_, hS.alone.step hr (.own (.arrival (.allocSkip hq hskip)) rfl), ?_,
      Sys.pc_update rfl rfl⟩
    exact hS.update rfl (hS.own.goto _) ⟨rfl, rfl, rfl, rfl, rfl, rfl⟩

theorem Gets.alloc_nil {ms : List TaskAlloc} (h : Gets cfg c (Sys.First · c) (.alloc ms)) :
    Gets cfg c (Sys.First · c) (.alloc []) := by
  induction ms with
  | nil => exact h
  | cons m ms ih => exact ih h.alloc_cons

/-- Nothing is discarded, acknowledged or asked for. -/
theorem gets_select (cfg : Config) (c : Fin n) : Gets cfg c (Sys.First · c) .select := by
  have hreclaim : Gets cfg c (Sys.First · c) .reclaim :=
    (gets_alloc cfg c).alloc_nil.first fun S hS hq => .own (.arrival (.allocEnd hq)) rfl
  have hloop : Gets cfg c (Sys.First · c) .reclaimLoop :=
    hreclaim.first fun S hS hq => .own (.reclaim (.lock hq)) rfl
  have hlock : Gets cfg c (Sys.First · c) .reclaimLock :=
    hloop.first fun S hS hq => .own (.reclaim (.empty hq hS.own.discardList)) rfl
  have hqueue : Gets cfg c (Sys.First · c) (.reclaimQueue 0) := by
    refine hlock.first fun S hS hq => .discard (.lock hq ⟨fun e => ?_, ?_, ?_⟩)
    · by_cases he : e = c
      · rw [he, hq]
        rfl
      · rw [hS.others e he]
        rfl
    · rw [hS.timer]
      rfl
    · rw [hS.timer]
      nofun
  have hdone : ∀ S : Sys n, S.First c → (S.core c).pc = .reclaimQueue 0 →
      CoreStep cfg c S (S.goto c (if cfg.enableMigration then .updateDelegations else .select)) :=
    fun S hS hq => .discard (.done hq (by rw [hS.discardQueue]; rfl))
  cases he : cfg.enableMigration with
  | false =>
    simp only [he, Bool.false_eq_true, if_false] at hdone
    exact hqueue.first hdone
  | true =>
    simp only [he, if_true] at hdone
    have hupdate : Gets cfg c (Sys.First · c) .updateDelegations := hqueue.first hdone
    have hpush : Gets cfg c (Sys.First · c) .push :=
      hupdate.first fun S hS hq => .discard (.acked hq (by rw [hS.acks]; rfl))
    have hprocess : Gets cfg c (Sys.First · c) .process :=
      hpush.first fun S hS hq => .own (.push (.skip hq)) rfl
    exact hprocess.first fun S hS hq => .request (.done hq (by rw [hS.requests]; rfl))

/-- The core dispatches a job, if it has one. -/
theorem gets_dispatched (cfg : Config) (c : Fin n) : Gets cfg c (Sys.Alone · c) .dispatched := by
  obtain ⟨S, hr, hS, hq⟩ := gets_select cfg c
  have still : ∀ hs : LocalStep (S.ctx cfg c) (S.core c) S.job ((S.core c).goto .dispatched) S.job,
      Gets cfg c (Sys.Alone · c) .dispatched := fun hs =>
    ⟨_, hS.alone.step hr (.own hs rfl), hS.alone.update rfl rfl, Sys.pc_update rfl rfl⟩
  by_cases hc : ∃ j, nextCandidate (S.core c) S.job = some j
  · obtain ⟨j, hc⟩ := hc
    have hb : beatsRunning (S.core c) S.job j := by
      intro r hrun
      rw [hS.own.running] at hrun
      cases hrun
    cases hp : selectNextJob (S.core c) S.job j with
    | none => exact still (.dispatch (.nothing hq hc hb hp))
    | some i =>
      let K := ((S.core c).setQueue (S.job j).isReplica
        ((S.core c).queue (S.job j).isReplica).tail).goto (.dispatch i)
      let T : Sys n := { S.setCore c K with job := S.job.set i (S.job i).unlink }
      have hrT := hS.alone.step hr (.own (.dispatch (.pop hq hc hb hp)) (rfl : T = _))
      have hK : K.localCriticalityLevel = (S.core c).localCriticalityLevel ∧ K.runningJob = none := by
        show (Core.setQueue _ _ _).localCriticalityLevel = _ ∧ (Core.setQueue _ _ _).runningJob = none
        unfold Core.setQueue
        split_ifs <;> exact ⟨rfl, hS.own.running⟩
      have hT : T.Alone c := hS.alone.update rfl hK.1
      have hTc : T.core c = K := Function.update_self ..
      have hstart := DispatchStep.start (K := T.core c) (J := T.job) (j := i) (by rw [hTc]; rfl)
        (by rw [hTc]; exact hK.2)
      exact ⟨_, hT.step hrT (.own (.dispatch hstart) rfl), hT.update rfl rfl, Sys.pc_update rfl rfl⟩
  · exact still (.dispatch (.none hq fun j hj => absurd ⟨j, hj⟩ hc))

/-- **Every core gets to the summary of its first tick.** -/
theorem gets_summary (cfg : Config) (c : Fin n) : Gets cfg c (Sys.Alone · c) .summary := by
  have hbegin : ∀ S : Sys n, S.Alone c → (S.core c).pc = .dispatched →
      CoreStep cfg c S (S.goto c (if cfg.enableProcrastination then .procrastinate else .dvfs)) :=
    fun S hS hq => .own (.power (.begin hq)) rfl
  have hdvfs : Gets cfg c (Sys.Alone · c) .dvfs := by
    cases he : cfg.enableProcrastination with
    | false =>
      simp only [he, Bool.false_eq_true, if_false] at hbegin
      exact (gets_dispatched cfg c).alone hbegin
    | true =>
      simp only [he, if_true] at hbegin
      exact ((gets_dispatched cfg c).alone hbegin).alone fun S hS hq => .own (.power (.stay hq)) rfl
  have hdpm : Gets cfg c (Sys.Alone · c) .dpm :=
    hdvfs.alone fun S hS hq => .own (.power (.dvfsSkip hq)) rfl
  obtain ⟨S, hr, hS, hq⟩ := hdpm
  refine ⟨_, hS.step hr (.own (.power (.dpm hq)) rfl), hS.update rfl ?_, Sys.pc_update rfl rfl⟩
  show Core.localCriticalityLevel (if _ then _ else _) = _
  split_ifs
  · unfold setDpmInterval
    split_ifs <;> rfl
  · rfl

/-! ## Which ticks fault -/

/-- A run of core `c` by itself is safe, or gets to a fault. -/
theorem safe_or_faults (h : Lts.Reachable (OwnStep cfg c) (Sys.init n) S) :
    Lts.Reachable (SafeStep cfg) (Sys.init n) S ∨
      ∃ T : Sys n, Lts.Reachable (SafeStep cfg) (Sys.init n) T ∧ Faults cfg T c := by
  refine @Lts.Reachable.invariant _ _ _ _ _
    (fun S => Lts.Reachable (SafeStep cfg) (Sys.init n) S ∨
      ∃ T : Sys n, Lts.Reachable (SafeStep cfg) (Sys.init n) T ∧ Faults cfg T c) h
    (.inl Lts.Reachable.refl) ?_
  rintro S a S' (hS | hS) ⟨rfl, hs⟩
  · by_cases hf : Faults cfg S c
    · exact .inr ⟨S, hS, hf⟩
    · refine .inl (hS.snoc ⟨hs, fun d hd => ?_⟩)
      cases hd
      exact hf
  · exact .inr hS

/-- **An entry without a task, or whose task has no period, makes a tick of its
    core fault.** -/
theorem exists_fault (hl : 0 < cfg.maxCriticalityLevels) (ht : 0 < cfg.maxTasks) {m : TaskAlloc}
    (hm : m ∈ cfg.entries c) (hbad : ¬ m.Periodic cfg) :
    ∃ S : Sys n, Lts.Reachable (SafeStep cfg) (Sys.init n) S ∧ Faults cfg S c := by
  obtain ⟨S, hr, hS, hq⟩ := gets_summary cfg c
  rcases safe_or_faults hr with hsafe | hfault
  · refine ⟨S, hsafe, .summary hq ?_⟩
    have hd : cfg.maxDeadlines ≠ 0 := by
      unfold Config.maxDeadlines
      omega
    unfold Sys.coreSummary
    rw [hS.level]
    refine Fails.bind (findSlackChecked_fails (v := S.view cfg c) hl hd hm ?_ _ _ _ _) _
    exact fun h => hbad (TaskAlloc.sound_zero.1 h)
  · exact hfault

/-- **No tick of a core faults iff its allocation entries have tasks that are
    known and have a period.** -/
theorem faultFree_iff (hl : 0 < cfg.maxCriticalityLevels) (ht : 0 < cfg.maxTasks) (c : Fin n) :
    FaultFree cfg c ↔ ∀ m ∈ cfg.entries c, m.Periodic cfg := by
  constructor
  · intro h m hm
    by_contra hbad
    obtain ⟨S, hS, hf⟩ := exists_fault hl ht hm hbad
    exact (h S hS).1 hf
  · exact faultFree_of_periodic

/-- One core, and one allocation entry, of task `taskId` -/
def entryConfig (systemTasks : List Task) (taskId : ℕ) : Config where
  maxCriticalityLevels := 2
  maxTasks := 8
  systemTasks := systemTasks
  allocationMap := [⟨taskId, .primary, 0, 0, fun _ => 10⟩]
  procId := 0

def periodicTask (period : ℕ) : Task := ⟨1, period, 10, fun _ => 1, 0⟩

theorem mem_entryConfig {systemTasks : List Task} {taskId : ℕ} :
    (⟨taskId, .primary, 0, 0, fun _ => 10⟩ : TaskAlloc) ∈
      (entryConfig systemTasks taskId).entries (0 : Fin 1) := List.mem_singleton.2 rfl

/-- An entry whose task id is unknown makes a tick fault, and so does one whose
    task has period 0. -/
theorem unknown_task_faults : ¬ FaultFree (entryConfig [periodicTask 10] 7) (0 : Fin 1) ∧
    ¬ FaultFree (entryConfig [periodicTask 0] 1) (0 : Fin 1) := by
  constructor
  · intro h
    obtain ⟨S, hS, hf⟩ := exists_fault (by decide) (by decide)
      (@mem_entryConfig [periodicTask 10] 7) (by rintro ⟨_, ⟨⟩, _⟩)
    exact (h S hS).1 hf
  · intro h
    obtain ⟨S, hS, hf⟩ := exists_fault (by decide) (by decide)
      (@mem_entryConfig [periodicTask 0] 1) (by rintro ⟨_, ⟨⟩, hp⟩; exact hp rfl)
    exact (h S hS).1 hf

theorem faultFree_entry : FaultFree (entryConfig [periodicTask 10] 1) (0 : Fin 1) := by
  refine (faultFree_iff (by decide) (by decide) 0).2 fun m hm => ?_
  rw [List.mem_singleton.1 hm]
  exact ⟨periodicTask 10, rfl, by decide⟩

end EeftSched

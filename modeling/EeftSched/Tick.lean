/-
  The phases of `scheduler_tick` that touch only the core itself and the jobs
  it has (`sched_core.c`, `power_management.c`, `find_next_effective_arrival_time`
  in `sched_util.c`).

  A section under the core's own `rq_lock` that neither waits nor drops a
  reference is one step; the lock is free when it is taken (`Pc.wants`).  What
  is decided from float values that the state does not hold (admission, the
  choice of a target, whether a migration pays) is left open.

  One relation for each function of the source; `LocalStep` puts them together.
-/
import EeftSched.State
import Mathlib.Algebra.Order.Ring.Rat
import Mathlib.Algebra.Order.Floor.Semiring
import Mathlib.Logic.Function.Basic

namespace EeftSched

open SortedQueue

variable {n : ℕ}

def vdOf (J : Jobs n) (j : JobId n) : ℕ := (J j).virtualDeadline

def arrivalOf (J : Jobs n) (j : JobId n) : ℕ := (J j).arrivalTime

/-- Change the record of one job. -/
def Jobs.set (J : Jobs n) (j : JobId n) (r : JobRec) : Jobs n := Function.update J j r

/-- `list_add`, `list_add_tail` -/
def JobRec.link (r : JobRec) : JobRec := { r with linked := true }

/-- `list_del` -/
def JobRec.unlink (r : JobRec) : JobRec := { r with linked := false }

/-- The virtual deadline and the budget at a level. -/
def JobRec.retune (r : JobRec) (level : ℕ) : JobRec :=
  { r with
    virtualDeadline := r.arrivalTime + r.relativeTunedDeadlines level
    wcet := toFloat (r.parentTask.wcet level) }

/-- What a core sees of the processor during a step. -/
structure Ctx (n : ℕ) where
  cfg : Config
  coreId : Fin n
  systemTime : ℕ
  systemCriticalityLevel : ℕ
  incoming : List CompletionMessage

/-- The core's entries of the allocation map. -/
def Ctx.entries (X : Ctx n) : List TaskAlloc := X.cfg.entries X.coreId

namespace Core

def goto (K : Core n) (q : Pc n) : Core n := { K with pc := q }

/-- `add_to_queue_sorted` on the queue of the job's kind -/
def addByKind (K : Core n) (J : Jobs n) (j : JobId n) : Core n :=
  K.setQueue (J j).isReplica (insertBy (vdOf J) j (K.queue (J j).isReplica))

def addToDiscardList (K : Core n) (J : Jobs n) (j : JobId n) : Core n :=
  { K with discardList := insertBy (vdOf J) j K.discardList }

/-- The running job goes back to its queue. -/
def preempt (K : Core n) (J : Jobs n) (j : JobId n) : Core n :=
  { K.addByKind J j with runningJob := none, isIdle := true }

/-- The end of `handle_job_arrivals` for one job -/
def addArrival (K : Core n) (J : Jobs n) (j : JobId n) : Core n :=
  if (J j).parentTask.critLevel < K.localCriticalityLevel then K.addToDiscardList J j
  else { K.addByKind J j with decisionPoint := true }

end Core

/-! ## `remove_completed_jobs` -/

def CompletionMessage.isFor (msg : CompletionMessage) (r : JobRec) : Prop :=
  r.parentTask.id = msg.completedTaskId ∧ r.arrivalTime = msg.jobArrivalTime

inductive CancelStep (K : Core n) (J : Jobs n) : Core n → Jobs n → Prop
  | done (h : K.pc = .cancel []) : CancelStep K J (K.goto .sync) J
  | lock {msg : CompletionMessage} {msgs : List CompletionMessage} (h : K.pc = .cancel (msg :: msgs)) :
      CancelStep K J (K.goto (.cancelQueue msg msgs true 0)) J
  | keep {msg : CompletionMessage} {msgs : List CompletionMessage} {replica : Bool} {k : ℕ}
      {j : JobId n} (h : K.pc = .cancelQueue msg msgs replica k)
      (hj : (K.queue replica)[k]? = some j) (hm : ¬ msg.isFor (J j)) :
      CancelStep K J (K.goto (.cancelQueue msg msgs replica (k + 1))) J
  | remove {msg : CompletionMessage} {msgs : List CompletionMessage} {replica : Bool} {k : ℕ}
      {j : JobId n} (h : K.pc = .cancelQueue msg msgs replica k)
      (hj : (K.queue replica)[k]? = some j) (hm : msg.isFor (J j)) :
      CancelStep K J
        ((K.setQueue replica ((K.queue replica).eraseIdx k)).goto (.cancelPut j msg msgs replica k))
        (J.set j { (J j).unlink with state := .removed })
  | nextQueue {msg : CompletionMessage} {msgs : List CompletionMessage} {k : ℕ}
      (h : K.pc = .cancelQueue msg msgs true k) (hj : (K.queue true)[k]? = none) :
      CancelStep K J (K.goto (.cancelQueue msg msgs false 0)) J
  | running {msg : CompletionMessage} {msgs : List CompletionMessage} {k : ℕ} {j : JobId n}
      (h : K.pc = .cancelQueue msg msgs false k) (hk : (K.queue false)[k]? = none)
      (hr : K.runningJob = some j) (hm : (J j).parentTask.id = msg.completedTaskId) :
      CancelStep K J { K with runningJob := none, isIdle := true, pc := .cancelRunPut j msgs }
        (J.set j { J j with state := .removed })
  | unlock {msg : CompletionMessage} {msgs : List CompletionMessage} {k : ℕ}
      (h : K.pc = .cancelQueue msg msgs false k) (hk : (K.queue false)[k]? = none)
      (hr : ∀ j, K.runningJob = some j → (J j).parentTask.id ≠ msg.completedTaskId) :
      CancelStep K J (K.goto (.cancel msgs)) J

/-! ## `handle_mode_change` -/

/-- `filter_queue_for_mode_change`: the source queue, the job records, the
    destination queue and the discard list -/
def filterQueueForModeChange (level : ℕ) :
    List (JobId n) → Jobs n → List (JobId n) → List (JobId n) →
      Jobs n × List (JobId n) × List (JobId n)
  | [], J, dest, discard => (J, dest, discard)
  | j :: src, J, dest, discard =>
    let J := J.set j ((J j).retune level).link
    if (J j).parentTask.critLevel < level ∧ (J j).isBeingOffered = false then
      filterQueueForModeChange level src J dest (insertBy (vdOf J) j discard)
    else filterQueueForModeChange level src J (insertBy (vdOf J) j dest) discard

/-- The running job goes back to its queue before the queues are filtered. -/
def preemptRunning (K : Core n) (J : Jobs n) : Core n × Jobs n :=
  match K.runningJob with
  | some j => (K.preempt J j, J.set j { (J j).link with state := .ready })
  | none => (K, J)

/-- The section of `handle_mode_change` under the `rq_lock` -/
def modeChangeSection (K : Core n) (J : Jobs n) : Core n × Jobs n :=
  let (K, J) := preemptRunning K J
  let level := K.localCriticalityLevel
  let (J, ready, discard) := filterQueueForModeChange level K.readyQueue J [] K.discardList
  let (J, replica, discard) := filterQueueForModeChange level K.replicaQueue J [] discard
  ({ K with readyQueue := ready, replicaQueue := replica, discardList := discard }, J)

/-- The synchronisation at the top of the tick, the section of a mode change,
    and the end of the sleep -/
inductive SyncStep (X : Ctx n) (K : Core n) (J : Jobs n) : Core n → Jobs n → Prop
  | start (h : K.pc = .start) :
      SyncStep X K J (K.goto (if X.cfg.enableEcc then .cancel X.incoming else .sync)) J
  | equal (h : K.pc = .sync) (he : K.localCriticalityLevel = X.systemCriticalityLevel) :
      SyncStep X K J (K.goto .lowPower) J
  | differ (h : K.pc = .sync) (he : K.localCriticalityLevel ≠ X.systemCriticalityLevel) :
      SyncStep X K J (K.goto .syncReload) J
  | reload (h : K.pc = .syncReload) :
      SyncStep X K J (K.goto (.modeStore X.systemCriticalityLevel false)) J
  | modeBody {overrun : Bool} (h : K.pc = .modeBody overrun) :
      SyncStep X K J ((modeChangeSection K J).1.goto (if overrun then .pending 0 else .lowPower))
        (modeChangeSection K J).2
  | sleep (h : K.pc = .lowPower) (hl : K.inLowPowerState = true) (ht : X.systemTime < K.dpmEndTime) :
      SyncStep X K J (K.goto .arrived) J
  | wake (h : K.pc = .lowPower) (hl : K.inLowPowerState = true) (ht : K.dpmEndTime ≤ X.systemTime) :
      SyncStep X K J { K with inLowPowerState := false, pc := .run } J
  | awake (h : K.pc = .lowPower) (hl : K.inLowPowerState = false) :
      SyncStep X K J (K.goto .run) J

/-! ## `handle_running_job` -/

/-- `dvfs_levels[level].scaling_factor` -/
def scalingFactor (level : ℕ) : ℚ := [1, 9 / 10, 3 / 4, 3 / 5, 1 / 2, 2 / 5].getD level 1

/-- The job has run for one more tick. -/
def JobRec.execute (r : JobRec) (K : Core n) : JobRec :=
  { r with executedTime := r.executedTime + scalingFactor K.currentDvfsLevel }

def JobRec.missed (r : JobRec) (systemTime : ℕ) : Prop :=
  r.state = .running ∧ systemTime > r.actualDeadline

inductive RunStep (X : Ctx n) (K : Core n) (J : Jobs n) : Core n → Jobs n → Prop
  | idle (h : K.pc = .run) (hr : K.runningJob = none) : RunStep X K J (K.goto (.pending 0)) J
  | miss {j : JobId n} (h : K.pc = .run) (hr : K.runningJob = some j)
      (hm : ((J j).execute K).missed X.systemTime) :
      RunStep X K J { K with runningJob := none, isIdle := true, pc := .missPut j }
        (J.set j { (J j).execute K with state := .completed })
  | complete {j : JobId n} (h : K.pc = .run) (hr : K.runningJob = some j)
      (hm : ¬ ((J j).execute K).missed X.systemTime)
      (hc : (J j).acet ≤ ((J j).execute K).executedTime) :
      RunStep X K J { K with decisionPoint := true, pc := .complete } (J.set j ((J j).execute K))
  | overrun {j : JobId n} (h : K.pc = .run) (hr : K.runningJob = some j)
      (hm : ¬ ((J j).execute K).missed X.systemTime)
      (hc : ¬ (J j).acet ≤ ((J j).execute K).executedTime)
      (ho : (J j).wcet ≤ ((J j).execute K).executedTime) :
      RunStep X K J
        (K.goto (.modeStore (newCritLevel X.cfg.maxCriticalityLevels (J j).parentTask.wcet
          ((J j).execute K).executedTime K.localCriticalityLevel) true))
        (J.set j ((J j).execute K))
  | go {j : JobId n} (h : K.pc = .run) (hr : K.runningJob = some j)
      (hm : ¬ ((J j).execute K).missed X.systemTime)
      (hc : ¬ (J j).acet ≤ ((J j).execute K).executedTime)
      (ho : ¬ (J j).wcet ≤ ((J j).execute K).executedTime) :
      RunStep X K J (K.goto (.pending 0)) (J.set j ((J j).execute K))

/-! ## `handle_job_arrivals` -/

/-- The walk over `delegated_job_queue` for one entry: the records passed and
    kept, the free list, and whether the release is delegated. -/
def scanDelegations (taskId systemTime : ℕ) :
    List DelegatedJob → List DelegatedJob → List DelegatedJob × List DelegatedJob × Bool
  | [], freeList => ([], freeList, false)
  | dj :: queue, freeList =>
    if dj.arrivalTick < systemTime then
      scanDelegations taskId systemTime queue ({ dj with ownedByRemote := false } :: freeList)
    else if dj.taskId = taskId ∧ dj.arrivalTick ≥ systemTime ∧ dj.ownedByRemote = true then
      (dj :: queue, freeList, true)
    else
      let (queue, freeList, delegated) := scanDelegations taskId systemTime queue freeList
      (dj :: queue, freeList, delegated)

def Core.scanned (K : Core n) (taskId systemTime : ℕ) : Core n :=
  let r := scanDelegations taskId systemTime K.delegatedJobQueue K.delegatedFreeList
  { K with delegatedJobQueue := r.1, delegatedFreeList := r.2.1 }

/-- The release of `taskId` at `systemTime` belongs to another core. -/
def Core.delegatedAt (K : Core n) (taskId systemTime : ℕ) : Prop :=
  (scanDelegations taskId systemTime K.delegatedJobQueue K.delegatedFreeList).2.2 = true

/-- The task of an entry with a release at this tick. -/
def Ctx.releases (X : Ctx n) (m : TaskAlloc) (task : Task) : Prop :=
  X.cfg.findTaskById m.taskId = some task ∧ task.period ≠ 0 ∧ X.systemTime % task.period = 0

theorem Ctx.not_releases {X : Ctx n} {m : TaskAlloc} {task : Task} (h : X.cfg.findTaskById m.taskId = some task)
    (ht : X.systemTime % task.period ≠ 0) : ∀ task', ¬X.releases m task' := by
  rintro task' ⟨hf, -, hm⟩
  obtain rfl := Option.some.inj (h.symm.trans hf)
  exact ht hm

inductive ArrivalStep (X : Ctx n) (K : Core n) (J : Jobs n) : Core n → Jobs n → Prop
  | pendingEnd {k : ℕ} (h : K.pc = .pending k)
      (hj : ∀ j, K.pendingJobsQueue[k]? = some j → (J j).arrivalTime > X.systemTime) :
      ArrivalStep X K J (K.goto (.alloc X.entries)) J
  | missed {k : ℕ} {j : JobId n} (h : K.pc = .pending k) (hj : K.pendingJobsQueue[k]? = some j)
      (ht : (J j).arrivalTime < X.systemTime)
      (hc : ¬ (J j).parentTask.critLevel < K.localCriticalityLevel) :
      ArrivalStep X K J (K.goto (.pending (k + 1))) J
  | drop {k : ℕ} {j : JobId n} (h : K.pc = .pending k) (hj : K.pendingJobsQueue[k]? = some j)
      (ht : (J j).arrivalTime < X.systemTime)
      (hc : (J j).parentTask.critLevel < K.localCriticalityLevel) :
      ArrivalStep X K J
        { K with pendingJobsQueue := K.pendingJobsQueue.eraseIdx k, pc := .pendingPut j k }
        (J.set j (J j).unlink)
  | due {k : ℕ} {j : JobId n} (h : K.pc = .pending k) (hj : K.pendingJobsQueue[k]? = some j)
      (ht : (J j).arrivalTime = X.systemTime) :
      ArrivalStep X K J
        { K with pendingJobsQueue := K.pendingJobsQueue.eraseIdx k, pc := .pendingIns j k }
        (J.set j { (J j).unlink with
          state := .ready
          virtualDeadline := X.systemTime + (J j).relativeTunedDeadlines K.localCriticalityLevel
          wcet := toFloat ((J j).parentTask.wcet K.localCriticalityLevel)
          arrivalTime := X.systemTime })
  | pendingIns {k : ℕ} {j : JobId n} (h : K.pc = .pendingIns j k) :
      ArrivalStep X K J ((K.addArrival J j).goto (.pending k)) (J.set j (J j).link)
  | allocEnd (h : K.pc = .alloc []) : ArrivalStep X K J (K.goto .reclaim) J
  | allocSkip {m : TaskAlloc} {ms : List TaskAlloc} (h : K.pc = .alloc (m :: ms))
      (hm : ∀ task, ¬ X.releases m task) : ArrivalStep X K J (K.goto (.alloc ms)) J
  | allocDelegated {m : TaskAlloc} {ms : List TaskAlloc} {task : Task} (h : K.pc = .alloc (m :: ms))
      (hm : X.releases m task) (hd : K.delegatedAt task.id X.systemTime) :
      ArrivalStep X K J ((K.scanned task.id X.systemTime).goto (.alloc ms)) J
  | allocIns {j : JobId n} {ms : List TaskAlloc} (h : K.pc = .allocIns j ms) :
      ArrivalStep X K J ((K.addArrival J j).goto (.alloc ms)) (J.set j (J j).link)

/-! ## `reclaim_discarded_jobs` -/

inductive ReclaimStep (K : Core n) (J : Jobs n) : Core n → Jobs n → Prop
  | lock (h : K.pc = .reclaim) : ReclaimStep K J (K.goto .reclaimLoop) J
  | pop {j : JobId n} {rest : List (JobId n)} (h : K.pc = .reclaimLoop)
      (hd : K.discardList = j :: rest) :
      ReclaimStep K J { K with discardList := rest, pc := .reclaimHand j } (J.set j (J j).unlink)
  | empty (h : K.pc = .reclaimLoop) (hd : K.discardList = []) :
      ReclaimStep K J (K.goto .reclaimLock) J
  /-- `is_admissible_locked` holds -/
  | accommodate {j : JobId n} (h : K.pc = .reclaimHand j) :
      ReclaimStep K J { K.addByKind J j with decisionPoint := true, pc := .reclaimLoop }
        (J.set j (J j).link)
  /-- not admissible, and on offer: the job is put nowhere -/
  | leave {j : JobId n} (h : K.pc = .reclaimHand j) (hf : (J j).isBeingOffered = true) :
      ReclaimStep K J (K.goto .reclaimLoop) J

/-! ## `attempt_migration_push`, what it does to the core alone -/

inductive PushStep (X : Ctx n) (K : Core n) (J : Jobs n) : Core n → Jobs n → Prop
  | skip (h : K.pc = .push) : PushStep X K J (K.goto .process) J
  | go (h : K.pc = .push) (hi : K.isIdle = false)
      (ht : K.nextMigrationEligibleTick ≤ X.systemTime) : PushStep X K J (K.goto .pushCheck) J
  | future (h : K.pc = .pushCheck) (he : K.readyQueue = [] ∧ K.replicaQueue = []) :
      PushStep X K J (K.goto (.future X.entries)) J
  | shed (h : K.pc = .pushCheck) (he : ¬ (K.readyQueue = [] ∧ K.replicaQueue = [])) :
      PushStep X K J (K.goto .offerLock) J
  | offerLock (h : K.pc = .offerLock) : PushStep X K J (K.goto (.offer false 0)) J
  | nextQueue {k : ℕ} (h : K.pc = .offer false k) (hk : (K.queue false)[k]? = none) :
      PushStep X K J (K.goto (.offer true 0)) J
  | offerEnd {k : ℕ} (h : K.pc = .offer true k) (hk : (K.queue true)[k]? = none) :
      PushStep X K J (K.goto .process) J
  /-- `is_migration_profitable` fails -/
  | offerSkip {replica : Bool} {k : ℕ} {j : JobId n} (h : K.pc = .offer replica k)
      (hj : (K.queue replica)[k]? = some j) : PushStep X K J (K.goto (.offer replica (k + 1))) J
  | offerTaken {replica : Bool} {k : ℕ} {j : JobId n} (h : K.pc = .offer replica k)
      (hj : (K.queue replica)[k]? = some j) (hf : (J j).isBeingOffered = true) :
      PushStep X K J (K.goto (.offer replica (k + 1))) J
  | futureEnd (h : K.pc = .future []) : PushStep X K J (K.goto .process) J
  /-- too short, too far ahead, on offer already, or no job left in the pool -/
  | futureSkip {m : TaskAlloc} {ms : List TaskAlloc} (h : K.pc = .future (m :: ms)) :
      PushStep X K J (K.goto (.future ms)) J

/-! ## `process_migration_requests`, what it does to the core alone -/

inductive ProcessStep (c : Fin n) (K : Core n) (J : Jobs n) : Core n → Jobs n → Prop
  | lock1 {r : MigrationRequest n} (h : K.pc = .procLock1 r) :
      ProcessStep c K J (K.goto (if r.fromCore = c then .procDecide r else .procLock2 r)) J
  | lock2 {r : MigrationRequest n} (h : K.pc = .procLock2 r) :
      ProcessStep c K J (K.goto (.procDecide r)) J
  | insertDiscard {r : MigrationRequest n} (h : K.pc = .procInsert r)
      (hc : (J r.job).parentTask.critLevel < K.localCriticalityLevel) :
      ProcessStep c K J
        ((K.addToDiscardList (J.set r.job ((J r.job).retune K.localCriticalityLevel)) r.job).goto
          (.procClear r))
        (J.set r.job ((J r.job).retune K.localCriticalityLevel).link)
  | insert {r : MigrationRequest n} (h : K.pc = .procInsert r)
      (hc : ¬ (J r.job).parentTask.critLevel < K.localCriticalityLevel) :
      ProcessStep c K J
        ((K.addByKind (J.set r.job ((J r.job).retune K.localCriticalityLevel)) r.job).goto
          (.procClear r))
        (J.set r.job ((J r.job).retune K.localCriticalityLevel).link)

/-! ## `select_next_job`, `dispatch_job` -/

/-- The job `select_next_job` looks at. -/
def nextCandidate (K : Core n) (J : Jobs n) : Option (JobId n) :=
  match K.readyQueue, K.replicaQueue with
  | ready :: _, replica :: _ =>
    if (J ready).virtualDeadline ≤ (J replica).virtualDeadline then some ready else some replica
  | ready :: _, [] => some ready
  | [], replica :: _ => some replica
  | [], [] => none

/-- The candidate comes before the running job. -/
def beatsRunning (K : Core n) (J : Jobs n) (j : JobId n) : Prop :=
  ∀ r, K.runningJob = some r → (J r).virtualDeadline > (J j).virtualDeadline

/-- The queue that is popped is the one of the candidate's kind. -/
def selectNextJob (K : Core n) (J : Jobs n) (j : JobId n) : Option (JobId n) :=
  (K.queue (J j).isReplica).head?

inductive DispatchStep (K : Core n) (J : Jobs n) : Core n → Jobs n → Prop
  | none (h : K.pc = .select) (hc : ∀ j, nextCandidate K J = some j → ¬ beatsRunning K J j) :
      DispatchStep K J (K.goto .dispatched) J
  | nothing {j : JobId n} (h : K.pc = .select) (hc : nextCandidate K J = some j)
      (hb : beatsRunning K J j) (hp : selectNextJob K J j = Option.none) :
      DispatchStep K J (K.goto .dispatched) J
  | pop {j i : JobId n} (h : K.pc = .select) (hc : nextCandidate K J = some j)
      (hb : beatsRunning K J j) (hp : selectNextJob K J j = some i) :
      DispatchStep K J
        ((K.setQueue (J j).isReplica (K.queue (J j).isReplica).tail).goto (.dispatch i))
        (J.set i (J i).unlink)
  | start {j : JobId n} (h : K.pc = .dispatch j) (hr : K.runningJob = Option.none) :
      DispatchStep K J
        { K with runningJob := some j, isIdle := false, decisionPoint := true, pc := .dispatched }
        (J.set j { J j with state := .running })
  | switch {j r : JobId n} (h : K.pc = .dispatch j) (hr : K.runningJob = some r) :
      DispatchStep K J
        { K.addByKind J r with
          runningJob := some j, isIdle := false, decisionPoint := true, pc := .dispatched }
        ((J.set r { (J r).link with state := .ready }).set j { J j with state := .running })

/-! ## Power management -/

/-- `UINT32_MAX` -/
def uint32Max : ℕ := 2 ^ 32 - 1

/-- `DPM_ENTRY_LATENCY_TICKS + DPM_IDLE_THRESHOLD_TICKS + DPM_EXIT_LATENCY_TICKS` -/
def dpmThreshold : ℕ := 6

/-- The next release of a task after now that is not delegated, along
    `delegated_job_queue`. -/
def nextRelease (task : Task) (queue : List DelegatedJob) (nextArrival : ℕ) : ℕ :=
  queue.foldl (fun next dj =>
    if dj.arrivalTick = next ∧ dj.taskId = task.id ∧ dj.ownedByRemote = true then next + task.period
    else next) nextArrival

def findNextEffectiveArrivalTime (X : Ctx n) (K : Core n) (J : Jobs n) : ℕ :=
  let pending := K.pendingJobsQueue.foldl (fun min j =>
    if (J j).arrivalTime > X.systemTime ∧ (J j).arrivalTime < min then (J j).arrivalTime else min)
    uint32Max
  X.entries.foldl (fun min m =>
    match X.cfg.findTaskById m.taskId with
    | none => min
    | some task =>
      if task.period = 0 ∨ task.critLevel < K.localCriticalityLevel then min
      else
        let next := nextRelease task K.delegatedJobQueue
          (X.systemTime + (task.period - X.systemTime % task.period))
        if next < min then next else min) pending

/-- `power_management_set_dpm_interval` -/
def setDpmInterval (systemTime : ℕ) (K : Core n) (nextArrivalTime : ℕ) : Core n :=
  if K.isIdle = false ∨ K.inLowPowerState = true then K
  else if nextArrivalTime = uint32Max ∨ nextArrivalTime ≤ systemTime then
    { K with inLowPowerState := true, dpmStartTime := systemTime, dpmEndTime := uint32Max }
  else if nextArrivalTime - systemTime ≥ dpmThreshold then
    { K with
      inLowPowerState := true
      dpmStartTime := systemTime
      dpmEndTime := systemTime + (nextArrivalTime - systemTime) }
  else K

inductive PowerStep (X : Ctx n) (K : Core n) (J : Jobs n) : Core n → Jobs n → Prop
  | begin (h : K.pc = .dispatched) :
      PowerStep X K J (K.goto (if X.cfg.enableProcrastination then .procrastinate else .dvfs)) J
  | stay (h : K.pc = .procrastinate) : PowerStep X K J (K.goto .dvfs) J
  /-- the slack of all levels allows to defer the running job -/
  | procrastinate {j : JobId n} {minSlack : ℚ} (h : K.pc = .procrastinate)
      (hr : K.runningJob = some j) (ha : findNextEffectiveArrivalTime X K J ≠ uint32Max)
      (ht : dpmThreshold ≤ findNextEffectiveArrivalTime X K J - X.systemTime)
      (hs : (dpmThreshold : ℚ) ≤ minSlack) :
      PowerStep X K J
        (let K' := K.preempt J j
         let deferrable := min minSlack ((findNextEffectiveArrivalTime X K J - X.systemTime : ℕ) : ℚ)
         (if X.cfg.enableDpm then setDpmInterval X.systemTime K' (X.systemTime + ⌊deferrable⌋₊)
          else K').goto .summary)
        (J.set j { (J j).link with state := .ready })
  | dvfs {level : ℕ} (h : K.pc = .dvfs) (hl : level < 6) (hd : K.decisionPoint = true) :
      PowerStep X K J
        { K with currentDvfsLevel := if X.cfg.enableDvfs then level else K.currentDvfsLevel
                 pc := .dpm } J
  | dvfsSkip (h : K.pc = .dvfs) : PowerStep X K J (K.goto .dpm) J
  | dpm (h : K.pc = .dpm) :
      PowerStep X K J
        ((if X.cfg.enableDpm ∧ K.isIdle = true then
            setDpmInterval X.systemTime K (findNextEffectiveArrivalTime X K J) else K).goto .summary) J
  | summary (h : K.pc = .summary) : PowerStep X K J (K.goto .arrived) J

/-- A step of a core that touches only the core and the jobs it has. -/
inductive LocalStep (X : Ctx n) (K : Core n) (J : Jobs n) (K' : Core n) (J' : Jobs n) : Prop
  | cancel (h : CancelStep K J K' J')
  | sync (h : SyncStep X K J K' J')
  | run (h : RunStep X K J K' J')
  | arrival (h : ArrivalStep X K J K' J')
  | reclaim (h : ReclaimStep K J K' J')
  | push (h : PushStep X K J K' J')
  | process (h : ProcessStep X.coreId K J K' J')
  | dispatch (h : DispatchStep K J K' J')
  | power (h : PowerStep X K J K' J')

end EeftSched

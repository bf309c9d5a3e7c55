/-
  The steps of a processor: the cores' ticks, interleaved, and the timer
  between the ticks (`sched_core.c`, `sched_migration.c`, `task_management.c`,
  `timer_thread_func` in `processor.c`).

  * `SharedStep`: the steps of a core that touch the pools, the job records of
    other cores, the queues between the cores or the discard queue;
  * `TimerStep`: the sweep of the discard queue and the start of the next tick;
  * `Step`: one step of a processor.  A core moves only if the `rq_lock` it
    waits for is free.
-/
import EeftSched.Lib.Exec
import EeftSched.Tick

namespace EeftSched

open SortedQueue

variable {n : ℕ}

namespace Sys

def ctx (cfg : Config) (S : Sys n) (c : Fin n) : Ctx n :=
  ⟨cfg, c, S.systemTime, S.systemCriticalityLevel, S.incoming⟩

def setCore (S : Sys n) (c : Fin n) (K : Core n) : Sys n :=
  { S with core := Function.update S.core c K }

def setJob (S : Sys n) (j : JobId n) (r : JobRec) : Sys n := { S with job := S.job.set j r }

def goto (S : Sys n) (c : Fin n) (q : Pc n) : Sys n := S.setCore c ((S.core c).goto q)

/-! ## The pools -/

/-- The free list of pool `c`, refilled from the remote one if it is empty -/
def refill (S : Sys n) (c : Fin n) : Sys n :=
  if S.freeList c = [] then
    { S with
      freeList := Function.update S.freeList c (S.remoteFreeList c)
      remoteFreeList := Function.update S.remoteFreeList c [] }
  else S

/-- The part of `create_job` that takes a job from the pool; `none` when it is
    exhausted. -/
def takeFree (S : Sys n) (c : Fin n) : Option (JobId n × Sys n) :=
  match (S.refill c).freeList c with
  | [] => none
  | j :: rest =>
    some (j, { S.refill c with freeList := Function.update (S.refill c).freeList c rest })

/-- `__release_job_to_pool`; the timer, `none`, owns no pool. -/
def releaseJobToPool (S : Sys n) (me : Option (Fin n)) (j : JobId n) : Sys n :=
  if me = some j.1 then
    { S with freeList := Function.update S.freeList j.1 (j :: S.freeList j.1) }
  else { S with remoteFreeList := Function.update S.remoteFreeList j.1 (j :: S.remoteFreeList j.1) }

/-- `put_job_ref` -/
def putJobRef (S : Sys n) (me : Option (Fin n)) (j : JobId n) : Sys n :=
  let S' := S.setJob j { S.job j with refcount := (S.job j).refcount - 1 }
  if (S.job j).refcount = 1 then S'.releaseJobToPool me j else S'

end Sys

/-- `list_del` on whichever list has the job -/
def Core.listDel (K : Core n) (j : JobId n) : Core n :=
  { K with
    readyQueue := K.readyQueue.erase j
    replicaQueue := K.replicaQueue.erase j
    discardList := K.discardList.erase j
    pendingJobsQueue := K.pendingJobsQueue.erase j }

def Sys.listDel (S : Sys n) (j : JobId n) : Sys n :=
  { S with
    core := fun d => (S.core d).listDel j
    job := S.job.set j (S.job j).unlink
    discardQueue := S.discardQueue.erase j }

/-! ## What a new job is -/

/-- The job `handle_job_arrivals` creates for an entry at its release. -/
def arrivedJob (c : Fin n) (systemTime level : ℕ) (m : TaskAlloc) (task : Task) (acet : ℚ) : JobRec :=
  { parentTask := task
    arrivalTime := systemTime
    relativeTunedDeadlines := m.tunedDeadlines
    actualDeadline := systemTime + task.deadline
    virtualDeadline := systemTime + m.tunedDeadlines level
    wcet := toFloat (task.wcet level)
    acet := acet
    executedTime := 0
    jobPoolId := c
    isReplica := m.taskType == .replica
    state := .ready
    nextMigrationEligibleTick := 0
    linked := true
    refcount := 1
    isBeingOffered := false }

/-- The job `attempt_future_load_shedding` creates for the release at `arrivalTime`. -/
def futureJob (c : Fin n) (arrivalTime level : ℕ) (m : TaskAlloc) (task : Task) (acet : ℚ) : JobRec :=
  { arrivedJob c arrivalTime level m task acet with state := .idle }

/-! ## Migration -/

/-- `MIN_MIGRATION_BENEFIT_THRESHOLD` -/
def minMigrationBenefitThreshold : ℚ := 1 / 20 + 1 / 10 + 1 / 5

/-- `DPM_MIGRATION_LOOKAHEAD_TICKS` -/
def dpmMigrationLookaheadTicks : ℕ := 100

/-- `CORE_MIGRATION_COOLDOWN_TICKS` -/
def coreMigrationCooldownTicks : ℕ := 15

/-- `JOB_MIGRATION_COOLDOWN_TICKS` -/
def jobMigrationCooldownTicks : ℕ := 50

/-- `is_migration_profitable` -/
def isMigrationProfitable (r : JobRec) (currentTime : ℕ) : Prop :=
  r.nextMigrationEligibleTick ≤ currentTime ∧
    minMigrationBenefitThreshold ≤ max 0 (r.wcet - r.executedTime)

/-- The next release after now -/
def futureArrival (systemTime : ℕ) (task : Task) : ℕ := (systemTime / task.period + 1) * task.period

/-- The walk over `delegated_job_queue`: the release is already on offer. -/
def hasDelegation (taskId arrivalTime : ℕ) : List DelegatedJob → Bool
  | [] => false
  | dj :: queue =>
    if dj.taskId = taskId ∧ dj.arrivalTick = arrivalTime then true
    else if dj.arrivalTick > arrivalTime then false
    else hasDelegation taskId arrivalTime queue

/-- The entry's next release may be offered. -/
def Core.offersFuture (K : Core n) (X : Ctx n) (m : TaskAlloc) (task : Task) : Prop :=
  X.cfg.findTaskById m.taskId = some task ∧ task.period ≠ 0 ∧
    minMigrationBenefitThreshold ≤ toFloat (task.wcet K.localCriticalityLevel) ∧
    futureArrival X.systemTime task < X.systemTime + dpmMigrationLookaheadTicks ∧
    hasDelegation task.id (futureArrival X.systemTime task) K.delegatedJobQueue = false

/-- `add_delegation_sorted` -/
def addDelegationSorted (dj : DelegatedJob) (queue : List DelegatedJob) : List DelegatedJob :=
  insertBy (·.arrivalTick) dj queue

/-- `update_delegations`, for one ack: the first record of the release -/
def updateDelegation (ack : DelegationAck) : List DelegatedJob → List DelegatedJob
  | [] => []
  | dj :: queue =>
    if dj.taskId = ack.taskId ∧ dj.arrivalTick = ack.arrivalTick then
      { dj with ownedByRemote := dj.ownedByRemote || ack.accepted } :: queue
    else dj :: updateDelegation ack queue

/-- The ack of an accepted future job -/
def acceptAck (r : JobRec) : DelegationAck := ⟨r.parentTask.id, r.arrivalTime, true⟩

/-! ## The steps of a core -/

/-- `put_job_ref` on the job in the hands of the core, and where it goes on. -/
inductive PutStep (K : Core n) : JobId n → Core n → Prop
  | cancelPut {j : JobId n} {msg : CompletionMessage} {msgs : List CompletionMessage}
      {replica : Bool} {k : ℕ} (h : K.pc = .cancelPut j msg msgs replica k) :
      PutStep K j (K.goto (.cancelQueue msg msgs replica k))
  | cancelRunPut {j : JobId n} {msgs : List CompletionMessage} (h : K.pc = .cancelRunPut j msgs) :
      PutStep K j (K.goto (.cancel msgs))
  | missPut {j : JobId n} (h : K.pc = .missPut j) : PutStep K j (K.goto .missFatal)
  | completePut {j : JobId n} (h : K.pc = .completePut j) :
      PutStep K j { K with isIdle := true, pc := .pending 0 }
  | pendingPut {j : JobId n} {k : ℕ} (h : K.pc = .pendingPut j k) : PutStep K j (K.goto (.pending k))
  /-- no other core, or no delegation record left -/
  | futurePut {j : JobId n} {ms : List TaskAlloc} (h : K.pc = .futureHand j ms) :
      PutStep K j (K.goto (.future ms))

/-- `handle_mode_change`, `handle_job_completion`, `handle_running_job` and
    `handle_job_arrivals`, where they touch more than the core -/
inductive ArriveStep (cfg : Config) (c : Fin n) (S : Sys n) : Sys n → Prop
  | modeStore {level : ℕ} {overrun : Bool} (h : (S.core c).pc = .modeStore level overrun) :
      ArriveStep cfg c S
        { S.setCore c
            { S.core c with
              decisionPoint := true, localCriticalityLevel := level, pc := .modeBody overrun } with
          systemCriticalityLevel := level }
  | complete {j : JobId n} (h : (S.core c).pc = .complete) (hr : (S.core c).runningJob = some j) :
      ArriveStep cfg c S
        { (S.setJob j { S.job j with state := .completed }).setCore c
            { S.core c with runningJob := none, pc := .completePut j } with
          outgoing := S.outgoing ++ [⟨(S.job j).parentTask.id, (S.job j).arrivalTime, S.systemTime⟩] }
  | missFatal (h : (S.core c).pc = .missFatal) :
      ArriveStep cfg c S { S.goto c (.pending 0) with coreFatalShutdownRequested := true }
  | put {j : JobId n} {K' : Core n} (h : PutStep (S.core c) j K') :
      ArriveStep cfg c S ((S.setCore c K').putJobRef (some c) j)
  | create {m : TaskAlloc} {ms : List TaskAlloc} {task : Task} {j : JobId n} {S' : Sys n} {acet : ℚ}
      (h : (S.core c).pc = .alloc (m :: ms)) (hm : (S.ctx cfg c).releases m task)
      (hd : ¬ (S.core c).delegatedAt task.id S.systemTime) (hj : S.takeFree c = some (j, S')) :
      ArriveStep cfg c S
        ((S'.setJob j
            (arrivedJob c S.systemTime (S.core c).localCriticalityLevel m task acet)).setCore c
          (((S.core c).scanned task.id S.systemTime).goto (.allocIns j ms)))
  /-- "Job pool exhausted" -/
  | exhausted {m : TaskAlloc} {ms : List TaskAlloc} {task : Task}
      (h : (S.core c).pc = .alloc (m :: ms)) (hm : (S.ctx cfg c).releases m task)
      (hd : ¬ (S.core c).delegatedAt task.id S.systemTime) (hj : S.takeFree c = none) :
      ArriveStep cfg c S
        (S.setCore c (((S.core c).scanned task.id S.systemTime).goto (.alloc ms)))

/-- `reclaim_discarded_jobs`, with `discard_queue`, and `update_delegations` -/
inductive DiscardStep (cfg : Config) (c : Fin n) (S : Sys n) : Sys n → Prop
  | discard {j : JobId n} (h : (S.core c).pc = .reclaimHand j)
      (hf : (S.job j).isBeingOffered = false) (hl : S.DiscardFree) :
      DiscardStep cfg c S
        (let r := { (S.job j).link with virtualDeadline := (S.job j).actualDeadline }
         { (S.setJob j r).goto c .reclaimLoop with
           discardQueue := insertBy (vdOf (S.job.set j r)) j S.discardQueue })
  | lock (h : (S.core c).pc = .reclaimLock) (hl : S.DiscardFree) :
      DiscardStep cfg c S (S.goto c (.reclaimQueue 0))
  | keep {k : ℕ} {j : JobId n} (h : (S.core c).pc = .reclaimQueue k)
      (hj : S.discardQueue[k]? = some j) : DiscardStep cfg c S (S.goto c (.reclaimQueue (k + 1)))
  /-- `is_admissible_locked` holds -/
  | accommodate {k : ℕ} {j : JobId n} (h : (S.core c).pc = .reclaimQueue k)
      (hj : S.discardQueue[k]? = some j) :
      DiscardStep cfg c S
        { (S.setJob j (S.job j).link).setCore c
            { (S.core c).addByKind S.job j with decisionPoint := true, pc := .reclaimQueue k } with
          discardQueue := S.discardQueue.eraseIdx k }
  | done {k : ℕ} (h : (S.core c).pc = .reclaimQueue k) (hj : S.discardQueue[k]? = none) :
      DiscardStep cfg c S (S.goto c (if cfg.enableMigration then .updateDelegations else .select))
  | ack {a : DelegationAck} {q : TicketQueue DelegationAck} (h : (S.core c).pc = .updateDelegations)
      (hq : (S.delegationAckQueue c).tryDequeue = some (a, q)) :
      DiscardStep cfg c S
        { S.setCore c
            { S.core c with
              delegatedJobQueue := updateDelegation a (S.core c).delegatedJobQueue } with
          delegationAckQueue := Function.update S.delegationAckQueue c q }
  | acked (h : (S.core c).pc = .updateDelegations)
      (hq : (S.delegationAckQueue c).tryDequeue = none) : DiscardStep cfg c S (S.goto c .push)

/-- `try_offload_jobs_from_queue`, `attempt_future_load_shedding` -/
inductive OfferStep (cfg : Config) (c : Fin n) (S : Sys n) : Sys n → Prop
  | exchange {replica : Bool} {k : ℕ} {j : JobId n} (h : (S.core c).pc = .offer replica k)
      (hj : ((S.core c).queue replica)[k]? = some j)
      (hp : isMigrationProfitable (S.job j) S.systemTime)
      (hf : (S.job j).isBeingOffered = false) :
      OfferStep cfg c S
        ((S.setJob j { S.job j with isBeingOffered := true }).goto c (.offerTarget j replica k))
  /-- `find_best_core_for_migration` finds no other core -/
  | withdraw {j : JobId n} {replica : Bool} {k : ℕ} (h : (S.core c).pc = .offerTarget j replica k) :
      OfferStep cfg c S
        ((S.setJob j { S.job j with isBeingOffered := false }).goto c (.offer replica (k + 1)))
  | getRef {j : JobId n} {dest : Fin n} {replica : Bool} {k : ℕ}
      (h : (S.core c).pc = .offerTarget j replica k) (hd : dest ≠ c) :
      OfferStep cfg c S
        ((S.setJob j { S.job j with refcount := (S.job j).refcount + 1 }).goto c
          (.offerClaim j dest replica k))
  | claim {j : JobId n} {dest : Fin n} {replica : Bool} {k : ℕ}
      (h : (S.core c).pc = .offerClaim j dest replica k) :
      OfferStep cfg c S
        { S.goto c (.offerPublish dest (S.migrationRequestQueue dest).tail replica k) with
          migrationRequestQueue := Function.update S.migrationRequestQueue dest
            ((S.migrationRequestQueue dest).claim ⟨j, c⟩) }
  | publish {dest : Fin n} {t : ℕ} {replica : Bool} {k : ℕ}
      (h : (S.core c).pc = .offerPublish dest t replica k)
      (hf : (S.migrationRequestQueue dest).Free maxMigrationRequests t) :
      OfferStep cfg c S
        { S.goto c (.offer replica (k + 1)) with
          migrationRequestQueue := Function.update S.migrationRequestQueue dest
            ((S.migrationRequestQueue dest).publish t) }
  | createFuture {m : TaskAlloc} {ms : List TaskAlloc} {task : Task} {j : JobId n} {S' : Sys n}
      {acet : ℚ} (h : (S.core c).pc = .future (m :: ms))
      (ho : (S.core c).offersFuture (S.ctx cfg c) m task) (hj : S.takeFree c = some (j, S')) :
      OfferStep cfg c S
        ((S'.setJob j
            (futureJob c (futureArrival S.systemTime task) (S.core c).localCriticalityLevel m task
              acet)).goto c (.futureHand j ms))
  | sendFuture {j : JobId n} {ms : List TaskAlloc} {dest : Fin n} {dj : DelegatedJob}
      {rest : List DelegatedJob} (h : (S.core c).pc = .futureHand j ms) (hd : dest ≠ c)
      (hr : (S.core c).delegatedFreeList = dj :: rest) :
      OfferStep cfg c S
        (S.setCore c
          { S.core c with
            delegatedFreeList := rest
            delegatedJobQueue := addDelegationSorted
              { dj with
                taskId := (S.job j).parentTask.id
                arrivalTick := (S.job j).arrivalTime
                ownedByRemote := false }
              (S.core c).delegatedJobQueue
            pc := .futureClaim j dest ms })
  | claimFuture {j : JobId n} {dest : Fin n} {ms : List TaskAlloc}
      (h : (S.core c).pc = .futureClaim j dest ms) :
      OfferStep cfg c S
        { S.goto c (.futurePublish dest (S.migrationRequestQueue dest).tail ms) with
          migrationRequestQueue := Function.update S.migrationRequestQueue dest
            ((S.migrationRequestQueue dest).claim ⟨j, c⟩) }
  | publishFuture {dest : Fin n} {t : ℕ} {ms : List TaskAlloc}
      (h : (S.core c).pc = .futurePublish dest t ms)
      (hf : (S.migrationRequestQueue dest).Free maxMigrationRequests t) :
      OfferStep cfg c S
        { S.setCore c
            { S.core c with
              nextMigrationEligibleTick := S.systemTime + coreMigrationCooldownTicks
              pc := .future ms } with
          migrationRequestQueue := Function.update S.migrationRequestQueue dest
            ((S.migrationRequestQueue dest).publish t) }

/-- `process_migration_requests` -/
inductive RequestStep (cfg : Config) (c : Fin n) (S : Sys n) : Sys n → Prop
  | dequeue {r : MigrationRequest n} {q : TicketQueue (MigrationRequest n)}
      (h : (S.core c).pc = .process) (hq : (S.migrationRequestQueue c).tryDequeue = some (r, q)) :
      RequestStep cfg c S
        { S.goto c (.procLock1 r) with
          migrationRequestQueue := Function.update S.migrationRequestQueue c q }
  | done (h : (S.core c).pc = .process) (hq : (S.migrationRequestQueue c).tryDequeue = none) :
      RequestStep cfg c S (S.goto c .select)
  /-- the job is not admissible, or it is neither a future job nor a queued one -/
  | reject {r : MigrationRequest n} (h : (S.core c).pc = .procDecide r) :
      RequestStep cfg c S
        ((S.setJob r.job { S.job r.job with isBeingOffered := false }).goto c (.procReject r))
  | acceptFuture {r : MigrationRequest n} (h : (S.core c).pc = .procDecide r)
      (hi : (S.job r.job).state = .idle ∧ (S.job r.job).arrivalTime > S.systemTime) :
      RequestStep cfg c S
        ((S.setJob r.job ((S.job r.job).retune (S.core c).localCriticalityLevel).link).setCore c
          { S.core c with
            pendingJobsQueue := insertBy (arrivalOf S.job) r.job (S.core c).pendingJobsQueue
            pc := .procAckClaim r })
  | accept {r : MigrationRequest n} (h : (S.core c).pc = .procDecide r)
      (hi : ¬ ((S.job r.job).state = .idle ∧ (S.job r.job).arrivalTime > S.systemTime))
      (hl : (S.job r.job).linked = true ∧ (S.job r.job).state = .ready) :
      RequestStep cfg c S ((S.listDel r.job).goto c (.procInsert r))
  | ackClaim {r : MigrationRequest n} (h : (S.core c).pc = .procAckClaim r) :
      RequestStep cfg c S
        { S.goto c (.procAckPublish r (S.delegationAckQueue r.fromCore).tail) with
          delegationAckQueue := Function.update S.delegationAckQueue r.fromCore
            ((S.delegationAckQueue r.fromCore).claim (acceptAck (S.job r.job))) }
  | ackPublish {r : MigrationRequest n} {t : ℕ} (h : (S.core c).pc = .procAckPublish r t)
      (hf : (S.delegationAckQueue r.fromCore).Free maxFutureDelegations t) :
      RequestStep cfg c S
        { (S.setJob r.job
            { S.job r.job with
              isBeingOffered := false
              nextMigrationEligibleTick := S.systemTime + jobMigrationCooldownTicks }).goto c
            .process with
          delegationAckQueue := Function.update S.delegationAckQueue r.fromCore
            ((S.delegationAckQueue r.fromCore).publish t) }
  | clear {r : MigrationRequest n} (h : (S.core c).pc = .procClear r) :
      RequestStep cfg c S
        ((S.setJob r.job { S.job r.job with isBeingOffered := false }).goto c (.procPut r))
  | putReject {r : MigrationRequest n} (h : (S.core c).pc = .procReject r) :
      RequestStep cfg c S ((S.goto c .process).putJobRef (some c) r.job)
  | putAccept {r : MigrationRequest n} (h : (S.core c).pc = .procPut r) :
      RequestStep cfg c S
        (((S.setJob r.job
            { S.job r.job with
              nextMigrationEligibleTick := S.systemTime + jobMigrationCooldownTicks }).goto c
            .process).putJobRef (some c) r.job)

/-- A step of core `c`. -/
inductive CoreStep (cfg : Config) (c : Fin n) (S : Sys n) (S' : Sys n) : Prop
  | own {K' : Core n} {J' : Jobs n} (h : LocalStep (S.ctx cfg c) (S.core c) S.job K' J')
      (he : S' = { S.setCore c K' with job := J' })
  | arrive (h : ArriveStep cfg c S S')
  | discard (h : DiscardStep cfg c S S')
  | offer (h : OfferStep cfg c S S')
  | request (h : RequestStep cfg c S S')

/-! ## The timer, and the processor -/

/-- `MESSAGE_QUEUE_SIZE` -/
def messageQueueSize : ℕ := 64

/-- `timer_thread_func`, while all cores wait at `core_completion_barrier` -/
inductive TimerStep (cfg : Config) (S : Sys n) : Sys n → Prop
  | sweep (h : S.timer = .idle) (ha : ∀ c, (S.core c).pc = .arrived) :
      TimerStep cfg S { S with timer := .sweep 0 }
  | keep {k : ℕ} {j : JobId n} (h : S.timer = .sweep k) (hj : S.discardQueue[k]? = some j)
      (ht : ¬ (S.job j).actualDeadline ≤ S.systemTime) :
      TimerStep cfg S { S with timer := .sweep (k + 1) }
  | expire {k : ℕ} {j : JobId n} (h : S.timer = .sweep k) (hj : S.discardQueue[k]? = some j)
      (ht : (S.job j).actualDeadline ≤ S.systemTime) :
      TimerStep cfg S
        { S.setJob j (S.job j).unlink with
          discardQueue := S.discardQueue.eraseIdx k, timer := .sweepPut j k }
  | put {k : ℕ} {j : JobId n} (h : S.timer = .sweepPut j k) :
      TimerStep cfg S ({ S with timer := .sweep k }.putJobRef none j)
  /-- The messages of the other processors are in, and the next tick starts;
      after a deadline miss the threads leave their loops instead. -/
  | advance {k level : ℕ} {incoming : List CompletionMessage} (h : S.timer = .sweep k)
      (hj : S.discardQueue[k]? = none) (hf : S.coreFatalShutdownRequested = false)
      (hl : level = S.systemCriticalityLevel ∨
        S.systemCriticalityLevel < level ∧ level < cfg.maxCriticalityLevels) :
      TimerStep cfg S
        { S with
          core := fun c => (S.core c).goto .start
          timer := .idle
          systemTime := S.systemTime + 1
          systemCriticalityLevel := level
          incoming := incoming
          outgoing := S.outgoing.drop messageQueueSize }

/-- Who takes a step. -/
inductive Label (n : ℕ) where
  | core (c : Fin n)
  | timer

/-- The `rq_lock` the core waits for is free. -/
def Sys.Unblocked (S : Sys n) (c : Fin n) : Prop := ∀ l, (S.core c).pc.wants c = some l → S.LockFree c l

/-- On one core nobody else has the lock. -/
theorem Sys.unblocked_one (S : Sys 1) (c : Fin 1) : S.Unblocked c :=
  fun _ _ e he => absurd (Subsingleton.elim e c) he

/-- **One step of a processor.** -/
inductive Step (cfg : Config) (S : Sys n) : Label n → Sys n → Prop
  | core {c : Fin n} {S' : Sys n} (hl : S.Unblocked c) (h : CoreStep cfg c S S') :
      Step cfg S (.core c) S'
  | timer {S' : Sys n} (h : TimerStep cfg S S') : Step cfg S .timer S'

/-! ## The start -/

/-- A job record before its first use -/
def JobRec.blank : JobRec :=
  { parentTask := ⟨0, 0, 0, fun _ => 0, 0⟩
    arrivalTime := 0
    relativeTunedDeadlines := fun _ => 0
    actualDeadline := 0
    virtualDeadline := 0
    wcet := 0
    acet := 0
    executedTime := 0
    jobPoolId := 0
    isReplica := false
    state := .idle
    nextMigrationEligibleTick := 0
    linked := false
    refcount := 0
    isBeingOffered := false }

/-- `init_migration`, for one core -/
def initDelegations : List DelegatedJob :=
  (List.finRange maxFutureDelegations).reverse.map fun node => ⟨node, 0, 0, false⟩

/-- `scheduler_init`, for one core -/
def Core.init (n : ℕ) : Core n :=
  { pc := .start
    readyQueue := []
    replicaQueue := []
    discardList := []
    pendingJobsQueue := []
    runningJob := none
    delegatedJobQueue := []
    delegatedFreeList := initDelegations
    nextMigrationEligibleTick := 0
    isIdle := true
    currentDvfsLevel := 0
    localCriticalityLevel := 0
    decisionPoint := false
    inLowPowerState := false
    dpmStartTime := 0
    dpmEndTime := 0 }

/-- `processor_init`; `task_management_init` fills the free lists. -/
def Sys.init (n : ℕ) : Sys n :=
  { core := fun _ => Core.init n
    job := fun _ => JobRec.blank
    freeList := fun c => (List.finRange jobsPerCore).reverse.map fun k => (c, k)
    remoteFreeList := fun _ => []
    migrationRequestQueue := fun _ => .empty
    delegationAckQueue := fun _ => .empty
    discardQueue := []
    timer := .idle
    systemTime := 0
    systemCriticalityLevel := 0
    incoming := []
    outgoing := []
    coreFatalShutdownRequested := false }

/-- A state some run of the processor reaches. -/
def Reachable (cfg : Config) (S : Sys n) : Prop := Lts.Reachable (Step cfg) (Sys.init n) S

theorem Reachable.init (cfg : Config) : Reachable cfg (Sys.init n) := Lts.Reachable.refl

end EeftSched

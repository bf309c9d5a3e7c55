/-
  The state of one processor: its cores, its job pools, its queues and the
  point of its tick that each core has reached (`core_state` in
  `sched_core.h`, `core_job_pool` in `task_management.c`, the queues of
  `sched_migration.h`, `proc_state` in `processor.h`).

  A job is known by its pool and its place there.  A linked list is a list of
  jobs.  What a core has in its hands between taking a job from a list and
  putting it in another, and the request it is building or processing, are in
  its program point `Pc`; so are the locks it holds.

  * `Core.held`, `Core.reqs`: the jobs a core has a place for, and those it has
    requests for;
  * `Pc.holds`, `Pc.wants`: the `rq_lock`s a core holds and waits for.
-/
import EeftSched.Lib.TicketQueue
import EeftSched.Lib.SortedQueue
import EeftSched.Task
import Mathlib.Data.Finset.Basic
import Mathlib.Data.Multiset.AddSub

namespace EeftSched

/-- `JOBS_PER_CORE` -/
def jobsPerCore : ℕ := 50

/-- `MAX_MIGRATION_REQUESTS` -/
def maxMigrationRequests : ℕ := 32

/-- `MAX_FUTURE_DELEGATIONS` -/
def maxFutureDelegations : ℕ := 200

/-- A job of the pool of a core. -/
abbrev JobId (n : ℕ) := Fin n × Fin jobsPerCore

/-- `job_struct` -/
structure JobRec extends Job where
  /-- `link.prev` and `link.next` are not `NULL` -/
  linked : Bool
  refcount : ℤ
  isBeingOffered : Bool

/-- `delegated_job`; `node` is its place in `delegated_jobs_pool`. -/
structure DelegatedJob where
  node : Fin maxFutureDelegations
  arrivalTick : ℕ
  taskId : ℕ
  ownedByRemote : Bool

/-- `migration_request` -/
structure MigrationRequest (n : ℕ) where
  job : JobId n
  fromCore : Fin n

/-- `delegation_ack` -/
structure DelegationAck where
  taskId : ℕ
  arrivalTick : ℕ
  accepted : Bool

/-- `completion_message` -/
structure CompletionMessage where
  completedTaskId : ℕ
  jobArrivalTime : ℕ
  systemTime : ℕ

/-- All job records. -/
abbrev Jobs (n : ℕ) := JobId n → JobRec

variable {n : ℕ}

/-- Where a core is in `scheduler_tick`.  A step of a core goes from one of
    these points to another. -/
inductive Pc (n : ℕ) where
  | start
  /-- `remove_completed_jobs`: the messages still to handle -/
  | cancel (msgs : List CompletionMessage)
  /-- it has looked at the first `k` jobs of a queue -/
  | cancelQueue (msg : CompletionMessage) (msgs : List CompletionMessage) (replica : Bool) (k : ℕ)
  | cancelPut (j : JobId n) (msg : CompletionMessage) (msgs : List CompletionMessage)
      (replica : Bool) (k : ℕ)
  | cancelRunPut (j : JobId n) (msgs : List CompletionMessage)
  /-- the comparison of the levels at the top of the tick -/
  | sync
  | syncReload
  /-- `handle_mode_change`, called by the synchronisation or by an overrun -/
  | modeStore (level : ℕ) (overrun : Bool)
  | modeBody (overrun : Bool)
  | lowPower
  /-- `handle_running_job` -/
  | run
  | missPut (j : JobId n)
  | missFatal
  /-- `handle_job_completion` -/
  | complete
  | completePut (j : JobId n)
  /-- `handle_job_arrivals`: at the `k`-th job of `pending_jobs_queue` -/
  | pending (k : ℕ)
  | pendingPut (j : JobId n) (k : ℕ)
  | pendingIns (j : JobId n) (k : ℕ)
  /-- `handle_job_arrivals`: the allocation entries still to handle -/
  | alloc (entries : List TaskAlloc)
  | allocIns (j : JobId n) (entries : List TaskAlloc)
  /-- `reclaim_discarded_jobs` -/
  | reclaim
  | reclaimLoop
  | reclaimHand (j : JobId n)
  | reclaimLock
  | reclaimQueue (k : ℕ)
  | updateDelegations
  /-- `attempt_migration_push` -/
  | push
  | pushCheck
  /-- `attempt_rq_load_shedding` -/
  | offerLock
  | offer (replica : Bool) (k : ℕ)
  | offerTarget (j : JobId n) (replica : Bool) (k : ℕ)
  | offerClaim (j : JobId n) (dest : Fin n) (replica : Bool) (k : ℕ)
  | offerPublish (dest : Fin n) (ticket : ℕ) (replica : Bool) (k : ℕ)
  /-- `attempt_future_load_shedding` -/
  | future (entries : List TaskAlloc)
  | futureHand (j : JobId n) (entries : List TaskAlloc)
  | futureClaim (j : JobId n) (dest : Fin n) (entries : List TaskAlloc)
  | futurePublish (dest : Fin n) (ticket : ℕ) (entries : List TaskAlloc)
  /-- `process_migration_requests` -/
  | process
  | procLock1 (r : MigrationRequest n)
  | procLock2 (r : MigrationRequest n)
  | procDecide (r : MigrationRequest n)
  | procReject (r : MigrationRequest n)
  | procInsert (r : MigrationRequest n)
  | procAckClaim (r : MigrationRequest n)
  | procAckPublish (r : MigrationRequest n) (ticket : ℕ)
  | procClear (r : MigrationRequest n)
  | procPut (r : MigrationRequest n)
  /-- `select_next_job` -/
  | select
  | dispatch (j : JobId n)
  /-- the job of this tick is chosen -/
  | dispatched
  /-- `power_management_try_procrastination` -/
  | procrastinate
  | dvfs
  | dpm
  | summary
  /-- waits at `core_completion_barrier` -/
  | arrived

/-- `core_state`; the request and ack queues, which other cores write, are
    kept beside it in `Sys`. -/
structure Core (n : ℕ) where
  pc : Pc n
  readyQueue : List (JobId n)
  replicaQueue : List (JobId n)
  discardList : List (JobId n)
  pendingJobsQueue : List (JobId n)
  runningJob : Option (JobId n)
  delegatedJobQueue : List DelegatedJob
  /-- `delegated_jobs_free_list` -/
  delegatedFreeList : List DelegatedJob
  nextMigrationEligibleTick : ℕ
  isIdle : Bool
  currentDvfsLevel : ℕ
  localCriticalityLevel : ℕ
  decisionPoint : Bool
  inLowPowerState : Bool
  dpmStartTime : ℕ
  dpmEndTime : ℕ

/-- The timer is elsewhere, or sweeps the discard queue. -/
inductive TimerPc (n : ℕ) where
  | idle
  | sweep (k : ℕ)
  | sweepPut (j : JobId n) (k : ℕ)

/-- The state of a processor. -/
structure Sys (n : ℕ) where
  core : Fin n → Core n
  job : Jobs n
  freeList : Fin n → List (JobId n)
  remoteFreeList : Fin n → List (JobId n)
  migrationRequestQueue : Fin n → TicketQueue (MigrationRequest n)
  delegationAckQueue : Fin n → TicketQueue DelegationAck
  discardQueue : List (JobId n)
  timer : TimerPc n
  systemTime : ℕ
  systemCriticalityLevel : ℕ
  incoming : List CompletionMessage
  outgoing : List CompletionMessage
  coreFatalShutdownRequested : Bool

/-! ## What a core has -/

/-- The job in the hands of a core. -/
def Pc.hand : Pc n → Option (JobId n)
  | .cancelPut j _ _ _ _ | .cancelRunPut j _ | .missPut j | .completePut j | .pendingPut j _
  | .pendingIns j _ | .allocIns j _ | .reclaimHand j | .futureHand j _ | .dispatch j => some j
  | .procInsert r => some r.job
  | _ => none

/-- The job whose request a core is building or processing. -/
def Pc.request : Pc n → Option (JobId n)
  | .offerClaim j _ _ _ | .futureClaim j _ _ => some j
  | .procLock1 r | .procLock2 r | .procDecide r | .procReject r | .procInsert r | .procClear r
  | .procPut r => some r.job
  | _ => none

/-- The jobs with a place on the core. -/
def Core.held (K : Core n) : Multiset (JobId n) :=
  ↑K.readyQueue + ↑K.replicaQueue + ↑K.discardList + ↑K.pendingJobsQueue + ↑K.runningJob.toList +
    ↑K.pc.hand.toList

/-- The jobs in the lists of the core. -/
def Core.lists (K : Core n) : Multiset (JobId n) :=
  ↑K.readyQueue + ↑K.replicaQueue + ↑K.discardList + ↑K.pendingJobsQueue

/-- The ready queue or the replica queue. -/
def Core.queue (K : Core n) (replica : Bool) : List (JobId n) :=
  if replica then K.replicaQueue else K.readyQueue

def Core.setQueue (K : Core n) (replica : Bool) (l : List (JobId n)) : Core n :=
  if replica then { K with replicaQueue := l } else { K with readyQueue := l }

def TimerPc.hand : TimerPc n → Option (JobId n)
  | .sweepPut j _ => some j
  | _ => none

/-! ## Locks -/

/-- The `rq_lock`s a core holds. -/
def Pc.holds (c : Fin n) : Pc n → Finset (Fin n)
  | .cancelQueue .. | .cancelPut .. | .cancelRunPut .. | .missPut _ | .reclaimLoop | .reclaimHand _
  | .reclaimLock | .reclaimQueue _ | .offer .. | .offerTarget .. | .offerClaim ..
  | .offerPublish .. => {c}
  | .procLock2 r => {min c r.fromCore}
  | .procDecide r | .procReject r | .procInsert r | .procAckClaim r | .procAckPublish r _ =>
    {c, r.fromCore}
  | _ => ∅

/-- The `rq_lock` a core waits for. -/
def Pc.wants (c : Fin n) : Pc n → Option (Fin n)
  | .cancel (_ :: _) | .modeBody _ | .run | .complete | .pendingIns .. | .allocIns .. | .reclaim
  | .push | .pushCheck | .offerLock | .select | .dispatch _ | .procrastinate | .dvfs
  | .summary => some c
  | .procLock1 r => some (min c r.fromCore)
  | .procLock2 r => some (max c r.fromCore)
  | _ => none

/-- The core holds `discard_queue_lock`. -/
def Pc.holdsDiscard : Pc n → Bool
  | .reclaimQueue _ => true
  | _ => false

/-- The `rq_lock` of `l` is free for core `c`. -/
def Sys.LockFree (S : Sys n) (c l : Fin n) : Prop := ∀ e, e ≠ c → l ∉ (S.core e).pc.holds e

/-- `discard_queue_lock` is free for core `c`, or for the timer. -/
def Sys.DiscardFree (S : Sys n) : Prop :=
  (∀ e, (S.core e).pc.holdsDiscard = false) ∧ S.timer.hand = none ∧ ∀ k, S.timer ≠ .sweep k

end EeftSched

/-
  The job pools in memory (`task_management.c`).

  A pool has two lists through the `next_free` pointers of its jobs: the core
  that owns the pool takes jobs from one and puts its own back there, the others
  put theirs on the other one, with its lock.  A thread does one access after
  the other; what `create_job` does with the lock in its hands is one step,
  since nobody else looks at either list meanwhile.

  A reference may be in any hands; `refs` counts them.  The ids of the cores and
  the timer are `uint8_t`, the counts are below `INT_MAX`.

  * `Step`: `create_job`, `get_job_ref` and `put_job_ref`, by any thread;
  * `ListStep`: what a step does to the lists of nodes;
  * `Step.inv`: the lists in memory go through the steps of `ListStep`;
  * `pool_integrity`: at any time each job is on one list or live, and what
    `create_job` returns.
-/
import EeftSched.Processor
import EeftSched.Lib.LinkedList
import EeftSched.Lib.Exec

namespace EeftSched.JobPool

open Lts LinkedList

/-- A core, or the timer -/
abbrev Thread (n : ℕ) := Option (Fin n)

variable {n : ℕ}

/-- The `core_id` a thread passes; that of the timer is `NUM_CORES_PER_PROC`. -/
def coreId (θ : Thread n) : ℕ := θ.elim n Fin.val

/-- Where a thread is, between two calls or in one. -/
inductive Pc (n : ℕ) where
  | idle
  /-- `create_job`, at the test of `free_list` -/
  | create (task : Task)
  | createLock (task : Task)
  | takeOver (task : Task)
  | createUnlock (task : Task)
  | pop (task : Task)
  /-- the job is off the list, its fields are to be written -/
  | fill (j : JobId n) (task : Task)
  | count (j : JobId n)
  | offered (j : JobId n)
  /-- `__release_job_to_pool` -/
  | release (j : JobId n)
  | localNext (j : JobId n) (owner : Fin n)
  | localHead (j : JobId n) (owner : Fin n)
  | remoteLock (j : JobId n) (owner : Fin n)
  | remoteNext (j : JobId n) (owner : Fin n)
  | remoteHead (j : JobId n) (owner : Fin n)
  | remoteUnlock (owner : Fin n)

/-- `core_pools`, the jobs, and the threads -/
structure Pools (n : ℕ) where
  job : Jobs n
  nextFree : JobId n → Option (JobId n)
  freeList : Fin n → Option (JobId n)
  remoteFreeList : Fin n → Option (JobId n)
  remoteLock : Fin n → Option (Thread n)
  pc : Thread n → Pc n
  /-- the references that somebody holds -/
  refs : JobId n → ℕ

namespace Pools

def goto (S : Pools n) (θ : Thread n) (q : Pc n) : Pools n := { S with pc := Function.update S.pc θ q }

def setJob (S : Pools n) (j : JobId n) (r : JobRec) : Pools n := { S with job := S.job.set j r }

def setRefs (S : Pools n) (j : JobId n) (k : ℕ) : Pools n :=
  { S with refs := Function.update S.refs j k }

def setNext (S : Pools n) (j : JobId n) (p : Option (JobId n)) : Pools n :=
  { S with nextFree := Function.update S.nextFree j p }

def setFree (S : Pools n) (c : Fin n) (p : Option (JobId n)) : Pools n :=
  { S with freeList := Function.update S.freeList c p }

def setRemote (S : Pools n) (c : Fin n) (p : Option (JobId n)) : Pools n :=
  { S with remoteFreeList := Function.update S.remoteFreeList c p }

def setLock (S : Pools n) (c : Fin n) (θ : Option (Thread n)) : Pools n :=
  { S with remoteLock := Function.update S.remoteLock c θ }

/-- The loop over the jobs of pool `c` in `task_management_init` -/
def initPool (next : JobId n → Option (JobId n)) (c : Fin n) :
    (JobId n → Option (JobId n)) × Option (JobId n) :=
  Chain.pushAll ((List.finRange jobsPerCore).map fun k => (c, k)) (next, none)

/-- `task_management_init`, for the pools from `cores` -/
def initPools : List (Fin n) → Pools n → Pools n
  | [], S => S
  | c :: cores, S =>
    let (next, head) := initPool S.nextFree c
    initPools cores (({ S with nextFree := next }.setFree c head).setRemote c none)

/-- `task_management_init` -/
def taskManagementInit (n : ℕ) : Pools n :=
  initPools (List.finRange n)
    { job := fun _ => JobRec.blank
      nextFree := fun _ => none
      freeList := fun _ => none
      remoteFreeList := fun _ => none
      remoteLock := fun _ => none
      pc := fun _ => .idle
      refs := fun _ => 0 }

end Pools

/-- The steps that the results are about have labels of their own. -/
inductive Label (n : ℕ) where
  | call (c : Fin n)
  | takeOver (c : Fin n)
  | pop (c : Fin n) (j : JobId n)
  | result (c : Fin n) (r : Option (JobId n))
  | get (j : JobId n)
  | put (θ : Thread n) (j : JobId n)
  | push (θ : Thread n) (owner : Fin n) (j : JobId n)
  | other
deriving DecidableEq

/-- `new_job` with the fields that `create_job` writes before its count -/
def filled (r : JobRec) (parentTask : Task) (coreId : ℕ) : JobRec :=
  { r with
    parentTask := parentTask
    state := .idle
    jobPoolId := coreId
    nextMigrationEligibleTick := 0
    linked := true }

/-- One step of a thread.  References may change hands between the calls, so a
    thread may drop any that somebody holds, and take one more of a job that
    somebody holds. -/
inductive Step (S : Pools n) : Label n → Pools n → Prop
  | call {c : Fin n} (task : Task) (h : S.pc (some c) = .idle) :
      Step S (.call c) (S.goto (some c) (.create task))
  | empty {c : Fin n} {task : Task} (h : S.pc (some c) = .create task) (hf : S.freeList c = none) :
      Step S .other (S.goto (some c) (.createLock task))
  | nonempty {c : Fin n} {task : Task} (h : S.pc (some c) = .create task) (hf : S.freeList c ≠ none) :
      Step S .other (S.goto (some c) (.pop task))
  | createLock {c : Fin n} {task : Task} (h : S.pc (some c) = .createLock task)
      (hl : S.remoteLock c = none) :
      Step S .other ((S.setLock c (some (some c))).goto (some c) (.takeOver task))
  | takeOver {c : Fin n} {task : Task} (h : S.pc (some c) = .takeOver task) :
      Step S (.takeOver c)
        (((S.setFree c (S.remoteFreeList c)).setRemote c none).goto (some c) (.createUnlock task))
  | createUnlock {c : Fin n} {task : Task} (h : S.pc (some c) = .createUnlock task) :
      Step S .other ((S.setLock c none).goto (some c) (.pop task))
  /-- "Job pool exhausted" -/
  | exhausted {c : Fin n} {task : Task} (h : S.pc (some c) = .pop task) (hf : S.freeList c = none) :
      Step S (.result c none) (S.goto (some c) .idle)
  | pop {c : Fin n} {task : Task} {j : JobId n} (h : S.pc (some c) = .pop task)
      (hf : S.freeList c = some j) :
      Step S (.pop c j) ((S.setFree c (S.nextFree j)).goto (some c) (.fill j task))
  | fill {c : Fin n} {j : JobId n} {task : Task} (h : S.pc (some c) = .fill j task) :
      Step S .other ((S.setJob j (filled (S.job j) task (coreId (some c)))).goto (some c) (.count j))
  | count {c : Fin n} {j : JobId n} (h : S.pc (some c) = .count j) :
      Step S .other ((S.setJob j { S.job j with refcount := 1 }).goto (some c) (.offered j))
  /-- `create_job` returns the job, with a reference for its caller. -/
  | offered {c : Fin n} {j : JobId n} (h : S.pc (some c) = .offered j) :
      Step S (.result c (some j))
        (((S.setJob j { S.job j with isBeingOffered := false }).setRefs j (S.refs j + 1)).goto (some c)
          .idle)
  /-- `get_job_ref` -/
  | get {θ : Thread n} {j : JobId n} (h : S.pc θ = .idle) (hr : 0 < S.refs j) :
      Step S (.get j)
        ((S.setJob j { S.job j with refcount := (S.job j).refcount + 1 }).setRefs j (S.refs j + 1))
  /-- what else is done with a job that somebody holds -/
  | use {j : JobId n} {r : JobRec} (hr : 0 < S.refs j) (hc : r.refcount = (S.job j).refcount)
      (hp : r.jobPoolId = (S.job j).jobPoolId) : Step S .other (S.setJob j r)
  /-- `put_job_ref`, up to the test of the count it has found -/
  | put {θ : Thread n} {j : JobId n} (h : S.pc θ = .idle) (hr : 0 < S.refs j) :
      Step S (.put θ j)
        (((S.setJob j { S.job j with refcount := (S.job j).refcount - 1 }).setRefs j (S.refs j - 1)).goto θ
          (if (S.job j).refcount = 1 then .release j else .idle))
  | isLocal {θ : Thread n} {j : JobId n} {owner : Fin n} (h : S.pc θ = .release j)
      (ho : (S.job j).jobPoolId = owner) (hme : owner.val = coreId θ) :
      Step S .other (S.goto θ (.localNext j owner))
  | isRemote {θ : Thread n} {j : JobId n} {owner : Fin n} (h : S.pc θ = .release j)
      (ho : (S.job j).jobPoolId = owner) (hme : owner.val ≠ coreId θ) :
      Step S .other (S.goto θ (.remoteLock j owner))
  | localNext {θ : Thread n} {j : JobId n} {owner : Fin n} (h : S.pc θ = .localNext j owner) :
      Step S .other ((S.setNext j (S.freeList owner)).goto θ (.localHead j owner))
  | localHead {θ : Thread n} {j : JobId n} {owner : Fin n} (h : S.pc θ = .localHead j owner) :
      Step S (.push θ owner j) ((S.setFree owner (some j)).goto θ .idle)
  | remoteLock {θ : Thread n} {j : JobId n} {owner : Fin n} (h : S.pc θ = .remoteLock j owner)
      (hl : S.remoteLock owner = none) :
      Step S .other ((S.setLock owner (some θ)).goto θ (.remoteNext j owner))
  | remoteNext {θ : Thread n} {j : JobId n} {owner : Fin n} (h : S.pc θ = .remoteNext j owner) :
      Step S .other ((S.setNext j (S.remoteFreeList owner)).goto θ (.remoteHead j owner))
  | remoteHead {θ : Thread n} {j : JobId n} {owner : Fin n} (h : S.pc θ = .remoteHead j owner) :
      Step S (.push θ owner j) ((S.setRemote owner (some j)).goto θ (.remoteUnlock owner))
  | remoteUnlock {θ : Thread n} {owner : Fin n} (h : S.pc θ = .remoteUnlock owner) :
      Step S .other ((S.setLock owner none).goto θ .idle)

/-! ## What a thread has -/

/-- The job in the hands of a thread: it is on no list, and nobody has a
    reference. -/
def Pc.hand : Pc n → Option (JobId n)
  | .fill j _ | .count j | .offered j | .release j | .localNext j _ | .localHead j _ | .remoteLock j _
  | .remoteNext j _ | .remoteHead j _ => some j
  | _ => none

/-- The job that `put_job_ref` gives back -/
def Pc.giving : Pc n → Option (JobId n)
  | .release j | .localNext j _ | .localHead j _ | .remoteLock j _ | .remoteNext j _ | .remoteHead j _ =>
    some j
  | _ => none

/-- The pool whose lock a thread holds -/
def Pc.holds (θ : Thread n) : Pc n → Option (Fin n)
  | .takeOver _ | .createUnlock _ => θ
  | .remoteNext _ owner | .remoteHead _ owner | .remoteUnlock owner => some owner
  | _ => none

/-- A job is created, and not yet back on a list. -/
def Live (S : Pools n) (j : JobId n) : Prop := 0 < S.refs j ∨ ∃ θ, (S.pc θ).hand = some j

/-- `put_job_ref` has dropped the last reference, and the job is not yet back. -/
def Giving (S : Pools n) (j : JobId n) : Prop := ∃ θ, (S.pc θ).giving = some j

/-! ## The lists -/

/-- What a step does to the lists of nodes of the pools: `L` those of the
    owners, `R` the remote ones -/
inductive ListStep (L R : Fin n → List (JobId n)) :
    Label n → (Fin n → List (JobId n)) → (Fin n → List (JobId n)) → Prop
  | takeOver {c : Fin n} (h : L c = []) :
      ListStep L R (.takeOver c) (Function.update L c (R c)) (Function.update R c [])
  | pop {c : Fin n} {j : JobId n} {rest : List (JobId n)} (h : L c = j :: rest) :
      ListStep L R (.pop c j) (Function.update L c rest) R
  | pushLocal {j : JobId n} (h : j ∉ L j.1 ++ R j.1) :
      ListStep L R (.push (some j.1) j.1 j) (Function.update L j.1 (j :: L j.1)) R
  | pushRemote {θ : Thread n} {j : JobId n} (hθ : θ ≠ some j.1) (h : j ∉ L j.1 ++ R j.1) :
      ListStep L R (.push θ j.1 j) L (Function.update R j.1 (j :: R j.1))
  | call {c : Fin n} : ListStep L R (.call c) L R
  | result {c : Fin n} {r : Option (JobId n)} : ListStep L R (.result c r) L R
  | get {j : JobId n} : ListStep L R (.get j) L R
  | put {θ : Thread n} {j : JobId n} : ListStep L R (.put θ j) L R
  | other : ListStep L R .other L R

/-! ## The invariant -/

/-- What the point of a thread says about the memory -/
def PcOk (S : Pools n) (θ : Thread n) : Pc n → Prop
  | .idle | .remoteUnlock _ => True
  | .create _ | .createUnlock _ | .pop _ => ∃ c, θ = some c
  | .createLock _ | .takeOver _ => ∃ c, θ = some c ∧ S.freeList c = none
  | .fill j _ => θ = some j.1
  | .count j => θ = some j.1 ∧ (S.job j).jobPoolId = j.1
  | .offered j => θ = some j.1 ∧ (S.job j).jobPoolId = j.1 ∧ (S.job j).refcount = 1
  | .release j => (S.job j).jobPoolId = j.1
  | .localNext j owner => owner = j.1 ∧ θ = some owner
  | .localHead j owner => owner = j.1 ∧ θ = some owner ∧ S.nextFree j = S.freeList owner
  | .remoteLock j owner | .remoteNext j owner => owner = j.1 ∧ θ ≠ some owner
  | .remoteHead j owner => owner = j.1 ∧ θ ≠ some owner ∧ S.nextFree j = S.remoteFreeList owner

/-- The lists of the pools are `L` and `R`, and each job is on one of them, in
    the hands of one thread, or held by references. -/
structure Inv (S : Pools n) (L R : Fin n → List (JobId n)) : Prop where
  free : ∀ c, Chain S.nextFree (S.freeList c) (L c)
  remote : ∀ c, Chain S.nextFree (S.remoteFreeList c) (R c)
  own : ∀ c, ∀ j ∈ L c ++ R c, j.1 = c
  nodup : ∀ c, (L c ++ R c).Nodup
  hand : ∀ θ j, (S.pc θ).hand = some j → S.refs j = 0 ∧ j ∉ L j.1 ++ R j.1
  unique : ∀ θ η j, (S.pc θ).hand = some j → (S.pc η).hand = some j → η = θ
  counted : ∀ j, 0 < S.refs j → j ∉ L j.1 ++ R j.1 ∧ (S.job j).refcount = S.refs j ∧
    (S.job j).jobPoolId = j.1
  live : ∀ j, j ∉ L j.1 ++ R j.1 → Live S j
  pcs : ∀ θ, PcOk S θ (S.pc θ)
  lock : ∀ θ c, S.remoteLock c = some θ ↔ (S.pc θ).holds θ = some c

end EeftSched.JobPool

/-
  The sleep of a core, in any run of a processor (`scheduler_tick` in
  `sched_core.c`, `power_management.c`).

  A core that goes to sleep fixes the tick at which it wakes up.  While it sleeps
  its pending jobs and its records of delegations stay as they are, so that what
  was not due before that tick is not due later.

  * `Core.Ahead`: the pending jobs arrive at this tick or later, and later once
    `handle_job_arrivals` is past them;
  * `Core.Rested`: nothing is due before a sleeping core wakes up;
  * `no_release_slept_through`: the result for every run.
-/
import EeftSched.Delegations
import EeftSched.Dispatch
import EeftSched.NextArrival

namespace EeftSched

open SortedQueue Lts

variable {n : ℕ} {cfg : Config} {S S' : Sys n} {c d : Fin n} {K K' : Core n} {J J' : Jobs n}
  {j : JobId n} {r : JobRec} {X : Ctx n} {time : ℕ}

/-! ## Points of the tick -/

/-- Past the loop over the pending jobs -/
def Pc.late : Pc n → Bool
  | .start | .cancel _ | .cancelQueue .. | .cancelPut .. | .cancelRunPut .. | .sync | .syncReload
  | .modeStore .. | .modeBody _ | .lowPower | .run | .missPut _ | .missFatal | .complete
  | .completePut _ | .pending _ | .pendingPut .. | .pendingIns .. => false
  | _ => true

/-- Where a core may be in a low power state -/
def Pc.rests : Pc n → Bool
  | .start | .cancel _ | .cancelQueue .. | .cancelPut .. | .cancelRunPut .. | .sync | .syncReload
  | .modeStore _ false | .modeBody false | .lowPower | .summary | .arrived => true
  | _ => false

/-- The pending jobs that the loop has passed over -/
def Pc.passed : Pc n → ℕ
  | .pending k | .pendingPut _ k | .pendingIns _ k => k
  | _ => 0

/-! ## Pending jobs -/

/-- No pending job is overdue. -/
structure Core.Ahead (K : Core n) (J : Jobs n) (time : ℕ) : Prop where
  now : ∀ j ∈ K.pendingJobsQueue, time ≤ arrivalOf J j
  late : K.pc.late = true → ∀ j ∈ K.pendingJobsQueue, time < arrivalOf J j
  passed : K.pc.passed = 0

/-- Pending jobs may leave, and the core goes on in the same half of the tick. -/
theorem Core.Ahead.keep (h : K.Ahead J time) (hsub : K'.pendingJobsQueue.Sublist K.pendingJobsQueue)
    (hJ : ∀ j ∈ K'.pendingJobsQueue, arrivalOf J' j = arrivalOf J j)
    (hl : K'.pc.late = true → K.pc.late = true) (hp : K'.pc.passed = 0) : K'.Ahead J' time := by
  refine ⟨fun j hj => ?_, fun hlate j hj => ?_, hp⟩
  · rw [hJ j hj]
    exact h.now j (hsub.subset hj)
  · rw [hJ j hj]
    exact h.late (hl hlate) j (hsub.subset hj)

/-- The loop is over: the first pending job arrives later, and so do the others. -/
theorem Core.Ahead.pendingEnd (h : K.Ahead J time) {k : ℕ} (hp : K.pc = .pending k)
    (hs : SortedBy (arrivalOf J) K.pendingJobsQueue)
    (hj : ∀ j, K.pendingJobsQueue[k]? = some j → (J j).arrivalTime > time) :
    ∀ j ∈ K.pendingJobsQueue, time < arrivalOf J j := by
  have hk : k = 0 := by
    have hpassed := h.passed
    rw [hp] at hpassed
    exact hpassed
  subst hk
  cases hq : K.pendingJobsQueue with
  | nil => nofun
  | cons i l =>
    rw [hq] at hs hj
    have hi : time < arrivalOf J i := hj i rfl
    rintro j (_ | ⟨_, hm⟩)
    · exact hi
    · exact hi.trans_le ((List.pairwise_cons.1 hs).1 j hm)

theorem Core.addArrival_pending (K : Core n) (J : Jobs n) (j : JobId n) :
    (K.addArrival J j).pendingJobsQueue = K.pendingJobsQueue := by
  unfold addArrival
  split_ifs
  · rfl
  · exact K.addByKind_pendingJobsQueue J j

theorem setDpmInterval_pending (systemTime : ℕ) (K : Core n) (nextArrivalTime : ℕ) :
    (setDpmInterval systemTime K nextArrivalTime).pendingJobsQueue = K.pendingJobsQueue := by
  unfold setDpmInterval
  split_ifs <;> rfl

theorem Core.preempt_pending (K : Core n) (J : Jobs n) (j : JobId n) :
    (K.preempt J j).pendingJobsQueue = K.pendingJobsQueue := K.addByKind_pendingJobsQueue J j

theorem modeChangeSection_pending (K : Core n) (J : Jobs n) :
    (modeChangeSection K J).1.pendingJobsQueue = K.pendingJobsQueue := by
  have hpreempt : (preemptRunning K J).1.pendingJobsQueue = K.pendingJobsQueue := by
    unfold preemptRunning
    split
    · exact K.preempt_pending J _
    · rfl
  exact hpreempt

theorem Core.sublist_of_pending (h : K'.pendingJobsQueue = K.pendingJobsQueue) :
    K'.pendingJobsQueue.Sublist K.pendingJobsQueue := by
  rw [h]

/-- A step of the core alone adds no pending job, and takes one out only at its
    tick or after it. -/
theorem LocalStep.pending_cases (hs : LocalStep X K J K' J') :
    K'.pendingJobsQueue = K.pendingJobsQueue ∨
      ∃ k j, K.pc = .pending k ∧ K.pendingJobsQueue[k]? = some j ∧
        (J j).arrivalTime ≤ X.systemTime ∧ K'.pendingJobsQueue = K.pendingJobsQueue.eraseIdx k ∧
        ((J j).arrivalTime = X.systemTime → K'.pc = .pendingIns j k) := by
  cases hs with
  | cancel hs =>
    cases hs with
    | remove _ _ _ => exact .inl (K.setQueue_pendingJobsQueue _ _)
    | _ => exact .inl rfl
  | sync hs =>
    cases hs with
    | modeBody _ => exact .inl (modeChangeSection_pending K J)
    | _ => exact .inl rfl
  | run hs => cases hs <;> exact .inl rfl
  | arrival hs =>
    cases hs with
    | @drop k j hp hj ht _ => exact .inr ⟨k, j, hp, hj, ht.le, rfl, fun he => absurd he ht.ne⟩
    | @due k j hp hj ht => exact .inr ⟨k, j, hp, hj, ht.le, rfl, fun _ => rfl⟩
    | pendingIns _ | allocIns _ => exact .inl (K.addArrival_pending J _)
    | _ => exact .inl rfl
  | reclaim hs =>
    cases hs with
    | accommodate _ => exact .inl (K.addByKind_pendingJobsQueue J _)
    | _ => exact .inl rfl
  | push hs => cases hs <;> exact .inl rfl
  | process hs =>
    cases hs with
    | insert _ _ => exact .inl (K.addByKind_pendingJobsQueue _ _)
    | _ => exact .inl rfl
  | dispatch hs =>
    cases hs with
    | pop _ _ _ _ => exact .inl (K.setQueue_pendingJobsQueue _ _)
    | switch _ _ => exact .inl (K.addByKind_pendingJobsQueue J _)
    | _ => exact .inl rfl
  | power hs =>
    cases hs with
    | procrastinate _ _ _ _ _ =>
      refine .inl ?_
      simp only [Core.goto]
      split_ifs
      · rw [setDpmInterval_pending, Core.preempt_pending]
      · rw [Core.preempt_pending]
    | dpm _ =>
      refine .inl ?_
      simp only [Core.goto]
      split_ifs
      · rw [setDpmInterval_pending]
      · rfl
    | _ => exact .inl rfl

theorem LocalStep.pending (hs : LocalStep X K J K' J') :
    K'.pendingJobsQueue.Sublist K.pendingJobsQueue := by
  rcases hs.pending_cases with he | ⟨k, j, -, -, -, he, -⟩
  · rw [he]
  · rw [he]
    exact List.eraseIdx_sublist ..

/-- The jobs that arrive later stay. -/
theorem LocalStep.mem_pending (hs : LocalStep X K J K' J') (hj : j ∈ K.pendingJobsQueue)
    (ht : X.systemTime < (J j).arrivalTime) : j ∈ K'.pendingJobsQueue := by
  rcases hs.pending_cases with he | ⟨k, i, -, hi, hle, he, -⟩
  · rwa [he]
  · rw [← Multiset.mem_coe, coe_eraseIdx hi, Multiset.mem_cons] at hj
    rcases hj with rfl | hj
    · exact absurd ht (not_lt.2 hle)
    · rwa [he, ← Multiset.mem_coe]

/-- A step of the core alone passes the loop at its end, or in the sleep. -/
theorem LocalStep.late (hs : LocalStep X K J K' J') :
    (K.pc.late || !K'.pc.late) = true ∨
      (∃ k, K.pc = .pending k ∧
        ∀ j, K.pendingJobsQueue[k]? = some j → (J j).arrivalTime > X.systemTime) ∨
      (K.pc = .lowPower ∧ K.inLowPowerState = true ∧ X.systemTime < K.dpmEndTime) := by
  cases hs with
  | cancel hs => cases hs <;> exact .inl (by rw [‹K.pc = _›]; rfl)
  | sync hs =>
    cases hs with
    | sleep hp hl ht => exact .inr (.inr ⟨hp, hl, ht⟩)
    | start hp =>
      refine .inl ?_
      rw [hp, Core.goto_pc]
      split_ifs <;> rfl
    | modeBody hp =>
      refine .inl ?_
      rw [hp, Core.goto_pc]
      split_ifs <;> rfl
    | _ => exact .inl (by rw [‹K.pc = _›]; rfl)
  | run hs => cases hs <;> exact .inl (by rw [‹K.pc = _›]; rfl)
  | arrival hs =>
    cases hs with
    | pendingEnd hp hj => exact .inr (.inl ⟨_, hp, hj⟩)
    | _ => exact .inl (by rw [‹K.pc = _›]; rfl)
  | reclaim hs => cases hs <;> exact .inl (by rw [‹K.pc = _›]; rfl)
  | push hs => cases hs <;> exact .inl (by rw [‹K.pc = _›]; rfl)
  | process hs => cases hs <;> exact .inl (by rw [‹K.pc = _›]; rfl)
  | dispatch hs => cases hs <;> exact .inl (by rw [‹K.pc = _›]; rfl)
  | power hs => cases hs <;> exact .inl (by rw [‹K.pc = _›]; rfl)

/-- A step of the core alone passes over a pending job only if it is overdue. -/
theorem LocalStep.passed (hs : LocalStep X K J K' J') (h : K.Ahead J X.systemTime) :
    K'.pc.passed = 0 := by
  cases hs with
  | arrival hs =>
    cases hs with
    | @missed k j hp hj ht _ =>
      have hnow := h.now j (List.mem_of_getElem? hj)
      exact absurd ht (not_lt.2 hnow)
    | drop hp _ _ _ =>
      have hpassed := h.passed
      rw [hp] at hpassed
      exact hpassed
    | due hp _ _ =>
      have hpassed := h.passed
      rw [hp] at hpassed
      exact hpassed
    | pendingIns hp =>
      have hpassed := h.passed
      rw [hp] at hpassed
      exact hpassed
    | _ => rfl
  | sync hs =>
    cases hs with
    | start _ =>
      rw [Core.goto_pc]
      split_ifs <;> rfl
    | modeBody _ =>
      rw [Core.goto_pc]
      split_ifs <;> rfl
    | _ => rfl
  | process hs =>
    cases hs with
    | lock1 _ =>
      rw [Core.goto_pc]
      split_ifs <;> rfl
    | _ => rfl
  | power hs =>
    cases hs with
    | begin _ =>
      rw [Core.goto_pc]
      split_ifs <;> rfl
    | _ => rfl
  | cancel hs => cases hs <;> rfl
  | run hs => cases hs <;> rfl
  | reclaim hs => cases hs <;> rfl
  | push hs => cases hs <;> rfl
  | dispatch hs => cases hs <;> rfl

/-- **A step of the core alone keeps the pending jobs ahead**, provided that they
    are while it sleeps. -/
theorem LocalStep.ahead (hs : LocalStep X K J K' J') (hK : K.Ok J)
    (hkept : ∀ j, (J j).Kept (J' j)) (h : K.Ahead J X.systemTime)
    (hsleep : K.pc = .lowPower → K.inLowPowerState = true → X.systemTime < K.dpmEndTime →
      ∀ j ∈ K.pendingJobsQueue, X.systemTime < arrivalOf J j) : K'.Ahead J' X.systemTime := by
  have hJ : ∀ j, arrivalOf J' j = arrivalOf J j := fun j => (hkept j).arrival
  have hlater : (∀ j ∈ K.pendingJobsQueue, X.systemTime < arrivalOf J j) → K'.Ahead J' X.systemTime := by
    intro hall
    refine ⟨fun j hj => ?_, fun _ j hj => ?_, hs.passed h⟩
    · rw [hJ]
      exact h.now j (hs.pending.subset hj)
    · rw [hJ]
      exact hall j (hs.pending.subset hj)
  rcases hs.late with hl | ⟨k, hp, hj⟩ | ⟨hp, hlow, ht⟩
  · refine h.keep hs.pending (fun j _ => hJ j) (fun hlate => ?_) (hs.passed h)
    rw [hlate, Bool.not_true, Bool.or_false] at hl
    exact hl
  · exact hlater (h.pendingEnd hp hK.queues.sortedPending hj)
  · exact hlater (hsleep hp hlow ht)

/-! ## What is due -/

/-- At `t` a pending job arrives, or a task that the core still runs has a release
    that is not delegated. -/
def Core.Due (K : Core n) (cfg : Config) (c : Fin n) (J : Jobs n) (t : ℕ) : Prop :=
  (∃ j ∈ K.pendingJobsQueue, arrivalOf J j = t) ∨
  ∃ m ∈ cfg.entries c, ∃ task, cfg.findTaskById m.taskId = some task ∧ 0 < task.period ∧
    K.localCriticalityLevel ≤ task.critLevel ∧ task.period ∣ t ∧
    ¬Delegated K.delegatedJobQueue task.id t

/-- Nothing more is due when jobs leave or the level rises. -/
theorem Core.Due.mono {t : ℕ} (h : K'.Due cfg c J' t)
    (hpend : K'.pendingJobsQueue.Sublist K.pendingJobsQueue)
    (hJ : ∀ j ∈ K.pendingJobsQueue, arrivalOf J' j = arrivalOf J j)
    (hd : K'.delegatedJobQueue = K.delegatedJobQueue)
    (hl : K.localCriticalityLevel ≤ K'.localCriticalityLevel) : K.Due cfg c J t := by
  rcases h with ⟨j, hj, ht⟩ | ⟨m, hm, task, hfind, hp, hcrit, hdvd, hfree⟩
  · have hj' := hpend.subset hj
    exact .inl ⟨j, hj', (hJ j hj').symm.trans ht⟩
  · rw [hd] at hfree
    exact .inr ⟨m, hm, task, hfind, hp, hl.trans hcrit, hdvd, hfree⟩

/-- What is due after now is not before the next effective arrival. -/
theorem Core.Due.le {t : ℕ} (h : K.Due X.cfg X.coreId J t)
    (hs : SortedBy (·.arrivalTick) K.delegatedJobQueue) (ht : X.systemTime < t) :
    findNextEffectiveArrivalTime X K J ≤ t := by
  have hbound := (findNextEffectiveArrivalTime_bounds (X := X) (J := J) hs).2.2
  rcases h with ⟨j, hj, rfl⟩ | ⟨m, hm, task, hfind, hp, hcrit, hdvd, hfree⟩
  · exact hbound _ (.inl ⟨j, hj, rfl, ht⟩)
  · -- the first release that is not delegated is no later
    let free := fun x => X.systemTime < x ∧ task.period ∣ x ∧ ¬Delegated K.delegatedJobQueue task.id x
    have hex : ∃ x, free x := ⟨t, ht, hdvd, hfree⟩
    classical
    have hleast : IsLeast { x | free x } (Nat.find hex) :=
      ⟨Nat.find_spec hex, fun x hx => Nat.find_min' hex hx⟩
    exact (hbound _ (.inr ⟨m, hm, task, hfind, hp, hcrit, hleast⟩)).trans (Nat.find_min' hex ⟨ht, hdvd, hfree⟩)

/-- The next effective arrival is after now, if there is one. -/
theorem lt_findNextEffectiveArrivalTime (hs : SortedBy (·.arrivalTick) K.delegatedJobQueue) :
    findNextEffectiveArrivalTime X K J = uint32Max ∨
      X.systemTime < findNextEffectiveArrivalTime X K J := by
  rcases (findNextEffectiveArrivalTime_bounds (X := X) (J := J) hs).2.1 with he | ⟨j, -, -, hlt⟩ | hrel
  · exact .inl he
  · exact .inr hlt
  · obtain ⟨m, -, task, -, -, -, hleast⟩ := hrel
    exact .inr hleast.1.1

/-! ## The sleep -/

/-- What a sleeping core has fixed -/
def Core.rest (K : Core n) : List DelegatedJob × Bool × ℕ × ℕ :=
  (K.delegatedJobQueue, K.inLowPowerState, K.dpmStartTime, K.dpmEndTime)

/-- A core in a low power state is at a point where it may be so, and nothing is
    due before it wakes up. -/
structure Core.Rested (K : Core n) (cfg : Config) (c : Fin n) (J : Jobs n) (time : ℕ) : Prop where
  rests : K.inLowPowerState = true → K.pc.rests = true
  began : K.inLowPowerState = true → K.dpmStartTime ≤ time
  before : K.inLowPowerState = true → K.pc.late = false → K.dpmStartTime < time
  free : K.inLowPowerState = true →
    ∀ t, K.dpmStartTime < t → t < K.dpmEndTime → ¬K.Due cfg c J t

theorem Core.Rested.of_awake (h : K.inLowPowerState = false) : K.Rested cfg c J time := by
  have hno : K.inLowPowerState ≠ true := by
    rw [h]
    exact Bool.false_ne_true
  exact ⟨fun hl => absurd hl hno, fun hl => absurd hl hno, fun hl => absurd hl hno, fun hl => absurd hl hno⟩

/-- What a step of a core does to its sleep. -/
inductive SleepStep (X : Ctx n) (K : Core n) (J : Jobs n) (K' : Core n) : Prop
  | awake (hp : K.pc.rests = false) (he : K'.inLowPowerState = K.inLowPowerState)
  | woken (he : K'.inLowPowerState = false)
  | sleeps (hp : K'.pc.rests = true) (he : K'.rest = K.rest)
      (hpend : K'.pendingJobsQueue.Sublist K.pendingJobsQueue)
      (hl : (!K.pc.late || K'.pc.late) = true)
  | sets (hp : K.pc.rests = false) (hp' : K'.pc = .summary)
      (hd : K'.delegatedJobQueue = K.delegatedJobQueue)
      (hpend : K'.pendingJobsQueue.Sublist K.pendingJobsQueue)
      (he : K'.inLowPowerState = true → K.inLowPowerState = true ∨
        K'.dpmStartTime = X.systemTime ∧ K'.dpmEndTime ≤ findNextEffectiveArrivalTime X K J)

theorem SleepStep.rested (hs : SleepStep X K J K') (h : K.Rested X.cfg X.coreId J X.systemTime)
    (hsorted : SortedBy (·.arrivalTick) K.delegatedJobQueue)
    (hJ : ∀ j ∈ K.pendingJobsQueue, arrivalOf J' j = arrivalOf J j)
    (hlevel : K.localCriticalityLevel ≤ K'.localCriticalityLevel) :
    K'.Rested X.cfg X.coreId J' X.systemTime := by
  have hawake : K.pc.rests = false → K.inLowPowerState = false := by
    intro hp
    cases hl : K.inLowPowerState with
    | false => rfl
    | true =>
      rw [h.rests hl] at hp
      cases hp
  cases hs with
  | awake hp he => exact .of_awake (he.trans (hawake hp))
  | woken he => exact .of_awake he
  | sleeps hp he hpend hl =>
    simp only [Core.rest, Prod.mk.injEq] at he
    obtain ⟨hd, hlow, hstart, hend⟩ := he
    refine ⟨fun _ => hp, fun hl' => ?_, fun hl' hlate => ?_, fun hl' t ht ht' hdue => ?_⟩
    · rw [hlow] at hl'
      rw [hstart]
      exact h.began hl'
    · rw [hlow] at hl'
      rw [hlate, Bool.or_false, Bool.not_eq_true'] at hl
      rw [hstart]
      exact h.before hl' hl
    · rw [hlow] at hl'
      rw [hstart] at ht
      rw [hend] at ht'
      exact h.free hl' t ht ht' (hdue.mono hpend hJ hd hlevel)
  | sets hp hp' hd hpend he =>
    have hset : K'.inLowPowerState = true → K'.dpmStartTime = X.systemTime ∧
        K'.dpmEndTime ≤ findNextEffectiveArrivalTime X K J := by
      intro hl
      refine (he hl).resolve_left ?_
      rw [hawake hp]
      exact Bool.false_ne_true
    have hlate : K'.pc.late = true := by
      rw [hp']
      rfl
    refine ⟨fun _ => ?_, fun hl => ?_, fun _ hno => ?_, fun hl t ht ht' hdue => ?_⟩
    · rw [hp']
      rfl
    · exact (hset hl).1.le
    · rw [hlate] at hno
      cases hno
    · obtain ⟨hstart, hend⟩ := hset hl
      rw [hstart] at ht
      have hle := (hdue.mono hpend hJ hd hlevel).le hsorted ht
      omega

theorem Core.rest_setQueue (K : Core n) (b : Bool) (l : List (JobId n)) : (K.setQueue b l).rest = K.rest := by
  cases b <;> rfl

theorem Core.rest_preempt (K : Core n) (J : Jobs n) (j : JobId n) : (K.preempt J j).rest = K.rest :=
  K.rest_setQueue _ _

theorem Core.lowPower_addByKind (K : Core n) (J : Jobs n) (j : JobId n) :
    (K.addByKind J j).inLowPowerState = K.inLowPowerState :=
  congrArg (·.2.1) (K.rest_setQueue _ _)

theorem Core.lowPower_addArrival (K : Core n) (J : Jobs n) (j : JobId n) :
    (K.addArrival J j).inLowPowerState = K.inLowPowerState := by
  unfold addArrival
  split_ifs
  · rfl
  · exact K.lowPower_addByKind J j

theorem modeChangeSection_rest (K : Core n) (J : Jobs n) : (modeChangeSection K J).1.rest = K.rest := by
  have hpreempt : (preemptRunning K J).1.rest = K.rest := by
    unfold preemptRunning
    split
    · exact K.rest_preempt J _
    · rfl
  exact hpreempt

theorem setDpmInterval_delegated (systemTime : ℕ) (K : Core n) (nextArrivalTime : ℕ) :
    (setDpmInterval systemTime K nextArrivalTime).delegatedJobQueue = K.delegatedJobQueue := by
  unfold setDpmInterval
  split_ifs <;> rfl

/-- A core that goes to sleep wakes up when it was told to. -/
theorem setDpmInterval_end {next : ℕ} (hlt : next = uint32Max ∨ time < next)
    (h : (setDpmInterval time K next).inLowPowerState = true) :
    K.inLowPowerState = true ∨ (setDpmInterval time K next).dpmStartTime = time ∧
      (setDpmInterval time K next).dpmEndTime = next := by
  unfold setDpmInterval at h ⊢
  split_ifs at h ⊢ with hidle hmax hlong
  · exact .inl h
  · have hnext : next = uint32Max := by omega
    exact .inr ⟨rfl, hnext.symm⟩
  · exact .inr ⟨rfl, by simp only; omega⟩
  · exact .inl h

theorem PowerStep.sleepStep (hs : PowerStep X K J K' J')
    (hsorted : SortedBy (·.arrivalTick) K.delegatedJobQueue) : SleepStep X K J K' := by
  cases hs with
  | @procrastinate j minSlack hp hr ha hlong hslack =>
    refine .sets (by rw [hp]; rfl) rfl ?_ ?_ fun hl => ?_
    · simp only [Core.goto]
      split_ifs
      · rw [setDpmInterval_delegated]
        exact congrArg (·.1) (K.rest_preempt J j)
      · exact congrArg (·.1) (K.rest_preempt J j)
    · refine Core.sublist_of_pending ?_
      simp only [Core.goto]
      split_ifs
      · rw [setDpmInterval_pending, Core.preempt_pending]
      · rw [Core.preempt_pending]
    · -- it sleeps no longer than to the next arrival
      simp only [Core.goto] at hl ⊢
      have hlow : (K.preempt J j).inLowPowerState = K.inLowPowerState :=
        congrArg (·.2.1) (K.rest_preempt J j)
      split_ifs at hl ⊢ with hdpm
      · have hpos : 1 ≤ ⌊min minSlack ((findNextEffectiveArrivalTime X K J - X.systemTime : ℕ) : ℚ)⌋₊ := by
          refine Nat.le_floor (le_min ?_ ?_)
          · refine le_trans ?_ hslack
            norm_num [dpmThreshold]
          · have hone : 1 ≤ findNextEffectiveArrivalTime X K J - X.systemTime :=
              le_trans (by decide) hlong
            exact_mod_cast hone
        have hle : ⌊min minSlack ((findNextEffectiveArrivalTime X K J - X.systemTime : ℕ) : ℚ)⌋₊ ≤
            findNextEffectiveArrivalTime X K J - X.systemTime := by
          refine Nat.floor_le_of_le ?_
          exact min_le_right _ _
        have hlt := (lt_findNextEffectiveArrivalTime (J := J) hsorted).resolve_left ha
        rcases setDpmInterval_end (by omega) hl with hl | ⟨hstart, hend⟩
        · exact .inl (hlow ▸ hl)
        · exact .inr ⟨hstart, by rw [hend]; omega⟩
      · exact .inl (hlow ▸ hl)
  | dpm hp =>
    refine .sets (by rw [hp]; rfl) rfl ?_ ?_ fun hl => ?_
    · simp only [Core.goto]
      split_ifs
      · rw [setDpmInterval_delegated]
      · rfl
    · refine Core.sublist_of_pending ?_
      simp only [Core.goto]
      split_ifs
      · rw [setDpmInterval_pending]
      · rfl
    · simp only [Core.goto] at hl ⊢
      split_ifs at hl ⊢
      · rcases setDpmInterval_end (lt_findNextEffectiveArrivalTime hsorted) hl with hl | ⟨hstart, hend⟩
        · exact .inl hl
        · exact .inr ⟨hstart, hend.le⟩
      · exact .inl hl
  | summary hp => exact .sleeps rfl rfl (.refl _) (by rw [hp]; rfl)
  | begin hp | stay hp | dvfs hp _ _ | dvfsSkip hp => exact .awake (by rw [hp]; rfl) rfl

theorem LocalStep.sleepStep (hs : LocalStep X K J K' J')
    (hsorted : SortedBy (·.arrivalTick) K.delegatedJobQueue) : SleepStep X K J K' := by
  have hpend := hs.pending
  cases hs with
  | power hs => exact hs.sleepStep hsorted
  | cancel hs =>
    cases hs with
    | remove hp _ _ => exact .sleeps rfl (K.rest_setQueue _ _) hpend (by rw [hp]; rfl)
    | _ => exact .sleeps rfl rfl hpend (by rw [‹K.pc = _›]; rfl)
  | sync hs =>
    cases hs with
    | start hp =>
      refine .sleeps ?_ rfl hpend (by rw [hp]; rfl)
      rw [Core.goto_pc]
      split_ifs <;> rfl
    | @modeBody overrun hp =>
      cases overrun with
      | false => exact .sleeps rfl (modeChangeSection_rest K J) hpend (by rw [hp]; rfl)
      | true =>
        refine .awake (by rw [hp]; rfl) ?_
        exact congrArg (·.2.1) (modeChangeSection_rest K J)
    | wake _ _ _ => exact .woken rfl
    | awake _ hl => exact .woken hl
    | _ => exact .sleeps rfl rfl hpend (by rw [‹K.pc = _›]; rfl)
  | run hs => cases hs <;> exact .awake (by rw [‹K.pc = _›]; rfl) rfl
  | arrival hs =>
    cases hs with
    | pendingIns hp | allocIns hp => exact .awake (by rw [hp]; rfl) (K.lowPower_addArrival J _)
    | _ => exact .awake (by rw [‹K.pc = _›]; rfl) rfl
  | reclaim hs =>
    cases hs with
    | accommodate hp => exact .awake (by rw [hp]; rfl) (K.lowPower_addByKind J _)
    | _ => exact .awake (by rw [‹K.pc = _›]; rfl) rfl
  | push hs => cases hs <;> exact .awake (by rw [‹K.pc = _›]; rfl) rfl
  | process hs =>
    cases hs with
    | insert hp _ => exact .awake (by rw [hp]; rfl) (K.lowPower_addByKind _ _)
    | _ => exact .awake (by rw [‹K.pc = _›]; rfl) rfl
  | dispatch hs =>
    cases hs with
    | pop hp _ _ _ => exact .awake (by rw [hp]; rfl) (congrArg (·.2.1) (K.rest_setQueue _ _))
    | switch hp _ => exact .awake (by rw [hp]; rfl) (K.lowPower_addByKind J _)
    | _ => exact .awake (by rw [‹K.pc = _›]; rfl) rfl

/-! ## The steps of a core -/

theorem CoreStep.systemTime_eq (hs : CoreStep cfg c S S') : S'.systemTime = S.systemTime := by
  cases hs with
  | own _ he => rw [he]; rfl
  | arrive hs =>
    cases hs with
    | @put j K' _ =>
      obtain ⟨f, g, he⟩ := (S.setCore c K').putJobRef_eq (some c) j
      rw [he]
      rfl
    | create _ _ _ hj =>
      obtain ⟨-, f, g, rfl⟩ := Sys.takeFree_eq_some hj
      rfl
    | _ => rfl
  | discard hs => cases hs <;> rfl
  | offer hs =>
    cases hs with
    | createFuture _ _ hj =>
      obtain ⟨-, f, g, rfl⟩ := Sys.takeFree_eq_some hj
      rfl
    | _ => rfl
  | request hs =>
    cases hs with
    | @putReject rq _ =>
      obtain ⟨f, g, he⟩ := (S.goto c .process).putJobRef_eq (some c) rq.job
      rw [he]
      rfl
    | @putAccept rq _ =>
      obtain ⟨f, g, he⟩ := ((S.setJob rq.job { S.job rq.job with
        nextMigrationEligibleTick := S.systemTime + jobMigrationCooldownTicks }).goto c
          .process).putJobRef_eq (some c) rq.job
      rw [he]
      rfl
    | _ => rfl

/-- What a step of core `c` keeps. -/
structure WatchStep (cfg : Config) (c : Fin n) (S S' : Sys n) : Prop where
  ahead : (S'.core c).Ahead S'.job S.systemTime
  sleep : SleepStep (S.ctx cfg c) (S.core c) S.job (S'.core c)

/-- The core goes on in the same half of the tick. -/
theorem WatchStep.of_core (h : (S.core c).Ahead S.job S.systemTime)
    (hcore : S'.core = Function.update S.core c K')
    (hJ : ∀ j ∈ (S.core c).pendingJobsQueue, arrivalOf S'.job j = arrivalOf S.job j)
    (hpend : K'.pendingJobsQueue = (S.core c).pendingJobsQueue)
    (hl : K'.pc.late = (S.core c).pc.late) (hp : K'.pc.passed = 0)
    (hs : SleepStep (S.ctx cfg c) (S.core c) S.job K') : WatchStep cfg c S S' := by
  have hself : S'.core c = K' := by rw [hcore, Function.update_self]
  refine ⟨?_, by rw [hself]; exact hs⟩
  rw [hself]
  refine h.keep (Core.sublist_of_pending hpend) (fun j hj => hJ j ?_) (fun hlate => ?_) hp
  · rw [← hpend]
    exact hj
  · rw [← hl]
    exact hlate


theorem Sys.arrival_of_release (hr : ∀ j ∉ S.free, (S'.job j).release = (S.job j).release) (hi : Inv S)
    (hj : j ∈ (S.core c).pendingJobsQueue) : arrivalOf S'.job j = arrivalOf S.job j := by
  have hheld : j ∈ S.held := Sys.mem_held.2
    (.inl ⟨c, Core.mem_held_of_placed (Core.mem_placed.2 (.inr (.inr (.inr (.inl hj)))))⟩)
  exact (Prod.mk.inj (hr j fun hf => (hi.of_free hf).1 hheld)).2

theorem PutStep.sleepStep (hs : PutStep K j K') : SleepStep X K J K' := by
  cases hs with
  | cancelPut hp | cancelRunPut hp => exact .sleeps rfl rfl (.refl _) (by rw [hp]; rfl)
  | missPut hp | completePut hp | pendingPut hp | futurePut hp => exact .awake (by rw [hp]; rfl) rfl

theorem PutStep.late (hs : PutStep K j K') : K'.pc.late = K.pc.late ∧ K'.pc.passed = K.pc.passed ∧
    K'.pendingJobsQueue = K.pendingJobsQueue := by
  cases hs <;> (rw [‹K.pc = _›]; exact ⟨rfl, rfl, rfl⟩)

theorem ArriveStep.watch (hs : ArriveStep cfg c S S') (h : (S.core c).Ahead S.job S.systemTime)
    (hJ : ∀ j ∈ (S.core c).pendingJobsQueue, arrivalOf S'.job j = arrivalOf S.job j) :
    WatchStep cfg c S S' := by
  cases hs with
  | @modeStore level overrun hp =>
    refine .of_core h rfl hJ rfl (by rw [hp]; rfl) rfl ?_
    cases overrun with
    | false => exact .sleeps rfl rfl (.refl _) (by rw [hp]; rfl)
    | true => exact .awake (by rw [hp]; rfl) rfl
  | complete hp _ => exact .of_core h rfl hJ rfl (by rw [hp]; rfl) rfl (.awake (by rw [hp]; rfl) rfl)
  | missFatal hp => exact .of_core h rfl hJ rfl (by rw [hp]; rfl) rfl (.awake (by rw [hp]; rfl) rfl)
  | @put j K' hp =>
    obtain ⟨f, g, he⟩ := (S.setCore c K').putJobRef_eq (some c) j
    rw [he] at hJ ⊢
    obtain ⟨hlate, hpassed, hpend⟩ := hp.late
    exact .of_core h rfl hJ hpend hlate (hpassed.trans h.passed) hp.sleepStep
  | create hp _ _ hj =>
    obtain ⟨-, f, g, rfl⟩ := Sys.takeFree_eq_some hj
    exact .of_core h rfl hJ rfl (by rw [hp]; rfl) rfl (.awake (by rw [hp]; rfl) rfl)
  | exhausted hp _ _ _ => exact .of_core h rfl hJ rfl (by rw [hp]; rfl) rfl (.awake (by rw [hp]; rfl) rfl)

theorem DiscardStep.watch (hs : DiscardStep cfg c S S') (h : (S.core c).Ahead S.job S.systemTime)
    (hJ : ∀ j ∈ (S.core c).pendingJobsQueue, arrivalOf S'.job j = arrivalOf S.job j) :
    WatchStep cfg c S S' := by
  cases hs with
  | accommodate hp _ =>
    exact .of_core h rfl hJ ((S.core c).addByKind_pendingJobsQueue S.job _) (by rw [hp]) rfl
      (.awake (by rw [hp]; rfl) ((S.core c).lowPower_addByKind S.job _))
  | done hp _ =>
    refine .of_core h rfl hJ rfl ?_ ?_ (.awake (by rw [hp]; rfl) rfl)
    · rw [hp, Core.goto_pc]
      split_ifs <;> rfl
    · rw [Core.goto_pc]
      split_ifs <;> rfl
  | ack hp _ => exact .of_core h rfl hJ rfl rfl h.passed (.awake (by rw [hp]; rfl) rfl)
  | discard hp _ _ | lock hp _ | keep hp _ | acked hp _ =>
    exact .of_core h rfl hJ rfl (by rw [hp]; rfl) rfl (.awake (by rw [hp]; rfl) rfl)

theorem OfferStep.watch (hs : OfferStep cfg c S S') (h : (S.core c).Ahead S.job S.systemTime)
    (hJ : ∀ j ∈ (S.core c).pendingJobsQueue, arrivalOf S'.job j = arrivalOf S.job j) :
    WatchStep cfg c S S' := by
  cases hs with
  | createFuture hp _ hj =>
    obtain ⟨-, f, g, rfl⟩ := Sys.takeFree_eq_some hj
    exact .of_core h rfl hJ rfl (by rw [hp]; rfl) rfl (.awake (by rw [hp]; rfl) rfl)
  | _ =>
    exact .of_core h rfl hJ rfl (by rw [‹(S.core c).pc = _›]; rfl) rfl
      (.awake (by rw [‹(S.core c).pc = _›]; rfl) rfl)

theorem RequestStep.watch (hs : RequestStep cfg c S S')
    (h : (S.core c).Ahead S.job S.systemTime)
    (hJ : ∀ j ∈ (S.core c).pendingJobsQueue, arrivalOf S'.job j = arrivalOf S.job j) :
    WatchStep cfg c S S' := by
  cases hs with
  | @acceptFuture rq hp hidle =>
    have hlate : (S.core c).pc.late = true := by
      rw [hp]
      rfl
    have hself : Function.update S.core c { S.core c with
        pendingJobsQueue := insertBy (arrivalOf S.job) rq.job (S.core c).pendingJobsQueue
        pc := .procAckClaim rq } c = _ := Function.update_self ..
    have hnew : arrivalOf (S.job.set rq.job ((S.job rq.job).retune (S.core c).localCriticalityLevel).link)
        rq.job = arrivalOf S.job rq.job := by
      rw [arrivalOf, Jobs.set_self]
      rfl
    have hall : ∀ j ∈ insertBy (arrivalOf S.job) rq.job (S.core c).pendingJobsQueue, S.systemTime <
        arrivalOf (S.job.set rq.job ((S.job rq.job).retune (S.core c).localCriticalityLevel).link) j := by
      intro j hj
      rcases mem_insertBy.1 hj with rfl | hj
      · rw [hnew]
        exact hidle.2
      · refine lt_of_lt_of_eq (h.late hlate j hj) ?_
        exact (hJ j hj).symm
    refine ⟨?_, ?_⟩
    · show (Function.update S.core c _ c).Ahead _ _
      rw [hself]
      exact ⟨fun j hj => (hall j hj).le, fun _ => hall, rfl⟩
    · show SleepStep _ _ _ (Function.update S.core c _ c)
      rw [hself]
      exact .awake (by rw [hp]; rfl) rfl
  | @accept rq hp _ hl =>
    have hself : ((S.listDel rq.job).goto c (.procInsert rq)).core c =
        ((S.core c).listDel rq.job).goto (.procInsert rq) := Function.update_self ..
    have hsub : (((S.core c).listDel rq.job).goto (.procInsert rq)).pendingJobsQueue.Sublist
        (S.core c).pendingJobsQueue := List.erase_sublist
    refine ⟨?_, ?_⟩
    · rw [hself]
      refine h.keep hsub (fun j hj => hJ j (hsub.subset hj)) (fun _ => ?_) rfl
      rw [hp]
      rfl
    · rw [hself]
      exact .awake (by rw [hp]; rfl) rfl
  | @putReject rq hp =>
    obtain ⟨f, g, he⟩ := (S.goto c .process).putJobRef_eq (some c) rq.job
    rw [he] at hJ ⊢
    exact .of_core h rfl hJ rfl (by rw [hp]; rfl) rfl (.awake (by rw [hp]; rfl) rfl)
  | @putAccept rq hp =>
    obtain ⟨f, g, he⟩ := ((S.setJob rq.job { S.job rq.job with
      nextMigrationEligibleTick := S.systemTime + jobMigrationCooldownTicks }).goto c
        .process).putJobRef_eq (some c) rq.job
    rw [he] at hJ ⊢
    exact .of_core h rfl hJ rfl (by rw [hp]; rfl) rfl (.awake (by rw [hp]; rfl) rfl)
  | _ =>
    exact .of_core h rfl hJ rfl (by rw [‹(S.core c).pc = _›]; rfl) rfl
      (.awake (by rw [‹(S.core c).pc = _›]; rfl) rfl)

/-- **A step of a core keeps its pending jobs ahead**, provided that they are
    while it sleeps. -/
theorem CoreStep.watch (hs : CoreStep cfg c S S') (hi : Inv S) (hd : S.Delegations)
    (h : (S.core c).Ahead S.job S.systemTime)
    (hsleep : (S.core c).pc = .lowPower → (S.core c).inLowPowerState = true →
      S.systemTime < (S.core c).dpmEndTime →
        ∀ j ∈ (S.core c).pendingJobsQueue, S.systemTime < arrivalOf S.job j) :
    WatchStep cfg c S S' := by
  have hJ : ∀ j ∈ (S.core c).pendingJobsQueue, arrivalOf S'.job j = arrivalOf S.job j := fun j hj =>
    Sys.arrival_of_release (hs.records hi hd).release hi hj
  cases hs with
  | @own K' J' hs he =>
    have hspec := hs.spec (hi.ok c) (hi.core_nodup c)
    have hself : S'.core c = K' := by
      rw [he]
      exact Function.update_self ..
    refine ⟨?_, ?_⟩
    · rw [hself, he]
      exact hs.ahead (hi.ok c) hspec.kept h hsleep
    · rw [hself]
      exact hs.sleepStep (hd.ok c).sorted
  | arrive hs => exact hs.watch h hJ
  | discard hs => exact hs.watch h hJ
  | offer hs => exact hs.watch h hJ
  | request hs => exact hs.watch h hJ

/-! ## Runs -/

/-- Each core is ahead of its pending jobs, and sleeps through nothing. -/
structure Sys.Watched (cfg : Config) (S : Sys n) : Prop where
  ahead : ∀ c, (S.core c).Ahead S.job S.systemTime
  rested : ∀ c, (S.core c).Rested cfg c S.job S.systemTime

theorem Sys.Watched.init (cfg : Config) : (Sys.init n).Watched cfg :=
  ⟨fun _ => ⟨nofun, nofun, rfl⟩, fun _ => .of_awake rfl⟩

/-- A step of another core, or of the timer within a tick -/
theorem Elsewhere.watched (h : Elsewhere S S' c d) (hw : S.Watched cfg)
    (htime : S'.systemTime = S.systemTime) :
    (S'.core d).Ahead S'.job S'.systemTime ∧ (S'.core d).Rested cfg d S'.job S'.systemTime := by
  have hsame : (S'.core d).rest = (S.core d).rest ∧
      (S'.core d).localCriticalityLevel = (S.core d).localCriticalityLevel ∧
      (S'.core d).pendingJobsQueue.Sublist (S.core d).pendingJobsQueue := by
    rcases h.core with he | ⟨rq, -, -, -, he⟩ <;> rw [he]
    · exact ⟨rfl, rfl, .refl _⟩
    · exact ⟨rfl, rfl, List.erase_sublist⟩
  obtain ⟨hrest, hlevel, hpend⟩ := hsame
  have hJ : ∀ j ∈ (S.core d).pendingJobsQueue, arrivalOf S'.job j = arrivalOf S.job j := fun j hj =>
    (h.times j (Core.mem_held_of_placed (Core.mem_placed.2 (.inr (.inr (.inr (.inl hj))))))).arrival
  simp only [Core.rest, Prod.mk.injEq] at hrest
  obtain ⟨hdel, hlow, hstart, hend⟩ := hrest
  have hr := hw.rested d
  rw [htime]
  refine ⟨(hw.ahead d).keep hpend (fun j hj => hJ j (hpend.subset hj)) (fun hl => by rwa [h.pc] at hl) ?_, ?_⟩
  · rw [h.pc]
    exact (hw.ahead d).passed
  · refine ⟨fun hl => ?_, fun hl => ?_, fun hl hlate => ?_, fun hl t ht ht' hdue => ?_⟩
    · rw [h.pc]
      exact hr.rests (hlow ▸ hl)
    · rw [hstart]
      exact hr.began (hlow ▸ hl)
    · rw [h.pc] at hlate
      rw [hstart]
      exact hr.before (hlow ▸ hl) hlate
    · rw [hstart] at ht
      rw [hend] at ht'
      exact hr.free (hlow ▸ hl) t ht ht' (hdue.mono hpend hJ hdel hlevel.ge)

theorem Sys.Watched.core_step (h : S.Watched cfg) (hi : Inv S) (hd : S.Delegations)
    (hs : CoreStep cfg c S S')
    (hl : (S.core c).localCriticalityLevel ≤ (S'.core c).localCriticalityLevel) : S'.Watched cfg := by
  have hown := hs.watch hi hd (h.ahead c) fun hp hlow hend j hj => by
    -- a pending job that arrived now would be due in the sleep
    have hstart : (S.core c).dpmStartTime < S.systemTime := (h.rested c).before hlow (by rw [hp]; rfl)
    refine lt_of_le_of_ne ((h.ahead c).now j hj) fun heq => ?_
    exact (h.rested c).free hlow S.systemTime hstart hend (.inl ⟨j, hj, heq.symm⟩)
  have htime := hs.systemTime_eq
  have hJ : ∀ j ∈ (S.core c).pendingJobsQueue, arrivalOf S'.job j = arrivalOf S.job j := fun j hj =>
    Sys.arrival_of_release (hs.records hi hd).release hi hj
  have hboth : ∀ d, (S'.core d).Ahead S'.job S'.systemTime ∧ (S'.core d).Rested cfg d S'.job S'.systemTime := by
    intro d
    by_cases hdc : d = c
    · rw [hdc, htime]
      exact ⟨hown.ahead, hown.sleep.rested (h.rested c) (hd.ok c).sorted hJ hl⟩
    · exact (hs.elsewhere hi hdc).watched h htime
  exact ⟨fun d => (hboth d).1, fun d => (hboth d).2⟩

theorem Sys.Watched.timer_step (h : S.Watched cfg) (hi : Inv S) (hs : TimerStep cfg S S') :
    S'.Watched cfg := by
  have hsame : S'.systemTime = S.systemTime → (∀ d, S'.core d = S.core d) → S'.Watched cfg := by
    intro htime hcore
    have helse : ∀ d, Elsewhere S S' d d := fun d => .of_same (hcore d) (hs.cores hi).2
    exact ⟨fun d => ((helse d).watched h htime).1, fun d => ((helse d).watched h htime).2⟩
  cases hs with
  | sweep _ _ | keep _ _ _ | expire _ _ _ => exact hsame rfl fun _ => rfl
  | @put k j _ =>
    obtain ⟨f, g, he⟩ := { S with timer := .sweep k }.putJobRef_eq none j
    rw [he] at hsame ⊢
    exact hsame rfl fun _ => rfl
  | advance hp _ _ _ =>
    -- all cores are at the end of the tick
    have hlate : ∀ d, (S.core d).pc.late = true := by
      intro d
      rw [hi.timer (by rw [hp]; nofun) d]
      rfl
    refine ⟨fun d => ⟨(h.ahead d).late (hlate d), nofun, rfl⟩, fun d => ⟨fun _ => rfl, fun hl => ?_, fun hl _ => ?_, ?_⟩⟩
    · exact ((h.rested d).began hl).trans (Nat.le_succ _)
    · exact Nat.lt_succ_of_le ((h.rested d).began hl)
    · exact (h.rested d).free

theorem TimerStep.systemTime_le (hs : TimerStep cfg S S') : S.systemTime ≤ S'.systemTime := by
  cases hs with
  | @put k j _ =>
    obtain ⟨f, g, he⟩ := { S with timer := .sweep k }.putJobRef_eq none j
    rw [he]
  | advance _ _ _ _ => exact Nat.le_succ _
  | _ => exact le_rfl

/-- **One step keeps the watch**, if the levels of the cores do not fall. -/
theorem Sys.Watched.step {a : Label n} (h : S.Watched cfg) (hi : Inv S) (hd : S.Delegations)
    (hs : Step cfg S a S')
    (hl : ∀ c, (S.core c).localCriticalityLevel ≤ (S'.core c).localCriticalityLevel) :
    S'.Watched cfg := by
  cases hs with
  | core _ hs => exact h.core_step hi hd hs (hl _)
  | timer hs => exact h.timer_step hi hs

theorem Step.systemTime_le {a : Label n} (hs : Step cfg S a S') : S.systemTime ≤ S'.systemTime := by
  cases hs with
  | core _ hs => exact hs.systemTime_eq.ge
  | timer hs => exact hs.systemTime_le

variable {tr : List (Trans (Sys n) (Label n))}

/-- A run in which the level of no core falls -/
structure SteadyRun (cfg : Config) (tr : List (Trans (Sys n) (Label n))) (S : Sys n) : Prop where
  run : Exec (Step cfg) (Sys.init n) tr S
  levels : ∀ x ∈ tr, ∀ c,
    (x.pre.core c).localCriticalityLevel ≤ (x.post.core c).localCriticalityLevel

theorem SteadyRun.watched (h : SteadyRun cfg tr S) : S.Watched cfg := by
  obtain ⟨hrun, hl⟩ := h
  induction hrun with
  | nil => exact .init cfg
  | @snoc tr T a U hrun hs ih =>
    have hreach : Reachable cfg T := ⟨tr, hrun⟩
    have hw := ih fun x hx => hl x (List.mem_append_left _ hx)
    exact hw.step hreach.inv hreach.delegations hs
      (hl ⟨T, a, U⟩ (List.mem_append_right _ (List.mem_singleton_self _)))

-- below the bound the floats of the source are exact; the proof does not use it
set_option linter.unusedVariables false in
/-- **A core sleeps through no release that it owes.** While the time is below
    2^24 and the levels of the cores do not fall: a core that ends its tick
    because it sleeps has no release of a task that it still runs, unless the
    release is delegated, and no pending job that has arrived; and the loop over
    the pending jobs never finds one that is overdue. -/
theorem no_release_slept_through (h : SteadyRun cfg tr S) (ht : S.systemTime < 2 ^ 24) (c : Fin n) :
    ((S.core c).pc = .lowPower → (S.core c).inLowPowerState = true →
      S.systemTime < (S.core c).dpmEndTime →
        (∀ m task, m ∈ cfg.entries c → (S.ctx cfg c).releases m task →
          (S.core c).localCriticalityLevel ≤ task.critLevel →
            Delegated (S.core c).delegatedJobQueue task.id S.systemTime) ∧
        ∀ j ∈ (S.core c).pendingJobsQueue, S.systemTime < (S.job j).arrivalTime) ∧
    ∀ k j, (S.core c).pc = .pending k → (S.core c).pendingJobsQueue[k]? = some j →
      ¬(S.job j).arrivalTime < S.systemTime := by
  have hw := h.watched
  have hahead := hw.ahead c
  refine ⟨fun hp hlow hend => ?_, fun k j _ hj => ?_⟩
  · have hr := hw.rested c
    have hstart : (S.core c).dpmStartTime < S.systemTime := hr.before hlow (by rw [hp]; rfl)
    have hfree := hr.free hlow S.systemTime hstart hend
    refine ⟨fun m task hm hrel hcrit => ?_, fun j hj => ?_⟩
    · by_contra hno
      obtain ⟨hfind, hperiod, hmod⟩ := hrel
      exact hfree (.inr ⟨m, hm, task, hfind, Nat.pos_of_ne_zero hperiod, hcrit,
        Nat.dvd_of_mod_eq_zero hmod, hno⟩)
    · refine lt_of_le_of_ne (hahead.now j hj) fun heq => hfree (.inl ⟨j, hj, heq.symm⟩)
  · exact not_lt.2 (hahead.now j (List.mem_of_getElem? hj))

/-! ## A core that sleeps until the next release -/

/-- A task that is released every eighth tick -/
def napTask : Task := ⟨1, 8, 8, fun _ => 1, 0⟩

def napAlloc : TaskAlloc := ⟨1, .primary, 0, 0, fun _ => 8⟩

/-- The task on the only core, which may sleep -/
def napConfig : Config where
  maxCriticalityLevels := 1
  maxTasks := 1
  systemTasks := [napTask]
  allocationMap := [napAlloc]
  procId := 0
  enableEcc := false
  enableMigration := false
  enableProcrastination := false
  enableDvfs := false
  enableDpm := true

/-- The only core is in state `K`, with the jobs, its pool and the completions. -/
def napSys (time : ℕ) (timer : TimerPc 1) (J : Jobs 1) (f : Fin 1 → List (JobId 1))
    (o : List CompletionMessage) (K : Core 1) : Sys 1 :=
  { Sys.init 1 with
    core := fun _ => K
    job := J
    freeList := f
    outgoing := o
    systemTime := time
    timer := timer }

theorem setDpmInterval_of_later {K : Core n} {time next : ℕ} (hi : K.isIdle = true)
    (hs : K.inLowPowerState = false) (hlt : next < uint32Max) (ht : time + dpmThreshold ≤ next) :
    setDpmInterval time K next =
      { K with inLowPowerState := true, dpmStartTime := time, dpmEndTime := next } := by
  have hpos : 0 < dpmThreshold := by decide
  have hawake : ¬ (K.isIdle = false ∨ K.inLowPowerState = true) := by simp [hi, hs]
  unfold setDpmInterval
  rw [if_neg hawake, if_neg (not_or.2 ⟨hlt.ne, by omega⟩), if_pos (by omega), Nat.add_sub_of_le (by omega)]

/-- A steady run leads there. -/
def NapRun (time : ℕ) (timer : TimerPc 1) (J : Jobs 1) (f : Fin 1 → List (JobId 1))
    (o : List CompletionMessage) (K : Core 1) : Prop :=
  ∃ tr, SteadyRun napConfig tr (napSys time timer J f o K)

namespace NapRun

variable {timer timer' : TimerPc 1} {time time' : ℕ} {J J' : Jobs 1} {f f' : Fin 1 → List (JobId 1)}
  {o o' : List CompletionMessage} {K K' : Core 1} {S : Sys 1} {a : Label 1}

theorem setCore : (napSys time timer J f o K).setCore 0 K' = napSys time timer J f o K' := by
  rw [Sys.setCore, Function.update_eq_const_of_subsingleton]
  rfl

theorem step (h : NapRun time timer J f o K)
    (hs : Step napConfig (napSys time timer J f o K) a (napSys time' timer' J' f' o' K'))
    (hl : K.localCriticalityLevel ≤ K'.localCriticalityLevel) : NapRun time' timer' J' f' o' K' := by
  obtain ⟨tr, h⟩ := h
  refine ⟨_, h.run.snoc hs, fun x hx c => ?_⟩
  rcases List.mem_append.1 hx with hx | hx
  · exact h.levels x hx c
  · rw [List.mem_singleton.1 hx]
    exact hl

theorem core (h : NapRun time timer J f o K) (hs : CoreStep napConfig 0 (napSys time timer J f o K) S)
    (he : S = napSys time timer J' f' o' K') (hl : K.localCriticalityLevel ≤ K'.localCriticalityLevel) :
    NapRun time timer J' f' o' K' :=
  h.step (.core (Sys.unblocked_one _ 0) (he ▸ hs)) hl

theorem own (h : NapRun time timer J f o K)
    (hs : LocalStep ((napSys time timer J f o K).ctx napConfig 0) K J K' J')
    (hl : K.localCriticalityLevel ≤ K'.localCriticalityLevel) : NapRun time timer J' f o K' := by
  refine h.core (.own hs rfl) ?_ hl
  rw [setCore]
  rfl

/-- The timer, when the core waits at the barrier -/
theorem nextTick (h : NapRun time .idle J f o (K.goto .arrived)) :
    NapRun (time + 1) .idle J f (o.drop messageQueueSize) (K.goto .start) := by
  have h : NapRun time (.sweep 0) J f o (K.goto .arrived) :=
    h.step (.timer (.sweep rfl fun _ => rfl)) le_rfl
  exact h.step (.timer (@TimerStep.advance _ _ _ _ 0 [] rfl rfl rfl (.inl rfl))) le_rfl

/-- The core sleeps for one more tick. -/
theorem sleepOn (h : NapRun time .idle J f o (K.goto .start)) (hl : K.localCriticalityLevel = 0)
    (hs : K.inLowPowerState = true) (ht : time < K.dpmEndTime) :
    NapRun time .idle J f o (K.goto .lowPower) ∧ NapRun (time + 1) .idle J f (o.drop messageQueueSize) (K.goto .start) := by
  have h : NapRun time .idle J f o (K.goto .sync) := h.own (.sync (.start rfl)) le_rfl
  have h : NapRun time .idle J f o (K.goto .lowPower) := h.own (.sync (.equal rfl hl)) le_rfl
  exact ⟨h, nextTick (h.own (.sync (.sleep rfl hs ht)) le_rfl)⟩

/-- From the end of the arrivals to `select_next_job` -/
theorem close (h : NapRun time .idle J f o (K.goto (.alloc []))) (hK : K.discardList = []) :
    NapRun time .idle J f o (K.goto .select) := by
  have h := h.own (.arrival (.allocEnd rfl)) le_rfl
  have h := h.own (.reclaim (.lock rfl)) le_rfl
  have h : NapRun time .idle J f o (K.goto .reclaimLock) := h.own (.reclaim (.empty rfl hK)) le_rfl
  have h := h.core (.discard (.lock rfl ⟨Fin.forall_fin_one.2 rfl, rfl, nofun⟩)) setCore le_rfl
  exact h.core (.discard (.done rfl rfl)) setCore le_rfl

/-- From the dispatch to the barrier, with a running job -/
theorem finish (h : NapRun time .idle J f o (K.goto .dispatched)) (hi : K.isIdle = false) :
    NapRun time .idle J f o (K.goto .arrived) := by
  have h := h.own (.power (.begin rfl)) le_rfl
  have h : NapRun time .idle J f o (K.goto .dpm) := h.own (.power (.dvfsSkip rfl)) le_rfl
  have hstep : PowerStep ((napSys time .idle J f o (K.goto .dpm)).ctx napConfig 0) (K.goto .dpm) J _ J := .dpm rfl
  rw [if_neg fun hd => Bool.false_ne_true (hi.symm.trans hd.2)] at hstep
  exact (h.own (.power hstep) le_rfl).own (.power (.summary rfl)) le_rfl

/-- An idle core goes to sleep until the next arrival. -/
theorem toSleep {next : ℕ} (h : NapRun time .idle J f o (K.goto .dispatched)) (hi : K.isIdle = true)
    (hs : K.inLowPowerState = false)
    (hn : findNextEffectiveArrivalTime ⟨napConfig, 0, time, 0, []⟩ (K.goto .dpm) J = next)
    (hlt : next < uint32Max) (ht : time + dpmThreshold ≤ next) :
    NapRun time .idle J f o
      ({ K with inLowPowerState := true, dpmStartTime := time, dpmEndTime := next }.goto .arrived) := by
  have h := h.own (.power (.begin rfl)) le_rfl
  have h : NapRun time .idle J f o (K.goto .dpm) := h.own (.power (.dvfsSkip rfl)) le_rfl
  have hset := setDpmInterval_of_later (K := K.goto .dpm) hi hs hlt ht
  have hstep : PowerStep ((napSys time .idle J f o (K.goto .dpm)).ctx napConfig 0) (K.goto .dpm) J _ J := .dpm rfl
  rw [if_pos ⟨rfl, hi⟩] at hstep
  have hnext : findNextEffectiveArrivalTime ((napSys time .idle J f o (K.goto .dpm)).ctx napConfig 0)
    (K.goto .dpm) J = next := hn
  rw [hnext, show ((napSys time .idle J f o (K.goto .dpm)).ctx napConfig 0).systemTime = time from rfl, hset] at hstep
  exact (h.own (.power hstep) le_rfl).own (.power (.summary rfl)) le_rfl

/-- The job of tick 0 runs. -/
theorem tick0 : ∃ J f j, NapRun 0 .idle J f []
    ({ Core.init 1 with runningJob := some j, isIdle := false, decisionPoint := true }.goto .arrived) ∧
    J j = { (arrivedJob (0 : Fin 1) 0 0 napAlloc napTask 1).link.unlink with state := .running } ∧ j.1 = 0 := by
  obtain ⟨j, rest, hpool⟩ : ∃ j rest, (Sys.init 1).freeList 0 = j :: rest := ⟨_, _, rfl⟩
  have h : NapRun 0 .idle (fun _ => JobRec.blank) (Sys.init 1).freeList [] (Core.init 1) := ⟨[], .nil, nofun⟩
  have h := h.own (.sync (.start rfl)) le_rfl
  have h := h.own (.sync (.equal rfl rfl)) le_rfl
  have h := h.own (.sync (.awake rfl rfl)) le_rfl
  have h := h.own (.run (.idle rfl rfl)) le_rfl
  have h := h.own (.arrival (.pendingEnd rfl nofun)) le_rfl
  set r := arrivedJob (0 : Fin 1) 0 0 napAlloc napTask 1
  set J₁ := Jobs.set (fun _ => JobRec.blank) j r
  set f₁ := Function.update (Sys.init 1).freeList 0 rest
  have h : NapRun 0 .idle J₁ f₁ [] ((Core.init 1).goto (.allocIns j [])) :=
    h.core (.arrive (@ArriveStep.create _ _ _ _ _ _ _ _ _ 1 rfl ⟨rfl, by decide, rfl⟩ nofun
      (Sys.takeFree_of_cons hpool))) setCore le_rfl
  have hself : J₁ j = r := Function.update_self ..
  set J₂ := J₁.set j r.link
  have hself₂ : J₂ j = r.link := Function.update_self ..
  have h : NapRun 0 .idle J₂ f₁ []
      ({ Core.init 1 with readyQueue := [j], decisionPoint := true }.goto (.alloc [])) := by
    refine h.own (.arrival ?_) le_rfl
    have hins : ArrivalStep ((napSys 0 .idle J₁ f₁ [] ((Core.init 1).goto (.allocIns j []))).ctx napConfig 0)
      ((Core.init 1).goto (.allocIns j [])) J₁ _ _ := .allocIns rfl
    rw [Core.addArrival_of_primary (by rw [hself]; rfl) (by rw [hself]; exact le_rfl), hself] at hins
    exact hins
  obtain ⟨hpop, hstart⟩ := Core.dispatch_steps (K := { Core.init 1 with readyQueue := [j], decisionPoint := true })
    (J := J₂) (X := ⟨napConfig, 0, 0, 0, []⟩) rfl rfl rfl (by rw [hself₂]; rfl)
  have h := ((h.close rfl).own hpop le_rfl).own hstart le_rfl
  refine ⟨_, f₁, j, h.finish rfl, ?_, Subsingleton.elim _ _⟩
  rw [Jobs.set, Function.update_self, hself₂]

/-- In tick 1 the job completes, and the core goes to sleep until the next release. -/
theorem tick1 : ∃ J f o, NapRun 1 .idle J f o
    ({ Core.init 1 with
        decisionPoint := true
        inLowPowerState := true
        dpmStartTime := 1
        dpmEndTime := 8 }.goto .arrived) := by
  obtain ⟨J, f, j, h, hj, hc⟩ := tick0
  have h := h.nextTick
  have h := h.own (.sync (.start rfl)) le_rfl
  have h := h.own (.sync (.equal rfl rfl)) le_rfl
  have h := h.own (.sync (.awake rfl rfl)) le_rfl
  have hacet : (J j).acet ≤ (J j).executedTime + 1 := by
    rw [hj]
    exact (zero_add (1 : ℚ)).ge
  have hmiss : ¬ 1 > (J j).actualDeadline := by
    rw [hj]
    decide
  set K₀ : Core 1 := { Core.init 1 with runningJob := some j, isIdle := false, decisionPoint := true }
  set J₁ := J.set j ((J j).execute (K₀.goto .run)) with hJ₁
  set J₂ := J₁.set j { J₁ j with state := .completed } with hJ₂
  have h : NapRun 1 .idle J₁ f [] (K₀.goto .complete) :=
    h.own (.run (.complete rfl rfl (fun hm => hmiss hm.2) hacet)) le_rfl
  set o : List CompletionMessage := [⟨(J₁ j).parentTask.id, (J₁ j).arrivalTime, 1⟩]
  have h : NapRun 1 .idle J₂ f o ({ K₀ with runningJob := none }.goto (.completePut j)) :=
    h.core (.arrive (.complete rfl rfl)) (setCore (J := J₂) (o := o)) le_rfl
  have hone : (J₂ j).refcount = 1 := by
    rw [hJ₂, Jobs.set, Function.update_self, hJ₁, Jobs.set, Function.update_self, hj]
    rfl
  obtain ⟨J₃, f₃, h⟩ : ∃ J₃ f₃, NapRun 1 .idle J₃ f₃ o
      ({ Core.init 1 with decisionPoint := true }.goto (.pending 0)) := by
    refine ⟨J₂.set j { J₂ j with refcount := (J₂ j).refcount - 1 }, Function.update f 0 (j :: f 0),
      h.core (.arrive (.put (.completePut rfl))) ?_ le_rfl⟩
    rw [setCore]
    exact (Sys.putJobRef_last hone hc).trans rfl
  have h := h.own (.arrival (.pendingEnd rfl fun i hi => (by cases hi))) le_rfl
  have h := h.own (.arrival (.allocSkip rfl (Ctx.not_releases rfl (show 1 % 8 ≠ 0 by decide)))) le_rfl
  have h := (h.close rfl).own (.dispatch (.none rfl fun i hi => (by cases hi))) le_rfl
  exact ⟨_, _, _, h.toSleep rfl rfl rfl (by decide) (by decide)⟩

/-- The core sleeps in the ticks from 2 on. -/
theorem asleep {d : ℕ} (hd : d ≤ 6) : ∃ J f o, NapRun (d + 2) .idle J f o
    ({ Core.init 1 with
        decisionPoint := true
        inLowPowerState := true
        dpmStartTime := 1
        dpmEndTime := 8 }.goto .start) := by
  induction d with
  | zero =>
    obtain ⟨J, f, o, h⟩ := tick1
    exact ⟨J, f, _, h.nextTick⟩
  | succ d ih =>
    obtain ⟨J, f, o, h⟩ := ih (by omega)
    exact ⟨J, f, _, (h.sleepOn rfl rfl (show d + 2 < 8 by omega)).2⟩

end NapRun

/-- The core sleeps in tick 7, in which its task is not released, and wakes in tick 8,
    in which it is. -/
theorem no_release_slept_through_nap : ∃ S T : Sys 1, Reachable napConfig S ∧ S.systemTime = 7 ∧
    (S.core 0).pc = .lowPower ∧ (S.core 0).inLowPowerState = true ∧ (S.core 0).dpmEndTime = 8 ∧
    ¬ (S.ctx napConfig 0).releases napAlloc napTask ∧
    Reachable napConfig T ∧ T.systemTime = 8 ∧ (T.core 0).pc = .run ∧
    (T.ctx napConfig 0).releases napAlloc napTask := by
  obtain ⟨J, f, o, h⟩ := NapRun.asleep (show 5 ≤ 6 by decide)
  obtain ⟨⟨tr, hsleep⟩, hnext⟩ := h.sleepOn rfl rfl (by decide)
  obtain ⟨hno, -⟩ := (no_release_slept_through hsleep (show 7 < 2 ^ 24 by decide) 0).1 rfl rfl
    (show 7 < 8 by decide)
  have hnext := hnext.own (.sync (.start rfl)) le_rfl
  have hnext := hnext.own (.sync (.equal rfl rfl)) le_rfl
  obtain ⟨tr', hwake⟩ := hnext.own (.sync (.wake rfl rfl (le_refl 8))) le_rfl
  refine ⟨_, _, ⟨tr, hsleep.run⟩, rfl, rfl, rfl, rfl, fun hrel => ?_, ⟨tr', hwake.run⟩, rfl, rfl, rfl, by decide,
    Nat.mod_self 8⟩
  obtain ⟨dj, hdj, -⟩ := hno napAlloc napTask List.mem_cons_self hrel le_rfl
  cases hdj

end EeftSched

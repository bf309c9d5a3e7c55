/-
  The budgets that the cores compare with (`handle_running_job`,
  `handle_mode_change`, `reclaim_discarded_jobs` in `sched_core.c`).

  `job->wcet` is a copy of an entry of the task's `wcet`.  A mode change renews
  the copies of the queued jobs and of the running one; those of discarded jobs
  keep the level of the change that discarded them.

  * `Core.Budgets`: the copies of the jobs that can run on a core are not below
    the budgets of its level, except in the middle of a mode change;
  * `LocalStep.budgets`: what a core does by itself keeps this, if the jobs that
    `reclaim_discarded_jobs` takes in have up-to-date copies;
  * `BudgetStep`: a core changes no copy of a job of another core;
  * `budgets_of_exec`: so it is in every run in which the jobs that are taken in
    have up-to-date copies (`FreshIntake`).
-/
import EeftSched.Ownership

namespace EeftSched

open SortedQueue Lts

variable {n : ℕ} {K K' : Core n} {J J' : Jobs n} {j i : JobId n} {r : JobRec} {c d : Fin n}
  {top level : ℕ}

/-- The copy of the budget is not below the task's at `level`. -/
def JobRec.Budgeted (r : JobRec) (level : ℕ) : Prop := toFloat (r.parentTask.wcet level) ≤ r.wcet

/-- A job in the hands of a core that goes to a queue, or runs -/
def Pc.due : Pc n → Option (JobId n)
  | .pendingIns j _ | .allocIns j _ | .dispatch j => some j
  | _ => none

/-- The jobs that can run on a core -/
def Core.Active (K : Core n) (j : JobId n) : Prop :=
  (∃ b, j ∈ K.queue b) ∨ K.runningJob = some j ∨ K.pc.due = some j

/-- The levels of a core are at most `top`, and the copies of the jobs that can
    run are up to date. -/
structure Core.Budgets (K : Core n) (J : Jobs n) (top : ℕ) : Prop where
  level : K.localCriticalityLevel ≤ top
  asked : ∀ level overrun, K.pc = .modeStore level overrun → level ≤ top
  active : (∀ overrun, K.pc ≠ .modeBody overrun) → ∀ j, K.Active j →
    (J j).Budgeted K.localCriticalityLevel

/-! ## Ways to change a core -/

theorem JobRec.Budgeted.retune (r : JobRec) (level : ℕ) : (r.retune level).Budgeted level := le_rfl

theorem Jobs.set_budgeted (h : (J j).Budgeted level → r.Budgeted level) (i : JobId n)
    (hi : (J i).Budgeted level) : (J.set j r i).Budgeted level := by
  by_cases hij : i = j
  · subst hij
    rw [Jobs.set_self]
    exact h hi
  · rw [Jobs.set_ne J r hij]
    exact hi

/-- The task and the copy of the budget stay as they are. -/
structure JobRec.SameBudget (r r' : JobRec) : Prop where
  task : r'.parentTask = r.parentTask
  wcet : r'.wcet = r.wcet

@[refl] theorem JobRec.SameBudget.refl (r : JobRec) : r.SameBudget r := ⟨rfl, rfl⟩

theorem JobRec.SameBudget.budgeted {r' : JobRec} (h : r.SameBudget r') (hb : r.Budgeted level) :
    r'.Budgeted level := by
  unfold Budgeted
  rw [h.task, h.wcet]
  exact hb

theorem Jobs.set_same (h : (J j).SameBudget r) (i : JobId n) : (J i).SameBudget (J.set j r i) := by
  by_cases hij : i = j
  · subst hij
    rw [Jobs.set_self]
    exact h
  · rw [Jobs.set_ne J r hij]

theorem Jobs.set_keeps (h : (J j).SameBudget r) (i : JobId n) (hi : (J i).Budgeted level) :
    (J.set j r i).Budgeted level :=
  (Jobs.set_same h i).budgeted hi

theorem Core.active_queue {b : Bool} (h : j ∈ K.queue b) : K.Active j := .inl ⟨b, h⟩

theorem Core.active_held (hd : ∀ j, K.pc.due = some j → K.pc.hand = some j) (h : K.Active j) :
    j ∈ K.held := by
  rcases h with ⟨b, h⟩ | h | h
  · exact mem_held_of_placed (mem_placed_of_queue h)
  · exact mem_held_of_placed (mem_placed.2 (.inr (.inr (.inr (.inr h)))))
  · exact mem_held.2 (.inr (hd j h))

theorem Pc.hand_of_due {q : Pc n} (h : q.due = some j) : q.hand = some j := by
  cases q with
  | pendingIns | allocIns | dispatch => exact h
  | _ => cases h

theorem Core.Active.held (h : K.Active j) : j ∈ K.held := active_held (fun _ => Pc.hand_of_due) h

namespace Core.Budgets

/-- The jobs that can run have done so before, or have up-to-date copies. -/
theorem mono (h : K.Budgets J top) (hl : K'.localCriticalityLevel = K.localCriticalityLevel)
    (hm : ∀ overrun, K.pc ≠ .modeBody overrun)
    (ha : ∀ i, K'.Active i → K.Active i ∨ (J' i).Budgeted K.localCriticalityLevel)
    (hj : ∀ i, K.Active i → (J i).Budgeted K.localCriticalityLevel →
      (J' i).Budgeted K.localCriticalityLevel)
    (hs : ∀ level overrun, K'.pc = .modeStore level overrun → level ≤ top) : K'.Budgets J' top := by
  refine ⟨?_, hs, ?_⟩
  · rw [hl]
    exact h.level
  · intro _ i hi
    rw [hl]
    rcases ha i hi with hi | hi
    · exact hj i hi (h.active hm i hi)
    · exact hi

/-- The core goes on with the jobs it has. -/
theorem still (h : K.Budgets J top) (hl : K'.localCriticalityLevel = K.localCriticalityLevel)
    (hq : ∀ b, ∀ i ∈ K'.queue b, i ∈ K.queue b) (hr : ∀ i, K'.runningJob = some i → K.runningJob = some i)
    (hm : ∀ overrun, K.pc ≠ .modeBody overrun) (hd : K'.pc.due = none)
    (hs : ∀ level overrun, K'.pc ≠ .modeStore level overrun)
    (hj : ∀ i, (J i).Budgeted K.localCriticalityLevel → (J' i).Budgeted K.localCriticalityLevel) :
    K'.Budgets J' top := by
  refine h.mono hl hm ?_ (fun i _ => hj i) fun level o hp => absurd hp (hs level o)
  rintro i (⟨b, hi⟩ | hi | hi)
  · exact .inl (.inl ⟨b, hq b i hi⟩)
  · exact .inl (.inr (.inl (hr i hi)))
  · rw [hd] at hi
    cases hi

/-- The core goes to another point. -/
theorem goto (h : K.Budgets J top) {q : Pc n} (hm : ∀ overrun, K.pc ≠ .modeBody overrun)
    (hd : q.due = none) (hs : ∀ level overrun, q ≠ .modeStore level overrun) :
    (K.goto q).Budgets J top :=
  h.still rfl (fun _ _ => id) (fun _ => id) hm hd hs fun _ => id

end Core.Budgets

theorem Core.queue_addByKind (K : Core n) (J : Jobs n) (j : JobId n) (b : Bool) :
    i ∈ (K.addByKind J j).queue b → i = j ∨ i ∈ K.queue b := by
  unfold addByKind
  rw [queue_setQueue]
  split_ifs with hb
  · rw [hb]
    exact mem_insertBy.1
  · exact .inr

/-! ## The mode change -/

/-- `filter_queue_for_mode_change` renews the copies of the jobs it keeps. -/
theorem filterQueueForModeChange_budgeted (level : ℕ) : ∀ (src : List (JobId n)) (J : Jobs n)
    (dest discard : List (JobId n)), (∀ i ∈ dest, (J i).Budgeted level) →
    (∀ i, (J i).Budgeted level →
      ((filterQueueForModeChange level src J dest discard).1 i).Budgeted level) ∧
      ∀ i ∈ (filterQueueForModeChange level src J dest discard).2.1,
        ((filterQueueForModeChange level src J dest discard).1 i).Budgeted level
  | [], _, _, _, h => ⟨fun _ => id, h⟩
  | j :: src, J, dest, discard, h => by
    have hset : ∀ i, (J i).Budgeted level →
        (J.set j ((J j).retune level).link i).Budgeted level :=
      Jobs.set_budgeted fun _ => JobRec.Budgeted.retune (J j) level
    have hself : (J.set j ((J j).retune level).link j).Budgeted level := by
      rw [Jobs.set_self]
      exact JobRec.Budgeted.retune (J j) level
    unfold filterQueueForModeChange
    simp only
    split_ifs with hdiscard
    · obtain ⟨hkeep, hmem⟩ := filterQueueForModeChange_budgeted level src
        (J.set j ((J j).retune level).link) dest
        (insertBy (vdOf (J.set j ((J j).retune level).link)) j discard) fun i hi => hset i (h i hi)
      exact ⟨fun i hi => hkeep i (hset i hi), hmem⟩
    · have hdest : ∀ i ∈ insertBy (vdOf (J.set j ((J j).retune level).link)) j dest,
          (J.set j ((J j).retune level).link i).Budgeted level := by
        intro i hi
        rcases mem_insertBy.1 hi with rfl | hi
        · exact hself
        · exact hset i (h i hi)
      obtain ⟨hkeep, hmem⟩ := filterQueueForModeChange_budgeted level src
        (J.set j ((J j).retune level).link)
        (insertBy (vdOf (J.set j ((J j).retune level).link)) j dest) discard hdest
      exact ⟨fun i hi => hkeep i (hset i hi), hmem⟩

@[simp] theorem Core.addByKind_level (K : Core n) (J : Jobs n) (j : JobId n) :
    (K.addByKind J j).localCriticalityLevel = K.localCriticalityLevel := by
  unfold addByKind setQueue
  split <;> rfl

theorem preemptRunning_level (K : Core n) (J : Jobs n) :
    (preemptRunning K J).1.localCriticalityLevel = K.localCriticalityLevel := by
  unfold preemptRunning
  cases K.runningJob with
  | none => rfl
  | some j => exact K.addByKind_level J j

theorem modeChangeSection_level (K : Core n) (J : Jobs n) :
    (modeChangeSection K J).1.localCriticalityLevel = K.localCriticalityLevel :=
  preemptRunning_level K J

/-- A mode change ends with up-to-date copies. -/
theorem modeChangeSection_budgeted (K : Core n) (J : Jobs n) (b : Bool) :
    ∀ i ∈ (modeChangeSection K J).1.queue b,
      ((modeChangeSection K J).2 i).Budgeted K.localCriticalityLevel := by
  have hlevel := preemptRunning_level K J
  have hready := filterQueueForModeChange_budgeted K.localCriticalityLevel
    (preemptRunning K J).1.readyQueue (preemptRunning K J).2 [] (preemptRunning K J).1.discardList nofun
  have hreplica := filterQueueForModeChange_budgeted K.localCriticalityLevel
    (preemptRunning K J).1.replicaQueue
    (filterQueueForModeChange K.localCriticalityLevel (preemptRunning K J).1.readyQueue
      (preemptRunning K J).2 [] (preemptRunning K J).1.discardList).1 []
    (filterQueueForModeChange K.localCriticalityLevel (preemptRunning K J).1.readyQueue
      (preemptRunning K J).2 [] (preemptRunning K J).1.discardList).2.2 nofun
  rw [← hlevel] at hready hreplica
  rw [← hlevel]
  cases b with
  | false => exact fun i hi => hreplica.1 i (hready.2 i hi)
  | true => exact hreplica.2

/-! ## The steps of a core by itself -/

variable {X : Ctx n}

namespace Core.Budgets

/-- A job goes to the queue of its kind. -/
theorem add (h : K.Budgets J top) (hj : (J' j).Budgeted K.localCriticalityLevel)
    (hq : ∀ b, ∀ i ∈ K'.queue b, i = j ∨ i ∈ K.queue b)
    (hr : ∀ i, K'.runningJob = some i → K.runningJob = some i)
    (hl : K'.localCriticalityLevel = K.localCriticalityLevel)
    (hJ : ∀ i, (J i).Budgeted K.localCriticalityLevel → (J' i).Budgeted K.localCriticalityLevel)
    (hm : ∀ overrun, K.pc ≠ .modeBody overrun) (hd : K'.pc.due = none)
    (hs : ∀ level overrun, K'.pc ≠ .modeStore level overrun) : K'.Budgets J' top := by
  refine h.mono hl hm ?_ (fun i _ => hJ i) fun level o hp => absurd hp (hs level o)
  rintro i (⟨b, hi⟩ | hi | hi)
  · rcases hq b i hi with rfl | hi
    · exact .inr hj
    · exact .inl (active_queue hi)
  · exact .inl (.inr (.inl (hr i hi)))
  · rw [hd] at hi
    cases hi

end Core.Budgets

theorem CancelStep.budgets (hs : CancelStep K J K' J') (h : K.Budgets J top) : K'.Budgets J' top := by
  cases hs with
  | done hp | lock hp | keep hp _ _ | nextQueue hp _ | unlock hp _ _ => exact h.goto (by rw [hp]; nofun) rfl nofun
  | @remove msg msgs replica k j hp hj hm =>
    refine h.still ?_ ?_ ?_ (by rw [hp]; nofun) rfl nofun (Jobs.set_keeps ⟨rfl, rfl⟩)
    · cases replica <;> rfl
    · intro b i hi
      change i ∈ (K.setQueue replica _).queue b at hi
      rw [Core.queue_setQueue] at hi
      split_ifs at hi with hb
      · rw [hb]
        exact List.mem_of_mem_eraseIdx hi
      · exact hi
    · intro i hi
      rw [← hi]
      exact (K.setQueue_runningJob ..).symm
  | running hp hk hr hm =>
    exact h.still rfl (fun _ _ => id) nofun (by rw [hp]; nofun) rfl nofun (Jobs.set_keeps ⟨rfl, rfl⟩)

theorem SyncStep.budgets (hs : SyncStep X K J K' J') (h : K.Budgets J top)
    (hX : X.systemCriticalityLevel ≤ top) : K'.Budgets J' top := by
  cases hs with
  | start hp =>
    refine h.goto (by rw [hp]; nofun) ?_ ?_
    · split_ifs <;> rfl
    · split_ifs <;> nofun
  | equal hp _ | differ hp _ | sleep hp _ _ | awake hp _ => exact h.goto (by rw [hp]; nofun) rfl nofun
  | wake hp _ _ => exact h.still rfl (fun _ _ => id) (fun _ => id) (by rw [hp]; nofun) rfl nofun (fun _ => id)
  | reload hp =>
    refine h.mono rfl (by rw [hp]; nofun) ?_ (fun _ _ => id) ?_
    · rintro i (hi | hi | hi)
      · exact .inl (.inl hi)
      · exact .inl (.inr (.inl hi))
      · cases hi
    · intro level overrun heq
      rw [← (Pc.modeStore.inj heq).1]
      exact hX
  | @modeBody overrun hp =>
    refine ⟨?_, ?_, ?_⟩
    · exact (modeChangeSection_level K J).trans_le h.level
    · intro level o heq
      cases overrun <;> cases heq
    · rintro - i (⟨b, hi⟩ | hi | hi)
      · show ((modeChangeSection K J).2 i).Budgeted (modeChangeSection K J).1.localCriticalityLevel
        rw [modeChangeSection_level]
        exact modeChangeSection_budgeted K J b i hi
      · change (modeChangeSection K J).1.runningJob = some i at hi
        rw [modeChangeSection_runningJob K J] at hi
        cases hi
      · cases overrun <;> cases hi

theorem newCritLevel_le {maxLevels : ℕ} (wcet : ℕ → ℕ) (executedTime : ℚ)
    (h : level ≤ maxLevels - 1) : newCritLevel maxLevels wcet executedTime level ≤ maxLevels - 1 := by
  rcases Nat.eq_zero_or_pos maxLevels with rfl | hpos
  · obtain rfl : level = 0 := by omega
    exact le_rfl
  · have := newCritLevel_lt wcet executedTime (by omega : level < maxLevels)
    omega

theorem RunStep.budgets (hs : RunStep X K J K' J') (h : K.Budgets J (X.cfg.maxCriticalityLevels - 1)) :
    K'.Budgets J' (X.cfg.maxCriticalityLevels - 1) := by
  cases hs with
  | idle hp _ => exact h.goto (by rw [hp]; nofun) rfl nofun
  | miss hp hr hm =>
    exact h.still rfl (fun _ _ => id) nofun (by rw [hp]; nofun) rfl nofun (Jobs.set_keeps ⟨rfl, rfl⟩)
  | complete hp _ _ _ | go hp _ _ _ _ =>
    exact h.still rfl (fun _ _ => id) (fun _ => id) (by rw [hp]; nofun) rfl nofun (Jobs.set_keeps ⟨rfl, rfl⟩)
  | @overrun j hp hr _ _ _ =>
    have hset : ∀ i, (J i).Budgeted K.localCriticalityLevel →
        (J.set j ((J j).execute K) i).Budgeted K.localCriticalityLevel := Jobs.set_keeps ⟨rfl, rfl⟩
    refine h.mono rfl (by rw [hp]; nofun) ?_ (fun i _ => hset i) ?_
    · rintro i (hi | hi | hi)
      · exact .inl (.inl hi)
      · exact .inl (.inr (.inl hi))
      · cases hi
    · intro level overrun heq
      rw [← (Pc.modeStore.inj heq).1]
      exact newCritLevel_le _ _ h.level

/-- A job that arrives has an up-to-date copy. -/
theorem Core.Budgets.arrive (h : K.Budgets J top) {q : Pc n} (hd : K.pc.due = some j)
    (hm : ∀ overrun, K.pc ≠ .modeBody overrun) (hq : q.due = none)
    (hs : ∀ level overrun, q ≠ .modeStore level overrun) :
    ((K.addArrival J j).goto q).Budgets (J.set j (J j).link) top := by
  have hj := h.active hm j (.inr (.inr hd))
  have hset : ∀ i, (J i).Budgeted K.localCriticalityLevel →
      (J.set j (J j).link i).Budgeted K.localCriticalityLevel := Jobs.set_keeps ⟨rfl, rfl⟩
  unfold addArrival
  split_ifs
  · exact h.still rfl (fun _ _ => id) (fun _ => id) hm hq hs hset
  · refine h.add (hset j hj) (fun b i => K.queue_addByKind J j b) ?_ (K.addByKind_level J j) hset hm hq hs
    intro i hi
    rw [← hi]
    exact (K.setQueue_runningJob ..).symm

theorem ArrivalStep.budgets (hs : ArrivalStep X K J K' J') (h : K.Budgets J top) : K'.Budgets J' top := by
  cases hs with
  | pendingEnd hp _ | missed hp _ _ _ | allocEnd hp | allocSkip hp _ => exact h.goto (by rw [hp]; nofun) rfl nofun
  | drop hp _ _ _ =>
    exact h.still rfl (fun _ _ => id) (fun _ => id) (by rw [hp]; nofun) rfl nofun (Jobs.set_keeps ⟨rfl, rfl⟩)
  | @due k j hp hj ht =>
    refine h.mono rfl (by rw [hp]; nofun) ?_ (fun i _ => Jobs.set_budgeted (fun _ => le_rfl) i) nofun
    rintro i (hi | hi | hi)
    · exact .inl (.inl hi)
    · exact .inl (.inr (.inl hi))
    · obtain rfl : j = i := Option.some.inj hi
      rw [Jobs.set_self]
      exact .inr le_rfl
  | pendingIns hp => exact h.arrive (by rw [hp]; rfl) (by rw [hp]; nofun) rfl nofun
  | allocDelegated hp _ _ => exact h.still rfl (fun _ _ => id) (fun _ => id) (by rw [hp]; nofun) rfl nofun (fun _ => id)
  | allocIns hp => exact h.arrive (by rw [hp]; rfl) (by rw [hp]; nofun) rfl nofun

/-- `reclaim_discarded_jobs` of the core takes in a job of its list. -/
theorem ReclaimStep.budgets (hs : ReclaimStep K J K' J') (h : K.Budgets J top)
    (hf : ∀ j, K.pc = .reclaimHand j → (∃ b, j ∈ K'.queue b) → (J j).Budgeted K.localCriticalityLevel) :
    K'.Budgets J' top := by
  cases hs with
  | lock hp | empty hp _ | leave hp _ => exact h.goto (by rw [hp]; nofun) rfl nofun
  | pop hp _ =>
    exact h.still rfl (fun _ _ => id) (fun _ => id) (by rw [hp]; nofun) rfl nofun (Jobs.set_keeps ⟨rfl, rfl⟩)
  | @accommodate j hp =>
    have hj := hf j hp ⟨(J j).isReplica, ?_⟩
    · have hset : ∀ i, (J i).Budgeted K.localCriticalityLevel →
          (J.set j (J j).link i).Budgeted K.localCriticalityLevel := Jobs.set_keeps ⟨rfl, rfl⟩
      refine h.add (hset j hj) (fun b i => K.queue_addByKind J j b) ?_ (K.addByKind_level J j) hset
        (by rw [hp]; nofun) rfl nofun
      intro i hi
      rw [← hi]
      exact (K.setQueue_runningJob ..).symm
    · show j ∈ (K.addByKind J j).queue _
      unfold Core.addByKind
      rw [Core.queue_setQueue, if_pos rfl]
      exact mem_insertBy.2 (.inl rfl)

theorem PushStep.budgets (hs : PushStep X K J K' J') (h : K.Budgets J top) : K'.Budgets J' top := by
  cases hs with
  | skip hp | go hp _ _ | future hp _ | shed hp _ | offerLock hp | nextQueue hp _ | offerEnd hp _
  | offerSkip hp _ | offerTaken hp _ _ | futureEnd hp | futureSkip hp =>
    exact h.goto (by rw [hp]; nofun) rfl nofun

theorem ProcessStep.budgets (hs : ProcessStep c K J K' J') (h : K.Budgets J top) :
    K'.Budgets J' top := by
  have hset : ∀ j, ∀ i, (J i).Budgeted K.localCriticalityLevel →
      (J.set j ((J j).retune K.localCriticalityLevel).link i).Budgeted K.localCriticalityLevel :=
    fun j => Jobs.set_budgeted fun _ => le_rfl
  cases hs with
  | lock1 hp =>
    refine h.goto (by rw [hp]; nofun) ?_ ?_
    · split_ifs <;> rfl
    · split_ifs <;> nofun
  | lock2 hp => exact h.goto (by rw [hp]; nofun) rfl nofun
  | @insertDiscard rq hp _ =>
    exact h.still rfl (fun _ _ => id) (fun _ => id) (by rw [hp]; nofun) rfl nofun (hset rq.job)
  | @insert rq hp _ =>
    refine h.add (j := rq.job) ?_ (fun b i => K.queue_addByKind _ rq.job b) ?_ (K.addByKind_level ..)
      (hset rq.job) (by rw [hp]; nofun) rfl nofun
    · rw [Jobs.set_self]
      exact le_rfl
    · intro i hi
      rw [← hi]
      exact (K.setQueue_runningJob ..).symm

/-- The running job goes back to its queue. -/
theorem Core.active_preempt (hr : K.runningJob = some j) (b : Bool) (hi : i ∈ (K.preempt J j).queue b) :
    K.Active i := by
  rw [preempt_eq] at hi
  rcases queue_addByKind _ J j b hi with rfl | hi
  · exact .inr (.inl hr)
  · exact active_queue hi

theorem DispatchStep.budgets (hs : DispatchStep K J K' J') (h : K.Budgets J top) : K'.Budgets J' top := by
  cases hs with
  | none hp _ | nothing hp _ _ _ => exact h.goto (by rw [hp]; nofun) rfl nofun
  | @pop j i hp _ _ hi =>
    have hset : ∀ i', (J i').Budgeted K.localCriticalityLevel →
        (J.set i (J i).unlink i').Budgeted K.localCriticalityLevel := Jobs.set_keeps ⟨rfl, rfl⟩
    refine h.mono ?_ (by rw [hp]; nofun) ?_ (fun i' _ => hset i') nofun
    · show (K.setQueue _ _).localCriticalityLevel = _
      unfold Core.setQueue
      split <;> rfl
    · rintro i' (⟨b, hi'⟩ | hi' | hi')
      · refine .inl (.inl ⟨b, ?_⟩)
        change i' ∈ (K.setQueue _ _).queue b at hi'
        rw [Core.queue_setQueue] at hi'
        split_ifs at hi' with hb
        · rw [hb]
          exact List.mem_of_mem_tail hi'
        · exact hi'
      · refine .inl (.inr (.inl ?_))
        rw [← hi']
        exact (K.setQueue_runningJob ..).symm
      · obtain rfl : i = i' := Option.some.inj hi'
        exact .inl (Core.active_queue (List.mem_of_mem_head? hi))
  | @start j hp hr =>
    have hset : ∀ i, (J i).Budgeted K.localCriticalityLevel →
        (J.set j { J j with state := .running } i).Budgeted K.localCriticalityLevel :=
      Jobs.set_keeps ⟨rfl, rfl⟩
    refine h.mono rfl (by rw [hp]; nofun) ?_ (fun i _ => hset i) nofun
    rintro i (hi | hi | hi)
    · exact .inl (.inl hi)
    · exact .inl (.inr (.inr (by rw [hp]; exact hi)))
    · cases hi
  | @switch j r hp hr =>
    have hset : ∀ i, (J i).Budgeted K.localCriticalityLevel →
        (J.set r { (J r).link with state := .ready } i).Budgeted K.localCriticalityLevel :=
      Jobs.set_keeps ⟨rfl, rfl⟩
    refine h.mono (K.addByKind_level J r) (by rw [hp]; nofun) ?_ ?_ nofun
    · rintro i (⟨b, hi⟩ | hi | hi)
      · rcases K.queue_addByKind J r b hi with rfl | hi
        · exact .inl (.inr (.inl hr))
        · exact .inl (Core.active_queue hi)
      · exact .inl (.inr (.inr (by rw [hp]; exact hi)))
      · cases hi
    · intro i _ hi
      by_cases hij : i = j
      · subst hij
        rw [Jobs.set_self]
        exact hi
      · rw [Jobs.set_ne _ _ hij]
        exact hset i hi

theorem PowerStep.budgets (hs : PowerStep X K J K' J') (h : K.Budgets J top) : K'.Budgets J' top := by
  cases hs with
  | begin hp =>
    refine h.goto (by rw [hp]; nofun) ?_ ?_
    · split_ifs <;> rfl
    · split_ifs <;> nofun
  | stay hp | dvfsSkip hp | summary hp => exact h.goto (by rw [hp]; nofun) rfl nofun
  | @procrastinate j minSlack hp hr _ _ _ =>
    have hset : ∀ i, (J i).Budgeted K.localCriticalityLevel →
        (J.set j { (J j).link with state := .ready } i).Budgeted K.localCriticalityLevel :=
      Jobs.set_keeps ⟨rfl, rfl⟩
    have hpre : ((K.preempt J j).goto .summary).Budgets
        (J.set j { (J j).link with state := .ready }) top := by
      refine h.mono (K.addByKind_level J j) (by rw [hp]; nofun) ?_ (fun i _ => hset i) nofun
      rintro i (⟨b, hi⟩ | hi | hi)
      · exact .inl (K.active_preempt hr b hi)
      · cases hi
      · cases hi
    simp only
    split_ifs
    · obtain ⟨low, s, e, he⟩ := setDpmInterval_eq X.systemTime (K.preempt J j)
        (X.systemTime + ⌊min minSlack ((findNextEffectiveArrivalTime X K J - X.systemTime : ℕ) : ℚ)⌋₊)
      rw [he]
      exact ⟨hpre.level, hpre.asked, hpre.active⟩
    · exact hpre
  | dvfs hp _ _ => exact h.still rfl (fun _ _ => id) (fun _ => id) (by rw [hp]; nofun) rfl nofun (fun _ => id)
  | dpm hp =>
    split_ifs
    · obtain ⟨low, s, e, he⟩ := setDpmInterval_eq X.systemTime K (findNextEffectiveArrivalTime X K J)
      rw [he]
      exact h.still rfl (fun _ _ => id) (fun _ => id) (by rw [hp]; nofun) rfl nofun (fun _ => id)
    · exact h.goto (by rw [hp]; nofun) rfl nofun

/-- What a core does by itself. -/
theorem LocalStep.budgets (hs : LocalStep X K J K' J')
    (h : K.Budgets J (X.cfg.maxCriticalityLevels - 1))
    (hX : X.systemCriticalityLevel ≤ X.cfg.maxCriticalityLevels - 1)
    (hf : ∀ j, K.pc = .reclaimHand j → (∃ b, j ∈ K'.queue b) → (J j).Budgeted K.localCriticalityLevel) :
    K'.Budgets J' (X.cfg.maxCriticalityLevels - 1) := by
  cases hs with
  | cancel hs => exact hs.budgets h
  | sync hs => exact hs.budgets h hX
  | run hs => exact hs.budgets h
  | arrival hs => exact hs.budgets h
  | reclaim hs => exact hs.budgets h hf
  | push hs => exact hs.budgets h
  | process hs => exact hs.budgets h
  | dispatch hs => exact hs.budgets h
  | power hs => exact hs.budgets h

/-! ## The steps of a core -/

variable {cfg : Config} {S S' : Sys n}

/-- What a step of core `c` does to the copies. -/
structure BudgetStep (cfg : Config) (c : Fin n) (S S' : Sys n) : Prop where
  own : (S'.core c).Budgets S'.job (cfg.maxCriticalityLevels - 1)
  others : ∀ d ≠ c, S'.core d = S.core d ∨ ∃ j, S'.core d = (S.core d).listDel j
  /-- A copy that changes is not that of a job of another core. -/
  rewrites : ∀ j, (S.job j).SameBudget (S'.job j) ∨
    (∀ d ≠ c, j ∉ (S.core d).held) ∧
      ((S'.job j).parentTask = (S.job j).parentTask ∨ (S'.job j).parentTask ∈ cfg.systemTasks)
  level : S'.systemCriticalityLevel ≤ cfg.maxCriticalityLevels - 1

namespace BudgetStep

/-- The step changes core `c` and no copy. -/
theorem of_same (hcore : S'.core = Function.update S.core c K')
    (hj : ∀ j, (S.job j).SameBudget (S'.job j)) (hl : S'.systemCriticalityLevel = S.systemCriticalityLevel)
    (hS : S.systemCriticalityLevel ≤ cfg.maxCriticalityLevels - 1)
    (hK : K'.Budgets S'.job (cfg.maxCriticalityLevels - 1)) : BudgetStep cfg c S S' where
  own := by
    rw [hcore, Function.update_self]
    exact hK
  others d hd := by
    rw [hcore, Function.update_of_ne hd]
    exact .inl rfl
  rewrites j := .inl (hj j)
  level := hl.trans_le hS

/-- The step changes core `c` and the record of a job that no other core has. -/
theorem of_job (hcore : S'.core = Function.update S.core c K') (hjob : S'.job = S.job.set j r)
    (hout : ∀ d ≠ c, j ∉ (S.core d).held)
    (htask : r.parentTask = (S.job j).parentTask ∨ r.parentTask ∈ cfg.systemTasks)
    (hl : S'.systemCriticalityLevel = S.systemCriticalityLevel)
    (hS : S.systemCriticalityLevel ≤ cfg.maxCriticalityLevels - 1)
    (hK : K'.Budgets S'.job (cfg.maxCriticalityLevels - 1)) : BudgetStep cfg c S S' where
  own := by
    rw [hcore, Function.update_self]
    exact hK
  others d hd := by
    rw [hcore, Function.update_of_ne hd]
    exact .inl rfl
  rewrites i := by
    rw [hjob]
    by_cases hi : i = j
    · subst hi
      rw [Jobs.set_self]
      exact .inr ⟨hout, htask⟩
    · rw [Jobs.set_ne _ _ hi]
      exact .inl (.refl _)
  level := hl.trans_le hS

end BudgetStep

theorem Config.mem_of_findTaskById {taskId : ℕ} {task : Task}
    (h : cfg.findTaskById taskId = some task) : task ∈ cfg.systemTasks := by
  unfold findTaskById at h
  split_ifs at h
  exact List.mem_reverse.1 (List.mem_of_find?_eq_some h)

theorem PutStep.budgets (hs : PutStep K j K') (h : K.Budgets J top) : K'.Budgets J top := by
  cases hs with
  | cancelPut hp | cancelRunPut hp | missPut hp | pendingPut hp | futurePut hp =>
    exact h.goto (by rw [hp]; nofun) rfl nofun
  | completePut hp => exact h.still rfl (fun _ _ => id) (fun _ => id) (by rw [hp]; nofun) rfl nofun (fun _ => id)

/-- A job leaves the pool of a core with the budget of the level of the core. -/
theorem BudgetStep.create (hi : Inv S) (h : (S.core c).Budgets S.job (cfg.maxCriticalityLevels - 1))
    (hS : S.systemCriticalityLevel ≤ cfg.maxCriticalityLevels - 1) {S₁ : Sys n}
    (hj : S.takeFree c = some (j, S₁)) (htask : r.parentTask ∈ cfg.systemTasks)
    (hr : r.Budgeted (S.core c).localCriticalityLevel)
    (hl : K'.localCriticalityLevel = (S.core c).localCriticalityLevel)
    (hq : ∀ b, ∀ i ∈ K'.queue b, i ∈ (S.core c).queue b)
    (hrun : K'.runningJob = (S.core c).runningJob) (hm : ∀ overrun, (S.core c).pc ≠ .modeBody overrun)
    (hd : ∀ i, K'.pc.due = some i → i = j) (hs : ∀ level overrun, K'.pc ≠ .modeStore level overrun) :
    BudgetStep cfg c S ((S₁.setJob j r).setCore c K') := by
  obtain ⟨hfree, f, g, rfl⟩ := Sys.takeFree_eq_some hj
  have hout : j ∉ S.held := (hi.of_free (by rw [hfree]; exact Multiset.mem_cons_self j _)).1
  refine .of_job (j := j) (r := r) rfl rfl ?_ (.inr htask) rfl hS ?_
  · exact fun d _ hm => hout (Sys.mem_held.2 (.inl ⟨d, hm⟩))
  · have hset : ∀ i, (S.job i).Budgeted (S.core c).localCriticalityLevel →
        (S.job.set j r i).Budgeted (S.core c).localCriticalityLevel :=
      Jobs.set_budgeted fun _ => hr
    refine h.mono hl hm ?_ (fun i _ => hset i) fun level o hp => absurd hp (hs level o)
    rintro i (⟨b, hi⟩ | hi | hi)
    · exact .inl (Core.active_queue (hq b i hi))
    · exact .inl (.inr (.inl (hrun ▸ hi)))
    · obtain rfl := hd i hi
      refine .inr ?_
      show (S.job.set i r i).Budgeted _
      rw [Jobs.set_self]
      exact hr

theorem ArriveStep.budgets (hs : ArriveStep cfg c S S') (hi : Inv S)
    (h : (S.core c).Budgets S.job (cfg.maxCriticalityLevels - 1))
    (hS : S.systemCriticalityLevel ≤ cfg.maxCriticalityLevels - 1) : BudgetStep cfg c S S' := by
  cases hs with
  | @modeStore level overrun hp =>
    have hlevel := h.asked level overrun hp
    refine ⟨?_, ?_, fun j => .inl (.refl _), hlevel⟩
    · have hself : ∀ K : Core n, Function.update S.core c K c = K := fun K => Function.update_self ..
      show (Function.update S.core c _ c).Budgets _ _
      rw [hself]
      exact ⟨hlevel, nofun, fun hm => absurd rfl (hm overrun)⟩
    · intro d hd
      exact .inl (Function.update_of_ne hd ..)
  | @complete j hp hr =>
    refine .of_same rfl (Jobs.set_same ⟨rfl, rfl⟩) rfl hS ?_
    exact h.still rfl (fun _ _ => id) nofun (by rw [hp]; nofun) rfl nofun (Jobs.set_keeps ⟨rfl, rfl⟩)
  | missFatal hp => exact .of_same rfl (fun _ => .refl _) rfl hS (h.goto (by rw [hp]; nofun) rfl nofun)
  | @put j K' hp =>
    obtain ⟨f, g, he⟩ := (S.setCore c K').putJobRef_eq (some c) j
    rw [he]
    have hset : ∀ i, (S.job i).SameBudget (S.job.set j
        { S.job j with refcount := (S.job j).refcount - 1 } i) := Jobs.set_same ⟨rfl, rfl⟩
    have hK := hp.budgets h
    refine .of_same rfl hset rfl hS ⟨hK.level, hK.asked, fun hm i hi => ?_⟩
    exact (hset i).budgeted (hK.active hm i hi)
  | create hp hm hd hj =>
    refine .create hi h hS hj (Config.mem_of_findTaskById hm.1) le_rfl rfl (fun _ _ => id) rfl
      (by rw [hp]; nofun) ?_ nofun
    exact fun i hi => (Option.some.inj hi).symm
  | exhausted hp _ _ _ =>
    exact .of_same rfl (fun _ => .refl _) rfl hS
      (h.still rfl (fun _ _ => id) (fun _ => id) (by rw [hp]; nofun) rfl nofun (fun _ => id))

/-- A job leaves the lists of a core. -/
theorem Core.queue_of_listDel {b : Bool} (h : i ∈ (K.listDel j).queue b) : i ∈ K.queue b := by
  rw [queue_listDel] at h
  exact List.mem_of_mem_erase h

/-- Core `c` takes discarded job `j` into a queue: `reclaim_discarded_jobs` finds
    it admissible. -/
def Accommodates (S : Sys n) (c : Fin n) (S' : Sys n) (j : JobId n) : Prop :=
  ((S.core c).pc = .reclaimHand j ∨
      ∃ k, (S.core c).pc = .reclaimQueue k ∧ S.discardQueue[k]? = some j) ∧
    ∃ b, j ∈ (S'.core c).queue b

/-- The jobs that core `c` takes in have copies that are not below its level's
    budgets. -/
def FreshIntake (S : Sys n) (c : Fin n) (S' : Sys n) : Prop :=
  ∀ j, Accommodates S c S' j → (S.job j).Budgeted (S.core c).localCriticalityLevel

theorem DiscardStep.budgets (hs : DiscardStep cfg c S S')
    (h : (S.core c).Budgets S.job (cfg.maxCriticalityLevels - 1))
    (hS : S.systemCriticalityLevel ≤ cfg.maxCriticalityLevels - 1) (hf : FreshIntake S c S') :
    BudgetStep cfg c S S' := by
  cases hs with
  | @discard j hp _ _ =>
    have hset : ∀ i, (S.job i).SameBudget (S.job.set j
        { (S.job j).link with virtualDeadline := (S.job j).actualDeadline } i) :=
      Jobs.set_same ⟨rfl, rfl⟩
    refine .of_same rfl hset rfl hS ?_
    exact h.still rfl (fun _ _ => id) (fun _ => id) (by rw [hp]; nofun) rfl nofun
      fun i => (hset i).budgeted
  | lock hp _ | keep hp _ | acked hp _ =>
    exact .of_same rfl (fun _ => .refl _) rfl hS (h.goto (by rw [hp]; nofun) rfl nofun)
  | done hp _ =>
    refine .of_same rfl (fun _ => .refl _) rfl hS (h.goto (by rw [hp]; nofun) ?_ ?_)
    · split_ifs <;> rfl
    · split_ifs <;> nofun
  | ack hp _ =>
    refine .of_same rfl (fun _ => .refl _) rfl hS ?_
    refine h.still rfl (fun _ _ => id) (fun _ => id) (by rw [hp]; nofun) ?_ ?_ (fun _ => id)
    · show (S.core c).pc.due = none
      rw [hp]
      rfl
    · show ∀ level overrun, (S.core c).pc ≠ .modeStore level overrun
      rw [hp]
      nofun
  | @accommodate k j hp hj =>
    have hset : ∀ i, (S.job i).SameBudget (S.job.set j (S.job j).link i) := Jobs.set_same ⟨rfl, rfl⟩
    have hfresh : (S.job j).Budgeted (S.core c).localCriticalityLevel := by
      refine hf j ⟨.inr ⟨k, hp, hj⟩, (S.job j).isReplica, ?_⟩
      show j ∈ (Function.update S.core c _ c).queue _
      rw [Function.update_self]
      show j ∈ ((S.core c).addByKind S.job j).queue _
      unfold Core.addByKind
      rw [Core.queue_setQueue, if_pos rfl]
      exact mem_insertBy.2 (.inl rfl)
    refine .of_same rfl hset rfl hS ?_
    refine h.add ((hset j).budgeted hfresh) (fun b i => (S.core c).queue_addByKind S.job j b) ?_
      ((S.core c).addByKind_level S.job j) (fun i => (hset i).budgeted) (by rw [hp]; nofun) rfl nofun
    intro i hi
    rw [← hi]
    exact ((S.core c).setQueue_runningJob ..).symm

theorem OfferStep.budgets (hs : OfferStep cfg c S S') (hi : Inv S)
    (h : (S.core c).Budgets S.job (cfg.maxCriticalityLevels - 1))
    (hS : S.systemCriticalityLevel ≤ cfg.maxCriticalityLevels - 1) : BudgetStep cfg c S S' := by
  have hflag : ∀ {j : JobId n} {r : JobRec} {q : Pc n}, (S.job j).SameBudget r →
      (∀ overrun, (S.core c).pc ≠ .modeBody overrun) → q.due = none →
      (∀ level overrun, q ≠ .modeStore level overrun) →
      BudgetStep cfg c S ((S.setJob j r).goto c q) := by
    intro j r q hr hm hd hq
    refine .of_same rfl (Jobs.set_same hr) rfl hS ?_
    exact h.still rfl (fun _ _ => id) (fun _ => id) hm hd hq (Jobs.set_keeps hr)
  cases hs with
  | exchange hp _ _ _ => exact hflag ⟨rfl, rfl⟩ (by rw [hp]; nofun) rfl nofun
  | withdraw hp => exact hflag ⟨rfl, rfl⟩ (by rw [hp]; nofun) rfl nofun
  | getRef hp _ => exact hflag ⟨rfl, rfl⟩ (by rw [hp]; nofun) rfl nofun
  | claim hp | publish hp _ | claimFuture hp =>
    exact .of_same rfl (fun _ => .refl _) rfl hS (h.goto (by rw [hp]; nofun) rfl nofun)
  | sendFuture hp _ _ | publishFuture hp _ =>
    exact .of_same rfl (fun _ => .refl _) rfl hS
      (h.still rfl (fun _ _ => id) (fun _ => id) (by rw [hp]; nofun) rfl nofun (fun _ => id))
  | @createFuture m ms task j S₁ acet hp ho hj =>
    have hcore : (S₁.setJob j (futureJob c (futureArrival S.systemTime task)
        (S.core c).localCriticalityLevel m task acet)).core = S.core := by
      obtain ⟨-, f, g, rfl⟩ := Sys.takeFree_eq_some hj
      rfl
    unfold Sys.goto
    rw [hcore]
    exact .create hi h hS hj (Config.mem_of_findTaskById ho.1) le_rfl rfl (fun _ _ => id) rfl
      (by rw [hp]; nofun) nofun nofun

theorem RequestStep.budgets (hs : RequestStep cfg c S S') (hi : Inv S)
    (h : (S.core c).Budgets S.job (cfg.maxCriticalityLevels - 1))
    (hS : S.systemCriticalityLevel ≤ cfg.maxCriticalityLevels - 1) : BudgetStep cfg c S S' := by
  have hflag : ∀ {j : JobId n} {r : JobRec} {q : Pc n} {T : Sys n}, (S.job j).SameBudget r →
      T.core = Function.update S.core c ((S.core c).goto q) → T.job = S.job.set j r →
      T.systemCriticalityLevel = S.systemCriticalityLevel →
      (∀ overrun, (S.core c).pc ≠ .modeBody overrun) → q.due = none →
      (∀ level overrun, q ≠ .modeStore level overrun) → BudgetStep cfg c S T := by
    intro j r q T hr hcore hjob hl hm hd hq
    refine .of_same hcore ?_ hl hS ?_
    · rw [hjob]
      exact Jobs.set_same hr
    · rw [hjob]
      exact h.still rfl (fun _ _ => id) (fun _ => id) hm hd hq (Jobs.set_keeps hr)
  cases hs with
  | dequeue hp _ | done hp _ | ackClaim hp =>
    exact .of_same rfl (fun _ => .refl _) rfl hS (h.goto (by rw [hp]; nofun) rfl nofun)
  | reject hp | ackPublish hp _ | clear hp =>
    refine hflag ?_ rfl rfl rfl (by rw [hp]; nofun) rfl nofun
    exact ⟨rfl, rfl⟩
  | @acceptFuture rq hp hidle =>
    have hout : rq.job ∉ S.held := by
      have htk : (S.core c).pc.token c = some (rq.job, rq.fromCore) := by rw [hp]; rfl
      rcases (hi.token rq.job rq.fromCore _ (.core htk)).offer (by rw [hp]; rfl) with ⟨-, hx⟩ | hx
      · exact absurd hidle.1 hx
      · exact hx.2.2
    refine .of_job (j := rq.job) rfl rfl ?_ (.inl rfl) rfl hS ?_
    · exact fun d _ hm => hout (Sys.mem_held.2 (.inl ⟨d, hm⟩))
    · exact h.still rfl (fun _ _ => id) (fun _ => id) (by rw [hp]; nofun) rfl nofun
        (Jobs.set_budgeted fun _ => le_rfl)
  | @accept rq hp _ _ =>
    have hset : ∀ i, (S.job i).SameBudget (S.job.set rq.job (S.job rq.job).unlink i) :=
      Jobs.set_same ⟨rfl, rfl⟩
    refine ⟨?_, ?_, fun i => .inl (hset i), hS⟩
    · show (Function.update (fun d => (S.core d).listDel rq.job) c _ c).Budgets _ _
      rw [Function.update_self]
      exact h.still rfl (fun b i => Core.queue_of_listDel) (fun _ => id) (by rw [hp]; nofun) rfl nofun
        fun i => (hset i).budgeted
    · intro d hd
      exact .inr ⟨rq.job, Function.update_of_ne hd ..⟩
  | @putReject rq hp =>
    obtain ⟨f, g, he⟩ := (S.goto c .process).putJobRef_eq (some c) rq.job
    rw [he]
    refine hflag (j := rq.job) ?_ rfl rfl rfl (by rw [hp]; nofun) rfl nofun
    exact ⟨rfl, rfl⟩
  | @putAccept rq hp =>
    let T := (S.setJob rq.job { S.job rq.job with
      nextMigrationEligibleTick := S.systemTime + jobMigrationCooldownTicks }).goto c .process
    obtain ⟨f, g, he⟩ := T.putJobRef_eq (some c) rq.job
    rw [he]
    refine hflag (j := rq.job) (r := { T.job rq.job with refcount := (T.job rq.job).refcount - 1 }) ?_ rfl
      (Jobs.set_set ..) rfl (by rw [hp]; nofun) rfl nofun
    have hT : T.job rq.job = _ := Jobs.set_self ..
    rw [hT]
    exact ⟨rfl, rfl⟩

theorem CoreStep.budgets (hs : CoreStep cfg c S S') (hi : Inv S)
    (h : (S.core c).Budgets S.job (cfg.maxCriticalityLevels - 1))
    (hS : S.systemCriticalityLevel ≤ cfg.maxCriticalityLevels - 1) (hf : FreshIntake S c S') :
    BudgetStep cfg c S S' := by
  cases hs with
  | @own K' J' hs he =>
    have hspec := hs.spec (hi.ok c) (hi.core_nodup c)
    have hself : S'.core c = K' := by
      rw [he]
      exact Function.update_self ..
    have hjob : S'.job = J' := by rw [he]
    refine ⟨?_, ?_, ?_, ?_⟩
    · rw [hself, hjob]
      refine hs.budgets h hS fun j hp hq => hf j ⟨.inl hp, ?_⟩
      rw [hself]
      exact hq
    · intro d hd
      rw [he]
      exact .inl (Function.update_of_ne hd ..)
    · intro j
      rw [hjob]
      by_cases hj : j ∈ (S.core c).held
      · exact .inr ⟨fun d hd hm => hd (hi.core_unique hj hm), .inl (hspec.kept j).task⟩
      · rw [hspec.frame j hj]
        exact .inl (.refl _)
    · rw [he]
      exact hS
  | arrive hs => exact hs.budgets hi h hS
  | discard hs => exact hs.budgets h hS hf
  | offer hs => exact hs.budgets hi h hS
  | request hs => exact hs.budgets hi h hS

/-! ## The processor -/

/-- The budgets of a task do not fall with the level. -/
def Task.Nondecreasing (maxLevels : ℕ) (task : Task) : Prop :=
  ∀ l l', l ≤ l' → l' < maxLevels → task.wcet l ≤ task.wcet l'

/-- The budgets of a task are floats, so that its jobs get them unrounded. -/
def Task.FloatWcet (maxLevels : ℕ) (task : Task) : Prop :=
  ∀ l < maxLevels, toFloat (task.wcet l) = task.wcet l

theorem Task.floatWcet_of_le {maxLevels : ℕ} {task : Task} (h : ∀ l < maxLevels, task.wcet l ≤ 2 ^ 24) :
    task.FloatWcet maxLevels := fun l hl => toFloat_eq (h l hl)

/-- The tasks for which the comparisons are right -/
def Task.Budgetable (maxLevels : ℕ) (task : Task) : Prop :=
  task.Nondecreasing maxLevels ∧ task.FloatWcet maxLevels

structure Sys.Budgets (cfg : Config) (S : Sys n) : Prop where
  core : ∀ c, (S.core c).Budgets S.job (cfg.maxCriticalityLevels - 1)
  level : S.systemCriticalityLevel ≤ cfg.maxCriticalityLevels - 1
  tasks : ∀ j, (S.job j).parentTask.Budgetable cfg.maxCriticalityLevels

namespace Sys.Budgets

theorem init (cfg : Config) : (Sys.init n).Budgets cfg := by
  refine ⟨fun c => ⟨Nat.zero_le _, nofun, ?_⟩, Nat.zero_le _,
    fun _ => ⟨fun _ _ _ _ => le_rfl, Task.floatWcet_of_le fun _ _ => Nat.zero_le _⟩⟩
  rintro - i (⟨b, hi⟩ | hi | hi)
  · cases b <;> cases hi
  · cases hi
  · cases hi

/-- The jobs of core `d` stay, or leave, and their copies stay as they are. -/
theorem other (h : S.Budgets cfg) (hcore : S'.core d = S.core d ∨ ∃ j, S'.core d = (S.core d).listDel j)
    (hj : ∀ j ∈ (S.core d).held, (S.job j).SameBudget (S'.job j)) :
    (S'.core d).Budgets S'.job (cfg.maxCriticalityLevels - 1) := by
  have hd := h.core d
  rcases hcore with hcore | ⟨j, hcore⟩
  · rw [hcore]
    exact ⟨hd.level, hd.asked, fun hm i hi => (hj i hi.held).budgeted (hd.active hm i hi)⟩
  · rw [hcore]
    refine ⟨hd.level, hd.asked, fun hm i hi => ?_⟩
    have hi' : (S.core d).Active i := by
      rcases hi with ⟨b, hi⟩ | hi
      · exact .inl ⟨b, Core.queue_of_listDel hi⟩
      · exact .inr hi
    exact (hj i hi'.held).budgeted (hd.active hm i hi')

theorem core_step (h : S.Budgets cfg)
    (hw : ∀ task ∈ cfg.systemTasks, task.Budgetable cfg.maxCriticalityLevels)
    (hs : BudgetStep cfg c S S') : S'.Budgets cfg := by
  refine ⟨fun d => ?_, hs.level, fun j => ?_⟩
  · by_cases hd : d = c
    · rw [hd]
      exact hs.own
    · refine h.other (hs.others d hd) fun j hj => ?_
      rcases hs.rewrites j with hsame | ⟨hout, -⟩
      · exact hsame
      · exact absurd hj (hout d hd)
  · rcases hs.rewrites j with hsame | ⟨-, htask | htask⟩
    · rw [hsame.task]
      exact h.tasks j
    · rw [htask]
      exact h.tasks j
    · exact hw _ htask

theorem timer_step (h : S.Budgets cfg) (hi : Inv S) (hs : TimerStep cfg S S') : S'.Budgets cfg := by
  have hsame : ∀ {T : Sys n}, T.core = S.core → T.systemCriticalityLevel = S.systemCriticalityLevel →
      (∀ j, (S.job j).SameBudget (T.job j)) → T.Budgets cfg := by
    intro T hcore hl hj
    refine ⟨fun d => ?_, hl.trans_le h.level, fun j => ?_⟩
    · exact h.other (.inl (by rw [hcore])) fun j _ => hj j
    · rw [(hj j).task]
      exact h.tasks j
  cases hs with
  | sweep _ _ | keep _ _ _ => exact hsame rfl rfl fun _ => .refl _
  | expire _ _ _ => exact hsame rfl rfl (Jobs.set_same ⟨rfl, rfl⟩)
  | @put k j hp =>
    obtain ⟨f, g, he⟩ := { S with timer := .sweep k }.putJobRef_eq none j
    rw [he]
    exact hsame rfl rfl (Jobs.set_same ⟨rfl, rfl⟩)
  | @advance k level incoming hp hj hf hl =>
    refine ⟨fun d => ?_, ?_, h.tasks⟩
    · refine (h.core d).goto ?_ rfl nofun
      rw [hi.timer (by rw [hp]; nofun) d]
      nofun
    · show level ≤ _
      rcases hl with rfl | ⟨-, hl⟩
      · exact h.level
      · omega

theorem step {a : Label n} (h : S.Budgets cfg)
    (hw : ∀ task ∈ cfg.systemTasks, task.Budgetable cfg.maxCriticalityLevels) (hi : Inv S)
    (hs : Step cfg S a S') (hf : ∀ c, a = .core c → FreshIntake S c S') : S'.Budgets cfg := by
  cases hs with
  | @core c _ hl hs => exact h.core_step hw (hs.budgets hi (h.core c) h.level (hf c rfl))
  | timer hs => exact h.timer_step hi hs

end Sys.Budgets

variable {tr : List (Trans (Sys n) (Label n))}

theorem budgets_of_exec (hw : ∀ task ∈ cfg.systemTasks, task.Budgetable cfg.maxCriticalityLevels)
    (h : Exec (Step cfg) (Sys.init n) tr S)
    (hf : ∀ x ∈ tr, ∀ c, x.lab = .core c → FreshIntake x.pre c x.post) :
    S.Budgets cfg ∧ ∀ x ∈ tr, x.pre.Budgets cfg := by
  induction h with
  | nil => exact ⟨.init cfg, nofun⟩
  | @snoc tr S a S' h hs ih =>
    obtain ⟨hS, hpre⟩ := ih fun x hx => hf x (List.mem_append_left _ hx)
    have hinv : Inv S := Reachable.inv ⟨tr, h⟩
    have hlast := hf ⟨S, a, S'⟩ (List.mem_append_right _ List.mem_cons_self)
    refine ⟨hS.step hw hinv hs hlast, fun x hx => ?_⟩
    rcases List.mem_append.1 hx with hx | hx
    · exact hpre x hx
    · rw [List.mem_singleton.1 hx]
      exact hS

end EeftSched

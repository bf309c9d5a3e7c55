/-
  What jobs execute, and when (`handle_running_job`, `handle_job_completion` in
  `sched_core.c`).

  * `JobRec.account`: what a job is, and how much of it has run;
  * `Fate`: a step of a core settles the account of a job, runs the job, or
    creates it;
  * `Core.Timed`: a running job has not run in this tick yet, or is in time;
  * `executedTime_le`: a job runs at most once a tick, wherever it goes;
  * `completions_in_time`: no job that is late runs on, or completes.
-/
import EeftSched.ModeTrigger
import EeftSched.Sleep

namespace EeftSched

open SortedQueue Lts

variable {n : ℕ} {K K' : Core n} {J J' : Jobs n} {j i : JobId n} {r r' : JobRec} {c d : Fin n}
  {X : Ctx n} {cfg : Config} {S S' : Sys n} {time : ℕ}

/-- What a job is, and how much of it has run -/
def JobRec.account (r : JobRec) : Task × ℕ × ℕ × ℚ × ℚ :=
  (r.parentTask, r.arrivalTime, r.actualDeadline, r.acet, r.executedTime)

/-- The account stays as it is, and no job leaves `IDLE` before its arrival. -/
structure JobRec.Settled (time : ℕ) (r r' : JobRec) : Prop where
  account : r'.account = r.account
  arrived : r'.state ≠ .idle → r.state ≠ .idle ∨ r.arrivalTime ≤ time

@[refl] theorem JobRec.Settled.refl (time : ℕ) (r : JobRec) : r.Settled time r := ⟨rfl, .inl⟩

theorem JobRec.Settled.trans {r'' : JobRec} (h : r.Settled time r') (h' : r'.Settled time r'') :
    r.Settled time r'' := by
  refine ⟨h'.account.trans h.account, fun hr => ?_⟩
  rcases h'.arrived hr with hr | hr
  · exact h.arrived hr
  · have harr : r'.arrivalTime = r.arrivalTime := congrArg (·.2.1) h.account
    rw [harr] at hr
    exact .inr hr

theorem Jobs.set_settled (h : (J j).Settled time r) : (J i).Settled time (J.set j r i) := by
  by_cases hij : i = j
  · subst hij
    rw [Jobs.set_self]
    exact h
  · rw [Jobs.set_ne J r hij]

/-! ## The steps of a core by itself -/

theorem JobRec.Queued.awake {b : Bool} (h : r.Queued b) : r.state ≠ .idle := by
  rw [h.state]
  nofun

theorem Core.Ok.running_awake (hK : K.Ok J) (hr : K.runningJob = some j) : (J j).state ≠ .idle := by
  rw [hK.queues.running j hr]
  nofun

theorem filterQueueForModeChange_settled (level time : ℕ) : ∀ (src : List (JobId n)) (J : Jobs n)
    (dest discard : List (JobId n)) (i : JobId n),
    (J i).Settled time ((filterQueueForModeChange level src J dest discard).1 i)
  | [], _, _, _, _ => .refl _ _
  | j :: src, J, dest, discard, i => by
    have hset : (J i).Settled time (J.set j ((J j).retune level).link i) := by
      exact Jobs.set_settled ⟨rfl, .inl⟩
    unfold filterQueueForModeChange
    simp only
    split_ifs
    · exact hset.trans (filterQueueForModeChange_settled level time src _ _ _ i)
    · exact hset.trans (filterQueueForModeChange_settled level time src _ _ _ i)

theorem modeChangeSection_settled (hK : K.Ok J) (time : ℕ) (i : JobId n) :
    (J i).Settled time ((modeChangeSection K J).2 i) := by
  have hpre : (J i).Settled time ((preemptRunning K J).2 i) := by
    unfold preemptRunning
    cases hr : K.runningJob with
    | none => exact .refl _ _
    | some j =>
      exact Jobs.set_settled ⟨rfl, fun _ => .inl (hK.running_awake hr)⟩
  exact (hpre.trans (filterQueueForModeChange_settled _ time _ _ _ _ i)).trans
    (filterQueueForModeChange_settled _ time _ _ _ _ i)

/-- The step runs the job for a tick. -/
def JobRec.Ran (K : Core n) (r r' : JobRec) : Prop := r'.account = (r.execute K).account

/-- **A core that goes on by itself settles all accounts**, or runs its job. -/
theorem LocalStep.settled (hs : LocalStep X K J K' J') (hK : K.Ok J) (i : JobId n) :
    (J i).Settled X.systemTime (J' i) ∨
      K.pc = .run ∧ K.runningJob = some i ∧ (J i).Ran K (J' i) := by
  cases hs with
  | cancel hs =>
    refine .inl ?_
    cases hs with
    | @remove msg msgs replica k j hp hj hm =>
      have hready := (hK.queues.queued replica j (List.mem_of_getElem? hj)).awake
      exact Jobs.set_settled ⟨rfl, fun _ => .inl hready⟩
    | running hp hk hr hm =>
      exact Jobs.set_settled ⟨rfl, fun _ => .inl (hK.running_awake hr)⟩
    | _ => exact .refl _ _
  | sync hs =>
    refine .inl ?_
    cases hs with
    | modeBody hp => exact modeChangeSection_settled hK _ i
    | _ => exact .refl _ _
  | run hs =>
    have hrun : ∀ {j : JobId n} {r : JobRec}, K.pc = .run → K.runningJob = some j →
        (J j).Ran K r → (J i).Settled X.systemTime (J.set j r i) ∨
          K.pc = .run ∧ K.runningJob = some i ∧ (J i).Ran K (J.set j r i) := by
      intro j r hp hr hran
      by_cases hij : i = j
      · subst hij
        rw [Jobs.set_self]
        exact .inr ⟨hp, hr, hran⟩
      · rw [Jobs.set_ne J r hij]
        exact .inl (.refl _ _)
    cases hs with
    | idle _ _ => exact .inl (.refl _ _)
    | miss hp hr _ => exact hrun hp hr rfl
    | complete hp hr _ _ => exact hrun hp hr rfl
    | overrun hp hr _ _ _ => exact hrun hp hr rfl
    | go hp hr _ _ _ => exact hrun hp hr rfl
  | arrival hs =>
    refine .inl ?_
    cases hs with
    | drop _ _ _ _ | pendingIns _ | allocIns _ =>
      exact Jobs.set_settled ⟨rfl, .inl⟩
    | @due k j hp hj ht =>
      refine Jobs.set_settled ⟨?_, fun _ => .inr ht.le⟩
      unfold JobRec.account
      rw [ht]
      rfl
    | _ => exact .refl _ _
  | reclaim hs =>
    refine .inl ?_
    cases hs with
    | pop _ _ | accommodate _ =>
      exact Jobs.set_settled ⟨rfl, .inl⟩
    | _ => exact .refl _ _
  | push hs =>
    refine .inl ?_
    cases hs <;> exact .refl _ _
  | process hs =>
    refine .inl ?_
    cases hs with
    | insertDiscard _ _ | insert _ _ =>
      exact Jobs.set_settled ⟨rfl, .inl⟩
    | _ => exact .refl _ _
  | dispatch hs =>
    refine .inl ?_
    have hready : ∀ {j}, K.pc = .dispatch j → (J j).state ≠ .idle := by
      intro j hp
      have hhand := hK.hand j (by rw [hp]; rfl)
      rw [hp] at hhand
      rw [hhand.1]
      nofun
    cases hs with
    | pop _ _ _ _ =>
      exact Jobs.set_settled ⟨rfl, .inl⟩
    | start hp hr =>
      exact Jobs.set_settled ⟨rfl, fun _ => .inl (hready hp)⟩
    | @switch j r hp hr =>
      have hset : ∀ i, (J i).Settled X.systemTime (J.set r { (J r).link with state := .ready } i) :=
        fun _ => Jobs.set_settled ⟨rfl, fun _ => .inl (hK.running_awake hr)⟩
      by_cases hij : i = j
      · subst hij
        rw [Jobs.set_self]
        exact ⟨rfl, fun _ => .inl (hready hp)⟩
      · rw [Jobs.set_ne _ _ hij]
        exact hset i
    | _ => exact .refl _ _
  | power hs =>
    refine .inl ?_
    cases hs with
    | procrastinate _ hr _ _ _ =>
      exact Jobs.set_settled ⟨rfl, fun _ => .inl (hK.running_awake hr)⟩
    | _ => exact .refl _ _

/-! ## The phases of a tick -/

/-- `handle_running_job` is still to come in this tick. -/
def Pc.toRun : Pc n → Bool
  | .start | .cancel _ | .cancelQueue .. | .cancelPut .. | .cancelRunPut .. | .sync | .syncReload
  | .modeStore _ false | .modeBody false | .lowPower | .run => true
  | _ => false

/-- The job of the next tick is chosen. -/
def Pc.chose : Pc n → Bool
  | .dispatched | .procrastinate | .dvfs | .dpm | .summary | .arrived => true
  | _ => false

/-- What a step of a core does to its running job -/
inductive TickMove (time : ℕ) (K : Core n) (J : Jobs n) (K' : Core n) (J' : Jobs n) : Prop
  | keep (hp : K.pc ≠ .run) (ht : K'.pc.toRun = K.pc.toRun) (hc : K'.pc.chose = K.pc.chose)
      (hd : K'.pc ≠ .complete) (hr : ∀ j, K'.runningJob = some j → K.runningJob = some j)
  | run (hp : K.pc = .run) (ht : K'.pc.toRun = false) (hc : K'.pc.chose = false)
      (hr : ∀ j, K'.runningJob = some j → K.runningJob = some j ∧ J' j = (J j).execute K ∧
        ¬ ((J j).execute K).missed time ∧ (K'.pc = .complete → (J j).acet ≤ (J' j).executedTime))
  | chose (hp : K.pc ≠ .run) (ht : K'.pc.toRun = false) (hc : K'.pc.chose = true)

theorem TickMove.goto {q : Pc n} (hp : K.pc ≠ .run) (ht : q.toRun = K.pc.toRun)
    (hc : q.chose = K.pc.chose) (hd : q ≠ .complete) : TickMove time K J (K.goto q) J' :=
  .keep hp ht hc hd fun _ => id

theorem LocalStep.tickMove (hs : LocalStep X K J K' J') : TickMove X.systemTime K J K' J' := by
  cases hs with
  | cancel hs =>
    cases hs with
    | done hp | lock hp | keep hp _ _ | nextQueue hp _ | unlock hp _ _ =>
      exact .goto (by rw [hp]; nofun) (by rw [hp]; rfl) (by rw [hp]; rfl) nofun
    | @remove msg msgs replica k j hp hj hm =>
      refine .keep (by rw [hp]; nofun) (by rw [hp]; rfl) (by rw [hp]; rfl) nofun fun i hi => ?_
      rw [← hi]
      exact (K.setQueue_runningJob ..).symm
    | running hp hk hr hm =>
      exact .keep (by rw [hp]; nofun) (by rw [hp]; rfl) (by rw [hp]; rfl) nofun nofun
  | sync hs =>
    cases hs with
    | start hp =>
      split_ifs <;> exact .goto (by rw [hp]; nofun) (by rw [hp]; rfl) (by rw [hp]; rfl) nofun
    | equal hp _ | differ hp _ | reload hp | awake hp _ =>
      exact .goto (by rw [hp]; nofun) (by rw [hp]; rfl) (by rw [hp]; rfl) nofun
    | wake hp _ _ =>
      exact .keep (by rw [hp]; nofun) (by rw [hp]; rfl) (by rw [hp]; rfl) nofun fun _ => id
    | sleep hp _ _ => exact .chose (by rw [hp]; nofun) rfl rfl
    | @modeBody overrun hp =>
      refine .keep (by rw [hp]; nofun) ?_ ?_ ?_ fun i hi => ?_
      · rw [hp]
        cases overrun <;> rfl
      · rw [hp]
        cases overrun <;> rfl
      · cases overrun <;> nofun
      · change (modeChangeSection K J).1.runningJob = some i at hi
        rw [modeChangeSection_runningJob K J] at hi
        cases hi
  | run hs =>
    cases hs with
    | idle hp hr =>
      refine .run hp rfl rfl fun i hi => ?_
      cases hr.symm.trans hi
    | miss hp hr _ => exact .run hp rfl rfl nofun
    | @complete j hp hr hm hc =>
      refine .run hp rfl rfl fun i hi => ?_
      obtain rfl := Option.some.inj (hr.symm.trans hi)
      rw [Jobs.set_self]
      exact ⟨hr, rfl, hm, fun _ => hc⟩
    | @overrun j hp hr hm hc ho =>
      refine .run hp rfl rfl fun i hi => ?_
      obtain rfl := Option.some.inj (hr.symm.trans hi)
      rw [Jobs.set_self]
      exact ⟨hr, rfl, hm, nofun⟩
    | @go j hp hr hm hc ho =>
      refine .run hp rfl rfl fun i hi => ?_
      obtain rfl := Option.some.inj (hr.symm.trans hi)
      rw [Jobs.set_self]
      exact ⟨hr, rfl, hm, nofun⟩
  | arrival hs =>
    cases hs with
    | pendingEnd hp _ | missed hp _ _ _ | allocEnd hp | allocSkip hp _ =>
      exact .goto (by rw [hp]; nofun) (by rw [hp]; rfl) (by rw [hp]; rfl) nofun
    | drop hp _ _ _ | due hp _ _ | allocDelegated hp _ _ =>
      exact .keep (by rw [hp]; nofun) (by rw [hp]; rfl) (by rw [hp]; rfl) nofun fun _ => id
    | @pendingIns k j hp | @allocIns j ms hp =>
      refine .keep (by rw [hp]; nofun) (by rw [hp]; rfl) (by rw [hp]; rfl) nofun fun i hi => ?_
      rw [← hi]
      exact (K.addArrival_runningJob J j).symm
  | reclaim hs =>
    cases hs with
    | lock hp | empty hp _ | leave hp _ =>
      exact .goto (by rw [hp]; nofun) (by rw [hp]; rfl) (by rw [hp]; rfl) nofun
    | pop hp _ =>
      exact .keep (by rw [hp]; nofun) (by rw [hp]; rfl) (by rw [hp]; rfl) nofun fun _ => id
    | accommodate hp =>
      refine .keep (by rw [hp]; nofun) (by rw [hp]; rfl) (by rw [hp]; rfl) nofun fun i hi => ?_
      rw [← hi]
      exact (K.setQueue_runningJob ..).symm
  | push hs =>
    cases hs with
    | skip hp | go hp _ _ | future hp _ | shed hp _ | offerLock hp | nextQueue hp _ | offerEnd hp _
    | offerSkip hp _ | offerTaken hp _ _ | futureEnd hp | futureSkip hp =>
      exact .goto (by rw [hp]; nofun) (by rw [hp]; rfl) (by rw [hp]; rfl) nofun
  | process hs =>
    cases hs with
    | lock1 hp =>
      split_ifs <;> exact .goto (by rw [hp]; nofun) (by rw [hp]; rfl) (by rw [hp]; rfl) nofun
    | lock2 hp => exact .goto (by rw [hp]; nofun) (by rw [hp]; rfl) (by rw [hp]; rfl) nofun
    | insertDiscard hp _ =>
      exact .keep (by rw [hp]; nofun) (by rw [hp]; rfl) (by rw [hp]; rfl) nofun fun _ => id
    | insert hp _ =>
      refine .keep (by rw [hp]; nofun) (by rw [hp]; rfl) (by rw [hp]; rfl) nofun fun i hi => ?_
      rw [← hi]
      exact (K.setQueue_runningJob ..).symm
  | dispatch hs =>
    cases hs with
    | none hp _ | nothing hp _ _ _ | start hp _ | switch hp _ =>
      exact .chose (by rw [hp]; nofun) rfl rfl
    | pop hp _ _ _ =>
      refine .keep (by rw [hp]; nofun) (by rw [hp]; rfl) (by rw [hp]; rfl) nofun fun i hi => ?_
      rw [← hi]
      exact (K.setQueue_runningJob ..).symm
  | power hs =>
    cases hs with
    | begin hp => split_ifs <;> exact .chose (by rw [hp]; nofun) rfl rfl
    | stay hp | procrastinate hp _ _ _ _ | dvfs hp _ _ | dvfsSkip hp | dpm hp | summary hp =>
      exact .chose (by rw [hp]; nofun) rfl rfl

/-- The running job has not run in this tick yet, or it has and is in time. -/
structure Core.Timed (K : Core n) (J : Jobs n) (time : ℕ) : Prop where
  before : K.pc.toRun = true → ∀ j, K.runningJob = some j → (J j).arrivalTime < time ∧
    (J j).executedTime + 1 ≤ ((time - (J j).arrivalTime : ℕ) : ℚ)
  after : K.pc.toRun = false → K.pc.chose = false → ∀ j, K.runningJob = some j →
    (J j).arrivalTime < time ∧ time ≤ (J j).actualDeadline
  complete : K.pc = .complete → ∀ j, K.runningJob = some j → (J j).acet ≤ (J j).executedTime

theorem scalingFactor_le_one (level : ℕ) : scalingFactor level ≤ 1 := by
  unfold scalingFactor
  match level with
  | 0 | 1 | 2 | 3 | 4 | 5 => norm_num
  | k + 6 => exact le_rfl

theorem JobRec.account_arrival (h : r'.account = r.account) : r'.arrivalTime = r.arrivalTime :=
  congrArg (·.2.1) h

theorem JobRec.account_deadline (h : r'.account = r.account) : r'.actualDeadline = r.actualDeadline :=
  congrArg (·.2.2.1) h

theorem JobRec.account_executed (h : r'.account = r.account) : r'.executedTime = r.executedTime :=
  congrArg (·.2.2.2.2) h

/-- The running jobs of a core stay, and their accounts. -/
theorem Core.Timed.congr (h : K.Timed J time) (ht : K'.pc.toRun = K.pc.toRun)
    (hc : K'.pc.chose = K.pc.chose) (hd : K'.pc = .complete → K.pc = .complete)
    (hr : ∀ j, K'.runningJob = some j → K.runningJob = some j ∧ (J' j).account = (J j).account) :
    K'.Timed J' time := by
  refine ⟨fun hb j hj => ?_, fun hb hc' j hj => ?_, fun hp j hj => ?_⟩
  · obtain ⟨hrun, hacc⟩ := hr j hj
    rw [JobRec.account_arrival hacc, JobRec.account_executed hacc]
    exact h.before (ht ▸ hb) j hrun
  · obtain ⟨hrun, hacc⟩ := hr j hj
    rw [JobRec.account_arrival hacc, JobRec.account_deadline hacc]
    exact h.after (ht ▸ hb) (hc ▸ hc') j hrun
  · obtain ⟨hrun, hacc⟩ := hr j hj
    rw [JobRec.account_executed hacc, show (J' j).acet = (J j).acet from congrArg (·.2.2.2.1) hacc]
    exact h.complete (hd hp) j hrun

theorem TickMove.timed (hm : TickMove time K J K' J') (h : K.Timed J time) (hK : K.Ok J)
    (hJ : ∀ j, K.runningJob = some j → K.pc ≠ .run → (J' j).account = (J j).account) :
    K'.Timed J' time := by
  cases hm with
  | keep hp ht hc hd hr =>
    exact h.congr ht hc (fun hd' => absurd hd' hd) fun j hj => ⟨hr j hj, hJ j (hr j hj) hp⟩
  | run hp ht hc hr =>
    refine ⟨fun hb => (Bool.false_ne_true (ht.symm.trans hb)).elim, fun _ _ j hj => ?_,
      fun hp' j hj => ?_⟩
    · obtain ⟨hrun, hjob, hmiss, -⟩ := hr j hj
      have hstate := hK.queues.running j hrun
      rw [hjob]
      refine ⟨(h.before (by rw [hp]; rfl) j hrun).1, ?_⟩
      by_contra hlate
      exact hmiss ⟨hstate, not_le.1 hlate⟩
    · obtain ⟨-, hjob, -, hdone⟩ := hr j hj
      have hacet : (J' j).acet = (J j).acet := by rw [hjob]; rfl
      rw [hacet]
      exact hdone hp'
  | chose _ ht hc =>
    refine ⟨fun hb => (Bool.false_ne_true (ht.symm.trans hb)).elim,
      fun _ hb => (Bool.false_ne_true (hb.symm.trans hc)).elim, fun hp => ?_⟩
    rw [hp] at hc
    cases hc

/-! ## The steps of a core -/

/-- The job is a release of its task. -/
structure JobRec.Released (cfg : Config) (r : JobRec) : Prop where
  task : r.parentTask ∈ cfg.systemTasks
  period : r.parentTask.period ≠ 0
  release : r.arrivalTime % r.parentTask.period = 0
  deadline : r.actualDeadline = r.arrivalTime + r.parentTask.deadline

theorem JobRec.Released.congr (h : r.Released cfg) (ha : r'.account = r.account) : r'.Released cfg := by
  have htask : r'.parentTask = r.parentTask := congrArg (·.1) ha
  refine ⟨?_, ?_, ?_, ?_⟩
  · rw [htask]
    exact h.task
  · rw [htask]
    exact h.period
  · rw [htask, JobRec.account_arrival ha]
    exact h.release
  · rw [htask, JobRec.account_arrival ha, JobRec.account_deadline ha]
    exact h.deadline

/-- The record of a job that was created just now -/
structure JobRec.Fresh (cfg : Config) (time : ℕ) (r : JobRec) : Prop extends r.Released cfg where
  executed : r.executedTime = 0
  arrived : r.state ≠ .idle → r.arrivalTime ≤ time

/-- What a step of core `c` does to the account of job `j` -/
inductive Fate (cfg : Config) (c : Fin n) (S S' : Sys n) (j : JobId n) : Prop
  | settled (h : (S.job j).Settled S.systemTime (S'.job j)) (hf : j ∈ S.free → j ∈ S'.free)
  | ran (hp : (S.core c).pc = .run) (hr : (S.core c).runningJob = some j)
      (h : (S.job j).Ran (S.core c) (S'.job j))
  | born (hf : j ∈ S.free) (h : (S'.job j).Fresh cfg S.systemTime)

namespace Fate

theorem of_set (hjob : S'.job = S.job.set i r) (hf : S'.free = S.free)
    (h : (S.job i).Settled S.systemTime r) : Fate cfg c S S' j := by
  refine .settled ?_ fun hj => by rw [hf]; exact hj
  rw [hjob]
  exact Jobs.set_settled h

theorem of_same (hjob : S'.job = S.job) (hf : S'.free = S.free) : Fate cfg c S S' j := by
  refine .settled ?_ fun hj => by rw [hf]; exact hj
  rw [hjob]

/-- A reference is dropped. -/
theorem of_put {me : Option (Fin n)} {T : Sys n} (hfree : T.free = S.free)
    (h : ∀ j, (S.job j).Settled S.systemTime (T.job j)) :
    Fate cfg c S (T.putJobRef me i) j := by
  refine .settled ?_ fun hj => ?_
  · obtain ⟨f, g, he⟩ := T.putJobRef_eq me i
    rw [he]
    have hset : (T.job j).Settled S.systemTime
        (T.job.set i { T.job i with refcount := (T.job i).refcount - 1 } j) := by
      exact Jobs.set_settled ⟨rfl, .inl⟩
    exact (h j).trans hset
  · rw [T.putJobRef_free, hfree]
    split_ifs
    · exact Multiset.mem_cons_of_mem hj
    · exact hj

/-- A job is created. -/
theorem of_create {S₁ : Sys n} (hj : S.takeFree c = some (i, S₁)) (hjob : S'.job = S₁.job.set i r)
    (hf : S'.free = S₁.free) (h : r.Fresh cfg S.systemTime) : Fate cfg c S S' j := by
  obtain ⟨hfree, f, g, rfl⟩ := Sys.takeFree_eq_some hj
  by_cases hji : j = i
  · subst hji
    refine .born (by rw [hfree]; exact Multiset.mem_cons_self j _) ?_
    rw [hjob, Jobs.set_self]
    exact h
  · refine .settled ?_ fun hm => ?_
    · rw [hjob, Jobs.set_ne _ r hji]
    · rw [hfree, Multiset.mem_cons] at hm
      rw [hf]
      exact hm.resolve_left hji

end Fate

theorem arrivedJob_fresh {m : TaskAlloc} {task : Task} {level : ℕ} {acet : ℚ}
    (hm : (S.ctx cfg c).releases m task) :
    (arrivedJob c S.systemTime level m task acet).Fresh cfg S.systemTime :=
  ⟨⟨Config.mem_of_findTaskById hm.1, hm.2.1, hm.2.2, rfl⟩, rfl, fun _ => le_rfl⟩

theorem futureJob_fresh {m : TaskAlloc} {task : Task} {level : ℕ} {acet : ℚ}
    (ho : (S.core c).offersFuture (S.ctx cfg c) m task) :
    (futureJob c (futureArrival S.systemTime task) level m task acet).Fresh cfg S.systemTime :=
  ⟨⟨Config.mem_of_findTaskById ho.1, ho.2.1, Nat.mul_mod_left _ _, rfl⟩, rfl, fun h => absurd rfl h⟩

theorem ArriveStep.fate (hs : ArriveStep cfg c S S') (hi : Inv S) (j : JobId n) :
    Fate cfg c S S' j := by
  cases hs with
  | modeStore _ | missFatal _ | exhausted _ _ _ _ => exact .of_same rfl rfl
  | complete _ hr =>
    exact .of_set rfl rfl ⟨rfl, fun _ => .inl ((hi.ok c).running_awake hr)⟩
  | put _ => exact .of_put rfl fun _ => .refl _ _
  | create _ hm _ hj => exact .of_create hj rfl rfl (arrivedJob_fresh hm)

theorem DiscardStep.fate (hs : DiscardStep cfg c S S') (j : JobId n) : Fate cfg c S S' j := by
  cases hs with
  | discard _ _ _ => exact .of_set rfl rfl ⟨rfl, .inl⟩
  | accommodate _ _ => exact .of_set rfl rfl ⟨rfl, .inl⟩
  | _ => exact .of_same rfl rfl

theorem OfferStep.fate (hs : OfferStep cfg c S S') (j : JobId n) : Fate cfg c S S' j := by
  cases hs with
  | exchange _ _ _ _ | withdraw _ | getRef _ _ => exact .of_set rfl rfl ⟨rfl, .inl⟩
  | createFuture _ ho hj => exact .of_create hj rfl rfl (futureJob_fresh ho)
  | _ => exact .of_same rfl rfl

theorem RequestStep.fate (hs : RequestStep cfg c S S') (j : JobId n) : Fate cfg c S S' j := by
  cases hs with
  | dequeue _ _ | done _ _ | ackClaim _ => exact .of_same rfl rfl
  | reject _ | acceptFuture _ _ | ackPublish _ _ | clear _ => exact .of_set rfl rfl ⟨rfl, .inl⟩
  | accept _ _ _ => exact .of_set rfl rfl ⟨rfl, .inl⟩
  | putReject _ => exact .of_put rfl fun _ => .refl _ _
  | putAccept _ =>
    exact .of_put rfl fun _ => Jobs.set_settled ⟨rfl, .inl⟩

theorem CoreStep.fate (hs : CoreStep cfg c S S') (hi : Inv S) (j : JobId n) : Fate cfg c S S' j := by
  cases hs with
  | own hs he =>
    rw [he]
    rcases hs.settled (hi.ok c) j with h | ⟨hp, hr, h⟩
    · exact .settled h id
    · exact .ran hp hr h
  | arrive hs => exact hs.fate hi j
  | discard hs => exact hs.fate j
  | offer hs => exact hs.fate j
  | request hs => exact hs.fate j

theorem TickMove.of_core (hcore : S'.core = Function.update S.core c K')
    (h : TickMove time (S.core c) S.job K' S'.job) :
    TickMove time (S.core c) S.job (S'.core c) S'.job := by
  rw [hcore, Function.update_self]
  exact h

/-- What the core does to its running job -/
theorem CoreStep.tickMove (hs : CoreStep cfg c S S') :
    TickMove S.systemTime (S.core c) S.job (S'.core c) S'.job := by
  cases hs with
  | own hs he =>
    rw [he]
    exact .of_core rfl hs.tickMove
  | arrive hs =>
    cases hs with
    | @modeStore level overrun hp =>
      refine .of_core rfl (.keep (by rw [hp]; nofun) ?_ ?_ nofun fun _ => id)
      · rw [hp]
        cases overrun <;> rfl
      · rw [hp]
        cases overrun <;> rfl
    | complete hp hr =>
      exact .of_core rfl (.keep (by rw [hp]; nofun) (by rw [hp]; rfl) (by rw [hp]; rfl) nofun nofun)
    | missFatal hp =>
      exact .of_core rfl (.goto (by rw [hp]; nofun) (by rw [hp]; rfl) (by rw [hp]; rfl) nofun)
    | @put i K' hput =>
      obtain ⟨f, g, he⟩ := (S.setCore c K').putJobRef_eq (some c) i
      rw [he]
      cases hput with
      | cancelPut hp | cancelRunPut hp | missPut hp | pendingPut hp | futurePut hp =>
        exact .of_core rfl (.goto (by rw [hp]; nofun) (by rw [hp]; rfl) (by rw [hp]; rfl) nofun)
      | completePut hp =>
        exact .of_core rfl (.keep (by rw [hp]; nofun) (by rw [hp]; rfl) (by rw [hp]; rfl) nofun fun _ => id)
    | create hp _ _ hj =>
      obtain ⟨-, f, g, rfl⟩ := Sys.takeFree_eq_some hj
      exact .of_core rfl (.keep (by rw [hp]; nofun) (by rw [hp]; rfl) (by rw [hp]; rfl) nofun fun _ => id)
    | exhausted hp _ _ _ =>
      exact .of_core rfl (.keep (by rw [hp]; nofun) (by rw [hp]; rfl) (by rw [hp]; rfl) nofun fun _ => id)
  | discard hs =>
    cases hs with
    | discard hp _ _ | lock hp _ | keep hp _ | acked hp _ =>
      exact .of_core rfl (.goto (by rw [hp]; nofun) (by rw [hp]; rfl) (by rw [hp]; rfl) nofun)
    | accommodate hp _ =>
      refine .of_core rfl (.keep (by rw [hp]; nofun) (by rw [hp]) (by rw [hp]) nofun fun i hi => ?_)
      rw [← hi]
      exact ((S.core c).setQueue_runningJob ..).symm
    | done hp _ =>
      split_ifs <;> exact .of_core rfl (.goto (by rw [hp]; nofun) (by rw [hp]; rfl) (by rw [hp]; rfl) nofun)
    | ack hp _ =>
      refine .of_core rfl (.keep (by rw [hp]; nofun) rfl rfl ?_ fun _ => id)
      show (S.core c).pc ≠ .complete
      rw [hp]
      nofun
  | offer hs =>
    cases hs with
    | exchange hp _ _ _ | withdraw hp | getRef hp _ | claim hp | publish hp _ | claimFuture hp =>
      exact .of_core rfl (.goto (by rw [hp]; nofun) (by rw [hp]; rfl) (by rw [hp]; rfl) nofun)
    | createFuture hp _ hj =>
      obtain ⟨-, f, g, rfl⟩ := Sys.takeFree_eq_some hj
      exact .of_core rfl (.goto (by rw [hp]; nofun) (by rw [hp]; rfl) (by rw [hp]; rfl) nofun)
    | sendFuture hp _ _ | publishFuture hp _ =>
      exact .of_core rfl (.keep (by rw [hp]; nofun) (by rw [hp]; rfl) (by rw [hp]; rfl) nofun fun _ => id)
  | request hs =>
    cases hs with
    | dequeue hp _ | done hp _ | reject hp | ackClaim hp | ackPublish hp _ | clear hp =>
      exact .of_core rfl (.goto (by rw [hp]; nofun) (by rw [hp]; rfl) (by rw [hp]; rfl) nofun)
    | acceptFuture hp _ =>
      exact .of_core rfl (.keep (by rw [hp]; nofun) (by rw [hp]; rfl) (by rw [hp]; rfl) nofun fun _ => id)
    | @accept rq hp _ _ =>
      have hself : ((S.listDel rq.job).goto c (.procInsert rq)).core c =
          ((S.core c).listDel rq.job).goto (.procInsert rq) := Function.update_self ..
      rw [hself]
      exact .keep (by rw [hp]; nofun) (by rw [hp]; rfl) (by rw [hp]; rfl) nofun fun _ => id
    | @putReject rq hp =>
      obtain ⟨f, g, he⟩ := (S.goto c .process).putJobRef_eq (some c) rq.job
      rw [he]
      exact .of_core rfl (.goto (by rw [hp]; nofun) (by rw [hp]; rfl) (by rw [hp]; rfl) nofun)
    | @putAccept rq hp =>
      obtain ⟨f, g, he⟩ := ((S.setJob rq.job { S.job rq.job with
        nextMigrationEligibleTick := S.systemTime + jobMigrationCooldownTicks }).goto c
          .process).putJobRef_eq (some c) rq.job
      rw [he]
      exact .of_core rfl (.goto (by rw [hp]; nofun) (by rw [hp]; rfl) (by rw [hp]; rfl) nofun)

/-! ## The processor -/

/-- A completion message of a job that was in time. -/
def CompletionMessage.Timely (cfg : Config) (msg : CompletionMessage) : Prop :=
  ∃ task ∈ cfg.systemTasks, task.id = msg.completedTaskId ∧ task.period ≠ 0 ∧
    msg.jobArrivalTime % task.period = 0 ∧ msg.jobArrivalTime < msg.systemTime ∧
    msg.systemTime ≤ msg.jobArrivalTime + task.deadline

theorem CoreStep.outgoing_cases (hs : CoreStep cfg c S S') : S'.outgoing = S.outgoing ∨
    ∃ j, (S.core c).pc = .complete ∧ (S.core c).runningJob = some j ∧ (S'.core c).pc = .completePut j ∧
      S'.outgoing = S.outgoing ++ [⟨(S.job j).parentTask.id, (S.job j).arrivalTime, S.systemTime⟩] := by
  cases hs with
  | own _ he => exact .inl (by rw [he]; rfl)
  | arrive hs =>
    cases hs with
    | @put j K' _ =>
      obtain ⟨f, g, he⟩ := (S.setCore c K').putJobRef_eq (some c) j
      exact .inl (by rw [he]; rfl)
    | create _ _ _ hj =>
      obtain ⟨-, f, g, rfl⟩ := Sys.takeFree_eq_some hj
      exact .inl rfl
    | complete hp hr =>
      refine .inr ⟨_, hp, hr, ?_, rfl⟩
      dsimp only
      rw [Sys.setCore_core_self]
    | _ => exact .inl rfl
  | discard hs => cases hs <;> exact .inl rfl
  | offer hs =>
    cases hs with
    | createFuture _ _ hj =>
      obtain ⟨-, f, g, rfl⟩ := Sys.takeFree_eq_some hj
      exact .inl rfl
    | _ => exact .inl rfl
  | request hs =>
    cases hs with
    | @putReject rq _ =>
      obtain ⟨f, g, he⟩ := (S.goto c .process).putJobRef_eq (some c) rq.job
      exact .inl (by rw [he]; rfl)
    | @putAccept rq _ =>
      obtain ⟨f, g, he⟩ := ((S.setJob rq.job { S.job rq.job with
        nextMigrationEligibleTick := S.systemTime + jobMigrationCooldownTicks }).goto c
          .process).putJobRef_eq (some c) rq.job
      exact .inl (by rw [he]; rfl)
    | _ => exact .inl rfl

/-- The accounts of all jobs -/
structure Sys.Accounts (cfg : Config) (S : Sys n) : Prop where
  core : ∀ c, (S.core c).Timed S.job S.systemTime
  executed : ∀ j, (S.job j).executedTime ≤ ((S.systemTime - (S.job j).arrivalTime : ℕ) : ℚ)
  arrived : ∀ j, (S.job j).state ≠ .idle → (S.job j).arrivalTime ≤ S.systemTime
  released : ∀ j ∉ S.free, (S.job j).Released cfg
  messages : ∀ msg ∈ S.outgoing, msg.Timely cfg ∧ msg.systemTime ≤ S.systemTime

namespace Sys.Accounts

theorem init (cfg : Config) : (Sys.init n).Accounts cfg := by
  refine ⟨fun c => ⟨fun _ => nofun, fun _ _ => nofun, fun _ => nofun⟩, fun j => Nat.cast_nonneg _,
    fun j h => absurd rfl h, fun j hj => ?_, nofun⟩
  have hcount := Sys.init_free j
  exact absurd (Multiset.count_pos.1 (by omega)) hj

theorem mem_running (hr : (S.core c).runningJob = some j) : j ∈ (S.core c).held :=
  Core.mem_held_of_placed (Core.mem_placed.2 (.inr (.inr (.inr (.inr hr)))))

/-- A running job is not free. -/
theorem notMem_free (hi : Inv S) (hr : (S.core c).runningJob = some j) : j ∉ S.free := fun hf =>
  (hi.of_free hf).1 (Sys.mem_held.2 (.inl ⟨c, mem_running hr⟩))

theorem core_step (h : S.Accounts cfg) (hi : Inv S) (hs : CoreStep cfg c S S') : S'.Accounts cfg := by
  have htime := hs.systemTime_eq
  have hfate := fun j => hs.fate hi j
  refine ⟨fun d => ?_, fun j => ?_, fun j hj => ?_, fun j hj => ?_, fun msg hmsg => ?_⟩
  · -- who runs a job, and its account
    have hacc : ∀ j, (S.core d).runningJob = some j → (d = c → (S.core c).pc ≠ .run) →
        (S'.job j).account = (S.job j).account := by
      intro j hr hne
      cases hfate j with
      | settled hset _ => exact hset.account
      | ran hp hr' _ =>
        have hdc : d = c := hi.core_unique (mem_running hr') (mem_running hr)
        exact absurd hp (hne hdc)
      | born hf _ => exact absurd hf (notMem_free hi hr)
    rw [htime]
    by_cases hdc : d = c
    · subst hdc
      exact hs.tickMove.timed (h.core d) (hi.ok d) fun j hr hp => hacc j hr fun _ => hp
    · have helse := hs.elsewhere hi hdc
      refine (h.core d).congr (by rw [helse.pc]) (by rw [helse.pc]) (by rw [helse.pc]; exact id) ?_
      intro j hr
      rw [helse.runningJob] at hr
      exact ⟨hr, hacc j hr fun he => absurd he hdc⟩
  · rw [htime]
    cases hfate j with
    | settled hset _ =>
      rw [JobRec.account_executed hset.account, JobRec.account_arrival hset.account]
      exact h.executed j
    | ran hp hr hran =>
      obtain ⟨-, hle⟩ := (h.core c).before (by rw [hp]; rfl) j hr
      have hscale := scalingFactor_le_one (S.core c).currentDvfsLevel
      rw [JobRec.account_executed hran, JobRec.account_arrival hran]
      show (S.job j).executedTime + scalingFactor (S.core c).currentDvfsLevel ≤
        ((S.systemTime - (S.job j).arrivalTime : ℕ) : ℚ)
      linarith
    | born _ hfresh =>
      rw [hfresh.executed]
      exact Nat.cast_nonneg _
  · rw [htime]
    cases hfate j with
    | settled hset _ =>
      rw [JobRec.account_arrival hset.account]
      rcases hset.arrived hj with hawake | hle
      · exact h.arrived j hawake
      · exact hle
    | ran hp hr hran =>
      rw [JobRec.account_arrival hran]
      exact h.arrived j ((hi.ok c).running_awake hr)
    | born _ hfresh => exact hfresh.arrived hj
  · cases hfate j with
    | settled hset hf => exact (h.released j fun hm => hj (hf hm)).congr hset.account
    | ran hp hr hran =>
      obtain ⟨htask, hperiod, hrelease, hdeadline⟩ := h.released j (notMem_free hi hr)
      have hrun : ((S.job j).execute (S.core c)).Released cfg := ⟨htask, hperiod, hrelease, hdeadline⟩
      exact hrun.congr hran
    | born _ hfresh => exact hfresh.toReleased
  · rw [htime]
    rcases hs.outgoing_cases with heq | ⟨j, hp, hr, -, heq⟩
    · rw [heq] at hmsg
      exact h.messages msg hmsg
    · rw [heq] at hmsg
      rcases List.mem_append.1 hmsg with hmsg | hmsg
      · exact h.messages msg hmsg
      · obtain rfl := List.mem_singleton.1 hmsg
        obtain ⟨harr, hle⟩ := (h.core c).after (by rw [hp]; rfl) (by rw [hp]; rfl) j hr
        have hrel := h.released j (notMem_free hi hr)
        refine ⟨⟨(S.job j).parentTask, hrel.task, rfl, hrel.period, hrel.release, harr, ?_⟩, le_rfl⟩
        show S.systemTime ≤ (S.job j).arrivalTime + (S.job j).parentTask.deadline
        rw [← hrel.deadline]
        exact hle

/-- A step of the timer within a tick -/
theorem same (h : S.Accounts cfg) (hcore : S'.core = S.core) (htime : S'.systemTime = S.systemTime)
    (hout : S'.outgoing = S.outgoing) (hJ : ∀ j, (S.job j).Settled S.systemTime (S'.job j))
    (hf : ∀ j ∈ S.free, j ∈ S'.free) : S'.Accounts cfg := by
  refine ⟨fun d => ?_, fun j => ?_, fun j hj => ?_, fun j hj => ?_, ?_⟩
  · rw [hcore, htime]
    exact (h.core d).congr rfl rfl id fun j hr => ⟨hr, (hJ j).account⟩
  · rw [htime, JobRec.account_executed (hJ j).account, JobRec.account_arrival (hJ j).account]
    exact h.executed j
  · rw [htime, JobRec.account_arrival (hJ j).account]
    rcases (hJ j).arrived hj with hawake | hle
    · exact h.arrived j hawake
    · exact hle
  · exact (h.released j fun hm => hj (hf j hm)).congr (hJ j).account
  · rw [hout, htime]
    exact h.messages

theorem timer_step (h : S.Accounts cfg) (hi : Inv S) (hs : TimerStep cfg S S') : S'.Accounts cfg := by
  cases hs with
  | sweep _ _ | keep _ _ _ => exact h.same rfl rfl rfl (fun _ => .refl _ _) fun _ => id
  | expire _ _ _ =>
    exact h.same rfl rfl rfl (fun _ => Jobs.set_settled ⟨rfl, .inl⟩) fun _ => id
  | @put k j hp =>
    obtain ⟨f, g, he⟩ := { S with timer := .sweep k }.putJobRef_eq none j
    have hfree := Sys.putJobRef_free { S with timer := .sweep k } none j
    rw [he] at hfree ⊢
    refine h.same rfl rfl rfl (fun _ => Jobs.set_settled ⟨rfl, .inl⟩) fun i hm => ?_
    rw [hfree]
    split_ifs
    · exact Multiset.mem_cons_of_mem hm
    · exact hm
  | @advance k level incoming hp hj hf hl =>
    refine ⟨fun d => ⟨fun _ j hr => ?_, fun hb => ?_, nofun⟩, fun j => ?_, fun j hstate => ?_,
      h.released, fun msg hmsg => ?_⟩
    · -- the running job has had its tick
      have hle : (S.job j).arrivalTime ≤ S.systemTime := h.arrived j ((hi.ok d).running_awake hr)
      refine ⟨Nat.lt_succ_of_le hle, ?_⟩
      show (S.job j).executedTime + 1 ≤ ((S.systemTime + 1 - (S.job j).arrivalTime : ℕ) : ℚ)
      rw [Nat.succ_sub hle, Nat.cast_succ]
      have hexec := h.executed j
      linarith
    · exact (Bool.false_ne_true hb.symm).elim
    · refine (h.executed j).trans ?_
      show ((S.systemTime - (S.job j).arrivalTime : ℕ) : ℚ) ≤
        ((S.systemTime + 1 - (S.job j).arrivalTime : ℕ) : ℚ)
      exact_mod_cast Nat.sub_le_sub_right (Nat.le_succ _) _
    · exact (h.arrived j hstate).trans (Nat.le_succ _)
    · obtain ⟨htimely, hle⟩ := h.messages msg (List.mem_of_mem_drop hmsg)
      exact ⟨htimely, hle.trans (Nat.le_succ _)⟩

theorem step {a : Label n} (h : S.Accounts cfg) (hi : Inv S) (hs : Step cfg S a S') :
    S'.Accounts cfg := by
  cases hs with
  | core _ hs => exact h.core_step hi hs
  | timer hs => exact h.timer_step hi hs

end Sys.Accounts

theorem Reachable.accounts (h : Reachable cfg S) : S.Accounts cfg := by
  obtain ⟨tr, h⟩ := h
  induction h with
  | nil => exact .init cfg
  | snoc h hs ih => exact ih.step (Reachable.inv ⟨_, h⟩) hs

/-- **A job runs at most once a tick**, whichever cores it is moved between: in
    every reachable state what it has executed is at most the time since its
    arrival, and one tick less while its core has not run it in this one. -/
theorem executedTime_le (h : Reachable cfg S) (j : JobId n) :
    (S.job j).executedTime ≤ ((S.systemTime - (S.job j).arrivalTime : ℕ) : ℚ) ∧
      ∀ c, (S.core c).runningJob = some j → (S.core c).pc.toRun = true →
        (S.job j).executedTime + 1 ≤ ((S.systemTime - (S.job j).arrivalTime : ℕ) : ℚ) :=
  ⟨h.accounts.executed j, fun c hr ht => ((h.accounts.core c).before ht j hr).2⟩

/-- **Nothing that is late completes.** In every reachable state a job that
    `handle_running_job` has let through is in time, one that completes has
    executed its actual time, and every message is for a release of a task, which
    has completed after its arrival and by its deadline. -/
theorem completions_in_time (h : Reachable cfg S) :
    (∀ c j, (S.core c).pc.toRun = false → (S.core c).pc.chose = false →
      (S.core c).runningJob = some j → S.systemTime ≤ (S.job j).actualDeadline) ∧
    (∀ c j, (S.core c).pc = .complete → (S.core c).runningJob = some j →
      (S.job j).acet ≤ (S.job j).executedTime) ∧
    ∀ msg ∈ S.outgoing, msg.Timely cfg ∧ msg.systemTime ≤ S.systemTime :=
  ⟨fun c j ht hc hr => ((h.accounts.core c).after ht hc j hr).2,
    fun c j hp hr => (h.accounts.core c).complete hp j hr, h.accounts.messages⟩

namespace OneCore

/-- One core runs a job of the task for a tick, and the job completes. -/
theorem one_completion : ∃ (S : Sys 1) (j : JobId 1), Reachable lowConfig S ∧
    (S.job j).state = .completed ∧ S.systemTime - (S.job j).arrivalTime = 1 ∧
      S.outgoing.map (fun msg => (msg.completedTaskId, msg.jobArrivalTime, msg.systemTime)) =
        [(1, 0, 1)] := by
  have h : Exec (Step lowConfig) (Sys.init 1) [] _ := .nil
  have h := own h (.sync (.start rfl))
  have h := own h (.sync (.equal rfl rfl))
  have h := own h (.sync (.awake rfl rfl))
  have h := own h (.run (.idle rfl rfl))
  have h := own h (.arrival (.pendingEnd rfl nofun))
  have h := shared h (.arrive (@ArriveStep.create _ _ _ _ _ _ _ _ _ 1 rfl ⟨rfl, by decide, rfl⟩ nofun rfl))
  have h := own h (.arrival (.allocIns rfl))
  have h := own h (.arrival (.allocEnd rfl))
  have h := own h (.reclaim (.lock rfl))
  have h := own h (.reclaim (.empty rfl rfl))
  have h := shared h (.discard (.lock rfl ⟨Fin.forall_fin_one.2 rfl, rfl, nofun⟩))
  have h := shared h (.discard (.done rfl rfl))
  have h := own h (.dispatch (.pop rfl rfl nofun rfl))
  have h := own h (.dispatch (.start rfl rfl))
  have h := own h (.power (.begin rfl))
  have h := own h (.power (.dvfsSkip rfl))
  have h := own h (.power (.dpm rfl))
  have h := own h (.power (.summary rfl))
  have h := h.snoc (.timer (.sweep rfl (Fin.forall_fin_one.2 rfl)))
  have h := h.snoc (.timer (@TimerStep.advance _ _ _ _ 0 [] rfl rfl rfl (.inl rfl)))
  have h := own h (.sync (.start rfl))
  have h := own h (.sync (.equal rfl rfl))
  have h := own h (.sync (.awake rfl rfl))
  have h := own h (.run (.complete rfl rfl (fun hm => absurd hm.2 (by decide)) (zero_add (1 : ℚ)).ge))
  have h := shared h (.arrive (.complete rfl rfl))
  exact ⟨_, (0, ⟨49, by decide⟩), ⟨_, h⟩, rfl, rfl, rfl⟩

end OneCore

theorem executedTime_le_one : ∃ (S : Sys 1) (j : JobId 1), (S.job j).state = .completed ∧
    (S.job j).executedTime ≤ ((1 : ℕ) : ℚ) := by
  obtain ⟨S, j, h, hstate, htime, -⟩ := OneCore.one_completion
  have hle := (executedTime_le h j).1
  rw [htime] at hle
  exact ⟨S, j, hstate, hle⟩

theorem completions_in_time_one : ∃ S : Sys 1, S.outgoing.length = 1 ∧
    ∀ msg ∈ S.outgoing, msg.Timely OneCore.lowConfig ∧ msg.systemTime ≤ S.systemTime := by
  obtain ⟨S, j, h, -, -, hout⟩ := OneCore.one_completion
  refine ⟨S, ?_, (completions_in_time h).2.2⟩
  rw [← List.length_map, hout]
  rfl

end EeftSched

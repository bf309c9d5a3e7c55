/-
  Runs of two cores that take turns, without ECC and power management: while one
  of them is in its tick, the other one holds no lock.

  * `pairSys`: the state of the two cores, with what they share;
  * `PairRun`: a run leads to it, and each step of the run meets a condition;
  * the phases of `scheduler_tick`: each of them makes the run longer.
-/
import EeftSched.Pool

namespace EeftSched

open Lts SortedQueue

/-- At these points a core neither handles an entry nor takes a ticket for a request. -/
def Pc.isQuiet {n : ℕ} : Pc n → Bool
  | .alloc (_ :: _) | .offerClaim .. | .futureClaim .. => false
  | _ => true

/-- The options of a build with migration alone -/
structure Config.Plain (cfg : Config) : Prop where
  ecc : cfg.enableEcc = false
  migration : cfg.enableMigration = true
  procrastination : cfg.enableProcrastination = false
  dpm : cfg.enableDpm = false

/-- The state of the two cores `c`, which is at work, and the other one: the jobs,
    the pools, the requests, the acks and the completions -/
def pairSys (time : ℕ) (J : Jobs 2) (f : Fin 2 → List (JobId 2))
    (q : Fin 2 → TicketQueue (MigrationRequest 2)) (a : Fin 2 → TicketQueue DelegationAck)
    (o : List CompletionMessage) (c : Fin 2) (K L : Core 2) : Sys 2 :=
  { Sys.init 2 with
    core := Function.update (fun _ => L) c K
    job := J
    freeList := f
    migrationRequestQueue := q
    delegationAckQueue := a
    systemTime := time
    outgoing := o }

/-- A run leads there from `start` whose steps meet `P`, and the other core holds no
    lock.  A quiet step, and one of the timer, always meet `P`. -/
structure PairRun (cfg : Config) (P : Sys 2 → Label 2 → Prop) (start : Sys 2) (time : ℕ) (J : Jobs 2)
    (f : Fin 2 → List (JobId 2)) (q : Fin 2 → TicketQueue (MigrationRequest 2))
    (a : Fin 2 → TicketQueue DelegationAck) (o : List CompletionMessage) (c : Fin 2)
    (K L : Core 2) : Prop where
  plain : cfg.Plain
  quiet : ∀ S d, (S.core d).pc.isQuiet = true → P S (.core d)
  timer : ∀ S, P S .timer
  rest : ∀ d, L.pc.holds d = ∅
  discard : L.pc.holdsDiscard = false
  run : ∃ tr, Exec (Step cfg) start tr (pairSys time J f q a o c K L) ∧ ∀ x ∈ tr, P x.pre x.lab

variable {cfg : Config} {P : Sys 2 → Label 2 → Prop} {start : Sys 2} {time : ℕ} {J J' : Jobs 2}
  {f f' : Fin 2 → List (JobId 2)} {q q' : Fin 2 → TicketQueue (MigrationRequest 2)} {a a' : Fin 2 → TicketQueue DelegationAck}
  {o o' : List CompletionMessage} {c : Fin 2} {K K' L : Core 2} {S : Sys 2} {p : Pc 2} {j : JobId 2}

theorem pairSys_core : (pairSys time J f q a o c K L).core c = K := by
  show Function.update (fun _ => L) c K c = K
  exact Function.update_self ..

theorem pairSys_core_of_ne {d : Fin 2} (h : d ≠ c) : (pairSys time J f q a o c K L).core d = L := by
  show Function.update (fun _ => L) c K d = L
  rw [Function.update_of_ne h]

theorem pairSys_arrived (d : Fin 2) :
    ((pairSys time J f q a o c (K.goto .arrived) (L.goto .arrived)).core d).pc = .arrived := by
  by_cases hd : d = c
  · rw [hd, pairSys_core]
    rfl
  · rw [pairSys_core_of_ne hd]
    rfl

theorem pairSys_setCore :
    (pairSys time J f q a o c K L).setCore c K' = pairSys time J f q a o c K' L := by
  unfold Sys.setCore pairSys
  dsimp only
  rw [Function.update_idem]

theorem pairSys_goto :
    (pairSys time J f q a o c K L).goto c p = pairSys time J f q a o c (K.goto p) L := by
  rw [Sys.goto, pairSys_core, pairSys_setCore]

theorem eq_rev_iff {d : Fin 2} : d = c.rev ↔ d ≠ c := by
  rw [Ne, Fin.ext_iff, Fin.ext_iff, Fin.val_rev]
  omega

/-- The two cores change their parts. -/
theorem pairSys_rev : pairSys time J f q a o c K L = pairSys time J f q a o c.rev L K := by
  have hcore : Function.update (fun _ => L) c K = Function.update (fun _ => K) c.rev L := by
    funext d
    by_cases hd : d = c
    · have hrev : d ≠ c.rev := fun he => eq_rev_iff.1 he hd
      rw [Function.update_of_ne hrev, hd, Function.update_self]
    · rw [Function.update_of_ne hd, eq_rev_iff.2 hd, Function.update_self]
  unfold pairSys
  rw [hcore]

theorem Core.scanned_of_nil {taskId time : ℕ} (h : K.delegatedJobQueue = []) :
    K.scanned taskId time = K := by
  unfold Core.scanned
  rw [h]
  exact congrArg (fun D => { K with delegatedJobQueue := D }) h.symm

theorem Core.not_delegatedAt_of_nil {taskId time : ℕ} (h : K.delegatedJobQueue = []) :
    ¬ K.delegatedAt taskId time := by
  unfold Core.delegatedAt
  rw [h]
  exact Bool.false_ne_true

section

variable {n : ℕ} {K : Core n} {J : Jobs n} {j : JobId n}

theorem Core.addArrival_of_primary (hk : (J j).isReplica = false)
    (hl : K.localCriticalityLevel ≤ (J j).parentTask.critLevel) :
    K.addArrival J j =
      { K with readyQueue := insertBy (vdOf J) j K.readyQueue, decisionPoint := true } := by
  rw [Core.addArrival, if_neg hl.not_gt, Core.addByKind, hk]
  rfl

/-- `select_next_job` takes the first job of the ready queue, and `dispatch_job` runs it. -/
theorem Core.dispatch_steps {l : List (JobId n)} {X : Ctx n} (hq : K.readyQueue = j :: l)
    (hr : K.replicaQueue = []) (hrun : K.runningJob = none) (hk : (J j).isReplica = false) :
    LocalStep X (K.goto .select) J ({ K with readyQueue := l }.goto (.dispatch j)) (J.set j (J j).unlink) ∧
    LocalStep X ({ K with readyQueue := l }.goto (.dispatch j)) (J.set j (J j).unlink)
      ({ K with
          readyQueue := l
          runningJob := some j
          isIdle := false
          decisionPoint := true }.goto .dispatched)
      (J.set j { (J j).unlink with state := .running }) := by
  have hqueue : (K.goto .select).queue (J j).isReplica = j :: l := by
    rw [hk]
    exact hq
  have hset : (K.goto .select).setQueue (J j).isReplica l = { K.goto .select with readyQueue := l } := by
    rw [hk]
    rfl
  have hnext : nextCandidate (K.goto .select) J = some j := by
    unfold nextCandidate
    rw [show (K.goto .select).readyQueue = j :: l from hq, show (K.goto .select).replicaQueue = [] from hr]
  have hbeats : beatsRunning (K.goto .select) J j := fun i hi => by cases hrun.symm.trans hi
  have hpop : LocalStep X (K.goto .select) J _ _ := .dispatch (.pop rfl hnext hbeats (congrArg List.head? hqueue))
  rw [hqueue, List.tail_cons, hset] at hpop
  have hstart : LocalStep X ({ K with readyQueue := l }.goto (.dispatch j)) (J.set j (J j).unlink) _ _ :=
    .dispatch (.start rfl hrun)
  have hjob : (J.set j (J j).unlink).set j { (J.set j (J j).unlink) j with state := .running } =
      J.set j { (J j).unlink with state := .running } := by
    unfold Jobs.set
    rw [Function.update_idem, Function.update_self]
  rw [hjob] at hstart
  exact ⟨hpop, hstart⟩

end

namespace PairRun

/-- The other core does not keep the core at work waiting. -/
theorem unblocked (h : PairRun cfg P start time J f q a o c K L) :
    (pairSys time J f q a o c K L).Unblocked c := by
  intro l _ e he hm
  rw [pairSys_core_of_ne he, h.rest e] at hm
  exact Finset.notMem_empty l hm

theorem discardFree (h : PairRun cfg P start time J f q a o c K L) (hK : K.pc.holdsDiscard = false) :
    (pairSys time J f q a o c K L).DiscardFree := by
  refine ⟨fun e => ?_, rfl, nofun⟩
  by_cases he : e = c
  · rw [he, pairSys_core, hK]
  · rw [pairSys_core_of_ne he, h.discard]

/-- A step of the core at work is one of the processor. -/
theorem step (h : PairRun cfg P start time J f q a o c K L)
    (hs : CoreStep cfg c (pairSys time J f q a o c K L) S) :
    Step cfg (pairSys time J f q a o c K L) (.core c) S := .core h.unblocked hs

/-- The core at work takes a step. -/
theorem core (h : PairRun cfg P start time J f q a o c K L)
    (hP : P (pairSys time J f q a o c K L) (.core c))
    (hs : CoreStep cfg c (pairSys time J f q a o c K L) S)
    (he : S = pairSys time J' f' q' a' o' c K' L) : PairRun cfg P start time J' f' q' a' o' c K' L := by
  obtain ⟨tr, hrun, htr⟩ := h.run
  subst he
  refine ⟨h.plain, h.quiet, h.timer, h.rest, h.discard, _, hrun.snoc (h.step hs), ?_⟩
  intro x hx
  rcases List.mem_append.1 hx with hx | hx
  · exact htr x hx
  · obtain rfl := List.mem_singleton.1 hx
    exact hP

/-- It takes a quiet step. -/
theorem quiet_step (h : PairRun cfg P start time J f q a o c (K.goto p) L) (hp : p.isQuiet = true)
    (hs : CoreStep cfg c (pairSys time J f q a o c (K.goto p) L) S)
    (he : S = pairSys time J' f' q' a' o' c K' L) : PairRun cfg P start time J' f' q' a' o' c K' L := by
  refine h.core (h.quiet _ c ?_) hs he
  rw [pairSys_core]
  exact hp

/-- A step of the core alone -/
theorem local_step (hs : LocalStep ⟨cfg, c, time, 0, []⟩ K J K' J') :
    CoreStep cfg c (pairSys time J f q a o c K L) (pairSys time J' f q a o c K' L) := by
  have hstep : CoreStep cfg c (pairSys time J f q a o c K L)
      { (pairSys time J f q a o c K L).setCore c K' with job := J' } := by
    refine .own ?_ rfl
    rw [pairSys_core]
    exact hs
  rw [pairSys_setCore] at hstep
  exact hstep

theorem own (h : PairRun cfg P start time J f q a o c (K.goto p) L) (hp : p.isQuiet = true)
    (hs : LocalStep ⟨cfg, c, time, 0, []⟩ (K.goto p) J K' J') :
    PairRun cfg P start time J' f q a o c K' L :=
  h.quiet_step hp (local_step hs) rfl

/-- The two cores change their parts. -/
theorem swap (h : PairRun cfg P start time J f q a o c K L) (hK : ∀ d, K.pc.holds d = ∅)
    (hd : K.pc.holdsDiscard = false) : PairRun cfg P start time J f q a o c.rev L K :=
  ⟨h.plain, h.quiet, h.timer, hK, hd, pairSys_rev ▸ h.run⟩

/-- The timer, when both cores wait at the barrier -/
theorem nextTick (h : PairRun cfg P start time J f q a o c (K.goto .arrived) (L.goto .arrived)) :
    PairRun cfg P start (time + 1) J f q a (o.drop messageQueueSize) c (K.goto .start) (L.goto .start) := by
  obtain ⟨tr, hrun, htr⟩ := h.run
  set S := pairSys time J f q a o c (K.goto .arrived) (L.goto .arrived)
  have hself : S.core c = K.goto .arrived := pairSys_core
  have hother : ∀ {d}, d ≠ c → S.core d = L.goto .arrived := pairSys_core_of_ne
  have hcore : (fun d => (S.core d).goto .start) =
      Function.update (fun _ => L.goto .start) c (K.goto .start) := by
    funext d
    by_cases hd : d = c
    · rw [hd, hself, Function.update_self]
      rfl
    · rw [hother hd, Function.update_of_ne hd]
      rfl
  refine ⟨h.plain, h.quiet, h.timer, fun _ => rfl, rfl, ?_⟩
  unfold pairSys
  rw [← hcore]
  refine ⟨_, (hrun.snoc (.timer (.sweep rfl pairSys_arrived))).snoc (.timer (.advance rfl rfl rfl (.inl rfl))), ?_⟩
  intro x hx
  rcases List.mem_append.1 hx with hx | hx
  · rcases List.mem_append.1 hx with hx | hx
    · exact htr x hx
    · obtain rfl := List.mem_singleton.1 hx
      exact h.timer _
  · obtain rfl := List.mem_singleton.1 hx
    exact h.timer _

theorem init (hcfg : cfg.Plain) (hq : ∀ S d, (S.core d).pc.isQuiet = true → P S (.core d))
    (ht : ∀ S, P S .timer) :
    PairRun cfg P (Sys.init 2) 0 (fun _ => JobRec.blank) (Sys.init 2).freeList (fun _ => .empty) (fun _ => .empty)
      [] c ((Core.init 2).goto .start) ((Core.init 2).goto .start) := by
  refine ⟨hcfg, hq, ht, fun _ => rfl, rfl, [], ?_, nofun⟩
  have hinit : pairSys 0 (fun _ => JobRec.blank) (Sys.init 2).freeList (fun _ => .empty)
      (fun _ => .empty) [] c ((Core.init 2).goto .start) ((Core.init 2).goto .start) = Sys.init 2 := by
    unfold pairSys
    rw [Function.update_eq_self_iff.2 rfl]
    rfl
  rw [hinit]
  exact .nil

/-! ### The phases of a tick -/

/-- To `handle_running_job` -/
theorem toRun (h : PairRun cfg P start time J f q a o c (K.goto .start) L)
    (hl : K.localCriticalityLevel = 0) (hs : K.inLowPowerState = false) :
    PairRun cfg P start time J f q a o c (K.goto .run) L := by
  have hecc := h.plain.ecc
  have h := h.own rfl (.sync (.start rfl))
  rw [if_neg (by rw [hecc]; exact Bool.false_ne_true)] at h
  have h : PairRun cfg P start time J f q a o c (K.goto .lowPower) L := h.own rfl (.sync (.equal rfl hl))
  exact h.own rfl (.sync (.awake rfl hs))

/-- Nothing runs. -/
theorem idle (h : PairRun cfg P start time J f q a o c (K.goto .run) L) (hr : K.runningJob = none) :
    PairRun cfg P start time J f q a o c (K.goto (.pending 0)) L :=
  h.own rfl (.run (.idle rfl hr))

/-- The running job runs for one more tick. -/
theorem go (h : PairRun cfg P start time J f q a o c (K.goto .run) L) (hr : K.runningJob = some j)
    (hm : time ≤ (J j).actualDeadline) (hc : ((J j).execute K).executedTime < (J j).acet)
    (ho : ((J j).execute K).executedTime < (J j).wcet) :
    PairRun cfg P start time (J.set j ((J j).execute K)) f q a o c (K.goto (.pending 0)) L :=
  h.own rfl (.run (.go rfl hr (fun hm' => absurd hm'.2 hm.not_gt) hc.not_ge ho.not_ge))

/-- The running job completes, and goes back to the pool of its core. -/
theorem complete (h : PairRun cfg P start time J f q a o c (K.goto .run) L) (hr : K.runningJob = some j)
    (hm : time ≤ (J j).actualDeadline) (hc : (J j).acet ≤ ((J j).execute K).executedTime)
    (href : (J j).refcount = 1) (hj : j.1 = c) :
    ∃ J' o', PairRun cfg P start time J' (Function.update f c (j :: f c)) q a o' c
      ({ K with decisionPoint := true, runningJob := none, isIdle := true }.goto (.pending 0)) L ∧
      ∀ i, i ≠ j → J' i = J i := by
  set J₁ := J.set j ((J j).execute K)
  set K₁ := { K with decisionPoint := true }
  set J₂ := J₁.set j { J₁ j with state := .completed }
  set o' := o ++ [⟨(J₁ j).parentTask.id, (J₁ j).arrivalTime, time⟩]
  set K₂ := { K₁ with runningJob := none }
  have h : PairRun cfg P start time J₁ f q a o c (K₁.goto .complete) L :=
    h.own rfl (.run (.complete rfl hr (fun hm' => absurd hm'.2 hm.not_gt) hc))
  have hcore : (pairSys time J₁ f q a o c (K₁.goto .complete) L).core c = K₁.goto .complete := pairSys_core
  have hstep : ArriveStep cfg c (pairSys time J₁ f q a o c (K₁.goto .complete) L) _ :=
    .complete (congrArg Core.pc hcore) ((congrArg Core.runningJob hcore).trans hr)
  rw [hcore] at hstep
  have h : PairRun cfg P start time J₂ f q a o' c (K₂.goto (.completePut j)) L :=
    h.quiet_step rfl (.arrive hstep) (pairSys_setCore (J := J₂) (K := K₁.goto .complete) (o := o'))
  have hone : (J₂ j).refcount = 1 := by
    simp only [J₂, J₁, Jobs.set, Function.update_self]
    exact href
  have hput : PutStep ((pairSys time J₂ f q a o' c (K₂.goto (.completePut j)) L).core c) j
      ({ K₂ with isIdle := true }.goto (.pending 0)) := by
    rw [pairSys_core]
    exact .completePut rfl
  refine ⟨J₂.set j { J₂ j with refcount := (J₂ j).refcount - 1 }, o',
    h.quiet_step rfl (.arrive (.put hput)) ?_, fun i hi => ?_⟩
  · rw [pairSys_setCore]
    exact (Sys.putJobRef_last hone hj).trans rfl
  · simp only [J₂, J₁, Jobs.set]
    rw [Function.update_of_ne hi, Function.update_of_ne hi, Function.update_of_ne hi]

/-- No pending job is due. -/
theorem pendingEnd (h : PairRun cfg P start time J f q a o c (K.goto (.pending 0)) L)
    (hj : ∀ j, K.pendingJobsQueue[0]? = some j → time < (J j).arrivalTime) :
    PairRun cfg P start time J f q a o c (K.goto (.alloc (cfg.entries c))) L :=
  h.own rfl (.arrival (.pendingEnd rfl hj))

section

variable {m : TaskAlloc} {ms : List TaskAlloc} {task : Task} {rest : List (JobId 2)}

/-- An entry whose task is not released now -/
theorem skip (h : PairRun cfg P start time J f q a o c (K.goto (.alloc (m :: ms))) L)
    (hP : P (pairSys time J f q a o c (K.goto (.alloc (m :: ms))) L) (.core c))
    (hm : cfg.findTaskById m.taskId = some task) (ht : time % task.period ≠ 0) :
    PairRun cfg P start time J f q a o c (K.goto (.alloc ms)) L :=
  h.core hP (local_step (.arrival (.allocSkip rfl (Ctx.not_releases hm ht)))) rfl

/-- A job is created for an entry. -/
theorem create_step (acet : ℚ)
    (hm : cfg.findTaskById m.taskId = some task ∧ task.period ≠ 0 ∧ time % task.period = 0)
    (hd : ¬ K.delegatedAt task.id time) (hf : f c = j :: rest) :
    CoreStep cfg c (pairSys time J f q a o c (K.goto (.alloc (m :: ms))) L)
      (pairSys time (J.set j (arrivedJob c time K.localCriticalityLevel m task acet))
        (Function.update f c rest) q a o c ((K.scanned task.id time).goto (.allocIns j ms)) L) := by
  set K₁ := K.goto (.alloc (m :: ms))
  set S := pairSys time J f q a o c K₁ L
  have hcore : S.core c = K₁ := pairSys_core
  have hnot : ¬ (S.core c).delegatedAt task.id S.systemTime := by
    rw [hcore]
    exact hd
  have hstep : ArriveStep cfg c S
      (({ S with freeList := Function.update S.freeList c rest }.setJob j
          (arrivedJob c time (S.core c).localCriticalityLevel m task acet)).setCore c
        (((S.core c).scanned task.id time).goto (.allocIns j ms))) :=
    .create (congrArg Core.pc hcore) hm hnot (Sys.takeFree_of_cons hf)
  rw [hcore] at hstep
  refine .arrive ?_
  rw [← pairSys_setCore (K := K₁)]
  exact hstep

/-- A release of a task, on a core without delegations -/
theorem create (h : PairRun cfg P start time J f q a o c (K.goto (.alloc (m :: ms))) L)
    (hP : P (pairSys time J f q a o c (K.goto (.alloc (m :: ms))) L) (.core c))
    (hm : cfg.findTaskById m.taskId = some task ∧ task.period ≠ 0 ∧ time % task.period = 0)
    (hd : K.delegatedJobQueue = []) (hf : f c = j :: rest) (hk : m.taskType = .primary)
    (hl : K.localCriticalityLevel ≤ task.critLevel) (acet : ℚ) :
    let r := arrivedJob c time K.localCriticalityLevel m task acet
    PairRun cfg P start time ((J.set j r).set j r.link) (Function.update f c rest) q a o c
      ({ K with
          readyQueue := insertBy (vdOf (J.set j r)) j K.readyQueue
          decisionPoint := true }.goto (.alloc ms)) L := by
  intro r
  have h := h.core hP (create_step acet hm (Core.not_delegatedAt_of_nil hd) hf) rfl
  rw [Core.scanned_of_nil hd] at h
  have hself : (J.set j r) j = r := Function.update_self ..
  have hkind : ((J.set j r) j).isReplica = false := by
    rw [hself]
    show (m.taskType == .replica) = false
    rw [hk]
    rfl
  have hlevel : (K.goto (.allocIns j ms)).localCriticalityLevel ≤ ((J.set j r) j).parentTask.critLevel := by
    rw [hself]
    exact hl
  have h := h.own rfl (.arrival (.allocIns rfl))
  rw [Core.addArrival_of_primary hkind hlevel, hself] at h
  exact h

end

/-- From the end of the arrivals to `update_delegations` -/
theorem reclaimed (h : PairRun cfg P start time J f q a o c (K.goto (.alloc [])) L) (hK : K.discardList = []) :
    PairRun cfg P start time J f q a o c (K.goto .updateDelegations) L := by
  have hmigration := h.plain.migration
  have h := h.own rfl (.arrival (.allocEnd rfl))
  have h := h.own rfl (.reclaim (.lock rfl))
  have h : PairRun cfg P start time J f q a o c (K.goto .reclaimLock) L := h.own rfl (.reclaim (.empty rfl hK))
  have h := h.quiet_step rfl (.discard (.lock (congrArg Core.pc pairSys_core) (h.discardFree rfl)))
    pairSys_goto
  have h := h.quiet_step rfl (.discard (.done (congrArg Core.pc pairSys_core) rfl)) pairSys_goto
  rw [if_pos hmigration] at h
  exact h

/-- From the end of the arrivals to `attempt_migration_push`, without acks -/
theorem close (h : PairRun cfg P start time J f q a o c (K.goto (.alloc [])) L) (hK : K.discardList = [])
    (hq : (a c).tryDequeue = none) : PairRun cfg P start time J f q a o c (K.goto .push) L :=
  (h.reclaimed hK).quiet_step rfl (.discard (.acked (congrArg Core.pc pairSys_core) hq)) pairSys_goto

/-- `update_delegations` reads the only ack. -/
theorem readAck {ack : DelegationAck} (h : PairRun cfg P start time J f q a o c (K.goto .updateDelegations) L)
    (ha : a c = ⟨0, [(ack, true)]⟩) :
    PairRun cfg P start time J f q (Function.update a c ⟨1, []⟩) o c
      ({ K with delegatedJobQueue := updateDelegation ack K.delegatedJobQueue }.goto .push) L := by
  have hcore : ∀ {a K}, (pairSys time J f q a o c K L).core c = K := pairSys_core
  set a' := Function.update a c ⟨1, []⟩ with ha'
  set K' := { K with delegatedJobQueue := updateDelegation ack K.delegatedJobQueue }
  have hstep : DiscardStep cfg c (pairSys time J f q a o c (K.goto .updateDelegations) L) _ :=
    .ack (congrArg Core.pc hcore) (congrArg TicketQueue.tryDequeue ha)
  rw [hcore] at hstep
  have h : PairRun cfg P start time J f q a' o c (K'.goto .updateDelegations) L :=
    h.quiet_step rfl (.discard hstep) (pairSys_setCore (a := a'))
  have hempty : (a' c).tryDequeue = none := by
    rw [ha', Function.update_self]
    rfl
  exact h.quiet_step rfl (.discard (.acked (congrArg Core.pc hcore) hempty)) pairSys_goto

/-- A job of a queue goes on offer to the other core. -/
theorem target {replica : Bool} {k : ℕ}
    (h : PairRun cfg P start time J f q a o c (K.goto (.offer replica k)) L)
    (hk : (K.queue replica)[k]? = some j) (hp : isMigrationProfitable (J j) time)
    (hf : (J j).isBeingOffered = false) :
    PairRun cfg P start time
      (J.set j { J j with isBeingOffered := true, refcount := (J j).refcount + 1 }) f q a o c
      (K.goto (.offerClaim j c.rev replica k)) L := by
  have hcore : ∀ {J K}, (pairSys time J f q a o c K L).core c = K := pairSys_core
  set J₁ := J.set j { J j with isBeingOffered := true }
  have hqueue : (((pairSys time J f q a o c (K.goto (.offer replica k)) L).core c).queue
      replica)[k]? = some j := by
    rw [hcore]
    exact hk
  have h : PairRun cfg P start time J₁ f q a o c (K.goto (.offerTarget j replica k)) L :=
    h.quiet_step rfl (.offer (.exchange (congrArg Core.pc hcore) hqueue hp hf)) (pairSys_goto (J := J₁))
  have hjob : J₁.set j { J₁ j with refcount := (J₁ j).refcount + 1 } =
      J.set j { J j with isBeingOffered := true, refcount := (J j).refcount + 1 } := by
    simp only [J₁, Jobs.set, Function.update_idem, Function.update_self]
  rw [← hjob]
  exact h.quiet_step rfl (.offer (.getRef (congrArg Core.pc hcore) (eq_rev_iff.1 rfl)))
    (pairSys_goto (J := J₁.set j { J₁ j with refcount := (J₁ j).refcount + 1 }))

/-- The request goes to the other core, which has room for it. -/
theorem send {replica : Bool} {k : ℕ}
    (h : PairRun cfg P start time J f q a o c (K.goto (.offerClaim j c.rev replica k)) L)
    (hP : P (pairSys time J f q a o c (K.goto (.offerClaim j c.rev replica k)) L) (.core c))
    (hlen : (q c.rev).slots.length < maxMigrationRequests) :
    PairRun cfg P start time J f
      (Function.update q c.rev (((q c.rev).claim ⟨j, c⟩).publish (q c.rev).tail)) a o c
      (K.goto (.offer replica (k + 1))) L := by
  set q₁ := Function.update q c.rev ((q c.rev).claim ⟨j, c⟩) with hq₁
  have hfree : (q₁ c.rev).Free maxMigrationRequests (q c.rev).tail := by
    rw [hq₁, Function.update_self]
    exact Nat.add_lt_add_left hlen _
  have h : PairRun cfg P start time J f q₁ a o c (K.goto (.offerPublish c.rev (q c.rev).tail replica k)) L :=
    h.core hP (.offer (.claim (congrArg Core.pc pairSys_core))) (pairSys_goto (q := q₁))
  have hpub : Function.update q₁ c.rev ((q₁ c.rev).publish (q c.rev).tail) =
      Function.update q c.rev (((q c.rev).claim ⟨j, c⟩).publish (q c.rev).tail) := by
    rw [hq₁, Function.update_idem, Function.update_self]
  rw [← hpub]
  exact h.quiet_step rfl (.offer (.publish (congrArg Core.pc pairSys_core) hfree))
    (pairSys_goto (q := Function.update q₁ c.rev ((q₁ c.rev).publish (q c.rev).tail)))

/-- The first request is taken, and the locks of both cores. -/
theorem take (h : PairRun cfg P start time J f q a o c (K.goto .process) L)
    (hq : q c = ⟨0, [(⟨j, c.rev⟩, true)]⟩) :
    PairRun cfg P start time J f (Function.update q c ⟨1, []⟩) a o c (K.goto (.procDecide ⟨j, c.rev⟩)) L := by
  set q₁ := Function.update q c ⟨1, []⟩
  have h : PairRun cfg P start time J f q₁ a o c (K.goto (.procLock1 ⟨j, c.rev⟩)) L :=
    h.quiet_step rfl
      (.request (.dequeue (congrArg Core.pc pairSys_core) (congrArg TicketQueue.tryDequeue hq)))
      (pairSys_goto (q := q₁))
  have h := h.own rfl (.process (.lock1 rfl))
  rw [if_neg (eq_rev_iff.1 rfl)] at h
  exact h.own rfl (.process (.lock2 rfl))

/-- The three steps that take in a future job of the other core: the job is pending, the
    ack is sent, and the tick is written from which the job may migrate. -/
theorem intake_steps (ha : a c.rev = .empty) (hi : (J j).state = .idle ∧ time < (J j).arrivalTime)
    (hp : K.pendingJobsQueue = []) :
    let r : MigrationRequest 2 := ⟨j, c.rev⟩
    let K₁ := { K with pendingJobsQueue := [j] }
    let J₁ := J.set j ((J j).retune K.localCriticalityLevel).link
    let J₂ := J₁.set j { J₁ j with
      isBeingOffered := false
      nextMigrationEligibleTick := time + jobMigrationCooldownTicks }
    let a₁ := Function.update a c.rev ⟨0, [(acceptAck (J j), false)]⟩
    CoreStep cfg c (pairSys time J f q a o c (K.goto (.procDecide r)) L)
      (pairSys time J₁ f q a o c (K₁.goto (.procAckClaim r)) L) ∧
    CoreStep cfg c (pairSys time J₁ f q a o c (K₁.goto (.procAckClaim r)) L)
      (pairSys time J₁ f q a₁ o c (K₁.goto (.procAckPublish r 0)) L) ∧
    CoreStep cfg c (pairSys time J₁ f q a₁ o c (K₁.goto (.procAckPublish r 0)) L)
      (pairSys time J₂ f q (Function.update a c.rev ⟨0, [(acceptAck (J j), true)]⟩) o c
        (K₁.goto .process) L) := by
  intro r K₁ J₁ J₂ a₁
  have hcore : ∀ {J a K}, (pairSys time J f q a o c K L).core c = K := pairSys_core
  have of_eq : ∀ {S T U : Sys 2}, RequestStep cfg c S T → T = U → CoreStep cfg c S U := by
    rintro S T _ hs rfl
    exact .request hs
  refine ⟨?_, ?_, ?_⟩
  · have hstep : RequestStep cfg c (pairSys time J f q a o c (K.goto (.procDecide r)) L) _ :=
      .acceptFuture (congrArg Core.pc hcore) hi
    rw [hcore] at hstep
    refine of_eq hstep ((pairSys_setCore (J := J₁)).trans ?_)
    rw [show (K.goto (.procDecide r)).pendingJobsQueue = [] from hp]
    rfl
  · have hstep : RequestStep cfg c (pairSys time J₁ f q a o c (K₁.goto (.procAckClaim r)) L) _ :=
      .ackClaim (congrArg Core.pc hcore)
    have hjob : (pairSys time J₁ f q a o c (K₁.goto (.procAckClaim r)) L).job r.job =
        ((J j).retune K.localCriticalityLevel).link := Function.update_self ..
    have hqueue : (pairSys time J₁ f q a o c (K₁.goto (.procAckClaim r)) L).delegationAckQueue c.rev =
      .empty := ha
    rw [hjob, hqueue] at hstep
    exact of_eq hstep (pairSys_goto (a := a₁))
  · have hslots : a₁ c.rev = ⟨0, [(acceptAck (J j), false)]⟩ := Function.update_self ..
    have hfree : (a₁ c.rev).Free maxFutureDelegations 0 := by
      rw [hslots]
      exact Nat.succ_pos _
    have hpub : Function.update a₁ c.rev ((a₁ c.rev).publish 0) =
        Function.update a c.rev ⟨0, [(acceptAck (J j), true)]⟩ := by
      rw [hslots]
      simp only [a₁]
      rw [Function.update_idem]
      rfl
    have hstep : RequestStep cfg c (pairSys time J₁ f q a₁ o c (K₁.goto (.procAckPublish r 0)) L) _ :=
      .ackPublish (congrArg Core.pc hcore) hfree
    rw [← hpub]
    exact of_eq hstep (pairSys_goto (J := J₂) (a := Function.update a₁ c.rev ((a₁ c.rev).publish 0)))

/-- Nothing to process -/
theorem done_step (hq : (q c).tryDequeue = none) :
    CoreStep cfg c (pairSys time J f q a o c (K.goto .process) L) (pairSys time J f q a o c (K.goto .select) L) := by
  have hstep : RequestStep cfg c (pairSys time J f q a o c (K.goto .process) L) _ :=
    .done (congrArg Core.pc pairSys_core) hq
  rw [pairSys_goto] at hstep
  exact .request hstep

theorem processed (h : PairRun cfg P start time J f q a o c (K.goto .process) L)
    (hq : (q c).tryDequeue = none) : PairRun cfg P start time J f q a o c (K.goto .select) L :=
  h.quiet_step rfl (done_step hq) rfl

/-- The first job of the ready queue is dispatched. -/
theorem dispatch {l : List (JobId 2)} (h : PairRun cfg P start time J f q a o c (K.goto .select) L)
    (hq : K.readyQueue = j :: l) (hr : K.replicaQueue = []) (hrun : K.runningJob = none)
    (hk : (J j).isReplica = false) :
    PairRun cfg P start time (J.set j { (J j).unlink with state := .running }) f q a o c
      ({ K with
          readyQueue := l
          runningJob := some j
          isIdle := false
          decisionPoint := true }.goto .dispatched) L := by
  obtain ⟨hpop, hstart⟩ := Core.dispatch_steps hq hr hrun hk
  exact (h.own rfl hpop).own rfl hstart

/-- The first job of the ready queue takes the place of the running one. -/
theorem preempt {i : JobId 2} (h : PairRun cfg P start time J f q a o c (K.goto .select) L)
    (hq : K.readyQueue = [j]) (hr : K.replicaQueue = []) (hrun : K.runningJob = some i) (hne : i ≠ j)
    (hvd : (J j).virtualDeadline < (J i).virtualDeadline) (hk : (J j).isReplica = false)
    (hki : (J i).isReplica = false) :
    ∃ J', PairRun cfg P start time J' f q a o c
      ({ K with
          readyQueue := [i]
          runningJob := some j
          isIdle := false
          decisionPoint := true }.goto .dispatched) L ∧ ∀ k, k ≠ i → k ≠ j → J' k = J k := by
  have hset : (K.goto .select).setQueue (J j).isReplica [] = { K.goto .select with readyQueue := [] } := by
    rw [hk]
    rfl
  have hqueue : (K.goto .select).queue (J j).isReplica = [j] := by
    rw [hk]
    exact hq
  have hnext : nextCandidate (K.goto .select) J = some j := by
    unfold nextCandidate
    rw [show (K.goto .select).readyQueue = [j] from hq, show (K.goto .select).replicaQueue = [] from hr]
  have hbeats : beatsRunning (K.goto .select) J j := by
    intro r hr
    obtain rfl := Option.some.inj (hrun.symm.trans hr)
    exact hvd
  have h := h.own rfl (.dispatch (.pop rfl hnext hbeats (congrArg List.head? hqueue)))
  rw [hqueue, List.tail_cons, hset] at h
  set J₁ := J.set j (J j).unlink
  have hkind : (J₁ i).isReplica = false := by
    rw [show J₁ i = J i from Function.update_of_ne hne ..]
    exact hki
  have hadd : ∀ M : Core 2, M.readyQueue = [] → M.addByKind J₁ i = { M with readyQueue := [i] } := by
    intro M hM
    rw [Core.addByKind, hkind]
    show { M with readyQueue := insertBy (vdOf J₁) i M.readyQueue } = _
    rw [hM]
    rfl
  have h := h.own rfl (.dispatch (.switch rfl hrun))
  rw [hadd _ rfl] at h
  refine ⟨_, h, fun k hi hj => ?_⟩
  simp only [J₁, Jobs.set]
  rw [Function.update_of_ne hj, Function.update_of_ne hi, Function.update_of_ne hj]

/-- The queued jobs come after the running one. -/
theorem keep {i : JobId 2} {l : List (JobId 2)} (h : PairRun cfg P start time J f q a o c (K.goto .select) L)
    (hq : K.readyQueue = j :: l) (hr : K.replicaQueue = []) (hrun : K.runningJob = some i)
    (hvd : (J i).virtualDeadline ≤ (J j).virtualDeadline) :
    PairRun cfg P start time J f q a o c (K.goto .dispatched) L := by
  have hnext : nextCandidate (K.goto .select) J = some j := by
    unfold nextCandidate
    rw [show (K.goto .select).readyQueue = j :: l from hq, show (K.goto .select).replicaQueue = [] from hr]
  refine h.own rfl (.dispatch (.none rfl fun k hk hbeats => ?_))
  obtain rfl := Option.some.inj (hnext.symm.trans hk)
  exact absurd (hbeats i hrun) hvd.not_gt

/-- Nothing is ready. -/
theorem stay (h : PairRun cfg P start time J f q a o c (K.goto .select) L) (hq : K.readyQueue = [])
    (hr : K.replicaQueue = []) : PairRun cfg P start time J f q a o c (K.goto .dispatched) L := by
  have hnext : nextCandidate (K.goto .select) J = none := by
    unfold nextCandidate
    rw [show (K.goto .select).readyQueue = [] from hq, show (K.goto .select).replicaQueue = [] from hr]
  refine h.own rfl (.dispatch (.none rfl fun j hj => ?_))
  cases hnext.symm.trans hj

/-- From the dispatch to the barrier -/
theorem finish (h : PairRun cfg P start time J f q a o c (K.goto .dispatched) L) :
    PairRun cfg P start time J f q a o c (K.goto .arrived) L := by
  have hplain := h.plain
  have h := h.own rfl (.power (.begin rfl))
  rw [if_neg (by rw [hplain.procrastination]; exact Bool.false_ne_true)] at h
  have h := h.own rfl (.power (.dvfsSkip rfl))
  have h := h.own rfl (.power (.dpm rfl))
  rw [if_neg fun hd => Bool.false_ne_true (hplain.dpm.symm.trans hd.1)] at h
  exact h.own rfl (.power (.summary rfl))

/-- A run can be taken up where another one ended. -/
theorem restart (h : PairRun cfg P start time J f q a o c K L) :
    PairRun cfg P (pairSys time J f q a o c K L) time J f q a o c K L :=
  ⟨h.plain, h.quiet, h.timer, h.rest, h.discard, [], .nil, nofun⟩

end PairRun

/-! ## A short task and two long ones -/

/-- A condition that a step meets unless it is one of a core that has an ack for
    this tick -/
structure Mild (P : Sys 2 → Label 2 → Prop) : Prop where
  quiet : ∀ S d, (S.core d).pc.isQuiet = true → P S (.core d)
  acks : ∀ S d, (∀ ack ∈ (S.delegationAckQueue d).values, ack.arrivalTick ≠ S.systemTime) →
    P S (.core d)
  timer : ∀ S, P S .timer

theorem Mild.top : Mild fun _ _ => True :=
  ⟨fun _ _ _ => trivial, fun _ _ _ => trivial, fun _ => trivial⟩

/-- A core without acks -/
theorem Mild.of_nil (hP : Mild P) (h : (a c).values = []) : P (pairSys time J f q a o c K L) (.core c) := by
  refine hP.acks _ c fun ack hack => ?_
  have hnil : ((pairSys time J f q a o c K L).delegationAckQueue c).values = [] := h
  rw [hnil] at hack
  cases hack

/-- A task with much time -/
def longTask (id wcet : ℕ) : Task := ⟨id, 1000, 1000, fun _ => wcet, 0⟩

/-- A task that is released more often -/
def shortTask (period wcet : ℕ) : Task := ⟨1, period, period, fun _ => wcet, 0⟩

theorem shortTask_mod {period wcet : ℕ} (hpos : 0 < time) (hlt : time < period) :
    time % (shortTask period wcet).period ≠ 0 := by
  show time % period ≠ 0
  rw [Nat.mod_eq_of_lt hlt]
  exact hpos.ne'

/-- An entry of these tasks -/
def handAlloc (taskId coreId deadline : ℕ) : TaskAlloc :=
  ⟨taskId, .primary, 0, coreId, fun _ => deadline⟩

/-- The short task and a long one on core 0, and one that is longer on core 1 -/
def handConfig (period wcet : ℕ) : Config where
  maxCriticalityLevels := 1
  maxTasks := 2
  systemTasks := [longTask 0 500, shortTask period wcet, longTask 2 10]
  allocationMap := [handAlloc 0 1 1000, handAlloc 1 0 period, handAlloc 2 0 1000]
  procId := 0
  enableEcc := false
  enableProcrastination := false
  enableDvfs := false
  enableDpm := false

theorem handConfig_plain (period wcet : ℕ) : (handConfig period wcet).Plain := ⟨rfl, rfl, rfl, rfl⟩

abbrev HandRun (period wcet : ℕ) := PairRun (handConfig period wcet)

/-- A core with ready jobs -/
def queuedCore (ready : List (JobId 2)) : Core 2 :=
  { Core.init 2 with readyQueue := ready, decisionPoint := true }

/-- A core that runs a job -/
def handCore (ready : List (JobId 2)) (j : JobId 2) : Core 2 :=
  { queuedCore ready with runningJob := some j, isIdle := false }

/-- The core that runs `j` has sent a future job, and keeps a record of it. -/
def sentCore (j : JobId 2) (record : DelegatedJob) (D : List DelegatedJob) : Core 2 :=
  { handCore [] j with
    delegatedJobQueue := [record]
    delegatedFreeList := D
    nextMigrationEligibleTick := 2 + coreMigrationCooldownTicks }

/-- The first job of the short task -/
def shortJob (c : Fin 2) (period wcet : ℕ) : JobRec :=
  (arrivedJob c 0 0 (handAlloc 1 0 period) (shortTask period wcet) wcet).link

/-- The first job of the long task on the same core -/
def longJob (c : Fin 2) : JobRec := (arrivedJob c 0 0 (handAlloc 2 0 1000) (longTask 2 10) 10).link

/-- The record of a job that has run for `e` ticks at most and has more to do, with
    its virtual deadline -/
structure JobRec.Long (r : JobRec) (e : ℚ) (virtualDeadline : ℕ) : Prop where
  acet : 5 ≤ r.acet
  wcet : 5 ≤ r.wcet
  executed : r.executedTime ≤ e
  deadline : 5 ≤ r.actualDeadline
  virtual : r.virtualDeadline = virtualDeadline
  kind : r.isReplica = false

theorem arrivedJob_long {m : TaskAlloc} {task : Task} {acet : ℚ} (hk : m.taskType = .primary)
    (ha : 5 ≤ acet) (hw : 5 ≤ task.wcet 0) (hf : task.wcet 0 ≤ 2 ^ 24) (hd : 5 ≤ task.deadline) :
    (arrivedJob c 0 0 m task acet).Long 0 (m.tunedDeadlines 0) where
  acet := ha
  wcet := by
    show 5 ≤ toFloat (task.wcet 0)
    rw [toFloat_eq hf]
    exact_mod_cast hw
  executed := le_rfl
  deadline := by
    show 5 ≤ 0 + task.deadline
    rw [Nat.zero_add]
    exact hd
  virtual := Nat.zero_add _
  kind := by
    show (m.taskType == .replica) = false
    rw [hk]
    rfl

theorem longJob_long (c : Fin 2) : (longJob c).Long 0 1000 := by
  have h : (arrivedJob c 0 0 (handAlloc 2 0 1000) (longTask 2 10) 10).Long 0 1000 :=
    arrivedJob_long rfl (by norm_num) (by decide) (by decide) (by decide)
  exact { h with }

namespace HandRun

variable {period wcet v : ℕ} {e : ℚ}

/-- The entries of an idle core at tick 0 -/
theorem toAlloc (h : HandRun period wcet P start 0 J f q a o c ((Core.init 2).goto .start) L) :
    HandRun period wcet P start 0 J f q a o c
      ((Core.init 2).goto (.alloc ((handConfig period wcet).entries c))) L := by
  have h := h.toRun rfl rfl
  exact (h.idle rfl).pendingEnd nofun

/-- The running job of a long task runs for one more tick. -/
theorem runOn (h : HandRun period wcet P start time J f q a o c (K.goto .start) L)
    (hl : K.localCriticalityLevel = 0) (hs : K.inLowPowerState = false) (hv : K.currentDvfsLevel = 0)
    (hr : K.runningJob = some j) (hj : (J j).Long e v) (he : e ≤ 3) (ht : time ≤ 5) :
    ∃ J', HandRun period wcet P start time J' f q a o c (K.goto (.pending 0)) L ∧ (J' j).Long (e + 1) v ∧
      ∀ i, i ≠ j → J' i = J i := by
  have hex : ((J j).execute K).executedTime = (J j).executedTime + 1 := by
    show (J j).executedTime + scalingFactor K.currentDvfsLevel = _
    rw [hv]
    rfl
  have hle := hj.executed
  have hacet := hj.acet
  have hwcet := hj.wcet
  refine ⟨_, (h.toRun hl hs).go hr (ht.trans hj.deadline) (by rw [hex]; linarith)
    (by rw [hex]; linarith), ?_, fun i hi => Function.update_of_ne hi ..⟩
  rw [Jobs.set, Function.update_self]
  exact { hj with executed := by rw [hex]; linarith }

/-- In tick 0 both tasks of core 0 are released, and the job of the short one is first. -/
theorem queued (wcet : ℕ) (hP : Mild P) (hpos : 0 < period) (hle : period ≤ 1000) : ∃ J f j₁ j₂ j₃ rest,
    HandRun period wcet P (Sys.init 2) 0 J f (fun _ => .empty) (fun _ => .empty) [] 0
      ((queuedCore [j₁, j₂]).goto .select) ((Core.init 2).goto .start) ∧
    f 0 = j₃ :: rest ∧ f 1 = (Sys.init 2).freeList 1 ∧ j₁ ≠ j₂ ∧ j₁.1 = 0 ∧ j₂.1 = 0 ∧
    J j₁ = shortJob 0 period wcet ∧ J j₂ = longJob 0 := by
  obtain ⟨k₁, k₂, k₃, rest, hpool, hk⟩ : ∃ k₁ k₂ k₃ rest,
      (Sys.init 2).freeList 0 = (0, k₁) :: (0, k₂) :: (0, k₃) :: rest ∧ k₁ ≠ k₂ :=
    ⟨_, _, _, _, rfl, by decide⟩
  set j₁ : JobId 2 := (0, k₁)
  set j₂ : JobId 2 := (0, k₂)
  have hne : j₁ ≠ j₂ := fun h => hk (Prod.mk.inj h).2
  set r₁ := arrivedJob (0 : Fin 2) 0 0 (handAlloc 1 0 period) (shortTask period wcet) wcet
  set r₂ := arrivedJob (0 : Fin 2) 0 0 (handAlloc 2 0 1000) (longTask 2 10) 10
  set J₁ := (Jobs.set (fun _ => JobRec.blank) j₁ r₁).set j₁ r₁.link with hJ₁
  set J₂ := (J₁.set j₂ r₂).set j₂ r₂.link with hJ₂
  set f₂ := Function.update (Function.update (Sys.init 2).freeList 0 (j₂ :: (0, k₃) :: rest)) 0
    ((0, k₃) :: rest) with hf₂
  have hready : insertBy (vdOf (J₁.set j₂ r₂)) j₂ [j₁] = [j₁, j₂] := by
    have hvd₁ : (J₁.set j₂ r₂) j₁ = r₁.link := by
      simp only [hJ₁, Jobs.set, Function.update_of_ne hne, Function.update_self]
    have hvd₂ : (J₁.set j₂ r₂) j₂ = r₂ := Function.update_self ..
    refine if_neg ?_
    show ¬ ((J₁.set j₂ r₂) j₂).virtualDeadline < ((J₁.set j₂ r₂) j₁).virtualDeadline
    rw [hvd₁, hvd₂]
    show ¬ 0 + 1000 < 0 + period
    omega
  have hinit : HandRun period wcet P (Sys.init 2) 0 (fun _ => JobRec.blank) (Sys.init 2).freeList
      (fun _ => .empty) (fun _ => .empty) [] 0 ((Core.init 2).goto .start) ((Core.init 2).goto .start) :=
    PairRun.init (handConfig_plain period wcet) hP.quiet hP.timer
  have h := toAlloc hinit
  have h := h.create (hP.of_nil rfl) ⟨rfl, hpos.ne', Nat.zero_mod _⟩ rfl hpool rfl le_rfl wcet
  have h := h.create (hP.of_nil rfl) ⟨rfl, by decide, rfl⟩ rfl (Function.update_self ..) rfl le_rfl 10
  have h : HandRun period wcet P (Sys.init 2) 0 J₂ f₂ (fun _ => .empty) (fun _ => .empty) [] 0
      ((queuedCore [j₁, j₂]).goto (.alloc [])) ((Core.init 2).goto .start) := by
    rw [← hready]
    exact h
  have h := ((h.close rfl rfl).own rfl (.push (.skip rfl))).processed rfl
  refine ⟨J₂, f₂, j₁, j₂, (0, k₃), rest, h, Function.update_self .., ?_, hne, rfl, rfl, ?_, ?_⟩
  · rw [hf₂, Function.update_idem, Function.update_of_ne Fin.zero_ne_one.symm]
  · simp only [hJ₂, hJ₁, Jobs.set, Function.update_of_ne hne, Function.update_self]
    rfl
  · simp only [hJ₂, Jobs.set, Function.update_self]
    rfl

/-- In tick 0 core 0 starts with the job of the short task, and core 1 with its own. -/
theorem tick0 (wcet : ℕ) (hP : Mild P) (hpos : 0 < period) (hle : period ≤ 1000) : ∃ J f j₀ j₁ j₂ j₃ rest,
    HandRun period wcet P (Sys.init 2) 0 J f (fun _ => .empty) (fun _ => .empty) [] 1
      ((handCore [] j₀).goto .arrived) ((handCore [j₂] j₁).goto .arrived) ∧
    f 0 = j₃ :: rest ∧ j₀ ≠ j₁ ∧ j₀ ≠ j₂ ∧ j₁ ≠ j₂ ∧ j₁.1 = 0 ∧ (J j₀).Long 0 1000 ∧
    J j₁ = { (shortJob 0 period wcet).unlink with state := .running } ∧ J j₂ = longJob 0 := by
  obtain ⟨J, f, j₁, j₂, j₃, rest, h, hf, hf₁, h₁₂, hc₁, hc₂, hj₁, hj₂⟩ := queued wcet hP hpos hle
  -- core 0
  have h := (h.dispatch rfl rfl rfl (by rw [hj₁]; rfl)).finish
  rw [hj₁] at h
  set r := { (shortJob 0 period wcet).unlink with state := .running }
  have hself : (J.set j₁ r) j₁ = r := Function.update_self ..
  have hother : (J.set j₁ r) j₂ = longJob 0 := (Function.update_of_ne h₁₂.symm ..).trans hj₂
  -- core 1
  obtain ⟨k₀, rest₀, hpool⟩ : ∃ k₀ rest, (Sys.init 2).freeList 1 = (1, k₀) :: rest := ⟨_, _, rfl⟩
  have hne : ∀ {i : JobId 2}, i.1 = 0 → i ≠ (1, k₀) := by
    rintro i hi rfl
    exact Fin.zero_ne_one hi.symm
  have h : HandRun period wcet P (Sys.init 2) 0 (J.set j₁ r) f (fun _ => .empty) (fun _ => .empty) [] 1
    ((Core.init 2).goto .start) ((handCore [j₂] j₁).goto .arrived) := h.swap (fun _ => rfl) rfl
  have h := toAlloc h
  have h := h.create (hP.of_nil rfl) ⟨rfl, by decide, rfl⟩ rfl (hf₁.trans hpool) rfl le_rfl 500
  have h := (h.close rfl rfl).own rfl (.push (.skip rfl))
  have h := (h.processed rfl).dispatch rfl rfl rfl (by rw [Jobs.set, Function.update_self]; rfl)
  refine ⟨_, _, (1, k₀), j₁, j₂, j₃, rest, h.finish, ?_, (hne hc₁).symm, (hne hc₂).symm, h₁₂, hc₁, ?_, ?_, ?_⟩
  · rw [Function.update_of_ne Fin.zero_ne_one, hf]
  · simp only [Jobs.set, Function.update_self]
    have hlong : (arrivedJob (1 : Fin 2) 0 0 (handAlloc 0 1 1000) (longTask 0 500) 500).Long 0 1000 :=
      arrivedJob_long rfl (by norm_num) (by decide) (by decide) (by decide)
    exact { hlong with }
  · simp only [Jobs.set, Function.update_of_ne (hne hc₁)]
    exact hself
  · simp only [Jobs.set, Function.update_of_ne (hne hc₂)]
    exact hother

/-- A tick of core 1 in which its job runs on, and nothing else happens -/
theorem dull (hP : Mild P) (h : HandRun period wcet P start time J f q a o 1 (K.goto .start) L)
    (hK : K.localCriticalityLevel = 0 ∧ K.inLowPowerState = false ∧ K.currentDvfsLevel = 0)
    (hr : K.runningJob = some j) (hready : K.readyQueue = [] ∧ K.replicaQueue = [] ∧ K.discardList = [])
    (hj : (J j).Long e v) (he : e ≤ 3) (ht : 0 < time ∧ time ≤ 5)
    (hpend : ∀ i, K.pendingJobsQueue[0]? = some i → i ≠ j ∧ time < (J i).arrivalTime)
    (hq : (q 1).slots = []) (ha : (a 1).slots = []) :
    ∃ J', HandRun period wcet P start time J' f q a o 1 (K.goto .arrived) L ∧ (J' j).Long (e + 1) v ∧
      ∀ i, i ≠ j → J' i = J i := by
  obtain ⟨J', h, hj', hJ⟩ := runOn h hK.1 hK.2.1 hK.2.2 hr hj he ht.2
  have hdequeue : ∀ {α : Type} {r : TicketQueue α}, r.slots = [] → r.tryDequeue = none := by
    intro α r hr
    rw [TicketQueue.tryDequeue, hr]
  have hvalues : (a 1).values = [] := by rw [TicketQueue.values, ha, List.map_nil]
  have hlong : time % (longTask 0 500).period ≠ 0 := by
    show time % 1000 ≠ 0
    omega
  have h := h.pendingEnd fun i hi => by
    rw [hJ i (hpend i hi).1]
    exact (hpend i hi).2
  have h := (h.skip (hP.of_nil hvalues) rfl hlong).close hready.2.2 (hdequeue ha)
  have h := (h.own rfl (.push (.skip rfl))).processed (hdequeue hq)
  exact ⟨J', (h.stay hready.1 hready.2.1).finish, hj', hJ⟩

/-- In tick 1 the short job completes, and the long one of core 0 starts. -/
theorem tick1 (hP : Mild P) (hpos : 3 ≤ period) (hle : period ≤ 1000) : ∃ J f o j₀ j₁ j₂ j₃ rest,
    HandRun period 1 P (Sys.init 2) 1 J f (fun _ => .empty) (fun _ => .empty) o 0
      ((handCore [] j₂).goto .arrived) ((handCore [] j₀).goto .arrived) ∧
    f 0 = j₁ :: j₃ :: rest ∧ j₀ ≠ j₁ ∧ j₁ ≠ j₂ ∧ j₀ ≠ j₂ ∧ j₁.1 = 0 ∧ (J j₀).Long 1 1000 ∧
    (J j₂).Long 0 1000 := by
  obtain ⟨J, f, j₀, j₁, j₂, j₃, rest, h, hf, h₀₁, h₀₂, h₁₂, hc₁, hj₀, hj₁, hj₂⟩ :=
    tick0 1 hP (by omega) hle
  -- core 1
  obtain ⟨J₁, h, hj₀, hJ₁⟩ := dull hP h.nextTick ⟨rfl, rfl, rfl⟩ rfl ⟨rfl, rfl, rfl⟩ hj₀ (by norm_num)
    (by decide) nofun rfl rfl
  have h : HandRun period 1 P (Sys.init 2) 1 J₁ f (fun _ => .empty) (fun _ => .empty) [] 0
    ((handCore [j₂] j₁).goto .start) ((handCore [] j₀).goto .arrived) := h.swap (fun _ => rfl) rfl
  -- core 0
  rw [← hJ₁ j₁ h₀₁.symm] at hj₁
  rw [← hJ₁ j₂ h₀₂.symm] at hj₂
  have hacet : (J₁ j₁).acet ≤ ((J₁ j₁).execute (handCore [j₂] j₁)).executedTime := by
    show (J₁ j₁).acet ≤ (J₁ j₁).executedTime + 1
    rw [hj₁]
    show ((1 : ℕ) : ℚ) ≤ 0 + 1
    norm_num
  have hmiss : 1 ≤ (J₁ j₁).actualDeadline := by
    rw [hj₁]
    show 1 ≤ 0 + period
    omega
  have hshort : 1 % (shortTask period 1).period ≠ 0 := shortTask_mod Nat.one_pos (by omega)
  obtain ⟨J₂, o, h, hJ₂⟩ := (h.toRun rfl rfl).complete rfl hmiss hacet (by rw [hj₁]; rfl) hc₁
  have h := ((h.pendingEnd nofun).skip (hP.of_nil rfl) rfl hshort).skip (hP.of_nil rfl) rfl (by decide)
  have h := ((h.close rfl rfl).own rfl (.push (.skip rfl))).processed rfl
  rw [← hJ₂ j₂ h₁₂.symm] at hj₂
  rw [← hJ₂ j₀ h₀₁] at hj₀
  rw [zero_add] at hj₀
  have hlong := longJob_long 0
  rw [← hj₂] at hlong
  have h := (h.dispatch rfl rfl rfl hlong.kind).finish
  refine ⟨_, _, o, j₀, j₁, j₂, j₃, rest, h, ?_, h₀₁, h₁₂, h₀₂, hc₁, ?_, ?_⟩
  · rw [Function.update_self, hf]
  · rw [Jobs.set, Function.update_of_ne h₀₂]
    exact hj₀
  · rw [Jobs.set, Function.update_self]
    exact { hlong with }

/-- The next release of a task goes to the other core. -/
theorem offerFuture {m : TaskAlloc} {ms : List TaskAlloc} {rest : List (JobId 2)}
    {dj : DelegatedJob} {D : List DelegatedJob} (hP : Mild P)
    (h : HandRun period wcet P start time J f q a o c (K.goto (.future (m :: ms))) L) (task : Task) (acet : ℚ)
    (ho : (K.goto (.future (m :: ms))).offersFuture ⟨handConfig period wcet, c, time, 0, []⟩ m task)
    (hf : f c = j :: rest) (hq : q c.rev = .empty) (ha : (a c).values = [])
    (hD : K.delegatedFreeList = dj :: D) (hQ : K.delegatedJobQueue = []) :
    let r := futureJob c (futureArrival time task) K.localCriticalityLevel m task acet
    let record := { dj with
      taskId := task.id
      arrivalTick := futureArrival time task
      ownedByRemote := false }
    HandRun period wcet P start time (J.set j r) (Function.update f c rest)
      (Function.update q c.rev ⟨0, [(⟨j, c⟩, true)]⟩) a o c
      ({ K with
          delegatedJobQueue := [record]
          delegatedFreeList := D
          nextMigrationEligibleTick := time + coreMigrationCooldownTicks }.goto (.future ms)) L := by
  intro r record
  set f' := Function.update f c rest
  set q₁ := Function.update q c.rev ((q c.rev).claim ⟨j, c⟩) with hq₁
  set K₁ := { K with delegatedFreeList := D, delegatedJobQueue := [record] }
  have hcore : ∀ {J f q K}, (pairSys time J f q a o c K L).core c = K := pairSys_core
  have h : HandRun period wcet P start time (J.set j r) f' q a o c (K.goto (.futureHand j ms)) L := by
    set S := pairSys time J f q a o c (K.goto (.future (m :: ms))) L
    have hstep : OfferStep (handConfig period wcet) c S
        (({ S with freeList := f' }.setJob j
          (futureJob c (futureArrival time task) (S.core c).localCriticalityLevel m task acet)).goto c
          (.futureHand j ms)) :=
      .createFuture (congrArg Core.pc hcore) (by rw [hcore]; exact ho) (Sys.takeFree_of_cons hf)
    rw [hcore] at hstep
    exact h.quiet_step rfl (.offer hstep) pairSys_goto
  have hself : (J.set j r) j = r := Function.update_self ..
  have h : HandRun period wcet P start time (J.set j r) f' q a o c (K₁.goto (.futureClaim j c.rev ms)) L := by
    have hstep : OfferStep (handConfig period wcet) c
        (pairSys time (J.set j r) f' q a o c (K.goto (.futureHand j ms)) L) _ :=
      .sendFuture (congrArg Core.pc hcore) (eq_rev_iff.1 rfl)
        ((congrArg Core.delegatedFreeList hcore).trans hD)
    rw [hcore] at hstep
    refine h.quiet_step rfl (.offer hstep) (pairSys_setCore.trans ?_)
    have hjob : (pairSys time (J.set j r) f' q a o c (K.goto (.futureHand j ms)) L).job j = r := hself
    rw [hjob, show (K.goto (.futureHand j ms)).delegatedJobQueue = [] from hQ]
    rfl
  have h : HandRun period wcet P start time (J.set j r) f' q₁ a o c (K₁.goto (.futurePublish c.rev 0 ms)) L := by
    set S := pairSys time (J.set j r) f' q a o c (K₁.goto (.futureClaim j c.rev ms)) L
    have hstep : OfferStep (handConfig period wcet) c S _ := .claimFuture (congrArg Core.pc hcore)
    have htail : (S.migrationRequestQueue c.rev).tail = 0 := congrArg TicketQueue.tail hq
    rw [htail] at hstep
    exact h.core (hP.of_nil ha) (.offer hstep) (pairSys_goto (q := q₁))
  have hslots : q₁ c.rev = ⟨0, [(⟨j, c⟩, false)]⟩ := by
    rw [hq₁, Function.update_self, hq]
    rfl
  have hfree : (q₁ c.rev).Free maxMigrationRequests 0 := by
    rw [hslots]
    exact Nat.succ_pos _
  have hstep : OfferStep (handConfig period wcet) c
      (pairSys time (J.set j r) f' q₁ a o c (K₁.goto (.futurePublish c.rev 0 ms)) L) _ :=
    .publishFuture (congrArg Core.pc hcore) hfree
  rw [hcore] at hstep
  have hpub : Function.update q₁ c.rev ((q₁ c.rev).publish 0) =
      Function.update q c.rev ⟨0, [(⟨j, c⟩, true)]⟩ := by
    rw [hslots, hq₁, Function.update_idem]
    rfl
  rw [← hpub]
  exact h.quiet_step rfl (.offer hstep) (pairSys_setCore (q := Function.update q₁ c.rev ((q₁ c.rev).publish 0)))

/-- The request of the other core is accepted, and the ack sent. -/
theorem acceptFuture (h : HandRun period wcet P start time J f q a o c (K.goto (.procDecide ⟨j, c.rev⟩)) L)
    (ha : a c.rev = .empty) (hi : (J j).state = .idle ∧ time < (J j).arrivalTime)
    (hp : K.pendingJobsQueue = []) :
    ∃ J', HandRun period wcet P start time J' f q
      (Function.update a c.rev ⟨0, [(acceptAck (J j), true)]⟩) o c
      ({ K with pendingJobsQueue := [j] }.goto .process) L ∧
      J' j = { (((J j).retune K.localCriticalityLevel).link) with
        isBeingOffered := false
        nextMigrationEligibleTick := time + jobMigrationCooldownTicks } ∧
      ∀ i, i ≠ j → J' i = J i := by
  obtain ⟨htake, hclaim, hpublish⟩ :=
    @PairRun.intake_steps (handConfig period wcet) time J f q a o c K L j ha hi hp
  refine ⟨_, ((h.quiet_step rfl htake rfl).quiet_step rfl hclaim rfl).quiet_step rfl hpublish rfl, ?_, fun i hi => ?_⟩
  · rw [Jobs.set, Function.update_self, Jobs.set, Function.update_self]
  · rw [Jobs.set, Function.update_of_ne hi, Jobs.set, Function.update_of_ne hi]

theorem futureArrival_shortTask (hlt : time < period) :
    futureArrival time (shortTask period wcet) = period := by
  show (time / period + 1) * period = period
  rw [Nat.div_eq_of_lt hlt, Nat.zero_add, Nat.one_mul]

/-- The job of the next release of the short task, as it is sent -/
def sentJob (c : Fin 2) (period : ℕ) : JobRec :=
  futureJob c period 0 (handAlloc 1 0 period) (shortTask period 1) 1

/-- This job, when core 1 has accepted it -/
def acceptedJob (c : Fin 2) (period : ℕ) : JobRec :=
  { ((sentJob c period).retune 0).link with
    isBeingOffered := false
    nextMigrationEligibleTick := 2 + jobMigrationCooldownTicks }

/-- The record of it, before the ack -/
def sentRecord (dj : DelegatedJob) (period : ℕ) : DelegatedJob :=
  { dj with taskId := 1, arrivalTick := period, ownedByRemote := false }

/-- In tick 2 core 0 sends the job of the next release of the short task. -/
theorem donorTick2 (hP : Mild P) (hpos : 3 ≤ period) (hle : period ≤ 100) :
    ∃ J f o j₀ j₁ j₂ j₃ rest dj D,
    HandRun period 1 P (Sys.init 2) 2 J f (Function.update (fun _ => .empty) 1 ⟨0, [(⟨j₁, 0⟩, true)]⟩)
      (fun _ => .empty) o 0 ((sentCore j₂ (sentRecord dj period) D).goto .arrived)
      ((handCore [] j₀).goto .start) ∧
    f 0 = j₃ :: rest ∧ j₀ ≠ j₁ ∧ j₁ ≠ j₂ ∧ j₀ ≠ j₂ ∧ j₁.1 = 0 ∧ (J j₀).Long 1 1000 ∧
    (J j₂).Long 1 1000 ∧ J j₁ = sentJob 0 period := by
  obtain ⟨J, f, o, j₀, j₁, j₂, j₃, rest, h, hf, h₀₁, h₁₂, h₀₂, hc₁, hj₀, hj₂⟩ :=
    tick1 hP hpos (hle.trans (by decide))
  obtain ⟨J₁, h, hj₂, hJ₁⟩ := runOn h.nextTick rfl rfl rfl rfl hj₂ (by norm_num) (by decide)
  rw [← hJ₁ j₀ h₀₂] at hj₀
  rw [zero_add] at hj₂
  have hshort : 2 % (shortTask period 1).period ≠ 0 := shortTask_mod Nat.two_pos (by omega)
  have h := ((h.pendingEnd nofun).skip (hP.of_nil rfl) rfl hshort).skip (hP.of_nil rfl) rfl (by decide)
  have h := (h.close rfl rfl).own rfl (.push (.go rfl rfl (Nat.zero_le _)))
  have h := h.own rfl (.push (.future rfl ⟨rfl, rfl⟩))
  obtain ⟨dj, D, hD⟩ : ∃ dj D, initDelegations = dj :: D := ⟨_, _, rfl⟩
  have harrival : futureArrival 2 (shortTask period 1) = period := futureArrival_shortTask (by omega)
  have hworth : minMigrationBenefitThreshold ≤ toFloat 1 := by
    rw [toFloat_eq (by norm_num)]
    norm_num [minMigrationBenefitThreshold]
  have hsoon : futureArrival 2 (shortTask period 1) < 2 + dpmMigrationLookaheadTicks := by
    rw [harrival]
    exact Nat.lt_of_le_of_lt hle (by decide)
  have h := offerFuture hP h (shortTask period 1) 1
    ⟨rfl, (by omega : period ≠ 0), hworth, hsoon, rfl⟩ hf rfl rfl hD rfl
  rw [harrival] at h
  have h := (h.own rfl (.push (.futureSkip rfl))).own rfl (.push (.futureEnd rfl))
  have h := ((h.processed rfl).stay rfl rfl).finish
  have hother : ∀ i, i ≠ j₁ → (J₁.set j₁ (sentJob 0 period)) i = J₁ i :=
    fun i hi => Function.update_of_ne hi ..
  rw [← hother j₀ h₀₁] at hj₀
  rw [← hother j₂ h₁₂.symm] at hj₂
  exact ⟨J₁.set j₁ (sentJob 0 period), _, _, j₀, j₁, j₂, j₃, rest, dj, D, h, Function.update_self ..,
    h₀₁, h₁₂, h₀₂, hc₁, hj₀, hj₂, Function.update_self ..⟩

/-- In tick 2 core 1 gets to its decision on the request. -/
theorem decide2 (hP : Mild P) (hpos : 3 ≤ period) (hle : period ≤ 100) :
    ∃ J f o j₀ j₁ j₂ j₃ rest dj D,
    HandRun period 1 P (Sys.init 2) 2 J f (Function.update (fun _ => .empty) 1 ⟨1, []⟩)
      (fun _ => .empty) o 1 ((handCore [] j₀).goto (.procDecide ⟨j₁, 0⟩))
      ((sentCore j₂ (sentRecord dj period) D).goto .arrived) ∧
    f 0 = j₃ :: rest ∧ j₀ ≠ j₁ ∧ j₁ ≠ j₂ ∧ j₀ ≠ j₂ ∧ j₁.1 = 0 ∧ (J j₀).Long 2 1000 ∧
    (J j₂).Long 1 1000 ∧ J j₁ = sentJob 0 period := by
  obtain ⟨J, f, o, j₀, j₁, j₂, j₃, rest, dj, D, h, hf, h₀₁, h₁₂, h₀₂, hc₁, hj₀, hj₂, hj₁⟩ :=
    donorTick2 hP hpos hle
  have h : HandRun period 1 P (Sys.init 2) 2 J f _ _ o 1 ((handCore [] j₀).goto .start) _ :=
    h.swap (fun _ => rfl) rfl
  obtain ⟨J₁, h, hj₀, hJ₁⟩ := runOn h rfl rfl rfl rfl hj₀ (by norm_num) (by decide)
  rw [one_add_one_eq_two] at hj₀
  have h := (h.pendingEnd nofun).skip (hP.of_nil rfl) rfl (by decide)
  have h := (h.close rfl rfl).own rfl (.push (.skip rfl))
  have h := h.take rfl
  rw [Function.update_idem] at h
  refine ⟨J₁, f, o, j₀, j₁, j₂, j₃, rest, dj, D, h, hf, h₀₁, h₁₂, h₀₂, hc₁, hj₀, ?_, ?_⟩
  · rw [hJ₁ j₂ h₀₂.symm]
    exact hj₂
  · rw [hJ₁ j₁ h₀₁.symm]
    exact hj₁

/-- In tick 2 core 1 accepts the job, and sends an ack. -/
theorem tick2 (hP : Mild P) (hpos : 3 ≤ period) (hle : period ≤ 100) :
    ∃ J f q o j₀ j₁ j₂ j₃ rest dj D,
    HandRun period 1 P (Sys.init 2) 2 J f q (Function.update (fun _ => .empty) 0 ⟨0, [(⟨1, period, true⟩, true)]⟩)
      o 1 ({ handCore [] j₀ with pendingJobsQueue := [j₁] }.goto .arrived)
      ((sentCore j₂ (sentRecord dj period) D).goto .arrived) ∧
    (∀ d, (q d).slots = []) ∧ f 0 = j₃ :: rest ∧ j₀ ≠ j₁ ∧ j₁ ≠ j₂ ∧ j₀ ≠ j₂ ∧ j₁.1 = 0 ∧
    (J j₀).Long 2 1000 ∧ (J j₂).Long 1 1000 ∧ J j₁ = acceptedJob 0 period := by
  obtain ⟨J, f, o, j₀, j₁, j₂, j₃, rest, dj, D, h, hf, h₀₁, h₁₂, h₀₂, hc₁, hj₀, hj₂, hj₁⟩ :=
    decide2 hP hpos hle
  have hlate : 2 < (J j₁).arrivalTime := by
    rw [hj₁]
    exact hpos
  obtain ⟨J₁, h, hself, hJ₁⟩ := acceptFuture h rfl ⟨by rw [hj₁]; rfl, hlate⟩ rfl
  rw [hj₁] at h hself
  have hq : ∀ d, (Function.update (fun _ => TicketQueue.empty) 1 ⟨1, []⟩ : Fin 2 → TicketQueue
      (MigrationRequest 2)) d = .empty ∨ (Function.update (fun _ => TicketQueue.empty) 1 ⟨1, []⟩ :
      Fin 2 → TicketQueue (MigrationRequest 2)) d = ⟨1, []⟩ := by
    intro d
    by_cases hd : d = 1
    · rw [hd, Function.update_self]
      exact .inr rfl
    · rw [Function.update_of_ne hd]
      exact .inl rfl
  have h := ((h.processed rfl).stay rfl rfl).finish
  refine ⟨J₁, f, _, o, j₀, j₁, j₂, j₃, rest, dj, D, h, fun d => ?_, hf, h₀₁, h₁₂, h₀₂, hc₁, ?_, ?_, hself⟩
  · rcases hq d with hd | hd
    · rw [hd]
      rfl
    · rw [hd]
  · rw [hJ₁ j₀ h₀₁]
    exact hj₀
  · rw [hJ₁ j₂ h₁₂.symm]
    exact hj₂

/-- In tick 3 core 0 is about to read the ack, for a release that is still to come. -/
theorem update3 (hP : Mild P) (hlt : 3 < period) (hle : period ≤ 100) :
    ∃ J f q o j₀ j₁ j₂ j₃ rest dj D,
    HandRun period 1 P (Sys.init 2) 3 J f q (Function.update (fun _ => .empty) 0 ⟨0, [(⟨1, period, true⟩, true)]⟩)
      o 0 ((sentCore j₂ (sentRecord dj period) D).goto .updateDelegations)
      ({ handCore [] j₀ with pendingJobsQueue := [j₁] }.goto .start) ∧
    (∀ d, (q d).slots = []) ∧ f 0 = j₃ :: rest ∧ j₀ ≠ j₁ ∧ j₁ ≠ j₂ ∧ j₀ ≠ j₂ ∧ j₁.1 = 0 ∧
    (J j₀).Long 2 1000 ∧ (J j₂).Long 2 1000 ∧ J j₁ = acceptedJob 0 period := by
  obtain ⟨J, f, q, o, j₀, j₁, j₂, j₃, rest, dj, D, h, hq, hf, h₀₁, h₁₂, h₀₂, hc₁, hj₀, hj₂, hj₁⟩ :=
    tick2 hP hlt.le hle
  have h : HandRun period 1 P (Sys.init 2) 3 J f q _ _ 0 ((sentCore j₂ (sentRecord dj period) D).goto .start)
    _ := h.nextTick.swap (fun _ => rfl) rfl
  obtain ⟨J₁, h, hj₂, hJ₁⟩ := runOn h rfl rfl rfl rfl hj₂ (by norm_num) (by decide)
  rw [one_add_one_eq_two] at hj₂
  -- the ack is for a later tick
  have hmild : ∀ {K}, P (pairSys 3 J₁ f q (Function.update (fun _ => .empty) 0 ⟨0, [(⟨1, period, true⟩, true)]⟩)
      (List.drop messageQueueSize o) 0 K ({ handCore [] j₀ with pendingJobsQueue := [j₁] }.goto .start)) (.core 0) := by
    refine hP.acks _ 0 fun ack hack => ?_
    obtain rfl : ack = ⟨1, period, true⟩ := List.mem_singleton.1 hack
    exact hlt.ne'
  have hshort : 3 % (shortTask period 1).period ≠ 0 := shortTask_mod (by decide) hlt
  have h := ((h.pendingEnd nofun).skip hmild rfl hshort).skip hmild rfl (by decide)
  refine ⟨J₁, f, q, _, j₀, j₁, j₂, j₃, rest, dj, D, h.reclaimed rfl, hq, hf, h₀₁, h₁₂, h₀₂, hc₁, ?_, hj₂, ?_⟩
  · rw [hJ₁ j₀ h₀₂]
    exact hj₀
  · rw [hJ₁ j₁ h₁₂]
    exact hj₁

/-- The record of the release, when core 0 has read the ack -/
def ownedRecord (dj : DelegatedJob) (period : ℕ) : DelegatedJob :=
  { sentRecord dj period with ownedByRemote := true }

/-- In tick 4 core 0 is at its first entry, with the ack read. -/
theorem skip4 (hP : Mild P) (hlt : 3 < period) (hle : period ≤ 100) :
    ∃ J f q o j₀ j₁ j₂ D dj,
    HandRun period 1 P (Sys.init 2) 4 J f q (Function.update (fun _ => .empty) 0 ⟨1, []⟩) o 0
      ((sentCore j₂ (ownedRecord dj period) D).goto (.alloc ((handConfig period 1).entries 0)))
      ({ handCore [] j₀ with pendingJobsQueue := [j₁] }.goto .start) ∧
    (∀ d, (q d).slots = []) ∧ j₀ ≠ j₁ ∧ j₁ ≠ j₂ ∧ j₀ ≠ j₂ ∧ j₁.1 = 0 ∧
    (J j₀).Long 3 1000 ∧ J j₁ = acceptedJob 0 period := by
  obtain ⟨J, f, q, o, j₀, j₁, j₂, j₃, rest, dj, D, h, hq, -, h₀₁, h₁₂, h₀₂, hc₁, hj₀, hj₂, hj₁⟩ :=
    update3 hP hlt hle
  have hempty : ∀ d, (q d).tryDequeue = none := by
    intro d
    rw [TicketQueue.tryDequeue, hq d]
  -- core 0
  have h := h.readAck (Function.update_self ..)
  have hrec : updateDelegation ⟨1, period, true⟩ [sentRecord dj period] = [ownedRecord dj period] := by
    unfold updateDelegation
    exact if_pos ⟨rfl, rfl⟩
  rw [Function.update_idem] at h
  set a₁ : Fin 2 → TicketQueue DelegationAck := Function.update (fun _ => .empty) 0 ⟨1, []⟩
  have h : HandRun period 1 P (Sys.init 2) 3 J f q a₁ o 0
      ((sentCore j₂ (ownedRecord dj period) D).goto .push)
      ({ handCore [] j₀ with pendingJobsQueue := [j₁] }.goto .start) := by
    rw [sentCore, ← hrec]
    exact h
  have h := ((h.own rfl (.push (.skip rfl))).processed (hempty 0)).stay rfl rfl
  have h : HandRun period 1 P (Sys.init 2) 3 J f q a₁ o 1
      ({ handCore [] j₀ with pendingJobsQueue := [j₁] }.goto .start)
      ((sentCore j₂ (ownedRecord dj period) D).goto .arrived) := h.finish.swap (fun _ => rfl) rfl
  -- core 1
  have hlate : ∀ i, [j₁][0]? = some i → i ≠ j₀ ∧ 3 < (J i).arrivalTime := by
    intro i hi
    obtain rfl : j₁ = i := Option.some.inj hi
    refine ⟨h₀₁.symm, ?_⟩
    rw [hj₁]
    exact hlt
  obtain ⟨J₁, h, hj₀, hJ₁⟩ := dull hP h ⟨rfl, rfl, rfl⟩ rfl ⟨rfl, rfl, rfl⟩ hj₀ (by norm_num)
    (by decide) hlate (hq 1) rfl
  rw [two_add_one_eq_three] at hj₀
  rw [← hJ₁ j₁ h₀₁.symm] at hj₁
  rw [← hJ₁ j₂ h₀₂.symm] at hj₂
  -- the next tick
  have h : HandRun period 1 P (Sys.init 2) 4 J₁ f q a₁ _ 0
      ((sentCore j₂ (ownedRecord dj period) D).goto .start) _ := h.nextTick.swap (fun _ => rfl) rfl
  obtain ⟨J₂, h, -, hJ₂⟩ := runOn h rfl rfl rfl rfl hj₂ (by norm_num) (by decide)
  refine ⟨J₂, f, q, _, j₀, j₁, j₂, D, dj, h.pendingEnd nofun, hq, h₀₁, h₁₂, h₀₂, hc₁, ?_, ?_⟩
  · rw [hJ₂ j₀ h₀₂]
    exact hj₀
  · rw [hJ₂ j₁ h₁₂]
    exact hj₁

/-- The long job of core 0, when it is on offer -/
def offeredJob (c : Fin 2) : JobRec := { longJob c with isBeingOffered := true, refcount := 2 }

/-- When the short job runs on, core 0 offers the long one in tick 1. -/
theorem offered1 (hP : Mild P) (hge : 5 ≤ period) (hle : period ≤ 1000) : ∃ J f j₀ j₁ j₂,
    HandRun period 5 P (Sys.init 2) 1 J f (Function.update (fun _ => .empty) 1 ⟨0, [(⟨j₂, 0⟩, true)]⟩)
      (fun _ => .empty) [] 0 ((handCore [j₂] j₁).goto (.offer false 1)) ((handCore [] j₀).goto .start) ∧
    j₀ ≠ j₂ ∧ (J j₀).Long 0 1000 ∧ (J j₁).Long 1 period ∧ J j₂ = offeredJob 0 := by
  obtain ⟨J, f, j₀, j₁, j₂, j₃, rest, h, -, h₀₁, h₀₂, h₁₂, -, hj₀, hj₁, hj₂⟩ :=
    tick0 5 hP (by omega) hle
  have hrun : (J j₁).Long 0 period := by
    rw [hj₁]
    have hlong : (arrivedJob (0 : Fin 2) 0 0 (handAlloc 1 0 period) (shortTask period 5) (5 : ℕ)).Long 0
        period := arrivedJob_long rfl (by norm_num) le_rfl (show 5 ≤ 2 ^ 24 by decide) hge
    exact { hlong with }
  have h : HandRun period 5 P (Sys.init 2) 1 J f _ _ [] 0 ((handCore [j₂] j₁).goto .start) _ :=
    h.nextTick.swap (fun _ => rfl) rfl
  obtain ⟨J₁, h, hrun, hJ₁⟩ := runOn h rfl rfl rfl rfl hrun (by norm_num) (by decide)
  rw [zero_add] at hrun
  rw [← hJ₁ j₂ h₁₂.symm] at hj₂
  rw [← hJ₁ j₀ h₀₁] at hj₀
  have hshort : 1 % (shortTask period 5).period ≠ 0 := shortTask_mod Nat.one_pos (by omega)
  have h := ((h.pendingEnd nofun).skip (hP.of_nil rfl) rfl hshort).skip (hP.of_nil rfl) rfl (by decide)
  have h := (h.close rfl rfl).own rfl (.push (.go rfl rfl (Nat.zero_le _)))
  have h := h.own rfl (.push (.shed rfl fun hq => by cases hq.1))
  have h := h.own rfl (.push (.offerLock rfl))
  have hprofit : isMigrationProfitable (J₁ j₂) 1 := by
    rw [hj₂]
    refine ⟨Nat.zero_le 1, le_max_of_le_right ?_⟩
    show minMigrationBenefitThreshold ≤ toFloat 10 - 0
    rw [toFloat_eq (by norm_num)]
    norm_num [minMigrationBenefitThreshold]
  have h := h.target (j := j₂) rfl hprofit (by rw [hj₂]; rfl)
  have h := h.send (hP.of_nil rfl) (by decide)
  refine ⟨_, f, j₀, j₁, j₂, h, h₀₂, ?_, ?_, ?_⟩
  · rw [Jobs.set, Function.update_of_ne h₀₂]
    exact hj₀
  · rw [Jobs.set, Function.update_of_ne h₁₂]
    exact hrun
  · rw [Jobs.set, Function.update_self, hj₂]
    rfl

/-- In tick 1 core 1 gets to its decision on the offer. -/
theorem decide1 (hP : Mild P) (hge : 5 ≤ period) (hle : period ≤ 1000) : ∃ J f o j₀ j₁ j₂,
    HandRun period 5 P (Sys.init 2) 1 J f (Function.update (fun _ => .empty) 1 ⟨1, []⟩)
      (fun _ => .empty) o 1 ((handCore [] j₀).goto (.procDecide ⟨j₂, 0⟩))
      ((handCore [j₂] j₁).goto .arrived) ∧ J j₂ = offeredJob 0 := by
  obtain ⟨J, f, j₀, j₁, j₂, h, h₀₂, hj₀, hj₁, hj₂⟩ := offered1 hP hge hle
  have h := h.own rfl (.push (.nextQueue rfl rfl))
  have h := h.own rfl (.push (.offerEnd rfl rfl))
  have hvd : (J j₁).virtualDeadline ≤ (J j₂).virtualDeadline := by
    rw [hj₁.virtual, hj₂]
    exact hle
  have h := (((h.processed rfl).keep rfl rfl rfl hvd).finish).swap (fun _ => rfl) rfl
  have h : HandRun period 5 P (Sys.init 2) 1 J f _ _ _ 1 ((handCore [] j₀).goto .start) _ := h
  obtain ⟨J₁, h, -, hJ₁⟩ := runOn h rfl rfl rfl rfl hj₀ (by norm_num) (by decide)
  have h := (h.pendingEnd nofun).skip (hP.of_nil rfl) rfl (by decide)
  have h := (h.close rfl rfl).own rfl (.push (.skip rfl))
  have h := h.take rfl
  rw [Function.update_idem] at h
  refine ⟨J₁, f, _, j₀, j₁, j₂, h, ?_⟩
  rw [hJ₁ j₂ h₀₂.symm]
  exact hj₂

end HandRun

end EeftSched

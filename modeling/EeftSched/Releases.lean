/-
  Who releases a delegated job (`handle_job_arrivals` in `sched_core.c`,
  `update_delegations`, `attempt_future_load_shedding` and
  `process_migration_requests` in `sched_migration.c`).

  A donor skips a release that another core owns; but it looks before it reads
  its acks, so that an ack of the last tick comes too late.

  * `Sys.Away`: the donor's record says that another core owns the release, or
    an ack that says so is not read yet;
  * `ReleaseMove`: what a step of a core does to the records and the acks;
  * `Sys.Promised`: every pending job has its release away, and the records that
    this rests on are there;
  * `released_once`: a release is not both created by the donor and activated by
    another core, provided that no ack for it is unread when the donor looks;
    and what the donor skips is activated in that tick.
-/
import EeftSched.Acks
import EeftSched.TwoCores

namespace EeftSched

open Lts SortedQueue

variable {n : ℕ} {cfg : Config} {S S' : Sys n} {K K' : Core n} {J J' : Jobs n} {j : JobId n}
  {c d o : Fin n} {X : Ctx n} {rel : ℕ × ℕ}

/-! ## Records and acks -/

section

variable {queue freeList : List DelegatedJob} {dj : DelegatedJob} {taskId systemTime : ℕ}

/-- The release an ack is for -/
def DelegationAck.release (a : DelegationAck) : ℕ × ℕ := (a.taskId, a.arrivalTick)

/-- The scan keeps the records of this tick and of later ones. -/
theorem mem_scanDelegations (h : dj ∈ queue) (ht : systemTime ≤ dj.arrivalTick) :
    dj ∈ (scanDelegations taskId systemTime queue freeList).1 := by
  induction queue generalizing freeList with
  | nil => cases h
  | cons d queue ih =>
    unfold scanDelegations
    split_ifs with hold hown
    · rcases List.mem_cons.1 h with rfl | h
      · omega
      · exact ih h
    · exact h
    · rcases List.mem_cons.1 h with rfl | h
      · exact List.mem_cons_self
      · exact List.mem_cons_of_mem _ (ih h)

/-- The scan finds a record that another core owns, of this tick or a later one. -/
theorem scanDelegations_found :
    (scanDelegations taskId systemTime queue freeList).2.2 = true ↔
      ∃ dj ∈ queue, dj.taskId = taskId ∧ systemTime ≤ dj.arrivalTick ∧ dj.ownedByRemote = true := by
  induction queue generalizing freeList with
  | nil =>
    constructor
    · nofun
    · rintro ⟨dj, hdj, -⟩
      cases hdj
  | cons d queue ih =>
    unfold scanDelegations
    split_ifs with hold hown
    · rw [ih]
      constructor
      · rintro ⟨dj, hdj, h⟩
        exact ⟨dj, List.mem_cons_of_mem _ hdj, h⟩
      · rintro ⟨dj, hdj, htask, ht, ho⟩
        rcases List.mem_cons.1 hdj with rfl | hdj
        · omega
        · exact ⟨dj, hdj, htask, ht, ho⟩
    · exact iff_of_true rfl ⟨d, List.mem_cons_self, hown⟩
    · refine ih.trans ?_
      constructor
      · rintro ⟨dj, hdj, h⟩
        exact ⟨dj, List.mem_cons_of_mem _ hdj, h⟩
      · rintro ⟨dj, hdj, h⟩
        rcases List.mem_cons.1 hdj with rfl | hdj
        · exact absurd h hown
        · exact ⟨dj, hdj, h⟩

/-- An ack gives the record of its release to the other core. -/
theorem acknowledge_owned {a : DelegationAck} :
    (dj.acknowledge [a]).ownedByRemote = true ↔
      dj.ownedByRemote = true ∨ a.accepted = true ∧ dj.release = a.release := by
  rw [DelegatedJob.acknowledge, List.any_cons, List.any_nil, Bool.or_false, Bool.or_eq_true,
    DelegationAck.accepts, Bool.and_eq_true, decide_eq_true_eq, DelegatedJob.release,
    DelegationAck.release, Prod.mk.injEq]

end

/-- **The release is away**: the donor's record says that another core owns it,
    or an ack that says so is not read yet. -/
inductive Sys.Away (S : Sys n) (c : Fin n) (rel : ℕ × ℕ) : Prop
  | owned {dj : DelegatedJob} (h : dj ∈ (S.core c).delegatedJobQueue) (hr : dj.release = rel)
      (ho : dj.ownedByRemote = true)
  | unread {a : DelegationAck} (h : a ∈ (S.delegationAckQueue c).values) (hr : a.release = rel)
      (ha : a.accepted = true)

/-- The core has a record of the release. -/
def Sys.Recorded (S : Sys n) (c : Fin n) (rel : ℕ × ℕ) : Prop :=
  rel ∈ (S.core c).delegatedJobQueue.map DelegatedJob.release

/-! ## What a step does to them -/

/-- What a step of core `c` does to its records and to the acks. -/
inductive ReleaseMove (c : Fin n) (S S' : Sys n) : Prop
  | none (hr : (S'.core c).delegatedJobQueue = (S.core c).delegatedJobQueue)
      (ha : ∀ d, (S'.delegationAckQueue d).values = (S.delegationAckQueue d).values)
  | scan (taskId : ℕ) (hr : (S'.core c).delegatedJobQueue =
        ((S.core c).scanned taskId S.systemTime).delegatedJobQueue)
      (ha : S'.delegationAckQueue = S.delegationAckQueue)
  | send {j : JobId n} {ms : List TaskAlloc} {dj : DelegatedJob}
      (h : (S.core c).pc = .futureHand j ms) (hj : dj.release = (S.job j).release)
      (ho : dj.ownedByRemote = false)
      (hr : (S'.core c).delegatedJobQueue = addDelegationSorted dj (S.core c).delegatedJobQueue)
      (ha : S'.delegationAckQueue = S.delegationAckQueue)
  | read {a : DelegationAck} {q : TicketQueue DelegationAck}
      (hq : (S.delegationAckQueue c).tryDequeue = some (a, q))
      (hr : (S'.core c).delegatedJobQueue = updateDelegation a (S.core c).delegatedJobQueue)
      (ha : S'.delegationAckQueue = Function.update S.delegationAckQueue c q)
  | claim {r : MigrationRequest n} (h : (S.core c).pc = .procAckClaim r)
      (hr : (S'.core c).delegatedJobQueue = (S.core c).delegatedJobQueue)
      (ha : S'.delegationAckQueue = Function.update S.delegationAckQueue r.fromCore
        ((S.delegationAckQueue r.fromCore).claim (acceptAck (S.job r.job))))

theorem delegatedJobQueue_update {f : Fin n → Core n} {queue : List DelegatedJob}
    (h : K'.delegatedJobQueue = queue) : (Function.update f c K' c).delegatedJobQueue = queue := by
  rw [Function.update_self]
  exact h

namespace ReleaseMove

theorem of_core (hcore : S'.core = Function.update S.core c K')
    (hr : K'.delegatedJobQueue = (S.core c).delegatedJobQueue)
    (ha : S'.delegationAckQueue = S.delegationAckQueue) : ReleaseMove c S S' := by
  refine .none ?_ fun d => by rw [ha]
  rw [hcore]
  exact delegatedJobQueue_update hr

theorem put {me : Option (Fin n)} {T : Sys n} (h : ReleaseMove c S T) (j : JobId n) :
    ReleaseMove c S (T.putJobRef me j) := by
  obtain ⟨f, g, he⟩ := T.putJobRef_eq me j
  rw [he]
  cases h with
  | none hr ha => exact .none hr ha
  | scan taskId hr ha => exact .scan taskId hr ha
  | send h hj ho hr ha => exact .send h hj ho hr ha
  | read hq hr ha => exact .read hq hr ha
  | claim h hr ha => exact .claim h hr ha

end ReleaseMove

theorem ArriveStep.releaseMove (hs : ArriveStep cfg c S S') : ReleaseMove c S S' := by
  cases hs with
  | @put j K' hp =>
    have hT : ReleaseMove c S (S.setCore c K') := .of_core rfl (congrArg Prod.fst hp.records.1) rfl
    exact hT.put j
  | @create m ms task j T acet hp hm hd hj =>
    obtain ⟨-, f, g, rfl⟩ := Sys.takeFree_eq_some hj
    exact .scan task.id (delegatedJobQueue_update rfl) rfl
  | @exhausted m ms task hp hm hd hj =>
    exact .scan task.id (delegatedJobQueue_update rfl) rfl
  | _ => exact .of_core rfl rfl rfl

theorem DiscardStep.releaseMove (hs : DiscardStep cfg c S S') : ReleaseMove c S S' := by
  cases hs with
  | accommodate hp hj =>
    exact .of_core rfl (congrArg Prod.fst ((S.core c).records_addByKind S.job _)) rfl
  | ack hp hq =>
    exact .read hq (delegatedJobQueue_update rfl) rfl
  | _ => exact .of_core rfl rfl rfl

theorem OfferStep.releaseMove (hs : OfferStep cfg c S S') : ReleaseMove c S S' := by
  cases hs with
  | createFuture hp ho hj =>
    obtain ⟨-, f, g, rfl⟩ := Sys.takeFree_eq_some hj
    exact .of_core rfl rfl rfl
  | @sendFuture j ms dest dj rest hp hd hr =>
    exact .send hp rfl rfl (delegatedJobQueue_update rfl) rfl
  | _ => exact .of_core rfl rfl rfl

theorem RequestStep.releaseMove (hs : RequestStep cfg c S S') : ReleaseMove c S S' := by
  cases hs with
  | @accept r hp hi hl =>
    have hself : ((S.listDel r.job).goto c (.procInsert r)).core c =
        ((S.core c).listDel r.job).goto (.procInsert r) := Function.update_self ..
    refine .none ?_ fun _ => rfl
    rw [hself]
    rfl
  | ackClaim hp => exact .claim hp (delegatedJobQueue_update rfl) rfl
  | @ackPublish r t hp hf =>
    exact .none (delegatedJobQueue_update rfl) (TicketQueue.values_update_publish _ _ _)
  | @putReject r hp =>
    have hT : ReleaseMove c S (S.goto c .process) := .of_core rfl rfl rfl
    exact hT.put _
  | @putAccept r hp =>
    let T := S.setJob r.job
      { S.job r.job with nextMigrationEligibleTick := S.systemTime + jobMigrationCooldownTicks }
    have hT : ReleaseMove c S (T.goto c .process) := .of_core rfl rfl rfl
    exact hT.put _
  | _ => exact .of_core rfl rfl rfl

theorem CoreStep.releaseMove (hs : CoreStep cfg c S S') : ReleaseMove c S S' := by
  cases hs with
  | @own K' J' hs he =>
    subst he
    rcases hs.records with heq | ⟨taskId, heq⟩
    · exact .of_core rfl (congrArg Prod.fst heq) rfl
    · exact .scan taskId (delegatedJobQueue_update (congrArg Prod.fst heq)) rfl
  | arrive hs => exact hs.releaseMove
  | discard hs => exact hs.releaseMove
  | offer hs => exact hs.releaseMove
  | request hs => exact hs.releaseMove

/-- What the other cores' records are after a step of core `c` -/
def Sys.SameRecords (c : Fin n) (S S' : Sys n) : Prop :=
  ∀ d ≠ c, (S'.core d).delegatedJobQueue = (S.core d).delegatedJobQueue

namespace ReleaseMove

/-- The records of this tick and of later ones stay. -/
theorem recorded (m : ReleaseMove c S S') (hother : S.SameRecords c S') (h : S.Recorded d rel)
    (ht : S.systemTime ≤ rel.2) : S'.Recorded d rel := by
  unfold Sys.Recorded at h ⊢
  by_cases hd : d = c
  · subst hd
    cases m with
    | none hr _ | claim _ hr _ =>
      rw [hr]
      exact h
    | scan taskId hr _ =>
      obtain ⟨dj, hdj, rfl⟩ := List.mem_map.1 h
      rw [hr]
      exact List.mem_map.2 ⟨dj, mem_scanDelegations hdj ht, rfl⟩
    | send _ _ _ hr _ =>
      obtain ⟨dj, hdj, rfl⟩ := List.mem_map.1 h
      rw [hr]
      exact List.mem_map.2 ⟨dj, mem_insertBy.2 (.inr hdj), rfl⟩
    | read _ hr _ =>
      rw [hr, updateDelegation_map _ fun _ _ => rfl]
      exact h
  · rw [hother d hd]
    exact h

/-- A record that another core owns stays so. -/
theorem owned (m : ReleaseMove c S S') (hok : (S.core c).RecordsOk) {dj : DelegatedJob}
    (h : dj ∈ (S.core c).delegatedJobQueue) (ho : dj.ownedByRemote = true)
    (ht : S.systemTime ≤ dj.arrivalTick) : S'.Away c dj.release := by
  cases m with
  | none hr _ | claim _ hr _ => exact .owned (hr ▸ h) rfl ho
  | scan taskId hr _ => exact .owned (hr ▸ mem_scanDelegations h ht) rfl ho
  | send _ _ _ hr _ => exact .owned (hr ▸ mem_insertBy.2 (.inr h)) rfl ho
  | @read a q _ hr _ =>
    rw [updateDelegation_eq_map a hok.releases] at hr
    have hmem : dj.acknowledge [a] ∈ (S'.core c).delegatedJobQueue := hr ▸ List.mem_map_of_mem h
    exact .owned hmem rfl (acknowledge_owned.2 (.inl ho))

/-- **A release that is away stays away** until its tick is over. -/
theorem away (m : ReleaseMove c S S') (hother : S.SameRecords c S') (hok : (S.core c).RecordsOk)
    (hrec : ∀ a ∈ (S.delegationAckQueue d).values, a.release = rel → S.Recorded d rel)
    (ht : S.systemTime ≤ rel.2) (h : S.Away d rel) : S'.Away d rel := by
  cases h with
  | @owned dj hdj hr ho =>
    by_cases hd : d = c
    · subst hd hr
      exact m.owned hok hdj ho ht
    · exact .owned (hother d hd ▸ hdj) hr ho
  | @unread a ha hr hacc =>
    cases m with
    | none _ hq => exact .unread (hq d ▸ ha) hr hacc
    | scan _ _ hq | send _ _ _ _ hq => exact .unread (hq ▸ ha) hr hacc
    | @claim r _ _ hq =>
      refine .unread ?_ hr hacc
      rw [hq]
      by_cases hd : d = r.fromCore
      · subst hd
        rw [Function.update_self, TicketQueue.values_claim]
        exact List.mem_append_left _ ha
      · rwa [Function.update_of_ne hd]
    | @read b q hdeq hrec' hq =>
      by_cases hd : d = c
      · subst hd
        have hvalues := (TicketQueue.tryDequeue_eq_some hdeq).1
        have ha' := ha
        rw [hvalues] at ha'
        rcases List.mem_cons.1 ha' with rfl | ha'
        · -- the ack is read, and its record is there
          obtain ⟨dj, hdj, hrel⟩ := List.mem_map.1 (hrec a ha hr)
          rw [updateDelegation_eq_map a hok.releases] at hrec'
          have hmem : dj.acknowledge [a] ∈ (S'.core d).delegatedJobQueue :=
            hrec' ▸ List.mem_map_of_mem hdj
          exact .owned hmem hrel (acknowledge_owned.2 (.inr ⟨hacc, hrel.trans hr.symm⟩))
        · refine .unread ?_ hr hacc
          rw [hq, Function.update_self]
          exact ha'
      · refine .unread ?_ hr hacc
        rwa [hq, Function.update_of_ne hd]

/-- A record was there, or is for the job that was in the hands of the core. -/
theorem record_of (m : ReleaseMove c S S') (hok : (S.core c).RecordsOk)
    {dj : DelegatedJob} (h : dj ∈ (S'.core c).delegatedJobQueue) :
    (∃ dj' ∈ (S.core c).delegatedJobQueue, dj'.release = dj.release) ∨
      ∃ j ms, (S.core c).pc = .futureHand j ms ∧ (S.job j).release = dj.release := by
  cases m with
  | none hr _ | claim _ hr _ => exact .inl ⟨dj, hr ▸ h, rfl⟩
  | scan taskId hr _ =>
    rw [hr] at h
    exact .inl ⟨dj, (scanDelegations_spec ..).1.subset h, rfl⟩
  | @send j ms _ hp hj _ hr _ =>
    rw [hr] at h
    rcases mem_insertBy.1 h with rfl | h
    · exact .inr ⟨j, ms, hp, hj.symm⟩
    · exact .inl ⟨dj, h, rfl⟩
  | @read a _ _ hr _ =>
    rw [hr, updateDelegation_eq_map a hok.releases] at h
    obtain ⟨dj', hdj', rfl⟩ := List.mem_map.1 h
    exact .inl ⟨dj', hdj', rfl⟩

/-- An ack was there, or is sent now. -/
theorem ack_of (m : ReleaseMove c S S') {a : DelegationAck}
    (h : a ∈ (S'.delegationAckQueue d).values) : a ∈ (S.delegationAckQueue d).values ∨
      ∃ r, (S.core c).pc = .procAckClaim r ∧ r.fromCore = d ∧ a = acceptAck (S.job r.job) := by
  cases m with
  | none _ hq => exact .inl (hq d ▸ h)
  | scan _ _ hq | send _ _ _ _ hq => exact .inl (hq ▸ h)
  | @claim r hp _ hq =>
    rw [hq] at h
    by_cases hd : d = r.fromCore
    · subst hd
      rw [Function.update_self, TicketQueue.values_claim] at h
      rcases List.mem_append.1 h with h | h
      · exact .inl h
      · exact .inr ⟨r, hp, rfl, List.mem_singleton.1 h⟩
    · rw [Function.update_of_ne hd] at h
      exact .inl h
  | @read b q hdeq _ hq =>
    rw [hq] at h
    refine .inl ?_
    by_cases hd : d = c
    · subst hd
      rw [Function.update_self] at h
      rw [(TicketQueue.tryDequeue_eq_some hdeq).1]
      exact List.mem_cons_of_mem _ h
    · rwa [Function.update_of_ne hd] at h

/-- A release that is away was so before, or an ack of its job is sent. -/
theorem away_of (m : ReleaseMove c S S') (hother : S.SameRecords c S') (hok : (S.core c).RecordsOk)
    (h : S'.Away d rel) : S.Away d rel ∨
      ∃ r, (S.core c).pc = .procAckClaim r ∧ r.fromCore = d ∧ (S.job r.job).release = rel := by
  cases h with
  | @owned dj hdj hr ho =>
    by_cases hd : d = c
    · subst hd
      cases m with
      | none hq _ | claim _ hq _ => exact .inl (.owned (hq ▸ hdj) hr ho)
      | scan taskId hq _ =>
        rw [hq] at hdj
        exact .inl (.owned ((scanDelegations_spec ..).1.subset hdj) hr ho)
      | send _ _ hnew hq _ =>
        rw [hq] at hdj
        rcases mem_insertBy.1 hdj with rfl | hdj
        · cases hnew.symm.trans ho
        · exact .inl (.owned hdj hr ho)
      | @read a q hdeq hq _ =>
        rw [hq, updateDelegation_eq_map a hok.releases] at hdj
        obtain ⟨dj', hdj', rfl⟩ := List.mem_map.1 hdj
        rcases acknowledge_owned.1 ho with ho | ⟨hacc, hrel⟩
        · exact .inl (.owned hdj' hr ho)
        · refine .inl (.unread ?_ (hrel.symm.trans hr) hacc)
          rw [(TicketQueue.tryDequeue_eq_some hdeq).1]
          exact List.mem_cons_self
    · exact .inl (.owned (hother d hd ▸ hdj) hr ho)
  | @unread a ha hr hacc =>
    rcases m.ack_of ha with ha | ⟨r, hp, hd, rfl⟩
    · exact .inl (.unread ha hr hacc)
    · exact .inr ⟨r, hp, hd, hr⟩

end ReleaseMove

/-! ## The points of the tick -/

/-- At `attempt_migration_push` or past it -/
def Pc.past : Pc n → Bool
  | .push | .pushCheck | .offerLock | .offer .. | .offerTarget .. | .offerClaim .. | .offerPublish ..
  | .future _ | .futureHand .. | .futureClaim .. | .futurePublish .. | .process | .procLock1 _
  | .procLock2 _ | .procDecide _ | .procReject _ | .procInsert _ | .procAckClaim _
  | .procAckPublish .. | .procClear _ | .procPut _ | .select | .dispatch _ | .dispatched
  | .procrastinate | .dvfs | .dpm | .summary | .arrived => true
  | _ => false

/-- A step of the core alone does not go back before `attempt_migration_push`. -/
theorem LocalStep.past (hs : LocalStep X K J K' J') : (!K.pc.past || K'.pc.past) = true := by
  cases hs with
  | sync hs => cases hs <;> (rw [‹K.pc = _›]; rfl)
  | process hs =>
    cases hs with
    | lock1 hp =>
      rw [hp, Core.goto_pc]
      split_ifs <;> rfl
    | _ => rw [‹K.pc = _›]; rfl
  | power hs =>
    cases hs with
    | begin hp =>
      rw [hp, Core.goto_pc]
      split_ifs <;> rfl
    | _ => rw [‹K.pc = _›]; rfl
  | cancel hs | run hs | arrival hs | reclaim hs | push hs | dispatch hs =>
    cases hs <;> (rw [‹K.pc = _›]; rfl)

/-- A step of core `c` goes on in the tick, and a future job that it gets into its
    hands is for the next release of its task. -/
structure PhaseStep (cfg : Config) (c : Fin n) (S S' : Sys n) : Prop where
  past : (!(S.core c).pc.past || (S'.core c).pc.past) = true
  hand : ∀ j ms, (S'.core c).pc = .futureHand j ms → ∃ m task,
    (S.core c).offersFuture (S.ctx cfg c) m task ∧
      (S'.job j).release = (task.id, futureArrival S.systemTime task)

namespace PhaseStep

theorem of {q : Pc n} (hcore : S'.core = Function.update S.core c K') (hp : (S.core c).pc = q)
    (hq : (!q.past || K'.pc.past) = true) (hh : ∀ j ms, K'.pc ≠ .futureHand j ms) :
    PhaseStep cfg c S S' := by
  have hself : S'.core c = K' := by rw [hcore, Function.update_self]
  refine ⟨?_, fun j ms h => ?_⟩
  · rw [hself, hp]
    exact hq
  · rw [hself] at h
    exact absurd h (hh j ms)

theorem put {me : Option (Fin n)} {T : Sys n} (h : PhaseStep cfg c S T) (j : JobId n) :
    PhaseStep cfg c S (T.putJobRef me j) := by
  obtain ⟨f, g, he⟩ := T.putJobRef_eq me j
  have hrel : ∀ i, ((T.putJobRef me j).job i).release = (T.job i).release := by
    rw [he]
    exact Jobs.set_release rfl
  have hcore : (T.putJobRef me j).core = T.core := by rw [he]
  refine ⟨?_, fun i ms hp => ?_⟩
  · rw [hcore]
    exact h.past
  · rw [hcore] at hp
    rw [hrel]
    exact h.hand i ms hp

end PhaseStep

theorem PutStep.phase (hs : PutStep (S.core c) j K') : PhaseStep cfg c S (S.setCore c K') := by
  cases hs <;> exact .of rfl ‹(S.core c).pc = _› rfl nofun

theorem ArriveStep.phase (hs : ArriveStep cfg c S S') : PhaseStep cfg c S S' := by
  cases hs with
  | @put j K' hp => exact hp.phase.put j
  | create hp hm hd hj =>
    obtain ⟨-, f, g, rfl⟩ := Sys.takeFree_eq_some hj
    exact .of rfl hp rfl nofun
  | _ => exact .of rfl ‹(S.core c).pc = _› rfl nofun

theorem DiscardStep.phase (hs : DiscardStep cfg c S S') : PhaseStep cfg c S S' := by
  cases hs with
  | done hp hj =>
    refine .of rfl hp rfl fun j ms => ?_
    rw [Core.goto_pc]
    split_ifs <;> nofun
  | ack hp hq =>
    refine .of rfl hp rfl fun j ms h => ?_
    cases hp.symm.trans h
  | _ => exact .of rfl ‹(S.core c).pc = _› rfl nofun

theorem OfferStep.phase (hs : OfferStep cfg c S S') : PhaseStep cfg c S S' := by
  cases hs with
  | @createFuture m ms task j T acet hp ho hj =>
    obtain ⟨-, f, g, rfl⟩ := Sys.takeFree_eq_some hj
    have hself := Function.update_self (f := S.core) c ((S.core c).goto (.futureHand j ms))
    refine ⟨?_, fun i ms' h => ⟨m, task, ho, ?_⟩⟩
    · rw [hp]
      exact congrArg (fun K : Core n => K.pc.past) hself
    · obtain ⟨rfl, -⟩ := Pc.futureHand.inj ((congrArg Core.pc hself).symm.trans h)
      exact congrArg JobRec.release (Jobs.set_self ..)
  | _ => exact .of rfl ‹(S.core c).pc = _› rfl nofun

theorem RequestStep.phase (hs : RequestStep cfg c S S') : PhaseStep cfg c S S' := by
  cases hs with
  | @accept r hp hi hl =>
    have hself : ((S.listDel r.job).goto c (.procInsert r)).core c =
        ((S.core c).listDel r.job).goto (.procInsert r) := Function.update_self ..
    refine ⟨?_, fun j ms h => ?_⟩
    · rw [hself, hp]
      rfl
    · rw [hself] at h
      cases h
  | @putReject r hp =>
    have hT : PhaseStep cfg c S (S.goto c .process) := .of rfl hp rfl nofun
    exact hT.put _
  | @putAccept r hp =>
    let T := S.setJob r.job
      { S.job r.job with nextMigrationEligibleTick := S.systemTime + jobMigrationCooldownTicks }
    have hT : PhaseStep cfg c S (T.goto c .process) := .of rfl hp rfl nofun
    exact hT.put _
  | _ => exact .of rfl ‹(S.core c).pc = _› rfl nofun

theorem CoreStep.phase (hs : CoreStep cfg c S S') (hi : Inv S) : PhaseStep cfg c S S' := by
  cases hs with
  | @own K' J' hs he =>
    subst he
    have hspec := hs.spec (hi.ok c) (hi.core_nodup c)
    refine .of rfl rfl hs.past fun j ms h => ?_
    have htarget := hspec.own.target
    rw [h] at htarget
    cases htarget
  | arrive hs => exact hs.phase
  | discard hs => exact hs.phase
  | offer hs => exact hs.phase
  | request hs => exact hs.phase

/-! ## A future job in the hands of a core -/

theorem LocalStep.pc_ne_futureHand (hs : LocalStep X K J K' J') {ms : List TaskAlloc} :
    K.pc ≠ .futureHand j ms := by
  intro hp
  cases hs with
  | cancel hs | sync hs | run hs | arrival hs | reclaim hs | push hs | process hs | dispatch hs
  | power hs =>
    cases hs <;> cases hp.symm.trans ‹K.pc = _›

/-- The core drops the job, or has a record of its release from then on. -/
theorem CoreStep.of_futureHand (hs : CoreStep cfg c S S') {ms : List TaskAlloc}
    (hp : (S.core c).pc = .futureHand j ms) :
    S' = (S.setCore c ((S.core c).goto (.future ms))).putJobRef (some c) j ∨
      S'.Recorded c (S.job j).release := by
  cases hs with
  | own hs he => exact absurd hp hs.pc_ne_futureHand
  | arrive hs =>
    cases hs with
    | put hs =>
      cases hs with
      | futurePut hp' =>
        obtain ⟨rfl, rfl⟩ := Pc.futureHand.inj (hp.symm.trans hp')
        exact .inl rfl
      | _ => cases hp.symm.trans ‹(S.core c).pc = _›
    | _ => cases hp.symm.trans ‹(S.core c).pc = _›
  | discard hs => cases hs <;> cases hp.symm.trans ‹(S.core c).pc = _›
  | offer hs =>
    cases hs with
    | @sendFuture i ms' dest dj rest hp' hd hr =>
      obtain ⟨rfl, rfl⟩ := Pc.futureHand.inj (hp.symm.trans hp')
      refine .inr ?_
      show _ ∈ (Function.update S.core c _ c).delegatedJobQueue.map DelegatedJob.release
      rw [Function.update_self]
      exact List.mem_map.2 ⟨_, mem_insertBy.2 (.inl rfl), rfl⟩
    | _ => cases hp.symm.trans ‹(S.core c).pc = _›
  | request hs => cases hs <;> cases hp.symm.trans ‹(S.core c).pc = _›

/-- A request for a future job is from before, or its release is recorded. -/
theorem CoreStep.requested (hs : CoreStep cfg c S S') (hi : Inv S) (hpool : S.Pools)
    (h : S'.Requested j o) : S.Requested j o ∨
      o = c ∧ (∃ ms, (S.core c).pc = .futureHand j ms) ∧ S'.Recorded c (S.job j).release := by
  rcases (hs.handover hi hpool).requested j o h with hr | ⟨rfl, ms, hp⟩
  · exact .inl hr
  · rcases hs.of_futureHand hp with rfl | hrec
    · -- the job is dropped
      let T := S.setCore o ((S.core o).goto (.future ms))
      obtain ⟨f, g, he⟩ := T.putJobRef_eq (some o) j
      rw [he] at h
      have hself : T.core o = (S.core o).goto (.future ms) := Function.update_self ..
      have htok : S.Token j o true := by
        refine Sys.Token.of_late (c := o) (fun d hd => ?_) (fun d r hr => ?_) ?_ h.1
        · show (T.core d).pc = _
          rw [Sys.core_of_ne (S := S) hd rfl]
        · exact hr
        · show (T.core o).pc.isEarly = false
          rw [hself]
          rfl
      exact absurd htok.mem_reqs (hi.target o j (by rw [hp]; rfl))
    · exact .inr ⟨rfl, ⟨ms, hp⟩, hrec⟩

/-! ## Pending jobs -/

/-- What a step of core `c` does to its pending jobs. -/
inductive PendingMove (c : Fin n) (S S' : Sys n) : Prop
  | same (h : (S'.core c).pendingJobsQueue = (S.core c).pendingJobsQueue)
  | take {k : ℕ} {j : JobId n} (hp : (S.core c).pc = .pending k)
      (hj : (S.core c).pendingJobsQueue[k]? = some j) (ht : (S.job j).arrivalTime ≤ S.systemTime)
      (h : (S'.core c).pendingJobsQueue = (S.core c).pendingJobsQueue.eraseIdx k)
      (hdue : (S.job j).arrivalTime = S.systemTime → (S'.core c).pc = .pendingIns j k)
  | accept {r : MigrationRequest n} (hp : (S.core c).pc = .procDecide r)
      (hp' : (S'.core c).pc = .procAckClaim r)
      (h : (S'.core c).pendingJobsQueue =
        insertBy (arrivalOf S.job) r.job (S.core c).pendingJobsQueue)

namespace PendingMove

theorem of_core (hcore : S'.core = Function.update S.core c K')
    (h : K'.pendingJobsQueue = (S.core c).pendingJobsQueue) : PendingMove c S S' := by
  refine .same ?_
  rw [hcore, Function.update_self]
  exact h

/-- A pending job was pending, or the core has accepted it just now. -/
theorem cases_of_mem (m : PendingMove c S S') (hj : j ∈ (S'.core c).pendingJobsQueue) :
    j ∈ (S.core c).pendingJobsQueue ∨
      ∃ r, (S.core c).pc = .procDecide r ∧ (S'.core c).pc = .procAckClaim r ∧ r.job = j := by
  cases m with
  | same h => exact .inl (h ▸ hj)
  | take _ _ _ h _ =>
    rw [h] at hj
    exact .inl ((List.eraseIdx_sublist ..).subset hj)
  | @accept r hp hp' h =>
    rw [h] at hj
    rcases mem_insertBy.1 hj with rfl | hj
    · exact .inr ⟨r, hp, hp', rfl⟩
    · exact .inl hj

/-- A pending job stays, or the loop over the pending jobs takes it out. -/
theorem mem (m : PendingMove c S S') (hj : j ∈ (S.core c).pendingJobsQueue) :
    j ∈ (S'.core c).pendingJobsQueue ∨
      ∃ k, (S.core c).pc = .pending k ∧ (S.core c).pendingJobsQueue[k]? = some j ∧
        (S.job j).arrivalTime ≤ S.systemTime ∧
        ((S.job j).arrivalTime = S.systemTime → (S'.core c).pc = .pendingIns j k) := by
  cases m with
  | same h => exact .inl (h ▸ hj)
  | @take k i hp hi ht h hdue =>
    rw [← Multiset.mem_coe, coe_eraseIdx hi, Multiset.mem_cons] at hj
    rcases hj with rfl | hj
    · exact .inr ⟨k, hp, hi, ht, hdue⟩
    · exact .inl (h ▸ Multiset.mem_coe.1 hj)
  | accept _ _ h => exact .inl (h ▸ mem_insertBy.2 (.inr hj))

end PendingMove

theorem RequestStep.pendingMove (hs : RequestStep cfg c S S') (hi : Inv S) : PendingMove c S S' := by
  cases hs with
  | @acceptFuture r hp hidle =>
    have hself := Function.update_self (f := S.core) c
      { S.core c with
        pendingJobsQueue := insertBy (arrivalOf S.job) r.job (S.core c).pendingJobsQueue
        pc := .procAckClaim r }
    exact .accept hp (congrArg Core.pc hself) (congrArg Core.pendingJobsQueue hself)
  | @accept r hp _ hl =>
    have hself : ((S.listDel r.job).goto c (.procInsert r)).core c =
        ((S.core c).listDel r.job).goto (.procInsert r) := Function.update_self ..
    -- the job is ready, and so not pending
    have hout : r.job ∉ (S.core c).pendingJobsQueue := by
      intro hm
      have hst := ((hi.ok c).queues.pending r.job hm).state
      rw [hl.2] at hst
      cases hst
    refine .same ?_
    rw [hself]
    exact List.erase_of_not_mem hout
  | @putReject r hp =>
    obtain ⟨f, g, he⟩ := (S.goto c .process).putJobRef_eq (some c) r.job
    exact .of_core (congrArg Sys.core he) rfl
  | @putAccept r hp =>
    obtain ⟨f, g, he⟩ := ((S.setJob r.job { S.job r.job with
      nextMigrationEligibleTick := S.systemTime + jobMigrationCooldownTicks }).goto c
        .process).putJobRef_eq (some c) r.job
    exact .of_core (congrArg Sys.core he) rfl
  | _ => exact .of_core rfl rfl

theorem CoreStep.pendingMove (hs : CoreStep cfg c S S') (hi : Inv S) : PendingMove c S S' := by
  cases hs with
  | @own K' J' hs he =>
    subst he
    have hself : Function.update S.core c K' c = K' := Function.update_self ..
    rcases hs.pending_cases with he | ⟨k, i, hp, hk, hle, he, hdue⟩
    · exact .of_core rfl he
    · exact .take hp hk hle ((congrArg Core.pendingJobsQueue hself).trans he)
        fun ht => (congrArg Core.pc hself).trans (hdue ht)
  | arrive hs =>
    cases hs with
    | @put i K' hp =>
      obtain ⟨f, g, he⟩ := (S.setCore c K').putJobRef_eq (some c) i
      exact .of_core (congrArg Sys.core he) hp.late.2.2
    | create hp hm hd hf =>
      obtain ⟨-, f, g, rfl⟩ := Sys.takeFree_eq_some hf
      exact .of_core rfl rfl
    | _ => exact .of_core rfl rfl
  | discard hs =>
    cases hs with
    | accommodate hp hj => exact .of_core rfl ((S.core c).addByKind_pendingJobsQueue S.job _)
    | _ => exact .of_core rfl rfl
  | offer hs =>
    cases hs with
    | createFuture hp ho hf =>
      obtain ⟨-, f, g, rfl⟩ := Sys.takeFree_eq_some hf
      exact .of_core rfl rfl
    | _ => exact .of_core rfl rfl
  | request hs => exact hs.pendingMove hi

/-- The ack is on its way from the next step on. -/
theorem CoreStep.of_procAckClaim (hs : CoreStep cfg c S S') {r : MigrationRequest n}
    (hp : (S.core c).pc = .procAckClaim r) :
    acceptAck (S.job r.job) ∈ (S'.delegationAckQueue r.fromCore).values := by
  cases hs with
  | own hs he =>
    have hmove := hs.aside
    rw [hp] at hmove
    cases hmove
  | arrive hs =>
    cases hs with
    | put hs => cases hs <;> cases hp.symm.trans ‹(S.core c).pc = _›
    | _ => cases hp.symm.trans ‹(S.core c).pc = _›
  | discard hs => cases hs <;> cases hp.symm.trans ‹(S.core c).pc = _›
  | offer hs => cases hs <;> cases hp.symm.trans ‹(S.core c).pc = _›
  | request hs =>
    cases hs with
    | @ackClaim i hp' =>
      obtain rfl := Pc.procAckClaim.inj (hp.symm.trans hp')
      show _ ∈ (Function.update S.delegationAckQueue r.fromCore _ r.fromCore).values
      rw [Function.update_self, TicketQueue.values_claim]
      exact List.mem_append_right _ (List.mem_singleton_self _)
    | _ => cases hp.symm.trans ‹(S.core c).pc = _›

/-! ## No pending job is slept through -/

/-- A core in a low power state wakes up before its pending jobs arrive. -/
structure Core.Waits (K : Core n) (J : Jobs n) : Prop where
  rests : K.inLowPowerState = true → K.pc.rests = true
  free : K.inLowPowerState = true → ∀ j ∈ K.pendingJobsQueue, K.dpmEndTime ≤ arrivalOf J j

theorem Core.Waits.of_awake (h : K.inLowPowerState = false) : K.Waits J := by
  constructor
  all_goals
    intro hl
    cases hl.symm.trans h

theorem SleepStep.waits (hs : SleepStep X K J K') (h : K.Waits J)
    (hsorted : SortedBy (·.arrivalTick) K.delegatedJobQueue)
    (hJ : ∀ j ∈ K.pendingJobsQueue, arrivalOf J' j = arrivalOf J j)
    (ha : K'.Ahead J' X.systemTime) : K'.Waits J' := by
  have hawake : K.pc.rests = false → K.inLowPowerState = false := by
    intro hp
    cases hl : K.inLowPowerState with
    | false => rfl
    | true => cases hp.symm.trans (h.rests hl)
  cases hs with
  | awake hp he => exact .of_awake (he.trans (hawake hp))
  | woken he => exact .of_awake he
  | sleeps hp he hpend _ =>
    simp only [Core.rest, Prod.mk.injEq] at he
    obtain ⟨-, hlow, -, hend⟩ := he
    refine ⟨fun _ => hp, fun hl j hj => ?_⟩
    have hj' := hpend.subset hj
    rw [hJ j hj', hend]
    exact h.free (hlow ▸ hl) j hj'
  | sets hp hp' _ hpend he =>
    refine ⟨fun _ => by rw [hp']; rfl, fun hl j hj => ?_⟩
    have hset := (he hl).resolve_left (by rw [hawake hp]; exact Bool.false_ne_true)
    have hj' := hpend.subset hj
    -- the core is past its pending jobs
    have hlater : X.systemTime < arrivalOf J j := by
      rw [← hJ j hj']
      exact ha.late (by rw [hp']; rfl) j hj
    rw [hJ j hj']
    exact hset.2.trans (Core.Due.le (X := X) (.inl ⟨j, hj', rfl⟩) hsorted hlater)

/-- Each core is ahead of its pending jobs, and wakes up in time. -/
structure Sys.Punctual (S : Sys n) : Prop where
  ahead : ∀ c, (S.core c).Ahead S.job S.systemTime
  waits : ∀ c, (S.core c).Waits S.job

namespace Sys.Punctual

theorem init : (Sys.init n).Punctual := ⟨fun _ => ⟨nofun, nofun, rfl⟩, fun _ => .of_awake rfl⟩

/-- A step of another core, or of the timer within a tick -/
theorem elsewhere (h : S.Punctual) (he : Elsewhere S S' c d) (ht : S'.systemTime = S.systemTime) :
    (S'.core d).Ahead S'.job S'.systemTime ∧ (S'.core d).Waits S'.job := by
  have hsame : (S'.core d).inLowPowerState = (S.core d).inLowPowerState ∧
      (S'.core d).dpmEndTime = (S.core d).dpmEndTime ∧
      (S'.core d).pendingJobsQueue.Sublist (S.core d).pendingJobsQueue := by
    rcases he.core with he | ⟨rq, -, -, -, he⟩ <;> rw [he]
    · exact ⟨rfl, rfl, .refl _⟩
    · exact ⟨rfl, rfl, List.erase_sublist⟩
  obtain ⟨hlow, hend, hpend⟩ := hsame
  have hJ : ∀ j ∈ (S.core d).pendingJobsQueue, arrivalOf S'.job j = arrivalOf S.job j := fun j hj =>
    (he.times j (Sys.mem_held_of_pending hj)).arrival
  rw [ht]
  refine ⟨(h.ahead d).keep hpend (fun j hj => hJ j (hpend.subset hj)) (fun hl => ?_) ?_,
    fun hl => ?_, fun hl j hj => ?_⟩
  · rwa [he.pc] at hl
  · rw [he.pc]
    exact (h.ahead d).passed
  · rw [he.pc]
    exact (h.waits d).rests (hlow ▸ hl)
  · rw [hJ j (hpend.subset hj), hend]
    exact (h.waits d).free (hlow ▸ hl) j (hpend.subset hj)

theorem core_step (h : S.Punctual) (hi : Inv S) (hd : S.Delegations) (hs : CoreStep cfg c S S') :
    S'.Punctual := by
  have hown := hs.watch hi hd (h.ahead c) fun _ hlow hend j hj =>
    hend.trans_le ((h.waits c).free hlow j hj)
  have htime := hs.systemTime_eq
  have hJ : ∀ j ∈ (S.core c).pendingJobsQueue, arrivalOf S'.job j = arrivalOf S.job j := fun j hj =>
    Sys.arrival_of_release (hs.records hi hd).release hi hj
  have hboth : ∀ e, (S'.core e).Ahead S'.job S'.systemTime ∧ (S'.core e).Waits S'.job := by
    intro e
    by_cases hec : e = c
    · rw [hec, htime]
      exact ⟨hown.ahead, hown.sleep.waits (h.waits c) (hd.ok c).sorted hJ hown.ahead⟩
    · exact h.elsewhere (hs.elsewhere hi hec) htime
  exact ⟨fun e => (hboth e).1, fun e => (hboth e).2⟩

theorem timer_step (h : S.Punctual) (hi : Inv S) (hs : TimerStep cfg S S') : S'.Punctual := by
  have hsame : S'.systemTime = S.systemTime → (∀ e, S'.core e = S.core e) → S'.Punctual := by
    intro htime hcore
    have he : ∀ e, Elsewhere S S' e e := fun e => .of_same (hcore e) (hs.cores hi).2
    exact ⟨fun e => (h.elsewhere (he e) htime).1, fun e => (h.elsewhere (he e) htime).2⟩
  cases hs with
  | sweep _ _ | keep _ _ _ | expire _ _ _ => exact hsame rfl fun _ => rfl
  | @put k j _ =>
    obtain ⟨f, g, he⟩ := { S with timer := .sweep k }.putJobRef_eq none j
    rw [he] at hsame ⊢
    exact hsame rfl fun _ => rfl
  | advance hp _ _ _ =>
    -- all cores are at the end of the tick
    have hlate : ∀ e, (S.core e).pc.late = true := by
      intro e
      rw [hi.timer (by rw [hp]; nofun) e]
      rfl
    exact ⟨fun e => ⟨(h.ahead e).late (hlate e), nofun, rfl⟩, fun e => ⟨fun _ => rfl, (h.waits e).free⟩⟩

end Sys.Punctual

theorem Reachable.punctual (h : Reachable cfg S) : S.Punctual := by
  obtain ⟨tr, h⟩ := h
  induction h with
  | nil => exact .init
  | @snoc tr T a U hr hs ih =>
    have hreach : Reachable cfg T := ⟨tr, hr⟩
    cases hs with
    | core _ hs => exact ih.core_step hreach.inv hreach.delegations hs
    | timer hs => exact ih.timer_step hreach.inv hs

/-! ## Which releases have records -/

theorem Config.id_of_findTaskById {taskId : ℕ} {task : Task} (h : cfg.findTaskById taskId = some task) :
    task.id = taskId := by
  unfold Config.findTaskById at h
  split_ifs at h
  have hid := List.find?_some h
  exact eq_of_beq hid

/-- A release of its task: the next one after `time` or one before that, and no
    later one than that at `time` until the core has passed `attempt_migration_push`. -/
def Timely (cfg : Config) (time : ℕ) (past : Bool) (rel : ℕ × ℕ) : Prop :=
  ∃ task, cfg.findTaskById rel.1 = some task ∧ 0 < task.period ∧ task.period ∣ rel.2 ∧
    rel.2 ≤ time + task.period ∧ (past = false → rel.2 < time + task.period)

namespace Timely

variable {time : ℕ} {past past' : Bool}

theorem mono (h : Timely cfg time past rel) (hp : past' = false → past = false) :
    Timely cfg time past' rel := by
  obtain ⟨task, hfind, hpos, hdvd, hle, hlt⟩ := h
  exact ⟨task, hfind, hpos, hdvd, hle, fun he => hlt (hp he)⟩

theorem succ (h : Timely cfg time past rel) : Timely cfg (time + 1) past' rel := by
  obtain ⟨task, hfind, hpos, hdvd, hle, -⟩ := h
  exact ⟨task, hfind, hpos, hdvd, by omega, fun _ => by omega⟩

theorem futureArrival {task : Task} (hfind : cfg.findTaskById task.id = some task)
    (hp : task.period ≠ 0) : Timely cfg time true (task.id, EeftSched.futureArrival time task) := by
  refine ⟨task, hfind, Nat.pos_of_ne_zero hp, Nat.dvd_mul_left .., ?_, nofun⟩
  show (time / task.period + 1) * task.period ≤ time + task.period
  rw [Nat.add_mul, Nat.one_mul]
  exact Nat.add_le_add_right (Nat.div_mul_le_self ..) _

/-- At a release of the task its records of this tick or later are for it. -/
theorem eq_now {task : Task} (h : Timely cfg time false rel) (ht : time ≤ rel.2)
    (hfind : cfg.findTaskById rel.1 = some task) (hmod : time % task.period = 0) : rel.2 = time := by
  obtain ⟨task', hfind', hpos, hdvd, -, hlt⟩ := h
  obtain rfl := Option.some.inj (hfind'.symm.trans hfind)
  have hdiff : task'.period ∣ rel.2 - time := Nat.dvd_sub hdvd (Nat.dvd_of_mod_eq_zero hmod)
  have hsmall : rel.2 - time < task'.period := by
    have := hlt rfl
    omega
  have hzero := Nat.eq_zero_of_dvd_of_lt hdiff hsmall
  omega

end Timely

/-- **The invariant of the delegated releases.** -/
structure Sys.Promised (cfg : Config) (S : Sys n) : Prop where
  due : ∀ c, ∀ dj ∈ (S.core c).delegatedJobQueue,
    Timely cfg S.systemTime (S.core c).pc.past dj.release
  hand : ∀ c j ms, (S.core c).pc = .futureHand j ms → Timely cfg S.systemTime true (S.job j).release
  /-- what a request, an ack or a pending job stands for is recorded -/
  requested : ∀ j o, S.Requested j o → S.systemTime ≤ (S.job j).arrivalTime →
    S.Recorded o (S.job j).release
  acked : ∀ c, ∀ a ∈ (S.delegationAckQueue c).values, S.systemTime ≤ a.arrivalTick →
    S.Recorded c a.release
  pending : ∀ d, ∀ j ∈ (S.core d).pendingJobsQueue, S.Recorded j.1 (S.job j).release
  /-- the release of a pending job is away, or its ack is about to be sent -/
  away : ∀ d, ∀ j ∈ (S.core d).pendingJobsQueue,
    (∃ r, (S.core d).pc = .procAckClaim r ∧ r.job = j) ∨ S.Away j.1 (S.job j).release

theorem Sys.Promised.init (cfg : Config) : (Sys.init n).Promised cfg := by
  refine ⟨nofun, nofun, fun j o h => ?_, nofun, nofun, nofun⟩
  obtain ⟨hd, -⟩ | hr := h.1.cases_core (S := Sys.init n) (c := o) (fun _ _ => rfl) fun _ _ => id
  · cases hd
  · cases hr with
    | queued hd => cases hd

/-- The core that is about to send an ack has its job pending, for the donor. -/
theorem Sys.Promised.ack_job (hP : S.Promised cfg) (hr : Reachable cfg S)
    {r : MigrationRequest n}
    (hp : (S.core c).pc = .procAckClaim r) :
    r.job ∈ (S.core c).pendingJobsQueue ∧ r.job.1 = r.fromCore ∧
      S.systemTime < (S.job r.job).arrivalTime ∧ S.Recorded r.fromCore (S.job r.job).release := by
  have hpend : r.job ∈ (S.core c).pendingJobsQueue := hr.inv.acks c r.job (by rw [hp]; rfl)
  obtain ⟨hown, hlater⟩ := hr.handover.owes c r hp
  exact ⟨hpend, hown, hlater, hown ▸ hP.pending c r.job hpend⟩

section

variable (hr : Reachable cfg S) (hs : CoreStep cfg c S S')

include hr hs

theorem CoreStep.release_eq (hj : j ∈ S.held ∨ j ∈ S.reqs) :
    (S'.job j).release = (S.job j).release :=
  (hs.records hr.inv hr.delegations).release j fun hf =>
    hj.elim (hr.inv.of_free hf).1 (hr.inv.of_free hf).2

theorem CoreStep.release_eq_of_pending (hj : j ∈ (S.core d).pendingJobsQueue) :
    (S'.job j).release = (S.job j).release :=
  hs.release_eq hr (.inl (Sys.mem_held.2 (.inl ⟨d, Sys.mem_held_of_pending hj⟩)))

theorem CoreStep.sameRecords : S.SameRecords c S' := fun d hd =>
  congrArg Prod.fst ((hs.records hr.inv hr.delegations).others d hd).1

theorem CoreStep.recorded (h : S.Recorded d rel) (ht : S.systemTime ≤ rel.2) : S'.Recorded d rel :=
  hs.releaseMove.recorded (hs.sameRecords hr) h ht

theorem CoreStep.away (hP : S.Promised cfg) (ht : S.systemTime ≤ rel.2) (h : S.Away d rel) :
    S'.Away d rel := by
  refine hs.releaseMove.away (hs.sameRecords hr) (hr.delegations.ok c) (fun a ha hrel => ?_) ht h
  subst hrel
  exact hP.acked d a ha ht

/-- What core `c` has accepted just now -/
theorem CoreStep.accepted (hP : S.Promised cfg) {r : MigrationRequest n}
    (hp : (S'.core c).pc = .procAckClaim r) :
    S.Requested r.job r.fromCore ∧ S.systemTime < (S.job r.job).arrivalTime ∧
      S.Recorded r.job.1 (S.job r.job).release := by
  have m : Sys.Moves c S S' := ⟨hr.inv, hs.handover hr.inv hr.pools, fun d hd => hs.elsewhere hr.inv hd,
    (hs.records hr.inv hr.delegations).release, hs.systemTime_eq⟩
  obtain ⟨hreq, hlater⟩ := m.accepts hp
  refine ⟨hreq, hlater, ?_⟩
  rw [hr.handover.origin _ _ hreq]
  exact hP.requested _ _ hreq hlater.le

theorem Sys.Promised.core_step (hP : S.Promised cfg) : S'.Promised cfg := by
  have htime := hs.systemTime_eq
  have hphase := hs.phase hr.inv
  have hother : ∀ d ≠ c, (S'.core d).pc = (S.core d).pc := fun d hd =>
    ((hs.records hr.inv hr.delegations).others d hd).2
  have hpast : (S'.core c).pc.past = false → (S.core c).pc.past = false := by
    intro h
    have hstep := hphase.past
    rwa [h, Bool.or_false, Bool.not_eq_true'] at hstep
  refine ⟨fun d dj hdj => ?_, fun d j ms hp => ?_, fun j o hreq ht => ?_, fun d a ha ht => ?_,
    fun d j hj => ?_, fun d j hj => ?_⟩
  · rw [htime]
    by_cases hd : d = c
    · subst hd
      rcases hs.releaseMove.record_of (hr.delegations.ok d) hdj with ⟨dj', hdj', hrel⟩ | ⟨j, ms, hp, hrel⟩
      · rw [← hrel]
        exact (hP.due d dj' hdj').mono hpast
      · rw [← hrel]
        refine (hP.hand d j ms hp).mono fun h => ?_
        rw [hp] at hpast
        exact hpast h
    · rw [hs.sameRecords hr d hd] at hdj
      rw [hother d hd]
      exact hP.due d dj hdj
  · rw [htime]
    by_cases hd : d = c
    · subst hd
      obtain ⟨m, task, ho, hrel⟩ := hphase.hand j ms hp
      have hfind : cfg.findTaskById task.id = some task := by
        rw [Config.id_of_findTaskById ho.1]
        exact ho.1
      rw [hrel]
      exact .futureArrival hfind ho.2.1
    · rw [hother d hd] at hp
      have hheld : j ∈ (S.core d).held := Core.mem_held.2 (.inr (by rw [hp]; rfl))
      rw [hs.release_eq hr (.inl (Sys.mem_held.2 (.inl ⟨d, hheld⟩)))]
      exact hP.hand d j ms hp
  · rw [htime] at ht
    rcases hs.requested hr.inv hr.pools hreq with hreq | ⟨rfl, ⟨ms, hp⟩, hrec⟩
    · have hrel := hs.release_eq hr (.inr hreq.1.mem_reqs)
      rw [(Prod.mk.inj hrel).2] at ht
      rw [hrel]
      exact hs.recorded hr (hP.requested j o hreq ht) ht
    · have hheld : j ∈ (S.core o).held := Core.mem_held.2 (.inr (by rw [hp]; rfl))
      rw [hs.release_eq hr (.inl (Sys.mem_held.2 (.inl ⟨o, hheld⟩)))]
      exact hrec
  · rw [htime] at ht
    rcases hs.releaseMove.ack_of ha with ha | ⟨r, hp, rfl, rfl⟩
    · exact hs.recorded hr (hP.acked d a ha ht) ht
    · exact hs.recorded hr (hP.ack_job hr hp).2.2.2 ht
  · by_cases hd : d = c
    · subst hd
      rcases (hs.pendingMove hr.inv).cases_of_mem hj with hj | ⟨r, -, hp, rfl⟩
      · rw [hs.release_eq_of_pending hr hj]
        exact hs.recorded hr (hP.pending d j hj) ((hr.punctual.ahead d).now j hj)
      · obtain ⟨hreq, hlater, hrec⟩ := hs.accepted hr hP hp
        rw [hs.release_eq hr (.inr hreq.1.mem_reqs)]
        exact hs.recorded hr hrec hlater.le
    · rw [(hs.elsewhere hr.inv hd).pending (hr.inv.core_nodup d)] at hj
      rw [hs.release_eq_of_pending hr hj]
      exact hs.recorded hr (hP.pending d j hj) ((hr.punctual.ahead d).now j hj)
  · have hkeep : j ∈ (S.core d).pendingJobsQueue → S.Away j.1 (S.job j).release →
        S'.Away j.1 (S'.job j).release := by
      intro hj h
      rw [hs.release_eq_of_pending hr hj]
      exact hs.away hr hP ((hr.punctual.ahead d).now j hj) h
    by_cases hd : d = c
    · subst hd
      rcases (hs.pendingMove hr.inv).cases_of_mem hj with hj | ⟨r, -, hp, hrj⟩
      · rcases hP.away d j hj with ⟨r, hp, rfl⟩ | h
        · -- the ack is sent
          have hown := (hP.ack_job hr hp).2.1
          rw [hs.release_eq_of_pending hr hj, hown]
          exact .inr (.unread (hs.of_procAckClaim hp) rfl rfl)
        · exact .inr (hkeep hj h)
      · exact .inl ⟨r, hp, hrj⟩
    · rw [(hs.elsewhere hr.inv hd).pending (hr.inv.core_nodup d)] at hj
      rcases hP.away d j hj with ⟨r, hp, hrj⟩ | h
      · exact .inl ⟨r, by rw [hother d hd]; exact hp, hrj⟩
      · exact .inr (hkeep hj h)

end

/-! ## The timer -/

/-- A step of the timer leaves records, acks and pending jobs alone. -/
structure TimerFrame (S S' : Sys n) : Prop where
  queue : ∀ c, (S'.core c).delegatedJobQueue = (S.core c).delegatedJobQueue
  pending : ∀ c, (S'.core c).pendingJobsQueue = (S.core c).pendingJobsQueue
  acks : S'.delegationAckQueue = S.delegationAckQueue
  job : ∀ i, ((S'.job i).release, (S'.job i).state) = ((S.job i).release, (S.job i).state)

namespace TimerFrame

theorem release (h : TimerFrame S S') (i : JobId n) : (S'.job i).release = (S.job i).release :=
  (Prod.mk.inj (h.job i)).1

theorem recorded (h : TimerFrame S S') (hrec : S.Recorded c rel) : S'.Recorded c rel := by
  unfold Sys.Recorded
  rw [h.queue]
  exact hrec

theorem away_iff (h : TimerFrame S S') : S'.Away c rel ↔ S.Away c rel := by
  constructor
  · intro ha
    cases ha with
    | owned hdj hr ho => exact .owned (by rw [← h.queue]; exact hdj) hr ho
    | unread ha hr hacc => exact .unread (by rw [← h.acks]; exact ha) hr hacc
  · intro ha
    cases ha with
    | owned hdj hr ho => exact .owned (by rw [h.queue]; exact hdj) hr ho
    | unread ha hr hacc => exact .unread (by rw [h.acks]; exact ha) hr hacc

end TimerFrame

theorem TimerStep.frame (hs : TimerStep cfg S S') : TimerFrame S S' := by
  cases hs with
  | sweep | keep | advance => exact ⟨fun _ => rfl, fun _ => rfl, rfl, fun _ => rfl⟩
  | expire hp hj ht =>
    exact ⟨fun _ => rfl, fun _ => rfl, rfl, Jobs.set_field (fun r => (r.release, r.state)) rfl⟩
  | @put k j hp =>
    obtain ⟨f, g, he⟩ := Sys.putJobRef_eq { S with timer := .sweep k } none j
    rw [he]
    exact ⟨fun _ => rfl, fun _ => rfl, rfl, Jobs.set_field (fun r => (r.release, r.state)) rfl⟩

/-- A step of the timer within a tick, or the start of the next one -/
theorem TimerStep.within_or_advance (hs : TimerStep cfg S S') (hi : Inv S) :
    (S'.systemTime = S.systemTime ∧ S'.core = S.core ∧
        S'.migrationRequestQueue = S.migrationRequestQueue) ∨
      (S'.systemTime = S.systemTime + 1 ∧ (∀ c, (S.core c).pc = .arrived) ∧
        (∀ c, (S'.core c).pc = .start) ∧ S'.migrationRequestQueue = S.migrationRequestQueue) := by
  cases hs with
  | sweep | keep | expire => exact .inl ⟨rfl, rfl, rfl⟩
  | @put k j hp =>
    obtain ⟨f, g, he⟩ := Sys.putJobRef_eq { S with timer := .sweep k } none j
    rw [he]
    exact .inl ⟨rfl, rfl, rfl⟩
  | advance hp hj hf hl => exact .inr ⟨rfl, hi.timer (by rw [hp]; nofun), fun _ => rfl, rfl⟩

theorem Sys.Promised.timer_step (hP : S.Promised cfg) (hi : Inv S) (hs : TimerStep cfg S S') :
    S'.Promised cfg := by
  have hframe := hs.frame
  have hle := hs.systemTime_le
  have hreq : ∀ j o, S'.Requested j o → S.Requested j o := by
    rintro j o ⟨htok, hidle⟩
    refine ⟨?_, (Prod.mk.inj (hframe.job j)).2.symm.trans hidle⟩
    rcases hs.within_or_advance hi with ⟨-, hcore, hq⟩ | ⟨-, -, hstart, hq⟩
    · exact htok.congr hcore hq
    · exact htok.of_idle (fun d => by rw [hstart d]; rfl) hq
  refine ⟨fun c dj hdj => ?_, fun c j ms hp => ?_, fun j o h ht => ?_, fun c a ha ht => ?_,
    fun d j hj => ?_, fun d j hj => ?_⟩
  · rw [hframe.queue] at hdj
    rcases hs.within_or_advance hi with ⟨ht, hcore, -⟩ | ⟨ht, -, -, -⟩
    · rw [ht, hcore]
      exact hP.due c dj hdj
    · rw [ht]
      exact (hP.due c dj hdj).succ
  · rw [hframe.release]
    rcases hs.within_or_advance hi with ⟨ht, hcore, -⟩ | ⟨-, -, hstart, -⟩
    · rw [hcore] at hp
      rw [ht]
      exact hP.hand c j ms hp
    · cases (hstart c).symm.trans hp
  · rw [(Prod.mk.inj (hframe.release j)).2] at ht
    rw [hframe.release]
    exact hframe.recorded (hP.requested j o (hreq j o h) (hle.trans ht))
  · rw [hframe.acks] at ha
    exact hframe.recorded (hP.acked c a ha (hle.trans ht))
  · rw [hframe.pending] at hj
    rw [hframe.release]
    exact hframe.recorded (hP.pending d j hj)
  · rw [hframe.pending] at hj
    rw [hframe.release]
    rcases hP.away d j hj with ⟨r, hp, hrj⟩ | h
    · rcases hs.within_or_advance hi with ⟨-, hcore, -⟩ | ⟨-, harr, -, -⟩
      · exact .inl ⟨r, by rw [hcore]; exact hp, hrj⟩
      · cases (harr d).symm.trans hp
    · exact .inr (hframe.away_iff.2 h)

theorem Reachable.promised (h : Reachable cfg S) : S.Promised cfg := by
  obtain ⟨tr, h⟩ := h
  induction h with
  | nil => exact .init cfg
  | @snoc tr T a U hr hs ih =>
    have hreach : Reachable cfg T := ⟨tr, hr⟩
    cases hs with
    | core _ hs => exact ih.core_step hreach hs
    | timer hs => exact ih.timer_step hreach.inv hs

/-! ## Creating, skipping and activating -/

/-- `handle_job_arrivals` of core `c` creates a job for a release of `taskId`. -/
def Creates (c : Fin n) (taskId : ℕ) (x : Trans (Sys n) (Label n)) : Prop :=
  ∃ m ms j, x.lab = .core c ∧ (x.pre.core c).pc = .alloc (m :: ms) ∧ m.taskId = taskId ∧
    (x.post.core c).pc = .allocIns j ms

/-- `handle_job_arrivals` of core `c` skips a release of `taskId`, which another
    core owns. -/
def Skips (cfg : Config) (c : Fin n) (taskId : ℕ) (x : Trans (Sys n) (Label n)) : Prop :=
  ∃ m ms task, x.lab = .core c ∧ (x.pre.core c).pc = .alloc (m :: ms) ∧ m.taskId = taskId ∧
    (x.pre.ctx cfg c).releases m task ∧ (x.pre.core c).delegatedAt task.id x.pre.systemTime

/-- A core takes the job of donor `c` for the release of `taskId` at this tick out
    of its `pending_jobs_queue`. -/
def Activates (c : Fin n) (taskId : ℕ) (x : Trans (Sys n) (Label n)) : Prop :=
  ∃ d k j, x.lab = .core d ∧ (x.pre.core d).pc = .pending k ∧
    (x.pre.core d).pendingJobsQueue[k]? = some j ∧ (x.post.core d).pc = .pendingIns j k ∧
    j.1 = c ∧ (x.pre.job j).release = (taskId, x.pre.systemTime)

/-- A core that handles an entry has no unread ack for the release of its task at
    this tick. -/
def AcksRead (S : Sys n) (a : Label n) : Prop :=
  ∀ c m ms, a = .core c → (S.core c).pc = .alloc (m :: ms) →
    ∀ ack ∈ (S.delegationAckQueue c).values, ack.release ≠ (m.taskId, S.systemTime)

/-- Some core has the job of donor `c` for the release pending. -/
def Sys.PendingFor (S : Sys n) (c : Fin n) (rel : ℕ × ℕ) : Prop :=
  ∃ d, ∃ j ∈ (S.core d).pendingJobsQueue, j.1 = c ∧ (S.job j).release = rel

/-- The tick is over: all cores have arrived, or it is a later one. -/
def Sys.TickOver (S : Sys n) (time : ℕ) : Prop :=
  time < S.systemTime ∨ time = S.systemTime ∧ ∀ d, (S.core d).pc = .arrived

/-- Only a release that no record delegates is created. -/
theorem CoreStep.of_creates (hs : CoreStep cfg c S S') {m : TaskAlloc} {ms : List TaskAlloc}
    (hp : (S.core c).pc = .alloc (m :: ms)) (hp' : (S'.core c).pc = .allocIns j ms) :
    ∃ task, (S.ctx cfg c).releases m task ∧ ¬ (S.core c).delegatedAt task.id S.systemTime := by
  cases hs with
  | @own K' J' hs he =>
    subst he
    have hself : Function.update S.core c K' c = K' := Function.update_self ..
    have hK : K'.pc = .allocIns j ms := (congrArg Core.pc hself).symm.trans hp'
    cases hs with
    | arrival hs =>
      cases hs with
      | allocSkip h hm =>
        obtain ⟨-, rfl⟩ := List.cons.inj (Pc.alloc.inj (hp.symm.trans h))
        cases hK
      | allocDelegated h hm hd =>
        obtain ⟨-, rfl⟩ := List.cons.inj (Pc.alloc.inj (hp.symm.trans h))
        cases hK
      | _ => cases hp.symm.trans ‹(S.core c).pc = _›
    | cancel hs | sync hs | run hs | reclaim hs | push hs | process hs | dispatch hs | power hs =>
      cases hs <;> cases hp.symm.trans ‹(S.core c).pc = _›
  | arrive hs =>
    cases hs with
    | create h hm hd hj =>
      obtain ⟨rfl, -⟩ := List.cons.inj (Pc.alloc.inj (hp.symm.trans h))
      exact ⟨_, hm, hd⟩
    | @exhausted m' ms' task h hm hd hj =>
      obtain ⟨rfl, -⟩ := List.cons.inj (Pc.alloc.inj (hp.symm.trans h))
      exact ⟨_, hm, hd⟩
    | put hs => cases hs <;> cases hp.symm.trans ‹(S.core c).pc = _›
    | _ => cases hp.symm.trans ‹(S.core c).pc = _›
  | discard hs => cases hs <;> cases hp.symm.trans ‹(S.core c).pc = _›
  | offer hs => cases hs <;> cases hp.symm.trans ‹(S.core c).pc = _›
  | request hs => cases hs <;> cases hp.symm.trans ‹(S.core c).pc = _›

section

variable {taskId : ℕ} {a : Label n}

/-- What is created is not away, if all acks for it are read. -/
theorem Creates.not_away (h : Creates c taskId ⟨S, a, S'⟩) (hs : Step cfg S a S')
    (hread : AcksRead S a) : ¬ S.Away c (taskId, S.systemTime) := by
  obtain ⟨m, ms, j, hlab, hp, rfl, hp'⟩ := h
  dsimp only at hlab hp hp'
  subst hlab
  cases hs with
  | core _ hs =>
    obtain ⟨task, hm, hd⟩ := hs.of_creates hp hp'
    intro haway
    cases haway with
    | owned hdj hrel ho =>
      obtain ⟨htask, htick⟩ := Prod.mk.inj hrel
      refine hd (scanDelegations_found.2 ⟨_, hdj, ?_, htick.ge, ho⟩)
      exact htask.trans (Config.id_of_findTaskById hm.1).symm
    | unread ha hrel _ => exact hread c m ms rfl hp _ ha hrel

/-- What is skipped is away. -/
theorem Skips.away (h : Skips cfg c taskId ⟨S, a, S'⟩) (hr : Reachable cfg S) :
    S.Away c (taskId, S.systemTime) := by
  obtain ⟨m, ms, task, -, hp, rfl, hm, hd⟩ := h
  dsimp only at hp hm hd
  obtain ⟨dj, hdj, htask, htick, ho⟩ := scanDelegations_found.1 hd
  have hid : dj.taskId = m.taskId := htask.trans (Config.id_of_findTaskById hm.1)
  have hfind : cfg.findTaskById dj.release.1 = some task := by
    show cfg.findTaskById dj.taskId = some task
    rw [hid]
    exact hm.1
  have htimely := hr.promised.due c dj hdj
  rw [hp] at htimely
  exact .owned hdj (Prod.ext hid (htimely.eq_now htick hfind hm.2.2)) ho

/-- What is activated is away. -/
theorem Activates.away (h : Activates c taskId ⟨S, a, S'⟩) (hr : Reachable cfg S) :
    S.Away c (taskId, S.systemTime) := by
  obtain ⟨d, k, j, -, hp, hj, -, rfl, hrel⟩ := h
  dsimp only at hp hj hrel
  rcases hr.promised.away d j (List.mem_of_getElem? hj) with ⟨r, hp', -⟩ | haway
  · cases hp.symm.trans hp'
  · exact hrel ▸ haway

end

/-- Within its tick a release does not come to be away. -/
theorem CoreStep.away_iff (hs : CoreStep cfg c S S') (hr : Reachable cfg S)
    (ht : rel.2 = S.systemTime) : S'.Away d rel ↔ S.Away d rel := by
  constructor
  · intro h
    rcases hs.releaseMove.away_of (hs.sameRecords hr) (hr.delegations.ok c) h with h | ⟨r, hp, -, hrel⟩
    · exact h
    · -- the ack is for a later release
      have hlater := (hr.promised.ack_job hr hp).2.2.1
      rw [← hrel] at ht
      exact absurd ht hlater.ne'
  · exact hs.away hr hr.promised ht.ge

/-- A pending job stays pending until it is activated. -/
theorem CoreStep.pendingFor (hs : CoreStep cfg c S S') (hr : Reachable cfg S) {e : Fin n}
    (h : S.PendingFor e rel) : S'.PendingFor e rel ∨
      rel.2 = S.systemTime ∧ Activates e rel.1 ⟨S, .core c, S'⟩ := by
  obtain ⟨d, j, hj, hown, rfl⟩ := h
  have hrel := hs.release_eq_of_pending hr hj
  by_cases hd : d = c
  · subst hd
    rcases (hs.pendingMove hr.inv).mem hj with hj' | ⟨k, hp, hk, hle, hdue⟩
    · exact .inl ⟨d, j, hj', hown, hrel⟩
    · have hnow : (S.job j).arrivalTime = S.systemTime :=
        le_antisymm hle ((hr.punctual.ahead d).now j hj)
      refine .inr ⟨hnow, d, k, j, rfl, hp, hk, hdue hnow, hown, ?_⟩
      exact Prod.ext rfl hnow
  · rw [← (hs.elsewhere hr.inv hd).pending (hr.inv.core_nodup d)] at hj
    exact .inl ⟨d, j, hj, hown, hrel⟩

/-! ## Runs -/

variable {tr : List (Trans (Sys n) (Label n))}

/-- What a run has done at the current tick: what it has created is not away, and
    what it has activated is. -/
structure Tally (tr : List (Trans (Sys n) (Label n))) (S : Sys n) : Prop where
  times : ∀ x ∈ tr, x.pre.systemTime ≤ S.systemTime
  created : ∀ c taskId, ∀ x ∈ tr, Creates c taskId x → x.pre.systemTime = S.systemTime →
    ¬ S.Away c (taskId, S.systemTime)
  activated : ∀ c taskId, ∀ y ∈ tr, Activates c taskId y → y.pre.systemTime = S.systemTime →
    S.Away c (taskId, S.systemTime)
  once : ∀ c taskId, ∀ x ∈ tr, ∀ y ∈ tr, Creates c taskId x → Activates c taskId y →
    x.pre.systemTime ≠ y.pre.systemTime

/-- A step within the tick keeps what is away of it. -/
theorem Step.away_iff {a : Label n} (hs : Step cfg S a S') (hr : Reachable cfg S)
    (ht : S'.systemTime = S.systemTime) {taskId : ℕ} :
    S'.Away c (taskId, S'.systemTime) ↔ S.Away c (taskId, S.systemTime) := by
  rw [ht]
  cases hs with
  | core _ hs => exact hs.away_iff hr rfl
  | timer hs => exact hs.frame.away_iff

theorem mem_snoc {x z : Trans (Sys n) (Label n)} : x ∈ tr ++ [z] ↔ x ∈ tr ∨ x = z := by
  rw [List.mem_append, List.mem_singleton]

theorem Tally.step {a : Label n} (h : Tally tr S) (hr : Reachable cfg S) (hs : Step cfg S a S')
    (hread : AcksRead S a) : Tally (tr ++ [⟨S, a, S'⟩]) S' := by
  have hle := hs.systemTime_le
  -- what the run did at this tick, it did at the tick before the step
  have hback : ∀ {x : Trans (Sys n) (Label n)}, x ∈ tr → x.pre.systemTime = S'.systemTime →
      x.pre.systemTime = S.systemTime ∧ S'.systemTime = S.systemTime := by
    intro x hx ht
    have hx := h.times x hx
    omega
  refine ⟨fun x hx => ?_, fun c taskId x hx hc ht => ?_, fun c taskId y hy hv ht => ?_,
    fun c taskId x hx y hy hc hv ht => ?_⟩
  · rcases mem_snoc.1 hx with hx | rfl
    · exact (h.times x hx).trans hle
    · exact hle
  · rcases mem_snoc.1 hx with hx | rfl
    · obtain ⟨hx', htime⟩ := hback hx ht
      rw [hs.away_iff hr htime]
      exact h.created c taskId x hx hc hx'
    · rw [hs.away_iff hr ht.symm]
      exact hc.not_away hs hread
  · rcases mem_snoc.1 hy with hy | rfl
    · obtain ⟨hy', htime⟩ := hback hy ht
      rw [hs.away_iff hr htime]
      exact h.activated c taskId y hy hv hy'
    · rw [hs.away_iff hr ht.symm]
      exact hv.away hr
  · rcases mem_snoc.1 hx with hx | rfl
    · rcases mem_snoc.1 hy with hy | rfl
      · exact h.once c taskId x hx y hy hc hv ht
      · exact h.created c taskId x hx hc ht (hv.away hr)
    · rcases mem_snoc.1 hy with hy | rfl
      · exact hc.not_away hs hread (h.activated c taskId y hy hv ht.symm)
      · exact hc.not_away hs hread (hv.away hr)

/-- What is away is pending or was activated, and what was skipped too. -/
structure Served (cfg : Config) (tr : List (Trans (Sys n) (Label n))) (S : Sys n) : Prop where
  away : ∀ c rel, S.Away c rel → S.systemTime ≤ rel.2 →
    S.PendingFor c rel ∨ ∃ y ∈ tr, Activates c rel.1 y ∧ y.pre.systemTime = rel.2
  skipped : ∀ c taskId, ∀ x ∈ tr, Skips cfg c taskId x →
    (x.pre.systemTime = S.systemTime ∧ S.PendingFor c (taskId, S.systemTime)) ∨
      ∃ y ∈ tr, Activates c taskId y ∧ y.pre.systemTime = x.pre.systemTime

/-- At the end of a tick no job is pending for it. -/
theorem Sys.Punctual.not_pendingFor (h : S.Punctual) (harr : ∀ d, (S.core d).pc = .arrived)
    {taskId : ℕ} : ¬ S.PendingFor c (taskId, S.systemTime) := by
  rintro ⟨d, j, hj, -, hrel⟩
  have hlater := (h.ahead d).late (by rw [harr d]; rfl) j hj
  exact hlater.ne' (Prod.mk.inj hrel).2

theorem Served.core_step (h : Served cfg tr S) (hr : Reachable cfg S) (hs : CoreStep cfg c S S') :
    Served cfg (tr ++ [⟨S, .core c, S'⟩]) S' := by
  have htime := hs.systemTime_eq
  have hold : ∀ {e taskId time}, (∃ y ∈ tr, Activates e taskId y ∧ y.pre.systemTime = time) →
      ∃ y ∈ tr ++ [⟨S, .core c, S'⟩], Activates e taskId y ∧ y.pre.systemTime = time := by
    rintro e taskId time ⟨y, hy, hv⟩
    exact ⟨y, List.mem_append_left _ hy, hv⟩
  have hstep : ∀ {e rel}, S.PendingFor e rel → S'.PendingFor e rel ∨
      ∃ y ∈ tr ++ [⟨S, .core c, S'⟩], Activates e rel.1 y ∧ y.pre.systemTime = rel.2 := by
    intro e rel hp
    rcases hs.pendingFor hr hp with hp | ⟨hnow, hv⟩
    · exact .inl hp
    · exact .inr ⟨_, mem_snoc.2 (.inr rfl), hv, hnow.symm⟩
  have haway : ∀ {e rel}, S.Away e rel → S.systemTime ≤ rel.2 → S'.PendingFor e rel ∨
      ∃ y ∈ tr ++ [⟨S, .core c, S'⟩], Activates e rel.1 y ∧ y.pre.systemTime = rel.2 := by
    intro e rel ha ht
    rcases h.away e rel ha ht with hp | hv
    · exact hstep hp
    · exact .inr (hold hv)
  refine ⟨fun e rel ha ht => ?_, fun e taskId x hx hskip => ?_⟩
  · rw [htime] at ht
    rcases hs.releaseMove.away_of (hs.sameRecords hr) (hr.delegations.ok c) ha with ha | ⟨r, hp, rfl, rfl⟩
    · exact haway ha ht
    · -- the ack is sent, and its job is pending
      obtain ⟨hpend, hown, -, -⟩ := hr.promised.ack_job hr hp
      exact hstep ⟨c, r.job, hpend, hown, rfl⟩
  · rw [htime]
    rcases mem_snoc.1 hx with hx | rfl
    · rcases h.skipped e taskId x hx hskip with ⟨hnow, hp⟩ | hv
      · rcases hstep hp with hp | hv
        · exact .inl ⟨hnow, hp⟩
        · rw [hnow]
          exact .inr hv
      · exact .inr (hold hv)
    · rcases haway (hskip.away hr) le_rfl with hp | hv
      · exact .inl ⟨rfl, hp⟩
      · exact .inr hv

theorem Served.timer_step (h : Served cfg tr S) (hr : Reachable cfg S) (hs : TimerStep cfg S S') :
    Served cfg (tr ++ [⟨S, .timer, S'⟩]) S' := by
  have hframe := hs.frame
  have hold : ∀ {e taskId time}, (∃ y ∈ tr, Activates e taskId y ∧ y.pre.systemTime = time) →
      ∃ y ∈ tr ++ [⟨S, .timer, S'⟩], Activates e taskId y ∧ y.pre.systemTime = time := by
    rintro e taskId time ⟨y, hy, hv⟩
    exact ⟨y, List.mem_append_left _ hy, hv⟩
  have hpend : ∀ {e rel}, S.PendingFor e rel → S'.PendingFor e rel := by
    rintro e rel ⟨d, j, hj, hown, hrel⟩
    exact ⟨d, j, by rw [hframe.pending]; exact hj, hown, (hframe.release j).trans hrel⟩
  refine ⟨fun e rel ha ht => ?_, fun e taskId x hx hskip => ?_⟩
  · rcases h.away e rel (hframe.away_iff.1 ha) (hs.systemTime_le.trans ht) with hp | hv
    · exact .inl (hpend hp)
    · exact .inr (hold hv)
  · rcases mem_snoc.1 hx with hx | rfl
    · rcases h.skipped e taskId x hx hskip with ⟨hnow, hp⟩ | hv
      · rcases hs.within_or_advance hr.inv with ⟨ht, -, -⟩ | ⟨-, harr, -, -⟩
        · rw [ht]
          exact .inl ⟨hnow, hpend hp⟩
        · exact absurd hp (hr.punctual.not_pendingFor harr)
      · exact .inr (hold hv)
    · obtain ⟨m, ms, task, hlab, -⟩ := hskip
      cases hlab

theorem Exec.served (h : Exec (Step cfg) (Sys.init n) tr S) : Served cfg tr S := by
  induction h with
  | nil =>
    refine ⟨fun c rel ha _ => ?_, fun c taskId x hx => by cases hx⟩
    cases ha with
    | owned h => cases h
    | unread h => cases h
  | @snoc tr T a U hr hs ih =>
    have hreach : Reachable cfg T := ⟨tr, hr⟩
    cases hs with
    | core _ hs => exact ih.core_step hreach hs
    | timer hs => exact ih.timer_step hreach hs

theorem Exec.tally (h : Exec (Step cfg) (Sys.init n) tr S)
    (hread : ∀ x ∈ tr, AcksRead x.pre x.lab) : Tally tr S := by
  induction h with
  | nil => exact ⟨nofun, nofun, nofun, nofun⟩
  | @snoc tr T a U hr hs ih =>
    have hT := ih fun x hx => hread x (List.mem_append_left _ hx)
    exact hT.step ⟨tr, hr⟩ hs (hread ⟨T, a, U⟩ (mem_snoc.2 (.inr rfl)))

/-- **Each delegated release is released once**, in a run in which no core handles
    an entry while it has an unread ack for the release: a release that the donor
    creates is not activated elsewhere, and one that it skips is, by the end of
    the tick. -/
theorem released_once (h : Exec (Step cfg) (Sys.init n) tr S)
    (hread : ∀ x ∈ tr, AcksRead x.pre x.lab) (c : Fin n) (taskId : ℕ) :
    (∀ x ∈ tr, ∀ y ∈ tr, Creates c taskId x → Activates c taskId y →
      x.pre.systemTime ≠ y.pre.systemTime) ∧
    ∀ x ∈ tr, Skips cfg c taskId x → S.TickOver x.pre.systemTime →
      ∃ y ∈ tr, Activates c taskId y ∧ y.pre.systemTime = x.pre.systemTime := by
  have hreach : Reachable cfg S := ⟨tr, h⟩
  refine ⟨(Exec.tally h hread).once c taskId, fun x hx hskip hover => ?_⟩
  rcases (Exec.served h).skipped c taskId x hx hskip with ⟨hnow, hp⟩ | hv
  · rcases hover with hlt | ⟨-, harr⟩
    · exact absurd hnow hlt.ne
    · exact absurd hp (hreach.punctual.not_pendingFor harr)
  · exact hv

/-! ## A short release that goes to another core -/

theorem mild_acksRead : Mild AcksRead where
  quiet S d hq c m ms hc hp := by
    obtain rfl := Label.core.inj hc
    rw [hp] at hq
    cases hq
  acks S d hread c m ms hc _ ack hack he := by
    obtain rfl := Label.core.inj hc
    exact hread ack hack (congrArg Prod.snd he)
  timer S c m ms hc := by cases hc

section

open HandRun

variable {P : Sys 2 → Label 2 → Prop} {J : Jobs 2} {f : Fin 2 → List (JobId 2)}
  {q : Fin 2 → TicketQueue (MigrationRequest 2)} {a : Fin 2 → TicketQueue DelegationAck}
  {o : List CompletionMessage} {L : Core 2} {j j₀ j₁ j₂ : JobId 2} {D : List DelegatedJob} {dj : DelegatedJob}
  {period : ℕ}

/-- In tick 3 core 0 is at its first entry, with the ack unread, and core 1 at the
    pending job. -/
theorem HandRun.pending3 (hP : Mild P) :
    ∃ J f q a o j₀ j₁ j₂ j₃ rest dj D,
    HandRun 3 1 P (Sys.init 2) 3 J f q a o 1 ({ handCore [] j₀ with pendingJobsQueue := [j₁] }.goto (.pending 0))
      ((sentCore j₂ (sentRecord dj 3) D).goto (.alloc ((handConfig 3 1).entries 0))) ∧
    f 0 = j₃ :: rest ∧ j₁.1 = 0 ∧ J j₁ = acceptedJob 0 3 := by
  obtain ⟨J, f, q, o, j₀, j₁, j₂, j₃, rest, dj, D, h, -, hf, h₀₁, h₁₂, h₀₂, hc₁, hj₀, hj₂, hj₁⟩ :=
    tick2 hP le_rfl (by decide)
  have h : HandRun 3 1 P (Sys.init 2) 3 J f q _ _ 0 ((sentCore j₂ (sentRecord dj 3) D).goto .start) _ :=
    h.nextTick.swap (fun _ => rfl) rfl
  obtain ⟨J₁, h, -, hJ₁⟩ := runOn h rfl rfl rfl rfl hj₂ (by norm_num) (by decide)
  have h := (h.pendingEnd nofun).swap (fun _ => rfl) rfl
  have h : HandRun 3 1 P (Sys.init 2) 3 J₁ f q _ _ 1
    ({ handCore [] j₀ with pendingJobsQueue := [j₁] }.goto .start) _ := h
  rw [← hJ₁ j₀ h₀₂] at hj₀
  obtain ⟨J₂, h, -, hJ₂⟩ := runOn h rfl rfl rfl rfl hj₀ (by norm_num) (by decide)
  refine ⟨J₂, f, q, _, _, j₀, j₁, j₂, j₃, rest, dj, D, h, hf, hc₁, ?_⟩
  rw [hJ₂ j₁ h₀₁.symm, hJ₁ j₁ h₁₂]
  exact hj₁

/-- Core 0 has skipped a release in tick 4: the tick goes on to the pending job of core 1. -/
theorem HandRun.pending4 {K : Core 2} {start : Sys 2} (hP : Mild P)
    (h : HandRun 4 1 P start 4 J f q a o 0 (K.goto (.alloc [handAlloc 2 0 1000]))
      ({ handCore [] j₀ with pendingJobsQueue := [j₁] }.goto .start))
    (hK : K.readyQueue = [] ∧ K.replicaQueue = [] ∧ K.discardList = []) (hq : ∀ d, (q d).slots = [])
    (ha : (a 0).slots = []) (hj₀ : (J j₀).Long 3 1000) :
    ∃ J', HandRun 4 1 P start 4 J' f q a o 1
      ({ handCore [] j₀ with pendingJobsQueue := [j₁] }.goto (.pending 0)) (K.goto .arrived) ∧
      (J' j₀).Long 4 1000 ∧ ∀ i, i ≠ j₀ → J' i = J i := by
  have hvalues : (a 0).values = [] := by rw [TicketQueue.values, ha, List.map_nil]
  have hdequeue : (a 0).tryDequeue = none := by rw [TicketQueue.tryDequeue, ha]
  have hempty : (q 0).tryDequeue = none := by rw [TicketQueue.tryDequeue, hq 0]
  have h := (h.skip (hP.of_nil hvalues) rfl (by decide)).close hK.2.2 hdequeue
  have h := (((h.own rfl (.push (.skip rfl))).processed hempty).stay hK.1 hK.2.1).finish
  have h : HandRun 4 1 P start 4 J f q a o 1
      ({ handCore [] j₀ with pendingJobsQueue := [j₁] }.goto .start) (K.goto .arrived) :=
    h.swap (fun _ => rfl) rfl
  obtain ⟨J', h, hj₀, hJ⟩ := runOn h rfl rfl rfl rfl hj₀ le_rfl (by decide)
  rw [show (3 : ℚ) + 1 = 4 by norm_num] at hj₀
  exact ⟨J', h, hj₀, hJ⟩

/-- Core 1 has activated the pending job: it runs before the long one. -/
theorem HandRun.arrived4 {start : Sys 2} (hP : Mild P)
    (h : HandRun 4 1 P start 4 J f q a o 1 ((handCore [] j₀).goto (.pendingIns j₁ 0)) L)
    (hne : j₀ ≠ j₁) (hj₁ : (J j₁).isReplica = false) (hvd : (J j₁).virtualDeadline < 1000)
    (hq : ∀ d, (q d).slots = []) (ha : (a 1).slots = []) (hj₀ : (J j₀).Long 4 1000) :
    ∃ J', HandRun 4 1 P start 4 J' f q a o 1 ({ handCore [j₀] j₁ with isIdle := false }.goto .arrived) L := by
  have hvalues : (a 1).values = [] := by rw [TicketQueue.values, ha, List.map_nil]
  have hdequeue : (a 1).tryDequeue = none := by rw [TicketQueue.tryDequeue, ha]
  have hempty : (q 1).tryDequeue = none := by rw [TicketQueue.tryDequeue, hq 1]
  set J₁ := J.set j₁ (J j₁).link
  have hself : J₁ j₁ = (J j₁).link := Function.update_self ..
  have hother : J₁ j₀ = J j₀ := Function.update_of_ne hne ..
  have h : HandRun 4 1 P start 4 J₁ f q a o 1 ((handCore [j₁] j₀).goto (.pending 0)) L := by
    have h := h.own rfl (.arrival (.pendingIns rfl))
    rw [Core.addArrival_of_primary hj₁ (Nat.zero_le _)] at h
    exact h
  have h := (h.pendingEnd fun i hi => by cases hi).skip (hP.of_nil hvalues) rfl (by decide)
  have h := ((h.close rfl hdequeue).own rfl (.push (.skip rfl))).processed hempty
  obtain ⟨J', h, -⟩ := h.preempt rfl rfl rfl hne
    (by rw [hself, hother, hj₀.virtual]; exact hvd) (by rw [hself]; exact hj₁) (by rw [hother]; exact hj₀.kind)
  exact ⟨J', h.finish⟩

end

/-- A release that the donor creates, with the ack of the last tick unread, and that
    the other core activates. -/
theorem handed_released_twice : ∃ (tr : List (Trans (Sys 2) (Label 2))) (S : Sys 2),
    Exec (Step (handConfig 3 1)) (Sys.init 2) tr S ∧ ∃ x ∈ tr, ∃ y ∈ tr,
      Creates 0 1 x ∧ Activates 0 1 y ∧ x.pre.systemTime = y.pre.systemTime := by
  obtain ⟨J, f, q, a, o, j₀, j₁, j₂, j₃, rest, dj, D, h, hf, hc₁, hj₁⟩ := HandRun.pending3 .top
  obtain ⟨tr, hrun, -⟩ := h.run
  have hrel : (J j₁).release = (1, 3) := congrArg JobRec.release hj₁
  set K := { handCore [] j₀ with pendingJobsQueue := [j₁] }
  set K' := ({ K with pendingJobsQueue := [] }.goto (.pendingIns j₁ 0))
  set L := (sentCore j₂ (HandRun.sentRecord dj 3) D).goto (.alloc ((handConfig 3 1).entries 0))
  -- core 1 activates the pending job
  obtain ⟨J', hdue⟩ : ∃ J', LocalStep ⟨handConfig 3 1, 1, 3, 0, []⟩ (K.goto (.pending 0)) J K' J' :=
    ⟨_, .arrival (.due rfl rfl (congrArg Prod.snd hrel))⟩
  have hact := h.step (PairRun.local_step hdue)
  -- core 0 creates another one
  have hnot : ¬ (sentCore j₂ (HandRun.sentRecord dj 3) D).delegatedAt 1 3 := by
    unfold Core.delegatedAt
    rw [scanDelegations_found]
    rintro ⟨r, hr, -, -, ho⟩
    obtain rfl := List.mem_singleton.1 hr
    cases ho
  have hlater := (h.own rfl hdue).swap (fun _ => rfl) rfl
  have hentry : (handConfig 3 1).findTaskById (handAlloc 1 0 3).taskId = some (shortTask 3 1) ∧
    (shortTask 3 1).period ≠ 0 ∧ 3 % (shortTask 3 1).period = 0 := ⟨rfl, by decide, rfl⟩
  obtain ⟨S, hcreate, hpc⟩ : ∃ S, Step (handConfig 3 1) (pairSys 3 J' f q a o 1 K' L) (.core 0) S ∧
      (S.core 0).pc = .allocIns j₃ [handAlloc 2 0 1000] := by
    rw [pairSys_rev]
    exact ⟨_, hlater.step (PairRun.create_step 1 hentry hnot hf), congrArg Core.pc pairSys_core⟩
  refine ⟨_, S, (hrun.snoc hact).snoc hcreate, _, mem_snoc.2 (.inr rfl), _,
    mem_snoc.2 (.inl (mem_snoc.2 (.inr rfl))), ⟨handAlloc 1 0 3, _, j₃, rfl, ?_, rfl, hpc⟩,
    ⟨1, 0, j₁, rfl, congrArg Core.pc pairSys_core, ?_, congrArg Core.pc pairSys_core, hc₁, hrel⟩, rfl⟩
  · exact congrArg Core.pc (pairSys_core_of_ne Fin.zero_ne_one)
  · exact congrArg (·.pendingJobsQueue[0]?) pairSys_core

/-- When core 0 reads the ack a tick before the release, it skips the release, and
    core 1 activates the job. -/
theorem handed_released_once : ∃ (tr : List (Trans (Sys 2) (Label 2))) (S : Sys 2),
    Exec (Step (handConfig 4 1)) (Sys.init 2) tr S ∧ S.TickOver 4 ∧
    (∃ x ∈ tr, Skips (handConfig 4 1) 0 1 x ∧ x.pre.systemTime = 4 ∧
      ∃ y ∈ tr, Activates 0 1 y ∧ y.pre.systemTime = x.pre.systemTime) ∧
    ∀ x ∈ tr, ∀ y ∈ tr, Creates 0 1 x → Activates 0 1 y → x.pre.systemTime ≠ y.pre.systemTime := by
  obtain ⟨J, f, q, o, j₀, j₁, j₂, D, dj, h, hq, h₀₁, h₁₂, h₀₂, hc₁, hj₀, hj₁⟩ :=
    HandRun.skip4 mild_acksRead (show 3 < 4 by decide) (by decide)
  obtain ⟨tr₁, hrun₁, hread₁⟩ := h.run
  set a : Fin 2 → TicketQueue DelegationAck := Function.update (fun _ => .empty) 0 ⟨1, []⟩
  set K := sentCore j₂ (HandRun.ownedRecord dj 4) D
  set L := { handCore [] j₀ with pendingJobsQueue := [j₁] }
  -- core 0 skips the release
  have hreleases : Ctx.releases (⟨handConfig 4 1, 0, 4, 0, []⟩ : Ctx 2) (handAlloc 1 0 4) (shortTask 4 1) :=
    ⟨rfl, by decide, Nat.mod_self 4⟩
  have howned : K.delegatedAt 1 4 := by
    unfold Core.delegatedAt
    rw [scanDelegations_found]
    exact ⟨_, List.mem_singleton_self _, rfl, le_rfl, rfl⟩
  have hskip : LocalStep ⟨handConfig 4 1, 0, 4, 0, []⟩ (K.goto (.alloc ((handConfig 4 1).entries 0))) J
      ((K.scanned 1 4).goto (.alloc [handAlloc 2 0 1000])) J := .arrival (.allocDelegated rfl hreleases howned)
  have hread : AcksRead (pairSys 4 J f q a o 0 (K.goto (.alloc ((handConfig 4 1).entries 0))) (L.goto .start))
    (.core 0) := mild_acksRead.of_nil rfl
  have h₂ := h.core hread (PairRun.local_step hskip) rfl
  obtain ⟨J₂, h₂, hj₀, hJ₂⟩ := HandRun.pending4 mild_acksRead h₂.restart ⟨rfl, rfl, rfl⟩ hq rfl hj₀
  rw [← hJ₂ j₁ h₀₁.symm] at hj₁
  have hrel : (J₂ j₁).release = (1, 4) := congrArg JobRec.release hj₁
  obtain ⟨tr₂, hrun₂, hread₂⟩ := h₂.run
  -- core 1 activates the pending job
  have hdue : LocalStep ⟨handConfig 4 1, 1, 4, 0, []⟩
      (L.goto (.pending 0)) J₂ ((handCore [] j₀).goto (.pendingIns j₁ 0)) _ :=
    .arrival (.due rfl rfl (congrArg Prod.snd hrel))
  have h₃ := h₂.own rfl hdue
  have hread' : AcksRead (pairSys 4 J₂ f q a o 1 (L.goto (.pending 0)) ((K.scanned 1 4).goto .arrived)) (.core 1) :=
    h₂.quiet _ 1 (congrArg (fun K => K.pc.isQuiet) pairSys_core)
  obtain ⟨J₃, h₃⟩ := HandRun.arrived4 mild_acksRead h₃.restart h₀₁
    (by rw [Jobs.set, Function.update_self, hj₁]; rfl)
    (by rw [Jobs.set, Function.update_self, hj₁]; exact (show 4 + 4 < 1000 by decide)) hq rfl
    (by rw [Jobs.set, Function.update_of_ne h₀₁]; exact hj₀)
  obtain ⟨tr₃, hrun₃, hread₃⟩ := h₃.run
  have hrun := hrun₁.join (h.step (PairRun.local_step hskip)) (hrun₂.join (h₂.step (PairRun.local_step hdue)) hrun₃)
  set x : Trans (Sys 2) (Label 2) := ⟨pairSys 4 J f q a o 0 (K.goto (.alloc ((handConfig 4 1).entries 0)))
    (L.goto .start), .core 0, pairSys 4 J f q a o 0 ((K.scanned 1 4).goto (.alloc [handAlloc 2 0 1000])) (L.goto .start)⟩
  have hx : ∀ {tr}, x ∈ tr₁ ++ x :: tr := List.mem_append_right _ List.mem_cons_self
  have hskips : Skips (handConfig 4 1) 0 1 x := by
    refine ⟨handAlloc 1 0 4, _, shortTask 4 1, rfl, congrArg Core.pc pairSys_core, rfl, hreleases, ?_⟩
    show (Sys.core _ 0).delegatedAt 1 4
    rw [pairSys_core]
    exact howned
  obtain ⟨honce, hserved⟩ := released_once hrun (List.forall_mem_append.2 ⟨hread₁, List.forall_mem_cons.2
    ⟨hread, List.forall_mem_append.2 ⟨hread₂, List.forall_mem_cons.2 ⟨hread', hread₃⟩⟩⟩⟩) 0 1
  refine ⟨_, _, hrun, .inr ⟨rfl, pairSys_arrived⟩, ⟨x, hx, hskips, rfl, ?_⟩, honce⟩
  exact hserved x hx hskips (.inr ⟨rfl, pairSys_arrived⟩)

end EeftSched

/-
  The delegation records of a core (`init_migration` .. `update_delegations`
  and `attempt_future_load_shedding` in `sched_migration.c`,
  `handle_job_arrivals` in `sched_core.c`).

  * `Records`: each record is in one of the two lists, those in use are in the
    order of their ticks and of different releases, and no other core owns a
    free one;
  * `Records.scan`, `Records.ack`, `Records.send`: the three functions that
    change the lists;
  * `Sys.Delegations`: all this holds of every core, and a core that has a
    future job in its hands has no record of its release yet;
  * `Reachable.delegations`: in every reachable state; and `update_delegations`
    leaves no ack, and changes only the owner of records.
-/
import EeftSched.TickFaults

namespace EeftSched

open Lts SortedQueue

variable {n : ℕ} {cfg : Config} {S S' : Sys n} {K K' : Core n} {J J' : Jobs n} {j : JobId n} {c : Fin n}
  {X : Ctx n}

/-- The task and the tick of a release -/
def DelegatedJob.release (dj : DelegatedJob) : ℕ × ℕ := (dj.taskId, dj.arrivalTick)

/-- The release a job was created for -/
def JobRec.release (r : JobRec) : ℕ × ℕ := (r.parentTask.id, r.arrivalTime)

/-- **The records of a core are consistent.** -/
structure Records (queue freeList : List DelegatedJob) : Prop where
  /-- each node is in one of the lists, once -/
  nodes : ((queue ++ freeList).map (·.node)).Perm (List.finRange maxFutureDelegations)
  sorted : SortedBy (·.arrivalTick) queue
  /-- no two records of one release -/
  releases : (queue.map DelegatedJob.release).Nodup
  free : ∀ dj ∈ freeList, dj.ownedByRemote = false

/-! ## The lists -/

section
variable {queue freeList rest : List DelegatedJob} {dj : DelegatedJob} {taskId systemTime : ℕ}

theorem records_init : Records [] initDelegations where
  nodes := by
    have hmap : initDelegations.map (·.node) = (List.finRange maxFutureDelegations).reverse := by
      rw [initDelegations, List.map_map]
      exact List.map_id _
    rw [List.nil_append, hmap]
    exact List.reverse_perm _
  sorted := .nil
  releases := List.nodup_nil
  free dj hdj := by
    obtain ⟨node, -, rfl⟩ := List.mem_map.1 hdj
    rfl

/-- What the scan keeps was there, what it frees comes from there. -/
theorem scanDelegations_spec (taskId systemTime : ℕ) (queue freeList : List DelegatedJob) :
    (scanDelegations taskId systemTime queue freeList).1.Sublist queue ∧
      (((scanDelegations taskId systemTime queue freeList).1 ++
        (scanDelegations taskId systemTime queue freeList).2.1).map (·.node)).Perm
        ((queue ++ freeList).map (·.node)) ∧
      ∀ dj ∈ (scanDelegations taskId systemTime queue freeList).2.1,
        dj.ownedByRemote = false ∨ dj ∈ freeList := by
  induction queue generalizing freeList with
  | nil => exact ⟨List.Sublist.slnil, .refl _, fun dj h => .inr h⟩
  | cons dj queue ih =>
    unfold scanDelegations
    split_ifs with hold hown
    · -- an expired record
      obtain ⟨hsub, hperm, hfree⟩ := ih ({ dj with ownedByRemote := false } :: freeList)
      refine ⟨hsub.cons _, hperm.trans ?_, fun d hd => ?_⟩
      · simp only [List.map_append, List.map_cons, List.cons_append]
        exact List.perm_middle
      · rcases hfree d hd with h | h
        · exact .inl h
        · rcases List.mem_cons.1 h with rfl | h
          · exact .inl rfl
          · exact .inr h
    · exact ⟨List.Sublist.refl _, .refl _, fun d hd => .inr hd⟩
    · obtain ⟨hsub, hperm, hfree⟩ := ih freeList
      exact ⟨hsub.cons_cons _, hperm.cons _, hfree⟩

theorem Records.scan (h : Records queue freeList) (taskId systemTime : ℕ) :
    Records (scanDelegations taskId systemTime queue freeList).1
      (scanDelegations taskId systemTime queue freeList).2.1 := by
  obtain ⟨hsub, hperm, hfree⟩ := scanDelegations_spec taskId systemTime queue freeList
  refine ⟨hperm.trans h.nodes, h.sorted.sublist hsub, (hsub.map _).nodup h.releases, fun dj hdj => ?_⟩
  rcases hfree dj hdj with h' | h'
  · exact h'
  · exact h.free dj h'

/-- An ack changes the owner only. -/
theorem updateDelegation_map {β : Type} (f : DelegatedJob → β)
    (hf : ∀ dj b, f { dj with ownedByRemote := b } = f dj) (ack : DelegationAck)
    (queue : List DelegatedJob) : (updateDelegation ack queue).map f = queue.map f := by
  induction queue with
  | nil => rfl
  | cons dj queue ih =>
    unfold updateDelegation
    split_ifs
    · rw [List.map_cons, List.map_cons, hf]
    · rw [List.map_cons, List.map_cons, ih]

theorem Records.ack (h : Records queue freeList) (ack : DelegationAck) :
    Records (updateDelegation ack queue) freeList := by
  refine ⟨?_, ?_, ?_, h.free⟩
  · rw [List.map_append, updateDelegation_map _ fun _ _ => rfl, ← List.map_append]
    exact h.nodes
  · have hs : ((updateDelegation ack queue).map (·.arrivalTick)).Pairwise (· ≤ ·) := by
      rw [updateDelegation_map _ fun _ _ => rfl]
      exact List.pairwise_map.2 h.sorted
    exact List.pairwise_map.1 hs
  · rw [updateDelegation_map _ fun _ _ => rfl]
    exact h.releases

/-- A free record is used for a release that has none. -/
theorem Records.send (h : Records queue (dj :: rest)) {dj' : DelegatedJob} (hn : dj'.node = dj.node)
    (hr : dj'.release ∉ queue.map DelegatedJob.release) :
    Records (addDelegationSorted dj' queue) rest := by
  have hperm : (addDelegationSorted dj' queue).Perm (dj' :: queue) := insertBy_perm _ _ _
  refine ⟨?_, h.sorted.insertBy, ?_, fun d hd => h.free d (List.mem_cons_of_mem _ hd)⟩
  · refine ((hperm.append_right rest).map _).trans (List.Perm.trans ?_ h.nodes)
    simp only [List.map_append, List.map_cons, List.cons_append, hn]
    exact List.perm_middle.symm
  · rw [(hperm.map _).nodup_iff, List.map_cons]
    exact List.nodup_cons.2 ⟨hr, h.releases⟩

/-- **The walk that stops early sees every record of the release**, thanks to
    the order of the records. -/
theorem hasDelegation_iff (hs : SortedBy (·.arrivalTick) queue) {arrivalTime : ℕ} :
    hasDelegation taskId arrivalTime queue = true ↔
      (taskId, arrivalTime) ∈ queue.map DelegatedJob.release := by
  induction queue with
  | nil => simp [hasDelegation]
  | cons dj queue ih =>
    obtain ⟨hle, hs⟩ := List.pairwise_cons.1 hs
    unfold hasDelegation
    rw [List.map_cons, List.mem_cons]
    split_ifs with hdj hlt
    · refine iff_of_true rfl (.inl ?_)
      rw [DelegatedJob.release, hdj.1, hdj.2]
    · -- all later records are of later ticks
      refine iff_of_false id ?_
      rintro (h | h)
      · exact hlt.ne' (Prod.mk.inj h).2.symm
      · obtain ⟨d, hd, heq⟩ := List.mem_map.1 h
        have htick : d.arrivalTick = arrivalTime := (Prod.mk.inj heq).2
        have hge : dj.arrivalTick ≤ d.arrivalTick := hle d hd
        omega
    · rw [ih hs]
      refine ⟨.inr, fun h => h.resolve_left fun heq => hdj ?_⟩
      obtain ⟨h1, h2⟩ := Prod.mk.inj heq
      exact ⟨h1.symm, h2.symm⟩

end

/-! ## The steps of a core -/

/-- The records of a core -/
def Core.records (K : Core n) : List DelegatedJob × List DelegatedJob :=
  (K.delegatedJobQueue, K.delegatedFreeList)

def Core.RecordsOk (K : Core n) : Prop := Records K.delegatedJobQueue K.delegatedFreeList

theorem Core.RecordsOk.congr (h : K.RecordsOk) (heq : K'.records = K.records) : K'.RecordsOk := by
  obtain ⟨hq, hf⟩ := Prod.mk.inj heq
  rw [RecordsOk, hq, hf]
  exact h

theorem Core.RecordsOk.scan (h : K.RecordsOk) (taskId systemTime : ℕ) :
    (K.scanned taskId systemTime).RecordsOk := Records.scan h taskId systemTime

theorem Core.records_setQueue (K : Core n) (b : Bool) (l : List (JobId n)) :
    (K.setQueue b l).records = K.records := by
  cases b <;> rfl

theorem Core.records_addByKind (K : Core n) (J : Jobs n) (j : JobId n) :
    (K.addByKind J j).records = K.records := K.records_setQueue _ _

theorem Core.records_preempt (K : Core n) (J : Jobs n) (j : JobId n) :
    (K.preempt J j).records = K.records := K.records_addByKind J j

theorem Core.records_addArrival (K : Core n) (J : Jobs n) (j : JobId n) :
    (K.addArrival J j).records = K.records := by
  unfold addArrival
  split_ifs
  · rfl
  · exact K.records_addByKind J j

theorem records_setDpmInterval (systemTime : ℕ) (K : Core n) (nextArrivalTime : ℕ) :
    (setDpmInterval systemTime K nextArrivalTime).records = K.records := by
  obtain ⟨low, s, e, he⟩ := setDpmInterval_eq systemTime K nextArrivalTime
  rw [he]
  rfl

theorem records_modeChangeSection (K : Core n) (J : Jobs n) :
    (modeChangeSection K J).1.records = K.records := by
  have hpre : (preemptRunning K J).1.records = K.records := by
    unfold preemptRunning
    cases K.runningJob with
    | none => rfl
    | some j => exact K.records_preempt J j
  exact hpre

/-- The local steps of a core scan the records, or leave them alone. -/
theorem LocalStep.records (hs : LocalStep X K J K' J') :
    K'.records = K.records ∨ ∃ taskId, K'.records = (K.scanned taskId X.systemTime).records := by
  cases hs with
  | cancel h =>
    cases h with
    | remove => exact .inl (K.records_setQueue _ _)
    | _ => exact .inl rfl
  | sync h =>
    cases h with
    | modeBody h => exact .inl (records_modeChangeSection K J)
    | _ => exact .inl rfl
  | run h => cases h <;> exact .inl rfl
  | arrival h =>
    cases h with
    | pendingIns h | allocIns h => exact .inl (K.records_addArrival J _)
    | @allocDelegated m ms task h hm hd => exact .inr ⟨task.id, rfl⟩
    | _ => exact .inl rfl
  | reclaim h =>
    cases h with
    | accommodate h => exact .inl (K.records_addByKind J _)
    | _ => exact .inl rfl
  | push h => cases h <;> exact .inl rfl
  | process h =>
    cases h with
    | insert h hc => exact .inl (K.records_addByKind _ _)
    | _ => exact .inl rfl
  | dispatch h =>
    cases h with
    | pop => exact .inl (K.records_setQueue _ _)
    | switch h hr => exact .inl (K.records_addByKind J _)
    | _ => exact .inl rfl
  | power h =>
    cases h with
    | procrastinate h hr ha ht hs =>
      simp only
      split_ifs
      · exact .inl ((records_setDpmInterval _ _ _).trans (K.records_preempt J _))
      · exact .inl (K.records_preempt J _)
    | dpm h =>
      split_ifs
      · exact .inl (records_setDpmInterval _ _ _)
      · exact .inl rfl
    | _ => exact .inl rfl

/-- What a step of core `c` does to the records, and to the releases of jobs. -/
structure RecordStep (c : Fin n) (S S' : Sys n) : Prop where
  ok : (S'.core c).RecordsOk
  fresh : ∀ j ms, (S'.core c).pc = .futureHand j ms →
    (S'.job j).release ∉ (S'.core c).delegatedJobQueue.map DelegatedJob.release
  others : ∀ d ≠ c, (S'.core d).records = (S.core d).records ∧ (S'.core d).pc = (S.core d).pc
  release : ∀ j ∉ S.free, (S'.job j).release = (S.job j).release

/-- **The records of all cores are consistent**, and a core that has a future
    job in its hands has no record of its release. -/
structure Sys.Delegations (S : Sys n) : Prop where
  ok : ∀ c, (S.core c).RecordsOk
  fresh : ∀ c j ms, (S.core c).pc = .futureHand j ms →
    (S.job j).release ∉ (S.core c).delegatedJobQueue.map DelegatedJob.release

theorem Jobs.set_release {r : JobRec} (h : r.release = (J j).release) (i : JobId n) :
    (J.set j r i).release = (J i).release := Jobs.set_field JobRec.release h i

namespace RecordStep

/-- The core ends up without a future job in its hands. -/
theorem of_core (hcore : S'.core = Function.update S.core c K') (hok : K'.RecordsOk)
    (hp : ∀ j ms, K'.pc ≠ .futureHand j ms) (hr : ∀ j ∉ S.free, (S'.job j).release = (S.job j).release) :
    RecordStep c S S' where
  ok := by
    rw [hcore, Function.update_self]
    exact hok
  fresh j ms h := by
    rw [hcore, Function.update_self] at h
    exact absurd h (hp j ms)
  others d hd := by
    rw [hcore, Function.update_of_ne hd]
    exact ⟨rfl, rfl⟩
  release := hr

/-- No job is taken from a pool. -/
theorem keep (hcore : S'.core = Function.update S.core c K') (hok : K'.RecordsOk)
    (hp : ∀ j ms, K'.pc ≠ .futureHand j ms) (hr : ∀ j, (S'.job j).release = (S.job j).release) :
    RecordStep c S S' := of_core hcore hok hp fun j _ => hr j

/-- A reference is dropped. -/
theorem put {me : Option (Fin n)} {T : Sys n} (hs : RecordStep c S T) (j : JobId n) :
    RecordStep c S (T.putJobRef me j) := by
  obtain ⟨f, g, he⟩ := T.putJobRef_eq me j
  have hcore : (T.putJobRef me j).core = T.core := by rw [he]
  have hrel : ∀ i, ((T.putJobRef me j).job i).release = (T.job i).release := by
    rw [he]
    exact Jobs.set_release rfl
  refine ⟨by rw [hcore]; exact hs.ok, fun i ms h => ?_, by rw [hcore]; exact hs.others, fun i hi => ?_⟩
  · rw [hcore] at h ⊢
    rw [hrel]
    exact hs.fresh i ms h
  · rw [hrel]
    exact hs.release i hi

end RecordStep

/-- A job is taken from a pool; the other jobs stay, and the cores. -/
theorem Sys.takeFree_frame (hj : S.takeFree c = some (j, S')) (r : JobRec) (K' : Core n) :
    ((S'.setJob j r).setCore c K').core = Function.update S.core c K' ∧
      ((S'.setJob j r).setCore c K').job j = r ∧
      ∀ i ∉ S.free, (((S'.setJob j r).setCore c K').job i).release = (S.job i).release := by
  obtain ⟨hfree, f, g, rfl⟩ := Sys.takeFree_eq_some hj
  refine ⟨rfl, Jobs.set_self .., fun i hi => ?_⟩
  have hij : i ≠ j := by
    rintro rfl
    exact hi (hfree ▸ Multiset.mem_cons_self i _)
  show (S.job.set j r i).release = _
  rw [Jobs.set_ne _ _ hij]

theorem PutStep.records (hs : PutStep K j K') :
    K'.records = K.records ∧ ∀ i ms, K'.pc ≠ .futureHand i ms := by
  cases hs <;> exact ⟨rfl, nofun⟩

theorem ArriveStep.records (hs : ArriveStep cfg c S S') (hok : (S.core c).RecordsOk) :
    RecordStep c S S' := by
  have hscan : ∀ taskId q, (((S.core c).scanned taskId S.systemTime).goto q).RecordsOk :=
    fun taskId _ => (hok.scan taskId S.systemTime).congr rfl
  cases hs with
  | modeStore h => exact .keep rfl (hok.congr rfl) nofun fun _ => rfl
  | complete h hr => exact .keep rfl (hok.congr rfl) nofun (Jobs.set_release rfl)
  | missFatal h => exact .keep rfl (hok.congr rfl) nofun fun _ => rfl
  | @put j K' h =>
    have hT : RecordStep c S (S.setCore c K') :=
      .keep rfl (hok.congr h.records.1) h.records.2 fun _ => rfl
    exact hT.put _
  | create h hm hd hj =>
    obtain ⟨hcore, -, hrel⟩ := Sys.takeFree_frame hj _ _
    exact .of_core hcore (hscan _ _) nofun hrel
  | exhausted h hm hd hj => exact .keep rfl (hscan _ _) nofun fun _ => rfl

theorem DiscardStep.records (hs : DiscardStep cfg c S S') (hok : (S.core c).RecordsOk) :
    RecordStep c S S' := by
  cases hs with
  | discard h hf hl => exact .keep rfl (hok.congr rfl) nofun (Jobs.set_release rfl)
  | accommodate h hj =>
    exact .keep rfl (hok.congr (Core.records_addByKind _ _ _)) nofun (Jobs.set_release rfl)
  | lock | keep => exact .keep rfl (hok.congr rfl) nofun fun _ => rfl
  | done h hj =>
    refine .keep rfl (hok.congr rfl) (fun _ _ => ?_) fun _ => rfl
    dsimp only [Core.goto]
    split <;> nofun
  | @ack a q h hq =>
    refine .keep rfl (Records.ack hok a) (fun _ _ heq => ?_) fun _ => rfl
    rw [h] at heq
    cases heq
  | acked h hq => exact .keep rfl (hok.congr rfl) nofun fun _ => rfl

theorem OfferStep.records (hs : OfferStep cfg c S S') (hok : (S.core c).RecordsOk)
    (hfresh : ∀ j ms, (S.core c).pc = .futureHand j ms →
      (S.job j).release ∉ (S.core c).delegatedJobQueue.map DelegatedJob.release) :
    RecordStep c S S' := by
  cases hs with
  | exchange | withdraw | getRef => exact .keep rfl (hok.congr rfl) nofun (Jobs.set_release rfl)
  | claim | publish | claimFuture | publishFuture => exact .keep rfl (hok.congr rfl) nofun fun _ => rfl
  | @createFuture m ms task j T acet h ho hj =>
    let r := futureJob c (futureArrival S.systemTime task) (S.core c).localCriticalityLevel m task acet
    obtain ⟨hcore, hself, hrel⟩ := Sys.takeFree_frame hj r ((T.core c).goto (.futureHand j ms))
    have hT : T.core = S.core := by
      obtain ⟨-, f, g, rfl⟩ := Sys.takeFree_eq_some hj
      rfl
    rw [hT] at hcore
    have hnew : r.release ∉ (S.core c).delegatedJobQueue.map DelegatedJob.release := by
      intro hmem
      have hhas := (hasDelegation_iff hok.sorted).2 hmem
      cases hhas.symm.trans ho.2.2.2.2
    have hc : ((T.setJob j r).goto c (.futureHand j ms)).core c = (S.core c).goto (.futureHand j ms) := by
      rw [← hT]
      exact Function.update_self ..
    refine ⟨?_, fun i ms' heq => ?_, fun d hd => ?_, hrel⟩
    · rw [hc]
      exact hok.congr rfl
    · rw [hc] at heq ⊢
      obtain ⟨rfl, -⟩ := Pc.futureHand.inj heq
      show JobRec.release (((T.setJob j r).goto c (.futureHand j ms)).job j) ∉ _
      rw [show ((T.setJob j r).goto c (.futureHand j ms)).job j = r from hself]
      exact hnew
    · have hd' : ((T.setJob j r).goto c (.futureHand j ms)).core d = S.core d := by
        rw [← hT]
        exact Function.update_of_ne hd ..
      rw [hd']
      exact ⟨rfl, rfl⟩
  | @sendFuture j ms dest dj rest h hd hr =>
    refine .keep rfl ?_ nofun fun _ => rfl
    have hrec : Records (S.core c).delegatedJobQueue (dj :: rest) := hr ▸ hok
    exact hrec.send rfl (hfresh j ms h)

theorem RequestStep.records (hs : RequestStep cfg c S S') (hok : (S.core c).RecordsOk) :
    RecordStep c S S' := by
  cases hs with
  | dequeue | done | ackClaim => exact .keep rfl (hok.congr rfl) nofun fun _ => rfl
  | reject | acceptFuture | ackPublish | clear =>
    exact .keep rfl (hok.congr rfl) nofun (Jobs.set_release rfl)
  | @accept r h hi hl =>
    have hself : ((S.listDel r.job).goto c (.procInsert r)).core c =
        ((S.core c).listDel r.job).goto (.procInsert r) := Function.update_self ..
    have hother : ∀ d ≠ c, ((S.listDel r.job).goto c (.procInsert r)).core d =
        (S.core d).listDel r.job := fun d hd => Function.update_of_ne hd ..
    refine ⟨?_, fun j ms heq => ?_, fun d hd => ?_, fun i _ => ?_⟩
    · rw [hself]
      exact hok.congr rfl
    · rw [hself] at heq
      cases heq
    · rw [hother d hd]
      exact ⟨rfl, rfl⟩
    · exact Jobs.set_release (J := S.job) (r := (S.job r.job).unlink) rfl i
  | putReject h =>
    have hT : RecordStep c S (S.goto c .process) := .keep rfl (hok.congr rfl) nofun fun _ => rfl
    exact hT.put _
  | @putAccept r h =>
    let T := S.setJob r.job
      { S.job r.job with nextMigrationEligibleTick := S.systemTime + jobMigrationCooldownTicks }
    have hT : RecordStep c S (T.goto c .process) :=
      .keep rfl (hok.congr rfl) nofun (Jobs.set_release rfl)
    exact hT.put _

theorem CoreStep.records (hs : CoreStep cfg c S S') (hi : Inv S) (hd : S.Delegations) :
    RecordStep c S S' := by
  have hok := hd.ok c
  cases hs with
  | @own K' J' hs he =>
    subst he
    have hspec := hs.spec (hi.ok c) (hi.core_nodup c)
    refine .keep rfl ?_ (fun j ms heq => ?_) fun j => ?_
    · rcases hs.records with heq | ⟨taskId, heq⟩
      · exact hok.congr heq
      · exact (hok.scan taskId _).congr heq
    · have htarget := hspec.own.target
      rw [heq] at htarget
      cases htarget
    · exact congrArg₂ (fun task tick => (Task.id task, tick)) (hspec.kept j).task (hspec.kept j).arrival
  | arrive hs => exact hs.records hok
  | discard hs => exact hs.records hok
  | offer hs => exact hs.records hok (hd.fresh c)
  | request hs => exact hs.records hok

namespace Sys.Delegations

theorem init : (Sys.init n).Delegations := ⟨fun _ => records_init, nofun⟩

theorem core_step (h : S.Delegations) (hi : Inv S) (hs : RecordStep c S S') : S'.Delegations := by
  constructor
  · intro d
    by_cases hd : d = c
    · exact hd ▸ hs.ok
    · exact (h.ok d).congr (hs.others d hd).1
  · intro d j ms hp
    by_cases hd : d = c
    · subst hd
      exact hs.fresh j ms hp
    · obtain ⟨hrec, hpc⟩ := hs.others d hd
      rw [hpc] at hp
      -- the job is in the hands of the other core, and so not in a pool
      have hheld : j ∈ (S.core d).held := Core.mem_held.2 (.inr (by rw [hp]; rfl))
      have hfree : j ∉ S.free := fun hf => (hi.of_free hf).1 (Sys.mem_held.2 (.inl ⟨d, hheld⟩))
      rw [hs.release j hfree, (Prod.mk.inj hrec).1]
      exact h.fresh d j ms hp

/-- A step that leaves the cores and the releases of jobs alone -/
theorem still (h : S.Delegations) (hcore : S'.core = S.core)
    (hr : ∀ j, (S'.job j).release = (S.job j).release) : S'.Delegations := by
  refine ⟨fun c => ?_, fun c j ms hp => ?_⟩
  · rw [hcore]
    exact h.ok c
  · rw [hcore] at hp ⊢
    rw [hr]
    exact h.fresh c j ms hp

theorem timer_step (h : S.Delegations) (hs : TimerStep cfg S S') : S'.Delegations := by
  cases hs with
  | sweep | keep => exact h.still rfl fun _ => rfl
  | expire hp hj ht => exact h.still rfl (Jobs.set_release rfl)
  | @put k j hp =>
    let T : Sys n := { S with timer := .sweep k }
    obtain ⟨f, g, he⟩ := T.putJobRef_eq none j
    rw [show Sys.putJobRef { S with timer := .sweep k } none j = T.putJobRef none j from rfl, he]
    exact h.still rfl (Jobs.set_release rfl)
  | advance hp hj hf hl => exact ⟨fun c => (h.ok c).congr rfl, nofun⟩

theorem step {a : Label n} (h : S.Delegations) (hi : Inv S) (hs : Step cfg S a S') :
    S'.Delegations := by
  cases hs with
  | core hl hs => exact h.core_step hi (hs.records hi h)
  | timer hs => exact h.timer_step hs

end Sys.Delegations

theorem Reachable.delegations (h : Reachable cfg S) : S.Delegations := by
  refine (@Lts.Reachable.invariant _ _ _ _ _ (fun T : Sys n => Inv T ∧ T.Delegations) h
    ⟨Inv.init, .init⟩ ?_).2
  rintro T a T' ⟨hi, hd⟩ hs
  exact ⟨hs.inv hi, hd.step hi hs⟩

/-! ## `update_delegations` -/

/-- The steps of core `c` in `update_delegations` -/
def UpdateStep (cfg : Config) (c : Fin n) (S : Sys n) (_ : Unit) (S' : Sys n) : Prop :=
  (S.core c).pc = .updateDelegations ∧ CoreStep cfg c S S'

/-- An accepting ack that matches a record -/
def DelegationAck.accepts (ack : DelegationAck) (dj : DelegatedJob) : Bool :=
  ack.accepted && decide (dj.taskId = ack.taskId ∧ dj.arrivalTick = ack.arrivalTick)

def DelegatedJob.acknowledge (acks : List DelegationAck) (dj : DelegatedJob) : DelegatedJob :=
  { dj with ownedByRemote := dj.ownedByRemote || acks.any (·.accepts dj) }

/-- What `update_delegations` of core `c` has to leave: the acks that can be
    taken are taken, and the records that match an accepting one are owned by
    the remote core. -/
def Sys.acknowledged (S : Sys n) (c : Fin n) : Sys n :=
  { S.setCore c
      { S.core c with
        delegatedJobQueue := (S.core c).delegatedJobQueue.map
          (DelegatedJob.acknowledge (S.delegationAckQueue c).published)
        pc := .push } with
    delegationAckQueue := Function.update S.delegationAckQueue c (S.delegationAckQueue c).drained }

section
variable {queue : List DelegatedJob} {dj : DelegatedJob} {a : DelegationAck} {acks : List DelegationAck}

theorem acknowledge_nil : DelegatedJob.acknowledge [] = id := by
  funext dj
  rw [DelegatedJob.acknowledge, List.any_nil, Bool.or_false]
  rfl

theorem acknowledge_cons (a : DelegationAck) (acks : List DelegationAck) :
    DelegatedJob.acknowledge acks ∘ DelegatedJob.acknowledge [a] =
      DelegatedJob.acknowledge (a :: acks) := by
  funext dj
  have hany : acks.any (·.accepts (dj.acknowledge [a])) = acks.any (·.accepts dj) := rfl
  show DelegatedJob.acknowledge acks (dj.acknowledge [a]) = _
  rw [DelegatedJob.acknowledge, hany, DelegatedJob.acknowledge, DelegatedJob.acknowledge,
    List.any_cons, List.any_cons, List.any_nil, Bool.or_false, Bool.or_assoc]

/-- The search stops at the first record of the release, which is the only one. -/
theorem updateDelegation_eq_map (a : DelegationAck) (h : (queue.map DelegatedJob.release).Nodup) :
    updateDelegation a queue = queue.map (DelegatedJob.acknowledge [a]) := by
  induction queue with
  | nil => rfl
  | cons dj queue ih =>
    obtain ⟨hnot, hnodup⟩ := List.nodup_cons.1 h
    have hack : ∀ d : DelegatedJob,
        d.acknowledge [a] = { d with ownedByRemote := d.ownedByRemote || a.accepts d } := by
      intro d
      rw [DelegatedJob.acknowledge, List.any_cons, List.any_nil, Bool.or_false]
    unfold updateDelegation
    rw [List.map_cons, hack]
    split_ifs with hdj
    · have haccepts : a.accepts dj = a.accepted := by
        rw [DelegationAck.accepts, decide_eq_true hdj, Bool.and_true]
      have hrest : queue.map (DelegatedJob.acknowledge [a]) = queue := by
        refine (List.map_congr_left fun d hd => ?_).trans (List.map_id queue)
        -- a later record is of another release
        have hne : ¬ (d.taskId = a.taskId ∧ d.arrivalTick = a.arrivalTick) := by
          rintro ⟨htask, htick⟩
          refine hnot (List.mem_map.2 ⟨d, hd, ?_⟩)
          rw [DelegatedJob.release, DelegatedJob.release, htask, htick, hdj.1, hdj.2]
        rw [hack, DelegationAck.accepts, decide_eq_false hne, Bool.and_false, Bool.or_false, id]
      rw [haccepts, hrest]
    · have haccepts : a.accepts dj = false := by
        rw [DelegationAck.accepts, decide_eq_false hdj, Bool.and_false]
      rw [haccepts, Bool.or_false, ih hnodup]

end

theorem LocalStep.pc_ne_updateDelegations (hs : LocalStep X K J K' J') : K.pc ≠ .updateDelegations := by
  intro hp
  cases hs with
  | cancel hs => cases hs <;> simp_all
  | sync hs => cases hs <;> simp_all
  | run hs => cases hs <;> simp_all
  | arrival hs => cases hs <;> simp_all
  | reclaim hs => cases hs <;> simp_all
  | push hs => cases hs <;> simp_all
  | process hs => cases hs <;> simp_all
  | dispatch hs => cases hs <;> simp_all
  | power hs => cases hs <;> simp_all

/-- There the core takes an ack, or goes on. -/
theorem CoreStep.of_updateDelegations (hs : CoreStep cfg c S S')
    (hp : (S.core c).pc = .updateDelegations) :
    (∃ a q, (S.delegationAckQueue c).tryDequeue = some (a, q) ∧
      S' = { S.setCore c
          { S.core c with delegatedJobQueue := updateDelegation a (S.core c).delegatedJobQueue } with
        delegationAckQueue := Function.update S.delegationAckQueue c q }) ∨
    (S.delegationAckQueue c).tryDequeue = none ∧ S' = S.goto c .push := by
  cases hs with
  | own hs he => exact absurd hp hs.pc_ne_updateDelegations
  | arrive hs =>
    cases hs with
    | put hs => cases hs <;> simp_all
    | _ => simp_all
  | discard hs =>
    cases hs with
    | ack h hq => exact .inl ⟨_, _, hq, rfl⟩
    | acked h hq => exact .inr ⟨hq, rfl⟩
    | _ => simp_all
  | offer hs => cases hs <;> simp_all
  | request hs => cases hs <;> simp_all

/-- Taking an ack does not change what is left in the end. -/
theorem Sys.acknowledged_ack {a : DelegationAck} {q : TicketQueue DelegationAck}
    (hr : ((S.core c).delegatedJobQueue.map DelegatedJob.release).Nodup)
    (hq : (S.delegationAckQueue c).tryDequeue = some (a, q)) :
    Sys.acknowledged { S.setCore c
        { S.core c with delegatedJobQueue := updateDelegation a (S.core c).delegatedJobQueue } with
      delegationAckQueue := Function.update S.delegationAckQueue c q } c = S.acknowledged c := by
  obtain ⟨hpublished, hdrained⟩ := TicketQueue.published_of_tryDequeue hq
  unfold acknowledged setCore
  simp only [Function.update_self, Function.update_idem]
  rw [updateDelegation_eq_map a hr, List.map_map, acknowledge_cons, hpublished, hdrained]

theorem Sys.acknowledged_acked (hq : (S.delegationAckQueue c).tryDequeue = none) :
    S.acknowledged c = S.goto c .push := by
  obtain ⟨hpublished, hdrained⟩ := TicketQueue.tryDequeue_eq_none hq
  unfold acknowledged
  rw [hpublished, hdrained, acknowledge_nil, List.map_id, Function.update_eq_self]
  rfl

/-- The core gets through all acks there are. -/
theorem Sys.reaches_acknowledged (cfg : Config) (hok : (S.core c).RecordsOk)
    (hp : (S.core c).pc = .updateDelegations) :
    Lts.Reachable (UpdateStep cfg c) S (S.acknowledged c) := by
  generalize hk : (S.delegationAckQueue c).published.length = k
  induction k generalizing S with
  | zero =>
    have hq : (S.delegationAckQueue c).tryDequeue = none := by
      cases hq : (S.delegationAckQueue c).tryDequeue with
      | none => rfl
      | some x =>
        rw [(TicketQueue.published_of_tryDequeue hq).1] at hk
        cases hk
    rw [acknowledged_acked hq]
    exact Lts.Reachable.refl.snoc (a := ()) ⟨hp, .discard (.acked hp hq)⟩
  | succ k ih =>
    cases hq : (S.delegationAckQueue c).tryDequeue with
    | none =>
      rw [(TicketQueue.tryDequeue_eq_none hq).1] at hk
      cases hk
    | some x =>
      obtain ⟨a, q⟩ := x
      let S₁ : Sys n := { S.setCore c
          { S.core c with delegatedJobQueue := updateDelegation a (S.core c).delegatedJobQueue } with
        delegationAckQueue := Function.update S.delegationAckQueue c q }
      have hcore : S₁.core c =
          { S.core c with delegatedJobQueue := updateDelegation a (S.core c).delegatedJobQueue } :=
        Function.update_self ..
      have hacks : S₁.delegationAckQueue c = q := Function.update_self ..
      obtain ⟨tr, hrun⟩ := @ih S₁ (by rw [hcore]; exact Records.ack hok a) (by rw [hcore]; exact hp) (by
        rw [(TicketQueue.published_of_tryDequeue hq).1, List.length_cons] at hk
        rw [hacks]
        exact Nat.succ.inj hk)
      rw [acknowledged_ack hok.releases hq] at hrun
      exact ⟨_, (Exec.nil.snoc ⟨hp, .discard (.ack hp hq)⟩ : Exec _ S [⟨S, (), S₁⟩] S₁).append hrun⟩

/-- **Whatever `update_delegations` does leads there**, in one step for each ack
    and one more. -/
theorem Sys.update_run {T : Sys n} {tr : List (Trans (Sys n) Unit)} (hok : (S.core c).RecordsOk)
    (hp : (S.core c).pc = .updateDelegations) (h : Exec (UpdateStep cfg c) S tr T) :
    ((T.core c).pc = .updateDelegations ∧ (T.core c).RecordsOk ∧ T.acknowledged c = S.acknowledged c ∧
        tr.length + (T.delegationAckQueue c).published.length =
          (S.delegationAckQueue c).published.length) ∨
      T = S.acknowledged c ∧ tr.length = (S.delegationAckQueue c).published.length + 1 := by
  induction h with
  | nil => exact .inl ⟨hp, hok, rfl, Nat.zero_add _⟩
  | @snoc tr T a U h hs ih =>
    obtain ⟨hpc, hstep⟩ := hs
    rcases ih with ⟨-, hokT, hack, hlen⟩ | ⟨rfl, -⟩
    · rcases hstep.of_updateDelegations hpc with ⟨a, q, hq, rfl⟩ | ⟨hq, rfl⟩
      · refine .inl ⟨?_, ?_, (acknowledged_ack hokT.releases hq).trans hack, ?_⟩
        · show (Function.update T.core c _ c).pc = _
          rw [Function.update_self]
          exact hpc
        · show (Function.update T.core c _ c).RecordsOk
          rw [Function.update_self]
          exact Records.ack hokT a
        · rw [(TicketQueue.published_of_tryDequeue hq).1, List.length_cons] at hlen
          show _ + (Function.update T.delegationAckQueue c q c).published.length = _
          rw [Function.update_self, List.length_append, List.length_singleton]
          omega
      · refine .inr ⟨(acknowledged_acked hq).symm.trans hack, ?_⟩
        rw [(TicketQueue.tryDequeue_eq_none hq).1, List.length_nil] at hlen
        rw [List.length_append, List.length_singleton]
        omega
    · -- it is over
      have hpush : ((S.acknowledged c).core c).pc = .push := by
        show (Function.update S.core c _ c).pc = _
        rw [Function.update_self]
      cases hpc.symm.trans hpush

/-- **The delegation records of every core are consistent in every reachable
    state, and `update_delegations` empties the queue of acks, whatever it holds,
    and otherwise only gives the records that match an accepting ack to the
    remote core.** -/
theorem delegations_consistent (h : Reachable cfg S) :
    (∀ c, (S.core c).RecordsOk) ∧
      ∀ c (acks : TicketQueue DelegationAck), (S.core c).pc = .updateDelegations →
        let T := { S with delegationAckQueue := Function.update S.delegationAckQueue c acks }
        Lts.Reachable (UpdateStep cfg c) T (T.acknowledged c) ∧
          (∀ tr T', Exec (UpdateStep cfg c) T tr T' →
            tr.length ≤ acks.published.length + 1 ∧
              ((T'.core c).pc ≠ .updateDelegations → T' = T.acknowledged c)) ∧
          ((T.acknowledged c).delegationAckQueue c).tryDequeue = none ∧
          ((∀ x ∈ acks.slots, x.2 = true) → ((T.acknowledged c).delegationAckQueue c).slots = []) := by
  have hok := h.delegations.ok
  refine ⟨hok, fun c acks hp => ?_⟩
  intro T
  have hokT : (T.core c).RecordsOk := hok c
  have hacks : T.delegationAckQueue c = acks := Function.update_self ..
  have hdrained : (T.acknowledged c).delegationAckQueue c = acks.drained := by
    show Function.update T.delegationAckQueue c (T.delegationAckQueue c).drained c = _
    rw [Function.update_self, hacks]
  refine ⟨T.reaches_acknowledged cfg hokT hp, fun tr T' hrun => ?_, ?_, fun hpub => ?_⟩
  · rw [← hacks]
    rcases Sys.update_run hokT hp hrun with ⟨hpc, -, -, hlen⟩ | ⟨hT, hlen⟩
    · exact ⟨by omega, fun hne => absurd hpc hne⟩
    · exact ⟨hlen.le, fun _ => hT⟩
  · rw [hdrained]
    exact acks.tryDequeue_drained
  · rw [hdrained]
    exact TicketQueue.drained_slots hpub

/-- Core 0 reads the ack of a job that it has sent: core 1 owns the release from then on. -/
theorem delegations_consistent_hand : ∃ (S : Sys 2) (dj : DelegatedJob), Reachable (handConfig 4 1) S ∧
    (S.core 0).pc = .updateDelegations ∧ (S.core 0).delegatedJobQueue = [dj] ∧ dj.release = (1, 4) ∧
    dj.ownedByRemote = false ∧ (S.delegationAckQueue 0).slots = [(⟨1, 4, true⟩, true)] ∧
    (S.core 0).RecordsOk ∧
    Lts.Reachable (UpdateStep (handConfig 4 1) 0) S (S.acknowledged 0) ∧
    ((S.acknowledged 0).core 0).delegatedJobQueue = [{ dj with ownedByRemote := true }] ∧
    ((S.acknowledged 0).delegationAckQueue 0).slots = [] := by
  obtain ⟨J, f, q, o, j₀, j₁, j₂, j₃, rest, dj, D, h, -⟩ :=
    HandRun.update3 .top (show 3 < 4 by decide) (by decide)
  obtain ⟨tr, hrun, -⟩ := h.run
  set a : Fin 2 → TicketQueue DelegationAck := Function.update (fun _ => .empty) 0 ⟨0, [(⟨1, 4, true⟩, true)]⟩
  set K := (sentCore j₂ (HandRun.sentRecord dj 4) D).goto .updateDelegations
  set S := pairSys 3 J f q a o 0 K ({ handCore [] j₀ with pendingJobsQueue := [j₁] }.goto .start) with hS
  have hcore : S.core 0 = K := pairSys_core
  have hack : S.delegationAckQueue 0 = ⟨0, [(⟨1, 4, true⟩, true)]⟩ := by
    show a 0 = _
    exact Function.update_self ..
  have hqueue : ((S.acknowledged 0).core 0).delegatedJobQueue =
      (S.core 0).delegatedJobQueue.map (DelegatedJob.acknowledge (S.delegationAckQueue 0).published) := by
    rw [Sys.acknowledged, Sys.setCore]
    dsimp only
    rw [Function.update_self]
  obtain ⟨hok, hupdate⟩ := delegations_consistent ⟨tr, hrun⟩
  obtain ⟨hreach, -, -, hslots⟩ := hupdate 0 (S.delegationAckQueue 0) (congrArg Core.pc hcore)
  rw [Function.update_eq_self] at hreach hslots
  refine ⟨S, HandRun.sentRecord dj 4, ⟨tr, hrun⟩, congrArg Core.pc hcore, congrArg Core.delegatedJobQueue hcore, rfl, rfl,
    congrArg TicketQueue.slots hack, hok 0, hreach, ?_, hslots ?_⟩
  · rw [hqueue, hcore, hack]
    rfl
  · rw [hack]
    intro x hx
    rw [List.mem_singleton.1 hx]

end EeftSched

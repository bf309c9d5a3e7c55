/-
  How a future job gets from its donor to another core: request, decision and
  ack (`attempt_future_load_shedding`, `process_migration_requests` and
  `update_delegations` in `sched_migration.c`).

  * `Sys.Requested`: a request for a future job that is not decided yet;
  * `HandoverStep`: what a step of a core does to the requests, the pending jobs
    and the acks; `CoreStep.handover`: every step of a core is one;
  * `Sys.Pools`: the free lists of a core have jobs of its own pool.
-/
import EeftSched.Sleep

namespace EeftSched

open Lts SortedQueue

variable {n : ℕ} {cfg : Config} {S S' : Sys n} {K K' : Core n} {J J' : Jobs n} {j : JobId n}
  {c d o : Fin n} {X : Ctx n} {r : JobRec}

/-! ## Requests for future jobs -/

/-- Core `o` has a request for future job `j` that is not decided yet. -/
def Sys.Requested (S : Sys n) (j : JobId n) (o : Fin n) : Prop :=
  S.Token j o true ∧ (S.job j).state = .idle

/-- The core has read its acks, and may still make requests for future jobs. -/
def Pc.sends : Pc n → Bool
  | .push | .pushCheck | .future _ | .futureHand .. | .futureClaim .. | .futurePublish .. => true
  | _ => false

theorem Inv.notMem_held (hi : Inv S) (h : S.Requested j o) : j ∉ S.held := by
  rcases (hi.token j o true h.1).offer rfl with ⟨-, hx⟩ | hx
  · exact absurd h.2 hx
  · exact hx.2.2

theorem Sys.mem_held_of_pending (h : j ∈ (S.core c).pendingJobsQueue) : j ∈ (S.core c).held :=
  Core.mem_held_of_placed (Core.mem_placed.2 (.inr (.inr (.inr (.inl h)))))

theorem Jobs.set_idle (h : r.state = .idle → (J j).state = .idle) {i : JobId n}
    (hi : (J.set j r i).state = .idle) : (J i).state = .idle := by
  by_cases hij : i = j
  · rw [hij, Jobs.set_self] at hi
    rw [hij]
    exact h hi
  · rwa [Jobs.set_ne _ _ hij] at hi

theorem Sys.Requested.mono (h : S'.Requested j o) (hi : Inv S)
    (htok : S'.Token j o true → S.Token j o true)
    (hidle : ∀ i ∉ S.free, (S'.job i).state = .idle → (S.job i).state = .idle) : S.Requested j o :=
  ⟨htok h.1, hidle j (fun hf => (hi.of_free hf).2 (htok h.1).mem_reqs) h.2⟩

theorem Sys.Token.congr {e : Bool} (hcore : S'.core = S.core)
    (hq : S'.migrationRequestQueue = S.migrationRequestQueue) (h : S'.Token j o e) :
    S.Token j o e := by
  cases h with
  | @core d _ _ h =>
    rw [hcore] at h ⊢
    exact .core h
  | @queued d r h =>
    rw [hq] at h
    exact .queued h

/-- No core has a request in its hands, so it is in a queue. -/
theorem Sys.Token.of_idle {e : Bool} (hc : ∀ d, (S'.core d).pc.token d = none)
    (hq : S'.migrationRequestQueue = S.migrationRequestQueue) (h : S'.Token j o e) :
    S.Token j o true := by
  cases h with
  | @core d _ _ h =>
    rw [hc d] at h
    cases h
  | @queued d r h =>
    rw [hq] at h
    exact .queued h

/-- The core has no early request after the step, so each one is from before. -/
theorem Sys.Token.of_late (hcore : ∀ d ≠ c, (S'.core d).pc = (S.core d).pc)
    (hq : ∀ d, ∀ r ∈ (S'.migrationRequestQueue d).values, r ∈ (S.migrationRequestQueue d).values)
    (hc : (S'.core c).pc.isEarly = false) (h : S'.Token j o true) : S.Token j o true := by
  rcases h.cases_core hcore hq with ⟨-, he⟩ | h
  · rw [hc] at he
    cases he
  · exact h.token

/-! ## What a step does -/

/-- What a step of core `c` does to the acks, and which points it goes through. -/
inductive AckMove (c : Fin n) (S S' : Sys n) : Prop
  | none (hq : S'.delegationAckQueue = S.delegationAckQueue) (h : (S.core c).pc.acks = Option.none)
      (h' : (S'.core c).pc.acks = Option.none)
      (hs : (S'.core c).pc.sends = true → (S.core c).pc.sends = true)
  | accept {r : MigrationRequest n} (hq : S'.delegationAckQueue = S.delegationAckQueue)
      (h : (S.core c).pc = .procDecide r) (h' : (S'.core c).pc = .procAckClaim r)
      (hr : S.Requested r.job r.fromCore) (ht : S.systemTime < (S.job r.job).arrivalTime)
      (hp : r.job ∈ (S'.core c).pendingJobsQueue)
  | claim {r : MigrationRequest n} {a : DelegationAck}
      (hq : S'.delegationAckQueue = Function.update S.delegationAckQueue r.fromCore
        ((S.delegationAckQueue r.fromCore).claim a))
      (h : (S.core c).pc = .procAckClaim r)
      (h' : (S'.core c).pc = .procAckPublish r (S.delegationAckQueue r.fromCore).tail)
  | publish {r : MigrationRequest n} {t : ℕ}
      (hq : S'.delegationAckQueue = Function.update S.delegationAckQueue r.fromCore
        ((S.delegationAckQueue r.fromCore).publish t))
      (h : (S.core c).pc = .procAckPublish r t) (h' : (S'.core c).pc = .process)
  | read {a : DelegationAck} {q : TicketQueue DelegationAck}
      (hq : S'.delegationAckQueue = Function.update S.delegationAckQueue c q)
      (hd : (S.delegationAckQueue c).tryDequeue = some (a, q))
      (h : (S.core c).pc = .updateDelegations) (h' : (S'.core c).pc = .updateDelegations)
  | done (hq : S'.delegationAckQueue = S.delegationAckQueue)
      (hd : (S.delegationAckQueue c).tryDequeue = Option.none)
      (h : (S.core c).pc = .updateDelegations) (h' : (S'.core c).pc = .push)

/-- **What a step of core `c` does** to the requests, the pending jobs and the
    acks. -/
structure HandoverStep (c : Fin n) (S S' : Sys n) : Prop where
  requested : ∀ j o, S'.Requested j o →
    S.Requested j o ∨ o = c ∧ ∃ ms, (S.core c).pc = .futureHand j ms
  hand : ∀ j ms, (S'.core c).pc = .futureHand j ms → j.1 = c
  pending : ∀ j ∈ (S.core c).pendingJobsQueue, S.systemTime < (S.job j).arrivalTime →
    j ∈ (S'.core c).pendingJobsQueue
  acks : AckMove c S S'

/-- A move that is none of an ack, to a point without an early request -/
structure Pc.Aside (q q' : Pc n) : Prop where
  acks : q.acks = none
  acks' : q'.acks = none
  sends : q'.sends = true → q.sends = true
  late : q'.isEarly = false

theorem Pc.Aside.of {p q q' : Pc n} (h : q = p) (hp : p.acks = none)
    (hq : (q'.acks, !q'.sends || p.sends, q'.isEarly) = (none, true, false)) : Pc.Aside q q' := by
  subst h
  simp only [Prod.mk.injEq] at hq
  obtain ⟨ha, hs, he⟩ := hq
  refine ⟨hp, ha, fun hq' => ?_, he⟩
  rwa [hq', Bool.not_true, Bool.false_or] at hs

namespace HandoverStep

/-- The core has no early request after the step. -/
theorem of_late (hi : Inv S) (hpc : ∀ d ≠ c, (S'.core d).pc = (S.core d).pc)
    (hself : S'.core c = K')
    (hq : ∀ d, ∀ r ∈ (S'.migrationRequestQueue d).values, r ∈ (S.migrationRequestQueue d).values)
    (hidle : ∀ i ∉ S.free, (S'.job i).state = .idle → (S.job i).state = .idle)
    (hl : K'.pc.isEarly = false) (hh : ∀ j ms, K'.pc = .futureHand j ms → j.1 = c)
    (hp : (S.core c).pendingJobsQueue ⊆ K'.pendingJobsQueue)
    (ha : AckMove c S S') : HandoverStep c S S' := by
  refine ⟨fun j o h => .inl (h.mono hi ?_ hidle), ?_, ?_, ha⟩
  · refine Sys.Token.of_late hpc hq ?_
    rw [hself]
    exact hl
  · rw [hself]
    exact hh
  · rw [hself]
    exact fun j hj _ => hp hj

/-- The step has nothing to do with requests and acks. -/
theorem aside (hi : Inv S) (hcore : S'.core = Function.update S.core c K')
    (hq : ∀ d, ∀ r ∈ (S'.migrationRequestQueue d).values, r ∈ (S.migrationRequestQueue d).values)
    (hidle : ∀ i ∉ S.free, (S'.job i).state = .idle → (S.job i).state = .idle)
    (hm : Pc.Aside (S.core c).pc K'.pc) (hh : ∀ j ms, K'.pc = .futureHand j ms → j.1 = c)
    (hp : (S.core c).pendingJobsQueue ⊆ K'.pendingJobsQueue)
    (ha : S'.delegationAckQueue = S.delegationAckQueue) : HandoverStep c S S' := by
  have hself : S'.core c = K' := by rw [hcore, Function.update_self]
  refine of_late hi (fun d hd => by rw [Sys.core_of_ne hd hcore]) hself hq hidle hm.late hh hp
    (.none ha hm.acks ?_ ?_)
  · rw [hself]
    exact hm.acks'
  · rw [hself]
    exact hm.sends

/-- What the step depends on stays as it is. -/
theorem congr {T : Sys n} (hs : HandoverStep c S T) (hcore : S'.core = T.core)
    (hq : S'.migrationRequestQueue = T.migrationRequestQueue)
    (ha : S'.delegationAckQueue = T.delegationAckQueue)
    (hj : ∀ i, (S'.job i).state = (T.job i).state) : HandoverStep c S S' := by
  refine ⟨fun j o h => hs.requested j o ⟨h.1.congr hcore hq, (hj j).symm.trans h.2⟩, ?_, ?_, ?_⟩
  · rw [hcore]
    exact hs.hand
  · rw [hcore]
    exact hs.pending
  · have hc : S'.core c = T.core c := by rw [hcore]
    cases hs.acks with
    | none hk h h' hs => exact .none (ha.trans hk) h (hc ▸ h') (hc ▸ hs)
    | accept hk h h' hr ht hp => exact .accept (ha.trans hk) h (hc ▸ h') hr ht (hc ▸ hp)
    | claim hk h h' => exact .claim (ha.trans hk) h (hc ▸ h')
    | publish hk h h' => exact .publish (ha.trans hk) h (hc ▸ h')
    | read hk hd h h' => exact .read (ha.trans hk) hd h (hc ▸ h')
    | done hk hd h h' => exact .done (ha.trans hk) hd h (hc ▸ h')

/-- A reference is dropped. -/
theorem put {me : Option (Fin n)} {T : Sys n} (hs : HandoverStep c S T) (j : JobId n) :
    HandoverStep c S (T.putJobRef me j) := by
  obtain ⟨f, g, he⟩ := T.putJobRef_eq me j
  rw [he]
  exact hs.congr rfl rfl rfl (Jobs.set_field (·.state) rfl)

end HandoverStep

/-! ## The steps -/

/-- A step of the core alone is about no ack, and is no start of sending. -/
theorem LocalStep.aside (hs : LocalStep X K J K' J') :
    (K.pc.acks, !K'.pc.sends || K.pc.sends) = (none, true) := by
  cases hs with
  | sync hs =>
    cases hs with
    | start hp | modeBody hp =>
      rw [hp, Core.goto_pc]
      split_ifs <;> rfl
    | _ => rw [‹K.pc = _›]; rfl
  | process hs =>
    cases hs with
    | lock1 hp =>
      rw [hp, Core.goto_pc]
      split_ifs <;> rfl
    | _ => rw [‹K.pc = _›]; rfl
  | power hs =>
    cases hs with
    | begin hp =>
      rw [hp, Core.goto_pc]
      split_ifs <;> rfl
    | _ => rw [‹K.pc = _›]; rfl
  | cancel hs | run hs | arrival hs | reclaim hs | push hs | dispatch hs =>
    cases hs <;> (rw [‹K.pc = _›]; rfl)

theorem LocalStep.handover (hs : LocalStep (S.ctx cfg c) (S.core c) S.job K' J') (hi : Inv S)
    (hcore : S'.core = Function.update S.core c K') (hjob : S'.job = J')
    (hq : S'.migrationRequestQueue = S.migrationRequestQueue)
    (ha : S'.delegationAckQueue = S.delegationAckQueue) : HandoverStep c S S' := by
  have hspec : LocalSpec c (S.core c) S.job K' J' := hs.spec (hi.ok c) (hi.core_nodup c)
  have hmove := hs.aside
  simp only [Prod.mk.injEq] at hmove
  have hself : S'.core c = K' := by rw [hcore, Function.update_self]
  refine ⟨fun j o h => .inl (h.mono hi (fun ht => ?_) fun i _ => ?_), ?_, ?_, ?_⟩
  · rcases ht.cases_core (S := S) (c := c) (fun d hd => by rw [Sys.core_of_ne hd hcore])
      (fun d r hr => by rwa [hq] at hr) with ⟨hc, he⟩ | hr
    · rw [hself, hspec.own.token] at hc
      rw [hself, hspec.own.early] at he
      rw [he]
      exact .core hc
    · exact hr.token
  · rw [hjob]
    exact (hspec.kept i).idle
  · intro j ms hp
    have htarget := hspec.own.target
    rw [← hself, hp] at htarget
    cases htarget
  · intro j hj ht
    rw [hself]
    exact hs.mem_pending hj ht
  · refine .none ha hmove.1 ?_ ?_
    · rw [hself]
      exact hspec.own.acks
    · rw [hself]
      intro hsend
      rw [hsend, Bool.not_true, Bool.false_or] at hmove
      exact hmove.2

theorem ArriveStep.handover (hs : ArriveStep cfg c S S') (hi : Inv S) : HandoverStep c S S' := by
  cases hs with
  | modeStore hp =>
    exact .aside hi rfl (fun _ _ => id) (fun _ _ => id) (.of hp rfl rfl) nofun (List.Subset.refl _) rfl
  | complete hp hr =>
    exact .aside hi rfl (fun _ _ => id) (fun _ _ => Jobs.set_idle (by nofun)) (.of hp rfl rfl) nofun
      (List.Subset.refl _) rfl
  | missFatal hp =>
    exact .aside hi rfl (fun _ _ => id) (fun _ _ => id) (.of hp rfl rfl) nofun (List.Subset.refl _) rfl
  | @put j K' hp =>
    have hT : HandoverStep c S (S.setCore c K') := by
      refine .aside hi rfl (fun _ _ => id) (fun _ _ => id) ?_
        (fun i ms he => absurd he (hp.records.2 i ms)) ?_ rfl
      · cases hp <;> exact .of ‹_› rfl rfl
      · rw [hp.late.2.2]
        exact List.Subset.refl _
    exact hT.put j
  | @create m ms task j T acet hp hm hd hj =>
    obtain ⟨hfree, f, g, rfl⟩ := Sys.takeFree_eq_some hj
    refine .aside hi rfl (fun _ _ => id) (fun _ _ => Jobs.set_idle (by nofun)) (.of hp rfl rfl) nofun
      (List.Subset.refl _) rfl
  | exhausted hp hm hd hj =>
    exact .aside hi rfl (fun _ _ => id) (fun _ _ => id) (.of hp rfl rfl) nofun (List.Subset.refl _) rfl

theorem DiscardStep.handover (hs : DiscardStep cfg c S S') (hi : Inv S) : HandoverStep c S S' := by
  cases hs with
  | discard hp hf hl =>
    exact .aside hi rfl (fun _ _ => id) (fun _ _ => Jobs.set_idle (by exact id)) (.of hp rfl rfl) nofun
      (List.Subset.refl _) rfl
  | lock hp _ | keep hp _ =>
    exact .aside hi rfl (fun _ _ => id) (fun _ _ => id) (.of hp rfl rfl) nofun (List.Subset.refl _) rfl
  | accommodate hp hj =>
    refine .aside hi rfl (fun _ _ => id) (fun _ _ => Jobs.set_idle (by exact id)) (.of hp rfl rfl) nofun ?_ rfl
    exact ((S.core c).addByKind_pendingJobsQueue S.job _).symm ▸ List.Subset.refl _
  | done hp hj =>
    refine .aside hi rfl (fun _ _ => id) (fun _ _ => id) ?_ ?_ (List.Subset.refl _) rfl
    · refine .of hp rfl ?_
      rw [Core.goto_pc]
      split_ifs <;> rfl
    · intro j ms
      rw [Core.goto_pc]
      split_ifs <;> nofun
  | @ack a q hp hq =>
    have hself := Function.update_self (f := S.core) c
      { S.core c with delegatedJobQueue := updateDelegation a (S.core c).delegatedJobQueue }
    refine .of_late hi (fun d hd => by rw [Sys.core_of_ne hd rfl]) hself (fun _ _ => id)
      (fun _ _ => id) ?_ ?_ (List.Subset.refl _) (.read rfl hq hp ((congrArg Core.pc hself).trans hp))
    · rw [hp]
      rfl
    · rw [hp]
      nofun
  | acked hp hq =>
    have hself := Function.update_self (f := S.core) c ((S.core c).goto .push)
    exact .of_late hi (fun d hd => by rw [Sys.core_of_ne hd rfl]) hself (fun _ _ => id)
      (fun _ _ => id) rfl nofun (List.Subset.refl _) (.done rfl hq hp (congrArg Core.pc hself))

/-- The queue gets the request that the core had in its hands. -/
theorem HandoverStep.enqueue {dest : Fin n} (hi : Inv S)
    (hcore : S'.core = Function.update S.core c K') (hjob : S'.job = S.job)
    (ht : (S.core c).pc.token c = some (j, c)) (he : (S.core c).pc.isEarly = true)
    (hq : S'.migrationRequestQueue = Function.update S.migrationRequestQueue dest
      ((S.migrationRequestQueue dest).claim ⟨j, c⟩))
    (hm : Pc.Aside (S.core c).pc K'.pc) (hh : ∀ j ms, K'.pc = .futureHand j ms → j.1 = c)
    (hp : K'.pendingJobsQueue = (S.core c).pendingJobsQueue)
    (ha : S'.delegationAckQueue = S.delegationAckQueue) : HandoverStep c S S' := by
  have hself : S'.core c = K' := by rw [hcore, Function.update_self]
  have hold : S.Token j c true := he ▸ .core ht
  have htok : ∀ i o e, S'.Token i o e → e = true → S.Token i o true := by
    intro i o e h hb
    cases h with
    | @core d _ _ h =>
      by_cases hd : d = c
      · subst hd
        rw [hself, hm.late] at hb
        cases hb
      · rw [Sys.core_of_ne hd hcore] at h hb
        exact hb ▸ .core h
    | @queued d r h =>
      rw [hq] at h
      by_cases hd : d = dest
      · subst hd
        rw [Function.update_self, TicketQueue.values_claim] at h
        rcases List.mem_append.1 h with h | h
        · exact .queued h
        · rw [List.mem_singleton.1 h]
          exact hold
      · rw [Function.update_of_ne hd] at h
        exact .queued h
  refine ⟨fun i o h => .inl (h.mono hi (fun ht => htok i o _ ht rfl) ?_), ?_, ?_, .none ha hm.acks ?_ ?_⟩
  · rw [hjob]
    exact fun _ _ => id
  · rw [hself]
    exact hh
  · rw [hself, hp]
    exact fun _ hj _ => hj
  · rw [hself]
    exact hm.acks'
  · rw [hself]
    exact hm.sends

/-- The core gets a request in its hands. -/
theorem HandoverStep.hold (hcore : S'.core = Function.update S.core c K')
    (hq : ∀ d, ∀ r ∈ (S'.migrationRequestQueue d).values, r ∈ (S.migrationRequestQueue d).values)
    (hidle : ∀ i, (S'.job i).state = .idle → (S.job i).state = .idle)
    (ht : K'.pc.token c = some (j, o))
    (hr : S'.Requested j o → S.Requested j o ∨ o = c ∧ ∃ ms, (S.core c).pc = .futureHand j ms)
    (hold : (S.core c).pc.acks = none) (hnew : K'.pc.acks = none)
    (hs : K'.pc.sends = true → (S.core c).pc.sends = true)
    (hh : ∀ j ms, K'.pc = .futureHand j ms → j.1 = c)
    (hp : K'.pendingJobsQueue = (S.core c).pendingJobsQueue)
    (ha : S'.delegationAckQueue = S.delegationAckQueue) : HandoverStep c S S' := by
  have hself : S'.core c = K' := by rw [hcore, Function.update_self]
  refine ⟨fun i p h => ?_, ?_, ?_, .none ha hold ?_ ?_⟩
  · rcases h.1.cases_core (S := S) (c := c) (fun d hd => by rw [Sys.core_of_ne hd hcore]) hq with
      ⟨hc, -⟩ | hc
    · rw [hself, ht] at hc
      obtain ⟨rfl, rfl⟩ := Prod.mk.inj (Option.some.inj hc)
      exact hr h
    · exact .inl ⟨hc.token, hidle i h.2⟩
  · rw [hself]
    exact hh
  · rw [hself, hp]
    exact fun _ hj _ => hj
  · rw [hself]
    exact hnew
  · rw [hself]
    exact hs

/-! ## The pools -/

/-- Each core's list has jobs of its own pool. -/
def OwnJobs (f : Fin n → List (JobId n)) : Prop := ∀ c, ∀ j ∈ f c, j.1 = c

theorem OwnJobs.update {f : Fin n → List (JobId n)} {l : List (JobId n)} (h : OwnJobs f)
    (hl : ∀ j ∈ l, j.1 = c) : OwnJobs (Function.update f c l) := by
  intro d j hj
  by_cases hd : d = c
  · subst hd
    rw [Function.update_self] at hj
    exact hl j hj
  · rw [Function.update_of_ne hd] at hj
    exact h d j hj

theorem OwnJobs.cons {f : Fin n → List (JobId n)} (h : OwnJobs f) (j : JobId n) :
    OwnJobs (Function.update f j.1 (j :: f j.1)) := by
  refine h.update fun k hk => ?_
  rcases List.mem_cons.1 hk with rfl | hk
  · rfl
  · exact h _ k hk

structure Sys.Pools (S : Sys n) : Prop where
  free : OwnJobs S.freeList
  remote : OwnJobs S.remoteFreeList

namespace Sys.Pools

theorem init : (Sys.init n).Pools := by
  refine ⟨fun c j hj => ?_, fun _ _ hj => absurd hj (List.not_mem_nil)⟩
  obtain ⟨k, -, rfl⟩ := List.mem_map.1 hj
  rfl

theorem refill (h : S.Pools) (c : Fin n) : (S.refill c).Pools := by
  unfold Sys.refill
  split_ifs with hc
  · exact ⟨h.free.update (h.remote c), h.remote.update nofun⟩
  · exact h

theorem takeFree (h : S.Pools) (hj : S.takeFree c = some (j, S')) : j.1 = c ∧ S'.Pools := by
  have hr := h.refill c
  unfold Sys.takeFree at hj
  split at hj
  · cases hj
  · rename_i i rest hc
    obtain ⟨rfl, rfl⟩ := Prod.mk.inj (Option.some.inj hj)
    have hmem : ∀ k ∈ i :: rest, k.1 = c := fun k hk => hr.free c k (hc ▸ hk)
    exact ⟨hmem i List.mem_cons_self,
      ⟨hr.free.update fun k hk => hmem k (List.mem_cons_of_mem _ hk), hr.remote⟩⟩

theorem put (h : S.Pools) (me : Option (Fin n)) (j : JobId n) : (S.putJobRef me j).Pools := by
  unfold Sys.putJobRef Sys.releaseJobToPool
  dsimp only
  split_ifs
  · exact ⟨h.free.cons j, h.remote⟩
  · exact ⟨h.free, h.remote.cons j⟩
  · exact ⟨h.free, h.remote⟩

theorem core_step (h : S.Pools) (hs : CoreStep cfg c S S') : S'.Pools := by
  cases hs with
  | own hs he =>
    rw [he]
    exact ⟨h.free, h.remote⟩
  | arrive hs =>
    cases hs with
    | @put j K' hp =>
      have hT : (S.setCore c K').Pools := ⟨h.free, h.remote⟩
      exact hT.put _ _
    | create hp hm hd hj =>
      obtain ⟨-, hT⟩ := h.takeFree hj
      exact ⟨hT.free, hT.remote⟩
    | _ => exact ⟨h.free, h.remote⟩
  | discard hs => cases hs <;> exact ⟨h.free, h.remote⟩
  | offer hs =>
    cases hs with
    | createFuture hp ho hj =>
      obtain ⟨-, hT⟩ := h.takeFree hj
      exact ⟨hT.free, hT.remote⟩
    | _ => exact ⟨h.free, h.remote⟩
  | request hs =>
    cases hs with
    | @putReject r hp =>
      have hT : (S.goto c .process).Pools := ⟨h.free, h.remote⟩
      exact hT.put _ _
    | @putAccept r hp =>
      have hT : ((S.setJob r.job { S.job r.job with
          nextMigrationEligibleTick := S.systemTime + jobMigrationCooldownTicks }).goto c
            .process).Pools := ⟨h.free, h.remote⟩
      exact hT.put _ _
    | _ => exact ⟨h.free, h.remote⟩

theorem timer_step (h : S.Pools) (hs : TimerStep cfg S S') : S'.Pools := by
  cases hs with
  | @put k j hp =>
    have hT : Sys.Pools { S with timer := .sweep k } := ⟨h.free, h.remote⟩
    exact hT.put _ _
  | _ => exact ⟨h.free, h.remote⟩

theorem step {a : Label n} (h : S.Pools) (hs : Step cfg S a S') : S'.Pools := by
  cases hs with
  | core _ hs => exact h.core_step hs
  | timer hs => exact h.timer_step hs

end Sys.Pools

/-! ## Offers and requests -/

theorem OfferStep.handover (hs : OfferStep cfg c S S') (hi : Inv S) (hpool : S.Pools) :
    HandoverStep c S S' := by
  cases hs with
  | exchange hp hj hpr hf =>
    exact .aside hi rfl (fun _ _ => id) (fun _ _ => Jobs.set_idle (by exact id)) (.of hp rfl rfl) nofun
      (List.Subset.refl _) rfl
  | withdraw hp =>
    exact .aside hi rfl (fun _ _ => id) (fun _ _ => Jobs.set_idle (by exact id)) (.of hp rfl rfl) nofun
      (List.Subset.refl _) rfl
  | @getRef j dest b k hp hd =>
    refine .hold rfl (fun _ _ => id) (fun _ => Jobs.set_idle (by exact id)) rfl (fun h => ?_)
      (by rw [hp]; rfl) rfl nofun nofun rfl rfl
    -- a job of a queue is no future job
    have hidle : (S.job j).state = .idle := Jobs.set_idle (by exact id) h.2
    have hready := ((hi.ok c).queues.queued b j (hi.offer c j b k hp).1).state
    rw [hready] at hidle
    cases hidle
  | claim hp =>
    exact .enqueue hi rfl rfl (by rw [hp]; rfl) (by rw [hp]; rfl) rfl (.of hp rfl rfl) nofun rfl rfl
  | @publish dest t b k hp hf =>
    refine .aside hi rfl (fun d r hr => ?_) (fun _ _ => id) (.of hp rfl rfl) nofun
      (List.Subset.refl _) rfl
    exact TicketQueue.values_update_publish _ dest t d ▸ hr
  | @createFuture m ms task j T acet hp ho hj =>
    have hown := (hpool.takeFree hj).1
    obtain ⟨hfree, f, g, rfl⟩ := Sys.takeFree_eq_some hj
    have hmem : j ∈ S.free := hfree ▸ Multiset.mem_cons_self j _
    refine .aside hi rfl (fun _ _ => id) (fun i hi' h => ?_) (.of hp rfl rfl) ?_ (List.Subset.refl _) rfl
    · have hij : i ≠ j := by
        rintro rfl
        exact hi' hmem
      exact Jobs.set_ne S.job _ hij ▸ h
    · rintro _ _ ⟨⟩
      exact hown
  | @sendFuture j ms dest dj rest hp hd hr =>
    exact .hold rfl (fun _ _ => id) (fun _ => id) rfl (fun _ => .inr ⟨rfl, ms, hp⟩) (by rw [hp]; rfl)
      rfl (by rw [hp]; exact fun _ => rfl) nofun rfl rfl
  | claimFuture hp =>
    exact .enqueue hi rfl rfl (by rw [hp]; rfl) (by rw [hp]; rfl) rfl (.of hp rfl rfl) nofun rfl rfl
  | @publishFuture dest t ms hp hf =>
    refine .aside hi rfl (fun d r hr => ?_) (fun _ _ => id) (.of hp rfl rfl) nofun
      (List.Subset.refl _) rfl
    exact TicketQueue.values_update_publish _ dest t d ▸ hr

theorem RequestStep.handover (hs : RequestStep cfg c S S') (hi : Inv S) : HandoverStep c S S' := by
  have hother := fun d (hd : d ≠ c) => (hs.elsewhere hi hd).pc
  cases hs with
  | @dequeue r q hp hq =>
    have hvalues := (TicketQueue.tryDequeue_eq_some hq).1
    refine .hold rfl (fun d i hr => ?_) (fun _ => id) rfl (fun h => .inl ⟨?_, h.2⟩) (by rw [hp]; rfl)
      rfl nofun nofun rfl rfl
    · by_cases hd : d = c
      · subst hd
        rw [hvalues]
        exact List.mem_cons_of_mem _ (Function.update_self (f := S.migrationRequestQueue) d q ▸ hr)
      · exact Function.update_of_ne hd q S.migrationRequestQueue ▸ hr
    · exact .queued (c := c) (by rw [hvalues]; exact List.mem_cons_self)
  | done hp hq =>
    exact .aside hi rfl (fun _ _ => id) (fun _ _ => id) (.of hp rfl rfl) nofun (List.Subset.refl _) rfl
  | reject hp =>
    exact .aside hi rfl (fun _ _ => id) (fun _ _ => Jobs.set_idle (by exact id)) (.of hp rfl rfl) nofun
      (List.Subset.refl _) rfl
  | @acceptFuture r hp hidle =>
    have hself := Function.update_self (f := S.core) c
      { S.core c with
        pendingJobsQueue := insertBy (arrivalOf S.job) r.job (S.core c).pendingJobsQueue
        pc := .procAckClaim r }
    have htk : (S.core c).pc.token c = some (r.job, r.fromCore) := by rw [hp]; rfl
    have hreq : S.Requested r.job r.fromCore := by
      refine ⟨?_, hidle.1⟩
      have htoken : S.Token r.job r.fromCore (S.core c).pc.isEarly := .core htk
      rwa [hp] at htoken
    refine .of_late hi hother hself (fun _ _ => id) (fun _ _ => Jobs.set_idle (by exact id)) rfl nofun
      (fun i hi' => mem_insertBy.2 (.inr hi')) (.accept rfl hp (congrArg Core.pc hself) hreq hidle.2 ?_)
    exact (congrArg Core.pendingJobsQueue hself) ▸ mem_insertBy.2 (.inl rfl)
  | @accept r hp hidle hl =>
    have hself : ((S.listDel r.job).goto c (.procInsert r)).core c =
        ((S.core c).listDel r.job).goto (.procInsert r) := Function.update_self ..
    refine .of_late hi hother hself (fun _ _ => id) (fun _ _ => Jobs.set_idle (by exact id)) rfl nofun
      ?_ (.none rfl (by rw [hp]; rfl) (by rw [hself]; rfl) (by rw [hself]; nofun))
    -- the job is ready, and so not pending
    have hout : r.job ∉ (S.core c).pendingJobsQueue := by
      intro hm
      have hst := ((hi.ok c).queues.pending r.job hm).state
      rw [hl.2] at hst
      cases hst
    show (S.core c).pendingJobsQueue ⊆ (S.core c).pendingJobsQueue.erase r.job
    rw [List.erase_of_not_mem hout]
    exact List.Subset.refl _
  | @ackClaim r hp =>
    have hself := Function.update_self (f := S.core) c
      ((S.core c).goto (.procAckPublish r (S.delegationAckQueue r.fromCore).tail))
    exact .of_late hi hother hself (fun _ _ => id) (fun _ _ => id) rfl nofun (List.Subset.refl _)
      (.claim rfl hp (congrArg Core.pc hself))
  | @ackPublish r t hp hf =>
    have hself := Function.update_self (f := S.core) c ((S.core c).goto .process)
    exact .of_late hi hother hself (fun _ _ => id) (fun _ _ => Jobs.set_idle (by exact id)) rfl nofun
      (List.Subset.refl _) (.publish rfl hp (congrArg Core.pc hself))
  | clear hp =>
    exact .aside hi rfl (fun _ _ => id) (fun _ _ => Jobs.set_idle (by exact id)) (.of hp rfl rfl) nofun
      (List.Subset.refl _) rfl
  | @putReject r hp =>
    have hT : HandoverStep c S (S.goto c .process) :=
      .aside hi rfl (fun _ _ => id) (fun _ _ => id) (.of hp rfl rfl) nofun (List.Subset.refl _) rfl
    exact hT.put _
  | @putAccept r hp =>
    let T := S.setJob r.job
      { S.job r.job with nextMigrationEligibleTick := S.systemTime + jobMigrationCooldownTicks }
    have hT : HandoverStep c S (T.goto c .process) :=
      .aside hi rfl (fun _ _ => id) (fun _ _ => Jobs.set_idle (by exact id)) (.of hp rfl rfl) nofun
        (List.Subset.refl _) rfl
    exact hT.put _

theorem CoreStep.handover (hs : CoreStep cfg c S S') (hi : Inv S) (hpool : S.Pools) :
    HandoverStep c S S' := by
  cases hs with
  | own hs he =>
    subst he
    exact hs.handover hi rfl rfl rfl rfl
  | arrive hs => exact hs.handover hi
  | discard hs => exact hs.handover hi
  | offer hs => exact hs.handover hi hpool
  | request hs => exact hs.handover hi

end EeftSched

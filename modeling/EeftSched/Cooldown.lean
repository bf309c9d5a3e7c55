/-
  The cooldown of a job that another core has taken in (`is_migration_profitable`,
  `process_migration_requests` in `sched_migration.c`).

  * `Pc.accepted`: the job a core is taking in;
  * `Sys.OnWay`: a core is about to offer a job, or a request for it is not
    decided yet;
  * `CooldownStep`: what a step of a core does to these, and to the tick from
    which a job may migrate; `CoreStep.cooldown`: every step of a core is one;
  * `Sys.Cools`: a job cools down from a tick on; kept by every step, as long as
    the job is not free;
  * `migration_cooldown`: the result for runs.
-/
import EeftSched.Releases

namespace EeftSched

open Lts

variable {n : ℕ} {cfg : Config} {S S' : Sys n} {K K' : Core n} {J J' : Jobs n} {i j : JobId n}
  {c d : Fin n} {X : Ctx n} {r : JobRec} {t₀ : ℕ}

/-- The job a core is taking in: its request is decided, and the core has not
    gone on to the next one. -/
def Pc.accepted : Pc n → Option (JobId n)
  | .procInsert r | .procAckClaim r | .procAckPublish r _ | .procClear r | .procPut r => some r.job
  | _ => none

/-- A core is about to offer the job, or a request for it is not decided yet. -/
def Sys.OnWay (S : Sys n) (j : JobId n) : Prop :=
  (∃ o, S.Token j o true) ∨ ∃ c, (S.core c).pc.target = some j

/-- In this step core `c` takes in the job of a request. -/
def TakesIn (c : Fin n) (j : JobId n) (x : Trans (Sys n) (Label n)) : Prop :=
  x.lab = .core c ∧ ∃ r, (x.pre.core c).pc = .procDecide r ∧ r.job = j ∧
    ((x.post.core c).pc = .procInsert r ∨ (x.post.core c).pc = .procAckClaim r)

/-! ## The tick from which a job may migrate -/

theorem Jobs.set_eligible (h : r.nextMigrationEligibleTick = (J j).nextMigrationEligibleTick)
    (i : JobId n) : (J.set j r i).nextMigrationEligibleTick = (J i).nextMigrationEligibleTick :=
  Jobs.set_field (·.nextMigrationEligibleTick) h i

theorem filterQueueForModeChange_eligible (level : ℕ) (src : List (JobId n)) (J : Jobs n)
    (dest discard : List (JobId n)) (i : JobId n) :
    ((filterQueueForModeChange level src J dest discard).1 i).nextMigrationEligibleTick =
      (J i).nextMigrationEligibleTick := by
  induction src generalizing J dest discard with
  | nil => rfl
  | cons j src ih =>
    have hset : (J.set j ((J j).retune level).link i).nextMigrationEligibleTick =
        (J i).nextMigrationEligibleTick := Jobs.set_eligible (by rfl) i
    unfold filterQueueForModeChange
    simp only
    split_ifs
    · exact (ih _ _ _).trans hset
    · exact (ih _ _ _).trans hset

theorem modeChangeSection_eligible (K : Core n) (J : Jobs n) (i : JobId n) :
    ((modeChangeSection K J).2 i).nextMigrationEligibleTick = (J i).nextMigrationEligibleTick := by
  have hpre : ((preemptRunning K J).2 i).nextMigrationEligibleTick =
      (J i).nextMigrationEligibleTick := by
    unfold preemptRunning
    cases K.runningJob with
    | none => rfl
    | some j =>
      show (J.set j { (J j).link with state := .ready } i).nextMigrationEligibleTick = _
      exact Jobs.set_eligible (by rfl) i
  exact ((filterQueueForModeChange_eligible ..).trans (filterQueueForModeChange_eligible ..)).trans hpre

/-- A core by itself lets no job migrate sooner or later. -/
theorem LocalStep.eligible (hs : LocalStep X K J K' J') (i : JobId n) :
    (J' i).nextMigrationEligibleTick = (J i).nextMigrationEligibleTick := by
  cases hs with
  | sync hs =>
    cases hs with
    | modeBody hp => exact modeChangeSection_eligible ..
    | _ => rfl
  | dispatch hs =>
    cases hs with
    | pop | start => exact Jobs.set_eligible (by rfl) i
    | @switch j r hp hr =>
      have hset : ∀ i, (J.set r { (J r).link with state := .ready } i).nextMigrationEligibleTick =
          (J i).nextMigrationEligibleTick := Jobs.set_eligible (by rfl)
      refine (Jobs.set_eligible ?_ i).trans (hset i)
      exact (hset j).symm
    | _ => rfl
  | cancel hs | run hs | arrival hs | reclaim hs | push hs | process hs | power hs =>
    cases hs <;> first | rfl | exact Jobs.set_eligible (by rfl) i

/-! ## What a step does -/

/-- A job on its way after a step of core `c` was so before, or is with the core. -/
theorem Sys.OnWay.cases_core (h : S'.OnWay j) (hpc : ∀ d ≠ c, (S'.core d).pc = (S.core d).pc)
    (hq : ∀ d, ∀ r ∈ (S'.migrationRequestQueue d).values,
      r ∈ (S.migrationRequestQueue d).values ∨ S.OnWay r.job) :
    S.OnWay j ∨ (S'.core c).pc.target = some j ∨
      (∃ o, (S'.core c).pc.token c = some (j, o)) ∧ (S'.core c).pc.isEarly = true := by
  rcases h with ⟨o, h⟩ | ⟨d, h⟩
  · obtain ⟨e, he, h⟩ : ∃ e, e = true ∧ S'.Token j o e := ⟨true, rfl, h⟩
    cases h with
    | @core d _ _ h =>
      by_cases hd : d = c
      · subst hd
        exact .inr (.inr ⟨⟨o, h⟩, he⟩)
      · rw [hpc d hd] at h he
        exact .inl (.inl ⟨o, he ▸ .core h⟩)
    | @queued d r hr => exact .inl ((hq d r hr).elim (fun hr => .inl ⟨_, .queued hr⟩) id)
  · by_cases hd : d = c
    · rw [hd] at h
      exact .inr (.inl h)
    · rw [hpc d hd] at h
      exact .inl (.inr ⟨d, h⟩)

/-- **What a step of core `c` does** to the jobs that are not free: it offers only
    what may migrate, and puts the next migration of what it has taken in off. -/
structure CooldownStep (c : Fin n) (S S' : Sys n) : Prop where
  eligible : ∀ j ∉ S.free,
    (S'.job j).nextMigrationEligibleTick = (S.job j).nextMigrationEligibleTick ∨
      (S'.job j).nextMigrationEligibleTick = S.systemTime + jobMigrationCooldownTicks
  accepted : ∀ j, (S.core c).pc.accepted = some j → (S'.core c).pc.accepted = some j ∨
    (S'.job j).nextMigrationEligibleTick = S.systemTime + jobMigrationCooldownTicks
  onWay : ∀ j ∉ S.free, S'.OnWay j → S.OnWay j ∨
    (S.core c).pc.accepted = none ∧ (S.job j).nextMigrationEligibleTick ≤ S.systemTime

namespace CooldownStep

/-- The core takes in no job. -/
theorem of_none (hpc : ∀ d ≠ c, (S'.core d).pc = (S.core d).pc)
    (hq : ∀ d, ∀ r ∈ (S'.migrationRequestQueue d).values,
      r ∈ (S.migrationRequestQueue d).values ∨ S.OnWay r.job)
    (hjob : ∀ j ∉ S.free,
      (S'.job j).nextMigrationEligibleTick = (S.job j).nextMigrationEligibleTick)
    (ha : (S.core c).pc.accepted = none)
    (ht : ∀ j ∉ S.free, (S'.core c).pc.target = some j →
      S.OnWay j ∨ (S.job j).nextMigrationEligibleTick ≤ S.systemTime)
    (hk : ∀ j o, (S'.core c).pc.token c = some (j, o) → (S'.core c).pc.isEarly = true → S.OnWay j) :
    CooldownStep c S S' := by
  refine ⟨fun j hj => .inl (hjob j hj), fun j hj => ?_, fun j hj h => ?_⟩
  · rw [ha] at hj
    cases hj
  · rcases h.cases_core hpc hq with h | h | ⟨⟨o, h⟩, he⟩
    · exact .inl h
    · exact (ht j hj h).imp_right fun h => ⟨ha, h⟩
    · exact .inl (hk j o h he)

/-- The step has nothing to do with offers. -/
theorem aside {p : Pc n} (hcore : S'.core = Function.update S.core c K') (hp : (S.core c).pc = p)
    (hq : ∀ d, ∀ r ∈ (S'.migrationRequestQueue d).values, r ∈ (S.migrationRequestQueue d).values)
    (hjob : ∀ j ∉ S.free,
      (S'.job j).nextMigrationEligibleTick = (S.job j).nextMigrationEligibleTick)
    (hm : (p.accepted, K'.pc.target, K'.pc.isEarly) = (none, none, false)) : CooldownStep c S S' := by
  have hself : S'.core c = K' := by rw [hcore, Function.update_self]
  simp only [Prod.mk.injEq] at hm
  obtain ⟨ha, ht, he⟩ := hm
  refine of_none (fun d hd => by rw [Sys.core_of_ne hd hcore]) (fun d r hr => .inl (hq d r hr)) hjob
    (by rw [hp, ha]) (fun j _ h => ?_) fun j o _ h => ?_
  · rw [hself, ht] at h
    cases h
  · rw [hself, he] at h
    cases h

/-- The core goes on with the job it takes in. -/
theorem of_accepted {q : Pc n} (hpc : (S.core c).pc.accepted = some j)
    (hcore : S'.core = Function.update S.core c ((S.core c).goto q))
    (hq : S'.migrationRequestQueue = S.migrationRequestQueue)
    (hm : (q.target, q.isEarly) = (none, false))
    (hother : ∀ i ≠ j, S'.job i = S.job i)
    (hj : q.accepted = some j ∧
        (S'.job j).nextMigrationEligibleTick = (S.job j).nextMigrationEligibleTick ∨
      (S'.job j).nextMigrationEligibleTick = S.systemTime + jobMigrationCooldownTicks) :
    CooldownStep c S S' := by
  have hself : (S'.core c).pc = q := by
    rw [hcore, Function.update_self]
    rfl
  simp only [Prod.mk.injEq] at hm
  obtain ⟨ht, he⟩ := hm
  refine ⟨fun i _ => ?_, fun i hi => ?_, fun i _ h => .inl ?_⟩
  · by_cases hij : i = j
    · rw [hij]
      exact hj.imp_left And.right
    · rw [hother i hij]
      exact .inl rfl
  · obtain rfl : j = i := Option.some.inj (hpc.symm.trans hi)
    rw [hself]
    exact hj.imp_left And.left
  · rcases h.cases_core (S := S) (c := c) (fun d hd => by rw [Sys.core_of_ne hd hcore])
      (fun d r hr => .inl (hq ▸ hr)) with h | h | ⟨-, h⟩
    · exact h
    · rw [hself, ht] at h
      cases h
    · rw [hself, he] at h
      cases h

/-- A reference is dropped. -/
theorem put {me : Option (Fin n)} {T : Sys n} (hs : CooldownStep c S T) (i : JobId n) :
    CooldownStep c S (T.putJobRef me i) := by
  obtain ⟨f, g, he⟩ := T.putJobRef_eq me i
  have hjob : ∀ j, ((T.putJobRef me i).job j).nextMigrationEligibleTick =
      (T.job j).nextMigrationEligibleTick := by
    rw [he]
    exact Jobs.set_eligible (by rfl)
  have hcore : (T.putJobRef me i).core = T.core := by rw [he]
  have hq : (T.putJobRef me i).migrationRequestQueue = T.migrationRequestQueue := by rw [he]
  refine ⟨?_, ?_, fun j hj h => hs.onWay j hj (h.imp ?_ ?_)⟩
  · simp only [hjob]
    exact hs.eligible
  · simp only [hjob, hcore]
    exact hs.accepted
  · rintro ⟨o, h⟩
    exact ⟨o, h.congr hcore hq⟩
  · rw [hcore]
    exact id

end CooldownStep

/-! ## The steps -/

/-- What a core takes in by itself stays with it. -/
theorem LocalStep.accepted (hs : LocalStep X K J K' J') (h : K.pc.accepted = some j) :
    K'.pc.accepted = some j := by
  cases hs with
  | process hs =>
    cases hs with
    | lock1 hp | lock2 hp =>
      rw [hp] at h
      cases h
    | insertDiscard hp | insert hp =>
      rw [hp] at h
      exact h
  | cancel hs | sync hs | run hs | arrival hs | reclaim hs | push hs | dispatch hs | power hs =>
    cases hs <;> (rw [‹K.pc = _›] at h; cases h)

theorem LocalStep.cooldown (hs : LocalStep (S.ctx cfg c) (S.core c) S.job K' J') (hi : Inv S)
    (hcore : S'.core = Function.update S.core c K') (hjob : S'.job = J')
    (hq : S'.migrationRequestQueue = S.migrationRequestQueue) : CooldownStep c S S' := by
  have hspec : LocalSpec c (S.core c) S.job K' J' := hs.spec (hi.ok c) (hi.core_nodup c)
  have hself : S'.core c = K' := by rw [hcore, Function.update_self]
  refine ⟨fun j _ => .inl ?_, fun j hj => .inl ?_, fun j _ h => .inl ?_⟩
  · rw [hjob]
    exact hs.eligible j
  · rw [hself]
    exact hs.accepted hj
  · rcases h.cases_core (S := S) (c := c) (fun d hd => by rw [Sys.core_of_ne hd hcore])
      (fun d r hr => .inl (hq ▸ hr)) with h | h | ⟨⟨o, h⟩, he⟩
    · exact h
    · rw [hself, hspec.own.target] at h
      cases h
    · rw [hself, hspec.own.token] at h
      rw [hself, hspec.own.early] at he
      exact .inl ⟨o, he ▸ .core h⟩

theorem ArriveStep.cooldown (hs : ArriveStep cfg c S S') : CooldownStep c S S' := by
  cases hs with
  | modeStore hp | missFatal hp | exhausted hp => exact .aside rfl hp (fun _ _ => id) (fun _ _ => rfl) rfl
  | complete hp hr => exact .aside rfl hp (fun _ _ => id) (fun i _ => Jobs.set_eligible (by rfl) i) rfl
  | @put j K' hput =>
    have hT : CooldownStep c S (S.setCore c K') := by
      cases hput <;> exact .aside rfl ‹_› (fun _ _ => id) (fun _ _ => rfl) rfl
    exact hT.put j
  | @create m ms task j T acet hp hm hd hj =>
    obtain ⟨hfree, f, g, rfl⟩ := Sys.takeFree_eq_some hj
    refine .aside rfl hp (fun _ _ => id) (fun i hi => ?_) rfl
    have hij : i ≠ j := by
      rintro rfl
      exact hi (hfree ▸ Multiset.mem_cons_self i _)
    exact congrArg (·.nextMigrationEligibleTick) (Jobs.set_ne S.job _ hij)

theorem DiscardStep.cooldown (hs : DiscardStep cfg c S S') : CooldownStep c S S' := by
  cases hs with
  | discard hp => exact .aside rfl hp (fun _ _ => id) (fun i _ => Jobs.set_eligible (by rfl) i) rfl
  | accommodate hp => exact .aside rfl hp (fun _ _ => id) (fun i _ => Jobs.set_eligible (by rfl) i) rfl
  | lock hp | keep hp | acked hp => exact .aside rfl hp (fun _ _ => id) (fun _ _ => rfl) rfl
  | done hp =>
    refine .aside rfl hp (fun _ _ => id) (fun _ _ => rfl) ?_
    rw [Core.goto_pc]
    split_ifs <;> rfl
  | ack hp =>
    refine .aside rfl hp (fun _ _ => id) (fun _ _ => rfl) ?_
    show (Pc.updateDelegations.accepted, (S.core c).pc.target, (S.core c).pc.isEarly) = _
    rw [hp]
    rfl

/-- A core that puts its request in a queue -/
theorem CooldownStep.enqueue {dest : Fin n} {q : Pc n}
    (hcore : S'.core = Function.update S.core c ((S.core c).goto q)) (hjob : S'.job = S.job)
    (ht : (S.core c).pc.token c = some (j, c)) (he : (S.core c).pc.isEarly = true)
    (hq : S'.migrationRequestQueue = Function.update S.migrationRequestQueue dest
      ((S.migrationRequestQueue dest).claim ⟨j, c⟩))
    (hm : ((S.core c).pc.accepted, q.target, q.isEarly) = (none, none, false)) :
    CooldownStep c S S' := by
  have hself : (S'.core c).pc = q := by
    rw [hcore, Function.update_self]
    rfl
  have hold : S.Token j c true := he ▸ .core ht
  simp only [Prod.mk.injEq] at hm
  obtain ⟨ha, ht', he'⟩ := hm
  refine .of_none (fun d hd => by rw [Sys.core_of_ne hd hcore]) (fun d r hr => ?_)
    (fun i _ => by rw [hjob]) ha (fun i _ h => ?_) fun i o _ h => ?_
  · rw [hq] at hr
    rcases Sys.values_claim hr with hr | rfl
    · exact .inl hr
    · exact .inr (.inl ⟨c, hold⟩)
  · rw [hself, ht'] at h
    cases h
  · rw [hself, he'] at h
    cases h

/-- A core that is about to offer a job: one that may migrate, or a new one -/
theorem CooldownStep.aim (hcore : S'.core = Function.update S.core c K')
    (hq : S'.migrationRequestQueue = S.migrationRequestQueue)
    (hjob : ∀ i ∉ S.free,
      (S'.job i).nextMigrationEligibleTick = (S.job i).nextMigrationEligibleTick)
    (hm : ((S.core c).pc.accepted, K'.pc.target, K'.pc.token c) = (none, some j, none))
    (hj : j ∉ S.free → (S.job j).nextMigrationEligibleTick ≤ S.systemTime) :
    CooldownStep c S S' := by
  have hself : S'.core c = K' := by rw [hcore, Function.update_self]
  simp only [Prod.mk.injEq] at hm
  obtain ⟨ha, ht, hk⟩ := hm
  refine .of_none (fun d hd => by rw [Sys.core_of_ne hd hcore]) (fun d r hr => .inl (hq ▸ hr)) hjob ha
    (fun i hi h => .inr ?_) fun i o h => ?_
  · rw [hself, ht] at h
    obtain rfl := Option.some.inj h
    exact hj hi
  · rw [hself, hk] at h
    cases h

/-- A core that makes a request for the job it is about to offer -/
theorem CooldownStep.ask (hcore : S'.core = Function.update S.core c K')
    (hq : S'.migrationRequestQueue = S.migrationRequestQueue)
    (hjob : ∀ i ∉ S.free,
      (S'.job i).nextMigrationEligibleTick = (S.job i).nextMigrationEligibleTick)
    (ht : (S.core c).pc.target = some j)
    (hm : ((S.core c).pc.accepted, K'.pc.target, K'.pc.token c) = (none, none, some (j, c))) :
    CooldownStep c S S' := by
  have hself : S'.core c = K' := by rw [hcore, Function.update_self]
  simp only [Prod.mk.injEq] at hm
  obtain ⟨ha, ht', hk⟩ := hm
  refine .of_none (fun d hd => by rw [Sys.core_of_ne hd hcore]) (fun d r hr => .inl (hq ▸ hr)) hjob ha
    (fun i _ h => ?_) fun i o h _ => ?_
  · rw [hself, ht'] at h
    cases h
  · rw [hself, hk] at h
    obtain ⟨rfl, -⟩ := Prod.mk.inj (Option.some.inj h)
    exact .inr ⟨c, ht⟩

theorem OfferStep.cooldown (hs : OfferStep cfg c S S') : CooldownStep c S S' := by
  cases hs with
  | @exchange b k j hp hj hm hf =>
    exact .aim rfl rfl (fun i _ => Jobs.set_eligible (by rfl) i) (by rw [hp]; rfl) fun _ => hm.1
  | withdraw hp => exact .aside rfl hp (fun _ _ => id) (fun i _ => Jobs.set_eligible (by rfl) i) rfl
  | getRef hp =>
    exact .ask rfl rfl (fun i _ => Jobs.set_eligible (by rfl) i) (by rw [hp]; rfl) (by rw [hp]; rfl)
  | claim hp | claimFuture hp =>
    exact .enqueue rfl rfl (by rw [hp]; rfl) (by rw [hp]; rfl) rfl (by rw [hp]; rfl)
  | @publish dest t b k hp hf =>
    refine .aside rfl hp (fun d r hr => ?_) (fun _ _ => rfl) rfl
    exact TicketQueue.values_update_publish _ dest t d ▸ hr
  | @publishFuture dest t ms hp hf =>
    refine .aside rfl hp (fun d r hr => ?_) (fun _ _ => rfl) rfl
    exact TicketQueue.values_update_publish _ dest t d ▸ hr
  | @createFuture m ms task j T acet hp ho hj =>
    obtain ⟨hfree, f, g, rfl⟩ := Sys.takeFree_eq_some hj
    have hmem : j ∈ S.free := hfree ▸ Multiset.mem_cons_self j _
    refine .aim rfl rfl (fun i hi => ?_) (by rw [hp]; rfl) fun hout => absurd hmem hout
    have hij : i ≠ j := by
      rintro rfl
      exact hi hmem
    exact congrArg (·.nextMigrationEligibleTick) (Jobs.set_ne S.job _ hij)
  | sendFuture hp => exact .ask rfl rfl (fun _ _ => rfl) (by rw [hp]; rfl) (by rw [hp]; rfl)

theorem RequestStep.cooldown (hs : RequestStep cfg c S S') (hi : Inv S) : CooldownStep c S S' := by
  have hother := fun d (hd : d ≠ c) => (hs.elsewhere hi hd).pc
  cases hs with
  | @dequeue r q hp hq =>
    have hvalues := (TicketQueue.tryDequeue_eq_some hq).1
    have hself := Function.update_self (f := S.core) c ((S.core c).goto (.procLock1 r))
    refine .of_none hother (fun d i hr => .inl ?_) (fun _ _ => rfl) (by rw [hp]; rfl) (fun i _ h => ?_)
      fun i o h _ => ?_
    · by_cases hd : d = c
      · subst hd
        rw [hvalues]
        exact List.mem_cons_of_mem _ (Function.update_self (f := S.migrationRequestQueue) d q ▸ hr)
      · exact Function.update_of_ne hd q S.migrationRequestQueue ▸ hr
    · cases (congrArg Pc.target (congrArg Core.pc hself)).symm.trans h
    · have htoken := (congrArg (Pc.token c) (congrArg Core.pc hself)).symm.trans h
      obtain ⟨rfl, rfl⟩ := Prod.mk.inj (Option.some.inj htoken)
      exact .inl ⟨_, .queued (c := c) (by rw [hvalues]; exact List.mem_cons_self)⟩
  | done hp => exact .aside rfl hp (fun _ _ => id) (fun _ _ => rfl) rfl
  | reject hp => exact .aside rfl hp (fun _ _ => id) (fun i _ => Jobs.set_eligible (by rfl) i) rfl
  | acceptFuture hp => exact .aside rfl hp (fun _ _ => id) (fun i _ => Jobs.set_eligible (by rfl) i) rfl
  | @accept r hp hidle hl =>
    have hself : ((S.listDel r.job).goto c (.procInsert r)).core c =
        ((S.core c).listDel r.job).goto (.procInsert r) := Function.update_self ..
    refine .of_none hother (fun _ _ => .inl) (fun i _ => ?_) (by rw [hp]; rfl) (fun i _ h => ?_)
      fun i o _ h => ?_
    · exact Jobs.set_eligible (by rfl) i
    · rw [hself] at h
      cases h
    · rw [hself] at h
      cases h
  | @ackClaim r hp =>
    exact .of_accepted (j := r.job) (by rw [hp]; rfl) rfl rfl rfl (fun _ _ => rfl) (.inl ⟨rfl, rfl⟩)
  | @ackPublish r t hp hf =>
    refine .of_accepted (j := r.job) (by rw [hp]; rfl) rfl rfl rfl (fun i hi => Jobs.set_ne _ _ hi) ?_
    exact .inr (congrArg (·.nextMigrationEligibleTick) (Jobs.set_self ..))
  | @clear r hp =>
    refine .of_accepted (j := r.job) (by rw [hp]; rfl) rfl rfl rfl (fun i hi => Jobs.set_ne _ _ hi) ?_
    exact .inl ⟨rfl, congrArg (·.nextMigrationEligibleTick) (Jobs.set_self ..)⟩
  | @putReject r hp =>
    have hT : CooldownStep c S (S.goto c .process) :=
      .aside rfl hp (fun _ _ => id) (fun _ _ => rfl) rfl
    exact hT.put _
  | @putAccept r hp =>
    set T := S.setJob r.job
      { S.job r.job with nextMigrationEligibleTick := S.systemTime + jobMigrationCooldownTicks }
    have hT : CooldownStep c S (T.goto c .process) := by
      refine .of_accepted (j := r.job) (by rw [hp]; rfl) rfl rfl rfl (fun i hi => Jobs.set_ne _ _ hi) ?_
      exact .inr (congrArg (·.nextMigrationEligibleTick) (Jobs.set_self ..))
    exact hT.put _

/-- **Every step of a core is one.** -/
theorem CoreStep.cooldown (hs : CoreStep cfg c S S') (hi : Inv S) : CooldownStep c S S' := by
  cases hs with
  | own hs he => exact hs.cooldown hi (by rw [he]; rfl) (by rw [he]) (by rw [he]; rfl)
  | arrive hs => exact hs.cooldown
  | discard hs => exact hs.cooldown
  | offer hs => exact hs.cooldown
  | request hs => exact hs.cooldown hi

/-! ## The cooldown -/

theorem Pc.target_of_accepted {q : Pc n} (h : q.accepted = some j) : q.target = none := by
  cases q <;> first | rfl | cases h

/-- A job that a core takes in is not on its way to another one. -/
theorem Inv.not_onWay (hi : Inv S) (h : (S.core c).pc.accepted = some j) : ¬ S.OnWay j := by
  have hcase : (S.core c).pc.acks = some j ∨ (∃ o, (S.core c).pc.token c = some (j, o)) ∧
      (S.core c).pc.isEarly = false := by
    cases hp : (S.core c).pc with
    | procAckClaim | procAckPublish =>
      rw [hp] at h
      exact .inl h
    | procInsert r | procClear r | procPut r =>
      rw [hp] at h
      obtain rfl : r.job = j := Option.some.inj h
      exact .inr ⟨⟨c, rfl⟩, rfl⟩
    | _ =>
      rw [hp] at h
      cases h
  rintro (⟨o, ht⟩ | ⟨d, ht⟩)
  · rcases hcase with ha | ⟨⟨o', hk⟩, he⟩
    · -- a pending job has its place
      have hmem := hi.acks c j ha
      have hheld := Sys.mem_held_of_pending hmem
      rcases (hi.token j o true ht).offer rfl with ⟨-, hst⟩ | ⟨-, -, hout⟩
      · exact hst ((hi.ok c).queues.pending j hmem).state
      · exact hout (Sys.mem_held.2 (.inl ⟨c, hheld⟩))
    · -- the core has the only request for the job
      rcases ht.cases_core (S := S) (c := c) (fun _ _ => rfl) (fun _ _ => id) with ⟨-, hearly⟩ | hr
      · exact Bool.false_ne_true (he.symm.trans hearly.symm)
      · exact Sys.Rest.false hi.once hk hr
  · rcases hcase with ha | ⟨⟨o', hk⟩, -⟩
    · have hheld := Sys.mem_held_of_pending (hi.acks c j ha)
      by_cases hd : d = c
      · rw [hd, Pc.target_of_accepted h] at ht
        cases ht
      · exact hi.not_target hheld hd ht
    · exact hi.target d j ht (Sys.Token.core hk).mem_reqs

/-- The job cools down from tick `t₀` on: a core takes it in in that tick, or has
    done so and let it migrate again only after its cooldown. -/
structure Sys.Cools (S : Sys n) (j : JobId n) (t₀ : ℕ) : Prop where
  since : t₀ ≤ S.systemTime
  later : (∃ c, (S.core c).pc.accepted = some j ∧ S.systemTime = t₀) ∨
    t₀ + jobMigrationCooldownTicks ≤ (S.job j).nextMigrationEligibleTick ∧
      (S.OnWay j → t₀ + jobMigrationCooldownTicks ≤ S.systemTime)

namespace Sys.Cools

theorem le (h : S.Cools j t₀) (hi : Inv S) (hw : S.OnWay j) :
    t₀ + jobMigrationCooldownTicks ≤ S.systemTime := by
  rcases h.later with ⟨c, hc, -⟩ | ⟨-, hle⟩
  · exact absurd hw (hi.not_onWay hc)
  · exact hle hw

theorem core_step (h : S.Cools j t₀) (hi : Inv S) (hf : j ∉ S.free) (hs : CoreStep cfg c S S') :
    S'.Cools j t₀ := by
  have htime := hs.systemTime_eq
  have hstep := hs.cooldown hi
  refine ⟨by rw [htime]; exact h.since, ?_⟩
  rcases h.later with ⟨d, hd, ht⟩ | ⟨hle, hw⟩
  · by_cases hdc : d = c
    · subst hdc
      refine (hstep.accepted j hd).imp (fun hd' => ⟨d, hd', htime.trans ht⟩) fun hnext => ⟨?_, fun h' => ?_⟩
      · rw [hnext, ht]
      · rcases hstep.onWay j hf h' with hway | ⟨hnone, -⟩
        · exact absurd hway (hi.not_onWay hd)
        · cases hnone.symm.trans hd
    · refine .inl ⟨d, ?_, htime.trans ht⟩
      rw [(hs.elsewhere hi hdc).pc]
      exact hd
  · refine .inr ⟨?_, fun h' => ?_⟩
    · rcases hstep.eligible j hf with hnext | hnext
      · rw [hnext]
        exact hle
      · rw [hnext]
        exact Nat.add_le_add_right h.since _
    · rw [htime]
      rcases hstep.onWay j hf h' with hway | ⟨-, hnext⟩
      · exact hw hway
      · exact hle.trans hnext

theorem timer_step (h : S.Cools j t₀) (hi : Inv S) (hs : TimerStep cfg S S') : S'.Cools j t₀ := by
  have harr : ∀ c, (S.core c).pc = .arrived := by
    cases hs with
    | sweep _ ha => exact ha
    | keep hp | expire hp | put hp | advance hp => exact hi.timer (by rw [hp]; nofun)
  have hsame : S'.migrationRequestQueue = S.migrationRequestQueue ∧
      (S'.job j).nextMigrationEligibleTick = (S.job j).nextMigrationEligibleTick := by
    cases hs with
    | sweep | keep | advance => exact ⟨rfl, rfl⟩
    | expire => exact ⟨rfl, Jobs.set_eligible (by rfl) j⟩
    | @put k i hp =>
      obtain ⟨f, g, he⟩ := { S with timer := .sweep k }.putJobRef_eq none i
      rw [he]
      exact ⟨rfl, Jobs.set_eligible (by rfl) j⟩
  have hpc : ∀ c, (S'.core c).pc.target = none ∧ (S'.core c).pc.token c = none := by
    intro c
    rcases (hs.cores hi).1 c with he | ⟨-, he⟩
    · rw [he, harr c]
      exact ⟨rfl, rfl⟩
    · rw [he]
      exact ⟨rfl, rfl⟩
  refine ⟨h.since.trans hs.systemTime_le, ?_⟩
  rcases h.later with ⟨d, hd, -⟩ | ⟨hle, hw⟩
  · rw [harr d] at hd
    cases hd
  · refine .inr ⟨hsame.2 ▸ hle, fun h' => (hw ?_).trans hs.systemTime_le⟩
    rcases h' with ⟨o, ht⟩ | ⟨c, ht⟩
    · exact .inl ⟨o, ht.of_idle (fun c => (hpc c).2) hsame.1⟩
    · rw [(hpc c).1] at ht
      cases ht

theorem step {a : Label n} (h : S.Cools j t₀) (hi : Inv S) (hf : j ∉ S.free) (hs : Step cfg S a S') :
    S'.Cools j t₀ := by
  cases hs with
  | core _ hs => exact h.core_step hi hf hs
  | timer hs => exact h.timer_step hi hs

end Sys.Cools

theorem TakesIn.cools {x : Trans (Sys n) (Label n)} (h : TakesIn c j x)
    (hs : Step cfg x.pre x.lab x.post) : x.post.Cools j x.pre.systemTime := by
  obtain ⟨hlab, r, -, rfl, hp⟩ := h
  have htime : x.post.systemTime = x.pre.systemTime := by
    rw [hlab] at hs
    cases hs with
    | core _ hs => exact hs.systemTime_eq
  refine ⟨htime.ge, .inl ⟨c, ?_, htime⟩⟩
  rcases hp with hp | hp <;> rw [hp] <;> rfl

theorem TakesIn.onWay {x : Trans (Sys n) (Label n)} (h : TakesIn c j x) : x.pre.OnWay j := by
  obtain ⟨-, r, hp, rfl, -⟩ := h
  exact .inl ⟨_, Sys.token_of_decide hp⟩

/-- **The cooldown of a migrated job.**  After a core has taken in a job, and until
    the job is freed, no core offers it, has a request for it or takes it in before
    `JOB_MIGRATION_COOLDOWN_TICKS` ticks have passed. -/
theorem migration_cooldown {tr₁ tr₂ : List (Trans (Sys n) (Label n))} {x : Trans (Sys n) (Label n)}
    (h : Exec (Step cfg) (Sys.init n) (tr₁ ++ x :: tr₂) S) (hx : TakesIn c j x)
    (hlive : ∀ z ∈ tr₂, j ∉ z.pre.free) :
    (S.OnWay j → x.pre.systemTime + jobMigrationCooldownTicks ≤ S.systemTime) ∧
      ∀ d, ∀ y ∈ tr₂, TakesIn d j y →
        x.pre.systemTime + jobMigrationCooldownTicks ≤ y.pre.systemTime := by
  obtain ⟨-, hstep⟩ := h.split
  obtain ⟨hall, hlast⟩ := h.after (P := fun T => T.Cools j x.pre.systemTime) (hx.cools hstep)
    fun z hz hreach hs hpre => hpre.step (Reachable.inv hreach) (hlive z hz) hs
  refine ⟨hlast.le (Reachable.inv ⟨_, h⟩), fun d y hy hd => ?_⟩
  obtain ⟨tr, tr', rfl⟩ := List.append_of_mem hy
  have hrun : Exec (Step cfg) (Sys.init n) ((tr₁ ++ x :: tr) ++ y :: tr') S := by
    rw [List.append_assoc]
    exact h
  exact (hall y hy).le (Reachable.inv ⟨_, hrun.split.1⟩) hd.onWay

theorem pairSys_takesIn {time : ℕ} {J J' : Jobs 2} {f : Fin 2 → List (JobId 2)}
    {q : Fin 2 → TicketQueue (MigrationRequest 2)} {a : Fin 2 → TicketQueue DelegationAck}
    {o : List CompletionMessage} {c : Fin 2} {K K' L : Core 2} {r : MigrationRequest 2} :
    TakesIn c r.job ⟨pairSys time J f q a o c (K.goto (.procDecide r)) L, .core c,
      pairSys time J' f q a o c (K'.goto (.procAckClaim r)) L⟩ :=
  ⟨rfl, r, congrArg Core.pc pairSys_core, rfl, .inr (congrArg Core.pc pairSys_core)⟩

/-- Core 1 takes in a job, writes the tick from which it may migrate, and goes on: then the
    job is on its way no more. -/
theorem migration_cooldown_hand : ∃ (tr₁ tr₂ : List (Trans (Sys 2) (Label 2)))
    (x : Trans (Sys 2) (Label 2)) (S : Sys 2) (j : JobId 2),
      Exec (Step (handConfig 4 1)) (Sys.init 2) (tr₁ ++ x :: tr₂) S ∧ TakesIn 1 j x ∧
      tr₂.length = 3 ∧ (S.core 1).pc = .select ∧ j ∈ (S.core 1).pendingJobsQueue ∧
      (S.job j).isBeingOffered = false ∧
      (S.job j).nextMigrationEligibleTick = x.pre.systemTime + jobMigrationCooldownTicks ∧
      ¬ S.OnWay j := by
  obtain ⟨J, f, o, j₀, j₁, j₂, j₃, rest, dj, D, h, -, -, -, -, -, -, -, hj₁⟩ :=
    HandRun.decide2 .top (show 3 ≤ 4 by decide) (by decide)
  obtain ⟨tr, hrun, -⟩ := h.run
  set q : Fin 2 → TicketQueue (MigrationRequest 2) := Function.update (fun _ => .empty) 1 ⟨1, []⟩
  set L := (sentCore j₂ (HandRun.sentRecord dj 4) D).goto .arrived
  set r : MigrationRequest 2 := ⟨j₁, 0⟩
  have hlate : (J j₁).state = .idle ∧ 2 < (J j₁).arrivalTime := by
    rw [hj₁]
    exact ⟨rfl, show 2 < 4 by decide⟩
  obtain ⟨htake, hclaim, hpublish⟩ := @PairRun.intake_steps (handConfig 4 1) 2 J f q (fun _ => .empty) o 1
    (handCore [] j₀) L j₁ rfl hlate rfl
  set K₁ := { handCore [] j₀ with pendingJobsQueue := [j₁] }
  set J₁ := J.set j₁ ((J j₁).retune 0).link
  set J₂ := J₁.set j₁ { J₁ j₁ with
    isBeingOffered := false
    nextMigrationEligibleTick := 2 + jobMigrationCooldownTicks }
  set a₂ : Fin 2 → TicketQueue DelegationAck := Function.update (fun _ => .empty) 0 ⟨0, [(acceptAck (J j₁), true)]⟩
  have h₁ := h.quiet_step rfl htake rfl
  have h₂ := h₁.quiet_step rfl hclaim rfl
  have h₃ : HandRun 4 1 _ _ 2 J₂ f q a₂ o 1 (K₁.goto .process) L := h₂.quiet_step rfl hpublish rfl
  have h₄ := h₃.processed rfl
  have hrest := ((Exec.nil.snoc (h₁.step hclaim)).snoc (h₂.step hpublish)).snoc
    (h₃.step (PairRun.done_step rfl))
  have hexec := hrun.join (h.step htake) hrest
  set S := pairSys 2 J₂ f q a₂ o 1 (K₁.goto .select) L
  have hcore : S.core 1 = K₁.goto .select := pairSys_core
  have hpending : j₁ ∈ (S.core 1).pendingJobsQueue := by
    rw [hcore]
    exact List.mem_singleton_self _
  have hlive : j₁ ∉ S.free := fun hf => ((Reachable.inv ⟨_, hexec⟩).of_free hf).1 (Sys.mem_held.2
    (.inl ⟨1, Core.mem_held_of_placed (Core.mem_placed.2 (.inr (.inr (.inr (.inl hpending)))))⟩))
  -- no step after the intake changes the pools
  obtain ⟨hway, -⟩ := migration_cooldown hexec pairSys_takesIn
    (List.forall_mem_cons.2 ⟨hlive, List.forall_mem_cons.2 ⟨hlive, List.forall_mem_singleton.2 hlive⟩⟩)
  have hlast : J₂ j₁ = _ := Function.update_self ..
  refine ⟨tr, _, _, S, j₁, hexec, pairSys_takesIn, rfl, congrArg Core.pc hcore, hpending,
    congrArg (fun r => r.isBeingOffered) hlast, congrArg (fun r => r.nextMigrationEligibleTick) hlast, fun hw => ?_⟩
  exact absurd (show 2 + jobMigrationCooldownTicks ≤ 2 from hway hw) (by decide)

end EeftSched

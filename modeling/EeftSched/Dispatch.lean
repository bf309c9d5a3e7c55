/-
  The order of the queues and the choice of the next job (`select_next_job`,
  `dispatch_job` in `sched_core.c`), in any run of a processor.

  * `Core.InOrder`: the queues of a core, at any point of its tick;
  * `nextCandidate_spec`: the job that `select_next_job` looks at has the
    earliest deadline of both queues, and is the head of the queue it pops;
  * `Elsewhere`: what a step of another core does to a core;
  * `Core.Chosen`: the job in the hands of `dispatch_job` comes before all others,
    and so does the running job afterwards;
  * `edf_order`: the result for every run.
-/
import EeftSched.Ownership

namespace EeftSched

open SortedQueue Lts

variable {n : ℕ} {cfg : Config} {S S' : Sys n} {c d : Fin n} {K K' : Core n} {J J' : Jobs n}
  {j : JobId n} {r : JobRec} {x : Option (JobId n)} {X : Ctx n}

/-! ## The queues of a core -/

/-- The queues are in the order of the deadlines, or of the arrivals, and hold
    what they are for; `is_idle` says whether a job runs, unless the core is at
    the end of `handle_job_completion`. -/
structure Core.InOrder (K : Core n) (J : Jobs n) : Prop where
  sorted : ∀ b, SortedBy (vdOf J) (K.queue b)
  kind : ∀ b, ∀ j ∈ K.queue b, (J j).isReplica = b
  ready : ∀ b, ∀ j ∈ K.queue b, (J j).state = .ready
  sortedPending : SortedBy (arrivalOf J) K.pendingJobsQueue
  idle : (∀ j, K.pc ≠ .completePut j) → (K.isIdle = true ↔ K.runningJob = none)

theorem Core.Ok.inOrder (hK : K.Ok J) : K.InOrder J where
  sorted := hK.queues.sorted
  kind b j hj := (hK.queues.queued b j hj).kind
  ready b j hj := (hK.queues.queued b j hj).state
  sortedPending := hK.queues.sortedPending
  idle h := by
    rw [hK.idle h]
    exact Option.isNone_iff_eq_none

/-- No job in the queues comes before job `j`. -/
def Core.Earliest (K : Core n) (J : Jobs n) (j : JobId n) : Prop :=
  ∀ b, ∀ i ∈ K.queue b, (J j).virtualDeadline ≤ (J i).virtualDeadline

/-- The core runs the job with the earliest deadline, and is idle only if there
    is none. -/
structure Core.EarliestFirst (K : Core n) (J : Jobs n) : Prop where
  idle : K.runningJob = none → ∀ b, K.queue b = []
  first : ∀ j, K.runningJob = some j → K.Earliest J j

/-! ## The choice -/

theorem first_of_head {b : Bool} {l : List (JobId n)} (hq : K.Queues J x) (h : K.queue b = j :: l) :
    ∀ i ∈ K.queue b, (J j).virtualDeadline ≤ (J i).virtualDeadline := by
  have hsorted := hq.sorted b
  rw [h] at hsorted ⊢
  rintro i (_ | ⟨_, hi⟩)
  · exact le_rfl
  · exact (List.pairwise_cons.1 hsorted).1 i hi

theorem nextCandidate_eq_none (h : nextCandidate K J = none) (b : Bool) : K.queue b = [] := by
  unfold nextCandidate at h
  split at h
  · split_ifs at h
  · cases h
  · cases h
  · rename_i hready hreplica
    cases b
    · exact hready
    · exact hreplica

/-- The candidate is the head of the queue of its kind, and comes first. -/
theorem nextCandidate_spec (hq : K.Queues J x) (h : nextCandidate K J = some j) :
    selectNextJob K J j = some j ∧ K.Earliest J j := by
  have hkind : ∀ {b : Bool} {l : List (JobId n)}, K.queue b = j :: l → selectNextJob K J j = some j := by
    intro b l hb
    have hj : (J j).isReplica = b := (hq.queued b j (by rw [hb]; exact List.mem_cons_self)).kind
    rw [selectNextJob, hj, hb]
    rfl
  unfold nextCandidate at h
  split at h
  · rename_i ready l replica l' hready hreplica
    have h0 : K.queue false = ready :: l := hready
    have h1 : K.queue true = replica :: l' := hreplica
    split_ifs at h with hle
    · obtain rfl := Option.some.inj h
      refine ⟨hkind h0, fun b i hi => ?_⟩
      cases b
      · exact first_of_head hq h0 i hi
      · exact hle.trans (first_of_head hq h1 i hi)
    · obtain rfl := Option.some.inj h
      refine ⟨hkind h1, fun b i hi => ?_⟩
      cases b
      · exact (not_le.1 hle).le.trans (first_of_head hq h0 i hi)
      · exact first_of_head hq h1 i hi
  · rename_i ready l hready hreplica
    obtain rfl := Option.some.inj h
    have h0 : K.queue false = ready :: l := hready
    have h1 : K.queue true = [] := hreplica
    refine ⟨hkind h0, fun b i hi => ?_⟩
    cases b
    · exact first_of_head hq h0 i hi
    · rw [h1] at hi
      cases hi
  · rename_i replica l hready hreplica
    obtain rfl := Option.some.inj h
    have h0 : K.queue false = [] := hready
    have h1 : K.queue true = replica :: l := hreplica
    refine ⟨hkind h1, fun b i hi => ?_⟩
    cases b
    · rw [h0] at hi
      cases hi
    · exact first_of_head hq h1 i hi
  · cases h

/-- What holds between `select_next_job` and the end of `dispatch_job` -/
structure Core.Chosen (K : Core n) (J : Jobs n) : Prop where
  first : ∀ j, K.pc = .dispatch j → K.Earliest J j
  before : ∀ j, K.pc = .dispatch j → ∀ r, K.runningJob = some r → vdOf J j < vdOf J r
  done : K.pc = .dispatched → K.EarliestFirst J

/-- The points between `select_next_job` and the end of `dispatch_job` -/
def Pc.chosen : Pc n → Bool
  | .dispatch _ | .dispatched => true
  | _ => false

theorem Core.Chosen.of_pc (h : K.pc.chosen = false) : K.Chosen J := by
  have hd : ∀ j, K.pc ≠ .dispatch j := by
    intro j he
    rw [he] at h
    cases h
  refine ⟨fun j he => absurd he (hd j), fun j he => absurd he (hd j), fun he => ?_⟩
  rw [he] at h
  cases h

theorem DispatchStep.chosen (hs : DispatchStep K J K' J') (hK : K.Ok J) (hn : K.held.Nodup)
    (h : K.Chosen J) : K'.Chosen J' := by
  have hq := hK.queues
  cases hs with
  | none hp hc =>
    refine ⟨nofun, nofun, fun _ => ⟨fun hidle b => ?_, fun r hr b i hi => ?_⟩⟩
    · cases hcand : nextCandidate K J with
      | none => exact nextCandidate_eq_none hcand b
      | some j =>
        refine absurd (fun r hr => ?_) (hc j hcand)
        have hrun : K.runningJob = Option.none := hidle
        rw [hrun] at hr
        cases hr
    · have hrun : K.runningJob = some r := hr
      cases hcand : nextCandidate K J with
      | none =>
        have hi' : i ∈ K.queue b := hi
        rw [nextCandidate_eq_none hcand b] at hi'
        cases hi'
      | some j =>
        -- the running job is not beaten by the first of the queues
        have hle : (J r).virtualDeadline ≤ (J j).virtualDeadline := by
          by_contra hlt
          refine hc j hcand fun r' hr' => ?_
          obtain rfl := Option.some.inj (hrun.symm.trans hr')
          exact not_le.1 hlt
        exact hle.trans ((nextCandidate_spec hq hcand).2 b i hi)
  | nothing hp hc hb hpop =>
    rw [(nextCandidate_spec hq hc).1] at hpop
    cases hpop
  | @pop j i hp hc hb hpop =>
    obtain ⟨hhead, hfirst⟩ := nextCandidate_spec hq hc
    obtain rfl := Option.some.inj (hhead.symm.trans hpop)
    have hvd : ∀ i, (J.set j (J j).unlink i).virtualDeadline = (J i).virtualDeadline :=
      Jobs.set_field (·.virtualDeadline) rfl
    refine ⟨?_, ?_, nofun⟩
    · rintro _ ⟨⟩ b i hi
      rw [hvd, hvd]
      refine hfirst b i ?_
      have hi' : i ∈ (K.setQueue (J j).isReplica (K.queue (J j).isReplica).tail).queue b := hi
      rw [Core.queue_setQueue] at hi'
      split_ifs at hi' with hb'
      · rw [hb']
        exact List.mem_of_mem_tail hi'
      · exact hi'
    · rintro _ ⟨⟩ r hr
      have hr' : K.runningJob = some r := by
        rw [← hr]
        exact (K.setQueue_runningJob ..).symm
      rw [vdOf, vdOf, hvd, hvd]
      exact hb r hr'
  | @start j hp hr =>
    have hvd : ∀ i, (J.set j { J j with state := .running } i).virtualDeadline = (J i).virtualDeadline :=
      Jobs.set_field (·.virtualDeadline) rfl
    refine ⟨nofun, nofun, fun _ => ⟨nofun, ?_⟩⟩
    rintro _ ⟨⟩ b i hi
    rw [hvd, hvd]
    exact h.first j hp b i hi
  | @switch j r hp hr =>
    have hne : j ≠ r := by
      rintro rfl
      refine Core.notMem_placed hn (by rw [hp]; rfl) (Core.mem_placed.2 ?_)
      exact .inr (.inr (.inr (.inr hr)))
    have hvd : ∀ i, ((J.set r { (J r).link with state := .ready }).set j { J j with state := .running }
        i).virtualDeadline = (J i).virtualDeadline := by
      intro i
      rw [Jobs.set_field (·.virtualDeadline), Jobs.set_field (·.virtualDeadline)]
      · rfl
      · rw [Jobs.set_ne _ _ hne]
    refine ⟨nofun, nofun, fun _ => ⟨nofun, ?_⟩⟩
    rintro _ ⟨⟩ b i hi
    rw [hvd, hvd]
    have hi' : i ∈ (K.addByKind J r).queue b := hi
    unfold Core.addByKind at hi'
    rw [Core.queue_setQueue] at hi'
    split_ifs at hi' with hb
    · rcases mem_insertBy.1 hi' with rfl | hi'
      · exact (h.before j hp i hr).le
      · exact h.first j hp _ i hi'
    · exact h.first j hp b i hi'

theorem LocalStep.chosen (hs : LocalStep X K J K' J') (hK : K.Ok J) (hn : K.held.Nodup)
    (h : K.Chosen J) : K'.Chosen J' := by
  cases hs with
  | dispatch hs => exact hs.chosen hK hn h
  | cancel hs => exact .of_pc (by cases hs <;> rfl)
  | sync hs =>
    refine .of_pc ?_
    cases hs with
    | start _ =>
      rw [Core.goto_pc]
      split_ifs <;> rfl
    | modeBody _ =>
      rw [Core.goto_pc]
      split_ifs <;> rfl
    | _ => rfl
  | run hs => exact .of_pc (by cases hs <;> rfl)
  | arrival hs => exact .of_pc (by cases hs <;> rfl)
  | reclaim hs => exact .of_pc (by cases hs <;> rfl)
  | push hs => exact .of_pc (by cases hs <;> rfl)
  | process hs =>
    refine .of_pc ?_
    cases hs with
    | lock1 _ =>
      rw [Core.goto_pc]
      split_ifs <;> rfl
    | _ => rfl
  | power hs =>
    refine .of_pc ?_
    cases hs with
    | begin _ =>
      rw [Core.goto_pc]
      split_ifs <;> rfl
    | _ => rfl

/-! ## Other cores -/

/-- Records with the same deadline and arrival time -/
structure JobRec.SameTimes (r r' : JobRec) : Prop where
  deadline : r'.virtualDeadline = r.virtualDeadline
  arrival : r'.arrivalTime = r.arrivalTime

@[refl] theorem JobRec.SameTimes.refl (r : JobRec) : r.SameTimes r := ⟨rfl, rfl⟩

theorem Jobs.set_times (h : (J j).SameTimes r) (i : JobId n) : (J i).SameTimes (J.set j r i) :=
  ⟨Jobs.set_field (·.virtualDeadline) h.deadline i, Jobs.set_field (·.arrivalTime) h.arrival i⟩

/-- What a step of core `c` does to core `d`: it takes at most a queued job whose
    request it accepts, and changes no deadline and no arrival time there. -/
structure Elsewhere (S S' : Sys n) (c d : Fin n) : Prop where
  core : S'.core d = S.core d ∨ ∃ rq : MigrationRequest n,
    (S.core c).pc = .procDecide rq ∧ (S'.core c).pc = .procInsert rq ∧
      ((∃ b, rq.job ∈ (S.core d).queue b) ∨ rq.job ∉ (S.core d).held) ∧
      S'.core d = (S.core d).listDel rq.job
  times : ∀ i ∈ (S.core d).held, (S.job i).SameTimes (S'.job i)

namespace Elsewhere

/-- The step leaves the core and all times as they are. -/
theorem of_same (hcore : S'.core d = S.core d) (hj : ∀ i, (S.job i).SameTimes (S'.job i)) :
    Elsewhere S S' c d := ⟨.inl hcore, fun i _ => hj i⟩

/-- The step changes the record of a job that the core does not have. -/
theorem of_job (hcore : S'.core d = S.core d) (hjob : S'.job = S.job.set j r)
    (hout : j ∉ (S.core d).held) : Elsewhere S S' c d := by
  refine ⟨.inl hcore, fun i hi => ?_⟩
  have hne : i ≠ j := by
    rintro rfl
    exact hout hi
  rw [hjob, Jobs.set_ne _ _ hne]

end Elsewhere

theorem Sys.core_of_ne (hd : d ≠ c) (hcore : S'.core = Function.update S.core c K') :
    S'.core d = S.core d := by
  rw [hcore, Function.update_of_ne hd]

theorem Sys.notMem_of_takeFree {S₁ : Sys n} (hi : Inv S) (hj : S.takeFree c = some (j, S₁)) :
    j ∉ (S.core d).held := by
  obtain ⟨hfree, -⟩ := Sys.takeFree_eq_some hj
  have hout : j ∉ S.held := (hi.of_free (by rw [hfree]; exact Multiset.mem_cons_self j _)).1
  exact fun hm => hout (Sys.mem_held.2 (.inl ⟨d, hm⟩))

theorem ArriveStep.elsewhere (hs : ArriveStep cfg c S S') (hi : Inv S) (hd : d ≠ c) :
    Elsewhere S S' c d := by
  cases hs with
  | modeStore _ | missFatal _ | exhausted _ _ _ _ =>
    exact .of_same (Sys.core_of_ne hd rfl) fun _ => .refl _
  | complete _ _ => exact .of_same (Sys.core_of_ne hd rfl) (Jobs.set_times ⟨rfl, rfl⟩)
  | @put j K' _ =>
    obtain ⟨f, g, he⟩ := (S.setCore c K').putJobRef_eq (some c) j
    rw [he]
    exact .of_same (Sys.core_of_ne hd rfl) (Jobs.set_times ⟨rfl, rfl⟩)
  | create _ _ _ hj =>
    have hout := Sys.notMem_of_takeFree (d := d) hi hj
    obtain ⟨-, f, g, rfl⟩ := Sys.takeFree_eq_some hj
    exact .of_job (Sys.core_of_ne hd rfl) rfl hout

theorem DiscardStep.elsewhere (hs : DiscardStep cfg c S S') (hi : Inv S) (hd : d ≠ c) :
    Elsewhere S S' c d := by
  cases hs with
  | @discard j hp _ _ =>
    refine .of_job (j := j) (Sys.core_of_ne hd rfl) rfl fun hm => hd ?_
    exact hi.core_unique (Core.mem_held.2 (.inr (by rw [hp]; rfl))) hm
  | lock _ _ | keep _ _ | done _ _ | ack _ _ | acked _ _ =>
    exact .of_same (Sys.core_of_ne hd rfl) fun _ => .refl _
  | accommodate _ _ => exact .of_same (Sys.core_of_ne hd rfl) (Jobs.set_times ⟨rfl, rfl⟩)

theorem OfferStep.elsewhere (hs : OfferStep cfg c S S') (hi : Inv S) (hd : d ≠ c) :
    Elsewhere S S' c d := by
  cases hs with
  | exchange _ _ _ _ | withdraw _ | getRef _ _ =>
    exact .of_same (Sys.core_of_ne hd rfl) (Jobs.set_times ⟨rfl, rfl⟩)
  | claim _ | publish _ _ | sendFuture _ _ _ | claimFuture _ | publishFuture _ _ =>
    exact .of_same (Sys.core_of_ne hd rfl) fun _ => .refl _
  | createFuture _ _ hj =>
    have hout := Sys.notMem_of_takeFree (d := d) hi hj
    obtain ⟨-, f, g, rfl⟩ := Sys.takeFree_eq_some hj
    exact .of_job (Sys.core_of_ne hd rfl) rfl hout

theorem RequestStep.elsewhere (hs : RequestStep cfg c S S') (hi : Inv S) (hd : d ≠ c) :
    Elsewhere S S' c d := by
  cases hs with
  | dequeue _ _ | done _ _ | ackClaim _ => exact .of_same (Sys.core_of_ne hd rfl) fun _ => .refl _
  | reject _ | ackPublish _ _ | clear _ =>
    exact .of_same (Sys.core_of_ne hd rfl) (Jobs.set_times ⟨rfl, rfl⟩)
  | @acceptFuture rq hp hidle =>
    have hout : rq.job ∉ S.held := by
      have htk : (S.core c).pc.token c = some (rq.job, rq.fromCore) := by rw [hp]; rfl
      rcases (hi.token rq.job rq.fromCore _ (.core htk)).offer (by rw [hp]; rfl) with ⟨-, hx⟩ | hx
      · exact absurd hidle.1 hx
      · exact hx.2.2
    exact .of_job (Sys.core_of_ne hd rfl) rfl fun hm => hout (Sys.mem_held.2 (.inl ⟨d, hm⟩))
  | @accept rq hp _ hl =>
    have hself : ((S.listDel rq.job).goto c (.procInsert rq)).core c =
        ((S.core c).listDel rq.job).goto (.procInsert rq) := Function.update_self ..
    have hplace : (∃ b, rq.job ∈ (S.core d).queue b) ∨ rq.job ∉ (S.core d).held := by
      by_cases hm : rq.job ∈ (S.core d).held
      · obtain ⟨b, hb⟩ := hi.queued_of_early (Sys.token_of_decide hp) hl.1 hl.2
        rw [← hi.core_unique hm (Core.mem_held_of_placed (Core.mem_placed_of_queue hb))]
        exact .inl ⟨b, hb⟩
      · exact .inr hm
    have htimes : ∀ i, (S.job i).SameTimes (S.job.set rq.job (S.job rq.job).unlink i) :=
      Jobs.set_times ⟨rfl, rfl⟩
    exact ⟨.inr ⟨rq, hp, by rw [hself, Core.goto_pc], hplace, Function.update_of_ne hd ..⟩,
      fun i _ => htimes i⟩
  | @putReject rq _ =>
    obtain ⟨f, g, he⟩ := (S.goto c .process).putJobRef_eq (some c) rq.job
    rw [he]
    exact .of_same (Sys.core_of_ne hd rfl) (Jobs.set_times ⟨rfl, rfl⟩)
  | @putAccept rq _ =>
    let T := (S.setJob rq.job { S.job rq.job with
      nextMigrationEligibleTick := S.systemTime + jobMigrationCooldownTicks }).goto c .process
    obtain ⟨f, g, he⟩ := T.putJobRef_eq (some c) rq.job
    have hT : T.job rq.job = _ := Jobs.set_self ..
    rw [he]
    refine .of_same (Sys.core_of_ne hd rfl) ?_
    show ∀ i, (S.job i).SameTimes ((T.job.set rq.job _) i)
    rw [hT, show T.job = S.job.set rq.job _ from rfl, Jobs.set_set]
    exact Jobs.set_times ⟨rfl, rfl⟩

theorem CoreStep.elsewhere (hs : CoreStep cfg c S S') (hi : Inv S) (hd : d ≠ c) :
    Elsewhere S S' c d := by
  cases hs with
  | own hs he =>
    have hspec := hs.spec (hi.ok c) (hi.core_nodup c)
    rw [he]
    refine ⟨.inl (Function.update_of_ne hd ..), fun i hm => ?_⟩
    have hout : i ∉ (S.core c).held := fun hc => hd (hi.core_unique hc hm)
    have hrec := hspec.frame i hout
    exact ⟨congrArg (·.virtualDeadline) hrec, congrArg (·.arrivalTime) hrec⟩
  | arrive hs => exact hs.elsewhere hi hd
  | discard hs => exact hs.elsewhere hi hd
  | offer hs => exact hs.elsewhere hi hd
  | request hs => exact hs.elsewhere hi hd

namespace Elsewhere

theorem pc (h : Elsewhere S S' c d) : (S'.core d).pc = (S.core d).pc := by
  rcases h.core with he | ⟨rq, -, -, -, he⟩ <;> rw [he]
  rfl

theorem runningJob (h : Elsewhere S S' c d) : (S'.core d).runningJob = (S.core d).runningJob := by
  rcases h.core with he | ⟨rq, -, -, -, he⟩ <;> rw [he]
  rfl

theorem queue (h : Elsewhere S S' c d) (b : Bool) :
    ((S'.core d).queue b).Sublist ((S.core d).queue b) := by
  rcases h.core with he | ⟨rq, -, -, -, he⟩
  · rw [he]
  · rw [he, Core.queue_listDel]
    exact List.erase_sublist

theorem first (h : Elsewhere S S' c d) (hj : j ∈ (S.core d).held) (hf : (S.core d).Earliest S.job j) :
    (S'.core d).Earliest S'.job j := by
  intro b i hi
  have hi' := (h.queue b).subset hi
  rw [(h.times j hj).deadline,
    (h.times i (Core.mem_held_of_placed (Core.mem_placed_of_queue hi'))).deadline]
  exact hf b i hi'

theorem chosen (h : Elsewhere S S' c d) (hc : (S.core d).Chosen S.job) : (S'.core d).Chosen S'.job := by
  have hrun : ∀ {r}, (S.core d).runningJob = some r → r ∈ (S.core d).held := fun hr =>
    Core.mem_held_of_placed (Core.mem_placed.2 (.inr (.inr (.inr (.inr hr)))))
  have hhand : ∀ {j}, (S.core d).pc = .dispatch j → j ∈ (S.core d).held := fun hp =>
    Core.mem_held.2 (.inr (by rw [hp]; rfl))
  refine ⟨fun j hp => ?_, fun j hp r hr => ?_, fun hp => ⟨fun hidle b => ?_, fun r hr => ?_⟩⟩
  · rw [h.pc] at hp
    exact h.first (hhand hp) (hc.first j hp)
  · rw [h.pc] at hp
    rw [h.runningJob] at hr
    rw [vdOf, vdOf, (h.times j (hhand hp)).deadline, (h.times r (hrun hr)).deadline]
    exact hc.before j hp r hr
  · rw [h.pc] at hp
    rw [h.runningJob] at hidle
    have hsub := h.queue b
    rw [(hc.done hp).idle hidle b] at hsub
    exact List.sublist_nil.1 hsub
  · rw [h.pc] at hp
    rw [h.runningJob] at hr
    exact h.first (hrun hr) ((hc.done hp).first r hr)

/-- The jobs of the core stay, but for one that the other core takes. -/
theorem held (h : Elsewhere S S' c d) (hn : (S.core d).held.Nodup) :
    (S'.core d).held = (S.core d).held ∨ ∃ rq : MigrationRequest n,
      (S.core c).pc = .procDecide rq ∧ (S'.core c).pc = .procInsert rq ∧
        (S.core d).held = rq.job ::ₘ (S'.core d).held := by
  rcases h.core with he | ⟨rq, hp, hp', ⟨b, hb⟩ | hout, he⟩
  · exact .inl (by rw [he])
  · refine .inr ⟨rq, hp, hp', ?_⟩
    rw [he]
    exact Core.held_listDel hn hb
  · refine .inl ?_
    rw [he, Core.listDel_of_notMem hout]

end Elsewhere

/-! ## Runs -/

theorem PutStep.pc_chosen (hs : PutStep K j K') : K'.pc.chosen = false := by
  cases hs <;> rfl

theorem CoreStep.chosen (hs : CoreStep cfg c S S') (hi : Inv S) (h : (S.core c).Chosen S.job) :
    (S'.core c).Chosen S'.job := by
  have hself : ∀ {K : Core n} {T : Sys n}, T.core = Function.update S.core c K → T.core c = K := by
    intro K T hT
    rw [hT, Function.update_self]
  have hpc : ∀ {K : Core n} {T : Sys n}, T.core = Function.update S.core c K → K.pc.chosen = false →
      (T.core c).Chosen T.job := by
    intro K T hT hK
    refine .of_pc ?_
    rw [hself hT]
    exact hK
  cases hs with
  | own hs he =>
    rw [he]
    show (Function.update S.core c _ c).Chosen _
    rw [Function.update_self]
    exact hs.chosen (hi.ok c) (hi.core_nodup c) h
  | arrive hs =>
    cases hs with
    | @put j K' hp =>
      obtain ⟨f, g, he⟩ := (S.setCore c K').putJobRef_eq (some c) j
      rw [he]
      exact hpc rfl hp.pc_chosen
    | create _ _ _ hj =>
      obtain ⟨-, f, g, rfl⟩ := Sys.takeFree_eq_some hj
      exact hpc rfl rfl
    | _ => exact hpc rfl rfl
  | discard hs =>
    cases hs with
    | done _ _ =>
      refine hpc rfl ?_
      rw [Core.goto_pc]
      split_ifs <;> rfl
    | ack hp _ =>
      refine hpc rfl ?_
      show (S.core c).pc.chosen = false
      rw [hp]
      rfl
    | _ => exact hpc rfl rfl
  | offer hs =>
    cases hs with
    | createFuture _ _ hj =>
      obtain ⟨-, f, g, rfl⟩ := Sys.takeFree_eq_some hj
      exact hpc rfl rfl
    | _ => exact hpc rfl rfl
  | request hs =>
    cases hs with
    | @accept rq _ _ _ =>
      refine .of_pc ?_
      show (Function.update (fun d => (S.core d).listDel rq.job) c _ c).pc.chosen = false
      rw [Function.update_self]
      rfl
    | @putReject rq _ =>
      obtain ⟨f, g, he⟩ := (S.goto c .process).putJobRef_eq (some c) rq.job
      rw [he]
      exact hpc rfl rfl
    | @putAccept rq _ =>
      obtain ⟨f, g, he⟩ := ((S.setJob rq.job { S.job rq.job with
        nextMigrationEligibleTick := S.systemTime + jobMigrationCooldownTicks }).goto c
          .process).putJobRef_eq (some c) rq.job
      rw [he]
      exact hpc rfl rfl
    | _ => exact hpc rfl rfl

/-- The timer leaves the cores as they are, or sends all of them to the start of
    their ticks. -/
theorem TimerStep.cores (hs : TimerStep cfg S S') (hi : Inv S) :
    (∀ d, S'.core d = S.core d ∨ (S.core d).pc = .arrived ∧ S'.core d = (S.core d).goto .start) ∧
      ∀ i, (S.job i).SameTimes (S'.job i) := by
  cases hs with
  | sweep _ _ | keep _ _ _ => exact ⟨fun _ => .inl rfl, fun _ => .refl _⟩
  | expire _ _ _ => exact ⟨fun _ => .inl rfl, Jobs.set_times ⟨rfl, rfl⟩⟩
  | @put k j _ =>
    obtain ⟨f, g, he⟩ := { S with timer := .sweep k }.putJobRef_eq none j
    rw [he]
    exact ⟨fun _ => .inl rfl, Jobs.set_times ⟨rfl, rfl⟩⟩
  | advance hp _ _ _ =>
    exact ⟨fun d => .inr ⟨hi.timer (by rw [hp]; nofun) d, rfl⟩, fun _ => .refl _⟩

theorem Step.chosen {a : Label n} (hs : Step cfg S a S') (hi : Inv S)
    (h : ∀ d, (S.core d).Chosen S.job) (d : Fin n) : (S'.core d).Chosen S'.job := by
  cases hs with
  | @core c _ _ hs =>
    by_cases hd : d = c
    · rw [hd]
      exact hs.chosen hi (h c)
    · exact (hs.elsewhere hi hd).chosen (h d)
  | timer hs =>
    obtain ⟨hcores, htimes⟩ := hs.cores hi
    rcases hcores d with hcore | ⟨-, hcore⟩
    · exact Elsewhere.chosen (c := d) (.of_same hcore htimes) (h d)
    · rw [hcore]
      exact .of_pc rfl

theorem Reachable.chosen (h : Reachable cfg S) (c : Fin n) : (S.core c).Chosen S.job := by
  refine (@Lts.Reachable.invariant _ _ _ _ _ (fun T : Sys n => Inv T ∧ ∀ c, (T.core c).Chosen T.job) h
    ⟨Inv.init, fun _ => .of_pc rfl⟩ ?_).2 c
  rintro T a T' ⟨hi, hchosen⟩ hs
  exact ⟨hs.inv hi, hs.chosen hi hchosen⟩

/-! ## The phase -/

/-- The core is in `select_next_job`, or about to call `dispatch_job`. -/
def Pc.choosing : Pc n → Bool
  | .select | .dispatch _ => true
  | _ => false

theorem Pc.choosing_eq {q q' : Pc n} (h : q = q') (hq : q'.choosing = false) : q.choosing = false :=
  h ▸ hq

theorem LocalStep.of_choosing (hs : LocalStep X K J K' J') (hp : K.pc.choosing = true) :
    DispatchStep K J K' J' := by
  have hno : K.pc.choosing ≠ false := by
    rw [hp]
    exact Bool.noConfusion
  cases hs with
  | dispatch hs => exact hs
  | cancel hs => exact absurd (by cases hs <;> exact Pc.choosing_eq ‹K.pc = _› rfl) hno
  | sync hs => exact absurd (by cases hs <;> exact Pc.choosing_eq ‹K.pc = _› rfl) hno
  | run hs => exact absurd (by cases hs <;> exact Pc.choosing_eq ‹K.pc = _› rfl) hno
  | arrival hs => exact absurd (by cases hs <;> exact Pc.choosing_eq ‹K.pc = _› rfl) hno
  | reclaim hs => exact absurd (by cases hs <;> exact Pc.choosing_eq ‹K.pc = _› rfl) hno
  | push hs => exact absurd (by cases hs <;> exact Pc.choosing_eq ‹K.pc = _› rfl) hno
  | process hs => exact absurd (by cases hs <;> exact Pc.choosing_eq ‹K.pc = _› rfl) hno
  | power hs => exact absurd (by cases hs <;> exact Pc.choosing_eq ‹K.pc = _› rfl) hno

theorem CoreStep.of_choosing (hs : CoreStep cfg c S S') (hp : (S.core c).pc.choosing = true) :
    ∃ K' J', DispatchStep (S.core c) S.job K' J' ∧ S' = { S.setCore c K' with job := J' } := by
  have hno : (S.core c).pc.choosing ≠ false := by
    rw [hp]
    exact Bool.noConfusion
  cases hs with
  | own hs he => exact ⟨_, _, hs.of_choosing hp, he⟩
  | arrive hs =>
    cases hs with
    | put hs => exact absurd (by cases hs <;> exact Pc.choosing_eq ‹(S.core c).pc = _› rfl) hno
    | _ => exact absurd (Pc.choosing_eq ‹(S.core c).pc = _› rfl) hno
  | discard hs => exact absurd (by cases hs <;> exact Pc.choosing_eq ‹(S.core c).pc = _› rfl) hno
  | offer hs => exact absurd (by cases hs <;> exact Pc.choosing_eq ‹(S.core c).pc = _› rfl) hno
  | request hs => exact absurd (by cases hs <;> exact Pc.choosing_eq ‹(S.core c).pc = _› rfl) hno

/-- The running job `before` runs on, or gave way to one with an earlier deadline. -/
def Core.GaveWay (K : Core n) (J : Jobs n) (before : Option (JobId n)) : Prop :=
  ∀ r, before = some r → K.runningJob = some r ∨ ∃ i, K.runningJob = some i ∧ vdOf J i < vdOf J r

/-- What a step of the core does in this phase. -/
theorem DispatchStep.gaveWay (hs : DispatchStep K J K' J') (hn : K.held.Nodup) (h : K.Chosen J) :
    (K'.pc.choosing = true ∧ K'.runningJob = K.runningJob) ∨
      (K'.pc = .dispatched ∧ K'.GaveWay J' K.runningJob) := by
  cases hs with
  | none _ _ | nothing _ _ _ _ => exact .inr ⟨rfl, fun r hr => .inl hr⟩
  | pop _ _ _ _ => exact .inl ⟨rfl, K.setQueue_runningJob ..⟩
  | start _ hr =>
    refine .inr ⟨rfl, fun r hr' => ?_⟩
    rw [hr] at hr'
    cases hr'
  | @switch j r hp hr =>
    refine .inr ⟨rfl, fun r' hr' => .inr ⟨j, rfl, ?_⟩⟩
    obtain rfl := Option.some.inj (hr.symm.trans hr')
    have hne : j ≠ r := by
      rintro rfl
      refine Core.notMem_placed hn (by rw [hp]; rfl) (Core.mem_placed.2 ?_)
      exact .inr (.inr (.inr (.inr hr)))
    have hr₁ : J.set r { (J r).link with state := .ready } r = { (J r).link with state := .ready } :=
      Jobs.set_self ..
    rw [vdOf, vdOf, Jobs.set_self, Jobs.set_ne _ _ hne.symm, hr₁]
    exact h.before j hp r hr

/-- In transition `x` a core other than `c` accepts a request for job `j`. -/
def Takes (c : Fin n) (x : Trans (Sys n) (Label n)) (j : JobId n) : Prop :=
  ∃ d ≠ c, ∃ rq : MigrationRequest n, rq.job = j ∧
    (x.pre.core d).pc = .procDecide rq ∧ (x.post.core d).pc = .procInsert rq

/-- A run in which core `c` chooses its next job, while the other cores and the
    timer do what they do. -/
structure ChoosingRun (cfg : Config) (c : Fin n) (S : Sys n) (tr : List (Trans (Sys n) (Label n)))
    (S' : Sys n) : Prop where
  start : (S.core c).pc = .select
  run : Exec (Step cfg) S tr S'
  during : ∀ x ∈ tr, (x.pre.core c).pc.choosing = true

/-- What holds in such a run. -/
structure ChoosingInv (c : Fin n) (S : Sys n) (tr : List (Trans (Sys n) (Label n))) (S' : Sys n) :
    Prop where
  jobs : ∃ taken : Multiset (JobId n), (S.core c).held = taken + (S'.core c).held ∧
    ∀ j ∈ taken, ∃ x ∈ tr, Takes c x j
  running : ((S'.core c).pc.choosing = true ∧ (S'.core c).runningJob = (S.core c).runningJob) ∨
    ((S'.core c).pc = .dispatched ∧ (S'.core c).GaveWay S'.job (S.core c).runningJob)

theorem ChoosingRun.inv {tr : List (Trans (Sys n) (Label n))} (h : ChoosingRun cfg c S tr S')
    (hreach : Reachable cfg S) : ChoosingInv c S tr S' := by
  obtain ⟨hstart, hrun, hduring⟩ := h
  induction hrun with
  | nil =>
    refine ⟨⟨0, (zero_add _).symm, fun j hj => absurd hj (Multiset.notMem_zero j)⟩, .inl ⟨?_, rfl⟩⟩
    rw [hstart]
    rfl
  | @snoc tr T a U hrun hs ih =>
    obtain ⟨⟨taken, htaken, hby⟩, hrunning⟩ := ih fun x hx => hduring x (List.mem_append_left _ hx)
    have hchoosing := hduring ⟨T, a, U⟩ (List.mem_append_right _ (List.mem_singleton_self _))
    have hsame : (T.core c).runningJob = (S.core c).runningJob := by
      rcases hrunning with ⟨-, hsame⟩ | ⟨hp, -⟩
      · exact hsame
      · rw [hp] at hchoosing
        cases hchoosing
    have hT : Reachable cfg T := by
      obtain ⟨tr₀, h₀⟩ := hreach
      exact ⟨_, h₀.append hrun⟩
    have hold : ∀ j ∈ taken, ∃ x ∈ tr ++ [⟨T, a, U⟩], Takes c x j := by
      intro j hj
      obtain ⟨x, hx, htakes⟩ := hby j hj
      exact ⟨x, List.mem_append_left _ hx, htakes⟩
    cases hs with
    | @core d _ _ hs =>
      by_cases hd : d = c
      · subst hd
        obtain ⟨K', J', hstep, rfl⟩ := hs.of_choosing hchoosing
        have hself : ({ T.setCore d K' with job := J' } : Sys n).core d = K' := Function.update_self ..
        have hspec := hstep.spec (c := d) (hT.inv.ok d) (hT.inv.core_nodup d)
        refine ⟨⟨taken, ?_, hold⟩, ?_⟩
        · rw [hself, hspec.held]
          exact htaken
        · rw [hself, ← hsame]
          exact hstep.gaveWay (hT.inv.core_nodup d) (hT.chosen d)
      · have helse := hs.elsewhere (d := c) hT.inv (Ne.symm hd)
        refine ⟨?_, .inl ⟨?_, helse.runningJob.trans hsame⟩⟩
        · rcases helse.held (hT.inv.core_nodup c) with heq | ⟨rq, hp, hp', hcons⟩
          · exact ⟨taken, by rw [heq]; exact htaken, hold⟩
          · refine ⟨rq.job ::ₘ taken, ?_, fun j hj => ?_⟩
            · rw [htaken, hcons, Multiset.add_cons, Multiset.cons_add]
            · rcases Multiset.mem_cons.1 hj with rfl | hj
              · exact ⟨_, List.mem_append_right _ (List.mem_singleton_self _), d, hd, rq, rfl, hp, hp'⟩
              · exact hold j hj
        · rw [helse.pc]
          exact hchoosing
    | timer hs =>
      rcases (hs.cores hT.inv).1 c with hcore | ⟨hp, -⟩
      · refine ⟨⟨taken, ?_, hold⟩, .inl ?_⟩
        · rw [hcore]
          exact htaken
        · rw [hcore]
          exact ⟨hchoosing, hsame⟩
      · rw [hp] at hchoosing
        cases hchoosing

/-- **Earliest virtual deadline first.** In every reachable state the queues of
    each core are in order, each job has at most one place, and after the choice
    of a job the core runs the earliest one.  While a core chooses, it loses a job
    only to a core that accepts a request for it, and the running job gives way
    only to one with an earlier deadline. -/
theorem edf_order (h : Reachable cfg S) (c : Fin n) :
    (S.core c).InOrder S.job ∧ (S.core c).held.Nodup ∧
    ((S.core c).pc = .dispatched → (S.core c).EarliestFirst S.job) ∧
    ∀ tr S', ChoosingRun cfg c S tr S' → (S'.core c).pc = .dispatched →
      (S'.core c).EarliestFirst S'.job ∧
      (∃ taken : Multiset (JobId n), (S.core c).held = taken + (S'.core c).held ∧
        ∀ j ∈ taken, ∃ x ∈ tr, Takes c x j) ∧
      (S'.core c).GaveWay S'.job (S.core c).runningJob := by
  refine ⟨(h.inv.ok c).inOrder, h.inv.core_nodup c, (h.chosen c).done, fun tr S' hrun hp => ?_⟩
  have hS' : Reachable cfg S' := by
    obtain ⟨tr₀, h₀⟩ := h
    exact ⟨_, h₀.append hrun.run⟩
  have hinv := hrun.inv h
  refine ⟨(hS'.chosen c).done hp, hinv.jobs, ?_⟩
  rcases hinv.running with ⟨hchoosing, -⟩ | ⟨-, hgave⟩
  · rw [hp] at hchoosing
    cases hchoosing
  · exact hgave

/-- A core that runs nothing chooses the first job of its ready queue. -/
theorem PairRun.choosing {cfg : Config} {P : Sys 2 → Label 2 → Prop} {start : Sys 2} {time : ℕ} {J : Jobs 2}
    {f q a o} {c : Fin 2} {K L : Core 2} {j : JobId 2} {l : List (JobId 2)}
    (h : PairRun cfg P start time J f q a o c (K.goto .select) L) (hq : K.readyQueue = j :: l)
    (hr : K.replicaQueue = []) (hrun : K.runningJob = none) (hk : (J j).isReplica = false) :
    ∃ tr, ChoosingRun cfg c (pairSys time J f q a o c (K.goto .select) L) tr
      (pairSys time (J.set j { (J j).unlink with state := .running }) f q a o c
        ({ K with
            readyQueue := l
            runningJob := some j
            isIdle := false
            decisionPoint := true }.goto .dispatched) L) := by
  obtain ⟨hpop, hstart⟩ := Core.dispatch_steps hq hr hrun hk
  refine ⟨_, congrArg Core.pc pairSys_core, (Exec.nil.snoc (h.step (PairRun.local_step hpop))).snoc
    ((h.own rfl hpop).step (PairRun.local_step hstart)),
    fun x hx => ?_⟩
  rcases List.mem_append.1 hx with hx | hx
  · rw [List.mem_singleton.1 hx]
    exact congrArg (fun K => K.pc.choosing) pairSys_core
  · rw [List.mem_singleton.1 hx]
    exact congrArg (fun K => K.pc.choosing) pairSys_core

/-- Core 0 chooses among two jobs, with virtual deadlines 10 and 1000. -/
theorem edf_order_queued : ∃ (S S' : Sys 2) (tr : List (Trans (Sys 2) (Label 2))) (i j : JobId 2),
    Reachable (handConfig 10 5) S ∧ (S.core 0).readyQueue = [i, j] ∧
    vdOf S.job i = 10 ∧ vdOf S.job j = 1000 ∧ (S.core 0).InOrder S.job ∧
    ChoosingRun (handConfig 10 5) 0 S tr S' ∧ (S'.core 0).runningJob = some i ∧
    (S'.core 0).readyQueue = [j] ∧ (S'.core 0).EarliestFirst S'.job ∧
    ∃ taken : Multiset (JobId 2), (S.core 0).held = taken + (S'.core 0).held ∧
      ∀ k ∈ taken, ∃ x ∈ tr, Takes 0 x k := by
  obtain ⟨J, f, i, j, -, -, h, -, -, -, -, -, hi, hj⟩ :=
    HandRun.queued 5 .top (show 0 < 10 by decide) (by decide)
  obtain ⟨tr, hchoosing⟩ := h.choosing rfl rfl rfl (by rw [hi]; rfl)
  obtain ⟨tr₀, hrun, -⟩ := h.run
  obtain ⟨hin, -, -, hdone⟩ := edf_order ⟨tr₀, hrun⟩ 0
  obtain ⟨hfirst, htaken, -⟩ := hdone _ _ hchoosing (congrArg Core.pc pairSys_core)
  refine ⟨_, _, tr, i, j, ⟨tr₀, hrun⟩, congrArg Core.readyQueue pairSys_core, ?_, ?_, hin, hchoosing,
    congrArg Core.runningJob pairSys_core, congrArg Core.readyQueue pairSys_core, hfirst, htaken⟩
  · exact congrArg (fun r => r.virtualDeadline) hi
  · exact congrArg (fun r => r.virtualDeadline) hj

end EeftSched

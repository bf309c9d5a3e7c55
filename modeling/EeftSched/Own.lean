/-
  The steps of a core that touch only its own data keep its invariant.

  * `LocalSpec`: what such a step does, as far as the other cores can tell: the
    core has the same jobs as before, records of other jobs are untouched, no
    reference and no offer changes;
  * `LocalStep.spec`: every local step is one.
-/
import EeftSched.Held

namespace EeftSched

open SortedQueue

variable {n : ℕ} {K K' : Core n} {J J' : Jobs n} {j : JobId n} {r : JobRec} {c : Fin n}

/-- The job of the request a core is building or processing, and the one core
    that may have a place for it. -/
def Pc.token (c : Fin n) : Pc n → Option (JobId n × Fin n)
  | .offerClaim j _ _ _ | .futureClaim j _ _ => some (j, c)
  | .procLock1 r | .procLock2 r | .procDecide r | .procReject r => some (r.job, r.fromCore)
  | .procInsert r | .procClear r | .procPut r => some (r.job, c)
  | _ => none

/-- The request of the core is not decided yet. -/
def Pc.isEarly : Pc n → Bool
  | .offerClaim .. | .futureClaim .. | .procLock1 _ | .procLock2 _ | .procDecide _ => true
  | _ => false

/-- The ticket a core holds in the request queue, or the ack queue, of a core -/
def Pc.ticket : Pc n → Option (Fin n × ℕ)
  | .offerPublish d t _ _ | .futurePublish d t _ => some (d, t)
  | .procAckPublish r t => some (r.fromCore, t)
  | _ => none

/-- The job a core is about to make a request for -/
def Pc.target : Pc n → Option (JobId n)
  | .offerTarget j _ _ | .futureHand j _ => some j
  | _ => none

/-- The pending job whose ack is on its way -/
def Pc.acks : Pc n → Option (JobId n)
  | .procAckClaim r | .procAckPublish r _ => some r.job
  | _ => none

/-- What the other cores can tell from the point a core is at, its locks apart -/
def Pc.outside (c : Fin n) (q : Pc n) :
    Option (JobId n) × Option (JobId n) × Option (JobId n × Fin n) × Bool × Option (Fin n × ℕ) :=
  (q.target, q.acks, q.token c, q.isEarly, q.ticket)

/-- The job in the hands of the core, and the one whose offer it clears -/
def Pc.inside (q : Pc n) : Option (JobId n) × Option (JobId n) := (q.hand, q.clears)

/-- What the other cores can tell of the move of a core -/
structure Pc.Own (c : Fin n) (q q' : Pc n) : Prop where
  start : q ≠ .arrived
  target : q'.target = none
  acks : q'.acks = none
  token : q'.token c = q.token c
  early : q'.isEarly = q.isEarly
  holds : ∀ l ∈ q'.holds c, l ∈ q.holds c ∨ q.wants c = some l
  ticket : q'.ticket = none

/-- A move from one point where the hands are empty to another -/
structure Pc.Moves (c : Fin n) (q q' : Pc n) : Prop where
  hand : q.hand = none
  hand' : q'.hand = none
  clears : q.clears = none
  clears' : q'.clears = none
  own : Own c q q'

attribute [local simp] Pc.holds Pc.wants

theorem Pc.Own.of {p q q' : Pc n} (h : q = p) (hs : p ≠ .arrived)
    (ho : q'.outside c = (none, none, p.token c, p.isEarly, none))
    (hl : ∀ l ∈ q'.holds c, l ∈ p.holds c ∨ p.wants c = some l) : Own c q q' := by
  subst h
  simp only [outside, Prod.mk.injEq] at ho
  obtain ⟨ht, ha, hk, he, hc⟩ := ho
  exact ⟨hs, ht, ha, hk, he, hl, hc⟩

theorem Pc.Moves.of {p q q' : Pc n} (h : q = p) (hp : p.inside = (none, none))
    (hq : q'.inside = (none, none)) (hs : p ≠ .arrived)
    (ho : q'.outside c = (none, none, p.token c, p.isEarly, none))
    (hl : ∀ l ∈ q'.holds c, l ∈ p.holds c ∨ p.wants c = some l) : Moves c q q' := by
  have hown := Own.of h hs ho hl
  subst h
  simp only [inside, Prod.mk.injEq] at hp hq
  exact ⟨hp.1, hq.1, hp.2, hq.2, hown⟩

/-- **What a local step does.** -/
structure LocalSpec (c : Fin n) (K : Core n) (J : Jobs n) (K' : Core n) (J' : Jobs n) : Prop where
  held : K'.held = K.held
  frame : ∀ j ∉ K.held, J' j = J j
  kept : ∀ j, (J j).Kept (J' j)
  ok : K'.Ok J'
  own : Pc.Own c K.pc K'.pc

/-! ## Ways to move a job -/

theorem Pc.ne_completePut {q : Pc n} (h : q.hand = none) (j : JobId n) : q ≠ .completePut j := by
  rintro rfl
  cases h

namespace Core.Ok

theorem isIdle_eq (hK : K.Ok J) (h : K.pc.hand = none) : K.isIdle = K.runningJob.isNone :=
  hK.idle (Pc.ne_completePut h)

/-- The lists stay as they are, and the hands are empty afterwards. -/
theorem still (hK : K.Ok J) (hq : ∀ b, K'.queue b = K.queue b) (hd : K'.discardList = K.discardList)
    (hp : K'.pendingJobsQueue = K.pendingJobsQueue) (hr : K'.runningJob = K.runningJob)
    (h' : K'.pc.hand = none) (hc : K'.pc.clears = K.pc.clears)
    (hx : K'.pc = .complete → K'.runningJob ≠ none) (hi : K'.isIdle = K'.runningJob.isNone) :
    K'.Ok J := by
  refine ⟨?_, ?_, fun _ => hi, hx, fun j he => absurd he (Pc.ne_completePut h' j)⟩
  · rw [hc]
    exact hK.queues.congr hq hd hp hr
  · intro i hi
    rw [h'] at hi
    cases hi

end Core.Ok

namespace LocalSpec

/-- The step moves jobs between the lists of the core. -/
theorem of_placed (hs : PlacedSpec K J none K' J') (hm : Pc.Moves c K.pc K'.pc)
    (hi : K'.isIdle = K'.runningJob.isNone)
    (hc : K'.pc = .complete → K'.runningJob ≠ none) : LocalSpec c K J K' J' := by
  have hheld : K'.held = K.held := by
    rw [Core.held_eq, Core.held_eq, hm.hand, hm.hand', hs.placed]
  refine ⟨hheld, ?_, hs.kept, ⟨?_, ?_, fun _ => hi, hc, ?_⟩, hm.own⟩
  · intro j hj
    exact hs.frame j fun hp => hj (Core.mem_held_of_placed hp)
  · rw [hm.clears']
    exact hs.queues
  · intro j hj
    rw [hm.hand'] at hj
    cases hj
  · intro j hj
    exact absurd hj (Pc.ne_completePut hm.hand' j)

/-- The step changes a record in what the queues do not depend on. -/
theorem touch (hK : K.Ok J) (hq : ∀ b, K'.queue b = K.queue b) (hd : K'.discardList = K.discardList)
    (hp : K'.pendingJobsQueue = K.pendingJobsQueue) (hr : K'.runningJob = K.runningJob)
    (hi : K'.isIdle = K.isIdle) (hm : Pc.Moves c K.pc K'.pc) (hj : j ∈ K.placed)
    (ha : (J j).Alike r) (hk : (J j).Kept r)
    (hc : K'.pc = .complete → K'.runningJob ≠ none) :
    LocalSpec c K J K' (J.set j r) := by
  have halike : ∀ i, (J i).Alike (J.set j r i) := by
    intro i
    by_cases h : i = j
    · rw [h, Jobs.set_self]
      exact ha
    · rw [Jobs.set_ne J r h]
  have hpl := Core.placed_congr hq hd hp hr
  refine of_placed ⟨?_, hpl, ?_, Jobs.set_kept hk⟩ hm ?_ hc
  · rw [← hm.clears]
    refine hK.queues.mono (fun b => by rw [hq b]) (by rw [hd]) (by rw [hp])
      (fun j => by rw [hr]; exact id) (fun i _ => halike i) ?_
    intro i _ ho
    rw [Jobs.set_field (·.isBeingOffered) hk.offer] at ho
    exact ho
  · intro i hi
    refine Jobs.set_ne J r ?_
    rintro rfl
    exact hi hj
  · rw [hi, hr]
    exact hK.isIdle_eq hm.hand

/-- The step leaves the lists as they are. -/
theorem still (hK : K.Ok J) (hq : ∀ b, K'.queue b = K.queue b) (hd : K'.discardList = K.discardList)
    (hp : K'.pendingJobsQueue = K.pendingJobsQueue) (hr : K'.runningJob = K.runningJob)
    (hi : K'.isIdle = K.isIdle) (hm : Pc.Moves c K.pc K'.pc)
    (hc : K'.pc = .complete → K'.runningJob ≠ none) : LocalSpec c K J K' J := by
  have hpl := Core.placed_congr hq hd hp hr
  refine of_placed ⟨?_, hpl, fun _ _ => rfl, fun _ => .refl _⟩ hm ?_ hc
  · rw [← hm.clears]
    exact hK.queues.congr hq hd hp hr
  · rw [hi, hr]
    exact hK.isIdle_eq hm.hand

theorem goto (hK : K.Ok J) {q : Pc n} (hm : Pc.Moves c K.pc q)
    (hc : q = .complete → K.runningJob ≠ none) : LocalSpec c K J (K.goto q) J :=
  still hK (fun _ => rfl) rfl rfl rfl rfl hm hc

/-- A job leaves its place for the hands of the core. -/
theorem take (hK : K.Ok J) (hn : K.held.Nodup) (h : K.pc.hand = none) (hc : K.pc.clears = none)
    (h' : K'.pc.hand = some j) (hc' : K'.pc.clears = none) (hp : K.placed = j ::ₘ K'.placed)
    (hq : ∀ b, (K'.queue b).Sublist (K.queue b)) (hd : K'.discardList.Sublist K.discardList)
    (hpe : K'.pendingJobsQueue.Sublist K.pendingJobsQueue)
    (hr : ∀ j, K'.runningJob = some j → K.runningJob = some j)
    (hi : (∀ i, K'.pc ≠ .completePut i) → K'.isIdle = K'.runningJob.isNone)
    (hk : (J j).Kept r) (ho : K'.pc.HandOk r)
    (hown : Pc.Own c K.pc K'.pc)
    (hcp : ∀ i, K'.pc = .completePut i → K'.runningJob = none) :
    LocalSpec c K J K' (J.set j r) := by
  have hheld : K'.held = K.held := by
    rw [Core.held_eq, Core.held_eq, h, h', hp]
    simp only [Option.toList_some, Option.toList_none, Multiset.coe_nil, Multiset.coe_singleton,
      add_zero]
    exact add_comm _ _
  refine ⟨hheld, ?_, Jobs.set_kept hk, ⟨?_, ?_, hi, ?_, hcp⟩, hown⟩
  · intro i hi
    refine Jobs.set_ne J r ?_
    rintro rfl
    exact hi (Core.mem_held_of_placed (hp ▸ Multiset.mem_cons_self i _))
  · rw [hc', ← hc]
    exact hK.queues.remove (Core.placed_nodup hn) hp hq hd hpe hr r
  · intro i hi
    rw [h'] at hi
    obtain rfl := Option.some.inj hi
    rw [Jobs.set_self]
    exact ho
  · intro he
    rw [he] at h'
    cases h'

/-- The job in the hands of the core goes to a place. -/
theorem place (h : K.pc.hand = some j) (h' : K'.pc.hand = none)
    (hc : K'.pc ≠ .complete) (hp : K'.placed = j ::ₘ K.placed)
    (hq : K'.Queues (J.set j r) K'.pc.clears) (hi : K'.isIdle = K'.runningJob.isNone)
    (hk : (J j).Kept r) (hown : Pc.Own c K.pc K'.pc) : LocalSpec c K J K' (J.set j r) := by
  have hheld : K'.held = K.held := by
    rw [Core.held_eq, Core.held_eq, h, h', hp]
    simp only [Option.toList_some, Option.toList_none, Multiset.coe_nil, Multiset.coe_singleton,
      add_zero]
    exact add_comm {j} K.placed
  refine ⟨hheld, ?_, Jobs.set_kept hk, ⟨hq, ?_, fun _ => hi, fun he => absurd he hc, fun j he => absurd he (Pc.ne_completePut h' j)⟩,
    hown⟩
  · intro i hi
    refine Jobs.set_ne J r ?_
    rintro rfl
    exact hi (Core.mem_held.2 (.inr h))
  · intro i hi
    rw [h'] at hi
    cases hi

/-- `take`, from a queue -/
theorem takeQueue (hK : K.Ok J) (hn : K.held.Nodup) {b : Bool} {l : List (JobId n)} {q : Pc n}
    (h : K.pc.hand = none) (hc : K.pc.clears = none) (h' : q.hand = some j) (hc' : q.clears = none)
    (hl : (↑(K.queue b) : Multiset (JobId n)) = j ::ₘ ↑l) (hs : l.Sublist (K.queue b))
    (hk : (J j).Kept r) (ho : q.HandOk r) (hown : Pc.Own c K.pc q)
    (hcp : ∀ i, q ≠ .completePut i) :
    LocalSpec c K J ((K.setQueue b l).goto q) (J.set j r) := by
  refine take hK hn h hc h' hc' (Core.placed_queue hl) ?_ ?_ ?_ ?_ ?_ hk ho hown
    fun i he => absurd he (hcp i)
  · intro a
    change ((K.setQueue b l).queue a).Sublist (K.queue a)
    rw [Core.queue_setQueue]
    split
    · rename_i hab
      rw [hab]
      exact hs
    · exact .refl _
  · simp [Core.goto]
  · simp [Core.goto]
  · simp [Core.goto]
  · intro _
    have hi := hK.isIdle_eq h
    simp [Core.goto, hi]

end LocalSpec

/-! ## The steps -/

theorem CancelStep.spec (hs : CancelStep K J K' J') (hK : K.Ok J) (hn : K.held.Nodup) :
    LocalSpec c K J K' J' := by
  cases hs with
  | done h => exact .goto hK (.of h rfl rfl nofun rfl (by simp)) nofun
  | lock h => exact .goto hK (.of h rfl rfl nofun rfl (by simp)) nofun
  | keep h hj hm => exact .goto hK (.of h rfl rfl nofun rfl (by simp)) nofun
  | remove h hj hm =>
    exact .takeQueue hK hn (by rw [h]; rfl) (by rw [h]; rfl) rfl rfl (coe_eraseIdx hj)
      (List.eraseIdx_sublist _ _) ⟨rfl, rfl, rfl, rfl, rfl, nofun⟩ rfl (.of h nofun rfl (by simp)) nofun
  | nextQueue h hj => exact .goto hK (.of h rfl rfl nofun rfl (by simp)) nofun
  | @running msg msgs k j h hk hr hm =>
    refine .take hK hn (by rw [h]; rfl) (by rw [h]; rfl) rfl rfl (Core.placed_running hr)
      (fun _ => .refl _) (.refl _) (.refl _) nofun (fun _ => rfl) ⟨rfl, rfl, rfl, rfl, rfl, nofun⟩ rfl
      (.of h nofun rfl (by simp)) nofun
  | unlock h hk hr => exact .goto hK (.of h rfl rfl nofun rfl (by simp)) nofun

theorem modeChangeSection_runningJob (K : Core n) (J : Jobs n) :
    (modeChangeSection K J).1.runningJob = none := preemptRunning_runningJob K J

theorem modeChangeSection_isIdle (h : K.isIdle = K.runningJob.isNone) :
    (modeChangeSection K J).1.isIdle = true := preemptRunning_isIdle h

theorem SyncStep.spec {X : Ctx n} (hs : SyncStep X K J K' J') (hK : K.Ok J) (hn : K.held.Nodup) :
    LocalSpec c K J K' J' := by
  cases hs with
  | start h => split_ifs <;> exact .goto hK (.of h rfl rfl nofun rfl (by simp)) nofun
  | equal h he => exact .goto hK (.of h rfl rfl nofun rfl (by simp)) nofun
  | differ h he => exact .goto hK (.of h rfl rfl nofun rfl (by simp)) nofun
  | reload h => exact .goto hK (.of h rfl rfl nofun rfl (by simp)) nofun
  | @modeBody overrun h =>
    have hq := hK.queues
    rw [show K.pc.clears = none by rw [h]; rfl] at hq
    have hp := modeChangeSection_spec hq (Core.placed_nodup hn)
    have hi := modeChangeSection_isIdle (J := J) (hK.isIdle_eq (by rw [h]; rfl))
    have hr := modeChangeSection_runningJob K J
    refine .of_placed ⟨hp.queues.goto _, hp.placed, hp.frame, hp.kept⟩ ?_ ?_ ?_
    · split_ifs <;> exact .of h rfl rfl nofun rfl (by simp)
    · change (modeChangeSection K J).1.isIdle = (modeChangeSection K J).1.runningJob.isNone
      rw [hi, hr]
      rfl
    · cases overrun <;> nofun
  | sleep h hl ht => exact .goto hK (.of h rfl rfl nofun rfl (by simp)) nofun
  | wake h hl ht => exact .still hK (fun _ => rfl) rfl rfl rfl rfl (.of h rfl rfl nofun rfl (by simp)) nofun
  | awake h hl => exact .goto hK (.of h rfl rfl nofun rfl (by simp)) nofun

theorem Core.mem_placed_of_running (h : K.runningJob = some j) : j ∈ K.placed :=
  Core.mem_placed.2 (.inr (.inr (.inr (.inr h))))

theorem RunStep.spec {X : Ctx n} (hs : RunStep X K J K' J') (hK : K.Ok J) (hn : K.held.Nodup) :
    LocalSpec c K J K' J' := by
  cases hs with
  | idle h hr => exact .goto hK (.of h rfl rfl nofun rfl (by simp)) nofun
  | miss h hr hm =>
    exact .take hK hn (by rw [h]; rfl) (by rw [h]; rfl) rfl rfl (Core.placed_running hr)
      (fun _ => .refl _) (.refl _) (.refl _) nofun (fun _ => rfl) ⟨rfl, rfl, rfl, rfl, rfl, nofun⟩ rfl
      (.of h nofun rfl (by simp)) nofun
  | @complete j h hr hm hc =>
    exact .touch hK (fun _ => rfl) rfl rfl rfl rfl (.of h rfl rfl nofun rfl (by simp))
      (Core.mem_placed_of_running hr) ⟨rfl, rfl, rfl, rfl, rfl⟩ ⟨rfl, rfl, rfl, rfl, rfl, id⟩
      (fun _ => by simp [hr])
  | overrun h hr hm hc ho =>
    exact .touch hK (fun _ => rfl) rfl rfl rfl rfl (.of h rfl rfl nofun rfl (by simp))
      (Core.mem_placed_of_running hr) ⟨rfl, rfl, rfl, rfl, rfl⟩ ⟨rfl, rfl, rfl, rfl, rfl, id⟩ nofun
  | go h hr hm hc ho =>
    exact .touch hK (fun _ => rfl) rfl rfl rfl rfl (.of h rfl rfl nofun rfl (by simp))
      (Core.mem_placed_of_running hr) ⟨rfl, rfl, rfl, rfl, rfl⟩ ⟨rfl, rfl, rfl, rfl, rfl, id⟩ nofun

theorem Core.placed_addArrival (K : Core n) (J : Jobs n) (j : JobId n) :
    (K.addArrival J j).placed = j ::ₘ K.placed := by
  unfold addArrival
  split_ifs
  · exact placed_addToDiscardList K J j
  · exact placed_addByKind K J j

theorem Core.addArrival_runningJob (K : Core n) (J : Jobs n) (j : JobId n) :
    (K.addArrival J j).runningJob = K.runningJob := by
  unfold addArrival
  split_ifs
  · rfl
  · exact addByKind_runningJob K J j

theorem Core.addArrival_isIdle (K : Core n) (J : Jobs n) (j : JobId n) :
    (K.addArrival J j).isIdle = K.isIdle := by
  unfold addArrival
  split_ifs
  · rfl
  · exact addByKind_isIdle K J j

/-- A job that arrives goes to a place. -/
theorem LocalSpec.arrive (hK : K.Ok J) (hn : K.held.Nodup) {q : Pc n} (h : K.pc.hand = some j)
    (hc : K.pc.clears = none) (ho : (J j).state = .ready ∧ (J j).isBeingOffered = false)
    (hx : ∀ j, K.pc ≠ .completePut j) (h' : q.hand = none) (hc' : q.clears = none)
    (hq' : q ≠ .complete) (hown : Pc.Own c K.pc q) :
    LocalSpec c K J ((K.addArrival J j).goto q) (J.set j (J j).link) := by
  have hj := Core.notMem_placed hn h
  have hq := hK.queues
  rw [hc] at hq
  refine .place h h' hq' (Core.placed_addArrival K J j) ?_ ?_ ⟨rfl, rfl, rfl, rfl, rfl, id⟩ hown
  · change ((K.addArrival J j).goto q).Queues _ q.clears
    rw [hc']
    refine Core.Queues.goto ?_ q
    unfold Core.addArrival
    split_ifs
    · exact hq.insertDiscard hj ⟨ho.1, rfl, fun hf => absurd hf (by simp [JobRec.link, ho.2])⟩ rfl
    · exact (hq.insert hj (r := (J j).link) ⟨ho.1, rfl, rfl⟩ rfl).congr (fun _ => rfl) rfl rfl rfl
  · change (K.addArrival J j).isIdle = (K.addArrival J j).runningJob.isNone
    rw [Core.addArrival_isIdle, Core.addArrival_runningJob]
    exact hK.idle hx

theorem ArrivalStep.spec {X : Ctx n} (hs : ArrivalStep X K J K' J') (hK : K.Ok J)
    (hn : K.held.Nodup) : LocalSpec c K J K' J' := by
  cases hs with
  | pendingEnd h hj => exact .goto hK (.of h rfl rfl nofun rfl (by simp)) nofun
  | missed h hj ht hc => exact .goto hK (.of h rfl rfl nofun rfl (by simp)) nofun
  | @drop k j h hj ht hc =>
    have hp := hK.queues.pending j (List.mem_of_getElem? hj)
    refine .take hK hn (by rw [h]; rfl) (by rw [h]; rfl) rfl rfl ?_ (fun _ => .refl _) (.refl _)
      (List.eraseIdx_sublist _ _) (fun _ => id) (fun _ => hK.isIdle_eq (by rw [h]; rfl))
      ⟨rfl, rfl, rfl, rfl, rfl, id⟩ ⟨hp.state, hp.offer⟩ (.of h nofun rfl (by simp)) nofun
    exact Core.placed_pending (coe_eraseIdx hj)
  | @due k j h hj ht =>
    have hp := hK.queues.pending j (List.mem_of_getElem? hj)
    refine .take hK hn (by rw [h]; rfl) (by rw [h]; rfl) rfl rfl ?_ (fun _ => .refl _) (.refl _)
      (List.eraseIdx_sublist _ _) (fun _ => id) (fun _ => hK.isIdle_eq (by rw [h]; rfl))
      ⟨rfl, ht.symm, rfl, rfl, rfl, nofun⟩ ⟨rfl, hp.offer⟩ (.of h nofun rfl (by simp)) nofun
    exact Core.placed_pending (coe_eraseIdx hj)
  | @pendingIns k j h =>
    have ho := hK.hand j (by rw [h]; rfl)
    rw [h] at ho
    exact .arrive hK hn (by rw [h]; rfl) (by rw [h]; rfl) ho (by rw [h]; nofun) rfl rfl nofun
      (.of h nofun rfl (by simp))
  | allocEnd h => exact .goto hK (.of h rfl rfl nofun rfl (by simp)) nofun
  | allocSkip h hm => exact .goto hK (.of h rfl rfl nofun rfl (by simp)) nofun
  | allocDelegated h hm hd => exact .still hK (fun _ => rfl) rfl rfl rfl rfl (.of h rfl rfl nofun rfl (by simp)) nofun
  | @allocIns j ms h =>
    have ho := hK.hand j (by rw [h]; rfl)
    rw [h] at ho
    exact .arrive hK hn (by rw [h]; rfl) (by rw [h]; rfl) ho (by rw [h]; nofun) rfl rfl nofun
      (.of h nofun rfl (by simp))

theorem ReclaimStep.spec (hs : ReclaimStep K J K' J') (hK : K.Ok J) (hn : K.held.Nodup) :
    LocalSpec c K J K' J' := by
  cases hs with
  | lock h => exact .goto hK (.of h rfl rfl nofun rfl (by simp)) nofun
  | @pop j rest h hd =>
    have ho := hK.queues.discarded j (by rw [hd]; exact List.mem_cons_self)
    refine .take hK hn (by rw [h]; rfl) (by rw [h]; rfl) rfl rfl ?_ (fun _ => .refl _) ?_ (.refl _)
      (fun _ => id) (fun _ => hK.isIdle_eq (by rw [h]; rfl)) ⟨rfl, rfl, rfl, rfl, rfl, id⟩ ⟨ho.state, ?_⟩
      (.of h nofun rfl (by simp)) nofun
    · exact Core.placed_discard (by rw [hd]; rfl)
    · rw [hd]
      exact List.sublist_cons_self j rest
    · cases hf : (J j).isBeingOffered
      · exact hf
      · have := ho.offer hf
        rw [h] at this
        cases this
  | empty h hd => exact .goto hK (.of h rfl rfl nofun rfl (by simp)) nofun
  | @accommodate j h =>
    have ho := hK.hand j (by rw [h]; rfl)
    rw [h] at ho
    have hq := hK.queues
    rw [show K.pc.clears = none by rw [h]; rfl] at hq
    refine .place (by rw [h]; rfl) rfl nofun (Core.placed_addByKind K J j) ?_ ?_
      ⟨rfl, rfl, rfl, rfl, rfl, id⟩ (.of h nofun rfl (by simp))
    · exact (hq.insert (Core.notMem_placed hn (by rw [h]; rfl)) (r := (J j).link) ⟨ho.1, rfl, rfl⟩
        rfl).congr (fun _ => rfl) rfl rfl rfl
    · simpa using hK.idle (by rw [h]; nofun)
  | @leave j h hf =>
    have ho := hK.hand j (by rw [h]; rfl)
    rw [h] at ho
    rw [ho.2] at hf
    cases hf

theorem PushStep.spec {X : Ctx n} (hs : PushStep X K J K' J') (hK : K.Ok J) :
    LocalSpec c K J K' J' := by
  cases hs with
  | skip h => exact .goto hK (.of h rfl rfl nofun rfl (by simp)) nofun
  | go h hi ht => exact .goto hK (.of h rfl rfl nofun rfl (by simp)) nofun
  | future h he => exact .goto hK (.of h rfl rfl nofun rfl (by simp)) nofun
  | shed h he => exact .goto hK (.of h rfl rfl nofun rfl (by simp)) nofun
  | offerLock h => exact .goto hK (.of h rfl rfl nofun rfl (by simp)) nofun
  | nextQueue h hk => exact .goto hK (.of h rfl rfl nofun rfl (by simp)) nofun
  | offerEnd h hk => exact .goto hK (.of h rfl rfl nofun rfl (by simp)) nofun
  | offerSkip h hj => exact .goto hK (.of h rfl rfl nofun rfl (by simp)) nofun
  | offerTaken h hj hf => exact .goto hK (.of h rfl rfl nofun rfl (by simp)) nofun
  | futureEnd h => exact .goto hK (.of h rfl rfl nofun rfl (by simp)) nofun
  | futureSkip h => exact .goto hK (.of h rfl rfl nofun rfl (by simp)) nofun

theorem ProcessStep.spec (hs : ProcessStep c K J K' J') (hK : K.Ok J) (hn : K.held.Nodup) :
    LocalSpec c K J K' J' := by
  have hmax : ∀ d : Fin n, ∀ l, l = c ∨ l = d → l = min c d ∨ max c d = l := by
    intro d l hl
    rcases le_total c d with h | h <;> simp only [h, min_eq_left, min_eq_right, max_eq_left,
      max_eq_right] <;> grind
  cases hs with
  | @lock1 r h =>
    refine .goto hK ?_ (by split_ifs <;> nofun)
    split_ifs with hf
    · exact .of h rfl rfl nofun rfl (by simp [hf])
    · exact .of h rfl rfl nofun rfl (by simp)
  | @lock2 r h =>
    refine .goto hK (.of h rfl rfl nofun rfl ?_) nofun
    simpa using hmax r.fromCore
  | @insertDiscard r h hc =>
    have ho := hK.hand r.job (by rw [h]; rfl)
    rw [h] at ho
    have hj := Core.notMem_placed hn (i := r.job) (by rw [h]; rfl)
    have hq := hK.queues
    rw [show K.pc.clears = none by rw [h]; rfl] at hq
    refine .place (by rw [h]; rfl) rfl nofun (Core.placed_addToDiscardList ..) ?_
      (hK.idle (by rw [h]; nofun)) ⟨rfl, rfl, rfl, rfl, rfl, id⟩ (.of h nofun rfl (by simp))
    have hi := ((hq.offer (some r.job)).set hj ((J r.job).retune K.localCriticalityLevel)).insertDiscard
      (r := ((J r.job).retune K.localCriticalityLevel).link) hj ⟨ho.1, rfl, fun _ => rfl⟩
      (by rw [Jobs.set_self]; rfl)
    rw [Jobs.set_set] at hi
    exact hi.goto _
  | @insert r h hc =>
    have ho := hK.hand r.job (by rw [h]; rfl)
    rw [h] at ho
    have hj := Core.notMem_placed hn (i := r.job) (by rw [h]; rfl)
    have hq := hK.queues
    rw [show K.pc.clears = none by rw [h]; rfl] at hq
    refine .place (by rw [h]; rfl) rfl nofun (Core.placed_addByKind ..) ?_ ?_
      ⟨rfl, rfl, rfl, rfl, rfl, id⟩ (.of h nofun rfl (by simp))
    · have hi := ((hq.offer (some r.job)).set hj ((J r.job).retune K.localCriticalityLevel)).insert
        (r := ((J r.job).retune K.localCriticalityLevel).link) hj
        (by rw [Jobs.set_self]; exact ⟨ho.1, rfl, rfl⟩) (by rw [Jobs.set_self]; rfl)
      rw [Jobs.set_set] at hi
      exact hi.goto _
    · simpa [Core.goto] using hK.idle (by rw [h]; nofun)

/-- The job in the hands of an idle core becomes the running one. -/
theorem LocalSpec.dispatch (hq : K.Queues J none) (hr : K.runningJob = none)
    (h : K.pc = .dispatch j) (hj : j ∉ K.placed) :
    LocalSpec c K J
      { K with runningJob := some j, isIdle := false, decisionPoint := true, pc := .dispatched }
      (J.set j { J j with state := .running }) := by
  refine .place (by rw [h]; rfl) rfl nofun ?_ ?_ rfl ⟨rfl, rfl, rfl, rfl, rfl, nofun⟩
    (.of h nofun rfl (by simp))
  · rw [Core.placed_idle hr]
    exact Core.placed_run rfl
  · exact (hq.set hj _).run (by rw [Jobs.set_self]) _ _ _

/-- First the running job goes back to its queue. -/
theorem LocalSpec.after {K₁ : Core n} {J₁ : Jobs n} (hs : PlacedSpec K J none K₁ J₁)
    (hpc : K₁.pc = K.pc) (h : LocalSpec c K₁ J₁ K' J') : LocalSpec c K J K' J' := by
  have hheld : K₁.held = K.held := by rw [Core.held_eq, Core.held_eq, hs.placed, hpc]
  refine ⟨h.held.trans hheld, ?_, fun j => (hs.kept j).trans (h.kept j), h.ok, hpc ▸ h.own⟩
  intro j hj
  rw [h.frame j (hheld ▸ hj)]
  exact hs.frame j fun hp => hj (Core.mem_held_of_placed hp)

theorem Core.preempt_spec {x : Option (JobId n)} (hq : K.Queues J x) (hn : K.placed.Nodup)
    (hr : K.runningJob = some j) :
    PlacedSpec K J x (K.preempt J j) (J.set j { (J j).link with state := .ready }) := by
  have hs := preemptRunning_spec hq hn
  unfold preemptRunning at hs
  rwa [hr] at hs

theorem DispatchStep.spec (hs : DispatchStep K J K' J') (hK : K.Ok J) (hn : K.held.Nodup) :
    LocalSpec c K J K' J' := by
  have hq := hK.queues
  cases hs with
  | none h hc => exact .goto hK (.of h rfl rfl nofun rfl (by simp)) nofun
  | nothing h hc hb hp => exact .goto hK (.of h rfl rfl nofun rfl (by simp)) nofun
  | @pop j i h hc hb hp =>
    have ho := hq.queued _ i (List.mem_of_mem_head? hp)
    refine .takeQueue hK hn (by rw [h]; rfl) (by rw [h]; rfl) rfl rfl ?_ (List.tail_sublist _)
      ⟨rfl, rfl, rfl, rfl, rfl, id⟩ ⟨ho.state, rfl⟩ (.of h nofun rfl (by simp)) nofun
    rw [Multiset.cons_coe, List.cons_head?_tail hp]
  | @start j h hr =>
    rw [show K.pc.clears = Option.none by rw [h]; rfl] at hq
    exact .dispatch hq hr h (Core.notMem_placed hn (by rw [h]; rfl))
  | @switch j i h hr =>
    rw [show K.pc.clears = Option.none by rw [h]; rfl] at hq
    have hj := Core.notMem_placed hn (i := j) (by rw [h]; rfl)
    have hs := Core.preempt_spec hq (Core.placed_nodup hn) hr
    have hpc : (K.preempt J i).pc = K.pc := by rw [Core.preempt_eq, Core.addByKind_pc]
    have hd := LocalSpec.dispatch (c := c) hs.queues rfl (hpc.trans h) (by rwa [hs.placed])
    rw [hs.frame j hj] at hd
    exact .after hs hpc hd

theorem setDpmInterval_eq (systemTime : ℕ) (K : Core n) (nextArrivalTime : ℕ) :
    ∃ low s e, setDpmInterval systemTime K nextArrivalTime =
      { K with inLowPowerState := low, dpmStartTime := s, dpmEndTime := e } := by
  unfold setDpmInterval
  split_ifs
  · exact ⟨_, _, _, rfl⟩
  · exact ⟨_, _, _, rfl⟩
  · exact ⟨_, _, _, rfl⟩
  · exact ⟨_, _, _, rfl⟩

theorem PowerStep.spec {X : Ctx n} (hs : PowerStep X K J K' J') (hK : K.Ok J) (hn : K.held.Nodup) :
    LocalSpec c K J K' J' := by
  cases hs with
  | begin h => split_ifs <;> exact .goto hK (.of h rfl rfl nofun rfl (by simp)) nofun
  | stay h => exact .goto hK (.of h rfl rfl nofun rfl (by simp)) nofun
  | @procrastinate j minSlack h hr ha ht hd =>
    have hq := hK.queues
    rw [show K.pc.clears = none by rw [h]; rfl] at hq
    have hp := Core.preempt_spec hq (Core.placed_nodup hn) hr
    have hm : Pc.Moves c K.pc (.summary : Pc n) := .of h rfl rfl nofun rfl (by simp)
    simp only
    split_ifs
    · obtain ⟨low, s, e, he⟩ := setDpmInterval_eq X.systemTime (K.preempt J j)
        (X.systemTime + ⌊min minSlack ((findNextEffectiveArrivalTime X K J - X.systemTime : ℕ) : ℚ)⌋₊)
      rw [he]
      exact .of_placed ⟨hp.queues.congr (fun _ => rfl) rfl rfl rfl, hp.placed, hp.frame, hp.kept⟩ hm rfl nofun
    · exact .of_placed ⟨hp.queues.goto _, hp.placed, hp.frame, hp.kept⟩ hm rfl nofun
  | dvfs h hl hd => exact .still hK (fun _ => rfl) rfl rfl rfl rfl (.of h rfl rfl nofun rfl (by simp)) nofun
  | dvfsSkip h => exact .goto hK (.of h rfl rfl nofun rfl (by simp)) nofun
  | dpm h =>
    split_ifs
    · obtain ⟨low, s, e, he⟩ := setDpmInterval_eq X.systemTime K (findNextEffectiveArrivalTime X K J)
      rw [he]
      exact .still hK (fun _ => rfl) rfl rfl rfl rfl (.of h rfl rfl nofun rfl (by simp)) nofun
    · exact .goto hK (.of h rfl rfl nofun rfl (by simp)) nofun
  | summary h => exact .goto hK (.of h rfl rfl nofun rfl (by simp)) nofun

/-- **Every local step of a core keeps its invariant and its jobs.** -/
theorem LocalStep.spec {X : Ctx n} (hs : LocalStep X K J K' J') (hK : K.Ok J) (hn : K.held.Nodup) :
    LocalSpec X.coreId K J K' J' := by
  cases hs with
  | cancel h => exact h.spec hK hn
  | sync h => exact h.spec hK hn
  | run h => exact h.spec hK hn
  | arrival h => exact h.spec hK hn
  | reclaim h => exact h.spec hK hn
  | push h => exact h.spec hK
  | process h => exact h.spec hK hn
  | dispatch h => exact h.spec hK hn
  | power h => exact h.spec hK hn

end EeftSched

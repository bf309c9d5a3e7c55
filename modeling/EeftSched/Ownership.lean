/-
  Who owns the jobs of a processor: every step of the processor is one
  operation on its pool of counted references, and keeps its invariant.

  * `refcount_eq`: in every reachable state a job has at most one place and its
    count is the number of its places and requests.
-/
import EeftSched.TwoCores

namespace EeftSched

open SortedQueue

variable {n : ℕ} {cfg : Config} {S S' : Sys n} {c d : Fin n} {j : JobId n} {K K' : Core n}
  {J : Jobs n} {r : JobRec}

/-! ## A core drops what it has in its hands -/

/-- What a core looks like after it has dropped job `j`. -/
structure PutSpec (c : Fin n) (K : Core n) (J : Jobs n) (j : JobId n) (K' : Core n) : Prop where
  hand : K.pc.hand = some j
  held : K.held = j ::ₘ K'.held
  ok : K'.Ok J
  state : (J j).state ≠ .ready
  own : Pc.Own c K.pc K'.pc
  token : K.pc.token c = none

theorem PutSpec.of_lists (hK : K.Ok J) (h : K.pc.hand = some j) (hc : K.pc.clears = none)
    (hq : ∀ b, K'.queue b = K.queue b) (hd : K'.discardList = K.discardList)
    (hp : K'.pendingJobsQueue = K.pendingJobsQueue) (hr : K'.runningJob = K.runningJob)
    (h' : K'.pc.hand = none) (hc' : K'.pc.clears = none) (hx : K'.pc ≠ .complete)
    (hi : K'.isIdle = K'.runningJob.isNone) (hs : (J j).state ≠ .ready) (ho : Pc.Own c K.pc K'.pc)
    (ht : K.pc.token c = none) : PutSpec c K J j K' := by
  refine ⟨h, ?_, hK.still hq hd hp hr h' (hc'.trans hc.symm) (fun he => absurd he hx) hi, hs, ho, ht⟩
  rw [Core.held_eq, Core.held_eq, h, h', Core.placed_congr hq hd hp hr]
  simp only [Option.toList_some, Option.toList_none, Multiset.coe_nil, Multiset.coe_singleton,
    add_zero]
  exact add_comm K.placed {j}

theorem PutStep.spec (hs : PutStep K j K') (hK : K.Ok J) : PutSpec c K J j K' := by
  have hidle := hK.idle
  have ho := hK.hand j
  cases hs with
  | cancelPut h | cancelRunPut h | missPut h =>
    rw [h] at ho hidle
    refine .of_lists hK (by rw [h]; rfl) (by rw [h]; rfl) (fun _ => rfl) rfl rfl rfl rfl rfl nofun
      (hidle nofun) ?_ (.of h nofun rfl (by simp [Pc.holds, Pc.wants])) (by rw [h]; rfl)
    rw [ho rfl]
    decide
  | completePut h =>
    rw [h] at ho
    refine .of_lists hK (by rw [h]; rfl) (by rw [h]; rfl) (fun _ => rfl) rfl rfl rfl rfl rfl nofun
      ?_ ?_ (.of h nofun rfl (by simp [Pc.holds, Pc.wants])) (by rw [h]; rfl)
    · simp [hK.completed _ h]
    · rw [ho rfl]
      decide
  | pendingPut h | futurePut h =>
    rw [h] at ho hidle
    refine .of_lists hK (by rw [h]; rfl) (by rw [h]; rfl) (fun _ => rfl) rfl rfl rfl rfl rfl nofun
      (hidle nofun) ?_ (.of h nofun rfl (by simp [Pc.holds, Pc.wants])) (by rw [h]; rfl)
    rw [(ho rfl).state]
    decide

/-- A job leaves the places of a core. -/
theorem Sys.held_drop (hcore : S'.core = Function.update S.core c K') (hs : S'.shelf = S.shelf)
    (hK : (S.core c).held = j ::ₘ K'.held) : S.held = j ::ₘ S'.held := by
  have h := sum_update Core.held S.core c K'
  rw [← hcore, hK, Multiset.add_cons, ← Multiset.cons_add] at h
  rw [Sys.held_eq, Sys.held_eq, hs, ← add_right_cancel h, Multiset.cons_add]

/-- A job gets a place on a core. -/
theorem Sys.held_add (hcore : S'.core = Function.update S.core c K') (hs : S'.shelf = S.shelf)
    (hK : K'.held = j ::ₘ (S.core c).held) : S'.held = j ::ₘ S.held := by
  have h := sum_update Core.held S.core c K'
  rw [← hcore, hK, Multiset.add_cons, ← Multiset.cons_add] at h
  rw [Sys.held_eq, Sys.held_eq, hs, add_right_cancel h, Multiset.cons_add]

/-- A core has a place for the job it is about to make a request for. -/
theorem Inv.held_of_target (h : Inv S) (ht : (S.core d).pc.target = some j) :
    j ∈ (S.core d).held := by
  cases hq : (S.core d).pc with
  | offerTarget i b k =>
    rw [hq] at ht
    obtain rfl := Option.some.inj ht
    exact Core.mem_held_of_placed (Core.mem_placed_of_queue (h.offer d i b k hq).1)
  | futureHand i ms =>
    rw [hq] at ht
    obtain rfl := Option.some.inj ht
    exact Core.mem_held.2 (.inr (by rw [hq]; rfl))
  | _ =>
    rw [hq] at ht
    cases ht

/-- The job a core has is not the target of another one. -/
theorem Inv.not_target (h : Inv S) (hj : j ∈ (S.core c).held) (hd : d ≠ c) :
    (S.core d).pc.target ≠ some j :=
  fun ht => hd (h.core_unique hj (h.held_of_target ht))

/-- **A core drops the reference of its hands.** -/
theorem Inv.put (h : Inv S) (hl : S.Unblocked c) (hs : PutSpec c (S.core c) S.job j K')
    (hcore : S'.core = Function.update S.core c K')
    (hjob : S'.job = S.job.set j { S.job j with refcount := (S.job j).refcount - 1 })
    (hq : S'.migrationRequestQueue = S.migrationRequestQueue)
    (hd : S'.discardQueue = S.discardQueue) (ht : S'.timer = S.timer)
    (hfree : S'.free = if (S.job j).refcount = 1 then j ::ₘ S.free else S.free) : Inv S' := by
  have hself : S'.core c = K' := by rw [hcore, Function.update_self]
  have hshelf : S'.shelf = S.shelf := Sys.shelf_congr hd ht
  have hmem : j ∈ (S.core c).held := by rw [hs.held]; exact Multiset.mem_cons_self j _
  have hj : j ∉ K'.held := by
    have hn := h.core_nodup c
    rw [hs.held] at hn
    exact (Multiset.nodup_cons.1 hn).1
  have hreqs : S'.reqs = S.reqs := by
    refine Sys.reqs_congr hcore ?_ fun d => by rw [hq]
    rw [Pc.request_eq c, Pc.request_eq c, hs.own.token]
  refine h.update hl hcore hjob ht ?_ (fun _ _ => by rw [hshelf]) (fun d r hr => by rwa [hq] at hr)
    ?_ ?_ hs.own.start hs.own.holds ?_ ?_ ?_ (fun d hd => h.not_target hmem hd) ?_ ?_ ?_ ?_ ?_
  · intro i hi
    rw [hs.held, Multiset.mem_cons, or_iff_right hi]
  · rw [hs.own.token, hs.token]
    nofun
  · refine .dropHeld j (Sys.held_drop hcore hshelf hs.held) hreqs hfree ?_
    change (fun i => (S'.job i).refcount) = _
    rw [hjob]
    exact Sys.ref_set ..
  · rw [hreqs]
    exact h.once
  · rw [hjob]
    exact hs.ok.set fun hm => absurd hm hj
  · intro d hd hm
    exact absurd (h.core_unique hmem hm) hd
  · rw [hshelf]
    intro hsh
    exact absurd hsh (h.notMem_shelf hmem)
  · rintro o e (⟨ht, -⟩ | ht)
    · rw [hs.own.token, hs.token] at ht
      cases ht
    · have ho := h.token j o e ht.token
      refine ⟨?_, hshelf ▸ ho.shelf, ?_, ?_⟩
      · intro d hd
        by_cases hdc : d = c
        · rw [hdc, hself] at hd
          exact absurd hd hj
        · rw [hcore, Function.update_of_ne hdc] at hd
          exact ho.owner d hd
      · intro he
        rw [hjob, Jobs.set_self]
        rcases ho.offer he with hf | ⟨-, -, hm⟩
        · exact .inl hf
        · exact absurd (Sys.mem_held.2 (.inl ⟨c, hmem⟩)) hm
      · intro _ hr
        rw [hjob, Jobs.set_self] at hr
        exact absurd hr hs.state
  · rw [hs.own.target]
    nofun
  · intro i b k hi
    have := hs.own.target
    rw [hi] at this
    cases this
  · rw [hs.own.acks]
    nofun

/-! ## A core takes a job from its pool -/

/-- A job with no place and no request -/
theorem Inv.of_free (h : Inv S) (hj : j ∈ S.free) : j ∉ S.held ∧ j ∉ S.reqs := by
  have hpos := Multiset.count_pos.2 hj
  have h1 := (h.balanced j).once
  have h2 := (h.balanced j).free hpos
  change S.held.count j + S.free.count j ≤ 1 at h1
  exact ⟨Multiset.count_eq_zero.1 (by omega), Multiset.count_eq_zero.1 h2⟩

/-- What a core looks like after it has taken job `j` from its pool. -/
structure TakeSpec (c : Fin n) (K K' : Core n) (j : JobId n) (r : JobRec) : Prop where
  queue : ∀ b, K'.queue b = K.queue b
  discard : K'.discardList = K.discardList
  pending : K'.pendingJobsQueue = K.pendingJobsQueue
  running : K'.runningJob = K.runningJob
  isIdle : K'.isIdle = K.isIdle
  hand : K.pc.hand = none
  hand' : K'.pc.hand = some j
  clears : K.pc.clears = none
  clears' : K'.pc.clears = none
  token : K.pc.token c = none
  token' : K'.pc.token c = none
  start : K.pc ≠ .arrived
  holds : K'.pc.holds c = ∅
  acks : K'.pc.acks = none
  completed : ∀ i, K'.pc ≠ .completePut i
  target : ∀ i, K'.pc.target = some i → i = j
  record : K'.pc.HandOk r

namespace TakeSpec

theorem placed (hs : TakeSpec c K K' j r) : K'.placed = K.placed :=
  Core.placed_congr hs.queue hs.discard hs.pending hs.running

theorem held (hs : TakeSpec c K K' j r) : K'.held = j ::ₘ K.held := by
  rw [Core.held_eq, Core.held_eq, hs.placed, hs.hand, hs.hand']
  simp only [Option.toList_some, Option.toList_none, Multiset.coe_nil, Multiset.coe_singleton,
    add_zero]
  exact add_comm K.placed {j}

theorem ok (hs : TakeSpec c K K' j r) (hK : K.Ok J) (hj : j ∉ K.held) : K'.Ok (J.set j r) := by
  refine ⟨?_, ?_, ?_, ?_, fun i hi => absurd hi (hs.completed i)⟩
  · rw [hs.clears', ← hs.clears]
    refine (hK.queues.congr hs.queue hs.discard hs.pending hs.running).set ?_ r
    rw [hs.placed]
    exact fun hp => hj (Core.mem_held_of_placed hp)
  · intro i hi
    rw [hs.hand'] at hi
    obtain rfl := Option.some.inj hi
    rw [Jobs.set_self]
    exact hs.record
  · intro _
    rw [hs.isIdle, hs.running]
    exact hK.isIdle_eq hs.hand
  · intro hx
    have := hs.hand'
    rw [hx] at this
    cases this

end TakeSpec

/-- **A core takes a job from its pool.** -/
theorem Inv.create (h : Inv S) (hl : S.Unblocked c) (hs : TakeSpec c (S.core c) K' j r)
    (hcore : S'.core = Function.update S.core c K') (hjob : S'.job = S.job.set j r)
    (hr : r.refcount = 1) (hq : S'.migrationRequestQueue = S.migrationRequestQueue)
    (hd : S'.discardQueue = S.discardQueue) (ht : S'.timer = S.timer)
    (hfree : S.free = j ::ₘ S'.free) : Inv S' := by
  have hshelf : S'.shelf = S.shelf := Sys.shelf_congr hd ht
  obtain ⟨hheld, hreq⟩ := h.of_free (j := j) (hfree ▸ Multiset.mem_cons_self j _)
  have hout : ∀ d, j ∉ (S.core d).held := fun d hm => hheld (Sys.mem_held.2 (.inl ⟨d, hm⟩))
  have hreqs : S'.reqs = S.reqs := by
    refine Sys.reqs_congr hcore ?_ fun d => by rw [hq]
    rw [Pc.request_eq c, Pc.request_eq c, hs.token, hs.token']
  refine h.update hl hcore hjob ht ?_ (fun _ _ => by rw [hshelf]) (fun d r hr => by rwa [hq] at hr)
    ?_ ?_ hs.start ?_ ?_ ?_ (fun d _ hm => absurd hm (hout d)) ?_ ?_ ?_ ?_ ?_ ?_
  · intro i hi
    rw [hs.held, Multiset.mem_cons, or_iff_right hi]
  · rw [hs.token']
    nofun
  · refine .create j hfree (Sys.held_add hcore hshelf hs.held) hreqs ?_
    change (fun i => (S'.job i).refcount) = _
    rw [hjob, Sys.ref_set, hr]
    rfl
  · rw [hs.holds]
    intro l hl
    exact absurd hl (Finset.notMem_empty l)
  · rw [hreqs]
    exact h.once
  · rw [hjob]
    exact hs.ok (h.ok c) (hout c)
  · intro d _ hi
    exact hout d (h.held_of_target hi)
  · rw [hshelf]
    intro hsh
    exact absurd (Sys.mem_held.2 (.inr hsh)) hheld
  · rintro o e (⟨hi, -⟩ | hi)
    · rw [hs.token'] at hi
      cases hi
    · exact absurd hi.token.mem_reqs hreq
  · intro i hi
    rw [hs.target i hi, hreqs]
    exact hreq
  · intro i b k hi
    have := hs.hand'
    rw [hi] at this
    cases this
  · rw [hs.acks]
    nofun

theorem ArriveStep.inv (hs : ArriveStep cfg c S S') (h : Inv S) (hl : S.Unblocked c) : Inv S' := by
  have hK := h.ok c
  have hn := h.core_nodup c
  cases hs with
  | modeStore hp =>
    exact h.quiet hl rfl (.still hK (fun _ => rfl) rfl rfl rfl rfl (.of hp rfl rfl nofun rfl (by simp [Pc.holds, Pc.wants])) nofun)
      (fun _ => rfl) rfl rfl rfl
  | complete hp hr =>
    refine h.quiet hl rfl (.take hK hn (by rw [hp]; rfl) (by rw [hp]; rfl) rfl rfl
      (Core.placed_running hr) (fun _ => .refl _) (.refl _) (.refl _) nofun ?_
      ⟨rfl, rfl, rfl, rfl, rfl, nofun⟩ rfl (.of hp nofun rfl (by simp [Pc.holds, Pc.wants])) (fun _ _ => rfl))
      (fun _ => rfl) rfl rfl rfl
    exact fun hx => absurd rfl (hx _)
  | missFatal hp =>
    exact h.quiet hl rfl (.goto hK (.of hp rfl rfl nofun rfl (by simp [Pc.holds, Pc.wants])) nofun) (fun _ => rfl) rfl rfl rfl
  | @put j K' hp =>
    have hfree := (S.setCore c K').putJobRef_free (some c) j
    obtain ⟨f, g, he⟩ := (S.setCore c K').putJobRef_eq (some c) j
    rw [he] at hfree ⊢
    exact h.put hl (hp.spec hK) rfl rfl rfl rfl rfl hfree
  | create hp hm hd hj =>
    obtain ⟨hfree, f, g, rfl⟩ := Sys.takeFree_eq_some hj
    refine h.create hl ?_ rfl rfl rfl rfl rfl rfl hfree
    exact ⟨fun _ => rfl, rfl, rfl, rfl, rfl, by rw [hp]; rfl, rfl, by rw [hp]; rfl, rfl,
      by rw [hp]; rfl, rfl, by rw [hp]; nofun, rfl, rfl, nofun, nofun, ⟨rfl, rfl⟩⟩
  | exhausted hp hm hd hj =>
    exact h.quiet hl rfl (.still hK (fun _ => rfl) rfl rfl rfl rfl (.of hp rfl rfl nofun rfl (by simp [Pc.holds, Pc.wants])) nofun)
      (fun _ => rfl) rfl rfl rfl

/-! ## The discard queue -/

/-- While a core has its own lock, no other core decides on a request of its. -/
theorem Inv.no_late (h : Inv S) (hc : c ∈ (S.core c).pc.holds c) : ¬ S.Rest c j c false := by
  generalize hE : false = e
  intro ht
  cases ht with
  | @core d _ _ hd ht =>
    cases hp : (S.core d).pc with
    | procReject r =>
      rw [hp] at ht
      obtain ⟨-, hf⟩ := Prod.mk.inj (Option.some.inj ht)
      exact hd (h.locks d c c (by rw [hp]; simp [Pc.holds, hf]) hc)
    | procInsert r | procClear r | procPut r =>
      rw [hp] at ht
      exact hd (Prod.mk.inj (Option.some.inj ht)).2
    | offerClaim | futureClaim | procLock1 | procLock2 | procDecide =>
      rw [hp] at hE
      cases hE
    | _ =>
      rw [hp] at ht
      cases ht
  | queued => cases hE

/-- Nobody has a request for a job that is not on offer, while the core that has
    the job has its lock, too. -/
theorem Inv.no_token (h : Inv S) (hc : c ∈ (S.core c).pc.holds c) (hm : j ∈ (S.core c).held)
    (hf : (S.job j).isBeingOffered = false) (o : Fin n) (e : Bool) : ¬ S.Rest c j o e := by
  intro ht
  have ho := h.token j o e ht.token
  cases e with
  | true =>
    rcases ho.offer rfl with ⟨ht, -⟩ | ⟨-, -, hx⟩
    · rw [hf] at ht
      cases ht
    · exact hx (Sys.mem_held.2 (.inl ⟨c, hm⟩))
  | false =>
    obtain rfl := ho.owner c hm
    exact h.no_late hc ht

/-- **A job goes from the hands of a core to the discard queue.** -/
theorem Inv.shelve (h : Inv S) (hl : S.Unblocked c) (hp : (S.core c).pc = .reclaimHand j)
    (hcore : S'.core = Function.update S.core c ((S.core c).goto .reclaimLoop))
    (hjob : S'.job = S.job.set j r) (hr : r.state = .ready)
    (hn : r.refcount = (S.job j).refcount) (hq : S'.migrationRequestQueue = S.migrationRequestQueue)
    (hd : (S'.discardQueue : Multiset (JobId n)) = j ::ₘ ↑S.discardQueue) (ht : S'.timer = S.timer)
    (hfree : S'.free = S.free) : Inv S' := by
  have hK := h.ok c
  have hhand := hK.hand j (by rw [hp]; rfl)
  rw [hp] at hhand
  have hmem : j ∈ (S.core c).held := Core.mem_held.2 (.inr (by rw [hp]; rfl))
  have hheld : (S.core c).held = j ::ₘ ((S.core c).goto .reclaimLoop).held := by
    rw [Core.held_eq, Core.held_eq, hp]
    simp only [Pc.hand, Core.placed_goto, Core.goto_pc, Option.toList_some, Option.toList_none,
      Multiset.coe_nil, Multiset.coe_singleton, add_zero]
    exact add_comm _ _
  have hj : j ∉ ((S.core c).goto .reclaimLoop).held := by
    have hn := h.core_nodup c
    rw [hheld] at hn
    exact (Multiset.nodup_cons.1 hn).1
  have hshelf : S'.shelf = j ::ₘ S.shelf := by
    rw [Sys.shelf_eq, Sys.shelf_eq, hd, ht, Multiset.cons_add]
  have hreqs : S'.reqs = S.reqs := Sys.reqs_congr hcore (by rw [hp]; rfl) fun d => by rw [hq]
  have hno := h.no_token (by rw [hp]; simp [Pc.holds]) hmem hhand.2
  refine h.update hl hcore hjob ht ?_ ?_ (fun d r hr => by rwa [hq] at hr) nofun ?_
    (by rw [hp]; nofun) ?_ ?_ ?_ ?_ (fun d hd => h.not_target hmem hd) (fun _ => hr) ?_ nofun nofun nofun
  · intro i hi
    rw [hheld, Multiset.mem_cons, or_iff_right hi]
  · intro i hi
    rw [hshelf, Multiset.mem_cons, or_iff_right hi]
  · refine .keep ?_ hreqs hfree ?_
    · have := sum_update Core.held S.core c ((S.core c).goto .reclaimLoop)
      rw [← hcore, hheld, Multiset.add_cons, ← Multiset.cons_add] at this
      change S'.held = S.held
      rw [Sys.held_eq, Sys.held_eq, hshelf, ← add_right_cancel this, Multiset.cons_add,
        Multiset.add_cons]
    · change (fun i => (S'.job i).refcount) = fun i => (S.job i).refcount
      rw [hjob, Sys.ref_set, hn, Function.update_eq_self_iff]
  · rw [hp]
    simp [Pc.holds]
  · rw [hreqs]
    exact h.once
  · rw [hjob]
    refine Core.Ok.set ?_ fun hm => absurd hm hj
    exact hK.still (fun _ => rfl) rfl rfl rfl rfl (by rw [hp]; rfl) nofun
      (hK.idle (by rw [hp]; nofun))
  · intro d hd hm
    exact absurd (h.core_unique hmem hm) hd
  · rintro o e (⟨hi, -⟩ | hi)
    · cases hi
    · exact absurd hi (hno o e)

/-- **A job goes from the discard queue to a queue of a core.** -/
theorem Inv.accommodate (h : Inv S) (hl : S.Unblocked c) {k : ℕ}
    (hp : (S.core c).pc = .reclaimQueue k) (hj : S.discardQueue[k]? = some j)
    (hcore : S'.core = Function.update S.core c
      { (S.core c).addByKind S.job j with decisionPoint := true, pc := .reclaimQueue k })
    (hjob : S'.job = S.job.set j (S.job j).link)
    (hq : S'.migrationRequestQueue = S.migrationRequestQueue)
    (hd : S'.discardQueue = S.discardQueue.eraseIdx k) (ht : S'.timer = S.timer)
    (hfree : S'.free = S.free) : Inv S' := by
  have hK := h.ok c
  have hpc : (S.core c).pc.hand = none := by rw [hp]; rfl
  have hshelf : S.shelf = j ::ₘ S'.shelf := by
    rw [Sys.shelf_eq, Sys.shelf_eq, hd, ht, coe_eraseIdx hj, Multiset.cons_add]
  have hmem : j ∈ S.shelf := by rw [hshelf]; exact Multiset.mem_cons_self j _
  have hout : ∀ d, j ∉ (S.core d).held := fun d hm => h.notMem_shelf hm hmem
  have hgone : j ∉ S'.shelf := by
    have hn := h.held_nodup
    rw [Sys.held_eq, hshelf] at hn
    exact (Multiset.nodup_cons.1 (Multiset.nodup_add.1 hn).2.1).1
  have hready := h.shelf j hmem
  have hheld : { (S.core c).addByKind S.job j with
      decisionPoint := true, pc := .reclaimQueue k : Core n }.held = j ::ₘ (S.core c).held := by
    rw [Core.held_eq, Core.held_eq, hpc]
    simp only [Pc.hand, Option.toList_none, Multiset.coe_nil, add_zero]
    exact Core.placed_addByKind _ _ _
  have hreqs : S'.reqs = S.reqs := Sys.reqs_congr hcore (by rw [hp]) fun d => by rw [hq]
  have hno : ∀ o e, ¬ S.Token j o e := fun o e hi => (h.token j o e hi).shelf hmem
  refine h.update hl hcore hjob ht ?_ ?_ (fun d r hr => by rwa [hq] at hr) nofun ?_
    (by rw [hp]; nofun) ?_ ?_ ?_ (fun d _ hm => absurd hm (hout d))
    (fun d _ hi => hout d (h.held_of_target hi)) (fun hm => absurd hm hgone) ?_ nofun nofun nofun
  · intro i hi
    rw [hheld, Multiset.mem_cons, or_iff_right hi]
  · intro i hi
    rw [hshelf, Multiset.mem_cons, or_iff_right hi]
  · refine .keep ?_ hreqs hfree ?_
    · have hsum := sum_update Core.held S.core c
        { (S.core c).addByKind S.job j with decisionPoint := true, pc := .reclaimQueue k }
      rw [← hcore, hheld, Multiset.add_cons, ← Multiset.cons_add] at hsum
      change S'.held = S.held
      rw [Sys.held_eq, Sys.held_eq, hshelf, add_right_cancel hsum, Multiset.cons_add,
        Multiset.add_cons]
    · change (fun i => (S'.job i).refcount) = fun i => (S.job i).refcount
      rw [hjob, Sys.ref_set]
      exact Function.update_eq_self ..
  · rw [hp]
    exact fun l hl => .inl hl
  · rw [hreqs]
    exact h.once
  · rw [hjob]
    have hqs := hK.queues
    rw [show (S.core c).pc.clears = none by rw [hp]; rfl] at hqs
    refine ⟨?_, nofun, fun _ => ?_, nofun, nofun⟩
    · exact (hqs.insert (fun hm => hout c (Core.mem_held_of_placed hm)) (r := (S.job j).link)
        ⟨hready, rfl, rfl⟩ rfl).congr (fun _ => rfl) rfl rfl rfl
    · simpa using hK.isIdle_eq hpc
  · rintro o e (⟨hi, -⟩ | hi)
    · cases hi
    · exact absurd hi.token (hno o e)

theorem DiscardStep.inv (hs : DiscardStep cfg c S S') (h : Inv S) (hl : S.Unblocked c) : Inv S' := by
  have hK := h.ok c
  cases hs with
  | @discard j hp hf hfree =>
    have hhand := hK.hand j (by rw [hp]; rfl)
    rw [hp] at hhand
    exact h.shelve hl hp rfl rfl hhand.1 rfl rfl (coe_insertBy ..) rfl rfl
  | lock hp hfree => exact h.quiet hl rfl (.goto hK (.of hp rfl rfl nofun rfl (by simp [Pc.holds, Pc.wants])) nofun) (fun _ => rfl) rfl rfl rfl
  | keep hp hj => exact h.quiet hl rfl (.goto hK (.of hp rfl rfl nofun rfl (by simp [Pc.holds, Pc.wants])) nofun) (fun _ => rfl) rfl rfl rfl
  | accommodate hp hj => exact h.accommodate hl hp hj rfl rfl rfl rfl rfl rfl
  | done hp hj =>
    split_ifs
    · exact h.quiet hl rfl (.goto hK (.of hp rfl rfl nofun rfl (by simp [Pc.holds, Pc.wants])) nofun) (fun _ => rfl) rfl rfl rfl
    · exact h.quiet hl rfl (.goto hK (.of hp rfl rfl nofun rfl (by simp [Pc.holds, Pc.wants])) nofun) (fun _ => rfl) rfl rfl rfl
  | ack hp hq =>
    refine h.quiet hl rfl (.still hK (fun _ => rfl) rfl rfl rfl rfl ?_ ?_) (fun _ => rfl) rfl rfl rfl
    · rw [hp]
      exact .of rfl rfl rfl nofun rfl (by simp [Pc.holds, Pc.wants])
    · rw [hp]
      nofun
  | acked hp hq => exact h.quiet hl rfl (.goto hK (.of hp rfl rfl nofun rfl (by simp [Pc.holds, Pc.wants])) nofun) (fun _ => rfl) rfl rfl rfl

/-! ## Offers -/

theorem Core.notMem_of_queue {b : Bool} (hn : K.placed.Nodup) (hj : j ∈ K.queue b) :
    j ∉ K.discardList ∧ j ∉ K.pendingJobsQueue := by
  rw [Core.placed_clear K b] at hn
  have hd := Multiset.disjoint_left.1 (Multiset.nodup_add.1 hn).2.2 (Multiset.mem_coe.2 hj)
  constructor
  · intro hm
    exact hd (Core.mem_placed.2 (.inr (.inr (.inl (by simpa using hm)))))
  · intro hm
    exact hd (Core.mem_placed.2 (.inr (.inr (.inr (.inl (by simpa using hm))))))

/-- A queued job may be put on offer. -/
theorem Core.Ok.setOffer {b : Bool} (hK : K.Ok J) (hn : K.held.Nodup) (hj : j ∈ K.queue b)
    (hr : (J j).Alike r) : K.Ok (J.set j r) := by
  have hpl := Core.placed_nodup hn
  obtain ⟨hd, hp⟩ := Core.notMem_of_queue hpl hj
  refine ⟨?_, ?_, hK.idle, hK.complete, hK.completed⟩
  · refine hK.queues.mono (fun _ => .refl _) (.refl _) (.refl _) (fun _ => id) ?_ ?_
    · intro i hi
      by_cases hij : i = j
      · rw [hij, Jobs.set_self]
        exact hr
      · rw [Jobs.set_ne J r hij]
    · intro i hi ho
      have hij : i ≠ j := by
        rintro rfl
        exact hi.elim hd hp
      rwa [Jobs.set_ne J r hij] at ho
  · intro i hi
    have hij : i ≠ j := by
      rintro rfl
      exact Core.notMem_placed hn hi (Core.mem_placed_of_queue hj)
    rw [Jobs.set_ne J r hij]
    exact hK.hand i hi

/-- **A job is put on offer.** -/
theorem Inv.exchange (h : Inv S) (hl : S.Unblocked c) {b : Bool} {k : ℕ}
    (hp : (S.core c).pc = .offer b k) (hj : ((S.core c).queue b)[k]? = some j)
    (hf : (S.job j).isBeingOffered = false)
    (hcore : S'.core = Function.update S.core c ((S.core c).goto (.offerTarget j b k)))
    (hjob : S'.job = S.job.set j { S.job j with isBeingOffered := true })
    (hq : S'.migrationRequestQueue = S.migrationRequestQueue)
    (hd : S'.discardQueue = S.discardQueue) (ht : S'.timer = S.timer) (hfree : S'.free = S.free) :
    Inv S' := by
  have hK := h.ok c
  have hqueue : j ∈ (S.core c).queue b := List.mem_of_getElem? hj
  have hmem : j ∈ (S.core c).held := Core.mem_held_of_placed (Core.mem_placed_of_queue hqueue)
  have hshelf : S'.shelf = S.shelf := Sys.shelf_congr hd ht
  have hheld : ((S.core c).goto (.offerTarget j b k)).held = (S.core c).held :=
    Core.held_goto (by rw [hp]; rfl)
  have hreqs : S'.reqs = S.reqs := Sys.reqs_congr hcore (by rw [hp]; rfl) fun d => by rw [hq]
  have hno := h.no_token (by rw [hp]; simp [Pc.holds]) hmem hf
  have hreq : j ∉ S.reqs := by
    intro hr
    obtain ⟨o, e, ht⟩ := Sys.exists_token hr
    cases ht with
    | @core d _ _ ht =>
      by_cases hdc : d = c
      · rw [hdc, hp] at ht
        cases ht
      · exact hno o _ (.core hdc ht)
    | queued ht => exact hno _ _ (.queued ht)
  refine h.update hl hcore hjob ht (fun i _ => by rw [hheld]) (fun _ _ => by rw [hshelf])
    (fun d r hr => by rwa [hq] at hr) nofun ?_ (by rw [hp]; nofun) ?_ ?_ ?_ ?_
    (fun d hd => h.not_target hmem hd) ?_ ?_ ?_ ?_ nofun
  · refine .keep (Sys.held_congr hcore hheld hshelf) hreqs hfree ?_
    change (fun i => (S'.job i).refcount) = fun i => (S.job i).refcount
    rw [hjob, Sys.ref_set]
    exact Function.update_eq_self ..
  · rw [hp]
    exact fun l hl => .inl hl
  · rw [hreqs]
    exact h.once
  · rw [hjob]
    refine Core.Ok.setOffer (b := b) ?_ ?_ hqueue ⟨rfl, rfl, rfl, rfl, rfl⟩
    · exact hK.still (fun _ => rfl) rfl rfl rfl rfl (by rw [hp]; rfl) nofun
        (hK.idle (by rw [hp]; nofun))
    · rw [hheld]
      exact h.core_nodup c
  · intro d hd hm
    exact absurd (h.core_unique hmem hm) hd
  · rw [hshelf]
    intro hsh
    exact absurd hsh (h.notMem_shelf hmem)
  · rintro o e (⟨hi, -⟩ | hi)
    · cases hi
    · exact absurd hi (hno o e)
  · rintro i ⟨⟩
    rw [hreqs]
    exact hreq
  · rintro i a l ⟨⟩
    rw [hjob, Jobs.set_self]
    exact ⟨hqueue, rfl⟩

/-- **An offer is withdrawn**, no other core can take the job. -/
theorem Inv.withdraw (h : Inv S) (hl : S.Unblocked c) {b : Bool} {k : ℕ}
    (hp : (S.core c).pc = .offerTarget j b k)
    (hcore : S'.core = Function.update S.core c ((S.core c).goto (.offer b (k + 1))))
    (hjob : S'.job = S.job.set j { S.job j with isBeingOffered := false })
    (hq : S'.migrationRequestQueue = S.migrationRequestQueue)
    (hd : S'.discardQueue = S.discardQueue) (ht : S'.timer = S.timer) (hfree : S'.free = S.free) :
    Inv S' := by
  have hK := h.ok c
  have hmem := h.held_of_target (d := c) (j := j) (by rw [hp]; rfl)
  have hreq := h.target c j (by rw [hp]; rfl)
  have hshelf : S'.shelf = S.shelf := Sys.shelf_congr hd ht
  have hheld : ((S.core c).goto (.offer b (k + 1))).held = (S.core c).held :=
    Core.held_goto (by rw [hp]; rfl)
  have hreqs : S'.reqs = S.reqs := Sys.reqs_congr hcore (by rw [hp]; rfl) fun d => by rw [hq]
  refine h.update hl hcore hjob ht (fun i _ => by rw [hheld]) (fun _ _ => by rw [hshelf])
    (fun d r hr => by rwa [hq] at hr) nofun ?_ (by rw [hp]; nofun) ?_ ?_ ?_ ?_
    (fun d hd => h.not_target hmem hd) ?_ ?_ nofun nofun nofun
  · refine .keep (Sys.held_congr hcore hheld hshelf) hreqs hfree ?_
    change (fun i => (S'.job i).refcount) = fun i => (S.job i).refcount
    rw [hjob, Sys.ref_set]
    exact Function.update_eq_self ..
  · rw [hp]
    exact fun l hl => .inl hl
  · rw [hreqs]
    exact h.once
  · rw [hjob]
    refine Core.Ok.set ?_ fun _ => ⟨⟨rfl, rfl, rfl, rfl, rfl⟩, nofun⟩
    exact hK.still (fun _ => rfl) rfl rfl rfl rfl (by rw [hp]; rfl) nofun
      (hK.idle (by rw [hp]; nofun))
  · intro d hd hm
    exact absurd (h.core_unique hmem hm) hd
  · rw [hshelf]
    intro hsh
    exact absurd hsh (h.notMem_shelf hmem)
  · rintro o e (⟨hi, -⟩ | hi)
    · cases hi
    · exact absurd hi.token.mem_reqs hreq

/-- A core starts a request. -/
theorem Sys.reqs_add (hcore : S'.core = Function.update S.core c K')
    (hr : (S.core c).pc.request = none) (hr' : K'.pc.request = some j)
    (hq : ∀ d, (S'.migrationRequestQueue d).values = (S.migrationRequestQueue d).values) :
    S'.reqs = j ::ₘ S.reqs := by
  have h := sum_update (fun K : Core n => (K.pc.request.toList : Multiset (JobId n))) S.core c K'
  rw [hr, hr'] at h
  simp only [Option.toList_none, Option.toList_some, Multiset.coe_nil, add_zero,
    Multiset.coe_singleton] at h
  rw [Sys.reqs, Sys.reqs, hcore, h, ← Multiset.singleton_add]
  simp only [hq]
  abel

/-- **A request takes a reference to a job of the core.** -/
theorem Inv.getRef (h : Inv S) (hl : S.Unblocked c) {b : Bool} {k : ℕ} {dest : Fin n}
    (hp : (S.core c).pc = .offerTarget j b k)
    (hcore : S'.core = Function.update S.core c ((S.core c).goto (.offerClaim j dest b k)))
    (hjob : S'.job = S.job.set j { S.job j with refcount := (S.job j).refcount + 1 })
    (hq : S'.migrationRequestQueue = S.migrationRequestQueue)
    (hd : S'.discardQueue = S.discardQueue) (ht : S'.timer = S.timer) (hfree : S'.free = S.free) :
    Inv S' := by
  have hK := h.ok c
  obtain ⟨hqueue, hflag⟩ := h.offer c j b k hp
  have hmem := h.held_of_target (d := c) (j := j) (by rw [hp]; rfl)
  have hreq := h.target c j (by rw [hp]; rfl)
  have hstate := (hK.queues.queued b j hqueue).state
  have hshelf : S'.shelf = S.shelf := Sys.shelf_congr hd ht
  have hheld : ((S.core c).goto (.offerClaim j dest b k)).held = (S.core c).held :=
    Core.held_goto (by rw [hp]; rfl)
  have hallHeld : S'.held = S.held := Sys.held_congr hcore hheld hshelf
  have hreqs : S'.reqs = j ::ₘ S.reqs :=
    Sys.reqs_add hcore (by rw [hp]; rfl) rfl fun d => by rw [hq]
  refine h.update hl hcore hjob ht (fun i _ => by rw [hheld]) (fun _ _ => by rw [hshelf])
    (fun d r hr => by rwa [hq] at hr) ?_ ?_ (by rw [hp]; nofun) ?_ ?_ ?_ ?_
    (fun d hd => h.not_target hmem hd) ?_ ?_ nofun nofun nofun
  · rintro i o ⟨⟩
    rfl
  · refine .get j (Sys.mem_held.2 (.inl ⟨c, hmem⟩)) hallHeld hreqs hfree ?_
    change (fun i => (S'.job i).refcount) = _
    rw [hjob]
    exact Sys.ref_set ..
  · rw [hp]
    exact fun l hl => .inl hl
  · rw [hreqs]
    exact Multiset.nodup_cons.2 ⟨hreq, h.once⟩
  · rw [hjob]
    refine Core.Ok.set ?_ fun _ => ⟨⟨rfl, rfl, rfl, rfl, rfl⟩, id⟩
    exact hK.still (fun _ => rfl) rfl rfl rfl rfl (by rw [hp]; rfl) nofun
      (hK.idle (by rw [hp]; nofun))
  · intro d hd hm
    exact absurd (h.core_unique hmem hm) hd
  · rw [hshelf]
    intro hsh
    exact absurd hsh (h.notMem_shelf hmem)
  · rintro o e (⟨⟨⟩, rfl⟩ | hi)
    · refine ⟨?_, by rw [hshelf]; exact h.notMem_shelf hmem, fun _ => .inl ?_, fun _ _ => ?_⟩
      · intro d hd
        by_contra hdc
        rw [hcore, Function.update_of_ne hdc] at hd
        exact hdc (h.core_unique hmem hd)
      · rw [hjob, Jobs.set_self]
        exact ⟨hflag, by simp [hstate]⟩
      · rw [hallHeld]
        exact Sys.mem_held.2 (.inl ⟨c, hmem⟩)
    · exact absurd hi.token.mem_reqs hreq

/-- **A future job goes from the hands of the core into a request.** -/
theorem Inv.sendFuture (h : Inv S) (hl : S.Unblocked c) {ms : List TaskAlloc} {dest : Fin n}
    (hp : (S.core c).pc = .futureHand j ms) (hcore : S'.core = Function.update S.core c K')
    (hpc : K'.pc = .futureClaim j dest ms) (hqs : ∀ b, K'.queue b = (S.core c).queue b)
    (hds : K'.discardList = (S.core c).discardList)
    (hps : K'.pendingJobsQueue = (S.core c).pendingJobsQueue)
    (hrs : K'.runningJob = (S.core c).runningJob) (his : K'.isIdle = (S.core c).isIdle)
    (hjob : S'.job = S.job) (hq : S'.migrationRequestQueue = S.migrationRequestQueue)
    (hd : S'.discardQueue = S.discardQueue) (ht : S'.timer = S.timer) (hfree : S'.free = S.free) :
    Inv S' := by
  have hK := h.ok c
  have hhand : (S.core c).pc.hand = some j := by rw [hp]; rfl
  have hr := hK.hand j hhand
  rw [hp] at hr
  have hmem : j ∈ (S.core c).held := Core.mem_held.2 (.inr hhand)
  have hreq := h.target c j (by rw [hp]; rfl)
  have hshelf : S'.shelf = S.shelf := Sys.shelf_congr hd ht
  have hheld : (S.core c).held = j ::ₘ K'.held := by
    rw [Core.held_eq, Core.held_eq, hhand, hpc, Core.placed_congr hqs hds hps hrs]
    simp only [Pc.hand, Option.toList_some, Option.toList_none, Multiset.coe_nil,
      Multiset.coe_singleton, add_zero]
    exact add_comm _ _
  have hallHeld := Sys.held_drop hcore hshelf hheld
  have hj : j ∉ S'.held := by
    have hn := h.held_nodup
    rw [hallHeld] at hn
    exact (Multiset.nodup_cons.1 hn).1
  have hreqs : S'.reqs = j ::ₘ S.reqs :=
    Sys.reqs_add hcore (by rw [hp]; rfl) (by rw [hpc]; rfl) fun d => by rw [hq]
  have hself : S.job.set j (S.job j) = S.job := Function.update_eq_self ..
  refine h.update hl hcore (hjob.trans hself.symm) ht ?_ (fun _ _ => by rw [hshelf])
    (fun d r hr => by rwa [hq] at hr) ?_ ?_ (by rw [hp]; nofun) ?_ ?_ ?_ (fun _ _ _ => .refl _)
    (fun d hd => h.not_target hmem hd) ?_ ?_ (by rw [hpc]; nofun) (by rw [hpc]; nofun)
    (by rw [hpc]; nofun)
  · intro i hi
    rw [hheld, Multiset.mem_cons, or_iff_right hi]
  · rw [hpc]
    rintro i o ⟨⟩
    rfl
  · refine .send j hallHeld hreqs hfree ?_
    change (fun i => (S'.job i).refcount) = _
    rw [hjob]
    rfl
  · rw [hpc]
    exact fun l hl => absurd hl (Finset.notMem_empty l)
  · rw [hreqs]
    exact Multiset.nodup_cons.2 ⟨hreq, h.once⟩
  · rw [hjob]
    refine hK.still hqs hds hps hrs (by rw [hpc]; rfl) (by rw [hp, hpc]; rfl) (by rw [hpc]; nofun) ?_
    rw [his, hrs]
    exact hK.idle (by rw [hp]; nofun)
  · rw [hshelf]
    intro hsh
    exact absurd hsh (h.notMem_shelf hmem)
  · rw [hpc]
    rintro o e (⟨⟨⟩, rfl⟩ | hi)
    · refine ⟨?_, by rw [hshelf]; exact h.notMem_shelf hmem, fun _ => .inr ?_, ?_⟩
      · intro d hd
        exact absurd (Sys.mem_held.2 (.inl ⟨d, hd⟩)) hj
      · rw [hjob]
        exact ⟨hr.offer, hr.state, hj⟩
      · intro _ hready
        rw [hjob, hr.state] at hready
        cases hready
    · exact absurd hi.token.mem_reqs hreq

/-- A request is queued, or taken from a queue. -/
theorem Inv.passRequest (h : Inv S) (hl : S.Unblocked c) {q : Pc n}
    (hcore : S'.core = Function.update S.core c ((S.core c).goto q)) (hjob : S'.job = S.job)
    (hreqs : S'.reqs = S.reqs) (htoken : ∀ i o e, S'.Token i o e → S.Token i o e)
    (hd : S'.discardQueue = S.discardQueue) (ht : S'.timer = S.timer) (hfree : S'.free = S.free)
    (hstart : (S.core c).pc ≠ .arrived) (hhand : (S.core c).pc.hand = none)
    (hclears : (S.core c).pc.clears = none) (hhand' : q.hand = none) (hclears' : q.clears = none)
    (hholds : ∀ l ∈ q.holds c, l ∈ (S.core c).pc.holds c ∨ (S.core c).pc.wants c = some l)
    (htarget : q.target = none) (hacks : q.acks = none) (hx : q ≠ .complete) : Inv S' := by
  have hK := h.ok c
  refine h.frame hl hcore (Core.held_goto (hhand'.trans hhand.symm)) (fun i _ => by rw [hjob])
    (fun i => by rw [hjob]) ?_ hreqs htoken hd ht hfree hstart hholds htarget ?_
  · rw [hjob]
    exact hK.still (fun _ => rfl) rfl rfl rfl hhand' (hclears'.trans hclears.symm)
      (fun he => absurd he hx) (hK.isIdle_eq hhand)
  · intro i hi
    rw [Core.goto_pc, hacks] at hi
    cases hi

/-- A core with a request puts it in the queue of core `d`. -/
theorem Sys.reqs_claim (hcore : S'.core = Function.update S.core c K')
    (hr : (S.core c).pc.request = some j) (hr' : K'.pc.request = none) {rq : MigrationRequest n}
    (hj : rq.job = j) (hq : S'.migrationRequestQueue = Function.update S.migrationRequestQueue d
      ((S.migrationRequestQueue d).claim rq)) : S'.reqs = S.reqs := by
  have h := sum_update (fun K : Core n => (K.pc.request.toList : Multiset (JobId n))) S.core c K'
  have h' := sum_update Sys.queuedJobs S.migrationRequestQueue d ((S.migrationRequestQueue d).claim rq)
  rw [hr, hr'] at h
  rw [Sys.queuedJobs_claim, hj, Multiset.add_cons, ← Multiset.cons_add] at h'
  have h' := add_right_cancel h'
  simp only [Option.toList_none, Option.toList_some, Multiset.coe_nil, add_zero,
    Multiset.coe_singleton] at h
  rw [Sys.reqs, Sys.reqs, hcore, hq]
  change ∑ e, Sys.queuedJobs _ + _ = ∑ e, Sys.queuedJobs _ + _
  rw [h', ← h, ← Multiset.singleton_add]
  abel

theorem Sys.values_claim {rq : MigrationRequest n} {q : Fin n → TicketQueue (MigrationRequest n)}
    {e : Fin n} {r : MigrationRequest n} (h : r ∈ (Function.update q d ((q d).claim rq) e).values) :
    r ∈ (q e).values ∨ r = rq := by
  by_cases he : e = d
  · subst he
    rw [Function.update_self, TicketQueue.values_claim, List.mem_append, List.mem_singleton] at h
    exact h
  · rw [Function.update_of_ne he] at h
    exact .inl h

/-- **A request is queued.** -/
theorem Inv.claim (h : Inv S) (hl : S.Unblocked c) {q : Pc n}
    (hp : (S.core c).pc.token c = some (j, c)) (he : (S.core c).pc.isEarly = true)
    (hcore : S'.core = Function.update S.core c ((S.core c).goto q)) (hjob : S'.job = S.job)
    (hq : S'.migrationRequestQueue = Function.update S.migrationRequestQueue d
      ((S.migrationRequestQueue d).claim ⟨j, c⟩))
    (hd : S'.discardQueue = S.discardQueue) (ht : S'.timer = S.timer) (hfree : S'.free = S.free)
    (hstart : (S.core c).pc ≠ .arrived) (hhand : (S.core c).pc.hand = none)
    (hclears : (S.core c).pc.clears = none) (hhand' : q.hand = none) (hclears' : q.clears = none)
    (hholds : ∀ l ∈ q.holds c, l ∈ (S.core c).pc.holds c ∨ (S.core c).pc.wants c = some l)
    (htarget : q.target = none) (hacks : q.acks = none) (hx : q ≠ .complete)
    (htok : q.token c = none) : Inv S' := by
  have hreqs : S'.reqs = S.reqs := by
    refine Sys.reqs_claim hcore (j := j) ?_ ?_ rfl hq
    · rw [Pc.request_eq c, hp]
      rfl
    · rw [Core.goto_pc, Pc.request_eq c, htok]
      rfl
  refine h.passRequest hl hcore hjob hreqs ?_ hd ht hfree hstart hhand hclears hhand' hclears' hholds
    htarget hacks hx
  intro i o e hi
  cases hi with
  | @core e _ _ hi =>
    by_cases hec : e = c
    · rw [hec, hcore, Function.update_self, Core.goto_pc, htok] at hi
      cases hi
    · rw [hcore, Function.update_of_ne hec] at hi ⊢
      exact .core hi
  | @queued e r hi =>
    rw [hq] at hi
    rcases Sys.values_claim hi with hi | rfl
    · exact .queued hi
    · have := Sys.Token.core hp
      rwa [he] at this

theorem OfferStep.inv (hs : OfferStep cfg c S S') (h : Inv S) (hl : S.Unblocked c) : Inv S' := by
  have hK := h.ok c
  cases hs with
  | exchange hp hj hm hf => exact h.exchange hl hp hj hf rfl rfl rfl rfl rfl rfl
  | withdraw hp => exact h.withdraw hl hp rfl rfl rfl rfl rfl rfl
  | getRef hp hd => exact h.getRef hl hp rfl rfl rfl rfl rfl rfl
  | claim hp =>
    exact h.claim hl (by rw [hp]; rfl) (by rw [hp]; rfl) rfl rfl rfl rfl rfl rfl (by rw [hp]; nofun)
      (by rw [hp]; rfl) (by rw [hp]; rfl) rfl rfl (by rw [hp]; exact fun l hl => .inl hl) rfl rfl nofun
      rfl
  | publish hp hf =>
    exact h.quiet hl rfl (.goto hK (.of hp rfl rfl nofun rfl (by simp [Pc.holds, Pc.wants])) nofun)
      (TicketQueue.values_update_publish _ _ _) rfl rfl rfl
  | createFuture hp ho hj =>
    obtain ⟨hfree, f, g, rfl⟩ := Sys.takeFree_eq_some hj
    refine h.create hl ?_ rfl rfl rfl rfl rfl rfl hfree
    exact ⟨fun _ => rfl, rfl, rfl, rfl, rfl, by rw [hp]; rfl, rfl, by rw [hp]; rfl, rfl,
      by rw [hp]; rfl, rfl, by rw [hp]; nofun, rfl, rfl, nofun, fun i hi => (Option.some.inj hi).symm,
      ⟨rfl, rfl⟩⟩
  | sendFuture hp hd hr =>
    exact h.sendFuture hl hp rfl rfl (fun _ => rfl) rfl rfl rfl rfl rfl rfl rfl rfl rfl
  | claimFuture hp =>
    exact h.claim hl (by rw [hp]; rfl) (by rw [hp]; rfl) rfl rfl rfl rfl rfl rfl (by rw [hp]; nofun)
      (by rw [hp]; rfl) (by rw [hp]; rfl) rfl rfl nofun rfl rfl nofun rfl
  | publishFuture hp hf =>
    exact h.quiet hl rfl (.still hK (fun _ => rfl) rfl rfl rfl rfl (.of hp rfl rfl nofun rfl (by simp [Pc.holds, Pc.wants])) nofun)
      (TicketQueue.values_update_publish _ _ _) rfl rfl rfl

/-! ## Requests -/

/-- A job with a request is not the target of another one. -/
theorem Inv.token_not_target (h : Inv S) {o : Fin n} (hp : (S.core c).pc.token c = some (j, o))
    (d : Fin n) : (S.core d).pc.target ≠ some j :=
  fun ht => h.target d j ht (Sys.Token.core hp).mem_reqs

/-- A core ends a request. -/
theorem Sys.reqs_drop (hcore : S'.core = Function.update S.core c K')
    (hr : (S.core c).pc.request = some j) (hr' : K'.pc.request = none)
    (hq : ∀ d, (S'.migrationRequestQueue d).values = (S.migrationRequestQueue d).values) :
    S.reqs = j ::ₘ S'.reqs := by
  have h := sum_update (fun K : Core n => (K.pc.request.toList : Multiset (JobId n))) S.core c K'
  rw [hr, hr'] at h
  simp only [Option.toList_none, Option.toList_some, Multiset.coe_nil, add_zero,
    Multiset.coe_singleton] at h
  rw [Sys.reqs, Sys.reqs, hcore, ← h, ← Multiset.singleton_add]
  simp only [hq]
  abel

/-- **A request drops its reference.** -/
theorem Inv.dropRequest (h : Inv S) (hl : S.Unblocked c) {o : Fin n}
    (hp : (S.core c).pc.token c = some (j, o)) (hhand : (S.core c).pc.hand = none)
    (hclears : (S.core c).pc.clears = none)
    (hcore : S'.core = Function.update S.core c ((S.core c).goto .process))
    (hjob : S'.job = S.job.set j r) (hcalm : (S.job j).Calm r)
    (hn : r.refcount = (S.job j).refcount - 1)
    (hq : S'.migrationRequestQueue = S.migrationRequestQueue)
    (hd : S'.discardQueue = S.discardQueue) (ht : S'.timer = S.timer)
    (hfree : S'.free = if (S.job j).refcount = 1 then j ::ₘ S.free else S.free) : Inv S' := by
  have hK := h.ok c
  have hshelf : S'.shelf = S.shelf := Sys.shelf_congr hd ht
  have hheld : ((S.core c).goto .process).held = (S.core c).held := Core.held_goto hhand.symm
  have hreqs : S.reqs = j ::ₘ S'.reqs := by
    refine Sys.reqs_drop hcore ?_ rfl fun d => by rw [hq]
    rw [Pc.request_eq c, hp]
    rfl
  refine h.update hl hcore hjob ht (fun i _ => by rw [hheld]) (fun _ _ => by rw [hshelf])
    (fun d r hr => by rwa [hq] at hr) nofun ?_ ?_ nofun ?_ ?_ (fun _ _ _ => hcalm)
    (fun d _ => h.token_not_target hp d) ?_ ?_ nofun nofun nofun
  · refine .dropReq j (Sys.held_congr hcore hheld hshelf) hreqs hfree ?_
    change (fun i => (S'.job i).refcount) = _
    rw [hjob, Sys.ref_set, hn]
    rfl
  · intro hx
    rw [hx] at hp
    cases hp
  · have hn := h.once
    rw [hreqs] at hn
    exact (Multiset.nodup_cons.1 hn).2
  · have hok : ((S.core c).goto .process).Ok S.job :=
      hK.still (fun _ => rfl) rfl rfl rfl rfl hclears.symm nofun (hK.isIdle_eq hhand)
    rw [hjob]
    exact hok.set fun _ => hcalm
  · rw [hshelf]
    intro hsh
    exact absurd hsh (h.token j o _ (.core hp)).shelf
  · rintro o e (⟨hi, -⟩ | hi)
    · cases hi
    · exact (Sys.Rest.false h.once hp hi).elim

/-- **The offer of a job ends**, its request goes on. -/
theorem Inv.endOffer (h : Inv S) (hl : S.Unblocked c) {o : Fin n} {q : Pc n}
    (hp : (S.core c).pc.token c = some (j, o)) (hhand : (S.core c).pc.hand = none)
    (hcore : S'.core = Function.update S.core c ((S.core c).goto q))
    (hjob : S'.job = S.job.set j { S.job j with isBeingOffered := false })
    (hq : S'.migrationRequestQueue = S.migrationRequestQueue)
    (hd : S'.discardQueue = S.discardQueue) (ht : S'.timer = S.timer) (hfree : S'.free = S.free)
    (hp' : q.token c = some (j, o)) (hlate : q.isEarly = false) (hhand' : q.hand = none)
    (hholds : ∀ l ∈ q.holds c, l ∈ (S.core c).pc.holds c ∨ (S.core c).pc.wants c = some l)
    (htarget : q.target = none) (hacks : q.acks = none)
    (hok : ((S.core c).goto q).Ok S'.job) : Inv S' := by
  have hshelf : S'.shelf = S.shelf := Sys.shelf_congr hd ht
  have hheld : ((S.core c).goto q).held = (S.core c).held :=
    Core.held_goto (hhand'.trans hhand.symm)
  have hreqs : S'.reqs = S.reqs := by
    refine Sys.reqs_congr hcore ?_ fun d => by rw [hq]
    rw [Core.goto_pc, Pc.request_eq c, Pc.request_eq c, hp, hp']
  have ho := h.token j o _ (.core hp)
  refine h.update hl hcore hjob ht (fun i _ => by rw [hheld]) (fun _ _ => by rw [hshelf])
    (fun d r hr => by rwa [hq] at hr) ?_ ?_ ?_ hholds ?_ hok
    (fun _ _ _ => ⟨⟨rfl, rfl, rfl, rfl, rfl⟩, nofun⟩) (fun d _ => h.token_not_target hp d) ?_ ?_ ?_ ?_
    ?_
  · intro i o' hi
    rw [Core.goto_pc, hp'] at hi
    exact (Prod.mk.inj (Option.some.inj hi)).1.symm
  · refine .keep (Sys.held_congr hcore hheld hshelf) hreqs hfree ?_
    change (fun i => (S'.job i).refcount) = fun i => (S.job i).refcount
    rw [hjob, Sys.ref_set]
    exact Function.update_eq_self ..
  · intro hx
    rw [hx] at hp
    cases hp
  · rw [hreqs]
    exact h.once
  · rw [hshelf]
    intro hsh
    exact absurd hsh ho.shelf
  · rintro o' e (⟨hi, rfl⟩ | hi)
    · rw [Core.goto_pc, hp'] at hi
      obtain ⟨-, rfl⟩ := Prod.mk.inj (Option.some.inj hi)
      rw [Core.goto_pc, hlate]
      refine ⟨?_, hshelf ▸ ho.shelf, nofun, nofun⟩
      intro d hd
      by_cases hdc : d = c
      · rw [hdc, hcore, Function.update_self, hheld] at hd
        rw [hdc]
        exact ho.owner c hd
      · rw [hcore, Function.update_of_ne hdc] at hd
        exact ho.owner d hd
    · exact (Sys.Rest.false h.once hp hi).elim
  · rw [Core.goto_pc, htarget]
    nofun
  · intro i b k hi
    rw [Core.goto_pc] at hi
    rw [hi] at htarget
    cases htarget
  · rw [Core.goto_pc, hacks]
    nofun

/-- A pending job more -/
theorem Core.held_pend {q : Pc n} (h : K.pc.hand = none) (hq : q.hand = none) :
    { K with pendingJobsQueue := insertBy (arrivalOf J) j K.pendingJobsQueue
             pc := q : Core n }.held = j ::ₘ K.held := by
  rw [Core.held_eq, Core.held_eq, h, hq]
  simp only [Core.placed, Core.lists, coe_insertBy, Option.toList_none, Multiset.coe_nil, add_zero,
    Multiset.add_cons, Multiset.cons_add]

/-- **A future job goes from its request to the pending jobs of the core.** -/
theorem Inv.acceptFuture (h : Inv S) (hl : S.Unblocked c) {rq : MigrationRequest n}
    (hp : (S.core c).pc = .procDecide rq) (hi : (S.job rq.job).state = .idle)
    (hcore : S'.core = Function.update S.core c
      { S.core c with
        pendingJobsQueue := insertBy (arrivalOf S.job) rq.job (S.core c).pendingJobsQueue
        pc := .procAckClaim rq })
    (hjob : S'.job = S.job.set rq.job r) (hs : r.state = .idle)
    (hf : r.isBeingOffered = (S.job rq.job).isBeingOffered)
    (ha : r.arrivalTime = (S.job rq.job).arrivalTime)
    (hn : r.refcount = (S.job rq.job).refcount)
    (hq : S'.migrationRequestQueue = S.migrationRequestQueue)
    (hd : S'.discardQueue = S.discardQueue) (ht : S'.timer = S.timer) (hfree : S'.free = S.free) :
    Inv S' := by
  have hK := h.ok c
  have hhand : (S.core c).pc.hand = none := by rw [hp]; rfl
  have htk : (S.core c).pc.token c = some (rq.job, rq.fromCore) := by rw [hp]; rfl
  have ho := h.token rq.job rq.fromCore _ (.core htk)
  obtain ⟨hoff, -, hout⟩ : (S.job rq.job).isBeingOffered = false ∧ (S.job rq.job).state = .idle ∧
      rq.job ∉ S.held := by
    rcases ho.offer (by rw [hp]; rfl) with ⟨-, hx⟩ | hx
    · exact absurd hi hx
    · exact hx
  have hcout : ∀ d, rq.job ∉ (S.core d).held := fun d hm => hout (Sys.mem_held.2 (.inl ⟨d, hm⟩))
  have hshelf : S'.shelf = S.shelf := Sys.shelf_congr hd ht
  have hheld : { S.core c with
      pendingJobsQueue := insertBy (arrivalOf S.job) rq.job (S.core c).pendingJobsQueue
      pc := .procAckClaim rq : Core n }.held = rq.job ::ₘ (S.core c).held := Core.held_pend hhand rfl
  have hallHeld : S'.held = rq.job ::ₘ S.held := Sys.held_add hcore hshelf hheld
  have hreqs : S.reqs = rq.job ::ₘ S'.reqs :=
    Sys.reqs_drop hcore (by rw [hp]; rfl) rfl fun d => by rw [hq]
  refine h.update hl hcore hjob ht ?_ (fun _ _ => by rw [hshelf]) (fun d r hr => by rwa [hq] at hr)
    nofun ?_ (by rw [hp]; nofun) (by rw [hp]; exact fun l hl => .inl hl) ?_ ?_
    (fun d _ hm => absurd hm (hcout d)) (fun d _ => h.token_not_target htk d) ?_ ?_ nofun nofun ?_
  · intro i hi
    rw [hheld, Multiset.mem_cons, or_iff_right hi]
  · refine .accept rq.job hout hallHeld hreqs hfree ?_
    change (fun i => (S'.job i).refcount) = fun i => (S.job i).refcount
    rw [hjob, Sys.ref_set, hn]
    exact Function.update_eq_self ..
  · have hn := h.once
    rw [hreqs] at hn
    exact (Multiset.nodup_cons.1 hn).2
  · rw [hjob]
    have hqs := hK.queues.set (fun hm => hcout c (Core.mem_held_of_placed hm)) r
    have har : arrivalOf (S.job.set rq.job r) = arrivalOf S.job :=
      funext (Jobs.set_field (·.arrivalTime) ha)
    refine ⟨⟨hqs.queued, ?_, ?_, hqs.running, hqs.sorted, ?_⟩, nofun, fun _ => hK.isIdle_eq hhand,
      nofun, nofun⟩
    · intro i hi
      have hk := hqs.discarded i hi
      refine ⟨hk.state, hk.linked, fun hx => ?_⟩
      have := hk.offer hx
      rw [hp] at this
      cases this
    · intro i hi
      rcases mem_insertBy.1 hi with rfl | hi
      · rw [Jobs.set_self]
        exact ⟨hs, hf.trans hoff⟩
      · exact hqs.pending i hi
    · have hso := hqs.sortedPending
      rw [har] at hso ⊢
      exact hso.insertBy
  · rw [hshelf]
    intro hsh
    exact absurd hsh ho.shelf
  · rintro o' e (⟨hx, -⟩ | hx)
    · cases hx
    · exact (Sys.Rest.false h.once htk hx).elim
  · rintro i ⟨⟩
    exact mem_insertBy.2 (.inl rfl)

/-! ### A queued job moves to another core -/

@[simp] theorem Core.listDel_pc (K : Core n) (j : JobId n) : (K.listDel j).pc = K.pc := rfl

@[simp] theorem Core.listDel_runningJob (K : Core n) (j : JobId n) :
    (K.listDel j).runningJob = K.runningJob := rfl

theorem Core.queue_listDel (K : Core n) (j : JobId n) (b : Bool) :
    (K.listDel j).queue b = (K.queue b).erase j := by
  cases b <;> rfl

theorem Core.less_listDel (hp : j ∉ K.pendingJobsQueue) : K.Less j (K.listDel j) := by
  refine ⟨rfl, rfl, rfl, List.erase_of_not_mem hp, ?_, List.erase_sublist, ?_, ?_⟩
  · intro b
    rw [Core.queue_listDel]
    exact List.erase_sublist
  · intro b i hi hij
    rw [Core.queue_listDel]
    exact (List.mem_erase_of_ne hij).2 hi
  · intro i hi hij
    exact (List.mem_erase_of_ne hij).2 hi

theorem Core.listDel_eq {b : Bool} (hn : K.placed.Nodup) (hj : j ∈ K.queue b) :
    K.listDel j = K.setQueue b ((K.queue b).erase j) := by
  obtain ⟨hd, hp⟩ := Core.notMem_of_queue hn hj
  rw [Core.placed_clear K b] at hn
  have hout : ∀ a, a ≠ b → j ∉ K.queue a := by
    intro a hab hm
    have hm' : j ∈ (K.setQueue b []).queue a := by
      rw [Core.queue_setQueue, if_neg hab]
      exact hm
    exact Multiset.disjoint_left.1 (Multiset.nodup_add.1 hn).2.2 (Multiset.mem_coe.2 hj)
      (Core.mem_placed_of_queue hm')
  have hde := List.erase_of_not_mem hd
  have hpe := List.erase_of_not_mem hp
  cases b with
  | false =>
    have ho := List.erase_of_not_mem (hout true (by decide))
    simp only [queue, if_true] at ho
    simp only [listDel, setQueue, queue, hde, hpe, ho, Bool.false_eq_true, if_false]
  | true =>
    have ho := List.erase_of_not_mem (hout false (by decide))
    simp only [queue, Bool.false_eq_true, if_false] at ho
    simp only [listDel, setQueue, queue, hde, hpe, ho, if_true]

/-- A job that a core has in a queue leaves it. -/
theorem Core.held_listDel {b : Bool} (hn : K.held.Nodup) (hj : j ∈ K.queue b) :
    K.held = j ::ₘ (K.listDel j).held := by
  have hpl := Core.placed_nodup hn
  have hl : (↑(K.queue b) : Multiset (JobId n)) = j ::ₘ ↑((K.queue b).erase j) :=
    Multiset.coe_eq_coe.2 (List.perm_cons_erase hj)
  rw [Core.held_eq, Core.held_eq, Core.listDel_pc, Core.placed_queue hl, Core.listDel_eq hpl hj,
    Multiset.cons_add]

theorem Core.listDel_of_notMem (h : j ∉ K.held) : K.listDel j = K := by
  have hm : j ∉ K.placed := fun hp => h (Core.mem_held_of_placed hp)
  rw [Core.mem_placed] at hm
  simp only [not_or] at hm
  obtain ⟨h1, h2, h3, h4, -⟩ := hm
  simp only [listDel, List.erase_of_not_mem h1, List.erase_of_not_mem h2, List.erase_of_not_mem h3,
    List.erase_of_not_mem h4]

/-- The core of a job in a discard list that is on offer has decided its request. -/
theorem Inv.clears_of_discarded (h : Inv S) (hm : j ∈ (S.core d).discardList)
    (hf : (S.job j).isBeingOffered = true) :
    (S.core d).pc.token d = some (j, d) ∧ (S.core d).pc.isEarly = false := by
  have hc := ((h.ok d).queues.discarded j hm).offer hf
  cases hq : (S.core d).pc with
  | procClear r =>
    rw [hq] at hc
    obtain rfl := Option.some.inj hc
    exact ⟨rfl, rfl⟩
  | _ =>
    rw [hq] at hc
    cases hc

theorem Sys.TokenOk.offered {o : Fin n} (h : S.TokenOk j o true) (hr : (S.job j).state = .ready) :
    (S.job j).isBeingOffered = true := by
  rcases h.offer rfl with ⟨hf, -⟩ | ⟨-, hi, -⟩
  · exact hf
  · rw [hr] at hi
    cases hi

/-- A ready job with an undecided request is in no discard list. -/
theorem Inv.notMem_discardList (h : Inv S) {o : Fin n} (ht : S.Token j o true)
    (hr : (S.job j).state = .ready) (d : Fin n) : j ∉ (S.core d).discardList := by
  intro hm
  obtain ⟨htd, he⟩ := h.clears_of_discarded hm ((h.token j o true ht).offered hr)
  generalize hb : true = b at ht
  cases ht with
  | @core c _ _ htc =>
    by_cases hdc : d = c
    · rw [hdc, ← hb] at he
      cases he
    · exact Sys.Rest.false h.once htc (.core hdc htd)
  | queued hq => exact Sys.Rest.false h.once htd (.queued hq)

/-- Where a queued job with an undecided request is: in a queue of the core
    that made the request. -/
theorem Inv.queued_of_early (h : Inv S) {o : Fin n} (ht : S.Token j o true)
    (hl : (S.job j).linked = true) (hr : (S.job j).state = .ready) :
    ∃ b, j ∈ (S.core o).queue b := by
  have ho := h.token j o _ ht
  have hflag := ho.offered hr
  rcases Sys.mem_held.1 (ho.ready rfl hr) with ⟨d, hd⟩ | hs
  · obtain rfl := ho.owner d hd
    have hK := h.ok d
    rcases Core.mem_held.1 hd with hp | hp
    · rcases Core.mem_placed.1 hp with hm | hm | hm | hm | hm
      · exact ⟨false, hm⟩
      · exact ⟨true, hm⟩
      · exact absurd hm (h.notMem_discardList ht hr d)
      · rw [(hK.queues.pending j hm).state] at hr
        cases hr
      · rw [hK.queues.running j hm] at hr
        cases hr
    · rw [(hK.hand j hp).not_offered hp hr hl] at hflag
      cases hflag
  · exact absurd hs ho.shelf

theorem Sys.token_of_decide {rq : MigrationRequest n} (hp : (S.core c).pc = .procDecide rq) :
    S.Token rq.job rq.fromCore true := by
  have he : (S.core c).pc.isEarly = true := by rw [hp]; rfl
  rw [← he]
  exact .core (by rw [hp]; rfl)

/-- **A queued job goes from its core to the hands of another one.** -/
theorem Inv.accept (h : Inv S) {rq : MigrationRequest n}
    (hp : (S.core c).pc = .procDecide rq) (hlk : (S.job rq.job).linked = true)
    (hr : (S.job rq.job).state = .ready) : Inv ((S.listDel rq.job).goto c (.procInsert rq)) := by
  have hK := h.ok c
  have hhand : (S.core c).pc.hand = none := by rw [hp]; rfl
  have htk : (S.core c).pc.token c = some (rq.job, rq.fromCore) := by rw [hp]; rfl
  have hcl : (S.core c).pc.clears = none := by rw [hp]; rfl
  have ho := h.token rq.job rq.fromCore _ (.core htk)
  obtain ⟨b, hb⟩ := h.queued_of_early (Sys.token_of_decide hp) hlk hr
  have hpend : ∀ d, rq.job ∉ (S.core d).pendingJobsQueue := by
    intro d hm
    rw [((h.ok d).queues.pending _ hm).state] at hr
    cases hr
  have hdq : S.discardQueue.erase rq.job = S.discardQueue := by
    refine List.erase_of_not_mem fun hm => ho.shelf ?_
    rw [Sys.shelf_eq, Multiset.mem_add]
    exact .inl (Multiset.mem_coe.2 hm)
  have hshelf : (S.listDel rq.job).shelf = S.shelf := by
    change (↑(S.discardQueue.erase rq.job) : Multiset (JobId n)) + _ = _
    rw [hdq]
    rfl
  have hcore : (S.listDel rq.job).core =
      Function.update S.core rq.fromCore ((S.core rq.fromCore).listDel rq.job) := by
    ext1 d
    by_cases hd : d = rq.fromCore
    · rw [hd, Function.update_self]
      rfl
    · rw [Function.update_of_ne hd]
      exact Core.listDel_of_notMem fun hm => hd (ho.owner d hm)
  have hdrop := Sys.held_drop hcore hshelf (Core.held_listDel (h.core_nodup _) hb)
  have hout : rq.job ∉ (S.listDel rq.job).held := by
    have hn := h.held_nodup
    rw [hdrop] at hn
    exact (Multiset.nodup_cons.1 hn).1
  have hcout : ∀ d, rq.job ∉ ((S.core d).listDel rq.job).held :=
    fun d hm => hout (Sys.mem_held.2 (.inl ⟨d, hm⟩))
  have hheld : (((S.core c).listDel rq.job).goto (.procInsert rq)).held =
      rq.job ::ₘ ((S.core c).listDel rq.job).held := by
    rw [Core.held_eq, Core.held_eq, Core.listDel_pc, hhand]
    simp only [Core.placed_goto, Core.goto_pc, Pc.hand, Option.toList_none, Option.toList_some,
      Multiset.coe_nil, add_zero, Multiset.coe_singleton]
    exact add_comm _ _
  have hless : ∀ d, (S.core d).Less rq.job ((S.core d).listDel rq.job) :=
    fun d => Core.less_listDel (hpend d)
  have hne : ∀ d ≠ c, ((S.listDel rq.job).goto c (.procInsert rq)).core d =
      (S.core d).listDel rq.job := by
    intro d hd
    exact Function.update_of_ne hd ..
  have hself : ((S.listDel rq.job).goto c (.procInsert rq)).core c =
      ((S.core c).listDel rq.job).goto (.procInsert rq) := Function.update_self ..
  have hreqs : ((S.listDel rq.job).goto c (.procInsert rq)).reqs = (S.listDel rq.job).reqs := by
    refine Sys.reqs_congr rfl ?_ fun _ => rfl
    change _ = (S.core c).pc.request
    rw [hp]
    rfl
  have hcases : ∀ i o e, ((S.listDel rq.job).goto c (.procInsert rq)).Token i o e →
      (some (rq.job, c) = some (i, o) ∧ e = false) ∨ S.Rest c i o e := by
    intro i o e ht
    have hc := ht.cases_core (S := S) (c := c) (fun d hd => by rw [hne d hd]; rfl) (fun _ _ => id)
    rwa [hself] at hc
  have m : Move S ((S.listDel rq.job).goto c (.procInsert rq)) c rq.job := by
    refine ⟨?_, rfl, fun i hi => Jobs.set_ne _ _ hi, ?_, fun i _ => ?_, ?_⟩
    · intro d hd
      rw [hne d hd]
      exact hless d
    · intro i hi
      rw [hself, hheld, Multiset.mem_cons, or_iff_right hi]
      exact ⟨(hless c).held, fun hm => (hless c).mem_held hm hi⟩
    · change i ∈ (S.listDel rq.job).shelf ↔ _
      rw [hshelf]
    · intro i o e hi ht
      rcases hcases i o e ht with ⟨hx, -⟩ | hx
      · exact absurd (Prod.mk.inj (Option.some.inj hx)).1.symm hi
      · exact hx.token
  have hallHeld : ((S.listDel rq.job).goto c (.procInsert rq)).held = S.held := by
    rw [hdrop]
    exact Sys.held_add (S := S.listDel rq.job) rfl rfl hheld
  refine h.move m ?_ (by rw [hp]; nofun) ?_ ?_ ?_ ?_ (fun d _ => h.token_not_target htk d) ?_ ?_ ?_ ?_ ?_
  · refine .keep hallHeld hreqs rfl ?_
    change (fun i => (S.job.set rq.job (S.job rq.job).unlink i).refcount) = _
    rw [Sys.ref_set]
    exact Function.update_eq_self ..
  · rw [hself, hp]
    exact fun l hl => .inl hl
  · rw [hreqs]
    exact h.once
  · rw [hself]
    have hok := (hless c).ok hK
    have hqs := hok.queues
    rw [Core.listDel_pc, hcl] at hqs
    refine ⟨(hqs.set (fun hm => hcout c (Core.mem_held_of_placed hm)) _).goto _, ?_, ?_, nofun, nofun⟩
    · rintro i ⟨⟩
      change (Pc.procInsert rq).HandOk (S.job.set rq.job _ rq.job)
      rw [Jobs.set_self]
      exact ⟨hr, rfl⟩
    · intro _
      exact hK.isIdle_eq hhand
  · intro d hd hm
    rw [hne d hd] at hm
    exact absurd hm (hcout d)
  · intro hm
    change rq.job ∈ (S.listDel rq.job).shelf at hm
    rw [hshelf] at hm
    exact absurd hm ho.shelf
  · intro o e ht
    rcases hcases _ o e ht with ⟨hx, rfl⟩ | hx
    · obtain ⟨-, rfl⟩ := Prod.mk.inj (Option.some.inj hx)
      refine ⟨?_, ?_, nofun, nofun⟩
      · intro e hm
        by_contra he
        rw [hne e he] at hm
        exact hcout e hm
      · change rq.job ∉ (S.listDel rq.job).shelf
        rw [hshelf]
        exact ho.shelf
    · exact (Sys.Rest.false h.once htk hx).elim
  · rw [hself]
    nofun
  · rw [hself]
    nofun
  · rw [hself]
    nofun

/-- A core takes a request from its queue. -/
theorem Sys.reqs_take (hcore : S'.core = Function.update S.core c K')
    (hr : (S.core c).pc.request = none) {rq : MigrationRequest n}
    (hr' : K'.pc.request = some rq.job) {q : TicketQueue (MigrationRequest n)}
    (hq : (S.migrationRequestQueue c).tryDequeue = some (rq, q))
    (hqs : S'.migrationRequestQueue = Function.update S.migrationRequestQueue c q) :
    S'.reqs = S.reqs := by
  have h1 := sum_update (fun K : Core n => (K.pc.request.toList : Multiset (JobId n))) S.core c K'
  have h2 := sum_update Sys.queuedJobs S.migrationRequestQueue c q
  rw [Sys.queuedJobs_tryDequeue hq, Multiset.add_cons, ← Multiset.cons_add] at h2
  have h2 := add_right_cancel h2
  rw [hr, hr'] at h1
  simp only [Option.toList_none, Option.toList_some, Multiset.coe_nil, add_zero,
    Multiset.coe_singleton] at h1
  rw [Sys.reqs, Sys.reqs, hcore, hqs]
  change ∑ e, Sys.queuedJobs _ + _ = ∑ e, Sys.queuedJobs _ + _
  rw [← h2, h1, ← Multiset.singleton_add]
  abel

/-- **A request is taken from the queue of the core.** -/
theorem Inv.dequeue (h : Inv S) (hl : S.Unblocked c) {rq : MigrationRequest n}
    {q : TicketQueue (MigrationRequest n)} (hp : (S.core c).pc = .process)
    (hq : (S.migrationRequestQueue c).tryDequeue = some (rq, q))
    (hcore : S'.core = Function.update S.core c ((S.core c).goto (.procLock1 rq)))
    (hjob : S'.job = S.job)
    (hqs : S'.migrationRequestQueue = Function.update S.migrationRequestQueue c q)
    (hd : S'.discardQueue = S.discardQueue) (ht : S'.timer = S.timer) (hfree : S'.free = S.free) :
    Inv S' := by
  have hvalues := (TicketQueue.tryDequeue_eq_some hq).1
  have hreqs : S'.reqs = S.reqs := Sys.reqs_take hcore (by rw [hp]; rfl) rfl hq hqs
  refine h.passRequest hl hcore hjob hreqs ?_ hd ht hfree (by rw [hp]; nofun) (by rw [hp]; rfl)
    (by rw [hp]; rfl) rfl rfl nofun rfl rfl nofun
  · intro i o e ht
    have hpc : ∀ d ≠ c, (S'.core d).pc = (S.core d).pc := by
      intro d hd
      rw [hcore, Function.update_of_ne hd]
    have hrq : ∀ d r, r ∈ (S'.migrationRequestQueue d).values →
        r ∈ (S.migrationRequestQueue d).values := by
      intro d r hr
      rw [hqs] at hr
      by_cases hd : d = c
      · rw [hd, Function.update_self] at hr
        rw [hd, hvalues]
        exact List.mem_cons_of_mem _ hr
      · rwa [Function.update_of_ne hd] at hr
    rcases ht.cases_core hpc hrq with ⟨hi, he⟩ | hi
    · rw [hcore, Function.update_self] at hi he
      obtain ⟨rfl, rfl⟩ := Prod.mk.inj (Option.some.inj hi)
      rw [he]
      exact .queued (c := c) (by rw [hvalues]; exact List.mem_cons_self)
    · exact hi.token

theorem RequestStep.inv (hs : RequestStep cfg c S S') (h : Inv S) (hl : S.Unblocked c) : Inv S' := by
  have hK := h.ok c
  cases hs with
  | dequeue hp hq => exact h.dequeue hl hp hq rfl rfl rfl rfl rfl rfl
  | done hp hq => exact h.quiet hl rfl (.goto hK (.of hp rfl rfl nofun rfl (by simp [Pc.holds, Pc.wants])) nofun) (fun _ => rfl) rfl rfl rfl
  | @reject rq hp =>
    refine h.endOffer hl (j := rq.job) (o := rq.fromCore) (by rw [hp]; rfl) (by rw [hp]; rfl) rfl rfl
      rfl rfl rfl rfl rfl rfl rfl (by rw [hp]; exact fun l hl => .inl hl) rfl rfl ?_
    have hok : ((S.core c).goto (.procReject rq)).Ok S.job :=
      hK.still (fun _ => rfl) rfl rfl rfl rfl (by rw [hp]; rfl) nofun (hK.isIdle_eq (by rw [hp]; rfl))
    exact hok.set fun _ => ⟨⟨rfl, rfl, rfl, rfl, rfl⟩, nofun⟩
  | acceptFuture hp hi =>
    exact h.acceptFuture hl hp hi.1 rfl rfl hi.1 rfl rfl rfl rfl rfl rfl rfl
  | accept hp hi hlk => exact h.accept hp hlk.1 hlk.2
  | @ackClaim rq hp =>
    refine h.frame hl rfl (Core.held_goto (by rw [hp]; rfl)) (fun _ _ => rfl) (fun _ => .refl _) ?_ ?_
      ?_ rfl rfl rfl (by rw [hp]; nofun) (by rw [hp]; exact fun l hl => .inl hl) rfl ?_
    · exact hK.still (fun _ => rfl) rfl rfl rfl rfl (by rw [hp]; rfl) nofun
        (hK.isIdle_eq (by rw [hp]; rfl))
    · exact Sys.reqs_congr rfl (by rw [hp]; rfl) fun _ => rfl
    · intro i o e ht
      have hpc : ∀ d ≠ c, (Function.update S.core c ((S.core c).goto (.procAckPublish rq
          (S.delegationAckQueue rq.fromCore).tail)) d).pc = (S.core d).pc := by
        intro d hd
        rw [Function.update_of_ne hd]
      rcases ht.cases_core (S := S) hpc (fun _ _ => id) with ⟨hi, -⟩ | hi
      · change (Function.update S.core c _ c).pc.token c = _ at hi
        rw [Function.update_self] at hi
        cases hi
      · exact hi.token
    · intro i hi
      exact h.acks c i (by rw [hp]; exact hi)
  | @ackPublish rq t hp hf =>
    have hm := h.acks c rq.job (by rw [hp]; rfl)
    have hoff := (hK.queues.pending _ hm).offer
    refine h.quiet hl rfl (.touch hK (fun _ => rfl) rfl rfl rfl rfl ?_
      (Core.mem_placed.2 (.inr (.inr (.inr (.inl hm))))) ⟨rfl, rfl, rfl, rfl, rfl⟩
      ⟨rfl, rfl, rfl, rfl, hoff.symm, id⟩ nofun) (fun _ => rfl) rfl rfl rfl
    exact .of hp rfl rfl nofun rfl (by simp [Pc.holds, Pc.wants])
  | @clear rq hp =>
    refine h.endOffer hl (j := rq.job) (o := c) (by rw [hp]; rfl) (by rw [hp]; rfl) rfl rfl
      rfl rfl rfl rfl rfl rfl rfl (by rw [hp]; exact fun l hl => .inl hl) rfl rfl ?_
    have hqs := hK.queues
    rw [hp] at hqs
    have hend := hqs.endOffer (r := { S.job rq.job with isBeingOffered := false })
      ⟨rfl, rfl, rfl, rfl, rfl⟩ rfl
    exact ⟨hend.goto _, nofun, fun _ => hK.isIdle_eq (by rw [hp]; rfl), nofun, nofun⟩
  | @putReject rq hp =>
    have hfree := (S.goto c .process).putJobRef_free (some c) rq.job
    obtain ⟨f, g, he⟩ := (S.goto c .process).putJobRef_eq (some c) rq.job
    rw [he] at hfree ⊢
    exact h.dropRequest hl (j := rq.job) (o := rq.fromCore) (by rw [hp]; rfl) (by rw [hp]; rfl)
      (by rw [hp]; rfl) rfl rfl ⟨⟨rfl, rfl, rfl, rfl, rfl⟩, id⟩ rfl rfl rfl rfl hfree
  | @putAccept rq hp =>
    let T := (S.setJob rq.job { S.job rq.job with
      nextMigrationEligibleTick := S.systemTime + jobMigrationCooldownTicks }).goto c .process
    have hfree := T.putJobRef_free (some c) rq.job
    obtain ⟨f, g, he⟩ := T.putJobRef_eq (some c) rq.job
    have hjob : T.job.set rq.job { T.job rq.job with refcount := (T.job rq.job).refcount - 1 } =
        S.job.set rq.job { S.job rq.job with
          nextMigrationEligibleTick := S.systemTime + jobMigrationCooldownTicks
          refcount := (S.job rq.job).refcount - 1 } := by
      change (S.job.set _ _).set rq.job _ = _
      rw [Jobs.set_set]
      change S.job.set rq.job { S.job.set rq.job _ rq.job with
        refcount := (S.job.set rq.job _ rq.job).refcount - 1 } = _
      rw [Jobs.set_self]
    have hcount : (T.job rq.job).refcount = (S.job rq.job).refcount := by
      change (S.job.set rq.job _ rq.job).refcount = _
      rw [Jobs.set_self]
    rw [hcount] at hfree
    rw [he] at hfree ⊢
    exact h.dropRequest hl (j := rq.job) (o := c) (by rw [hp]; rfl) (by rw [hp]; rfl)
      (by rw [hp]; rfl) rfl hjob ⟨⟨rfl, rfl, rfl, rfl, rfl⟩, id⟩ rfl rfl rfl rfl hfree

/-! ## The timer sweeps the discard queue -/

/-- **A step of the timer** that only touches jobs of the discard queue. -/
theorem Inv.sweep (h : Inv S) (ha : ∀ c, (S.core c).pc = .arrived) (hcore : S'.core = S.core)
    (hq : S'.migrationRequestQueue = S.migrationRequestQueue) (hstep : S.pool.Step S'.pool)
    (hjob : ∀ i ∉ S.shelf, S'.job i = S.job i) (hshelf : ∀ i ∈ S'.shelf, i ∈ S.shelf)
    (hready : ∀ i ∈ S'.shelf, (S'.job i).state = .ready) : Inv S' := by
  have hreqs : S'.reqs = S.reqs := by rw [Sys.reqs, Sys.reqs, hcore, hq]
  have hheld : ∀ i ∉ S.shelf, i ∈ S'.held ↔ i ∈ S.held := by
    intro i hi
    have hi' : i ∉ S'.shelf := fun hm => hi (hshelf i hm)
    rw [Sys.mem_held, Sys.mem_held, hcore, or_iff_left hi, or_iff_left hi']
  refine ⟨hstep.balanced h.balanced, ?_, ?_, ?_, ?_, hready, ?_, ?_, ?_, ?_⟩
  · rw [hreqs]
    exact h.once
  · rw [hcore]
    exact h.locks
  · rw [hcore]
    exact fun _ => ha
  · intro d
    rw [hcore]
    refine (h.ok d).calm ?_
    intro i hi
    rw [hjob i (h.notMem_shelf hi)]
  · intro i o e ht
    have ht : S.Token i o e := by
      cases ht with
      | @core d _ _ hd =>
        rw [hcore] at hd ⊢
        exact .core hd
      | @queued d r hr =>
        rw [hq] at hr
        exact .queued hr
    obtain ⟨h1, h2, h3, h4⟩ := h.token i o e ht
    refine ⟨?_, fun hm => h2 (hshelf i hm), ?_, ?_⟩
    · rw [hcore]
      exact h1
    · rw [hjob i h2, hheld i h2]
      exact h3
    · rw [hjob i h2, hheld i h2]
      exact h4
  · intro d i hi
    rw [hcore, ha d] at hi
    cases hi
  · intro d i b k hi
    rw [hcore, ha d] at hi
    cases hi
  · intro d i hi
    rw [hcore, ha d] at hi
    cases hi

/-- No core has a request. -/
theorem Sys.reqs_restart (h : ∀ c, (S.core c).pc.request = none)
    (h' : ∀ c, (S'.core c).pc.request = none)
    (hq : S'.migrationRequestQueue = S.migrationRequestQueue) : S'.reqs = S.reqs := by
  rw [Sys.reqs, Sys.reqs, hq]
  simp only [h, h']

/-- **The cores start the next tick.** -/
theorem Inv.advance (h : Inv S) (ha : ∀ c, (S.core c).pc = .arrived)
    (hcore : S'.core = fun c => (S.core c).goto .start) (hjob : S'.job = S.job)
    (hq : S'.migrationRequestQueue = S.migrationRequestQueue)
    (hd : S'.discardQueue = S.discardQueue) (ht : S'.timer = .idle) (ht' : S.timer.hand = none)
    (hfree : S'.free = S.free) : Inv S' := by
  have hshelf : S'.shelf = S.shelf := by
    rw [Sys.shelf_eq, Sys.shelf_eq, hd, ht, ht']
    rfl
  have hpc : ∀ c, (S'.core c).pc = .start := by
    intro c
    rw [hcore]
    rfl
  have hcheld : ∀ c, (S'.core c).held = (S.core c).held := by
    intro c
    rw [hcore]
    exact Core.held_goto (by rw [ha c]; rfl)
  have hheld : S'.held = S.held := by
    rw [Sys.held_eq, Sys.held_eq, hshelf]
    simp only [hcheld]
  have hreqs : S'.reqs = S.reqs :=
    Sys.reqs_restart (fun c => by rw [ha c]; rfl) (fun c => by rw [hpc c]; rfl) hq
  refine ⟨?_, ?_, ?_, fun hb => absurd ht hb, ?_, ?_, ?_, ?_, ?_, ?_⟩
  · have href : S'.pool.ref = S.pool.ref := by
      change (fun i => (S'.job i).refcount) = fun i => (S.job i).refcount
      rw [hjob]
    have hstep : S.pool.Step S'.pool := .keep hheld hreqs hfree href
    exact hstep.balanced h.balanced
  · rw [hreqs]
    exact h.once
  · intro c d l hl
    rw [hpc c] at hl
    exact absurd hl (Finset.notMem_empty l)
  · intro c
    rw [hcore, hjob]
    exact (h.ok c).still (fun _ => rfl) rfl rfl rfl rfl (by rw [ha c]; rfl) nofun
      ((h.ok c).isIdle_eq (by rw [ha c]; rfl))
  · rw [hshelf, hjob]
    exact h.shelf
  · intro i o e htk
    have htk : S.Token i o e := by
      cases htk with
      | @core d _ _ hc =>
        rw [hpc d] at hc
        cases hc
      | @queued d r hr =>
        rw [hq] at hr
        exact .queued hr
    obtain ⟨h1, h2, h3, h4⟩ := h.token i o e htk
    refine ⟨?_, by rwa [hshelf], by rwa [hjob, hheld], by rwa [hjob, hheld]⟩
    intro d hm
    rw [hcheld] at hm
    exact h1 d hm
  · intro d i hi
    rw [hpc d] at hi
    cases hi
  · intro d i b k hi
    rw [hpc d] at hi
    cases hi
  · intro d i hi
    rw [hpc d] at hi
    cases hi

theorem Sys.held_of_shelf (hcore : S'.core = S.core) (hs : S'.shelf = S.shelf) : S'.held = S.held := by
  rw [Sys.held_eq, Sys.held_eq, hcore, hs]

theorem Sys.held_drop_shelf (hcore : S'.core = S.core) (hs : S.shelf = j ::ₘ S'.shelf) :
    S.held = j ::ₘ S'.held := by
  rw [Sys.held_eq, Sys.held_eq, hcore, hs, Multiset.add_cons]

theorem TimerStep.inv (hs : TimerStep cfg S S') (h : Inv S) : Inv S' := by
  cases hs with
  | sweep ht ha =>
    have hshelf : ({ S with timer := .sweep 0 } : Sys n).shelf = S.shelf := by
      rw [Sys.shelf_eq, Sys.shelf_eq, ht]
      rfl
    refine h.sweep ha rfl rfl (.keep (Sys.held_of_shelf rfl hshelf) rfl rfl rfl)
      (fun _ _ => rfl) ?_ ?_
    · rw [hshelf]
      exact fun _ => id
    · rw [hshelf]
      exact h.shelf
  | @keep k j ht hj he =>
    have ha := h.timer (by rw [ht]; nofun)
    have hshelf : ({ S with timer := .sweep (k + 1) } : Sys n).shelf = S.shelf := by
      rw [Sys.shelf_eq, Sys.shelf_eq, ht]
      rfl
    refine h.sweep ha rfl rfl (.keep (Sys.held_of_shelf rfl hshelf) rfl rfl rfl)
      (fun _ _ => rfl) ?_ ?_
    · rw [hshelf]
      exact fun _ => id
    · rw [hshelf]
      exact h.shelf
  | @expire k j ht hj he =>
    have ha := h.timer (by rw [ht]; nofun)
    have hmem : j ∈ S.shelf := Multiset.mem_add.2 (.inl (List.mem_of_getElem? hj))
    have hshelf : ({ S.setJob j (S.job j).unlink with
        discardQueue := S.discardQueue.eraseIdx k, timer := .sweepPut j k } : Sys n).shelf =
        S.shelf := by
      rw [Sys.shelf_eq, Sys.shelf_eq, ht, coe_eraseIdx hj]
      change _ + ({j} : Multiset (JobId n)) = _
      rw [add_comm, Multiset.singleton_add]
      exact (add_zero _).symm
    refine h.sweep ha rfl rfl (.keep (Sys.held_of_shelf rfl hshelf) rfl rfl ?_) ?_ ?_ ?_
    · change (fun i => (S.job.set j (S.job j).unlink i).refcount) = _
      rw [Sys.ref_set]
      exact Function.update_eq_self ..
    · intro i hi
      exact Jobs.set_ne _ _ fun hij => hi (hij ▸ hmem)
    · rw [hshelf]
      exact fun _ => id
    · rw [hshelf]
      intro i hi
      change (S.job.set j (S.job j).unlink i).state = _
      by_cases hij : i = j
      · rw [hij, Jobs.set_self]
        exact h.shelf j hmem
      · rw [Jobs.set_ne _ _ hij]
        exact h.shelf i hi
  | @put k j ht =>
    have ha := h.timer (by rw [ht]; nofun)
    have hshelf : S.shelf = j ::ₘ ↑S.discardQueue := by
      rw [Sys.shelf_eq, ht]
      exact add_comm (↑S.discardQueue) ({j} : Multiset (JobId n))
    have hfree := ({ S with timer := .sweep k } : Sys n).putJobRef_free none j
    obtain ⟨f, g, he⟩ := ({ S with timer := .sweep k } : Sys n).putJobRef_eq none j
    rw [he] at hfree ⊢
    have hmem : j ∈ S.shelf := by rw [hshelf]; exact Multiset.mem_cons_self ..
    refine h.sweep ha rfl rfl (.dropHeld j (Sys.held_drop_shelf rfl ?_) rfl hfree ?_) ?_ ?_ ?_
    · rw [hshelf]
      exact congrArg (j ::ₘ ·) (add_zero _).symm
    · exact Sys.ref_set ..
    · intro i hi
      exact Jobs.set_ne _ _ fun hij => hi (hij ▸ hmem)
    · intro i hi
      rw [hshelf]
      exact Multiset.mem_cons_of_mem (by simpa [Sys.shelf_eq, TimerPc.hand] using hi)
    · intro i hi
      have hi : i ∈ S.discardQueue := by simpa [Sys.shelf_eq, TimerPc.hand] using hi
      change (S.job.set j _ i).state = _
      by_cases hij : i = j
      · rw [hij, Jobs.set_self]
        exact h.shelf j hmem
      · rw [Jobs.set_ne _ _ hij]
        exact h.shelf i (by rw [hshelf]; exact Multiset.mem_cons_of_mem hi)
  | advance ht hj hf hl =>
    exact h.advance (h.timer (by rw [ht]; nofun)) rfl rfl rfl rfl rfl (by rw [ht]; rfl) rfl

/-! ## Every run -/

theorem CoreStep.inv (hs : CoreStep cfg c S S') (h : Inv S) (hl : S.Unblocked c) : Inv S' := by
  cases hs with
  | own hs he =>
    subst he
    exact h.quiet hl rfl (hs.spec (h.ok c) (h.core_nodup c)) (fun _ => rfl) rfl rfl rfl
  | arrive hs => exact hs.inv h hl
  | discard hs => exact hs.inv h hl
  | offer hs => exact hs.inv h hl
  | request hs => exact hs.inv h hl

/-- **Every step of a processor keeps the invariant.** -/
theorem Step.inv {a : Label n} (hs : Step cfg S a S') (h : Inv S) : Inv S' := by
  cases hs with
  | core hl hs => exact hs.inv h hl
  | timer hs => exact hs.inv h

theorem Sys.init_held : (Sys.init n).held = 0 := by
  have hc : ∑ c, ((Sys.init n).core c).held = 0 := Finset.sum_eq_zero fun _ _ => rfl
  rw [Sys.held_eq, hc, zero_add]
  rfl

theorem Sys.init_reqs : (Sys.init n).reqs = 0 := by
  have hq : ∑ c, (((Sys.init n).migrationRequestQueue c).values.map (·.job) :
      Multiset (JobId n)) = 0 := Finset.sum_eq_zero fun _ _ => rfl
  have hp : ∑ c, ((((Sys.init n).core c).pc.request).toList : Multiset (JobId n)) = 0 :=
    Finset.sum_eq_zero fun _ _ => rfl
  rw [Sys.reqs, hq, hp, add_zero]

/-- Every job is free once, at the start. -/
theorem Sys.init_free (j : JobId n) : (Sys.init n).free.count j = 1 := by
  have hremote : ∑ c, ((Sys.init n).remoteFreeList c : Multiset (JobId n)) = 0 :=
    Finset.sum_eq_zero fun _ _ => rfl
  rw [Sys.free, hremote, add_zero, Multiset.count_sum', Finset.sum_eq_single j.1]
  · have hnodup : ((Sys.init n).freeList j.1).Nodup :=
      (List.nodup_reverse.2 (List.nodup_finRange _)).map fun a b h => (Prod.mk.inj h).2
    have hmem : j ∈ (Sys.init n).freeList j.1 :=
      List.mem_map.2 ⟨j.2, List.mem_reverse.2 (List.mem_finRange _), rfl⟩
    exact Multiset.count_eq_one_of_mem (Multiset.coe_nodup.2 hnodup) (Multiset.mem_coe.2 hmem)
  · intro c _ hc
    rw [Multiset.count_eq_zero, Multiset.mem_coe]
    intro hm
    obtain ⟨k, -, rfl⟩ := List.mem_map.1 hm
    exact hc rfl
  · intro hj
    exact absurd (Finset.mem_univ _) hj

theorem Inv.init : Inv (Sys.init n) := by
  refine ⟨?_, ?_, nofun, fun h => absurd rfl h, ?_, nofun, ?_, nofun, nofun, nofun⟩
  · intro j
    have hf := Sys.init_free j
    have hh : (Sys.init n).held.count j = 0 := by rw [Sys.init_held, Multiset.count_zero]
    have hr : (Sys.init n).reqs.count j = 0 := by rw [Sys.init_reqs, Multiset.count_zero]
    refine ⟨?_, fun _ => hr, ?_⟩
    · change (Sys.init n).held.count j + (Sys.init n).free.count j ≤ 1
      omega
    · change (Sys.init n).free.count j = 0 → _
      omega
  · rw [Sys.init_reqs]
    exact Multiset.nodup_zero
  · intro c
    refine ⟨⟨?_, nofun, nofun, nofun, ?_, .nil⟩, nofun, fun _ => rfl, nofun, nofun⟩
    · rintro (_ | _) j hj <;> cases hj
    · rintro (_ | _) <;> exact .nil
  · intro i o e ht
    have hm := ht.mem_reqs
    rw [Sys.init_reqs] at hm
    exact absurd hm (Multiset.notMem_zero i)

theorem Reachable.inv (h : Reachable cfg S) : Inv S :=
  Lts.Reachable.invariant h Inv.init fun _ _ _ hi hs => hs.inv hi

/-- **Ownership.** In every reachable state a job has at most one place; the
    count of a job that is in use is the number of its places and of the
    requests for it, and at least 1; a job in a free list has neither. -/
theorem refcount_eq (h : Reachable cfg S) (j : JobId n) :
    S.held.count j + S.free.count j ≤ 1 ∧
    (j ∉ S.free → (S.job j).refcount = S.held.count j + S.reqs.count j ∧
      1 ≤ (S.job j).refcount) ∧
    (j ∈ S.free → j ∉ S.held ∧ j ∉ S.reqs) := by
  have hj := h.inv.balanced j
  refine ⟨hj.once, ?_, h.inv.of_free⟩
  intro hf
  exact hj.ref (Multiset.count_eq_zero.2 hf)

/-- A job that is ready on core 0 and on offer to core 1 has one place and one request. -/
theorem refcount_eq_offered : ∃ (S : Sys 2) (j : JobId 2), Reachable (handConfig 10 5) S ∧
    j ∈ (S.core 0).readyQueue ∧ ⟨j, 0⟩ ∈ (S.migrationRequestQueue 1).values ∧
    (S.job j).refcount = 2 ∧ S.held.count j = 1 ∧ S.reqs.count j = 1 := by
  obtain ⟨J, f, j₀, j₁, j₂, h, -, -, -, hj₂⟩ := HandRun.offered1 .top (show 5 ≤ 10 by decide) (by decide)
  obtain ⟨tr, hrun, -⟩ := h.run
  set S := pairSys 1 J f (Function.update (fun _ => .empty) 1 ⟨0, [(⟨j₂, 0⟩, true)]⟩) (fun _ => .empty) [] 0
    ((handCore [j₂] j₁).goto (.offer false 1)) ((handCore [] j₀).goto .start)
  have hcore : S.core 0 = (handCore [j₂] j₁).goto (.offer false 1) := pairSys_core
  have hready : j₂ ∈ (S.core 0).queue false := by
    rw [hcore]
    exact List.mem_cons_self
  have hheld : j₂ ∈ S.held :=
    Sys.mem_held.2 (.inl ⟨0, Core.mem_held_of_placed (Core.mem_placed_of_queue hready)⟩)
  have href : (S.job j₂).refcount = 2 := congrArg JobRec.refcount hj₂
  obtain ⟨hone, hsum, hfree⟩ := refcount_eq ⟨tr, hrun⟩ j₂
  have hplace := Multiset.one_le_count_iff_mem.2 hheld
  have hsum := (hsum fun hf => (hfree hf).1 hheld).1
  refine ⟨S, j₂, ⟨tr, hrun⟩, hready, ?_, href, by omega, by omega⟩
  exact List.mem_singleton_self _

end EeftSched

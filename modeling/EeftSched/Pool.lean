/-
  A processor as a pool of counted references.

  A job of a pool is free, or has a place (a list of a core, its running job,
  its hands, the discard queue, the hands of the timer), or is wanted by a
  migration request (one that is built, queued or processed).  `Sys.pool` is
  the processor seen as a pool of counted references.

  * `Inv`: the invariant of a processor: the counts, the locks, the lists of
    the cores, and what the state of a request says about its job;
  * `Inv.move`, `Inv.quiet`: the rules for a step about one job, and for one
    that moves no reference.
-/
import EeftSched.Own
import EeftSched.Processor
import EeftSched.Lib.RefCount
import Mathlib.Algebra.BigOperators.Group.Finset.Basic
import Mathlib.Data.Fintype.BigOperators

namespace EeftSched

open SortedQueue

variable {n : ℕ} {S S' : Sys n} {c d : Fin n} {j : JobId n} {K' : Core n}

/-! ## The pool of a processor -/

namespace Sys

/-- The jobs with a place -/
def held (S : Sys n) : Multiset (JobId n) :=
  ∑ c, (S.core c).held + ↑S.discardQueue + ↑S.timer.hand.toList

/-- The jobs of the requests -/
def reqs (S : Sys n) : Multiset (JobId n) :=
  ∑ c, ((S.migrationRequestQueue c).values.map (·.job) : Multiset (JobId n)) +
    ∑ c, ((S.core c).pc.request.toList : Multiset (JobId n))

/-- The jobs in the free lists -/
def free (S : Sys n) : Multiset (JobId n) :=
  ∑ c, (S.freeList c : Multiset (JobId n)) + ∑ c, (S.remoteFreeList c : Multiset (JobId n))

/-- The processor as a pool of counted references -/
def pool (S : Sys n) : RefPool (JobId n) := ⟨S.held, S.reqs, S.free, fun j => (S.job j).refcount⟩

end Sys

/-- One summand changes. -/
theorem sum_update {α : Type} (f : α → Multiset (JobId n)) (g : Fin n → α) (c : Fin n) (a : α) :
    ∑ d, f (Function.update g c a d) + f (g c) = ∑ d, f (g d) + f a := by
  rw [← Finset.add_sum_erase _ _ (Finset.mem_univ c),
    ← Finset.add_sum_erase (a := c) _ (fun d => f (g d)) (Finset.mem_univ c)]
  have h : ∑ d ∈ Finset.univ.erase c, f (Function.update g c a d) =
      ∑ d ∈ Finset.univ.erase c, f (g d) := by
    refine Finset.sum_congr rfl ?_
    intro d hd
    rw [Function.update_of_ne (Finset.ne_of_mem_erase hd)]
  rw [h, Function.update_self]
  abel

namespace Sys

/-- The jobs in the discard queue, or in the hands of the timer -/
def shelf (S : Sys n) : Multiset (JobId n) := ↑S.discardQueue + ↑S.timer.hand.toList

theorem shelf_eq (S : Sys n) : S.shelf = ↑S.discardQueue + ↑S.timer.hand.toList := rfl

theorem shelf_congr (hd : S'.discardQueue = S.discardQueue) (ht : S'.timer = S.timer) :
    S'.shelf = S.shelf := by
  rw [shelf_eq, shelf_eq, hd, ht]

theorem held_eq (S : Sys n) : S.held = ∑ c, (S.core c).held + S.shelf := by
  rw [held, shelf, add_assoc]

theorem mem_held : j ∈ S.held ↔ (∃ c, j ∈ (S.core c).held) ∨ j ∈ S.shelf := by
  rw [held_eq, Multiset.mem_add, Multiset.mem_sum]
  simp

theorem mem_reqs : j ∈ S.reqs ↔ (∃ c, ∃ r ∈ (S.migrationRequestQueue c).values, r.job = j) ∨
    ∃ c, (S.core c).pc.request = some j := by
  rw [reqs, Multiset.mem_add, Multiset.mem_sum, Multiset.mem_sum]
  simp

@[simp] theorem setCore_core_self (S : Sys n) (c : Fin n) (K' : Core n) : (S.setCore c K').core c = K' :=
  Function.update_self ..

theorem setCore_core_ne (S : Sys n) (K' : Core n) (h : d ≠ c) : (S.setCore c K').core d = S.core d :=
  Function.update_of_ne h ..

theorem reqs_setCore (S : Sys n) (c : Fin n) (K' : Core n) :
    (S.setCore c K').reqs + ↑(S.core c).pc.request.toList = S.reqs + ↑K'.pc.request.toList := by
  have h := sum_update (fun K : Core n => (K.pc.request.toList : Multiset (JobId n))) S.core c K'
  change _ + ∑ d, ((Function.update S.core c K' d).pc.request.toList : Multiset (JobId n)) + _ = _
  rw [reqs, add_assoc, h, add_assoc]
  rfl

/-- The jobs of the requests in a queue -/
def queuedJobs (q : TicketQueue (MigrationRequest n)) : Multiset (JobId n) := q.values.map (·.job)

theorem queuedJobs_claim (q : TicketQueue (MigrationRequest n)) (r : MigrationRequest n) :
    queuedJobs (q.claim r) = r.job ::ₘ queuedJobs q := by
  unfold queuedJobs
  rw [TicketQueue.values_claim, List.map_append, ← Multiset.coe_add]
  simp only [List.map_cons, List.map_nil, Multiset.coe_singleton]
  exact add_comm _ _

theorem queuedJobs_tryDequeue {q q' : TicketQueue (MigrationRequest n)} {r : MigrationRequest n}
    (h : q.tryDequeue = some (r, q')) : queuedJobs q = r.job ::ₘ queuedJobs q' := by
  unfold queuedJobs
  rw [(TicketQueue.tryDequeue_eq_some h).1]
  rfl

theorem ref_set (J : Jobs n) (j : JobId n) (r : JobRec) :
    (fun i => (J.set j r i).refcount) = Function.update (fun i => (J i).refcount) j r.refcount := by
  ext i
  by_cases hi : i = j
  · rw [hi, Jobs.set_self, Function.update_self]
  · rw [Jobs.set_ne J r hi, Function.update_of_ne hi]

/-! ### Free lists -/

theorem refill_free (S : Sys n) (c : Fin n) : (S.refill c).free = S.free := by
  unfold refill
  split_ifs with hc
  · have h1 := sum_update (fun l : List (JobId n) => (l : Multiset (JobId n))) S.freeList c
      (S.remoteFreeList c)
    have h2 := sum_update (fun l : List (JobId n) => (l : Multiset (JobId n))) S.remoteFreeList c []
    rw [hc] at h1
    simp only [Multiset.coe_nil, add_zero] at h1 h2
    simp only [free]
    rw [h1, add_assoc, add_comm (S.remoteFreeList c : Multiset (JobId n)), h2]
  · rfl

/-- Taking a job from a pool changes the free lists alone. -/
theorem takeFree_eq_some (h : S.takeFree c = some (j, S')) :
    S.free = j ::ₘ S'.free ∧ ∃ f g, S' = { S with freeList := f, remoteFreeList := g } := by
  unfold takeFree at h
  split at h
  · cases h
  · rename_i i rest hc
    obtain ⟨rfl, rfl⟩ := Prod.mk.inj (Option.some.inj h)
    constructor
    · have hs := sum_update (fun l : List (JobId n) => (l : Multiset (JobId n)))
        (S.refill c).freeList c rest
      rw [hc, ← Multiset.cons_coe, Multiset.add_cons, ← Multiset.cons_add] at hs
      rw [← S.refill_free c]
      simp only [free]
      rw [← Multiset.cons_add, add_right_cancel hs]
    · unfold refill
      split_ifs <;> exact ⟨_, _, rfl⟩

/-- The first job of a pool is taken from it. -/
theorem takeFree_of_cons {j : JobId n} {rest : List (JobId n)} (h : S.freeList c = j :: rest) :
    S.takeFree c = some (j, { S with freeList := Function.update S.freeList c rest }) := by
  have hrefill : S.refill c = S := by
    refine if_neg ?_
    rw [h]
    nofun
  unfold takeFree
  rw [hrefill]
  split
  · rename_i hnil
    cases hnil.symm.trans h
  · rename_i hcons
    obtain ⟨rfl, rfl⟩ := List.cons.inj (hcons.symm.trans h)
    rfl

theorem releaseJobToPool_free (S : Sys n) (me : Option (Fin n)) (j : JobId n) :
    (S.releaseJobToPool me j).free = j ::ₘ S.free := by
  unfold releaseJobToPool
  split_ifs
  · have h := sum_update (fun l : List (JobId n) => (l : Multiset (JobId n))) S.freeList j.1
      (j :: S.freeList j.1)
    rw [← Multiset.cons_coe, Multiset.add_cons, ← Multiset.cons_add] at h
    simp only [free]
    rw [add_right_cancel h, Multiset.cons_add]
  · have h := sum_update (fun l : List (JobId n) => (l : Multiset (JobId n))) S.remoteFreeList j.1
      (j :: S.remoteFreeList j.1)
    rw [← Multiset.cons_coe, Multiset.add_cons, ← Multiset.cons_add] at h
    simp only [free]
    rw [add_right_cancel h, Multiset.add_cons]

/-- Dropping a reference changes the count and the free lists alone. -/
theorem putJobRef_eq (S : Sys n) (me : Option (Fin n)) (j : JobId n) : ∃ f g, S.putJobRef me j =
    { S with
      job := S.job.set j { S.job j with refcount := (S.job j).refcount - 1 }
      freeList := f
      remoteFreeList := g } := by
  unfold putJobRef releaseJobToPool
  dsimp only
  split_ifs <;> exact ⟨_, _, rfl⟩

/-- The last reference to a job of the own pool -/
theorem putJobRef_last (h : (S.job j).refcount = 1) (hj : j.1 = c) :
    S.putJobRef (some c) j =
      { S.setJob j { S.job j with refcount := (S.job j).refcount - 1 } with
        freeList := Function.update S.freeList c (j :: S.freeList c) } := by
  subst hj
  unfold putJobRef
  dsimp only
  rw [if_pos h, releaseJobToPool, if_pos rfl]
  rfl

theorem putJobRef_free (S : Sys n) (me : Option (Fin n)) (j : JobId n) :
    (S.putJobRef me j).free = if (S.job j).refcount = 1 then j ::ₘ S.free else S.free := by
  unfold putJobRef
  dsimp only
  split_ifs
  · rw [releaseJobToPool_free]
    rfl
  · rfl

end Sys

/-! ## Tokens -/

/-- A request for job `j` that is built, queued or being processed; only core
    `o` may have a place for the job.  It is `early` until it is decided. -/
inductive Sys.Token (S : Sys n) : JobId n → Fin n → Bool → Prop
  | core {c : Fin n} {j : JobId n} {o : Fin n} (h : (S.core c).pc.token c = some (j, o)) :
      Token S j o (S.core c).pc.isEarly
  | queued {c : Fin n} {r : MigrationRequest n} (h : r ∈ (S.migrationRequestQueue c).values) :
      Token S r.job r.fromCore true

/-- What is known of the job of a request: while the request is early, the job
    is on offer, or it is a future job that has no place. -/
structure Sys.TokenOk (S : Sys n) (j : JobId n) (o : Fin n) (early : Bool) : Prop where
  owner : ∀ d, j ∈ (S.core d).held → d = o
  shelf : j ∉ S.shelf
  offer : early = true → ((S.job j).isBeingOffered = true ∧ (S.job j).state ≠ .idle) ∨
    ((S.job j).isBeingOffered = false ∧ (S.job j).state = .idle ∧ j ∉ S.held)
  ready : early = true → (S.job j).state = .ready → j ∈ S.held

/-- **The invariant of a processor.** -/
structure Inv (S : Sys n) : Prop where
  balanced : S.pool.Balanced
  once : S.reqs.Nodup
  locks : ∀ c d l, l ∈ (S.core c).pc.holds c → l ∈ (S.core d).pc.holds d → c = d
  timer : S.timer ≠ .idle → ∀ c, (S.core c).pc = .arrived
  ok : ∀ c, (S.core c).Ok S.job
  shelf : ∀ j ∈ S.shelf, (S.job j).state = .ready
  token : ∀ j o e, S.Token j o e → S.TokenOk j o e
  target : ∀ c j, (S.core c).pc.target = some j → j ∉ S.reqs
  offer : ∀ c j b k, (S.core c).pc = .offerTarget j b k →
    j ∈ (S.core c).queue b ∧ (S.job j).isBeingOffered = true
  acks : ∀ c j, (S.core c).pc.acks = some j → j ∈ (S.core c).pendingJobsQueue

theorem Pc.request_eq (c : Fin n) (q : Pc n) : q.request = (q.token c).map Prod.fst := by
  cases q <;> rfl

theorem Sys.Token.mem_reqs {o : Fin n} {e : Bool} (h : S.Token j o e) : j ∈ S.reqs := by
  rw [Sys.mem_reqs]
  cases h with
  | @core c _ _ h => exact .inr ⟨c, by rw [Pc.request_eq c, h]; rfl⟩
  | @queued c r h => exact .inl ⟨c, r, h, rfl⟩

theorem Sys.exists_token (h : j ∈ S.reqs) : ∃ o e, S.Token j o e := by
  rw [Sys.mem_reqs] at h
  rcases h with ⟨c, r, hr, rfl⟩ | ⟨c, hc⟩
  · exact ⟨_, _, .queued hr⟩
  · rw [Pc.request_eq c, Option.map_eq_some_iff] at hc
    obtain ⟨⟨i, o⟩, ht, rfl⟩ := hc
    exact ⟨o, _, .core ht⟩

/-- The requests for job `j` but the one core `c` is building or processing. -/
inductive Sys.Rest (S : Sys n) (c : Fin n) : JobId n → Fin n → Bool → Prop
  | core {d : Fin n} {j : JobId n} {o : Fin n} (hd : d ≠ c)
      (h : (S.core d).pc.token d = some (j, o)) : Rest S c j o (S.core d).pc.isEarly
  | queued {d : Fin n} {r : MigrationRequest n} (h : r ∈ (S.migrationRequestQueue d).values) :
      Rest S c r.job r.fromCore true

theorem Sys.Rest.token {o : Fin n} {e : Bool} (h : S.Rest c j o e) : S.Token j o e := by
  cases h with
  | core _ h => exact .core h
  | queued h => exact .queued h

/-- A token after a step of core `c` is the one of the core, or one from before. -/
theorem Sys.Token.cases_core {i : JobId n} {o : Fin n} {e : Bool} (h : S'.Token i o e)
    (hcore : ∀ d ≠ c, (S'.core d).pc = (S.core d).pc)
    (hq : ∀ d, ∀ r ∈ (S'.migrationRequestQueue d).values, r ∈ (S.migrationRequestQueue d).values) :
    ((S'.core c).pc.token c = some (i, o) ∧ e = (S'.core c).pc.isEarly) ∨ S.Rest c i o e := by
  cases h with
  | @core d _ _ h =>
    by_cases hd : d = c
    · subst hd
      exact .inl ⟨h, rfl⟩
    · rw [hcore d hd] at h ⊢
      exact .inr (.core hd h)
  | @queued d r h => exact .inr (.queued (hq d r h))

/-- The request of a core is the only one for its job. -/
theorem Sys.Rest.false {o o' : Fin n} {e : Bool} (hn : S.reqs.Nodup)
    (hc : (S.core c).pc.token c = some (j, o)) (h : S.Rest c j o' e) : False := by
  have hreq : (S.core c).pc.request = some j := by rw [Pc.request_eq c, hc]; rfl
  have hr := S.reqs_setCore c ((S.core c).goto .arrived)
  rw [hreq] at hr
  have hout : j ∉ (S.setCore c ((S.core c).goto .arrived)).reqs := by
    change _ + ({j} : Multiset (JobId n)) = S.reqs + (0 : Multiset (JobId n)) at hr
    rw [add_zero, add_comm, Multiset.singleton_add] at hr
    rw [← hr] at hn
    exact (Multiset.nodup_cons.1 hn).1
  refine hout (Sys.mem_reqs.2 ?_)
  cases h with
  | @core d _ _ hd h =>
    refine .inr ⟨d, ?_⟩
    rw [Sys.setCore_core_ne S _ hd, Pc.request_eq d, h]
    rfl
  | @queued d r h => exact .inl ⟨d, r, h, rfl⟩

namespace Inv

/-- A job has one place. -/
theorem held_nodup (h : Inv S) : S.held.Nodup :=
  Multiset.nodup_iff_count_le_one.2 h.balanced.held_le

theorem core_le (S : Sys n) (c : Fin n) : (S.core c).held ≤ S.held := by
  rw [Sys.held_eq, ← Finset.add_sum_erase _ _ (Finset.mem_univ c), add_assoc]
  exact Multiset.le_add_right _ _

theorem core_nodup (h : Inv S) (c : Fin n) : (S.core c).held.Nodup :=
  Multiset.nodup_of_le (core_le S c) h.held_nodup

theorem core_unique (h : Inv S) (hc : j ∈ (S.core c).held) (hd : j ∈ (S.core d).held) : d = c := by
  by_contra hne
  have hle := Multiset.nodup_iff_count_le_one.1 h.held_nodup j
  rw [Sys.held_eq, Multiset.count_add, ← Finset.add_sum_erase _ _ (Finset.mem_univ c),
    ← Finset.add_sum_erase _ _ (Finset.mem_erase.2 ⟨hne, Finset.mem_univ d⟩), Multiset.count_add,
    Multiset.count_add] at hle
  have h1 := Multiset.count_pos.2 hc
  have h2 := Multiset.count_pos.2 hd
  omega

theorem notMem_shelf (h : Inv S) (hc : j ∈ (S.core c).held) : j ∉ S.shelf := by
  intro hs
  have hle := Multiset.nodup_iff_count_le_one.1 h.held_nodup j
  rw [Sys.held_eq, Multiset.count_add, ← Finset.add_sum_erase _ _ (Finset.mem_univ c),
    Multiset.count_add] at hle
  have h1 := Multiset.count_pos.2 hc
  have h2 := Multiset.count_pos.2 hs
  omega

end Inv

/-! ## Steps about one job -/

/-- The record of a job may change for the core that has it. -/
structure JobRec.Calm (r r' : JobRec) : Prop where
  alike : r.Alike r'
  offer : r'.isBeingOffered = true → r.isBeingOffered = true

@[refl] theorem JobRec.Calm.refl (r : JobRec) : r.Calm r := ⟨.refl r, id⟩

theorem Pc.HandOk.calm {q : Pc n} {r r' : JobRec} (h : q.HandOk r) (hr : r.Calm r') : q.HandOk r' := by
  have hs := hr.alike.state
  have hl := hr.alike.linked
  have ho : r.isBeingOffered = false → r'.isBeingOffered = false := by
    intro hf
    cases hf' : r'.isBeingOffered
    · rfl
    · rw [hr.offer hf'] at hf
      cases hf
  cases q
  case pendingPut => exact ⟨hs.trans h.state, ho h.offer⟩
  case futureHand => exact ⟨hs.trans h.state, ho h.offer⟩
  case pendingIns => exact ⟨hs.trans h.1, ho h.2⟩
  case allocIns => exact ⟨hs.trans h.1, ho h.2⟩
  case reclaimHand => exact ⟨hs.trans h.1, ho h.2⟩
  case dispatch => exact ⟨hs.trans h.1, hl.trans h.2⟩
  case procInsert => exact ⟨hs.trans h.1, hl.trans h.2⟩
  case cancelPut => exact hs.trans h
  case cancelRunPut => exact hs.trans h
  case missPut => exact hs.trans h
  case completePut => exact hs.trans h
  all_goals trivial

theorem Core.Ok.calm {K : Core n} {J J' : Jobs n} (hK : K.Ok J)
    (hJ : ∀ i ∈ K.held, (J i).Calm (J' i)) : K.Ok J' := by
  refine ⟨?_, ?_, hK.idle, hK.complete, hK.completed⟩
  · refine hK.queues.mono (fun _ => .refl _) (.refl _) (.refl _) (fun _ => id)
      (fun i hi => (hJ i (Core.mem_held_of_placed hi)).alike) ?_
    rintro i hi ho
    refine (hJ i (Core.mem_held_of_placed (Core.mem_placed.2 ?_))).offer ho
    tauto
  · intro i hi
    exact (hK.hand i hi).calm (hJ i (Core.mem_held.2 (.inr hi)))

theorem Core.Ok.set {K : Core n} {J : Jobs n} {r : JobRec} (hK : K.Ok J)
    (hr : j ∈ K.held → (J j).Calm r) : K.Ok (J.set j r) := by
  refine hK.calm ?_
  intro i hi
  by_cases hij : i = j
  · subst hij
    rw [Jobs.set_self]
    exact hr hi
  · rw [Jobs.set_ne J r hij]

/-- Core `K'` is core `K`, or `K` without job `j` in its queues or its discard list. -/
structure Core.Less (j : JobId n) (K K' : Core n) : Prop where
  pc : K'.pc = K.pc
  isIdle : K'.isIdle = K.isIdle
  running : K'.runningJob = K.runningJob
  pending : K'.pendingJobsQueue = K.pendingJobsQueue
  queue : ∀ b, (K'.queue b).Sublist (K.queue b)
  discard : K'.discardList.Sublist K.discardList
  mem : ∀ b, ∀ i ∈ K.queue b, i ≠ j → i ∈ K'.queue b
  memDiscard : ∀ i ∈ K.discardList, i ≠ j → i ∈ K'.discardList

namespace Core.Less

variable {K : Core n} {J J' : Jobs n} {i : JobId n}

@[refl] theorem refl (j : JobId n) (K : Core n) : K.Less j K :=
  ⟨rfl, rfl, rfl, rfl, fun _ => .refl _, .refl _, fun _ _ h _ => h, fun _ h _ => h⟩

theorem placed (h : K.Less j K') (hi : i ∈ K'.placed) : i ∈ K.placed := by
  rw [Core.mem_placed] at hi ⊢
  rw [← h.running, ← h.pending]
  rcases hi with hi | hi | hi | hi
  · exact .inl ((h.queue false).subset hi)
  · exact .inr (.inl ((h.queue true).subset hi))
  · exact .inr (.inr (.inl (h.discard.subset hi)))
  · exact .inr (.inr (.inr hi))

theorem held (h : K.Less j K') (hi : i ∈ K'.held) : i ∈ K.held := by
  rw [Core.mem_held] at hi ⊢
  rw [← h.pc]
  exact hi.imp h.placed id

theorem mem_held (h : K.Less j K') (hi : i ∈ K.held) (hne : i ≠ j) : i ∈ K'.held := by
  rw [Core.mem_held, Core.mem_placed] at hi ⊢
  rw [h.pc, h.running, h.pending]
  rcases hi with (hi | hi | hi | hi) | hi
  · exact .inl (.inl (h.mem false i hi hne))
  · exact .inl (.inr (.inl (h.mem true i hi hne)))
  · exact .inl (.inr (.inr (.inl (h.memDiscard i hi hne))))
  · exact .inl (.inr (.inr (.inr hi)))
  · exact .inr hi

/-- The core keeps its invariant. -/
theorem ok (h : K.Less j K') (hK : K.Ok J) : K'.Ok J := by
  refine ⟨?_, ?_, ?_, ?_, ?_⟩
  · rw [h.pc]
    exact hK.queues.mono h.queue h.discard (by rw [h.pending])
      (fun i => by rw [h.running]; exact id) (fun _ _ => .refl _) fun _ _ => id
  · rw [h.pc]
    exact hK.hand
  · rw [h.pc, h.isIdle, h.running]
    exact hK.idle
  · rw [h.pc, h.running]
    exact hK.complete
  · rw [h.pc, h.running]
    exact hK.completed

end Core.Less

/-- A step of core `c` that is about job `j`: all other jobs keep their record,
    their place and their requests. -/
structure Move (S S' : Sys n) (c : Fin n) (j : JobId n) : Prop where
  core : ∀ d ≠ c, (S.core d).Less j (S'.core d)
  timer : S'.timer = S.timer
  job : ∀ i ≠ j, S'.job i = S.job i
  held : ∀ i ≠ j, i ∈ (S'.core c).held ↔ i ∈ (S.core c).held
  shelf : ∀ i ≠ j, i ∈ S'.shelf ↔ i ∈ S.shelf
  token : ∀ i o e, i ≠ j → S'.Token i o e → S.Token i o e

namespace Move

theorem mem_held (m : Move S S' c j) {i : JobId n} (hi : i ≠ j) : i ∈ S'.held ↔ i ∈ S.held := by
  rw [Sys.mem_held, Sys.mem_held, m.shelf i hi]
  refine or_congr_left (exists_congr fun d => ?_)
  by_cases hd : d = c
  · rw [hd]
    exact m.held i hi
  · exact ⟨(m.core d hd).held, fun h => (m.core d hd).mem_held h hi⟩

theorem notMem_reqs (m : Move S S' c j) {i : JobId n} (hi : i ≠ j) (h : i ∉ S.reqs) : i ∉ S'.reqs := by
  intro hr
  obtain ⟨o, e, ht⟩ := Sys.exists_token hr
  exact h (m.token i o e hi ht).mem_reqs

theorem tokenOk (m : Move S S' c j) {i : JobId n} {o : Fin n} {e : Bool} (hi : i ≠ j)
    (h : S.TokenOk i o e) : S'.TokenOk i o e := by
  refine ⟨?_, ?_, ?_, ?_⟩
  · intro d hd
    by_cases hdc : d = c
    · subst hdc
      exact h.owner d ((m.held i hi).1 hd)
    · exact h.owner d ((m.core d hdc).held hd)
  · rw [m.shelf i hi]
    exact h.shelf
  · rw [m.job i hi, m.mem_held hi]
    exact h.offer
  · rw [m.job i hi, m.mem_held hi]
    exact h.ready

end Move

/-- **A step about one job keeps the invariant**, if it does so for that job. -/
theorem Inv.move (h : Inv S) (m : Move S S' c j) (hstep : S.pool.Step S'.pool)
    (hna : (S.core c).pc ≠ .arrived)
    (hlock : ∀ l ∈ (S'.core c).pc.holds c, l ∈ (S.core c).pc.holds c ∨ S.LockFree c l)
    (honce : S'.reqs.Nodup) (hok : (S'.core c).Ok S'.job)
    (hj : ∀ d ≠ c, j ∈ (S'.core d).held → (S.job j).Calm (S'.job j))
    (hjt : ∀ d ≠ c, (S.core d).pc.target ≠ some j)
    (hshelf : j ∈ S'.shelf → (S'.job j).state = .ready)
    (htok : ∀ o e, S'.Token j o e → S'.TokenOk j o e)
    (htarget : ∀ i, (S'.core c).pc.target = some i → i ∉ S'.reqs)
    (hoffer : ∀ i b k, (S'.core c).pc = .offerTarget i b k →
      i ∈ (S'.core c).queue b ∧ (S'.job i).isBeingOffered = true)
    (hacks : ∀ i, (S'.core c).pc.acks = some i → i ∈ (S'.core c).pendingJobsQueue) : Inv S' := by
  refine ⟨hstep.balanced h.balanced, honce, ?_, ?_, ?_, ?_, ?_, ?_, ?_, ?_⟩
  · have key : ∀ d ≠ c, ∀ l ∈ (S'.core c).pc.holds c, l ∉ (S.core d).pc.holds d := by
      intro d hd l hl hld
      rcases hlock l hl with hl | hl
      · exact hd (h.locks d c l hld hl)
      · exact hl d hd hld
    intro d e l hd he
    by_cases hdc : d = c <;> by_cases hec : e = c
    · rw [hdc, hec]
    · subst hdc
      rw [(m.core e hec).pc] at he
      exact absurd he (key e hec l hd)
    · subst hec
      rw [(m.core d hdc).pc] at hd
      exact absurd hd (key d hdc l he)
    · rw [(m.core d hdc).pc] at hd
      rw [(m.core e hec).pc] at he
      exact h.locks d e l hd he
  · rw [m.timer]
    intro ht
    exact absurd (h.timer ht c) hna
  · intro d
    by_cases hd : d = c
    · rw [hd]
      exact hok
    · refine ((m.core d hd).ok (h.ok d)).calm ?_
      intro i hi
      by_cases hij : i = j
      · subst hij
        exact hj d hd hi
      · rw [m.job i hij]
  · intro i hi
    by_cases hij : i = j
    · subst hij
      exact hshelf hi
    · rw [m.job i hij]
      exact h.shelf i ((m.shelf i hij).1 hi)
  · intro i o e ht
    by_cases hij : i = j
    · subst hij
      exact htok o e ht
    · exact m.tokenOk hij (h.token i o e (m.token i o e hij ht))
  · intro d i hi
    by_cases hd : d = c
    · subst hd
      exact htarget i hi
    · rw [(m.core d hd).pc] at hi
      have hij : i ≠ j := by
        rintro rfl
        exact hjt d hd hi
      exact m.notMem_reqs hij (h.target d i hi)
  · intro d i b k hi
    by_cases hd : d = c
    · subst hd
      exact hoffer i b k hi
    · rw [(m.core d hd).pc] at hi
      have hij : i ≠ j := by
        rintro rfl
        exact hjt d hd (by rw [hi]; rfl)
      obtain ⟨hm, hf⟩ := h.offer d i b k hi
      rw [m.job i hij]
      exact ⟨(m.core d hd).mem b i hm hij, hf⟩
  · intro d i hi
    by_cases hd : d = c
    · subst hd
      exact hacks i hi
    · rw [(m.core d hd).pc] at hi
      rw [(m.core d hd).pending]
      exact h.acks d i hi

/-! ## Steps that move no reference -/

namespace Sys

theorem held_congr (hcore : S'.core = Function.update S.core c K') (hh : K'.held = (S.core c).held)
    (hs : S'.shelf = S.shelf) : S'.held = S.held := by
  have h := sum_update Core.held S.core c K'
  rw [hh] at h
  rw [held_eq, held_eq, hcore, hs, add_right_cancel h]

theorem reqs_congr (hcore : S'.core = Function.update S.core c K')
    (hr : K'.pc.request = (S.core c).pc.request)
    (hq : ∀ d, (S'.migrationRequestQueue d).values = (S.migrationRequestQueue d).values) :
    S'.reqs = S.reqs := by
  have h := sum_update (fun K : Core n => (K.pc.request.toList : Multiset (JobId n))) S.core c K'
  rw [hr] at h
  rw [reqs, reqs, hcore, add_right_cancel h]
  simp only [hq]

end Sys

/-- **A step of core `c` that changes neither places nor requests keeps the
    invariant.** -/
theorem Inv.frame (h : Inv S) (hl : S.Unblocked c) (hcore : S'.core = Function.update S.core c K')
    (hheld : K'.held = (S.core c).held) (hframe : ∀ i ∉ (S.core c).held, S'.job i = S.job i)
    (hkept : ∀ i, (S.job i).Kept (S'.job i)) (hok : K'.Ok S'.job) (hreqs : S'.reqs = S.reqs)
    (htoken : ∀ i o e, S'.Token i o e → S.Token i o e) (hd : S'.discardQueue = S.discardQueue)
    (ht : S'.timer = S.timer) (hf : S'.free = S.free) (hstart : (S.core c).pc ≠ .arrived)
    (hholds : ∀ l ∈ K'.pc.holds c, l ∈ (S.core c).pc.holds c ∨ (S.core c).pc.wants c = some l)
    (htarget : K'.pc.target = none)
    (hacks : ∀ i, K'.pc.acks = some i → i ∈ K'.pendingJobsQueue) : Inv S' := by
  have hself : S'.core c = K' := by rw [hcore, Function.update_self]
  have hne : ∀ d ≠ c, S'.core d = S.core d := by
    intro d hdc
    rw [hcore, Function.update_of_ne hdc]
  have hshelf : S'.shelf = S.shelf := Sys.shelf_congr hd ht
  have hallHeld : S'.held = S.held := Sys.held_congr hcore hheld hshelf
  have hcoreHeld : ∀ d, (S'.core d).held = (S.core d).held := by
    intro d
    by_cases hdc : d = c
    · rw [hdc, hself, hheld]
    · rw [hne d hdc]
  have hother : ∀ d ≠ c, ∀ i ∈ (S.core d).held, S'.job i = S.job i := by
    intro d hdc i hi
    exact hframe i fun hc => hdc (h.core_unique hc hi)
  refine ⟨?_, ?_, ?_, ?_, ?_, ?_, ?_, ?_, ?_, ?_⟩
  · have hn : S'.pool.ref = S.pool.ref := funext fun i => (hkept i).refcount
    have hstep : S.pool.Step S'.pool := .keep hallHeld hreqs hf hn
    exact hstep.balanced h.balanced
  · rw [hreqs]
    exact h.once
  · have key : ∀ d ≠ c, ∀ l ∈ K'.pc.holds c, l ∉ (S.core d).pc.holds d := by
      intro d hdc l hlc hld
      rcases hholds l hlc with hlc | hlc
      · exact hdc (h.locks d c l hld hlc)
      · exact hl l hlc d hdc hld
    intro d e l hd he
    by_cases hdc : d = c <;> by_cases hec : e = c
    · rw [hdc, hec]
    · rw [hne e hec] at he
      rw [hdc, hself] at hd
      exact absurd he (key e hec l hd)
    · rw [hne d hdc] at hd
      rw [hec, hself] at he
      exact absurd hd (key d hdc l he)
    · rw [hne d hdc] at hd
      rw [hne e hec] at he
      exact h.locks d e l hd he
  · rw [ht]
    intro hb
    exact absurd (h.timer hb c) hstart
  · intro d
    by_cases hdc : d = c
    · rw [hdc, hself]
      exact hok
    · rw [hne d hdc]
      refine (h.ok d).calm ?_
      intro i hi
      rw [hother d hdc i hi]
  · intro i hi
    rw [hshelf] at hi
    rw [hframe i fun hc => h.notMem_shelf hc hi]
    exact h.shelf i hi
  · intro i o e hi
    have ho := h.token i o e (htoken i o e hi)
    refine ⟨?_, ?_, ?_, ?_⟩
    · intro d hd
      rw [hcoreHeld] at hd
      exact ho.owner d hd
    · rw [hshelf]
      exact ho.shelf
    · intro he
      rw [hallHeld, (hkept i).offer]
      rcases ho.offer he with ⟨hf, hi⟩ | ⟨hf, hi, hm⟩
      · exact .inl ⟨hf, fun hidle => hi ((hkept i).idle hidle)⟩
      · refine .inr ⟨hf, ?_, hm⟩
        rw [hframe i fun hc => hm (Sys.mem_held.2 (.inl ⟨c, hc⟩))]
        exact hi
    · intro he hr
      rw [hallHeld]
      by_contra hm
      rw [hframe i fun hc => hm (Sys.mem_held.2 (.inl ⟨c, hc⟩))] at hr
      exact hm (ho.ready he hr)
  · intro d i hi
    rw [hreqs]
    by_cases hdc : d = c
    · rw [hdc, hself, htarget] at hi
      cases hi
    · rw [hne d hdc] at hi
      exact h.target d i hi
  · intro d i b k hi
    by_cases hdc : d = c
    · rw [hdc, hself] at hi
      rw [hi] at htarget
      cases htarget
    · rw [hne d hdc] at hi ⊢
      obtain ⟨hm, hf⟩ := h.offer d i b k hi
      rw [(hkept i).offer]
      exact ⟨hm, hf⟩
  · intro d i hi
    by_cases hdc : d = c
    · rw [hdc, hself] at hi ⊢
      exact hacks i hi
    · rw [hne d hdc] at hi ⊢
      exact h.acks d i hi

/-- `Inv.frame`, for a local step -/
theorem Inv.quiet (h : Inv S) (hl : S.Unblocked c) (hcore : S'.core = Function.update S.core c K')
    (hs : LocalSpec c (S.core c) S.job K' S'.job)
    (hq : ∀ d, (S'.migrationRequestQueue d).values = (S.migrationRequestQueue d).values)
    (hd : S'.discardQueue = S.discardQueue) (ht : S'.timer = S.timer) (hf : S'.free = S.free) :
    Inv S' := by
  have hself : S'.core c = K' := by rw [hcore, Function.update_self]
  have hreqs : S'.reqs = S.reqs := by
    refine Sys.reqs_congr hcore ?_ hq
    rw [Pc.request_eq c, Pc.request_eq c, hs.own.token]
  refine h.frame hl hcore hs.held hs.frame hs.kept hs.ok hreqs ?_ hd ht hf hs.own.start hs.own.holds
    hs.own.target ?_
  · intro i o e ht
    rcases ht.cases_core (S := S) (c := c) (fun d hd => by rw [hcore, Function.update_of_ne hd])
      (fun d r hr => by rwa [hq d] at hr) with ⟨hi, he⟩ | hi
    · rw [hself, hs.own.token] at hi
      rw [hself, hs.own.early] at he
      subst he
      exact .core hi
    · exact hi.token
  · rw [hs.own.acks]
    nofun

/-- `Inv.move`, when the cores but `c` stay as they are. -/
theorem Inv.update (h : Inv S) {r : JobRec} (hl : S.Unblocked c)
    (hcore : S'.core = Function.update S.core c K') (hjob : S'.job = S.job.set j r)
    (htimer : S'.timer = S.timer) (hheld : ∀ i ≠ j, i ∈ K'.held ↔ i ∈ (S.core c).held)
    (hshelf : ∀ i ≠ j, i ∈ S'.shelf ↔ i ∈ S.shelf)
    (hq : ∀ d, ∀ r ∈ (S'.migrationRequestQueue d).values, r ∈ (S.migrationRequestQueue d).values)
    (htoken : ∀ i o, K'.pc.token c = some (i, o) → i = j) (hstep : S.pool.Step S'.pool)
    (hna : (S.core c).pc ≠ .arrived)
    (hlock : ∀ l ∈ K'.pc.holds c, l ∈ (S.core c).pc.holds c ∨ (S.core c).pc.wants c = some l)
    (honce : S'.reqs.Nodup) (hok : K'.Ok S'.job)
    (hj : ∀ d ≠ c, j ∈ (S.core d).held → (S.job j).Calm r)
    (hjt : ∀ d ≠ c, (S.core d).pc.target ≠ some j)
    (hready : j ∈ S'.shelf → r.state = .ready)
    (htok : ∀ o e, K'.pc.token c = some (j, o) ∧ e = K'.pc.isEarly ∨ S.Rest c j o e →
      S'.TokenOk j o e)
    (htarget : ∀ i, K'.pc.target = some i → i ∉ S'.reqs)
    (hoffer : ∀ i b k, K'.pc = .offerTarget i b k →
      i ∈ K'.queue b ∧ (S'.job i).isBeingOffered = true)
    (hacks : ∀ i, K'.pc.acks = some i → i ∈ K'.pendingJobsQueue) : Inv S' := by
  have hself : S'.core c = K' := by rw [hcore, Function.update_self]
  have hne : ∀ d ≠ c, S'.core d = S.core d := by
    intro d hdc
    rw [hcore, Function.update_of_ne hdc]
  have hjj : S'.job j = r := by rw [hjob, Jobs.set_self]
  have m : Move S S' c j := by
    refine ⟨?_, htimer, ?_, ?_, hshelf, ?_⟩
    · intro d hd
      rw [hne d hd]
    · intro i hi
      rw [hjob, Jobs.set_ne S.job r hi]
    · rw [hself]
      exact hheld
    · intro i o e hi ht
      rcases ht.cases_core (fun d hd => by rw [hne d hd]) hq with ⟨ht, -⟩ | ht
      · rw [hself] at ht
        exact absurd (htoken i o ht) hi
      · exact ht.token
  refine h.move m hstep hna ?_ honce ?_ ?_ hjt ?_ ?_ ?_ ?_ ?_
  · rw [hself]
    exact fun l hl' => (hlock l hl').imp_right (hl l)
  · rw [hself]
    exact hok
  · intro d hd hm
    rw [hjj]
    rw [hne d hd] at hm
    exact hj d hd hm
  · rw [hjj]
    exact hready
  · intro o e ht
    have hc := ht.cases_core (S := S) (c := c) (fun d hd => by rw [hne d hd]) hq
    rw [hself] at hc
    exact htok o e hc
  · rw [hself]
    exact htarget
  · rw [hself]
    exact hoffer
  · rw [hself]
    exact hacks

end EeftSched

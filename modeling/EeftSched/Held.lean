/-
  What a core has, and what the records of its jobs say.

  `Core.placed` are the jobs in the lists of a core and the running one, the
  job in its hands apart.  `Core.Queues` says what the records of the placed
  jobs are: a queued job is `READY` and linked and in the queue of its kind, a
  pending one is `IDLE`, and the queues are in their order.  For each operation
  on the core there is one lemma on the placed jobs and one on `Queues`.

  * `Core.Ok`: the queues, the job in the hands of the core, and `is_idle`.
-/
import EeftSched.Tick
import Mathlib.Algebra.Order.Group.Multiset

namespace EeftSched

open SortedQueue

variable {n : ℕ} {K K' : Core n} {J J' : Jobs n} {j i : JobId n} {r : JobRec}

/-! ## Job records -/

@[simp] theorem Jobs.set_self (J : Jobs n) (j : JobId n) (r : JobRec) : J.set j r j = r :=
  Function.update_self ..

theorem Jobs.set_ne (J : Jobs n) (r : JobRec) (h : i ≠ j) : J.set j r i = J i :=
  Function.update_of_ne h ..

theorem Jobs.set_set (J : Jobs n) (j : JobId n) (r r' : JobRec) : (J.set j r).set j r' = J.set j r' :=
  Function.update_idem ..

/-- A field that a step does not change. -/
theorem Jobs.set_field {α : Type} (f : JobRec → α) (h : f r = f (J j)) (i : JobId n) :
    f (J.set j r i) = f (J i) := by
  by_cases hi : i = j
  · rw [hi, Jobs.set_self, h]
  · rw [Jobs.set_ne J r hi]

/-! ## The jobs of a core -/

/-- The jobs in the lists, and the running one -/
def Core.placed (K : Core n) : Multiset (JobId n) := K.lists + ↑K.runningJob.toList

theorem Core.held_eq (K : Core n) : K.held = K.placed + ↑K.pc.hand.toList := rfl

theorem Core.mem_placed :
    i ∈ K.placed ↔ i ∈ K.readyQueue ∨ i ∈ K.replicaQueue ∨ i ∈ K.discardList ∨
      i ∈ K.pendingJobsQueue ∨ K.runningJob = some i := by
  simp [Core.placed, Core.lists]

theorem Core.mem_held : i ∈ K.held ↔ i ∈ K.placed ∨ K.pc.hand = some i := by
  simp [Core.held_eq]

theorem Core.mem_held_of_placed (h : i ∈ K.placed) : i ∈ K.held := Core.mem_held.2 (.inl h)

theorem Core.mem_placed_of_queue {replica : Bool} (h : i ∈ K.queue replica) : i ∈ K.placed := by
  rw [Core.mem_placed]
  cases replica
  · exact .inl h
  · exact .inr (.inl h)

/-- The job in the hands of a core is in none of its lists. -/
theorem Core.notMem_placed (hn : K.held.Nodup) (h : K.pc.hand = some i) : i ∉ K.placed := by
  rw [Core.held_eq, h] at hn
  intro hi
  exact Multiset.disjoint_left.1 (Multiset.nodup_add.1 hn).2.2 hi (by simp)

theorem Core.placed_nodup (hn : K.held.Nodup) : K.placed.Nodup := by
  rw [Core.held_eq] at hn
  exact (Multiset.nodup_add.1 hn).1

@[simp] theorem Core.goto_pc (K : Core n) (q : Pc n) : (K.goto q).pc = q := rfl

@[simp] theorem Core.placed_goto (K : Core n) (q : Pc n) : (K.goto q).placed = K.placed := rfl

theorem Core.held_goto {q : Pc n} (h : q.hand = K.pc.hand) : (K.goto q).held = K.held := by
  rw [Core.held_eq, Core.held_eq, Core.placed_goto, Core.goto_pc, h]

@[simp] theorem Core.addByKind_pc (K : Core n) (J : Jobs n) (j : JobId n) :
    (K.addByKind J j).pc = K.pc := by
  unfold addByKind setQueue
  split <;> rfl

@[simp] theorem Core.addByKind_runningJob (K : Core n) (J : Jobs n) (j : JobId n) :
    (K.addByKind J j).runningJob = K.runningJob := by
  unfold addByKind setQueue
  split <;> rfl

@[simp] theorem Core.addByKind_pendingJobsQueue (K : Core n) (J : Jobs n) (j : JobId n) :
    (K.addByKind J j).pendingJobsQueue = K.pendingJobsQueue := by
  unfold addByKind setQueue
  split <;> rfl

@[simp] theorem Core.setQueue_isIdle (K : Core n) (a : Bool) (l : List (JobId n)) :
    (K.setQueue a l).isIdle = K.isIdle := by
  cases a <;> rfl

@[simp] theorem Core.addByKind_isIdle (K : Core n) (J : Jobs n) (j : JobId n) :
    (K.addByKind J j).isIdle = K.isIdle := by
  unfold addByKind setQueue
  split <;> rfl

theorem Core.placed_run (h : K.runningJob = some j) : K.placed = j ::ₘ K.lists := by
  simp only [placed, h, Option.toList_some, Multiset.coe_singleton]
  exact add_comm _ _

theorem Core.placed_idle (h : K.runningJob = none) : K.placed = K.lists := by
  simp only [placed, h, Option.toList_none, Multiset.coe_nil, add_zero]

/-- The running job apart -/
theorem Core.placed_running (h : K.runningJob = some j) :
    K.placed = j ::ₘ { K with runningJob := none }.placed := by
  rw [placed_run h, placed_idle rfl]
  rfl

theorem Core.placed_setQueue {replica : Bool} {l : List (JobId n)} {j : JobId n}
    (h : (l : Multiset (JobId n)) = j ::ₘ ↑(K.queue replica)) :
    (K.setQueue replica l).placed = j ::ₘ K.placed := by
  cases replica
  · simp only [queue, Bool.false_eq_true, if_false] at h
    simp only [setQueue, Bool.false_eq_true, if_false, placed, lists, h, Multiset.cons_add]
  · simp only [queue, if_true] at h
    simp only [setQueue, if_true, placed, lists, h, Multiset.cons_add, Multiset.add_cons]

/-- A queue apart -/
theorem Core.placed_clear (K : Core n) (b : Bool) :
    K.placed = ↑(K.queue b) + (K.setQueue b []).placed := by
  cases b
  · simp only [queue, setQueue, placed, lists, Bool.false_eq_true, if_false, Multiset.coe_nil,
      zero_add, add_assoc]
  · simp only [queue, setQueue, placed, lists, if_true, Multiset.coe_nil, add_zero, add_assoc]
    exact add_left_comm _ _ _

/-- A job leaves a queue. -/
theorem Core.placed_queue {b : Bool} {l : List (JobId n)}
    (h : (↑(K.queue b) : Multiset (JobId n)) = j ::ₘ ↑l) : K.placed = j ::ₘ (K.setQueue b l).placed := by
  have he : (K.setQueue b l).setQueue b [] = K.setQueue b [] := by cases b <;> rfl
  have hl : (K.setQueue b l).queue b = l := by cases b <;> rfl
  rw [placed_clear K b, placed_clear (K.setQueue b l) b, he, hl, h, Multiset.cons_add]

/-- A pending job leaves. -/
theorem Core.placed_pending {l : List (JobId n)}
    (h : (↑K.pendingJobsQueue : Multiset (JobId n)) = j ::ₘ ↑l) :
    K.placed = j ::ₘ { K with pendingJobsQueue := l }.placed := by
  simp only [placed, lists, h, Multiset.add_cons, Multiset.cons_add]

/-- A discarded job leaves. -/
theorem Core.placed_discard {l : List (JobId n)}
    (h : (↑K.discardList : Multiset (JobId n)) = j ::ₘ ↑l) :
    K.placed = j ::ₘ { K with discardList := l }.placed := by
  simp only [placed, lists, h, Multiset.add_cons, Multiset.cons_add]

theorem Core.placed_addByKind (K : Core n) (J : Jobs n) (j : JobId n) :
    (K.addByKind J j).placed = j ::ₘ K.placed :=
  Core.placed_setQueue (coe_insertBy _ _ _)

theorem Core.placed_addToDiscardList (K : Core n) (J : Jobs n) (j : JobId n) :
    (K.addToDiscardList J j).placed = j ::ₘ K.placed := by
  simp only [addToDiscardList, placed, lists, coe_insertBy, Multiset.cons_add, Multiset.add_cons]

theorem coe_eraseIdx {α : Type} {l : List α} {k : ℕ} {x : α} (h : l[k]? = some x) :
    (l : Multiset α) = x ::ₘ ↑(l.eraseIdx k) := by
  obtain ⟨hk, rfl⟩ := List.getElem?_eq_some_iff.1 h
  exact (Multiset.coe_eq_coe.2 (List.getElem_cons_eraseIdx_perm hk)).symm

theorem Core.queue_setQueue (K : Core n) (a b : Bool) (l : List (JobId n)) :
    (K.setQueue a l).queue b = if b = a then l else K.queue b := by
  cases a <;> cases b <;> rfl

@[simp] theorem Core.setQueue_discardList (K : Core n) (a : Bool) (l : List (JobId n)) :
    (K.setQueue a l).discardList = K.discardList := by
  cases a <;> rfl

@[simp] theorem Core.setQueue_pendingJobsQueue (K : Core n) (a : Bool) (l : List (JobId n)) :
    (K.setQueue a l).pendingJobsQueue = K.pendingJobsQueue := by
  cases a <;> rfl

@[simp] theorem Core.setQueue_runningJob (K : Core n) (a : Bool) (l : List (JobId n)) :
    (K.setQueue a l).runningJob = K.runningJob := by
  cases a <;> rfl

theorem Core.placed_congr (hq : ∀ b, K'.queue b = K.queue b) (hd : K'.discardList = K.discardList)
    (hp : K'.pendingJobsQueue = K.pendingJobsQueue) (hr : K'.runningJob = K.runningJob) :
    K'.placed = K.placed := by
  have h0 := hq false
  have h1 := hq true
  simp only [Core.queue, Bool.false_eq_true, if_false, if_true] at h0 h1
  rw [Core.placed, Core.placed, Core.lists, Core.lists, h0, h1, hd, hp, hr]

/-! ## The records of the placed jobs -/

/-- The record of a job in a ready queue, or a replica queue -/
structure JobRec.Queued (r : JobRec) (replica : Bool) : Prop where
  state : r.state = .ready
  linked : r.linked = true
  kind : r.isReplica = replica

/-- The record of a job in a discard list; only job `x` may be on offer there. -/
structure JobRec.Discarded (r : JobRec) (onOffer : Prop) : Prop where
  state : r.state = .ready
  linked : r.linked = true
  offer : r.isBeingOffered = true → onOffer

/-- The record of a pending job -/
structure JobRec.Pending (r : JobRec) : Prop where
  state : r.state = .idle
  offer : r.isBeingOffered = false

/-- Records that agree on what the queues depend on. -/
structure JobRec.Alike (r r' : JobRec) : Prop where
  state : r'.state = r.state
  linked : r'.linked = r.linked
  kind : r'.isReplica = r.isReplica
  deadline : r'.virtualDeadline = r.virtualDeadline
  arrival : r'.arrivalTime = r.arrivalTime

@[refl] theorem JobRec.Alike.refl (r : JobRec) : r.Alike r := ⟨rfl, rfl, rfl, rfl, rfl⟩

/-- The lists of a core are in order.  A discarded job is not on offer, `x`
    apart. -/
structure Core.Queues (K : Core n) (J : Jobs n) (x : Option (JobId n)) : Prop where
  queued : ∀ b, ∀ j ∈ K.queue b, (J j).Queued b
  discarded : ∀ j ∈ K.discardList, (J j).Discarded (x = some j)
  pending : ∀ j ∈ K.pendingJobsQueue, (J j).Pending
  running : ∀ j, K.runningJob = some j → (J j).state = .running
  sorted : ∀ b, SortedBy (vdOf J) (K.queue b)
  sortedPending : SortedBy (arrivalOf J) K.pendingJobsQueue

namespace Core.Queues

variable {x : Option (JobId n)}

/-- Jobs may leave, and records may change in what the queues do not depend on. -/
theorem mono (h : K.Queues J x) (hq : ∀ b, (K'.queue b).Sublist (K.queue b))
    (hd : K'.discardList.Sublist K.discardList)
    (hp : K'.pendingJobsQueue.Sublist K.pendingJobsQueue)
    (hr : ∀ j, K'.runningJob = some j → K.runningJob = some j)
    (hJ : ∀ j ∈ K'.placed, (J j).Alike (J' j))
    (hf : ∀ j, j ∈ K'.discardList ∨ j ∈ K'.pendingJobsQueue →
      (J' j).isBeingOffered = true → (J j).isBeingOffered = true) : K'.Queues J' x := by
  have hmem : ∀ b, ∀ j ∈ K'.queue b, (J j).Alike (J' j) :=
    fun b j hj => hJ j (mem_placed_of_queue hj)
  have hmemp : ∀ j ∈ K'.pendingJobsQueue, (J j).Alike (J' j) :=
    fun j hj => hJ j (Core.mem_placed.2 (.inr (.inr (.inr (.inl hj)))))
  refine ⟨?_, ?_, ?_, ?_, ?_, ?_⟩
  · intro b j hj
    have ha := hmem b j hj
    have hk := h.queued b j ((hq b).subset hj)
    exact ⟨ha.state.trans hk.state, ha.linked.trans hk.linked, ha.kind.trans hk.kind⟩
  · intro j hj
    have ha := hJ j (Core.mem_placed.2 (.inr (.inr (.inl hj))))
    have hk := h.discarded j (hd.subset hj)
    exact ⟨ha.state.trans hk.state, ha.linked.trans hk.linked, fun ho => hk.offer (hf j (.inl hj) ho)⟩
  · intro j hj
    have ha := hmemp j hj
    have hk := h.pending j (hp.subset hj)
    refine ⟨ha.state.trans hk.state, ?_⟩
    cases ho : (J' j).isBeingOffered
    · rfl
    · have := hf j (.inr hj) ho
      rw [hk.offer] at this
      cases this
  · intro j hj
    have ha := hJ j (Core.mem_placed.2 (.inr (.inr (.inr (.inr hj)))))
    exact ha.state.trans (h.running j (hr j hj))
  · intro b
    exact ((h.sorted b).sublist (hq b)).congr fun j hj => (hmem b j hj).deadline
  · exact (h.sortedPending.sublist hp).congr fun j hj => (hmemp j hj).arrival

/-- `mono`, when the lists stay as they are. -/
theorem congr (h : K.Queues J x) (hq : ∀ b, K'.queue b = K.queue b)
    (hd : K'.discardList = K.discardList) (hp : K'.pendingJobsQueue = K.pendingJobsQueue)
    (hr : K'.runningJob = K.runningJob) : K'.Queues J x :=
  h.mono (fun b => by rw [hq b]) (by rw [hd]) (by rw [hp]) (fun j => by rw [hr]; exact id)
    (fun j _ => .refl _) fun _ _ => id

theorem goto (h : K.Queues J x) (q : Pc n) : (K.goto q).Queues J x :=
  h.congr (fun _ => rfl) rfl rfl rfl

/-- Nothing is on offer in the discard list, so `y` may be. -/
theorem offer (h : K.Queues J none) (y : Option (JobId n)) : K.Queues J y := by
  refine ⟨h.queued, ?_, h.pending, h.running, h.sorted, h.sortedPending⟩
  intro j hj
  have hk := h.discarded j hj
  exact ⟨hk.state, hk.linked, fun ho => absurd (hk.offer ho) nofun⟩

/-- The discarded job on offer is so no longer. -/
theorem endOffer (h : K.Queues J (some j)) (ha : (J j).Alike r) (hf : r.isBeingOffered = false) :
    K.Queues (J.set j r) none := by
  have h' : K.Queues (J.set j r) (some j) := by
    refine h.mono (fun _ => .refl _) (.refl _) (.refl _) (fun _ => id) ?_ ?_
    · intro i _
      by_cases hi : i = j
      · rw [hi, Jobs.set_self]
        exact ha
      · rw [Jobs.set_ne J r hi]
    · intro i _ ho
      by_cases hi : i = j
      · rw [hi, Jobs.set_self, hf] at ho
        cases ho
      · rwa [Jobs.set_ne J r hi] at ho
  refine ⟨h'.queued, ?_, h'.pending, h'.running, h'.sorted, h'.sortedPending⟩
  intro i hi
  have hk := h'.discarded i hi
  refine ⟨hk.state, hk.linked, fun ho => ?_⟩
  obtain rfl := Option.some.inj (hk.offer ho)
  rw [Jobs.set_self, hf] at ho
  cases ho

/-- The record of a job with no place may change. -/
theorem set (h : K.Queues J x) (hj : j ∉ K.placed) (r : JobRec) : K.Queues (J.set j r) x := by
  have hne : ∀ i ∈ K.placed, J.set j r i = J i := by
    rintro i hi
    exact Jobs.set_ne J r (fun he => hj (he ▸ hi))
  refine h.mono (fun _ => .refl _) (.refl _) (.refl _) (fun _ => id) ?_ ?_
  · intro i hi
    rw [hne i hi]
  · rintro i hi ho
    rwa [hne i (Core.mem_placed.2 (by tauto))] at ho

theorem add (h : K.Queues J x) (hr : (J j).Queued (J j).isReplica) : (K.addByKind J j).Queues J x := by
  unfold addByKind
  refine ⟨?_, ?_, ?_, ?_, ?_, ?_⟩
  · intro b i hi
    rw [queue_setQueue] at hi
    split at hi
    · rename_i hb
      rcases mem_insertBy.1 hi with rfl | hi
      · rw [hb]; exact hr
      · exact h.queued b i (hb ▸ hi)
    · exact h.queued b i hi
  · simpa using h.discarded
  · simpa using h.pending
  · simpa using h.running
  · intro b
    rw [queue_setQueue]
    split
    · exact (h.sorted _).insertBy
    · exact h.sorted b
  · simpa using h.sortedPending

theorem addDiscard (h : K.Queues J x) (hr : (J j).Discarded (x = some j)) :
    (K.addToDiscardList J j).Queues J x := by
  refine ⟨h.queued, ?_, h.pending, h.running, h.sorted, h.sortedPending⟩
  intro i hi
  rcases mem_insertBy.1 hi with rfl | hi
  · exact hr
  · exact h.discarded i hi

theorem run (h : K.Queues J x) (hr : (J j).state = .running) (idle decision : Bool) (q : Pc n) :
    { K with runningJob := some j, isIdle := idle, decisionPoint := decision, pc := q }.Queues J x := by
  refine ⟨h.queued, h.discarded, h.pending, ?_, h.sorted, h.sortedPending⟩
  rintro i ⟨⟩
  exact hr

end Core.Queues

/-- What no step of a core's own changes in a record -/
structure JobRec.Kept (r r' : JobRec) : Prop where
  task : r'.parentTask = r.parentTask
  arrival : r'.arrivalTime = r.arrivalTime
  kind : r'.isReplica = r.isReplica
  refcount : r'.refcount = r.refcount
  offer : r'.isBeingOffered = r.isBeingOffered
  idle : r'.state = .idle → r.state = .idle

@[refl] theorem JobRec.Kept.refl (r : JobRec) : r.Kept r := ⟨rfl, rfl, rfl, rfl, rfl, id⟩

theorem JobRec.Kept.trans {r r' r'' : JobRec} (h : r.Kept r') (h' : r'.Kept r'') : r.Kept r'' :=
  ⟨h'.task.trans h.task, h'.arrival.trans h.arrival, h'.kind.trans h.kind,
    h'.refcount.trans h.refcount, h'.offer.trans h.offer, fun hi => h.idle (h'.idle hi)⟩

theorem Jobs.set_kept (h : (J j).Kept r) (i : JobId n) : (J i).Kept (J.set j r i) := by
  by_cases hi : i = j
  · rw [hi, Jobs.set_self]
    exact h
  · rw [Jobs.set_ne J r hi]

/-! ## The mode change -/

/-- The lists of a core while `filter_queue_for_mode_change` runs: `dest` stands
    for the queue it fills. -/
def Core.filtering (K : Core n) (replica : Bool) (dest discard : List (JobId n)) : Core n :=
  { K.setQueue replica dest with discardList := discard }

/-- What `filter_queue_for_mode_change` does to the lists of core `K`, whose
    queue it fills. -/
structure FilterSpec (K : Core n) (J : Jobs n) (x : Option (JobId n)) (src : List (JobId n))
    (K' : Core n) (J' : Jobs n) : Prop where
  queues : K'.Queues J' x
  placed : K'.placed = ↑src + K.placed
  frame : ∀ j ∉ src, J' j = J j
  kept : ∀ j, (J j).Kept (J' j)

theorem JobRec.kept_retune (r : JobRec) (level : ℕ) : r.Kept (r.retune level).link :=
  ⟨rfl, rfl, rfl, rfl, rfl, id⟩

/-- The rest of the queue, after its first job is in its list -/
theorem FilterSpec.cons {x : Option (JobId n)} {src : List (JobId n)} {K₁ : Core n}
    (h : FilterSpec K₁ (J.set j r) x src K' J') (hp : K₁.placed = j ::ₘ K.placed)
    (hr : (J j).Kept r) : FilterSpec K J x (j :: src) K' J' := by
  refine ⟨h.queues, ?_, ?_, ?_⟩
  · rw [h.placed, hp, ← Multiset.cons_coe, Multiset.cons_add, Multiset.add_cons]
  · intro i hi
    rw [List.mem_cons, not_or] at hi
    rw [h.frame i hi.2]
    exact Jobs.set_ne J r hi.1
  · intro i
    exact (Jobs.set_kept hr i).trans (h.kept i)

theorem filterQueueForModeChange_spec (level : ℕ) (replica : Bool) {x : Option (JobId n)}
    (src : List (JobId n)) : ∀ (J : Jobs n) (K : Core n), K.Queues J x → src.Nodup →
      (∀ j ∈ src, j ∉ K.placed) → (∀ j ∈ src, (J j).state = .ready ∧ (J j).isReplica = replica) →
      let r := filterQueueForModeChange level src J (K.queue replica) K.discardList
      FilterSpec K J x src (K.filtering replica r.2.1 r.2.2) r.1 := by
  induction src with
  | nil =>
    intro J K h _ _ _
    have he : K.filtering replica (K.queue replica) K.discardList = K := by cases replica <;> rfl
    simp only [filterQueueForModeChange, he]
    exact ⟨h, by simp, fun _ _ => rfl, fun _ => .refl _⟩
  | cons j src ih =>
    intro J K h hn hd hs
    obtain ⟨hj, hn⟩ := List.nodup_cons.1 hn
    obtain ⟨hr, hk⟩ := hs j (by simp)
    let J₁ := J.set j ((J j).retune level).link
    have h₁ : K.Queues J₁ x := h.set (hd j (by simp)) _
    have hJ : J₁ j = ((J j).retune level).link := Jobs.set_self ..
    -- `K₁` is the core after the job is in its list
    have rest : ∀ K₁ : Core n, K₁.Queues J₁ x → K₁.placed = j ::ₘ K.placed →
        FilterSpec K₁ J₁ x src
          (K₁.filtering replica
            (filterQueueForModeChange level src J₁ (K₁.queue replica) K₁.discardList).2.1
            (filterQueueForModeChange level src J₁ (K₁.queue replica) K₁.discardList).2.2)
          (filterQueueForModeChange level src J₁ (K₁.queue replica) K₁.discardList).1 := by
      intro K₁ hK hp
      refine ih J₁ K₁ hK hn ?_ ?_
      · intro i hi him
        rw [hp, Multiset.mem_cons] at him
        rcases him with rfl | him
        · exact hj hi
        · exact hd i (by simp [hi]) him
      · intro i hi
        rw [show J₁ i = J i from Jobs.set_ne J _ fun he => hj (he ▸ hi)]
        exact hs i (by simp [hi])
    simp only [filterQueueForModeChange]
    split
    · rename_i hc
      have hq : (K.addToDiscardList J₁ j).Queues J₁ x := by
        refine h₁.addDiscard ⟨by rw [hJ]; exact hr, by rw [hJ]; rfl, ?_⟩
        intro ho
        rw [hc.2] at ho
        cases ho
      have hf := rest _ hq (Core.placed_addToDiscardList K J₁ j)
      have hp := Core.placed_addToDiscardList K J₁ j
      cases replica <;> exact hf.cons hp (JobRec.kept_retune _ _)
    · have hkind : (J₁ j).isReplica = replica := by rw [hJ]; exact hk
      have hq : (K.addByKind J₁ j).Queues J₁ x :=
        h₁.add ⟨by rw [hJ]; exact hr, by rw [hJ]; rfl, rfl⟩
      have hf := rest _ hq (Core.placed_addByKind K J₁ j)
      have hp := Core.placed_addByKind K J₁ j
      unfold Core.addByKind at hf hp
      rw [hkind] at hf hp
      cases replica <;> exact hf.cons hp (JobRec.kept_retune _ _)

/-! ## The invariant of a core -/

/-- The job of a `procClear`, which is still on offer -/
def Pc.clears : Pc n → Option (JobId n)
  | .procClear r => some r.job
  | _ => none

/-- The record of the job in the hands of a core -/
def Pc.HandOk (q : Pc n) (r : JobRec) : Prop :=
  match q with
  | .pendingIns .. | .allocIns .. | .reclaimHand _ => r.state = .ready ∧ r.isBeingOffered = false
  | .pendingPut .. | .futureHand .. => r.Pending
  | .dispatch _ | .procInsert _ => r.state = .ready ∧ r.linked = false
  | .cancelPut .. | .cancelRunPut .. => r.state = .removed
  | .missPut _ | .completePut _ => r.state = .completed
  | _ => True

/-- A ready job in the hands of a core is not on offer, or not linked. -/
theorem Pc.HandOk.not_offered {q : Pc n} (h : q.HandOk r) (hh : q.hand = some j)
    (hr : r.state = .ready) (hl : r.linked = true) : r.isBeingOffered = false := by
  cases q with
  | pendingIns | allocIns | reclaimHand => exact h.2
  | pendingPut | futureHand => exact h.offer
  | dispatch | procInsert =>
    rw [h.2] at hl
    cases hl
  | cancelPut | cancelRunPut | missPut | completePut =>
    rw [show r.state = _ from h] at hr
    cases hr
  | _ => cases hh

/-- The invariant of a core -/
structure Core.Ok (K : Core n) (J : Jobs n) : Prop where
  queues : K.Queues J K.pc.clears
  hand : ∀ j, K.pc.hand = some j → K.pc.HandOk (J j)
  idle : (∀ j, K.pc ≠ .completePut j) → K.isIdle = K.runningJob.isNone
  complete : K.pc = .complete → K.runningJob ≠ none
  completed : ∀ j, K.pc = .completePut j → K.runningJob = none

/-! ## Operations on the queues -/

theorem Core.addByKind_set (K : Core n) (hk : r.isReplica = (J j).isReplica)
    (hv : r.virtualDeadline = (J j).virtualDeadline) :
    K.addByKind (J.set j r) j = K.addByKind J j := by
  have hvd : vdOf (J.set j r) = vdOf J := funext (Jobs.set_field (·.virtualDeadline) hv)
  unfold addByKind
  rw [hvd, Jobs.set_self, hk]

theorem Core.addToDiscardList_set (K : Core n) (hv : r.virtualDeadline = (J j).virtualDeadline) :
    K.addToDiscardList (J.set j r) j = K.addToDiscardList J j := by
  have hvd : vdOf (J.set j r) = vdOf J := funext (Jobs.set_field (·.virtualDeadline) hv)
  unfold addToDiscardList
  rw [hvd]

theorem Core.preempt_eq (K : Core n) (J : Jobs n) (j : JobId n) :
    K.preempt J j = { K with runningJob := none, isIdle := true }.addByKind J j := by
  unfold preempt addByKind setQueue
  split <;> rfl

namespace Core.Queues

variable {x : Option (JobId n)}

/-- A job without a place goes to the queue of its kind. -/
theorem insert (h : K.Queues J x) (hj : j ∉ K.placed) (hr : r.Queued (J j).isReplica)
    (hv : r.virtualDeadline = (J j).virtualDeadline) : (K.addByKind J j).Queues (J.set j r) x := by
  rw [← K.addByKind_set hr.kind hv]
  refine (h.set hj r).add ?_
  rw [Jobs.set_self, hr.kind]
  exact hr

/-- A job without a place goes to the discard list. -/
theorem insertDiscard (h : K.Queues J x) (hj : j ∉ K.placed) (hr : r.Discarded (x = some j))
    (hv : r.virtualDeadline = (J j).virtualDeadline) :
    (K.addToDiscardList J j).Queues (J.set j r) x := by
  rw [← K.addToDiscardList_set hv]
  refine (h.set hj r).addDiscard ?_
  rw [Jobs.set_self]
  exact hr

/-- A job leaves its place, and its record may change. -/
theorem remove (h : K.Queues J x) (hn : K.placed.Nodup) (hp : K.placed = j ::ₘ K'.placed)
    (hq : ∀ b, (K'.queue b).Sublist (K.queue b)) (hd : K'.discardList.Sublist K.discardList)
    (hpe : K'.pendingJobsQueue.Sublist K.pendingJobsQueue)
    (hr : ∀ j, K'.runningJob = some j → K.runningJob = some j) (r : JobRec) :
    K'.Queues (J.set j r) x := by
  have hj : j ∉ K'.placed := by
    rw [hp] at hn
    exact (Multiset.nodup_cons.1 hn).1
  exact (h.mono hq hd hpe hr (fun _ _ => .refl _) fun _ _ => id).set hj r

/-- The running job goes back to its queue. -/
theorem preempt (h : K.Queues J x) (hn : K.placed.Nodup) (hr : K.runningJob = some j) :
    (K.preempt J j).Queues (J.set j { (J j).link with state := .ready }) x := by
  have hp : K.placed = j ::ₘ { K with runningJob := none, isIdle := true }.placed := placed_running hr
  have h' : { K with runningJob := none, isIdle := true }.Queues J x :=
    h.mono (fun _ => .refl _) (.refl _) (.refl _) nofun (fun _ _ => .refl _) fun _ _ => id
  rw [hp] at hn
  rw [preempt_eq]
  exact h'.insert (Multiset.nodup_cons.1 hn).1 ⟨rfl, rfl, rfl⟩ rfl

end Core.Queues

theorem Core.placed_preempt (hr : K.runningJob = some j) : (K.preempt J j).placed = K.placed := by
  rw [preempt_eq, placed_addByKind, placed_running hr]
  rfl

/-- What a step does to the places of a core and to the records -/
structure PlacedSpec (K : Core n) (J : Jobs n) (x : Option (JobId n)) (K' : Core n) (J' : Jobs n) :
    Prop where
  queues : K'.Queues J' x
  placed : K'.placed = K.placed
  frame : ∀ j ∉ K.placed, J' j = J j
  kept : ∀ j, (J j).Kept (J' j)

theorem preemptRunning_spec {x : Option (JobId n)} (h : K.Queues J x) (hn : K.placed.Nodup) :
    PlacedSpec K J x (preemptRunning K J).1 (preemptRunning K J).2 := by
  unfold preemptRunning
  split
  · rename_i j hr
    refine ⟨h.preempt hn hr, Core.placed_preempt hr, ?_, ?_⟩
    · intro i hi
      refine Jobs.set_ne J _ ?_
      rintro rfl
      exact hi (Core.mem_placed.2 (by tauto))
    · exact Jobs.set_kept ⟨rfl, rfl, rfl, rfl, rfl, nofun⟩
  · exact ⟨h, rfl, fun _ _ => rfl, fun _ => .refl _⟩

theorem preemptRunning_runningJob (K : Core n) (J : Jobs n) :
    (preemptRunning K J).1.runningJob = none := by
  unfold preemptRunning
  split
  · rfl
  · assumption

theorem preemptRunning_isIdle (h : K.isIdle = K.runningJob.isNone) :
    (preemptRunning K J).1.isIdle = true := by
  unfold preemptRunning
  split
  · rfl
  · rename_i hr
    rw [h, hr]
    rfl

/-- A queue is filtered for a mode change. -/
theorem filterQueue_spec {x : Option (JobId n)} (h : K.Queues J x) (hn : K.placed.Nodup) (level : ℕ)
    (b : Bool) :
    let r := filterQueueForModeChange level (K.queue b) J [] K.discardList
    PlacedSpec K J x (K.filtering b r.2.1 r.2.2) r.1 := by
  have hp := Core.placed_clear K b
  have hq : (K.setQueue b []).Queues J x := by
    refine h.mono ?_ (by simp) (by simp) (by simp) (fun _ _ => .refl _) (fun _ _ => id)
    intro a
    rw [Core.queue_setQueue]
    split
    · exact List.nil_sublist _
    · exact .refl _
  rw [hp] at hn
  obtain ⟨hsrc, -, hd⟩ := Multiset.nodup_add.1 hn
  have he : ∀ dest discard, (K.setQueue b []).filtering b dest discard = K.filtering b dest discard := by
    cases b <;> exact fun _ _ => rfl
  have hs := filterQueueForModeChange_spec level b (K.queue b) J (K.setQueue b []) hq
    (Multiset.coe_nodup.1 hsrc)
    (fun j hj hi => Multiset.disjoint_left.1 hd (Multiset.mem_coe.2 hj) hi)
    (fun j hj => ⟨(h.queued b j hj).state, (h.queued b j hj).kind⟩)
  simp only [Core.queue_setQueue, if_true, Core.setQueue_discardList, he] at hs
  refine ⟨hs.queues, by rw [hs.placed, hp], ?_, hs.kept⟩
  intro j hj
  exact hs.frame j fun hi => hj (Core.mem_placed_of_queue hi)

theorem PlacedSpec.trans {x : Option (JobId n)} {K'' : Core n} {J'' : Jobs n}
    (h : PlacedSpec K J x K' J') (h' : PlacedSpec K' J' x K'' J'') : PlacedSpec K J x K'' J'' := by
  refine ⟨h'.queues, h'.placed.trans h.placed, ?_, fun j => (h.kept j).trans (h'.kept j)⟩
  intro j hj
  rw [h'.frame j (by rw [h.placed]; exact hj), h.frame j hj]

theorem modeChangeSection_spec {x : Option (JobId n)} (h : K.Queues J x) (hn : K.placed.Nodup) :
    PlacedSpec K J x (modeChangeSection K J).1 (modeChangeSection K J).2 := by
  have hp := preemptRunning_spec h hn
  have h₁ := filterQueue_spec hp.queues (by rwa [hp.placed])
    (preemptRunning K J).1.localCriticalityLevel false
  have h₂ := filterQueue_spec h₁.queues (by rwa [h₁.placed, hp.placed])
    (preemptRunning K J).1.localCriticalityLevel true
  exact (hp.trans h₁).trans h₂

end EeftSched

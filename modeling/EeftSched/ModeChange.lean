/-
  What a mode change does to the jobs of a core (`handle_mode_change`,
  `filter_queue_for_mode_change` in `sched_core.c`, `list_splice_init` in
  `list.h`).

  The running job goes back to its queue with its old key; then the jobs of the
  two queues are taken out one by one, get the deadline and the budget of the
  new level, and go to a new queue or to the discard list.

  * `Filtered`: a queue is split into the jobs that stay and those that go;
  * `handleModeChange_lossless`: so are all jobs of the core, and each list is in
    its order;
  * `modeChange_ready`: a core of a processor that runs is as this asks.
-/
import EeftSched.Ownership

namespace EeftSched

open SortedQueue

variable {n : ℕ} {K K' : Core n} {J J' : Jobs n} {j i : JobId n} {level : ℕ}

/-- `list_splice_init`: the emptied list, and the other with its elements in
    front -/
def listSpliceInit {α : Type} (list head : List α) : List α × List α :=
  if list.isEmpty then (list, head) else ([], list ++ head)

/-- `handle_mode_change`, what it does to the core; the two queues are empty
    when the new ones are spliced in. -/
def handleModeChange (level : ℕ) (K : Core n) (J : Jobs n) : Core n × Jobs n :=
  let K := { K with decisionPoint := true, localCriticalityLevel := level }
  let (K, J) := preemptRunning K J
  let (J, newReady, discard) :=
    filterQueueForModeChange K.localCriticalityLevel K.readyQueue J [] K.discardList
  let (J, newReplica, discard) :=
    filterQueueForModeChange K.localCriticalityLevel K.replicaQueue J [] discard
  ({ K with
      readyQueue := (listSpliceInit newReady []).2
      replicaQueue := (listSpliceInit newReplica []).2
      discardList := discard }, J)

theorem listSpliceInit_nil {α : Type} (list : List α) : listSpliceInit list [] = ([], list) := by
  unfold listSpliceInit
  cases list with
  | nil => rfl
  | cons x list => simp

/-- The steps of a core in a mode change make up `handle_mode_change`. -/
theorem handleModeChange_eq (level : ℕ) (K : Core n) (J : Jobs n) :
    handleModeChange level K J =
      modeChangeSection { K with decisionPoint := true, localCriticalityLevel := level } J := by
  unfold handleModeChange
  simp only [listSpliceInit_nil]
  rfl

/-! ## One queue -/

/-- The job stays in its queue at a level. -/
def JobRec.stays (level : ℕ) (r : JobRec) : Bool :=
  decide (level ≤ r.parentTask.critLevel) || r.isBeingOffered

/-- The records after the jobs `moved` got the deadlines and budgets of a level -/
def Jobs.retuned (J : Jobs n) (level : ℕ) (moved : List (JobId n)) : Jobs n :=
  fun j => if j ∈ moved then ((J j).retune level).link else J j

theorem Jobs.retuned_nil (J : Jobs n) (level : ℕ) : J.retuned level [] = J :=
  funext fun _ => if_neg List.not_mem_nil

theorem Jobs.retuned_cons {moved : List (JobId n)} (hj : j ∉ moved) :
    (J.set j ((J j).retune level).link).retuned level moved = J.retuned level (j :: moved) := by
  ext1 i
  unfold retuned
  by_cases hij : i = j
  · subst hij
    rw [if_neg hj, Jobs.set_self, if_pos List.mem_cons_self]
  · rw [Jobs.set_ne _ _ hij]
    simp only [List.mem_cons, hij, false_or]

theorem Jobs.retuned_append {moved moved' : List (JobId n)} (h : ∀ j ∈ moved, j ∉ moved') :
    (J.retuned level moved).retuned level moved' = J.retuned level (moved ++ moved') := by
  ext1 i
  unfold retuned
  by_cases hi : i ∈ moved
  · simp only [h i hi, if_false, hi, if_true, List.mem_append, true_or]
  · simp only [hi, if_false, List.mem_append, false_or]

theorem Jobs.retuned_stays (J : Jobs n) (level : ℕ) (moved : List (JobId n)) (j : JobId n) :
    (J.retuned level moved j).stays level = (J j).stays level := by
  unfold retuned
  split_ifs <;> rfl

theorem Jobs.retuned_vd {moved : List (JobId n)} (hj : j ∉ moved) :
    vdOf (J.retuned level moved) j = vdOf J j := by
  unfold vdOf retuned
  rw [if_neg hj]

/-- What `filter_queue_for_mode_change` does with the queue `src`: `dest` and
    `discard` are the lists before, `r` is the result. -/
structure Filtered (level : ℕ) (src : List (JobId n)) (J : Jobs n) (dest discard : List (JobId n))
    (r : Jobs n × List (JobId n) × List (JobId n)) : Prop where
  records : r.1 = J.retuned level src
  stay : r.2.1.Perm (src.filter (fun j => (J j).stays level) ++ dest)
  go : r.2.2.Perm (src.filter (fun j => !(J j).stays level) ++ discard)
  sorted : SortedBy (vdOf r.1) r.2.1
  sortedDiscard : SortedBy (vdOf r.1) r.2.2

namespace Filtered

variable {src dest discard : List (JobId n)} {r : Jobs n × List (JobId n) × List (JobId n)}
  {key : JobId n → ℕ}

/-- The tests of the jobs still in the queue do not change when one is taken
    out. -/
theorem filter_set (J : Jobs n) (level : ℕ) (hj : j ∉ src) (f : Bool → Bool) :
    src.filter (fun i => f ((J.set j ((J j).retune level).link i).stays level)) =
      src.filter (fun i => f ((J i).stays level)) := by
  refine List.filter_congr fun i hi => ?_
  rw [Jobs.set_ne]
  rintro rfl
  exact hj hi

/-- The first job stays. -/
theorem cons_stay (hj : j ∉ src) (hs : (J j).stays level = true)
    (h : Filtered level src (J.set j ((J j).retune level).link) (insertBy key j dest) discard r) :
    Filtered level (j :: src) J dest discard r := by
  obtain ⟨h1, h2, h3, h4, h5⟩ := h
  have hf := filter_set J level hj
  have hf₁ := hf id
  simp only [id] at hf₁
  refine ⟨h1.trans (Jobs.retuned_cons hj), ?_, ?_, h4, h5⟩
  · rw [hf₁] at h2
    rw [List.filter_cons, if_pos hs]
    exact (h2.trans ((insertBy_perm key j dest).append_left _)).trans List.perm_middle
  · rw [hf (!·)] at h3
    rw [List.filter_cons, if_neg (by simp [hs])]
    exact h3

/-- The first job goes. -/
theorem cons_go (hj : j ∉ src) (hs : (J j).stays level = false)
    (h : Filtered level src (J.set j ((J j).retune level).link) dest (insertBy key j discard) r) :
    Filtered level (j :: src) J dest discard r := by
  obtain ⟨h1, h2, h3, h4, h5⟩ := h
  have hf := filter_set J level hj
  have hf₁ := hf id
  simp only [id] at hf₁
  refine ⟨h1.trans (Jobs.retuned_cons hj), ?_, ?_, h4, h5⟩
  · rw [hf₁] at h2
    rw [List.filter_cons, if_neg (by simp [hs])]
    exact h2
  · rw [hf (!·)] at h3
    rw [List.filter_cons, if_pos (by simp [hs])]
    exact (h3.trans ((insertBy_perm key j discard).append_left _)).trans List.perm_middle

end Filtered

/-- A list keeps its order when a job that it does not have changes. -/
theorem sortedBy_set {l : List (JobId n)} {r : JobRec} (hj : j ∉ l) (h : SortedBy (vdOf J) l) :
    SortedBy (vdOf (J.set j r)) l := by
  refine h.congr fun i hi => ?_
  unfold vdOf
  rw [Jobs.set_ne]
  rintro rfl
  exact hj hi

theorem filterQueueForModeChange_filtered {src dest discard : List (JobId n)} (hn : src.Nodup)
    (hdest : ∀ j ∈ src, j ∉ dest) (hdiscard : ∀ j ∈ src, j ∉ discard) (hs : SortedBy (vdOf J) dest)
    (hd : SortedBy (vdOf J) discard) :
    Filtered level src J dest discard (filterQueueForModeChange level src J dest discard) := by
  induction src generalizing J dest discard with
  | nil => exact ⟨(J.retuned_nil level).symm, .refl _, .refl _, hs, hd⟩
  | cons j src ih =>
    obtain ⟨hj, hn⟩ := List.nodup_cons.1 hn
    have hs₁ := @sortedBy_set _ _ _ _ ((J j).retune level).link (hdest j List.mem_cons_self) hs
    have hd₁ := @sortedBy_set _ _ _ _ ((J j).retune level).link (hdiscard j List.mem_cons_self) hd
    have hdest' : ∀ i ∈ src, i ∉ dest := fun i hi => hdest i (List.mem_cons_of_mem _ hi)
    have hdiscard' : ∀ i ∈ src, i ∉ discard := fun i hi => hdiscard i (List.mem_cons_of_mem _ hi)
    -- the jobs still to come are not the one inserted
    have hins : ∀ (key : JobId n → ℕ) (l : List (JobId n)), (∀ i ∈ src, i ∉ l) →
        ∀ i ∈ src, i ∉ insertBy key j l := by
      intro key l hl i hi
      rw [mem_insertBy, not_or]
      refine ⟨?_, hl i hi⟩
      rintro rfl
      exact hj hi
    have htest : ((J.set j ((J j).retune level).link j).parentTask.critLevel < level ∧
        (J.set j ((J j).retune level).link j).isBeingOffered = false) ↔
          (J j).stays level = false := by
      rw [Jobs.set_self, JobRec.stays, Bool.or_eq_false_iff, decide_eq_false_iff_not, not_le]
      rfl
    simp only [filterQueueForModeChange]
    by_cases hgo : (J j).stays level = false
    · rw [if_pos (htest.2 hgo)]
      exact (ih hn hdest' (hins _ _ hdiscard') hs₁ hd₁.insertBy).cons_go hj hgo
    · rw [if_neg fun h => hgo (htest.1 h)]
      have hstay := Bool.eq_true_of_not_eq_false hgo
      exact (ih hn (hins _ _ hdest') hdiscard' hs₁.insertBy hd₁).cons_stay hj hstay

/-! ## The jobs of the core -/

/-- The jobs that a mode change handles -/
def Core.active (K : Core n) : List (JobId n) :=
  K.readyQueue ++ K.replicaQueue ++ K.runningJob.toList

/-- What the running job becomes when it goes back to its queue -/
def JobRec.preempted (r : JobRec) : JobRec := { r.link with state := .ready }

/-- The core after the running job went back to its queue -/
structure Preempted (K : Core n) (J : Jobs n) (K' : Core n) (J' : Jobs n) : Prop where
  core : K' = { K with
    readyQueue := K'.readyQueue
    replicaQueue := K'.replicaQueue
    runningJob := none
    isIdle := true }
  active : (K'.readyQueue ++ K'.replicaQueue).Perm K.active
  kinds : ∀ b, ∀ j ∈ K'.queue b, (J' j).isReplica = b
  records : ∀ j, J' j = if K.runningJob = some j then (J j).preempted else J j

theorem Core.preempt_core (K : Core n) (J : Jobs n) (j : JobId n) :
    K.preempt J j = { K with
      readyQueue := (K.preempt J j).readyQueue
      replicaQueue := (K.preempt J j).replicaQueue
      runningJob := none
      isIdle := true } := by
  unfold preempt addByKind setQueue
  cases (J j).isReplica <;> rfl

theorem preemptRunning_preempted (hkind : ∀ b, ∀ j ∈ K.queue b, (J j).isReplica = b)
    (hidle : K.runningJob = none → K.isIdle = true) :
    Preempted K J (preemptRunning K J).1 (preemptRunning K J).2 := by
  unfold preemptRunning
  cases hr : K.runningJob with
  | none =>
    replace hidle := hidle hr
    refine ⟨?_, ?_, hkind, ?_⟩
    · obtain ⟨⟩ := K
      simp only at hr hidle
      subst hr hidle
      rfl
    · rw [Core.active, hr]
      simp
    · intro j
      rw [hr, if_neg nofun]
  | some j =>
    have hrec : ∀ i, (J.set j { (J j).link with state := .ready }) i =
        if some j = some i then (J i).preempted else J i := by
      intro i
      by_cases hij : i = j
      · subst hij
        rw [Jobs.set_self, if_pos rfl]
        rfl
      · rw [Jobs.set_ne _ _ hij, if_neg fun h => hij (Option.some.inj h).symm]
    have hk : ∀ i, ((J.set j { (J j).link with state := .ready }) i).isReplica = (J i).isReplica := by
      intro i
      rw [hrec]
      split_ifs <;> rfl
    refine ⟨?_, ?_, ?_, ?_⟩
    · exact Core.preempt_core K J j
    · show ((K.preempt J j).readyQueue ++ (K.preempt J j).replicaQueue).Perm _
      rw [Core.active, hr]
      unfold Core.preempt Core.addByKind Core.setQueue
      cases (J j).isReplica with
      | true =>
        refine ((insertBy_perm _ _ _).append_left _).trans ?_
        refine List.perm_middle.trans ?_
        exact (List.perm_append_singleton j _).symm
      | false =>
        refine ((insertBy_perm _ _ _).append_right _).trans ?_
        exact (List.perm_append_singleton j _).symm
    · intro b i hi
      rw [hk]
      have hi : i ∈ (K.addByKind J j).queue b := by cases b <;> exact hi
      unfold Core.addByKind at hi
      rw [Core.queue_setQueue] at hi
      split_ifs at hi with hb
      · rcases mem_insertBy.1 hi with rfl | hi
        · exact hb.symm
        · rw [← hb] at hi
          exact hkind b i hi
      · exact hkind b i hi
    · intro i
      rw [hr]
      exact hrec i

/-- **What a mode change leaves of the jobs.** -/
structure Partition (level : ℕ) (K : Core n) (J : Jobs n) (K' : Core n) (J' : Jobs n) : Prop where
  /-- no job is running, the core is idle, and the rest of it is as before -/
  core : K' = { K with
    readyQueue := K'.readyQueue
    replicaQueue := K'.replicaQueue
    discardList := K'.discardList
    runningJob := none
    isIdle := true
    decisionPoint := true
    localCriticalityLevel := level }
  lossless : ∃ added : List (JobId n), K'.discardList.Perm (added ++ K.discardList) ∧
    K.active.Perm (K'.readyQueue ++ K'.replicaQueue ++ added)
  kept : ∀ j ∈ K.active, (j ∈ K'.readyQueue ∨ j ∈ K'.replicaQueue) ↔
    level ≤ (J j).parentTask.critLevel ∨ (J j).isBeingOffered = true
  kinds : ∀ b, ∀ j ∈ K'.queue b, (J' j).isReplica = b
  records : ∀ j ∈ K.active, J' j =
    { J j with
      virtualDeadline := (J j).arrivalTime + (J j).relativeTunedDeadlines level
      wcet := toFloat ((J j).parentTask.wcet level)
      linked := true
      state := if K.runningJob = some j then .ready else (J j).state }
  frame : ∀ j ∉ K.active, J' j = J j
  sorted : ∀ b, SortedBy (vdOf J') (K'.queue b)
  sortedDiscard : SortedBy (vdOf J') K'.discardList

theorem stays_iff {r : JobRec} :
    r.stays level = true ↔ level ≤ r.parentTask.critLevel ∨ r.isBeingOffered = true := by
  rw [JobRec.stays, Bool.or_eq_true, decide_eq_true_iff]

/-- **A mode change is a lossless partition** of the jobs of the two queues and
    the running job. -/
theorem handleModeChange_lossless (level : ℕ)
    (hsorted : SortedBy (vdOf J) K.discardList)
    (hkind : ∀ b, ∀ j ∈ K.queue b, (J j).isReplica = b)
    (hn : (K.active ++ K.discardList).Nodup) (hidle : K.runningJob = none → K.isIdle = true) :
    Partition level K J (handleModeChange level K J).1 (handleModeChange level K J).2 := by
  rw [handleModeChange_eq]
  unfold modeChangeSection
  have hpre : Preempted _ J _ _ :=
    @preemptRunning_preempted _ { K with decisionPoint := true, localCriticalityLevel := level } J
      hkind hidle
  obtain ⟨K₁, J₁, hK₁⟩ : ∃ K₁ J₁, preemptRunning
      { K with decisionPoint := true, localCriticalityLevel := level } J = (K₁, J₁) := ⟨_, _, rfl⟩
  rw [hK₁] at hpre ⊢
  obtain ⟨hcore, hactive, hkinds, hrecords⟩ := hpre
  simp only at hcore hactive hkinds hrecords ⊢
  have hlevel : K₁.localCriticalityLevel = level := by rw [hcore]
  have hdiscard : K₁.discardList = K.discardList := by rw [hcore]
  rw [hlevel, hdiscard]
  -- the jobs of the three lists are different
  have hn₁ : (K₁.readyQueue ++ K₁.replicaQueue ++ K.discardList).Nodup :=
    (hactive.append_right K.discardList).nodup_iff.2 hn
  obtain ⟨hqueues, hnd, hqd⟩ := List.nodup_append'.1 hn₁
  obtain ⟨hready, hreplica, hdisjoint⟩ := List.nodup_append'.1 hqueues
  have hvd : SortedBy (vdOf J₁) K.discardList := by
    refine hsorted.congr fun j _ => ?_
    unfold vdOf
    rw [hrecords]
    split_ifs <;> rfl
  have h₁ := @filterQueueForModeChange_filtered _ J₁ level K₁.readyQueue [] K.discardList hready
    (fun _ _ => List.not_mem_nil) (fun j hj => hqd (List.mem_append_left _ hj)) .nil hvd
  obtain ⟨⟨J₂, ready, discard⟩, hr₁⟩ :
      ∃ r, filterQueueForModeChange level K₁.readyQueue J₁ [] K.discardList = r := ⟨_, rfl⟩
  rw [hr₁] at h₁ ⊢
  obtain ⟨hJ₂, hstay₁, hgo₁, hs₁, hsd₁⟩ := h₁
  simp only [List.append_nil] at hJ₂ hstay₁ hgo₁ hs₁ hsd₁ ⊢
  have hst₁ : ∀ j, (J₁ j).stays level = (J j).stays level := by
    intro j
    rw [hrecords]
    split_ifs <;> rfl
  have hst₂ : ∀ j, (J₂ j).stays level = (J j).stays level := by
    intro j
    rw [hJ₂, Jobs.retuned_stays, hst₁]
  simp only [hst₁] at hstay₁ hgo₁
  have hnew : ∀ j ∈ K₁.replicaQueue, j ∉ discard := by
    intro j hj hjd
    rcases List.mem_append.1 (hgo₁.mem_iff.1 hjd) with hjr | hjd
    · exact hdisjoint (List.mem_filter.1 hjr).1 hj
    · exact hqd (List.mem_append_right _ hj) hjd
  have h₂ := @filterQueueForModeChange_filtered _ J₂ level K₁.replicaQueue [] discard hreplica
    (fun _ _ => List.not_mem_nil) hnew .nil hsd₁
  obtain ⟨⟨J₃, replica, discard'⟩, hr₂⟩ :
      ∃ r, filterQueueForModeChange level K₁.replicaQueue J₂ [] discard = r := ⟨_, rfl⟩
  rw [hr₂] at h₂ ⊢
  obtain ⟨hJ₃, hstay₂, hgo₂, hs₂, hsd₂⟩ := h₂
  simp only [hst₂, List.append_nil] at hJ₃ hstay₂ hgo₂ hs₂ hsd₂ ⊢
  have hJ : J₃ = J₁.retuned level (K₁.readyQueue ++ K₁.replicaQueue) := by
    rw [hJ₃, hJ₂, Jobs.retuned_append fun j hj => hdisjoint hj]
  have hkind₃ : ∀ j, (J₃ j).isReplica = (J₁ j).isReplica := by
    intro j
    rw [hJ]
    unfold Jobs.retuned
    split_ifs <;> rfl
  refine ⟨?_, ?_, ?_, ?_, ?_, ?_, ?_, hsd₂⟩
  · rw [hcore]
  · refine ⟨K₁.replicaQueue.filter (fun j => !(J j).stays level) ++
      K₁.readyQueue.filter (fun j => !(J j).stays level), ?_, ?_⟩
    · refine hgo₂.trans ((hgo₁.append_left _).trans ?_)
      rw [List.append_assoc]
    · refine hactive.symm.trans ?_
      refine List.Perm.trans ?_ ((hstay₁.append hstay₂).append_right _).symm
      rw [← Multiset.coe_eq_coe]
      simp only [← Multiset.coe_add]
      have hready := Multiset.coe_eq_coe.2
        (List.filter_append_perm (fun j => (J j).stays level) K₁.readyQueue)
      have hreplica := Multiset.coe_eq_coe.2
        (List.filter_append_perm (fun j => (J j).stays level) K₁.replicaQueue)
      rw [← hready, ← hreplica]
      simp only [← Multiset.coe_add]
      abel
  · intro j hj
    have hj := hactive.mem_iff.2 hj
    rw [hstay₁.mem_iff, hstay₂.mem_iff, List.mem_filter, List.mem_filter, stays_iff, ← or_and_right,
      ← List.mem_append]
    exact and_iff_right hj
  · rintro (_ | _) j hj
    · rw [hkind₃]
      exact hkinds false j (List.mem_filter.1 (hstay₁.mem_iff.1 hj)).1
    · rw [hkind₃]
      exact hkinds true j (List.mem_filter.1 (hstay₂.mem_iff.1 hj)).1
  · intro j hj
    rw [hJ]
    unfold Jobs.retuned
    rw [if_pos (hactive.mem_iff.2 hj), hrecords]
    split_ifs <;> rfl
  · intro j hj
    rw [hJ]
    unfold Jobs.retuned
    rw [if_neg fun h => hj (hactive.mem_iff.1 h), hrecords, if_neg]
    intro hr
    exact hj (List.mem_append_right _ (by rw [hr]; exact List.mem_singleton.2 rfl))
  · rintro (_ | _)
    · -- the jobs of the new ready queue are not in the replica queue
      refine hs₁.congr fun j hj => ?_
      rw [hJ₃]
      exact Jobs.retuned_vd fun h => hdisjoint (List.mem_filter.1 (hstay₁.mem_iff.1 hj)).1 h
    · exact hs₂

/-- Two jobs of the only core -/
def JobId.first : JobId 1 := (Fin.last 0, ⟨0, by decide⟩)

def JobId.second : JobId 1 := (Fin.last 0, ⟨1, by decide⟩)

def JobId.third : JobId 1 := (Fin.last 0, ⟨2, by decide⟩)

def JobId.fourth : JobId 1 := (Fin.last 0, ⟨3, by decide⟩)

def JobId.fifth : JobId 1 := (Fin.last 0, ⟨4, by decide⟩)

/-- A core with two jobs ready, a replica, a running job and a discarded one -/
def Core.fiveJobs : Core 1 :=
  { Core.init 1 with
    readyQueue := [JobId.first, JobId.third]
    replicaQueue := [JobId.fourth]
    discardList := [JobId.fifth]
    runningJob := some JobId.second
    isIdle := false }

/-- A job with deadline 50 at level 0, and deadline `tuned` at level 1 -/
def JobRec.tuned (critLevel tuned : ℕ) (isReplica : Bool) : JobRec :=
  { JobRec.blank with
    parentTask := ⟨1, 100, 100, fun l => l + 1, critLevel⟩
    relativeTunedDeadlines := fun l => if l = 0 then 50 else tuned
    virtualDeadline := 50
    isReplica := isReplica
    state := .ready }

/-- The third job does not run at level 1. -/
def Jobs.five : Jobs 1 := fun j =>
  if j = JobId.first then JobRec.tuned 1 30 false
  else if j = JobId.second then JobRec.tuned 1 20 false
  else if j = JobId.third then JobRec.tuned 0 60 false
  else if j = JobId.fourth then JobRec.tuned 1 40 true
  else JobRec.tuned 0 50 false

/-- The running job comes first at its new deadline, the replica stays where it is, and the third
    job is discarded. -/
theorem handleModeChange_lossless_five : ∃ K' J', handleModeChange 1 Core.fiveJobs Jobs.five = (K', J') ∧
    K'.readyQueue = [JobId.second, JobId.first] ∧ K'.replicaQueue = [JobId.fourth] ∧
    K'.discardList = [JobId.fifth, JobId.third] ∧ vdOf J' JobId.second = 20 ∧ vdOf J' JobId.first = 30 ∧
    Partition 1 Core.fiveJobs Jobs.five K' J' := by
  have hkind : ∀ b, ∀ j ∈ Core.fiveJobs.queue b, (Jobs.five j).isReplica = b := by decide
  have hsorted : SortedBy (vdOf Jobs.five) Core.fiveJobs.discardList := List.pairwise_singleton ..
  have h := handleModeChange_lossless 1 hsorted hkind (by decide) nofun
  exact ⟨_, _, rfl, by decide, by decide, by decide, by decide, by decide, h⟩

/-! ## In a run -/

/-- A core that changes its mode in a run has the jobs of each kind in the queue
    of that kind, each job in one list, and is idle when it runs none. -/
theorem Reachable.modeChange_ready {cfg : Config} {S : Sys n} (h : Reachable cfg S) {c : Fin n}
    {overrun : Bool} (hp : (S.core c).pc = .modeStore level overrun) :
    (∀ b, ∀ j ∈ (S.core c).queue b, (S.job j).isReplica = b) ∧
      ((S.core c).active ++ (S.core c).discardList).Nodup ∧
      ((S.core c).runningJob = none → (S.core c).isIdle = true) := by
  have hok := h.inv.ok c
  refine ⟨fun b j hj => (hok.queues.queued b j hj).kind, ?_, fun hr => ?_⟩
  case refine_2 => rw [hok.idle (by rw [hp]; nofun), hr]; rfl
  have hplaced := Core.placed_nodup (h.inv.core_nodup c)
  rw [← Multiset.coe_nodup]
  refine Multiset.nodup_of_le ?_ hplaced
  have heq : (S.core c).placed = ↑((S.core c).active ++ (S.core c).discardList) +
      ↑(S.core c).pendingJobsQueue := by
    simp only [Core.placed, Core.lists, Core.active, ← Multiset.coe_add]
    abel
  rw [heq]
  exact Multiset.le_add_right _ _

end EeftSched

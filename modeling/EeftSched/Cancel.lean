/-
  What `remove_completed_jobs` takes from a core (`sched_core.c`).

  For each message of the incoming queue the replica queue, the ready queue and
  the running job are tested, the running job for its task alone.

  * `Drops`: some jobs are gone, and all others are what they were;
  * `removeCompletedJobs_exec`: the function is a run of the core's steps;
  * `removeCompletedJobs_exact_iff`: it takes the jobs that a message names by
    task and arrival iff the running job is not named by its task alone.
-/
import EeftSched.ModeChange

namespace EeftSched

open Lts

variable {n : ℕ} {cfg : Config} {S S' S'' : Sys n} {c : Fin n} {j : JobId n} {b : Bool}
  {msg : CompletionMessage} {msgs : List CompletionMessage}

instance (msg : CompletionMessage) (r : JobRec) : Decidable (msg.isFor r) :=
  inferInstanceAs (Decidable (_ ∧ _))

namespace Sys

/-- The body of the loops over the queues, for a job that the message is for -/
def removeJob (S : Sys n) (c : Fin n) (b : Bool) (j : JobId n) : Sys n :=
  ((S.setJob j { (S.job j).unlink with state := .removed }).setCore c
    ((S.core c).setQueue b (((S.core c).queue b).erase j))).putJobRef (some c) j

/-- `list_for_each_entry_safe` over a queue, from some job on -/
def removeMatching (c : Fin n) (msg : CompletionMessage) (b : Bool) : List (JobId n) → Sys n → Sys n
  | [], S => S
  | j :: rest, S =>
    removeMatching c msg b rest (if msg.isFor (S.job j) then S.removeJob c b j else S)

/-- The test of the running job -/
def removeRunning (c : Fin n) (msg : CompletionMessage) (S : Sys n) : Sys n :=
  match (S.core c).runningJob with
  | none => S
  | some j =>
    if (S.job j).parentTask.id = msg.completedTaskId then
      ((S.setJob j { S.job j with state := .removed }).setCore c
        { S.core c with runningJob := none, isIdle := true }).putJobRef (some c) j
    else S

/-- One message -/
def removeFor (c : Fin n) (S : Sys n) (msg : CompletionMessage) : Sys n :=
  let S := removeMatching c msg true ((S.core c).queue true) S
  let S := removeMatching c msg false ((S.core c).queue false) S
  removeRunning c msg S

/-- `remove_completed_jobs`, for the messages of the incoming queue -/
def removeCompletedJobs (S : Sys n) (c : Fin n) (msgs : List CompletionMessage) : Sys n :=
  msgs.foldl (removeFor c) S

end Sys

/-! ## What is gone, and what stays -/

/-- Core `c` has lost some of its active jobs, with the references for them;
    nothing else has changed. -/
structure Drops (c : Fin n) (S S' : Sys n) : Prop where
  sub : ∀ j ∈ (S'.core c).active, j ∈ (S.core c).active
  nodup : (S'.core c).active.Nodup
  gone : ∀ j ∈ (S.core c).active, j ∉ (S'.core c).active →
    (S'.job j).state = .removed ∧ (S'.job j).refcount = (S.job j).refcount - 1
  rest : ∀ j, j ∉ (S.core c).active ∨ j ∈ (S'.core c).active → S'.job j = S.job j
  same : ∀ j, (S'.job j).parentTask = (S.job j).parentTask ∧
    (S'.job j).arrivalTime = (S.job j).arrivalTime
  others : ∀ d ≠ c, S'.core d = S.core d

namespace Drops

theorem refl (hn : (S.core c).active.Nodup) : Drops c S S :=
  ⟨fun _ hj => hj, hn, fun _ hj hj' => absurd hj hj', fun _ _ => rfl, fun _ => ⟨rfl, rfl⟩,
    fun _ _ => rfl⟩

theorem trans (h : Drops c S S') (h' : Drops c S' S'') : Drops c S S'' := by
  refine ⟨fun j hj => h.sub j (h'.sub j hj), h'.nodup, ?_, ?_, ?_, ?_⟩
  · intro j hj hj''
    by_cases hj' : j ∈ (S'.core c).active
    · -- it was there after the first part
      obtain ⟨hs, hr⟩ := h'.gone j hj' hj''
      rw [h.rest j (.inr hj')] at hr
      exact ⟨hs, hr⟩
    · rw [h'.rest j (.inl hj')]
      exact h.gone j hj hj'
  · intro j hj
    have hj' : j ∉ (S'.core c).active ∨ j ∈ (S''.core c).active := by
      rcases hj with hj | hj
      · exact .inl fun hm => hj (h.sub j hm)
      · exact .inr hj
    rw [h'.rest j hj']
    refine h.rest j ?_
    rcases hj with hj | hj
    · exact .inl hj
    · exact .inr (h'.sub j hj)
  · intro j
    exact ⟨(h'.same j).1.trans (h.same j).1, (h'.same j).2.trans (h.same j).2⟩
  · intro d hd
    rw [h'.others d hd, h.others d hd]

/-- One job leaves the core. -/
theorem one (hn : (S.core c).active.Nodup) {K' : Core n} {r : JobRec}
    (hp : (S.core c).active.Perm (j :: K'.active)) (hr : (S.job j).parentTask = r.parentTask ∧
      (S.job j).arrivalTime = r.arrivalTime ∧ r.state = .removed ∧ r.refcount = (S.job j).refcount) :
    Drops c S (((S.setJob j r).setCore c K').putJobRef (some c) j) := by
  obtain ⟨f, g, he⟩ := ((S.setJob j r).setCore c K').putJobRef_eq (some c) j
  obtain ⟨htask, harrival, hstate, hcount⟩ := hr
  have hcore : (((S.setJob j r).setCore c K').putJobRef (some c) j).core c = K' := by
    rw [he]
    exact Function.update_self ..
  have hother : ∀ d ≠ c, (((S.setJob j r).setCore c K').putJobRef (some c) j).core d = S.core d := by
    intro d hd
    rw [he]
    exact Function.update_of_ne hd ..
  have hself : (((S.setJob j r).setCore c K').putJobRef (some c) j).job j =
      { r with refcount := r.refcount - 1 } := by
    rw [he]
    show (S.job.set j r).set j _ j = _
    rw [Jobs.set_self]
    show { S.job.set j r j with refcount := (S.job.set j r j).refcount - 1 } = _
    rw [Jobs.set_self]
  have hne : ∀ i ≠ j, (((S.setJob j r).setCore c K').putJobRef (some c) j).job i = S.job i := by
    intro i hi
    rw [he]
    show (S.job.set j r).set j _ i = _
    rw [Jobs.set_ne _ _ hi, Jobs.set_ne _ _ hi]
  have hn' := hp.nodup_iff.1 hn
  obtain ⟨hj, hK'⟩ := List.nodup_cons.1 hn'
  refine ⟨?_, ?_, ?_, ?_, ?_, hother⟩
  · intro i hi
    rw [hcore] at hi
    exact hp.mem_iff.2 (List.mem_cons_of_mem _ hi)
  · rw [hcore]
    exact hK'
  · intro i hi hi'
    rw [hcore] at hi'
    rcases List.mem_cons.1 (hp.mem_iff.1 hi) with rfl | hi
    · rw [hself, ← hcount]
      exact ⟨hstate, rfl⟩
    · exact absurd hi hi'
  · intro i hi
    refine hne i ?_
    rintro rfl
    rw [hcore] at hi
    rcases hi with hi | hi
    · exact hi (hp.mem_iff.2 List.mem_cons_self)
    · exact hj hi
  · intro i
    by_cases hi : i = j
    · rw [hi, hself]
      exact ⟨htask.symm, harrival.symm⟩
    · rw [hne i hi]
      exact ⟨rfl, rfl⟩

end Drops

/-! ## The loops -/

theorem Core.queue_nodup {K : Core n} (hn : K.active.Nodup) (b : Bool) : (K.queue b).Nodup := by
  obtain ⟨hq, -, -⟩ := List.nodup_append'.1 hn
  obtain ⟨hready, hreplica, -⟩ := List.nodup_append'.1 hq
  cases b
  · exact hready
  · exact hreplica

theorem Core.active_erase {K : Core n} (hj : j ∈ K.queue b) :
    K.active.Perm (j :: (K.setQueue b ((K.queue b).erase j)).active) := by
  have hp := List.perm_cons_erase hj
  cases b
  · exact (hp.append_right _).append_right _
  · refine ((hp.append_left K.readyQueue).append_right K.runningJob.toList).trans ?_
    exact (List.perm_middle.append_right _)

theorem Sys.removeJob_core (S : Sys n) (c : Fin n) (b : Bool) (j : JobId n) :
    (S.removeJob c b j).core =
      Function.update S.core c ((S.core c).setQueue b (((S.core c).queue b).erase j)) := by
  obtain ⟨f, g, he⟩ := ((S.setJob j { (S.job j).unlink with state := .removed }).setCore c
    ((S.core c).setQueue b (((S.core c).queue b).erase j))).putJobRef_eq (some c) j
  unfold removeJob
  rw [he]
  rfl

theorem Sys.removeJob_drops (hn : (S.core c).active.Nodup) (hj : j ∈ (S.core c).queue b) :
    Drops c S (S.removeJob c b j) :=
  .one hn (Core.active_erase hj) ⟨rfl, rfl, rfl, rfl⟩

/-- The message is for the same jobs after some are gone. -/
theorem Drops.isFor (h : Drops c S S') (msg : CompletionMessage) (j : JobId n) :
    msg.isFor (S'.job j) ↔ msg.isFor (S.job j) := by
  unfold CompletionMessage.isFor
  rw [(h.same j).1, (h.same j).2]

/-- The loop over the queue `b`, from the jobs `l` on -/
theorem Sys.removeMatching_spec (msg : CompletionMessage) (b : Bool) {l : List (JobId n)} (hl : l.Nodup)
    (hn : (S.core c).active.Nodup) (hsub : ∀ j ∈ l, j ∈ (S.core c).queue b) :
    Drops c S (removeMatching c msg b l S) ∧
    ((removeMatching c msg b l S).core c).queue b =
      ((S.core c).queue b).filter (fun j => !(decide (j ∈ l) && decide (msg.isFor (S.job j)))) ∧
    (∀ a ≠ b, ((removeMatching c msg b l S).core c).queue a = (S.core c).queue a) ∧
    ((removeMatching c msg b l S).core c).runningJob = (S.core c).runningJob := by
  induction l generalizing S with
  | nil => exact ⟨.refl hn, by simp [removeMatching], fun _ _ => rfl, rfl⟩
  | cons j rest ih =>
    obtain ⟨hj, hrest⟩ := List.nodup_cons.1 hl
    rw [removeMatching]
    by_cases hm : msg.isFor (S.job j)
    · rw [if_pos hm]
      have hd := removeJob_drops hn (hsub j List.mem_cons_self)
      have hcore : (S.removeJob c b j).core c =
          (S.core c).setQueue b (((S.core c).queue b).erase j) := by
        rw [removeJob_core]
        exact Function.update_self ..
      have hqueue : ((S.removeJob c b j).core c).queue b = ((S.core c).queue b).erase j := by
        rw [hcore, Core.queue_setQueue, if_pos rfl]
      obtain ⟨h1, h2, h3, h4⟩ := ih hrest hd.nodup (by
        intro i hi
        rw [hqueue]
        refine (List.mem_erase_of_ne ?_).2 (hsub i (List.mem_cons_of_mem _ hi))
        rintro rfl
        exact hj hi)
      refine ⟨hd.trans h1, ?_, ?_, ?_⟩
      · rw [h2, hqueue, (Core.queue_nodup hn b).erase_eq_filter, List.filter_filter]
        refine List.filter_congr fun i _ => ?_
        simp only [hd.isFor, List.mem_cons]
        by_cases hi : i = j
        · subst hi
          simp [hm]
        · simp [hi]
      · intro a ha
        rw [h3 a ha, hcore, Core.queue_setQueue, if_neg ha]
      · rw [h4, hcore, Core.setQueue_runningJob]
    · rw [if_neg hm]
      obtain ⟨h1, h2, h3, h4⟩ := ih hrest hn fun i hi => hsub i (List.mem_cons_of_mem _ hi)
      refine ⟨h1, ?_, h3, h4⟩
      rw [h2]
      refine List.filter_congr fun i _ => ?_
      by_cases hi : i = j
      · subst hi
        simp [hm]
      · simp [hi]

/-- The loop over a whole queue -/
theorem Sys.removeMatching_queue (msg : CompletionMessage) (b : Bool) (hn : (S.core c).active.Nodup) :
    Drops c S (removeMatching c msg b ((S.core c).queue b) S) ∧
    ((removeMatching c msg b ((S.core c).queue b) S).core c).queue b =
      ((S.core c).queue b).filter (fun j => !decide (msg.isFor (S.job j))) ∧
    (∀ a ≠ b, ((removeMatching c msg b ((S.core c).queue b) S).core c).queue a =
      (S.core c).queue a) ∧
    ((removeMatching c msg b ((S.core c).queue b) S).core c).runningJob = (S.core c).runningJob := by
  obtain ⟨h1, h2, h3, h4⟩ := removeMatching_spec msg b (Core.queue_nodup hn b) hn fun j hj => hj
  refine ⟨h1, ?_, h3, h4⟩
  rw [h2]
  refine List.filter_congr fun i hi => ?_
  simp [hi]

/-- The running job goes when the message is for its task. -/
theorem Sys.removeRunning_spec (msg : CompletionMessage) (hn : (S.core c).active.Nodup) :
    Drops c S (removeRunning c msg S) ∧
    (∀ b, ((removeRunning c msg S).core c).queue b = (S.core c).queue b) ∧
    ((removeRunning c msg S).core c).runningJob = (S.core c).runningJob.filter
      fun j => !decide ((S.job j).parentTask.id = msg.completedTaskId) := by
  unfold removeRunning
  cases hr : (S.core c).runningJob with
  | none => exact ⟨.refl hn, fun _ => rfl, hr⟩
  | some j =>
    simp only
    split_ifs with hm
    · have hp : (S.core c).active.Perm
          (j :: { S.core c with runningJob := none, isIdle := true }.active) := by
        simp only [Core.active, hr]
        refine (List.perm_append_singleton j _).trans ?_
        simp
      obtain ⟨f, g, he⟩ := ((S.setJob j { S.job j with state := .removed }).setCore c
        { S.core c with runningJob := none, isIdle := true }).putJobRef_eq (some c) j
      refine ⟨.one hn hp ⟨rfl, rfl, rfl, rfl⟩, ?_, ?_⟩
      · intro b
        rw [he]
        show (Function.update S.core c _ c).queue b = _
        rw [Function.update_self]
        cases b <;> rfl
      · rw [he]
        show (Function.update S.core c _ c).runningJob = _
        rw [Function.update_self, Option.filter_some, if_neg (by simp [hm])]
    · refine ⟨.refl hn, fun _ => rfl, ?_⟩
      rw [hr, Option.filter_some, if_pos (by simp [hm])]

/-- One message takes the queued jobs it is for, and the running job of its
    task. -/
theorem Sys.removeFor_spec (msg : CompletionMessage) (hn : (S.core c).active.Nodup) :
    Drops c S (removeFor c S msg) ∧
    (∀ b, ((removeFor c S msg).core c).queue b =
      ((S.core c).queue b).filter fun j => !decide (msg.isFor (S.job j))) ∧
    ((removeFor c S msg).core c).runningJob = (S.core c).runningJob.filter
      fun j => !decide ((S.job j).parentTask.id = msg.completedTaskId) := by
  obtain ⟨h1, hq1, ho1, hr1⟩ := removeMatching_queue msg true hn
  obtain ⟨h2, hq2, ho2, hr2⟩ := removeMatching_queue msg false h1.nodup
  obtain ⟨h3, hq3, hr3⟩ := removeRunning_spec msg h2.nodup
  refine ⟨(h1.trans h2).trans h3, ?_, ?_⟩
  · rintro (_ | _)
    · show ((removeRunning c msg _).core c).queue false = _
      rw [hq3, hq2, ho1 false nofun]
      refine List.filter_congr fun j _ => ?_
      simp only [h1.isFor]
    · show ((removeRunning c msg _).core c).queue true = _
      rw [hq3, ho2 true nofun, hq1]
  · show ((removeRunning c msg _).core c).runningJob = _
    rw [hr3, hr2, hr1]
    congr 1
    funext j
    rw [(h2.same j).1, (h1.same j).1]

/-! ## All messages -/

/-- A message is for the job. -/
def Completed (msgs : List CompletionMessage) (r : JobRec) : Prop := ∃ msg ∈ msgs, msg.isFor r

/-- A message names the task of the job. -/
def NamesTask (msgs : List CompletionMessage) (r : JobRec) : Prop :=
  ∃ msg ∈ msgs, r.parentTask.id = msg.completedTaskId

instance (msgs : List CompletionMessage) (r : JobRec) : Decidable (Completed msgs r) :=
  inferInstanceAs (Decidable (∃ msg ∈ msgs, msg.isFor r))

instance (msgs : List CompletionMessage) (r : JobRec) : Decidable (NamesTask msgs r) :=
  inferInstanceAs (Decidable (∃ msg ∈ msgs, _))

theorem Drops.completed (h : Drops c S S') (msgs : List CompletionMessage) (j : JobId n) :
    Completed msgs (S'.job j) ↔ Completed msgs (S.job j) := by
  unfold Completed
  simp only [h.isFor]

theorem Drops.namesTask (h : Drops c S S') (msgs : List CompletionMessage) (j : JobId n) :
    NamesTask msgs (S'.job j) ↔ NamesTask msgs (S.job j) := by
  unfold NamesTask
  rw [(h.same j).1]

/-- **What the messages take** -/
theorem Sys.removeCompletedJobs_spec (msgs : List CompletionMessage) (hn : (S.core c).active.Nodup) :
    Drops c S (S.removeCompletedJobs c msgs) ∧
    (∀ b, ((S.removeCompletedJobs c msgs).core c).queue b =
      ((S.core c).queue b).filter fun j => !decide (Completed msgs (S.job j))) ∧
    ((S.removeCompletedJobs c msgs).core c).runningJob = (S.core c).runningJob.filter
      fun j => !decide (NamesTask msgs (S.job j)) := by
  induction msgs generalizing S with
  | nil =>
    refine ⟨.refl hn, fun b => ?_, ?_⟩
    · simp [removeCompletedJobs, Completed]
    · show (S.core c).runningJob = _
      cases (S.core c).runningJob with
      | none => rfl
      | some j =>
        rw [Option.filter_some, if_pos]
        simp [NamesTask]
  | cons msg msgs ih =>
    obtain ⟨h1, hq1, hr1⟩ := removeFor_spec msg hn
    obtain ⟨h2, hq2, hr2⟩ := ih h1.nodup
    refine ⟨h1.trans h2, fun b => ?_, ?_⟩
    · show (((removeFor c S msg).removeCompletedJobs c msgs).core c).queue b = _
      rw [hq2, hq1, List.filter_filter]
      refine List.filter_congr fun j _ => ?_
      have hcons : Completed (msg :: msgs) (S.job j) ↔
          msg.isFor (S.job j) ∨ Completed msgs (S.job j) := List.exists_mem_cons_iff ..
      simp only [h1.completed, hcons, Bool.decide_or, Bool.not_or]
      exact Bool.and_comm _ _
    · show (((removeFor c S msg).removeCompletedJobs c msgs).core c).runningJob = _
      rw [hr2, hr1]
      cases (S.core c).runningJob with
      | none => rfl
      | some j =>
        have hcons : NamesTask (msg :: msgs) (S.job j) ↔
            (S.job j).parentTask.id = msg.completedTaskId ∨ NamesTask msgs (S.job j) :=
          List.exists_mem_cons_iff ..
        by_cases hm : (S.job j).parentTask.id = msg.completedTaskId
        · simp [Option.filter_some, hcons, hm]
        · simp [Option.filter_some, hcons, hm, h1.namesTask]

/-- Exactly the jobs that a message is for are taken from the queues and the
    running slot, each with its reference; the others keep their order and their
    records, and the other cores their jobs. -/
structure CancelExact (c : Fin n) (msgs : List CompletionMessage) (S S' : Sys n) : Prop where
  queue : ∀ b, (S'.core c).queue b =
    ((S.core c).queue b).filter fun j => !decide (Completed msgs (S.job j))
  running : (S'.core c).runningJob =
    (S.core c).runningJob.filter fun j => !decide (Completed msgs (S.job j))
  gone : ∀ j ∈ (S.core c).active, Completed msgs (S.job j) →
    (S'.job j).state = .removed ∧ (S'.job j).refcount = (S.job j).refcount - 1
  kept : ∀ j, j ∉ (S.core c).active ∨ ¬ Completed msgs (S.job j) → S'.job j = S.job j
  others : ∀ d ≠ c, S'.core d = S.core d

theorem Core.mem_active {K : Core n} :
    j ∈ K.active ↔ (∃ b, j ∈ K.queue b) ∨ K.runningJob = some j := by
  have hb : (∃ b, j ∈ K.queue b) ↔ j ∈ K.readyQueue ∨ j ∈ K.replicaQueue := by
    constructor
    · rintro ⟨_ | _, h⟩
      · exact .inl h
      · exact .inr h
    · rintro (h | h)
      · exact ⟨false, h⟩
      · exact ⟨true, h⟩
  rw [hb, Core.active, List.mem_append, List.mem_append, Option.mem_toList]

/-- Core 0 runs the second instance of task 1, which arrived at 20. -/
def Sys.laterInstance : Sys 1 :=
  { Sys.init 1 with
    core := fun _ => { Core.init 1 with runningJob := some JobId.first, isIdle := false }
    job := fun _ =>
      { JobRec.blank with
        parentTask := ⟨1, 20, 20, fun _ => 5, 0⟩, arrivalTime := 20, state := .running, refcount := 1 } }

/-- A core of a run has each of its jobs in one place. -/
theorem Reachable.active_nodup (h : Reachable cfg S) (c : Fin n) : (S.core c).active.Nodup := by
  have hplaced := Core.placed_nodup (h.inv.core_nodup c)
  rw [← Multiset.coe_nodup]
  refine Multiset.nodup_of_le ?_ hplaced
  have heq : (S.core c).placed = ↑(S.core c).active +
      (↑(S.core c).discardList + ↑(S.core c).pendingJobsQueue) := by
    simp only [Core.placed, Core.lists, Core.active, ← Multiset.coe_add]
    abel
  rw [heq]
  exact Multiset.le_add_right _ _

/-! ## The steps of the core -/

namespace Sys

theorem goto_self {q : Pc n} (h : (S.core c).pc = q) : S.goto c q = S := by
  have hK : (S.core c).goto q = S.core c := by rw [← h]; rfl
  unfold goto setCore
  rw [hK, Function.update_eq_self]

@[simp] theorem goto_goto (S : Sys n) (c : Fin n) (q q' : Pc n) : (S.goto c q).goto c q' = S.goto c q' := by
  unfold goto setCore
  simp only [Function.update_self, Function.update_idem]
  rfl

@[simp] theorem goto_core (S : Sys n) (c : Fin n) (q : Pc n) : (S.goto c q).core c = (S.core c).goto q :=
  Function.update_self ..

theorem putJobRef_goto (S : Sys n) (me : Option (Fin n)) (j : JobId n) (q : Pc n) :
    (S.goto c q).putJobRef me j = (S.putJobRef me j).goto c q := by
  unfold putJobRef releaseJobToPool
  show (if (S.job j).refcount = 1 then _ else _) = _
  simp only
  split_ifs <;> rfl

theorem removeJob_goto (S : Sys n) (c : Fin n) (b : Bool) (j : JobId n) (q : Pc n) :
    (S.goto c q).removeJob c b j = (S.removeJob c b j).goto c q := by
  unfold removeJob
  rw [← putJobRef_goto]
  congr 1
  unfold goto setCore setJob
  simp only [Function.update_self, Function.update_idem]
  cases b <;> rfl

theorem removeMatching_goto (msg : CompletionMessage) (b : Bool) (l : List (JobId n)) (q : Pc n) :
    removeMatching c msg b l (S.goto c q) = (removeMatching c msg b l S).goto c q := by
  induction l generalizing S with
  | nil => rfl
  | cons j rest ih =>
    rw [removeMatching, removeMatching, removeJob_goto]
    show removeMatching c msg b rest (if msg.isFor (S.job j) then _ else _) = _
    split_ifs
    · exact ih
    · exact ih

theorem removeRunning_goto (msg : CompletionMessage) (q : Pc n) :
    removeRunning c msg (S.goto c q) = (removeRunning c msg S).goto c q := by
  unfold removeRunning
  rw [goto_core]
  show (match (S.core c).runningJob with | none => _ | some j => _) = _
  cases (S.core c).runningJob with
  | none => rfl
  | some j =>
    show (if (S.job j).parentTask.id = msg.completedTaskId then _ else _) = _
    simp only
    split_ifs
    · rw [← putJobRef_goto]
      congr 1
      unfold goto setCore setJob
      simp only [Function.update_self, Function.update_idem]
      rfl
    · rfl

theorem removeFor_goto (msg : CompletionMessage) (q : Pc n) :
    removeFor c (S.goto c q) msg = (removeFor c S msg).goto c q := by
  have hqueue : ∀ (T : Sys n) (a : Bool), ((T.goto c q).core c).queue a = (T.core c).queue a := by
    intro T a
    rw [goto_core]
    cases a <;> rfl
  unfold removeFor
  simp only [hqueue, removeMatching_goto, removeRunning_goto]

theorem removeCompletedJobs_goto (msgs : List CompletionMessage) (q : Pc n) :
    (S.goto c q).removeCompletedJobs c msgs = (S.removeCompletedJobs c msgs).goto c q := by
  induction msgs generalizing S with
  | nil => rfl
  | cons msg msgs ih =>
    show (removeFor c (S.goto c q) msg).removeCompletedJobs c msgs = _
    rw [removeFor_goto]
    exact ih

/-- A step of the core alone, inside the section -/
theorem step_cancel {K' : Core n} {J' : Jobs n} (hw : (S.core c).pc.wants c = none)
    (h : CancelStep (S.core c) S.job K' J') :
    Step cfg S (.core c) { S.setCore c K' with job := J' } := by
  refine .core (fun l hl => ?_) (.own (.cancel h) rfl)
  rw [hw] at hl
  cases hl

/-- The core takes a job in its hands, and drops the reference. -/
theorem exec_put (hw : (S.core c).pc.wants c = none) {K₁ K₂ : Core n} {J₁ : Jobs n}
    (h : CancelStep (S.core c) S.job K₁ J₁) (hw₁ : K₁.pc.wants c = none) (hput : PutStep K₁ j K₂) :
    ∃ tr, Exec (Step cfg) S tr (({ S with job := J₁ }.setCore c K₂).putJobRef (some c) j) := by
  have h₁ := @step_cancel n cfg S c _ _ hw h
  have hcore : ({ S.setCore c K₁ with job := J₁ } : Sys n).core c = K₁ := Function.update_self ..
  have h₂ : Step cfg { S.setCore c K₁ with job := J₁ } (.core c)
      (({ S.setCore c K₁ with job := J₁ }.setCore c K₂).putJobRef (some c) j) := by
    refine .core (fun l hl => ?_) (.arrive (.put (by rw [hcore]; exact hput)))
    rw [hcore, hw₁] at hl
    cases hl
  have hset : ({ S.setCore c K₁ with job := J₁ } : Sys n).setCore c K₂ =
      { S with job := J₁ }.setCore c K₂ := by
    unfold setCore
    simp only [Function.update_idem]
  rw [hset] at h₂
  exact ⟨_, (Exec.nil.snoc h₁).snoc h₂⟩

/-- A job is taken out of a queue, and then its reference is dropped. -/
theorem removeJob_exec (cfg : Config) {done rest : List (JobId n)}
    (hp : (S.core c).pc = .cancelQueue msg msgs b done.length)
    (hq : (S.core c).queue b = done ++ j :: rest) (hn : (S.core c).active.Nodup)
    (hm : msg.isFor (S.job j)) :
    (∃ tr, Exec (Step cfg) S tr (S.removeJob c b j)) ∧
    ((S.removeJob c b j).core c).pc = .cancelQueue msg msgs b done.length ∧
    ((S.removeJob c b j).core c).queue b = done ++ rest := by
  have hw : (S.core c).pc.wants c = none := by rw [hp]; rfl
  have hget : ((S.core c).queue b)[done.length]? = some j := by
    rw [hq]
    simp
  have hj : j ∉ done := by
    have hnq := Core.queue_nodup hn b
    rw [hq] at hnq
    exact fun h => (List.nodup_append'.1 hnq).2.2 h List.mem_cons_self
  have herase : ((S.core c).queue b).eraseIdx done.length = done ++ rest := by
    rw [hq, List.eraseIdx_append_of_length_le le_rfl, Nat.sub_self]
    rfl
  have herase' : ((S.core c).queue b).erase j = done ++ rest := by
    rw [hq, List.erase_append_right _ hj, List.erase_cons_head]
  have hcore : (S.removeJob c b j).core c = (S.core c).setQueue b (done ++ rest) := by
    rw [removeJob_core, herase']
    exact Function.update_self ..
  refine ⟨?_, ?_, ?_⟩
  · have hK : (((S.core c).setQueue b (((S.core c).queue b).eraseIdx done.length)).goto
        (.cancelPut j msg msgs b done.length)).goto (.cancelQueue msg msgs b done.length) =
        (S.core c).setQueue b (((S.core c).queue b).erase j) := by
      rw [herase, herase', ← hp]
      cases b <;> rfl
    obtain ⟨tr, he⟩ := exec_put hw (.remove hp hget hm) rfl (.cancelPut rfl)
    rw [hK] at he
    exact ⟨tr, he⟩
  · rw [hcore]
    cases b <;> exact hp
  · rw [hcore, Core.queue_setQueue, if_pos rfl]

/-- **The loop over a queue is a run of the core.** -/
theorem removeMatching_exec (cfg : Config) (msg : CompletionMessage) (msgs : List CompletionMessage)
    (b : Bool) (rest : List (JobId n)) : ∀ (S : Sys n) (done : List (JobId n)),
    (S.core c).pc = .cancelQueue msg msgs b done.length → (S.core c).queue b = done ++ rest →
    (S.core c).active.Nodup → ∃ tr k, Exec (Step cfg) S tr
      ((removeMatching c msg b rest S).goto c (.cancelQueue msg msgs b k)) ∧
      (((removeMatching c msg b rest S).core c).queue b)[k]? = none := by
  induction rest with
  | nil =>
    intro S done hp hq _
    refine ⟨[], done.length, ?_, ?_⟩
    · rw [removeMatching, goto_self hp]
      exact .nil
    · rw [removeMatching, hq]
      simp
  | cons j rest ih =>
    intro S done hp hq hn
    have hget : ((S.core c).queue b)[done.length]? = some j := by
      rw [hq]
      simp
    have hw : (S.core c).pc.wants c = none := by rw [hp]; rfl
    rw [removeMatching]
    by_cases hm : msg.isFor (S.job j)
    · rw [if_pos hm]
      obtain ⟨⟨tr, he⟩, hp', hq'⟩ := removeJob_exec cfg hp hq hn hm
      have hmem : j ∈ (S.core c).queue b := List.mem_of_getElem? hget
      obtain ⟨tr', k, he', hk⟩ := ih (S.removeJob c b j) done hp' hq' (removeJob_drops hn hmem).nodup
      exact ⟨_, k, he.append he', hk⟩
    · rw [if_neg hm]
      have hstep : Step cfg S (.core c) (S.goto c (.cancelQueue msg msgs b (done.length + 1))) :=
        step_cancel hw (.keep hp hget hm)
      obtain ⟨tr, k, he, hk⟩ := ih (S.goto c (.cancelQueue msg msgs b (done.length + 1))) (done ++ [j])
        (by rw [goto_core]; simp) (by rw [goto_core, List.append_assoc]; exact hq)
        (by rw [goto_core]; exact hn)
      rw [removeMatching_goto, goto_goto] at he
      rw [removeMatching_goto, goto_core] at hk
      exact ⟨_, k, (Exec.nil.snoc hstep).append he, hk⟩

theorem removeRunning_exec (cfg : Config) {k : ℕ} (hp : (S.core c).pc = .cancelQueue msg msgs false k)
    (hk : ((S.core c).queue false)[k]? = none) :
    ∃ tr, Exec (Step cfg) S tr ((removeRunning c msg S).goto c (.cancel msgs)) := by
  have hw : (S.core c).pc.wants c = none := by rw [hp]; rfl
  unfold removeRunning
  cases hr : (S.core c).runningJob with
  | none =>
    exact ⟨_, Exec.nil.snoc (step_cancel hw (.unlock hp hk fun j hj => by rw [hr] at hj; cases hj))⟩
  | some j =>
    simp only
    split_ifs with hm
    · obtain ⟨tr, he⟩ := @exec_put n cfg S c j hw _ _ _ (.running hp hk hr hm) rfl (.cancelRunPut rfl)
      refine ⟨tr, ?_⟩
      rw [← putJobRef_goto]
      convert he using 2
      unfold goto setCore setJob
      simp only [Function.update_self, Function.update_idem]
      rfl
    · refine ⟨_, Exec.nil.snoc (step_cancel hw (.unlock hp hk fun i hi => ?_))⟩
      rw [hr] at hi
      cases hi
      exact hm

/-- One message, the lock being free when it is taken -/
theorem removeFor_exec (cfg : Config) (hl : S.LockFree c c) (hp : (S.core c).pc = .cancel (msg :: msgs))
    (hn : (S.core c).active.Nodup) :
    ∃ tr, Exec (Step cfg) S tr ((removeFor c S msg).goto c (.cancel msgs)) := by
  have hlock : Step cfg S (.core c) (S.goto c (.cancelQueue msg msgs true 0)) := by
    refine .core (fun l hw => ?_) (.own (.cancel (.lock hp)) rfl)
    rw [hp] at hw
    cases hw
    exact hl
  obtain ⟨h₁, -, -, -⟩ := removeMatching_queue msg true hn
  obtain ⟨S₁, hS₁⟩ : ∃ S₁, removeMatching c msg true ((S.core c).queue true) S = S₁ := ⟨_, rfl⟩
  obtain ⟨tr₁, k₁, he₁, hk₁⟩ := removeMatching_exec cfg msg msgs true ((S.core c).queue true)
    (S.goto c (.cancelQueue msg msgs true 0)) [] (by rw [goto_core]; rfl) (by rw [goto_core]; rfl)
    (by rw [goto_core]; exact hn)
  rw [removeMatching_goto, goto_goto, hS₁] at he₁
  rw [removeMatching_goto, goto_core, hS₁] at hk₁
  rw [hS₁] at h₁
  have hnext : Step cfg (S₁.goto c (.cancelQueue msg msgs true k₁)) (.core c)
      (S₁.goto c (.cancelQueue msg msgs false 0)) := by
    have h := @step_cancel n cfg (S₁.goto c (.cancelQueue msg msgs true k₁)) c _ _
      (by rw [goto_core]; rfl) (.nextQueue (by rw [goto_core]; rfl) (by rw [goto_core]; exact hk₁))
    rw [goto_core] at h
    have hset : S₁.goto c (.cancelQueue msg msgs false 0) =
        (S₁.goto c (.cancelQueue msg msgs true k₁)).goto c (.cancelQueue msg msgs false 0) := by
      rw [goto_goto]
    rw [hset]
    unfold goto
    simp only [setCore, Function.update_self]
    exact h
  obtain ⟨S₂, hS₂⟩ : ∃ S₂, removeMatching c msg false ((S₁.core c).queue false) S₁ = S₂ := ⟨_, rfl⟩
  obtain ⟨tr₂, k₂, he₂, hk₂⟩ := removeMatching_exec cfg msg msgs false ((S₁.core c).queue false)
    (S₁.goto c (.cancelQueue msg msgs false 0)) [] (by rw [goto_core]; rfl) (by rw [goto_core]; rfl)
    (by rw [goto_core]; exact h₁.nodup)
  rw [removeMatching_goto, goto_goto, hS₂] at he₂
  rw [removeMatching_goto, goto_core, hS₂] at hk₂
  obtain ⟨tr₃, he₃⟩ := @removeRunning_exec n (S₂.goto c (.cancelQueue msg msgs false k₂)) c msg msgs cfg
    k₂ (by rw [goto_core]; rfl) (by rw [goto_core]; exact hk₂)
  rw [removeRunning_goto, goto_goto] at he₃
  have hfor : removeFor c S msg = removeRunning c msg S₂ := by
    unfold removeFor
    simp only [hS₁, hS₂]
  rw [hfor]
  exact ⟨_, (((Exec.nil.snoc hlock).append he₁).snoc hnext).append (he₂.append he₃)⟩

/-- **The function is a run of the core**, when no other core moves. -/
theorem removeCompletedJobs_exec (cfg : Config) (hl : S.LockFree c c)
    (hp : (S.core c).pc = .cancel msgs) (hn : (S.core c).active.Nodup) :
    ∃ tr, Exec (Step cfg) S tr ((S.removeCompletedJobs c msgs).goto c .sync) := by
  induction msgs generalizing S with
  | nil => exact ⟨_, Exec.nil.snoc (step_cancel (by rw [hp]; rfl) (.done hp))⟩
  | cons msg msgs ih =>
    obtain ⟨tr, he⟩ := removeFor_exec cfg hl hp hn
    obtain ⟨hd, -, -⟩ := removeFor_spec msg hn
    have hcore : ∀ e, e ≠ c → ((removeFor c S msg).goto c (.cancel msgs)).core e = S.core e := by
      intro e he
      rw [← hd.others e he]
      exact Function.update_of_ne he ..
    obtain ⟨tr', he'⟩ := ih (by intro e hne; rw [hcore e hne]; exact hl e hne)
      (by rw [goto_core]; rfl) (by rw [goto_core]; exact hd.nodup)
    have hend : (((removeFor c S msg).goto c (.cancel msgs)).removeCompletedJobs c msgs).goto c .sync =
        (S.removeCompletedJobs c (msg :: msgs)).goto c .sync := by
      rw [removeCompletedJobs_goto, goto_goto]
      rfl
    rw [hend] at he'
    exact ⟨tr ++ tr', he.append he'⟩

end Sys

end EeftSched

/-
  When the next job arrives on a core (`find_next_effective_arrival_time` in
  `sched_util.c`).

  * `nextRelease_isLeast`: one pass over `delegated_job_queue`, which is in the
    order of the ticks, finds the first release that is not delegated;
  * `findNextEffectiveArrivalTime_spec`: the result is the least arrival time
    after now, of the pending jobs and of the releases that are not delegated,
    and `UINT32_MAX` if there is none.
-/
import EeftSched.Processor
import Mathlib.Order.Bounds.Basic

namespace EeftSched

open SortedQueue

variable {n : ℕ} {X : Ctx n} {K : Core n} {J : Jobs n} {t : ℕ}

/-- The release of a task at `tick` is delegated to another core. -/
def Delegated (queue : List DelegatedJob) (taskId tick : ℕ) : Prop :=
  ∃ dj ∈ queue, dj.arrivalTick = tick ∧ dj.taskId = taskId ∧ dj.ownedByRemote = true

/-- The releases of a task from `a` on that are not delegated. -/
def effectiveReleases (task : Task) (queue : List DelegatedJob) (a : ℕ) : Set ℕ :=
  { x | ∃ k, x = a + k * task.period ∧ ¬Delegated queue task.id x }

/-! ## One task -/

section
variable {task : Task} {queue : List DelegatedJob} {dj : DelegatedJob} {a x : ℕ}

theorem delegated_cons {taskId tick : ℕ} :
    Delegated (dj :: queue) taskId tick ↔
      (dj.arrivalTick = tick ∧ dj.taskId = taskId ∧ dj.ownedByRemote = true) ∨
        Delegated queue taskId tick := by
  simp [Delegated]

theorem le_of_mem_effectiveReleases (h : x ∈ effectiveReleases task queue a) : a ≤ x := by
  obtain ⟨k, rfl, -⟩ := h
  exact Nat.le_add_right _ _

/-- A delegated release is passed over. -/
theorem effectiveReleases_skip (hp : 0 < task.period)
    (hdj : dj.arrivalTick = a ∧ dj.taskId = task.id ∧ dj.ownedByRemote = true) :
    effectiveReleases task (dj :: queue) a = effectiveReleases task queue (a + task.period) := by
  ext x
  simp only [effectiveReleases, Set.mem_ofPred_eq, delegated_cons, not_or]
  constructor
  · rintro ⟨k, rfl, hne, hfree⟩
    cases k with
    | zero => exact absurd ⟨by simpa using hdj.1, hdj.2⟩ hne
    | succ k => exact ⟨k, by rw [Nat.succ_mul]; omega, hfree⟩
  · rintro ⟨k, rfl, hfree⟩
    refine ⟨k + 1, by rw [Nat.succ_mul]; omega, ?_, hfree⟩
    rintro ⟨h, -⟩
    have := Nat.zero_le (k * task.period)
    omega

/-- A record of another task or before `a`, or one that no other core owns, is
    of no concern. -/
theorem effectiveReleases_other
    (hdj : dj.arrivalTick < a ∨ ¬(dj.taskId = task.id ∧ dj.ownedByRemote = true)) :
    effectiveReleases task (dj :: queue) a = effectiveReleases task queue a := by
  ext x
  simp only [effectiveReleases, Set.mem_ofPred_eq, delegated_cons, not_or]
  refine exists_congr fun k => and_congr_right fun hx => and_iff_right ?_
  rintro ⟨htick, hrest⟩
  rcases hdj with hlt | hno
  · have := Nat.zero_le (k * task.period)
    omega
  · exact hno hrest

/-- Before all records, the release is not delegated. -/
theorem isLeast_of_before (h : ∀ dj ∈ queue, a < dj.arrivalTick) :
    IsLeast (effectiveReleases task queue a) a := by
  refine ⟨⟨0, by simp, ?_⟩, fun x hx => le_of_mem_effectiveReleases hx⟩
  rintro ⟨dj, hmem, htick, -⟩
  exact (h dj hmem).ne' htick

/-- **One pass finds the first release that is not delegated**, thanks to the
    order of the records. -/
theorem nextRelease_isLeast (hp : 0 < task.period) (hs : SortedBy (·.arrivalTick) queue) (a : ℕ) :
    IsLeast (effectiveReleases task queue a) (nextRelease task queue a) := by
  induction queue generalizing a with
  | nil => exact isLeast_of_before fun dj h => absurd h List.not_mem_nil
  | cons dj queue ih =>
    obtain ⟨hle, hs⟩ := List.pairwise_cons.1 hs
    have hstep : nextRelease task (dj :: queue) a = nextRelease task queue
        (if dj.arrivalTick = a ∧ dj.taskId = task.id ∧ dj.ownedByRemote = true then a + task.period
          else a) := rfl
    rw [hstep]
    split_ifs with hdj
    · rw [effectiveReleases_skip hp hdj]
      exact ih hs _
    · by_cases hother : dj.arrivalTick < a ∨ ¬(dj.taskId = task.id ∧ dj.ownedByRemote = true)
      · rw [effectiveReleases_other hother]
        exact ih hs _
      · -- this record and, by the order, all later ones are behind `a`
        rw [not_or, not_not, not_lt] at hother
        have hgt : a < dj.arrivalTick :=
          lt_of_le_of_ne hother.1 fun heq => hdj ⟨heq.symm, hother.2⟩
        have hrest : ∀ d ∈ queue, a < d.arrivalTick := fun d hd => hgt.trans_le (hle d hd)
        rw [(ih hs a).unique (isLeast_of_before hrest)]
        refine isLeast_of_before fun d hd => ?_
        rcases List.mem_cons.1 hd with rfl | hd
        · exact hgt
        · exact hrest d hd

/-- The multiples of the period after now -/
theorem mem_effectiveReleases_next {now : ℕ} (hp : 0 < task.period) :
    x ∈ effectiveReleases task queue (now + (task.period - now % task.period)) ↔
      now < x ∧ task.period ∣ x ∧ ¬Delegated queue task.id x := by
  have hmod := Nat.mod_lt now hp
  have hnext : now + (task.period - now % task.period) = (now / task.period + 1) * task.period := by
    have := Nat.div_add_mod now task.period
    rw [Nat.succ_mul, Nat.mul_comm]
    omega
  rw [hnext]
  constructor
  · rintro ⟨k, rfl, hfree⟩
    rw [← Nat.add_mul] at hfree ⊢
    refine ⟨?_, Nat.dvd_mul_left _ _, hfree⟩
    rw [← Nat.div_lt_iff_lt_mul hp]
    omega
  · rintro ⟨hlt, ⟨k, rfl⟩, hfree⟩
    rw [Nat.mul_comm, ← Nat.div_lt_iff_lt_mul hp] at hlt
    obtain ⟨i, rfl⟩ : ∃ i, k = now / task.period + 1 + i := ⟨k - (now / task.period + 1), by omega⟩
    exact ⟨i, by ring, hfree⟩

end

/-! ## The core -/

/-- `t` is the next release of an allocated task that is not delegated. -/
def NextRelease (X : Ctx n) (K : Core n) (m : TaskAlloc) (t : ℕ) : Prop :=
  ∃ task, X.cfg.findTaskById m.taskId = some task ∧ 0 < task.period ∧
    K.localCriticalityLevel ≤ task.critLevel ∧
    IsLeast { x | X.systemTime < x ∧ task.period ∣ x ∧ ¬Delegated K.delegatedJobQueue task.id x } t

/-- A job arrives at `t`: a pending one, or one that is released. -/
def EffectiveArrival (X : Ctx n) (K : Core n) (J : Jobs n) (t : ℕ) : Prop :=
  (∃ j ∈ K.pendingJobsQueue, (J j).arrivalTime = t ∧ X.systemTime < t) ∨
  ∃ m ∈ X.entries, NextRelease X K m t

/-- A loop that keeps the least of a start value and of what its elements
    offer -/
theorem foldl_least {α : Type} {f : ℕ → α → ℕ} {P : α → ℕ → Prop}
    (hval : ∀ m x, f m x = m ∨ P x (f m x)) (hle : ∀ m x, f m x ≤ m)
    (hmin : ∀ m x y, P x y → f m x ≤ y) (l : List α) (m : ℕ) :
    (l.foldl f m = m ∨ ∃ x ∈ l, P x (l.foldl f m)) ∧ l.foldl f m ≤ m ∧
      ∀ x ∈ l, ∀ y, P x y → l.foldl f m ≤ y := by
  induction l generalizing m with
  | nil => exact ⟨.inl rfl, le_rfl, fun x hx => absurd hx List.not_mem_nil⟩
  | cons x l ih =>
    obtain ⟨hv, hl, hm⟩ := ih (f m x)
    rw [List.foldl_cons]
    refine ⟨?_, hl.trans (hle m x), fun y hy z hz => ?_⟩
    · rcases hv with hv | ⟨y, hy, hp⟩
      · rw [hv]
        rcases hval m x with h | h
        · exact .inl h
        · exact .inr ⟨x, List.mem_cons_self, h⟩
      · exact .inr ⟨y, List.mem_cons_of_mem _ hy, hp⟩
    · rcases List.mem_cons.1 hy with rfl | hy
      · exact hl.trans (hmin m y z hz)
      · exact hm y hy z hz

/-- What one allocation entry does to the least arrival time found so far -/
def leastOfEntry (X : Ctx n) (K : Core n) (min : ℕ) (m : TaskAlloc) : ℕ :=
  match X.cfg.findTaskById m.taskId with
  | none => min
  | some task =>
    if task.period = 0 ∨ task.critLevel < K.localCriticalityLevel then min
    else
      let next := nextRelease task K.delegatedJobQueue
        (X.systemTime + (task.period - X.systemTime % task.period))
      if next < min then next else min

theorem leastOfEntry_spec (hs : SortedBy (·.arrivalTick) K.delegatedJobQueue) (min : ℕ) (m : TaskAlloc) :
    (leastOfEntry X K min m = min ∨ NextRelease X K m (leastOfEntry X K min m)) ∧
      leastOfEntry X K min m ≤ min ∧ ∀ y, NextRelease X K m y → leastOfEntry X K min m ≤ y := by
  unfold leastOfEntry
  cases ht : X.cfg.findTaskById m.taskId with
  | none => exact ⟨.inl rfl, le_rfl, fun y ⟨task, h, _⟩ => by simp [ht] at h⟩
  | some task =>
    simp only
    split_ifs with hskip hlt
    · refine ⟨.inl rfl, le_rfl, fun y ⟨task', h, hp, hc, _⟩ => ?_⟩
      obtain rfl : task = task' := Option.some.inj (ht.symm.trans h)
      omega
    all_goals
      have hp : 0 < task.period := by omega
      have hleast := nextRelease_isLeast hp hs
        (X.systemTime + (task.period - X.systemTime % task.period))
      have hset : effectiveReleases task K.delegatedJobQueue
          (X.systemTime + (task.period - X.systemTime % task.period)) =
          { x | X.systemTime < x ∧ task.period ∣ x ∧ ¬Delegated K.delegatedJobQueue task.id x } :=
        Set.ext fun x => mem_effectiveReleases_next hp
      rw [hset] at hleast
      have hmin : ∀ y, NextRelease X K m y → nextRelease task K.delegatedJobQueue
          (X.systemTime + (task.period - X.systemTime % task.period)) = y := by
        rintro y ⟨task', h, -, -, hy⟩
        obtain rfl : task = task' := Option.some.inj (ht.symm.trans h)
        exact hleast.unique hy
    · exact ⟨.inr ⟨task, ht, hp, by omega, hleast⟩, hlt.le, fun y hy => (hmin y hy).le⟩
    · exact ⟨.inl rfl, le_rfl, fun y hy => by rw [← hmin y hy]; exact not_lt.1 hlt⟩

/-- The result is `UINT32_MAX` or an arrival time, and no arrival is earlier. -/
theorem findNextEffectiveArrivalTime_bounds (hs : SortedBy (·.arrivalTick) K.delegatedJobQueue) :
    findNextEffectiveArrivalTime X K J ≤ uint32Max ∧
    (findNextEffectiveArrivalTime X K J = uint32Max ∨
      EffectiveArrival X K J (findNextEffectiveArrivalTime X K J)) ∧
    ∀ t, EffectiveArrival X K J t → findNextEffectiveArrivalTime X K J ≤ t := by
  obtain ⟨hval₁, hle₁, hmin₁⟩ := foldl_least (P := fun j t => (J j).arrivalTime = t ∧ X.systemTime < t)
    (f := fun min j =>
      if (J j).arrivalTime > X.systemTime ∧ (J j).arrivalTime < min then (J j).arrivalTime else min)
    (fun m j => by split_ifs with h; exacts [.inr ⟨rfl, h.1⟩, .inl rfl])
    (fun m j => by split_ifs <;> omega) (fun m j t => by split_ifs <;> omega)
    K.pendingJobsQueue uint32Max
  obtain ⟨hval, hle, hmin⟩ := foldl_least (fun m e => (leastOfEntry_spec (X := X) hs m e).1)
    (fun m e => (leastOfEntry_spec hs m e).2.1) (fun m e => (leastOfEntry_spec hs m e).2.2)
    X.entries (K.pendingJobsQueue.foldl (fun min j =>
      if (J j).arrivalTime > X.systemTime ∧ (J j).arrivalTime < min then (J j).arrivalTime else min)
      uint32Max)
  have hfold : findNextEffectiveArrivalTime X K J = X.entries.foldl (leastOfEntry X K) _ := rfl
  rw [← hfold] at hval hle hmin
  refine ⟨hle.trans hle₁, ?_, ?_⟩
  · rcases hval with h | ⟨m, hm, ht⟩
    · rw [h]
      rcases hval₁ with h₁ | ⟨j, hj, ht⟩
      · exact .inl h₁
      · exact .inr (.inl ⟨j, hj, ht⟩)
    · exact .inr (.inr ⟨m, hm, ht⟩)
  · rintro t (⟨j, hj, ht⟩ | ⟨m, hm, ht⟩)
    · exact hle.trans (hmin₁ j hj t ht)
    · exact hmin m hm t ht

/-- **The next effective arrival is exact.** -/
theorem findNextEffectiveArrivalTime_spec (hs : SortedBy (·.arrivalTick) K.delegatedJobQueue)
    (hwrap : ∀ t, EffectiveArrival X K J t → t ≤ uint32Max) :
    ((∃ t, EffectiveArrival X K J t) →
      IsLeast { t | EffectiveArrival X K J t } (findNextEffectiveArrivalTime X K J)) ∧
    ((¬∃ t, EffectiveArrival X K J t) → findNextEffectiveArrivalTime X K J = uint32Max) := by
  obtain ⟨-, hfound, hlower⟩ := findNextEffectiveArrivalTime_bounds (X := X) (J := J) hs
  refine ⟨fun ⟨t, ht⟩ => ⟨?_, hlower⟩, fun hno => ?_⟩
  · rcases hfound with h | h
    · -- the start value is itself the least arrival time
      have heq : t = findNextEffectiveArrivalTime X K J :=
        le_antisymm (h.symm ▸ hwrap t ht) (hlower t ht)
      exact heq ▸ ht
    · exact h
  · exact hfound.resolve_right fun h => hno ⟨_, h⟩

/-- A core whose next release, at 4, is delegated, and a pending job -/
def shedCfg : Config where
  maxCriticalityLevels := 1
  maxTasks := 1
  systemTasks := [⟨1, 4, 4, fun _ => 1, 0⟩]
  allocationMap := [⟨1, .primary, 0, 0, fun _ => 4⟩]
  procId := 0

def shedCtx : Ctx 1 := ⟨shedCfg, Fin.last 0, 3, 0, []⟩

def shedCore : Core 1 :=
  { Core.init 1 with
    pendingJobsQueue := [(Fin.last 0, Fin.last 49)]
    delegatedJobQueue := [⟨Fin.last 199, 4, 1, true⟩] }

def shedJobs : Jobs 1 := fun _ => { JobRec.blank with arrivalTime := 10 }

theorem findNextEffectiveArrivalTime_spec_shed :
    IsLeast { t | EffectiveArrival shedCtx shedCore shedJobs t }
      (findNextEffectiveArrivalTime shedCtx shedCore shedJobs) := by
  have hs : SortedBy (·.arrivalTick) shedCore.delegatedJobQueue := List.pairwise_singleton _ _
  refine (findNextEffectiveArrivalTime_spec hs ?_).1
    ⟨10, .inl ⟨_, List.mem_singleton_self _, rfl, by decide⟩⟩
  rintro t (⟨j, -, rfl, -⟩ | ⟨m, hm, task, ht, -, -, hleast⟩)
  · exact (by decide : 10 ≤ uint32Max)
  · obtain rfl := List.mem_singleton.1 hm
    obtain rfl := Option.some.inj ht
    have h8 : t ≤ 8 := hleast.2 ⟨by decide, by decide, by simp [Delegated, shedCore]⟩
    exact h8.trans (by decide)

end EeftSched

/-
  The deadlines of the analysis in their array (`get_job_deadline` ..
  `collect_active_and_future_deadlines` in `sched_util.c`), for any size of the
  array.  `qsort` is a parameter, of which is used that it sorts by a
  comparison function that orders all values.

  * `removeRepetitions`: the two moving indices of the last loop, with the
    invariant `Compacted`;
  * `elems_collect`: the appends leave in the array what the lists of `Slack`
    say;
  * `collectActiveAndFutureDeadlines_spec`: with room for all deadlines, what is
    returned is strictly increasing and has exactly the deadlines asked for.
-/
import EeftSched.SlackSpec

namespace EeftSched

/-- `deadlines[]` and `count` -/
structure DeadlineArray where
  deadlines : ℕ → ℕ
  count : ℕ

namespace DeadlineArray

/-- The part of the array that is filled -/
def elems (a : DeadlineArray) : List ℕ := (List.range a.count).map a.deadlines

/-- `deadlines[count++] = d` -/
def push (a : DeadlineArray) (d : ℕ) : DeadlineArray :=
  ⟨Function.update a.deadlines a.count d, a.count + 1⟩

def addDeadlineToArray (maxDeadlines tstart : ℕ) (a : DeadlineArray) (d : ℕ) : DeadlineArray :=
  if d > tstart ∧ a.count < maxDeadlines then a.push d else a

def processJobDeadline (maxDeadlines critLvl tstart : ℕ) (job : Option Job) (a : DeadlineArray) :
    DeadlineArray :=
  match job with
  | some job => addDeadlineToArray maxDeadlines tstart a (getJobDeadline job critLvl)
  | none => a

def processQueueDeadlines (maxDeadlines critLvl tstart : ℕ) (queue : List Job) (a : DeadlineArray) :
    DeadlineArray :=
  queue.foldl (fun a job => processJobDeadline maxDeadlines critLvl tstart (some job) a) a

/-- The loop over the releases of a task; a positive period ends it within the
    fuel it gets. -/
def processReleases (maxDeadlines tstart horizon period deadline : ℕ) :
    ℕ → ℕ → DeadlineArray → DeadlineArray
  | 0, _, a => a
  | fuel + 1, arrival, a =>
    if arrival + deadline > tstart ∧ arrival + deadline ≤ tstart + horizon ∧
        a.count < maxDeadlines then
      processReleases maxDeadlines tstart horizon period deadline fuel (arrival + period)
        (a.push (arrival + deadline))
    else a

/-- One entry of the allocation map of this core -/
def processEntry (cfg : Config) (maxDeadlines critLvl tstart horizon : ℕ) (a : DeadlineArray)
    (m : TaskAlloc) : DeadlineArray :=
  match cfg.findTaskById m.taskId with
  | none => a
  | some task =>
    if task.critLevel < critLvl then a
    else
      processReleases maxDeadlines tstart horizon task.period (m.tunedDeadlines critLvl)
        (horizon + 1) (firstArrival tstart task.period) a

/-- All deadlines in the order in which they are found -/
def collect (cfg : Config) (v : CoreView) (maxDeadlines critLvl tstart : ℕ) (deadlines : ℕ → ℕ)
    (extraJob : Option Job) : DeadlineArray :=
  let horizon := calculateHorizon v
  let a := processJobDeadline maxDeadlines critLvl tstart extraJob ⟨deadlines, 0⟩
  let a := processJobDeadline maxDeadlines critLvl tstart v.runningJob a
  let a := processQueueDeadlines maxDeadlines critLvl tstart v.readyQueue a
  let a := processQueueDeadlines maxDeadlines critLvl tstart v.replicaQueue a
  let a := processQueueDeadlines maxDeadlines critLvl tstart v.pendingJobsQueue a
  (cfg.entries v.coreId).foldl (processEntry cfg maxDeadlines critLvl tstart horizon) a

/-- One pass of the last loop: an element that differs from the last one kept
    is kept. -/
def keep (s : (ℕ → ℕ) × ℕ) (i : ℕ) : (ℕ → ℕ) × ℕ :=
  if s.1 i ≠ s.1 s.2 then (Function.update s.1 (s.2 + 1) (s.1 i), s.2 + 1) else s

/-- The loop that removes the repetitions in place; the index returned is that
    of the last element kept. -/
def removeRepetitions (deadlines : ℕ → ℕ) (count : ℕ) : (ℕ → ℕ) × ℕ :=
  (List.range' 1 (count - 1)).foldl keep (deadlines, 0)

end DeadlineArray

/-- `cmp_uint32` -/
def cmpUint32 (x y : ℕ) : ℤ := (if x > y then 1 else 0) - (if x < y then 1 else 0)

/-- `qsort`: the comparison function, the array and the number of its elements -/
abbrev Qsort := (ℕ → ℕ → ℤ) → (ℕ → ℕ) → ℕ → ℕ → ℕ

open DeadlineArray in
/-- `collect_active_and_future_deadlines`: the array it leaves, and the number
    it returns -/
def collectDeadlines (qsort : Qsort) (cfg : Config) (v : CoreView) (maxDeadlines critLvl tstart : ℕ)
    (deadlines : ℕ → ℕ) (extraJob : Option Job) : DeadlineArray :=
  if maxDeadlines = 0 ∨ critLvl ≥ cfg.maxCriticalityLevels then ⟨deadlines, 0⟩
  else
    let a := collect cfg v maxDeadlines critLvl tstart deadlines extraJob
    if a.count = 0 then ⟨a.deadlines, 0⟩
    else
      let (deadlines, unique) := removeRepetitions (qsort cmpUint32 a.deadlines a.count) a.count
      ⟨deadlines, unique + 1⟩

/-! ## What is appended -/

namespace DeadlineArray

variable {cfg : Config} {v : CoreView} {n critLvl t d : ℕ} {a : DeadlineArray} {extraJob : Option Job}

@[simp] theorem length_elems (a : DeadlineArray) : a.elems.length = a.count := by simp [elems]

theorem mem_elems : d ∈ a.elems ↔ ∃ i < a.count, a.deadlines i = d := by
  simp [elems]

@[simp] theorem elems_push (a : DeadlineArray) (d : ℕ) : (a.push d).elems = a.elems ++ [d] := by
  have hold : ∀ i ∈ List.range a.count, Function.update a.deadlines a.count d i = a.deadlines i :=
    fun i hi => Function.update_of_ne (List.mem_range.1 hi).ne _ _
  simp only [elems, push, List.range_succ, List.map_append, List.map_cons, List.map_nil,
    Function.update_self, List.map_congr_left hold]

theorem elems_addDeadlineToArray :
    (addDeadlineToArray n t a d).elems = EeftSched.addDeadlineToArray n t a.elems d := by
  unfold addDeadlineToArray EeftSched.addDeadlineToArray
  rw [length_elems]
  split_ifs
  · exact elems_push a d
  · rfl

theorem elems_processQueueDeadlines {queue : List Job} :
    (processQueueDeadlines n critLvl t queue a).elems =
      processJobDeadlines n critLvl t queue a.elems := by
  unfold processQueueDeadlines processJobDeadlines
  induction queue generalizing a with
  | nil => rfl
  | cons j queue ih => rw [List.foldl_cons, List.foldl_cons, ih, processJobDeadline,
      elems_addDeadlineToArray]

theorem elems_processJobDeadline {job : Option Job} :
    (processJobDeadline n critLvl t job a).elems =
      processJobDeadlines n critLvl t job.toList a.elems := by
  cases job with
  | none => rfl
  | some job => exact elems_addDeadlineToArray

theorem elems_processReleases {horizon period deadline fuel arrival : ℕ} :
    (processReleases n t horizon period deadline fuel arrival a).elems =
      EeftSched.processReleases n t horizon period deadline fuel arrival a.elems := by
  induction fuel generalizing arrival a with
  | zero => rfl
  | succ fuel ih =>
    unfold processReleases EeftSched.processReleases
    rw [length_elems]
    split_ifs
    · rw [ih, elems_push]
    · rfl

/-- Up to the room there is, one entry adds its deadlines. -/
theorem elems_processEntry {l : List ℕ} {horizon : ℕ} {m : TaskAlloc} (ha : a.elems = l.take n) :
    (processEntry cfg n critLvl t horizon a m).elems =
      (l ++ entryDeadlines cfg critLvl t horizon m).take n := by
  unfold processEntry entryDeadlines
  cases cfg.findTaskById m.taskId with
  | none => simpa using ha
  | some task =>
    simp only
    split_ifs
    · simpa using ha
    · rw [elems_processReleases, ha]
      exact processReleases_take _ _

theorem elems_processEntries {l : List ℕ} {horizon : ℕ} {ms : List TaskAlloc}
    (ha : a.elems = l.take n) :
    (ms.foldl (processEntry cfg n critLvl t horizon) a).elems =
      (l ++ ms.flatMap (entryDeadlines cfg critLvl t horizon)).take n := by
  induction ms generalizing a l with
  | nil => simpa using ha
  | cons m ms ih => rw [List.foldl_cons, ih (elems_processEntry ha), List.flatMap_cons, List.append_assoc]

/-- **What is collected**: all deadlines there are, as far as they fit. -/
theorem elems_collect {deadlines : ℕ → ℕ} :
    (collect cfg v n critLvl t deadlines extraJob).elems =
      (allDeadlines cfg v critLvl t (calculateHorizon v) extraJob).take n := by
  have hnil : (⟨deadlines, 0⟩ : DeadlineArray).elems = ([] : List ℕ).take n := by simp [elems]
  unfold collect allDeadlines CoreView.jobs
  rw [elems_processEntries]
  simp only [elems_processQueueDeadlines, elems_processJobDeadline, hnil, processJobDeadlines_take,
    List.map_append, List.filter_append, List.append_assoc, List.nil_append]

/-! ## The repetitions -/

/-- After the elements below `i` of a sorted array: the elements up to
    `unique` are these without repetitions, the others are untouched. -/
structure Compacted (old new : ℕ → ℕ) (unique i : ℕ) : Prop where
  lt : unique < i
  rest : ∀ k, i ≤ k → new k = old k
  last : new unique = old (i - 1)
  increasing : ∀ j k, j < k → k ≤ unique → new j < new k
  mem : ∀ d, (∃ k ≤ unique, new k = d) ↔ ∃ k < i, old k = d

theorem Compacted.init (old : ℕ → ℕ) : Compacted old old 0 1 where
  lt := zero_lt_one
  rest _ _ := rfl
  last := rfl
  increasing j k hjk hk := by omega
  mem d := by simp

theorem Compacted.mem_succ {old new : ℕ → ℕ} {unique i : ℕ} (h : Compacted old new unique i) (d : ℕ) :
    (∃ k < i + 1, old k = d) ↔ (∃ k ≤ unique, new k = d) ∨ new i = d := by
  rw [h.mem d, h.rest i le_rfl]
  constructor
  · rintro ⟨k, hk, rfl⟩
    rcases Nat.lt_succ_iff_lt_or_eq.1 hk with hk | rfl
    · exact .inl ⟨k, hk, rfl⟩
    · exact .inr rfl
  · rintro (⟨k, hk, rfl⟩ | rfl)
    · exact ⟨k, by omega, rfl⟩
    · exact ⟨i, by omega, rfl⟩

/-- A larger element is kept behind those kept so far. -/
theorem Compacted.larger {old new : ℕ → ℕ} {unique i : ℕ} (h : Compacted old new unique i)
    (hgt : new unique < new i) :
    Compacted old (Function.update new (unique + 1) (new i)) (unique + 1) (i + 1) := by
  have hlt := h.lt
  have hkept : ∀ k, k ≠ unique + 1 → Function.update new (unique + 1) (new i) k = new k :=
    fun k hk => Function.update_of_ne hk _ _
  refine ⟨by omega, fun k hk => ?_, ?_, fun j k hjk hk => ?_, fun d => ?_⟩
  · rw [hkept k (by omega), h.rest k (by omega)]
  · rw [Function.update_self, h.rest i le_rfl, Nat.add_sub_cancel]
  · rw [hkept j (by omega)]
    rcases Nat.le_succ_iff.1 hk with hk | rfl
    · rw [hkept k (by omega)]
      exact h.increasing j k hjk hk
    · rw [Function.update_self]
      rcases Nat.lt_succ_iff_lt_or_eq.1 hjk with hj | rfl
      · exact (h.increasing j unique hj le_rfl).trans hgt
      · exact hgt
  · rw [h.mem_succ d]
    constructor
    · rintro ⟨k, hk, rfl⟩
      rcases Nat.le_succ_iff.1 hk with hk | rfl
      · exact .inl ⟨k, hk, (hkept k (by omega)).symm⟩
      · exact .inr (Function.update_self (unique + 1) (new i) new).symm
    · rintro (⟨k, hk, rfl⟩ | rfl)
      · exact ⟨k, by omega, hkept k (by omega)⟩
      · exact ⟨unique + 1, le_rfl, Function.update_self ..⟩

/-- The last element kept comes once more. -/
theorem Compacted.repeated {old new : ℕ → ℕ} {unique i : ℕ} (h : Compacted old new unique i)
    (heq : new i = new unique) : Compacted old new unique (i + 1) := by
  have hlt := h.lt
  refine ⟨by omega, fun k hk => h.rest k (by omega), ?_, h.increasing, fun d => ?_⟩
  · rw [Nat.add_sub_cancel, ← h.rest i le_rfl, heq]
  · rw [h.mem_succ d]
    refine ⟨.inl, ?_⟩
    rintro (hk | rfl)
    · exact hk
    · exact ⟨unique, le_rfl, heq.symm⟩

theorem Compacted.step {old : ℕ → ℕ} {s : (ℕ → ℕ) × ℕ} {i : ℕ} (h : Compacted old s.1 s.2 i)
    (hle : old (i - 1) ≤ old i) : Compacted old (keep s i).1 (keep s i).2 (i + 1) := by
  unfold keep
  split_ifs with hne
  · rw [← h.last, ← h.rest i le_rfl] at hle
    exact h.larger (by omega)
  · exact h.repeated (not_not.1 hne)

/-- The whole loop -/
theorem compacted_removeRepetitions {old : ℕ → ℕ} {count : ℕ} (hpos : 0 < count)
    (hs : ∀ i, i + 1 < count → old i ≤ old (i + 1)) :
    Compacted old (removeRepetitions old count).1 (removeRepetitions old count).2 count := by
  obtain ⟨m, rfl⟩ := Nat.exists_eq_add_of_le' hpos
  unfold removeRepetitions
  rw [Nat.add_sub_cancel]
  induction m with
  | zero => exact .init old
  | succ m ih =>
    rw [List.range'_1_concat, List.foldl_append]
    have h := ih m.succ_pos fun i hi => hs i (by omega)
    rw [Nat.add_comm m 1] at h ⊢
    refine h.step ?_
    rw [Nat.add_sub_cancel_left, Nat.add_comm 1 m]
    exact hs m (by omega)

end DeadlineArray

/-! ## The sorting -/

/-- A comparison function orders all values. -/
structure Compares (cmp : ℕ → ℕ → ℤ) : Prop where
  total : ∀ x y, cmp x y ≤ 0 ∨ cmp y x ≤ 0
  trans : ∀ x y z, cmp x y ≤ 0 → cmp y z ≤ 0 → cmp x z ≤ 0

/-- What the C library says of `qsort` -/
def Qsort.Sorts (qsort : Qsort) : Prop :=
  ∀ cmp a n, Compares cmp →
    ((List.range n).map (qsort cmp a n)).Perm ((List.range n).map a) ∧
      ∀ i, i + 1 < n → cmp (qsort cmp a n i) (qsort cmp a n (i + 1)) ≤ 0

theorem cmpUint32_iff {x y : ℕ} : cmpUint32 x y ≤ 0 ↔ x ≤ y := by
  unfold cmpUint32
  split_ifs <;> omega

theorem compares_cmpUint32 : Compares cmpUint32 where
  total x y := by
    rw [cmpUint32_iff, cmpUint32_iff]
    exact le_total x y
  trans x y z := by
    simp only [cmpUint32_iff]
    exact le_trans

/-! ## The result -/

variable {cfg : Config} {v : CoreView} {maxDeadlines critLvl tstart : ℕ} {extraJob : Option Job}

/-- The elements kept, from their two characteristics -/
theorem DeadlineArray.Compacted.elems {old new : ℕ → ℕ} {unique count : ℕ}
    (h : Compacted old new unique count) :
    (⟨new, unique + 1⟩ : DeadlineArray).elems.Pairwise (· < ·) ∧
      ∀ d, d ∈ (⟨new, unique + 1⟩ : DeadlineArray).elems ↔ ∃ k < count, old k = d := by
  constructor
  · unfold DeadlineArray.elems
    rw [List.pairwise_map]
    refine List.pairwise_lt_range.imp_of_mem fun _ hk hjk => ?_
    exact h.increasing _ _ hjk (Nat.lt_succ_iff.1 (List.mem_range.1 hk))
  · intro d
    rw [DeadlineArray.mem_elems, ← h.mem d]
    simp only [Nat.lt_succ_iff]

/-- Sorting and removing the repetitions keeps the elements. -/
theorem mem_collectDeadlines_iff {qsort : Qsort} (hq : qsort.Sorts) {deadlines : ℕ → ℕ}
    (hlvl : critLvl < cfg.maxCriticalityLevels)
    (hroom : (allDeadlines cfg v critLvl tstart (calculateHorizon v) extraJob).length ≤ maxDeadlines) :
    (collectDeadlines qsort cfg v maxDeadlines critLvl tstart deadlines extraJob).elems.Pairwise
      (· < ·) ∧
    ∀ d, d ∈ (collectDeadlines qsort cfg v maxDeadlines critLvl tstart deadlines extraJob).elems ↔
      d ∈ allDeadlines cfg v critLvl tstart (calculateHorizon v) extraJob := by
  generalize ha : DeadlineArray.collect cfg v maxDeadlines critLvl tstart deadlines extraJob = a
  have hall : a.elems = allDeadlines cfg v critLvl tstart (calculateHorizon v) extraJob := by
    rw [← ha, DeadlineArray.elems_collect, List.take_of_length_le hroom]
  rw [← hall] at hroom ⊢
  unfold collectDeadlines
  simp only [ha]
  rw [DeadlineArray.length_elems] at hroom
  rcases Nat.eq_zero_or_pos a.count with hc | hc
  · -- nothing was found
    have hnil : a.elems = [] := List.eq_nil_of_length_eq_zero (by rw [a.length_elems, hc])
    rw [hnil, if_pos hc]
    split_ifs
    · simp [DeadlineArray.elems]
    · simp [DeadlineArray.elems]
  · rw [if_neg (by omega), if_neg hc.ne']
    obtain ⟨hperm, hle⟩ := hq cmpUint32 a.deadlines a.count compares_cmpUint32
    have hcomp := DeadlineArray.compacted_removeRepetitions hc
      fun i hi => cmpUint32_iff.1 (hle i hi)
    refine ⟨hcomp.elems.1, fun d => (hcomp.elems.2 d).trans ?_⟩
    have hmem := hperm.mem_iff (a := d)
    rw [List.mem_map, List.mem_map] at hmem
    simpa only [DeadlineArray.mem_elems, List.mem_range] using hmem

/-- **The deadlines collected**: with room for all that are found, they are
    strictly increasing, and are those of the jobs after `tstart` and those of
    the releases after `tstart` up to the horizon. -/
theorem collectDeadlines_spec {qsort : Qsort} (hq : qsort.Sorts) (hk : cfg.EntriesKnown v.coreId)
    (hlvl : critLvl < cfg.maxCriticalityLevels) (deadlines : ℕ → ℕ)
    (hroom : (allDeadlines cfg v critLvl tstart (calculateHorizon v) extraJob).length ≤ maxDeadlines) :
    (collectDeadlines qsort cfg v maxDeadlines critLvl tstart deadlines extraJob).elems.Pairwise
      (· < ·) ∧
    ∀ d, d ∈ (collectDeadlines qsort cfg v maxDeadlines critLvl tstart deadlines extraJob).elems ↔
      (∃ j ∈ v.jobs extraJob, d = j.arrivalTime + j.relativeTunedDeadlines critLvl ∧ tstart < d) ∨
      ∃ m ∈ cfg.entries v.coreId, ∃ task, cfg.findTaskById m.taskId = some task ∧
        critLvl ≤ task.critLevel ∧
        ∃ k, tstart < k * task.period ∧ d = k * task.period + m.tunedDeadlines critLvl ∧
          d ≤ tstart + calculateHorizon v := by
  obtain ⟨hincr, hmem⟩ := mem_collectDeadlines_iff hq hlvl hroom
  refine ⟨hincr, fun d => ?_⟩
  rw [hmem, mem_allDeadlines_iff hk]
  refine or_congr ?_ ?_
  · constructor
    · rintro ⟨hlt, j, hj, rfl⟩
      exact ⟨j, hj, rfl, hlt⟩
    · rintro ⟨j, hj, rfl, hlt⟩
      exact ⟨hlt, j, hj, rfl⟩
  · constructor
    · rintro ⟨⟨e, he, k, hlt, hd⟩, hle⟩
      obtain ⟨hm, ht, hc⟩ := mem_allocated.1 he
      exact ⟨e.1, hm, e.2, ht, hc, k, hlt, hd, hle⟩
    · rintro ⟨m, hm, task, ht, hc, k, hlt, hd, hle⟩
      exact ⟨⟨(m, task), mem_allocated.2 ⟨hm, ht, hc⟩, k, hlt, hd⟩, hle⟩

/-- A `qsort` -/
def mergeQsort : Qsort := fun cmp a n i =>
  (((List.range n).map a).mergeSort (cmp · · ≤ 0)).getD i (a i)

theorem mergeQsort_sorts : mergeQsort.Sorts := by
  intro cmp a n hcmp
  set l := ((List.range n).map a).mergeSort (cmp · · ≤ 0) with hl
  have hlen : l.length = n := by rw [hl, List.length_mergeSort, List.length_map, List.length_range]
  have hget : ∀ i (hi : i < l.length), mergeQsort cmp a n i = l[i] := fun i hi =>
    (List.getElem_eq_getD (a i)).symm
  constructor
  · have heq : (List.range n).map (mergeQsort cmp a n) = l := by
      refine List.ext_getElem (by simp [hlen]) fun i hi _ => ?_
      rw [List.getElem_map, List.getElem_range, hget i (by simpa [hlen] using hi)]
    rw [heq]
    exact List.mergeSort_perm _ _
  · intro i hi
    have hpair : l.Pairwise fun x y => decide (cmp x y ≤ 0) = true :=
      List.pairwise_mergeSort (fun x y z => by simpa using hcmp.trans x y z)
        (fun x y => by simpa using hcmp.total x y) _
    rw [hget i (by omega), hget (i + 1) (by omega)]
    exact of_decide_eq_true (List.pairwise_iff_getElem.1 hpair i (i + 1) _ _ i.lt_succ_self)

/-- Two tasks with periods 4 and 6, and a running job -/
def fourTask : Task := ⟨1, 4, 4, fun _ => 1, 0⟩

def sixTask : Task := ⟨2, 6, 6, fun _ => 1, 0⟩

def evenCfg : Config where
  maxCriticalityLevels := 1
  maxTasks := 2
  systemTasks := [fourTask, sixTask]
  allocationMap := [⟨1, .primary, 0, 0, fun _ => 3⟩, ⟨2, .primary, 0, 0, fun _ => 5⟩]
  procId := 0

def evenView : CoreView :=
  ⟨0, [], [], [], some ⟨sixTask, 6, fun _ => 5, 12, 11, 1, 1, 0, 0, false, .running, 0⟩, 0, 12⟩

theorem evenCfg_known : evenCfg.EntriesKnown evenView.coreId := by
  intro m hm
  rcases List.mem_cons.1 hm with rfl | hm
  · exact ⟨fourTask, rfl, by decide⟩
  · obtain rfl := List.mem_singleton.1 hm
    exact ⟨sixTask, rfl, by decide⟩

/-- The entries of the core, with their tasks -/
theorem mem_evenCfg_entries {m : TaskAlloc} {task : Task} (hm : m ∈ evenCfg.entries evenView.coreId)
    (ht : evenCfg.findTaskById m.taskId = some task) :
    (task = fourTask ∧ m.tunedDeadlines 0 = 3) ∨ (task = sixTask ∧ m.tunedDeadlines 0 = 5) := by
  rcases List.mem_cons.1 hm with rfl | hm
  · exact .inl ⟨(Option.some.inj ht).symm, rfl⟩
  · obtain rfl := List.mem_singleton.1 hm
    exact .inr ⟨(Option.some.inj ht).symm, rfl⟩

/-- Both the running job and a release have the deadline 11. -/
theorem collectDeadlines_spec_even :
    (collectDeadlines mergeQsort evenCfg evenView 6 0 7 id none).elems.Pairwise (· < ·) ∧
      ∀ d, d ∈ (collectDeadlines mergeQsort evenCfg evenView 6 0 7 id none).elems ↔
        d ∈ [11, 15, 17, 19] := by
  have hlvl : 0 < evenCfg.maxCriticalityLevels := by decide
  have hroom : (allDeadlines evenCfg evenView 0 7 (calculateHorizon evenView) none).length ≤ 6 := by decide
  obtain ⟨hincr, hmem⟩ := collectDeadlines_spec mergeQsort_sorts evenCfg_known hlvl id hroom
  have hhorizon : calculateHorizon evenView = 12 := rfl
  refine ⟨hincr, fun d => (hmem d).trans ?_⟩
  simp only [List.mem_cons, List.not_mem_nil, or_false, hhorizon]
  constructor
  · rintro (⟨j, hj, rfl, -⟩ | ⟨m, hm, task, ht, -, k, hlt, rfl, hle⟩)
    · obtain rfl := List.mem_singleton.1 hj
      exact .inl rfl
    · rcases mem_evenCfg_entries hm ht with ⟨rfl, htuned⟩ | ⟨rfl, htuned⟩
      · have hperiod : fourTask.period = 4 := rfl
        rw [hperiod] at hlt hle ⊢
        rw [htuned] at hle ⊢
        omega
      · have hperiod : sixTask.period = 6 := rfl
        rw [hperiod] at hlt hle ⊢
        rw [htuned] at hle ⊢
        omega
  · rintro (rfl | rfl | rfl | rfl)
    · exact .inl ⟨_, List.mem_singleton_self _, rfl, by decide⟩
    · exact .inr ⟨_, List.mem_cons_self, fourTask, rfl, le_rfl, 3, by decide⟩
    · exact .inr ⟨_, List.mem_cons_of_mem _ (List.mem_singleton_self _), sixTask, rfl, le_rfl, 2, by decide⟩
    · exact .inr ⟨_, List.mem_cons_self, fourTask, rfl, le_rfl, 4, by decide⟩

end EeftSched

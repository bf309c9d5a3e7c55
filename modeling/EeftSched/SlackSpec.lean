/-
  What the analysis of `__find_slack` computes, in terms of jobs and releases
  (`sched_util.c`).

  * `releaseDemand`: the demand of the releases of the allocated tasks after a
    time, the `while` loops counted;
  * `findSlack_eq_min`: the slack is the least one at the deadlines that fit into
    the array;
  * `findSlack_mono`: it grows with the scaling factor.
-/
import EeftSched.Slack
import Mathlib.Algebra.Order.BigOperators.Group.List
import Mathlib.Algebra.Order.Field.Rat
import Mathlib.Algebra.BigOperators.Ring.Finset
import Mathlib.Data.Finset.Lattice.Fold
import Mathlib.Tactic.Positivity

namespace EeftSched

open SortedQueue

variable {cfg : Config} {v : CoreView} {now critLvl t d : ℕ} {s : ℚ} {extraJob : Option Job}

/-! ## The loops over releases -/

/-- The number of releases of a task after `t` with deadlines up to `d` -/
def releasesUpTo (t period tunedDl d : ℕ) : ℕ :=
  ((Finset.range (d + 1)).filter fun k => t < k * period ∧ k * period + tunedDl ≤ d).card

/-- The same from the release number `k₀` on -/
def releasesFrom (k₀ period tunedDl d : ℕ) : ℕ :=
  ((Finset.range (d + 1)).filter fun k => k₀ ≤ k ∧ k * period + tunedDl ≤ d).card

theorem releasesUpTo_eq {period : ℕ} (hp : 0 < period) (t tunedDl d : ℕ) :
    releasesUpTo t period tunedDl d = releasesFrom (t / period + 1) period tunedDl d := by
  unfold releasesUpTo releasesFrom
  congr 1
  ext k
  simp only [Finset.mem_filter]
  rw [Nat.succ_le_iff, Nat.div_lt_iff_lt_mul hp]

theorem releasesFrom_pos {k₀ period tunedDl : ℕ} (hp : 0 < period) (h : k₀ * period + tunedDl ≤ d) :
    releasesFrom k₀ period tunedDl d = releasesFrom (k₀ + 1) period tunedDl d + 1 := by
  have hk₀ : k₀ ≤ k₀ * period := Nat.le_mul_of_pos_right _ hp
  unfold releasesFrom
  rw [← Finset.card_insert_of_notMem (a := k₀)]
  · congr 1
    ext k
    simp only [Finset.mem_insert, Finset.mem_filter, Finset.mem_range]
    constructor
    · rintro ⟨hk, hle, hd⟩
      rcases hle.eq_or_lt with rfl | hlt
      · exact .inl rfl
      · exact .inr ⟨hk, hlt, hd⟩
    · rintro (rfl | ⟨hk, hlt, hd⟩)
      · exact ⟨by omega, le_rfl, h⟩
      · exact ⟨hk, by omega, hd⟩
  · simp

theorem releasesFrom_zero {k₀ period tunedDl : ℕ} (h : ¬ k₀ * period + tunedDl ≤ d) :
    releasesFrom k₀ period tunedDl d = 0 := by
  unfold releasesFrom
  rw [Finset.card_eq_zero, Finset.filter_eq_empty_iff]
  rintro k - ⟨hle, hd⟩
  have := Nat.mul_le_mul_right period hle
  omega

/-- **The loop over the releases** adds the cost of each. -/
theorem addReleases_eq {period : ℕ} (hp : 0 < period) (tunedDl : ℕ) (cost : ℚ) {fuel k₀ : ℕ}
    (hf : d < k₀ * period + fuel) (demand : ℚ) :
    addReleases .exact tunedDl period d cost fuel (k₀ * period) demand =
      demand + releasesFrom k₀ period tunedDl d * cost := by
  induction fuel generalizing k₀ demand with
  | zero =>
    rw [releasesFrom_zero (by omega), addReleases]
    simp
  | succ fuel ih =>
    unfold addReleases
    split_ifs with h
    · have hnext : k₀ * period + period = (k₀ + 1) * period := by ring
      rw [hnext, ih (by rw [← hnext]; omega), releasesFrom_pos hp h, Arith.exact_rnd]
      push_cast
      ring
    · rw [releasesFrom_zero h]
      simp

/-- The tasks allocated to a core that go up to a level, with their entries -/
def Config.allocated (cfg : Config) (coreId critLvl : ℕ) : List (TaskAlloc × Task) :=
  (cfg.entries coreId).filterMap fun m =>
    match cfg.findTaskById m.taskId with
    | none => none
    | some task => if critLvl ≤ task.critLevel then some (m, task) else none

/-- The demand of the releases after `t` with deadlines up to `d` -/
def Config.releaseDemand (cfg : Config) (coreId critLvl t d : ℕ) (s : ℚ) : ℚ :=
  ((cfg.allocated coreId critLvl).map fun e =>
    (releasesUpTo t e.2.period (e.1.tunedDeadlines critLvl) d : ℚ) *
      (⌈(e.2.wcet critLvl : ℚ) / s⌉ : ℚ)).sum

theorem addEntries_eq {coreId : ℕ} (hk : cfg.EntriesKnown coreId) (critLvl t d : ℕ) (s : ℚ) :
    ∀ demand : ℚ,
    (cfg.entries coreId).foldl (addEntryDemand .exact cfg critLvl t d s) demand =
      demand + cfg.releaseDemand coreId critLvl t d s := by
  unfold Config.releaseDemand Config.allocated
  unfold Config.EntriesKnown at hk
  generalize cfg.entries coreId = entries at hk ⊢
  induction entries with
  | nil => simp
  | cons m ms ih =>
    intro demand
    obtain ⟨task, ht, hp⟩ := hk m List.mem_cons_self
    rw [List.foldl_cons, ih fun m' hm' => hk m' (List.mem_cons_of_mem _ hm'), addEntryDemand, ht,
      List.filterMap_cons, ht]
    simp only
    by_cases hc : task.critLevel < critLvl
    · rw [if_pos hc, if_neg (not_le.2 hc)]
    · rw [if_neg hc, if_pos (not_lt.1 hc), firstArrival, addReleases_eq hp _ _ (by omega),
        ← releasesUpTo_eq hp, List.map_cons, List.sum_cons, add_assoc, Arith.exact_rnd, Arith.exact_ofNat]

/-- The demand of the jobs of the core and the extra one with deadlines up to
    `d` -/
def CoreView.jobDemand (v : CoreView) (critLvl d : ℕ) (s : ℚ) (extraJob : Option Job) : ℚ :=
  ((v.jobs extraJob).map fun j =>
    if j.arrivalTime + j.relativeTunedDeadlines critLvl ≤ d then
      max 0 (⌈((j.parentTask.wcet critLvl : ℚ) - j.executedTime) / s⌉ : ℚ)
    else 0).sum

theorem demandUpTo_eq_add (hk : cfg.EntriesKnown v.coreId) (critLvl t d : ℕ) (s : ℚ)
    (extraJob : Option Job) :
    demandUpTo .exact cfg v critLvl t d s extraJob =
      v.jobDemand critLvl d s extraJob + cfg.releaseDemand v.coreId critLvl t d s := by
  rw [demandUpTo_eq, addEntries_eq hk]
  rfl

/-! ## The least slack -/

theorem jobDemand_nonneg (v : CoreView) (critLvl d : ℕ) (s : ℚ) (extraJob : Option Job) :
    0 ≤ v.jobDemand critLvl d s extraJob := by
  refine List.sum_nonneg fun x hx => ?_
  obtain ⟨j, -, rfl⟩ := List.mem_map.1 hx
  split_ifs
  · exact le_max_left _ _
  · exact le_rfl

theorem releaseDemand_nonneg (cfg : Config) (coreId critLvl t d : ℕ) (hs : 0 < s) :
    0 ≤ cfg.releaseDemand coreId critLvl t d s := by
  refine List.sum_nonneg fun x hx => ?_
  obtain ⟨e, -, rfl⟩ := List.mem_map.1 hx
  have hcost : (0 : ℤ) ≤ ⌈(e.2.wcet critLvl : ℚ) / s⌉ := Int.ceil_nonneg (by positivity)
  exact mul_nonneg (Nat.cast_nonneg _) (Int.cast_nonneg hcost)

/-- The deadlines the analysis looks at: those that fit into the array, in the
    order in which they are collected -/
def examined (cfg : Config) (v : CoreView) (critLvl t : ℕ) (extraJob : Option Job) : Finset ℕ :=
  ((allDeadlines cfg v critLvl t (calculateHorizon v) extraJob).take cfg.maxDeadlines).toFinset

theorem mem_examined_iff (hl : critLvl < cfg.maxCriticalityLevels) :
    d ∈ collectActiveAndFutureDeadlines cfg v critLvl t extraJob ↔
      d ∈ examined cfg v critLvl t extraJob := by
  rw [mem_collect_iff, examined, List.mem_toFinset]
  exact and_iff_right hl

/-- A release of an allocated task of a level, by its deadline -/
def Config.Release (cfg : Config) (coreId critLvl t d : ℕ) : Prop :=
  ∃ e ∈ cfg.allocated coreId critLvl, ∃ k, t < k * e.2.period ∧
    d = k * e.2.period + e.1.tunedDeadlines critLvl

theorem mem_allocated {coreId : ℕ} {e : TaskAlloc × Task} :
    e ∈ cfg.allocated coreId critLvl ↔
      e.1 ∈ cfg.entries coreId ∧ cfg.findTaskById e.1.taskId = some e.2 ∧
        critLvl ≤ e.2.critLevel := by
  unfold Config.allocated
  rw [List.mem_filterMap]
  constructor
  · rintro ⟨m, hm, he⟩
    cases ht : cfg.findTaskById m.taskId with
    | none =>
      rw [ht] at he
      cases he
    | some task =>
      rw [ht] at he
      simp only at he
      split_ifs at he with hc
      cases he
      exact ⟨hm, ht, hc⟩
  · rintro ⟨hm, ht, hc⟩
    refine ⟨e.1, hm, ?_⟩
    rw [ht]
    exact if_pos hc

theorem release_iff {coreId : ℕ} (hk : cfg.EntriesKnown coreId) :
    FutureRelease cfg coreId critLvl t d ↔ cfg.Release coreId critLvl t d := by
  constructor
  · rintro ⟨m, hm, task, ht, hc, k, rfl⟩
    obtain ⟨task', ht', hp⟩ := hk m hm
    obtain rfl : task = task' := Option.some.inj (ht.symm.trans ht')
    refine ⟨(m, task), mem_allocated.2 ⟨hm, ht, hc⟩, t / task.period + 1 + k, ?_, ?_⟩
    · rw [← Nat.div_lt_iff_lt_mul hp]
      omega
    · unfold firstArrival
      ring
  · rintro ⟨e, he, k, hlt, rfl⟩
    obtain ⟨hm, ht, hc⟩ := mem_allocated.1 he
    obtain ⟨task', ht', hp⟩ := hk e.1 hm
    obtain rfl : e.2 = task' := Option.some.inj (ht.symm.trans ht')
    rw [← Nat.div_lt_iff_lt_mul hp] at hlt
    refine ⟨e.1, hm, e.2, ht, hc, k - (t / e.2.period + 1), ?_⟩
    obtain ⟨i, rfl⟩ : ∃ i, k = t / e.2.period + 1 + i := ⟨k - (t / e.2.period + 1), by omega⟩
    rw [Nat.add_sub_cancel_left, firstArrival]
    ring

/-- All deadlines there are to examine: those of the jobs, and those of the
    releases up to the horizon. -/
theorem mem_allDeadlines_iff (hk : cfg.EntriesKnown v.coreId) {horizon : ℕ} :
    d ∈ allDeadlines cfg v critLvl t horizon extraJob ↔
      (t < d ∧ ∃ j ∈ v.jobs extraJob, d = j.arrivalTime + j.relativeTunedDeadlines critLvl) ∨
      (cfg.Release v.coreId critLvl t d ∧ d ≤ t + horizon) := by
  rw [allDeadlines, List.mem_append, mem_entryDeadlines_iff hk, release_iff hk, List.mem_filter,
    List.mem_map, decide_eq_true_eq]
  refine or_congr ?_ Iff.rfl
  constructor
  · rintro ⟨⟨j, hj, rfl⟩, hlt⟩
    exact ⟨hlt, j, hj, rfl⟩
  · rintro ⟨hlt, j, hj, rfl⟩
    exact ⟨⟨j, hj, rfl⟩, hlt⟩

theorem foldl_min_eq {f : ℕ → ℚ} {ds : List ℕ} (h : ds.toFinset.Nonempty) (init : ℚ) :
    ds.foldl (fun m d => if f d < m then f d else m) init = min init (ds.toFinset.inf' h f) := by
  refine eq_of_forall_le_iff fun x => ?_
  rw [le_foldl_min, le_min_iff, Finset.le_inf'_iff]
  simp only [List.mem_toFinset]

/-- The slack at a deadline -/
def slackBy (cfg : Config) (v : CoreView) (critLvl t : ℕ) (s : ℚ) (extraJob : Option Job) (d : ℕ) : ℚ :=
  (d : ℚ) - t - (v.jobDemand critLvl d s extraJob + cfg.releaseDemand v.coreId critLvl t d s)

theorem slackAt_eq (hk : cfg.EntriesKnown v.coreId) (h : t ≤ d) :
    slackAt cfg v critLvl t s extraJob d = slackBy cfg v critLvl t s extraJob d := by
  unfold slackAt slackBy
  rw [demandUpTo_eq_add hk, Nat.cast_sub h]

theorem slackBy_lt (hs : 0 < s) (h : d < 2 ^ 32) : slackBy cfg v critLvl t s extraJob d < fltMax := by
  have hd : (d : ℚ) < 2 ^ 32 := by exact_mod_cast h
  have ht : (0 : ℚ) ≤ t := Nat.cast_nonneg t
  have hj := jobDemand_nonneg v critLvl d s extraJob
  have hr := releaseDemand_nonneg cfg v.coreId critLvl t d hs
  have hmax : (2 : ℚ) ^ 32 ≤ fltMax := by
    unfold fltMax
    norm_num
  unfold slackBy
  linarith

theorem lt_of_mem_examined (hk : cfg.EntriesKnown v.coreId) (h : d ∈ examined cfg v critLvl t extraJob) :
    t < d := by
  have hmem := List.mem_of_mem_take (List.mem_toFinset.1 h)
  rcases (mem_allDeadlines_iff hk).1 hmem with ⟨hlt, -⟩ | ⟨⟨e, -, k, hlt, rfl⟩, -⟩
  · exact hlt
  · omega

/-- **The slack is the least one at the deadlines examined**, `FLT_MAX` when
    there are none.  These are the first `MAX_DEADLINES` of all deadlines there
    are. -/
theorem findSlack_eq_min (hk : cfg.EntriesKnown v.coreId) (hl : critLvl < cfg.maxCriticalityLevels)
    (ht : now ≤ t) (hs : 0 < s) (extraJob : Option Job)
    (hwrap : ∀ d ∈ examined cfg v critLvl t extraJob, d < 2 ^ 32) :
    findSlack cfg now v critLvl t s extraJob =
      if h : (examined cfg v critLvl t extraJob).Nonempty then
        max 0 ((examined cfg v critLvl t extraJob).inf' h (slackBy cfg v critLvl t s extraJob))
      else fltMax := by
  have hmem := fun d => @mem_examined_iff cfg v critLvl t d extraJob hl
  have hstart : (if t > now then t else now) = t := by split_ifs <;> omega
  unfold findSlack
  simp only [if_neg (not_le.2 hl), if_neg (not_le.2 hs), hstart]
  obtain ⟨ds, hds⟩ : ∃ ds, collectActiveAndFutureDeadlines cfg v critLvl t extraJob = ds := ⟨_, rfl⟩
  rw [hds] at hmem ⊢
  have hset : ds.toFinset = examined cfg v critLvl t extraJob := by
    ext d
    rw [List.mem_toFinset, hmem]
  rw [← hset] at hwrap ⊢
  by_cases hnil : ds = []
  · subst hnil
    rw [if_pos List.length_nil, dif_neg (by simp)]
  · have hne : ds.toFinset.Nonempty := List.toFinset_nonempty_iff ds |>.2 hnil
    rw [if_neg (by rwa [List.length_eq_zero_iff]), dif_pos hne, foldl_min_eq hne]
    -- no slack is `FLT_MAX`, from which the loop starts
    have hslack : ds.toFinset.inf' hne (slackAt cfg v critLvl t s extraJob) =
        ds.toFinset.inf' hne (slackBy cfg v critLvl t s extraJob) := by
      refine Finset.inf'_congr hne rfl fun d hd => slackAt_eq hk ?_
      rw [hset] at hd
      exact (lt_of_mem_examined hk hd).le
    have hle : ds.toFinset.inf' hne (slackBy cfg v critLvl t s extraJob) ≤ fltMax := by
      obtain ⟨d, hd⟩ := hne
      exact (Finset.inf'_le _ hd).trans (slackBy_lt hs (hwrap d hd)).le
    rw [hslack, min_eq_right hle]
    split_ifs with hneg
    · exact (max_eq_left hneg.le).symm
    · exact (max_eq_right (not_lt.1 hneg)).symm

/-! ## Faster is not worse -/

theorem calculateJobDemand_anti {s' : ℚ} (hs : 0 < s) (h : s ≤ s') (critLvl d : ℕ) (j : Job) :
    calculateJobDemand .exact critLvl d s' j ≤ calculateJobDemand .exact critLvl d s j := by
  unfold calculateJobDemand
  simp only [Arith.exact_rnd, Arith.exact_ofNat]
  split_ifs
  · rcases le_total 0 ((j.parentTask.wcet critLvl : ℚ) - j.executedTime) with hpos | hneg
    · have hdiv := div_le_div_of_nonneg_left hpos hs h
      exact max_le_max le_rfl (Int.cast_le.2 (Int.ceil_le_ceil hdiv))
    · -- a job that has run for longer than its budget needs nothing
      have hdiv : ((j.parentTask.wcet critLvl : ℚ) - j.executedTime) / s' ≤ 0 :=
        div_nonpos_of_nonpos_of_nonneg hneg (hs.trans_le h).le
      have hceil : (⌈((j.parentTask.wcet critLvl : ℚ) - j.executedTime) / s'⌉ : ℚ) ≤ 0 := by
        exact_mod_cast Int.ceil_le.2 (by simpa using hdiv)
      rw [max_eq_left hceil]
      exact le_max_left _ _
  · exact le_rfl

theorem addReleases_mono {tunedDl period fuel arrival : ℕ} {cost cost' demand demand' : ℚ}
    (hc : cost' ≤ cost) (hd : demand' ≤ demand) :
    addReleases .exact tunedDl period d cost' fuel arrival demand' ≤
      addReleases .exact tunedDl period d cost fuel arrival demand := by
  induction fuel generalizing arrival demand demand' with
  | zero => exact hd
  | succ fuel ih =>
    unfold addReleases
    split_ifs
    · exact ih (add_le_add hd hc)
    · exact hd

theorem addEntryDemand_anti {s' : ℚ} (hs : 0 < s) (h : s ≤ s') {demand demand' : ℚ}
    (hd : demand' ≤ demand) (m : TaskAlloc) :
    addEntryDemand .exact cfg critLvl t d s' demand' m ≤ addEntryDemand .exact cfg critLvl t d s demand m := by
  unfold addEntryDemand
  cases cfg.findTaskById m.taskId with
  | none => exact hd
  | some task =>
    simp only
    split_ifs
    · exact hd
    · have hdiv := div_le_div_of_nonneg_left (Nat.cast_nonneg (task.wcet critLvl)) hs h
      exact addReleases_mono (Int.cast_le.2 (Int.ceil_le_ceil hdiv)) hd

/-- The demand does not grow with the scaling factor. -/
theorem demandUpTo_anti {s' : ℚ} (hs : 0 < s) (h : s ≤ s') (cfg : Config) (v : CoreView)
    (critLvl t d : ℕ) (extraJob : Option Job) :
    demandUpTo .exact cfg v critLvl t d s' extraJob ≤ demandUpTo .exact cfg v critLvl t d s extraJob := by
  have hjobs : ((v.jobs extraJob).map (calculateJobDemand .exact critLvl d s')).sum ≤
      ((v.jobs extraJob).map (calculateJobDemand .exact critLvl d s)).sum :=
    List.sum_le_sum fun j _ => calculateJobDemand_anti hs h critLvl d j
  rw [demandUpTo_eq, demandUpTo_eq]
  -- the entries one by one
  have go : ∀ (entries : List TaskAlloc) {demand demand' : ℚ}, demand' ≤ demand →
      entries.foldl (addEntryDemand .exact cfg critLvl t d s') demand' ≤
        entries.foldl (addEntryDemand .exact cfg critLvl t d s) demand := by
    intro entries
    induction entries with
    | nil => exact fun hd => hd
    | cons m entries ih => exact fun hd => ih (addEntryDemand_anti hs h hd m)
  exact go _ hjobs

theorem foldl_min_mono {f g : ℕ → ℚ} {ds : List ℕ} (h : ∀ d ∈ ds, f d ≤ g d) (init : ℚ) :
    ds.foldl (fun m d => if f d < m then f d else m) init ≤
      ds.foldl (fun m d => if g d < m then g d else m) init := by
  obtain ⟨hinit, hall⟩ := le_foldl_min.1 (le_refl (ds.foldl (fun m d => if f d < m then f d else m) init))
  exact le_foldl_min.2 ⟨hinit, fun d hd => (hall d hd).trans (h d hd)⟩

/-- **The slack grows with the scaling factor**, for every state of a core. -/
theorem findSlack_mono {s' : ℚ} (hs : 0 < s) (h : s ≤ s') (cfg : Config) (now : ℕ) (v : CoreView)
    (critLvl t : ℕ) (extraJob : Option Job) :
    findSlack cfg now v critLvl t s extraJob ≤ findSlack cfg now v critLvl t s' extraJob := by
  have hs' : 0 < s' := hs.trans_le h
  have hclamp : ∀ x : ℚ, (if x < 0 then 0 else x) = max 0 x := by
    intro x
    split_ifs with hx
    · exact (max_eq_left hx.le).symm
    · exact (max_eq_right (not_lt.1 hx)).symm
  unfold findSlack
  simp only [if_neg (not_le.2 hs), if_neg (not_le.2 hs'), hclamp]
  by_cases hl : critLvl ≥ cfg.maxCriticalityLevels
  · rw [if_pos hl, if_pos hl]
  rw [if_neg hl, if_neg hl]
  generalize (if t > now then t else now) = t₁
  split_ifs with hlen
  · exact le_rfl
  · refine max_le_max le_rfl (foldl_min_mono (fun d _ => ?_) _)
    exact sub_le_sub_left (demandUpTo_anti hs h cfg v critLvl t₁ d extraJob) _

/-! ## An array that is too short -/

/-- **What `__find_slack` returns**: the least slack at the first `MAX_DEADLINES`
    of all deadlines there are. -/
theorem findSlack_spec (hk : cfg.EntriesKnown v.coreId) (hl : critLvl < cfg.maxCriticalityLevels)
    (ht : now ≤ t) (hs : 0 < s) (extraJob : Option Job)
    (hwrap : ∀ d ∈ examined cfg v critLvl t extraJob, d < 2 ^ 32) :
    (∀ d, d ∈ allDeadlines cfg v critLvl t (calculateHorizon v) extraJob ↔
      (t < d ∧ ∃ j ∈ v.jobs extraJob, d = j.arrivalTime + j.relativeTunedDeadlines critLvl) ∨
      (cfg.Release v.coreId critLvl t d ∧ d ≤ t + calculateHorizon v)) ∧
    findSlack cfg now v critLvl t s extraJob =
      if h : (examined cfg v critLvl t extraJob).Nonempty then
        max 0 ((examined cfg v critLvl t extraJob).inf' h (slackBy cfg v critLvl t s extraJob))
      else fltMax :=
  ⟨fun _ => mem_allDeadlines_iff hk, findSlack_eq_min hk hl ht hs extraJob hwrap⟩

/-- A core with a task of period 2, which fills the array, and one of period
    1000 -/
def frequentTask : Task := ⟨1, 2, 2, fun _ => 1, 0⟩

def rareTask : Task := ⟨2, 1000, 600, fun _ => 320, 0⟩

def rareCfg : Config where
  maxCriticalityLevels := 1
  maxTasks := 2
  systemTasks := [frequentTask, rareTask]
  allocationMap := [⟨1, .primary, 0, 0, fun _ => 2⟩, ⟨2, .primary, 0, 0, fun _ => 600⟩]
  procId := 0

def rareView : CoreView := ⟨0, [], [], [], none, 0, calculateAllocatedHorizon rareCfg 0⟩

theorem rareCfg_known : rareCfg.EntriesKnown rareView.coreId := by
  rintro m hm
  rcases List.mem_cons.1 hm with rfl | hm
  · exact ⟨frequentTask, rfl, by decide⟩
  · obtain rfl := List.mem_singleton.1 hm
    exact ⟨rareTask, rfl, by decide⟩

theorem findSlack_spec_rare :
    findSlack rareCfg 990 rareView 0 990 1 none =
      if h : (examined rareCfg rareView 0 990 none).Nonempty then
        max 0 ((examined rareCfg rareView 0 990 none).inf' h (slackBy rareCfg rareView 0 990 1 none))
      else fltMax := by
  refine (findSlack_spec rareCfg_known (by decide) le_rfl one_pos none fun d hd => ?_).2
  have hall : ∀ d ∈ (allDeadlines rareCfg rareView 0 990 (calculateHorizon rareView) none).take
      rareCfg.maxDeadlines, d < 2 ^ 32 := by decide +kernel
  exact hall d (List.mem_toFinset.1 hd)

/-- At 990 the array is full with the deadlines up to 1248 of the first task; at
    1600 the release at 1000 of the other is late, whatever is done. -/
theorem findSlack_cut :
    findSlack rareCfg 990 rareView 0 990 1 none ≠
      if h : (allDeadlines rareCfg rareView 0 990 (calculateHorizon rareView) none).toFinset.Nonempty then
        max 0 ((allDeadlines rareCfg rareView 0 990 (calculateHorizon rareView) none).toFinset.inf' h
          (slackBy rareCfg rareView 0 990 1 none))
      else fltMax := by
  have hcut : findSlack rareCfg 990 rareView 0 990 1 none = 3 := by decide +kernel
  have hmem : 1600 ∈ (allDeadlines rareCfg rareView 0 990 (calculateHorizon rareView) none).toFinset :=
    List.mem_toFinset.2 (by decide +kernel)
  have hlate : slackBy rareCfg rareView 0 990 1 none 1600 = -14 := by
    rw [← slackAt_eq rareCfg_known (by decide)]
    decide +kernel
  rw [hcut, dif_pos ⟨1600, hmem⟩]
  have hle := Finset.inf'_le (slackBy rareCfg rareView 0 990 1 none) hmem
  rw [hlate] at hle
  intro heq
  rw [max_eq_left (hle.trans (by norm_num))] at heq
  exact absurd heq (by norm_num)

end EeftSched

/-
  The lengths that the test of a mode has to try (`dbf` and `compute_l_max` in
  `tools/task_allocator.py`), over exact arithmetic.

  * `Task.demand`, `dbf_eq`: the demand of a task, which `dbf` computes;
  * `exists_violation_below`: a demand that exceeds the length of some interval
    does so below the bound that `get_mode_l_max` computes;
  * `lMax_suffices`: without a cap, the lengths up to `compute_l_max` suffice.
-/
import Mathlib.Tactic.IntervalCases
import EeftSched.Lib.Demand
import EeftSched.Lib.FoldMax
import EeftSched.Tuning

namespace EeftSched.TaskAllocator

open Except Demand FoldMax

variable {m k : ℕ} {tasks : List Task} {t : Task} {l : ℤ}

/-- What `tune_mode` may assume of a task at mode `m` -/
structure Task.Tunable (m : ℕ) (t : Task) : Prop where
  period : 1 ≤ t.period
  nonneg : 0 ≤ t.virtualDeadline m
  mono : t.virtualDeadline m ≤ t.virtualDeadline (m + 1)
  le_period : t.virtualDeadline (m + 1) ≤ t.period

/-- The tasks that run in mode `k` -/
def inMode (k : ℕ) (tasks : List Task) : List Task := tasks.filter (k ≤ ·.criticalityLevel)

/-- Their utilization -/
def modeUtilization (k : ℕ) (tasks : List Task) : ℚ :=
  ((inMode k tasks).map fun t => (t.wcet k : ℚ) / t.period).sum

/-- The test at length `l`: the sum of `dbf(t, k - 1, k, l)` is at most `l`. -/
def Passes (k : ℕ) (tasks : List Task) (l : ℤ) : Prop := ∃ sum, sumDbf tasks k l = .ok sum ∧ sum ≤ l

/-! ## The demand of a task -/

/-- The deadline that counts in the test of mode `k` -/
def Task.relDeadline (t : Task) : ℕ → ℤ
  | 0 => t.virtualDeadline 0
  | m + 1 => t.virtualDeadline (m + 1) - t.virtualDeadline m

/-- What a job has done before the mode changed, at `x` after its release -/
def Task.done (t : Task) : ℕ → ℤ → ℤ
  | 0, _ => 0
  | m + 1, x =>
    let vd := t.virtualDeadline
    max 0 (min (if vd (m + 1) > x ∧ x ≥ vd (m + 1) - vd m then t.wcet m - x + vd (m + 1) - vd m else 0)
      (t.wcet (m + 1)))

def Task.demand (t : Task) (k : ℕ) (l : ℤ) : ℤ :=
  stepDemand (t.wcet k) t.period (t.relDeadline k) l - t.done k (l.fmod t.period)

/-- A task whose demand in mode `k` is that of periodic work -/
structure Task.Demands (k : ℕ) (t : Task) : Prop where
  period : 1 ≤ t.period
  wcet : 0 ≤ t.wcet k
  le_period : t.relDeadline k ≤ t.period

theorem Task.done_nonneg (t : Task) (k : ℕ) (x : ℤ) : 0 ≤ t.done k x := by
  cases k with
  | zero => exact le_rfl
  | succ m => exact le_max_left _ _

/-- What is done is part of the demand. -/
theorem Task.done_le (hT : 1 ≤ t.period) (hC : 0 ≤ t.wcet k) (hl : 0 ≤ l) :
    t.done k (l.fmod t.period) ≤ max (stepDemand (t.wcet k) t.period (t.relDeadline k) l) 0 := by
  cases k with
  | zero => exact le_max_right _ _
  | succ m =>
    have hmod : l.fmod t.period ≤ l := by
      rw [Int.fmod_eq_emod_of_nonneg _ (by omega)]
      have hdiv := Int.mul_ediv_add_emod l t.period
      have hpos : 0 ≤ t.period * (l / t.period) :=
        mul_nonneg (by omega) (Int.ediv_nonneg hl (by omega))
      omega
    unfold Task.done
    simp only
    split_ifs with hx
    · -- a job is released `relDeadline` before `l`
      have hstep : t.wcet (m + 1) ≤ stepDemand (t.wcet (m + 1)) t.period (t.relDeadline (m + 1)) l :=
        le_stepDemand hC (by omega) (hx.2.trans hmod)
      omega
    · omega

/-- The assertion of `dbf` holds. -/
theorem dbf_eq_max (hT : 1 ≤ t.period) (hC : 0 ≤ t.wcet k) (hk : k ≤ t.criticalityLevel) (hl : 0 ≤ l) :
    dbf t k l = .ok (max (stepDemand (t.wcet k) t.period (t.relDeadline k) l) 0 -
      t.done k (l.fmod t.period)) := by
  have hdone := sub_nonneg.2 (Task.done_le hT hC hl)
  unfold dbf
  rw [if_neg (by omega), if_neg (by omega), if_neg (by omega)]
  cases k with
  | zero =>
    have hmax : ∀ d : ℤ, max d 0 - t.done 0 (l.fmod t.period) = max d 0 := fun d => sub_zero _
    rw [hmax] at hdone ⊢
    exact (if_pos hdone).trans (congrArg Except.ok (max_eq_right hdone))
  | succ m => exact (if_pos hdone).trans (congrArg Except.ok (max_eq_right hdone))

theorem dbf_eq (ht : t.Demands k) (hk : k ≤ t.criticalityLevel) (hl : 0 ≤ l) :
    dbf t k l = .ok (t.demand k l) := by
  have hT := ht.period
  have hstep := stepDemand_nonneg ht.wcet (by omega) ht.le_period hl
  rw [dbf_eq_max hT ht.wcet hk hl, max_eq_left hstep]
  rfl

theorem dbf_below (hk : t.criticalityLevel < k) (l : ℤ) : dbf t k l = .ok 0 := by
  unfold dbf
  split_ifs <;> rfl

theorem Task.demand_add_mul (ht : t.Demands k) (l j : ℤ) :
    t.demand k (l + j * t.period) = t.demand k l + j * t.wcet k := by
  have hT := ht.period
  unfold demand
  rw [stepDemand_add_mul (by omega), Int.add_mul_fmod_self_right]
  ring

theorem Task.demand_le (ht : t.Demands k) (l : ℤ) :
    (t.demand k l : ℚ) ≤ t.wcet k / t.period * (l + (t.period - t.relDeadline k)) := by
  have hT := ht.period
  have hdone : (0 : ℚ) ≤ (t.done k (l.fmod t.period) : ℤ) := Int.cast_nonneg (t.done_nonneg _ _)
  have hstep := stepDemand_le ht.wcet (by omega : 0 < t.period) (t.relDeadline k) l
  unfold demand
  rw [Int.cast_sub]
  linarith

/-! ## The demand of all tasks -/

/-- The sum over the tasks of the mode -/
def totalDemand (k : ℕ) (tasks : List Task) (l : ℤ) : ℤ := (tasks.map (·.demand k l)).sum

theorem inMode_cons_of_le (hk : k ≤ t.criticalityLevel) : inMode k (t :: tasks) = t :: inMode k tasks :=
  List.filter_cons_of_pos (decide_eq_true hk)

theorem inMode_cons_of_lt (hk : t.criticalityLevel < k) : inMode k (t :: tasks) = inMode k tasks := by
  refine List.filter_cons_of_neg ?_
  rw [decide_eq_true_iff]
  omega

theorem sumDbf_eq (ht : ∀ t ∈ tasks, k ≤ t.criticalityLevel → t.Demands k) (hl : 0 ≤ l) :
    sumDbf tasks k l = .ok (totalDemand k (inMode k tasks) l) := by
  have go : ∀ a : ℤ, tasks.foldlM (fun sum t => do
      let d ← dbf t k l
      .ok (sum + d)) a = (.ok (a + totalDemand k (inMode k tasks) l) : Py ℤ) := by
    induction tasks with
    | nil => exact fun a => congrArg _ (add_zero a).symm
    | cons t tasks ih =>
      intro a
      have hrest := ih fun t h => ht t (List.mem_cons_of_mem _ h)
      rw [List.foldlM_cons]
      by_cases hk : k ≤ t.criticalityLevel
      · rw [dbf_eq (ht t List.mem_cons_self hk) hk hl]
        refine (hrest _).trans ?_
        rw [inMode_cons_of_le hk, totalDemand, totalDemand, List.map_cons, List.sum_cons, add_assoc]
      · rw [dbf_below (by omega)]
        refine (hrest _).trans ?_
        rw [inMode_cons_of_lt (by omega), add_zero]
  exact (go 0).trans (by rw [zero_add])

theorem passes_iff (ht : ∀ t ∈ tasks, k ≤ t.criticalityLevel → t.Demands k) (hl : 0 ≤ l) :
    Passes k tasks l ↔ totalDemand k (inMode k tasks) l ≤ l := by
  unfold Passes
  rw [sumDbf_eq ht hl]
  constructor
  · rintro ⟨sum, ⟨⟩, hle⟩
    exact hle
  · exact fun hle => ⟨_, rfl, hle⟩

/-! ## The bound -/

/-- The hyperperiod of the tasks -/
def hyperperiod (tasks : List Task) : ℕ := (tasks.map (·.period.natAbs)).foldr Nat.lcm 1

theorem period_dvd_hyperperiod (h : t ∈ tasks) : t.period ∣ hyperperiod tasks := by
  unfold hyperperiod
  induction tasks with
  | nil => cases h
  | cons u tasks ih =>
    rw [List.map_cons, List.foldr_cons, ← Int.natAbs_dvd_natAbs, Int.natAbs_natCast]
    rcases List.mem_cons.1 h with rfl | h
    · exact Nat.dvd_lcm_left _ _
    · have hrest := ih h
      rw [← Int.natAbs_dvd_natAbs, Int.natAbs_natCast] at hrest
      exact hrest.trans (Nat.dvd_lcm_right _ _)

theorem hyperperiod_pos (ht : ∀ t ∈ tasks, 1 ≤ t.period) : 0 < hyperperiod tasks := by
  unfold hyperperiod
  induction tasks with
  | nil => exact Nat.one_pos
  | cons t tasks ih =>
    have hT := ht t List.mem_cons_self
    exact Nat.lcm_pos (Int.natAbs_pos.2 (by omega)) (ih fun u hu => ht u (List.mem_cons_of_mem _ hu))

/-- The demand repeats itself with the hyperperiod. -/
theorem totalDemand_add {H : ℤ} (ht : ∀ t ∈ tasks, t.Demands k) (hH : ∀ t ∈ tasks, t.period ∣ H) (l : ℤ) :
    totalDemand k tasks (l + H) = totalDemand k tasks l + (tasks.map fun t => H / t.period * t.wcet k).sum := by
  unfold totalDemand
  rw [← List.sum_map_add]
  refine congrArg List.sum (List.map_congr_left fun t h => ?_)
  rw [← Task.demand_add_mul (ht t h), Int.ediv_mul_cancel (hH t h)]

/-- It grows by the share of the hyperperiod that the tasks use. -/
theorem sum_work {H : ℤ} (ht : ∀ t ∈ tasks, t.Demands k) (hH : ∀ t ∈ tasks, t.period ∣ H) :
    (((tasks.map fun t => H / t.period * t.wcet k).sum : ℤ) : ℚ) =
      H * (tasks.map fun t => (t.wcet k : ℚ) / t.period).sum := by
  induction tasks with
  | nil => simp
  | cons t tasks ih =>
    have hT := (ht t List.mem_cons_self).period
    have hTq : (t.period : ℚ) ≠ 0 := Int.cast_ne_zero.2 (by omega)
    have hrest := ih (fun u hu => ht u (List.mem_cons_of_mem _ hu)) fun u hu => hH u (List.mem_cons_of_mem _ hu)
    rw [List.map_cons, List.sum_cons, Int.cast_add, hrest, List.map_cons, List.sum_cons, Int.cast_mul,
      Int.cast_div (hH t List.mem_cons_self) hTq]
    ring

/-- The line above the demand -/
theorem totalDemand_le {d : ℤ} (ht : ∀ t ∈ tasks, t.Demands k)
    (hd : ∀ t ∈ tasks, t.period - t.relDeadline k ≤ d) (l : ℤ) :
    (totalDemand k tasks l : ℚ) ≤ (tasks.map fun t => (t.wcet k : ℚ) / t.period).sum * l +
      (tasks.map fun t => (t.wcet k : ℚ) / t.period).sum * d := by
  unfold totalDemand
  induction tasks with
  | nil => simp
  | cons t tasks ih =>
    have htask := ht t List.mem_cons_self
    have hT := htask.period
    have hu : (0 : ℚ) ≤ t.wcet k / t.period :=
      div_nonneg (Int.cast_nonneg htask.wcet) (Int.cast_nonneg (by omega))
    have hdiff : (t.period : ℚ) - t.relDeadline k ≤ d := by exact_mod_cast hd t List.mem_cons_self
    have hle := t.demand_le htask l
    have hmul := mul_le_mul_of_nonneg_left hdiff hu
    have hrest := ih (fun u hu => ht u (List.mem_cons_of_mem _ hu)) fun u hu => hd u (List.mem_cons_of_mem _ hu)
    rw [List.map_cons, List.sum_cons, List.map_cons, List.sum_cons, Int.cast_add]
    linarith

theorem any_period_eq_zero (ht : ∀ t ∈ tasks, 1 ≤ t.period) : tasks.any (·.period == 0) = false := by
  rw [List.any_eq_false]
  intro t hmem h0
  have hT := ht t hmem
  rw [eq_of_beq h0] at hT
  omega

/-- **A demand that exceeds the length of some interval does so below the bound
    of `get_mode_l_max`.** -/
theorem exists_violation_below (ht : ∀ t ∈ tasks, t.Demands k)
    (hd : tasks ≠ [] → ∃ t ∈ tasks, 0 ≤ t.relDeadline k)
    (hu : (tasks.map fun t => (t.wcet k : ℚ) / t.period).sum ≤ 1) :
    ∃ b, getModeLMax k (·.relDeadline k) tasks = .ok b ∧
      ∀ l, 0 ≤ l → l < totalDemand k tasks l →
        ∃ l' : ℤ, 0 ≤ l' ∧ (l' : ℚ) < b ∧ l' < totalDemand k tasks l' := by
  cases tasks with
  | nil => exact ⟨0, rfl, fun l hl hv => absurd hv (not_lt.2 hl)⟩
  | cons t ts =>
    have hperiods := any_period_eq_zero fun u hu => (ht u hu).period
    -- below the hyperperiod
    have hearly : ∀ l, 0 ≤ l → l < totalDemand k (t :: ts) l →
        ∃ l' : ℤ, 0 ≤ l' ∧ (l' : ℚ) < hyperperiod (t :: ts) + maximum (t.relDeadline k) (ts.map (·.relDeadline k)) ∧
          l' < totalDemand k (t :: ts) l' := by
      intro l hl hv
      have hH : ∀ u ∈ t :: ts, u.period ∣ hyperperiod (t :: ts) := fun u hu => period_dvd_hyperperiod hu
      have hwork := sum_work ht hH
      have hHpos := hyperperiod_pos fun u hu => (ht u hu).period
      have hle : ((t :: ts).map fun u => (hyperperiod (t :: ts) : ℤ) / u.period * u.wcet k).sum ≤
          hyperperiod (t :: ts) := by
        have hmul := mul_le_mul_of_nonneg_left hu (Nat.cast_nonneg (hyperperiod (t :: ts)) : (0 : ℚ) ≤ _)
        rw [mul_one, ← Int.cast_natCast, ← hwork] at hmul
        exact_mod_cast hmul
      obtain ⟨l', hl', hlt, hv'⟩ := exists_early_violation (by omega)
        (fun l _ => totalDemand_add ht hH l) hle hl hv
      refine ⟨l', hl', ?_, hv'⟩
      obtain ⟨u, hu, hpos⟩ := hd (List.cons_ne_nil _ _)
      have hmax : u.relDeadline k ≤ maximum (t.relDeadline k) (ts.map (·.relDeadline k)) :=
        le_foldl_max _ _ (List.mem_map_of_mem (f := fun t : Task => t.relDeadline k) hu)
      have hsum : l' < hyperperiod (t :: ts) + maximum (t.relDeadline k) (ts.map (·.relDeadline k)) := by omega
      exact_mod_cast hsum
    have heq : getModeLMax k (·.relDeadline k) (t :: ts) = .ok (
        let util := ((t :: ts).map fun t => (t.wcet k : ℚ) / t.period).sum
        let boundHyper : ℚ :=
          hyperperiod (t :: ts) + maximum (t.relDeadline k) (ts.map (·.relDeadline k))
        if util < 1 then
          min boundHyper (util / (1 - util) * maximum (t.period - t.relDeadline k)
            (ts.map fun t => t.period - t.relDeadline k))
        else boundHyper) := by
      unfold getModeLMax
      simp only [hperiods, Bool.false_eq_true, if_false]
      split_ifs <;> rfl
    refine ⟨_, heq, fun l hl hv => ?_⟩
    obtain ⟨l', hl', hlt, hv'⟩ := hearly l hl hv
    refine ⟨l', hl', ?_, hv'⟩
    simp only
    split_ifs with hutil
    · refine lt_min hlt (lt_of_violation hutil (totalDemand_le ht (fun u hmem => ?_) l') hv')
      exact le_foldl_max _ _ (List.mem_map_of_mem (f := fun t : Task => t.period - t.relDeadline k) hmem)
    · exact hlt

/-! ## The lengths to try -/

theorem le_truncate {q : ℚ} (hl : 0 ≤ l) (h : (l : ℚ) < q) : l ≤ truncate q := by
  have hq : 0 ≤ q := (Int.cast_nonneg hl).trans h.le
  rw [truncate, if_pos hq]
  exact Int.le_floor.2 h.le

theorem exists_nonneg (h : ∀ t ∈ tasks, 0 ≤ t.relDeadline k) (hne : tasks ≠ []) :
    ∃ t ∈ tasks, 0 ≤ t.relDeadline k := by
  obtain ⟨t, ht⟩ := List.exists_mem_of_ne_nil tasks hne
  exact ⟨t, ht, h t ht⟩

/-- The tests up to a length above the bound suffice. -/
theorem passes_of_passes_below {lMax : ℤ} (ht : ∀ t ∈ tasks, k ≤ t.criticalityLevel → t.Demands k)
    (hd : inMode k tasks ≠ [] → ∃ t ∈ inMode k tasks, 0 ≤ t.relDeadline k)
    (hu : modeUtilization k tasks ≤ 1) {b : ℚ}
    (hb : getModeLMax k (·.relDeadline k) (inMode k tasks) = .ok b) (hmax : truncate b ≤ lMax)
    (hpass : ∀ l, 0 ≤ l → l ≤ lMax → Passes k tasks l) : ∀ l, 0 ≤ l → Passes k tasks l := by
  have ht' : ∀ t ∈ inMode k tasks, t.Demands k := by
    intro t hmem
    obtain ⟨hmem, hk⟩ := List.mem_filter.1 hmem
    exact ht t hmem (of_decide_eq_true hk)
  obtain ⟨b', hb', hviol⟩ := exists_violation_below ht' hd hu
  obtain rfl : b = b' := Except.ok.inj (hb.symm.trans hb')
  intro l hl
  by_contra hno
  rw [passes_iff ht hl, not_le] at hno
  obtain ⟨l', hl', hlt, hv'⟩ := hviol l hl hno
  have hpass' := hpass l' hl' ((le_truncate hl' hlt).trans hmax)
  rw [passes_iff ht hl'] at hpass'
  omega

theorem getModeLMax_ok (ht : ∀ t ∈ tasks, 1 ≤ t.period) (mode : ℕ) (deadline : Task → ℤ) :
    ∃ lMax, getModeLMax mode deadline tasks = .ok lMax := by
  cases tasks with
  | nil => exact ⟨0, rfl⟩
  | cons t ts =>
    unfold getModeLMax
    simp only [any_period_eq_zero ht, Bool.false_eq_true, if_false]
    split_ifs <;> exact ⟨_, rfl⟩

/-- Its two bounds -/
theorem computeLMaxCap_ok (cap : ℤ) (ht : ∀ t ∈ tasks, 1 ≤ t.period) (m : ℕ) :
    ∃ b b', getModeLMax m (·.virtualDeadline m) (inMode m tasks) = .ok b ∧
      getModeLMax (m + 1) (·.relDeadline (m + 1)) (inMode (m + 1) tasks) = .ok b' ∧
      computeLMaxCap cap tasks m =
        .ok (if cap > 0 then min cap (truncate (max b b')) else truncate (max b b')) := by
  have hperiod : ∀ k, ∀ t ∈ inMode k tasks, 1 ≤ t.period := fun k t h => ht t (List.mem_of_mem_filter h)
  obtain ⟨b, hb⟩ := getModeLMax_ok (hperiod m) m (·.virtualDeadline m)
  obtain ⟨b', hb'⟩ := getModeLMax_ok (hperiod (m + 1)) (m + 1) (·.relDeadline (m + 1))
  refine ⟨b, b', hb, hb', ?_⟩
  unfold computeLMaxCap
  rw [show getModeLMax m (·.virtualDeadline m) (tasks.filter (m ≤ ·.criticalityLevel)) = .ok b from hb,
    show getModeLMax (m + 1) (fun t => t.virtualDeadline (m + 1) - t.virtualDeadline m)
      (tasks.filter (m + 1 ≤ ·.criticalityLevel)) = .ok b' from hb']
  rfl

theorem truncate_mono {p q : ℚ} (h : p ≤ q) : truncate p ≤ truncate q := by
  unfold truncate
  split_ifs with hp hq hq
  · exact Int.floor_le_floor h
  · exact absurd (hp.trans h) hq
  · exact (Int.ceil_le.2 (by exact_mod_cast (not_le.1 hp).le)).trans (Int.floor_nonneg.2 hq)
  · exact Int.ceil_le_ceil h

/-- **Without a cap the lengths up to `compute_l_max` suffice**, for tasks whose
    execution times are not negative. -/
theorem lMax_suffices {cap : ℤ} (hcap : cap ≤ 0) (ht : ∀ t ∈ tasks, t.Tunable m)
    (hu : modeUtilization m tasks ≤ 1) (hu' : modeUtilization (m + 1) tasks ≤ 1) :
    ∃ lMax, computeLMaxCap cap tasks m = .ok lMax ∧
      ((∀ t ∈ tasks, 0 ≤ t.wcet (m + 1)) → (∀ l, 0 ≤ l → l ≤ lMax → Passes (m + 1) tasks l) →
        ∀ l, 0 ≤ l → Passes (m + 1) tasks l) ∧
      (m = 0 → (∀ t ∈ tasks, 0 ≤ t.wcet 0) → (∀ l, 0 ≤ l → l ≤ lMax → Passes 0 tasks l) →
        ∀ l, 0 ≤ l → Passes 0 tasks l) := by
  obtain ⟨b, b', hb, hb', hlMax⟩ := computeLMaxCap_ok cap (fun t h => (ht t h).period) m
  rw [if_neg (by omega)] at hlMax
  refine ⟨_, hlMax, fun hw => ?_, ?_⟩
  · refine passes_of_passes_below (fun t h _ => ?_) (exists_nonneg fun t h => ?_) hu' hb'
      (truncate_mono (le_max_right _ _))
    · obtain ⟨hT, h0, hmono, hle⟩ := ht t h
      exact ⟨hT, hw t h, by
        show t.virtualDeadline (m + 1) - t.virtualDeadline m ≤ t.period
        omega⟩
    · exact sub_nonneg.2 (ht t (List.mem_of_mem_filter h)).mono
  · rintro rfl hw
    refine passes_of_passes_below (fun t h _ => ?_) (exists_nonneg fun t h => ?_) hu hb
      (truncate_mono (le_max_left _ _))
    · obtain ⟨hT, h0, hmono, hle⟩ := ht t h
      exact ⟨hT, hw t h, hmono.trans hle⟩
    · exact (ht t (List.mem_of_mem_filter h)).nonneg

/-- Two tasks of 40% and 20% of the processor at level 1 -/
def passingTasks : List Task :=
  [⟨1, 10, 10, fun m => if m = 0 then 6 else 10, "A", fun m => if m = 0 then 2 else 4, 0, 1, []⟩,
   ⟨2, 20, 20, fun m => if m = 0 then 12 else 20, "A", fun m => if m = 0 then 2 else 4, 0, 1, []⟩]

/-- The test passes at the lengths up to 18, and so at all. -/
theorem lMax_suffices_two : computeLMaxCap 0 passingTasks 0 = .ok 18 ∧
    ∀ l, 0 ≤ l → Passes 1 passingTasks l ∧ Passes 0 passingTasks l := by
  have ht : ∀ t ∈ passingTasks, t.Tunable 0 ∧ 0 ≤ t.wcet 0 ∧ 0 ≤ t.wcet 1 := by
    intro t h
    rcases List.mem_pair.1 h with rfl | rfl
    · exact ⟨⟨by decide, by decide, by decide, by decide⟩, by decide, by decide⟩
    · exact ⟨⟨by decide, by decide, by decide, by decide⟩, by decide, by decide⟩
  have hu : modeUtilization 0 passingTasks ≤ 1 := by
    norm_num [modeUtilization, inMode, passingTasks]
  have hu' : modeUtilization 1 passingTasks ≤ 1 := by
    norm_num [modeUtilization, inMode, passingTasks]
  have heighteen : computeLMaxCap 0 passingTasks 0 = .ok 18 := by
    have hlcm : Nat.lcm 10 20 = 20 := by decide
    norm_num [computeLMaxCap, getModeLMax, passingTasks, maximum, truncate, hlcm]
  have hpass : ∀ l : ℤ, 0 ≤ l → l ≤ 18 → Passes 1 passingTasks l ∧ Passes 0 passingTasks l := by
    intro l h0 h1
    interval_cases l <;> exact ⟨⟨_, rfl, by decide⟩, ⟨_, rfl, by decide⟩⟩
  obtain ⟨lMax, heq, hhi, hlo⟩ := lMax_suffices le_rfl (fun t h => (ht t h).1) hu hu'
  obtain rfl : 18 = lMax := Except.ok.inj (heighteen.symm.trans heq)
  exact ⟨heighteen, fun l hl =>
    ⟨hhi (fun t h => (ht t h).2.2) (fun l h0 h1 => (hpass l h0 h1).1) l hl,
      hlo rfl (fun t h => (ht t h).2.1) (fun l h0 h1 => (hpass l h0 h1).2) l hl⟩⟩

/-- A task that executes for 1 at level 0 and for `wcet` at level 1 -/
def laterTask (wcet : ℤ) : Task :=
  ⟨1, 10, 10, fun m => if m = 0 then 9 else 10, "A", fun m => if m = 0 then 1 else wcet, 0, 1, []⟩

theorem laterTask_tunable (wcet : ℤ) : (laterTask wcet).Tunable 0 := by
  constructor <;> simp [laterTask]

/-- An execution time below 0 hides the utilization of another task, but not its
    demand. -/
theorem negative_wcet_misses : ¬ ∀ (tasks : List Task) (m : ℕ) (cap : ℤ), cap ≤ 0 → tasks ≠ [] →
    (∀ t ∈ tasks, t.Tunable m) → modeUtilization m tasks ≤ 1 → modeUtilization (m + 1) tasks ≤ 1 →
    ∀ lMax, computeLMaxCap cap tasks m = .ok lMax → (∀ l, 0 ≤ l → l ≤ lMax → Passes (m + 1) tasks l) →
    ∀ l, 0 ≤ l → Passes (m + 1) tasks l := by
  intro hall
  let tasks := [laterTask 5, laterTask (-5)]
  have ht : ∀ t ∈ tasks, t.Tunable 0 := by
    intro t h
    rcases List.mem_pair.1 h with rfl | rfl <;> exact laterTask_tunable _
  have hu : modeUtilization 0 tasks ≤ 1 := by
    norm_num [tasks, modeUtilization, inMode, laterTask]
  have hu' : modeUtilization 1 tasks ≤ 1 := by
    norm_num [tasks, modeUtilization, inMode, laterTask]
  have h0 : getModeLMax 0 (·.virtualDeadline 0) (tasks.filter (0 ≤ ·.criticalityLevel)) = .ok (1 / 4) := by
    norm_num [tasks, getModeLMax, laterTask, maximum]
  have h1 : getModeLMax 1 (fun t => t.virtualDeadline 1 - t.virtualDeadline 0)
      (tasks.filter (1 ≤ ·.criticalityLevel)) = .ok 0 := by
    norm_num [tasks, getModeLMax, laterTask, maximum]
  have hlMax : computeLMaxCap 0 tasks 0 = .ok 0 := by
    unfold computeLMaxCap
    rw [h0, h1]
    show (Except.ok (truncate (max (1 / 4) 0)) : Py ℤ) = .ok 0
    norm_num [truncate]
  have hpass : ∀ l, 0 ≤ l → l ≤ 0 → Passes 1 tasks l := by
    intro l hl hl'
    obtain rfl : l = 0 := le_antisymm hl' hl
    exact ⟨0, rfl, le_rfl⟩
  obtain ⟨sum, hsum, hle⟩ := hall tasks 0 0 le_rfl (List.cons_ne_nil _ _) ht hu hu' 0 hlMax hpass 1 zero_le_one
  have hfour : sumDbf tasks 1 1 = .ok 4 := rfl
  rw [hfour] at hsum
  cases hsum
  omega

end EeftSched.TaskAllocator

/-
  The two decisions of power management that rest on the slack
  (`calc_required_dvfs_level`, `power_management_try_procrastination` in
  `power_management.c`).

  * `calcRequiredDvfsLevel_exact`: the search for a DVFS level stops at the first
    one that leaves too little slack, and loses nothing by it, since the slack
    grows with the scaling factor;
  * `tryProcrastination_allOrNothing`: a job is deferred for no longer than the
    slack of every level, or nothing happens.
-/
import EeftSched.SlackSpec
import EeftSched.TickFaults
import EeftSched.ModeChange

namespace EeftSched

open SortedQueue Except

variable {n : ℕ} {cfg : Config} {S : Sys n} {c : Fin n}

/-! ## The least slack of the levels -/

/-- The loop over the levels computes the least slack, `FLT_MAX` without levels. -/
theorem minSlackChecked_spec {systemTime : ℕ} {v : CoreView} {s minSlack : ℚ}
    (h : minSlackChecked cfg systemTime v s = .ok minSlack) (x : ℚ) :
    x ≤ minSlack ↔ x ≤ fltMax ∧ ∀ critLvl, v.localCriticalityLevel ≤ critLvl →
      critLvl < cfg.maxCriticalityLevels → ∃ slack,
        findSlackChecked cfg systemTime v critLvl systemTime s none = .ok slack ∧ x ≤ slack := by
  have go : ∀ (levels : List ℕ) (init : ℚ), levels.foldlM (fun minSlack critLvl => do
        let slack ← findSlackChecked cfg systemTime v critLvl systemTime s none
        Except.ok (if slack < minSlack then slack else minSlack)) init = .ok minSlack →
      (x ≤ minSlack ↔ x ≤ init ∧ ∀ critLvl ∈ levels, ∃ slack,
        findSlackChecked cfg systemTime v critLvl systemTime s none = .ok slack ∧ x ≤ slack) := by
    intro levels
    induction levels with
    | nil =>
      rintro init ⟨⟩
      simp
    | cons critLvl levels ih =>
      intro init h
      rw [List.foldlM_cons] at h
      obtain ⟨next, hnext, h⟩ := bind_eq_ok.1 h
      obtain ⟨slack, hslack, hnext⟩ := bind_eq_ok.1 hnext
      cases hnext
      rw [ih _ h, List.forall_mem_cons, hslack]
      simp only [Except.ok.injEq, exists_eq_left']
      split_ifs with hlt
      · exact ⟨fun ⟨h1, h2⟩ => ⟨h1.trans hlt.le, h1, h2⟩, fun ⟨_, h1, h2⟩ => ⟨h1, h2⟩⟩
      · exact ⟨fun ⟨h1, h2⟩ => ⟨h1, h1.trans (not_lt.1 hlt), h2⟩, fun ⟨h1, _, h2⟩ => ⟨h1, h2⟩⟩
  rw [go _ _ h]
  refine and_congr_right fun _ => ?_
  simp only [List.mem_range'_1]
  exact ⟨fun hall critLvl h1 h2 => hall critLvl ⟨h1, by omega⟩,
    fun hall critLvl hmem => hall critLvl hmem.1 (by omega)⟩

/-! ## The DVFS level -/

/-- Every level from the local one on keeps the margin at a DVFS level. -/
def Sys.KeepsMargin (cfg : Config) (S : Sys n) (c : Fin n) (i : ℕ) : Prop :=
  ∀ critLvl, (S.core c).localCriticalityLevel ≤ critLvl → critLvl < cfg.maxCriticalityLevels →
    slackMarginTicks ≤
      findSlack cfg S.systemTime (S.view cfg c) critLvl S.systemTime (scalingFactor i) none

theorem scalingFactor_anti : ∀ j < numDvfsLevels, ∀ i ≤ j,
    0 < scalingFactor j ∧ scalingFactor j ≤ scalingFactor i := by
  decide +kernel

/-- A faster level keeps the margin as well. -/
theorem Sys.KeepsMargin.anti {i j : ℕ} (h : S.KeepsMargin cfg c j) (hj : j < numDvfsLevels)
    (hij : i ≤ j) : S.KeepsMargin cfg c i := by
  obtain ⟨hpos, hle⟩ := scalingFactor_anti j hj i hij
  intro critLvl h1 h2
  exact (h critLvl h1 h2).trans (findSlack_mono hpos hle cfg _ _ critLvl _ none)

section
variable (hm : ∀ m ∈ cfg.entries c, m.Periodic cfg)
include hm

/-- The test of one DVFS level -/
theorem Sys.minSlack_iff (S : Sys n) (i : ℕ) :
    ∃ minSlack, minSlackChecked cfg S.systemTime (S.view cfg c) (scalingFactor i) = .ok minSlack ∧
      (minSlack ≥ slackMarginTicks ↔ S.KeepsMargin cfg c i) := by
  obtain ⟨minSlack, h⟩ := not_fails_iff.1 (S.minSlack_not_fails hm (scalingFactor i))
  refine ⟨minSlack, h, ?_⟩
  have hmax : slackMarginTicks ≤ fltMax := by
    unfold slackMarginTicks fltMax
    norm_num
  rw [ge_iff_le, minSlackChecked_spec h, and_iff_right hmax]
  refine forall_congr' fun critLvl => forall_congr' fun _ => forall_congr' fun _ => ?_
  rw [findSlackChecked_eq fun m hmem => (hm m hmem).sound critLvl]
  simp only [Except.ok.injEq, exists_eq_left']

/-- The loop from level `k` on; the levels before it have passed. -/
theorem Sys.dvfsLoop_spec (S : Sys n) (best : ℕ) (m k : ℕ) (hk : k + m ≤ numDvfsLevels) :
    ∃ r, S.dvfsLoop cfg c (List.range' k m) best = .ok r ∧
      (r = best ∧ (∀ i, k ≤ i → i < k + m → ¬ S.KeepsMargin cfg c i) ∨
        k ≤ r ∧ r < k + m ∧ S.KeepsMargin cfg c r ∧
          ∀ i, r < i → i < k + m → ¬ S.KeepsMargin cfg c i) := by
  induction m generalizing k best with
  | zero => exact ⟨best, rfl, .inl ⟨rfl, fun i h1 h2 => by omega⟩⟩
  | succ m ih =>
    obtain ⟨minSlack, hmin, htest⟩ := S.minSlack_iff hm k
    rw [List.range'_succ, dvfsLoop, hmin, ok_bind]
    by_cases hkeep : S.KeepsMargin cfg c k
    · rw [if_pos (htest.2 hkeep)]
      obtain ⟨r, hr, hspec⟩ := ih k (k + 1) (by omega)
      refine ⟨r, hr, .inr ?_⟩
      rcases hspec with ⟨rfl, hnone⟩ | ⟨h1, h2, h3, h4⟩
      · exact ⟨le_rfl, by omega, hkeep, fun i hi hlt => hnone i hi (by omega)⟩
      · exact ⟨by omega, by omega, h3, fun i hi hlt => h4 i hi (by omega)⟩
    · rw [if_neg fun h => hkeep (htest.1 h)]
      -- the loop ends here, and no later level would pass
      refine ⟨best, rfl, .inl ⟨rfl, fun i hi hlt hpass => hkeep ?_⟩⟩
      exact hpass.anti (by omega) hi

/-- **The search is exact**: among all DVFS levels the last that keeps the
    margin at every level is chosen, and 0 if none does. -/
theorem Sys.calcRequiredDvfsLevel_exact (S : Sys n) (hi : (S.core c).isIdle = false)
    (hr : (S.core c).runningJob ≠ none) :
    (∃ best, S.calcRequiredDvfsLevel cfg c = .ok best ∧
      (best < numDvfsLevels ∧ S.KeepsMargin cfg c best ∧
        (∀ i < numDvfsLevels, S.KeepsMargin cfg c i → i ≤ best) ∨
      best = 0 ∧ ∀ i < numDvfsLevels, ¬ S.KeepsMargin cfg c i)) ∧
    ∀ (v : CoreView) (critLvl tstart : ℕ) (extraJob : Option Job) (s s' : ℚ), 0 < s → s ≤ s' →
      findSlack cfg S.systemTime v critLvl tstart s extraJob ≤
        findSlack cfg S.systemTime v critLvl tstart s' extraJob := by
  refine ⟨?_, fun v critLvl tstart extraJob s s' hs h => findSlack_mono hs h _ _ _ _ _ _⟩
  obtain ⟨best, hbest, hspec⟩ := S.dvfsLoop_spec hm 0 numDvfsLevels 0 (by omega)
  refine ⟨best, ?_, ?_⟩
  · unfold calcRequiredDvfsLevel
    rw [if_neg (by rw [hi]; simp [hr]), List.range_eq_range']
    exact hbest
  · rcases hspec with ⟨rfl, hnone⟩ | ⟨-, hlt, hkeep, hlast⟩
    · exact .inr ⟨rfl, fun i hi => hnone i (Nat.zero_le i) (by omega)⟩
    · refine .inl ⟨by omega, hkeep, fun i hi hpass => ?_⟩
      by_contra hgt
      exact hlast i (by omega) (by omega) hpass

end

/-- A core that runs a job, of a processor with one allocated task -/
def Sys.oneRunning : Sys 1 :=
  { Sys.init 1 with
    core := fun _ => { Core.init 1 with runningJob := some JobId.first, isIdle := false } }

theorem Sys.calcRequiredDvfsLevel_exact_one :
    ∃ best, Sys.oneRunning.calcRequiredDvfsLevel (entryConfig [periodicTask 10] 1) 0 = .ok best ∧
      (best < numDvfsLevels ∧ Sys.oneRunning.KeepsMargin (entryConfig [periodicTask 10] 1) 0 best ∧
        (∀ i < numDvfsLevels, Sys.oneRunning.KeepsMargin (entryConfig [periodicTask 10] 1) 0 i →
          i ≤ best) ∨
      best = 0 ∧ ∀ i < numDvfsLevels,
        ¬ Sys.oneRunning.KeepsMargin (entryConfig [periodicTask 10] 1) 0 i) := by
  refine (Sys.calcRequiredDvfsLevel_exact (fun m hm => ?_) Sys.oneRunning rfl nofun).1
  rw [List.mem_singleton.1 hm]
  exact ⟨periodicTask 10, rfl, by decide⟩

/-! ## Procrastination -/

/-- `power_management_try_procrastination`: what it returns, the core and the
    jobs after it -/
def Sys.tryProcrastination (cfg : Config) (S : Sys n) (c : Fin n) :
    Except Fault (Bool × Core n × Jobs n) := do
  match ← S.deferrableTime cfg c with
  | none => .ok (false, S.core c, S.job)
  | some deferrableTime =>
    match (S.core c).runningJob with
    | none => .ok (false, S.core c, S.job)
    | some j =>
      let K := (S.core c).preempt S.job j
      .ok (true,
        if cfg.enableDpm then setDpmInterval S.systemTime K (S.systemTime + ⌊deferrableTime⌋₊) else K,
        S.job.set j { (S.job j).link with state := .ready })

theorem foldl_le {α : Type} {f : ℕ → α → ℕ} (hf : ∀ m x, f m x ≤ m) (l : List α) (m : ℕ) :
    l.foldl f m ≤ m := by
  induction l generalizing m with
  | nil => exact le_rfl
  | cons x l ih => exact (ih _).trans (hf m x)

theorem findNextEffectiveArrivalTime_le (X : Ctx n) (K : Core n) (J : Jobs n) :
    findNextEffectiveArrivalTime X K J ≤ uint32Max := by
  unfold findNextEffectiveArrivalTime
  refine (foldl_le (fun m x => ?_) _ _).trans (foldl_le (fun m j => ?_) _ _)
  · split
    · exact le_rfl
    · simp only
      split_ifs <;> omega
  · split_ifs <;> omega

/-- The interval starts now and lasts as long as asked for. -/
theorem setDpmInterval_sleeps {K : Core n} {systemTime ticks : ℕ} (hi : K.isIdle = true)
    (hl : K.inLowPowerState = false) (ht : dpmThreshold ≤ ticks) (hmax : systemTime + ticks ≠ uint32Max) :
    setDpmInterval systemTime K (systemTime + ticks) =
      { K with
        inLowPowerState := true, dpmStartTime := systemTime, dpmEndTime := systemTime + ticks } := by
  have hpos : 0 < ticks := lt_of_lt_of_le (by decide) ht
  unfold setDpmInterval
  rw [if_neg (by simp [hi, hl]), if_neg (by omega), if_pos (by omega), Nat.add_sub_cancel_left]

/-- What the function found when it goes on to look at the running job -/
theorem Sys.deferrableTime_some {deferrable : ℚ} (h : S.deferrableTime cfg c = .ok (some deferrable)) :
    let arrival := findNextEffectiveArrivalTime (S.ctx cfg c) (S.core c) S.job
    arrival ≠ uint32Max ∧ (dpmThreshold : ℚ) ≤ deferrable ∧ dpmThreshold ≤ arrival - S.systemTime ∧
      deferrable ≤ ((arrival - S.systemTime : ℕ) : ℚ) ∧
      ∀ critLvl, (S.core c).localCriticalityLevel ≤ critLvl → critLvl < cfg.maxCriticalityLevels →
        ∃ slack, findSlackChecked cfg S.systemTime (S.view cfg c) critLvl S.systemTime
          (scalingFactor (numDvfsLevels - 1)) none = .ok slack ∧ deferrable ≤ slack := by
  intro arrival
  unfold deferrableTime nextArrivalTime at h
  rw [findNextEffectiveArrivalTimeChecked_eq, ok_bind] at h
  split_ifs at h with hmax hsoon
  · cases h
  · cases h
  · obtain ⟨minSlack, hmin, h⟩ := bind_eq_ok.1 h
    split_ifs at h with hslack
    · cases h
    · obtain rfl := Option.some.inj (Except.ok.inj h)
      refine ⟨hmax, ?_, not_lt.1 hsoon, min_le_right _ _, ?_⟩
      · refine le_min (not_lt.1 hslack) ?_
        exact_mod_cast not_lt.1 hsoon
      · exact ((minSlackChecked_spec hmin _).1 (min_le_left _ _)).2

/-- **All or nothing**: the function changes nothing, or the running job waits in
    its queue while the core sleeps, not beyond the next arrival and not for
    longer than the slack of any level. -/
theorem Sys.tryProcrastination_allOrNothing (hdpm : cfg.enableDpm = true)
    (hlow : (S.core c).inLowPowerState = false) {b : Bool} {K' : Core n} {J' : Jobs n}
    (h : S.tryProcrastination cfg c = .ok (b, K', J')) :
    (b = false → K' = S.core c ∧ J' = S.job) ∧
    (b = true → ∃ j E, (S.core c).runningJob = some j ∧
      J' = S.job.set j { (S.job j).link with state := .ready } ∧
      K' = { (S.core c).addByKind S.job j with
        runningJob := none
        isIdle := true
        inLowPowerState := true
        dpmStartTime := S.systemTime
        dpmEndTime := E } ∧
      (∀ k, SortedBy (vdOf S.job) ((S.core c).queue k) → SortedBy (vdOf J') (K'.queue k)) ∧
      S.systemTime + 6 ≤ E ∧
      E ≤ findNextEffectiveArrivalTime (S.ctx cfg c) (S.core c) S.job ∧
      ∀ critLvl, (S.core c).localCriticalityLevel ≤ critLvl → critLvl < cfg.maxCriticalityLevels →
        ∃ slack, findSlackChecked cfg S.systemTime (S.view cfg c) critLvl S.systemTime
          (scalingFactor (numDvfsLevels - 1)) none = .ok slack ∧
          ((E - S.systemTime : ℕ) : ℚ) ≤ slack) := by
  obtain ⟨deferrable, hd, h⟩ := bind_eq_ok.1 h
  cases deferrable with
  | none =>
    cases h
    exact ⟨fun _ => ⟨rfl, rfl⟩, nofun⟩
  | some deferrable =>
    obtain ⟨hmax, hlong, hsoon, harrival, hslack⟩ := deferrableTime_some hd
    simp only at h
    cases hr : (S.core c).runningJob with
    | none =>
      rw [hr] at h
      cases h
      exact ⟨fun _ => ⟨rfl, rfl⟩, nofun⟩
    | some j =>
      rw [hr] at h
      simp only [hdpm, if_true] at h
      cases h
      have hpos : 0 ≤ deferrable := le_trans (by norm_num [dpmThreshold]) hlong
      have hsix : dpmThreshold ≤ ⌊deferrable⌋₊ := Nat.le_floor hlong
      have hend : ⌊deferrable⌋₊ ≤ findNextEffectiveArrivalTime (S.ctx cfg c) (S.core c) S.job -
          S.systemTime := Nat.floor_le_of_le harrival
      have hle := findNextEffectiveArrivalTime_le (S.ctx cfg c) (S.core c) S.job
      have hdpmThreshold : dpmThreshold = 6 := rfl
      have hK : ((S.core c).preempt S.job j).inLowPowerState = false := by
        rw [Core.preempt_core]
        exact hlow
      have hsleep := @setDpmInterval_sleeps _ ((S.core c).preempt S.job j) S.systemTime ⌊deferrable⌋₊
        rfl hK hsix (by omega)
      rw [hsleep]
      refine ⟨nofun, fun _ => ⟨j, S.systemTime + ⌊deferrable⌋₊, rfl, rfl, ?_, ?_, ?_, ?_, ?_⟩⟩
      · rfl
      · intro k hk
        have hvd : vdOf (S.job.set j { (S.job j).link with state := .ready }) = vdOf S.job :=
          funext (Jobs.set_field (·.virtualDeadline) rfl)
        have hq : SortedBy (vdOf S.job) (((S.core c).addByKind S.job j).queue k) := by
          unfold Core.addByKind
          rw [Core.queue_setQueue]
          split_ifs with hkind
          · rw [← hkind]
            exact hk.insertBy
          · exact hk
        rw [hvd]
        cases k <;> exact hq
      · omega
      · omega
      · intro critLvl h1 h2
        obtain ⟨slack, hs, hle⟩ := hslack critLvl h1 h2
        refine ⟨slack, hs, ?_⟩
        rw [Nat.add_sub_cancel_left]
        exact (Nat.floor_le hpos).trans hle

/-- What the function does is a step of the core. -/
theorem Sys.tryProcrastination_step (hp : (S.core c).pc = .procrastinate) {b : Bool} {K' : Core n}
    {J' : Jobs n} (h : S.tryProcrastination cfg c = .ok (b, K', J')) :
    PowerStep (S.ctx cfg c) (S.core c) S.job (K'.goto (if b then .summary else .dvfs)) J' := by
  obtain ⟨deferrable, hd, h⟩ := bind_eq_ok.1 h
  cases deferrable with
  | none =>
    cases h
    exact .stay hp
  | some deferrable =>
    simp only at h
    cases hr : (S.core c).runningJob with
    | none =>
      rw [hr] at h
      cases h
      exact .stay hp
    | some j =>
      rw [hr] at h
      cases h
      unfold deferrableTime nextArrivalTime at hd
      rw [findNextEffectiveArrivalTimeChecked_eq, ok_bind] at hd
      split_ifs at hd with hmax hsoon
      · cases hd
      · cases hd
      · obtain ⟨minSlack, -, hd⟩ := bind_eq_ok.1 hd
        split_ifs at hd with hslack
        · cases hd
        · obtain rfl := Option.some.inj (Except.ok.inj hd)
          exact .procrastinate hp hr hmax (not_lt.1 hsoon) (not_lt.1 hslack)

theorem Sys.tryProcrastination_allOrNothing_one :
    ∃ K' J', Sys.oneRunning.tryProcrastination (entryConfig [periodicTask 10] 1) 0 =
      .ok (true, K', J') ∧ K'.runningJob = none := by
  have hd : Sys.oneRunning.deferrableTime (entryConfig [periodicTask 10] 1) 0 = .ok (some 10) := by
    decide +kernel
  obtain ⟨K', J', h⟩ : ∃ K' J', Sys.oneRunning.tryProcrastination (entryConfig [periodicTask 10] 1) 0 =
      .ok (true, K', J') := by
    unfold Sys.tryProcrastination
    rw [hd]
    exact ⟨_, _, rfl⟩
  obtain ⟨j, E, -, -, hK, -⟩ := (Sys.tryProcrastination_allOrNothing rfl rfl h).2 rfl
  exact ⟨K', J', h, by rw [hK]⟩

end EeftSched

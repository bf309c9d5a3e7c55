/-
  What `tune_system` leaves on a core (`tools/task_allocator.py`), over exact
  arithmetic.

  * `Adjusted`: `tune_mode` moves the deadlines of one mode, of the tasks that go
    on after it;
  * `Tuned`: its bounds and its test hold at the end, and tuning a lower mode
    keeps them;
  * `Filled`, `Core.Feasible`: the cores that calls of `tune_system` lead to, and
    what they can rely on;
  * `filled_feasible`.
-/
import EeftSched.TuningLoop
import Mathlib.Tactic.IntervalCases

namespace EeftSched.TaskAllocator

open Except FoldMax

variable {m k : ℕ} {s s' : TuneState} {tasks tasks' : List Task} {t t' : Task} {l : ℤ} {i : ℕ}
  {cfg : SysConfig} {fuel : ℕ}

/-! ## The deadlines that a mode moves -/

/-- From `tasks`, by moving deadlines of mode `m` of tasks that go on after it -/
inductive Adjusted (m : ℕ) (tasks : List Task) : List Task → Prop
  | refl : Adjusted m tasks tasks
  | step {tasks' : List Task} {i : ℕ} {t : Task} {f : Task → Task} {d : ℤ}
      (h : Adjusted m tasks tasks') (hi : tasks'[i]? = some t) (hc : m < t.criticalityLevel)
      (hf : f t = t.setDeadline m d) : Adjusted m tasks (tasks'.modify i f)

namespace Adjusted

theorem forall_mem (h : Adjusted m tasks tasks') {P : Task → Prop}
    (hP : ∀ t d, m < t.criticalityLevel → P t → P (t.setDeadline m d)) (hall : ∀ t ∈ tasks, P t) :
    ∀ t ∈ tasks', P t := by
  induction h with
  | refl => exact hall
  | @step tasks' i t f d h hi hc hf ih =>
    intro u hu
    obtain ⟨j, hj⟩ := List.mem_iff_getElem?.1 hu
    rw [getElem?_modify_eq] at hj
    by_cases hij : i = j
    · subst hij
      rw [if_pos rfl, hi] at hj
      cases hj
      rw [hf]
      exact hP t d hc (ih t (List.mem_of_getElem? hi))
    · rw [if_neg hij] at hj
      exact ih u (List.mem_of_getElem? hj)

theorem map_eq {β : Type} (h : Adjusted m tasks tasks') {g : Task → β}
    (hg : ∀ t d, g (t.setDeadline m d) = g t) : tasks'.map g = tasks.map g := by
  induction h with
  | refl => rfl
  | @step tasks' i t f d h hi hc hf ih =>
    rw [← ih]
    refine List.ext_getElem? fun j => ?_
    rw [List.getElem?_map, List.getElem?_map, getElem?_modify_eq]
    by_cases hij : i = j
    · subst hij
      rw [if_pos rfl, hi]
      simp [hf, hg]
    · rw [if_neg hij]

end Adjusted

theorem clampDeadlines_adjusted {is tuning : List ℕ} {tasks₀ : List Task} {r : Option (List ℕ)}
    (h : clampDeadlines m is tasks tuning = .ok (tasks', r)) (ha : Adjusted m tasks₀ tasks)
    (his : ∀ i ∈ is, ∃ t, tasks[i]? = some t ∧ m < t.criticalityLevel) : Adjusted m tasks₀ tasks' := by
  induction is generalizing tasks tuning with
  | nil =>
    cases h
    exact ha
  | cons i is ih =>
    obtain ⟨t, ht, hc⟩ := his i List.mem_cons_self
    rw [clampDeadlines, ht] at h
    simp only at h
    split_ifs at h with hlt
    · cases h
      exact ha
    · obtain ⟨tuning', -, h⟩ := bind_eq_ok.1 h
      refine ih h (ha.step ht hc rfl) fun j hj => ?_
      obtain ⟨u, hu, hcu⟩ := his j (List.mem_cons_of_mem _ hj)
      rw [getElem?_modify_eq, hu]
      split_ifs
      · exact ⟨_, rfl, hcu⟩
      · exact ⟨u, rfl, hcu⟩

theorem scan_adjusted {lo : ℤ} (hok : s.Ok m) (h : scan m s k lo = .ok (.changed s')) :
    Adjusted m s.allCandidates s'.allCandidates := by
  induction k generalizing lo with
  | zero => cases h
  | succ k ih =>
    rw [scan] at h
    obtain ⟨overloaded, ho, h⟩ := bind_eq_ok.1 h
    cases overloaded with
    | true =>
      have hm : m = 0 := by
        by_contra hne
        rw [startOverloaded, if_neg hne] at ho
        cases ho
      subst hm
      simp only [if_true] at h
      cases hs : s.mods with
      | nil =>
        rw [hs] at h
        cases h
      | cons i mods =>
        rw [hs] at h
        obtain ⟨tuning, -, h⟩ := bind_eq_ok.1 h
        cases h
        obtain ⟨t, ht, hc⟩ := hok.mods i (by rw [hs]; exact List.mem_cons_self)
        exact .step .refl ht hc rfl
    | false =>
      simp only [Bool.false_eq_true, if_false] at h
      obtain ⟨sum, -, h⟩ := bind_eq_ok.1 h
      split_ifs at h with hgt
      · cases hs : s.tuningCandidates with
        | nil =>
          rw [hs] at h
          cases h
        | cons i is =>
          have hi : i ∈ s.tuningCandidates := by rw [hs]; exact List.mem_cons_self
          obtain ⟨target, htarget, hpick⟩ :=
            pickTarget_ok hok lo s.tuningCandidates i 0 (fun _ hj => hj) hi
          rw [hs] at h hpick
          simp only [hpick, ok_bind] at h
          obtain ⟨tuning, -, h⟩ := bind_eq_ok.1 h
          cases h
          obtain ⟨t, ht, hc, -⟩ := hok.room target htarget
          exact .step .refl ht hc rfl
      · exact ih h

theorem Adjusted.trans {tasks'' : List Task} (h : Adjusted m tasks tasks') (h' : Adjusted m tasks' tasks'') :
    Adjusted m tasks tasks'' := by
  induction h' with
  | refl => exact h
  | step _ hi hc hf ih => exact ih.step hi hc hf

/-! ## The test at the end -/

/-- The test of mode `m` at length `l`, with the one of the start for the lowest
    mode -/
def TestPasses (m : ℕ) (tasks : List Task) (l : ℤ) : Prop :=
  Passes (m + 1) tasks l ∧ (m = 0 → Passes 0 tasks l)

theorem scan_unchanged {lo : ℤ} (h : scan m s k lo = .ok .unchanged) :
    ∀ l, lo ≤ l → l < lo + k → TestPasses m s.allCandidates l := by
  induction k generalizing lo with
  | zero => exact fun l h1 h2 => by simp at h2; omega
  | succ k ih =>
    rw [scan] at h
    obtain ⟨overloaded, ho, h⟩ := bind_eq_ok.1 h
    cases overloaded with
    | true =>
      simp only [if_true] at h
      split at h
      · cases h
      · obtain ⟨tuning, -, h⟩ := bind_eq_ok.1 h
        cases h
    | false =>
      simp only [Bool.false_eq_true, if_false] at h
      obtain ⟨sum, hsum, h⟩ := bind_eq_ok.1 h
      split_ifs at h with hgt
      · split at h
        · cases h
        · obtain ⟨target, -, h⟩ := bind_eq_ok.1 h
          obtain ⟨tuning, -, h⟩ := bind_eq_ok.1 h
          cases h
      · intro l h1 h2
        rcases h1.eq_or_lt with rfl | h1
        · refine ⟨⟨sum, hsum, not_lt.1 hgt⟩, ?_⟩
          rintro rfl
          obtain ⟨sum₀, hsum₀, ho⟩ := bind_eq_ok.1 ho
          have hle : ¬sum₀ > lo := by simpa using ho
          exact ⟨sum₀, hsum₀, not_lt.1 hle⟩
        · exact ih h l (by omega) (by push_cast at h2 ⊢; omega)

/-- What `tune_mode` leaves behind at mode `m` -/
structure Tuned (m : ℕ) (tasks : List Task) : Prop where
  bounds : ∀ t ∈ tasks, m < t.criticalityLevel →
    t.wcet m ≤ t.virtualDeadline m ∧ t.virtualDeadline m ≤ t.virtualDeadline (m + 1)
  tested : (∃ t ∈ tasks, m < t.criticalityLevel) →
    ∃ lMax, computeLMax tasks m = .ok lMax ∧ ∀ l, 0 ≤ l → l ≤ lMax → TestPasses m tasks l

theorem tuneLoop_tuned (hok : s.Ok m) (h : tuneLoop m fuel s = .ok (true, tasks')) :
    Adjusted m s.allCandidates tasks' ∧ Tuned m tasks' := by
  induction fuel generalizing s with
  | zero => cases h
  | succ fuel ih =>
    rw [tuneLoop] at h
    obtain ⟨lMax, hl, h⟩ := bind_eq_ok.1 h
    obtain ⟨r, hr, h⟩ := bind_eq_ok.1 h
    cases r with
    | unchanged =>
      cases h
      refine ⟨.refl, fun t ht hc => ⟨hok.lower t ht hc, hok.upper ht hc⟩,
        fun _ => ⟨lMax, hl, fun l h0 hle => scan_unchanged hr l h0 ?_⟩⟩
      omega
    | fail => cases h
    | changed s' =>
      obtain ⟨r', hr', hnext⟩ := scan_spec hok (lMax + 1).toNat 0
      rw [hr] at hr'
      cases hr'
      obtain ⟨ha, ht⟩ := ih (hnext s' rfl).1 h
      exact ⟨(scan_adjusted hok hr).trans ha, ht⟩

theorem tuneMode_tuned (hr : ∀ t ∈ tasks, t.Regular) (h : tuneMode cfg fuel tasks m = .ok (true, tasks')) :
    Adjusted m tasks tasks' ∧ (m + 1 ≠ cfg.maxLevels → Tuned m tasks') := by
  unfold tuneMode at h
  split_ifs at h with htop hnone
  · cases h
    exact ⟨.refl, fun hne => absurd htop hne⟩
  · cases h
    have hno : ∀ t ∈ tasks, ¬m < t.criticalityLevel := by
      intro t ht hc
      obtain ⟨i, hi⟩ := List.mem_iff_getElem?.1 ht
      have hmem := mem_initialCandidates.2 ⟨t, hi, hc⟩
      rw [hnone] at hmem
      cases hmem
    exact ⟨.refl, fun _ => ⟨fun t ht hc => absurd hc (hno t ht), fun ⟨t, ht, hc⟩ => absurd hc (hno t ht)⟩⟩
  · obtain ⟨⟨tasks₁, tuning⟩, hclamp, h⟩ := bind_eq_ok.1 h
    have ha := clampDeadlines_adjusted hclamp .refl fun i hi => mem_initialCandidates.1 hi
    cases tuning with
    | none => cases h
    | some tuning =>
      obtain ⟨_, _, hclamp', hok⟩ := (clamping_start hr m).clampDeadlines_ok
      rw [hclamp] at hclamp'
      cases hclamp'
      obtain ⟨ha', ht⟩ := tuneLoop_tuned (hok tuning rfl) h
      exact ⟨ha.trans ha', fun _ => ht⟩

/-! ## What the test depends on -/

/-- The task with the deadlines of mode `m` and the next one only -/
def Task.atMode (m : ℕ) (t : Task) : Task :=
  { t with virtualDeadline := fun k => if k = m ∨ k = m + 1 then t.virtualDeadline k else 0 }

@[simp] theorem Task.atMode_self (m : ℕ) (t : Task) : (t.atMode m).virtualDeadline m = t.virtualDeadline m :=
  if_pos (.inl rfl)

@[simp] theorem Task.atMode_succ (m : ℕ) (t : Task) :
    (t.atMode m).virtualDeadline (m + 1) = t.virtualDeadline (m + 1) := if_pos (.inr rfl)

@[simp] theorem Task.atMode_wcet (m : ℕ) (t : Task) : (t.atMode m).wcet = t.wcet := rfl

@[simp] theorem Task.atMode_period (m : ℕ) (t : Task) : (t.atMode m).period = t.period := rfl

@[simp] theorem Task.atMode_criticalityLevel (m : ℕ) (t : Task) :
    (t.atMode m).criticalityLevel = t.criticalityLevel := rfl

theorem Task.atMode_setDeadline {m' : ℕ} (hm : m' < m) (t : Task) (d : ℤ) :
    (t.setDeadline m' d).atMode m = t.atMode m := by
  have hd : ∀ k, k = m ∨ k = m + 1 → (t.setDeadline m' d).virtualDeadline k = t.virtualDeadline k :=
    fun k hk => Function.update_of_ne (by omega) ..
  unfold atMode
  congr 1
  funext k
  split_ifs with hk
  · exact hd k hk
  · rfl

/-- The tasks are the same to mode `m`. -/
def Alike (m : ℕ) (tasks tasks' : List Task) : Prop :=
  (tasks.map (Task.atMode m)).Perm (tasks'.map (Task.atMode m))

namespace Alike

theorem symm (h : Alike m tasks tasks') : Alike m tasks' tasks := List.Perm.symm h

theorem of_adjusted {m' : ℕ} (h : Adjusted m' tasks tasks') (hm : m' < m) : Alike m tasks tasks' := by
  unfold Alike
  rw [h.map_eq (Task.atMode_setDeadline hm)]

theorem inMode (h : Alike m tasks tasks') (k : ℕ) : Alike m (inMode k tasks) (inMode k tasks') := by
  have hfilter := List.Perm.filter (fun t : Task => decide (k ≤ t.criticalityLevel)) h
  rw [List.filter_map, List.filter_map] at hfilter
  exact hfilter

theorem map {β : Type} (h : Alike m tasks tasks') {g : Task → β} (hg : ∀ t, g (t.atMode m) = g t) :
    (tasks.map g).Perm (tasks'.map g) := by
  have hmap := List.Perm.map g h
  rw [List.map_map, List.map_map] at hmap
  rwa [show g ∘ Task.atMode m = g from funext hg] at hmap

theorem forall_mem (h : Alike m tasks tasks') {P : Task → Prop} (hP : ∀ t, P (t.atMode m) → P t)
    (hP' : ∀ t, P t → P (t.atMode m)) (hall : ∀ t ∈ tasks, P t) : ∀ t ∈ tasks', P t := by
  intro t ht
  obtain ⟨u, hu, heq⟩ := List.mem_map.1 (List.Perm.mem_iff h |>.2 (List.mem_map_of_mem ht))
  refine hP t ?_
  rw [← heq]
  exact hP' u (hall u hu)

end Alike

theorem getModeLMax_congr {mode : ℕ} {deadline : Task → ℤ}
    (h : (tasks.map fun t => (t.wcet mode, t.period, deadline t)).Perm
      (tasks'.map fun t => (t.wcet mode, t.period, deadline t))) :
    getModeLMax mode deadline tasks = getModeLMax mode deadline tasks' := by
  have hmap : ∀ {β : Type} (g : ℤ × ℤ × ℤ → β),
      (tasks.map fun t => g (t.wcet mode, t.period, deadline t)).Perm
        (tasks'.map fun t => g (t.wcet mode, t.period, deadline t)) := by
    intro β g
    simpa [Function.comp_def] using h.map g
  cases tasks with
  | nil =>
    cases tasks' with
    | nil => rfl
    | cons t' ts' => exact absurd h.length_eq (by simp)
  | cons t ts =>
    cases tasks' with
    | nil => exact absurd h.length_eq (by simp)
    | cons t' ts' =>
      have hany : (t :: ts).any (·.period == 0) = (t' :: ts').any (·.period == 0) := by
        have hp := List.Perm.any_eq (f := id) (hmap fun x => x.2.1 == 0)
        simpa [Function.comp_def] using hp
      have hutil := (hmap fun x => (x.1 : ℚ) / x.2.1).sum_eq
      have hlcm := (hmap fun x => x.2.1.natAbs).foldr_eq (f := Nat.lcm) 1
      have hmax := foldl_max_perm (hmap fun x => x.2.2)
      have hdiff := foldl_max_perm (hmap fun x => x.2.1 - x.2.2)
      unfold getModeLMax
      simp only [hany]
      unfold maximum
      simp only [hutil, hlcm, hmax, hdiff]

theorem computeLMaxCap_congr (h : Alike m tasks tasks') (cap : ℤ) :
    computeLMaxCap cap tasks m = computeLMaxCap cap tasks' m := by
  have hm := @getModeLMax_congr _ _ m (·.virtualDeadline m) ((h.inMode m).map fun t => by simp)
  have hmp := @getModeLMax_congr _ _ (m + 1) (fun t => t.virtualDeadline (m + 1) - t.virtualDeadline m)
    ((h.inMode (m + 1)).map fun t => by simp)
  unfold computeLMaxCap
  unfold TaskAllocator.inMode at hm hmp
  rw [hm, hmp]

/-- What `dbf` computes -/
def dbfValue (k : ℕ) (l : ℤ) (t : Task) : ℤ := (dbf t k l).toOption.getD 0

theorem sumDbf_value (hr : ∀ t ∈ tasks, t.Regular) (k : ℕ) (l : ℤ) :
    sumDbf tasks k l = .ok (tasks.map (dbfValue k l)).sum := by
  have go : ∀ a : ℤ, tasks.foldlM (fun sum t => do
      let d ← dbf t k l
      .ok (sum + d)) a = (.ok (a + (tasks.map (dbfValue k l)).sum) : Py ℤ) := by
    induction tasks with
    | nil => exact fun a => congrArg _ (add_zero a).symm
    | cons t tasks ih =>
      intro a
      obtain ⟨d, hd⟩ := dbf_ok (hr t List.mem_cons_self) k l
      have hvalue : dbfValue k l t = d := by
        unfold dbfValue
        rw [hd]
        rfl
      rw [List.foldlM_cons, hd]
      refine (ih (fun u hu => hr u (List.mem_cons_of_mem _ hu)) (a + d)).trans ?_
      rw [List.map_cons, List.sum_cons, hvalue, add_assoc]
  exact (go 0).trans (by rw [zero_add])

theorem passes_congr (hr : ∀ t ∈ tasks, t.Regular) (hr' : ∀ t ∈ tasks', t.Regular)
    (h : Alike m tasks tasks') (hk : ∀ t, dbf (t.atMode m) k l = dbf t k l) :
    Passes k tasks l ↔ Passes k tasks' l := by
  have hsum := (h.map (g := dbfValue k l) fun t => by unfold dbfValue; rw [hk]).sum_eq
  unfold Passes
  rw [sumDbf_value hr, sumDbf_value hr', hsum]

theorem testPasses_congr (hr : ∀ t ∈ tasks, t.Regular) (hr' : ∀ t ∈ tasks', t.Regular)
    (h : Alike m tasks tasks') : TestPasses m tasks l ↔ TestPasses m tasks' l := by
  have hhi : ∀ t : Task, dbf (t.atMode m) (m + 1) l = dbf t (m + 1) l := fun t => by simp [dbf]
  unfold TestPasses
  rw [passes_congr hr hr' h hhi]
  refine and_congr_right fun _ => forall_congr' ?_
  rintro rfl
  exact passes_congr hr hr' h fun t => by simp [dbf]

theorem Tuned.congr (ht : Tuned m tasks) (hr : ∀ t ∈ tasks, t.Regular) (hr' : ∀ t ∈ tasks', t.Regular)
    (h : Alike m tasks tasks') : Tuned m tasks' where
  bounds := h.forall_mem (fun t => by simp) (fun t => by simp) ht.bounds
  tested := by
    rintro ⟨t', ht', hc⟩
    have hex : ∃ t ∈ tasks, m < t.criticalityLevel := by
      by_contra hno
      have hle : ∀ t ∈ tasks, ¬m < t.criticalityLevel := fun t ht hc => hno ⟨t, ht, hc⟩
      exact h.forall_mem (fun _ => id) (fun _ => id) hle t' ht' hc
    obtain ⟨lMax, hl, hpass⟩ := ht.tested hex
    refine ⟨lMax, ?_, fun l h0 hle => (testPasses_congr hr hr' h).1 (hpass l h0 hle)⟩
    rw [computeLMax, ← computeLMaxCap_congr h]
    exact hl

/-! ## All modes of a core -/

/-- A task whose deadlines tuning may have moved -/
structure Task.Sound (t : Task) : Prop where
  regular : t.Regular
  le_period : t.deadline ≤ t.period
  top : ∀ k, t.criticalityLevel ≤ k → t.virtualDeadline k = t.deadline

theorem Task.Sound.setDeadline (h : t.Sound) (hc : m < t.criticalityLevel) (d : ℤ) :
    (t.setDeadline m d).Sound where
  regular := ⟨h.regular.period, h.regular.wcet⟩
  le_period := h.le_period
  top k hk := by
    have hne : k ≠ m := fun heq => absurd hc (not_lt.2 (heq ▸ hk))
    exact (Function.update_of_ne hne ..).trans (h.top k hk)

theorem Task.Sound.reset (hr : t.Regular) (hd : t.deadline ≤ t.period) : t.resetVirtualDeadlines.Sound where
  regular := ⟨hr.period, hr.wcet⟩
  le_period := hd
  top _ _ := rfl

/-- The deadlines only grow towards the task's own one. -/
theorem Task.Sound.le_deadline (h : t.Sound)
    (hb : ∀ m, m < t.criticalityLevel → t.virtualDeadline m ≤ t.virtualDeadline (m + 1)) (k : ℕ) :
    t.virtualDeadline k ≤ t.deadline := by
  induction hn : t.criticalityLevel - k generalizing k with
  | zero => exact (h.top k (by omega)).le
  | succ n ih => exact (hb k (by omega)).trans (ih (k + 1) (by omega))

/-- The levels are numbered from 0. -/
def SysConfig.Numbered (cfg : SysConfig) : Prop := ∀ m < cfg.maxLevels, ∃ level, (level, m) ∈ cfg.levels

namespace Core

/-- The tasks on a core -/
def assigned (core : Core) : List Task := core.assignedPrimaries ++ core.assignedReplicas

variable {core core' : Core} {task task' : Task} {levels : List (String × ℕ)}

theorem tuneLevels_fits (h : tuneLevels cfg fuel core task levels tasks = .ok (true, tasks')) :
    ∀ x ∈ levels, core.overloaded cfg task x.1 x.2 = .ok false := by
  induction levels generalizing tasks with
  | nil => exact nofun
  | cons x levels ih =>
    obtain ⟨level, n⟩ := x
    rw [tuneLevels] at h
    obtain ⟨overloaded, ho, h⟩ := bind_eq_ok.1 h
    cases overloaded with
    | true => cases h
    | false =>
      simp only [Bool.false_eq_true, if_false] at h
      obtain ⟨⟨success, tasks₁⟩, -, h⟩ := bind_eq_ok.1 h
      cases success with
      | false => cases h
      | true =>
        rintro x (_ | ⟨_, hx⟩)
        · exact ho
        · exact ih h x hx

/-- The levels are handled from the top down; what is tuned stays tuned. -/
theorem tuneLevels_tuned (hs : levels.Pairwise fun a b => b.2 ≤ a.2) (ht : ∀ t ∈ tasks, t.Sound)
    (h : tuneLevels cfg fuel core task levels tasks = .ok (true, tasks')) :
    (∀ t ∈ tasks', t.Sound) ∧
      (∀ m, (∀ x ∈ levels, x.2 < m) → Tuned m tasks → Tuned m tasks') ∧
      ∀ x ∈ levels, x.2 + 1 ≠ cfg.maxLevels → Tuned x.2 tasks' := by
  induction levels generalizing tasks with
  | nil =>
    cases h
    exact ⟨ht, fun _ _ h => h, nofun⟩
  | cons x levels ih =>
    obtain ⟨level, n⟩ := x
    obtain ⟨hle, hs⟩ := List.pairwise_cons.1 hs
    rw [tuneLevels] at h
    obtain ⟨overloaded, -, h⟩ := bind_eq_ok.1 h
    cases overloaded with
    | true => cases h
    | false =>
      simp only [Bool.false_eq_true, if_false] at h
      obtain ⟨⟨success, tasks₁⟩, hm, h⟩ := bind_eq_ok.1 h
      cases success with
      | false => cases h
      | true =>
        obtain ⟨ha, htuned⟩ := tuneMode_tuned (fun t hmem => (ht t hmem).regular) hm
        have ht₁ := ha.forall_mem (fun t d hc hsound => hsound.setDeadline hc d) ht
        obtain ⟨hsound, hkeep, hall⟩ := ih hs ht₁ h
        refine ⟨hsound, fun m hlt hold => ?_, ?_⟩
        · have hn : n < m := hlt _ List.mem_cons_self
          refine hkeep m (fun x hx => hlt x (List.mem_cons_of_mem _ hx)) ?_
          exact hold.congr (fun t h => (ht t h).regular) (fun t h => (ht₁ t h).regular)
            (Alike.of_adjusted ha hn)
        · rintro x (_ | ⟨_, hx⟩) hne
          · -- the same number may come again
            by_cases hagain : ∃ y ∈ levels, y.2 = n
            · obtain ⟨y, hy, rfl⟩ := hagain
              exact hall y hy hne
            · refine hkeep n (fun y hy => lt_of_le_of_ne (hle y hy) fun heq => hagain ⟨y, hy, heq⟩) ?_
              exact htuned hne
          · exact hall x hx hne

/-! ## One call -/

theorem put_perm (hlen : tasks'.length = core.assigned.length + 1) (allocationType : TaskType) :
    ((core.put task tasks').1.assign (core.put task tasks').2 allocationType).assigned.Perm tasks' := by
  obtain ⟨t, rest, hrev⟩ := List.exists_cons_of_length_eq_add_one (List.length_reverse ▸ hlen)
  obtain rfl : tasks' = rest.reverse ++ [t] := by simpa using congrArg List.reverse hrev
  have hrest : rest.reverse.length = core.assignedPrimaries.length + core.assignedReplicas.length := by
    simpa [assigned] using hlen
  set ps := rest.reverse.take core.assignedPrimaries.length
  set rs := rest.reverse.drop core.assignedPrimaries.length
  have hsplit : rest.reverse = ps ++ rs := (List.take_append_drop _ _).symm
  have hps : ps.length = core.assignedPrimaries.length := by
    simp only [ps, List.length_take]
    omega
  have hrs : rs.length = core.assignedReplicas.length := by
    simp only [rs, List.length_drop]
    omega
  have hput : core.put task (rest.reverse ++ [t]) =
      ({ core with assignedPrimaries := ps, assignedReplicas := rs }, t) := by
    unfold put
    simp only
    rw [hsplit, ← hps, ← hrs, List.append_assoc, List.take_left, List.drop_left, List.take_left,
      ← List.append_assoc, List.getLast?_append]
    rfl
  rw [hput, hsplit]
  cases allocationType with
  | primary =>
    show (ps ++ [t] ++ rs).Perm (ps ++ rs ++ [t])
    rw [List.append_assoc, List.append_assoc]
    exact List.perm_append_comm.append_left ps
  | replica =>
    show (ps ++ (rs ++ [t])).Perm (ps ++ rs ++ [t])
    rw [List.append_assoc]

/-- A call either leaves the core as it is, or tunes its tasks and the new one. -/
theorem tuneSystem_cases {allocationType : TaskType} {commit b : Bool}
    (hn : ((core.assigned ++ [task]).map Task.id).Nodup)
    (h : core.tuneSystem cfg fuel task allocationType commit = .ok (b, core', task')) :
    core' = core ∨ ∃ tasks', tuneLevels cfg fuel core task cfg.levelsHighToLow
        ((core.assigned ++ [task]).map Task.resetVirtualDeadlines) = .ok (true, tasks') ∧
      bases tasks' = bases (core.assigned ++ [task]) ∧ core'.assigned.Perm tasks' ∧ ∀ level k, (level, k) ∈ cfg.levels →
        core'.utilization level = core.utilization level + utilizationShare task k := by
  obtain ⟨⟨success, tasks'⟩, ht, h⟩ := bind_eq_ok.1 h
  have hb : bases tasks' = bases (core.assigned ++ [task]) := by
    rw [bases_tuneLevels ht]
    unfold bases
    rw [List.map_map]
    rfl
  simp only at h
  by_cases hc : success = false ∨ commit = false
  · have hrestore := restoreDeadlines_eq hn hb
    unfold assigned at hrestore
    rw [if_pos hc, hrestore, put_affected] at h
    cases h
    exact .inl rfl
  · rw [if_neg hc] at h
    obtain ⟨utilization, hu, h⟩ := bind_eq_ok.1 h
    cases h
    rw [not_or, Bool.not_eq_false] at hc
    obtain ⟨rfl, -⟩ := hc
    refine .inr ⟨tasks', ht, hb, ?_, fun level k hk => ?_⟩
    · refine put_perm ?_ allocationType
      have hlen := congrArg List.length hb
      simpa [bases] using hlen
    · have hshare : utilizationShare (core.put task tasks').2 k = utilizationShare task k := by
        show utilizationShare (core.put task tasks').2.base k = _
        rw [(put_spec hb).2.2]
        rfl
      have hgrows := (addUtilization_spec hu).1 level k hk
      rw [hshare] at hgrows
      refine hgrows.trans ?_
      cases allocationType <;> rfl

theorem overloaded_eq_false {level : String} (hl : (level, k) ∈ cfg.levels) (hk : k ≤ task.criticalityLevel)
    (h : core.overloaded cfg task level k = .ok false) :
    core.utilization level + utilizationShare task k ≤ 1 := by
  rw [overloaded, if_pos hk] at h
  obtain ⟨u, hu, h⟩ := bind_eq_ok.1 h
  unfold Task.getUtilization at hu
  rw [lookup_of_mem cfg.nodup hl] at hu
  simp only at hu
  split_ifs at hu
  cases hu
  rw [utilizationShare, if_pos hk]
  simpa using h

theorem modeUtilization_eq (k : ℕ) (tasks : List Task) :
    modeUtilization k tasks = (tasks.map (utilizationShare · k)).sum := by
  unfold modeUtilization
  induction tasks with
  | nil => rfl
  | cons t tasks ih =>
    rw [List.map_cons, List.sum_cons, ← ih]
    by_cases hk : k ≤ t.criticalityLevel
    · rw [inMode_cons_of_le hk, List.map_cons, List.sum_cons, utilizationShare, if_pos hk]
    · rw [inMode_cons_of_lt (not_le.1 hk), utilizationShare, if_neg hk, zero_add]

end Core

/-! ## Feasible cores -/

/-- The cores that calls of `tune_system` lead to. A core gets no two tasks with
    one id: replicas go to other processors. -/
inductive Filled (cfg : SysConfig) : Core → Prop
  | new (id processorId : ℕ) : Filled cfg (Core.new id processorId)
  | call {core core' : Core} {task task' : Task} {fuel : ℕ} {allocationType : TaskType} {commit b : Bool}
      (h : Filled cfg core) (hd : task.deadline ≤ task.period) (hw : ∀ k, task.wcet k ≤ task.wcet (k + 1))
      (hc : task.criticalityLevel < cfg.maxLevels)
      (hn : ((core.assigned ++ [task]).map Task.id).Nodup)
      (hr : core.tuneSystem cfg fuel task allocationType commit = .ok (b, core', task')) :
      Filled cfg core'

/-- The cap of `compute_l_max` cuts nothing off. -/
def Uncapped (m : ℕ) (tasks : List Task) : Prop :=
  ∃ lMax, computeLMaxCap 0 tasks m = .ok lMax ∧ lMax ≤ lMaxCap

/-- **A feasible core.** -/
structure Core.Feasible (cfg : SysConfig) (core : Core) : Prop where
  deadlines : ∀ t ∈ core.assigned, ∀ m, m < t.criticalityLevel →
    t.virtualDeadline m ≤ t.virtualDeadline (m + 1) ∧ t.wcet m ≤ t.virtualDeadline m
  utilization : ∀ level k, (level, k) ∈ cfg.levels →
    core.utilization level = modeUtilization k core.assigned ∧ core.utilization level ≤ 1
  /-- the test of each mode below the top one -/
  modes : ∀ m, m + 1 < cfg.maxLevels → ∀ l, 0 ≤ l → l ≤ lMaxCap ∨ Uncapped m core.assigned →
    Passes (m + 1) core.assigned l
  /-- the test of the lowest mode in itself, unless all tasks are of that mode -/
  start : (∃ t ∈ core.assigned, 0 < t.criticalityLevel) → ∀ l, 0 ≤ l →
    l ≤ lMaxCap ∨ Uncapped 0 core.assigned → Passes 0 core.assigned l

theorem passes_of_none (h : ∀ t ∈ tasks, t.criticalityLevel < k) (hl : 0 ≤ l) : Passes k tasks l := by
  have hnone : inMode k tasks = [] := by
    refine List.filter_eq_nil_iff.2 fun t ht => ?_
    have := h t ht
    simp only [decide_eq_true_eq]
    omega
  refine (passes_iff (fun t ht hk => absurd (h t ht) (not_lt.2 hk)) hl).2 ?_
  rw [hnone]
  exact hl

/-- The lengths tested suffice. -/
theorem Tuned.testPasses (ht : Tuned m tasks) (hs : ∀ t ∈ tasks, t.Sound)
    (hb : ∀ t ∈ tasks, ∀ m, m < t.criticalityLevel → t.virtualDeadline m ≤ t.virtualDeadline (m + 1))
    (hex : ∃ t ∈ tasks, m < t.criticalityLevel) (hu : modeUtilization m tasks ≤ 1)
    (hu' : modeUtilization (m + 1) tasks ≤ 1) (hl : 0 ≤ l) (hcap : l ≤ lMaxCap ∨ Uncapped m tasks) :
    TestPasses m tasks l := by
  obtain ⟨lMax, hlMax, hpass⟩ := ht.tested hex
  have hperiod : ∀ t ∈ tasks, 1 ≤ t.period := fun t h => (hs t h).regular.period
  obtain ⟨b, b', hbm, hbm', h0⟩ := computeLMaxCap_ok 0 hperiod m
  obtain ⟨c, c', hcm, hcm', h1⟩ := computeLMaxCap_ok lMaxCap hperiod m
  obtain rfl : b = c := Except.ok.inj (hbm.symm.trans hcm)
  obtain rfl : b' = c' := Except.ok.inj (hbm'.symm.trans hcm')
  rw [if_neg (lt_irrefl _)] at h0
  rw [if_pos (by norm_num [lMaxCap])] at h1
  obtain rfl := Except.ok.inj (hlMax.symm.trans h1)
  by_cases hle : truncate (max b b') ≤ lMaxCap
  · rw [min_eq_right hle] at hpass
    have hdeadline : ∀ t ∈ tasks, ∀ k, t.virtualDeadline k ≤ t.period := fun t h k =>
      ((hs t h).le_deadline (hb t h) k).trans (hs t h).le_period
    have hbounds : ∀ t ∈ tasks, m < t.criticalityLevel → 0 ≤ t.virtualDeadline m ∧
        0 ≤ t.relDeadline (m + 1) := by
      intro t h hc
      obtain ⟨h1, h2⟩ := ht.bounds t h hc
      exact ⟨((hs t h).regular.wcet m).trans h1, sub_nonneg.2 h2⟩
    constructor
    · refine passes_of_passes_below (fun t h hk => ?_) (exists_nonneg fun t h => ?_) hu' hbm'
        (truncate_mono (le_max_right _ _)) (fun l h0 hle => (hpass l h0 hle).1) l hl
      · refine ⟨(hs t h).regular.period, (hs t h).regular.wcet _, ?_⟩
        have hnonneg := (hbounds t h hk).1
        have hmax := hdeadline t h (m + 1)
        show t.virtualDeadline (m + 1) - t.virtualDeadline m ≤ t.period
        omega
      · obtain ⟨h, hk⟩ := List.mem_filter.1 h
        exact (hbounds t h (of_decide_eq_true hk)).2
    · rintro rfl
      refine passes_of_passes_below (fun t h _ => ?_) (fun _ => ?_) hu hbm
        (truncate_mono (le_max_left _ _)) (fun l h0 hle => (hpass l h0 hle).2 rfl) l hl
      · exact ⟨(hs t h).regular.period, (hs t h).regular.wcet _, hdeadline t h 0⟩
      · obtain ⟨t, h, hc⟩ := hex
        exact ⟨t, List.mem_filter.2 ⟨h, decide_eq_true (Nat.zero_le _)⟩, (hbounds t h hc).1⟩
  · rw [min_eq_left (not_le.1 hle).le] at hpass
    refine hpass l hl (hcap.resolve_right ?_)
    rintro ⟨lMax, hlMax, hle'⟩
    rw [h0] at hlMax
    cases hlMax
    exact hle hle'

theorem exists_base (h : bases tasks' = bases tasks) (ht : t ∈ tasks') : ∃ u ∈ tasks, u.base = t.base := by
  have hmem : t.base ∈ bases tasks' := List.mem_map_of_mem ht
  rw [h] at hmem
  exact List.mem_map.1 hmem

/-- Tuning moves nothing but deadlines of modes. -/
theorem Task.base_fields {u : Task} (h : u.base = t.base) : u.deadline = t.deadline ∧ u.period = t.period ∧
    u.criticalityLevel = t.criticalityLevel ∧ u.wcet = t.wcet := by
  have hd : u.base.deadline = t.base.deadline := congrArg Task.deadline h
  have hp : u.base.period = t.base.period := congrArg Task.period h
  have hc : u.base.criticalityLevel = t.base.criticalityLevel := congrArg Task.criticalityLevel h
  have hw : u.base.wcet = t.base.wcet := congrArg Task.wcet h
  exact ⟨hd, hp, hc, hw⟩

theorem mem_levelsHighToLow {x : String × ℕ} : x ∈ cfg.levelsHighToLow ↔ x ∈ cfg.levels :=
  (List.perm_insertionSort _ _).mem_iff

theorem pairwise_levelsHighToLow (cfg : SysConfig) :
    cfg.levelsHighToLow.Pairwise fun a b => b.2 ≤ a.2 := by
  have htotal : Std.Total fun a b : String × ℕ => b.2 ≤ a.2 := ⟨fun a b => le_total b.2 a.2⟩
  have htrans : IsTrans (String × ℕ) fun a b => b.2 ≤ a.2 := ⟨fun _ _ _ hab hbc => hbc.trans hab⟩
  exact List.pairwise_insertionSort _ _

namespace Filled

open TaskAllocator.Core

variable {core : Core}

/-- The utilization that a core records, and what its tasks look like -/
theorem limits (h : Filled cfg core) :
    (∀ t ∈ core.assigned, t.deadline ≤ t.period ∧ t.criticalityLevel < cfg.maxLevels) ∧
      ∀ level k, (level, k) ∈ cfg.levels →
        core.utilization level = modeUtilization k core.assigned ∧ core.utilization level ≤ 1 := by
  induction h with
  | new id processorId => exact ⟨nofun, fun level k _ => ⟨rfl, zero_le_one⟩⟩
  | @call core core' task task' fuel allocationType commit b h hd hw hc hn hr ih =>
    rcases tuneSystem_cases hn hr with rfl | ⟨tasks', ht, hb, hperm, hutil⟩
    · exact ih
    obtain ⟨htasks, hlevels⟩ := ih
    constructor
    · intro t hmem
      obtain ⟨u, hu, hbase⟩ := exists_base hb (hperm.subset hmem)
      obtain ⟨hdeadline, hperiod, hlevel, -⟩ := Task.base_fields hbase
      rw [← hdeadline, ← hperiod, ← hlevel]
      rcases List.mem_append.1 hu with hu | hu
      · exact htasks u hu
      · obtain rfl := List.mem_singleton.1 hu
        exact ⟨hd, hc⟩
    · intro level k hk
      obtain ⟨heq, hle⟩ := hlevels level k hk
      rw [hutil level k hk]
      constructor
      · -- the shares are those of the tasks before they were tuned
        have hbases : tasks'.map (utilizationShare · k) =
            (core.assigned ++ [task]).map (utilizationShare · k) := by
          have hmap := congrArg (List.map (utilizationShare · k)) hb
          unfold bases at hmap
          rw [List.map_map, List.map_map] at hmap
          exact hmap
        rw [heq, modeUtilization_eq, modeUtilization_eq, (hperm.map _).sum_eq, hbases, List.map_append,
          List.sum_append, List.map_singleton, List.sum_singleton]
      · by_cases hkc : k ≤ task.criticalityLevel
        · exact overloaded_eq_false hk hkc (tuneLevels_fits ht _ (mem_levelsHighToLow.2 hk))
        · rw [utilizationShare, if_neg hkc, add_zero]
          exact hle

end Filled

/-- **The cores that the allocator fills are feasible**, as far as its tests go:
    up to the cap, and in the lowest mode for cores that have a task above it. -/
theorem filled_feasible {core : Core} (hcfg : cfg.Numbered) (h : Filled cfg core)
    (hr : ∀ t ∈ core.assigned, t.Regular) : core.Feasible cfg := by
  have hlimits := h.limits
  induction h with
  | new id processorId =>
    exact ⟨nofun, hlimits.2, fun m _ l hl _ => passes_of_none nofun hl, fun ⟨t, ht, _⟩ => nomatch ht⟩
  | @call core core' task task' fuel allocationType commit b h hd hw hc hn hcall ih =>
    rcases Core.tuneSystem_cases hn hcall with rfl | ⟨tasks', ht, hb, hperm, -⟩
    · exact ih hr hlimits
    have hreset : ∀ t ∈ (core.assigned ++ [task]).map Task.resetVirtualDeadlines, t.Sound := by
      intro t hmem
      obtain ⟨u, hu, rfl⟩ := List.mem_map.1 hmem
      obtain ⟨v, hv, hbase⟩ := exists_base hb.symm hu
      have hreg := hr v (hperm.symm.subset hv)
      obtain ⟨-, hperiod, -, hwcet⟩ := Task.base_fields hbase
      refine .reset ⟨hperiod ▸ hreg.period, hwcet ▸ hreg.wcet⟩ ?_
      rcases List.mem_append.1 hu with hu | hu
      · exact (h.limits.1 u hu).1
      · obtain rfl := List.mem_singleton.1 hu
        exact hd
    obtain ⟨hsound, -, htuned⟩ := Core.tuneLevels_tuned (pairwise_levelsHighToLow cfg) hreset ht
    have hsound' : ∀ t ∈ core'.assigned, t.Sound := fun t h => hsound t (hperm.subset h)
    have hmode : ∀ m, m + 1 < cfg.maxLevels → Tuned m core'.assigned := by
      intro m hm
      obtain ⟨level, hl⟩ := hcfg m (by omega)
      exact (htuned (level, m) (mem_levelsHighToLow.2 hl) (by simp; omega)).congr
        (fun t h => (hsound t h).regular) hr (hperm.symm.map _)
    have hdeadlines : ∀ t ∈ core'.assigned, ∀ m, m < t.criticalityLevel →
        t.virtualDeadline m ≤ t.virtualDeadline (m + 1) ∧ t.wcet m ≤ t.virtualDeadline m := by
      intro t hmem m hm
      have hcl := (hlimits.1 t hmem).2
      exact ((hmode m (by omega)).bounds t hmem hm).symm
    have hutil : ∀ k < cfg.maxLevels, modeUtilization k core'.assigned ≤ 1 := by
      intro k hk
      obtain ⟨level, hl⟩ := hcfg k hk
      obtain ⟨heq, hle⟩ := hlimits.2 level k hl
      rwa [heq] at hle
    have htest : ∀ m, m + 1 < cfg.maxLevels → (∃ t ∈ core'.assigned, m < t.criticalityLevel) → ∀ l, 0 ≤ l →
        l ≤ lMaxCap ∨ Uncapped m core'.assigned → TestPasses m core'.assigned l :=
      fun m hm hex l hl hcap => (hmode m hm).testPasses hsound' (fun t h m hm => (hdeadlines t h m hm).1)
        hex (hutil m (by omega)) (hutil (m + 1) hm) hl hcap
    refine ⟨hdeadlines, hlimits.2, fun m hm l hl hcap => ?_, fun hex l hl hcap => ?_⟩
    · by_cases hex : ∃ t ∈ core'.assigned, m < t.criticalityLevel
      · exact (htest m hm hex l hl hcap).1
      · exact passes_of_none (fun t h => by
          have : ¬m < t.criticalityLevel := fun hc => hex ⟨t, h, hc⟩
          omega) hl
    · obtain ⟨t, h, hpos⟩ := hex
      have hcl := (hlimits.1 t h).2
      exact (htest 0 (by omega) ⟨t, h, hpos⟩ l hl hcap).2 rfl

/-! ## What the tests miss -/

theorem scan_of_passes {lo : ℤ} (h : ∀ l, lo ≤ l → l < lo + k → TestPasses m s.allCandidates l) :
    scan m s k lo = .ok .unchanged := by
  induction k generalizing lo with
  | zero => rfl
  | succ k ih =>
    obtain ⟨⟨sum, hsum, hle⟩, hstart⟩ := h lo le_rfl (by push_cast; omega)
    have ho : startOverloaded m s.allCandidates lo = .ok false := by
      unfold startOverloaded
      split_ifs with hm
      · obtain ⟨sum₀, hsum₀, hle₀⟩ := hstart hm
        rw [hsum₀]
        show (Except.ok (decide (sum₀ > lo)) : Py Bool) = .ok false
        rw [decide_eq_false (not_lt.2 hle₀)]
      · rfl
    rw [scan, ho]
    simp only [ok_bind, Bool.false_eq_true, if_false, hsum, if_neg (not_lt.2 hle)]
    exact ih fun l h1 h2 => h l (by omega) (by push_cast at h2 ⊢; omega)

/-- Its deadlines have not been tuned. -/
def Task.Untuned (t : Task) : Prop := ∀ k, t.virtualDeadline k = t.deadline

theorem Task.Untuned.reset (h : t.Untuned) : t.resetVirtualDeadlines = t := by
  have hvd : (fun _ => t.deadline) = t.virtualDeadline := funext fun k => (h k).symm
  unfold resetVirtualDeadlines
  rw [hvd]

theorem clampDeadlines_untuned {is tuning : List ℕ} (hu : ∀ t ∈ tasks, t.Untuned)
    (his : ∀ i ∈ is, ∃ t, tasks[i]? = some t ∧ t.wcet m < t.deadline) :
    clampDeadlines m is tasks tuning = .ok (tasks, some tuning) := by
  induction is with
  | nil => rfl
  | cons i is ih =>
    obtain ⟨t, ht, hw⟩ := his i List.mem_cons_self
    have hvd : ∀ k, t.virtualDeadline k = t.deadline := hu t (List.mem_of_getElem? ht)
    have hupdate : Function.update t.virtualDeadline m t.deadline = t.virtualDeadline := by
      rw [← hvd m, Function.update_eq_self]
    have hself : t.setDeadline m t.deadline = t := by
      unfold Task.setDeadline
      rw [hupdate]
    have hmodify : tasks.modify i (Task.setDeadline m t.deadline) = tasks := by
      refine List.ext_getElem? fun j => ?_
      rw [getElem?_modify_eq]
      split_ifs with hij
      · subst hij
        rw [ht, Option.map_some, hself]
      · rfl
    rw [clampDeadlines, ht]
    simp only [hvd, min_self, if_neg (not_lt.2 hw.le), hmodify]
    unfold removeTight
    rw [ht]
    simp only [hvd, if_neg hw.ne', ok_bind]
    exact ih fun j hj => his j (List.mem_cons_of_mem _ hj)

/-- The deadlines stay if the test passes with them. -/
theorem tuneMode_untuned {lMax : ℤ} (hu : ∀ t ∈ tasks, t.Untuned)
    (hw : ∀ t ∈ tasks, m < t.criticalityLevel → t.wcet m < t.deadline)
    (hl : computeLMax tasks m = .ok lMax) (hpass : ∀ l, 0 ≤ l → l ≤ lMax → TestPasses m tasks l) :
    tuneMode cfg (fuel + 1) tasks m = .ok (true, tasks) := by
  unfold tuneMode
  split_ifs
  · rfl
  · rfl
  · rw [clampDeadlines_untuned hu fun i hi => ?_]
    · simp only [ok_bind, tuneLoop, hl]
      rw [scan_of_passes fun l h0 h1 => hpass l h0 (by omega)]
      rfl
    · obtain ⟨t, ht, hc⟩ := mem_initialCandidates.1 hi
      exact ⟨t, ht, hw t (List.mem_of_getElem? ht) hc⟩

namespace Filled

open TaskAllocator.Core

variable {core : Core} {task : Task}

/-- A core of two levels without replicas gets one more primary. -/
theorem add (h : Filled twoLevels core) (hrep : core.assignedReplicas = [])
    (hu : ∀ t ∈ core.assigned ++ [task], t.Untuned) (hp : task.period ≠ 0)
    (hd : task.deadline ≤ task.period) (hw : ∀ k, task.wcet k ≤ task.wcet (k + 1)) (hc : task.criticalityLevel < 2)
    (hn : ((core.assigned ++ [task]).map Task.id).Nodup)
    (hfit : ∀ k ≤ task.criticalityLevel, modeUtilization k (core.assigned ++ [task]) ≤ 1)
    (hm : tuneMode twoLevels 1 (core.assigned ++ [task]) 0 = .ok (true, core.assigned ++ [task])) :
    ∃ core', Filled twoLevels core' ∧ core'.assignedReplicas = [] ∧
      core'.assigned = core.assigned ++ [task] := by
  have hget : ∀ level k, (level, k) ∈ twoLevels.levels →
      task.getUtilization twoLevels level = .ok (task.wcet k / task.period) := by
    intro level k hk
    unfold Task.getUtilization
    rw [lookup_of_mem twoLevels.nodup hk]
    exact if_neg hp
  have hfree : ∀ level k, (level, k) ∈ twoLevels.levels →
      core.overloaded twoLevels task level k = .ok false := by
    intro level k hk
    unfold overloaded
    split_ifs with hkc
    · have hfit' := hfit k hkc
      rw [modeUtilization_eq, List.map_append, List.sum_append, ← modeUtilization_eq,
        ← (h.limits.2 level k hk).1, List.map_singleton, List.sum_singleton, utilizationShare,
        if_pos hkc] at hfit'
      rw [hget level k hk]
      show (Except.ok (decide (core.utilization level + task.wcet k / task.period > 1)) : Py Bool) = _
      rw [decide_eq_false (not_lt.2 hfit')]
    · rfl
  have hreset : (core.assigned ++ [task]).map Task.resetVirtualDeadlines = core.assigned ++ [task] :=
    (List.map_congr_left fun t ht => (hu t ht).reset).trans (List.map_id _)
  have hlevels : tuneLevels twoLevels 1 core task twoLevels.levelsHighToLow
      ((core.assigned ++ [task]).map Task.resetVirtualDeadlines) = .ok (true, core.assigned ++ [task]) := by
    have hsorted : twoLevels.levelsHighToLow = [("HI", 1), ("QM", 0)] := rfl
    have htop : tuneMode twoLevels 1 (core.assigned ++ [task]) 1 = .ok (true, core.assigned ++ [task]) := rfl
    rw [hreset, hsorted]
    simp only [tuneLevels, hfree "HI" 1 (by decide), hfree "QM" 0 (by decide), htop, hm, ok_bind,
      Bool.false_eq_true, if_false, if_true]
  obtain ⟨u, hutil⟩ : ∃ u, addUtilization twoLevels task core.utilization = .ok u := by
    unfold addUtilization
    refine not_fails_iff.1 (not_fails_foldlM (fun u x hx => ?_) _)
    obtain ⟨level, k⟩ := x
    simp only
    split_ifs
    · rw [hget level k hx]
      exact not_fails_ok _
    · exact not_fails_ok _
  have hcall : core.tuneSystem twoLevels 1 task .primary true =
      .ok (true, { core.assign task .primary with utilization := u }, task) := by
    unfold tuneSystem
    unfold Core.assigned at hlevels
    simp only [hlevels, ok_bind, put_affected]
    simp only [reduceCtorEq, or_self, if_false]
    have hsame : (core.assign task .primary).utilization = core.utilization := rfl
    rw [hsame, hutil]
    rfl
  refine ⟨_, h.call hd hw hc hn hcall, hrep, ?_⟩
  show core.assignedPrimaries ++ [task] ++ core.assignedReplicas = _
  rw [Core.assigned, hrep, List.append_nil, List.append_nil]

end Filled

/-- A task with one deadline and one execution time for all levels -/
def flatTask (id criticalityLevel : ℕ) (period deadline wcet : ℤ) : Task :=
  ⟨id, period, deadline, fun _ => deadline, "", fun _ => wcet, 0, criticalityLevel, []⟩

theorem flatTask_untuned {tasks : List Task} (h : ∀ t ∈ tasks, ∃ i c p d w, t = flatTask i c p d w) :
    ∀ t ∈ tasks, t.Untuned := by
  intro t ht
  obtain ⟨i, c, p, d, w, rfl⟩ := h t ht
  exact fun _ => rfl

theorem flatTask_untuned_pair {c c' : ℕ} {p d w p' d' w' : ℤ} :
    ∀ t ∈ [flatTask 1 c p d w, flatTask 2 c' p' d' w'], t.Untuned := by
  refine flatTask_untuned fun t ht => ?_
  rcases List.mem_pair.1 ht with rfl | rfl
  · exact ⟨1, c, p, d, w, rfl⟩
  · exact ⟨2, c', p', d', w', rfl⟩

section Flat

variable {c : ℕ} {p d w p' d' w' : ℤ}

/-- The first task of a core -/
theorem Filled.first (hp : p ≠ 0) (hd : d ≤ p) (hc : c < 2) (hu : (w : ℚ) / p ≤ 1)
    (hm : tuneMode twoLevels 1 [flatTask 1 c p d w] 0 = .ok (true, [flatTask 1 c p d w])) :
    ∃ core, Filled twoLevels core ∧ core.assignedReplicas = [] ∧ core.assigned = [flatTask 1 c p d w] := by
  refine (Filled.new 0 0).add rfl (flatTask_untuned fun t ht => ?_) hp hd (fun _ => le_rfl) hc
    (List.nodup_singleton _) (fun k hk => ?_) hm
  · exact ⟨1, c, p, d, w, List.mem_singleton.1 ht⟩
  · show modeUtilization k [flatTask 1 c p d w] ≤ 1
    rw [modeUtilization, inMode_cons_of_le (show k ≤ (flatTask 1 c p d w).criticalityLevel from hk)]
    simpa [inMode, flatTask] using hu

/-- A second one of the lowest level -/
theorem Filled.second {core : Core} (h : Filled twoLevels core) (hrep : core.assignedReplicas = [])
    (hcore : core.assigned = [flatTask 1 c p d w]) (hp : p' ≠ 0) (hd : d' ≤ p')
    (hu : (w : ℚ) / p + w' / p' ≤ 1)
    (hm : tuneMode twoLevels 1 [flatTask 1 c p d w, flatTask 2 0 p' d' w'] 0 =
      .ok (true, [flatTask 1 c p d w, flatTask 2 0 p' d' w'])) :
    ∃ core, Filled twoLevels core ∧ core.assigned = [flatTask 1 c p d w, flatTask 2 0 p' d' w'] := by
  have hmem : ∀ t ∈ [flatTask 1 c p d w, flatTask 2 0 p' d' w'], t.Untuned := flatTask_untuned_pair
  have hfit : ∀ k ≤ 0, modeUtilization k [flatTask 1 c p d w, flatTask 2 0 p' d' w'] ≤ 1 := by
    intro k hk
    obtain rfl : k = 0 := Nat.le_zero.1 hk
    simpa [modeUtilization, inMode, flatTask] using hu
  have hadd := @Filled.add core (flatTask 2 0 p' d' w') h hrep
  rw [hcore] at hadd
  obtain ⟨core', h', -, hcore'⟩ :=
    hadd hmem hp hd (fun _ => le_rfl) Nat.zero_lt_two (by simp [flatTask]) hfit hm
  exact ⟨core', h', hcore'⟩

end Flat

theorem twoLevels_numbered : twoLevels.Numbered := by
  intro m hm
  have hlt : m < 2 := hm
  interval_cases m
  · exact ⟨"QM", List.mem_cons_self⟩
  · exact ⟨"HI", List.mem_cons_of_mem _ List.mem_cons_self⟩

/-- A core with one task of half the processor passes the tests at every length. -/
theorem filled_feasible_high : ∃ core, Filled twoLevels core ∧ core.assigned = [flatTask 1 1 10 10 5] ∧
    ∀ l, 0 ≤ l → Passes 1 core.assigned l ∧ Passes 0 core.assigned l := by
  have hcap : computeLMaxCap 0 [flatTask 1 1 10 10 5] 0 = .ok 10 := by
    norm_num [computeLMaxCap, getModeLMax, flatTask, maximum, truncate, lMaxCap]
  have hl : computeLMax [flatTask 1 1 10 10 5] 0 = .ok 10 := by
    norm_num [computeLMax, computeLMaxCap, getModeLMax, flatTask, maximum, truncate, lMaxCap]
  have hpass : ∀ l : ℤ, 0 ≤ l → l ≤ 10 → TestPasses 0 [flatTask 1 1 10 10 5] l := by
    intro l h0 h1
    interval_cases l <;> exact ⟨⟨_, rfl, by decide⟩, fun _ => ⟨_, rfl, by decide⟩⟩
  obtain ⟨core, h, -, hcore⟩ := @Filled.first 1 10 10 5 (by decide) le_rfl (by decide) (by norm_num)
    (tuneMode_untuned (flatTask_untuned fun t ht => ⟨1, 1, 10, 10, 5, List.mem_singleton.1 ht⟩)
      (fun t ht _ => by rw [List.mem_singleton.1 ht]; exact show (5 : ℤ) < 10 by decide) hl hpass)
  have hregular : ∀ t ∈ core.assigned, t.Regular := by
    rw [hcore]
    intro t ht
    rw [List.mem_singleton.1 ht]
    exact ⟨by decide, fun _ => show (0 : ℤ) ≤ 5 by decide⟩
  have hf := filled_feasible twoLevels_numbered h hregular
  have huncapped : Uncapped 0 core.assigned := by
    rw [hcore]
    exact ⟨10, hcap, by decide⟩
  have hhigh : ∃ t ∈ core.assigned, 0 < t.criticalityLevel := by
    rw [hcore]
    exact ⟨_, List.mem_singleton_self _, Nat.one_pos⟩
  exact ⟨core, h, hcore, fun l h0 =>
    ⟨hf.modes 0 (by decide) l h0 (.inr huncapped), hf.start hhigh l h0 (.inr huncapped)⟩⟩

/-- A task that gets more time than its deadline leaves it -/
theorem lowest_mode_untested : ∃ core, Filled twoLevels core ∧ (∀ t ∈ core.assigned, t.Regular) ∧
    ¬Passes 0 core.assigned 3 := by
  obtain ⟨core, h, -, hcore⟩ := @Filled.first 0 10 3 5 (by decide) (by decide) (by decide) (by norm_num) rfl
  refine ⟨core, h, ?_, ?_⟩
  · rw [hcore]
    intro t ht
    rw [List.mem_singleton.1 ht]
    exact ⟨by decide, fun _ => show (0 : ℤ) ≤ 5 by decide⟩
  · rw [hcore]
    rintro ⟨sum, hsum, hle⟩
    have hfive : sumDbf [flatTask 1 0 10 3 5] 0 3 = .ok 5 := rfl
    rw [hfive] at hsum
    cases hsum
    omega

/-- A negative execution time hides the utilization of another task. -/
theorem negative_wcet_hides : ∃ core, Filled twoLevels core ∧
    (∃ t ∈ core.assigned, 0 < t.criticalityLevel) ∧ Uncapped 0 core.assigned ∧ ¬Passes 0 core.assigned 10 := by
  have hone : computeLMax [flatTask 1 1 10 10 (-20)] 0 = .ok 0 := by
    norm_num [computeLMax, computeLMaxCap, getModeLMax, flatTask, maximum, truncate, lMaxCap]
  have htwo : computeLMaxCap 0 [flatTask 1 1 10 10 (-20), flatTask 2 0 10 10 20] 0 = .ok 0 := by
    norm_num [computeLMaxCap, getModeLMax, flatTask, maximum, truncate, lMaxCap]
  have htwo' : computeLMax [flatTask 1 1 10 10 (-20), flatTask 2 0 10 10 20] 0 = .ok 0 := by
    norm_num [computeLMax, computeLMaxCap, getModeLMax, flatTask, maximum, truncate, lMaxCap]
  have hpass : ∀ l : ℤ, 0 ≤ l → l ≤ 0 → TestPasses 0 [flatTask 1 1 10 10 (-20)] l := by
    intro l h0 h1
    obtain rfl := le_antisymm h1 h0
    exact ⟨⟨0, rfl, le_rfl⟩, fun _ => ⟨0, rfl, le_rfl⟩⟩
  have hpass' : ∀ l : ℤ, 0 ≤ l → l ≤ 0 →
      TestPasses 0 [flatTask 1 1 10 10 (-20), flatTask 2 0 10 10 20] l := by
    intro l h0 h1
    obtain rfl := le_antisymm h1 h0
    exact ⟨⟨0, rfl, le_rfl⟩, fun _ => ⟨0, rfl, le_rfl⟩⟩
  obtain ⟨core, h, hrep, hcore⟩ := @Filled.first 1 10 10 (-20) (by decide) le_rfl (by decide) (by norm_num)
    (tuneMode_untuned (flatTask_untuned fun t ht => ⟨1, 1, 10, 10, -20, List.mem_singleton.1 ht⟩)
      (fun t ht _ => by rw [List.mem_singleton.1 ht]; exact show (-20 : ℤ) < 10 by decide) hone hpass)
  obtain ⟨core', h', hcore'⟩ := h.second hrep hcore (by decide) le_rfl (by norm_num)
    (tuneMode_untuned flatTask_untuned_pair (fun t ht hc => by
      rcases List.mem_pair.1 ht with rfl | rfl
      · exact show (-20 : ℤ) < 10 by decide
      · cases hc) htwo' hpass')
  refine ⟨core', h', ?_⟩
  rw [hcore']
  refine ⟨⟨_, List.mem_cons_self, Nat.one_pos⟩, ⟨0, htwo, by decide⟩, ?_⟩
  rintro ⟨sum, hsum, hle⟩
  have htwenty : sumDbf [flatTask 1 1 10 10 (-20), flatTask 2 0 10 10 20] 0 10 = .ok 20 := rfl
  rw [htwenty] at hsum
  cases hsum
  omega

/-- A task of half the processor, whose deadline lies beyond the cap -/
def longTask (id criticalityLevel : ℕ) : Task := flatTask id criticalityLevel 10000000 6000000 5000000

theorem longTask_regular (i c : ℕ) : (longTask i c).Regular :=
  ⟨show (1 : ℤ) ≤ 10000000 by decide, fun _ => show (0 : ℤ) ≤ 5000000 by decide⟩

theorem longTask_demands (i c : ℕ) : (longTask i c).Demands 0 ∧ (longTask i c).Demands 1 := by
  have hr := longTask_regular i c
  exact ⟨⟨hr.period, hr.wcet 0, show (6000000 : ℤ) ≤ 10000000 by decide⟩,
    ⟨hr.period, hr.wcet 1, show (6000000 - 6000000 : ℤ) ≤ 10000000 by decide⟩⟩

/-- Up to the cap nothing is due in the lowest mode. -/
theorem longTask_demand_zero (i c : ℕ) (hl : 0 ≤ l) (hcap : l ≤ lMaxCap) : (longTask i c).demand 0 l = 0 := by
  have hle : l ≤ 1000000 := hcap
  show ((l - 6000000).fdiv 10000000 + 1) * 5000000 - 0 = 0
  rw [Int.fdiv_eq_ediv_of_nonneg _ (by decide)]
  omega

theorem longTask_demand_one (i c : ℕ) (hl : 0 ≤ l) (hcap : l ≤ lMaxCap) : (longTask i c).demand 1 l = l := by
  have hle : l ≤ 1000000 := hcap
  have hmod : l.fmod 10000000 = l := by
    rw [Int.fmod_eq_emod_of_nonneg _ (by decide)]
    omega
  show ((l - (6000000 - 6000000)).fdiv 10000000 + 1) * 5000000 - (longTask i c).done 1 (l.fmod 10000000) = l
  rw [hmod, Int.fdiv_eq_ediv_of_nonneg _ (by decide)]
  show _ - max 0 (min (if (6000000 : ℤ) > l ∧ l ≥ 6000000 - 6000000 then
    5000000 - l + 6000000 - 6000000 else 0) 5000000) = l
  rw [if_pos (by omega)]
  omega

theorem longTasks_pass (htasks : tasks = [longTask 1 1] ∨ tasks = [longTask 1 1, longTask 2 0])
    (hl : 0 ≤ l) (hcap : l ≤ lMaxCap) : TestPasses 0 tasks l := by
  have hdemands : ∀ t ∈ tasks, t.Demands 0 ∧ t.Demands 1 := by
    intro t ht
    rcases htasks with rfl | rfl
    · rw [List.mem_singleton.1 ht]
      exact longTask_demands 1 1
    · rcases List.mem_pair.1 ht with rfl | rfl
      · exact longTask_demands 1 1
      · exact longTask_demands 2 0
  constructor
  · refine (passes_iff (fun t ht _ => (hdemands t ht).2) hl).2 ?_
    have hone : totalDemand 1 (inMode 1 tasks) l = (longTask 1 1).demand 1 l + 0 := by
      rcases htasks with rfl | rfl <;> rfl
    rw [hone, longTask_demand_one 1 1 hl hcap, add_zero]
  · intro _
    refine (passes_iff (fun t ht _ => (hdemands t ht).1) hl).2 ?_
    have hzero : totalDemand 0 (inMode 0 tasks) l = 0 := by
      rcases htasks with rfl | rfl
      · show (longTask 1 1).demand 0 l + 0 = 0
        rw [longTask_demand_zero 1 1 hl hcap, add_zero]
      · show (longTask 1 1).demand 0 l + ((longTask 2 0).demand 0 l + 0) = 0
        rw [longTask_demand_zero 1 1 hl hcap, longTask_demand_zero 2 0 hl hcap, add_zero, add_zero]
    rw [hzero]
    exact hl

/-- The bound is cut off before the length at which the two tasks do not fit. -/
theorem cap_misses : ∃ core, Filled twoLevels core ∧ (∀ t ∈ core.assigned, t.Regular) ∧
    (∃ t ∈ core.assigned, 0 < t.criticalityLevel) ∧ ¬Passes 0 core.assigned 6000000 := by
  have hregular : ∀ t ∈ [longTask 1 1, longTask 2 0], t.Regular := by
    intro t ht
    rcases List.mem_pair.1 ht with rfl | rfl
    · exact longTask_regular 1 1
    · exact longTask_regular 2 0
  have hmode : ∀ tasks, tasks = [longTask 1 1] ∨ tasks = [longTask 1 1, longTask 2 0] →
      tuneMode twoLevels 1 tasks 0 = .ok (true, tasks) := by
    intro tasks htasks
    have hmem : ∀ t ∈ tasks, t ∈ [longTask 1 1, longTask 2 0] := by
      rcases htasks with rfl | rfl
      · exact fun t ht => List.mem_singleton.1 ht ▸ List.mem_cons_self
      · exact fun _ ht => ht
    obtain ⟨b, b', -, -, hl⟩ :=
      computeLMaxCap_ok lMaxCap (fun t ht => (hregular t (hmem t ht)).period) 0
    rw [if_pos (by decide)] at hl
    refine tuneMode_untuned (fun t ht => flatTask_untuned_pair t (hmem t ht)) (fun t ht _ => ?_) hl
      fun l h0 hle => longTasks_pass htasks h0 (hle.trans (min_le_left _ _))
    rcases List.mem_pair.1 (hmem t ht) with rfl | rfl
    · exact show (5000000 : ℤ) < 6000000 by decide
    · exact show (5000000 : ℤ) < 6000000 by decide
  obtain ⟨core, h, hrep, hcore⟩ :=
    Filled.first (by decide) (by decide) (by decide) (by norm_num) (hmode _ (.inl rfl))
  obtain ⟨core', h', hcore'⟩ :=
    h.second hrep hcore (by decide) (by decide) (by norm_num) (hmode _ (.inr rfl))
  refine ⟨core', h', ?_⟩
  rw [hcore']
  refine ⟨hregular, ⟨_, List.mem_cons_self, Nat.one_pos⟩, ?_⟩
  rintro ⟨sum, hsum, hle⟩
  have hfull : sumDbf [longTask 1 1, longTask 2 0] 0 6000000 = .ok 10000000 := rfl
  unfold longTask at hfull
  rw [hfull] at hsum
  cases hsum
  omega

/-- **The tests do not see everything**: a core whose tasks all are of the lowest
    mode, a deadline beyond the cap, a negative execution time. -/
theorem filled_not_feasible : twoLevels.Numbered ∧
    (∃ core, Filled twoLevels core ∧ (∀ t ∈ core.assigned, t.Regular) ∧ ¬Passes 0 core.assigned 3) ∧
    (∃ core, Filled twoLevels core ∧ (∀ t ∈ core.assigned, t.Regular) ∧
      (∃ t ∈ core.assigned, 0 < t.criticalityLevel) ∧ ¬Passes 0 core.assigned 6000000) ∧
    ∃ core, Filled twoLevels core ∧ (∃ t ∈ core.assigned, 0 < t.criticalityLevel) ∧
      Uncapped 0 core.assigned ∧ ¬Passes 0 core.assigned 10 :=
  ⟨twoLevels_numbered, lowest_mode_untested, cap_misses, negative_wcet_hides⟩

end EeftSched.TaskAllocator

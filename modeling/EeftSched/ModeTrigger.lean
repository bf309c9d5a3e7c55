/-
  The mode changes that `handle_running_job` triggers (`sched_core.c`).

  The test compares the execution time with the job's copy of the budget, so it
  is right when the copy is not below the budget of the core's level.

  * `no_spurious_mode_change`: in a run in which `reclaim_discarded_jobs` takes
    in only jobs with up-to-date copies, a mode change is triggered only by a job
    that has used up its budget, and asks for the least level that leaves some;
  * `OneCore.spurious_mode_change`: a job that is discarded at level 1 and taken
    in at level 2.
-/
import EeftSched.Budget

namespace EeftSched

open Lts

variable {n : ℕ} {K : Core n} {J : Jobs n} {j : JobId n} {c : Fin n} {level : ℕ} {X : Ctx n}
  {cfg : Config} {S S' : Sys n} {tr : List (Trans (Sys n) (Label n))}

/-- Budgets that are floats are compared as they are. -/
theorem isLeast_of_floatWcet {task : Task} {maxLevels : ℕ} {executedTime : ℚ} {current : ℕ}
    (h : IsLeast {l | current < l ∧ l < maxLevels ∧ executedTime < toFloat (task.wcet l)} level)
    (hf : task.FloatWcet maxLevels) :
    IsLeast {l | current < l ∧ l < maxLevels ∧ executedTime < task.wcet l} level := by
  have hset : {l | current < l ∧ l < maxLevels ∧ executedTime < toFloat (task.wcet l)} =
      {l | current < l ∧ l < maxLevels ∧ executedTime < task.wcet l} := by
    ext l
    refine and_congr_right fun _ => and_congr_right fun hl => ?_
    rw [hf l hl]
  rw [hset] at h
  exact h

/-- The execution time that a job needs is within its largest budget. -/
def JobRec.AcetOk (maxLevels : ℕ) (r : JobRec) : Prop :=
  ∃ l < maxLevels, r.acet ≤ r.parentTask.wcet l

/-- It is so for the job that runs on core `c`. -/
def RunningAcetOk (cfg : Config) (S : Sys n) (c : Fin n) : Prop :=
  ∀ j, (S.core c).runningJob = some j → (S.job j).AcetOk cfg.maxCriticalityLevels

/-- Core `c` triggers a change to `level` in `handle_running_job`. -/
def Triggers (S : Sys n) (c : Fin n) (S' : Sys n) (level : ℕ) : Prop :=
  (S.core c).pc = .run ∧ (S'.core c).pc = .modeStore level true

/-- The running job of core `c` has used up the budget of the level of the core,
    and `level` is the least one above it that leaves some. -/
def Justified (cfg : Config) (S : Sys n) (c : Fin n) (S' : Sys n) (level : ℕ) : Prop :=
  ∃ j, (S.core c).runningJob = some j ∧
    ((S'.job j).parentTask.wcet (S.core c).localCriticalityLevel : ℚ) ≤ (S'.job j).executedTime ∧
    IsLeast {l | (S.core c).localCriticalityLevel < l ∧ l < cfg.maxCriticalityLevels ∧
      (S'.job j).executedTime < (S'.job j).parentTask.wcet l} level

theorem LocalStep.of_run {K' : Core n} {J' : Jobs n} (hs : LocalStep X K J K' J') (hp : K.pc = .run) : RunStep X K J K' J' := by
  cases hs with
  | run hs => exact hs
  | cancel hs => cases hs <;> simp_all
  | sync hs => cases hs <;> simp_all
  | arrival hs => cases hs <;> simp_all
  | reclaim hs => cases hs <;> simp_all
  | push hs => cases hs <;> simp_all
  | process hs => cases hs <;> simp_all
  | dispatch hs => cases hs <;> simp_all
  | power hs => cases hs <;> simp_all

theorem CoreStep.of_run (hs : CoreStep cfg c S S') (hp : (S.core c).pc = .run) :
    ∃ K' J', RunStep (S.ctx cfg c) (S.core c) S.job K' J' ∧ S' = { S.setCore c K' with job := J' } := by
  cases hs with
  | own hs he => exact ⟨_, _, hs.of_run hp, he⟩
  | arrive hs =>
    cases hs with
    | put hs => cases hs <;> simp_all
    | _ => simp_all
  | discard hs => cases hs <;> simp_all
  | offer hs => cases hs <;> simp_all
  | request hs => cases hs <;> simp_all

/-- With copies that are up to date a change is triggered for a reason. -/
theorem Sys.Budgets.justified (h : S.Budgets cfg) (hs : CoreStep cfg c S S')
    (ha : RunningAcetOk cfg S c) (ht : Triggers S c S' level) : Justified cfg S c S' level := by
  obtain ⟨hp, hstore⟩ := ht
  obtain ⟨K', J', hrun, rfl⟩ := hs.of_run hp
  change (Function.update S.core c K' c).pc = _ at hstore
  rw [Function.update_self] at hstore
  cases hrun with
  | idle | miss | complete | go => cases hstore
  | @overrun j _ hr hmiss hacet hwcet =>
    obtain rfl := (Pc.modeStore.inj hstore).1
    set e := ((S.job j).execute (S.core c)).executedTime with he
    have hcore := h.core c
    obtain ⟨hmono, hfloat⟩ := h.tasks j
    obtain ⟨l, hl, hle⟩ := ha j hr
    have hlevel : (S.core c).localCriticalityLevel < cfg.maxCriticalityLevels := by
      have := hcore.level
      omega
    have hactive : (S.core c).Active j := .inr (.inl hr)
    have hcopy : ((S.job j).parentTask.wcet (S.core c).localCriticalityLevel : ℚ) ≤ e := by
      rw [← hfloat _ hlevel]
      exact (hcore.active (by rw [hp]; nofun) j hactive).trans hwcet
    have hlt : e < (S.job j).parentTask.wcet l := (not_le.1 hacet).trans_le hle
    have habove : (S.core c).localCriticalityLevel < l := by
      by_contra hnot
      have hup := hmono l (S.core c).localCriticalityLevel (Nat.le_of_not_lt hnot) hlevel
      have : ((S.job j).parentTask.wcet l : ℚ) ≤ e := (Nat.cast_le.2 hup).trans hcopy
      exact absurd hlt (not_lt.2 this)
    have hleast := newCritLevel_isLeast habove hl ((hfloat l hl).symm ▸ hlt)
    refine ⟨j, hr, ?_⟩
    show ((S.job.set j _ j).parentTask.wcet _ : ℚ) ≤ (S.job.set j _ j).executedTime ∧
      IsLeast {l | _ ∧ _ ∧ (S.job.set j _ j).executedTime < (S.job.set j _ j).parentTask.wcet l} _
    rw [Jobs.set_self]
    exact ⟨hcopy, isLeast_of_floatWcet hleast hfloat⟩

/-- **No spurious mode change**, if the budgets are floats, in a run in which
    `reclaim_discarded_jobs` takes in only jobs with up-to-date copies. -/
theorem no_spurious_mode_change
    (hw : ∀ task ∈ cfg.systemTasks, task.Nondecreasing cfg.maxCriticalityLevels)
    (hfloat : ∀ task ∈ cfg.systemTasks, task.FloatWcet cfg.maxCriticalityLevels)
    (h : Exec (Step cfg) (Sys.init n) tr S)
    (hf : ∀ x ∈ tr, ∀ c, x.lab = .core c → FreshIntake x.pre c x.post) :
    ∀ x ∈ tr, ∀ c level, x.lab = .core c → RunningAcetOk cfg x.pre c →
      Triggers x.pre c x.post level → Justified cfg x.pre c x.post level := by
  rintro ⟨T, a, T'⟩ hx c level rfl ha ht
  have hpre := (budgets_of_exec (fun task ht => ⟨hw task ht, hfloat task ht⟩) h hf).2 _ hx
  obtain ⟨-, hs⟩ := h.of_mem hx
  cases hs with
  | core _ hs => exact hpre.justified hs ha ht

/-! ## A stale copy -/

/-- An overrun, with the level it asks for -/
theorem RunStep.overrun_to (level : ℕ) (h : K.pc = .run) (hr : K.runningJob = some j)
    (hm : ¬((J j).execute K).missed X.systemTime)
    (hc : ¬(J j).acet ≤ ((J j).execute K).executedTime)
    (ho : (J j).wcet ≤ ((J j).execute K).executedTime)
    (hl : newCritLevel X.cfg.maxCriticalityLevels (J j).parentTask.wcet
      ((J j).execute K).executedTime K.localCriticalityLevel = level) :
    RunStep X K J (K.goto (.modeStore level true)) (J.set j ((J j).execute K)) :=
  hl ▸ .overrun h hr hm hc ho

theorem RunningAcetOk.of_eq (hr : (S.core c).runningJob = some j)
    (ha : (S.job j).AcetOk cfg.maxCriticalityLevels) : RunningAcetOk cfg S c := by
  intro i hi
  rw [hr] at hi
  obtain rfl := Option.some.inj hi
  exact ha

theorem not_justified (hr : (S.core c).runningJob = some j)
    (hw : ¬((S'.job j).parentTask.wcet (S.core c).localCriticalityLevel : ℚ) ≤ (S'.job j).executedTime) :
    ¬Justified cfg S c S' level := by
  rintro ⟨i, hi, hle, -⟩
  rw [hr] at hi
  obtain rfl := Option.some.inj hi
  exact hw hle

namespace OneCore

/-- A step of the only core, by itself -/
theorem own {tr : List (Trans (Sys 1) (Label 1))} {s S : Sys 1} {K' : Core 1} {J' : Jobs 1}
    (h : Exec (Step cfg) s tr S) (hs : LocalStep (S.ctx cfg 0) (S.core 0) S.job K' J') :
    Exec (Step cfg) s (tr ++ [⟨S, .core 0, { S.setCore 0 K' with job := J' }⟩])
      { S.setCore 0 K' with job := J' } :=
  h.snoc (.core (S.unblocked_one 0) (.own hs rfl))

/-- A step of the only core -/
theorem shared {tr : List (Trans (Sys 1) (Label 1))} {s S S' : Sys 1} (h : Exec (Step cfg) s tr S)
    (hs : CoreStep cfg 0 S S') : Exec (Step cfg) s (tr ++ [⟨S, .core 0, S'⟩]) S' :=
  h.snoc (.core (S.unblocked_one 0) hs)

/-- A task of the lowest criticality, with budgets 1, 1 and 2 -/
def lowTask : Task := ⟨1, 20, 20, fun l => if l = 2 then 2 else 1, 0⟩

/-- One core and three levels -/
def lowConfig : Config where
  maxCriticalityLevels := 3
  maxTasks := 1
  systemTasks := [lowTask]
  allocationMap := [⟨1, .primary, 0, 0, fun l => if l = 2 then 20 else 2⟩]
  procId := 0
  enableEcc := false
  enableMigration := false
  enableProcrastination := false
  enableDvfs := false
  enableDpm := false

theorem lowTask_nondecreasing : ∀ task ∈ lowConfig.systemTasks, task.Nondecreasing 3 := by
  intro task ht l l' hle hlt
  obtain rfl := List.mem_singleton.1 ht
  show (if l = 2 then 2 else 1) ≤ if l' = 2 then 2 else 1
  split_ifs <;> omega

theorem lowTask_float : ∀ task ∈ lowConfig.systemTasks, task.FloatWcet 3 := by
  intro task ht
  obtain rfl := List.mem_singleton.1 ht
  refine Task.floatWcet_of_le fun l _ => ?_
  show (if l = 2 then 2 else 1) ≤ 2 ^ 24
  split_ifs <;> norm_num

theorem not_two_le : ¬(2 : ℚ) ≤ 0 + 1 := by norm_num

theorem acet_ok : (2 : ℚ) ≤ ((2 : ℕ) : ℚ) := by norm_num

theorem not_two_le_cast : ¬((2 : ℕ) : ℚ) ≤ 0 + 1 := by norm_num

theorem one_le : toFloat 1 ≤ 0 + 1 := by
  rw [toFloat_eq (by norm_num)]
  norm_num

theorem level_from_two : newCritLevel 3 lowTask.wcet (0 + 1) 2 = 2 := by
  unfold newCritLevel
  norm_num [lowTask]

theorem level_from_zero : newCritLevel 3 lowTask.wcet (0 + 1) 0 = 2 := by decide +kernel

/-- **A spurious mode change.**  The job arrives at level 0.  The level rises to
    1 and the job is discarded; the level rises to 2 and the core takes it in
    again, with the budget of level 1. -/
theorem spurious_mode_change : ∃ (tr : List (Trans (Sys 1) (Label 1))) (S : Sys 1),
    Exec (Step lowConfig) (Sys.init 1) tr S ∧
      (∀ task ∈ lowConfig.systemTasks, task.Nondecreasing lowConfig.maxCriticalityLevels) ∧
      ∃ x ∈ tr, x.lab = .core 0 ∧ RunningAcetOk lowConfig x.pre 0 ∧ Triggers x.pre 0 x.post 2 ∧
        ¬Justified lowConfig x.pre 0 x.post 2 := by
  have h : Exec (Step lowConfig) (Sys.init 1) [] _ := .nil
  have h := own h (.sync (.start rfl))
  have h := own h (.sync (.equal rfl rfl))
  have h := own h (.sync (.awake rfl rfl))
  have h := own h (.run (.idle rfl rfl))
  have h := own h (.arrival (.pendingEnd rfl nofun))
  have h := shared h (.arrive (@ArriveStep.create _ _ _ _ _ _ _ _ _ 2 rfl ⟨rfl, by decide, rfl⟩ nofun rfl))
  have h := own h (.arrival (.allocIns rfl))
  have h := own h (.arrival (.allocEnd rfl))
  have h := own h (.reclaim (.lock rfl))
  have h := own h (.reclaim (.empty rfl rfl))
  have h := shared h (.discard (.lock rfl ⟨Fin.forall_fin_one.2 rfl, rfl, nofun⟩))
  have h := shared h (.discard (.done rfl rfl))
  have h := own h (.dispatch (.pop rfl rfl nofun rfl))
  have h := own h (.dispatch (.start rfl rfl))
  have h := own h (.power (.begin rfl))
  have h := own h (.power (.dvfsSkip rfl))
  have h := own h (.power (.dpm rfl))
  have h := own h (.power (.summary rfl))
  have h := h.snoc (.timer (.sweep rfl (Fin.forall_fin_one.2 rfl)))
  have h := h.snoc (.timer (@TimerStep.advance _ _ _ _ 1 [] rfl rfl rfl (.inr (by decide))))
  have h := own h (.sync (.start rfl))
  have h := own h (.sync (.differ rfl (by decide)))
  have h := own h (.sync (.reload rfl))
  have h := shared h (.arrive (.modeStore rfl))
  have h := own h (.sync (.modeBody rfl))
  have h := own h (.sync (.awake rfl rfl))
  have h := own h (.run (.idle rfl rfl))
  have h := own h (.arrival (.pendingEnd rfl nofun))
  have h := own h (.arrival (.allocSkip rfl (Ctx.not_releases rfl (by decide))))
  have h := own h (.arrival (.allocEnd rfl))
  have h := own h (.reclaim (.lock rfl))
  have h := own h (.reclaim (.pop rfl rfl))
  have h := shared h (.discard (.discard rfl rfl ⟨Fin.forall_fin_one.2 rfl, rfl, nofun⟩))
  have h := own h (.reclaim (.empty rfl rfl))
  have h := shared h (.discard (.lock rfl ⟨Fin.forall_fin_one.2 rfl, rfl, nofun⟩))
  have h := shared h (.discard (.keep rfl rfl))
  have h := shared h (.discard (.done rfl rfl))
  have h := own h (.dispatch (.none rfl nofun))
  have h := own h (.power (.begin rfl))
  have h := own h (.power (.dvfsSkip rfl))
  have h := own h (.power (.dpm rfl))
  have h := own h (.power (.summary rfl))
  have h := h.snoc (.timer (.sweep rfl (Fin.forall_fin_one.2 rfl)))
  have h := h.snoc (.timer (.keep rfl rfl (by decide)))
  have h := h.snoc (.timer (@TimerStep.advance _ _ _ _ 2 [] rfl rfl rfl (.inr (by decide))))
  have h := own h (.sync (.start rfl))
  have h := own h (.sync (.differ rfl (by decide)))
  have h := own h (.sync (.reload rfl))
  have h := shared h (.arrive (.modeStore rfl))
  have h := own h (.sync (.modeBody rfl))
  have h := own h (.sync (.awake rfl rfl))
  have h := own h (.run (.idle rfl rfl))
  have h := own h (.arrival (.pendingEnd rfl nofun))
  have h := own h (.arrival (.allocSkip rfl (Ctx.not_releases rfl (by decide))))
  have h := own h (.arrival (.allocEnd rfl))
  have h := own h (.reclaim (.lock rfl))
  have h := own h (.reclaim (.empty rfl rfl))
  have h := shared h (.discard (.lock rfl ⟨Fin.forall_fin_one.2 rfl, rfl, nofun⟩))
  have h := shared h (.discard (.accommodate rfl rfl))
  have h := shared h (.discard (.done rfl rfl))
  have h := own h (.dispatch (.pop rfl rfl nofun rfl))
  have h := own h (.dispatch (.start rfl rfl))
  have h := own h (.power (.begin rfl))
  have h := own h (.power (.dvfsSkip rfl))
  have h := own h (.power (.dpm rfl))
  have h := own h (.power (.summary rfl))
  have h := h.snoc (.timer (.sweep rfl (Fin.forall_fin_one.2 rfl)))
  have h := h.snoc (.timer (@TimerStep.advance _ _ _ _ 2 [] rfl rfl rfl (.inl rfl)))
  have h := own h (.sync (.start rfl))
  have h := own h (.sync (.equal rfl rfl))
  have h := own h (.sync (.awake rfl rfl))
  have h := own h (.run (.overrun_to 2 rfl rfl (fun hm => absurd hm.2 (by decide)) not_two_le one_le
    level_from_two))
  refine ⟨_, _, h, lowTask_nondecreasing, _, List.mem_append_right _ List.mem_cons_self, rfl, ?_,
    ⟨rfl, rfl⟩, ?_⟩
  · exact .of_eq rfl ⟨2, by decide, acet_ok⟩
  · exact not_justified rfl not_two_le_cast

/-- A step that takes nothing in -/
theorem fresh_snoc {tr : List (Trans (Sys 1) (Label 1))} {S S' : Sys 1} {a : Label 1}
    (h : Exec (Step cfg) (Sys.init 1) tr S ∧
      ∀ x ∈ tr, ∀ c, x.lab = .core c → FreshIntake x.pre c x.post)
    (hs : Step cfg S a S') (hp : ∀ j, (S.core 0).pc ≠ .reclaimHand j) (hd : S.discardQueue = []) :
    Exec (Step cfg) (Sys.init 1) (tr ++ [⟨S, a, S'⟩]) S' ∧
      ∀ x ∈ tr ++ [⟨S, a, S'⟩], ∀ c, x.lab = .core c → FreshIntake x.pre c x.post := by
  refine ⟨h.1.snoc hs, fun x hx c hc => ?_⟩
  rcases List.mem_append.1 hx with hx | hx
  · exact h.2 x hx c hc
  · rw [List.mem_singleton.1 hx]
    rintro j ⟨hj | ⟨k, -, hj⟩, -⟩
    · rw [Subsingleton.elim c 0] at hj
      exact absurd hj (hp j)
    · change S.discardQueue[k]? = some j at hj
      rw [hd] at hj
      cases hj

theorem fresh_own {tr : List (Trans (Sys 1) (Label 1))} {S : Sys 1} {K' : Core 1} {J' : Jobs 1}
    (h : Exec (Step cfg) (Sys.init 1) tr S ∧
      ∀ x ∈ tr, ∀ c, x.lab = .core c → FreshIntake x.pre c x.post)
    (hs : LocalStep (S.ctx cfg 0) (S.core 0) S.job K' J')
    (hp : ∀ j, (S.core 0).pc ≠ .reclaimHand j) (hd : S.discardQueue = []) :
    Exec (Step cfg) (Sys.init 1) (tr ++ [⟨S, .core 0, { S.setCore 0 K' with job := J' }⟩])
        { S.setCore 0 K' with job := J' } ∧
      ∀ x ∈ tr ++ [⟨S, .core 0, { S.setCore 0 K' with job := J' }⟩], ∀ c, x.lab = .core c →
        FreshIntake x.pre c x.post :=
  fresh_snoc h (.core (S.unblocked_one 0) (.own hs rfl)) hp hd

/-- The job of the task overruns at level 0, and asks for level 2. -/
theorem no_spurious_mode_change_low : ∃ (S S' : Sys 1), Triggers S 0 S' 2 ∧
    Justified lowConfig S 0 S' 2 := by
  have h : Exec (Step lowConfig) (Sys.init 1) [] _ ∧
      ∀ x ∈ ([] : List (Trans (Sys 1) (Label 1))), ∀ c, x.lab = .core c →
        FreshIntake x.pre c x.post := ⟨.nil, nofun⟩
  have h := fresh_own h (.sync (.start rfl)) nofun rfl
  have h := fresh_own h (.sync (.equal rfl rfl)) nofun rfl
  have h := fresh_own h (.sync (.awake rfl rfl)) nofun rfl
  have h := fresh_own h (.run (.idle rfl rfl)) nofun rfl
  have h := fresh_own h (.arrival (.pendingEnd rfl nofun)) nofun rfl
  have h := fresh_snoc h (.core (Sys.unblocked_one _ 0) (.arrive (@ArriveStep.create _ _ _ _ _ _ _ _ _ 2 rfl
    ⟨rfl, by decide, rfl⟩ nofun rfl))) nofun rfl
  have h := fresh_own h (.arrival (.allocIns rfl)) nofun rfl
  have h := fresh_own h (.arrival (.allocEnd rfl)) nofun rfl
  have h := fresh_own h (.reclaim (.lock rfl)) nofun rfl
  have h := fresh_own h (.reclaim (.empty rfl rfl)) nofun rfl
  have h := fresh_snoc h (.core (Sys.unblocked_one _ 0)
    (.discard (.lock rfl ⟨Fin.forall_fin_one.2 rfl, rfl, nofun⟩))) nofun rfl
  have h := fresh_snoc h (.core (Sys.unblocked_one _ 0) (.discard (.done rfl rfl))) nofun rfl
  have h := fresh_own h (.dispatch (.pop rfl rfl nofun rfl)) nofun rfl
  have h := fresh_own h (.dispatch (.start rfl rfl)) nofun rfl
  have h := fresh_own h (.power (.begin rfl)) nofun rfl
  have h := fresh_own h (.power (.dvfsSkip rfl)) nofun rfl
  have h := fresh_own h (.power (.dpm rfl)) nofun rfl
  have h := fresh_own h (.power (.summary rfl)) nofun rfl
  have h := fresh_snoc h (.timer (.sweep rfl (Fin.forall_fin_one.2 rfl))) nofun rfl
  have h := fresh_snoc h (.timer (@TimerStep.advance _ _ _ _ 0 [] rfl rfl rfl (.inl rfl))) nofun rfl
  have h := fresh_own h (.sync (.start rfl)) nofun rfl
  have h := fresh_own h (.sync (.equal rfl rfl)) nofun rfl
  have h := fresh_own h (.sync (.awake rfl rfl)) nofun rfl
  have h := fresh_own h (.run (.overrun_to 2 rfl rfl (fun hm => absurd hm.2 (by decide)) not_two_le one_le
    level_from_zero)) nofun rfl
  refine ⟨_, _, ⟨rfl, rfl⟩, no_spurious_mode_change lowTask_nondecreasing lowTask_float h.1 h.2 _
    (List.mem_append_right _ List.mem_cons_self) 0 2 rfl ?_ ⟨rfl, rfl⟩⟩
  exact .of_eq rfl ⟨2, by decide, acet_ok⟩

end OneCore

end EeftSched

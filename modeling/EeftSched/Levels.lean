/-
  The criticality levels in the runs of a whole processor (`scheduler_tick`,
  `handle_mode_change`, `handle_running_job` in `sched_core.c`).

  The level protocol (`Criticality`) knows the accesses to the shared level and
  the decisions to change it, and nothing else.

  * `Sys.levels`: what the protocol sees of a processor;
  * `LevelMove`: what a step of a core does to that;
  * `levels_refine`: a run of a processor is a run of the protocol, each step a
    block of its operations.
-/
import EeftSched.Criticality
import EeftSched.Dispatch
import EeftSched.ModeTrigger

namespace EeftSched

open SortedQueue Lts

variable {n : ℕ} {K K' : Core n} {J J' : Jobs n} {j : JobId n} {c d : Fin n} {X : Ctx n}
  {cfg : Config} {S S' : Sys n} {tr : List (Trans (Sys n) (Label n))}

/-- What the protocol sees of the point a core is at. -/
def Pc.levels : Pc n → Criticality.Pc
  | .start | .cancel _ | .cancelQueue .. | .cancelPut .. | .cancelRunPut .. | .sync => .start
  | .syncReload => .reload
  | .modeStore level false => .store level .sync
  | .modeStore level true => .broadcast level
  | .modeBody false | .lowPower | .run => .run
  | _ => .done

/-- What the protocol sees of a processor between the operations of its timer -/
def Sys.levels (S : Sys n) : Criticality.Proc n where
  systemCriticalityLevel := S.systemCriticalityLevel
  localCriticalityLevel := fun c => (S.core c).localCriticalityLevel
  pc := fun c => (S.core c).pc.levels
  timer := .wait

/-! ## What a core by itself does -/

/-- One operation of the protocol at most, which leaves the levels alone -/
inductive LevelStep (maxLevels system level : ℕ) : Criticality.Pc → Criticality.Pc → Prop
  | stay {q : Criticality.Pc} : LevelStep maxLevels system level q q
  | equal (he : level = system) : LevelStep maxLevels system level .start .run
  | differ (he : level ≠ system) : LevelStep maxLevels system level .start .reload
  | reload : LevelStep maxLevels system level .reload (.store system .sync)
  | finish : LevelStep maxLevels system level .run .done
  | overrun (wcet : ℕ → ℕ) (executedTime : ℚ) : LevelStep maxLevels system level .run
      (.broadcast (newCritLevel maxLevels wcet executedTime level))

theorem LevelStep.exec {P : Criticality.Proc n} {q : Criticality.Pc} {maxLevels : ℕ} (ht : P.timer = .wait)
    (h : LevelStep maxLevels P.systemCriticalityLevel (P.localCriticalityLevel c) (P.pc c) q) :
    ∃ block, Exec (Criticality.Step maxLevels) P block (P.setPc c q) := by
  generalize hp : P.pc c = p at h
  have one : ∀ {a : Criticality.Act}, Criticality.CoreStep maxLevels c P a (P.setPc c q) →
      ∃ block, Exec (Criticality.Step maxLevels) P block (P.setPc c q) :=
    fun hs => ⟨_, Exec.nil.snoc (.core ht hs)⟩
  cases h with
  | stay =>
    have hsame : P.setPc c (P.pc c) = P := by
      unfold Criticality.Proc.setPc
      rw [Function.update_eq_self]
    rw [← hp, hsame]
    exact ⟨[], .nil⟩
  | equal he => exact one (.compareEq hp he)
  | differ he => exact one (.compareNe hp he)
  | reload => exact one (.reload hp)
  | finish => exact one (.noOverrun hp)
  | overrun wcet executedTime => exact one (.overrun ⟨wcet, executedTime⟩ hp)

theorem Core.addArrival_level (K : Core n) (J : Jobs n) (j : JobId n) :
    (K.addArrival J j).localCriticalityLevel = K.localCriticalityLevel := by
  unfold addArrival
  split_ifs
  · rfl
  · exact K.addByKind_level J j

theorem setDpmInterval_level (systemTime : ℕ) (K : Core n) (nextArrivalTime : ℕ) :
    (setDpmInterval systemTime K nextArrivalTime).localCriticalityLevel = K.localCriticalityLevel := by
  unfold setDpmInterval
  split_ifs <;> rfl

/-- A core by itself changes no level. -/
theorem LocalStep.levels (hs : LocalStep X K J K' J') :
    K'.localCriticalityLevel = K.localCriticalityLevel ∧
      LevelStep X.cfg.maxCriticalityLevels X.systemCriticalityLevel K.localCriticalityLevel
        K.pc.levels K'.pc.levels := by
  have stay : ∀ {q : Criticality.Pc}, K.pc.levels = q → K'.pc.levels = q →
      K'.localCriticalityLevel = K.localCriticalityLevel →
      K'.localCriticalityLevel = K.localCriticalityLevel ∧
        LevelStep X.cfg.maxCriticalityLevels X.systemCriticalityLevel K.localCriticalityLevel
          K.pc.levels K'.pc.levels := by
    intro q hq hq' hl
    rw [hq, hq']
    exact ⟨hl, .stay⟩
  cases hs with
  | cancel hs =>
    cases hs with
    | @remove msg msgs replica k j hp _ _ =>
      refine stay (q := .start) (by rw [hp]; rfl) rfl ?_
      cases replica <;> rfl
    | _ => exact stay (q := .start) (by rw [‹K.pc = _›]; rfl) rfl rfl
  | sync hs =>
    cases hs with
    | start hp => exact stay (q := .start) (by rw [hp]; rfl) (by split_ifs <;> rfl) rfl
    | equal hp he => exact ⟨rfl, by rw [hp]; exact .equal he⟩
    | differ hp he => exact ⟨rfl, by rw [hp]; exact .differ he⟩
    | reload hp => exact ⟨rfl, by rw [hp]; exact .reload⟩
    | @modeBody overrun hp =>
      have hl := modeChangeSection_level K J
      cases overrun with
      | false => exact stay (q := .run) (by rw [hp]; rfl) rfl hl
      | true => exact stay (q := .done) (by rw [hp]; rfl) rfl hl
    | sleep hp _ _ => exact ⟨rfl, by rw [hp]; exact .finish⟩
    | wake hp _ _ => exact stay (q := .run) (by rw [hp]; rfl) rfl rfl
    | awake hp _ => exact stay (q := .run) (by rw [hp]; rfl) rfl rfl
  | run hs =>
    cases hs with
    | overrun hp _ _ _ _ => exact ⟨rfl, by rw [hp]; exact .overrun _ _⟩
    | _ => exact ⟨rfl, by rw [‹K.pc = _›]; exact .finish⟩
  | arrival hs =>
    cases hs with
    | @pendingIns k j hp => exact stay (q := .done) (by rw [hp]; rfl) rfl (K.addArrival_level J j)
    | @allocIns j ms hp => exact stay (q := .done) (by rw [hp]; rfl) rfl (K.addArrival_level J j)
    | _ => exact stay (q := .done) (by rw [‹K.pc = _›]; rfl) rfl rfl
  | reclaim hs =>
    cases hs with
    | @accommodate j hp => exact stay (q := .done) (by rw [hp]; rfl) rfl (K.addByKind_level J j)
    | _ => exact stay (q := .done) (by rw [‹K.pc = _›]; rfl) rfl rfl
  | push hs => cases hs <;> exact stay (q := .done) (by rw [‹K.pc = _›]; rfl) rfl rfl
  | process hs =>
    cases hs with
    | lock1 hp => exact stay (q := .done) (by rw [hp]; rfl) (by split_ifs <;> rfl) rfl
    | insert hp _ => exact stay (q := .done) (by rw [hp]; rfl) rfl (K.addByKind_level _ _)
    | _ => exact stay (q := .done) (by rw [‹K.pc = _›]; rfl) rfl rfl
  | dispatch hs =>
    cases hs with
    | @pop j i hp _ _ _ =>
      refine stay (q := .done) (by rw [hp]; rfl) rfl ?_
      cases (J j).isReplica <;> rfl
    | @switch j r hp _ => exact stay (q := .done) (by rw [hp]; rfl) rfl (K.addByKind_level J r)
    | _ => exact stay (q := .done) (by rw [‹K.pc = _›]; rfl) rfl rfl
  | power hs =>
    cases hs with
    | begin hp => exact stay (q := .done) (by rw [hp]; rfl) (by split_ifs <;> rfl) rfl
    | @procrastinate j minSlack hp _ _ _ _ =>
      refine stay (q := .done) (by rw [hp]; rfl) rfl ?_
      show (Core.goto (if _ then _ else _) Pc.summary).localCriticalityLevel = _
      have hl : (K.preempt J j).localCriticalityLevel = K.localCriticalityLevel := K.addByKind_level J j
      split_ifs
      · exact (setDpmInterval_level ..).trans hl
      · exact hl
    | dpm hp =>
      refine stay (q := .done) (by rw [hp]; rfl) rfl ?_
      show (Core.goto (if _ then _ else _) Pc.summary).localCriticalityLevel = _
      split_ifs
      · exact setDpmInterval_level ..
      · rfl
    | _ => exact stay (q := .done) (by rw [‹K.pc = _›]; rfl) rfl rfl

/-! ## What a step does -/

/-- What a step of core `c` does to the levels and to its point in the protocol -/
inductive LevelMove (cfg : Config) (c : Fin n) (S S' : Sys n) : Prop
  | step (hsys : S'.systemCriticalityLevel = S.systemCriticalityLevel)
      (hl : (S'.core c).localCriticalityLevel = (S.core c).localCriticalityLevel)
      (hp : LevelStep cfg.maxCriticalityLevels S.systemCriticalityLevel (S.core c).localCriticalityLevel
        (S.core c).pc.levels (S'.core c).pc.levels)
  | store {level : ℕ} {overrun : Bool} (h : (S.core c).pc = .modeStore level overrun)
      (h' : (S'.core c).pc = .modeBody overrun) (hsys : S'.systemCriticalityLevel = level)
      (hl : (S'.core c).localCriticalityLevel = level)

namespace LevelMove

theorem of_core {q : Criticality.Pc} (hcore : S'.core = Function.update S.core c K')
    (hsys : S'.systemCriticalityLevel = S.systemCriticalityLevel)
    (hl : K'.localCriticalityLevel = (S.core c).localCriticalityLevel) (hq : (S.core c).pc.levels = q)
    (hq' : K'.pc.levels = q) : LevelMove cfg c S S' := by
  have hself : S'.core c = K' := by
    rw [hcore]
    exact Function.update_self ..
  refine .step hsys ?_ ?_
  · rw [hself]
    exact hl
  · rw [hself, hq, hq']
    exact .stay

end LevelMove

theorem PutStep.levels {K' : Core n} (h : PutStep K j K') :
    K'.localCriticalityLevel = K.localCriticalityLevel ∧ K'.pc.levels = K.pc.levels := by
  cases h <;> exact ⟨rfl, by rw [‹K.pc = _›]; rfl⟩

theorem CoreStep.levelMove (hs : CoreStep cfg c S S') : LevelMove cfg c S S' := by
  cases hs with
  | @own K' J' hs he =>
    have hself : S'.core c = K' := by
      rw [he]
      exact Function.update_self ..
    obtain ⟨hl, hp⟩ := hs.levels
    refine .step (by rw [he]; rfl) ?_ ?_
    · rw [hself]
      exact hl
    · rw [hself]
      exact hp
  | arrive hs =>
    cases hs with
    | modeStore hp =>
      refine .store hp ?_ rfl ?_
      · show (Function.update S.core c _ c).pc = _
        rw [Function.update_self]
      · show (Function.update S.core c _ c).localCriticalityLevel = _
        rw [Function.update_self]
    | @put j K' hput =>
      obtain ⟨f, g, he⟩ := (S.setCore c K').putJobRef_eq (some c) j
      rw [he]
      exact .of_core rfl rfl hput.levels.1 rfl hput.levels.2
    | create hp _ _ hj =>
      obtain ⟨-, f, g, rfl⟩ := Sys.takeFree_eq_some hj
      exact .of_core (q := .done) rfl rfl rfl (by rw [hp]; rfl) rfl
    | _ => exact .of_core (q := .done) rfl rfl rfl (by rw [‹(S.core c).pc = _›]; rfl) rfl
  | discard hs =>
    cases hs with
    | @accommodate k j hp _ =>
      exact .of_core (q := .done) rfl rfl (Core.addByKind_level _ S.job j) (by rw [hp]; rfl) rfl
    | done hp _ => exact .of_core (q := .done) rfl rfl rfl (by rw [hp]; rfl) (by split_ifs <;> rfl)
    | ack hp _ => exact .of_core rfl rfl rfl rfl rfl
    | _ => exact .of_core (q := .done) rfl rfl rfl (by rw [‹(S.core c).pc = _›]; rfl) rfl
  | offer hs =>
    cases hs with
    | createFuture hp _ hj =>
      obtain ⟨-, f, g, rfl⟩ := Sys.takeFree_eq_some hj
      exact .of_core (q := .done) rfl rfl rfl (by rw [hp]; rfl) rfl
    | _ => exact .of_core (q := .done) rfl rfl rfl (by rw [‹(S.core c).pc = _›]; rfl) rfl
  | request hs =>
    cases hs with
    | @accept rq hp _ _ =>
      refine .step rfl ?_ ?_
      · show (Function.update (fun d => (S.core d).listDel rq.job) c _ c).localCriticalityLevel = _
        rw [Function.update_self]
        rfl
      · show LevelStep _ _ _ _ (Function.update (fun d => (S.core d).listDel rq.job) c _ c).pc.levels
        rw [Function.update_self, hp]
        exact .stay
    | @putReject rq hp =>
      obtain ⟨f, g, he⟩ := (S.goto c .process).putJobRef_eq (some c) rq.job
      rw [he]
      exact .of_core (q := .done) rfl rfl rfl (by rw [hp]; rfl) rfl
    | @putAccept rq hp =>
      obtain ⟨f, g, he⟩ := ((S.setJob rq.job { S.job rq.job with
        nextMigrationEligibleTick := S.systemTime + jobMigrationCooldownTicks }).goto c
          .process).putJobRef_eq (some c) rq.job
      rw [he]
      exact .of_core (q := .done) rfl rfl rfl (by rw [hp]; rfl) rfl
    | _ => exact .of_core (q := .done) rfl rfl rfl (by rw [‹(S.core c).pc = _›]; rfl) rfl

/-- The other cores keep their levels and their points. -/
theorem Elsewhere.levels (h : Elsewhere S S' c d) :
    (S'.core d).localCriticalityLevel = (S.core d).localCriticalityLevel ∧
      (S'.core d).pc.levels = (S.core d).pc.levels := by
  rcases h.core with h | ⟨rq, -, -, -, h⟩ <;> rw [h] <;> exact ⟨rfl, rfl⟩

/-! ## The operations of the protocol -/

section

variable {P Q : Criticality.Proc n} {maxLevels level : ℕ}

theorem levels_ext (hsys : P.systemCriticalityLevel = Q.systemCriticalityLevel)
    (hl : ∀ c, P.localCriticalityLevel c = Q.localCriticalityLevel c) (hp : ∀ c, P.pc c = Q.pc c)
    (ht : P.timer = Q.timer) : P = Q := by
  obtain ⟨psys, plocal, ppc, ptimer⟩ := P
  obtain ⟨qsys, qlocal, qpc, qtimer⟩ := Q
  obtain rfl : psys = qsys := hsys
  obtain rfl : ptimer = qtimer := ht
  obtain rfl : plocal = qlocal := funext hl
  obtain rfl : ppc = qpc := funext hp
  rfl

theorem exists_block {R : Criticality.Proc n} {block : List (Trans (Criticality.Proc n) (Criticality.Label n))}
    (h : Exec (Criticality.Step maxLevels) P block R) (he : R = Q) :
    ∃ block, Exec (Criticality.Step maxLevels) P block Q := by
  rw [he] at h
  exact ⟨block, h⟩

/-- Where a core goes on after `handle_mode_change` -/
def afterModeChange : Criticality.Origin → Criticality.Pc
  | .sync => .run
  | .overrun => .done

/-- The two assignments of `handle_mode_change`, one right after the other -/
theorem exec_modeChange {k : Criticality.Origin} (ht : P.timer = .wait) (hp : P.pc c = .store level k) :
    ∃ block, Exec (Criticality.Step maxLevels) P block
      { systemCriticalityLevel := level
        localCriticalityLevel := Function.update P.localCriticalityLevel c level
        pc := Function.update P.pc c (afterModeChange k)
        timer := .wait } := by
  have h₁ : Exec (Criticality.Step maxLevels) P _
      { P.setPc c (.assign level k) with systemCriticalityLevel := level } :=
    Exec.nil.snoc (.core ht (.store hp))
  have hpc : { P.setPc c (.assign level k) with systemCriticalityLevel := level }.pc c = .assign level k :=
    P.setPc_pc_self c _
  have hpcs : ∀ q, Function.update (Function.update P.pc c (.assign level k)) c q = Function.update P.pc c q :=
    fun q => Function.update_idem ..
  cases k with
  | sync =>
    refine exists_block (h₁.snoc (.core ht (.assignSync hpc))) ?_
    exact levels_ext rfl (fun _ => rfl) (fun d => congrFun (hpcs _) d) ht
  | overrun =>
    refine exists_block (h₁.snoc (.core ht (.assignOverrun hpc))) ?_
    exact levels_ext rfl (fun _ => rfl) (fun d => congrFun (hpcs _) d) ht

/-- The timer between two ticks -/
theorem exec_advance (ht : P.timer = .wait) (hp : ∀ c, P.pc c = .done)
    (hl : level = P.systemCriticalityLevel ∨ P.systemCriticalityLevel < level ∧ level < maxLevels) :
    ∃ block, Exec (Criticality.Step maxLevels) P block
      { P with systemCriticalityLevel := level, timer := .wait, pc := fun _ => .start } := by
  have h₁ : Exec (Criticality.Step maxLevels) P _ { P with timer := .receive } :=
    Exec.nil.snoc (.enterReceive ht hp)
  have hreceive : { P with timer := .receive }.receive maxLevels level =
      { P with systemCriticalityLevel := level, timer := .receive } := by
    unfold Criticality.Proc.receive
    split_ifs with hlt
    · rfl
    · rcases hl with rfl | hl
      · rfl
      · exact absurd hl hlt
  have h₂ := h₁.snoc (.recv level rfl)
  rw [hreceive] at h₂
  have h₃ := h₂.snoc (.endReceive rfl)
  exact ⟨_, h₃.snoc (.resume rfl)⟩

end

/-! ## Runs -/

/-- The levels after a step of core `c` that has left all levels alone -/
theorem Sys.levels_setPc (hsys : S'.systemCriticalityLevel = S.systemCriticalityLevel)
    (hl : ∀ d, (S'.core d).localCriticalityLevel = (S.core d).localCriticalityLevel)
    (hp : ∀ d ≠ c, (S'.core d).pc.levels = (S.core d).pc.levels) :
    S.levels.setPc c (S'.core c).pc.levels = S'.levels := by
  refine levels_ext hsys.symm (fun d => (hl d).symm) (fun d => ?_) rfl
  by_cases hd : d = c
  · rw [hd, Criticality.Proc.setPc_pc_self]
    rfl
  · rw [Criticality.Proc.setPc_pc_ne _ _ hd]
    exact (hp d hd).symm

/-- A step of a core is a block of operations. -/
theorem CoreStep.block (hs : CoreStep cfg c S S') (hi : Inv S) :
    ∃ block, Exec (Criticality.Step cfg.maxCriticalityLevels) S.levels block S'.levels := by
  have hother : ∀ d ≠ c, (S'.core d).localCriticalityLevel = (S.core d).localCriticalityLevel ∧
      (S'.core d).pc.levels = (S.core d).pc.levels := fun d hd => (hs.elsewhere hi hd).levels
  cases hs.levelMove with
  | step hsys hl hp =>
    have hlevels : ∀ d, (S'.core d).localCriticalityLevel = (S.core d).localCriticalityLevel := by
      intro d
      by_cases hd : d = c
      · rw [hd]
        exact hl
      · exact (hother d hd).1
    rw [← Sys.levels_setPc hsys hlevels fun d hd => (hother d hd).2]
    exact LevelStep.exec (P := S.levels) rfl hp
  | @store level overrun hp hp' hsys hl =>
    -- the levels after `handle_mode_change`, however the core came to it
    have hafter : ∀ {P : Criticality.Proc n} {q : Criticality.Pc} {k : Criticality.Origin},
        P = S.levels.setPc c q → (S'.core c).pc.levels = afterModeChange k →
        { systemCriticalityLevel := level
          localCriticalityLevel := Function.update P.localCriticalityLevel c level
          pc := Function.update P.pc c (afterModeChange k)
          timer := .wait } = S'.levels := by
      rintro P q k rfl hq
      refine levels_ext hsys.symm (fun d => ?_) (fun d => ?_) rfl
      · by_cases hd : d = c
        · rw [hd]
          exact (Function.update_self ..).trans hl.symm
        · exact (Function.update_of_ne hd ..).trans (hother d hd).1.symm
      · by_cases hd : d = c
        · rw [hd]
          exact (Function.update_self ..).trans hq.symm
        · refine (Function.update_of_ne hd ..).trans ?_
          rw [Criticality.Proc.setPc_pc_ne _ _ hd]
          exact (hother d hd).2.symm
    cases overrun with
    | false =>
      have hpc : S.levels.pc c = .store level .sync := congrArg Pc.levels hp
      have hsame : S.levels = S.levels.setPc c (.store level .sync) := by
        rw [← hpc]
        exact levels_ext rfl (fun _ => rfl) (fun d => (congrFun (Function.update_eq_self c _) d).symm) rfl
      rw [← hafter (k := .sync) hsame (by rw [hp']; rfl)]
      exact exec_modeChange rfl hpc
    | true =>
      have hpc : S.levels.pc c = .broadcast level := congrArg Pc.levels hp
      have h₁ : Exec (Criticality.Step cfg.maxCriticalityLevels) S.levels _
          (S.levels.setPc c (.store level .overrun)) := Exec.nil.snoc (.core rfl (.broadcast hpc))
      obtain ⟨block, h₂⟩ : ∃ block, Exec (Criticality.Step cfg.maxCriticalityLevels)
          (S.levels.setPc c (.store level .overrun)) block _ :=
        exec_modeChange rfl (Criticality.Proc.setPc_pc_self ..)
      rw [hafter rfl (by rw [hp']; rfl)] at h₂
      exact ⟨_, h₁.append h₂⟩

theorem TimerStep.block (hs : TimerStep cfg S S') (hi : Inv S) :
    ∃ block, Exec (Criticality.Step cfg.maxCriticalityLevels) S.levels block S'.levels := by
  cases hs with
  | sweep _ _ | keep _ _ _ | expire _ _ _ => exact ⟨[], .nil⟩
  | @put k j _ =>
    obtain ⟨f, g, he⟩ := { S with timer := .sweep k }.putJobRef_eq none j
    rw [he]
    exact ⟨[], .nil⟩
  | advance hp _ _ hl =>
    refine exec_advance (P := S.levels) rfl (fun c => ?_) hl
    show (S.core c).pc.levels = .done
    rw [hi.timer (by rw [hp]; nofun) c]
    rfl

/-- **The processor refines the level protocol**: in every run of a processor,
    each step is a block of operations of the protocol on the levels. -/
theorem levels_refine (h : Exec (Step cfg) (Sys.init n) tr S) :
    ∃ tr', Exec (Criticality.Step cfg.maxCriticalityLevels) (Criticality.Proc.init n) tr' S.levels ∧
      Blocks (Criticality.Step cfg.maxCriticalityLevels) Sys.levels tr tr' := by
  refine h.simulate (f := Sys.levels) Inv.init (fun S a S' hi hs => hs.inv hi) fun S a S' hi hs => ?_
  cases hs with
  | core _ hs => exact hs.block hi
  | timer hs => exact hs.block hi

/-- Another processor announces level 1 in the first tick, and the core follows
    in the second. -/
theorem levels_refine_follow : ∃ S : Sys 1, S.systemCriticalityLevel = 1 ∧
    (S.core 0).localCriticalityLevel = 1 ∧
    ∃ tr', Exec (Criticality.Step 3) (Criticality.Proc.init 1) tr' S.levels := by
  have h : Exec (Step { OneCore.lowConfig with procId := 1 }) (Sys.init 1) [] _ := .nil
  have h := OneCore.own h (.sync (.start rfl))
  have h := OneCore.own h (.sync (.equal rfl rfl))
  have h := OneCore.own h (.sync (.awake rfl rfl))
  have h := OneCore.own h (.run (.idle rfl rfl))
  have h := OneCore.own h (.arrival (.pendingEnd rfl nofun))
  have h := OneCore.own h (.arrival (.allocEnd rfl))
  have h := OneCore.own h (.reclaim (.lock rfl))
  have h := OneCore.own h (.reclaim (.empty rfl rfl))
  have h := OneCore.shared h (.discard (.lock rfl ⟨Fin.forall_fin_one.2 rfl, rfl, nofun⟩))
  have h := OneCore.shared h (.discard (.done rfl rfl))
  have h := OneCore.own h (.dispatch (.none rfl nofun))
  have h := OneCore.own h (.power (.begin rfl))
  have h := OneCore.own h (.power (.dvfsSkip rfl))
  have h := OneCore.own h (.power (.dpm rfl))
  have h := OneCore.own h (.power (.summary rfl))
  have h := h.snoc (.timer (.sweep rfl (Fin.forall_fin_one.2 rfl)))
  have h := h.snoc (.timer (@TimerStep.advance _ _ _ _ 1 [] rfl rfl rfl (.inr (by decide))))
  have h := OneCore.own h (.sync (.start rfl))
  have h := OneCore.own h (.sync (.differ rfl (by decide)))
  have h := OneCore.own h (.sync (.reload rfl))
  have h := OneCore.shared h (.arrive (.modeStore rfl))
  obtain ⟨tr', hr, -⟩ := levels_refine h
  exact ⟨_, rfl, rfl, tr', hr⟩

/-- Where the overruns come in time, no step of the processor lowers the level. -/
theorem level_le_of_inTime {tr' : List (Trans (Criticality.Proc n) (Criticality.Label n))}
    (h : Exec (Criticality.Step cfg.maxCriticalityLevels) (Criticality.Proc.init n) tr' S.levels)
    (hb : Blocks (Criticality.Step cfg.maxCriticalityLevels) Sys.levels tr tr')
    (ht : Criticality.InTime cfg.maxCriticalityLevels tr') :
    ∀ x ∈ tr, x.pre.systemCriticalityLevel ≤ x.post.systemCriticalityLevel :=
  hb.le (m := Criticality.Proc.systemCriticalityLevel) (Criticality.follows_of_inTime h ht).1

end EeftSched

/-
  A missed deadline ends the run (`handle_running_job` in `sched_core.c`,
  `timer_thread_func` in `processor.c`).

  * `Misses`: a core finds that its job is late;
  * `MissMove`: what a step does between a miss and the request to shut down;
  * `miss_stops`: a tick in which a core finds a miss is the last one, and only
    a miss ends the run.
-/
import EeftSched.Execution

namespace EeftSched

open SortedQueue Lts

variable {n : ℕ} {K K' : Core n} {J J' : Jobs n} {j : JobId n} {c d : Fin n} {X : Ctx n}
  {cfg : Config} {S S' : Sys n} {tr : List (Trans (Sys n) (Label n))}

/-- Core `c` finds that its job is late. -/
def Misses (c : Fin n) (x : Trans (Sys n) (Label n)) : Prop :=
  x.lab = .core c ∧ (x.pre.core c).pc = .run ∧
    ∃ j, (x.pre.core c).runningJob = some j ∧ (x.pre.job j).actualDeadline < x.pre.systemTime

/-- The core has found a miss and has not asked for the shutdown yet. -/
def Pc.missing : Pc n → Bool
  | .missPut _ | .missFatal => true
  | _ => false

/-- A late job -/
def Core.Late (K : Core n) (J : Jobs n) (time : ℕ) : Prop :=
  K.pc = .run ∧ ∃ j, K.runningJob = some j ∧ (J j).actualDeadline < time

/-- A core by itself goes from a late job to `missPut`, and no other way. -/
theorem LocalStep.missing (hs : LocalStep X K J K' J') (hK : K.Ok J) :
    K.pc.missing = false ∧ (K'.pc.missing = true ↔ K.Late J X.systemTime) := by
  have quiet : K.pc.missing = false → K.pc ≠ .run → K'.pc.missing = false →
      K.pc.missing = false ∧ (K'.pc.missing = true ↔ K.Late J X.systemTime) := by
    intro hm hne hm'
    exact ⟨hm, fun h => (Bool.false_ne_true (hm'.symm.trans h)).elim, fun h => absurd h.1 hne⟩
  have inTime : ∀ {j : JobId n}, K.pc = .run → K.runningJob = some j →
      ¬ ((J j).execute K).missed X.systemTime → K'.pc.missing = false →
      K.pc.missing = false ∧ (K'.pc.missing = true ↔ K.Late J X.systemTime) := by
    rintro j hp hr hm hm'
    refine ⟨by rw [hp]; rfl, fun h => ?_, ?_⟩
    · exact (Bool.false_ne_true (hm'.symm.trans h)).elim
    · rintro ⟨-, i, hi, hlate⟩
      obtain rfl := Option.some.inj (hr.symm.trans hi)
      exact absurd ⟨hK.queues.running j hr, hlate⟩ hm
  cases hs with
  | cancel hs => cases hs <;> exact quiet (by rw [‹K.pc = _›]; rfl) (by rw [‹K.pc = _›]; nofun) rfl
  | sync hs =>
    cases hs with
    | start hp => exact quiet (by rw [hp]; rfl) (by rw [hp]; nofun) (by split_ifs <;> rfl)
    | @modeBody overrun hp => exact quiet (by rw [hp]; rfl) (by rw [hp]; nofun) (by cases overrun <;> rfl)
    | _ => exact quiet (by rw [‹K.pc = _›]; rfl) (by rw [‹K.pc = _›]; nofun) rfl
  | run hs =>
    cases hs with
    | idle hp hr =>
      refine ⟨by rw [hp]; rfl, nofun, ?_⟩
      rintro ⟨-, j, hj, -⟩
      cases hr.symm.trans hj
    | miss hp hr hm => exact ⟨by rw [hp]; rfl, fun _ => ⟨hp, _, hr, hm.2⟩, fun _ => rfl⟩
    | complete hp hr hm _ => exact inTime hp hr hm rfl
    | overrun hp hr hm _ _ => exact inTime hp hr hm rfl
    | go hp hr hm _ _ => exact inTime hp hr hm rfl
  | arrival hs => cases hs <;> exact quiet (by rw [‹K.pc = _›]; rfl) (by rw [‹K.pc = _›]; nofun) rfl
  | reclaim hs => cases hs <;> exact quiet (by rw [‹K.pc = _›]; rfl) (by rw [‹K.pc = _›]; nofun) rfl
  | push hs => cases hs <;> exact quiet (by rw [‹K.pc = _›]; rfl) (by rw [‹K.pc = _›]; nofun) rfl
  | process hs =>
    cases hs with
    | lock1 hp => exact quiet (by rw [hp]; rfl) (by rw [hp]; nofun) (by split_ifs <;> rfl)
    | _ => exact quiet (by rw [‹K.pc = _›]; rfl) (by rw [‹K.pc = _›]; nofun) rfl
  | dispatch hs => cases hs <;> exact quiet (by rw [‹K.pc = _›]; rfl) (by rw [‹K.pc = _›]; nofun) rfl
  | power hs =>
    cases hs with
    | begin hp => exact quiet (by rw [hp]; rfl) (by rw [hp]; nofun) (by split_ifs <;> rfl)
    | @procrastinate j minSlack hp _ _ _ _ => exact quiet (by rw [hp]; rfl) (by rw [hp]; nofun) rfl
    | dpm hp => exact quiet (by rw [hp]; rfl) (by rw [hp]; nofun) rfl
    | _ => exact quiet (by rw [‹K.pc = _›]; rfl) (by rw [‹K.pc = _›]; nofun) rfl

/-- What a step of core `c` does between a miss and the request to shut down -/
inductive MissMove (c : Fin n) (S S' : Sys n) : Prop
  | other (hp : (S.core c).pc.missing = false) (hl : ¬ (S.core c).Late S.job S.systemTime)
      (hp' : (S'.core c).pc.missing = false)
      (hf : S'.coreFatalShutdownRequested = S.coreFatalShutdownRequested)
  | miss (hl : (S.core c).Late S.job S.systemTime) (hp' : (S'.core c).pc.missing = true)
      (hf : S'.coreFatalShutdownRequested = S.coreFatalShutdownRequested)
  | put (hp : (S.core c).pc.missing = true) (hp' : (S'.core c).pc.missing = true)
      (hf : S'.coreFatalShutdownRequested = S.coreFatalShutdownRequested)
  | fatal (hp : (S.core c).pc.missing = true) (hf : S'.coreFatalShutdownRequested = true)

theorem MissMove.of_core (hcore : S'.core = Function.update S.core c K')
    (hf : S'.coreFatalShutdownRequested = S.coreFatalShutdownRequested)
    (hp : (S.core c).pc.missing = false) (hr : (S.core c).pc ≠ .run) (hp' : K'.pc.missing = false) :
    MissMove c S S' := by
  refine .other hp (fun hl => hr hl.1) ?_ hf
  rw [hcore, Function.update_self]
  exact hp'

theorem CoreStep.missMove (hs : CoreStep cfg c S S') (hi : Inv S) : MissMove c S S' := by
  cases hs with
  | @own K' J' hs he =>
    have hself : S'.core c = K' := by
      rw [he]
      exact Function.update_self ..
    have hf : S'.coreFatalShutdownRequested = S.coreFatalShutdownRequested := by
      rw [he]
      rfl
    obtain ⟨hp, hiff⟩ := hs.missing (hi.ok c)
    by_cases hl : (S.core c).Late S.job S.systemTime
    · refine .miss hl ?_ hf
      rw [hself]
      exact hiff.2 hl
    · refine .other hp hl ?_ hf
      rw [hself]
      exact Bool.eq_false_iff.2 fun hm => hl (hiff.1 hm)
  | arrive hs =>
    cases hs with
    | missFatal hp => exact .fatal (by rw [hp]; rfl) rfl
    | @put j K' hput =>
      obtain ⟨f, g, he⟩ := (S.setCore c K').putJobRef_eq (some c) j
      rw [he]
      cases hput with
      | missPut hp =>
        refine .put (by rw [hp]; rfl) ?_ rfl
        show (Function.update S.core c ((S.core c).goto .missFatal) c).pc.missing = true
        rw [Function.update_self]
        rfl
      | _ => exact .of_core rfl rfl (by rw [‹(S.core c).pc = _›]; rfl) (by rw [‹(S.core c).pc = _›]; nofun) rfl
    | create hp _ _ hj =>
      obtain ⟨-, f, g, rfl⟩ := Sys.takeFree_eq_some hj
      exact .of_core rfl rfl (by rw [hp]; rfl) (by rw [hp]; nofun) rfl
    | _ => exact .of_core rfl rfl (by rw [‹(S.core c).pc = _›]; rfl) (by rw [‹(S.core c).pc = _›]; nofun) rfl
  | discard hs =>
    cases hs with
    | done hp _ =>
      exact .of_core rfl rfl (by rw [hp]; rfl) (by rw [hp]; nofun) (by split_ifs <;> rfl)
    | ack hp _ =>
      refine .of_core rfl rfl (by rw [hp]; rfl) (by rw [hp]; nofun) ?_
      show (S.core c).pc.missing = false
      rw [hp]
      rfl
    | _ => exact .of_core rfl rfl (by rw [‹(S.core c).pc = _›]; rfl) (by rw [‹(S.core c).pc = _›]; nofun) rfl
  | offer hs =>
    cases hs with
    | createFuture hp _ hj =>
      obtain ⟨-, f, g, rfl⟩ := Sys.takeFree_eq_some hj
      exact .of_core rfl rfl (by rw [hp]; rfl) (by rw [hp]; nofun) rfl
    | _ => exact .of_core rfl rfl (by rw [‹(S.core c).pc = _›]; rfl) (by rw [‹(S.core c).pc = _›]; nofun) rfl
  | request hs =>
    cases hs with
    | @accept rq hp _ _ =>
      refine .other (by rw [hp]; rfl) (fun hl => ?_) ?_ rfl
      · cases hp.symm.trans hl.1
      · show (Function.update (fun d => (S.core d).listDel rq.job) c _ c).pc.missing = false
        rw [Function.update_self]
        rfl
    | @putReject rq hp =>
      obtain ⟨f, g, he⟩ := (S.goto c .process).putJobRef_eq (some c) rq.job
      rw [he]
      exact .of_core rfl rfl (by rw [hp]; rfl) (by rw [hp]; nofun) rfl
    | @putAccept rq hp =>
      obtain ⟨f, g, he⟩ := ((S.setJob rq.job { S.job rq.job with
        nextMigrationEligibleTick := S.systemTime + jobMigrationCooldownTicks }).goto c
          .process).putJobRef_eq (some c) rq.job
      rw [he]
      exact .of_core rfl rfl (by rw [hp]; rfl) (by rw [hp]; nofun) rfl
    | _ => exact .of_core rfl rfl (by rw [‹(S.core c).pc = _›]; rfl) (by rw [‹(S.core c).pc = _›]; nofun) rfl

/-! ## Runs -/

/-- A shutdown is requested, or core `c` is about to request it, in the tick `time`. -/
def Sys.Stops (S : Sys n) (c : Fin n) (time : ℕ) : Prop :=
  S.systemTime = time ∧ (S.coreFatalShutdownRequested = true ∨ (S.core c).pc.missing = true)

/-- **There is no other tick.** -/
theorem Sys.Stops.step {a : Label n} {time : ℕ} (h : S.Stops c time) (hi : Inv S)
    (hs : Step cfg S a S') : S'.Stops c time := by
  obtain ⟨htime, h⟩ := h
  cases hs with
  | @core d _ _ hs =>
    refine ⟨hs.systemTime_eq.trans htime, ?_⟩
    by_cases hdc : c = d
    · subst hdc
      cases hs.missMove hi with
      | other hp _ _ hf => exact .inl (hf.trans (h.resolve_right fun hm => Bool.false_ne_true (hp.symm.trans hm)))
      | miss _ hp' _ | put _ hp' _ => exact .inr hp'
      | fatal _ hf => exact .inl hf
    · rw [(hs.elsewhere hi hdc).pc]
      refine h.imp_left fun hflag => ?_
      cases hs.missMove hi with
      | other _ _ _ hf | miss _ _ hf | put _ _ hf => exact hf.trans hflag
      | fatal _ hf => exact hf
  | timer hs =>
    cases hs with
    | sweep _ _ | keep _ _ _ | expire _ _ _ => exact ⟨htime, h⟩
    | @put k j _ =>
      obtain ⟨f, g, he⟩ := { S with timer := .sweep k }.putJobRef_eq none j
      rw [he]
      exact ⟨htime, h⟩
    | advance hp _ hf _ =>
      rcases h with hflag | hm
      · exact (Bool.false_ne_true (hf.symm.trans hflag)).elim
      · rw [hi.timer (by rw [hp]; nofun) c] at hm
        cases hm

/-- A shutdown comes from a miss in this tick. -/
theorem Step.stops {a : Label n} (hs : Step cfg S a S') (hi : Inv S)
    (h : S'.coreFatalShutdownRequested = true ∨ ∃ c, (S'.core c).pc.missing = true) :
    S'.systemTime = S.systemTime ∧ ((S.coreFatalShutdownRequested = true ∨
      ∃ c, (S.core c).pc.missing = true) ∨ ∃ c, Misses c ⟨S, a, S'⟩) := by
  cases hs with
  | @core c _ _ hs =>
    refine ⟨hs.systemTime_eq, ?_⟩
    cases hs.missMove hi with
    | miss hl _ _ => exact .inr ⟨c, rfl, hl⟩
    | put hp _ _ | fatal hp _ => exact .inl (.inr ⟨c, hp⟩)
    | other _ _ hp' hf =>
      refine .inl (h.imp hf.symm.trans ?_)
      rintro ⟨d, hd⟩
      have hdc : d ≠ c := by
        rintro rfl
        exact Bool.false_ne_true (hp'.symm.trans hd)
      rw [(hs.elsewhere hi hdc).pc] at hd
      exact ⟨d, hd⟩
  | timer hs =>
    cases hs with
    | sweep _ _ | keep _ _ _ | expire _ _ _ => exact ⟨rfl, .inl h⟩
    | @put k j _ =>
      obtain ⟨f, g, he⟩ := { S with timer := .sweep k }.putJobRef_eq none j
      rw [he] at h ⊢
      exact ⟨rfl, .inl h⟩
    | advance _ _ hf _ =>
      rcases h with hflag | ⟨c, hc⟩
      · exact (Bool.false_ne_true (hf.symm.trans hflag)).elim
      · cases hc

/-- **A tick in which a core finds a miss is the last one**: no other tick
    starts, and a core that has found one arrives with the shutdown requested.
    Nothing else requests it. -/
theorem miss_stops (h : Exec (Step cfg) (Sys.init n) tr S) :
    (∀ x ∈ tr, ∀ c, Misses c x → S.systemTime = x.pre.systemTime ∧
      ((S.core c).pc = .arrived → S.coreFatalShutdownRequested = true)) ∧
    (S.coreFatalShutdownRequested = true →
      ∃ x ∈ tr, ∃ c, Misses c x ∧ x.pre.systemTime = S.systemTime) := by
  have hstops : ∀ x ∈ tr, ∀ c, Misses c x → S.Stops c x.pre.systemTime := by
    induction h with
    | nil => nofun
    | @snoc tr S a S' h hs ih =>
      have hi : Inv S := Reachable.inv ⟨_, h⟩
      intro x hx c hm
      rcases List.mem_append.1 hx with hx | hx
      · exact (ih x hx c hm).step hi hs
      · obtain rfl := List.mem_singleton.1 hx
        obtain ⟨hlab, hl⟩ := hm
        obtain rfl : a = .core c := hlab
        cases hs with
        | core _ hs =>
          refine ⟨hs.systemTime_eq, ?_⟩
          cases hs.missMove hi with
          | other _ hl' _ _ => exact absurd hl hl'
          | miss _ hp' _ | put _ hp' _ => exact .inr hp'
          | fatal _ hf => exact .inl hf
  have hcause : S.coreFatalShutdownRequested = true ∨ (∃ c, (S.core c).pc.missing = true) →
      ∃ x ∈ tr, ∃ c, Misses c x ∧ x.pre.systemTime = S.systemTime := by
    clear hstops
    induction h with
    | nil =>
      rintro (hf | ⟨c, hc⟩)
      · cases hf
      · cases hc
    | @snoc tr S a S' h hs ih =>
      intro hfail
      obtain ⟨htime, hfail | ⟨c, hc⟩⟩ := hs.stops (Reachable.inv ⟨_, h⟩) hfail
      · obtain ⟨x, hx, c, hm, ht⟩ := ih hfail
        exact ⟨x, List.mem_append_left _ hx, c, hm, ht.trans htime.symm⟩
      · exact ⟨_, List.mem_append_right _ List.mem_cons_self, c, hc, htime.symm⟩
  refine ⟨fun x hx c hm => ?_, fun hf => hcause (.inl hf)⟩
  obtain ⟨htime, hstop⟩ := hstops x hx c hm
  refine ⟨htime, fun hp => hstop.resolve_right fun hmiss => ?_⟩
  rw [hp] at hmiss
  cases hmiss

namespace OneCore

/-- A task whose jobs cannot meet their deadline -/
def tightTask : Task := ⟨1, 20, 1, fun _ => 5, 0⟩

def tightConfig : Config where
  maxCriticalityLevels := 1
  maxTasks := 1
  systemTasks := [tightTask]
  allocationMap := [⟨1, .primary, 0, 0, fun _ => 1⟩]
  procId := 0
  enableEcc := false
  enableMigration := false
  enableProcrastination := false
  enableDvfs := false
  enableDpm := false

theorem not_five_le : ¬ (5 : ℚ) ≤ 0 + 1 := by norm_num

theorem not_toFloat_five_le : ¬ toFloat 5 ≤ 0 + 1 := by
  rw [toFloat_eq (by norm_num)]
  norm_num

/-- A run goes on from where another one ended. -/
theorem onwards {cfg : Config} {tr : List (Trans (Sys 1) (Label 1))} {s S : Sys 1}
    (_h : Exec (Step cfg) s tr S) : Exec (Step cfg) S [] S := .nil

theorem misses_last {cfg : Config} {tr : List (Trans (Sys 1) (Label 1))} {s S S' : Sys 1}
    (_h : Exec (Step cfg) s (tr ++ [⟨S, .core 0, S'⟩]) S') (hl : (S.core 0).Late S.job S.systemTime) :
    ∃ x ∈ tr ++ [⟨S, .core 0, S'⟩], Misses 0 x :=
  ⟨_, List.mem_append_right _ List.mem_cons_self, rfl, hl⟩

/-- The job of tick 0 is late in tick 2, and its core arrives. -/
theorem one_miss : ∃ (tr : List (Trans (Sys 1) (Label 1))) (S : Sys 1),
    Exec (Step tightConfig) (Sys.init 1) tr S ∧ (∃ x ∈ tr, Misses 0 x) ∧ S.systemTime = 2 ∧
    (S.core 0).pc = .arrived := by
  have h : Exec (Step tightConfig) (Sys.init 1) [] _ := .nil
  have h := own h (.sync (.start rfl))
  have h := own h (.sync (.equal rfl rfl))
  have h := own h (.sync (.awake rfl rfl))
  have h := own h (.run (.idle rfl rfl))
  have h := own h (.arrival (.pendingEnd rfl nofun))
  have h := shared h (.arrive (@ArriveStep.create _ _ _ _ _ _ _ _ _ 5 rfl ⟨rfl, by decide, rfl⟩ nofun rfl))
  have h := own h (.arrival (.allocIns rfl))
  have h := own h (.arrival (.allocEnd rfl))
  have h := own h (.reclaim (.lock rfl))
  have h := own h (.reclaim (.empty rfl rfl))
  have h := shared h (.discard (.lock rfl ⟨Fin.forall_fin_one.2 rfl, rfl, nofun⟩))
  have h := shared h (.discard (.done rfl rfl))
  have h := own h (.dispatch (.pop rfl rfl nofun rfl))
  have h := own h (.dispatch (.start rfl rfl))
  have h := own h (.power (.begin rfl))
  have h := own h (.power (.dvfsSkip rfl))
  have h := own h (.power (.dpm rfl))
  have h := own h (.power (.summary rfl))
  have h := h.snoc (.timer (.sweep rfl (Fin.forall_fin_one.2 rfl)))
  have h := h.snoc (.timer (@TimerStep.advance _ _ _ _ 0 [] rfl rfl rfl (.inl rfl)))
  have h := own h (.sync (.start rfl))
  have h := own h (.sync (.equal rfl rfl))
  have h := own h (.sync (.awake rfl rfl))
  have h := own h (.run (.go rfl rfl (fun hm => absurd hm.2 (by decide)) not_five_le not_toFloat_five_le))
  have h := own h (.arrival (.pendingEnd rfl nofun))
  have h := own h (.arrival (.allocSkip rfl (Ctx.not_releases rfl (by decide))))
  have h := own h (.arrival (.allocEnd rfl))
  have h := own h (.reclaim (.lock rfl))
  have h := own h (.reclaim (.empty rfl rfl))
  have h := shared h (.discard (.lock rfl ⟨Fin.forall_fin_one.2 rfl, rfl, nofun⟩))
  have h := shared h (.discard (.done rfl rfl))
  have h := own h (.dispatch (.none rfl nofun))
  have h := own h (.power (.begin rfl))
  have h := own h (.power (.dvfsSkip rfl))
  have h := own h (.power (.dpm rfl))
  have h := own h (.power (.summary rfl))
  have h := h.snoc (.timer (.sweep rfl (Fin.forall_fin_one.2 rfl)))
  have h := h.snoc (.timer (@TimerStep.advance _ _ _ _ 0 [] rfl rfl rfl (.inl rfl)))
  have h := own h (.sync (.start rfl))
  have h := own h (.sync (.equal rfl rfl))
  have h := own h (.sync (.awake rfl rfl))
  have h := own h (.run (.miss rfl rfl ⟨rfl, by decide⟩))
  obtain ⟨x, hx, hmiss⟩ := misses_last h ⟨rfl, _, rfl, by decide⟩
  -- the core goes on to the barrier
  have hend := onwards h
  have hend := shared hend (.arrive (.put (.missPut rfl)))
  have hend := shared hend (.arrive (.missFatal rfl))
  have hend := own hend (.arrival (.pendingEnd rfl nofun))
  have hend := own hend (.arrival (.allocSkip rfl (Ctx.not_releases rfl (by decide))))
  have hend := own hend (.arrival (.allocEnd rfl))
  have hend := own hend (.reclaim (.lock rfl))
  have hend := own hend (.reclaim (.empty rfl rfl))
  have hend := shared hend (.discard (.lock rfl ⟨Fin.forall_fin_one.2 rfl, rfl, nofun⟩))
  have hend := shared hend (.discard (.done rfl rfl))
  have hend := own hend (.dispatch (.none rfl nofun))
  have hend := own hend (.power (.begin rfl))
  have hend := own hend (.power (.dvfsSkip rfl))
  have hend := own hend (.power (.dpm rfl))
  have hend := own hend (.power (.summary rfl))
  exact ⟨_, _, h.append hend, ⟨x, List.mem_append_left _ hx, hmiss⟩, rfl, rfl⟩

end OneCore

theorem miss_stops_one : ∃ (tr : List (Trans (Sys 1) (Label 1))) (S : Sys 1),
    Exec (Step OneCore.tightConfig) (Sys.init 1) tr S ∧ (S.core 0).pc = .arrived ∧
    S.coreFatalShutdownRequested = true ∧ S.systemTime = 2 ∧
    ∃ x ∈ tr, ∃ c, Misses c x ∧ x.pre.systemTime = S.systemTime := by
  obtain ⟨tr, S, h, ⟨x, hx, hm⟩, htime, harr⟩ := OneCore.one_miss
  obtain ⟨hlast, hcause⟩ := miss_stops h
  have hfatal := (hlast x hx 0 hm).2 harr
  exact ⟨tr, S, h, harr, hfatal, htime, hcause hfatal⟩

end EeftSched

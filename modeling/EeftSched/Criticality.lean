/-
  The criticality level of a processor (`scheduler_tick`, `handle_mode_change`
  in `sched_core.c`, `ipc_receive_completion_messages` in `ipc.c`).

  Every core reads and writes `proc_state.system_criticality_level` by
  separate atomic operations, so a step here is one of them:

  * `compareEq`, `compareNe`: the load in the condition at the top of
    `scheduler_tick`;
  * `reload`: the second load, the argument of `handle_mode_change`;
  * `overrun`, `broadcast`: `handle_running_job` finds an overrun of a job and
    sends the new level (`ipc_broadcast_criticality_change`);
  * `store`, `assign`: the two assignments of `handle_mode_change`.

  The timer receives (`recv`) while all cores wait at `time_sync_barrier`.

  * `RunningJob.reaches_iff`: how far the level goes with a job that overruns;
  * `systemLevel_le_iff`: no store of a run lowers the level if, and over whole
    ticks only if, every overrun comes in time: its job has used up its budgets
    below the level of the processor, and no other core has yet to store a level
    that the job has used up as well.
-/
import EeftSched.Lib.Exec
import EeftSched.Task
import Mathlib.Logic.Function.Basic
import Mathlib.Tactic.Common

namespace EeftSched.Criticality

open Lts

/-- Who called `handle_mode_change`. -/
inductive Origin where
  | sync
  | overrun
deriving DecidableEq, Repr

/-- Where a core is in the part of its tick that touches the level. -/
inductive Pc where
  /-- at the top of `scheduler_tick` -/
  | start
  /-- the levels differ: about to load the argument of `handle_mode_change` -/
  | reload
  /-- in `handle_mode_change`: about to store `v` in the shared level -/
  | store (v : ℕ) (k : Origin)
  /-- about to assign `v` to `local_criticality_level` -/
  | assign (v : ℕ) (k : Origin)
  /-- after the synchronisation step -/
  | run
  /-- `handle_running_job` found an overrun and is about to send `v` -/
  | broadcast (v : ℕ)
  /-- no further access to the level in this tick -/
  | done
deriving DecidableEq, Repr

/-- The timer: waiting for the cores, in its receive phase, or past it. -/
inductive Timer where
  | wait
  | receive
  | rest
deriving DecidableEq, Repr

/-- A processor of `n` cores. -/
structure Proc (n : ℕ) where
  systemCriticalityLevel : ℕ
  localCriticalityLevel : Fin n → ℕ
  pc : Fin n → Pc
  timer : Timer

/-- `processor_init`, `scheduler_init` -/
def Proc.init (n : ℕ) : Proc n := ⟨0, fun _ => 0, fun _ => .start, .wait⟩

/-- The running job as `handle_running_job` reads it: the budgets of its task,
    and what it has executed -/
structure RunningJob where
  wcet : ℕ → ℕ
  executedTime : ℚ

/-- What a core does in a step. -/
inductive Act where
  | begin
  | overrun (job : RunningJob)
  | store (k : Origin) (v : ℕ)
  | broadcast (v : ℕ)
  | finish
  | other

inductive Label (n : ℕ) where
  | core (c : Fin n) (a : Act)
  /-- all cores arrived at `core_completion_barrier` -/
  | enterReceive
  | recv (newLevel : ℕ)
  | endReceive
  /-- `time_sync_barrier` is full: the next tick starts -/
  | resume

variable {n : ℕ}

def Proc.setPc (P : Proc n) (c : Fin n) (q : Pc) : Proc n :=
  { P with pc := Function.update P.pc c q }

/-- One atomic operation of core `c`. -/
inductive CoreStep (maxLevels : ℕ) (c : Fin n) (P : Proc n) : Act → Proc n → Prop
  | compareEq (h : P.pc c = .start) (he : P.localCriticalityLevel c = P.systemCriticalityLevel) :
      CoreStep maxLevels c P .begin (P.setPc c .run)
  | compareNe (h : P.pc c = .start) (he : P.localCriticalityLevel c ≠ P.systemCriticalityLevel) :
      CoreStep maxLevels c P .begin (P.setPc c .reload)
  | reload (h : P.pc c = .reload) :
      CoreStep maxLevels c P .other (P.setPc c (.store P.systemCriticalityLevel .sync))
  | store {v : ℕ} {k : Origin} (h : P.pc c = .store v k) :
      CoreStep maxLevels c P (.store k v)
        { P.setPc c (.assign v k) with systemCriticalityLevel := v }
  | assignSync {v : ℕ} (h : P.pc c = .assign v .sync) :
      CoreStep maxLevels c P .other
        { P.setPc c .run with
          localCriticalityLevel := Function.update P.localCriticalityLevel c v }
  | assignOverrun {v : ℕ} (h : P.pc c = .assign v .overrun) :
      CoreStep maxLevels c P .finish
        { P.setPc c .done with
          localCriticalityLevel := Function.update P.localCriticalityLevel c v }
  /-- The core sleeps, is idle, or its job does not overrun. -/
  | noOverrun (h : P.pc c = .run) : CoreStep maxLevels c P .finish (P.setPc c .done)
  /-- The running job has used up its budget. -/
  | overrun (job : RunningJob) (h : P.pc c = .run) :
      CoreStep maxLevels c P (.overrun job)
        (P.setPc c
          (.broadcast (newCritLevel maxLevels job.wcet job.executedTime (P.localCriticalityLevel c))))
  | broadcast {v : ℕ} (h : P.pc c = .broadcast v) :
      CoreStep maxLevels c P (.broadcast v) (P.setPc c (.store v .overrun))

/-- The criticality branch of `ipc_receive_completion_messages`. -/
def Proc.receive (maxLevels : ℕ) (P : Proc n) (newLevel : ℕ) : Proc n :=
  if newLevel > P.systemCriticalityLevel ∧ newLevel < maxLevels then
    { P with systemCriticalityLevel := newLevel }
  else P

/-- One step of a processor.  The cores run while the timer waits at
    `core_completion_barrier`, the timer while the cores wait for it. -/
inductive Step (maxLevels : ℕ) (P : Proc n) : Label n → Proc n → Prop
  | core {c : Fin n} {a : Act} {P' : Proc n} (ht : P.timer = .wait)
      (h : CoreStep maxLevels c P a P') : Step maxLevels P (.core c a) P'
  | enterReceive (ht : P.timer = .wait) (hd : ∀ c, P.pc c = .done) :
      Step maxLevels P .enterReceive { P with timer := .receive }
  | recv (newLevel : ℕ) (ht : P.timer = .receive) :
      Step maxLevels P (.recv newLevel) (P.receive maxLevels newLevel)
  | endReceive (ht : P.timer = .receive) :
      Step maxLevels P .endReceive { P with timer := .rest }
  | resume (ht : P.timer = .rest) :
      Step maxLevels P .resume { P with timer := .wait, pc := fun _ => .start }

@[simp] theorem Proc.setPc_pc_self (P : Proc n) (c : Fin n) (q : Pc) : (P.setPc c q).pc c = q := by
  simp [setPc]

theorem Proc.setPc_pc_ne (P : Proc n) {c d : Fin n} (q : Pc) (h : d ≠ c) :
    (P.setPc c q).pc d = P.pc d := by
  simp [setPc, h]

@[simp] theorem Proc.setPc_level (P : Proc n) (c : Fin n) (q : Pc) :
    (P.setPc c q).systemCriticalityLevel = P.systemCriticalityLevel := rfl

@[simp] theorem Proc.setPc_local (P : Proc n) (c : Fin n) (q : Pc) :
    (P.setPc c q).localCriticalityLevel = P.localCriticalityLevel := rfl

@[simp] theorem Proc.setPc_timer (P : Proc n) (c : Fin n) (q : Pc) :
    (P.setPc c q).timer = P.timer := rfl

/-! ## A lower bound no core can break -/

/-- What core `c` may still write in this tick is at least `b`. -/
def PcAtLeast (b : ℕ) (P : Proc n) (c : Fin n) : Prop :=
  match P.pc c with
  | .start | .reload | .done => True
  | .store v _ | .assign v _ | .broadcast v => b ≤ v
  | .run => b ≤ P.localCriticalityLevel c

/-- The shared level, and whatever a core may still store in it, is at least
    `b`. -/
structure AtLeast (b : ℕ) (P : Proc n) : Prop where
  level : b ≤ P.systemCriticalityLevel
  cores : ∀ c, PcAtLeast b P c

theorem AtLeast.zero (P : Proc n) : AtLeast 0 P :=
  ⟨Nat.zero_le _, fun c => by unfold PcAtLeast; cases P.pc c <;> simp⟩

/-- A step of `c` leaves the bound of another core alone. -/
theorem PcAtLeast.congr {b : ℕ} {P P' : Proc n} {d : Fin n} (hp : P'.pc d = P.pc d)
    (hl : P'.localCriticalityLevel d = P.localCriticalityLevel d) (h : PcAtLeast b P d) :
    PcAtLeast b P' d := by
  unfold PcAtLeast at h ⊢
  rw [hp, hl]; exact h

/-- What a step of core `c` can do: to the other cores nothing, and to the
    shared level only a store of the value the core holds. -/
theorem CoreStep.frame {maxLevels : ℕ} {c : Fin n} {P P' : Proc n} {a : Act}
    (h : CoreStep maxLevels c P a P') :
    P'.timer = P.timer ∧ (∀ d, d ≠ c → P'.pc d = P.pc d ∧
      P'.localCriticalityLevel d = P.localCriticalityLevel d) ∧
    (P'.systemCriticalityLevel = P.systemCriticalityLevel ∨
      ∃ v k, a = .store k v ∧ P.pc c = .store v k ∧ P'.systemCriticalityLevel = v) := by
  cases h with
  | store h =>
    exact ⟨rfl, fun d hd => ⟨Proc.setPc_pc_ne _ _ hd, rfl⟩, Or.inr ⟨_, _, rfl, h, rfl⟩⟩
  | assignSync h | assignOverrun h =>
    exact ⟨rfl, fun d hd => ⟨Proc.setPc_pc_ne _ _ hd, by simp [hd]⟩, Or.inl rfl⟩
  | compareEq | compareNe | reload | noOverrun | overrun | broadcast =>
    exact ⟨rfl, fun d hd => ⟨Proc.setPc_pc_ne _ _ hd, rfl⟩, Or.inl rfl⟩

/-- The acting core keeps the bound on what it may still write. -/
theorem CoreStep.pcAtLeast {maxLevels b : ℕ} {c : Fin n} {P P' : Proc n} {a : Act}
    (h : CoreStep maxLevels c P a P') (hb : AtLeast b P) : PcAtLeast b P' c := by
  have hl := hb.level
  have hc := hb.cores c
  unfold PcAtLeast at hc ⊢
  cases h with
  | compareEq h he => simpa [he] using hl
  | compareNe h he => simp
  | reload h => simpa using hl
  | store h => simpa [h] using hc
  | assignSync h => simpa [h] using hc
  | assignOverrun h => simp
  | noOverrun h => simp
  | overrun job h =>
    simp only [h] at hc
    simpa using hc.trans (newCritLevel_ge maxLevels job.wcet job.executedTime _)
  | broadcast h => simpa [h] using hc

theorem CoreStep.atLeast {maxLevels b : ℕ} {c : Fin n} {P P' : Proc n} {a : Act}
    (h : CoreStep maxLevels c P a P') (hb : AtLeast b P) : AtLeast b P' := by
  obtain ⟨-, hne, hlvl⟩ := h.frame
  refine ⟨?_, fun d => ?_⟩
  · rcases hlvl with he | ⟨v, k, -, hpc, he⟩
    · rw [he]; exact hb.level
    · have := hb.cores c
      rw [PcAtLeast, hpc] at this
      rw [he]; exact this
  · by_cases hd : d = c
    · subst hd; exact h.pcAtLeast hb
    · exact (hb.cores d).congr (hne d hd).1 (hne d hd).2

theorem Proc.le_receive (maxLevels : ℕ) (P : Proc n) (m : ℕ) :
    P.systemCriticalityLevel ≤ (P.receive maxLevels m).systemCriticalityLevel := by
  unfold receive
  split_ifs with h
  · exact h.1.le
  · exact le_rfl

theorem Proc.receive_frame (maxLevels : ℕ) (P : Proc n) (m : ℕ) :
    (P.receive maxLevels m).pc = P.pc ∧ (P.receive maxLevels m).timer = P.timer ∧
      (P.receive maxLevels m).localCriticalityLevel = P.localCriticalityLevel := by
  unfold receive
  split_ifs <;> exact ⟨rfl, rfl, rfl⟩

/-- **A lower bound on the level survives every step.** -/
theorem Step.atLeast {maxLevels b : ℕ} {P P' : Proc n} {a : Label n} (h : Step maxLevels P a P')
    (hb : AtLeast b P) : AtLeast b P' := by
  cases h with
  | core _ h => exact h.atLeast hb
  | enterReceive | endReceive => exact ⟨hb.level, hb.cores⟩
  | recv m _ =>
    obtain ⟨hp, -, hl⟩ := P.receive_frame maxLevels m
    exact ⟨hb.level.trans (P.le_receive maxLevels m),
      fun c => (hb.cores c).congr (congrFun hp c) (congrFun hl c)⟩
  | resume => exact ⟨hb.level, fun c => trivial⟩

/-! ## The overruns of a run -/

section
variable {maxLevels l m : ℕ} {job : RunningJob} {c d : Fin n} {tr : List (Trans (Proc n) (Label n))}
  {x : Trans (Proc n) (Label n)} {P P' : Proc n} {a : Act}

/-- The budgets of the job at the levels between `l` and `m` are used up, and one
    of those from `m` on is not. -/
def RunningJob.Reaches (job : RunningJob) (maxLevels l m : ℕ) : Prop :=
  (∀ level, l < level → level < m → toFloat (job.wcet level) ≤ job.executedTime) ∧
    ∃ level, m ≤ level ∧ level < maxLevels ∧ job.executedTime < toFloat (job.wcet level)

theorem RunningJob.Reaches.le (h : job.Reaches maxLevels l m) :
    m ≤ newCritLevel maxLevels job.wcet job.executedTime l := by
  by_cases hlm : l < m
  · obtain ⟨hused, level, hle, hmax, hleft⟩ := h
    obtain ⟨hlt, -, hbudget⟩ := (newCritLevel_isLeast (hlm.trans_le hle) hmax hleft).1
    by_contra hnot
    exact absurd (hused _ hlt (not_le.1 hnot)) (not_le.2 hbudget)
  · exact (not_lt.1 hlm).trans (newCritLevel_ge ..)

theorem RunningJob.reaches_iff (hlm : l < m) :
    job.Reaches maxLevels l m ↔ m ≤ newCritLevel maxLevels job.wcet job.executedTime l := by
  refine ⟨Reaches.le, fun h => ?_⟩
  obtain ⟨hmax, hbudget⟩ := newCritLevel_budget (hlm.trans_le h)
  refine ⟨fun level hl hlevel => ?_, _, h, hmax, hbudget⟩
  by_contra hnot
  have hlt : level < maxLevels := by omega
  have hleast := (newCritLevel_isLeast hl hlt (not_le.1 hnot)).2 ⟨hl, hlt, not_le.1 hnot⟩
  omega

/-- The job with which core `c` has last overrun, after a step -/
def overrunAfter (c : Fin n) (last : Option RunningJob) : Label n → Option RunningJob
  | .core d (.overrun job) => if d = c then some job else last
  | _ => last

/-- The job with which core `c` has last overrun in a run -/
def lastOverrun (tr : List (Trans (Proc n) (Label n))) (c : Fin n) : Option RunningJob :=
  tr.foldl (fun last x => overrunAfter c last x.lab) none

theorem lastOverrun_snoc : lastOverrun (tr ++ [x]) c = overrunAfter c (lastOverrun tr c) x.lab := by
  simp [lastOverrun]

/-- Core `c` is on its way to store the level of its overrun. -/
def Proc.Overruns (P : Proc n) (c : Fin n) (v : ℕ) : Prop :=
  P.pc c = .broadcast v ∨ P.pc c = .store v .overrun

/-- The level a core is about to store is that of the job it has last overrun with. -/
theorem exists_lastOverrun (h : Exec (Step maxLevels) (Proc.init n) tr P) {v : ℕ} (hv : P.Overruns c v) :
    ∃ job, lastOverrun tr c = some job ∧
      v = newCritLevel maxLevels job.wcet job.executedTime (P.localCriticalityLevel c) := by
  induction h with
  | nil => rcases hv with hv | hv <;> cases hv
  | @snoc tr P a P' h hs ih =>
    -- a step that leaves the core where it was
    have hstay : P'.pc c = P.pc c → P'.localCriticalityLevel c = P.localCriticalityLevel c →
        overrunAfter c (lastOverrun tr c) a = lastOverrun tr c →
        ∃ job, lastOverrun (tr ++ [⟨P, a, P'⟩]) c = some job ∧
          v = newCritLevel maxLevels job.wcet job.executedTime (P'.localCriticalityLevel c) := by
      intro hpc hlocal hlast
      rw [lastOverrun_snoc, hlast, hlocal]
      exact ih (by rwa [Proc.Overruns, hpc] at hv)
    cases hs with
    | enterReceive | endReceive => exact hstay rfl rfl rfl
    | recv m =>
      obtain ⟨hpc, -, hlocal⟩ := P.receive_frame maxLevels m
      exact hstay (congrFun hpc c) (congrFun hlocal c) rfl
    | resume => rcases hv with hv | hv <;> cases hv
    | @core d a P' ht hc =>
      obtain ⟨-, hne, -⟩ := hc.frame
      by_cases hd : c = d
      · subst hd
        cases hc with
        | overrun job hpc =>
          have hb : v = newCritLevel maxLevels job.wcet job.executedTime (P.localCriticalityLevel c) := by
            rcases hv with hv | hv
            · simpa using hv.symm
            · simp at hv
          refine ⟨job, ?_, hb⟩
          rw [lastOverrun_snoc]
          exact if_pos rfl
        | @broadcast w hpc =>
          obtain rfl : w = v := by
            rcases hv with hv | hv
            · simp at hv
            · simpa using hv
          rw [lastOverrun_snoc]
          exact ih (.inl hpc)
        | _ =>
          rcases hv with hv | hv
          · simp [Proc.setPc] at hv
          · simp [Proc.setPc] at hv
      · obtain ⟨hpc, hlocal⟩ := hne c hd
        refine hstay hpc hlocal ?_
        cases a with
        | overrun job => exact if_neg (Ne.symm hd)
        | _ => rfl

/-! ## When the level is never lowered -/

/-- No step of the run lowers the level. -/
def NeverLowered (tr : List (Trans (Proc n) (Label n))) : Prop :=
  ∀ x ∈ tr, x.pre.systemCriticalityLevel ≤ x.post.systemCriticalityLevel

/-- The store of core `c`, whose job overran, comes in time: the budgets of the
    job below the level of the processor are used up too, and no core has loaded
    a level, and not stored it yet, whose budget the job has used up. -/
structure RunningJob.InTime (job : RunningJob) (maxLevels : ℕ) (c : Fin n) (P : Proc n) : Prop where
  reaches : P.localCriticalityLevel c < P.systemCriticalityLevel →
    job.Reaches maxLevels (P.localCriticalityLevel c) P.systemCriticalityLevel
  loaded : ∀ d w, P.pc d = .store w .sync → ¬ job.Reaches maxLevels (P.localCriticalityLevel c) (w + 1)

/-- Every overrun of the run stores its level in time. -/
def InTime (maxLevels : ℕ) (tr : List (Trans (Proc n) (Label n))) : Prop :=
  ∀ l₁ x l₂, tr = l₁ ++ x :: l₂ → ∀ c v job, x.lab = .core c (.store .overrun v) →
    lastOverrun l₁ c = some job → job.InTime maxLevels c x.pre

theorem neverLowered_snoc : NeverLowered (tr ++ [x]) ↔
    NeverLowered tr ∧ x.pre.systemCriticalityLevel ≤ x.post.systemCriticalityLevel := by
  simp only [NeverLowered, List.mem_append, List.mem_singleton, or_imp, forall_and, forall_eq]

theorem inTime_snoc : InTime maxLevels (tr ++ [x]) ↔ InTime maxLevels tr ∧
    ∀ c v job, x.lab = .core c (.store .overrun v) → lastOverrun tr c = some job →
      job.InTime maxLevels c x.pre := by
  constructor
  · intro h
    refine ⟨fun l₁ y l₂ he => ?_, h tr x [] rfl⟩
    exact h l₁ y (l₂ ++ [x]) (by rw [he]; simp)
  · rintro ⟨h, hx⟩ l₁ y l₂ he
    rcases List.eq_nil_or_concat l₂ with rfl | ⟨l, z, rfl⟩
    · obtain ⟨rfl, hy⟩ := List.append_inj' he rfl
      rw [List.singleton_inj] at hy
      rw [← hy]; exact hx
    · rw [List.concat_eq_append, ← List.cons_append, ← List.append_assoc] at he
      exact h l₁ y l (List.append_inj' he rfl).1

/-- While the level is never lowered, no core is above it, and the levels that
    are about to be copied are the current one. -/
structure Follows (P : Proc n) : Prop where
  idle : P.timer ≠ .wait → ∀ c, P.pc c = .done
  locals : ∀ c, P.localCriticalityLevel c ≤ P.systemCriticalityLevel
  assigns : ∀ c v k, P.pc c = .assign v k → v ≤ P.systemCriticalityLevel
  loaded : ∀ c v, P.pc c = .store v .sync → v = P.systemCriticalityLevel

theorem Follows.init : Follows (Proc.init n) where
  idle h := absurd rfl h
  locals _ := le_rfl
  assigns _ _ _ h := by cases h
  loaded _ _ h := by cases h

/-- What a store of an overrun must be for the other cores to follow -/
def Timely (P : Proc n) : Act → Prop
  | .store .overrun v => P.systemCriticalityLevel ≤ v ∧ ∀ c w, P.pc c = .store w .sync → v ≤ w
  | _ => True

/-- A step of a core that leaves the shared level alone -/
theorem Follows.core (h : Follows P) (ht : P.timer = .wait) (ht' : P'.timer = P.timer)
    (hsys : P'.systemCriticalityLevel = P.systemCriticalityLevel)
    (hne : ∀ d, d ≠ c → P'.pc d = P.pc d ∧ P'.localCriticalityLevel d = P.localCriticalityLevel d)
    (hlocal : P'.localCriticalityLevel c ≤ P.systemCriticalityLevel)
    (hassign : ∀ v k, P'.pc c = .assign v k → v ≤ P.systemCriticalityLevel)
    (hloaded : ∀ v, P'.pc c = .store v .sync → v = P.systemCriticalityLevel) : Follows P' := by
  refine ⟨fun hw => absurd (ht'.trans ht) hw, fun d => ?_, fun d v k hv => ?_, fun d v hv => ?_⟩
  · rw [hsys]
    by_cases hd : d = c
    · rw [hd]
      exact hlocal
    · rw [(hne d hd).2]
      exact h.locals d
  · rw [hsys]
    by_cases hd : d = c
    · exact hassign v k (hd ▸ hv)
    · exact h.assigns d v k ((hne d hd).1 ▸ hv)
  · rw [hsys]
    by_cases hd : d = c
    · exact hloaded v (hd ▸ hv)
    · exact h.loaded d v ((hne d hd).1 ▸ hv)

theorem CoreStep.follows (hs : CoreStep maxLevels c P a P') (h : Follows P) (ht : P.timer = .wait)
    (ha : Timely P a) : P.systemCriticalityLevel ≤ P'.systemCriticalityLevel ∧ Follows P' := by
  obtain ⟨htimer, hne, -⟩ := hs.frame
  have hlocal := h.locals c
  cases hs with
  | compareEq | compareNe | noOverrun | overrun | broadcast =>
    refine ⟨le_rfl, h.core ht rfl rfl hne hlocal (fun v k hv => ?_) fun v hv => ?_⟩
    · simp at hv
    · simp at hv
  | reload =>
    refine ⟨le_rfl, h.core ht rfl rfl hne hlocal (fun v k hv => ?_) fun v hv => ?_⟩
    · simp at hv
    · simpa using hv.symm
  | @assignSync v hpc | @assignOverrun v hpc =>
    refine ⟨le_rfl, h.core ht rfl rfl hne ?_ (fun w k hw => ?_) fun w hw => ?_⟩
    · simpa using h.assigns c v _ hpc
    · simp [Proc.setPc] at hw
    · simp [Proc.setPc] at hw
  | @store v k hpc =>
    have hpc' : ∀ w, Function.update P.pc c (.assign v k) c ≠ .store w .sync := by
      intro w
      rw [Function.update_self]
      nofun
    cases k with
    | sync =>
      -- the level is stored as it is
      obtain rfl := h.loaded c v hpc
      refine ⟨le_rfl, h.core ht rfl rfl hne hlocal (fun w k hw => ?_) fun w hw => absurd hw (hpc' w)⟩
      simp only [Proc.setPc, Function.update_self, Pc.assign.injEq] at hw
      exact hw.1.ge
    | overrun =>
      obtain ⟨hle, hpending⟩ := ha
      refine ⟨hle, fun hw => absurd ht hw, fun d => (h.locals d).trans hle, fun d w k hw => ?_,
        fun d w hw => ?_⟩
      · by_cases hd : d = c
        · subst hd
          simp only [Proc.setPc, Function.update_self, Pc.assign.injEq] at hw
          exact hw.1.ge
        · rw [(hne d hd).1] at hw
          exact (h.assigns d w k hw).trans hle
      · by_cases hd : d = c
        · subst hd
          exact absurd hw (hpc' w)
        · rw [(hne d hd).1] at hw
          have hw' := h.loaded d w hw
          have hvw := hpending d w hw
          show w = v
          omega

theorem follows_of_inTime (h : Exec (Step maxLevels) (Proc.init n) tr P) (ht : InTime maxLevels tr) :
    NeverLowered tr ∧ Follows P := by
  induction h with
  | nil => exact ⟨by simp [NeverLowered], .init⟩
  | @snoc tr P a P' h hs ih =>
    obtain ⟨ht, hx⟩ := inTime_snoc.1 ht
    obtain ⟨hnever, hP⟩ := ih ht
    rw [neverLowered_snoc]
    cases hs with
    | @core c a P' htimer hc =>
      have ha : Timely P a := by
        cases hc with
        | @store v k hpc =>
          cases k with
          | sync => trivial
          | overrun =>
            obtain ⟨job, hlast, hv⟩ := exists_lastOverrun h (.inr hpc)
            have hjob := hx c v job rfl hlast
            rw [hv]
            refine ⟨?_, fun d w hw => ?_⟩
            · by_cases hlt : P.localCriticalityLevel c < P.systemCriticalityLevel
              · exact (hjob.reaches hlt).le
              · exact (not_lt.1 hlt).trans (newCritLevel_ge ..)
            · by_contra hnot
              refine hjob.loaded d w hw ((RunningJob.reaches_iff ?_).2 (not_le.1 hnot))
              rw [hP.loaded d w hw]
              exact Nat.lt_succ_of_le (hP.locals c)
        | _ => trivial
      obtain ⟨hle, hP'⟩ := hc.follows hP htimer ha
      exact ⟨⟨hnever, hle⟩, hP'⟩
    | enterReceive _ hd =>
      exact ⟨⟨hnever, le_rfl⟩, fun _ => hd, hP.locals, hP.assigns, hP.loaded⟩
    | recv m htimer =>
      obtain ⟨hpc, htimer', hlocal⟩ := P.receive_frame maxLevels m
      have hle := P.le_receive maxLevels m
      have hdone := hP.idle (by rw [htimer]; nofun)
      refine ⟨⟨hnever, hle⟩, fun _ c => ?_, fun c => ?_, fun c v k hv => ?_, fun c v hv => ?_⟩
      · rw [hpc]
        exact hdone c
      · rw [hlocal]
        exact (hP.locals c).trans hle
      · rw [hpc, hdone c] at hv
        cases hv
      · rw [hpc, hdone c] at hv
        cases hv
    | endReceive htimer =>
      exact ⟨⟨hnever, le_rfl⟩, fun _ => hP.idle (by rw [htimer]; nofun), hP.locals, hP.assigns, hP.loaded⟩
    | resume =>
      refine ⟨⟨hnever, le_rfl⟩, fun hw => absurd rfl hw, hP.locals, fun c v k hv => ?_, fun c v hv => ?_⟩
      · cases hv
      · cases hv

/-- A core that has loaded a level below the current one is about to lower it. -/
def Stale (P : Proc n) (c : Fin n) (w : ℕ) : Prop :=
  P.timer = .wait ∧ P.pc c = .store w .sync ∧ w < P.systemCriticalityLevel

theorem Step.stale {w : ℕ} {a : Label n} (hs : Step maxLevels P a P')
    (hle : P.systemCriticalityLevel ≤ P'.systemCriticalityLevel) (h : Stale P c w) : Stale P' c w := by
  obtain ⟨ht, hpc, hlt⟩ := h
  cases hs with
  | @core d a P' _ hc =>
    obtain ⟨htimer, hne, -⟩ := hc.frame
    by_cases hd : c = d
    · subst hd
      cases hc with
      | @store v k hpc' =>
        obtain ⟨rfl, -⟩ := Pc.store.inj (hpc'.symm.trans hpc)
        exact absurd hle (not_le.2 hlt)
      | _ => simp_all
    · exact ⟨htimer.trans ht, (hne c hd).1.trans hpc, hlt.trans_le hle⟩
  | enterReceive _ hd =>
    rw [hd c] at hpc
    cases hpc
  | recv _ ht' | endReceive ht' | resume ht' =>
    rw [ht] at ht'
    cases ht'

theorem inTime_of_neverLowered (h : Exec (Step maxLevels) (Proc.init n) tr P) (hn : NeverLowered tr)
    (hend : ∀ c w, P.pc c ≠ .store w .sync) : InTime maxLevels tr := by
  rintro l₁ ⟨Q, a, Q'⟩ l₂ rfl c v job rfl hlast
  obtain ⟨hrun, hs⟩ : Exec (Step maxLevels) (Proc.init n) l₁ Q ∧
      Step maxLevels Q (.core c (.store .overrun v)) Q' := h.split
  have hle := hn _ (List.mem_append_right _ List.mem_cons_self)
  cases hs with
  | core ht hc =>
    cases hc with
    | store hpc =>
      obtain ⟨job', hlast', hv⟩ := exists_lastOverrun hrun (.inr hpc)
      obtain rfl := Option.some.inj (hlast.symm.trans hlast')
      refine ⟨fun hlt => ?_, fun d w hw hreaches => ?_⟩
      · rw [RunningJob.reaches_iff hlt, ← hv]
        exact hle
      · -- the core that has loaded `w` does not get on
        have hdc : d ≠ c := by
          rintro rfl
          cases hw.symm.trans hpc
        have hstale : Stale { Q.setPc c (.assign v .overrun) with systemCriticalityLevel := v } d w := by
          refine ⟨ht, (Proc.setPc_pc_ne Q _ hdc).trans hw, ?_⟩
          exact hreaches.le.trans hv.ge
        have hlast : Stale P d w := (h.after (P := fun R => Stale R d w) hstale fun z hz _ hstep hz' =>
          hstep.stale (hn z (List.mem_append_right _ (List.mem_cons_of_mem _ hz))) hz').2
        exact hend d w hlast.2.1

end

/-- **The level is never lowered if every overrun comes in time**, and in a run
    that leaves no core between its load and its store only then. -/
theorem systemLevel_le_iff {maxLevels : ℕ} {tr : List (Trans (Proc n) (Label n))} {P : Proc n}
    (h : Exec (Step maxLevels) (Proc.init n) tr P) :
    (InTime maxLevels tr → NeverLowered tr) ∧
      ((∀ c w, P.pc c ≠ .store w .sync) → NeverLowered tr → InTime maxLevels tr) :=
  ⟨fun ht => (follows_of_inTime h ht).1, fun hend hn => inTime_of_neverLowered h hn hend⟩

/-- A core that overruns while no other core moves stores the level it asks for. -/
theorem exec_overrun {maxLevels : ℕ} {P : Proc n} {c : Fin n} (job : RunningJob)
    (ht : P.timer = .wait) (hpc : P.pc c = .run) :
    ∃ (tr : List (Trans (Proc n) (Label n))) (P' : Proc n), Exec (Step maxLevels) P tr P' ∧
      P'.timer = .wait ∧ (∀ d, d ≠ c → P'.pc d = P.pc d) ∧
      P'.localCriticalityLevel = P.localCriticalityLevel ∧
      P'.systemCriticalityLevel =
        newCritLevel maxLevels job.wcet job.executedTime (P.localCriticalityLevel c) ∧
      ∃ x ∈ tr, x.pre.systemCriticalityLevel = P.systemCriticalityLevel ∧ x.post = P' := by
  set v := newCritLevel maxLevels job.wcet job.executedTime (P.localCriticalityLevel c)
  have e₁ : Exec (Step maxLevels) P _ (P.setPc c (.broadcast v)) :=
    Exec.nil.snoc (.core ht (.overrun job hpc))
  have e₂ : Exec (Step maxLevels) P _ ((P.setPc c (.broadcast v)).setPc c (.store v .overrun)) :=
    e₁.snoc (.core ht (.broadcast (by simp)))
  have h₃ : CoreStep maxLevels c ((P.setPc c (.broadcast v)).setPc c (.store v .overrun))
      (.store .overrun v) _ := .store (Proc.setPc_pc_self _ c _)
  refine ⟨_, _, e₂.snoc (.core ht h₃), ht, fun d hd => ?_, rfl, rfl, _,
    List.mem_append_right _ (List.mem_singleton_self _), rfl, rfl⟩
  simp [Proc.setPc, hd]

/-- Two jobs at level 0 that have both run for one tick: the first is over budget
    up to level 1, the second only at level 0. -/
def raceJob (c : Fin 2) : RunningJob where
  wcet level := (if c.val = 0 then [1, 1, 3] else [1, 2, 3]).getD level 0
  executedTime := 1

theorem raceJob_zero : newCritLevel 3 (raceJob 0).wcet (raceJob 0).executedTime 0 = 2 := by decide +kernel

theorem raceJob_one : newCritLevel 3 (raceJob 1).wcet (raceJob 1).executedTime 0 = 1 := by decide +kernel

/-- Both cores find their job over budget in the same tick; core 0 stores level
    2, then core 1 stores level 1. -/
theorem level_lowered :
    ∃ (tr : List (Trans (Proc 2) (Label 2))) (P : Proc 2),
      Exec (Step 3) (Proc.init 2) tr P ∧ ¬ NeverLowered tr := by
  set P := ((Proc.init 2).setPc 0 .run).setPc 1 .run
  have h₀ : CoreStep 3 0 (Proc.init 2) .begin ((Proc.init 2).setPc 0 .run) := .compareEq rfl rfl
  have h₁ : CoreStep 3 1 ((Proc.init 2).setPc 0 .run) .begin P := .compareEq rfl rfl
  have hP : Exec (Step 3) (Proc.init 2) _ P := (Exec.nil.snoc (.core rfl h₀)).snoc (.core rfl h₁)
  obtain ⟨tr, Q, hQ, ht, hpc, hloc, hlvl, -⟩ :=
    exec_overrun (raceJob 0) (show P.timer = .wait from rfl) (show P.pc 0 = .run from rfl)
  obtain ⟨tr', R, hR, -, -, -, hlvl', x, hx, hpre, rfl⟩ :=
    exec_overrun (raceJob 1) ht ((hpc 1 (by decide)).trans (show P.pc 1 = .run from rfl))
  refine ⟨_, _, (hP.append hQ).append hR, fun hn => ?_⟩
  have := hn x (List.mem_append_right _ hx)
  rw [hloc] at hlvl'
  rw [hpre, hlvl, hlvl'] at this
  exact absurd (raceJob_zero ▸ raceJob_one ▸ this) (by decide)

/-- A run so far, with every overrun in time -/
def RunsInTime (tr : List (Trans (Proc 2) (Label 2))) (P : Proc 2) : Prop :=
  Exec (Step 3) (Proc.init 2) tr P ∧ InTime 3 tr

theorem RunsInTime.snoc {tr : List (Trans (Proc 2) (Label 2))} {P P' : Proc 2} {a : Label 2}
    (h : RunsInTime tr P) (hs : Step 3 P a P')
    (ha : ∀ c v job, a = .core c (.store .overrun v) → lastOverrun tr c = some job → job.InTime 3 c P) :
    RunsInTime (tr ++ [⟨P, a, P'⟩]) P' := ⟨h.1.snoc hs, inTime_snoc.2 ⟨h.2, ha⟩⟩

/-- The two cores overrun in the other order, and core 1 copies the level in the
    next tick. -/
theorem race_in_time : ∃ (tr : List (Trans (Proc 2) (Label 2))) (P : Proc 2), RunsInTime tr P ∧
    tr.map (·.post.systemCriticalityLevel) = [0, 0, 0, 0, 1, 1, 1, 1, 2, 2, 2, 2, 2, 2, 2, 2, 2] ∧
    P.localCriticalityLevel 1 = 2 := by
  have h : RunsInTime [] (Proc.init 2) := ⟨.nil, fun l₁ x l₂ he => by simp at he⟩
  have hover : ∀ (P : Proc 2) (c : Fin 2) (v : ℕ), P.timer = .wait → P.pc c = .run →
      newCritLevel 3 (raceJob c).wcet (raceJob c).executedTime (P.localCriticalityLevel c) = v →
      Step 3 P (.core c (.overrun (raceJob c))) (P.setPc c (.broadcast v)) := by
    rintro P c v ht hpc rfl
    exact .core ht (.overrun (raceJob c) hpc)
  have h := h.snoc (.core (c := 0) rfl (.compareEq rfl rfl)) nofun
  have h := h.snoc (.core (c := 1) rfl (.compareEq rfl rfl)) nofun
  have h := h.snoc (hover _ 1 1 rfl rfl raceJob_one) nofun
  have h := h.snoc (.core (c := 1) rfl (.broadcast rfl)) nofun
  have h := h.snoc (.core (c := 1) rfl (.store rfl)) (by
    rintro c v job ⟨⟩ hlast
    obtain rfl : raceJob 1 = job := Option.some.inj hlast
    exact ⟨fun hlt => absurd hlt (lt_irrefl 0), Fin.forall_fin_two.2 ⟨nofun, nofun⟩⟩)
  have h := h.snoc (.core (c := 1) rfl (.assignOverrun rfl)) nofun
  have h := h.snoc (hover _ 0 2 rfl rfl raceJob_zero) nofun
  have h := h.snoc (.core (c := 0) rfl (.broadcast rfl)) nofun
  have h := h.snoc (.core (c := 0) rfl (.store rfl)) (by
    rintro c v job ⟨⟩ hlast
    obtain rfl : raceJob 0 = job := Option.some.inj hlast
    exact ⟨fun _ => (RunningJob.reaches_iff Nat.one_pos).2 (one_le_two.trans_eq raceJob_zero.symm),
      Fin.forall_fin_two.2 ⟨nofun, nofun⟩⟩)
  have h := h.snoc (.core (c := 0) rfl (.assignOverrun rfl)) nofun
  have h := h.snoc (.enterReceive rfl (Fin.forall_fin_two.2 ⟨rfl, rfl⟩)) nofun
  have h := h.snoc (.endReceive rfl) nofun
  have h := h.snoc (.resume rfl) nofun
  have h := h.snoc (.core (c := 1) rfl (.compareNe rfl (by decide))) nofun
  have h := h.snoc (.core (c := 1) rfl (.reload rfl)) nofun
  have h := h.snoc (.core (c := 1) rfl (.store rfl)) nofun
  have h := h.snoc (.core (c := 1) rfl (.assignSync rfl)) nofun
  exact ⟨_, _, h, rfl, rfl⟩

theorem systemLevel_le_iff_race : ∃ (tr : List (Trans (Proc 2) (Label 2))) (P : Proc 2),
    Exec (Step 3) (Proc.init 2) tr P ∧ InTime 3 tr ∧ NeverLowered tr ∧
      tr.map (·.post.systemCriticalityLevel) = [0, 0, 0, 0, 1, 1, 1, 1, 2, 2, 2, 2, 2, 2, 2, 2, 2] ∧
      P.localCriticalityLevel 1 = 2 := by
  obtain ⟨tr, P, ⟨hrun, hin⟩, hlevels, hlocal⟩ := race_in_time
  exact ⟨tr, P, hrun, hin, (systemLevel_le_iff hrun).1 hin, hlevels, hlocal⟩

end EeftSched.Criticality

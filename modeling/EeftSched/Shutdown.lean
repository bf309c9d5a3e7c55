/-
  The threads, their barriers and the shutdown flag (`timer_thread_func`,
  `core_thread_func`, `processor_sigusr_handler` in `processor.c`,
  `barrier_wait` in `lib/barrier.c`).

  Every processor has a timer thread and `n` core threads.  A thread tests
  `proc_shutdown_requested` at the top of its loop, and the timer once more
  between its two barriers.  A round of a thread is one pass through its loop.

  * `Step`: one step of one thread, or a SIGUSR1;
  * `Stranded`: somebody is left, and everybody left is blocked in a barrier;
  * `not_stranded`: no run in which the flags are set between the rounds
    (`Timely`) strands a thread;
  * `signal_strands`: a SIGUSR1 within a tick does.
-/
import EeftSched.Lib.Barrier
import EeftSched.Lib.Exec
import Mathlib.Data.Fintype.Prod
import Mathlib.Data.Fintype.Option
import Mathlib.Data.Finset.Max
import Mathlib.Data.Finset.Prod
import Mathlib.Tactic.Common

namespace EeftSched.Shutdown

open Lts

/-- A thread: its processor, and its core unless it is the timer. -/
abbrev Thread (p n : ℕ) := Fin p × Option (Fin n)

/-- The three barriers a thread can meet, in the order of a round. -/
inductive Gate where
  | coreCompletion
  | timeSync
  | proc
deriving DecidableEq, Repr

/-- The barriers of the system. -/
inductive Bar (p : ℕ) where
  | coreCompletion (q : Fin p)
  | timeSync (q : Fin p)
  | proc
deriving DecidableEq

/-- Where a thread is in its loop. -/
inductive Pc where
  /-- at the test of the loop -/
  | test
  /-- a core in `scheduler_tick` -/
  | tick
  /-- about to call `barrier_wait` -/
  | arrive (g : Gate)
  /-- in `pthread_cond_wait`, with `cur_cycle` -/
  | blocked (g : Gate) (curCycle : ℕ)
  /-- the timer's test between its barriers -/
  | test2
  /-- the timer receives messages and sweeps the discard queue -/
  | receive
  /-- the timer is about to test `core_fatal_shutdown_requested` -/
  | fatalTest
  /-- the timer is about to advance `system_time` and test it -/
  | advance
  | exited
deriving DecidableEq, Repr

variable {p n : ℕ}

structure Sys (p n : ℕ) where
  bar : Bar p → CyclicBarrier
  pc : Thread p n → Pc
  /-- how often a thread has passed the test of its loop -/
  rounds : Thread p n → ℕ
  procShutdownRequested : Fin p → Bool
  coreFatalShutdownRequested : Fin p → Bool
  systemTime : Fin p → ℕ

/-- The barrier a thread of processor `q` meets. -/
def Gate.bar (g : Gate) (q : Fin p) : Bar p :=
  match g with
  | .coreCompletion => .coreCompletion q
  | .timeSync => .timeSync q
  | .proc => .proc

/-- `barrier_init` with `NUM_CORES_PER_PROC + 1` or `NUM_PROC` -/
def Bar.target (n : ℕ) : Bar p → ℕ
  | .coreCompletion _ | .timeSync _ => n + 1
  | .proc => p

def Sys.init (p n : ℕ) : Sys p n where
  bar b := .init (b.target n)
  pc _ := .test
  rounds _ := 0
  procShutdownRequested _ := false
  coreFatalShutdownRequested _ := false
  systemTime _ := 0

/-- Where a thread goes from an open barrier. -/
def next (t : Option (Fin n)) : Gate → Pc
  | .coreCompletion => if t.isSome then .arrive .timeSync else .test2
  | .timeSync => if t.isSome then .test else .arrive .proc
  | .proc => .test

/-- `unsigned cur_cycle`, the copy of the 64-bit `cycle` -/
def cycleWrap : ℕ := 2 ^ 32

namespace Sys

def setPc (S : Sys p n) (θ : Thread p n) (q : Pc) : Sys p n :=
  { S with pc := Function.update S.pc θ q }

def request (S : Sys p n) (q : Fin p) : Sys p n :=
  { S with procShutdownRequested := Function.update S.procShutdownRequested q true }

/-- The loop body starts. -/
def enter (S : Sys p n) (θ : Thread p n) : Sys p n :=
  { S.setPc θ (if θ.2.isSome then .tick else .arrive .coreCompletion) with
    rounds := Function.update S.rounds θ (S.rounds θ + 1) }

/-- `barrier_wait` up to the return or the first `pthread_cond_wait`; the
    mutex of the barrier makes it one step. -/
def arrive (S : Sys p n) (θ : Thread p n) (g : Gate) : Sys p n :=
  let b := S.bar (g.bar θ.1)
  { S.setPc θ (if b.last then next θ.2 g else .blocked g (b.cycle % cycleWrap)) with
    bar := Function.update S.bar (g.bar θ.1) b.arrive }

end Sys

inductive Label (p n : ℕ) where
  /-- SIGUSR1 to processor `q` -/
  | signal (q : Fin p)
  | enter (θ : Thread p n)
  | exit (θ : Thread p n)
  /-- a deadline miss in the `scheduler_tick` of a core -/
  | fatal (q : Fin p) (c : Fin n)
  | tickEnd (q : Fin p) (c : Fin n)
  | arrive (θ : Thread p n) (g : Gate)
  | wake (θ : Thread p n) (g : Gate)
  | test2 (q : Fin p)
  | receive (q : Fin p)
  | fatalTest (q : Fin p)
  | advance (q : Fin p)

/-- `TOTAL_TICKS > 0 && system_time >= TOTAL_TICKS`, after the increment -/
def lastTick (totalTicks : ℕ) (S : Sys p n) (q : Fin p) : Prop :=
  0 < totalTicks ∧ totalTicks ≤ S.systemTime q + 1

instance (totalTicks : ℕ) (S : Sys p n) (q : Fin p) : Decidable (lastTick totalTicks S q) :=
  inferInstanceAs (Decidable (_ ∧ _))

/-- One step of the system. -/
inductive Step (totalTicks : ℕ) (S : Sys p n) : Label p n → Sys p n → Prop
  | signal (q : Fin p) : Step totalTicks S (.signal q) (S.request q)
  | enter {θ : Thread p n} (h : S.pc θ = .test) (hf : S.procShutdownRequested θ.1 = false) :
      Step totalTicks S (.enter θ) (S.enter θ)
  | exit {θ : Thread p n} (h : S.pc θ = .test) (hf : S.procShutdownRequested θ.1 = true) :
      Step totalTicks S (.exit θ) (S.setPc θ .exited)
  | fatal {q : Fin p} {c : Fin n} (h : S.pc (q, some c) = .tick) :
      Step totalTicks S (.fatal q c)
        { S with coreFatalShutdownRequested := Function.update S.coreFatalShutdownRequested q true }
  | tickEnd {q : Fin p} {c : Fin n} (h : S.pc (q, some c) = .tick) :
      Step totalTicks S (.tickEnd q c) (S.setPc (q, some c) (.arrive .coreCompletion))
  | arrive {θ : Thread p n} {g : Gate} (h : S.pc θ = .arrive g) :
      Step totalTicks S (.arrive θ g) (S.arrive θ g)
  | wake {θ : Thread p n} {g : Gate} {cur : ℕ} (h : S.pc θ = .blocked g cur)
      (hc : cur ≠ (S.bar (g.bar θ.1)).cycle) :
      Step totalTicks S (.wake θ g) (S.setPc θ (next θ.2 g))
  | test2 {q : Fin p} (h : S.pc (q, none) = .test2) :
      Step totalTicks S (.test2 q)
        (S.setPc (q, none) (if S.procShutdownRequested q then .exited else .receive))
  | receive {q : Fin p} (h : S.pc (q, none) = .receive) :
      Step totalTicks S (.receive q) (S.setPc (q, none) .fatalTest)
  | fatalTest {q : Fin p} (h : S.pc (q, none) = .fatalTest) :
      Step totalTicks S (.fatalTest q)
        ((if S.coreFatalShutdownRequested q then S.request q else S).setPc (q, none) .advance)
  | advance {q : Fin p} (h : S.pc (q, none) = .advance) :
      Step totalTicks S (.advance q)
        { (if lastTick totalTicks S q then S.request q else S).setPc (q, none) (.arrive .timeSync) with
          systemTime := Function.update S.systemTime q (S.systemTime q + 1) }

/-- The thread waits in `barrier_wait` for the end of the current cycle. -/
def Sys.Blocked (S : Sys p n) (θ : Thread p n) : Prop :=
  ∃ g, S.pc θ = .blocked g (S.bar (g.bar θ.1)).cycle

/-- Some thread has not exited, and all that have not are blocked. -/
def Stranded (S : Sys p n) : Prop :=
  (∃ θ, S.pc θ ≠ .exited) ∧ ∀ θ, S.pc θ ≠ .exited → S.Blocked θ

/-! ## Rounds and arrivals -/

def Gate.index : Gate → ℕ
  | .coreCompletion => 1
  | .timeSync => 2
  | .proc => 3

/-- How many of the barriers of its round a thread at `pc` has arrived at. -/
def Pc.stage : Pc → ℕ
  | .tick | .arrive .coreCompletion => 0
  | .blocked .coreCompletion _ | .test2 | .receive | .fatalTest | .advance | .arrive .timeSync => 1
  | .blocked .timeSync _ | .arrive .proc => 2
  | .blocked .proc _ | .test | .exited => 3

theorem Pc.stage_le (q : Pc) : q.stage ≤ 3 := by
  cases q with
  | arrive g | blocked g _ => cases g <;> simp [stage]
  | test | tick | test2 | receive | fatalTest | advance | exited => simp [stage]

/-- How often a thread has arrived at its barriers at `g`. -/
def Sys.arrivals (S : Sys p n) (g : Gate) (θ : Thread p n) : ℕ :=
  if g.index ≤ (S.pc θ).stage then S.rounds θ else S.rounds θ - 1

def Bar.gate : Bar p → Gate
  | .coreCompletion _ => .coreCompletion
  | .timeSync _ => .timeSync
  | .proc => .proc

/-- The threads that meet at a barrier. -/
def Bar.members (n : ℕ) (b : Bar p) : Finset (Thread p n) :=
  Finset.univ.filter fun θ => b = b.gate.bar θ.1 ∧ (b = .proc → θ.2 = none)

/-- The code of timer and cores: which points a thread can be at. -/
def PcOk (θ : Thread p n) (q : Pc) : Prop :=
  match q with
  | .test | .exited | .arrive .coreCompletion | .blocked .coreCompletion _ | .arrive .timeSync
  | .blocked .timeSync _ => True
  | .tick => θ.2.isSome
  | .arrive .proc | .blocked .proc _ | .test2 | .receive | .fatalTest | .advance => θ.2 = none

@[simp] theorem Gate.gate_bar (g : Gate) (q : Fin p) : (g.bar q).gate = g := by cases g <;> rfl

theorem Bar.mem_members {b : Bar p} {θ : Thread p n} :
    θ ∈ b.members n ↔ b = b.gate.bar θ.1 ∧ (b = .proc → θ.2 = none) := by
  simp [members]

theorem mem_members_of_arrive {g : Gate} {θ : Thread p n} (h : PcOk θ (.arrive g)) :
    θ ∈ (g.bar θ.1).members n := by
  rw [Bar.mem_members]
  cases g with
  | proc => exact ⟨rfl, fun _ => h⟩
  | coreCompletion | timeSync => exact ⟨rfl, nofun⟩

theorem Bar.card_members (b : Bar p) : (b.members n).card = b.target n := by
  cases b with
  | proc =>
    have : Bar.members n (.proc : Bar p) = Finset.univ ×ˢ {none} := by
      ext ⟨r, t⟩; simp [members, gate, Gate.bar, eq_comm]
    rw [this, Finset.card_product]; simp [target]
  | coreCompletion q | timeSync q =>
    have : Finset.filter (fun θ : Thread p n => q = θ.1) Finset.univ = {q} ×ˢ Finset.univ := by
      ext ⟨r, t⟩; simp [eq_comm]
    simp [members, gate, Gate.bar, target, this]

namespace Sys

@[simp] theorem setPc_self (S : Sys p n) (θ : Thread p n) (q : Pc) : (S.setPc θ q).pc θ = q := by
  simp [setPc]

theorem setPc_ne (S : Sys p n) {θ τ : Thread p n} (q : Pc) (h : τ ≠ θ) :
    (S.setPc θ q).pc τ = S.pc τ := by
  simp [setPc, h]

@[simp] theorem setPc_rounds (S : Sys p n) (θ : Thread p n) (q : Pc) :
    (S.setPc θ q).rounds = S.rounds := rfl

@[simp] theorem setPc_bar (S : Sys p n) (θ : Thread p n) (q : Pc) : (S.setPc θ q).bar = S.bar := rfl

@[simp] theorem request_pc (S : Sys p n) (q : Fin p) : (S.request q).pc = S.pc := rfl

@[simp] theorem request_rounds (S : Sys p n) (q : Fin p) : (S.request q).rounds = S.rounds := rfl

@[simp] theorem request_bar (S : Sys p n) (q : Fin p) : (S.request q).bar = S.bar := rfl

end Sys

/-! ## What one step can do -/

/-- The flags a step sets. -/
def Label.sets (totalTicks : ℕ) (S : Sys p n) : Label p n → Option (Fin p)
  | .signal q => some q
  | .fatalTest q => if S.coreFatalShutdownRequested q then some q else none
  | .advance q => if lastTick totalTicks S q then some q else none
  | _ => none

/-- A thread moves on without a barrier: between the barriers it stays in its
    stage, at the top of the loop it starts the next round. -/
inductive Moves (S : Sys p n) (θ : Thread p n) : Pc → ℕ → Prop
  | enter (h : S.pc θ = .test) (hf : S.procShutdownRequested θ.1 = false) :
      Moves S θ (if θ.2.isSome then .tick else .arrive .coreCompletion) (S.rounds θ + 1)
  | exit (h : S.pc θ = .test) (hf : S.procShutdownRequested θ.1 = true) :
      Moves S θ .exited (S.rounds θ)
  | tickEnd (hc : θ.2.isSome) (h : S.pc θ = .tick) : Moves S θ (.arrive .coreCompletion) (S.rounds θ)
  | wake {g : Gate} {cur : ℕ} (h : S.pc θ = .blocked g cur) (hc : cur ≠ (S.bar (g.bar θ.1)).cycle) :
      Moves S θ (next θ.2 g) (S.rounds θ)
  | test2Exit (ht : θ.2 = none) (h : S.pc θ = .test2) (hf : S.procShutdownRequested θ.1 = true) :
      Moves S θ .exited (S.rounds θ)
  | body {q : Pc} (ht : θ.2 = none)
      (h : S.pc θ = .test2 ∧ q = .receive ∨ S.pc θ = .receive ∧ q = .fatalTest ∨
        S.pc θ = .fatalTest ∧ q = .advance ∨ S.pc θ = .advance ∧ q = .arrive .timeSync) :
      Moves S θ q (S.rounds θ)

/-- Flags are only ever set, and only by the steps that `sets` names. -/
def FlagsFrom (totalTicks : ℕ) (S : Sys p n) (a : Label p n) (S' : Sys p n) : Prop :=
  ∀ q, S'.procShutdownRequested q = true →
    S.procShutdownRequested q = true ∨ a.sets totalTicks S = some q

/-- What a step does to the threads and barriers: nothing, move one thread, or
    let one arrive at a barrier. -/
inductive Changes (S : Sys p n) (a : Label p n) (S' : Sys p n) : Prop
  | none (hp : S'.pc = S.pc) (hr : S'.rounds = S.rounds) (hb : S'.bar = S.bar)
  | move {θ : Thread p n} {q : Pc} {k : ℕ} (h : Moves S θ q k) (hp : S'.pc = Function.update S.pc θ q)
      (hr : S'.rounds = Function.update S.rounds θ k) (hb : S'.bar = S.bar)
      (ha : k = S.rounds θ ∨ a = .enter θ ∧ S.procShutdownRequested θ.1 = false ∧ k = S.rounds θ + 1)
  | arrive {θ : Thread p n} {g : Gate} (h : S.pc θ = .arrive g) (hp : S'.pc = (S.arrive θ g).pc)
      (hr : S'.rounds = S.rounds) (hb : S'.bar = (S.arrive θ g).bar)

theorem Step.changes {totalTicks : ℕ} {S S' : Sys p n} {a : Label p n} (h : Step totalTicks S a S') :
    Changes S a S' := by
  cases h with
  | signal q => exact .none rfl rfl rfl
  | fatal h => exact .none rfl rfl rfl
  | enter h hf => exact .move (.enter h hf) rfl rfl rfl (Or.inr ⟨rfl, hf, rfl⟩)
  | exit h hf => exact .move (.exit h hf) rfl (by simp) rfl (Or.inl rfl)
  | tickEnd h => exact .move (.tickEnd rfl h) rfl (by simp) rfl (Or.inl rfl)
  | arrive h => exact .arrive h rfl rfl rfl
  | wake h hc => exact .move (.wake h hc) rfl (by simp) rfl (Or.inl rfl)
  | @test2 q h =>
    by_cases hf : S.procShutdownRequested q = true
    · exact .move (.test2Exit rfl h hf) (by simp [hf, Sys.setPc]) (by simp) rfl (Or.inl rfl)
    · exact .move (.body rfl (Or.inl ⟨h, rfl⟩)) (by simp [hf, Sys.setPc]) (by simp) rfl (Or.inl rfl)
  | receive h => exact .move (.body rfl (Or.inr (Or.inl ⟨h, rfl⟩))) rfl (by simp) rfl (Or.inl rfl)
  | @fatalTest q h =>
    refine .move (.body rfl (Or.inr (Or.inr (Or.inl ⟨h, rfl⟩)))) ?_ ?_ ?_ (Or.inl rfl)
    all_goals split_ifs <;> simp [Sys.setPc]
  | @advance q h =>
    refine .move (.body rfl (Or.inr (Or.inr (Or.inr ⟨h, rfl⟩)))) ?_ ?_ ?_ (Or.inl rfl)
    all_goals split_ifs <;> simp [Sys.setPc]

/-- A barrier goes from cycle to cycle. -/
theorem Step.cycle_le {totalTicks : ℕ} {S S' : Sys p n} {a : Label p n} (h : Step totalTicks S a S')
    (b : Bar p) : (S.bar b).cycle ≤ (S'.bar b).cycle := by
  cases h.changes with
  | none _ _ hb => rw [hb]
  | move _ _ _ hb _ => rw [hb]
  | @arrive θ g _ _ _ hb =>
    rw [hb]
    by_cases hbg : b = g.bar θ.1
    · subst hbg
      simpa [Sys.arrive] using CyclicBarrier.cycle_le_arrive _
    · simp [Sys.arrive, hbg]

theorem Step.flagsFrom {totalTicks : ℕ} {S S' : Sys p n} {a : Label p n}
    (h : Step totalTicks S a S') : FlagsFrom totalTicks S a S' := by
  intro r hr
  cases h with
  | signal q =>
    by_cases hq : r = q
    · exact Or.inr (by rw [hq]; rfl)
    · exact Or.inl (by simpa [Sys.request, hq] using hr)
  | @fatalTest q h =>
    by_cases hf : S.coreFatalShutdownRequested q = true
    · by_cases hq : r = q
      · exact Or.inr (by simp [Label.sets, hf, hq])
      · exact Or.inl (by simpa [Sys.request, Sys.setPc, hf, hq] using hr)
    · exact Or.inl (by simpa [Sys.setPc, hf] using hr)
  | @advance q h =>
    by_cases hf : lastTick totalTicks S q
    · by_cases hq : r = q
      · exact Or.inr (by simp [Label.sets, hf, hq])
      · exact Or.inl (by simpa [Sys.request, Sys.setPc, hf, hq] using hr)
    · exact Or.inl (by simpa [Sys.setPc, hf] using hr)
  | enter | exit | fatal | tickEnd | arrive | wake | test2 | receive => exact Or.inl hr

/-- Flags stay set. -/
theorem Step.flags_mono {totalTicks : ℕ} {S S' : Sys p n} {a : Label p n}
    (h : Step totalTicks S a S') {q : Fin p} (hq : S.procShutdownRequested q = true) :
    S'.procShutdownRequested q = true := by
  have hreq : ∀ r, (S.request r).procShutdownRequested q = true := by
    intro r
    by_cases hr : q = r
    · simp [Sys.request, hr]
    · simpa [Sys.request, hr] using hq
  cases h with
  | signal r => exact hreq r
  | fatalTest | advance => simp only [Sys.setPc]; split_ifs <;> first | exact hreq _ | exact hq
  | enter | exit | fatal | tickEnd | arrive | wake | test2 | receive => exact hq

/-! ## The barriers -/

/-- `C` cycles of barrier `b` are over, and the members that arrived since are
    blocked in the next; `cur_cycle` is still the number of the cycle. -/
structure BarOk (S : Sys p n) (b : Bar p) (C : ℕ) : Prop where
  lt : C < cycleWrap
  counts : (S.bar b).Counts (b.members n) (S.arrivals b.gate) C
  waits : ∀ θ ∈ b.members n, S.arrivals b.gate θ = C + 1 → S.pc θ = .blocked b.gate (S.bar b).cycle
  cur : ∀ θ ∈ b.members n, ∀ cur, S.pc θ = .blocked b.gate cur →
    ∃ c, cur = c % cycleWrap ∧ S.arrivals b.gate θ = c + 1

/-- Barrier `b` works, or it is past the cycles that `cur_cycle` can tell apart:
    then nobody waits in it any more. -/
def BarFine (S : Sys p n) (b : Bar p) : Prop := (∃ C, BarOk S b C) ∨ cycleWrap ≤ (S.bar b).cycle

/-- Who is blocked has arrived in the cycle that is not over. -/
theorem BarOk.arrivals_of_blocked {S : Sys p n} {b : Bar p} {C : ℕ} (h : BarOk S b C)
    {θ : Thread p n} (hθ : θ ∈ b.members n) (hb : S.pc θ = .blocked b.gate (S.bar b).cycle) :
    S.arrivals b.gate θ = C + 1 := by
  obtain ⟨c, hc, ha⟩ := h.cur θ hθ _ hb
  have hnear := h.counts.near θ hθ
  have hcC := (h.counts.cycle_eq_iff h.lt (by omega)).1 hc.symm
  omega

/-- A step that changes neither the barrier, nor how often its members have
    arrived, nor who is blocked in it. -/
theorem BarOk.frame {S S' : Sys p n} {b : Bar p} {C : ℕ} (h : BarOk S b C)
    (hbar : S'.bar b = S.bar b)
    (harr : ∀ θ ∈ b.members n, S'.arrivals b.gate θ = S.arrivals b.gate θ)
    (hold : ∀ θ ∈ b.members n, S.pc θ = .blocked b.gate (S.bar b).cycle → S'.pc θ = S.pc θ)
    (hnew : ∀ θ ∈ b.members n, ∀ cur, S'.pc θ = .blocked b.gate cur → S.pc θ = .blocked b.gate cur) :
    BarOk S' b C := by
  refine ⟨h.lt, by rw [hbar]; exact h.counts.congr harr, ?_, ?_⟩
  · intro θ hθ ha
    have hw := h.waits θ hθ (harr θ hθ ▸ ha)
    rw [hbar, hold θ hθ hw]; exact hw
  · intro θ hθ cur hc
    rw [harr θ hθ]; exact h.cur θ hθ cur (hnew θ hθ cur hc)

/-- What a move between barriers does to the arrivals at `g`. -/
theorem arrivals_congr {S S' : Sys p n} {θ : Thread p n} {g : Gate}
    (hr : S'.rounds θ = S.rounds θ) (hs : g.index ≤ (S'.pc θ).stage ↔ g.index ≤ (S.pc θ).stage) :
    S'.arrivals g θ = S.arrivals g θ := by
  unfold Sys.arrivals
  rw [hr]; simp only [hs]

/-- An open barrier leads past itself and to no other barrier of the thread. -/
theorem next_stage {θ : Thread p n} {g : Gate} {cur : ℕ} (b : Bar p) (hθ : θ ∈ b.members n) :
    b.gate.index ≤ (next θ.2 g).stage ↔ b.gate.index ≤ (Pc.blocked g cur).stage := by
  obtain ⟨-, hproc⟩ := Bar.mem_members.1 hθ
  obtain ⟨q, t⟩ := θ
  cases g <;> cases t <;> cases b <;> simp_all [next, Pc.stage, Gate.index, Bar.gate]

theorem next_not_blocked (t : Option (Fin n)) (g g' : Gate) (cur : ℕ) : next t g ≠ .blocked g' cur := by
  cases g <;> cases t <;> simp [next]

/-- The timer does not leave its loop between its barriers. -/
def NoTest2Exit (S : Sys p n) : Prop := ∀ q, S.procShutdownRequested q = true → S.pc (q, none) ≠ .test2

theorem Moves.arrivals {S S' : Sys p n} {θ : Thread p n} {q : Pc} {k : ℕ} (h : Moves S θ q k)
    (hne : NoTest2Exit S) (hp : S'.pc θ = q) (hr : S'.rounds θ = k) {b : Bar p}
    (hθ : θ ∈ b.members n) : S'.arrivals b.gate θ = S.arrivals b.gate θ := by
  have hidx : 1 ≤ b.gate.index ∧ b.gate.index ≤ 3 := by cases b <;> simp [Bar.gate, Gate.index]
  cases h with
  | enter h hf =>
    have h0 : (S'.pc θ).stage = 0 := by rw [hp]; split_ifs <;> rfl
    have h3 : (S.pc θ).stage = 3 := by rw [h]; rfl
    unfold Sys.arrivals
    rw [h0, h3, hr, if_neg (by omega), if_pos (by omega)]; rfl
  | exit h hf => exact arrivals_congr hr (by rw [hp, h]; rfl)
  | tickEnd hc h => exact arrivals_congr hr (by rw [hp, h]; rfl)
  | wake h hc => exact arrivals_congr hr (by rw [hp, h]; exact next_stage b hθ)
  | test2Exit ht h hf =>
    obtain ⟨r, t⟩ := θ
    cases ht
    exact absurd h (hne r hf)
  | body ht h =>
    rcases h with ⟨h, rfl⟩ | ⟨h, rfl⟩ | ⟨h, rfl⟩ | ⟨h, rfl⟩ <;>
      exact arrivals_congr hr (by rw [hp, h]; rfl)

/-- A move never starts at the closed barrier nor ends in one. -/
theorem Moves.blocked {S : Sys p n} {θ : Thread p n} {q : Pc} {k : ℕ} (h : Moves S θ q k) :
    (∀ g cur, q ≠ .blocked g cur) ∧ ¬ S.Blocked θ := by
  unfold Sys.Blocked
  cases h with
  | enter h hf => exact ⟨fun g cur => by split_ifs <;> simp, by simp [h]⟩
  | exit h hf => exact ⟨by simp, by simp [h]⟩
  | tickEnd hc h => exact ⟨by simp, by simp [h]⟩
  | wake h hc =>
    refine ⟨next_not_blocked _ _, ?_⟩
    rintro ⟨g', hg⟩
    rw [h, Pc.blocked.injEq] at hg
    obtain ⟨rfl, rfl⟩ := hg
    exact hc rfl
  | test2Exit ht h hf => exact ⟨by simp, by simp [h]⟩
  | body ht h =>
    rcases h with ⟨h, rfl⟩ | ⟨h, rfl⟩ | ⟨h, rfl⟩ | ⟨h, rfl⟩ <;> exact ⟨by simp, by simp [h]⟩

theorem BarOk.move {S S' : Sys p n} {b : Bar p} {C : ℕ} (hS : BarOk S b C) {θ : Thread p n} {q : Pc}
    {k : ℕ} (h : Moves S θ q k) (hne : NoTest2Exit S) (hp : S'.pc = Function.update S.pc θ q)
    (hr : S'.rounds = Function.update S.rounds θ k) (hb : S'.bar = S.bar) : BarOk S' b C := by
  have hpc : ∀ τ, τ ≠ θ → S'.pc τ = S.pc τ := fun τ hτ => by rw [hp, Function.update_of_ne hτ]
  have hrd : ∀ τ, τ ≠ θ → S'.rounds τ = S.rounds τ := fun τ hτ => by rw [hr, Function.update_of_ne hτ]
  refine hS.frame (by rw [hb]) ?_ ?_ ?_
  · intro τ hτ
    by_cases he : τ = θ
    · subst he; exact h.arrivals hne (by simp [hp]) (by simp [hr]) hτ
    · exact arrivals_congr (hrd τ he) (by rw [hpc τ he])
  · intro τ hτ hbl
    by_cases he : τ = θ
    · subst he
      have hbar := (Bar.mem_members.1 hτ).1
      exact absurd ⟨b.gate, by rw [← hbar]; exact hbl⟩ h.blocked.2
    · exact hpc τ he
  · intro τ hτ cur hcur
    by_cases he : τ = θ
    · subst he
      rw [hp, Function.update_self] at hcur
      exact absurd hcur (h.blocked.1 _ _)
    · rw [← hpc τ he]; exact hcur

/-- The stage of a thread that arrives. -/
theorem stage_arrive (g : Gate) (cur : ℕ) :
    (Pc.arrive g).stage + 1 = g.index ∧ (Pc.blocked g cur).stage = g.index := by
  cases g <;> exact ⟨rfl, rfl⟩

section
variable {S S' : Sys p n} {θ : Thread p n} {g : Gate}

/-- The stage of a thread once it has arrived, as its barriers see it. -/
theorem stage_arrived (hp : S'.pc = (S.arrive θ g).pc) {b : Bar p} (hθ : θ ∈ b.members n) :
    b.gate.index ≤ (S'.pc θ).stage ↔ b.gate.index ≤ g.index := by
  rw [hp]
  simp only [Sys.arrive, Sys.setPc, Function.update_self]
  split_ifs
  · rw [@next_stage _ _ _ g 0 b hθ, (stage_arrive g 0).2]
  · rw [(stage_arrive g _).2]

/-- The barriers a thread has not arrived at do not see it. -/
theorem BarOk.arrive_other (h : S.pc θ = .arrive g) (hp : S'.pc = (S.arrive θ g).pc)
    (hr : S'.rounds = S.rounds) (hb : S'.bar = (S.arrive θ g).bar) {b : Bar p} {C : ℕ}
    (hne : b ≠ g.bar θ.1) (hS : BarOk S b C) : BarOk S' b C := by
  have hpc : ∀ τ, τ ≠ θ → S'.pc τ = S.pc τ := fun τ hτ => by
    rw [hp]; exact Function.update_of_ne hτ _ _
  have hgate : θ ∈ b.members n → b.gate ≠ g := by
    intro hθ he
    exact hne (he ▸ (Bar.mem_members.1 hθ).1)
  refine hS.frame (by rw [hb]; simp [Sys.arrive, hne]) ?_ ?_ ?_
  · intro τ hτ
    by_cases he : τ = θ
    · subst he
      refine arrivals_congr (by rw [hr]) ?_
      have hidx : b.gate.index ≠ g.index := by
        have := hgate hτ
        cases hbg : b.gate <;> cases g <;> simp_all [Gate.index]
      have := (stage_arrive g 0).1
      rw [stage_arrived hp hτ, h]; omega
    · exact arrivals_congr (by rw [hr]) (by rw [hpc τ he])
  · intro τ hτ hbl
    by_cases he : τ = θ
    · subst he; rw [h] at hbl; cases hbl
    · exact hpc τ he
  · intro τ hτ cur hcur
    by_cases he : τ = θ
    · subst he
      rw [hp] at hcur
      simp only [Sys.arrive, Sys.setPc, Function.update_self] at hcur
      split_ifs at hcur with hl
      · exact absurd hcur (next_not_blocked _ _ _ _)
      · exact absurd (Pc.blocked.inj hcur).1.symm (hgate hτ)
    · rw [← hpc τ he]; exact hcur

/-- An arrival: the last one starts the next cycle, the others wait. -/
theorem BarOk.arrive_self (h : S.pc θ = .arrive g) (hok : PcOk θ (S.pc θ)) (hrd : 1 ≤ S.rounds θ)
    (hp : S'.pc = (S.arrive θ g).pc) (hr : S'.rounds = S.rounds)
    (hb : S'.bar = (S.arrive θ g).bar) {C : ℕ} (hS : BarOk S (g.bar θ.1) C) :
    BarFine S' (g.bar θ.1) := by
  have hθ : θ ∈ (g.bar θ.1).members n := mem_members_of_arrive (h ▸ hok)
  have hpc : ∀ τ, τ ≠ θ → S'.pc τ = S.pc τ := fun τ hτ => by
    rw [hp]; exact Function.update_of_ne hτ _ _
  have hbar : S'.bar (g.bar θ.1) = (S.bar (g.bar θ.1)).arrive := by
    rw [hb]; simp [Sys.arrive]
  have hstage := (stage_arrive g 0).1
  -- `θ` has not arrived in this cycle, otherwise it would be blocked
  have ha : S.arrivals (g.bar θ.1).gate θ = C := by
    refine (hS.counts.near θ hθ).resolve_right fun ha => ?_
    have := hS.waits θ hθ ha
    rw [h] at this; cases this
  have harr : ∀ τ ∈ (g.bar θ.1).members n, S'.arrivals (g.bar θ.1).gate τ =
      Function.update (S.arrivals (g.bar θ.1).gate) θ (C + 1) τ := by
    intro τ hτ
    by_cases he : τ = θ
    · subst he
      rw [Function.update_self, ← ha, Sys.arrivals, Sys.arrivals,
        if_pos ((stage_arrived hp hτ).2 (by simp)), h, if_neg (by rw [Gate.gate_bar]; omega), hr]
      omega
    · rw [Function.update_of_ne he]
      exact arrivals_congr (by rw [hr]) (by rw [hpc τ he])
  by_cases hl : (S.bar (g.bar θ.1)).last
  · obtain ⟨hall, hcounts⟩ := hS.counts.arrive_last hθ ha hl
    by_cases hover : C + 1 < cycleWrap
    swap
    · -- the cycles that `cur_cycle` can tell apart are used up
      refine .inr ?_
      rw [hbar, hcounts.cycle]
      exact not_lt.1 hover
    refine .inl ⟨C + 1, hover, by rw [hbar]; exact hcounts.congr harr, ?_, ?_⟩
    · intro τ hτ hτa
      have hle := (hcounts.near τ hτ)
      rw [harr τ hτ] at hτa
      by_cases he : τ = θ
      · subst he; simp at hτa
      · rw [Function.update_of_ne he, hall τ hτ he] at hτa; omega
    · intro τ hτ cur hcur
      by_cases he : τ = θ
      · subst he
        rw [hp] at hcur
        simp only [Sys.arrive, Sys.setPc, Function.update_self, if_pos hl] at hcur
        exact absurd hcur (next_not_blocked _ _ _ _)
      · rw [harr τ hτ, Function.update_of_ne he]
        exact hS.cur τ hτ cur (hpc τ he ▸ hcur)
  · have hcounts := hS.counts.arrive_wait hθ ha hl
    have hcyc : (S'.bar (g.bar θ.1)).cycle = (S.bar (g.bar θ.1)).cycle := by
      rw [hbar, CyclicBarrier.arrive, if_neg hl]
    have hmod : (S.bar (g.bar θ.1)).cycle % cycleWrap = (S.bar (g.bar θ.1)).cycle := by
      rw [hS.counts.cycle]
      exact Nat.mod_eq_of_lt hS.lt
    have hself : S'.pc θ = .blocked g (S.bar (g.bar θ.1)).cycle := by
      rw [hp]; simp [Sys.arrive, Sys.setPc, hl, hmod]
    refine .inl ⟨C, hS.lt, by rw [hbar]; exact hcounts.congr harr, ?_, ?_⟩
    · intro τ hτ hτa
      by_cases he : τ = θ
      · subst he; rw [hself, hcyc, Gate.gate_bar]
      · rw [harr τ hτ, Function.update_of_ne he] at hτa
        rw [hpc τ he, hcyc]; exact hS.waits τ hτ hτa
    · intro τ hτ cur hcur
      by_cases he : τ = θ
      · subst he
        rw [hself, Pc.blocked.injEq] at hcur
        refine ⟨C, ?_, by rw [harr τ hτ, Function.update_self]⟩
        rw [← hcur.2, hS.counts.cycle, Nat.mod_eq_of_lt hS.lt]
      · rw [harr τ hτ, Function.update_of_ne he]
        exact hS.cur τ hτ cur (hpc τ he ▸ hcur)

end

/-! ## Shutdown between rounds -/

/-- The timer of `q` is past the test between its barriers: it goes on to the
    top of its loop. -/
def Pc.PastTest2 : Pc → Prop
  | .arrive .coreCompletion | .blocked .coreCompletion _ | .test2 => False
  | _ => True

/-- The threads of `q` have started equally many rounds, no thread of another
    processor has started more, and the timer of `q` is past its second test. -/
structure Together (S : Sys p n) (q : Fin p) : Prop where
  rounds : ∀ t, S.rounds (q, t) = S.rounds (q, none)
  others : ∀ θ, S.rounds θ ≤ S.rounds (q, none)
  timer : (S.pc (q, none)).PastTest2

/-- A flag is set for the first time only between rounds, and after that no
    thread starts a round that the processor of the flag has not started. -/
structure Timely (totalTicks : ℕ) (S : Sys p n) (a : Label p n) : Prop where
  sets : ∀ q, a.sets totalTicks S = some q → S.procShutdownRequested q = false → Together S q
  enter : ∀ θ, a = .enter θ → ∀ q, S.procShutdownRequested q = true → S.rounds θ < S.rounds (q, none)

/-- The invariant of timely runs. -/
structure Inv (S : Sys p n) : Prop where
  pcOk : ∀ θ, PcOk θ (S.pc θ)
  rounds : ∀ θ, (S.pc θ).stage < 3 → 1 ≤ S.rounds θ
  bars : ∀ b, BarFine S b
  cur : ∀ θ g cur, S.pc θ = .blocked g cur → cur < cycleWrap
  exited : ∀ θ, S.pc θ = .exited → S.procShutdownRequested θ.1 = true
  together : ∀ q, S.procShutdownRequested q = true → Together S q

theorem Inv.init (hp : 0 < p) : Inv (Sys.init p n) where
  pcOk _ := trivial
  rounds θ h := by simp [Sys.init, Pc.stage] at h
  bars b := by
    have hcard := Bar.card_members (n := n) b
    have hne : (b.members n).Nonempty := by
      rw [← Finset.card_pos, hcard]
      cases b <;> simp [Bar.target, hp]
    refine .inl ⟨0, by decide, ?_, ?_, ?_⟩
    · have : (CyclicBarrier.init (b.members n).card).Counts _ _ 0 := .init hne
      rw [hcard] at this
      exact this.congr fun θ _ => by simp [Sys.arrivals, Sys.init]
    · intro θ _ ha; simp [Sys.arrivals, Sys.init] at ha
    · intro θ _ cur hc; simp [Sys.init] at hc
  cur θ g cur h := by simp [Sys.init] at h
  exited θ h := by simp [Sys.init] at h
  together q h := by simp [Sys.init] at h

theorem Inv.noTest2Exit {S : Sys p n} (h : Inv S) : NoTest2Exit S := by
  intro q hq hpc
  have := (h.together q hq).timer
  rw [hpc] at this
  exact this

/-- Where a move leads: to a point of the thread's code, and out of the loop
    only with the flag set. -/
theorem Moves.pcOk {S : Sys p n} {θ : Thread p n} {q : Pc} {k : ℕ} (h : Moves S θ q k)
    (hS : PcOk θ (S.pc θ)) :
    PcOk θ q ∧ (q = .exited → S.procShutdownRequested θ.1 = true) ∧
      (q.stage < 3 → k = S.rounds θ → (S.pc θ).stage < 3) := by
  cases h with
  | enter h hf =>
    refine ⟨?_, fun he => ?_, fun _ hk => by omega⟩
    · split_ifs with ht
      · exact ht
      · trivial
    · split_ifs at he
  | exit h hf => exact ⟨trivial, fun _ => hf, fun hs _ => by simp [Pc.stage] at hs⟩
  | tickEnd hc h => exact ⟨trivial, nofun, fun _ _ => by rw [h]; decide⟩
  | @wake g cur h hc =>
    obtain ⟨r, t⟩ := θ
    rw [h] at hS ⊢
    cases g <;> cases t <;> simp_all [next, PcOk, Pc.stage]
  | test2Exit ht h hf => exact ⟨trivial, fun _ => hf, fun hs _ => by simp [Pc.stage] at hs⟩
  | body ht h =>
    rcases h with ⟨h, rfl⟩ | ⟨h, rfl⟩ | ⟨h, rfl⟩ | ⟨h, rfl⟩ <;>
      exact ⟨by first | exact ht | trivial, nofun, fun _ _ => by rw [h]; decide⟩

/-- A timer past its second test stays so in its round. -/
theorem Moves.pastTest2 {S : Sys p n} {r : Fin p} {q : Pc} {k : ℕ} (h : Moves S (r, none) q k)
    (hk : k = S.rounds (r, none)) (hS : (S.pc (r, none)).PastTest2) : q.PastTest2 := by
  cases h with
  | enter h hf => omega
  | exit | test2Exit => trivial
  | tickEnd hc => cases hc
  | @wake g cur h hc => rw [h] at hS; cases g <;> simp_all [next, Pc.PastTest2]
  | body ht h =>
    rcases h with ⟨h, rfl⟩ | ⟨h, rfl⟩ | ⟨h, rfl⟩ | ⟨h, rfl⟩
    · rw [h] at hS; exact hS.elim
    all_goals trivial

theorem Together.step {totalTicks : ℕ} {S S' : Sys p n} {a : Label p n} {q : Fin p}
    (hs : Step totalTicks S a S') (ht : Timely totalTicks S a) (h : Together S q)
    (hq : (∃ θ, a = .enter θ) → S.procShutdownRequested q = true) : Together S' q := by
  cases hs.changes with
  | none hp hr _ => exact ⟨by rw [hr]; exact h.rounds, by rw [hr]; exact h.others, by rw [hp]; exact h.timer⟩
  | @move θ q' k hm hp hr _ ha =>
    rcases ha with rfl | ⟨rfl, hf, rfl⟩
    · rw [Function.update_eq_self] at hr
      refine ⟨by rw [hr]; exact h.rounds, by rw [hr]; exact h.others, ?_⟩
      by_cases he : (q, none) = θ
      · subst he
        rw [hp, Function.update_self]; exact hm.pastTest2 rfl h.timer
      · rw [hp, Function.update_of_ne he]; exact h.timer
    · -- the thread that starts a round is not one of `q`
      have hqf := hq ⟨θ, rfl⟩
      have hne : ∀ t, (q, t) ≠ θ := by
        rintro t rfl; rw [hqf] at hf; cases hf
      refine ⟨fun t => ?_, fun τ => ?_, ?_⟩
      · rw [hr, Function.update_of_ne (hne t), Function.update_of_ne (hne none)]; exact h.rounds t
      · rw [hr, Function.update_of_ne (hne none)]
        by_cases he : τ = θ
        · subst he; rw [Function.update_self]; exact ht.enter τ rfl q hqf
        · rw [Function.update_of_ne he]; exact h.others τ
      · rw [hp, Function.update_of_ne (hne none)]; exact h.timer
  | @arrive θ g hg hp hr _ =>
    refine ⟨by rw [hr]; exact h.rounds, by rw [hr]; exact h.others, ?_⟩
    rw [hp]
    by_cases he : (q, none) = θ
    · subst he
      have := h.timer
      rw [hg] at this
      simp only [Sys.arrive, Sys.setPc, Function.update_self]
      split_ifs <;> cases g <;> simp_all [next, Pc.PastTest2]
    · simp only [Sys.arrive, Sys.setPc, Function.update_of_ne he]; exact h.timer

/-- **A timely step keeps the invariant.** -/
theorem Step.inv {totalTicks : ℕ} {S S' : Sys p n} {a : Label p n} (hs : Step totalTicks S a S')
    (ht : Timely totalTicks S a) (h : Inv S) : Inv S' where
  pcOk := by
    intro τ
    cases hs.changes with
    | none hp _ _ => rw [hp]; exact h.pcOk τ
    | @move θ q k hm hp _ _ _ =>
      rw [hp]
      by_cases he : τ = θ
      · subst he; rw [Function.update_self]; exact (hm.pcOk (h.pcOk τ)).1
      · rw [Function.update_of_ne he]; exact h.pcOk τ
    | @arrive θ g hg hp _ _ =>
      rw [hp]
      by_cases he : τ = θ
      · subst he
        have hok := h.pcOk τ
        rw [hg] at hok
        obtain ⟨r, t⟩ := τ
        simp only [Sys.arrive, Sys.setPc, Function.update_self]
        split_ifs <;> cases g <;> cases t <;> simp_all [next, PcOk]
      · simp only [Sys.arrive, Sys.setPc, Function.update_of_ne he]; exact h.pcOk τ
  rounds := by
    intro τ hstage
    cases hs.changes with
    | none hp hr _ => rw [hp] at hstage; rw [hr]; exact h.rounds τ hstage
    | @move θ q k hm hp hr _ ha =>
      by_cases he : τ = θ
      · subst he
        rw [hp, Function.update_self] at hstage
        rw [hr, Function.update_self]
        rcases ha with rfl | ⟨-, -, rfl⟩
        · exact h.rounds τ ((hm.pcOk (h.pcOk τ)).2.2 hstage rfl)
        · omega
      · rw [hp, Function.update_of_ne he] at hstage
        rw [hr, Function.update_of_ne he]; exact h.rounds τ hstage
    | @arrive θ g hg hp hr _ =>
      rw [hr]
      by_cases he : τ = θ
      · subst he
        refine h.rounds τ ?_
        rw [hg]; cases g <;> decide
      · rw [hp] at hstage
        simp only [Sys.arrive, Sys.setPc, Function.update_of_ne he] at hstage
        exact h.rounds τ hstage
  bars := by
    intro b
    rcases h.bars b with ⟨C, hC⟩ | hover
    · cases hs.changes with
      | none hp hr hb =>
        exact .inl ⟨C, hC.frame (by rw [hb]) (fun τ _ => arrivals_congr (by rw [hr]) (by rw [hp]))
          (fun τ _ _ => by rw [hp]) fun τ _ cur hc => hp ▸ hc⟩
      | move hm hp hr hb _ => exact .inl ⟨C, hC.move hm h.noTest2Exit hp hr hb⟩
      | @arrive θ g hg hp hr hb =>
        by_cases hbg : b = g.bar θ.1
        · subst hbg
          exact hC.arrive_self hg (h.pcOk θ) (h.rounds θ (by rw [hg]; cases g <;> decide)) hp hr hb
        · exact .inl ⟨C, hC.arrive_other hg hp hr hb hbg⟩
    · exact .inr (hover.trans (hs.cycle_le b))
  cur := by
    intro τ g cur hcur
    cases hs.changes with
    | none hp _ _ => exact h.cur τ g cur (hp ▸ hcur)
    | @move θ q k hm hp _ _ _ =>
      by_cases he : τ = θ
      · subst he
        rw [hp, Function.update_self] at hcur
        exact absurd hcur (hm.blocked.1 g cur)
      · rw [hp, Function.update_of_ne he] at hcur; exact h.cur τ g cur hcur
    | @arrive θ g' hg hp _ _ =>
      rw [hp] at hcur
      by_cases he : τ = θ
      · subst he
        simp only [Sys.arrive, Sys.setPc, Function.update_self] at hcur
        split_ifs at hcur
        · exact absurd hcur (next_not_blocked _ _ _ _)
        · rw [← (Pc.blocked.inj hcur).2]
          exact Nat.mod_lt _ (by decide)
      · simp only [Sys.arrive, Sys.setPc, Function.update_of_ne he] at hcur
        exact h.cur τ g cur hcur
  exited := by
    intro τ hex
    refine hs.flags_mono ?_
    cases hs.changes with
    | none hp _ _ => exact h.exited τ (hp ▸ hex)
    | @move θ q k hm hp _ _ _ =>
      by_cases he : τ = θ
      · subst he
        rw [hp, Function.update_self] at hex
        exact (hm.pcOk (h.pcOk τ)).2.1 hex
      · rw [hp, Function.update_of_ne he] at hex; exact h.exited τ hex
    | @arrive θ g hg hp _ _ =>
      rw [hp] at hex
      by_cases he : τ = θ
      · subst he
        simp only [Sys.arrive, Sys.setPc, Function.update_self] at hex
        obtain ⟨r, t⟩ := τ
        split_ifs at hex
        cases g <;> cases t <;> simp [next] at hex
      · simp only [Sys.arrive, Sys.setPc, Function.update_of_ne he] at hex; exact h.exited τ hex
  together := by
    intro q hq
    rcases hs.flagsFrom q hq with hq | hset
    · exact (h.together q hq).step hs ht fun _ => hq
    · by_cases hq : S.procShutdownRequested q = true
      · exact (h.together q hq).step hs ht fun _ => hq
      · refine (ht.sets q hset (by simpa using hq)).step hs ht ?_
        rintro ⟨θ, rfl⟩; cases hset

/-! ## Nobody is stranded -/

/-- How far a thread has come: its round, and the stage in it. -/
def Sys.progress (S : Sys p n) (θ : Thread p n) : ℕ := 4 * S.rounds θ + (S.pc θ).stage

/-- Among blocked threads the one that is furthest behind waits for a thread
    that has exited a round earlier. -/
theorem Inv.exited_behind {S : Sys p n} (h : Inv S) {θ : Thread p n} (hb : S.Blocked θ)
    (hmin : ∀ τ, S.pc τ ≠ .exited → S.progress θ ≤ S.progress τ) :
    ∃ τ, S.pc τ = .exited ∧ S.rounds τ < S.rounds θ := by
  obtain ⟨g, hg⟩ := hb
  have hθ : θ ∈ (g.bar θ.1).members n := by
    have hok := h.pcOk θ
    rw [hg] at hok
    exact mem_members_of_arrive (by cases g <;> exact hok)
  obtain ⟨C, hC⟩ := (h.bars (g.bar θ.1)).resolve_right (not_le.2 (h.cur θ g _ hg))
  have hstage := (stage_arrive g (S.bar (g.bar θ.1)).cycle).2
  have hidx : 1 ≤ g.index ∧ g.index ≤ 3 := by cases g <;> simp [Gate.index]
  have hC1 := hC.arrivals_of_blocked hθ (by rw [Gate.gate_bar]; exact hg)
  rw [Sys.arrivals, Gate.gate_bar, hg, hstage, if_pos le_rfl] at hC1
  obtain ⟨τ, -, hτC⟩ := hC.counts.exists_lagging
  rw [Sys.arrivals, Gate.gate_bar] at hτC
  have hτ : S.pc τ = .exited := by
    by_contra hne
    have hle := hmin τ hne
    have hτr := h.rounds τ
    have hτs := (S.pc τ).stage_le
    rw [Sys.progress, Sys.progress, hg, hstage] at hle
    split_ifs at hτC <;> omega
  refine ⟨τ, hτ, ?_⟩
  rw [hτ, if_pos (show g.index ≤ Pc.exited.stage from hidx.2)] at hτC
  omega

theorem Inv.nobodyStranded {S : Sys p n} (h : Inv S) : ¬ Stranded S := by
  rintro ⟨⟨θ₀, hθ₀⟩, hall⟩
  obtain ⟨θ, hθ, hmin⟩ := (Finset.univ.filter fun θ => S.pc θ ≠ .exited).exists_min_image S.progress
    ⟨θ₀, by simpa using hθ₀⟩
  simp only [Finset.mem_filter, Finset.mem_univ, true_and] at hθ hmin
  obtain ⟨τ, hτ, hlt⟩ := h.exited_behind (hall θ hθ) hmin
  -- the processor of a thread that has exited allows nobody further rounds
  have htog := h.together τ.1 (h.exited τ hτ)
  have hle := htog.others θ
  rw [← htog.rounds τ.2] at hle
  exact absurd hle (not_le.2 hlt)

/-- **Shutdown between rounds strands nobody**: in a run whose steps are all
    timely, no state is reached in which everybody left is blocked. -/
theorem not_stranded (hp : 0 < p) {totalTicks : ℕ} {tr : List (Trans (Sys p n) (Label p n))}
    {S : Sys p n} (h : Exec (Step totalTicks) (Sys.init p n) tr S)
    (ht : ∀ x ∈ tr, Timely totalTicks x.pre x.lab) : ¬ Stranded S :=
  ((h.restrict ht).invariant (Inv.init hp) fun _ _ _ hI hs => hs.1.inv hs.2 hI).nobodyStranded

/-- A step that sets no flag and starts no round is timely. -/
theorem Timely.of_none {totalTicks : ℕ} {S : Sys p n} {a : Label p n}
    (hs : a.sets totalTicks S = none) (he : ∀ θ, a ≠ .enter θ) : Timely totalTicks S a :=
  ⟨fun _ hq => absurd (hs.symm.trans hq) nofun, fun θ hθ => absurd hθ (he θ)⟩

/-- A round may start while no flag is set. -/
theorem Timely.enter_of {totalTicks : ℕ} {S : Sys p n} {θ : Thread p n}
    (hf : ∀ q, S.procShutdownRequested q = false) : Timely totalTicks S (.enter θ) :=
  ⟨nofun, fun _ _ q hq => absurd ((hf q).symm.trans hq) nofun⟩

/-- One processor of one core in its first tick: the timer waits at
    `core_completion_barrier` and the core is in `scheduler_tick`. -/
def firstTick : Sys 1 1 :=
  (((Sys.init 1 1).enter (0, none)).arrive (0, none) .coreCompletion).enter (0, some 0)

theorem exec_firstTick : ∃ tr, Exec (Step 0) (Sys.init 1 1) tr firstTick ∧
    ∀ x ∈ tr, Timely 0 x.pre x.lab := by
  have h₁ : Step 0 (Sys.init 1 1) (.enter (0, none)) _ := .enter rfl rfl
  have h₂ : Step 0 ((Sys.init 1 1).enter (0, none)) (.arrive (0, none) .coreCompletion) _ :=
    .arrive rfl
  have h₃ : Step 0 (((Sys.init 1 1).enter (0, none)).arrive (0, none) .coreCompletion)
      (.enter (0, some 0)) _ := .enter rfl rfl
  refine ⟨_, ((Exec.nil.snoc h₁).snoc h₂).snoc h₃, ?_⟩
  intro x hx
  simp only [List.nil_append, List.cons_append, List.mem_cons, List.not_mem_nil, or_false] at hx
  rcases hx with rfl | rfl | rfl
  · exact Timely.enter_of fun _ => rfl
  · exact Timely.of_none rfl nofun
  · exact Timely.enter_of fun _ => rfl

/-- **A SIGUSR1 within a tick**: the timer leaves its loop between its barriers,
    and the core waits for it at `time_sync_barrier`. -/
theorem signal_strands : ∃ (tr : List (Trans (Sys 1 1) (Label 1 1))) (S : Sys 1 1),
    Exec (Step 0) (Sys.init 1 1) tr S ∧ Stranded S := by
  obtain ⟨tr, h, -⟩ := exec_firstTick
  have h₁ : Step 0 firstTick (.signal 0) _ := .signal 0
  have run := ((((((h.snoc h₁).snoc (.tickEnd (q := 0) (c := 0) rfl)).snoc
    (.arrive (θ := (0, some 0)) (g := .coreCompletion) rfl)).snoc
    (.wake (θ := (0, none)) (g := .coreCompletion) rfl (show 0 ≠ 1 by decide))).snoc
    (.test2 (q := 0) rfl)).snoc (.arrive (θ := (0, some 0)) (g := .timeSync) rfl))
  refine ⟨_, _, run, ⟨(0, some 0), by decide⟩, ?_⟩
  rintro ⟨q, t⟩ hne
  obtain rfl := Subsingleton.elim q 0
  cases t with
  | none => exact absurd rfl hne
  | some c =>
    obtain rfl := Subsingleton.elim c 0
    exact ⟨.timeSync, rfl⟩

/-- A deadline miss in the first tick of a processor of one core, up to the
    timer's setting of the flag. -/
theorem not_stranded_fatal : ∃ S : Sys 1 1, Reachable (Step 0) (Sys.init 1 1) S ∧
    S.procShutdownRequested 0 = true ∧ ¬ Stranded S := by
  obtain ⟨tr, h, ht⟩ := exec_firstTick
  have h₁ : Step 0 firstTick (.fatal 0 0) _ := .fatal rfl
  have run := ((((((h.snoc h₁).snoc (.tickEnd (q := 0) (c := 0) rfl)).snoc
    (.arrive (θ := (0, some 0)) (g := .coreCompletion) rfl)).snoc
    (.wake (θ := (0, none)) (g := .coreCompletion) rfl (show 0 ≠ 1 by decide))).snoc
    (.test2 (q := 0) rfl)).snoc (.receive (q := 0) rfl)).snoc (.fatalTest (q := 0) rfl)
  refine ⟨_, ⟨_, run⟩, rfl, not_stranded (by decide) run ?_⟩
  intro x hx
  simp only [List.append_assoc, List.cons_append, List.nil_append, List.mem_append, List.mem_cons,
    List.not_mem_nil, or_false] at hx
  rcases hx with hx | rfl | rfl | rfl | rfl | rfl | rfl | rfl
  · exact ht x hx
  · exact Timely.of_none rfl nofun
  · exact Timely.of_none rfl nofun
  · exact Timely.of_none rfl nofun
  · exact Timely.of_none rfl nofun
  · exact Timely.of_none rfl nofun
  · exact Timely.of_none rfl nofun
  · refine ⟨fun q hq _ => ?_, nofun⟩
    obtain rfl := Subsingleton.elim q 0
    exact ⟨by decide, by decide, trivial⟩

end EeftSched.Shutdown

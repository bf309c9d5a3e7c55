/-
  The timer and the cores of one processor, tick after tick
  (`timer_thread_func`, `core_thread_func` in `processor.c`, with
  `remove_completed_jobs` and `handle_job_completion` in `sched_core.c` and the
  message loops in `ipc.c`).

  The two barriers release a cycle when all `n + 1` threads have arrived.  The
  message queues stand for the lists that the ring buffers hold; which packets
  arrive, what the cores complete and how long the timer stays at the barrier
  of the processors is left open.

  * `Step`: one step of one thread;
  * `Control`: where the threads can be in relation to each other;
  * `Visited`: what each core has read in each tick;
  * `lockstep`: one `scheduler_tick` for each core and each value of
    `system_time`, never during a timer phase; every message that a timer phase
    enqueues is read once by every core, in the next tick; after the shutdown
    request all threads leave after the same tick.
-/
import EeftSched.Lib.Barrier
import EeftSched.Lib.Exec
import EeftSched.Lib.TicketQueue
import Mathlib.Data.Fintype.Option
import Mathlib.Algebra.Order.BigOperators.Group.Finset
import Mathlib.Tactic.Common

namespace EeftSched.Lockstep

open Lts

/-- A core, or the timer -/
abbrev Thread (n : ℕ) := Option (Fin n)

/-- `core_completion_barrier` and `time_sync_barrier` -/
inductive Gate where
  | coreCompletion
  | timeSync
deriving DecidableEq

/-- Where a thread is in its loop. -/
inductive Pc (M : Type) where
  /-- at the test of the loop -/
  | test
  /-- a core at the start of `scheduler_tick`, in `remove_completed_jobs` -/
  | tickStart
  /-- in the loop over the incoming messages, at position `idx` -/
  | read (idx : ℕ)
  /-- in the rest of `scheduler_tick` -/
  | body
  /-- in `ring_buffer_enqueue` of `handle_job_completion` -/
  | enqueue (ticket : ℕ)
  | bodyEnd
  | arrive (g : Gate)
  | wait (g : Gate) (cycle : ℕ)
  /-- the timer at the test between its barriers, and in its phase -/
  | test2
  | clear
  /-- in `ipc_receive_completion_messages`, with the rest of a packet -/
  | receive (pending : List M)
  | sweep
  | fatalTest
  | advance
  | lastTest
  | send
  /-- at the barrier of the processors -/
  | procBarrier
  | exited

/-- What a ring buffer of messages holds, from which position on. -/
structure MsgQueue (M : Type) where
  head : ℕ
  msgs : List M

namespace MsgQueue

variable {M : Type}

def tail (q : MsgQueue M) : ℕ := q.head + q.msgs.length

/-- `ring_buffer_clear` -/
def clear (q : MsgQueue M) : MsgQueue M := ⟨q.tail, []⟩

/-- `ring_buffer_enqueue` -/
def enqueue (q : MsgQueue M) (m : M) : MsgQueue M := ⟨q.head, q.msgs ++ [m]⟩

/-- The messages with their positions -/
def entries (q : MsgQueue M) : List (ℕ × M) := (List.range' q.head q.msgs.length).zip q.msgs

end MsgQueue

structure Sys (M : Type) (n : ℕ) where
  bar : Gate → CyclicBarrier
  pc : Thread n → Pc M
  /-- how often a thread has entered its loop body -/
  rounds : Thread n → ℕ
  incoming : MsgQueue M
  outgoing : TicketQueue M
  systemTime : ℕ
  procShutdownRequested : Bool
  coreFatalShutdownRequested : Bool

variable {M : Type} {n : ℕ}

def Sys.init (M : Type) (n : ℕ) : Sys M n where
  bar _ := .init (n + 1)
  pc _ := .test
  rounds _ := 0
  incoming := ⟨0, []⟩
  outgoing := .empty
  systemTime := 0
  procShutdownRequested := false
  coreFatalShutdownRequested := false

/-- Where a thread goes from a barrier that opens. -/
def next (θ : Thread n) : Gate → Pc M
  | .coreCompletion => if θ.isSome then .arrive .timeSync else .test2
  | .timeSync => if θ.isSome then .test else .procBarrier

/-- The loop of `ipc_send_completion_messages` -/
def drain : ℕ → TicketQueue M → List M × TicketQueue M
  | 0, q => ([], q)
  | k + 1, q =>
    match q.tryDequeue with
    | some (m, q) => (m :: (drain k q).1, (drain k q).2)
    | none => ([], q)

namespace Sys

def setPc (S : Sys M n) (θ : Thread n) (q : Pc M) : Sys M n :=
  { S with pc := Function.update S.pc θ q }

/-- The loop body starts. -/
def enter (S : Sys M n) (θ : Thread n) (q : Pc M) : Sys M n :=
  { S.setPc θ q with rounds := Function.update S.rounds θ (S.rounds θ + 1) }

/-- `barrier_wait` up to the return or the wait -/
def arrive (S : Sys M n) (θ : Thread n) (g : Gate) : Sys M n :=
  { S.setPc θ (if (S.bar g).last then next θ g else .wait g (S.bar g).cycle) with
    bar := Function.update S.bar g (S.bar g).arrive }

end Sys

inductive Label (M : Type) (n : ℕ) where
  /-- core `c` enters `scheduler_tick` -/
  | tick (c : Fin n)
  /-- `remove_completed_jobs` of core `c` is at the message at position `idx` -/
  | visit (c : Fin n) (idx : ℕ) (msg : M)
  /-- core `c` reports a completion -/
  | complete (c : Fin n) (msg : M)
  /-- the timer takes a packet from the socket -/
  | recv (packet : List M)
  /-- the timer puts a message in the incoming queue, at position `idx` -/
  | enqueue (idx : ℕ) (msg : M)
  /-- no packet is left -/
  | recvEnd
  | send (msgs : List M)
  /-- the barrier of the processors opens -/
  | procPass
  | exit (θ : Thread n)
  | tau

/-- One step; `size` is `MESSAGE_QUEUE_SIZE`. -/
inductive Step (size totalTicks : ℕ) (S : Sys M n) : Label M n → Sys M n → Prop
  /-- `core_thread_func` -/
  | tick {c : Fin n} (h : S.pc (some c) = .test) (hf : S.procShutdownRequested = false) :
      Step size totalTicks S (.tick c) (S.enter (some c) .tickStart)
  | loadHead {c : Fin n} (h : S.pc (some c) = .tickStart) :
      Step size totalTicks S .tau (S.setPc (some c) (.read S.incoming.head))
  | visit {c : Fin n} {idx : ℕ} {m : M} (h : S.pc (some c) = .read idx) (hi : idx < S.incoming.tail)
      (hm : S.incoming.msgs[idx - S.incoming.head]? = some m) :
      Step size totalTicks S (.visit c idx m) (S.setPc (some c) (.read (idx + 1)))
  | readEnd {c : Fin n} {idx : ℕ} (h : S.pc (some c) = .read idx) (hi : ¬idx < S.incoming.tail) :
      Step size totalTicks S .tau (S.setPc (some c) .body)
  | complete {c : Fin n} (m : M) (h : S.pc (some c) = .body) :
      Step size totalTicks S (.complete c m)
        { S.setPc (some c) (.enqueue S.outgoing.tail) with outgoing := S.outgoing.claim m }
  | publish {c : Fin n} {t : ℕ} (h : S.pc (some c) = .enqueue t) (hf : S.outgoing.Free size t) :
      Step size totalTicks S .tau
        { S.setPc (some c) .bodyEnd with outgoing := S.outgoing.publish t }
  /-- a deadline miss -/
  | fatal {c : Fin n} (h : S.pc (some c) = .body ∨ S.pc (some c) = .bodyEnd) :
      Step size totalTicks S .tau { S.setPc (some c) .bodyEnd with coreFatalShutdownRequested := true }
  | tickEnd {c : Fin n} (h : S.pc (some c) = .body ∨ S.pc (some c) = .bodyEnd) :
      Step size totalTicks S .tau (S.setPc (some c) (.arrive .coreCompletion))
  /-- `timer_thread_func` -/
  | enter (h : S.pc none = .test) (hf : S.procShutdownRequested = false) :
      Step size totalTicks S .tau (S.enter none (.arrive .coreCompletion))
  | test2 (h : S.pc none = .test2) (hf : S.procShutdownRequested = false) :
      Step size totalTicks S .tau (S.setPc none .clear)
  | test2Exit (h : S.pc none = .test2) (hf : S.procShutdownRequested = true) :
      Step size totalTicks S (.exit none) (S.setPc none .exited)
  | clear (h : S.pc none = .clear) :
      Step size totalTicks S .tau { S.setPc none (.receive []) with incoming := S.incoming.clear }
  | recv (packet : List M) (h : S.pc none = .receive []) :
      Step size totalTicks S (.recv packet) (S.setPc none (.receive packet))
  | enqueue {m : M} {rest : List M} (h : S.pc none = .receive (m :: rest))
      (hs : S.incoming.msgs.length < size) :
      Step size totalTicks S (.enqueue S.incoming.tail m)
        { S.setPc none (.receive rest) with incoming := S.incoming.enqueue m }
  | recvEnd (h : S.pc none = .receive []) : Step size totalTicks S .recvEnd (S.setPc none .sweep)
  | sweep (h : S.pc none = .sweep) : Step size totalTicks S .tau (S.setPc none .fatalTest)
  | fatalTest (h : S.pc none = .fatalTest) :
      Step size totalTicks S .tau
        { S.setPc none .advance with
          procShutdownRequested := S.procShutdownRequested || S.coreFatalShutdownRequested }
  | advance (h : S.pc none = .advance) :
      Step size totalTicks S .tau { S.setPc none .lastTest with systemTime := S.systemTime + 1 }
  | lastTest (h : S.pc none = .lastTest) :
      Step size totalTicks S .tau
        { S.setPc none .send with
          procShutdownRequested :=
            S.procShutdownRequested || decide (0 < totalTicks ∧ totalTicks ≤ S.systemTime) }
  | send (h : S.pc none = .send) :
      Step size totalTicks S (.send (drain size S.outgoing).1)
        { S.setPc none (.arrive .timeSync) with outgoing := (drain size S.outgoing).2 }
  | procPass (h : S.pc none = .procBarrier) : Step size totalTicks S .procPass (S.setPc none .test)
  /-- both -/
  | arrive {θ : Thread n} {g : Gate} (h : S.pc θ = .arrive g) :
      Step size totalTicks S .tau (S.arrive θ g)
  | wake {θ : Thread n} {g : Gate} {cycle : ℕ} (h : S.pc θ = .wait g cycle)
      (hc : cycle ≠ (S.bar g).cycle) : Step size totalTicks S .tau (S.setPc θ (next θ g))
  | exit {θ : Thread n} (h : S.pc θ = .test) (hf : S.procShutdownRequested = true) :
      Step size totalTicks S (.exit θ) (S.setPc θ .exited)

/-! ## Rounds and arrivals -/

namespace Pc

/-- A core is in `scheduler_tick`. -/
def InTick : Pc M → Prop
  | .tickStart | .read _ | .body | .enqueue _ | .bodyEnd => True
  | _ => False

/-- The timer is in its phase. -/
def InPhase : Pc M → Prop
  | .clear | .receive _ | .sweep | .fatalTest | .advance | .lastTest | .send => True
  | _ => False

/-- How many of the barriers of its round a thread has arrived at. -/
def stage : Pc M → ℕ
  | .tickStart | .read _ | .body | .enqueue _ | .bodyEnd | .arrive .coreCompletion => 0
  | .wait .coreCompletion _ | .test2 | .clear | .receive _ | .sweep | .fatalTest | .advance
  | .lastTest | .send | .arrive .timeSync => 1
  | .wait .timeSync _ | .procBarrier | .test | .exited => 2

/-- The timer has advanced `system_time` in this round. -/
def advanced : Pc M → Bool
  | .lastTest | .send | .arrive .timeSync | .wait .timeSync _ | .procBarrier | .test | .exited => true
  | _ => false

end Pc

def Gate.index : Gate → ℕ
  | .coreCompletion => 1
  | .timeSync => 2

/-- How often a thread has arrived at `g`. -/
def Sys.arrivals (S : Sys M n) (g : Gate) (θ : Thread n) : ℕ :=
  if g.index ≤ (S.pc θ).stage then S.rounds θ else S.rounds θ - 1

/-- The points of cores and timer -/
def PcOk (θ : Thread n) : Pc M → Prop
  | .test | .arrive _ | .wait _ _ | .exited => True
  | .tickStart | .read _ | .body | .enqueue _ | .bodyEnd => θ.isSome
  | .test2 | .clear | .receive _ | .sweep | .fatalTest | .advance | .lastTest | .send
  | .procBarrier => θ = none

variable {size totalTicks : ℕ} {S S' : Sys M n} {a : Label M n} {θ τ : Thread n} {g : Gate}

@[simp] theorem Sys.setPc_self (S : Sys M n) (θ : Thread n) (q : Pc M) : (S.setPc θ q).pc θ = q :=
  Function.update_self ..

theorem Sys.setPc_ne (S : Sys M n) (q : Pc M) (h : τ ≠ θ) : (S.setPc θ q).pc τ = S.pc τ :=
  Function.update_of_ne h ..

theorem Pc.stage_le (q : Pc M) : q.stage ≤ 2 := by
  cases q with
  | arrive g | wait g _ => cases g <;> simp [stage]
  | _ => simp [stage]

theorem next_stage (θ : Thread n) (g : Gate) : (next θ g : Pc M).stage = g.index := by
  cases g <;> cases θ <;> rfl

theorem next_ne_wait (θ : Thread n) (g g' : Gate) (c : ℕ) : (next θ g : Pc M) ≠ .wait g' c := by
  cases g <;> cases θ <;> nofun

theorem next_ok (θ : Thread n) (g : Gate) : PcOk θ (next θ g : Pc M) := by
  cases g <;> cases θ <;> trivial

/-- The arrivals of a thread, by its stage -/
theorem Sys.arrivals_cases (S : Sys M n) (θ : Thread n) :
    (S.pc θ).stage = 0 ∧ S.arrivals .coreCompletion θ = S.rounds θ - 1 ∧
        S.arrivals .timeSync θ = S.rounds θ - 1 ∨
      (S.pc θ).stage = 1 ∧ S.arrivals .coreCompletion θ = S.rounds θ ∧
        S.arrivals .timeSync θ = S.rounds θ - 1 ∨
      (S.pc θ).stage = 2 ∧ S.arrivals .coreCompletion θ = S.rounds θ ∧
        S.arrivals .timeSync θ = S.rounds θ := by
  have hle := (S.pc θ).stage_le
  have hstage : (S.pc θ).stage = 0 ∨ (S.pc θ).stage = 1 ∨ (S.pc θ).stage = 2 := by omega
  unfold Sys.arrivals
  rcases hstage with h | h | h
  · rw [h]
    exact .inl ⟨rfl, rfl, rfl⟩
  · rw [h]
    exact .inr (.inl ⟨rfl, rfl, rfl⟩)
  · rw [h]
    exact .inr (.inr ⟨rfl, rfl, rfl⟩)

/-- A thread moves on without a barrier. -/
inductive Moves (S : Sys M n) (θ : Thread n) (q : Pc M) : ℕ → Prop
  | within (hs : q.stage = (S.pc θ).stage) (hw : ∀ g c, S.pc θ ≠ .wait g c) (hq : ∀ g c, q ≠ .wait g c)
      (ok : PcOk θ q) : Moves S θ q (S.rounds θ)
  | enter (h : S.pc θ = .test) (hs : q.stage = 0) (hq : ∀ g c, q ≠ .wait g c) (ok : PcOk θ q) :
      Moves S θ q (S.rounds θ + 1)
  | wake {g : Gate} {cycle : ℕ} (h : S.pc θ = .wait g cycle) (hc : cycle ≠ (S.bar g).cycle)
      (hq : q = next θ g) : Moves S θ q (S.rounds θ)

/-- What a step does to the threads and barriers: it moves one thread, or lets
    one arrive at a barrier. -/
inductive Changes (S S' : Sys M n) : Prop
  | move {θ : Thread n} {q : Pc M} {k : ℕ} (h : Moves S θ q k) (hp : S'.pc = Function.update S.pc θ q)
      (hr : S'.rounds = Function.update S.rounds θ k) (hb : S'.bar = S.bar)
  | arrive {θ : Thread n} {g : Gate} (h : S.pc θ = .arrive g) (hp : S'.pc = (S.arrive θ g).pc)
      (hr : S'.rounds = S.rounds) (hb : S'.bar = (S.arrive θ g).bar)

/-- A thread that stays in its round and stage -/
theorem Changes.within {q : Pc M} (hs : q.stage = (S.pc θ).stage) (hw : ∀ g c, S.pc θ ≠ .wait g c)
    (hq : ∀ g c, q ≠ .wait g c) (ok : PcOk θ q) (hp : S'.pc = Function.update S.pc θ q)
    (hr : S'.rounds = S.rounds) (hb : S'.bar = S.bar) : Changes S S' := by
  refine .move (.within hs hw hq ok) hp ?_ hb
  rw [hr, Function.update_eq_self]

/-- The step is not the timer's exit between its barriers. -/
def NoTest2Exit (S : Sys M n) : Prop := S.procShutdownRequested = true → S.pc none ≠ .test2

theorem Step.changes (h : Step size totalTicks S a S') (hn : NoTest2Exit S) : Changes S S' := by
  cases h with
  | tick h hf | enter h hf =>
    refine .move (.enter h ?_ ?_ ?_) rfl rfl rfl
    · rfl
    · nofun
    · trivial
  | test2Exit h hf => exact absurd h (hn hf)
  | arrive h => exact .arrive h rfl rfl rfl
  | wake h hc =>
    refine .move (.wake h hc rfl) rfl ?_ rfl
    exact (Function.update_eq_self ..).symm
  | loadHead h | visit h _ _ | readEnd h _ | complete _ h | publish h _ =>
    refine .within ?_ ?_ ?_ ?_ rfl rfl rfl
    · simp only [h, Pc.stage]
    · rw [h]; nofun
    · nofun
    · rfl
  | fatal h | tickEnd h =>
    rcases h with h | h
    all_goals
      refine .within ?_ ?_ ?_ ?_ rfl rfl rfl
      · simp only [h, Pc.stage]
      · rw [h]; nofun
      · nofun
      · trivial
  | test2 h | clear h | recv _ h | enqueue h _ | recvEnd h | sweep h | fatalTest h | advance h
  | lastTest h | send h | procPass h | exit h _ =>
    refine .within ?_ ?_ ?_ ?_ rfl rfl rfl
    · simp only [h, Pc.stage]
    · rw [h]; nofun
    · nofun
    · trivial

/-! ## The barriers -/

structure Barriers (S : Sys M n) : Prop where
  counts : ∀ g, (S.bar g).Counts Finset.univ (S.arrivals g) (S.bar g).cycle
  past : ∀ g θ, (∀ c, S.pc θ ≠ .wait g c) → S.arrivals g θ ≤ (S.bar g).cycle
  waits : ∀ g θ c, S.pc θ = .wait g c → c + 1 = S.arrivals g θ
  kinds : ∀ θ, PcOk θ (S.pc θ)
  started : ∀ θ, (S.pc θ).stage < 2 → 1 ≤ S.rounds θ

theorem Barriers.init : Barriers (Sys.init M n) where
  counts g := by
    have harr : (Sys.init M n).arrivals g = fun _ => 0 := by
      funext θ
      cases g <;> rfl
    rw [harr]
    have h := CyclicBarrier.Counts.init (Θ := Thread n) (M := Finset.univ) Finset.univ_nonempty
    rw [Finset.card_univ, Fintype.card_option, Fintype.card_fin] at h
    exact h
  past g θ _ := by cases g <;> exact le_rfl
  waits _ _ _ h := by cases h
  kinds _ := trivial
  started _ h := absurd h (lt_irrefl 2)

namespace Barriers

/-- A thread moves without a barrier: nobody's arrivals change. -/
theorem move (h : Barriers S) {q : Pc M} {k : ℕ} (hm : Moves S θ q k)
    (hp : S'.pc = Function.update S.pc θ q) (hr : S'.rounds = Function.update S.rounds θ k)
    (hb : S'.bar = S.bar) : Barriers S' := by
  have hpθ : S'.pc θ = q := by rw [hp, Function.update_self]
  have hrθ : S'.rounds θ = k := by rw [hr, Function.update_self]
  have hpn : ∀ τ ≠ θ, S'.pc τ = S.pc τ := fun τ hτ => by rw [hp, Function.update_of_ne hτ]
  have hrn : ∀ τ ≠ θ, S'.rounds τ = S.rounds τ := fun τ hτ => by rw [hr, Function.update_of_ne hτ]
  have hstarted := h.started θ
  have hself : ∀ g, S'.arrivals g θ = S.arrivals g θ := by
    intro g
    unfold Sys.arrivals
    rw [hpθ, hrθ]
    cases hm with
    | within hs _ _ _ => rw [hs]
    | enter ht hs _ _ =>
      rw [hs, ht]
      cases g <;> rfl
    | @wake g' _ hw _ hq =>
      rw [hq, next_stage, hw]
      cases g' <;> rfl
  have harr : ∀ g, S'.arrivals g = S.arrivals g := by
    intro g
    funext τ
    by_cases hτ : τ = θ
    · rw [hτ, hself]
    · unfold Sys.arrivals
      rw [hpn τ hτ, hrn τ hτ]
  have hqw : ∀ g c, q ≠ .wait g c := by
    cases hm with
    | within _ _ hq _ | enter _ _ hq _ => exact hq
    | wake _ _ hq => rw [hq]; exact fun g c => next_ne_wait θ _ g c
  refine ⟨?_, ?_, ?_, ?_, ?_⟩
  · intro g
    rw [hb, harr]
    exact h.counts g
  · intro g τ hw
    rw [hb, harr]
    by_cases hτ : τ = θ
    · subst hτ
      cases hm with
      | within _ hw' _ _ => exact h.past g τ (hw' g)
      | enter ht _ _ _ => exact h.past g τ (by rw [ht]; nofun)
      | @wake g' cycle hw' hc _ =>
        by_cases hg : g = g'
        · subst hg
          have hcyc := h.waits g τ cycle hw'
          have hnear := (h.counts g).near τ (Finset.mem_univ τ)
          omega
        · refine h.past g τ fun c hgc => hg ?_
          rw [hw'] at hgc
          exact (Pc.wait.inj hgc).1.symm
    · rw [hpn τ hτ] at hw
      exact h.past g τ hw
  · intro g τ c hw
    rw [harr]
    by_cases hτ : τ = θ
    · rw [hτ, hpθ] at hw
      exact absurd hw (hqw g c)
    · rw [hpn τ hτ] at hw
      exact h.waits g τ c hw
  · intro τ
    by_cases hτ : τ = θ
    · rw [hτ, hpθ]
      cases hm with
      | within _ _ _ ok | enter _ _ _ ok => exact ok
      | wake _ _ hq => rw [hq]; exact next_ok θ _
    · rw [hpn τ hτ]
      exact h.kinds τ
  · intro τ hlt
    by_cases hτ : τ = θ
    · rw [hτ, hpθ] at hlt
      rw [hτ, hrθ]
      cases hm with
      | within hs _ _ _ => exact hstarted (by rw [← hs]; exact hlt)
      | enter _ _ _ _ => exact Nat.succ_pos _
      | @wake g' _ hw _ hq =>
        refine hstarted ?_
        rw [hq, next_stage] at hlt
        rw [hw]
        cases g' with
        | coreCompletion => exact Nat.one_lt_two
        | timeSync => exact absurd hlt (by decide)
    · rw [hpn τ hτ] at hlt
      rw [hrn τ hτ]
      exact h.started τ hlt

/-- The stage of a thread that arrives -/
theorem stage_arrive (g : Gate) (c : ℕ) :
    (Pc.arrive g : Pc M).stage + 1 = g.index ∧ (Pc.wait g c : Pc M).stage = g.index := by
  cases g <;> exact ⟨rfl, rfl⟩

/-- An arrival: the last one opens the barrier, the others wait. -/
theorem arrive (h : Barriers S) (ha : S.pc θ = .arrive g) (hp : S'.pc = (S.arrive θ g).pc)
    (hr : S'.rounds = S.rounds) (hb : S'.bar = (S.arrive θ g).bar) : Barriers S' := by
  have hpθ : S'.pc θ = if (S.bar g).last then next θ g else .wait g (S.bar g).cycle := by
    rw [hp]
    exact Function.update_self ..
  have hpn : ∀ τ ≠ θ, S'.pc τ = S.pc τ := by
    intro τ hτ
    rw [hp]
    exact Function.update_of_ne hτ ..
  have hbg : S'.bar g = (S.bar g).arrive := by
    rw [hb]
    exact Function.update_self ..
  have hbn : ∀ g' ≠ g, S'.bar g' = S.bar g' := by
    intro g' hg
    rw [hb]
    exact Function.update_of_ne hg ..
  have hstage : (S'.pc θ).stage = g.index := by
    rw [hpθ]
    split_ifs
    · exact next_stage θ g
    · exact (stage_arrive g _).2
  have hstage₀ : (S.pc θ).stage + 1 = g.index := by rw [ha]; exact (stage_arrive g 0).1
  have hround : 1 ≤ S.rounds θ := by
    refine h.started θ ?_
    have : g.index ≤ 2 := by cases g <;> decide
    omega
  have hpast : S.arrivals g θ ≤ (S.bar g).cycle := h.past g θ (by rw [ha]; nofun)
  have hat : S.arrivals g θ = (S.bar g).cycle := by
    have := (h.counts g).near θ (Finset.mem_univ θ)
    omega
  have harr : ∀ g', S'.arrivals g' =
      if g' = g then Function.update (S.arrivals g) θ ((S.bar g).cycle + 1) else S.arrivals g' := by
    intro g'
    funext τ
    by_cases hτ : τ = θ
    · subst hτ
      by_cases hg : g' = g
      · subst hg
        rw [if_pos rfl, Function.update_self, ← hat]
        unfold Sys.arrivals
        rw [hstage, hr, if_pos le_rfl, if_neg (by omega)]
        omega
      · rw [if_neg hg]
        unfold Sys.arrivals
        rw [hstage, hr]
        have hidx : g'.index ≠ g.index := by
          cases g <;> cases g' <;> first | exact absurd rfl hg | decide
        have hiff : g'.index ≤ g.index ↔ g'.index ≤ (S.pc τ).stage := by omega
        simp only [hiff]
    · have hsame : S'.arrivals g' τ = S.arrivals g' τ := by
        unfold Sys.arrivals
        rw [hpn τ hτ, hr]
      rw [hsame]
      split_ifs with hg
      · rw [Function.update_of_ne hτ, hg]
      · rfl
  have hcycle : (S.bar g).cycle ≤ (S'.bar g).cycle := by
    rw [hbg]
    exact CyclicBarrier.cycle_le_arrive _
  refine ⟨?_, ?_, ?_, ?_, ?_⟩
  · intro g'
    rw [harr]
    by_cases hg : g' = g
    · subst hg
      rw [if_pos rfl, hbg]
      by_cases hl : (S.bar g').last
      · have := ((h.counts g').arrive_last (Finset.mem_univ θ) hat hl).2
        have hc : (S.bar g').arrive.cycle = (S.bar g').cycle + 1 := this.cycle
        rw [hc]
        exact this
      · have := (h.counts g').arrive_wait (Finset.mem_univ θ) hat hl
        have hc : (S.bar g').arrive.cycle = (S.bar g').cycle := this.cycle
        rw [hc]
        exact this
    · rw [if_neg hg, hbn g' hg]
      exact h.counts g'
  · intro g' τ hw
    rw [harr]
    by_cases hg : g' = g
    · subst hg
      rw [if_pos rfl]
      by_cases hτ : τ = θ
      · subst hτ
        rw [Function.update_self, hbg]
        have hl : (S.bar g').last := by
          by_contra hl
          rw [hpθ, if_neg hl] at hw
          exact hw _ rfl
        rw [((h.counts g').arrive_last (Finset.mem_univ τ) hat hl).2.cycle]
      · rw [Function.update_of_ne hτ]
        rw [hpn τ hτ] at hw
        exact (h.past g' τ hw).trans hcycle
    · rw [if_neg hg, hbn g' hg]
      refine h.past g' τ ?_
      by_cases hτ : τ = θ
      · rw [hτ, ha]
        nofun
      · rw [hpn τ hτ] at hw
        exact hw
  · intro g' τ c hw
    rw [harr]
    by_cases hτ : τ = θ
    · subst hτ
      rw [hpθ] at hw
      split_ifs at hw with hl
      · exact absurd hw (next_ne_wait τ g g' c)
      · obtain ⟨rfl, rfl⟩ := Pc.wait.inj hw
        rw [if_pos rfl, Function.update_self]
    · rw [hpn τ hτ] at hw
      split_ifs with hg
      · rw [Function.update_of_ne hτ, ← hg]
        exact h.waits g' τ c hw
      · exact h.waits g' τ c hw
  · intro τ
    by_cases hτ : τ = θ
    · rw [hτ, hpθ]
      split_ifs
      · exact next_ok θ g
      · trivial
    · rw [hpn τ hτ]
      exact h.kinds τ
  · intro τ hlt
    rw [hr]
    by_cases hτ : τ = θ
    · rw [hτ]
      exact hround
    · rw [hpn τ hτ] at hlt
      exact h.started τ hlt

theorem step (h : Barriers S) (hn : NoTest2Exit S) (hs : Step size totalTicks S a S') :
    Barriers S' := by
  cases hs.changes hn with
  | move hm hp hr hb => exact h.move hm hp hr hb
  | arrive ha hp hr hb => exact h.arrive ha hp hr hb

/-- **No `scheduler_tick` overlaps a timer phase**: in a phase every thread is
    past `scheduler_tick` in the same round. -/
theorem of_phase (h : Barriers S) (hp : (S.pc none).InPhase) (θ : Thread n) :
    S.rounds θ = S.rounds none ∧ 1 ≤ (S.pc θ).stage := by
  have hstage : (S.pc none).stage = 1 ∧ ∀ g c, S.pc none ≠ .wait g c := by
    cases hpc : S.pc none with
    | clear | receive | sweep | fatalTest | advance | lastTest | send => exact ⟨rfl, nofun⟩
    | _ => rw [hpc] at hp; cases hp
  have hpast₁ := h.past .coreCompletion none (hstage.2 _)
  have hpast₂ := h.past .timeSync none (hstage.2 _)
  have htimer := S.arrivals_cases none
  have hround := h.started none (by omega)
  have hcore := S.arrivals_cases θ
  have hstarted := h.started θ
  have hnear₁ := (h.counts .coreCompletion).near θ (Finset.mem_univ θ)
  have hnear₂ := (h.counts .timeSync).near θ (Finset.mem_univ θ)
  have htnear₁ := (h.counts .coreCompletion).near none (Finset.mem_univ _)
  have htnear₂ := (h.counts .timeSync).near none (Finset.mem_univ _)
  -- a thread a round ahead has passed the second barrier, and the timer has not arrived there
  have hwait : S.rounds θ = S.rounds none + 1 → (S.pc θ).stage = 0 ∨ (S.pc θ).stage = 1 →
      S.arrivals .timeSync θ ≤ (S.bar .timeSync).cycle := by
    intro _ hs
    refine h.past .timeSync θ ?_
    intro c hc
    rw [hc] at hs
    have : (Pc.wait .timeSync c : Pc M).stage = 2 := rfl
    omega
  omega

/-- A core in `scheduler_tick` is in the round that the timer is about to end:
    the timer is still before `core_completion_barrier`, or not yet in the round. -/
theorem of_tick (h : Barriers S) {c : Fin n} (hp : (S.pc (some c)).InTick) :
    (S.pc none).stage = 2 ∧ S.rounds (some c) = S.rounds none + 1 ∨
      ((S.pc none).stage = 0 ∨ ∃ k, S.pc none = .wait .coreCompletion k) ∧
        S.rounds (some c) = S.rounds none := by
  have hstage : (S.pc (some c)).stage = 0 ∧ ∀ g k, S.pc (some c) ≠ .wait g k := by
    cases hpc : S.pc (some c) with
    | tickStart | read | body | enqueue | bodyEnd => exact ⟨rfl, nofun⟩
    | _ => rw [hpc] at hp; cases hp
  have hpast₁ := h.past .coreCompletion (some c) (hstage.2 _)
  have hpast₂ := h.past .timeSync (some c) (hstage.2 _)
  have hcore := S.arrivals_cases (some c)
  have hround := h.started (some c) (by omega)
  have htimer := S.arrivals_cases none
  have htstarted := h.started none
  have hnear₁ := (h.counts .coreCompletion).near (some c) (Finset.mem_univ _)
  have hnear₂ := (h.counts .timeSync).near (some c) (Finset.mem_univ _)
  have htnear₁ := (h.counts .coreCompletion).near none (Finset.mem_univ _)
  have htnear₂ := (h.counts .timeSync).near none (Finset.mem_univ _)
  by_cases hw : ∃ k, S.pc none = .wait .coreCompletion k
  · have hone : (S.pc none).stage = 1 := by
      obtain ⟨k, hk⟩ := hw
      rw [hk]
      rfl
    exact .inr ⟨.inr hw, by omega⟩
  · have hpast := h.past .coreCompletion none fun k hk => hw ⟨k, hk⟩
    omega

end Barriers

/-! ## Time and the shutdown request -/

/-- Where the threads are, what time it is, and what the request means. -/
structure Control (S : Sys M n) : Prop where
  barriers : Barriers S
  time : S.systemTime + (if (S.pc none).advanced then 0 else 1) = S.rounds none
  request : S.procShutdownRequested = true →
    (∀ θ, S.rounds θ = S.rounds none ∧ 1 ≤ (S.pc θ).stage) ∧
      (S.pc none = .advance ∨ (S.pc none).advanced = true)
  exited : ∀ θ, S.pc θ = .exited → S.procShutdownRequested = true

namespace Control

theorem init : Control (Sys.init M n) := ⟨Barriers.init, rfl, nofun, fun _ h => by cases h⟩

theorem noTest2Exit (h : Control S) : NoTest2Exit S := by
  intro hf ht
  rcases (h.request hf).2 with h | h
  · rw [ht] at h
    cases h
  · rw [ht] at h
    cases h

/-- A core moves within its round. -/
theorem coreStep (h : Control S) (hb : Barriers S') {c : Fin n} {q : Pc M}
    (hp : S'.pc = Function.update S.pc (some c) q) (hr : S'.rounds = S.rounds)
    (hf : S'.procShutdownRequested = S.procShutdownRequested) (ht : S'.systemTime = S.systemTime)
    (hs : 1 ≤ (S.pc (some c)).stage → 1 ≤ q.stage)
    (he : q = .exited → S.procShutdownRequested = true) : Control S' := by
  have hnone : S'.pc none = S.pc none := by rw [hp]; exact Function.update_of_ne (Option.some_ne_none c).symm ..
  refine ⟨hb, ?_, ?_, ?_⟩
  · rw [ht, hnone, hr]
    exact h.time
  · intro hreq
    rw [hf] at hreq
    obtain ⟨hall, htimer⟩ := h.request hreq
    rw [hnone, hr]
    refine ⟨fun θ => ⟨(hall θ).1, ?_⟩, htimer⟩
    by_cases hθ : θ = some c
    · rw [hθ, hp, Function.update_self]
      exact hs (hall _).2
    · rw [hp, Function.update_of_ne hθ]
      exact (hall θ).2
  · intro θ hθ
    rw [hf]
    by_cases hc : θ = some c
    · rw [hc, hp, Function.update_self] at hθ
      exact he hθ
    · rw [hp, Function.update_of_ne hc] at hθ
      exact h.exited θ hθ

/-- The timer moves within its round. -/
theorem timerStep (h : Control S) (hb : Barriers S') {q : Pc M}
    (hp : S'.pc = Function.update S.pc none q) (hr : S'.rounds = S.rounds)
    (ht : S'.systemTime + (if q.advanced then 0 else 1) =
      S.systemTime + (if (S.pc none).advanced then 0 else 1))
    (hf : S.procShutdownRequested = true → S'.procShutdownRequested = true)
    (hf' : S'.procShutdownRequested = true →
      S.procShutdownRequested = true ∧
          (S.pc none = .advance ∨ (S.pc none).advanced = true → q = .advance ∨ q.advanced = true) ∧
          (1 ≤ (S.pc none).stage → 1 ≤ q.stage) ∨
        (S.pc none).InPhase ∧ (q = .advance ∨ q.advanced = true) ∧ 1 ≤ q.stage)
    (he : q = .exited → S'.procShutdownRequested = true) : Control S' := by
  have hnone : S'.pc none = q := by rw [hp, Function.update_self]
  have hother : ∀ θ ≠ none, S'.pc θ = S.pc θ := fun θ hθ => by rw [hp, Function.update_of_ne hθ]
  refine ⟨hb, ?_, ?_, ?_⟩
  · rw [hnone, hr, ht]
    exact h.time
  · intro hreq
    rw [hnone, hr]
    rcases hf' hreq with ⟨hold, hadv, hs⟩ | ⟨hphase, hadv, hs⟩
    · obtain ⟨hall, htimer⟩ := h.request hold
      refine ⟨fun θ => ⟨(hall θ).1, ?_⟩, hadv htimer⟩
      by_cases hθ : θ = none
      · rw [hθ, hnone]
        exact hs (hall none).2
      · rw [hother θ hθ]
        exact (hall θ).2
    · refine ⟨fun θ => ⟨(h.barriers.of_phase hphase θ).1, ?_⟩, hadv⟩
      by_cases hθ : θ = none
      · rw [hθ, hnone]
        exact hs
      · rw [hother θ hθ]
        exact (h.barriers.of_phase hphase θ).2
  · intro θ hθ
    by_cases hn : θ = none
    · rw [hn, hnone] at hθ
      exact he hθ
    · rw [hother θ hn] at hθ
      exact hf (h.exited θ hθ)

/-- A loop body starts: nobody has requested the shutdown. -/
theorem enter (h : Control S) (hb : Barriers S') {q : Pc M} (ht : S.pc θ = .test)
    (hf : S.procShutdownRequested = false) (hp : S'.pc = Function.update S.pc θ q)
    (hr : S'.rounds = Function.update S.rounds θ (S.rounds θ + 1))
    (hf' : S'.procShutdownRequested = S.procShutdownRequested) (htime : S'.systemTime = S.systemTime)
    (hq : q.advanced = false) (hqe : q ≠ .exited) : Control S' := by
  have hno : S'.procShutdownRequested ≠ true := by rw [hf', hf]; nofun
  refine ⟨hb, ?_, fun h => absurd h hno, ?_⟩
  · have htm := h.time
    rw [htime, hp, hr]
    by_cases hθ : θ = none
    · subst hθ
      rw [ht] at htm
      rw [Function.update_self, Function.update_self, hq, ← htm]
      rfl
    · rw [Function.update_of_ne (Ne.symm hθ), Function.update_of_ne (Ne.symm hθ)]
      exact htm
  · intro τ hτ
    rw [hp] at hτ
    by_cases hτθ : τ = θ
    · rw [hτθ, Function.update_self] at hτ
      exact absurd hτ hqe
    · rw [Function.update_of_ne hτθ] at hτ
      rw [hf']
      exact h.exited τ hτ

theorem step (h : Control S) (hs : Step size totalTicks S a S') : Control S' := by
  have hb := h.barriers.step h.noTest2Exit hs
  cases hs with
  | tick hp hf | enter hp hf => exact h.enter hb hp hf rfl rfl rfl rfl rfl nofun
  | loadHead hp | visit hp _ _ | readEnd hp _ | complete _ hp | publish hp _ =>
    refine h.coreStep hb rfl rfl rfl rfl ?_ nofun
    rw [hp]
    exact fun h => absurd h (Nat.not_succ_le_zero 0)
  | fatal hp | tickEnd hp =>
    refine h.coreStep hb rfl rfl rfl rfl ?_ nofun
    rcases hp with hp | hp
    all_goals
      rw [hp]
      exact fun h => absurd h (Nat.not_succ_le_zero 0)
  | test2Exit hp hf => exact absurd hp (h.noTest2Exit hf)
  | test2 hp _ | clear hp | recv _ hp | enqueue hp _ | recvEnd hp | sweep hp | advance hp
  | send hp | procPass hp =>
    refine h.timerStep hb rfl rfl ?_ id (fun hf => .inl ⟨hf, ?_, ?_⟩) nofun
    · rw [hp]; rfl
    · simp [hp, Pc.advanced]
    · simp [hp, Pc.stage]
  | fatalTest hp | lastTest hp =>
    refine h.timerStep hb rfl rfl ?_ ?_ (fun _ => .inr ⟨?_, ?_, le_rfl⟩) nofun
    · rw [hp]; rfl
    · exact fun hf => by rw [hf]; rfl
    · rw [hp]; trivial
    · simp [Pc.advanced]
  | @arrive θ g hp =>
    have hq : ∀ q : Pc M, q = (if (S.bar g).last then next θ g else .wait g (S.bar g).cycle) →
        1 ≤ q.stage ∧ (θ = none → q.advanced = (Pc.arrive g : Pc M).advanced) ∧ q ≠ .exited := by
      rintro q rfl
      cases g <;> cases θ <;> split_ifs <;> simp [next, Pc.stage, Pc.advanced]
    obtain ⟨hstage, hadv, hne⟩ := hq _ rfl
    cases θ with
    | none =>
      refine h.timerStep hb rfl rfl ?_ id (fun hf => .inl ⟨hf, ?_, fun _ => hstage⟩) fun he => absurd he hne
      · rw [hadv rfl, hp]; rfl
      · rw [hadv rfl, hp]
        exact fun h => .inr (h.resolve_left nofun)
    | some c => exact h.coreStep hb rfl rfl rfl rfl (fun _ => hstage) fun he => absurd he hne
  | @wake θ g cycle hp hc =>
    have hq : 1 ≤ (next θ g : Pc M).stage ∧
        (θ = none → (next θ g : Pc M).advanced = (Pc.wait g cycle : Pc M).advanced) ∧
        next θ g ≠ (.exited : Pc M) := by
      cases g <;> cases θ <;> simp [next, Pc.stage, Pc.advanced]
    obtain ⟨hstage, hadv, hne⟩ := hq
    cases θ with
    | none =>
      refine h.timerStep hb rfl rfl ?_ id (fun hf => .inl ⟨hf, ?_, fun _ => hstage⟩) fun he => absurd he hne
      · rw [hadv rfl, hp]; rfl
      · rw [hadv rfl, hp]
        exact fun h => .inr (h.resolve_left nofun)
    | some c => exact h.coreStep hb rfl rfl rfl rfl (fun _ => hstage) fun he => absurd he hne
  | @exit θ hp hf =>
    cases θ with
    | none =>
      refine h.timerStep hb rfl rfl ?_ id (fun hf => .inl ⟨hf, ?_, ?_⟩) fun _ => hf
      · rw [hp]; rfl
      · simp [Pc.advanced]
      · simp [Pc.stage]
    | some c => exact h.coreStep hb rfl rfl rfl rfl (fun _ => Nat.le_succ 1) fun _ => hf

/-- During a tick `system_time` is the number of the tick. -/
theorem time_of_tick (h : Control S) {c : Fin n} (hp : (S.pc (some c)).InTick) :
    S.systemTime + 1 = S.rounds (some c) := by
  have htime := h.time
  rcases h.barriers.of_tick hp with ⟨hs, hr⟩ | ⟨hs, hr⟩
  · have hadv : (S.pc none).advanced = true := by
      have hk := h.barriers.kinds none
      cases hpc : S.pc none with
      | wait g _ | arrive g => cases g <;> rw [hpc] at hs <;> first | rfl | cases hs
      | _ => rw [hpc] at hs; first | rfl | cases hs
    rw [hadv] at htime
    rw [hr, ← htime]
    rfl
  · have hadv : (S.pc none).advanced = false := by
      rcases hs with hs | ⟨k, hk⟩
      · cases hpc : S.pc none with
        | wait g _ | arrive g => cases g <;> rw [hpc] at hs <;> first | rfl | cases hs
        | _ => rw [hpc] at hs; first | rfl | cases hs
      · rw [hk]
        rfl
    rw [hadv] at htime
    rw [hr, ← htime]
    rfl

/-- In a timer phase every core is past the tick of this round. -/
theorem time_of_phase (h : Control S) (hp : (S.pc none).InPhase) (c : Fin n) :
    S.rounds (some c) = S.systemTime + (if (S.pc none).advanced then 0 else 1) ∧
      ¬(S.pc (some c)).InTick := by
  obtain ⟨hr, hs⟩ := h.barriers.of_phase hp (some c)
  refine ⟨by rw [hr, h.time], ?_⟩
  intro ht
  cases hpc : S.pc (some c) with
  | tickStart | read | body | enqueue | bodyEnd =>
    rw [hpc] at hs
    exact absurd hs (Nat.not_succ_le_zero 0)
  | _ => rw [hpc] at ht; cases ht

end Control

theorem control_of_exec {tr : List (Trans (Sys M n) (Label M n))}
    (h : Exec (Step size totalTicks) (Sys.init M n) tr S) : Control S :=
  h.invariant Control.init fun _ _ _ hc hs => hc.step hs

/-! ## Leaving -/

/-- The steps a thread has before it at most, once the shutdown is requested. -/
def Pc.left : Pc M → ℕ
  | .exited => 0
  | .test => 1
  | .procBarrier => 2
  | .wait .timeSync _ => 3
  | .arrive .timeSync => 4
  | .send => 5
  | .lastTest => 6
  | .advance => 7
  | .wait .coreCompletion _ => 8
  | _ => 9

def Sys.left (S : Sys M n) : ℕ := ∑ θ, (S.pc θ).left

theorem Sys.left_lt {q : Pc M} (hp : S'.pc = Function.update S.pc θ q) (hq : q.left < (S.pc θ).left) :
    S'.left < S.left := by
  refine Finset.sum_lt_sum ?_ ⟨θ, Finset.mem_univ θ, ?_⟩
  · intro τ _
    rw [hp]
    by_cases hτ : τ = θ
    · rw [hτ, Function.update_self]
      exact hq.le
    · rw [Function.update_of_ne hτ]
  · rw [hp, Function.update_self]
    exact hq

/-- **Every step after the request brings a thread closer to its exit.** -/
theorem Step.left_lt (h : Control S) (hf : S.procShutdownRequested = true)
    (hs : Step size totalTicks S a S') : S'.procShutdownRequested = true ∧ S'.left < S.left := by
  obtain ⟨hall, htimer⟩ := h.request hf
  have hcore : ∀ {c : Fin n} {q : Pc M}, S.pc (some c) = q → q.stage = 0 → False := by
    rintro c q rfl hq
    have := (hall (some c)).2
    omega
  have hphase : ∀ {q : Pc M}, S.pc none = q → q ≠ .advance → q.advanced = false → False := by
    rintro q rfl hna hadv
    rcases htimer with h | h
    · exact hna h
    · rw [hadv] at h
      cases h
  cases hs with
  | tick _ hn | enter _ hn => rw [hf] at hn; cases hn
  | loadHead hp | visit hp _ _ | readEnd hp _ | complete _ hp | publish hp _ => exact (hcore hp rfl).elim
  | fatal hp | tickEnd hp =>
    rcases hp with hp | hp
    all_goals exact (hcore hp rfl).elim
  | test2 hp _ | test2Exit hp _ | clear hp | recv _ hp | enqueue hp _ | recvEnd hp | sweep hp
  | fatalTest hp => exact (hphase hp nofun rfl).elim
  | advance hp | send hp | procPass hp =>
    refine ⟨hf, Sys.left_lt rfl ?_⟩
    rw [hp]
    simp [Pc.left]
  | lastTest hp =>
    refine ⟨?_, Sys.left_lt rfl ?_⟩
    · show (S.procShutdownRequested || _) = true
      rw [hf]
      rfl
    · rw [hp]
      simp [Pc.left]
  | exit hp _ =>
    refine ⟨hf, Sys.left_lt rfl ?_⟩
    rw [hp]
    exact Nat.one_pos
  | @wake θ g cycle hp hc =>
    refine ⟨hf, Sys.left_lt rfl ?_⟩
    rw [hp]
    cases g with
    | coreCompletion =>
      cases θ with
      | none => exact (hphase hp nofun rfl).elim
      | some c => exact (by decide : 4 < 8)
    | timeSync =>
      cases θ with
      | none => exact (by decide : 2 < 3)
      | some c => exact (by decide : 1 < 3)
  | @arrive θ g hp =>
    refine ⟨hf, Sys.left_lt rfl ?_⟩
    rw [hp]
    cases g with
    | coreCompletion =>
      cases θ with
      | none => exact (hphase hp nofun rfl).elim
      | some c => exact (hcore hp rfl).elim
    | timeSync =>
      have hnext : (next θ .timeSync : Pc M).left < 4 := by
        cases θ with
        | none => exact (by decide : 2 < 4)
        | some c => exact (by decide : 1 < 4)
      split_ifs
      · exact hnext
      · exact (by decide : 3 < 4)

/-- **After the request some thread can step until all have left**: nobody
    stays blocked in one of the two barriers. -/
theorem Control.can_step (h : Control S) (hf : S.procShutdownRequested = true)
    (hθ : ∃ θ, S.pc θ ≠ .exited) : ∃ a S', Step size totalTicks S a S' := by
  obtain ⟨hall, htimer⟩ := h.request hf
  by_contra hstuck
  push Not at hstuck
  -- everybody has left or waits in the current cycle
  have hwaits : ∀ θ, S.pc θ = .exited ∨ ∃ g, S.pc θ = .wait g (S.bar g).cycle := by
    intro θ
    have hk := h.barriers.kinds θ
    have hs := (hall θ).2
    cases hpc : S.pc θ with
    | exited => exact .inl rfl
    | wait g c =>
      refine .inr ⟨g, ?_⟩
      by_contra hc
      exact hstuck _ _ (.wake hpc fun he => hc (by rw [he]))
    | arrive g => exact absurd (.arrive hpc) (hstuck _ _)
    | test => exact absurd (.exit hpc hf) (hstuck _ _)
    | tickStart | read | body | enqueue | bodyEnd =>
      rw [hpc] at hs
      exact absurd hs (Nat.not_succ_le_zero 0)
    | test2 | clear | receive | sweep | fatalTest =>
      rw [hpc] at hk
      obtain rfl : θ = none := hk
      rw [hpc] at htimer
      rcases htimer with h | h <;> cases h
    | advance =>
      rw [hpc] at hk
      obtain rfl : θ = none := hk
      exact absurd (.advance hpc) (hstuck _ _)
    | lastTest =>
      rw [hpc] at hk
      obtain rfl : θ = none := hk
      exact absurd (.lastTest hpc) (hstuck _ _)
    | send =>
      rw [hpc] at hk
      obtain rfl : θ = none := hk
      exact absurd (.send hpc) (hstuck _ _)
    | procBarrier =>
      rw [hpc] at hk
      obtain rfl : θ = none := hk
      exact absurd (.procPass hpc) (hstuck _ _)
  -- nobody waits at the first barrier, which the timer has passed in this round
  have hfirst : ∀ θ, S.pc θ ≠ .wait .coreCompletion (S.bar .coreCompletion).cycle := by
    intro θ hw
    have ht : ∀ c, S.pc none ≠ .wait .coreCompletion c := by
      intro c hc
      rw [hc] at htimer
      rcases htimer with h | h <;> cases h
    have hpast := h.barriers.past .coreCompletion none ht
    have hcur := h.barriers.waits .coreCompletion θ _ hw
    have harr := S.arrivals_cases θ
    have harr' := S.arrivals_cases none
    have := hall θ
    have := hall none
    omega
  obtain ⟨θ, hne⟩ := hθ
  obtain ⟨g, hg⟩ := (hwaits θ).resolve_left hne
  cases g with
  | coreCompletion => exact hfirst θ hg
  | timeSync =>
    -- the one that is still to arrive has neither left nor arrived
    obtain ⟨τ, -, hτ⟩ := (h.barriers.counts .timeSync).exists_lagging
    have hcur := h.barriers.waits .timeSync θ _ hg
    have harr := S.arrivals_cases θ
    have harr' := S.arrivals_cases τ
    have := hall θ
    have := hall τ
    rcases hwaits τ with he | ⟨g', hg'⟩
    · have hs : (S.pc τ).stage = 2 := by rw [he]; rfl
      omega
    · cases g' with
      | coreCompletion => exact hfirst τ hg'
      | timeSync =>
        have := h.barriers.waits .timeSync τ _ hg'
        omega

/-! ## Ticks, messages and visits -/

variable {tr : List (Trans (Sys M n) (Label M n))} {c : Fin n} {t : ℕ}

/-- The values of `system_time` at which core `c` has entered `scheduler_tick` -/
def Label.ticks (c : Fin n) (time : ℕ) : Label M n → List ℕ
  | .tick d => if d = c then [time] else []
  | _ => []

/-- The messages, with their positions, that core `c` visits at time `t` -/
def Label.visits (c : Fin n) (t time : ℕ) : Label M n → List (ℕ × M)
  | .visit d idx m => if d = c ∧ time = t then [(idx, m)] else []
  | _ => []

/-- The messages, with their positions, enqueued by the timer phase before time `t` -/
def Label.enqueued (t time : ℕ) : Label M n → List (ℕ × M)
  | .enqueue idx m => if time + 1 = t then [(idx, m)] else []
  | _ => []

/-- The positions of the messages the timer enqueues -/
def Label.positions : Label M n → List ℕ
  | .enqueue idx _ => [idx]
  | _ => []

/-- Neither a tick nor a message nor a visit -/
def Label.Quiet : Label M n → Prop
  | .tick _ | .visit _ _ _ | .enqueue _ _ => False
  | _ => True

def ticks (c : Fin n) (tr : List (Trans (Sys M n) (Label M n))) : List ℕ :=
  tr.flatMap fun x => x.lab.ticks c x.pre.systemTime

def visits (c : Fin n) (t : ℕ) (tr : List (Trans (Sys M n) (Label M n))) : List (ℕ × M) :=
  tr.flatMap fun x => x.lab.visits c t x.pre.systemTime

def enqueued (t : ℕ) (tr : List (Trans (Sys M n) (Label M n))) : List (ℕ × M) :=
  tr.flatMap fun x => x.lab.enqueued t x.pre.systemTime

def positions (tr : List (Trans (Sys M n) (Label M n))) : List ℕ := tr.flatMap fun x => x.lab.positions

theorem ticks_snoc : ticks c (tr ++ [⟨S, a, S'⟩]) = ticks c tr ++ a.ticks c S.systemTime := by
  simp [ticks, List.flatMap_append]

theorem visits_snoc : visits c t (tr ++ [⟨S, a, S'⟩]) = visits c t tr ++ a.visits c t S.systemTime := by
  simp [visits, List.flatMap_append]

theorem enqueued_snoc :
    enqueued t (tr ++ [⟨S, a, S'⟩]) = enqueued t tr ++ a.enqueued t S.systemTime := by
  simp [enqueued, List.flatMap_append]

theorem positions_snoc : positions (tr ++ [⟨S, a, S'⟩]) = positions tr ++ a.positions := by
  simp [positions, List.flatMap_append]

namespace MsgQueue

variable {q : MsgQueue M} {m : M} {i : ℕ}

theorem entries_length (q : MsgQueue M) : q.entries.length = q.msgs.length := by
  rw [entries, List.length_zip, List.length_range', Nat.min_self]

theorem entries_enqueue (q : MsgQueue M) (m : M) :
    (q.enqueue m).entries = q.entries ++ [(q.tail, m)] := by
  have hlen : (q.msgs ++ [m]).length = q.msgs.length + 1 := List.length_append
  show (List.range' q.head (q.msgs ++ [m]).length).zip (q.msgs ++ [m]) = _
  rw [hlen, List.range'_concat, List.zip_append List.length_range', Nat.one_mul]
  rfl

theorem entries_getElem? (h : q.msgs[i]? = some m) : q.entries[i]? = some (q.head + i, m) := by
  have hi := (List.getElem?_eq_some_iff.1 h).1
  rw [entries, List.getElem?_zip_eq_some]
  refine ⟨?_, h⟩
  rw [List.getElem?_range' hi, Nat.one_mul]

end MsgQueue

/-- The timer has cleared the incoming queue and not advanced the time yet: the
    queue is for the next tick. -/
def Pc.filling : Pc M → Bool
  | .receive _ | .sweep | .fatalTest | .advance => true
  | _ => false

/-- What a core has read of the queue `q` in its tick -/
def ReadOk (q : MsgQueue M) (seen fresh : List (ℕ × M)) : Pc M → Prop
  | .tickStart => seen = []
  | .read idx => q.head ≤ idx ∧ idx ≤ q.tail ∧ seen = q.entries.take (idx - q.head)
  | _ => seen = fresh

/-- What has been enqueued for and visited in each tick. -/
structure Visited (tr : List (Trans (Sys M n) (Label M n))) (S : Sys M n) : Prop where
  entered : ∀ c, ticks c tr = List.range (S.rounds (some c))
  placed : positions tr = List.range S.incoming.tail
  queue : enqueued (S.systemTime + (if (S.pc none).filling then 1 else 0)) tr = S.incoming.entries
  ahead : ∀ t, S.systemTime + (if (S.pc none).filling then 1 else 0) < t → enqueued t tr = []
  done : ∀ c t, t + 1 < S.rounds (some c) → visits c t tr = enqueued t tr
  now : ∀ c t, t + 1 = S.rounds (some c) →
    ReadOk S.incoming (visits c t tr) (enqueued t tr) (S.pc (some c))
  later : ∀ c t, S.rounds (some c) ≤ t → visits c t tr = []

namespace Visited

theorem init : Visited [] (Sys.init M n) where
  entered _ := rfl
  placed := rfl
  queue := rfl
  ahead _ _ := rfl
  done _ _ _ := rfl
  now _ _ h := nomatch h
  later _ _ _ := rfl

/-- A step with no tick, message or visit in it. -/
theorem quiet (h : Visited tr S) (ha : a.Quiet) (hin : S'.incoming = S.incoming)
    (ht : S'.systemTime + (if (S'.pc none).filling then 1 else 0) =
      S.systemTime + (if (S.pc none).filling then 1 else 0))
    (hr : ∀ c, S'.rounds (some c) = S.rounds (some c))
    (hread : ∀ c t, t + 1 = S.rounds (some c) →
      ReadOk S.incoming (visits c t tr) (enqueued t tr) (S.pc (some c)) →
      ReadOk S.incoming (visits c t tr) (enqueued t tr) (S'.pc (some c))) :
    Visited (tr ++ [⟨S, a, S'⟩]) S' := by
  have htick : ∀ c, ticks c (tr ++ [⟨S, a, S'⟩]) = ticks c tr := by
    intro c
    rw [ticks_snoc]
    cases a <;> first | exact List.append_nil _ | cases ha
  have hpos : positions (tr ++ [⟨S, a, S'⟩]) = positions tr := by
    rw [positions_snoc]
    cases a <;> first | exact List.append_nil _ | cases ha
  have hvis : ∀ c t, visits c t (tr ++ [⟨S, a, S'⟩]) = visits c t tr := by
    intro c t
    rw [visits_snoc]
    cases a <;> first | exact List.append_nil _ | cases ha
  have henq : ∀ t, enqueued t (tr ++ [⟨S, a, S'⟩]) = enqueued t tr := by
    intro t
    rw [enqueued_snoc]
    cases a <;> first | exact List.append_nil _ | cases ha
  refine ⟨?_, ?_, ?_, ?_, ?_, ?_, ?_⟩
  · intro c
    rw [htick, hr]
    exact h.entered c
  · rw [hpos, hin]
    exact h.placed
  · rw [henq, ht, hin]
    exact h.queue
  · intro t hlt
    rw [ht] at hlt
    rw [henq]
    exact h.ahead t hlt
  · intro c t hlt
    rw [hr] at hlt
    rw [hvis, henq]
    exact h.done c t hlt
  · intro c t heq
    rw [hr] at heq
    rw [hvis, henq, hin]
    exact hread c t heq (h.now c t heq)
  · intro c t hle
    rw [hr] at hle
    rw [hvis]
    exact h.later c t hle

/-- A quiet step of the timer. -/
theorem timerQuiet (h : Visited tr S) (ha : a.Quiet) (hin : S'.incoming = S.incoming) {q : Pc M}
    (hp : S'.pc = Function.update S.pc none q)
    (ht : S'.systemTime + (if q.filling then 1 else 0) =
      S.systemTime + (if (S.pc none).filling then 1 else 0))
    (hr : ∀ c, S'.rounds (some c) = S.rounds (some c)) : Visited (tr ++ [⟨S, a, S'⟩]) S' := by
  refine h.quiet ha hin ?_ hr ?_
  · rw [hp, Function.update_self]
    exact ht
  · intro c t _ hread
    rw [hp, Function.update_of_ne (Option.some_ne_none c)]
    exact hread

/-- A quiet step of a core. -/
theorem coreQuiet (h : Visited tr S) (ha : a.Quiet) (hin : S'.incoming = S.incoming) {c : Fin n} {q : Pc M}
    (hp : S'.pc = Function.update S.pc (some c) q) (ht : S'.systemTime = S.systemTime)
    (hr : S'.rounds = S.rounds)
    (hread : ∀ t, t + 1 = S.rounds (some c) →
      ReadOk S.incoming (visits c t tr) (enqueued t tr) (S.pc (some c)) →
      ReadOk S.incoming (visits c t tr) (enqueued t tr) q) : Visited (tr ++ [⟨S, a, S'⟩]) S' := by
  refine h.quiet ha hin ?_ (fun d => by rw [hr]) ?_
  · rw [hp, Function.update_of_ne (Option.some_ne_none c).symm, ht]
  · intro d t heq hd
    by_cases hdc : d = c
    · subst hdc
      rw [hp, Function.update_self]
      exact hread t heq hd
    · rw [hp, Function.update_of_ne fun h => hdc (Option.some.inj h)]
      exact hd

/-- Nobody fills the queue while a core is in its tick. -/
theorem not_filling (hc : Control S) {c : Fin n} (hp : (S.pc (some c)).InTick) :
    (S.pc none).filling = false := by
  cases hpc : S.pc none with
  | receive | sweep | fatalTest | advance =>
    have hphase : (S.pc none).InPhase := by rw [hpc]; trivial
    exact absurd hp (hc.time_of_phase hphase c).2
  | _ => rfl

/-- A core enters `scheduler_tick`. -/
theorem tick (h : Visited tr S) (hc' : Control S') {c : Fin n} (hp : S.pc (some c) = .test)
    (heq : S' = S.enter (some c) .tickStart) : Visited (tr ++ [⟨S, .tick c, S'⟩]) S' := by
  have hpc : S'.pc (some c) = .tickStart := by
    rw [heq]
    exact Function.update_self ..
  have hrc : S'.rounds (some c) = S.rounds (some c) + 1 := by
    rw [heq]
    exact Function.update_self ..
  have hpn : ∀ θ ≠ some c, S'.pc θ = S.pc θ ∧ S'.rounds θ = S.rounds θ := by
    intro θ hθ
    rw [heq]
    exact ⟨Function.update_of_ne hθ .., Function.update_of_ne hθ ..⟩
  have htime : S.systemTime = S.rounds (some c) := by
    have := hc'.time_of_tick (c := c) (by rw [hpc]; trivial)
    rw [hrc, show S'.systemTime = S.systemTime by rw [heq]; rfl] at this
    omega
  have hsys : S'.systemTime = S.systemTime ∧ S'.incoming = S.incoming := by
    rw [heq]
    exact ⟨rfl, rfl⟩
  have hvis : ∀ d t, visits d t (tr ++ [⟨S, .tick c, S'⟩]) = visits d t tr := by
    intro d t
    rw [visits_snoc]
    exact List.append_nil _
  have henq : ∀ t, enqueued t (tr ++ [⟨S, .tick c, S'⟩]) = enqueued t tr := by
    intro t
    rw [enqueued_snoc]
    exact List.append_nil _
  have hnone := hpn none (Option.some_ne_none c).symm
  refine ⟨?_, ?_, ?_, ?_, ?_, ?_, ?_⟩
  · intro d
    rw [ticks_snoc, h.entered d]
    by_cases hd : d = c
    · subst hd
      rw [hrc, List.range_succ, htime]
      show _ ++ (if d = d then [_] else []) = _
      rw [if_pos rfl]
    · rw [(hpn (some d) fun h => hd (Option.some.inj h)).2]
      show _ ++ (if c = d then [_] else []) = _
      rw [if_neg (Ne.symm hd), List.append_nil]
  · rw [positions_snoc, hsys.2]
    exact (List.append_nil _).trans h.placed
  · rw [henq, hsys.1, hsys.2, hnone.1]
    exact h.queue
  · intro t hlt
    rw [hsys.1, hnone.1] at hlt
    rw [henq]
    exact h.ahead t hlt
  · intro d t hlt
    rw [hvis, henq]
    by_cases hd : d = c
    · subst hd
      rw [hrc] at hlt
      by_cases hlast : t + 1 = S.rounds (some d)
      · have hnow := h.now d t hlast
        rw [hp] at hnow
        exact hnow
      · exact h.done d t (by omega)
    · rw [(hpn (some d) fun h => hd (Option.some.inj h)).2] at hlt
      exact h.done d t hlt
  · intro d t ht
    rw [hvis, henq, hsys.2]
    by_cases hd : d = c
    · subst hd
      rw [hrc] at ht
      rw [hpc]
      exact h.later d t (by omega)
    · obtain ⟨h₁, h₂⟩ := hpn (some d) fun h => hd (Option.some.inj h)
      rw [h₂] at ht
      rw [h₁]
      exact h.now d t ht
  · intro d t hle
    rw [hvis]
    by_cases hd : d = c
    · subst hd
      rw [hrc] at hle
      exact h.later d t (by omega)
    · rw [(hpn (some d) fun h => hd (Option.some.inj h)).2] at hle
      exact h.later d t hle

/-- A core visits a message. -/
theorem visit (h : Visited tr S) (hc : Control S) {c : Fin n} {idx : ℕ} {m : M}
    (hp : S.pc (some c) = .read idx) (hi : idx < S.incoming.tail)
    (hm : S.incoming.msgs[idx - S.incoming.head]? = some m)
    (heq : S' = S.setPc (some c) (.read (idx + 1))) :
    Visited (tr ++ [⟨S, .visit c idx m, S'⟩]) S' := by
  subst heq
  have htime := hc.time_of_tick (c := c) (by rw [hp]; trivial)
  have hpos : positions (tr ++ [⟨S, .visit c idx m, S.setPc (some c) (.read (idx + 1))⟩]) = positions tr := by
    rw [positions_snoc]
    exact List.append_nil _
  have henq : ∀ t, enqueued t (tr ++ [⟨S, .visit c idx m, S.setPc (some c) (.read (idx + 1))⟩]) =
      enqueued t tr := by
    intro t
    rw [enqueued_snoc]
    exact List.append_nil _
  have hvis : ∀ d t, visits d t (tr ++ [⟨S, .visit c idx m, S.setPc (some c) (.read (idx + 1))⟩]) =
      visits d t tr ++ if c = d ∧ S.systemTime = t then [(idx, m)] else [] := fun d t => visits_snoc
  have hnone := S.setPc_ne (.read (idx + 1)) (Option.some_ne_none c).symm
  refine ⟨?_, ?_, ?_, ?_, ?_, ?_, ?_⟩
  · intro d
    rw [ticks_snoc]
    exact (List.append_nil _).trans (h.entered d)
  · rw [hpos]
    exact h.placed
  · rw [henq, hnone]
    exact h.queue
  · intro t hlt
    rw [hnone] at hlt
    rw [henq]
    exact h.ahead t hlt
  · intro d t hlt
    have hlt : t + 1 < S.rounds (some d) := hlt
    rw [hvis, henq, if_neg, List.append_nil]
    · exact h.done d t hlt
    · rintro ⟨rfl, rfl⟩
      omega
  · intro d t ht
    have ht : t + 1 = S.rounds (some d) := ht
    have hnow := h.now d t ht
    rw [hvis, henq]
    by_cases hd : d = c
    · subst hd
      obtain rfl : t = S.systemTime := by omega
      rw [hp] at hnow
      obtain ⟨h₁, h₂, h₃⟩ := hnow
      rw [if_pos ⟨rfl, rfl⟩, Sys.setPc_self]
      refine ⟨Nat.le_succ_of_le h₁, hi, ?_⟩
      have hget := MsgQueue.entries_getElem? hm
      show _ = S.incoming.entries.take (idx + 1 - S.incoming.head)
      rw [h₃, Nat.succ_sub h₁, List.take_add_one, hget, Nat.add_sub_cancel' h₁]
      rfl
    · rw [if_neg fun h => hd h.1.symm, List.append_nil,
        S.setPc_ne _ fun h => hd (Option.some.inj h)]
      exact hnow
  · intro d t hle
    have hle : S.rounds (some d) ≤ t := hle
    rw [hvis, h.later d t hle, if_neg]
    · rfl
    · rintro ⟨rfl, rfl⟩
      omega

/-- The timer puts a message in the incoming queue. -/
theorem enqueue (h : Visited tr S) (hc : Control S) {m : M} {rest : List M}
    (hp : S.pc none = .receive (m :: rest))
    (heq : S' = { S.setPc none (.receive rest) with incoming := S.incoming.enqueue m }) :
    Visited (tr ++ [⟨S, .enqueue S.incoming.tail m, S'⟩]) S' := by
  have hphase : (S.pc none).InPhase := by rw [hp]; trivial
  have hround : ∀ c, S.rounds (some c) = S.systemTime + 1 := by
    intro c
    rw [(hc.time_of_phase hphase c).1, hp]
    rfl
  have hsys : S'.systemTime = S.systemTime ∧ S'.rounds = S.rounds ∧
      S'.incoming = S.incoming.enqueue m ∧ (S'.pc none).filling = true ∧
      ∀ c, S'.pc (some c) = S.pc (some c) := by
    rw [heq]
    exact ⟨rfl, rfl, rfl, congrArg Pc.filling (S.setPc_self none (.receive rest)),
      fun c => S.setPc_ne (.receive rest) (Option.some_ne_none c)⟩
  obtain ⟨ht, hr, hin, hfill, hpc⟩ := hsys
  have hvis : ∀ c t, visits c t (tr ++ [⟨S, .enqueue S.incoming.tail m, S'⟩]) = visits c t tr := by
    intro c t
    rw [visits_snoc]
    exact List.append_nil _
  have henq : ∀ t, enqueued t (tr ++ [⟨S, .enqueue S.incoming.tail m, S'⟩]) =
      enqueued t tr ++ if S.systemTime + 1 = t then [(S.incoming.tail, m)] else [] := fun t => enqueued_snoc
  have hother : ∀ t ≤ S.systemTime, enqueued t (tr ++ [⟨S, .enqueue S.incoming.tail m, S'⟩]) =
      enqueued t tr := by
    intro t hle
    rw [henq, if_neg (by omega), List.append_nil]
  have hqueue := h.queue
  have hahead := h.ahead
  rw [hp] at hqueue hahead
  refine ⟨?_, ?_, ?_, ?_, ?_, ?_, ?_⟩
  · intro c
    rw [ticks_snoc, hr]
    exact (List.append_nil _).trans (h.entered c)
  · have hlen : (S.incoming.enqueue m).tail = S.incoming.tail + 1 := by
      show S.incoming.head + (S.incoming.msgs ++ [m]).length = _
      rw [List.length_append, ← Nat.add_assoc]
      rfl
    rw [positions_snoc, h.placed, hin, hlen, List.range_succ]
    rfl
  · rw [ht, hfill, hin, henq, if_pos rfl, if_pos rfl, MsgQueue.entries_enqueue]
    exact congrArg (· ++ _) hqueue
  · intro t hlt
    rw [ht, hfill, if_pos rfl] at hlt
    rw [henq, if_neg (by omega), List.append_nil]
    exact hahead t hlt
  · intro c t hlt
    rw [hr, hround] at hlt
    rw [hvis, hother t (by omega)]
    exact h.done c t (by rw [hround]; exact hlt)
  · intro c t heq
    rw [hr] at heq
    have hnow := h.now c t heq
    rw [hround] at heq
    rw [hvis, hother t (by omega), hpc]
    have hno := (hc.time_of_phase hphase c).2
    cases hpcc : S.pc (some c) with
    | tickStart | read => rw [hpcc] at hno; exact absurd trivial hno
    | _ => rw [hpcc] at hnow; exact hnow
  · intro c t hle
    rw [hr] at hle
    rw [hvis]
    exact h.later c t hle

/-- The timer clears the incoming queue. -/
theorem clear (h : Visited tr S) (hc : Control S) (hp : S.pc none = .clear)
    (heq : S' = { S.setPc none (.receive []) with incoming := S.incoming.clear }) :
    Visited (tr ++ [⟨S, .tau, S'⟩]) S' := by
  have hphase : (S.pc none).InPhase := by rw [hp]; trivial
  have hsys : S'.systemTime = S.systemTime ∧ S'.rounds = S.rounds ∧
      S'.incoming = S.incoming.clear ∧ (S'.pc none).filling = true ∧
      ∀ c, S'.pc (some c) = S.pc (some c) := by
    rw [heq]
    exact ⟨rfl, rfl, rfl, congrArg Pc.filling (S.setPc_self none (.receive [])),
      fun c => S.setPc_ne (.receive []) (Option.some_ne_none c)⟩
  obtain ⟨ht, hr, hin, hfill, hpc⟩ := hsys
  have hvis : ∀ c t, visits c t (tr ++ [⟨S, .tau, S'⟩]) = visits c t tr := by
    intro c t
    rw [visits_snoc]
    exact List.append_nil _
  have henq : ∀ t, enqueued t (tr ++ [⟨S, .tau, S'⟩]) = enqueued t tr := by
    intro t
    rw [enqueued_snoc]
    exact List.append_nil _
  have hahead := h.ahead
  rw [hp] at hahead
  refine ⟨?_, ?_, ?_, ?_, ?_, ?_, ?_⟩
  · intro c
    rw [ticks_snoc, hr]
    exact (List.append_nil _).trans (h.entered c)
  · rw [positions_snoc, hin]
    exact (List.append_nil _).trans h.placed
  · rw [ht, hfill, hin, henq, if_pos rfl]
    exact hahead _ (Nat.lt_succ_self _)
  · intro t hlt
    rw [ht, hfill, if_pos rfl] at hlt
    rw [henq]
    exact hahead t (by show S.systemTime + 0 < t; omega)
  · intro c t hlt
    rw [hr] at hlt
    rw [hvis, henq]
    exact h.done c t hlt
  · intro c t heq
    rw [hr] at heq
    have hnow := h.now c t heq
    rw [hvis, henq, hpc]
    have hno := (hc.time_of_phase hphase c).2
    cases hpcc : S.pc (some c) with
    | tickStart | read => rw [hpcc] at hno; exact absurd trivial hno
    | _ => rw [hpcc] at hnow; exact hnow
  · intro c t hle
    rw [hr] at hle
    rw [hvis]
    exact h.later c t hle

theorem step (h : Visited tr S) (hc : Control S) (hs : Step size totalTicks S a S') :
    Visited (tr ++ [⟨S, a, S'⟩]) S' := by
  have hc' := hc.step hs
  cases hs with
  | tick hp hf => exact h.tick hc' hp rfl
  | visit hp hi hm => exact h.visit hc hp hi hm rfl
  | enqueue hp hl => exact h.enqueue hc hp rfl
  | clear hp => exact h.clear hc hp rfl
  | @loadHead c hp =>
    refine h.coreQuiet trivial rfl rfl rfl rfl ?_
    intro t _ hread
    rw [hp] at hread
    refine ⟨le_rfl, Nat.le_add_right _ _, ?_⟩
    rw [Nat.sub_self, List.take_zero]
    exact hread
  | @readEnd c idx hp hi =>
    refine h.coreQuiet trivial rfl rfl rfl rfl ?_
    intro t ht hread
    have hin : (S.pc (some c)).InTick := by rw [hp]; trivial
    obtain rfl : S.systemTime = t := by
      have := hc.time_of_tick hin
      omega
    rw [hp] at hread
    obtain ⟨-, -, hseen⟩ := hread
    have hqueue := h.queue
    rw [not_filling hc hin] at hqueue
    show visits c S.systemTime tr = enqueued S.systemTime tr
    rw [hseen, List.take_of_length_le]
    · exact hqueue.symm
    · rw [MsgQueue.entries_length]
      rw [MsgQueue.tail] at hi
      omega
  | complete m hp | publish hp _ =>
    refine h.coreQuiet trivial rfl rfl rfl rfl ?_
    rw [hp]
    exact fun _ _ => id
  | fatal hp | tickEnd hp =>
    refine h.coreQuiet trivial rfl rfl rfl rfl ?_
    rcases hp with hp | hp
    all_goals
      rw [hp]
      exact fun _ _ => id
  | enter hp hf =>
    refine h.timerQuiet trivial rfl rfl ?_ ?_
    · rw [hp]
      rfl
    · intro c
      show Function.update S.rounds none (S.rounds none + 1) (some c) = _
      exact Function.update_of_ne (Option.some_ne_none c) ..
  | test2 hp _ | test2Exit hp _ | recv _ hp | recvEnd hp | sweep hp | fatalTest hp | advance hp
  | lastTest hp | send hp | procPass hp =>
    refine h.timerQuiet trivial rfl rfl ?_ fun _ => rfl
    rw [hp]
    rfl
  | @arrive θ g hp =>
    cases θ with
    | none =>
      have hfill : (if (S.bar g).last then next (none : Thread n) g
          else .wait g (S.bar g).cycle : Pc M).filling = false := by
        cases g <;> split_ifs <;> rfl
      refine h.timerQuiet trivial rfl rfl ?_ fun _ => rfl
      rw [hfill, hp]
      rfl
    | some c =>
      refine h.coreQuiet trivial rfl rfl rfl rfl ?_
      rw [hp]
      cases g <;> split_ifs <;> exact fun _ _ => id
  | @wake θ g cycle hp hcy =>
    cases θ with
    | none =>
      refine h.timerQuiet trivial rfl rfl ?_ fun _ => rfl
      rw [hp]
      cases g <;> rfl
    | some c =>
      refine h.coreQuiet trivial rfl rfl rfl rfl ?_
      rw [hp]
      cases g <;> exact fun _ _ => id
  | @exit θ hp hf =>
    cases θ with
    | none =>
      refine h.timerQuiet trivial rfl rfl ?_ fun _ => rfl
      rw [hp]
      rfl
    | some c =>
      refine h.coreQuiet trivial rfl rfl rfl rfl ?_
      rw [hp]
      exact fun _ _ => id

end Visited

/-! ## Lockstep -/

/-- Where the timer is when it has, or has not, advanced the time. -/
theorem Pc.advanced_cases (q : Pc M) (hk : PcOk (none : Thread n) q) :
    q.advanced = false ∧ q.stage ≤ 1 ∨ q.advanced = true ∧ q.stage = 2 ∨
      q.advanced = true ∧ q.stage = 1 ∧ ∀ k, q ≠ .wait .coreCompletion k := by
  cases q with
  | arrive g | wait g k => cases g <;> simp [advanced, stage]
  | tickStart | read | body | enqueue | bodyEnd => cases hk
  | _ => simp [advanced, stage]

/-- A core has entered the tick of the current time, or is about to. -/
theorem Control.rounds_near (h : Control S) (c : Fin n) :
    S.systemTime ≤ S.rounds (some c) ∧ S.rounds (some c) ≤ S.systemTime + 1 := by
  have htime := h.time
  have hadv := (S.pc none).advanced_cases (h.barriers.kinds none)
  have hcore := S.arrivals_cases (some c)
  have hstarted := h.barriers.started (some c)
  have htimer := S.arrivals_cases none
  have htstarted := h.barriers.started none
  have hnear₁ := (h.barriers.counts .coreCompletion).near (some c) (Finset.mem_univ _)
  have hnear₂ := (h.barriers.counts .timeSync).near (some c) (Finset.mem_univ _)
  have htnear₁ := (h.barriers.counts .coreCompletion).near none (Finset.mem_univ _)
  have htnear₂ := (h.barriers.counts .timeSync).near none (Finset.mem_univ _)
  have hpast₁ : (S.pc (some c)).stage ≠ 1 →
      S.arrivals .coreCompletion (some c) ≤ (S.bar .coreCompletion).cycle := by
    intro hs
    refine h.barriers.past _ _ fun k hk => hs ?_
    rw [hk]
    rfl
  have hpast₂ : (S.pc (some c)).stage ≠ 2 →
      S.arrivals .timeSync (some c) ≤ (S.bar .timeSync).cycle := by
    intro hs
    refine h.barriers.past _ _ fun k hk => hs ?_
    rw [hk]
    rfl
  have htpast₁ : (S.pc none).stage ≠ 1 ∨ (∀ k, S.pc none ≠ .wait .coreCompletion k) →
      S.arrivals .coreCompletion none ≤ (S.bar .coreCompletion).cycle := by
    intro hs
    refine h.barriers.past _ _ fun k hk => ?_
    rcases hs with hs | hs
    · rw [hk] at hs
      exact hs rfl
    · exact hs k hk
  have htpast₂ : (S.pc none).stage ≠ 2 → S.arrivals .timeSync none ≤ (S.bar .timeSync).cycle := by
    intro hs
    refine h.barriers.past _ _ fun k hk => hs ?_
    rw [hk]
    rfl
  rcases hadv with ⟨hadv, hs⟩ | ⟨hadv, hs⟩ | ⟨hadv, hs, hw⟩
  · rw [hadv, if_neg nofun] at htime
    omega
  · rw [hadv, if_pos rfl] at htime
    have := htpast₁ (.inl (by omega))
    omega
  · rw [hadv, if_pos rfl] at htime
    have := htpast₁ (.inr hw)
    omega

/-- What holds after a run `tr` to `S`. -/
structure InLockstep (size totalTicks : ℕ) (tr : List (Trans (Sys M n) (Label M n))) (S : Sys M n) :
    Prop where
  /-- Every core has had one `scheduler_tick` for each value of `system_time`
      that is over, and at most one for the current value. -/
  entered : ∀ c, ticks c tr = List.range S.systemTime ∨ ticks c tr = List.range (S.systemTime + 1)
  /-- A core in `scheduler_tick` is in the tick of the current time. -/
  current : ∀ c, (S.pc (some c)).InTick → ticks c tr = List.range (S.systemTime + 1)
  overlap : (S.pc none).InPhase → ∀ c, ¬(S.pc (some c)).InTick
  /-- The timer enqueues at one position after the other. -/
  placed : positions tr = List.range (positions tr).length
  /-- In every tick that is over, every core has visited, once and in order,
      the messages that the timer phase before it has enqueued. -/
  visited : ∀ c t, t < S.systemTime → visits c t tr = enqueued t tr
  /-- In the current tick it is on the way to do so, .. -/
  visiting : ∀ c, visits c S.systemTime tr <+: enqueued S.systemTime tr
  /-- .. and there are no other visits. -/
  unvisited : ∀ c t, S.systemTime < t → visits c t tr = []
  /-- After the request all threads are in the same round, no thread enters
      another one, and some thread can step until all have left. -/
  sameRound : S.procShutdownRequested = true → ∀ θ, S.rounds θ = S.rounds none
  leaving : S.procShutdownRequested = true → ∀ a S', Step size totalTicks S a S' →
    S'.procShutdownRequested = true ∧ S'.rounds = S.rounds ∧ S'.left < S.left
  unblocked : S.procShutdownRequested = true → (∀ θ, S.pc θ = .exited) ∨
    ∃ a S', Step size totalTicks S a S'
  /-- A thread leaves only after the request. -/
  exited : ∀ θ, S.pc θ = .exited → S.procShutdownRequested = true

theorem visited_of_exec (h : Exec (Step size totalTicks) (Sys.init M n) tr S) : Visited tr S := by
  induction h with
  | nil => exact Visited.init
  | snoc h hs ih => exact ih.step (control_of_exec h) hs

/-- After the request no loop body starts. -/
theorem Step.rounds_eq (hf : S.procShutdownRequested = true) (hs : Step size totalTicks S a S') :
    S'.rounds = S.rounds := by
  cases hs with
  | tick _ hn | enter _ hn => rw [hf] at hn; cases hn
  | _ => rfl

/-- **Timer and cores run in lockstep**, for any number of cores and any
    interleaving. -/
theorem lockstep (h : Exec (Step size totalTicks) (Sys.init M n) tr S) :
    InLockstep size totalTicks tr S := by
  have hc := control_of_exec h
  have hv := visited_of_exec h
  refine ⟨?_, ?_, ?_, ?_, ?_, ?_, ?_, ?_, ?_, ?_, hc.exited⟩
  · intro c
    rw [hv.entered c]
    obtain ⟨h₁, h₂⟩ := hc.rounds_near c
    rcases Nat.lt_or_ge S.systemTime (S.rounds (some c)) with hlt | hle
    · exact .inr (congrArg List.range (by omega))
    · exact .inl (congrArg List.range (by omega))
  · intro c hp
    rw [hv.entered c, hc.time_of_tick hp]
  · exact fun hp c => (hc.time_of_phase hp c).2
  · rw [hv.placed, List.length_range]
  · intro c t hlt
    obtain ⟨h₁, h₂⟩ := hc.rounds_near c
    by_cases hlast : t + 1 = S.rounds (some c)
    · have hnow := hv.now c t hlast
      have hno : ¬(S.pc (some c)).InTick := by
        intro hp
        have := hc.time_of_tick hp
        omega
      cases hpc : S.pc (some c) with
      | tickStart | read => rw [hpc] at hno; exact absurd trivial hno
      | _ => rw [hpc] at hnow; exact hnow
    · exact hv.done c t (by omega)
  · intro c
    obtain ⟨h₁, h₂⟩ := hc.rounds_near c
    by_cases hlast : S.systemTime + 1 = S.rounds (some c)
    · have hnow := hv.now c S.systemTime hlast
      cases hpc : S.pc (some c) with
      | tickStart =>
        rw [hpc] at hnow
        rw [show visits c S.systemTime tr = [] from hnow]
        exact List.nil_prefix
      | read idx =>
        rw [hpc] at hnow
        have hqueue := hv.queue
        rw [Visited.not_filling hc (c := c) (by rw [hpc]; trivial)] at hqueue
        rw [hnow.2.2, ← show enqueued S.systemTime tr = _ from hqueue]
        exact List.take_prefix _ _
      | _ =>
        rw [hpc] at hnow
        rw [show visits c S.systemTime tr = _ from hnow]
    · rw [hv.later c S.systemTime (by omega)]
      exact List.nil_prefix
  · intro c t hlt
    obtain ⟨h₁, h₂⟩ := hc.rounds_near c
    exact hv.later c t (by omega)
  · exact fun hf θ => ((hc.request hf).1 θ).1
  · intro hf b T hs
    obtain ⟨hf', hlt⟩ := hs.left_lt hc hf
    exact ⟨hf', hs.rounds_eq hf, hlt⟩
  · intro hf
    by_cases hall : ∀ θ, S.pc θ = .exited
    · exact .inl hall
    · push Not at hall
      exact .inr (hc.can_step hf hall)

/-- One core, one message that is received in the first timer phase. -/
theorem one_message : ∃ tr S, Exec (Step 64 0) (Sys.init ℕ 1) tr S ∧ S.systemTime = 1 ∧
    enqueued 1 tr = [(0, 7)] ∧ visits 0 1 tr = [(0, 7)] := by
  have h : Exec (Step 64 0) (Sys.init ℕ 1) [] _ := .nil
  have h := h.snoc (.tick (c := 0) rfl rfl)
  have h := h.snoc (.loadHead (c := 0) rfl)
  have h := h.snoc (.readEnd (c := 0) rfl (by decide))
  have h := h.snoc (.tickEnd (c := 0) (.inl rfl))
  have h := h.snoc (.arrive (θ := some 0) rfl)
  have h := h.snoc (.enter rfl rfl)
  have h := h.snoc (.arrive (θ := none) rfl)
  have h := h.snoc (.test2 rfl rfl)
  have h := h.snoc (.clear rfl)
  have h := h.snoc (.recv [7] rfl)
  have h := h.snoc (.enqueue rfl (by decide))
  have h := h.snoc (.recvEnd rfl)
  have h := h.snoc (.sweep rfl)
  have h := h.snoc (.fatalTest rfl)
  have h := h.snoc (.advance rfl)
  have h := h.snoc (.lastTest rfl)
  have h := h.snoc (.send rfl)
  have h := h.snoc (.arrive (θ := none) rfl)
  have h := h.snoc (.wake (θ := some 0) rfl (by decide))
  have h := h.snoc (.arrive (θ := some 0) rfl)
  have h := h.snoc (.tick (c := 0) rfl rfl)
  have h := h.snoc (.loadHead (c := 0) rfl)
  have h := h.snoc (.visit (c := 0) rfl (by decide) rfl)
  exact ⟨_, _, h, rfl, rfl, rfl⟩

theorem lockstep_one : ∃ (tr : List (Trans (Sys ℕ 1) (Label ℕ 1))) (S : Sys ℕ 1),
    InLockstep 64 0 tr S ∧ S.systemTime = 1 ∧ visits 0 1 tr = [(0, 7)] := by
  obtain ⟨tr, S, h, ht, -, hv⟩ := one_message
  exact ⟨tr, S, lockstep h, ht, hv⟩

end EeftSched.Lockstep

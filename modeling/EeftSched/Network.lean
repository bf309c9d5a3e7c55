/-
  The message queues of all processors and the sockets between them (`ipc.c`,
  `timer_thread_func` in `processor.c`, `main.c`).

  Each processor runs as in `Lockstep`.  A packet that a timer sends is in the
  socket of each processor, its own included, when the call returns, or is lost
  there; the receive loop ends when its socket is empty.  `cur_cycle` of a
  waiting thread is 32 bits wide.

  * `Net.Step`: one step of one thread of one processor;
  * `Net.ProcBarrier`: no timer is more than a round ahead of another;
  * `Net.Inv`: the messages on their way to a processor are bounded by what the
    timers have sent since it has last received;
  * `never_blocked`: nobody waits for a free slot while `2 * P - 1` times the
    cores of a processor fit in a queue;
  * `core_blocks`: 65 cores that complete in one tick.
-/
import EeftSched.Ipc
import EeftSched.Outgoing
import Mathlib.Algebra.BigOperators.Fin

namespace EeftSched.Network

open Lts Lockstep

variable {M : Type} {P n : ℕ}

/-! ## All processors -/

/-- The processors, the packets in their sockets and `proc_barrier`. -/
structure Net (M : Type) (P n : ℕ) where
  proc : Fin P → Sys M n
  inbox : Fin P → List (List M)
  procBarrier : CyclicBarrier
  /-- the cycle in which the timer of a processor waits there -/
  waiting : Fin P → Option ℕ

namespace Net

def init (M : Type) (P n : ℕ) : Net M P n where
  proc _ := .init M n
  inbox _ := []
  procBarrier := .init P
  waiting _ := none

def setProc (T : Net M P n) (i : Fin P) (S : Sys M n) : Net M P n :=
  { T with proc := Function.update T.proc i S }

@[simp] theorem setProc_self (T : Net M P n) (i : Fin P) (S : Sys M n) : (T.setProc i S).proc i = S :=
  Function.update_self ..

theorem setProc_proc (T : Net M P n) (i : Fin P) (S : Sys M n) :
    (T.setProc i S).proc = Function.update T.proc i S := rfl

theorem setProc_init (i : Fin P) : (init M P n).setProc i (Sys.init M n) = init M P n :=
  congrArg (Net.mk · _ _ _) (Function.update_eq_self i (init M P n).proc)

/-- `sendto`: the packet gets to the sockets in `dest`. -/
def sendto (T : Net M P n) (dest : Finset (Fin P)) (msgs : List M) : Net M P n :=
  { T with inbox := fun j => if j ∈ dest then T.inbox j ++ [msgs] else T.inbox j }

end Net

/-- A step that neither the sockets nor the other processors take part in -/
def Own : Label M n → Prop
  | .recv _ | .recvEnd | .send _ | .procPass => False
  | _ => True

/-- The width of `cur_cycle` in `barrier_wait` -/
def cycleWrap : ℕ := 2 ^ 32

/-- One step of one thread of processor `i`. -/
inductive Net.Step (size totalTicks : ℕ) (T : Net M P n) : Fin P × Label M n → Net M P n → Prop
  | own {i : Fin P} {a : Label M n} {S' : Sys M n} (ha : Own a)
      (hs : Lockstep.Step size totalTicks (T.proc i) a S') :
      Step size totalTicks T (i, a) (T.setProc i S')
  /-- `cur_cycle` is not `cycle`, as it has lost its upper bits. -/
  | wakeWrapped {i : Fin P} {θ : Thread n} {g : Gate} {cycle : ℕ}
      (h : (T.proc i).pc θ = .wait g cycle) (hc : cycle % cycleWrap ≠ ((T.proc i).bar g).cycle) :
      Step size totalTicks T (i, .tau) (T.setProc i ((T.proc i).setPc θ (next θ g)))
  /-- `recvfrom` -/
  | recv {i : Fin P} {packet : List M} {rest : List (List M)} {S' : Sys M n}
      (h : T.inbox i = packet :: rest)
      (hs : Lockstep.Step size totalTicks (T.proc i) (.recv packet) S') :
      Step size totalTicks T (i, .recv packet)
        { T.setProc i S' with inbox := Function.update T.inbox i rest }
  | recvEnd {i : Fin P} {S' : Sys M n} (h : T.inbox i = [])
      (hs : Lockstep.Step size totalTicks (T.proc i) .recvEnd S') :
      Step size totalTicks T (i, .recvEnd) (T.setProc i S')
  /-- `ipc_send_completion_messages`, which sends no empty packet -/
  | send {i : Fin P} {msgs : List M} {S' : Sys M n} (dest : Finset (Fin P))
      (hd : msgs = [] → dest = ∅)
      (hs : Lockstep.Step size totalTicks (T.proc i) (.send msgs) S') :
      Step size totalTicks T (i, .send msgs) ((T.setProc i S').sendto dest msgs)
  /-- `ipc_broadcast_criticality_change`: a packet without completion messages -/
  | broadcast {i : Fin P} (dest : Finset (Fin P)) :
      Step size totalTicks T (i, .tau) (T.sendto dest [])
  /-- `barrier_wait(proc_barrier)` -/
  | procWait {i : Fin P} (h : (T.proc i).pc none = .procBarrier) (hw : T.waiting i = none)
      (hl : ¬T.procBarrier.last) :
      Step size totalTicks T (i, .tau)
        { T with
          procBarrier := T.procBarrier.arrive
          waiting := Function.update T.waiting i (some T.procBarrier.cycle) }
  | procLast {i : Fin P} {S' : Sys M n} (hw : T.waiting i = none) (hl : T.procBarrier.last)
      (hs : Lockstep.Step size totalTicks (T.proc i) .procPass S') :
      Step size totalTicks T (i, .procPass)
        { T.setProc i S' with procBarrier := T.procBarrier.arrive }
  | procWake {i : Fin P} {cycle : ℕ} {S' : Sys M n} (hw : T.waiting i = some cycle)
      (hc : cycle % cycleWrap ≠ T.procBarrier.cycle)
      (hs : Lockstep.Step size totalTicks (T.proc i) .procPass S') :
      Step size totalTicks T (i, .procPass)
        { T.setProc i S' with waiting := Function.update T.waiting i none }

namespace Net

/-- A core of processor `i`, or its timer, waits in `ring_buffer_enqueue` for a
    free slot. -/
def Blocked (size : ℕ) (T : Net M P n) : Prop :=
  ∃ i, (∃ c t, (T.proc i).pc (some c) = .enqueue t ∧ ¬(T.proc i).outgoing.Free size t) ∨
    ∃ m rest, (T.proc i).pc none = .receive (m :: rest) ∧ size ≤ (T.proc i).incoming.msgs.length

/-- The barriers have not been passed `2 ^ 32` times. -/
def Early (T : Net M P n) : Prop :=
  T.procBarrier.cycle < cycleWrap ∧ ∀ i g, ((T.proc i).bar g).cycle < cycleWrap

/-- How often the timer of processor `i` has arrived at `proc_barrier` -/
def arrivals (T : Net M P n) (i : Fin P) : ℕ :=
  (T.proc i).past 3 + (if (T.waiting i).isSome then 1 else 0) - 1

/-- The messages on their way to the cores of processor `i` -/
def backlog (T : Net M P n) (i : Fin P) : ℕ :=
  (T.proc i).backlog + ((T.inbox i).map List.length).sum

/-- How often timer `j` has sent since timer `i` has last received, or might
    have before. -/
def sends (T : Net M P n) (i j : Fin P) : ℕ := (T.proc j).past 2 + 1 - (T.proc i).past 1

/-- The timers and their barrier -/
structure ProcBarrier (T : Net M P n) : Prop where
  started : ∀ i, 1 ≤ (T.proc i).past 3
  counts : T.procBarrier.Counts Finset.univ T.arrivals T.procBarrier.cycle
  past : ∀ i, T.waiting i = none → T.arrivals i ≤ T.procBarrier.cycle
  waits : ∀ i c, T.waiting i = some c → c + 1 = T.arrivals i ∧ (T.proc i).pc none = .procBarrier

structure Inv (T : Net M P n) : Prop where
  control : ∀ i, Control (T.proc i)
  outgoing : ∀ i, Outgoing (T.proc i)
  barrier : T.ProcBarrier
  backlog_le : ∀ i, T.backlog i ≤ n * ∑ j, T.sends i j

end Net

variable {size totalTicks k : ℕ} {T T' : Net M P n} {i j : Fin P} {a : Label M n} {S' : Sys M n}

theorem past_mono (S : Sys M n) :
    S.past 3 ≤ S.past 2 ∧ S.past 2 ≤ S.past 1 ∧ S.past 1 ≤ S.past 3 + 1 := by
  unfold Sys.past
  split_ifs <;> omega

namespace Net.ProcBarrier

theorem init (hP : 0 < P) : ProcBarrier (Net.init M P n) where
  started _ := le_rfl
  counts := by
    have : Nonempty (Fin P) := ⟨⟨0, hP⟩⟩
    have h := CyclicBarrier.Counts.init (Θ := Fin P) (M := Finset.univ) Finset.univ_nonempty
    rw [Finset.card_univ, Fintype.card_fin] at h
    exact h
  past _ _ := le_rfl
  waits _ _ h := by cases h

/-- No timer is more than a round ahead of another. -/
theorem near (h : ProcBarrier T) (i : Fin P) :
    T.procBarrier.cycle + 1 ≤ (T.proc i).past 2 ∧ (T.proc i).past 1 ≤ T.procBarrier.cycle + 2 := by
  have hstarted := h.started i
  have hpast := h.past i
  have hwaits := h.waits i
  have hnear := h.counts.near i (Finset.mem_univ i)
  obtain ⟨h₁, h₂, h₃⟩ := past_mono (T.proc i)
  unfold arrivals at hpast hwaits hnear
  cases hw : T.waiting i with
  | none =>
    rw [hw] at hpast hnear
    have hle := hpast rfl
    change (T.proc i).past 3 + 0 - 1 ≤ _ at hle
    change (T.proc i).past 3 + 0 - 1 = _ ∨ (T.proc i).past 3 + 0 - 1 = _ at hnear
    omega
  | some c =>
    have hat := hwaits c hw
    rw [hw] at hat hnear
    change (T.proc i).past 3 + 1 - 1 = _ ∨ (T.proc i).past 3 + 1 - 1 = _ at hnear
    have hsent : (T.proc i).past 2 = (T.proc i).past 3 + 1 := by
      unfold Sys.past
      rw [hat.2]
      rfl
    omega

/-- A timer in its receive loop has not arrived in this round. -/
theorem receiving (h : ProcBarrier T) {pending : List M} (hp : (T.proc i).pc none = .receive pending) :
    T.sends i i = 1 ∧ ∀ j, T.sends i j ≤ 2 := by
  have hstarted := h.started i
  have hnear := h.counts.near i (Finset.mem_univ i)
  have hwait : T.waiting i = none := by
    cases hw : T.waiting i with
    | none => rfl
    | some c =>
      have := (h.waits i c hw).2
      rw [hp] at this
      cases this
  unfold arrivals at hnear
  rw [hwait] at hnear
  change (T.proc i).past 3 + 0 - 1 = _ ∨ (T.proc i).past 3 + 0 - 1 = _ at hnear
  have hsame : (T.proc i).past 1 = (T.proc i).past 3 ∧ (T.proc i).past 2 = (T.proc i).past 3 := by
    unfold Sys.past
    rw [hp]
    exact ⟨rfl, rfl⟩
  unfold sends
  refine ⟨by omega, fun j => ?_⟩
  obtain ⟨h₁, h₂⟩ := h.near j
  obtain ⟨-, hm, -⟩ := past_mono (T.proc j)
  omega

/-- A processor moves on without `proc_barrier`. -/
theorem own (h : ProcBarrier T) (hc : Control (T.proc i))
    (hs : Lockstep.Step size totalTicks (T.proc i) a S') (ha : a.mark ≠ 3)
    (hp : T'.proc = Function.update T.proc i S') (hb : T'.procBarrier = T.procBarrier)
    (hw : T'.waiting = T.waiting) : ProcBarrier T' := by
  have hself : T'.proc i = S' := by rw [hp, Function.update_self]
  have hother : ∀ j ≠ i, T'.proc j = T.proc j := fun j hj => by rw [hp, Function.update_of_ne hj]
  have hpast : ∀ j, (T'.proc j).past 3 = (T.proc j).past 3 := by
    intro j
    by_cases hj : j = i
    · rw [hj, hself, hs.past_eq (k := 3) hc.noTest2Exit (by omega) le_rfl, if_neg ha, Nat.add_zero]
    · rw [hother j hj]
  have harr : T'.arrivals = T.arrivals := by
    funext j
    unfold arrivals
    rw [hpast, hw]
  refine ⟨?_, ?_, ?_, ?_⟩
  · intro j
    rw [hpast]
    exact h.started j
  · rw [hb, harr]
    exact h.counts
  · intro j hj
    rw [hw] at hj
    rw [harr, hb]
    exact h.past j hj
  · intro j c hj
    rw [hw] at hj
    obtain ⟨hat, hpc⟩ := h.waits j c hj
    rw [harr]
    refine ⟨hat, ?_⟩
    by_cases hji : j = i
    · subst hji
      rw [hself]
      exact hs.procBarrier hpc ha
    · rw [hother j hji]
      exact hpc

/-- A timer arrives, and waits or passes. -/
theorem arrive (h : ProcBarrier T) (hw : T.waiting i = none)
    (hpast : ∀ j ≠ i, (T'.proc j).past 3 = (T.proc j).past 3 ∧ T'.waiting j = T.waiting j ∧
      (T'.proc j).pc none = (T.proc j).pc none)
    (hi : T'.arrivals i = T.arrivals i + 1) (hs : 1 ≤ (T'.proc i).past 3)
    (hb : T'.procBarrier = T.procBarrier.arrive)
    (hlast : T.procBarrier.last → T'.waiting i = none)
    (hwait : ¬T.procBarrier.last → T'.waiting i = some T.procBarrier.cycle ∧
      (T'.proc i).pc none = .procBarrier) : ProcBarrier T' := by
  have hat : T.arrivals i = T.procBarrier.cycle := by
    have := h.past i hw
    have := h.counts.near i (Finset.mem_univ i)
    omega
  have harr : T'.arrivals = Function.update T.arrivals i (T.procBarrier.cycle + 1) := by
    funext j
    by_cases hj : j = i
    · rw [hj, hi, hat, Function.update_self]
    · rw [Function.update_of_ne hj]
      unfold arrivals
      rw [(hpast j hj).1, (hpast j hj).2.1]
  have hcounts : T'.procBarrier.Counts Finset.univ T'.arrivals T'.procBarrier.cycle := by
    rw [harr, hb]
    by_cases hl : T.procBarrier.last
    · have hcount := (h.counts.arrive_last (Finset.mem_univ i) hat hl).2
      rw [hcount.cycle]
      exact hcount
    · have hcount := h.counts.arrive_wait (Finset.mem_univ i) hat hl
      rw [hcount.cycle]
      exact hcount
  have hcycle : T.procBarrier.cycle ≤ T'.procBarrier.cycle := by
    rw [hb]
    exact CyclicBarrier.cycle_le_arrive _
  refine ⟨?_, hcounts, ?_, ?_⟩
  · intro j
    by_cases hj : j = i
    · rw [hj]
      exact hs
    · rw [(hpast j hj).1]
      exact h.started j
  · intro j hj
    rw [harr]
    by_cases hji : j = i
    · rw [hji, Function.update_self]
      by_cases hl : T.procBarrier.last
      · rw [hb, (h.counts.arrive_last (Finset.mem_univ i) hat hl).2.cycle]
      · rw [hji, (hwait hl).1] at hj
        cases hj
    · rw [Function.update_of_ne hji]
      rw [(hpast j hji).2.1] at hj
      exact (h.past j hj).trans hcycle
  · intro j c hj
    rw [harr]
    by_cases hji : j = i
    · subst hji
      rw [Function.update_self]
      by_cases hl : T.procBarrier.last
      · rw [hlast hl] at hj
        cases hj
      · rw [(hwait hl).1] at hj
        exact ⟨congrArg (· + 1) (Option.some.inj hj).symm, (hwait hl).2⟩
    · rw [Function.update_of_ne hji]
      rw [(hpast j hji).2.1] at hj
      rw [(hpast j hji).2.2]
      exact h.waits j c hj

/-- A timer that has waited passes. -/
theorem wake (h : ProcBarrier T) {c : ℕ} (hw : T.waiting i = some c) (hc : c ≠ T.procBarrier.cycle)
    (hpast : ∀ j ≠ i, (T'.proc j).past 3 = (T.proc j).past 3 ∧ T'.waiting j = T.waiting j ∧
      (T'.proc j).pc none = (T.proc j).pc none)
    (hi : (T'.proc i).past 3 = (T.proc i).past 3 + 1) (hw' : T'.waiting i = none)
    (hb : T'.procBarrier = T.procBarrier) : ProcBarrier T' := by
  have harr : T'.arrivals = T.arrivals := by
    funext j
    unfold arrivals
    by_cases hj : j = i
    · rw [hj, hi, hw, hw']
      show (T.proc i).past 3 + 1 + 0 - 1 = (T.proc i).past 3 + 1 - 1
      omega
    · rw [(hpast j hj).1, (hpast j hj).2.1]
  refine ⟨?_, ?_, ?_, ?_⟩
  · intro j
    by_cases hj : j = i
    · rw [hj, hi]
      exact Nat.succ_pos _
    · rw [(hpast j hj).1]
      exact h.started j
  · rw [hb, harr]
    exact h.counts
  · intro j hj
    rw [harr, hb]
    by_cases hji : j = i
    · have hat := (h.waits i c hw).1
      have hnear := h.counts.near i (Finset.mem_univ i)
      rw [hji]
      omega
    · rw [(hpast j hji).2.1] at hj
      exact h.past j hj
  · intro j d hj
    rw [harr]
    by_cases hji : j = i
    · rw [hji, hw'] at hj
      cases hj
    · rw [(hpast j hji).2.1] at hj
      rw [(hpast j hji).2.2]
      exact h.waits j d hj

end Net.ProcBarrier

namespace Net.Inv

theorem init (hP : 0 < P) : Inv (Net.init M P n) where
  control _ := Control.init
  outgoing _ := Outgoing.init
  barrier := ProcBarrier.init hP
  backlog_le _ := Nat.zero_le _

/-- The points of the timers after a step of processor `i` -/
theorem past_eq (h : Inv T) (hs : Lockstep.Step size totalTicks (T.proc i) a S')
    (hp : T'.proc = Function.update T.proc i S') (h₁ : 1 ≤ k) (h₃ : k ≤ 3) (j : Fin P) :
    (T'.proc j).past k = (T.proc j).past k + if j = i ∧ a.mark = k then 1 else 0 := by
  rw [hp]
  by_cases hj : j = i
  · subst hj
    rw [Function.update_self, hs.past_eq (h.control j).noTest2Exit h₁ h₃]
    simp only [true_and]
  · rw [Function.update_of_ne hj, if_neg fun hji => hj hji.1]
    rfl

/-- A step of processor `i`, with what it does to the barrier and the backlogs. -/
theorem proc (h : Inv T) (hsize : n ≤ size) (hs : Lockstep.Step size totalTicks (T.proc i) a S')
    (hp : T'.proc = Function.update T.proc i S') (hb : T'.ProcBarrier)
    (hl : ∀ j, T'.backlog j ≤ n * ∑ l, T'.sends j l) : Inv T' := by
  have hself : T'.proc i = S' := by rw [hp, Function.update_self]
  have hother : ∀ j ≠ i, T'.proc j = T.proc j := fun j hj => by rw [hp, Function.update_of_ne hj]
  refine ⟨?_, ?_, hb, hl⟩
  · intro j
    by_cases hj : j = i
    · rw [hj, hself]
      exact (h.control i).step hs
    · rw [hother j hj]
      exact h.control j
  · intro j
    by_cases hj : j = i
    · rw [hj, hself]
      exact (h.outgoing i).step (h.control i) hsize hs
    · rw [hother j hj]
      exact h.outgoing j

/-- Nothing is sent, and no receive loop ends. -/
theorem backlog_of_le (h : Inv T) (hs : Lockstep.Step size totalTicks (T.proc i) a S')
    (hp : T'.proc = Function.update T.proc i S') (h₁ : a.mark ≠ 1) (h₂ : a.mark ≠ 2)
    (hle : ∀ j, T'.backlog j ≤ T.backlog j) (j : Fin P) : T'.backlog j ≤ n * ∑ l, T'.sends j l := by
  have hsends : ∀ l, T'.sends j l = T.sends j l := by
    intro l
    unfold sends
    rw [h.past_eq hs hp (k := 2) (by omega) (by omega), h.past_eq hs hp (k := 1) (by omega) (by omega),
      if_neg fun hm => h₂ hm.2, if_neg fun hm => h₁ hm.2]
    rfl
  rw [Finset.sum_congr rfl fun l _ => hsends l]
  exact (hle j).trans (h.backlog_le j)

/-- The backlogs when processor `i` changes and the sockets do not -/
theorem backlog_setProc {b : ℕ} (hS : S'.backlog ≤ (T.proc i).backlog + b)
    (hp : T'.proc = Function.update T.proc i S') (j : Fin P)
    (hi : ((T'.inbox j).map List.length).sum + (if j = i then b else 0) ≤
      ((T.inbox j).map List.length).sum) : T'.backlog j ≤ T.backlog j := by
  unfold Net.backlog
  rw [hp]
  by_cases hj : j = i
  · rw [hj, Function.update_self]
    rw [hj, if_pos rfl] at hi
    omega
  · rw [Function.update_of_ne hj]
    rw [if_neg hj] at hi
    omega

theorem own (h : Inv T) (hsize : n ≤ size) (ha : Own a)
    (hs : Lockstep.Step size totalTicks (T.proc i) a S') : Inv (T.setProc i S') := by
  have hmark : a.mark = 0 ∧ a.received = 0 := by
    cases a with
    | recv | recvEnd | send | procPass => cases ha
    | _ => exact ⟨rfl, rfl⟩
  refine h.proc hsize hs rfl ?_ ?_
  · exact h.barrier.own (h.control i) hs (by omega) rfl rfl rfl
  · refine h.backlog_of_le hs rfl (by omega) (by omega) fun j => ?_
    refine backlog_setProc (b := 0) (hs.backlog_le.trans_eq (by rw [hmark.2])) rfl j ?_
    rw [ite_self]
    exact le_rfl

/-- The timer takes a packet from its socket. -/
theorem recv (h : Inv T) (hsize : n ≤ size) {packet : List M} {rest : List (List M)}
    (hi : T.inbox i = packet :: rest)
    (hs : Lockstep.Step size totalTicks (T.proc i) (.recv packet) S')
    (heq : T' = { T.setProc i S' with inbox := Function.update T.inbox i rest }) : Inv T' := by
  have hsys : T'.proc = Function.update T.proc i S' ∧ T'.procBarrier = T.procBarrier ∧
      T'.waiting = T.waiting ∧ T'.inbox = Function.update T.inbox i rest := by
    rw [heq]
    exact ⟨rfl, rfl, rfl, rfl⟩
  obtain ⟨hp, hb, hw, hin⟩ := hsys
  refine h.proc hsize hs hp (h.barrier.own (h.control i) hs nofun hp hb hw) ?_
  refine h.backlog_of_le hs hp nofun nofun fun j => ?_
  refine backlog_setProc (b := packet.length) hs.backlog_le hp j ?_
  rw [hin]
  by_cases hj : j = i
  · rw [hj, Function.update_self, if_pos rfl, hi, List.map_cons, List.sum_cons]
    omega
  · rw [Function.update_of_ne hj, if_neg hj]
    exact le_rfl

/-- The socket of the timer is empty. -/
theorem recvEnd (h : Inv T) (hsize : n ≤ size) (hi : T.inbox i = [])
    (hs : Lockstep.Step size totalTicks (T.proc i) .recvEnd S') : Inv (T.setProc i S') := by
  refine h.proc hsize hs rfl (h.barrier.own (h.control i) hs nofun rfl rfl rfl) fun j => ?_
  by_cases hj : j = i
  · -- nothing is left on the way
    have hzero : S'.backlog = 0 := by
      cases hs with
      | recvEnd hp =>
        unfold Sys.backlog
        rw [Sys.timer_none rfl]
    have hback : (T.setProc i S').backlog i = 0 := by
      unfold Net.backlog
      rw [show (T.setProc i S').proc i = S' from Function.update_self .., hzero,
        show (T.setProc i S').inbox i = [] from hi]
      rfl
    rw [hj, hback]
    exact Nat.zero_le _
  · have hsends : ∀ l, (T.setProc i S').sends j l = T.sends j l := by
      intro l
      have hsent := h.past_eq hs (T.setProc_proc i S') (k := 2) (by omega) (by omega) l
      have hreceived := h.past_eq hs (T.setProc_proc i S') (k := 1) (by omega) (by omega) j
      rw [if_neg fun hm => nomatch hm.2] at hsent
      rw [if_neg fun hm => hj hm.1] at hreceived
      unfold sends
      rw [hsent, hreceived]
      rfl
    have hback : (T.setProc i S').backlog j = T.backlog j := by
      unfold Net.backlog
      rw [show (T.setProc i S').proc j = T.proc j from Function.update_of_ne hj ..]
      rfl
    rw [hback, Finset.sum_congr rfl fun l _ => hsends l]
    exact h.backlog_le j

/-- The timer of processor `i` sends at most a message for each of its cores. -/
theorem send (h : Inv T) (hsize : n ≤ size) {msgs : List M} {dest : Finset (Fin P)}
    (hs : Lockstep.Step size totalTicks (T.proc i) (.send msgs) S') :
    Inv ((T.setProc i S').sendto dest msgs) := by
  have hlen : msgs.length ≤ n := by
    cases hs with
    | send hp =>
      obtain ⟨hdrain, hle⟩ := (h.outgoing i).drain_eq (h.control i) hp hsize
      rw [hdrain]
      exact hle
  have hp : ((T.setProc i S').sendto dest msgs).proc = Function.update T.proc i S' := rfl
  refine h.proc hsize hs hp (h.barrier.own (h.control i) hs nofun rfl rfl rfl) fun j => ?_
  have hsends : ∀ l, ((T.setProc i S').sendto dest msgs).sends j l =
      T.sends j l + if l = i then 1 else 0 := by
    intro l
    have hnear := (h.barrier.near l).1
    have hnear' := (h.barrier.near j).2
    unfold sends
    rw [h.past_eq hs hp (k := 2) (by omega) (by omega), h.past_eq hs hp (k := 1) (by omega) (by omega),
      if_neg fun hm : j = i ∧ _ => nomatch hm.2]
    show (T.proc l).past 2 + (if l = i ∧ 2 = 2 then 1 else 0) + 1 - _ = _
    simp only [and_true]
    split_ifs <;> omega
  have hback : ((T.setProc i S').sendto dest msgs).backlog j ≤ T.backlog j + n := by
    have hproc : (((T.setProc i S').sendto dest msgs).proc j).backlog ≤ (T.proc j).backlog := by
      rw [hp]
      by_cases hj : j = i
      · rw [hj, Function.update_self]
        exact hs.backlog_le
      · rw [Function.update_of_ne hj]
    have hin : ((((T.setProc i S').sendto dest msgs).inbox j).map List.length).sum ≤
        ((T.inbox j).map List.length).sum + n := by
      show (List.map List.length (if j ∈ dest then T.inbox j ++ [msgs] else T.inbox j)).sum ≤ _
      split_ifs
      · rw [List.map_append, List.sum_append, List.map_singleton, List.sum_singleton]
        omega
      · exact Nat.le_add_right _ _
    unfold Net.backlog
    omega
  have hsum : ∑ l, ((T.setProc i S').sendto dest msgs).sends j l = ∑ l, T.sends j l + 1 := by
    rw [Finset.sum_congr rfl fun l _ => hsends l, Finset.sum_add_distrib, Finset.sum_ite_eq',
      if_pos (Finset.mem_univ i)]
  rw [hsum, Nat.mul_succ]
  exact hback.trans (Nat.add_le_add_right (h.backlog_le j) n)

/-- The timer passes `proc_barrier`. -/
theorem procPass (h : Inv T) (hsize : n ≤ size)
    (hs : Lockstep.Step size totalTicks (T.proc i) .procPass S')
    (hp : T'.proc = Function.update T.proc i S') (hin : T'.inbox = T.inbox)
    (hb : T'.ProcBarrier) : Inv T' := by
  refine h.proc hsize hs hp hb (h.backlog_of_le hs hp nofun nofun fun j => ?_)
  refine backlog_setProc (b := 0) hs.backlog_le hp j ?_
  rw [hin, ite_self]
  exact le_rfl

/-- Nobody but the timers is concerned. -/
theorem congr (h : Inv T) (hp : T'.proc = T.proc) (hb : T'.ProcBarrier)
    (hin : ∀ j, ((T'.inbox j).map List.length).sum = ((T.inbox j).map List.length).sum) :
    Inv T' := by
  refine ⟨?_, ?_, hb, ?_⟩
  · rw [hp]
    exact h.control
  · rw [hp]
    exact h.outgoing
  · intro j
    unfold Net.backlog Net.sends
    rw [hp, hin]
    exact h.backlog_le j

/-- The other processors when processor `i` changes -/
theorem others (hp : T'.proc = Function.update T.proc i S')
    (hw : ∀ j ≠ i, T'.waiting j = T.waiting j) (j : Fin P) (hj : j ≠ i) :
    (T'.proc j).past 3 = (T.proc j).past 3 ∧ T'.waiting j = T.waiting j ∧
      (T'.proc j).pc none = (T.proc j).pc none := by
  rw [hp, Function.update_of_ne hj]
  exact ⟨rfl, hw j hj, rfl⟩

theorem step {a : Fin P × Label M n} (h : Inv T) (hsize : n ≤ size) (he : T.Early)
    (hs : Net.Step size totalTicks T a T') : Inv T' := by
  cases hs with
  | own ha hs => exact h.own hsize ha hs
  | @wakeWrapped i θ g cycle hp hc =>
    have hcycle : cycle % cycleWrap = cycle := by
      refine Nat.mod_eq_of_lt (lt_of_le_of_lt ?_ (he.2 i g))
      have hat := (h.control i).barriers.waits g θ cycle hp
      have hnear := ((h.control i).barriers.counts g).near θ (Finset.mem_univ θ)
      omega
    rw [hcycle] at hc
    have hwake : Lockstep.Step size totalTicks (T.proc i) .tau ((T.proc i).setPc θ (next θ g)) :=
      .wake hp hc
    refine h.own hsize ?_ hwake
    trivial
  | recv hi hs => exact h.recv hsize hi hs rfl
  | recvEnd hi hs => exact h.recvEnd hsize hi hs
  | send dest _ hs => exact h.send hsize hs
  | @broadcast i dest =>
    refine h.congr rfl ⟨h.barrier.started, h.barrier.counts, h.barrier.past, h.barrier.waits⟩ ?_
    intro j
    show (List.map List.length (if j ∈ dest then T.inbox j ++ [[]] else T.inbox j)).sum = _
    split_ifs
    · rw [List.map_append, List.sum_append]
      rfl
    · rfl
  | @procWait i hp hw hl =>
    refine h.congr rfl (h.barrier.arrive hw ?_ ?_ (h.barrier.started i) rfl ?_ ?_) fun _ => rfl
    · exact fun j hj => ⟨rfl, Function.update_of_ne hj .., rfl⟩
    · have hstarted := h.barrier.started i
      unfold Net.arrivals
      rw [hw]
      show (T.proc i).past 3 +
        (if (Function.update T.waiting i (some T.procBarrier.cycle) i).isSome then 1 else 0) - 1 =
          (T.proc i).past 3 + 0 - 1 + 1
      rw [Function.update_self]
      show (T.proc i).past 3 + 1 - 1 = _
      omega
    · exact fun hl' => absurd hl' hl
    · exact fun _ => ⟨Function.update_self .., hp⟩
  | @procLast i S' hw hl hs =>
    refine h.procPass hsize hs rfl rfl (h.barrier.arrive hw ?_ ?_ ?_ rfl ?_ ?_)
    · exact others rfl fun _ _ => rfl
    · have hstarted := h.barrier.started i
      have hpast := h.past_eq hs (T.setProc_proc i S') (k := 3) (by omega) le_rfl i
      rw [if_pos ⟨rfl, rfl⟩] at hpast
      show ((T.setProc i S').proc i).past 3 + (if (T.waiting i).isSome then 1 else 0) - 1 =
        (T.proc i).past 3 + (if (T.waiting i).isSome then 1 else 0) - 1 + 1
      rw [hpast, hw]
      show (T.proc i).past 3 + 1 + 0 - 1 = (T.proc i).past 3 + 0 - 1 + 1
      omega
    · have hpast := h.past_eq hs (T.setProc_proc i S') (k := 3) (by omega) le_rfl i
      rw [if_pos ⟨rfl, rfl⟩] at hpast
      exact (Nat.succ_pos _).trans_eq hpast.symm
    · exact fun _ => hw
    · exact fun hn => absurd hl hn
  | @procWake i cycle S' hw hc hs =>
    have hcycle : cycle % cycleWrap = cycle := by
      refine Nat.mod_eq_of_lt (lt_of_le_of_lt ?_ he.1)
      have hat := (h.barrier.waits i cycle hw).1
      have hnear := h.barrier.counts.near i (Finset.mem_univ i)
      omega
    rw [hcycle] at hc
    refine h.procPass hsize hs rfl rfl (h.barrier.wake hw hc ?_ ?_ (Function.update_self ..) rfl)
    · exact others rfl fun j hj => Function.update_of_ne hj ..
    · have hpast := h.past_eq hs (T.setProc_proc i S') (k := 3) (by omega) le_rfl i
      rw [if_pos ⟨rfl, rfl⟩] at hpast
      exact hpast

/-- The messages on their way to a timer in its receive loop -/
theorem backlog_receiving (h : Inv T) {pending : List M}
    (hp : (T.proc i).pc none = .receive pending) : T.backlog i ≤ (2 * P - 1) * n := by
  obtain ⟨hself, hall⟩ := h.barrier.receiving hp
  have hlt : ∑ l, T.sends i l < ∑ _l : Fin P, 2 :=
    Finset.sum_lt_sum (fun l _ => hall l) ⟨i, Finset.mem_univ i, by rw [hself]; exact Nat.one_lt_two⟩
  rw [Finset.sum_const, Finset.card_univ, Fintype.card_fin, smul_eq_mul] at hlt
  refine (h.backlog_le i).trans ?_
  rw [Nat.mul_comm]
  exact Nat.mul_le_mul_right n (by omega)

/-- With room for that many messages nobody is blocked. -/
theorem not_blocked (h : Inv T) (hsize : (2 * P - 1) * n ≤ size) (hn : n ≤ size) :
    ¬T.Blocked size := by
  rintro ⟨i, ⟨c, t, hp, hfree⟩ | ⟨m, rest, hp, hfull⟩⟩
  · have htail := (h.outgoing i).tickets c t hp
    have hle := (h.outgoing i).claimed.trans (T.proc i).reported_le
    refine hfree ?_
    show t < (T.proc i).outgoing.head + size
    unfold TicketQueue.tail at htail
    omega
  · have hback := h.backlog_receiving hp
    unfold Net.backlog Sys.backlog at hback
    rw [hp] at hback
    change rest.length + 1 + (T.proc i).incoming.msgs.length + _ ≤ _ at hback
    omega

end Net.Inv

variable {tr : List (Trans (Net M P n) (Fin P × Label M n))}

theorem inv_of_exec (hP : 0 < P) (hsize : n ≤ size)
    (h : Exec (Net.Step size totalTicks) (Net.init M P n) tr T) (he : ∀ x ∈ tr, x.pre.Early) :
    T.Inv := by
  have hrun := h.restrict (P := fun T _ => T.Early) he
  refine hrun.invariant (Net.Inv.init hP) ?_
  exact fun T a T' hinv hs => hinv.step hsize hs.2 hs.1

/-- **Nobody waits for a free slot** when the messages of the packets that the
    processors can send between two receive loops of a timer fit in a queue. -/
theorem never_blocked (hsize : (2 * P - 1) * n ≤ Ipc.messageQueueSize)
    (h : Exec (Net.Step Ipc.messageQueueSize totalTicks) (Net.init M P n) tr T)
    (he : ∀ x ∈ tr, x.pre.Early) : ¬T.Blocked Ipc.messageQueueSize := by
  intro hblocked
  obtain ⟨i, -⟩ := id hblocked
  have hP : 0 < P := i.pos
  have hn : n ≤ Ipc.messageQueueSize :=
    (Nat.le_mul_of_pos_left n (by omega : 0 < 2 * P - 1)).trans hsize
  exact (inv_of_exec hP hn h he).not_blocked hsize hn hblocked

/-! ## Sixty-five cores -/

/-- A core goes through its tick up to the slot of its message. -/
theorem report (size totalTicks : ℕ) (S : Sys M n) (c : Fin n) (m : M) (hp : S.pc (some c) = .test)
    (hf : S.procShutdownRequested = false) (hin : S.incoming.msgs = []) :
    ∃ tr S', Exec (Lockstep.Step size totalTicks) S tr S' ∧
      (∀ x ∈ tr, Own x.lab ∧ x.pre.bar = S.bar) ∧ S'.pc (some c) = .enqueue S.outgoing.tail ∧
      (∀ d ≠ c, S'.pc (some d) = S.pc (some d)) ∧ S'.outgoing = S.outgoing.claim m ∧ S'.incoming = S.incoming ∧
      S'.procShutdownRequested = false := by
  have htail : ¬S.incoming.head < S.incoming.tail := by
    unfold MsgQueue.tail
    rw [hin]
    exact lt_irrefl _
  have h₀ : Exec (Lockstep.Step size totalTicks) S [] S := .nil
  have h₁ := h₀.snoc (.tick hp hf)
  have h₂ := h₁.snoc (.loadHead (c := c) (Sys.setPc_self ..))
  have h₃ := h₂.snoc (.readEnd (c := c) (Sys.setPc_self ..) htail)
  have h₄ := h₃.snoc (.complete (c := c) m (Sys.setPc_self ..))
  refine ⟨_, _, h₄, ?_, Sys.setPc_self .., ?_, rfl, rfl, hf⟩
  · intro x hx
    simp only [List.nil_append, List.cons_append, List.mem_cons, List.not_mem_nil, or_false] at hx
    rcases hx with rfl | rfl | rfl | rfl
    all_goals exact ⟨trivial, rfl⟩
  · intro d hd
    have hne : (some d : Thread n) ≠ some c := fun he => hd (Option.some.inj he)
    rw [Sys.setPc_ne _ _ hne, Sys.setPc_ne _ _ hne, Sys.setPc_ne _ _ hne]
    exact Sys.setPc_ne _ _ hne

/-- The first `k` cores have published, the others have not started. -/
structure Filled (k : ℕ) (S : Sys M n) : Prop where
  start : ∀ c : Fin n, k ≤ c → S.pc (some c) = .test
  head : S.outgoing.head = 0
  length : S.outgoing.slots.length = k
  incoming : S.incoming.msgs = []
  running : S.procShutdownRequested = false

theorem filled (size totalTicks : ℕ) (m : M) : ∀ k, k ≤ n → k ≤ size → ∃ tr S,
    Exec (Lockstep.Step size totalTicks) (Sys.init M n) tr S ∧ (∀ x ∈ tr, Own x.lab) ∧ Filled k S
  | 0, _, _ => ⟨[], _, .nil, nofun, fun _ _ => rfl, rfl, rfl, rfl, rfl⟩
  | k + 1, hn, hsize => by
    obtain ⟨tr, S, h, hown, hfill⟩ := filled size totalTicks m k (by omega) (by omega)
    obtain ⟨tr', S', h', hown', hp, hother, ho, hin, hf⟩ :=
      report size totalTicks S ⟨k, hn⟩ m (hfill.start _ le_rfl) hfill.running
        hfill.incoming
    have htail : S.outgoing.tail = k := by
      unfold TicketQueue.tail
      rw [hfill.head, hfill.length, Nat.zero_add]
    have hhead : S'.outgoing.head = 0 := by
      rw [ho]
      exact hfill.head
    have hfree : S'.outgoing.Free size S.outgoing.tail := by
      show S.outgoing.tail < S'.outgoing.head + size
      omega
    refine ⟨_, _, (h.append h').snoc (.publish hp hfree), ?_, ?_, hhead, ?_, ?_, hf⟩
    · intro x hx
      rcases List.mem_append.1 hx with hx | hx
      · rcases List.mem_append.1 hx with hx | hx
        · exact hown x hx
        · exact (hown' x hx).1
      · rw [List.mem_singleton.1 hx]
        trivial
    · intro c hc
      have hne : c ≠ ⟨k, hn⟩ := by
        rintro rfl
        exact Nat.not_succ_le_self k hc
      have hstart := (hother c hne).trans (hfill.start c (by omega))
      rw [← hstart]
      exact S'.setPc_ne _ fun he => hne (Option.some.inj he)
    · show (S'.outgoing.slots.modify _ _).length = k + 1
      rw [List.length_modify, ho]
      show (S.outgoing.slots ++ [(m, false)]).length = k + 1
      rw [List.length_append, hfill.length]
      rfl
    · show S'.incoming.msgs = []
      rw [hin]
      exact hfill.incoming

/-- A run of one processor by itself is a run of all. -/
theorem lift {S S' : Sys M n} {tr : List (Trans (Sys M n) (Label M n))}
    (h : Exec (Lockstep.Step size totalTicks) S tr S') (hown : ∀ x ∈ tr, Own x.lab) :
    ∃ tr', Exec (Net.Step size totalTicks) (T.setProc i S) tr' (T.setProc i S') ∧
      ∀ x ∈ tr', ∃ y ∈ tr, x.pre = T.setProc i y.pre := by
  induction h with
  | nil => exact ⟨[], .nil, nofun⟩
  | @snoc tr S₁ a S₂ h hs ih =>
    obtain ⟨tr', h', hpre⟩ := ih fun x hx => hown x (List.mem_append_left _ hx)
    have ha : Own a := hown ⟨S₁, a, S₂⟩ (List.mem_append_right _ List.mem_cons_self)
    have hstep := Net.Step.own (T := T.setProc i S₁) (i := i) ha (by rw [T.setProc_self]; exact hs)
    have hset : (T.setProc i S₁).setProc i S₂ = T.setProc i S₂ := by
      unfold Net.setProc
      rw [Function.update_idem]
    rw [hset] at hstep
    refine ⟨_, h'.snoc hstep, fun x hx => ?_⟩
    rcases List.mem_append.1 hx with hx | hx
    · obtain ⟨y, hy, hxy⟩ := hpre x hx
      exact ⟨y, List.mem_append_left _ hy, hxy⟩
    · rw [List.mem_singleton.1 hx]
      exact ⟨⟨S₁, a, S₂⟩, List.mem_append_right _ List.mem_cons_self, rfl⟩

/-- **65 completions in one tick do not fit**: the last core waits in
    `ring_buffer_enqueue`. -/
theorem core_blocks : ∃ tr T,
    Exec (Net.Step Ipc.messageQueueSize 0) (Net.init ℕ 1 65) tr T ∧ T.Blocked Ipc.messageQueueSize := by
  obtain ⟨tr, S, h, hown, hfill⟩ :=
    filled (n := 65) Ipc.messageQueueSize 0 (0 : ℕ) 64 (by omega) le_rfl
  obtain ⟨tr', S', h', hown', hp, -, ho, -, -⟩ :=
    report Ipc.messageQueueSize 0 S ⟨64, by omega⟩ 0 (hfill.start _ le_rfl)
      hfill.running hfill.incoming
  have hall : ∀ x ∈ tr ++ tr', Own x.lab := by
    intro x hx
    rcases List.mem_append.1 hx with hx | hx
    · exact hown x hx
    · exact (hown' x hx).1
  obtain ⟨tr'', h'', -⟩ := lift (T := Net.init ℕ 1 65) (i := 0) (h.append h') hall
  rw [Net.setProc_init] at h''
  refine ⟨tr'', _, h'', 0, .inl ⟨⟨64, by omega⟩, S.outgoing.tail, ?_, ?_⟩⟩
  · rw [Net.setProc_self]
    exact hp
  · rw [Net.setProc_self, ho]
    show ¬S.outgoing.head + S.outgoing.slots.length < S.outgoing.head + Ipc.messageQueueSize
    rw [hfill.length]
    exact lt_irrefl _

/-- Two processors with one core each, and a core about to publish. -/
theorem never_blocked_two : ∃ (tr : _) (T : Net ℕ 2 1),
    Exec (Net.Step Ipc.messageQueueSize 0) (Net.init ℕ 2 1) tr T ∧
      (T.proc 0).pc (some 0) = .enqueue 0 ∧ ¬T.Blocked Ipc.messageQueueSize := by
  obtain ⟨tr, S, h, hown, hp, -⟩ :=
    report Ipc.messageQueueSize 0 (Sys.init ℕ 1) 0 7 rfl rfl rfl
  obtain ⟨tr', h', hpre⟩ := lift (T := Net.init ℕ 2 1) (i := 0) h fun x hx => (hown x hx).1
  rw [Net.setProc_init] at h'
  refine ⟨tr', _, h', ?_, never_blocked (by decide) h' fun x hx => ?_⟩
  · rw [Net.setProc_self]
    exact hp
  · obtain ⟨y, hy, hxy⟩ := hpre x hx
    rw [hxy]
    refine ⟨Nat.two_pow_pos 32, fun i g => ?_⟩
    by_cases hi : i = 0
    · rw [hi, Net.setProc_self, (hown y hy).2]
      exact Nat.two_pow_pos 32
    · rw [show ((Net.init ℕ 2 1).setProc 0 y.pre).proc i = Sys.init ℕ 1 from Function.update_of_ne hi ..]
      exact Nat.two_pow_pos 32

end EeftSched.Network

/-
  `barrier_wait` with its mutex and its condition variable (`lib/barrier.c`).

  A thread copies the 64-bit `cycle` into the `unsigned cur_cycle` and waits
  while the two are equal.  What it does with the mutex in its hands is one
  step up to its next call of the condition variable or of the mutex.

  * `Step`: one step of one of `n` threads that call `barrier_wait` again and
    again; a waiting thread may wake up spuriously;
  * `barrier_wait_synchronises`: while no thread has called it more than `2^32`
    times, a call returns only after all threads have made theirs, and one call
    of each cycle returns `BARRIER_SERIAL_THREAD`;
  * `barrier_wait_returns_early`: after that a call returns at once.
-/
import EeftSched.Lib.Barrier
import EeftSched.Lib.Exec
import Mathlib.Algebra.Ring.Nat
import Mathlib.Data.Fintype.Card
import Mathlib.Tactic.FinCases

namespace EeftSched.BarrierWait

open Lts

/-- Where a thread is in `barrier_wait`. -/
inductive Pc where
  /-- between two calls -/
  | out
  | lock
  /-- it has the mutex, and looks at `cycle` and `count` -/
  | enter
  /-- the last one to arrive is about to call `pthread_cond_broadcast` -/
  | broadcast
  /-- at the test of the loop -/
  | test (curCycle : ℕ)
  /-- in `pthread_cond_wait` -/
  | waiting (curCycle : ℕ)
  /-- woken up, waits for the mutex -/
  | relock (curCycle : ℕ)
  /-- about to return, `BARRIER_SERIAL_THREAD` or 0 -/
  | unlock (serial : Bool)
deriving DecidableEq, Repr

variable {n : ℕ}

structure Sys (n : ℕ) where
  bar : CyclicBarrier
  mutex : Option (Fin n)
  pc : Fin n → Pc

/-- `barrier_init` -/
def Sys.init (n : ℕ) : Sys n := ⟨.init n, none, fun _ => .out⟩

/-- `unsigned cur_cycle` -/
def cycleWrap : ℕ := 2 ^ 32

def Sys.setPc (S : Sys n) (θ : Fin n) (q : Pc) : Sys n := { S with pc := Function.update S.pc θ q }

/-- `pthread_cond_broadcast` -/
def Pc.woken : Pc → Pc
  | .waiting cur => .relock cur
  | q => q

inductive Label (n : ℕ) where
  | call (θ : Fin n)
  | ret (θ : Fin n) (serial : Bool)
  | tau

inductive Step (S : Sys n) : Label n → Sys n → Prop
  | call {θ : Fin n} (h : S.pc θ = .out) : Step S (.call θ) (S.setPc θ .lock)
  | acquire {θ : Fin n} (h : S.pc θ = .lock) (hm : S.mutex = none) :
      Step S .tau { S.setPc θ .enter with mutex := some θ }
  | last {θ : Fin n} (h : S.pc θ = .enter) (hl : S.bar.last) :
      Step S .tau { S.setPc θ .broadcast with bar := S.bar.arrive }
  | arrive {θ : Fin n} (h : S.pc θ = .enter) (hl : ¬ S.bar.last) :
      Step S .tau { S.setPc θ (.test (S.bar.cycle % cycleWrap)) with bar := S.bar.arrive }
  | broadcast {θ : Fin n} (h : S.pc θ = .broadcast) :
      Step S .tau { S with pc := Function.update (fun τ => (S.pc τ).woken) θ (.unlock true) }
  | wait {θ : Fin n} {cur : ℕ} (h : S.pc θ = .test cur) (hc : cur = S.bar.cycle) :
      Step S .tau { S.setPc θ (.waiting cur) with mutex := none }
  | pass {θ : Fin n} {cur : ℕ} (h : S.pc θ = .test cur) (hc : cur ≠ S.bar.cycle) :
      Step S .tau (S.setPc θ (.unlock false))
  /-- a spurious wakeup -/
  | wake {θ : Fin n} {cur : ℕ} (h : S.pc θ = .waiting cur) : Step S .tau (S.setPc θ (.relock cur))
  | reacquire {θ : Fin n} {cur : ℕ} (h : S.pc θ = .relock cur) (hm : S.mutex = none) :
      Step S .tau { S.setPc θ (.test cur) with mutex := some θ }
  | ret {θ : Fin n} {serial : Bool} (h : S.pc θ = .unlock serial) :
      Step S (.ret θ serial) { S.setPc θ .out with mutex := none }

/-! ## Calls and returns -/

def Label.calls (a : Label n) (θ : Fin n) : ℕ :=
  match a with
  | .call τ => if τ = θ then 1 else 0
  | _ => 0

def Label.returned (a : Label n) (θ : Fin n) : List Bool :=
  match a with
  | .ret τ serial => if τ = θ then [serial] else []
  | _ => []

/-- How often a thread has called `barrier_wait`. -/
def calls (tr : List (Trans (Sys n) (Label n))) (θ : Fin n) : ℕ := (tr.map (·.lab.calls θ)).sum

/-- What the calls of a thread have returned, in their order. -/
def returned (tr : List (Trans (Sys n) (Label n))) (θ : Fin n) : List Bool :=
  tr.flatMap (·.lab.returned θ)

variable {tr : List (Trans (Sys n) (Label n))} {S S' : Sys n} {a : Label n} {θ τ : Fin n}

theorem calls_snoc (x : Trans (Sys n) (Label n)) (θ : Fin n) :
    calls (tr ++ [x]) θ = calls tr θ + x.lab.calls θ := by
  simp [calls]

theorem returned_snoc (x : Trans (Sys n) (Label n)) (θ : Fin n) :
    returned (tr ++ [x]) θ = returned tr θ ++ x.lab.returned θ := by
  simp [returned]

/-! ## The invariant -/

/-- How often a thread has been counted, of its calls. -/
def Pc.arrivals (q : Pc) (calls : ℕ) : ℕ :=
  match q with
  | .lock | .enter => calls - 1
  | _ => calls

/-- What the call in progress will return, once it is known. -/
def Pc.result : Pc → List Bool
  | .broadcast => [true]
  | .unlock serial => [serial]
  | _ => []

/-- A thread with `calls` calls, of which `rets` have returned, when `C` cycles
    are over. -/
def Pc.Fits (n C calls rets : ℕ) : Pc → Prop
  | .out => rets = calls ∧ calls = C
  | .lock | .enter => rets + 1 = calls ∧ calls = C + 1
  | .test cur | .waiting cur | .relock cur => rets + 1 = calls ∧ cur = rets % cycleWrap ∧ n ≠ 1
  | .broadcast | .unlock _ => rets + 1 = calls ∧ calls = C

/-- `C` cycles are over, each with one serial thread. -/
structure InvAt (calls : Fin n → ℕ) (rets : Fin n → List Bool) (S : Sys n) (C : ℕ) : Prop where
  counts : S.bar.Counts Finset.univ (fun θ => (S.pc θ).arrivals (calls θ)) C
  fits : ∀ θ, (S.pc θ).Fits n C (calls θ) (rets θ).length
  serial : ∀ k : ℕ, k < C → ∃ θ, (rets θ ++ (S.pc θ).result)[k]? = some true
  unique : ∀ (k : ℕ) θ τ, (rets θ ++ (S.pc θ).result)[k]? = some true →
    (rets τ ++ (S.pc τ).result)[k]? = some true → θ = τ

variable {C : ℕ} {count count' : Fin n → ℕ} {rets rets' : Fin n → List Bool} {q : Pc}

theorem InvAt.init (hn : 1 ≤ n) : InvAt (fun _ => 0) (fun _ => []) (Sys.init n) 0 := by
  have hne : (Finset.univ : Finset (Fin n)).Nonempty := ⟨⟨0, hn⟩, Finset.mem_univ _⟩
  refine ⟨?_, fun _ => ⟨rfl, rfl⟩, nofun, nofun⟩
  have h := CyclicBarrier.Counts.init hne
  rw [Finset.card_univ, Fintype.card_fin] at h
  exact h

namespace InvAt

/-- Every thread has been counted in the cycles that are over. -/
theorem le_arrivals (h : InvAt count rets S C) (θ : Fin n) :
    (S.pc θ).arrivals (count θ) = C ∨ (S.pc θ).arrivals (count θ) = C + 1 :=
  h.counts.near θ (Finset.mem_univ θ)

/-- One thread moves, and the barrier does not change. -/
theorem move (h : InvAt count rets S C) (hbar : S'.bar = S.bar)
    (hpc : S'.pc = Function.update S.pc θ q) (hcalls : ∀ τ ≠ θ, count' τ = count τ)
    (hrets : ∀ τ ≠ θ, rets' τ = rets τ) (harr : q.arrivals (count' θ) = (S.pc θ).arrivals (count θ))
    (hfits : q.Fits n C (count' θ) (rets' θ).length)
    (hres : ∀ k : ℕ, (rets' θ ++ q.result)[k]? = some true ↔
      (rets θ ++ (S.pc θ).result)[k]? = some true) : InvAt count' rets' S' C := by
  have hself : S'.pc θ = q := by rw [hpc, Function.update_self]
  have hne : ∀ τ ≠ θ, S'.pc τ = S.pc τ := by
    intro τ hτ
    rw [hpc, Function.update_of_ne hτ]
  have hres' : ∀ τ (k : ℕ), (rets' τ ++ (S'.pc τ).result)[k]? = some true ↔
      (rets τ ++ (S.pc τ).result)[k]? = some true := by
    intro τ k
    by_cases hτ : τ = θ
    · rw [hτ, hself]
      exact hres k
    · rw [hrets τ hτ, hne τ hτ]
  refine ⟨?_, ?_, ?_, ?_⟩
  · rw [hbar]
    refine h.counts.congr fun τ _ => ?_
    by_cases hτ : τ = θ
    · rw [hτ, hself]
      exact harr
    · rw [hcalls τ hτ, hne τ hτ]
  · intro τ
    by_cases hτ : τ = θ
    · rw [hτ, hself]
      exact hfits
    · rw [hcalls τ hτ, hrets τ hτ, hne τ hτ]
      exact h.fits τ
  · intro k hk
    obtain ⟨τ, hτ⟩ := h.serial k hk
    exact ⟨τ, (hres' τ k).2 hτ⟩
  · intro k τ υ hτ hυ
    exact h.unique k τ υ ((hres' τ k).1 hτ) ((hres' υ k).1 hυ)

/-- `move`, when nothing is called and nothing returns. -/
theorem setPc (h : InvAt count rets S C) (hbar : S'.bar = S.bar)
    (hpc : S'.pc = Function.update S.pc θ q)
    (harr : q.arrivals (count θ) = (S.pc θ).arrivals (count θ))
    (hfits : q.Fits n C (count θ) (rets θ).length)
    (hres : ∀ k : ℕ, (rets θ ++ q.result)[k]? = some true ↔
      (rets θ ++ (S.pc θ).result)[k]? = some true) : InvAt count rets S' C :=
  h.move hbar hpc (fun _ _ => rfl) (fun _ _ => rfl) harr hfits hres

/-- Waking up the waiting threads changes nothing. -/
theorem woken (h : InvAt count rets S C) :
    InvAt count rets { S with pc := fun τ => (S.pc τ).woken } C := by
  have harr : ∀ τ, (S.pc τ).woken.arrivals (count τ) = (S.pc τ).arrivals (count τ) := by
    intro τ
    cases S.pc τ <;> rfl
  have hres : ∀ τ, (S.pc τ).woken.result = (S.pc τ).result := by
    intro τ
    cases S.pc τ <;> rfl
  refine ⟨h.counts.congr fun τ _ => harr τ, ?_, ?_, ?_⟩
  · intro τ
    have hf := h.fits τ
    change (S.pc τ).woken.Fits _ _ _ _
    cases hp : S.pc τ <;> rw [hp] at hf <;> exact hf
  · intro k hk
    obtain ⟨τ, hτ⟩ := h.serial k hk
    exact ⟨τ, by rw [hres τ]; exact hτ⟩
  · intro k τ υ hτ hυ
    simp only [hres] at hτ hυ
    exact h.unique k τ υ hτ hυ

theorem update_arrivals (hq : q.arrivals (count θ) = C + 1) (S : Sys n) (τ : Fin n) :
    (Function.update S.pc θ q τ).arrivals (count τ) =
      Function.update (fun τ => (S.pc τ).arrivals (count τ)) θ (C + 1) τ := by
  by_cases hτ : τ = θ
  · rw [hτ, Function.update_self, Function.update_self, hq]
  · rw [Function.update_of_ne hτ, Function.update_of_ne hτ]

/-- **An arrival that is not the last one of its cycle** -/
theorem arrive (h : InvAt count rets S C) (hp : S.pc θ = .enter) (hl : ¬ S.bar.last) :
    InvAt count rets { S.setPc θ (.test (S.bar.cycle % cycleWrap)) with bar := S.bar.arrive } C := by
  have hf := h.fits θ
  rw [hp] at hf
  obtain ⟨hr, hcalls⟩ := hf
  have ha : (S.pc θ).arrivals (count θ) = C := by
    rw [hp]
    change count θ - 1 = C
    omega
  have hn : n ≠ 1 := by
    have hlt := h.counts.lt
    have ht := h.counts.target
    rw [Finset.card_univ, Fintype.card_fin] at ht
    rw [CyclicBarrier.last] at hl
    omega
  refine ⟨?_, ?_, ?_, ?_⟩
  · refine (h.counts.arrive_wait (Finset.mem_univ θ) ha hl).congr fun τ _ => ?_
    exact update_arrivals (q := .test _) hcalls S τ
  · intro τ
    by_cases hτ : τ = θ
    · rw [hτ]
      change (Function.update S.pc θ _ θ).Fits _ _ _ _
      rw [Function.update_self]
      refine ⟨hr, ?_, hn⟩
      rw [h.counts.cycle]
      congr 1
      omega
    · change (Function.update S.pc θ _ τ).Fits _ _ _ _
      rw [Function.update_of_ne hτ]
      exact h.fits τ
  all_goals
    have hres : ∀ τ, (Function.update S.pc θ (.test (S.bar.cycle % cycleWrap)) τ).result =
        (S.pc τ).result := by
      intro τ
      by_cases hτ : τ = θ
      · rw [hτ, Function.update_self, hp]
        rfl
      · rw [Function.update_of_ne hτ]
  · intro k hk
    obtain ⟨τ, hτ⟩ := h.serial k hk
    exact ⟨τ, by rw [← hres τ] at hτ; exact hτ⟩
  · intro k τ υ hτ hυ
    refine h.unique k τ υ ?_ ?_
    · rw [← hres τ]
      exact hτ
    · rw [← hres υ]
      exact hυ

/-- A thread that waits in the cycle that ends is not concerned by its number. -/
theorem fits_succ (h : InvAt count rets S C) (ha : (S.pc θ).arrivals (count θ) = C + 1) :
    (S.pc θ).Fits n (C + 1) (count θ) (rets θ).length := by
  have hf := h.fits θ
  cases hp : S.pc θ with
  | test _ | waiting _ | relock _ =>
    rw [hp] at hf
    exact hf
  | out | broadcast | unlock _ =>
    rw [hp] at hf ha
    exact absurd (ha.symm.trans hf.2) (Nat.succ_ne_self C)
  | lock | enter =>
    rw [hp] at hf ha
    have hc : count θ - 1 = C + 1 := ha
    have hc' := hf.2
    omega

/-- **The last arrival of a cycle** -/
theorem last (h : InvAt count rets S C) (hp : S.pc θ = .enter) (hl : S.bar.last) :
    InvAt count rets { S.setPc θ .broadcast with bar := S.bar.arrive } (C + 1) := by
  have hf := h.fits θ
  rw [hp] at hf
  obtain ⟨hr, hcalls⟩ := hf
  have ha : (S.pc θ).arrivals (count θ) = C := by
    rw [hp]
    change count θ - 1 = C
    omega
  obtain ⟨hall, hcounts⟩ := h.counts.arrive_last (Finset.mem_univ θ) ha hl
  have hother : ∀ τ ≠ θ, Function.update S.pc θ .broadcast τ = S.pc τ := by
    intro τ hτ
    rw [Function.update_of_ne hτ]
  have hself : Function.update S.pc θ .broadcast θ = .broadcast := Function.update_self ..
  have hlen : (rets θ).length = C := by omega
  refine ⟨?_, ?_, ?_, ?_⟩
  · refine hcounts.congr fun τ _ => ?_
    exact update_arrivals (q := .broadcast) hcalls S τ
  · intro τ
    change (Function.update S.pc θ .broadcast τ).Fits _ _ _ _
    by_cases hτ : τ = θ
    · rw [hτ, hself]
      exact ⟨hr, hcalls⟩
    · rw [hother τ hτ]
      exact h.fits_succ (hall τ (Finset.mem_univ τ) hτ)
  · intro k hk
    by_cases hkC : k = C
    · -- the thread that ends the cycle is its serial thread
      refine ⟨θ, ?_⟩
      change (rets θ ++ (Function.update S.pc θ .broadcast θ).result)[k]? = some true
      rw [hself, hkC, ← hlen]
      exact List.getElem?_concat_length
    · obtain ⟨τ, hτ⟩ := h.serial k (by omega)
      refine ⟨τ, ?_⟩
      change (rets τ ++ (Function.update S.pc θ .broadcast τ).result)[k]? = some true
      by_cases he : τ = θ
      · subst he
        rw [hp] at hτ
        rw [hself, List.getElem?_append_left (by omega)]
        simpa [Pc.result] using hτ
      · rw [hother τ he]
        exact hτ
  · intro k τ υ hτ hυ
    change (rets τ ++ (Function.update S.pc θ .broadcast τ).result)[k]? = some true at hτ
    change (rets υ ++ (Function.update S.pc θ .broadcast υ).result)[k]? = some true at hυ
    have key : ∀ τ, (rets τ ++ (Function.update S.pc θ .broadcast τ).result)[k]? = some true →
        (k = C ∧ τ = θ) ∨ k ≠ C ∧ (rets τ ++ (S.pc τ).result)[k]? = some true := by
      intro τ hτ
      by_cases he : τ = θ
      · subst he
        by_cases hkC : k = C
        · exact .inl ⟨hkC, rfl⟩
        · refine .inr ⟨hkC, ?_⟩
          rw [hself] at hτ
          have hlt := (List.getElem?_eq_some_iff.1 hτ).1
          simp only [Pc.result, List.length_append, List.length_cons, List.length_nil] at hlt
          rw [List.getElem?_append_left (by omega)] at hτ ⊢
          exact hτ
      · rw [hother τ he] at hτ
        refine .inr ⟨?_, hτ⟩
        -- the other threads are still waiting: nothing of this cycle has returned
        rintro rfl
        have hlt := (List.getElem?_eq_some_iff.1 hτ).1
        have hf := h.fits_succ (hall τ (Finset.mem_univ τ) he)
        have hc := hall τ (Finset.mem_univ τ) he
        rw [List.length_append] at hlt
        cases hq : S.pc τ with
        | out | lock | enter =>
          rw [hq] at hf hlt hc
          simp only [Pc.Fits, Pc.result, Pc.arrivals, List.length_nil] at hf hlt hc
          have hold := h.fits τ
          rw [hq] at hold
          simp only [Pc.Fits] at hold
          omega
        | test _ | waiting _ | relock _ =>
          rw [hq] at hf hlt hc
          simp only [Pc.Fits, Pc.result, Pc.arrivals, List.length_nil] at hf hlt hc
          omega
        | broadcast | unlock _ =>
          have hold := h.fits τ
          rw [hq] at hold hc
          simp only [Pc.Fits, Pc.arrivals] at hold hc
          omega
    rcases key τ hτ with ⟨hk, rfl⟩ | ⟨hk, hτ⟩
    · rcases key υ hυ with ⟨-, rfl⟩ | ⟨hk', -⟩
      · rfl
      · exact absurd hk hk'
    · rcases key υ hυ with ⟨hk', -⟩ | ⟨-, hυ⟩
      · exact absurd hk' hk
      · exact h.unique k τ υ hτ hυ

end InvAt

/-- **Every step keeps the invariant**, while a thread that waits has been
    called at most `2^32` times. -/
theorem Step.inv (hs : Step S a S') (h : InvAt count rets S C)
    (hw : n = 1 ∨ ∀ θ, count θ ≤ cycleWrap) :
    ∃ C', InvAt (fun θ => count θ + a.calls θ) (fun θ => rets θ ++ a.returned θ) S' C' := by
  have htau : (fun θ => count θ + (Label.tau : Label n).calls θ) = count := rfl
  have htau' : (fun θ => rets θ ++ (Label.tau : Label n).returned θ) = rets := by
    funext θ
    exact List.append_nil _
  cases hs with
  | @call θ hp =>
    have hf := h.fits θ
    rw [hp] at hf
    have hself : (Label.call θ : Label n).calls θ = 1 := if_pos rfl
    refine ⟨C, h.move rfl rfl ?_ (fun τ _ => List.append_nil _) ?_ ?_ ?_⟩
    · intro τ hτ
      simp only [Label.calls, if_neg (Ne.symm hτ), Nat.add_zero]
    · simp only [hself, hp, Pc.arrivals]
      omega
    · simp only [hself, Label.returned, List.append_nil]
      obtain ⟨hr, hc⟩ := hf
      exact ⟨by omega, by omega⟩
    · intro k
      simp only [Label.returned, List.append_nil, hp, Pc.result]
  | @acquire θ hp _ =>
    rw [htau, htau']
    have hf := h.fits θ
    rw [hp] at hf
    exact ⟨C, h.setPc rfl rfl (by rw [hp]; rfl) hf fun k => by rw [hp]; rfl⟩
  | @last θ hp hl =>
    rw [htau, htau']
    exact ⟨C + 1, h.last hp hl⟩
  | @arrive θ hp hl =>
    rw [htau, htau']
    exact ⟨C, h.arrive hp hl⟩
  | @broadcast θ hp =>
    rw [htau, htau']
    have hf := h.fits θ
    have hp' : ({ S with pc := fun τ => (S.pc τ).woken } : Sys n).pc θ = .broadcast := by
      change (S.pc θ).woken = _
      rw [hp]
      rfl
    rw [hp] at hf
    exact ⟨C, h.woken.setPc rfl rfl (by rw [hp']; rfl) hf fun k => by rw [hp']; rfl⟩
  | @wait θ cur hp _ | @wake θ cur hp | @reacquire θ cur hp _ =>
    rw [htau, htau']
    have hf := h.fits θ
    rw [hp] at hf
    exact ⟨C, h.setPc rfl rfl (by rw [hp]; rfl) hf fun k => by rw [hp]; rfl⟩
  | @pass θ cur hp hc =>
    rw [htau, htau']
    have hf := h.fits θ
    rw [hp] at hf
    obtain ⟨hr, hcur, hn⟩ := hf
    have hcount := (hw.resolve_left hn) θ
    have ha := h.le_arrivals θ
    rw [hp] at ha
    -- the cycle of the thread is over, or `cur_cycle` would be its number
    have hC : count θ = C := by
      refine ha.resolve_right fun hC => hc ?_
      have hC : count θ = C + 1 := hC
      rw [hcur, h.counts.cycle, Nat.mod_eq_of_lt (by omega)]
      omega
    refine ⟨C, h.setPc rfl rfl (by rw [hp]; rfl) ⟨hr, hC⟩ fun k => ?_⟩
    rw [hp]
    simp only [Pc.result, List.append_nil]
    rcases Nat.lt_trichotomy k (rets θ).length with hk | hk | hk
    · rw [List.getElem?_append_left hk]
    · rw [hk, List.getElem?_concat_length, List.getElem?_eq_none le_rfl]
      simp
    · rw [List.getElem?_eq_none (by simp; omega), List.getElem?_eq_none (by omega)]
  | @ret θ serial hp =>
    have hf := h.fits θ
    rw [hp] at hf
    obtain ⟨hr, hC⟩ := hf
    have hself : (Label.ret θ serial : Label n).returned θ = [serial] := if_pos rfl
    refine ⟨C, h.move rfl rfl (fun _ _ => rfl) ?_ ?_ ?_ ?_⟩
    · intro τ hτ
      simp only [Label.returned, if_neg (Ne.symm hτ), List.append_nil]
    · rw [hp]
      rfl
    · simp only [hself, List.length_append, List.length_cons, List.length_nil]
      exact ⟨hr, hC⟩
    · intro k
      simp only [hself, hp, Pc.result, List.append_nil]

/-! ## Every run -/

theorem inv_of_exec (hn : 1 ≤ n) (h : Exec Step (Sys.init n) tr S)
    (hw : n = 1 ∨ ∀ θ, calls tr θ ≤ cycleWrap) : ∃ C, InvAt (calls tr) (returned tr) S C := by
  induction h with
  | nil => exact ⟨0, .init hn⟩
  | @snoc tr T a U _ hs ih =>
    have hle : n = 1 ∨ ∀ θ, calls tr θ ≤ cycleWrap := by
      refine hw.imp_right fun hw θ => ?_
      have hθ := hw θ
      rw [calls_snoc] at hθ
      exact (Nat.le_add_right _ _).trans hθ
    obtain ⟨C, hC⟩ := ih hle
    obtain ⟨C', hC'⟩ := hs.inv hC hle
    refine ⟨C', ?_⟩
    have hcalls : calls (tr ++ [⟨T, a, U⟩]) = fun θ => calls tr θ + a.calls θ := by
      funext θ
      exact calls_snoc _ θ
    have hrets : returned (tr ++ [⟨T, a, U⟩]) = fun θ => returned tr θ ++ a.returned θ := by
      funext θ
      exact returned_snoc _ θ
    rw [hcalls, hrets]
    exact hC'

/-- **The barrier synchronises**: in every run of `n` threads in which nobody
    calls it more than `2^32` times, or of one thread, the `k`-th call of a
    thread returns only after every thread has made its `k`-th call, and of the
    `k`-th calls exactly one returns `BARRIER_SERIAL_THREAD`. -/
theorem barrier_wait_synchronises (hn : 1 ≤ n) (h : Exec Step (Sys.init n) tr S)
    (hw : n = 1 ∨ ∀ θ, calls tr θ ≤ cycleWrap) :
    (∀ θ τ, (returned tr θ).length ≤ calls tr τ) ∧
    (∀ k : ℕ, (∀ θ, k < (returned tr θ).length) → ∃ θ, (returned tr θ)[k]? = some true) ∧
    (∀ (k : ℕ) θ τ, (returned tr θ)[k]? = some true → (returned tr τ)[k]? = some true → θ = τ) := by
  obtain ⟨C, hC⟩ := inv_of_exec hn h hw
  have hle : ∀ θ, (returned tr θ).length ≤ C := by
    intro θ
    have hf := hC.fits θ
    have ha := hC.le_arrivals θ
    cases hp : S.pc θ <;> rw [hp] at hf ha <;> simp only [Pc.Fits, Pc.arrivals] at hf ha <;> omega
  have hcalls : ∀ θ, C ≤ calls tr θ := by
    intro θ
    have hf := hC.fits θ
    have ha := hC.le_arrivals θ
    cases hp : S.pc θ <;> rw [hp] at hf ha <;> simp only [Pc.Fits, Pc.arrivals] at hf ha <;> omega
  refine ⟨fun θ τ => (hle θ).trans (hcalls τ), ?_, ?_⟩
  · intro k hk
    obtain ⟨θ, hθ⟩ := hC.serial k ((hk ⟨0, hn⟩).trans_le (hle _))
    rw [List.getElem?_append_left (hk θ)] at hθ
    exact ⟨θ, hθ⟩
  · intro k θ τ hθ hτ
    refine hC.unique k θ τ ?_ ?_
    · rw [List.getElem?_append_left (List.getElem?_eq_some_iff.1 hθ).1]
      exact hθ
    · rw [List.getElem?_append_left (List.getElem?_eq_some_iff.1 hτ).1]
      exact hτ

/-! ## Two threads, cycle after cycle -/

def pcs (q₀ q₁ : Pc) (θ : Fin 2) : Pc := if θ = 0 then q₀ else q₁

/-- Two threads, and their barrier with its mutex. -/
def two (count cycle : ℕ) (m : Option (Fin 2)) (q₀ q₁ : Pc) : Sys 2 := ⟨⟨2, count, cycle⟩, m, pcs q₀ q₁⟩

variable {k k' c c' : ℕ} {m m' : Option (Fin 2)} {q₀ q₁ : Pc} {b : Label 2}

theorem step_zero
    (h : Step (two k c m q₀ q₁) b ⟨⟨2, k', c'⟩, m', Function.update (pcs q₀ q₁) 0 q⟩) :
    Step (two k c m q₀ q₁) b (two k' c' m' q q₁) := by
  have he : Function.update (pcs q₀ q₁) 0 q = pcs q q₁ := by
    funext θ
    by_cases hθ : θ = 0
    · rw [hθ, Function.update_self]
      rfl
    · rw [Function.update_of_ne hθ, pcs, if_neg hθ, pcs, if_neg hθ]
  rwa [he] at h

theorem step_one
    (h : Step (two k c m q₀ q₁) b ⟨⟨2, k', c'⟩, m', Function.update (pcs q₀ q₁) 1 q⟩) :
    Step (two k c m q₀ q₁) b (two k' c' m' q₀ q) := by
  have he : Function.update (pcs q₀ q₁) 1 q = pcs q₀ q := by
    funext θ
    by_cases hθ : θ = 1
    · rw [hθ, Function.update_self]
      rfl
    · rw [Function.update_of_ne hθ]
      have h0 : θ = 0 := by omega
      rw [h0]
      rfl
  rwa [he] at h

/-- The last of two threads wakes up the other one. -/
theorem step_broadcast {cur : ℕ} :
    Step (two k c m (.waiting cur) .broadcast) .tau (two k c m (.relock cur) (.unlock true)) := by
  have h : Step (two k c m (.waiting cur) .broadcast) .tau ⟨⟨2, k, c⟩, m,
      Function.update (fun τ => (pcs (.waiting cur) .broadcast τ).woken) 1 (.unlock true)⟩ :=
    .broadcast rfl
  have he : Function.update (fun τ => (pcs (.waiting cur) .broadcast τ).woken) 1 (.unlock true) =
      pcs (.relock cur) (.unlock true) := by
    funext θ
    by_cases hθ : θ = 1
    · rw [hθ, Function.update_self]
      rfl
    · rw [Function.update_of_ne hθ]
      have h0 : θ = 0 := by omega
      rw [h0]
      rfl
  rwa [he] at h

/-- Thread 0 comes to the test of its loop. -/
theorem exec_first (c : ℕ) : ∃ tr, Exec Step (two 0 c none .out .out) tr
    (two 1 c (some 0) (.test (c % cycleWrap)) .out) ∧
    (∀ θ, calls tr θ = if θ = 0 then 1 else 0) ∧ ∀ θ, returned tr θ = [] := by
  have h₁ : Step (two 0 c none .out .out) (.call 0) (two 0 c none .lock .out) :=
    step_zero (.call rfl)
  have h₂ : Step (two 0 c none .lock .out) .tau (two 0 c (some 0) .enter .out) :=
    step_zero (.acquire rfl rfl)
  have h₃ : Step (two 0 c (some 0) .enter .out) .tau
      (two 1 c (some 0) (.test (c % cycleWrap)) .out) :=
    step_zero (.arrive rfl (by change ¬ 0 + 1 = 2; decide))
  refine ⟨_, ((Exec.nil.snoc h₁).snoc h₂).snoc h₃, ?_, ?_⟩
  · intro θ
    fin_cases θ <;> rfl
  · intro θ
    fin_cases θ <;> rfl

theorem calls_append (tr tr' : List (Trans (Sys n) (Label n))) (θ : Fin n) :
    calls (tr ++ tr') θ = calls tr θ + calls tr' θ := by
  simp [calls]

theorem returned_append (tr tr' : List (Trans (Sys n) (Label n))) (θ : Fin n) :
    returned (tr ++ tr') θ = returned tr θ ++ returned tr' θ := by
  simp [returned]

/-- One cycle: thread 0 waits, and thread 1 ends the cycle. -/
theorem exec_cycle (hc : c < cycleWrap) : ∃ tr, Exec Step (two 0 c none .out .out) tr
    (two 0 (c + 1) none .out .out) ∧ (∀ θ, calls tr θ = 1) ∧ ∀ θ, (returned tr θ).length = 1 := by
  obtain ⟨tr, hrun, hcalls, hrets⟩ := exec_first c
  have hmod : c % cycleWrap = c := Nat.mod_eq_of_lt hc
  rw [hmod] at hrun
  have h₁ : Step (two 1 c (some 0) (.test c) .out) .tau (two 1 c none (.waiting c) .out) :=
    step_zero (.wait rfl rfl)
  have h₂ : Step (two 1 c none (.waiting c) .out) (.call 1) (two 1 c none (.waiting c) .lock) :=
    step_one (.call rfl)
  have h₃ : Step (two 1 c none (.waiting c) .lock) .tau (two 1 c (some 1) (.waiting c) .enter) :=
    step_one (.acquire rfl rfl)
  have h₄ : Step (two 1 c (some 1) (.waiting c) .enter) .tau
      (two 0 (c + 1) (some 1) (.waiting c) .broadcast) := step_one (.last rfl rfl)
  have h₅ : Step (two 0 (c + 1) (some 1) (.relock c) (.unlock true)) (.ret 1 true)
      (two 0 (c + 1) none (.relock c) .out) := step_one (.ret rfl)
  have h₆ : Step (two 0 (c + 1) none (.relock c) .out) .tau
      (two 0 (c + 1) (some 0) (.test c) .out) := step_zero (.reacquire rfl rfl)
  have h₇ : Step (two 0 (c + 1) (some 0) (.test c) .out) .tau
      (two 0 (c + 1) (some 0) (.unlock false) .out) := step_zero (.pass rfl (Nat.ne_of_lt c.lt_succ_self))
  have h₈ : Step (two 0 (c + 1) (some 0) (.unlock false) .out) (.ret 0 false)
      (two 0 (c + 1) none .out .out) := step_zero (.ret rfl)
  refine ⟨_, ((((((((hrun.snoc h₁).snoc h₂).snoc h₃).snoc h₄).snoc step_broadcast).snoc h₅).snoc
    h₆).snoc h₇).snoc h₈, ?_, ?_⟩
  · intro θ
    simp only [calls_snoc, hcalls]
    fin_cases θ <;> rfl
  · intro θ
    simp only [returned_snoc, hrets]
    fin_cases θ <;> rfl

/-- Cycle after cycle, as long as `cur_cycle` is the number of the cycle. -/
theorem exec_cycles (hc : c ≤ cycleWrap) : ∃ tr, Exec Step (Sys.init 2) tr
    (two 0 c none .out .out) ∧ (∀ θ, calls tr θ = c) ∧ ∀ θ, (returned tr θ).length = c := by
  induction c with
  | zero =>
    have hi : Sys.init 2 = two 0 0 none .out .out := by
      have hp : (fun _ : Fin 2 => Pc.out) = pcs .out .out := by
        funext θ
        exact (ite_self _).symm
      rw [two, ← hp]
      rfl
    exact ⟨[], hi ▸ .nil, fun _ => rfl, fun _ => rfl⟩
  | succ c ih =>
    obtain ⟨tr, hrun, hcalls, hrets⟩ := ih (by omega)
    obtain ⟨tr', hrun', hcalls', hrets'⟩ := exec_cycle (c := c) (by omega)
    refine ⟨tr ++ tr', hrun.append hrun', ?_, ?_⟩
    · intro θ
      rw [calls_append, hcalls, hcalls']
    · intro θ
      rw [returned_append, List.length_append, hrets, hrets']

/-- **After `2^32` cycles a call returns at once**: `cur_cycle` is 0 again and
    `cycle` is not. -/
theorem barrier_wait_returns_early : ∃ (tr : List (Trans (Sys 2) (Label 2))) (S : Sys 2),
    Exec Step (Sys.init 2) tr S ∧ calls tr 1 = 2 ^ 32 ∧ (returned tr 0).length = 2 ^ 32 + 1 := by
  obtain ⟨tr, hrun, hcalls, hrets⟩ := exec_cycles (c := cycleWrap) le_rfl
  obtain ⟨tr', hrun', hcalls', hrets'⟩ := exec_first cycleWrap
  have hmod : cycleWrap % cycleWrap = 0 := Nat.mod_self _
  rw [hmod] at hrun'
  have h₁ : Step (two 1 cycleWrap (some 0) (.test 0) .out) .tau
      (two 1 cycleWrap (some 0) (.unlock false) .out) :=
    step_zero (.pass rfl (by change 0 ≠ 2 ^ 32; decide))
  have h₂ : Step (two 1 cycleWrap (some 0) (.unlock false) .out) (.ret 0 false)
      (two 1 cycleWrap none .out .out) := step_zero (.ret rfl)
  refine ⟨_, _, ((hrun.append hrun').snoc h₁).snoc h₂, ?_, ?_⟩
  · rw [calls_snoc, calls_snoc, calls_append, hcalls, hcalls']
    rfl
  · rw [returned_snoc, returned_snoc, returned_append, hrets']
    simp only [List.length_append, hrets]
    rfl

/-- One cycle of two threads -/
theorem barrier_wait_synchronises_cycle : ∃ (tr : List (Trans (Sys 2) (Label 2))) (S : Sys 2),
    Exec Step (Sys.init 2) tr S ∧ (∀ θ, calls tr θ = 1) ∧
      ∃ θ, (returned tr θ)[0]? = some true := by
  obtain ⟨tr, hrun, hcalls, hrets⟩ := exec_cycles (c := 1) (by decide)
  have hw : ∀ θ, calls tr θ ≤ cycleWrap := by
    intro θ
    rw [hcalls]
    decide
  refine ⟨tr, _, hrun, hcalls, ?_⟩
  refine (barrier_wait_synchronises (by decide) hrun (.inr hw)).2.1 0 ?_
  intro θ
  rw [hrets]
  decide

end EeftSched.BarrierWait

/-
  A reusable barrier: a count of the threads waiting and a cycle number.

  Each thread is seen through the number of its arrivals so far.  While every
  member waits for its cycle to end before it arrives again, no member is more
  than one arrival ahead of another (`Counts`), so

  * the barrier opens with the last arrival and not before
    (`Counts.arrive_last`, `Counts.arrive_wait`);
  * while it is closed some member has not arrived (`Counts.exists_lagging`);
  * a copy of the cycle number that wraps around is as good as the number
    itself while the latter has not reached the wrap (`Counts.cycle_eq_iff`).
-/
import Mathlib.Data.Finset.Card
import Mathlib.Logic.Function.Basic
import Mathlib.Tactic.Common

/-- A barrier for `target` threads. -/
structure CyclicBarrier where
  target : ℕ
  count : ℕ
  cycle : ℕ
deriving DecidableEq, Repr

namespace CyclicBarrier

universe u
variable {Θ : Type u} {wrap C : ℕ} {b : CyclicBarrier} {M : Finset Θ} {arr : Θ → ℕ}

/-- No thread waits, in the first cycle. -/
def init (target : ℕ) : CyclicBarrier := ⟨target, 0, 0⟩

/-- The arrival of a thread completes the cycle. -/
def last (b : CyclicBarrier) : Prop := b.count + 1 = b.target

instance (b : CyclicBarrier) : Decidable b.last := inferInstanceAs (Decidable (_ = _))

/-- A thread arrives. -/
def arrive (b : CyclicBarrier) : CyclicBarrier :=
  if b.last then { b with count := 0, cycle := b.cycle + 1 }
  else { b with count := b.count + 1 }

theorem cycle_le_arrive (b : CyclicBarrier) : b.cycle ≤ b.arrive.cycle := by
  unfold arrive
  split_ifs
  · exact Nat.le_succ _
  · exact le_rfl

/-- The members `M` have completed `C` cycles, and those counted wait in the
    next one. -/
structure Counts (b : CyclicBarrier) (M : Finset Θ) (arr : Θ → ℕ) (C : ℕ) : Prop where
  target : b.target = M.card
  cycle : b.cycle = C
  near : ∀ θ ∈ M, arr θ = C ∨ arr θ = C + 1
  count : b.count = (M.filter fun θ => arr θ = C + 1).card
  lt : b.count < b.target

theorem Counts.init (h : M.Nonempty) : Counts (init M.card) M (fun _ => 0) 0 where
  target := rfl
  cycle := rfl
  near _ _ := Or.inl rfl
  count := by simp [CyclicBarrier.init]
  lt := h.card_pos

/-- Only the arrivals of members matter. -/
theorem Counts.congr {arr' : Θ → ℕ} (h : Counts b M arr C) (he : ∀ θ ∈ M, arr' θ = arr θ) :
    Counts b M arr' C where
  target := h.target
  cycle := h.cycle
  near θ hθ := by rw [he θ hθ]; exact h.near θ hθ
  count := by
    rw [h.count]
    exact congrArg _ (Finset.filter_congr fun θ hθ => by rw [he θ hθ])
  lt := h.lt

/-- While the barrier is closed, some member is still to arrive. -/
theorem Counts.exists_lagging (h : Counts b M arr C) : ∃ θ ∈ M, arr θ = C := by
  by_contra hn
  push Not at hn
  have hall : M.filter (fun θ => arr θ = C + 1) = M :=
    Finset.filter_true_of_mem fun θ hθ => (h.near θ hθ).resolve_left (hn θ hθ)
  have hlt := h.lt
  rw [h.count, hall, h.target] at hlt
  exact lt_irrefl _ hlt

section
variable [DecidableEq Θ]

/-- One more member waits when `θ` arrives. -/
theorem Counts.filter_update (h : Counts b M arr C) {θ : Θ} (hθ : θ ∈ M) (ha : arr θ = C) :
    (M.filter fun t => Function.update arr θ (C + 1) t = C + 1).card = b.count + 1 := by
  have hset : (M.filter fun t => Function.update arr θ (C + 1) t = C + 1) =
      insert θ (M.filter fun t => arr t = C + 1) := by
    ext t
    by_cases ht : t = θ
    · subst ht; simp [hθ]
    · simp [ht]
  rw [hset, Finset.card_insert_of_notMem (by simp [ha]), h.count]

/-- An arrival that is not the last one waits. -/
theorem Counts.arrive_wait (h : Counts b M arr C) {θ : Θ} (hθ : θ ∈ M) (ha : arr θ = C)
    (hl : ¬ b.last) : Counts b.arrive M (Function.update arr θ (C + 1)) C := by
  have hlt := h.lt
  have hb : b.arrive = { b with count := b.count + 1 } := by simp [arrive, hl]
  rw [hb]
  refine ⟨h.target, h.cycle, fun t ht => ?_, (h.filter_update hθ ha).symm, ?_⟩
  · by_cases he : t = θ
    · subst he; simp
    · simpa [he] using h.near t ht
  · rw [last] at hl; show b.count + 1 < b.target; omega

/-- The last arrival finds all the others waiting and starts the next cycle. -/
theorem Counts.arrive_last (h : Counts b M arr C) {θ : Θ} (hθ : θ ∈ M) (ha : arr θ = C)
    (hl : b.last) :
    (∀ t ∈ M, t ≠ θ → arr t = C + 1) ∧
      Counts b.arrive M (Function.update arr θ (C + 1)) (C + 1) := by
  have hcard := h.filter_update hθ ha
  have hall : ∀ t ∈ M, Function.update arr θ (C + 1) t = C + 1 := by
    have hM : M.filter (fun t => Function.update arr θ (C + 1) t = C + 1) = M := by
      refine Finset.eq_of_subset_of_card_le (Finset.filter_subset _ _) ?_
      rw [hcard, ← h.target]; exact hl.ge
    intro t ht
    rw [← hM] at ht
    exact (Finset.mem_filter.1 ht).2
  refine ⟨fun t ht hne => by simpa [hne] using hall t ht, ?_⟩
  have hb : b.arrive = { b with count := 0, cycle := b.cycle + 1 } := by
    simp [arrive, hl]
  rw [hb]
  refine ⟨h.target, ?_, fun t ht => Or.inl (hall t ht), ?_, ?_⟩
  · show b.cycle + 1 = C + 1
    rw [h.cycle]
  · refine (Finset.card_eq_zero.2 (Finset.filter_eq_empty_iff.2 fun t ht => ?_)).symm
    rw [hall t ht]; omega
  · exact h.lt.trans_le' (Nat.zero_le _)

end

/-- The test of a waiting thread: its copy of the cycle number differs from the
    current one exactly when its cycle is over, before the wrap. -/
theorem Counts.cycle_eq_iff (h : Counts b M arr C) (hw : C < wrap) {c : ℕ} (hc : c = C ∨ c + 1 = C) :
    c % wrap = b.cycle ↔ c = C := by
  rw [h.cycle, Nat.mod_eq_of_lt (by omega)]

end CyclicBarrier

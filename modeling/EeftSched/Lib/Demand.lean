/-
  The demand of periodic work, and how far it has to be tested.

  A task that needs `C` in every `T`, each time within `D`, has to get
  `stepDemand C T D l` in an interval of length `l`.

  * `stepDemand_add_mul`: it repeats itself;
  * `stepDemand_le`: a line bounds it;
  * `exists_early_violation`, `lt_of_violation`: a demand that exceeds the length
    of some interval exceeds that of a short one.
-/
import Mathlib.Data.Rat.Floor
import Mathlib.Algebra.Order.Ring.Rat
import Mathlib.Algebra.Order.Field.Basic
import Mathlib.Tactic.Linarith
import Mathlib.Tactic.FieldSimp
import Mathlib.Tactic.Ring

namespace Demand

def stepDemand (C T D l : ℤ) : ℤ := ((l - D).fdiv T + 1) * C

variable {C T D l : ℤ}

theorem stepDemand_add_mul (hT : 0 < T) (C D l k : ℤ) :
    stepDemand C T D (l + k * T) = stepDemand C T D l + k * C := by
  unfold stepDemand
  rw [show l + k * T - D = l - D + k * T by ring, Int.add_mul_fdiv_right _ _ hT.ne']
  ring

theorem stepDemand_nonneg (hC : 0 ≤ C) (hT : 0 < T) (hD : D ≤ T) (hl : 0 ≤ l) : 0 ≤ stepDemand C T D l := by
  refine mul_nonneg ?_ hC
  have hdiv : -1 ≤ (l - D) / T := Int.le_ediv_of_mul_le hT (by omega)
  rw [Int.fdiv_eq_ediv_of_nonneg _ hT.le]
  omega

/-- The demand after the first deadline is that of one period at least. -/
theorem le_stepDemand (hC : 0 ≤ C) (hT : 0 < T) (hl : D ≤ l) : C ≤ stepDemand C T D l := by
  refine le_mul_of_one_le_left hC ?_
  have hdiv : 0 ≤ (l - D) / T := Int.ediv_nonneg (by omega) hT.le
  rw [Int.fdiv_eq_ediv_of_nonneg _ hT.le]
  omega

theorem stepDemand_le (hC : 0 ≤ C) (hT : 0 < T) (D l : ℤ) :
    (stepDemand C T D l : ℚ) ≤ C / T * (l + (T - D)) := by
  have hTq : (0 : ℚ) < T := Int.cast_pos.2 hT
  have hdiv : (((l - D) / T : ℤ) : ℚ) * T ≤ l - D := by
    exact_mod_cast Int.ediv_mul_le (l - D) hT.ne'
  have hstep : ((((l - D) / T : ℤ) : ℚ) + 1) * C * T ≤ C * (l + (T - D)) := by
    have hCq : (0 : ℚ) ≤ C := Int.cast_nonneg hC
    nlinarith
  unfold stepDemand
  rw [Int.fdiv_eq_ediv_of_nonneg _ hT.le, div_mul_eq_mul_div, le_div_iff₀ hTq]
  exact_mod_cast hstep

/-! ## Violations -/

variable {f : ℤ → ℤ} {H g : ℤ}

/-- With a demand that grows by at most `H` in every `H`, a violation can be
    moved down below `H`. -/
theorem exists_early_violation (hH : 0 < H) (hf : ∀ l, 0 ≤ l → f (l + H) = f l + g) (hg : g ≤ H)
    (hl : 0 ≤ l) (hv : l < f l) : ∃ l', 0 ≤ l' ∧ l' < H ∧ l' < f l' := by
  have hperiods : ∀ k : ℕ, ∀ r, 0 ≤ r → f (r + k * H) = f r + k * g := by
    intro k
    induction k with
    | zero => simp
    | succ k ih =>
      intro r hr
      have hk : 0 ≤ r + k * H := by positivity
      rw [Nat.cast_succ, add_one_mul, ← add_assoc, hf _ hk, ih r hr]
      ring
  have hr := Int.emod_nonneg l hH.ne'
  obtain ⟨k, hk⟩ := Int.eq_ofNat_of_zero_le (Int.ediv_nonneg hl hH.le)
  have hsplit : l % H + k * H = l := by
    rw [← hk, mul_comm]
    exact Int.emod_add_mul_ediv l H
  have hgrow : (k : ℤ) * g ≤ k * H := mul_le_mul_of_nonneg_left hg (Int.natCast_nonneg k)
  have hlong := hperiods k (l % H) hr
  rw [hsplit] at hlong
  exact ⟨l % H, hr, Int.emod_lt_of_pos l hH, by omega⟩

/-- Below the line of slope `U < 1`, a violation is short. -/
theorem lt_of_violation {U K : ℚ} (hU : U < 1) (hf : (f l : ℚ) ≤ U * l + U * K) (hv : l < f l) :
    (l : ℚ) < U / (1 - U) * K := by
  have hpos : 0 < 1 - U := by linarith
  have hvq : (l : ℚ) < f l := Int.cast_lt.2 hv
  rw [div_mul_eq_mul_div, lt_div_iff₀ hpos]
  linarith

end Demand

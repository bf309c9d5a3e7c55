/-
  Rounding of rationals to single precision floats (binary32), to the nearest
  and halves to even.

  The values of the floats are rationals; infinities and the sign of zero are
  left out, so that the results are those of the format below `2 ^ 128`.

  * `ulp`: the spacing of the floats around a rational;
  * `round_natCast`: the integers up to `2 ^ 24` are floats;
  * `round_le_natCast`: so they bound what is rounded.
-/
import EeftSched.Lib.Rounding
import Mathlib.Data.Int.Log
import Mathlib.Tactic.Ring

namespace Binary32

open Rounding

/-- The spacing of the floats around `q`: 24 significant bits, and no less than
    that of the subnormal ones -/
def ulp (q : ℚ) : ℚ := 2 ^ max (Int.log 2 |q| - 23) (-149)

/-- The float nearest to `q` -/
def round (q : ℚ) : ℚ := roundHalfEven (q / ulp q) * ulp q

theorem ulp_pos (q : ℚ) : 0 < ulp q := zpow_pos two_pos _

/-- A multiple of the spacing is a float. -/
theorem round_eq_self {q : ℚ} {k : ℤ} (h : q = k * ulp q) : round q = q := by
  have hdiv : q / ulp q = k := (div_eq_iff (ulp_pos q).ne').2 h
  rw [round, hdiv, roundHalfEven_intCast]
  exact h.symm

theorem ulp_natCast {n : ℕ} : ulp (n : ℚ) = 2 ^ ((Nat.log 2 n : ℤ) - 23) := by
  have hmax : max ((Nat.log 2 n : ℤ) - 23) (-149) = (Nat.log 2 n : ℤ) - 23 := max_eq_left (by omega)
  rw [ulp, Nat.abs_cast, Int.log_natCast, hmax]

/-- **The integers up to `2 ^ 24` are floats.** -/
theorem round_natCast {n : ℕ} (h : n ≤ 2 ^ 24) : round (n : ℚ) = n := by
  rcases h.eq_or_lt with rfl | hlt
  · -- one more bit, which is zero
    refine round_eq_self (k := 2 ^ 23) ?_
    rw [ulp_natCast, Nat.log_pow Nat.one_lt_two]
    norm_num
  · have hlog : Nat.log 2 n < 24 := Nat.log_lt_of_lt_pow' (by decide) hlt
    refine round_eq_self (k := n * 2 ^ (23 - Nat.log 2 n)) ?_
    have hexp : (Nat.log 2 n : ℤ) - 23 = -((23 - Nat.log 2 n : ℕ) : ℤ) := by omega
    rw [ulp_natCast, hexp, zpow_neg, zpow_natCast]
    push_cast
    rw [mul_assoc, mul_inv_cancel₀ (pow_ne_zero _ two_ne_zero), mul_one]

theorem exists_natCast_eq_mul_ulp {q : ℚ} (h : Int.log 2 |q| ≤ 23) (n : ℕ) : ∃ k : ℤ, (n : ℚ) = k * ulp q := by
  have hexp : max (Int.log 2 |q| - 23) (-149) ≤ 0 := max_le (by omega) (by norm_num)
  obtain ⟨e, he⟩ := Int.eq_ofNat_of_zero_le (neg_nonneg.2 hexp)
  refine ⟨n * 2 ^ e, ?_⟩
  have hulp : ulp q = (2 ^ e)⁻¹ := by
    rw [ulp, ← neg_neg (max _ _), he, zpow_neg, zpow_natCast]
  rw [hulp]
  push_cast
  rw [mul_assoc, mul_inv_cancel₀ (pow_ne_zero _ two_ne_zero), mul_one]

/-- What is at most such an integer is rounded to at most the integer. -/
theorem round_le_natCast {q : ℚ} {n : ℕ} (h : q ≤ n) (hn : n ≤ 2 ^ 24) : round q ≤ n := by
  have hpos := ulp_pos q
  rcases le_or_gt q 0 with hq | hq
  · have hdiv : q / ulp q ≤ (0 : ℤ) := by
      rw [Int.cast_zero]
      exact div_nonpos_of_nonpos_of_nonneg hq hpos.le
    have hround : (roundHalfEven (q / ulp q) : ℚ) ≤ 0 := by exact_mod_cast roundHalfEven_le hdiv
    exact (mul_nonpos_of_nonpos_of_nonneg hround hpos.le).trans (Nat.cast_nonneg n)
  by_cases hlog : Int.log 2 |q| ≤ 23
  · obtain ⟨k, hk⟩ := exists_natCast_eq_mul_ulp hlog n
    have hdiv : q / ulp q ≤ k := (div_le_iff₀ hpos).2 (h.trans_eq hk)
    have hround : (roundHalfEven (q / ulp q) : ℚ) ≤ k := by exact_mod_cast roundHalfEven_le hdiv
    rw [hk]
    exact mul_le_mul_of_nonneg_right hround hpos.le
  · -- only `2 ^ 24` itself is left
    have hlow : (2 : ℚ) ^ (24 : ℤ) ≤ q := by
      have hself := Int.zpow_log_le_self Nat.one_lt_two (abs_pos.2 hq.ne')
      rw [abs_of_pos hq] at hself hlog
      exact (zpow_le_zpow_right₀ one_le_two (by omega)).trans hself
    have hhigh : (n : ℚ) ≤ 2 ^ (24 : ℤ) := by exact_mod_cast hn
    obtain rfl : q = n := h.antisymm (hhigh.trans hlow)
    exact (round_natCast hn).le

/-- The next integer is none. -/
example : round 16777217 = 16777216 := by decide +kernel

end Binary32

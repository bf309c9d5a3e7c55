/-
  Rounding of rationals to integers, halves to even.

  * `roundHalfEven_le`, `le_roundHalfEven`: integer bounds are kept.
-/
import Mathlib.Data.Rat.Floor
import Mathlib.Algebra.Order.Ring.Rat
import Mathlib.Tactic.Linarith

namespace Rounding

/-- The nearest integer; halves go to the even neighbour. -/
def roundHalfEven (q : ℚ) : ℤ :=
  if q - ⌊q⌋ < 1 / 2 then ⌊q⌋
  else if 1 / 2 < q - ⌊q⌋ then ⌊q⌋ + 1
  else if ⌊q⌋ % 2 = 0 then ⌊q⌋
  else ⌊q⌋ + 1

variable {q : ℚ} {k : ℤ}

/-- What is below the middle above an integer is rounded to at most the integer. -/
theorem roundHalfEven_le_of_lt (h : q < k + 1 / 2) : roundHalfEven q ≤ k := by
  have hfloor : ⌊q⌋ ≤ k := Int.floor_le_iff.2 (by linarith)
  by_cases heq : ⌊q⌋ = k
  · have hq : q - ⌊q⌋ < 1 / 2 := by
      rw [heq]
      linarith
    rw [roundHalfEven, if_pos hq, heq]
  · unfold roundHalfEven
    split_ifs <;> omega

theorem le_roundHalfEven_of_lt (h : k - 1 / 2 < q) : k ≤ roundHalfEven q := by
  have hfloor : k - 1 ≤ ⌊q⌋ := Int.le_floor.2 (by push_cast; linarith)
  by_cases heq : ⌊q⌋ = k - 1
  · have hq : 1 / 2 < q - ⌊q⌋ := by
      rw [heq]
      push_cast
      linarith
    rw [roundHalfEven, if_neg hq.not_gt, if_pos hq]
    omega
  · unfold roundHalfEven
    split_ifs <;> omega

theorem roundHalfEven_le (h : q ≤ k) : roundHalfEven q ≤ k := roundHalfEven_le_of_lt (by linarith)

theorem le_roundHalfEven (h : k ≤ q) : k ≤ roundHalfEven q := le_roundHalfEven_of_lt (by linarith)

/-- An integer stays. -/
theorem roundHalfEven_intCast (k : ℤ) : roundHalfEven (k : ℚ) = k :=
  le_antisymm (roundHalfEven_le le_rfl) (le_roundHalfEven le_rfl)

end Rounding

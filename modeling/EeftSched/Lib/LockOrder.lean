/-
  Locks that are taken in ascending order.

  Who holds a lock and wants another one wants a greater one.  Then not
  everybody who holds a lock waits for another holder: follow the holders from
  one wanted lock to the next, which is greater each time.
-/
import Mathlib.Order.WellFounded
import Mathlib.Order.Defs.LinearOrder

namespace LockOrder

universe u v
variable {ι : Type u} {κ : Type v} {holds : ι → κ → Prop} {wants : ι → Option κ}

/-- `i` wants a lock that another one holds. -/
def Waits (holds : ι → κ → Prop) (wants : ι → Option κ) (i : ι) : Prop :=
  ∃ l, wants i = some l ∧ ∃ j, j ≠ i ∧ holds j l

/-- Each lock has one holder, and a holder wants none below its own. -/
structure Ascending [LinearOrder κ] (holds : ι → κ → Prop) (wants : ι → Option κ) : Prop where
  exclusive : ∀ i j l, holds i l → holds j l → i = j
  order : ∀ i l l', holds i l → wants i = some l' → l ≤ l'

/-- **Somebody who holds a lock does not wait**, if anybody waits. -/
theorem Ascending.exists_holder [LinearOrder κ] [WellFoundedGT κ] (h : Ascending holds wants) {i : ι}
    (hi : Waits holds wants i) : ∃ j l, holds j l ∧ ¬ Waits holds wants j := by
  obtain ⟨l, hl, j, -, hj⟩ := hi
  clear hl
  induction l using WellFoundedGT.induction generalizing j with
  | ind l ih =>
    by_cases hw : Waits holds wants j
    · obtain ⟨l', hl', k, hk, hk'⟩ := hw
      have hne : l ≠ l' := by
        rintro rfl
        exact hk (h.exclusive k j l hk' hj)
      exact ih l' (lt_of_le_of_ne (h.order j l l' hj hl') hne) k hk'
    · exact ⟨j, l, hj, hw⟩

end LockOrder

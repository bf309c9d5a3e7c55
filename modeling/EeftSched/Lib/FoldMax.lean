/-
  The greatest and the least of a list that is not empty, by a fold.
-/
import Mathlib.Order.Lattice
import Mathlib.Order.Defs.LinearOrder

namespace FoldMax

universe u
variable {α : Type u} [LinearOrder α]

theorem le_foldl_max (a : α) (l : List α) {x : α} (hx : x ∈ a :: l) : x ≤ l.foldl max a := by
  induction l generalizing a x with
  | nil => exact (List.mem_singleton.1 hx).le
  | cons b l ih =>
    have hfirst := ih (max a b) List.mem_cons_self
    rw [List.foldl_cons]
    rcases List.mem_cons.1 hx with rfl | hx
    · exact (le_max_left _ _).trans hfirst
    · rcases List.mem_cons.1 hx with rfl | hx
      · exact (le_max_right _ _).trans hfirst
      · exact ih _ (List.mem_cons_of_mem _ hx)

theorem foldl_max_mem (a : α) (l : List α) : l.foldl max a ∈ a :: l := by
  induction l generalizing a with
  | nil => exact List.mem_singleton_self a
  | cons b l ih =>
    rw [List.foldl_cons]
    rcases List.mem_cons.1 (ih (max a b)) with heq | hmem
    · rw [heq]
      rcases le_total a b with h | h
      · rw [max_eq_right h]
        exact List.mem_cons_of_mem _ List.mem_cons_self
      · rw [max_eq_left h]
        exact List.mem_cons_self
    · exact List.mem_cons_of_mem _ (List.mem_cons_of_mem _ hmem)

/-- The order does not matter. -/
theorem foldl_max_perm {a b : α} {l l' : List α} (h : (a :: l).Perm (b :: l')) :
    l.foldl max a = l'.foldl max b :=
  le_antisymm (le_foldl_max b l' (h.subset (foldl_max_mem a l)))
    (le_foldl_max a l (h.symm.subset (foldl_max_mem b l')))

theorem foldl_min_le (a : α) (l : List α) {x : α} (hx : x ∈ a :: l) : l.foldl min a ≤ x := by
  induction l generalizing a x with
  | nil => exact (List.mem_singleton.1 hx).ge
  | cons b l ih =>
    have hfirst := ih (min a b) List.mem_cons_self
    rw [List.foldl_cons]
    rcases List.mem_cons.1 hx with rfl | hx
    · exact hfirst.trans (min_le_left _ _)
    · rcases List.mem_cons.1 hx with rfl | hx
      · exact hfirst.trans (min_le_right _ _)
      · exact ih _ (List.mem_cons_of_mem _ hx)

end FoldMax

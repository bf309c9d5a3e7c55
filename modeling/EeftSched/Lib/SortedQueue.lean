/-
  Queues kept in the order of a key.

  `insertBy key` puts an element before the first one of a larger key, so that
  elements of equal key stay in the order of their insertion.  `SortedBy key`
  is kept by inserting, by removing and by rebuilding.

  A sorted list is known by its elements of each key, in their order
  (`SortedBy.ext`); this makes a queue the stable sort of what was inserted
  (`eq_mergeSort`).
-/
import Mathlib.Data.List.Sort
import Mathlib.Data.Multiset.Basic

namespace SortedQueue

universe u
variable {α : Type u} {key key' : α → ℕ} {x y : α} {l : List α}

/-- Insert before the first element of a larger key. -/
def insertBy (key : α → ℕ) (x : α) (l : List α) : List α :=
  l.orderedInsert (fun a b => key a < key b) x

/-- The keys do not decrease. -/
def SortedBy (key : α → ℕ) (l : List α) : Prop := l.Pairwise fun a b => key a ≤ key b

@[simp] theorem insertBy_nil : insertBy key x [] = [x] := rfl

theorem insertBy_perm (key : α → ℕ) (x : α) (l : List α) : (insertBy key x l).Perm (x :: l) :=
  List.perm_orderedInsert _ x l

@[simp] theorem mem_insertBy : y ∈ insertBy key x l ↔ y = x ∨ y ∈ l := List.mem_orderedInsert _

@[simp] theorem length_insertBy : (insertBy key x l).length = l.length + 1 :=
  List.orderedInsert_length _ l x

theorem coe_insertBy (key : α → ℕ) (x : α) (l : List α) :
    (insertBy key x l : Multiset α) = x ::ₘ (l : Multiset α) :=
  Multiset.coe_eq_coe.2 (insertBy_perm key x l)

@[simp] theorem SortedBy.nil : SortedBy key ([] : List α) := List.Pairwise.nil

theorem SortedBy.insertBy (h : SortedBy key l) : SortedBy key (insertBy key x l) := by
  induction l with
  | nil => exact List.pairwise_singleton _ _
  | cons y l ih =>
    obtain ⟨hy, hl⟩ := List.pairwise_cons.1 h
    by_cases hxy : key x < key y
    · have he : SortedQueue.insertBy key x (y :: l) = x :: y :: l :=
        List.orderedInsert_cons_of_le _ l hxy
      rw [he]
      refine List.pairwise_cons.2 ⟨?_, h⟩
      intro z hz
      rcases List.mem_cons.1 hz with rfl | hz
      · exact hxy.le
      · exact hxy.le.trans (hy z hz)
    · have he : SortedQueue.insertBy key x (y :: l) = y :: SortedQueue.insertBy key x l :=
        List.orderedInsert_of_not_le _ l hxy
      rw [he]
      refine List.pairwise_cons.2 ⟨?_, ih hl⟩
      intro z hz
      rcases mem_insertBy.1 hz with rfl | hz
      · exact not_lt.1 hxy
      · exact hy z hz

theorem SortedBy.sublist {l' : List α} (h : SortedBy key l) (hs : l'.Sublist l) : SortedBy key l' :=
  List.Pairwise.sublist hs h

/-- Keys may change as long as those in the queue do not. -/
theorem SortedBy.congr (h : SortedBy key l) (hk : ∀ x ∈ l, key' x = key x) : SortedBy key' l :=
  List.Pairwise.imp_of_mem (fun ha hb hab => by rw [hk _ ha, hk _ hb]; exact hab) h

/-- The head has the least key. -/
theorem SortedBy.head_le (h : SortedBy key (x :: l)) : ∀ y ∈ x :: l, key x ≤ key y := by
  intro y hy
  rcases List.mem_cons.1 hy with rfl | hy
  · exact le_rfl
  · exact (List.pairwise_cons.1 h).1 y hy

/-! ## Stability -/

section
variable {l' : List α} {k : ℕ}

theorem mem_iff_of_filter_eq (hf : ∀ k, l.filter (key · = k) = l'.filter (key · = k)) :
    x ∈ l ↔ x ∈ l' := by
  have hmem : ∀ m : List α, x ∈ m ↔ x ∈ m.filter (key · = key x) := fun m => by simp
  rw [hmem l, hmem l', hf]

/-- Two sorted lists with the same elements of each key, in the same order -/
theorem SortedBy.ext (h : SortedBy key l) (h' : SortedBy key l')
    (hf : ∀ k, l.filter (key · = k) = l'.filter (key · = k)) : l = l' := by
  induction l generalizing l' with
  | nil =>
    refine (List.eq_nil_iff_forall_not_mem.2 fun x hx => ?_).symm
    exact List.not_mem_nil ((mem_iff_of_filter_eq hf).2 hx)
  | cons a l ih =>
    cases l' with
    | nil => exact absurd ((mem_iff_of_filter_eq hf).1 List.mem_cons_self) List.not_mem_nil
    | cons b l' =>
      have hab : key b = key a :=
        le_antisymm (h'.head_le a ((mem_iff_of_filter_eq hf).1 List.mem_cons_self))
          (h.head_le b ((mem_iff_of_filter_eq hf).2 List.mem_cons_self))
      have hhead := hf (key a)
      rw [List.filter_cons_of_pos (by simp), List.filter_cons_of_pos (by simp [hab])] at hhead
      obtain ⟨rfl, htail⟩ := List.cons.inj hhead
      refine congrArg (a :: ·) (ih (List.pairwise_cons.1 h).2 (List.pairwise_cons.1 h').2 fun k => ?_)
      by_cases hk : key a = k
      · exact hk ▸ htail
      · have hrest := hf k
        rwa [List.filter_cons_of_neg (by simpa using hk), List.filter_cons_of_neg (by simpa using hk)]
          at hrest

/-- What is inserted comes last among the elements of its key. -/
theorem SortedBy.filter_insertBy (h : SortedBy key l) (x : α) (k : ℕ) :
    (SortedQueue.insertBy key x l).filter (key · = k) =
      l.filter (key · = k) ++ [x].filter (key · = k) := by
  induction l with
  | nil => simp
  | cons a l ih =>
    obtain ⟨ha, hl⟩ := List.pairwise_cons.1 h
    by_cases hxa : key x < key a
    · have he : SortedQueue.insertBy key x (a :: l) = x :: a :: l :=
        List.orderedInsert_cons_of_le _ l hxa
      rw [he]
      by_cases hk : key x = k
      · -- all elements of the list have larger keys
        have hnone : (a :: l).filter (key · = k) = [] := by
          refine List.filter_eq_nil_iff.2 fun y hy => ?_
          have := h.head_le y hy
          simp only [decide_eq_true_eq]
          omega
        rw [List.filter_cons_of_pos (by simpa using hk), hnone, List.filter_cons_of_pos (by simpa using hk)]
        rfl
      · simp [List.filter_cons, hk]
    · have he : SortedQueue.insertBy key x (a :: l) = a :: SortedQueue.insertBy key x l :=
        List.orderedInsert_of_not_le _ l hxa
      rw [he, List.filter_cons, List.filter_cons, ih hl]
      split_ifs
      · rfl
      · rfl

theorem sortedBy_mergeSort (key : α → ℕ) (l : List α) : SortedBy key (l.mergeSort (key · ≤ key ·)) := by
  have h : (l.mergeSort (key · ≤ key ·)).Pairwise fun a b => decide (key a ≤ key b) = true :=
    List.pairwise_mergeSort (fun a b c => by simpa using le_trans)
      (fun a b => by simpa using le_total _ _) l
  exact h.imp of_decide_eq_true

theorem filter_mergeSort (key : α → ℕ) (l : List α) (k : ℕ) :
    (l.mergeSort (key · ≤ key ·)).filter (key · = k) = l.filter (key · = k) := by
  have hsub : (l.filter (key · = k)).Sublist (l.mergeSort (key · ≤ key ·)) := by
    refine List.sublist_mergeSort (fun a b c => by simpa using le_trans)
      (fun a b => by simpa using le_total _ _) ?_ List.filter_sublist
    refine List.pairwise_of_forall_mem_list fun a ha b hb => ?_
    simp only [List.mem_filter, decide_eq_true_eq] at ha hb ⊢
    omega
  have hfilter := hsub.filter (key · = k)
  simp only [List.filter_filter, Bool.and_self] at hfilter
  exact (hfilter.eq_of_length ((List.mergeSort_perm l _).filter _).length_eq.symm).symm

/-- **A sorted list is the stable sort** of any list with the same elements of
    each key, in the same order. -/
theorem SortedBy.eq_mergeSort (h : SortedBy key l)
    (hf : ∀ k, l.filter (key · = k) = l'.filter (key · = k)) :
    l = l'.mergeSort (key · ≤ key ·) :=
  h.ext (sortedBy_mergeSort key l') fun k => (hf k).trans (filter_mergeSort key l' k).symm

end

end SortedQueue

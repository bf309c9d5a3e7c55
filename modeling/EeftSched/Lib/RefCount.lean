/-
  Reference-counted objects drawn from a pool.

  An object is free, or it is held in places and wanted by requests, and its
  count is the number of both.  The operations move an object between places
  (which changes nothing here), take and drop references, and turn a reference
  of one kind into one of the other.

  * `Balanced`: an object has at most one place, its count is right and
    positive, and a free object has neither place nor request;
  * `Step.balanced`: every operation keeps it.
-/
import Mathlib.Data.Multiset.AddSub
import Mathlib.Data.Multiset.Count
import Mathlib.Algebra.Order.Ring.Int

universe u

/-- The places and requests of objects `J`, by object, and their counts. -/
structure RefPool (J : Type u) where
  held : Multiset J
  reqs : Multiset J
  free : Multiset J
  ref : J → ℤ

namespace RefPool

variable {J : Type u} [DecidableEq J] {P P' : RefPool J}

/-- One operation on references. -/
inductive Step (P P' : RefPool J) : Prop
  | keep (hh : P'.held = P.held) (hr : P'.reqs = P.reqs) (hf : P'.free = P.free)
      (hn : P'.ref = P.ref)
  /-- an object is taken from the pool, with one place -/
  | create (j : J) (hf : P.free = j ::ₘ P'.free) (hh : P'.held = j ::ₘ P.held)
      (hr : P'.reqs = P.reqs) (hn : P'.ref = Function.update P.ref j 1)
  /-- a request takes a reference to an object in a place -/
  | get (j : J) (hj : j ∈ P.held) (hh : P'.held = P.held) (hr : P'.reqs = j ::ₘ P.reqs)
      (hf : P'.free = P.free) (hn : P'.ref = Function.update P.ref j (P.ref j + 1))
  /-- a place hands its reference to a request -/
  | send (j : J) (hh : P.held = j ::ₘ P'.held) (hr : P'.reqs = j ::ₘ P.reqs)
      (hf : P'.free = P.free) (hn : P'.ref = P.ref)
  /-- a request hands its reference to a place -/
  | accept (j : J) (hj : j ∉ P.held) (hh : P'.held = j ::ₘ P.held) (hr : P.reqs = j ::ₘ P'.reqs)
      (hf : P'.free = P.free) (hn : P'.ref = P.ref)
  /-- a place drops its reference, the last one frees the object -/
  | dropHeld (j : J) (hh : P.held = j ::ₘ P'.held) (hr : P'.reqs = P.reqs)
      (hf : P'.free = if P.ref j = 1 then j ::ₘ P.free else P.free)
      (hn : P'.ref = Function.update P.ref j (P.ref j - 1))
  /-- a request drops its reference -/
  | dropReq (j : J) (hh : P'.held = P.held) (hr : P.reqs = j ::ₘ P'.reqs)
      (hf : P'.free = if P.ref j = 1 then j ::ₘ P.free else P.free)
      (hn : P'.ref = Function.update P.ref j (P.ref j - 1))

/-- The counts of object `j` are right. -/
structure BalancedAt (P : RefPool J) (j : J) : Prop where
  once : P.held.count j + P.free.count j ≤ 1
  free : 0 < P.free.count j → P.reqs.count j = 0
  ref : P.free.count j = 0 → P.ref j = P.held.count j + P.reqs.count j ∧ 1 ≤ P.ref j

/-- All counts are right. -/
def Balanced (P : RefPool J) : Prop := ∀ j, P.BalancedAt j

/-- An operation on `j` leaves the counts of the other objects alone. -/
theorem BalancedAt.congr {i : J} (h : P.BalancedAt i) (hh : P'.held.count i = P.held.count i)
    (hr : P'.reqs.count i = P.reqs.count i) (hf : P'.free.count i = P.free.count i)
    (href : P'.ref i = P.ref i) : P'.BalancedAt i := by
  obtain ⟨h1, h2, h3⟩ := h
  exact ⟨by rw [hh, hf]; exact h1, by rw [hf, hr]; exact h2, by rw [hf, href, hh, hr]; exact h3⟩

theorem count_ite_cons {j i : J} {c : Prop} [Decidable c] (s : Multiset J) (h : i ≠ j) :
    (if c then j ::ₘ s else s).count i = s.count i := by
  split_ifs
  · rw [Multiset.count_cons_of_ne h]
  · rfl

/-- **Every operation keeps the counts right.** -/
theorem Step.balanced (h : P.Step P') (hP : P.Balanced) : P'.Balanced := by
  intro i
  have hi := hP i
  cases h with
  | keep hh hr hf hn => exact hi.congr (by rw [hh]) (by rw [hr]) (by rw [hf]) (by rw [hn])
  | create j hf hh hr hn =>
    by_cases hij : i = j
    · subst hij
      obtain ⟨h1, h2, -⟩ := hi
      rw [hf, Multiset.count_cons_self] at h1 h2
      have h3 := h2 (by omega)
      refine ⟨?_, ?_, ?_⟩ <;>
        simp only [hh, hr, hn, Multiset.count_cons_self, Function.update_self] <;> omega
    · refine hi.congr ?_ (by rw [hr]) ?_ ?_
      · rw [hh, Multiset.count_cons_of_ne hij]
      · rw [hf, Multiset.count_cons_of_ne hij]
      · rw [hn, Function.update_of_ne hij]
  | get j hj hh hr hf hn =>
    by_cases hij : i = j
    · subst hij
      obtain ⟨h1, h2, h3⟩ := hi
      have hpos := Multiset.count_pos.2 hj
      refine ⟨?_, ?_, ?_⟩ <;>
        simp only [hh, hr, hf, hn, Multiset.count_cons_self, Function.update_self] <;> omega
    · exact hi.congr (by rw [hh]) (by rw [hr, Multiset.count_cons_of_ne hij]) (by rw [hf])
        (by rw [hn, Function.update_of_ne hij])
  | send j hh hr hf hn =>
    by_cases hij : i = j
    · subst hij
      obtain ⟨h1, h2, h3⟩ := hi
      rw [hh, Multiset.count_cons_self] at h1 h3
      refine ⟨?_, ?_, ?_⟩ <;> simp only [hr, hf, hn, Multiset.count_cons_self] <;> omega
    · exact hi.congr (by rw [hh, Multiset.count_cons_of_ne hij])
        (by rw [hr, Multiset.count_cons_of_ne hij]) (by rw [hf]) (by rw [hn])
  | accept j hj hh hr hf hn =>
    by_cases hij : i = j
    · subst hij
      obtain ⟨h1, h2, h3⟩ := hi
      have h0 := Multiset.count_eq_zero_of_notMem hj
      rw [hr, Multiset.count_cons_self] at h2 h3
      refine ⟨?_, ?_, ?_⟩ <;> simp only [hh, hf, hn, Multiset.count_cons_self] <;> omega
    · exact hi.congr (by rw [hh, Multiset.count_cons_of_ne hij])
        (by rw [hr, Multiset.count_cons_of_ne hij]) (by rw [hf]) (by rw [hn])
  | dropHeld j hh hr hf hn =>
    by_cases hij : i = j
    · subst hij
      obtain ⟨h1, h2, h3⟩ := hi
      rw [hh, Multiset.count_cons_self] at h1 h3
      by_cases hone : P.ref i = 1
      · refine ⟨?_, ?_, ?_⟩ <;>
          simp only [hr, hf, hn, hone, if_true, Multiset.count_cons_self, Function.update_self] <;>
          omega
      · refine ⟨?_, ?_, ?_⟩ <;>
          simp only [hr, hf, hn, hone, if_false, Function.update_self] <;> omega
    · exact hi.congr (by rw [hh, Multiset.count_cons_of_ne hij]) (by rw [hr])
        (by rw [hf, count_ite_cons _ hij]) (by rw [hn, Function.update_of_ne hij])
  | dropReq j hh hr hf hn =>
    by_cases hij : i = j
    · subst hij
      obtain ⟨h1, h2, h3⟩ := hi
      rw [hr, Multiset.count_cons_self] at h2 h3
      by_cases hone : P.ref i = 1
      · refine ⟨?_, ?_, ?_⟩ <;>
          simp only [hh, hf, hn, hone, if_true, Multiset.count_cons_self, Function.update_self] <;>
          omega
      · refine ⟨?_, ?_, ?_⟩ <;>
          simp only [hh, hf, hn, hone, if_false, Function.update_self] <;> omega
    · exact hi.congr (by rw [hh]) (by rw [hr, Multiset.count_cons_of_ne hij])
        (by rw [hf, count_ite_cons _ hij]) (by rw [hn, Function.update_of_ne hij])

/-- An object has at most one place. -/
theorem Balanced.held_le (h : P.Balanced) (j : J) : P.held.count j ≤ 1 := by
  have := (h j).once
  omega

/-- An object in a place or wanted by a request is not free. -/
theorem Balanced.notMem_free (h : P.Balanced) {j : J} (hj : j ∈ P.held ∨ j ∈ P.reqs) :
    j ∉ P.free := by
  intro hf
  have h1 := (h j).once
  have h2 := (h j).free (Multiset.count_pos.2 hf)
  have h3 := Multiset.count_pos.2 hf
  rcases hj with hj | hj <;> have h4 := Multiset.count_pos.2 hj <;> omega

end RefPool

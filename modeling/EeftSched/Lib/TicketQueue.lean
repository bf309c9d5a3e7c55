/-
  A bounded queue for many producers and one consumer, seen through its
  tickets.

  A producer takes the next ticket, waits until the slot of its ticket is free
  and then publishes its element there; the consumer takes the element at the
  head once it is published.  An element is in `slots` from the moment its
  ticket is taken; the consumer does not see it before it is published.

  `Step` are the moves of such a queue; along every run what was claimed is what
  was taken and what is left, in order (`claimed_eq`).
-/
import EeftSched.Lib.Exec
import Mathlib.Data.List.Basic
import Mathlib.Data.List.TakeWhile
import Mathlib.Data.Multiset.Defs
import Mathlib.Logic.Function.Basic

universe u

/-- The tickets taken and not yet consumed, from the head on, with their
    elements and whether they are published. -/
structure TicketQueue (α : Type u) where
  head : ℕ
  slots : List (α × Bool)

namespace TicketQueue

variable {α : Type u} {r r' : TicketQueue α} {a : α}

def empty : TicketQueue α := ⟨0, []⟩

/-- The next ticket. -/
def tail (r : TicketQueue α) : ℕ := r.head + r.slots.length

/-- Take the next ticket, for `a`. -/
def claim (r : TicketQueue α) (a : α) : TicketQueue α := ⟨r.head, r.slots ++ [(a, false)]⟩

/-- The slot of ticket `t` is free in a buffer of `size` slots: the element
    that had it before is consumed. -/
def Free (r : TicketQueue α) (size t : ℕ) : Prop := t < r.head + size

instance (r : TicketQueue α) (size t : ℕ) : Decidable (r.Free size t) := inferInstanceAs (Decidable (_ < _))

/-- Publish the element of ticket `t`. -/
def publish (r : TicketQueue α) (t : ℕ) : TicketQueue α :=
  ⟨r.head, r.slots.modify (t - r.head) fun x => (x.1, true)⟩

/-- The consumer takes the element at the head. -/
def tryDequeue (r : TicketQueue α) : Option (α × TicketQueue α) :=
  match r.slots with
  | (a, true) :: slots => some (a, ⟨r.head + 1, slots⟩)
  | _ => none

/-- The elements whose tickets are taken. -/
def values (r : TicketQueue α) : List α := r.slots.map Prod.fst

@[simp] theorem values_empty : (empty : TicketQueue α).values = [] := rfl

@[simp] theorem values_claim (r : TicketQueue α) (a : α) : (r.claim a).values = r.values ++ [a] := by
  simp [values, claim]

@[simp] theorem values_publish (r : TicketQueue α) (t : ℕ) : (r.publish t).values = r.values := by
  unfold values publish
  refine List.ext_getElem? fun i => ?_
  simp only [List.getElem?_map, List.getElem?_modify]
  split_ifs
  · cases r.slots[i]? <;> rfl
  · simp

/-- Publishing in one of many queues changes no elements. -/
theorem values_update_publish {ι : Type*} [DecidableEq ι] (f : ι → TicketQueue α) (d : ι) (t : ℕ)
    (e : ι) : (Function.update f d ((f d).publish t) e).values = (f e).values := by
  by_cases he : e = d
  · rw [he, Function.update_self, values_publish]
  · rw [Function.update_of_ne he]

theorem tryDequeue_eq_some (h : r.tryDequeue = some (a, r')) :
    r.values = a :: r'.values ∧ r'.head = r.head + 1 := by
  unfold tryDequeue at h
  split at h
  · rename_i b slots hs
    obtain ⟨rfl, rfl⟩ := Prod.mk.inj (Option.some.inj h)
    exact ⟨by simp [values, hs], rfl⟩
  · cases h

theorem tryDequeue_slots (h : r.tryDequeue = some (a, r')) : r.slots = (a, true) :: r'.slots := by
  unfold tryDequeue at h
  split at h
  · rename_i b slots hs
    obtain ⟨rfl, rfl⟩ := Prod.mk.inj (Option.some.inj h)
    exact hs
  · cases h

/-- Nothing can be taken, so that the first element is not published. -/
theorem eq_zero_of_tryDequeue {k : ℕ} (h : r.tryDequeue = none)
    (hp : ∀ x ∈ r.slots.take k, x.2 = true) (hk : k ≤ r.slots.length) : k = 0 := by
  obtain ⟨head, slots⟩ := r
  cases k with
  | zero => rfl
  | succ k =>
    cases slots with
    | nil => exact absurd hk (Nat.not_succ_le_zero k)
    | cons x slots =>
      obtain ⟨a, b⟩ := x
      obtain rfl : b = true := hp (a, b) (by simp)
      cases h

theorem length_claim (r : TicketQueue α) (a : α) : (r.claim a).slots.length = r.slots.length + 1 :=
  List.length_append ..

theorem length_tryDequeue (h : r.tryDequeue = some (a, r')) : r.slots.length = r'.slots.length + 1 := by
  rw [tryDequeue_slots h, List.length_cons]

@[simp] theorem length_publish (r : TicketQueue α) (t : ℕ) :
    (r.publish t).slots.length = r.slots.length := List.length_modify ..

/-- A slot after a claim is the new one, or was there. -/
theorem getElem?_claim {i : ℕ} {x : α × Bool} (h : (r.claim a).slots[i]? = some x) :
    r.slots[i]? = some x ∨ i = r.slots.length := by
  rcases Nat.lt_trichotomy i r.slots.length with hi | hi | hi
  · rw [claim, List.getElem?_append_left hi] at h
    exact .inl h
  · exact .inr hi
  · rw [claim, List.getElem?_eq_none (by rw [List.length_append]; exact hi)] at h
    cases h

/-- A slot that is not published is none that was published just now. -/
theorem getElem?_publish {i t : ℕ} (h : (r.publish t).slots[i]? = some (a, false)) :
    r.slots[i]? = some (a, false) ∧ t - r.head ≠ i := by
  rw [publish, List.getElem?_modify] at h
  split_ifs at h with ht
  · obtain ⟨y, -, hy⟩ := Option.map_eq_some_iff.1 h
    cases hy
  · rw [id_map'] at h
    exact ⟨h, ht⟩

/-- The slots that are published stay so. -/
theorem published_publish {k t : ℕ} (h : ∀ x ∈ r.slots.take k, x.2 = true) :
    ∀ x ∈ (r.publish t).slots.take k, x.2 = true := by
  intro x hx
  obtain ⟨i, hi⟩ := List.mem_iff_getElem?.1 hx
  rw [publish, List.getElem?_take, List.getElem?_modify] at hi
  split_ifs at hi with hik hit
  · obtain ⟨y, -, rfl⟩ := Option.map_eq_some_iff.1 hi
    rfl
  · rw [id_map'] at hi
    exact h x (List.mem_iff_getElem?.2 ⟨i, by rw [List.getElem?_take, if_pos hik]; exact hi⟩)

/-! ## Taking all there is -/

/-- The elements that are published up to the first one that is not, which are
    those the consumer can take. -/
def published (r : TicketQueue α) : List α := (r.slots.takeWhile Prod.snd).map Prod.fst

/-- The queue when the consumer has taken them. -/
def drained (r : TicketQueue α) : TicketQueue α :=
  ⟨r.head + r.published.length, r.slots.dropWhile Prod.snd⟩

theorem tryDequeue_eq_none (h : r.tryDequeue = none) : r.published = [] ∧ r.drained = r := by
  obtain ⟨head, slots⟩ := r
  cases slots with
  | nil => exact ⟨rfl, rfl⟩
  | cons x slots =>
    obtain ⟨a, b⟩ := x
    cases b with
    | true => cases h
    | false => exact ⟨rfl, rfl⟩

theorem published_of_tryDequeue (h : r.tryDequeue = some (a, r')) :
    r.published = a :: r'.published ∧ r.drained = r'.drained := by
  obtain ⟨head, slots⟩ := r
  cases slots with
  | nil => cases h
  | cons x slots =>
    obtain ⟨b, f⟩ := x
    cases f with
    | false => cases h
    | true =>
      obtain ⟨rfl, rfl⟩ := Prod.mk.inj (Option.some.inj h)
      refine ⟨rfl, ?_⟩
      show (⟨head + (published ⟨head + 1, slots⟩).length.succ, _⟩ : TicketQueue α) = _
      rw [drained, Nat.succ_eq_add_one, Nat.add_comm (published _).length 1, ← Nat.add_assoc]
      rfl

/-- Nothing more can be taken. -/
theorem tryDequeue_drained (r : TicketQueue α) : r.drained.tryDequeue = none := by
  have hd : ∀ (head : ℕ) (slots : List (α × Bool)),
      tryDequeue ⟨head, slots.dropWhile Prod.snd⟩ = none := by
    intro head slots
    induction slots with
    | nil => rfl
    | cons x slots ih =>
      obtain ⟨a, b⟩ := x
      cases b with
      | true => exact ih
      | false => rfl
  exact hd _ _

/-- With all elements published, the queue is empty. -/
theorem drained_slots (h : ∀ x ∈ r.slots, x.2 = true) : r.drained.slots = [] := by
  show r.slots.dropWhile Prod.snd = []
  exact List.dropWhile_eq_nil_iff.2 h

/-! ## Runs -/

/-- What a producer or the consumer does to the queue. -/
inductive Act (α : Type u) where
  | claim (a : α)
  | publish (t : ℕ)
  | take (a : α)

/-- The steps of a queue of `size` slots. -/
inductive Step (size : ℕ) (r : TicketQueue α) : Act α → TicketQueue α → Prop
  | claim (a : α) : Step size r (.claim a) (r.claim a)
  | publish {t : ℕ} {a : α} (ht : r.head ≤ t) (ha : r.slots[t - r.head]? = some (a, false))
      (hf : r.Free size t) : Step size r (.publish t) (r.publish t)
  | take {a : α} {r' : TicketQueue α} (h : r.tryDequeue = some (a, r')) : Step size r (.take a) r'

def Act.claimed : Act α → List α
  | .claim a => [a]
  | _ => []

def Act.taken : Act α → List α
  | .take a => [a]
  | _ => []

section
open Lts

variable {tr : List (Trans (TicketQueue α) (Act α))} {size : ℕ}

/-- The elements of the tickets, in the order of the tickets. -/
def claimed (tr : List (Trans (TicketQueue α) (Act α))) : List α := tr.flatMap (·.lab.claimed)

/-- The elements the consumer has taken, in the order it took them. -/
def taken (tr : List (Trans (TicketQueue α) (Act α))) : List α := tr.flatMap (·.lab.taken)

theorem claimed_append (tr tr' : List (Trans (TicketQueue α) (Act α))) :
    claimed (tr ++ tr') = claimed tr ++ claimed tr' := List.flatMap_append

theorem taken_append (tr tr' : List (Trans (TicketQueue α) (Act α))) :
    taken (tr ++ tr') = taken tr ++ taken tr' := List.flatMap_append

/-- **First in, first out**: what was claimed is what was taken, then what is
    still there. -/
theorem claimed_eq (h : Exec (Step size) empty tr r) :
    claimed tr = taken tr ++ r.values ∧ r.head = (taken tr).length := by
  induction h with
  | nil => exact ⟨rfl, rfl⟩
  | @snoc tr r a r' _ hs ih =>
    obtain ⟨hval, hhead⟩ := ih
    rw [claimed_append, taken_append]
    cases hs with
    | claim a =>
      refine ⟨?_, ?_⟩
      · show claimed tr ++ [a] = (taken tr ++ []) ++ (r.claim a).values
        rw [values_claim, hval, List.append_nil, List.append_assoc]
      · show r.head = (taken tr ++ []).length
        rw [List.append_nil, hhead]
    | publish =>
      refine ⟨?_, ?_⟩
      · show claimed tr ++ [] = (taken tr ++ []) ++ (r.publish _).values
        rw [values_publish, List.append_nil, List.append_nil, hval]
      · show r.head = (taken tr ++ []).length
        rw [List.append_nil, hhead]
    | @take a r' hd =>
      obtain ⟨hv, hh⟩ := tryDequeue_eq_some hd
      refine ⟨?_, ?_⟩
      · show claimed tr ++ [] = (taken tr ++ [a]) ++ r'.values
        rw [List.append_nil, List.append_assoc, List.singleton_append, ← hv, hval]
      · show r'.head = (taken tr ++ [a]).length
        rw [hh, hhead, List.length_append, List.length_singleton]

end

end TicketQueue

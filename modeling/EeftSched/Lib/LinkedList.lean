/-
  Singly linked lists in memory.

  Each node has a pointer to the next one; a list is known by the pointer to its
  first node, and two lists may not share a node unless one ends in the other.

  * `Chain next p l`: from `p` on, the pointers lead through the nodes `l`;
  * `Chain.unique`, `Chain.nodup`: it has one list of nodes, without a cycle;
  * `Chain.push`, `Chain.pop`, `Chain.frame`: what the operations at the head do,
    and a write to a node that is not on the list;
  * `Chain.pushAll`: a list built node by node.
-/
import Mathlib.Data.List.Basic
import Mathlib.Data.List.Nodup
import Mathlib.Logic.Function.Basic

namespace LinkedList

universe u
variable {α : Type u}

/-- From `p` on, the pointers lead through the nodes `l`, and then end. -/
inductive Chain (next : α → Option α) : Option α → List α → Prop
  | nil : Chain next none []
  | cons {a : α} {l : List α} (h : Chain next (next a) l) : Chain next (some a) (a :: l)

namespace Chain

variable {next next' : α → Option α} {p : Option α} {a : α} {l l' : List α}

theorem unique (h : Chain next p l) (h' : Chain next p l') : l = l' := by
  induction h generalizing l' with
  | nil =>
    cases h'
    rfl
  | cons _ ih =>
    cases h' with
    | cons h' => rw [ih h']

theorem eq_nil_iff (h : Chain next p l) : l = [] ↔ p = none := by
  cases h with
  | nil => simp
  | cons => simp

/-- The first node is taken off. -/
theorem pop (h : Chain next (some a) l) : ∃ rest, l = a :: rest ∧ Chain next (next a) rest := by
  cases h with
  | cons h => exact ⟨_, rfl, h⟩

/-- From a node of the list on, the pointers lead through the rest of it. -/
theorem suffix {l₁ : List α} (h : Chain next p (l₁ ++ a :: l)) : Chain next (some a) (a :: l) := by
  induction l₁ generalizing p with
  | nil =>
    cases h with
    | cons h => exact .cons h
  | cons b l₁ ih =>
    cases h with
    | cons h => exact ih h

/-- The pointers end, so no node comes again. -/
theorem nodup (h : Chain next p l) : l.Nodup := by
  induction h with
  | nil => exact List.nodup_nil
  | @cons a l h ih =>
    refine List.nodup_cons.2 ⟨fun ha => ?_, ih⟩
    obtain ⟨l₁, l₂, rfl⟩ := List.append_of_mem ha
    have heq := (cons h).unique h.suffix
    have hlen := congrArg List.length heq
    simp only [List.length_cons, List.length_append] at hlen
    omega

theorem congr (h : Chain next p l) (hn : ∀ x ∈ l, next' x = next x) : Chain next' p l := by
  induction h with
  | nil => exact nil
  | @cons a l _ ih =>
    refine cons ?_
    rw [hn a List.mem_cons_self]
    exact ih fun x hx => hn x (List.mem_cons_of_mem _ hx)

variable [DecidableEq α]

/-- A write to a node that is not on the list -/
theorem frame (h : Chain next p l) (ha : a ∉ l) (v : Option α) :
    Chain (Function.update next a v) p l :=
  h.congr fun x hx => Function.update_of_ne (fun heq : x = a => ha (heq ▸ hx)) _ _

/-- A node is put in front. -/
theorem push (h : Chain next p l) (ha : a ∉ l) : Chain (Function.update next a p) (some a) (a :: l) := by
  refine cons ?_
  rw [Function.update_self]
  exact h.frame ha p

/-- `push`, for one node after the other -/
def pushAll (nodes : List α) (s : (α → Option α) × Option α) : (α → Option α) × Option α :=
  nodes.foldl (fun s a => (Function.update s.1 a s.2, some a)) s

theorem pushAll_of_notMem {nodes : List α} {s : (α → Option α) × Option α} (ha : a ∉ nodes) :
    (pushAll nodes s).1 a = s.1 a := by
  induction nodes generalizing s with
  | nil => rfl
  | cons b nodes ih =>
    obtain ⟨hne, ha⟩ := List.ne_and_not_mem_of_not_mem_cons ha
    show (pushAll nodes (Function.update s.1 b s.2, some b)).1 a = s.1 a
    rw [ih ha]
    exact Function.update_of_ne hne ..

theorem pushAll_chain {nodes : List α} {s : (α → Option α) × Option α} (h : Chain s.1 s.2 l)
    (hn : nodes.Nodup) (hd : ∀ a ∈ nodes, a ∉ l) :
    Chain (pushAll nodes s).1 (pushAll nodes s).2 (nodes.reverse ++ l) := by
  induction nodes generalizing s l with
  | nil => exact h
  | cons a nodes ih =>
    obtain ⟨ha, hn⟩ := List.nodup_cons.1 hn
    rw [List.reverse_cons, List.append_assoc]
    refine ih (h.push (hd a List.mem_cons_self)) hn fun b hb => ?_
    rw [List.singleton_append, List.mem_cons, not_or]
    exact ⟨fun heq => ha (heq ▸ hb), hd b (List.mem_cons_of_mem _ hb)⟩

end Chain

end LinkedList

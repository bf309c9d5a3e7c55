/-
  Doubly linked circular lists in memory.

  Each node has a pointer to the next and one to the previous node; the node
  that stands for the list is one of the circle.

  * `Ring h a l`: from `a` the pointers lead through `l` back to `a`, in both
    directions, and no node comes twice;
  * `Ring.rotate`: any node of the circle may stand for it;
  * `Ring.insert_after`, `Ring.insert_before`, `Ring.bypass`: the two edits, a
    node put between two neighbours, and a node left out;
  * `Ring.splice`: the nodes of one circle put into another;
  * `Ring.congr`: a circle depends on the pointers of its own nodes only;
  * `Rings`: any number of circles that share no node, and how an edit of one or
    two of them leaves the others.
-/
import Mathlib.Data.List.Basic
import Mathlib.Data.List.Nodup
import Mathlib.Logic.Function.Basic

namespace CircularList

universe u
variable {α : Type u}

/-- The pointers of each node; `none` is a null pointer. -/
@[ext] structure Links (α : Type u) where
  next : α → Option α
  prev : α → Option α

namespace Links

variable {h h' : Links α} {a b p q x y : α} {l l₁ l₂ : List α}

/-- Two neighbours -/
def Linked (h : Links α) (a b : α) : Prop := h.next a = some b ∧ h.prev b = some a

/-- From `a` through the nodes `l` to `b` -/
def Seg (h : Links α) : α → List α → α → Prop
  | a, [], b => h.Linked a b
  | a, x :: l, b => h.Linked a x ∧ h.Seg x l b

@[simp] theorem seg_nil : h.Seg a [] b ↔ h.Linked a b := Iff.rfl

@[simp] theorem seg_cons : h.Seg a (x :: l) b ↔ h.Linked a x ∧ h.Seg x l b := Iff.rfl

theorem seg_append : h.Seg a (l₁ ++ x :: l₂) b ↔ h.Seg a l₁ x ∧ h.Seg x l₂ b := by
  induction l₁ generalizing a with
  | nil => simp
  | cons y l₁ ih => simp [ih, and_assoc]

/-- A segment depends on the pointers onward of all its nodes but the last one,
    and on the pointers back of all but the first one. -/
theorem Seg.congr (hs : h.Seg a l b) (hn : ∀ y ∈ a :: l, h'.next y = h.next y)
    (hp : ∀ y ∈ l ++ [b], h'.prev y = h.prev y) : h'.Seg a l b := by
  induction l generalizing a with
  | nil => exact ⟨(hn a (by simp)).trans hs.1, (hp b (by simp)).trans hs.2⟩
  | cons x l ih =>
    obtain ⟨⟨h1, h2⟩, hs⟩ := hs
    constructor
    · exact ⟨(hn a (by simp)).trans h1, (hp x (by simp)).trans h2⟩
    · exact ih hs (fun y hy => hn y (List.mem_cons_of_mem _ hy))
        fun y hy => hp y (List.mem_cons_of_mem _ hy)

/-- The circle of `a` and `l` -/
structure Ring (h : Links α) (a : α) (l : List α) : Prop where
  seg : h.Seg a l a
  nodup : (a :: l).Nodup

namespace Ring

theorem congr (hr : h.Ring a l) (hn : ∀ y ∈ a :: l, h'.next y = h.next y)
    (hp : ∀ y ∈ a :: l, h'.prev y = h.prev y) : h'.Ring a l := by
  refine ⟨hr.seg.congr hn fun y hy => hp y ?_, hr.nodup⟩
  simpa [or_comm] using hy

/-- Any node of the circle may stand for it. -/
theorem rotate (hr : h.Ring a (l₁ ++ x :: l₂)) : h.Ring x (l₂ ++ a :: l₁) := by
  obtain ⟨hs, hd⟩ := hr
  rw [seg_append] at hs
  refine ⟨seg_append.2 ⟨hs.2, hs.1⟩, ?_⟩
  have hperm : (a :: (l₁ ++ x :: l₂)).Perm (x :: (l₂ ++ a :: l₁)) := by
    rw [← List.cons_append, ← List.cons_append]
    exact List.perm_append_comm
  exact hperm.nodup_iff.1 hd

theorem next_nil (hr : h.Ring a []) : h.next a = some a := hr.seg.1

theorem prev_nil (hr : h.Ring a []) : h.prev a = some a := hr.seg.2

theorem next_cons (hr : h.Ring a (x :: l)) : h.next a = some x := hr.seg.1.1

theorem prev_concat (hr : h.Ring a (l ++ [x])) : h.prev a = some x := (seg_append.1 hr.seg).2.2

theorem next_head (hr : h.Ring a l) : h.next a = some (l.headD a) := by
  cases l with
  | nil => exact hr.next_nil
  | cons x l => exact hr.next_cons

theorem exists_next (hr : h.Ring a l) : ∃ q, h.next a = some q := ⟨_, hr.next_head⟩

theorem next_mem_circle (hr : h.Ring a l) (hq : h.next a = some q) : q ∈ a :: l := by
  rw [← Option.some.inj (hr.next_head.symm.trans hq)]
  cases l with
  | nil => exact List.mem_cons_self
  | cons x l => exact List.mem_cons_of_mem _ List.mem_cons_self

theorem prev_mem_circle (hr : h.Ring a l) (hp : h.prev a = some p) : p ∈ a :: l := by
  rcases List.eq_nil_or_concat' l with rfl | ⟨l, x, rfl⟩
  · exact Option.some.inj (hr.prev_nil.symm.trans hp) ▸ List.mem_cons_self
  · obtain rfl : x = p := Option.some.inj (hr.prev_concat.symm.trans hp)
    simp

theorem next_mem (hr : h.Ring a (l₁ ++ x :: l₂)) : h.next x = some (l₂.headD a) := by
  have hs := (seg_append.1 hr.seg).2
  cases l₂ with
  | nil => exact hs.1
  | cons y l₂ => exact hs.1.1

theorem next_ne_none (hr : h.Ring a l) (hy : y ∈ a :: l) : h.next y ≠ none := by
  rcases List.mem_cons.1 hy with rfl | hy
  · simp [hr.next_head]
  · obtain ⟨l₁, l₂, rfl⟩ := List.append_of_mem hy
    simp [hr.next_mem]

theorem exists_prev (hr : h.Ring a l) : ∃ p, h.prev a = some p := by
  rcases List.eq_nil_or_concat' l with rfl | ⟨l, x, rfl⟩
  · exact ⟨a, hr.prev_nil⟩
  · exact ⟨x, hr.prev_concat⟩

end Ring

/-! ## The two edits -/

variable [DecidableEq α] {new : α}

def setNext (h : Links α) (a : α) (p : Option α) : Links α :=
  { h with next := Function.update h.next a p }

def setPrev (h : Links α) (a : α) (p : Option α) : Links α :=
  { h with prev := Function.update h.prev a p }

@[simp] theorem next_setNext (p : Option α) :
    (h.setNext a p).next y = if y = a then p else h.next y := Function.update_apply ..

@[simp] theorem prev_setNext (p : Option α) : (h.setNext a p).prev = h.prev := rfl

@[simp] theorem prev_setPrev (p : Option α) :
    (h.setPrev a p).prev y = if y = a then p else h.prev y := Function.update_apply ..

@[simp] theorem next_setPrev (p : Option α) : (h.setPrev a p).next = h.next := rfl

/-- Put `new` between `p` and `q`. -/
def link (h : Links α) (new p q : α) : Links α :=
  (((h.setPrev q (some new)).setNext new (some q)).setPrev new (some p)).setNext p (some new)

/-- Make `p` and `q` neighbours. -/
def join (h : Links α) (p q : α) : Links α := (h.setPrev q (some p)).setNext p (some q)

/-- Only the pointers between the three nodes change. -/
theorem next_link_of_ne (hp : y ≠ p) (hn : y ≠ new) : (h.link new p q).next y = h.next y := by
  simp [link, hp, hn]

theorem prev_link_of_ne (hq : y ≠ q) (hn : y ≠ new) : (h.link new p q).prev y = h.prev y := by
  simp [link, hq, hn]

theorem next_join_of_ne (hp : y ≠ p) : (h.join p q).next y = h.next y := by
  simp [join, hp]

theorem prev_join_of_ne (hq : y ≠ q) : (h.join p q).prev y = h.prev y := by
  simp [join, hq]

theorem linked_link_left : (h.link new p q).Linked p new := by
  simp [Linked, link]

theorem linked_link_right (hp : p ≠ new) (hq : q ≠ new) : (h.link new p q).Linked new q := by
  simp [Linked, link, hp.symm, hq]

theorem linked_join : (h.join p q).Linked p q := by
  simp [Linked, join]

namespace Ring

/-- A node is put behind `a`. -/
theorem insert_after (hr : h.Ring a l) (hq : h.next a = some q) (hn : new ∉ a :: l) :
    (h.link new a q).Ring a (new :: l) := by
  obtain ⟨hna, hnl⟩ := not_or.1 (fun hmem => hn (List.mem_cons.2 hmem))
  obtain ⟨hal, hd⟩ := List.nodup_cons.1 hr.nodup
  constructor
  · refine ⟨linked_link_left, ?_⟩
    cases l with
    | nil =>
      obtain rfl : a = q := Option.some.inj (hr.next_nil.symm.trans hq)
      exact linked_link_right (Ne.symm hna) (Ne.symm hna)
    | cons x l =>
      obtain rfl : x = q := Option.some.inj (hr.next_cons.symm.trans hq)
      have hx : new ≠ x ∧ new ∉ l := by simpa using hnl
      refine ⟨linked_link_right (Ne.symm hna) hx.1.symm, hr.seg.2.congr (fun y hy => ?_) fun y hy => ?_⟩
      · exact next_link_of_ne (fun heq => hal (heq ▸ hy)) fun heq => hnl (heq ▸ hy)
      · rw [List.mem_append, List.mem_singleton] at hy
        have hxl := (List.nodup_cons.1 hd).1
        refine prev_link_of_ne ?_ ?_
        · rintro rfl
          exact hy.elim hxl fun heq => hal (heq ▸ List.mem_cons_self)
        · rintro rfl
          exact hy.elim hx.2 fun heq => hna heq
  · refine List.nodup_cons.2 ⟨?_, List.nodup_cons.2 ⟨hnl, hd⟩⟩
    rw [List.mem_cons, not_or]
    exact ⟨Ne.symm hna, hal⟩

/-- A node is put before `a`, at the end of the circle. -/
theorem insert_before_head (hr : h.Ring a l) (hp : h.prev a = some p) (hn : new ∉ a :: l) :
    (h.link new p a).Ring a (l ++ [new]) := by
  rcases List.eq_nil_or_concat' l with rfl | ⟨l, x, rfl⟩
  · obtain rfl : a = p := Option.some.inj (hr.prev_nil.symm.trans hp)
    exact hr.insert_after hr.next_nil hn
  · obtain rfl : x = p := Option.some.inj (hr.prev_concat.symm.trans hp)
    have hx : h.Ring x (a :: l) := hr.rotate
    have hnew : new ∉ x :: a :: l := by
      simp only [List.mem_cons, List.mem_append, List.not_mem_nil] at hn ⊢
      tauto
    have hins : (h.link new x a).Ring x ([new] ++ a :: l) := hx.insert_after hx.next_cons hnew
    simpa using hins.rotate

/-- A node is put before one of the circle. -/
theorem insert_before (hr : h.Ring a (l₁ ++ x :: l₂)) (hp : h.prev x = some p)
    (hn : new ∉ a :: (l₁ ++ x :: l₂)) : (h.link new p x).Ring a (l₁ ++ new :: x :: l₂) := by
  have hnew : new ∉ x :: (l₂ ++ a :: l₁) := by
    simp only [List.mem_cons, List.mem_append] at hn ⊢
    tauto
  have hx := hr.rotate.insert_before_head hp hnew
  rw [List.append_assoc, List.cons_append] at hx
  simpa using hx.rotate

/-- The node `x` is left out; the circle now stands for its successor. -/
theorem bypass_head (hr : h.Ring x (q :: l)) (hp : h.prev x = some p) : (h.join p q).Ring q l := by
  obtain ⟨hxl, hd⟩ := List.nodup_cons.1 hr.nodup
  refine ⟨?_, hd⟩
  rcases List.eq_nil_or_concat' l with rfl | ⟨l, y, rfl⟩
  · obtain rfl : q = p := Option.some.inj ((prev_concat (l := []) hr).symm.trans hp)
    exact linked_join
  · obtain rfl : y = p := Option.some.inj ((prev_concat (l := q :: l) hr).symm.trans hp)
    obtain ⟨hs, -⟩ := seg_append.1 hr.seg.2
    refine seg_append.2 ⟨hs.congr (fun z hz => ?_) fun z hz => ?_, linked_join⟩
    · refine next_join_of_ne ?_
      rintro rfl
      rw [← List.cons_append, List.nodup_append] at hd
      exact hd.2.2 z hz z (List.mem_singleton_self z) rfl
    · refine prev_join_of_ne ?_
      rintro rfl
      exact (List.nodup_cons.1 hd).1 hz

/-- **A node is left out** of the circle of `a`. -/
theorem bypass (hr : h.Ring a (l₁ ++ x :: l₂)) (hp : h.prev x = some p) (hq : h.next x = some q) :
    (h.join p q).Ring a (l₁ ++ l₂) := by
  have hx := hr.rotate
  cases l₂ with
  | nil =>
    obtain rfl : a = q := Option.some.inj (hx.next_cons.symm.trans hq)
    simpa using hx.bypass_head hp
  | cons y l₂ =>
    obtain rfl : y = q := Option.some.inj (hx.next_cons.symm.trans hq)
    exact (hx.bypass_head hp).rotate

end Ring

/-! ## One circle put into another -/

/-- Put the nodes from `first` to `last` between `b` and `q`. -/
def splice (h : Links α) (first last b q : α) : Links α :=
  (((h.setPrev first (some b)).setNext b (some first)).setNext last (some q)).setPrev q (some last)

section Splice

variable {first last : α} {l' : List α}

theorem next_splice_of_ne (hb : y ≠ b) (hl : y ≠ last) :
    (h.splice first last b q).next y = h.next y := by
  simp [splice, hb, hl]

theorem prev_splice_of_ne (hf : y ≠ first) (hq : y ≠ q) :
    (h.splice first last b q).prev y = h.prev y := by
  simp [splice, hf, hq]

theorem linked_splice_left (hb : b ≠ last) (hf : first ≠ q) :
    (h.splice first last b q).Linked b first := by
  simp [Linked, splice, hb, hf]

theorem linked_splice_right : (h.splice first last b q).Linked last q := by
  simp [Linked, splice]

/-- **The nodes of the circle of `a` are put behind `b`.** -/
theorem Ring.splice (ha : h.Ring a l) (hb : h.Ring b l') (hne : l ≠ []) (hd : (a :: l).Disjoint (b :: l'))
    (hfirst : h.next a = some first) (hlast : h.prev a = some last) (hq : h.next b = some q) :
    (h.splice first last b q).Ring b (l ++ l') := by
  obtain ⟨hal, hnl⟩ := List.nodup_cons.1 ha.nodup
  obtain ⟨hbl', hnl'⟩ := List.nodup_cons.1 hb.nodup
  have hdisj : ∀ y ∈ l, y ∉ b :: l' := fun y hy hy' => hd (List.mem_cons_of_mem _ hy) hy'
  obtain ⟨l₀, z, rfl⟩ := (List.eq_nil_or_concat' l).resolve_left hne
  obtain rfl : z = last := Option.some.inj (ha.prev_concat.symm.trans hlast)
  have hz : z ∉ b :: l' := hdisj z (List.mem_append_right _ (List.mem_singleton_self z))
  have hqmem : q ∈ b :: l' := hb.next_mem_circle hq
  have hz₀ : z ∉ l₀ := fun hmem => (List.nodup_append.1 hnl).2.2 z hmem z (List.mem_singleton_self z) rfl
  -- from `b` through the nodes put in
  have hleft : (h.splice first z b q).Seg b l₀ z := by
    have hseg := (seg_append.1 ha.seg).1
    have hbz : b ≠ z := fun heq => hz (heq ▸ List.mem_cons_self)
    cases l₀ with
    | nil =>
      obtain rfl : z = first := Option.some.inj (hseg.1.symm.trans hfirst)
      exact linked_splice_left hbz fun heq => hz (heq ▸ hqmem)
    | cons x l₀ =>
      obtain rfl : x = first := Option.some.inj (hseg.1.1.symm.trans hfirst)
      have hx := hdisj x List.mem_cons_self
      refine ⟨linked_splice_left hbz fun heq => hx (heq ▸ hqmem),
        hseg.2.congr (fun y hy => next_splice_of_ne ?_ ?_) fun y hy => prev_splice_of_ne ?_ ?_⟩
      · rintro rfl
        exact hdisj y (List.mem_append_left _ hy) List.mem_cons_self
      · rintro rfl
        exact hz₀ hy
      · rintro rfl
        rw [List.cons_append] at hnl
        exact (List.nodup_cons.1 hnl).1 hy
      · rintro rfl
        exact hdisj y (List.mem_cons_of_mem _ hy) hqmem
  -- from the last of them on
  cases l' with
  | nil =>
    obtain rfl : b = q := Option.some.inj (hb.next_nil.symm.trans hq)
    rw [List.append_nil]
    exact ⟨seg_append.2 ⟨hleft, linked_splice_right⟩,
      List.nodup_cons.2 ⟨fun hmem => hdisj b hmem List.mem_cons_self, hnl⟩⟩
  | cons y l' =>
    obtain rfl : y = q := Option.some.inj (hb.next_cons.symm.trans hq)
    have hright : (h.splice first z b y).Seg y l' b := by
      refine hb.seg.2.congr (fun w hw => next_splice_of_ne ?_ ?_) fun w hw => prev_splice_of_ne ?_ ?_
      · rintro rfl
        exact hbl' hw
      · rintro rfl
        exact hz (List.mem_cons_of_mem _ hw)
      · have hmem : first ∈ l₀ ++ [z] := by
          have hhead : (l₀ ++ [z]).headD a = first := Option.some.inj (ha.next_head.symm.trans hfirst)
          cases l₀ with
          | nil => exact List.mem_singleton.2 hhead.symm
          | cons x l₀ => exact List.mem_cons.2 (.inl hhead.symm)
        rintro rfl
        refine hdisj w hmem ?_
        rcases List.mem_append.1 hw with hw | hw
        · exact List.mem_cons_of_mem _ (List.mem_cons_of_mem _ hw)
        · exact List.mem_singleton.1 hw ▸ List.mem_cons_self
      · rintro rfl
        rcases List.mem_append.1 hw with hw | hw
        · exact (List.nodup_cons.1 hnl').1 hw
        · exact hbl' (List.mem_singleton.1 hw ▸ List.mem_cons_self)
    refine ⟨seg_append.2 ⟨seg_append.2 ⟨hleft, linked_splice_right⟩, hright⟩, ?_⟩
    refine List.nodup_cons.2 ⟨fun hmem => ?_, List.nodup_append.2 ⟨hnl, hnl', ?_⟩⟩
    · rcases List.mem_append.1 hmem with hmem | hmem
      · exact hdisj b hmem List.mem_cons_self
      · exact hbl' hmem
    · rintro w hw _ hw' rfl
      exact hdisj w hw (List.mem_cons_of_mem _ hw')

end Splice

/-! ## Any number of circles -/

section Rings

universe v
variable {ι : Type v} {head : ι → α} {seq seq' : ι → List α} {i j : ι}

/-- The pointers of the nodes `l` are the same. -/
def Same (h h' : Links α) (l : List α) : Prop := ∀ y ∈ l, h'.next y = h.next y ∧ h'.prev y = h.prev y

/-- The circles of `head i` and `seq i`, which share no node -/
structure Rings (h : Links α) (head : ι → α) (seq : ι → List α) : Prop where
  ring : ∀ i, h.Ring (head i) (seq i)
  once : ∀ i j y, y ∈ head i :: seq i → y ∈ head j :: seq j → i = j

omit [DecidableEq α] in
theorem Same.trans {h'' : Links α} (hs : h.Same h' l) (hs' : h'.Same h'' l) : h.Same h'' l :=
  fun y hy => ⟨(hs' y hy).1.trans (hs y hy).1, (hs' y hy).2.trans (hs y hy).2⟩

omit [DecidableEq α] in
theorem Ring.of_same (hr : h.Ring a l) (hs : h.Same h' (a :: l)) : h'.Ring a l :=
  hr.congr (fun y hy => (hs y hy).1) fun y hy => (hs y hy).2

namespace Rings

omit [DecidableEq α]

/-- What stays the same outside one circle stays the same in the others. -/
theorem same_of_ne (hr : h.Rings head seq)
    (hs : ∀ y ∉ head i :: seq i, h'.next y = h.next y ∧ h'.prev y = h.prev y) (hj : j ≠ i) :
    h.Same h' (head j :: seq j) :=
  fun y hy => hs y fun hy' => hj (hr.once j i y hy hy')

variable [DecidableEq ι]

/-- One circle changes; it gets no node of another. -/
theorem update (hr : h.Rings head seq) (hi : h'.Ring (head i) l)
    (hl : ∀ y ∈ l, y ∈ seq i ∨ ∀ j, y ∉ head j :: seq j)
    (hs : ∀ j ≠ i, h.Same h' (head j :: seq j)) : h'.Rings head (Function.update seq i l) := by
  have hmem : ∀ j y, y ∈ head j :: Function.update seq i l j →
      y ∈ head j :: seq j ∨ j = i ∧ ∀ k, y ∉ head k :: seq k := by
    intro j y hy
    by_cases hj : j = i
    · subst hj
      rw [Function.update_self] at hy
      rcases List.mem_cons.1 hy with rfl | hy
      · exact .inl List.mem_cons_self
      · rcases hl y hy with hy | hy
        · exact .inl (List.mem_cons_of_mem _ hy)
        · exact .inr ⟨rfl, hy⟩
    · rw [Function.update_of_ne hj] at hy
      exact .inl hy
  constructor
  · intro j
    by_cases hj : j = i
    · subst hj
      rw [Function.update_self]
      exact hi
    · rw [Function.update_of_ne hj]
      exact (hr.ring j).of_same (hs j hj)
  · intro j k y hj hk
    rcases hmem j y hj with hj' | ⟨rfl, hno⟩
    · rcases hmem k y hk with hk' | ⟨rfl, hno⟩
      · exact hr.once j k y hj' hk'
      · exact absurd hj' (hno j)
    · rcases hmem k y hk with hk' | ⟨rfl, -⟩
      · exact absurd hk' (hno k)
      · rfl

/-- The nodes of one circle go over to another one. -/
theorem move (hr : h.Rings head seq) (hij : i ≠ j) (hi : h'.Ring (head i) [])
    (hj : h'.Ring (head j) (seq i ++ seq j)) (hs : ∀ k, k ≠ i → k ≠ j → h.Same h' (head k :: seq k)) :
    h'.Rings head (Function.update (Function.update seq i []) j (seq i ++ seq j)) := by
  -- where a node has been before
  have hmem : ∀ k y, y ∈ head k :: Function.update (Function.update seq i []) j (seq i ++ seq j) k →
      y ∈ head k :: seq k ∧ (k = i → y = head i) ∨ k = j ∧ y ∈ seq i := by
    intro k y hy
    by_cases hkj : k = j
    · subst hkj
      rw [Function.update_self, List.mem_cons, List.mem_append] at hy
      rcases hy with rfl | hy | hy
      · exact .inl ⟨List.mem_cons_self, fun heq => absurd heq hij.symm⟩
      · exact .inr ⟨rfl, hy⟩
      · exact .inl ⟨List.mem_cons_of_mem _ hy, fun heq => absurd heq hij.symm⟩
    · rw [Function.update_of_ne hkj] at hy
      by_cases hki : k = i
      · subst hki
        rw [Function.update_self, List.mem_singleton] at hy
        exact .inl ⟨hy ▸ List.mem_cons_self, fun _ => hy⟩
      · rw [Function.update_of_ne hki] at hy
        exact .inl ⟨hy, fun heq => absurd heq hki⟩
  -- a node put in is in no other circle
  have hput : ∀ k y, y ∈ seq i → y ∈ head k :: seq k → (k = i → y = head i) → False := by
    intro k y hy hk hhead
    obtain rfl := hr.once k i y hk (List.mem_cons_of_mem _ hy)
    exact (List.nodup_cons.1 (hr.ring k).nodup).1 (hhead rfl ▸ hy)
  constructor
  · intro k
    by_cases hkj : k = j
    · subst hkj
      rw [Function.update_self]
      exact hj
    · rw [Function.update_of_ne hkj]
      by_cases hki : k = i
      · subst hki
        rw [Function.update_self]
        exact hi
      · rw [Function.update_of_ne hki]
        exact (hr.ring k).of_same (hs k hki hkj)
  · intro k₁ k₂ y h₁ h₂
    rcases hmem k₁ y h₁ with ⟨hm₁, hhead₁⟩ | ⟨rfl, hy₁⟩
    · rcases hmem k₂ y h₂ with ⟨hm₂, -⟩ | ⟨rfl, hy₂⟩
      · exact hr.once k₁ k₂ y hm₁ hm₂
      · exact (hput k₁ y hy₂ hm₁ hhead₁).elim
    · rcases hmem k₂ y h₂ with ⟨hm₂, hhead₂⟩ | ⟨rfl, -⟩
      · exact (hput k₂ y hy₁ hm₂ hhead₂).elim
      · rfl

end Rings

end Rings

end Links

end CircularList

/-
  The intrusive list (`list.h`), as operations on the pointers of its nodes.
  A null pointer that would be followed ends the operation.

  * `listAddTail_ring`, `listAddTail_head`, `listDel_ring`, `listFirstEntry_ring`:
    what the operations do to a circle;
  * `listAdd_rings`, `listAddTail_rings`, `listDel_rings`, `listSpliceInit_rings`:
    what they do in a memory of many circles;
  * `Cursor`, `safeLoop_spec`: the loop that may delete the nodes it has visited;
  * `intrusive_list_refines`: the lists of a memory are sequences.
-/
import EeftSched.Lib.CircularList
import Mathlib.Data.List.Perm.Subperm

namespace EeftSched

open CircularList CircularList.Links

universe u v
variable {α : Type u} [DecidableEq α] {h : Links α} {a x new : α} {l l₁ l₂ : List α}

/-- `INIT_LIST_HEAD` -/
def initListHead (h : Links α) (list : α) : Links α :=
  (h.setNext list (some list)).setPrev list (some list)

/-- `list_add`; `Links.link` is `__list_add`. -/
def listAdd (h : Links α) (newEntry head : α) : Option (Links α) := do
  let next ← h.next head
  pure (h.link newEntry head next)

/-- `list_add_tail` -/
def listAddTail (h : Links α) (newEntry head : α) : Option (Links α) := do
  let prev ← h.prev head
  pure (h.link newEntry prev head)

/-- `list_del`; `Links.join` is `__list_del`. -/
def listDel (h : Links α) (entry : α) : Option (Links α) := do
  let prev ← h.prev entry
  let next ← h.next entry
  pure (((h.join prev next).setNext entry none).setPrev entry none)

/-- `list_splice_init`; `Links.splice` has the four writes between the two lists. -/
def ListHead.listSpliceInit (h : Links α) (list head : α) : Option (Links α) := do
  let first ← h.next list
  if first = list then pure h
  else
    let last ← h.prev list
    let at_ ← h.next head
    pure (initListHead (h.splice first last head at_) list)

/-- The loop of `list_for_each_entry_safe`; the body is given the nodes visited
    so far, the current one last. -/
def safeLoop (head : α) (body : List α → Links α → Option (Links α)) :
    ℕ → List α → α → α → Links α → Option (List α × Links α)
  | 0, _, _, _, _ => none
  | fuel + 1, visited, pos, n, h =>
    if pos = head then some (visited, h)
    else do
      let h ← body (visited ++ [pos]) h
      let next ← h.next n
      safeLoop head body fuel (visited ++ [pos]) n next h

/-- `list_for_each_entry_safe`: the nodes visited, and the memory afterwards -/
def listForEachEntrySafe (fuel : ℕ) (h : Links α) (head : α)
    (body : List α → Links α → Option (Links α)) : Option (List α × Links α) := do
  let pos ← h.next head
  let n ← h.next pos
  safeLoop head body fuel [] pos n h

/-- `list_first_entry` -/
def listFirstEntry (h : Links α) (ptr : α) : Option (Option α) := do
  let next ← h.next ptr
  pure (if next = ptr then none else some next)

theorem initListHead_ring (h : Links α) (a : α) : (initListHead h a).Ring a [] := by
  refine ⟨⟨?_, ?_⟩, List.nodup_singleton a⟩
  · simp [initListHead]
  · simp [initListHead]

theorem listAddTail_head (hr : h.Ring a l) (hn : new ∉ a :: l) :
    ∃ h', listAddTail h new a = some h' ∧ h'.Ring a (l ++ [new]) := by
  obtain ⟨p, hp⟩ := hr.exists_prev
  exact ⟨h.link new p a, by simp [listAddTail, hp], hr.insert_before_head hp hn⟩

theorem listAddTail_ring (hr : h.Ring a (l₁ ++ x :: l₂)) (hn : new ∉ a :: (l₁ ++ x :: l₂)) :
    ∃ h', listAddTail h new x = some h' ∧ h'.Ring a (l₁ ++ new :: x :: l₂) := by
  obtain ⟨p, hp⟩ := hr.rotate.exists_prev
  exact ⟨h.link new p x, by simp [listAddTail, hp], hr.insert_before hp hn⟩

theorem listDel_ring (hr : h.Ring a (l₁ ++ x :: l₂)) :
    ∃ h', listDel h x = some h' ∧ h'.Ring a (l₁ ++ l₂) := by
  obtain ⟨p, hp⟩ := hr.rotate.exists_prev
  obtain ⟨q, hq⟩ := hr.rotate.exists_next
  have hx : ∀ y ∈ a :: (l₁ ++ l₂), y ≠ x := by
    have hd := hr.nodup
    rw [← List.cons_append, List.nodup_middle] at hd
    rintro y hy rfl
    exact (List.nodup_cons.1 hd).1 hy
  refine ⟨((h.join p q).setNext x none).setPrev x none, by simp [listDel, hp, hq],
    (hr.bypass hp hq).congr (fun y hy => ?_) fun y hy => ?_⟩
  · simp [hx y hy]
  · simp [hx y hy]

theorem listFirstEntry_nil (hr : h.Ring a []) : listFirstEntry h a = some none := by
  simp [listFirstEntry, hr.next_nil]

theorem listFirstEntry_cons (hr : h.Ring a (x :: l)) : listFirstEntry h a = some (some x) := by
  have hne : x ≠ a := by
    rintro rfl
    exact (List.nodup_cons.1 hr.nodup).1 List.mem_cons_self
  simp [listFirstEntry, hr.next_cons, hne]

/-! ## Many lists in one memory -/

section Lists

variable {ι : Type v} {head : ι → α} {seq : ι → List α} {h' : Links α} {i j : ι}

/-- `new` is put into the circle of `i`, between two of its nodes. -/
theorem same_link {p q y : α} (hp : p ∈ head i :: seq i) (hq : q ∈ head i :: seq i)
    (hy : y ∉ head i :: seq i) (hn : y ≠ new) :
    (h.link new p q).next y = h.next y ∧ (h.link new p q).prev y = h.prev y :=
  ⟨next_link_of_ne (fun heq => hy (heq ▸ hp)) hn, prev_link_of_ne (fun heq => hy (heq ▸ hq)) hn⟩

variable [DecidableEq ι]

/-- The memory `h'` has the lists `seq'` where `h` has the lists `seq`; only the
    pointers of the lists that `touched` names have changed. -/
structure Becomes (h : Links α) (head : ι → α) (seq : ι → List α) (touched : ι → Prop) (h' : Links α)
    (seq' : ι → List α) : Prop where
  rings : h'.Rings head seq'
  frame : ∀ j, ¬ touched j → h.Same h' (head j :: seq j)

/-- A node is put into one of the lists. -/
theorem Becomes.of_link {p q : α} {l : List α} (hr : h.Rings head seq) (hn : ∀ j, new ∉ head j :: seq j)
    (hp : p ∈ head i :: seq i) (hq : q ∈ head i :: seq i) (hl : (h.link new p q).Ring (head i) l)
    (hmem : ∀ y ∈ l, y ∈ seq i ∨ y = new) :
    Becomes h head seq (· = i) (h.link new p q) (Function.update seq i l) := by
  have hframe : ∀ j, j ≠ i → h.Same (h.link new p q) (head j :: seq j) := fun j hj y hy =>
    same_link hp hq (fun hy' => hj (hr.once j i y hy hy')) fun heq => hn j (heq ▸ hy)
  refine ⟨hr.update hl (fun y hy => ?_) hframe, hframe⟩
  rcases hmem y hy with hy | rfl
  · exact .inl hy
  · exact .inr hn

theorem listAdd_rings (hr : h.Rings head seq) (hn : ∀ j, new ∉ head j :: seq j) (i : ι) :
    ∃ h', listAdd h new (head i) = some h' ∧
      Becomes h head seq (· = i) h' (Function.update seq i (new :: seq i)) := by
  obtain ⟨q, hq⟩ := (hr.ring i).exists_next
  refine ⟨h.link new (head i) q, by simp [listAdd, hq],
    .of_link hr hn List.mem_cons_self ((hr.ring i).next_mem_circle hq)
      ((hr.ring i).insert_after hq (hn i)) fun y hy => ?_⟩
  exact (List.mem_cons.1 hy).symm

theorem listAddTail_rings (hr : h.Rings head seq) (hn : ∀ j, new ∉ head j :: seq j) (i : ι) :
    ∃ h', listAddTail h new (head i) = some h' ∧
      Becomes h head seq (· = i) h' (Function.update seq i (seq i ++ [new])) := by
  obtain ⟨p, hp⟩ := (hr.ring i).exists_prev
  refine ⟨h.link new p (head i), by simp [listAddTail, hp],
    .of_link hr hn ((hr.ring i).prev_mem_circle hp) List.mem_cons_self
      ((hr.ring i).insert_before_head hp (hn i)) fun y hy => ?_⟩
  exact (List.mem_append.1 hy).imp_right List.mem_singleton.1

/-- A deleted node is off its list, and its pointers are null. -/
theorem listDel_rings (hr : h.Rings head seq) (hx : x ∈ seq i) :
    ∃ h', listDel h x = some h' ∧ h'.next x = none ∧ h'.prev x = none ∧
      (∀ y ∉ head i :: seq i, h'.next y = h.next y ∧ h'.prev y = h.prev y) ∧
      Becomes h head seq (· = i) h' (Function.update seq i ((seq i).erase x)) := by
  obtain ⟨l₁, l₂, hl⟩ := List.append_of_mem hx
  have hring := hr.ring i
  rw [hl] at hring
  have hrot := hring.rotate
  obtain ⟨p, hp⟩ := hrot.exists_prev
  obtain ⟨q, hq⟩ := hrot.exists_next
  have hsub : ∀ y ∈ x :: (l₂ ++ head i :: l₁), y ∈ head i :: seq i := by
    intro y hy
    rw [hl]
    simp only [List.mem_cons, List.mem_append] at hy ⊢
    tauto
  have hpmem := hsub p (hrot.prev_mem_circle hp)
  have hqmem := hsub q (hrot.next_mem_circle hq)
  obtain ⟨h', hdel, hring'⟩ := listDel_ring hring
  obtain rfl : ((h.join p q).setNext x none).setPrev x none = h' :=
    Option.some.inj (by rw [← hdel]; simp [listDel, hp, hq])
  have hsame : ∀ y ∉ head i :: seq i,
      (((h.join p q).setNext x none).setPrev x none).next y = h.next y ∧
      (((h.join p q).setNext x none).setPrev x none).prev y = h.prev y := by
    intro y hy
    have hyx : y ≠ x := fun heq => hy (heq ▸ List.mem_cons_of_mem _ hx)
    have hyp : y ≠ p := fun heq => hy (heq ▸ hpmem)
    have hyq : y ≠ q := fun heq => hy (heq ▸ hqmem)
    simp [hyx, join, hyp, hyq]
  have hframe : ∀ j, j ≠ i → h.Same _ (head j :: seq j) := fun j hj => hr.same_of_ne hsame hj
  have hx₁ : x ∉ l₁ := by
    have hd := (List.nodup_cons.1 hring.nodup).2
    rw [List.nodup_middle] at hd
    exact fun hmem => (List.nodup_cons.1 hd).1 (List.mem_append_left _ hmem)
  have herase : (seq i).erase x = l₁ ++ l₂ := by
    rw [hl, List.erase_append_right _ hx₁, List.erase_cons_head]
  refine ⟨_, hdel, by simp, by simp, hsame, ?_, hframe⟩
  rw [herase]
  refine hr.update hring' (fun y hy => .inl ?_) hframe
  rw [hl]
  exact (List.mem_append.1 hy).elim (List.mem_append_left _) fun hy =>
    List.mem_append_right _ (List.mem_cons_of_mem _ hy)

theorem listSpliceInit_rings (hr : h.Rings head seq) (hij : i ≠ j) :
    ∃ h', ListHead.listSpliceInit h (head i) (head j) = some h' ∧
      Becomes h head seq (fun k => k = i ∨ k = j) h'
        (Function.update (Function.update seq i []) j (seq i ++ seq j)) := by
  have hi := hr.ring i
  have hj := hr.ring j
  by_cases hne : seq i = []
  · refine ⟨h, ?_, ?_, fun k _ y _ => ⟨rfl, rfl⟩⟩
    · rw [hne] at hi
      simp [ListHead.listSpliceInit, hi.next_nil]
    · refine hr.move hij (hne ▸ hi) ?_ fun k _ _ y _ => ⟨rfl, rfl⟩
      rw [hne]
      exact hj
  · obtain ⟨first, hfirst⟩ := hi.exists_next
    obtain ⟨last, hlast⟩ := hi.exists_prev
    obtain ⟨q, hq⟩ := hj.exists_next
    have hdisj : (head i :: seq i).Disjoint (head j :: seq j) :=
      fun y hy hy' => hij (hr.once i j y hy hy')
    have hfirst_ne : first ≠ head i := by
      obtain ⟨y, l, hl⟩ := List.exists_cons_of_ne_nil hne
      rw [hl] at hi
      obtain rfl : y = first := Option.some.inj (hi.next_cons.symm.trans hfirst)
      exact fun heq => (List.nodup_cons.1 hi.nodup).1 (heq ▸ List.mem_cons_self)
    have hsplice := hi.splice hj hne hdisj hfirst hlast hq
    have hframe : ∀ k, k ≠ i → k ≠ j →
        h.Same (initListHead (h.splice first last (head j) q) (head i)) (head k :: seq k) := by
      intro k hki hkj y hy
      have hyi : y ∉ head i :: seq i := fun hy' => hki (hr.once k i y hy hy')
      have hyj : y ∉ head j :: seq j := fun hy' => hkj (hr.once k j y hy hy')
      have hhead : y ≠ head i := fun heq => hyi (heq ▸ List.mem_cons_self)
      have hnext : (h.splice first last (head j) q).next y = h.next y :=
        next_splice_of_ne (fun heq => hyj (heq ▸ List.mem_cons_self))
          fun heq => hyi (heq ▸ hi.prev_mem_circle hlast)
      have hprev : (h.splice first last (head j) q).prev y = h.prev y :=
        prev_splice_of_ne (fun heq => hyi (heq ▸ hi.next_mem_circle hfirst))
          fun heq => hyj (heq ▸ hj.next_mem_circle hq)
      simp [initListHead, hhead, hnext, hprev]
    refine ⟨initListHead (h.splice first last (head j) q) (head i), ?_, ?_, ?_⟩
    · simp [ListHead.listSpliceInit, hfirst, hfirst_ne, hlast, hq]
    · refine hr.move hij (initListHead_ring _ _) (hsplice.of_same fun y hy => ?_) hframe
      have hne : y ≠ head i := by
        rintro rfl
        rcases List.mem_cons.1 hy with heq | hy
        · exact hdisj List.mem_cons_self (heq ▸ List.mem_cons_self)
        · rcases List.mem_append.1 hy with hy | hy
          · exact (List.nodup_cons.1 hi.nodup).1 hy
          · exact hdisj List.mem_cons_self (List.mem_cons_of_mem _ hy)
      simp [initListHead, hne]
    · intro k hk
      rw [not_or] at hk
      exact hframe k hk.1 hk.2

/-! ## The loop that may delete what it visits -/

/-- Each time, the body deletes nodes that have been visited and are still on
    their list. -/
def DeletesVisited (body : List α → Links α → Option (Links α)) : Prop :=
  ∀ visited h, ∃ xs : List α, xs.Nodup ∧ (∀ x ∈ xs, x ∈ visited ∧ h.next x ≠ none) ∧
    body visited h = xs.foldlM listDel h

/-- The loop over the list of `i` has visited some nodes, of which `kept` are
    left, and has `rest` before it. -/
structure Cursor (h₀ : Links α) (head : ι → α) (seq : ι → List α) (i : ι)
    (visited kept rest : List α) (h : Links α) : Prop where
  becomes : Becomes h₀ head seq (· = i) h (Function.update seq i (kept ++ rest))
  sub : kept.Sublist visited
  gone : ∀ y ∈ visited, y ∉ kept → h.next y = none

variable {h₀ : Links α} {visited kept rest xs : List α}

namespace Cursor

omit [DecidableEq α] in
theorem ring (hc : Cursor h₀ head seq i visited kept rest h) : h.Ring (head i) (kept ++ rest) := by
  have hr := hc.becomes.rings.ring i
  rwa [Function.update_self] at hr

omit [DecidableEq α] in
/-- The next node is visited. -/
theorem visit (hc : Cursor h₀ head seq i visited kept (x :: rest) h) :
    Cursor h₀ head seq i (visited ++ [x]) (kept ++ [x]) rest h where
  becomes := by
    rw [List.append_assoc]
    exact hc.becomes
  sub := hc.sub.append (List.Sublist.refl _)
  gone y hy hno := by
    rw [List.mem_append, not_or] at hno
    exact hc.gone y ((List.mem_append.1 hy).resolve_right hno.2) hno.1

/-- A visited node is deleted. -/
theorem delete (hc : Cursor h₀ head seq i visited kept rest h) (hx : x ∈ kept) :
    ∃ h', listDel h x = some h' ∧ Cursor h₀ head seq i visited (kept.erase x) rest h' := by
  have hmem : x ∈ Function.update seq i (kept ++ rest) i := by
    rw [Function.update_self]
    exact List.mem_append_left _ hx
  obtain ⟨h', hdel, hnext, -, hsame, hb⟩ := listDel_rings hc.becomes.rings hmem
  rw [Function.update_self, List.erase_append_left _ hx, Function.update_idem] at hb
  refine ⟨h', hdel, ⟨hb.rings, fun j hj => ?_⟩, List.erase_sublist.trans hc.sub, fun y hy hno => ?_⟩
  · have hs := hb.frame j hj
    rw [Function.update_of_ne hj] at hs
    exact (hc.becomes.frame j hj).trans hs
  · by_cases hyx : y = x
    · rw [hyx, hnext]
    · have hgone := hc.gone y hy fun hmem => hno ((List.mem_erase_of_ne hyx).2 hmem)
      rw [(hsame y fun hmem => (hc.becomes.rings.ring i).next_ne_none hmem hgone).1, hgone]

/-- The body runs. -/
theorem deleteAll (hc : Cursor h₀ head seq i visited kept rest h) (hn : xs.Nodup)
    (hxs : ∀ x ∈ xs, x ∈ kept) :
    ∃ h' kept', xs.foldlM listDel h = some h' ∧
      Cursor h₀ head seq i visited kept' rest h' := by
  induction xs generalizing kept h with
  | nil => exact ⟨h, kept, rfl, hc⟩
  | cons x xs ih =>
    obtain ⟨hx, hn⟩ := List.nodup_cons.1 hn
    obtain ⟨h₁, hdel, hc₁⟩ := hc.delete (hxs x List.mem_cons_self)
    obtain ⟨h', kept', hrun, hc'⟩ := ih hc₁ hn fun y hy => by
      have hyx : y ≠ x := fun heq => hx (heq ▸ hy)
      exact (List.mem_erase_of_ne hyx).2 (hxs y (List.mem_cons_of_mem _ hy))
    refine ⟨h', kept', ?_, hc'⟩
    rw [List.foldlM_cons, hdel]
    exact hrun

theorem body {body : List α → Links α → Option (Links α)}
    (hc : Cursor h₀ head seq i visited kept rest h) (hb : DeletesVisited body) :
    ∃ h' kept', body visited h = some h' ∧ Cursor h₀ head seq i visited kept' rest h' := by
  obtain ⟨xs, hn, hxs, heq⟩ := hb visited h
  rw [heq]
  refine hc.deleteAll hn fun x hx => ?_
  by_contra hno
  exact (hxs x hx).2 (hc.gone x (hxs x hx).1 hno)

/-- What is left of the list are the nodes that were not deleted. -/
theorem kept_eq (hc : Cursor h₀ head seq i visited kept [] h) (hn : visited.Nodup) :
    kept = visited.filter fun y => (h.next y).isSome := by
  have hlinked : ∀ y ∈ kept, (h.next y).isSome = true := fun y hy =>
    Option.isSome_iff_ne_none.2 (hc.ring.next_ne_none (List.mem_cons_of_mem _ (by simpa using hy)))
  have hsub := hc.sub.filter fun y => (h.next y).isSome
  rw [List.filter_eq_self.2 hlinked] at hsub
  refine hsub.eq_of_length_le (List.subperm_of_subset (hn.filter _) fun y hy => ?_).length_le
  obtain ⟨hy, hsome⟩ := List.mem_filter.1 hy
  by_contra hno
  rw [hc.gone y hy hno] at hsome
  cases hsome

end Cursor

/-- **The rest of the loop** visits the rest of the list. -/
theorem safeLoop_spec {body : List α → Links α → Option (Links α)} (hb : DeletesVisited body)
    (hc : Cursor h₀ head seq i visited kept rest h) {fuel : ℕ} (hf : rest.length < fuel) {n : α}
    (hn : rest ≠ [] → n = rest.tail.headD (head i)) :
    ∃ h' kept', safeLoop (head i) body fuel visited (rest.headD (head i)) n h =
        some (visited ++ rest, h') ∧ Cursor h₀ head seq i (visited ++ rest) kept' [] h' := by
  induction rest generalizing visited kept h n fuel with
  | nil =>
    obtain ⟨fuel, rfl⟩ : ∃ k, fuel = k + 1 := ⟨fuel - 1, by omega⟩
    refine ⟨h, kept, ?_, ?_⟩
    · rw [List.append_nil]
      exact if_pos rfl
    · rw [List.append_nil]
      exact hc
  | cons x rest ih =>
    obtain ⟨fuel, rfl⟩ : ∃ k, fuel = k + 1 := ⟨fuel - 1, by omega⟩
    have hx : x ≠ head i := by
      rintro rfl
      exact (List.nodup_cons.1 hc.ring.nodup).1 (List.mem_append_right _ List.mem_cons_self)
    obtain ⟨h₁, kept₁, hbody, hc₁⟩ := hc.visit.body hb
    obtain rfl : n = rest.headD (head i) := hn (List.cons_ne_nil _ _)
    -- the next pointer is read from a node that is still to be visited, or from the head
    obtain ⟨next, hnext, htail⟩ : ∃ next, h₁.next (rest.headD (head i)) = some next ∧
        (rest ≠ [] → next = rest.tail.headD (head i)) := by
      cases rest with
      | nil => exact ⟨_, hc₁.ring.next_head, fun hne => absurd rfl hne⟩
      | cons y rest => exact ⟨_, hc₁.ring.next_mem, fun _ => rfl⟩
    obtain ⟨h', kept', hrun, hc'⟩ := ih hc₁ (by simpa using hf) htail
    rw [List.append_assoc] at hrun hc'
    refine ⟨h', kept', ?_, hc'⟩
    rw [safeLoop, List.headD_cons, if_neg hx, hbody]
    simp only [Option.bind_eq_bind, Option.bind_some, hnext]
    exact hrun

theorem listForEachEntrySafe_rings (hr : h.Rings head seq) (i : ι)
    {body : List α → Links α → Option (Links α)} (hb : DeletesVisited body) {fuel : ℕ}
    (hf : (seq i).length < fuel) :
    ∃ h', listForEachEntrySafe fuel h (head i) body = some (seq i, h') ∧
      Becomes h head seq (· = i) h'
        (Function.update seq i ((seq i).filter fun y => (h'.next y).isSome)) := by
  have hstart : Cursor h head seq i [] [] (seq i) h := by
    refine ⟨⟨?_, fun j _ y _ => ⟨rfl, rfl⟩⟩, List.Sublist.refl _, nofun⟩
    rw [List.nil_append, Function.update_eq_self]
    exact hr
  have hring := hr.ring i
  obtain ⟨n, hnext, htail⟩ : ∃ n, h.next ((seq i).headD (head i)) = some n ∧
      (seq i ≠ [] → n = (seq i).tail.headD (head i)) := by
    cases hs : seq i with
    | nil =>
      rw [hs] at hring
      exact ⟨_, hring.next_head, fun hne => absurd rfl hne⟩
    | cons y rest =>
      rw [hs] at hring
      exact ⟨_, @Ring.next_mem _ h _ y [] rest hring, fun _ => rfl⟩
  obtain ⟨h', kept, hrun, hc⟩ := safeLoop_spec hb hstart hf htail
  rw [List.nil_append] at hrun hc
  refine ⟨h', ?_, ?_⟩
  · rw [listForEachEntrySafe, hring.next_head]
    simp only [Option.bind_eq_bind, Option.bind_some, hnext]
    exact hrun
  · rw [← hc.kept_eq (List.nodup_cons.1 hring.nodup).2]
    have hbecomes := hc.becomes
    rw [List.append_nil] at hbecomes
    exact hbecomes

/-- **The intrusive lists of a memory are sequences.** -/
theorem intrusive_list_refines (hr : h.Rings head seq) :
    (∀ i new, (∀ j, new ∉ head j :: seq j) →
      (∃ h', listAdd h new (head i) = some h' ∧
        Becomes h head seq (· = i) h' (Function.update seq i (new :: seq i))) ∧
      ∃ h', listAddTail h new (head i) = some h' ∧
        Becomes h head seq (· = i) h' (Function.update seq i (seq i ++ [new]))) ∧
    (∀ i, ∀ x ∈ seq i, ∃ h', listDel h x = some h' ∧ h'.next x = none ∧ h'.prev x = none ∧
      Becomes h head seq (· = i) h' (Function.update seq i ((seq i).erase x))) ∧
    (∀ i j, i ≠ j → ∃ h', ListHead.listSpliceInit h (head i) (head j) = some h' ∧
      Becomes h head seq (fun k => k = i ∨ k = j) h'
        (Function.update (Function.update seq i []) j (seq i ++ seq j))) ∧
    ∀ i body, DeletesVisited body → ∀ fuel > (seq i).length,
      (seq i).Nodup ∧ ∃ h', listForEachEntrySafe fuel h (head i) body = some (seq i, h') ∧
        Becomes h head seq (· = i) h'
          (Function.update seq i ((seq i).filter fun y => (h'.next y).isSome)) := by
  refine ⟨fun i new hn => ⟨listAdd_rings hr hn i, listAddTail_rings hr hn i⟩, fun i x hx => ?_,
    fun i j hij => listSpliceInit_rings hr hij, fun i body hb fuel hf => ?_⟩
  · obtain ⟨h', hdel, hnext, hprev, -, hbecomes⟩ := listDel_rings hr hx
    exact ⟨h', hdel, hnext, hprev, hbecomes⟩
  · exact ⟨(List.nodup_cons.1 (hr.ring i).nodup).2, listForEachEntrySafe_rings hr i hb hf⟩

end Lists

/-- The nodes 2 and 3 on the list of 0, and 4 on the list of 1 -/
def twoLists : Links ℕ where
  next := fun | 0 => some 2 | 2 => some 3 | 3 => some 0 | 1 => some 4 | 4 => some 1 | _ => none
  prev := fun | 0 => some 3 | 2 => some 0 | 3 => some 2 | 1 => some 4 | 4 => some 1 | _ => none

theorem twoLists_rings :
    twoLists.Rings (fun b : Bool => if b then 1 else 0) fun b => if b then [4] else [2, 3] where
  ring b := by
    cases b
    · exact ⟨⟨⟨rfl, rfl⟩, ⟨rfl, rfl⟩, rfl, rfl⟩, by decide⟩
    · exact ⟨⟨⟨rfl, rfl⟩, rfl, rfl⟩, by decide⟩
  once i j y hi hj := by
    cases i <;> cases j <;> simp at hi hj ⊢ <;> omega

theorem twoLists_spliced : ∃ h', ListHead.listSpliceInit twoLists 0 1 = some h' ∧ h'.Ring 1 [2, 3, 4] ∧
    h'.Ring 0 [] := by
  obtain ⟨h', hsplice, hbecomes⟩ := (intrusive_list_refines twoLists_rings).2.2.1 false true nofun
  exact ⟨h', hsplice, hbecomes.rings.ring true, hbecomes.rings.ring false⟩

end EeftSched

/-
  The ring buffer in the hands of one thread (`lib/ring_buffer.h`).

  With no other thread at it, each operation is a function of the buffer;
  `ring_buffer_enqueue` then never returns if its slot is not free.

  * `Holds`: the buffer holds a list, from some position on;
  * `Holds.enqueue`, `Holds.tryDequeue`, `Holds.clear`, `Holds.iterRead`: what
    the operations do to the list;
  * `ringBufferEnqueue_exec`, `ringBufferTryDequeue_exec`: each is a run of one
    thread;
  * `Inv.holds`: what the buffer holds when no operation is under way.
-/
import EeftSched.RingBuffer
import Mathlib.Data.Nat.ModEq

namespace EeftSched.Mpmc

open Lts

universe u
variable {Θ α : Type u}

/-- `ring_buffer_enqueue`; `none` if it spins -/
def ringBufferEnqueue (rb : RingBuffer α) (elem : α) : Option (RingBuffer α) :=
  if rb.seq (rb.slot rb.tail) = rb.tail then
    some (({ rb with tail := (rb.tail + 1) % wrap }.setBuffer rb.tail elem).setSeq rb.tail
      ((rb.tail + 1) % wrap))
  else none

/-- `ring_buffer_try_dequeue` -/
def ringBufferTryDequeue (rb : RingBuffer α) : Option (α × RingBuffer α) :=
  if rb.seq (rb.slot rb.head) = (rb.head + 1) % wrap then
    some (rb.buffer (rb.slot rb.head), { rb with head := (rb.head + 1) % wrap }.setSeq rb.head
      ((rb.head + rb.bufSize) % wrap))
  else none

/-- `ring_buffer_clear` -/
def ringBufferClear (rb : RingBuffer α) : RingBuffer α :=
  { (List.range' rb.head (rb.tail - rb.head)).foldl
      (fun rb i => rb.setSeq i ((i + rb.bufSize) % wrap)) rb with head := rb.tail }

/-- `ring_buffer_iter_read_unsafe` -/
def ringBufferIterRead (rb : RingBuffer α) : List α :=
  (List.range' rb.head (rb.tail - rb.head)).map fun i => rb.buffer (rb.slot i)

/-! ## One thread at the buffer -/

section
variable [DecidableEq Θ] {S : Sys Θ α} {θ : Θ} {rb' : RingBuffer α}

theorem ringBufferEnqueue_exec {elem : α} (hp : S.pc θ = .idle)
    (h : ringBufferEnqueue S.rb elem = some rb') :
    ∃ tr, Exec Step S tr ⟨rb', S.pc⟩ ∧ enqueued tr = [(S.rb.tail, elem)] ∧ delivered tr = [] := by
  unfold ringBufferEnqueue at h
  split_ifs at h with hs
  obtain rfl := Option.some.inj h
  have h : Exec Step S [] S := .nil
  have h := h.snoc ⟨θ, .enqueue elem hp⟩
  have h := h.snoc ⟨θ, .enqReady (Function.update_self ..) hs⟩
  have h := h.snoc ⟨θ, .enqCopyStart elem (Function.update_self ..)⟩
  have h := h.snoc ⟨θ, .enqCopyEnd (Function.update_self ..)⟩
  have h := h.snoc ⟨θ, .publish (Function.update_self ..)⟩
  obtain ⟨tr, h, he, hd⟩ : ∃ tr, Exec Step S tr _ ∧ enqueued tr = [(S.rb.tail, elem)] ∧
    delivered tr = [] := ⟨_, h, rfl, rfl⟩
  refine ⟨tr, ?_, he, hd⟩
  convert h using 1
  simp only [Sys.setPc, RingBuffer.setSeq, RingBuffer.setBuffer, RingBuffer.slot, Function.update_idem]
  rw [← hp, Function.update_eq_self]

theorem ringBufferTryDequeue_exec {elem : α} (hp : S.pc θ = .idle)
    (h : ringBufferTryDequeue S.rb = some (elem, rb')) :
    ∃ tr, Exec Step S tr ⟨rb', S.pc⟩ ∧ enqueued tr = [] ∧ delivered tr = [(S.rb.head, elem)] := by
  unfold ringBufferTryDequeue at h
  split_ifs at h with hs
  obtain ⟨rfl, rfl⟩ := Prod.mk.inj (Option.some.inj h)
  have h : Exec Step S [] S := .nil
  have h := h.snoc ⟨θ, .tryDequeue hp⟩
  have h := h.snoc ⟨θ, .deqFull (Function.update_self ..) hs⟩
  have h := h.snoc ⟨θ, .deqCas (Function.update_self ..) rfl⟩
  have h := h.snoc ⟨θ, .deqCopyStart (Function.update_self ..)⟩
  have h := h.snoc ⟨θ, .deqCopyEnd (Function.update_self ..)⟩
  have h := h.snoc ⟨θ, .release (Function.update_self ..)⟩
  obtain ⟨tr, h, he, hd⟩ : ∃ tr, Exec Step S tr _ ∧ enqueued tr = [] ∧
    delivered tr = [(S.rb.head, S.rb.buffer (S.rb.slot S.rb.head))] := ⟨_, h, rfl, rfl⟩
  refine ⟨tr, ?_, he, hd⟩
  convert h using 1
  simp only [Sys.setPc, RingBuffer.setSeq, RingBuffer.slot, Function.update_idem]
  rw [← hp, Function.update_eq_self]

end

/-! ## The list a buffer holds -/

/-- The buffer holds `l`, from position `k` on; no operation is under way. -/
structure Holds (rb : RingBuffer α) (size k : ℕ) (l : List α) : Prop where
  bufSize : rb.bufSize = size
  head : rb.head = k % wrap
  tail : rb.tail = (k + l.length) % wrap
  le : l.length ≤ size
  full : ∀ i < l.length, rb.seq ((k + i) % size) = (k + i + 1) % wrap
  value : ∀ (i : ℕ) e, l[i]? = some e → rb.buffer ((k + i) % size) = e
  free : ∀ i < size, l.length ≤ i → rb.seq ((k + i) % size) = (k + i) % wrap

namespace Holds

variable {rb rb' : RingBuffer α} {size k : ℕ} {l : List α} {e : α}

/-- Slots of different positions in one lap -/
theorem slot_ne {i j : ℕ} (hi : i < size) (hj : j < size) (hij : i ≠ j) :
    (k + i) % size ≠ (k + j) % size := by
  intro h
  have h' : i ≡ j [MOD size] := Nat.ModEq.add_left_cancel' k h
  exact hij (Nat.ModEq.eq_of_lt_of_lt h' hi hj)

/-- Positions wrap at a multiple of the size, or have not wrapped yet. -/
theorem slot_eq (h : Holds rb size k l) {j : ℕ} (hj : size ∣ wrap ∨ j < wrap) :
    rb.slot (j % wrap) = j % size := by
  rw [RingBuffer.slot, h.bufSize]
  rcases hj with hdvd | hlt
  · exact Nat.mod_mod_of_dvd _ hdvd
  · rw [Nat.mod_eq_of_lt hlt]

theorem init {buffer : ℕ → α} (hw : size ≤ wrap) : Holds ⟨0, 0, fun i => i, size, buffer⟩ size 0 [] where
  bufSize := rfl
  head := rfl
  tail := rfl
  le := Nat.zero_le _
  full := nofun
  value := nofun
  free i hi _ := by
    rw [Nat.zero_add, Nat.mod_eq_of_lt hi, Nat.mod_eq_of_lt (hi.trans_le hw)]

/-- There is room: the element goes to the end. -/
theorem enqueue (h : Holds rb size k l) (hw : size ∣ wrap ∨ k + l.length < wrap)
    (hlt : l.length < size) (e : α) :
    ∃ rb', ringBufferEnqueue rb e = some rb' ∧ Holds rb' size k (l ++ [e]) := by
  have hslot : rb.slot rb.tail = (k + l.length) % size := by rw [h.tail, h.slot_eq hw]
  have hseq : rb.seq (rb.slot rb.tail) = rb.tail := by
    rw [hslot, h.free _ hlt le_rfl, h.tail]
  have hlen : (l ++ [e]).length = l.length + 1 := List.length_append
  have hnext : (rb.tail + 1) % wrap = (k + l.length + 1) % wrap := by rw [h.tail, Nat.mod_add_mod]
  refine ⟨_, if_pos hseq, h.bufSize, h.head, ?_, ?_, ?_, ?_, ?_⟩
  · rw [hlen]
    exact hnext
  · rw [hlen]
    exact hlt
  · intro i hi
    rw [hlen] at hi
    show Function.update rb.seq (rb.slot rb.tail) ((rb.tail + 1) % wrap) ((k + i) % size) = _
    by_cases hil : i = l.length
    · rw [hil, hslot, Function.update_self, hnext]
    · rw [hslot, Function.update_of_ne (slot_ne (by omega) hlt hil)]
      exact h.full i (by omega)
  · intro i x hx
    show Function.update rb.buffer (rb.slot rb.tail) e ((k + i) % size) = x
    have hi := (List.getElem?_eq_some_iff.1 hx).1
    rw [hlen] at hi
    by_cases hil : i = l.length
    · rw [hil, List.getElem?_concat_length] at hx
      rw [hil, hslot, Function.update_self]
      exact Option.some.inj hx
    · rw [hslot, Function.update_of_ne (slot_ne (by omega) hlt hil)]
      rw [List.getElem?_append_left (by omega)] at hx
      exact h.value i x hx
  · intro i hi hle
    rw [hlen] at hle
    show Function.update rb.seq (rb.slot rb.tail) ((rb.tail + 1) % wrap) ((k + i) % size) = _
    rw [hslot, Function.update_of_ne (slot_ne hi hlt (by omega))]
    exact h.free i hi (by omega)

/-- There is no room: the enqueue spins. -/
theorem enqueue_full (h : Holds rb size k l) (hw : size ∣ wrap ∨ k + l.length < wrap)
    (hsize : 3 ≤ size) (hl : l.length = size) (e : α) : ringBufferEnqueue rb e = none := by
  refine if_neg ?_
  rw [h.tail, h.slot_eq hw, hl, Nat.add_mod_right]
  have hfull := h.full 0 (by omega)
  rw [Nat.add_zero] at hfull
  rw [hfull]
  intro heq
  rcases hw with hdvd | hlt
  · have hmod : 1 ≡ size [MOD wrap] := Nat.ModEq.add_left_cancel' k heq
    have hmod' : 1 ≡ size [MOD size] := hmod.of_dvd hdvd
    rw [Nat.ModEq, Nat.mod_self, Nat.mod_eq_of_lt (by omega)] at hmod'
    cases hmod'
  · rw [Nat.mod_eq_of_lt (by omega), Nat.mod_eq_of_lt (by omega)] at heq
    omega

/-- The element at the front is taken. -/
theorem tryDequeue (h : Holds rb size k (e :: l)) (hw : size ∣ wrap ∨ k < wrap) :
    ∃ rb', ringBufferTryDequeue rb = some (e, rb') ∧ Holds rb' size (k + 1) l := by
  have hslot : rb.slot rb.head = k % size := by rw [h.head, h.slot_eq hw]
  have hfull := h.full 0 (Nat.succ_pos _)
  have hval := h.value 0 e rfl
  have hle : l.length + 1 ≤ size := h.le
  rw [Nat.add_zero] at hfull hval
  have hseq : rb.seq (rb.slot rb.head) = (rb.head + 1) % wrap := by
    rw [hslot, hfull, h.head, Nat.mod_add_mod]
  have hnext : (rb.head + rb.bufSize) % wrap = (k + size) % wrap := by
    rw [h.head, h.bufSize, Nat.mod_add_mod]
  have hpos : ∀ i, k + 1 + i = k + (i + 1) := fun i => by omega
  have heq : ringBufferTryDequeue rb = some (e, { rb with head := (rb.head + 1) % wrap }.setSeq rb.head
      ((rb.head + rb.bufSize) % wrap)) := by
    rw [ringBufferTryDequeue, if_pos hseq, hslot, hval]
  refine ⟨_, heq, h.bufSize, ?_, ?_, ?_, ?_, ?_, ?_⟩
  · show (rb.head + 1) % wrap = _
    rw [h.head, Nat.mod_add_mod]
  · show rb.tail = _
    rw [h.tail, hpos, List.length_cons]
  · omega
  · intro i hi
    show Function.update rb.seq (rb.slot rb.head) ((rb.head + rb.bufSize) % wrap) ((k + 1 + i) % size) = _
    have hne : (k + (i + 1)) % size ≠ k % size := slot_ne (j := 0) (by omega) (by omega) (by omega)
    rw [hpos, hslot, Function.update_of_ne hne]
    exact h.full (i + 1) (Nat.succ_lt_succ hi)
  · intro i x hx
    show rb.buffer ((k + 1 + i) % size) = x
    rw [hpos]
    exact h.value (i + 1) x hx
  · intro i hi hli
    show Function.update rb.seq (rb.slot rb.head) ((rb.head + rb.bufSize) % wrap) ((k + 1 + i) % size) = _
    rw [hpos, hslot]
    by_cases his : i + 1 = size
    · rw [his, Nat.add_mod_right, Function.update_self, hnext]
    · have hne : (k + (i + 1)) % size ≠ k % size := slot_ne (j := 0) (by omega) (by omega) (by omega)
      rw [Function.update_of_ne hne]
      exact h.free (i + 1) (by omega) (Nat.succ_le_succ hli)

/-- Nothing to take -/
theorem tryDequeue_nil (h : Holds rb size k ([] : List α)) (hw : size ∣ wrap ∨ k < wrap)
    (hsize : 0 < size) : ringBufferTryDequeue rb = none := by
  have hslot : rb.slot rb.head = k % size := by rw [h.head, h.slot_eq hw]
  have hfree := h.free 0 hsize le_rfl
  rw [Nat.add_zero] at hfree
  refine if_neg ?_
  rw [hslot, hfree, h.head, Nat.mod_add_mod]
  intro heq
  have hmod : 0 ≡ 1 [MOD wrap] := Nat.ModEq.add_left_cancel' k heq
  exact absurd hmod (by decide)

/-- The loop of `ring_buffer_clear` frees the slots it has come to. -/
theorem clear_loop (rb : RingBuffer α) (hsize : rb.bufSize = size) (k : ℕ) : ∀ n ≤ size,
    let rb' := (List.range' k n).foldl (fun rb i => rb.setSeq i ((i + rb.bufSize) % wrap)) rb
    rb'.bufSize = size ∧ rb'.tail = rb.tail ∧ (∀ i < n, rb'.seq ((k + i) % size) = (k + i + size) % wrap) ∧
      ∀ i < size, n ≤ i → rb'.seq ((k + i) % size) = rb.seq ((k + i) % size) := by
  intro n
  induction n with
  | zero =>
    intro _
    exact ⟨hsize, rfl, nofun, fun _ _ _ => rfl⟩
  | succ n ih =>
    intro hn
    obtain ⟨hs, htail, hdone, hrest⟩ := ih (Nat.le_of_succ_le hn)
    rw [List.range'_concat, List.foldl_concat, Nat.one_mul]
    generalize (List.range' k n).foldl (fun rb i => rb.setSeq i ((i + rb.bufSize) % wrap)) rb = rb'
      at hs htail hdone hrest ⊢
    have hslot : rb'.slot (k + n) = (k + n) % size := by rw [RingBuffer.slot, hs]
    refine ⟨hs, htail, ?_, ?_⟩
    · intro i hi
      show Function.update rb'.seq (rb'.slot (k + n)) ((k + n + rb'.bufSize) % wrap) _ = _
      rw [hslot, hs]
      by_cases hin : i = n
      · rw [hin, Function.update_self]
      · rw [Function.update_of_ne (slot_ne (by omega) (by omega) hin)]
        exact hdone i (by omega)
    · intro i hi hni
      show Function.update rb'.seq (rb'.slot (k + n)) _ _ = _
      rw [hslot, Function.update_of_ne (slot_ne hi (by omega) (by omega))]
      exact hrest i hi (by omega)

/-- The positions have not come round to 0. -/
theorem noWrap (h : Holds rb size k l) (hlt : k + l.length < wrap) :
    rb.head = k ∧ rb.tail = k + l.length := by
  rw [h.head, h.tail, Nat.mod_eq_of_lt hlt, Nat.mod_eq_of_lt (by omega)]
  exact ⟨rfl, rfl⟩

/-- The buffer is emptied. -/
theorem clear (h : Holds rb size k l) (hlt : k + l.length < wrap) :
    Holds (ringBufferClear rb) size (k + l.length) [] := by
  obtain ⟨hhead, htail⟩ := h.noWrap hlt
  have hle := h.le
  obtain ⟨hs, htail', hdone, hrest⟩ := clear_loop rb h.bufSize k l.length h.le
  rw [ringBufferClear, show rb.tail - rb.head = l.length by omega, hhead]
  refine ⟨hs, ?_, ?_, Nat.zero_le _, nofun, nofun, ?_⟩
  · show rb.tail = _
    rw [htail, Nat.mod_eq_of_lt hlt]
  · show RingBuffer.tail (List.foldl _ rb _) = _
    rw [htail', htail]
    exact (Nat.mod_eq_of_lt hlt).symm
  · intro i hi _
    show RingBuffer.seq (List.foldl _ rb _) _ = _
    by_cases his : l.length + i < size
    · have hfree := hrest (l.length + i) his (by omega)
      rw [h.free (l.length + i) his (by omega), ← Nat.add_assoc] at hfree
      exact hfree
    · -- the slot of an element that is gone, one lap on
      have hgone := hdone (l.length + i - size) (by omega)
      have hpos : k + l.length + i = k + (l.length + i - size) + size := by omega
      rw [hpos, Nat.add_mod_right]
      exact hgone

/-- The loop reads what the buffer holds, in order. -/
theorem iterRead (h : Holds rb size k l) (hlt : k + l.length < wrap) : ringBufferIterRead rb = l := by
  obtain ⟨hhead, htail⟩ := h.noWrap hlt
  refine List.ext_getElem ?_ ?_
  · rw [ringBufferIterRead, List.length_map, List.length_range']
    omega
  · intro i hi hi'
    simp only [ringBufferIterRead, List.getElem_map, List.getElem_range', Nat.one_mul]
    rw [RingBuffer.slot, h.bufSize, hhead]
    exact h.value i _ (List.getElem?_eq_getElem hi')

end Holds

/-! ## After concurrent use -/

variable {S : Sys Θ α} {size : ℕ} {G : Ghost α} {D : List (ℕ × α)}

/-- With no dequeue under way, what dequeues have claimed is delivered. -/
theorem Inv.lt_pos (h : Inv size G D S) (hidle : ∀ θ, S.pc θ = .idle) {k : ℕ} (hk : k < G.deqs) :
    k < G.pos (k % size) := by
  rcases h.owner k hk with hpos | ⟨θ, hθ⟩
  · exact hpos
  · rw [hidle θ] at hθ
    cases hθ

/-- With no enqueue under way, what enqueues have claimed is delivered or published. -/
theorem Inv.at_of_le (h : Inv size G D S) (hsize : 0 < size) (hidle : ∀ θ, S.pc θ = .idle) {k : ℕ}
    (hd : G.deqs ≤ k) (hk : k < G.elems.length) : G.At size k true := by
  rcases h.kept k hk with hpos | ha | ⟨θ, hθ⟩
  · have := h.lt_deqs hsize ((h.delivered k).2 hpos)
    omega
  · exact ha
  · rw [hidle θ] at hθ
    cases hθ

/-- **When no operation is under way, the buffer holds** the elements enqueued
    and not yet dequeued, in order. -/
theorem Inv.holds (h : Inv size G D S) (hsize : 0 < size) (hidle : ∀ θ, S.pc θ = .idle)
    (he : G.elems.length < wrap) : Holds S.rb size G.deqs (G.elems.drop G.deqs) := by
  have hpos : ∀ k, (size ≤ G.pos (k % size) → G.pos (k % size) - size < G.elems.length ∧
      G.pos (k % size) - size < G.deqs) ∧ G.pos (k % size) % size = k % size := by
    intro k
    have hs := h.slots (k % size) (Nat.mod_lt k hsize)
    exact ⟨hs.prev, hs.mod⟩
  have hdeqs : G.deqs ≤ G.elems.length := by
    by_contra hlt
    have hgone := h.lt_pos hidle (not_le.1 hlt)
    have hlap := Nat.ModEq.add_le_of_lt (hpos G.elems.length).2.symm hgone
    have := ((hpos G.elems.length).1 (by omega)).1
    omega
  have hlen : (G.elems.drop G.deqs).length = G.elems.length - G.deqs := List.length_drop
  have hfull : ∀ i < (G.elems.drop G.deqs).length, G.At size (G.deqs + i) true := by
    intro i hi
    rw [hlen] at hi
    exact h.at_of_le hsize hidle (by omega) (by omega)
  refine ⟨h.bufSize, ?_, ?_, ?_, ?_, ?_, ?_⟩
  · rw [h.head, Nat.mod_eq_of_lt (by omega)]
  · rw [h.tail, hlen, Nat.mod_eq_of_lt (by omega)]
    omega
  · rw [hlen]
    by_contra hlt
    have h0 := (h.at_of_le hsize hidle le_rfl (by omega)).1
    have hn := (h.at_of_le hsize hidle (k := G.deqs + size) (by omega) (by omega)).1
    rw [Nat.add_mod_right, h0] at hn
    omega
  · intro i hi
    have ha := hfull i hi
    obtain ⟨hseq, hlt, -⟩ := (h.slots _ (Nat.mod_lt (G.deqs + i) hsize)).full ha.2
    rw [ha.1] at hseq hlt
    rw [hseq, Nat.mod_eq_of_lt (by omega)]
  · intro i e hi
    have ha := hfull i (List.getElem?_eq_some_iff.1 hi).1
    obtain ⟨-, -, hbuf⟩ := (h.slots _ (Nat.mod_lt (G.deqs + i) hsize)).full ha.2
    rw [List.getElem?_drop] at hi
    rw [ha.1, hi] at hbuf
    exact Option.some.inj hbuf
  · intro i hi hli
    rw [hlen] at hli
    have hs := h.slots _ (Nat.mod_lt (G.deqs + i) hsize)
    obtain ⟨hprev, hmod⟩ := hpos (G.deqs + i)
    -- the slot has come round to this position, and no further
    have hle : G.pos ((G.deqs + i) % size) ≤ G.deqs + i := by
      refine Ghost.le_of_mod_eq hmod ?_
      by_cases hp : size ≤ G.pos ((G.deqs + i) % size)
      · have := (hprev hp).2
        omega
      · omega
    have hge : G.deqs + i ≤ G.pos ((G.deqs + i) % size) := by
      refine Ghost.le_of_mod_eq hmod.symm ?_
      by_cases hp : G.deqs + i < size
      · omega
      · have hgone := h.lt_pos hidle (k := G.deqs + i - size) (by omega)
        rw [← Nat.mod_eq_sub_mod (by omega)] at hgone
        omega
    have heq : G.pos ((G.deqs + i) % size) = G.deqs + i := Nat.le_antisymm hle hge
    cases hf : G.full ((G.deqs + i) % size) with
    | true =>
      have := (hs.full hf).2.1
      omega
    | false =>
      have hseq := hs.free hf
      rw [heq] at hseq
      exact hseq

end EeftSched.Mpmc

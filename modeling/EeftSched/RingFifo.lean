/-
  The ring buffer of one thread is a bounded queue (`lib/ring_buffer.h`), for
  every size and any number of laps.

  * `Op.apply`: the operations, with what they return;
  * `Op.fifo`: what they do to a queue of some capacity;
  * `ringBufferTryEnqueue_exec`: the one-thread operation is a run of that thread;
  * `run_fifo`: a sequence of operations returns what it returns of a queue.
-/
import EeftSched.RingQueue

namespace EeftSched.Mpmc

open Lts

universe u
variable {Θ α : Type u}

/-- The errors of the operations -/
inductive Errno where
  | enospc
  | eagain
deriving DecidableEq, Repr

/-- `ring_buffer_try_enqueue`; the compare-exchange of the only thread finds
    the tail it has loaded. -/
def ringBufferTryEnqueue (rb : RingBuffer α) (elem : α) : Except Errno (RingBuffer α) :=
  if rb.seq (rb.slot rb.tail) ≠ rb.tail then .error .enospc
  else
    .ok (({ rb with tail := (rb.tail + 1) % wrap }.setBuffer rb.tail elem).setSeq rb.tail
      ((rb.tail + 1) % wrap))

/-- An operation of the thread -/
inductive Op (α : Type u) where
  | tryEnqueue (elem : α)
  | tryDequeue
  | clear
  | iterRead

/-- What an operation returns, or what the loop has visited -/
inductive Res (α : Type u) where
  | ok
  | error (e : Errno)
  | elem (e : α)
  | visited (elems : List α)
deriving DecidableEq, Repr

/-- The operations of the ring buffer -/
def Op.apply (rb : RingBuffer α) : Op α → RingBuffer α × Res α
  | .tryEnqueue elem =>
    match ringBufferTryEnqueue rb elem with
    | .ok rb' => (rb', .ok)
    | .error e => (rb, .error e)
  | .tryDequeue =>
    match ringBufferTryDequeue rb with
    | some (elem, rb') => (rb', .elem elem)
    | none => (rb, .error .eagain)
  | .clear => (ringBufferClear rb, .ok)
  | .iterRead => (rb, .visited (ringBufferIterRead rb))

/-- The same operations of a queue of capacity `n` -/
def Op.fifo (n : ℕ) (queue : List α) : Op α → List α × Res α
  | .tryEnqueue elem =>
    if queue.length < n then (queue ++ [elem], .ok) else (queue, .error .enospc)
  | .tryDequeue =>
    match queue with
    | [] => ([], .error .eagain)
    | elem :: queue => (queue, .elem elem)
  | .clear => ([], .ok)
  | .iterRead => (queue, .visited queue)

/-- A sequence of operations, with all that they return -/
def run {σ : Type u} (step : σ → Op α → σ × Res α) : σ → List (Op α) → σ × List (Res α)
  | s, [] => (s, [])
  | s, op :: ops => ((run step (step s op).1 ops).1, (step s op).2 :: (run step (step s op).1 ops).2)

/-! ## The only thread -/

section
variable [DecidableEq Θ] {S : Sys Θ α} {θ : Θ} {rb' : RingBuffer α} {elem : α}

theorem ringBufferTryEnqueue_exec (hp : S.pc θ = .idle)
    (h : ringBufferTryEnqueue S.rb elem = .ok rb') :
    ∃ tr, Exec Step S tr ⟨rb', S.pc⟩ ∧ enqueued tr = [(S.rb.tail, elem)] ∧ delivered tr = [] := by
  unfold ringBufferTryEnqueue at h
  split_ifs at h with hs
  rw [not_not] at hs
  obtain rfl := Except.ok.inj h
  have h : Exec Step S [] S := .nil
  have h := h.snoc ⟨θ, .tryEnqueue elem hp⟩
  have h := h.snoc ⟨θ, .enqSpace (Function.update_self ..) hs⟩
  have h := h.snoc ⟨θ, .enqCas (Function.update_self ..) rfl⟩
  have h := h.snoc ⟨θ, .enqCopyStart elem (Function.update_self ..)⟩
  have h := h.snoc ⟨θ, .enqCopyEnd (Function.update_self ..)⟩
  have h := h.snoc ⟨θ, .publish (Function.update_self ..)⟩
  obtain ⟨tr, h, he, hd⟩ : ∃ tr, Exec Step S tr _ ∧ enqueued tr = [(S.rb.tail, elem)] ∧
    delivered tr = [] := ⟨_, h, rfl, rfl⟩
  refine ⟨tr, ?_, he, hd⟩
  convert h using 1
  simp only [Sys.setPc, RingBuffer.setSeq, RingBuffer.setBuffer, RingBuffer.slot, Function.update_idem]
  rw [← hp, Function.update_eq_self]

theorem ringBufferTryEnqueue_error {e : Errno} (hp : S.pc θ = .idle)
    (h : ringBufferTryEnqueue S.rb elem = .error e) :
    ∃ tr, Exec Step S tr S ∧ enqueued tr = [] ∧ delivered tr = [] := by
  unfold ringBufferTryEnqueue at h
  split_ifs at h with hs
  have h : Exec Step S [] S := .nil
  have h := h.snoc ⟨θ, .tryEnqueue elem hp⟩
  have h := h.snoc ⟨θ, .enqNoSpace (Function.update_self ..) hs⟩
  obtain ⟨tr, h, he, hd⟩ : ∃ tr, Exec Step S tr _ ∧ enqueued tr = [] ∧ delivered tr = [] :=
    ⟨_, h, rfl, rfl⟩
  refine ⟨tr, ?_, he, hd⟩
  convert h using 1
  simp only [Sys.setPc, Function.update_idem]
  rw [← hp, Function.update_eq_self]

end

/-! ## The queue -/

variable {rb : RingBuffer α} {size k i : ℕ} {l : List α}

theorem ringBufferTryEnqueue_eq (rb : RingBuffer α) (elem : α) :
    ringBufferTryEnqueue rb elem =
      match ringBufferEnqueue rb elem with
      | some rb' => .ok rb'
      | none => .error .enospc := by
  unfold ringBufferTryEnqueue ringBufferEnqueue
  by_cases h : rb.seq (rb.slot rb.tail) = rb.tail
  · rw [if_neg (not_not.2 h), if_pos h]
  · rw [if_pos h, if_neg h]

/-- **One operation** does to the buffer what it does to a queue, and moves the
    positions by one at most. -/
theorem Holds.apply (h : Holds rb size k l) (hsize : 3 ≤ size) (hw : k + l.length < wrap) (op : Op α) :
    (op.apply rb).2 = (op.fifo size l).2 ∧
      ∃ k', Holds (op.apply rb).1 size k' (op.fifo size l).1 ∧
        k' + (op.fifo size l).1.length ≤ k + l.length + 1 := by
  cases op with
  | tryEnqueue elem =>
    simp only [Op.apply, Op.fifo, ringBufferTryEnqueue_eq]
    by_cases hlt : l.length < size
    · obtain ⟨rb', henq, h'⟩ := h.enqueue (.inr hw) hlt elem
      rw [henq, if_pos hlt]
      refine ⟨rfl, k, h', ?_⟩
      rw [List.length_append, List.length_singleton]
      omega
    · have hle := h.le
      rw [h.enqueue_full (.inr hw) hsize (by omega), if_neg hlt]
      exact ⟨rfl, k, h, Nat.le_succ _⟩
  | tryDequeue =>
    simp only [Op.apply, Op.fifo]
    cases l with
    | nil =>
      rw [h.tryDequeue_nil (.inr hw) (by omega)]
      exact ⟨rfl, k, h, Nat.le_succ _⟩
    | cons e l =>
      obtain ⟨rb', hdeq, h'⟩ := h.tryDequeue (.inr (by omega))
      rw [hdeq]
      refine ⟨rfl, k + 1, h', ?_⟩
      show k + 1 + l.length ≤ k + (l.length + 1) + 1
      omega
  | clear => exact ⟨rfl, k + l.length, h.clear hw, by simp [Op.fifo]⟩
  | iterRead =>
    refine ⟨?_, k, h, Nat.le_succ _⟩
    show Res.visited _ = Res.visited _
    rw [h.iterRead hw]

theorem Holds.run (h : Holds rb size k l) (hsize : 3 ≤ size) (ops : List (Op α))
    (hw : k + l.length + ops.length < wrap) :
    (run Op.apply rb ops).2 = (run (Op.fifo size) l ops).2 ∧
      ∃ k', Holds (run Op.apply rb ops).1 size k' (run (Op.fifo size) l ops).1 := by
  induction ops generalizing rb k l with
  | nil => exact ⟨rfl, k, h⟩
  | cons op ops ih =>
    rw [List.length_cons] at hw
    obtain ⟨hres, k', h', hle⟩ := h.apply hsize (by omega) op
    obtain ⟨hrest, hholds⟩ := ih h' (by omega)
    refine ⟨?_, hholds⟩
    show _ :: _ = _ :: _
    rw [hres, hrest]

/-- **The ring buffer of one thread is a bounded queue.** -/
theorem run_fifo {buffer : ℕ → α} (hinit : ringBufferInit size buffer = some rb) (hw : size < 2 ^ 64)
    (ops : List (Op α)) (hops : ops.length < 2 ^ 64) :
    (run Op.apply rb ops).2 = (run (Op.fifo size) [] ops).2 ∧
      ∃ k, Holds (run Op.apply rb ops).1 size k (run (Op.fifo size) [] ops).1 := by
  unfold ringBufferInit at hinit
  split_ifs at hinit with hsize
  obtain rfl := Option.some.inj hinit
  exact (Holds.init hw.le).run (not_lt.1 hsize) ops (by rw [List.length_nil, Nat.add_zero, Nat.zero_add]; exact hops)

/-- A clear at fill level 2 of a buffer of 3 slots, which then takes three more -/
theorem run_fifo_clear :
    (run Op.apply ⟨0, 0, fun i => i, 3, fun _ => 0⟩
      [.tryEnqueue 7, .tryEnqueue 8, .clear, .tryEnqueue 1, .tryEnqueue 2, .tryEnqueue 3, .iterRead]).2 =
    (run (Op.fifo 3) []
      [.tryEnqueue 7, .tryEnqueue 8, .clear, .tryEnqueue 1, .tryEnqueue 2, .tryEnqueue 3, .iterRead]).2 :=
  (run_fifo (rfl : ringBufferInit 3 (fun _ => 0) = some _) (by decide) _ (by decide)).1

end EeftSched.Mpmc

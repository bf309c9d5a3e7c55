/-
  The ring buffer for many producers and many consumers
  (`lib/ring_buffer.h`), one atomic access at a time.

  A position is claimed with a fetch-add, or with a compare-exchange after a
  look at the slot; `seq` says for which position a slot is free, or full.
  Copying an element in or out takes two steps, and a slot that is being
  written holds anything.  Counters are 64 bits wide.

  * `ThreadStep`: one atomic access of one thread;
  * `Ghost`: which position each slot is at, and the elements by position;
  * `ring_buffer_fifo`: positions are claimed in order, the consumer of a
    position gets the element of its producer, and nobody copies to a slot
    that another thread copies to or from.
-/
import EeftSched.Lib.Exec
import Mathlib.Data.List.Range
import Mathlib.Data.Nat.ModEq
import Mathlib.Data.List.Nodup
import Mathlib.Logic.Function.Basic
import Mathlib.Tactic.Common

namespace EeftSched.Mpmc

open Lts

universe u
variable {Θ α : Type u}

/-- `uint64_t` -/
def wrap : ℕ := 2 ^ 64

/-- `ring_buffer` -/
structure RingBuffer (α : Type u) where
  head : ℕ
  tail : ℕ
  seq : ℕ → ℕ
  bufSize : ℕ
  buffer : ℕ → α

/-- `ring_buffer_init`, with whatever is in the buffer -/
def ringBufferInit (size : ℕ) (buffer : ℕ → α) : Option (RingBuffer α) :=
  if size < 3 then none else some ⟨0, 0, fun i => i, size, buffer⟩

/-- Where a thread is in one of the four operations. -/
inductive Pc (α : Type u) where
  | idle
  /-- `ring_buffer_try_enqueue` has loaded `tail` -/
  | tryEnqCheck (elem : α) (tail : ℕ)
  | tryEnqCas (elem : α) (tail : ℕ)
  /-- `ring_buffer_enqueue` waits for its slot -/
  | enqSpin (elem : α) (tail : ℕ)
  | enqStart (elem : α) (tail : ℕ)
  /-- in `memcpy` to the slot -/
  | enqCopy (elem : α) (tail : ℕ)
  | enqPublish (tail : ℕ)
  /-- `ring_buffer_try_dequeue` has loaded `head` -/
  | tryDeqCheck (head : ℕ)
  | tryDeqCas (head : ℕ)
  /-- `ring_buffer_dequeue` waits for its slot -/
  | deqSpin (head : ℕ)
  | deqStart (head : ℕ)
  /-- in `memcpy` from the slot -/
  | deqCopy (head : ℕ)
  | deqRelease (head : ℕ) (elem : α)

structure Sys (Θ α : Type u) where
  rb : RingBuffer α
  pc : Θ → Pc α

def Sys.init (rb : RingBuffer α) : Sys Θ α := ⟨rb, fun _ => .idle⟩

inductive Label (α : Type u) where
  /-- the enqueue of `elem` gets position `k` -/
  | claimEnq (k : ℕ) (elem : α)
  /-- a dequeue gets position `k` -/
  | claimDeq (k : ℕ)
  /-- the dequeue of position `k` returns `elem` -/
  | deliver (k : ℕ) (elem : α)
  | tau

namespace RingBuffer

/-- The slot of position `k` -/
def slot (rb : RingBuffer α) (k : ℕ) : ℕ := k % rb.bufSize

def setSeq (rb : RingBuffer α) (k v : ℕ) : RingBuffer α :=
  { rb with seq := Function.update rb.seq (rb.slot k) v }

def setBuffer (rb : RingBuffer α) (k : ℕ) (v : α) : RingBuffer α :=
  { rb with buffer := Function.update rb.buffer (rb.slot k) v }

end RingBuffer

section
variable [DecidableEq Θ]

def Sys.setPc (S : Sys Θ α) (θ : Θ) (q : Pc α) : Sys Θ α :=
  { S with pc := Function.update S.pc θ q }

/-- One atomic access of `θ`, or the start or end of a copy; a failed test of a
    spinning thread changes nothing and is left out. -/
inductive ThreadStep (S : Sys Θ α) (θ : Θ) : Label α → Sys Θ α → Prop
  /-- `ring_buffer_try_enqueue` -/
  | tryEnqueue (elem : α) (h : S.pc θ = .idle) :
      ThreadStep S θ .tau (S.setPc θ (.tryEnqCheck elem S.rb.tail))
  | enqNoSpace {elem : α} {tail : ℕ} (h : S.pc θ = .tryEnqCheck elem tail)
      (hs : S.rb.seq (S.rb.slot tail) ≠ tail) : ThreadStep S θ .tau (S.setPc θ .idle)
  | enqSpace {elem : α} {tail : ℕ} (h : S.pc θ = .tryEnqCheck elem tail)
      (hs : S.rb.seq (S.rb.slot tail) = tail) : ThreadStep S θ .tau (S.setPc θ (.tryEnqCas elem tail))
  | enqAgain {elem : α} {tail : ℕ} (h : S.pc θ = .tryEnqCas elem tail)
      (ht : S.rb.tail ≠ tail) : ThreadStep S θ .tau (S.setPc θ .idle)
  | enqCas {elem : α} {tail : ℕ} (h : S.pc θ = .tryEnqCas elem tail) (ht : S.rb.tail = tail) :
      ThreadStep S θ (.claimEnq tail elem)
        { S.setPc θ (.enqStart elem tail) with rb := { S.rb with tail := (tail + 1) % wrap } }
  /-- `ring_buffer_enqueue` -/
  | enqueue (elem : α) (h : S.pc θ = .idle) :
      ThreadStep S θ (.claimEnq S.rb.tail elem)
        { S.setPc θ (.enqSpin elem S.rb.tail) with
          rb := { S.rb with tail := (S.rb.tail + 1) % wrap } }
  | enqReady {elem : α} {tail : ℕ} (h : S.pc θ = .enqSpin elem tail)
      (hs : S.rb.seq (S.rb.slot tail) = tail) : ThreadStep S θ .tau (S.setPc θ (.enqStart elem tail))
  /-- `memcpy` to the slot -/
  | enqCopyStart {elem : α} {tail : ℕ} (junk : α) (h : S.pc θ = .enqStart elem tail) :
      ThreadStep S θ .tau { S.setPc θ (.enqCopy elem tail) with rb := S.rb.setBuffer tail junk }
  | enqCopyEnd {elem : α} {tail : ℕ} (h : S.pc θ = .enqCopy elem tail) :
      ThreadStep S θ .tau { S.setPc θ (.enqPublish tail) with rb := S.rb.setBuffer tail elem }
  | publish {tail : ℕ} (h : S.pc θ = .enqPublish tail) :
      ThreadStep S θ .tau { S.setPc θ .idle with rb := S.rb.setSeq tail ((tail + 1) % wrap) }
  /-- `ring_buffer_try_dequeue` -/
  | tryDequeue (h : S.pc θ = .idle) : ThreadStep S θ .tau (S.setPc θ (.tryDeqCheck S.rb.head))
  | deqEmpty {head : ℕ} (h : S.pc θ = .tryDeqCheck head)
      (hs : S.rb.seq (S.rb.slot head) ≠ (head + 1) % wrap) : ThreadStep S θ .tau (S.setPc θ .idle)
  | deqFull {head : ℕ} (h : S.pc θ = .tryDeqCheck head)
      (hs : S.rb.seq (S.rb.slot head) = (head + 1) % wrap) : ThreadStep S θ .tau (S.setPc θ (.tryDeqCas head))
  | deqAgain {head : ℕ} (h : S.pc θ = .tryDeqCas head) (ht : S.rb.head ≠ head) :
      ThreadStep S θ .tau (S.setPc θ .idle)
  | deqCas {head : ℕ} (h : S.pc θ = .tryDeqCas head) (ht : S.rb.head = head) :
      ThreadStep S θ (.claimDeq head)
        { S.setPc θ (.deqStart head) with rb := { S.rb with head := (head + 1) % wrap } }
  /-- `ring_buffer_dequeue` -/
  | dequeue (h : S.pc θ = .idle) :
      ThreadStep S θ (.claimDeq S.rb.head)
        { S.setPc θ (.deqSpin S.rb.head) with rb := { S.rb with head := (S.rb.head + 1) % wrap } }
  | deqReady {head : ℕ} (h : S.pc θ = .deqSpin head)
      (hs : S.rb.seq (S.rb.slot head) = (head + 1) % wrap) : ThreadStep S θ .tau (S.setPc θ (.deqStart head))
  /-- `memcpy` from the slot -/
  | deqCopyStart {head : ℕ} (h : S.pc θ = .deqStart head) :
      ThreadStep S θ .tau (S.setPc θ (.deqCopy head))
  | deqCopyEnd {head : ℕ} (h : S.pc θ = .deqCopy head) :
      ThreadStep S θ .tau (S.setPc θ (.deqRelease head (S.rb.buffer (S.rb.slot head))))
  | release {head : ℕ} {elem : α} (h : S.pc θ = .deqRelease head elem) :
      ThreadStep S θ (.deliver head elem)
        { S.setPc θ .idle with rb := S.rb.setSeq head ((head + S.rb.bufSize) % wrap) }

/-- A step of any thread -/
def Step (S : Sys Θ α) (a : Label α) (S' : Sys Θ α) : Prop := ∃ θ, ThreadStep S θ a S'

end

/-! ## What a run does -/

variable {tr : List (Trans (Sys Θ α) (Label α))} {S S' : Sys Θ α} {a : Label α} {θ τ : Θ}

def Label.enqueued : Label α → List (ℕ × α)
  | .claimEnq k elem => [(k, elem)]
  | _ => []

def Label.dequeued : Label α → List ℕ
  | .claimDeq k => [k]
  | _ => []

def Label.delivered : Label α → List (ℕ × α)
  | .deliver k elem => [(k, elem)]
  | _ => []

/-- The positions claimed by enqueues, in the order of the claims, with their
    elements. -/
def enqueued (tr : List (Trans (Sys Θ α) (Label α))) : List (ℕ × α) := tr.flatMap (·.lab.enqueued)

/-- The positions claimed by dequeues, in the order of the claims. -/
def dequeued (tr : List (Trans (Sys Θ α) (Label α))) : List ℕ := tr.flatMap (·.lab.dequeued)

/-- What the dequeues have returned, with their positions. -/
def delivered (tr : List (Trans (Sys Θ α) (Label α))) : List (ℕ × α) :=
  tr.flatMap (·.lab.delivered)

/-- The position an enqueue has claimed and not published yet. -/
def Pc.enqClaim : Pc α → Option ℕ
  | .enqSpin _ k | .enqStart _ k | .enqCopy _ k | .enqPublish k => some k
  | _ => none

/-- The position a dequeue has claimed and not released yet. -/
def Pc.deqClaim : Pc α → Option ℕ
  | .deqSpin k | .deqStart k | .deqCopy k | .deqRelease k _ => some k
  | _ => none

/-- The position whose slot a thread copies to. -/
def Pc.copiesTo : Pc α → Option ℕ
  | .enqCopy _ k => some k
  | _ => none

/-- The position whose slot a thread copies from. -/
def Pc.copiesFrom : Pc α → Option ℕ
  | .deqCopy k => some k
  | _ => none

/-! ## Slots and positions -/

/-- What the invariant knows besides the state: the elements by position, how
    many positions dequeues have claimed, the position each slot is at, and
    whether its element is published. -/
structure Ghost (α : Type u) where
  elems : List α
  deqs : ℕ
  pos : ℕ → ℕ
  full : ℕ → Bool

namespace Ghost

variable (G : Ghost α) {size i k : ℕ} {seq : ℕ} {buf : α}

/-- Slot `k % size` is at position `k`. -/
def At (size k : ℕ) (full : Bool) : Prop := G.pos (k % size) = k ∧ G.full (k % size) = full

/-- The element of position `k` is not published yet. -/
def Unpublished (size k : ℕ) : Prop :=
  G.pos (k % size) ≤ k ∧ (G.full (k % size) = true → G.pos (k % size) < k)

/-- What `seq` and `buffer` say about slot `i`. -/
structure SlotOk (size i seq : ℕ) (buf : α) : Prop where
  mod : G.pos i % size = i
  prev : size ≤ G.pos i → G.pos i - size < G.elems.length ∧ G.pos i - size < G.deqs
  free : G.full i = false → seq = G.pos i % wrap
  full : G.full i = true → seq = G.pos i + 1 ∧ G.pos i < G.elems.length ∧ some buf = G.elems[G.pos i]?

/-- What a thread knows at each point. -/
def PcOk (size : ℕ) (buffer : ℕ → α) : Pc α → Prop
  | .idle => True
  | .tryEnqCheck _ t => t ≤ G.elems.length
  | .tryEnqCas _ t => t ≤ G.elems.length ∧ (t = G.elems.length → G.At size t false)
  | .enqSpin e t => G.elems[t]? = some e ∧ G.Unpublished size t
  | .enqStart e t | .enqCopy e t => G.elems[t]? = some e ∧ G.At size t false
  | .enqPublish t => t < G.elems.length ∧ G.At size t false ∧ some (buffer (t % size)) = G.elems[t]?
  | .tryDeqCheck h => h ≤ G.deqs
  | .tryDeqCas h => h ≤ G.deqs ∧ (h = G.deqs → h + 1 < wrap → G.At size h true)
  | .deqSpin h => h < G.deqs ∧ G.pos (h % size) ≤ h
  | .deqStart h | .deqCopy h => h < G.deqs ∧ G.At size h true
  | .deqRelease h v => h < G.deqs ∧ G.At size h true ∧ h < G.elems.length ∧ some v = G.elems[h]?

variable {G}

theorem At.unpublished (h : G.At size k false) : G.Unpublished size k :=
  ⟨h.1.le, fun hf => absurd (h.2.symm.trans hf) nofun⟩

/-- Two positions of one slot are a lap apart. -/
theorem le_of_mod_eq {a b : ℕ} (h : a % size = b % size) (hlt : a < b + size) : a ≤ b := by
  by_contra hba
  have hadd : b + size ≤ a := Nat.ModEq.add_le_of_lt (Nat.ModEq.symm h) (not_le.1 hba)
  omega

theorem succ_mod_ne {p : ℕ} (hsize : 2 ≤ size) : (p + 1) % size ≠ p % size := by
  intro h
  have hle : p + 1 ≤ p := le_of_mod_eq h (by omega)
  omega

/-- The slot of a position that is claimed next has come round to it. -/
theorem SlotOk.pos_le (h : G.SlotOk size (k % size) seq buf)
    (hk : size ≤ G.pos (k % size) → G.pos (k % size) - size < k) : G.pos (k % size) ≤ k := by
  by_cases hp : size ≤ G.pos (k % size)
  · refine le_of_mod_eq h.mod ?_
    have := hk hp
    omega
  · have hm := h.mod
    rw [Nat.mod_eq_of_lt (not_le.1 hp)] at hm
    rw [hm]
    exact Nat.mod_le k size

/-- `seq` says that a slot is free for position `k`. -/
theorem SlotOk.at_free (h : G.SlotOk size (k % size) seq buf) (hsize : 2 ≤ size)
    (hk : size ≤ G.pos (k % size) → G.pos (k % size) - size < k) (hs : seq = k) :
    G.At size k false := by
  have hle := h.pos_le hk
  cases hf : G.full (k % size) with
  | true =>
    have hseq : k = G.pos (k % size) + 1 := hs.symm.trans (h.full hf).1
    have hne := succ_mod_ne (p := G.pos (k % size)) hsize
    rw [← hseq, h.mod] at hne
    exact absurd rfl hne
  | false =>
    have hseq := h.free hf
    have hlt := Nat.mod_lt (G.pos (k % size)) (show 0 < wrap by decide)
    rw [Nat.mod_eq_of_lt (by omega)] at hseq
    exact ⟨hseq.symm.trans hs, hf⟩

/-- `seq` says that the element of position `k` is in its slot. -/
theorem SlotOk.at_full (h : G.SlotOk size (k % size) seq buf)
    (hk : size ≤ G.pos (k % size) → G.pos (k % size) - size < k) (hlt : k + 1 < wrap)
    (hs : seq = k + 1) : G.At size k true := by
  have hle := h.pos_le hk
  cases hf : G.full (k % size) with
  | true =>
    have hseq := (h.full hf).1
    exact ⟨by omega, hf⟩
  | false =>
    have hseq := h.free hf
    rw [Nat.mod_eq_of_lt (by omega)] at hseq
    omega

/-- The position that an enqueue claims next is not published. -/
theorem SlotOk.unpublished (h : G.SlotOk size (G.elems.length % size) seq buf) :
    G.Unpublished size G.elems.length :=
  ⟨h.pos_le fun hp => (h.prev hp).1, fun hf => (h.full hf).2.1⟩

/-- A position of the same slot that is not published comes a lap later, once
    the slot is full. -/
theorem Unpublished.lap (h : G.Unpublished size k) (hs : G.SlotOk size (k % size) seq buf)
    (hf : G.full (k % size) = true) : G.pos (k % size) + size ≤ k :=
  Nat.ModEq.add_le_of_lt hs.mod (h.2 hf)

/-! ### What other threads do to what a thread knows -/

section
variable {buffer : ℕ → α} {q : Pc α} {t : ℕ}

/-- Another thread writes to the slot of position `t`. -/
theorem PcOk.write (h : G.PcOk size buffer q) (ht : G.At size t false) (hne : q.enqClaim ≠ some t)
    (v : α) : G.PcOk size (Function.update buffer (t % size) v) q := by
  cases q with
  | enqPublish t' =>
    obtain ⟨hl, ha, hb⟩ := h
    refine ⟨hl, ha, ?_⟩
    have hs : t' % size ≠ t % size := by
      intro hs
      refine hne (congrArg some ?_)
      rw [← ha.1, ← ht.1, hs]
    rw [Function.update_of_ne hs]
    exact hb
  | _ => exact h

/-- Another enqueue claims the next position. -/
theorem PcOk.push (h : G.PcOk size buffer q) (e : α) :
    ({ G with elems := G.elems ++ [e] } : Ghost α).PcOk size buffer q := by
  have hlen : (G.elems ++ [e]).length = G.elems.length + 1 := List.length_append
  have hget : ∀ j, j < G.elems.length → (G.elems ++ [e])[j]? = G.elems[j]? :=
    fun j hj => List.getElem?_append_left hj
  have hsome : ∀ (j : ℕ) e', G.elems[j]? = some e' → (G.elems ++ [e])[j]? = some e' := by
    intro j e' hj
    rw [hget j (List.getElem?_eq_some_iff.1 hj).1]
    exact hj
  cases q with
  | tryEnqCheck e' t' => exact (show t' ≤ (G.elems ++ [e]).length by rw [hlen]; exact Nat.le_succ_of_le h)
  | tryEnqCas e' t' =>
    refine ⟨by rw [hlen]; exact Nat.le_succ_of_le h.1, ?_⟩
    intro ht
    have hle := h.1
    rw [hlen] at ht
    omega
  | enqSpin e' t' | enqStart e' t' | enqCopy e' t' => exact ⟨hsome _ _ h.1, h.2⟩
  | enqPublish t' =>
    obtain ⟨hl, ha, hb⟩ := h
    exact ⟨by rw [hlen]; omega, ha, by rw [hget t' hl]; exact hb⟩
  | deqRelease k v =>
    obtain ⟨hd, ha, hl, hv⟩ := h
    exact ⟨hd, ha, by rw [hlen]; omega, by rw [hget k hl]; exact hv⟩
  | _ => exact h

/-- Another dequeue claims the next position. -/
theorem PcOk.pull (h : G.PcOk size buffer q) :
    ({ G with deqs := G.deqs + 1 } : Ghost α).PcOk size buffer q := by
  cases q with
  | tryDeqCheck k => exact Nat.le_succ_of_le h
  | tryDeqCas k =>
    refine ⟨Nat.le_succ_of_le h.1, ?_⟩
    intro hk
    have hle := h.1
    have hk : k = G.deqs + 1 := hk
    omega
  | deqSpin k | deqStart k | deqCopy k | deqRelease k v => exact ⟨Nat.lt_succ_of_lt h.1, h.2⟩
  | _ => exact h

/-- The element of position `t` is published. -/
def publish (G : Ghost α) (size t : ℕ) : Ghost α :=
  { G with full := Function.update G.full (t % size) true }

theorem At.publish (h : G.At size k true) (t : ℕ) : (G.publish size t).At size k true := by
  refine ⟨h.1, ?_⟩
  change Function.update G.full (t % size) true (k % size) = true
  by_cases hs : k % size = t % size
  · rw [hs, Function.update_self]
  · rw [Function.update_of_ne hs]
    exact h.2

theorem At.publish_ne (h : G.At size k false) (ht : G.At size t false) (hne : k ≠ t) :
    (G.publish size t).At size k false := by
  refine ⟨h.1, ?_⟩
  change Function.update G.full (t % size) true (k % size) = false
  have hs : k % size ≠ t % size := by
    intro hs
    exact hne (by rw [← h.1, ← ht.1, hs])
  rw [Function.update_of_ne hs]
  exact h.2

/-- Another enqueue publishes its element. -/
theorem PcOk.publish (h : G.PcOk size buffer q) (ht : G.At size t false) (hl : t < G.elems.length)
    (hne : q.enqClaim ≠ some t) : (G.publish size t).PcOk size buffer q := by
  cases q with
  | tryEnqCas e k =>
    refine ⟨h.1, fun hk => (h.2 hk).publish_ne ht ?_⟩
    have hk : k = G.elems.length := hk
    omega
  | enqSpin e k =>
    obtain ⟨he, hle, hlt⟩ := h
    refine ⟨he, hle, ?_⟩
    intro hf
    change Function.update G.full (t % size) true (k % size) = true at hf
    by_cases hs : k % size = t % size
    · have hkt : k ≠ t := fun hkt => hne (congrArg some hkt)
      have hp : G.pos (k % size) = t := by rw [hs]; exact ht.1
      change G.pos (k % size) < k
      omega
    · rw [Function.update_of_ne hs] at hf
      exact hlt hf
  | enqStart e k | enqCopy e k =>
    exact ⟨h.1, h.2.publish_ne ht fun hk => hne (congrArg some hk)⟩
  | enqPublish k =>
    exact ⟨h.1, h.2.1.publish_ne ht fun hk => hne (congrArg some hk), h.2.2⟩
  | tryDeqCas k => exact ⟨h.1, fun hk hlt => (h.2 hk hlt).publish t⟩
  | deqStart k | deqCopy k => exact ⟨h.1, h.2.publish t⟩
  | deqRelease k v => exact ⟨h.1, h.2.1.publish t, h.2.2⟩
  | _ => exact h

/-- The slot of position `t` goes on to the next lap. -/
def release (G : Ghost α) (size t : ℕ) : Ghost α :=
  { G with
    pos := Function.update G.pos (t % size) (t + size)
    full := Function.update G.full (t % size) false }

theorem At.release_ne {b : Bool} (h : G.At size k b) (ht : G.At size t true) (hne : k ≠ t) :
    (G.release size t).At size k b := by
  have hs : k % size ≠ t % size := by
    intro hs
    exact hne (by rw [← h.1, ← ht.1, hs])
  refine ⟨?_, ?_⟩
  · change Function.update G.pos (t % size) (t + size) (k % size) = k
    rw [Function.update_of_ne hs]
    exact h.1
  · change Function.update G.full (t % size) false (k % size) = b
    rw [Function.update_of_ne hs]
    exact h.2

/-- Another dequeue releases its slot. -/
theorem PcOk.release {seq : ℕ} {buf : α} (h : G.PcOk size buffer q)
    (hs : G.SlotOk size (t % size) seq buf) (ht : G.At size t true) (hd : t < G.deqs)
    (hne : q.deqClaim ≠ some t) : (G.release size t).PcOk size buffer q := by
  have hfalse : ∀ k, G.At size k false → k ≠ t := by
    rintro k hk rfl
    exact absurd (hk.2.symm.trans ht.2) nofun
  cases q with
  | tryEnqCas e k => exact ⟨h.1, fun hk => (h.2 hk).release_ne ht (hfalse k (h.2 hk))⟩
  | enqSpin e k =>
    obtain ⟨he, hu⟩ := h
    refine ⟨he, ?_⟩
    by_cases hk : k % size = t % size
    · rw [← hk] at hs
      have hlap := hu.lap hs (by rw [hk]; exact ht.2)
      refine ⟨?_, ?_⟩
      · change Function.update G.pos (t % size) (t + size) (k % size) ≤ k
        rw [hk, Function.update_self]
        rw [hk, ht.1] at hlap
        exact hlap
      · intro hf
        change Function.update G.full (t % size) false (k % size) = true at hf
        rw [hk, Function.update_self] at hf
        cases hf
    · refine ⟨?_, ?_⟩
      · change Function.update G.pos (t % size) (t + size) (k % size) ≤ k
        rw [Function.update_of_ne hk]
        exact hu.1
      · intro hf
        change Function.update G.full (t % size) false (k % size) = true at hf
        change Function.update G.pos (t % size) (t + size) (k % size) < k
        rw [Function.update_of_ne hk] at hf ⊢
        exact hu.2 hf
  | enqStart e k | enqCopy e k => exact ⟨h.1, h.2.release_ne ht (hfalse k h.2)⟩
  | enqPublish k => exact ⟨h.1, h.2.1.release_ne ht (hfalse k h.2.1), h.2.2⟩
  | tryDeqCas k =>
    refine ⟨h.1, fun hk hlt => (h.2 hk hlt).release_ne ht ?_⟩
    have hk : k = G.deqs := hk
    omega
  | deqSpin k =>
    refine ⟨h.1, ?_⟩
    have hkt : k ≠ t := fun hk => hne (congrArg some hk)
    change Function.update G.pos (t % size) (t + size) (k % size) ≤ k
    by_cases hk : k % size = t % size
    · rw [hk, Function.update_self]
      have hle := h.2
      rw [hk, ht.1] at hle
      exact Nat.ModEq.add_le_of_lt hk.symm (lt_of_le_of_ne hle hkt.symm)
    · rw [Function.update_of_ne hk]
      exact h.2
  | deqStart k | deqCopy k => exact ⟨h.1, h.2.release_ne ht fun hk => hne (congrArg some hk)⟩
  | deqRelease k v =>
    exact ⟨h.1, h.2.1.release_ne ht fun hk => hne (congrArg some hk), h.2.2⟩
  | _ => exact h

end

end Ghost

/-! ## The invariant -/

structure Inv (size : ℕ) (G : Ghost α) (D : List (ℕ × α)) (S : Sys Θ α) : Prop where
  bufSize : S.rb.bufSize = size
  tail : S.rb.tail = G.elems.length
  head : S.rb.head = G.deqs
  slots : ∀ i < size, G.SlotOk size i (S.rb.seq i) (S.rb.buffer i)
  threads : ∀ θ, G.PcOk size S.rb.buffer (S.pc θ)
  enqUnique : ∀ θ τ k, (S.pc θ).enqClaim = some k → (S.pc τ).enqClaim = some k → θ = τ
  deqUnique : ∀ θ τ k, (S.pc θ).deqClaim = some k → (S.pc τ).deqClaim = some k → θ = τ
  kept : ∀ k < G.elems.length, k < G.pos (k % size) ∨ G.At size k true ∨
    ∃ θ, (S.pc θ).enqClaim = some k
  owner : ∀ k < G.deqs, k < G.pos (k % size) ∨ ∃ θ, (S.pc θ).deqClaim = some k
  delivered : ∀ k, k ∈ D.map Prod.fst ↔ k < G.pos (k % size)
  once : (D.map Prod.fst).Nodup
  values : ∀ x ∈ D, x.1 < G.elems.length ∧ some x.2 = G.elems[x.1]?

variable {size : ℕ} {G : Ghost α} {D : List (ℕ × α)} {q : Pc α}

theorem Inv.init {buffer : ℕ → α} (hw : size ≤ wrap) :
    Inv size ⟨[], 0, fun i => i, fun _ => false⟩ []
      (Sys.init ⟨0, 0, fun i => i, size, buffer⟩ : Sys Θ α) where
  bufSize := rfl
  tail := rfl
  head := rfl
  slots i hi := by
    refine ⟨Nat.mod_eq_of_lt hi, fun h => absurd h (not_le.2 hi), fun _ => ?_, nofun⟩
    exact (Nat.mod_eq_of_lt (hi.trans_le hw)).symm
  threads _ := trivial
  enqUnique := nofun
  deqUnique := nofun
  kept := nofun
  owner := nofun
  delivered k := by
    have hle := Nat.mod_le k size
    exact ⟨nofun, fun h => absurd h (not_lt.2 hle)⟩
  once := List.nodup_nil
  values := nofun

/-- A look at the slot of position `k`. -/
theorem Inv.slot_at (h : Inv size G D S) (hsize : 0 < size) (k : ℕ) :
    G.SlotOk size (k % size) (S.rb.seq (S.rb.slot k)) (S.rb.buffer (k % size)) := by
  have hs := h.slots (k % size) (Nat.mod_lt k hsize)
  rw [RingBuffer.slot, h.bufSize]
  exact hs

/-- The position of an enqueue under way -/
theorem Ghost.PcOk.enqClaim {buffer : ℕ → α} {k : ℕ} (h : G.PcOk size buffer q)
    (hq : q.enqClaim = some k) : k < G.elems.length := by
  cases q with
  | enqSpin e t | enqStart e t | enqCopy e t =>
    obtain rfl := Option.some.inj hq
    exact (List.getElem?_eq_some_iff.1 h.1).1
  | enqPublish t =>
    obtain rfl := Option.some.inj hq
    exact h.1
  | _ => cases hq

/-- The position of a dequeue under way -/
theorem Ghost.PcOk.deqClaim {buffer : ℕ → α} {k : ℕ} (h : G.PcOk size buffer q)
    (hq : q.deqClaim = some k) : k < G.deqs := by
  cases q with
  | deqSpin t | deqStart t | deqCopy t | deqRelease t v =>
    obtain rfl := Option.some.inj hq
    exact h.1
  | _ => cases hq

section
variable [DecidableEq Θ]

namespace Inv

/-- One thread moves, and claims at most the next position. -/
theorem update {G' : Ghost α} {D' : List (ℕ × α)} (h : Inv size G D S)
    (hpc : S'.pc = Function.update S.pc θ q) (hsize : S'.rb.bufSize = size)
    (htail : S'.rb.tail = G'.elems.length) (hhead : S'.rb.head = G'.deqs)
    (hslots : ∀ i < size, G'.SlotOk size i (S'.rb.seq i) (S'.rb.buffer i))
    (hother : ∀ τ ≠ θ, G'.PcOk size S'.rb.buffer (S.pc τ)) (hself : G'.PcOk size S'.rb.buffer q)
    (henq : ∀ k, q.enqClaim = some k → (S.pc θ).enqClaim = some k ∨ k = G.elems.length)
    (hdeq : ∀ k, q.deqClaim = some k → (S.pc θ).deqClaim = some k ∨ k = G.deqs)
    (hkept : ∀ k < G'.elems.length, k < G'.pos (k % size) ∨ G'.At size k true ∨
      q.enqClaim = some k ∨ ∃ τ ≠ θ, (S.pc τ).enqClaim = some k)
    (howner : ∀ k < G'.deqs, k < G'.pos (k % size) ∨ q.deqClaim = some k ∨
      ∃ τ ≠ θ, (S.pc τ).deqClaim = some k)
    (hdel : ∀ k, k ∈ D'.map Prod.fst ↔ k < G'.pos (k % size)) (honce : (D'.map Prod.fst).Nodup)
    (hval : ∀ x ∈ D', x.1 < G'.elems.length ∧ x.2 = G'.elems[x.1]?) : Inv size G' D' S' := by
  have hθ : S'.pc θ = q := by rw [hpc, Function.update_self]
  have hne : ∀ τ ≠ θ, S'.pc τ = S.pc τ := by
    intro τ hτ
    rw [hpc, Function.update_of_ne hτ]
  refine ⟨hsize, htail, hhead, hslots, ?_, ?_, ?_, ?_, ?_, hdel, honce, hval⟩
  · intro τ
    by_cases hτ : τ = θ
    · rw [hτ, hθ]
      exact hself
    · rw [hne τ hτ]
      exact hother τ hτ
  · have key : ∀ τ ≠ θ, ∀ k, q.enqClaim = some k → (S.pc τ).enqClaim ≠ some k := by
      intro τ hτ k hk hk'
      rcases henq k hk with hk | hk
      · exact hτ (h.enqUnique τ θ k hk' hk)
      · exact absurd ((h.threads τ).enqClaim hk') (by omega)
    intro τ υ k hτ hυ
    by_cases h1 : τ = θ <;> by_cases h2 : υ = θ
    · rw [h1, h2]
    · rw [h1, hθ] at hτ
      rw [hne υ h2] at hυ
      exact absurd hυ (key υ h2 k hτ)
    · rw [h2, hθ] at hυ
      rw [hne τ h1] at hτ
      exact absurd hτ (key τ h1 k hυ)
    · rw [hne τ h1] at hτ
      rw [hne υ h2] at hυ
      exact h.enqUnique τ υ k hτ hυ
  · have key : ∀ τ ≠ θ, ∀ k, q.deqClaim = some k → (S.pc τ).deqClaim ≠ some k := by
      intro τ hτ k hk hk'
      rcases hdeq k hk with hk | hk
      · exact hτ (h.deqUnique τ θ k hk' hk)
      · exact absurd ((h.threads τ).deqClaim hk') (by omega)
    intro τ υ k hτ hυ
    by_cases h1 : τ = θ <;> by_cases h2 : υ = θ
    · rw [h1, h2]
    · rw [h1, hθ] at hτ
      rw [hne υ h2] at hυ
      exact absurd hυ (key υ h2 k hτ)
    · rw [h2, hθ] at hυ
      rw [hne τ h1] at hτ
      exact absurd hτ (key τ h1 k hυ)
    · rw [hne τ h1] at hτ
      rw [hne υ h2] at hυ
      exact h.deqUnique τ υ k hτ hυ
  · intro k hk
    rcases hkept k hk with hk | hk | hk | ⟨τ, hτ, hk⟩
    · exact .inl hk
    · exact .inr (.inl hk)
    · exact .inr (.inr ⟨θ, by rw [hθ]; exact hk⟩)
    · exact .inr (.inr ⟨τ, by rw [hne τ hτ]; exact hk⟩)
  · intro k hk
    rcases howner k hk with hk | hk | ⟨τ, hτ, hk⟩
    · exact .inl hk
    · exact .inr ⟨θ, by rw [hθ]; exact hk⟩
    · exact .inr ⟨τ, by rw [hne τ hτ]; exact hk⟩

/-- Who owns a position, when `θ` keeps its own. -/
theorem owner_of (h : Inv size G D S) (hd : ∀ k, (S.pc θ).deqClaim = some k → q.deqClaim = some k)
    {k : ℕ} (hk : k < G.deqs) : k < G.pos (k % size) ∨ q.deqClaim = some k ∨
      ∃ τ ≠ θ, (S.pc τ).deqClaim = some k := by
  rcases h.owner k hk with hk | ⟨τ, hτ⟩
  · exact .inl hk
  · by_cases he : τ = θ
    · exact .inr (.inl (hd k (he ▸ hτ)))
    · exact .inr (.inr ⟨τ, he, hτ⟩)

/-- Where an element is, when `θ` keeps its position. -/
theorem kept_of (h : Inv size G D S) (he : ∀ k, (S.pc θ).enqClaim = some k → q.enqClaim = some k)
    {k : ℕ} (hk : k < G.elems.length) : k < G.pos (k % size) ∨ G.At size k true ∨
      q.enqClaim = some k ∨ ∃ τ ≠ θ, (S.pc τ).enqClaim = some k := by
  rcases h.kept k hk with hk | hk | ⟨τ, hτ⟩
  · exact .inl hk
  · exact .inr (.inl hk)
  · by_cases hτθ : τ = θ
    · exact .inr (.inr (.inl (he k (hτθ ▸ hτ))))
    · exact .inr (.inr (.inr ⟨τ, hτθ, hτ⟩))

/-- A step that touches nothing but the thread. -/
theorem setPc (h : Inv size G D S) (hpc : S'.pc = Function.update S.pc θ q) (hrb : S'.rb = S.rb)
    (hq : G.PcOk size S.rb.buffer q) (he : q.enqClaim = (S.pc θ).enqClaim)
    (hd : q.deqClaim = (S.pc θ).deqClaim) : Inv size G D S' := by
  refine h.update hpc ?_ ?_ ?_ ?_ ?_ ?_ ?_ ?_ (fun k => h.kept_of (by rw [he]; exact fun _ => id))
    (fun k => h.owner_of (by rw [hd]; exact fun _ => id)) h.delivered h.once h.values
  · rw [hrb]
    exact h.bufSize
  · rw [hrb]
    exact h.tail
  · rw [hrb]
    exact h.head
  · rw [hrb]
    exact h.slots
  · rw [hrb]
    exact fun τ _ => h.threads τ
  · rw [hrb]
    exact hq
  · rw [he]
    exact fun _ => .inl
  · rw [hd]
    exact fun _ => .inl

/-- **A copy to the slot**, its start or its end -/
theorem write (h : Inv size G D S) {t : ℕ} {v : α}
    (hpc : S'.pc = Function.update S.pc θ q) (hrb : S'.rb = S.rb.setBuffer t v)
    (ht : G.At size t false) (hc : (S.pc θ).enqClaim = some t) (hq : q.enqClaim = some t)
    (hd : (S.pc θ).deqClaim = none) (hd' : q.deqClaim = none)
    (hself : G.PcOk size (Function.update S.rb.buffer (t % size) v) q) : Inv size G D S' := by
  have hslot : S.rb.slot t = t % size := by rw [RingBuffer.slot, h.bufSize]
  have hbuf : S'.rb.buffer = Function.update S.rb.buffer (t % size) v := by
    rw [hrb, ← hslot]
    rfl
  refine h.update hpc ?_ ?_ ?_ ?_ ?_ (by rw [hbuf]; exact hself) ?_ ?_
    (fun k => h.kept_of (by rw [hc, hq]; exact fun _ => id))
    (fun k => h.owner_of (by rw [hd]; nofun)) h.delivered h.once h.values
  · rw [hrb]
    exact h.bufSize
  · rw [hrb]
    exact h.tail
  · rw [hrb]
    exact h.head
  · intro i hi
    have hs := h.slots i hi
    rw [hbuf, hrb]
    refine ⟨hs.mod, hs.prev, hs.free, ?_⟩
    intro hf
    have hit : i ≠ t % size := by
      rintro rfl
      exact absurd (ht.2.symm.trans hf) nofun
    rw [Function.update_of_ne hit]
    exact hs.full hf
  · intro τ hτ
    rw [hbuf]
    refine (h.threads τ).write ht ?_ v
    intro hτt
    exact hτ (h.enqUnique τ θ t hτt hc)
  · intro k hk
    rw [hq] at hk
    exact .inl (hc.trans hk)
  · rw [hd']
    nofun

/-- **An enqueue claims the next position.** -/
theorem claimEnq (h : Inv size G D S) {e : α} (hlt : G.elems.length + 1 < wrap)
    (hpc : S'.pc = Function.update S.pc θ q)
    (hrb : S'.rb = { S.rb with tail := (S.rb.tail + 1) % wrap })
    (he : (S.pc θ).enqClaim = none) (hq : q.enqClaim = some G.elems.length) (hd : (S.pc θ).deqClaim = none)
    (hd' : q.deqClaim = none)
    (hself : ({ G with elems := G.elems ++ [e] } : Ghost α).PcOk size S.rb.buffer q) :
    Inv size { G with elems := G.elems ++ [e] } D S' := by
  have hlen : (G.elems ++ [e]).length = G.elems.length + 1 := List.length_append
  have hget : ∀ j : ℕ, j < G.elems.length → (G.elems ++ [e])[j]? = G.elems[j]? :=
    fun j hj => List.getElem?_append_left hj
  refine h.update hpc ?_ ?_ ?_ ?_ ?_ ?_ ?_ ?_ ?_ (fun k => h.owner_of (by rw [hd]; nofun))
    h.delivered h.once ?_
  · rw [hrb]
    exact h.bufSize
  · rw [hrb, hlen]
    change (S.rb.tail + 1) % wrap = _
    rw [h.tail, Nat.mod_eq_of_lt hlt]
  · rw [hrb]
    exact h.head
  · intro i hi
    have hs := h.slots i hi
    rw [hrb]
    refine ⟨hs.mod, ?_, hs.free, ?_⟩
    · intro hp
      obtain ⟨h1, h2⟩ := hs.prev hp
      refine ⟨?_, h2⟩
      change G.pos i - size < (G.elems ++ [e]).length
      omega
    · intro hf
      obtain ⟨h1, h2, h3⟩ := hs.full hf
      change _ ∧ G.pos i < (G.elems ++ [e]).length ∧ _ = (G.elems ++ [e])[G.pos i]?
      rw [hget _ h2]
      exact ⟨h1, by omega, h3⟩
  · intro τ _
    rw [hrb]
    exact (h.threads τ).push e
  · rw [hrb]
    exact hself
  · intro k hk
    rw [hq] at hk
    exact .inr (Option.some.inj hk).symm
  · rw [hd']
    nofun
  · intro k hk
    change k < (G.elems ++ [e]).length at hk
    by_cases hke : k = G.elems.length
    · exact .inr (.inr (.inl (by rw [hq, hke])))
    · exact h.kept_of (by rw [he]; nofun) (by omega)
  · intro x hx
    obtain ⟨h1, h2⟩ := h.values x hx
    change x.1 < (G.elems ++ [e]).length ∧ some x.2 = (G.elems ++ [e])[x.1]?
    rw [hget _ h1]
    exact ⟨by omega, h2⟩

/-- **A dequeue claims the next position.** -/
theorem claimDeq (h : Inv size G D S) (hlt : G.deqs + 1 < wrap)
    (hpc : S'.pc = Function.update S.pc θ q)
    (hrb : S'.rb = { S.rb with head := (S.rb.head + 1) % wrap })
    (he : (S.pc θ).enqClaim = none) (he' : q.enqClaim = none) (hd : (S.pc θ).deqClaim = none)
    (hq : q.deqClaim = some G.deqs)
    (hself : ({ G with deqs := G.deqs + 1 } : Ghost α).PcOk size S.rb.buffer q) :
    Inv size { G with deqs := G.deqs + 1 } D S' := by
  refine h.update hpc ?_ ?_ ?_ ?_ ?_ ?_ ?_ ?_ (fun k => h.kept_of (by rw [he]; nofun)) ?_
    h.delivered h.once h.values
  · rw [hrb]
    exact h.bufSize
  · rw [hrb]
    exact h.tail
  · rw [hrb]
    change (S.rb.head + 1) % wrap = _
    rw [h.head, Nat.mod_eq_of_lt hlt]
  · intro i hi
    have hs := h.slots i hi
    rw [hrb]
    refine ⟨hs.mod, ?_, hs.free, hs.full⟩
    intro hp
    have := hs.prev hp
    exact ⟨this.1, Nat.lt_succ_of_lt this.2⟩
  · intro τ _
    rw [hrb]
    exact (h.threads τ).pull
  · rw [hrb]
    exact hself
  · rw [he']
    nofun
  · intro k hk
    rw [hq] at hk
    exact .inr (Option.some.inj hk).symm
  · intro k hk
    have hk : k < G.deqs + 1 := hk
    by_cases hkd : k = G.deqs
    · exact .inr (.inl (by rw [hq, hkd]))
    · exact h.owner_of (by rw [hd]; nofun) (by omega)

/-- **An element is published.** -/
theorem publish (h : Inv size G D S) {t : ℕ} (hp : S.pc θ = .enqPublish t) (hlt : t + 1 < wrap)
    (hpc : S'.pc = Function.update S.pc θ .idle)
    (hrb : S'.rb = S.rb.setSeq t ((t + 1) % wrap)) : Inv size (G.publish size t) D S' := by
  have hself := h.threads θ
  rw [hp] at hself
  obtain ⟨hl, ht, hb⟩ := hself
  have hslot : S.rb.slot t = t % size := by rw [RingBuffer.slot, h.bufSize]
  have hseq : S'.rb.seq = Function.update S.rb.seq (t % size) (t + 1) := by
    rw [hrb, ← hslot, Nat.mod_eq_of_lt hlt]
    rfl
  refine h.update hpc ?_ ?_ ?_ ?_ ?_ trivial nofun nofun ?_
    (fun k => h.owner_of (by rw [hp]; nofun)) h.delivered h.once h.values
  · rw [hrb]
    exact h.bufSize
  · rw [hrb]
    exact h.tail
  · rw [hrb]
    exact h.head
  · intro i hi
    have hs := h.slots i hi
    rw [hseq, hrb]
    refine ⟨hs.mod, hs.prev, ?_, ?_⟩
    · intro hf
      change Function.update G.full (t % size) true i = false at hf
      have hit : i ≠ t % size := by
        rintro rfl
        rw [Function.update_self] at hf
        cases hf
      rw [Function.update_of_ne hit] at hf ⊢
      exact hs.free hf
    · intro hf
      change Function.update G.full (t % size) true i = true at hf
      by_cases hit : i = t % size
      · subst hit
        rw [Function.update_self]
        change t + 1 = G.pos (t % size) + 1 ∧ G.pos (t % size) < _ ∧ _ = G.elems[G.pos (t % size)]?
        rw [ht.1]
        exact ⟨rfl, hl, hb⟩
      · rw [Function.update_of_ne hit] at hf ⊢
        exact hs.full hf
  · intro τ hτ
    rw [hrb]
    refine (h.threads τ).publish ht hl ?_
    intro hτt
    exact hτ (h.enqUnique τ θ t hτt (by rw [hp]; rfl))
  · intro k hk
    rcases h.kept k hk with hlt | ha | ⟨τ, hτ⟩
    · exact .inl hlt
    · exact .inr (.inl (ha.publish t))
    · by_cases hτθ : τ = θ
      · rw [hτθ, hp] at hτ
        obtain rfl := Option.some.inj hτ
        exact .inr (.inl ⟨ht.1, Function.update_self ..⟩)
      · exact .inr (.inr (.inr ⟨τ, hτθ, hτ⟩))

/-- **An element is delivered.** -/
theorem release (h : Inv size G D S) {t : ℕ} {v : α} (hp : S.pc θ = .deqRelease t v)
    (hsize : 0 < size) (hpc : S'.pc = Function.update S.pc θ .idle)
    (hrb : S'.rb = S.rb.setSeq t ((t + S.rb.bufSize) % wrap)) :
    Inv size (G.release size t) (D ++ [(t, v)]) S' := by
  have hself := h.threads θ
  rw [hp] at hself
  obtain ⟨hd, ht, hl, hv⟩ := hself
  have hslot : S.rb.slot t = t % size := by rw [RingBuffer.slot, h.bufSize]
  have hseq : S'.rb.seq = Function.update S.rb.seq (t % size) ((t + size) % wrap) := by
    rw [hrb, ← hslot, h.bufSize]
    rfl
  have hmod := h.slots (t % size) (Nat.mod_lt t hsize)
  have hpos : ∀ k, (G.release size t).pos (k % size) =
      if k % size = t % size then t + size else G.pos (k % size) := by
    intro k
    exact Function.update_apply ..
  have hlater : ∀ k, k < G.pos (k % size) → k < (G.release size t).pos (k % size) := by
    intro k hlt
    rw [hpos]
    split_ifs with hs
    · rw [hs, ht.1] at hlt
      omega
    · exact hlt
  have hpast : t < (G.release size t).pos (t % size) := by
    rw [hpos, if_pos rfl]
    exact Nat.lt_add_of_pos_right hsize
  refine h.update hpc ?_ ?_ ?_ ?_ ?_ trivial nofun nofun ?_ ?_ ?_ ?_ ?_
  · rw [hrb]
    exact h.bufSize
  · rw [hrb]
    exact h.tail
  · rw [hrb]
    exact h.head
  · intro i hi
    have hs := h.slots i hi
    rw [hseq, hrb]
    by_cases hit : i = t % size
    · subst hit
      have hposi : (G.release size t).pos (t % size) = t + size := Function.update_self ..
      have hfull : (G.release size t).full (t % size) = false := Function.update_self ..
      refine ⟨?_, ?_, ?_, ?_⟩
      · rw [hposi, Nat.add_mod_right]
      · rw [hposi, Nat.add_sub_cancel]
        exact fun _ => ⟨hl, hd⟩
      · rw [hposi, Function.update_self]
        exact fun _ => rfl
      · rw [hfull]
        nofun
    · have hposi : (G.release size t).pos i = G.pos i := Function.update_of_ne hit ..
      have hfull : (G.release size t).full i = G.full i := Function.update_of_ne hit ..
      rw [Function.update_of_ne hit]
      exact ⟨by rw [hposi]; exact hs.mod, by rw [hposi]; exact hs.prev,
        by rw [hposi, hfull]; exact hs.free, by rw [hposi, hfull]; exact hs.full⟩
  · intro τ hτ
    rw [hrb]
    refine (h.threads τ).release hmod ht hd ?_
    intro hτt
    exact hτ (h.deqUnique τ θ t hτt (by rw [hp]; rfl))
  · intro k hk
    by_cases hkt : k = t
    · rw [hkt]
      exact .inl hpast
    · rcases h.kept_of (θ := θ) (q := .idle) (by rw [hp]; nofun) hk with hlt | ha | hτ
      · exact .inl (hlater k hlt)
      · exact .inr (.inl (ha.release_ne ht hkt))
      · exact .inr (.inr hτ)
  · intro k hk
    by_cases hkt : k = t
    · rw [hkt]
      exact .inl hpast
    · rcases h.owner k hk with hlt | ⟨τ, hτ⟩
      · exact .inl (hlater k hlt)
      · refine .inr (.inr ⟨τ, ?_, hτ⟩)
        rintro rfl
        rw [hp] at hτ
        exact hkt (Option.some.inj hτ).symm
  · intro k
    rw [List.map_append, List.mem_append, h.delivered, hpos]
    simp only [List.map_cons, List.map_nil, List.mem_singleton]
    split_ifs with hs
    · rw [hs, ht.1]
      constructor
      · rintro (hlt | rfl)
        · omega
        · exact Nat.lt_add_of_pos_right hsize
      · intro hlt
        have hle : k ≤ t := Ghost.le_of_mod_eq hs hlt
        omega
    · refine or_iff_left ?_
      rintro rfl
      exact hs rfl
  · rw [List.map_append, List.nodup_append']
    refine ⟨h.once, List.nodup_singleton _, ?_⟩
    intro k hk hk'
    rw [h.delivered] at hk
    obtain rfl := List.mem_singleton.1 hk'
    rw [ht.1] at hk
    exact lt_irrefl _ hk
  · intro x hx
    rcases List.mem_append.1 hx with hx | hx
    · exact h.values x hx
    · obtain rfl := List.mem_singleton.1 hx
      exact ⟨hl, hv⟩

end Inv

/-- What one step does to the ghost state. -/
structure Grows (G : Ghost α) (a : Label α) (G' : Ghost α) : Prop where
  elems : G'.elems = G.elems ++ a.enqueued.map Prod.snd
  deqs : G'.deqs = G.deqs + a.dequeued.length
  enqPos : ∀ x ∈ a.enqueued, x.1 = G.elems.length
  deqPos : ∀ k ∈ a.dequeued, k = G.deqs

/-- A step that claims nothing. -/
theorem Grows.quiet {G' : Ghost α} (he : G'.elems = G.elems) (hd : G'.deqs = G.deqs)
    (hae : a.enqueued = []) (had : a.dequeued = []) : Grows G a G' := by
  refine ⟨?_, ?_, ?_, ?_⟩
  · rw [hae, he, List.map_nil, List.append_nil]
  · rw [had, hd, List.length_nil, Nat.add_zero]
  · rw [hae]
    nofun
  · rw [had]
    nofun

theorem Grows.enq {k : ℕ} {e : α} (hk : k = G.elems.length) :
    Grows G (.claimEnq k e) { G with elems := G.elems ++ [e] } := by
  refine ⟨rfl, rfl, ?_, nofun⟩
  intro x hx
  obtain rfl := List.mem_singleton.1 hx
  exact hk

theorem Grows.deq {k : ℕ} (hk : k = G.deqs) :
    Grows G (.claimDeq k) { G with deqs := G.deqs + 1 } := by
  refine ⟨(List.append_nil _).symm, rfl, nofun, ?_⟩
  intro j hj
  obtain rfl := List.mem_singleton.1 hj
  exact hk

/-- **The invariant is kept by every step** that leaves fewer than `2 ^ 64`
    positions claimed on both sides. -/
theorem Step.inv (h : Inv size G D S) (hsize : 3 ≤ size) (hs : Step S a S')
    (he : G.elems.length + a.enqueued.length < wrap) (hd : G.deqs + a.dequeued.length < wrap) :
    ∃ G', Grows G a G' ∧ Inv size G' (D ++ a.delivered) S' := by
  have hnil : ∀ b : Label α, b.delivered = [] → D ++ b.delivered = D := by
    intro b hb
    rw [hb, List.append_nil]
  have quiet : ∀ T : Sys Θ α, Inv size G D T →
      ∃ G', Grows G .tau G' ∧ Inv size G' (D ++ (Label.tau : Label α).delivered) T := by
    intro T hT
    exact ⟨G, Grows.quiet rfl rfl rfl rfl, by rw [hnil _ rfl]; exact hT⟩
  have know : ∀ {θ q}, S.pc θ = q → G.PcOk size S.rb.buffer q := by
    rintro θ q rfl
    exact h.threads θ
  obtain ⟨θ, hs⟩ := hs
  cases hs with
  | @tryEnqueue elem hp =>
    exact quiet _ <| h.setPc rfl rfl h.tail.le (by rw [hp]; rfl) (by rw [hp]; rfl)
  | @enqNoSpace elem tail hp hseq =>
    exact quiet _ <| h.setPc rfl rfl trivial (by rw [hp]; rfl) (by rw [hp]; rfl)
  | @enqSpace elem tail hp hseq =>
    refine quiet _ ?_
    refine h.setPc rfl rfl ⟨know hp, ?_⟩ (by rw [hp]; rfl) (by rw [hp]; rfl)
    rintro rfl
    have hslot := h.slot_at (by omega) G.elems.length
    exact hslot.at_free (by omega) (fun hle => (hslot.prev hle).1) hseq
  | @enqAgain elem tail hp ht =>
    exact quiet _ <| h.setPc rfl rfl trivial (by rw [hp]; rfl) (by rw [hp]; rfl)
  | @enqCas elem tail hp ht =>
    have htail : tail = G.elems.length := ht.symm.trans h.tail
    refine ⟨_, Grows.enq htail, ?_⟩
    have hat := (know hp).2 htail
    subst htail
    have hself : ({ G with elems := G.elems ++ [elem] } : Ghost α).PcOk size S.rb.buffer
        (.enqStart elem G.elems.length) :=
      ⟨List.getElem?_concat_length, hat⟩
    rw [hnil _ rfl]
    exact h.claimEnq he rfl (by rw [← ht]) (by rw [hp]; rfl) rfl (by rw [hp]; rfl) rfl hself
  | @enqueue elem hp =>
    refine ⟨_, Grows.enq h.tail, ?_⟩
    have hself : ({ G with elems := G.elems ++ [elem] } : Ghost α).PcOk size S.rb.buffer
        (.enqSpin elem S.rb.tail) := by
      rw [h.tail]
      exact ⟨List.getElem?_concat_length, (h.slot_at (by omega) _).unpublished⟩
    rw [hnil _ rfl]
    exact h.claimEnq he rfl rfl (by rw [hp]; rfl) (congrArg some h.tail) (by rw [hp]; rfl) rfl hself
  | @enqReady elem tail hp hseq =>
    refine quiet _ ?_
    obtain ⟨hget, hu⟩ := know hp
    refine h.setPc rfl rfl ⟨hget, ?_⟩ (by rw [hp]; rfl) (by rw [hp]; rfl)
    have hslot := h.slot_at (by omega) tail
    refine hslot.at_free (by omega) ?_ hseq
    intro hle
    have := hu.1
    omega
  | @enqCopyStart elem tail junk hp =>
    refine quiet _ ?_
    have hk := know hp
    exact h.write rfl rfl hk.2 (by rw [hp]; rfl) rfl (by rw [hp]; rfl) rfl hk
  | @enqCopyEnd elem tail hp =>
    refine quiet _ ?_
    obtain ⟨hget, hat⟩ := know hp
    refine h.write rfl rfl hat (by rw [hp]; rfl) rfl (by rw [hp]; rfl) rfl ?_
    refine ⟨(List.getElem?_eq_some_iff.1 hget).1, hat, ?_⟩
    rw [Function.update_self, hget]
  | @publish tail hp =>
    have hl := (know hp).1
    refine ⟨G.publish size tail, Grows.quiet rfl rfl rfl rfl, ?_⟩
    rw [hnil _ rfl]
    exact h.publish hp (by omega) rfl rfl
  | @tryDequeue hp =>
    exact quiet _ <| h.setPc rfl rfl h.head.le (by rw [hp]; rfl) (by rw [hp]; rfl)
  | @deqEmpty head hp hseq =>
    exact quiet _ <| h.setPc rfl rfl trivial (by rw [hp]; rfl) (by rw [hp]; rfl)
  | @deqFull head hp hseq =>
    refine quiet _ ?_
    refine h.setPc rfl rfl ⟨know hp, ?_⟩ (by rw [hp]; rfl) (by rw [hp]; rfl)
    intro hhead hlt
    rw [Nat.mod_eq_of_lt hlt] at hseq
    have hslot := h.slot_at (by omega) head
    refine hslot.at_full ?_ hlt hseq
    intro hle
    rw [hhead]
    rw [hhead] at hle hslot
    exact (hslot.prev hle).2
  | @deqAgain head hp ht =>
    exact quiet _ <| h.setPc rfl rfl trivial (by rw [hp]; rfl) (by rw [hp]; rfl)
  | @deqCas head hp ht =>
    have hhead : head = G.deqs := ht.symm.trans h.head
    refine ⟨_, Grows.deq hhead, ?_⟩
    have hat := (know hp).2 hhead
    subst hhead
    have hself : ({ G with deqs := G.deqs + 1 } : Ghost α).PcOk size S.rb.buffer
        (.deqStart G.deqs) :=
      ⟨Nat.lt_succ_self _, hat hd⟩
    rw [hnil _ rfl]
    exact h.claimDeq hd rfl (by rw [← ht]) (by rw [hp]; rfl) rfl (by rw [hp]; rfl) rfl hself
  | @dequeue hp =>
    refine ⟨_, Grows.deq h.head, ?_⟩
    have hself : ({ G with deqs := G.deqs + 1 } : Ghost α).PcOk size S.rb.buffer
        (.deqSpin S.rb.head) := by
      rw [h.head]
      have hslot := h.slot_at (by omega) G.deqs
      exact ⟨Nat.lt_succ_self _, hslot.pos_le fun hle => (hslot.prev hle).2⟩
    rw [hnil _ rfl]
    exact h.claimDeq hd rfl rfl (by rw [hp]; rfl) rfl (by rw [hp]; rfl) (congrArg some h.head) hself
  | @deqReady head hp hseq =>
    refine quiet _ ?_
    obtain ⟨hlt, hle⟩ := know hp
    refine h.setPc rfl rfl ⟨hlt, ?_⟩ (by rw [hp]; rfl) (by rw [hp]; rfl)
    have hlt' : head + 1 < wrap := by omega
    rw [Nat.mod_eq_of_lt hlt'] at hseq
    refine (h.slot_at (by omega) head).at_full ?_ hlt' hseq
    intro hle'
    omega
  | @deqCopyStart head hp =>
    refine quiet _ ?_
    have hself : G.PcOk size S.rb.buffer (.deqCopy head) := know (q := .deqStart head) hp
    exact h.setPc rfl rfl hself (by rw [hp]; rfl) (by rw [hp]; rfl)
  | @deqCopyEnd head hp =>
    refine quiet _ ?_
    obtain ⟨hlt, hat⟩ := know hp
    refine h.setPc rfl rfl ⟨hlt, hat, ?_⟩ (by rw [hp]; rfl) (by rw [hp]; rfl)
    obtain ⟨-, hl, hb⟩ := (h.slot_at (by omega) head).full hat.2
    rw [hat.1] at hl hb
    rw [RingBuffer.slot, h.bufSize]
    exact ⟨hl, hb⟩
  | @release head elem hp =>
    exact ⟨G.release size head, Grows.quiet rfl rfl rfl rfl, h.release hp (by omega) rfl rfl⟩

/-! ## Runs -/

/-- The ghost state after the run `tr`. -/
structure Recorded (G : Ghost α) (tr : List (Trans (Sys Θ α) (Label α))) : Prop where
  elems : G.elems = (enqueued tr).map Prod.snd
  deqs : G.deqs = (dequeued tr).length
  enqPos : (enqueued tr).map Prod.fst = List.range (enqueued tr).length
  deqPos : dequeued tr = List.range (dequeued tr).length

/-- What one more step claims is the next position. -/
theorem eq_range_snoc {l ks : List ℕ} {m : ℕ} (hl : l = List.range m) (hk : ∀ k ∈ ks, k = m)
    (hlen : ks.length ≤ 1) : l ++ ks = List.range (m + ks.length) := by
  match ks, hk, hlen with
  | [], _, _ => rw [hl, List.append_nil, List.length_nil, Nat.add_zero]
  | [k], hk, _ =>
    rw [hl, hk k (List.mem_singleton_self k), List.length_singleton, List.range_succ]

theorem Label.enqueued_length_le (a : Label α) : a.enqueued.length ≤ 1 := by
  cases a <;> simp [Label.enqueued]

theorem Label.dequeued_length_le (a : Label α) : a.dequeued.length ≤ 1 := by
  cases a <;> simp [Label.dequeued]

omit [DecidableEq Θ] in
theorem enqueued_snoc (S S' : Sys Θ α) (a : Label α) :
    enqueued (tr ++ [⟨S, a, S'⟩]) = enqueued tr ++ a.enqueued := by
  simp [enqueued, List.flatMap_append]

omit [DecidableEq Θ] in
theorem dequeued_snoc (S S' : Sys Θ α) (a : Label α) :
    dequeued (tr ++ [⟨S, a, S'⟩]) = dequeued tr ++ a.dequeued := by
  simp [dequeued, List.flatMap_append]

omit [DecidableEq Θ] in
theorem delivered_snoc (S S' : Sys Θ α) (a : Label α) :
    delivered (tr ++ [⟨S, a, S'⟩]) = delivered tr ++ a.delivered := by
  simp [delivered, List.flatMap_append]

omit [DecidableEq Θ] in
theorem Recorded.snoc {G' : Ghost α} (h : Recorded G tr) (ha : Grows G a G') :
    Recorded G' (tr ++ [⟨S, a, S'⟩]) := by
  have hlen : G.elems.length = (enqueued tr).length := by rw [h.elems, List.length_map]
  refine ⟨?_, ?_, ?_, ?_⟩
  · rw [ha.elems, h.elems, enqueued_snoc, List.map_append]
  · rw [ha.deqs, h.deqs, dequeued_snoc, List.length_append]
  · rw [enqueued_snoc, List.map_append, List.length_append]
    have hk : ∀ k ∈ a.enqueued.map Prod.fst, k = (enqueued tr).length := by
      intro k hk
      obtain ⟨x, hx, rfl⟩ := List.mem_map.1 hk
      rw [ha.enqPos x hx, hlen]
    have := eq_range_snoc h.enqPos hk (by rw [List.length_map]; exact a.enqueued_length_le)
    rw [List.length_map] at this
    exact this
  · rw [dequeued_snoc, List.length_append]
    refine eq_range_snoc h.deqPos ?_ a.dequeued_length_le
    intro k hk
    rw [ha.deqPos k hk, h.deqs]

/-- **The invariant holds after every run** with fewer than `2 ^ 64` positions
    claimed on either side. -/
theorem inv_of_exec {buffer : ℕ → α} (hsize : 3 ≤ size) (hw : size ≤ wrap)
    (h : Exec Step (Sys.init ⟨0, 0, fun i => i, size, buffer⟩ : Sys Θ α) tr S)
    (he : (enqueued tr).length < wrap) (hd : (dequeued tr).length < wrap) :
    ∃ G, Recorded G tr ∧ Inv size G (delivered tr) S := by
  induction h with
  | nil => exact ⟨_, ⟨rfl, rfl, rfl, rfl⟩, Inv.init hw⟩
  | @snoc tr S a S' _ hs ih =>
    rw [enqueued_snoc, List.length_append] at he
    rw [dequeued_snoc, List.length_append] at hd
    obtain ⟨G, hrec, hinv⟩ := ih (by omega) (by omega)
    have hlen : G.elems.length = (enqueued tr).length := by rw [hrec.elems, List.length_map]
    obtain ⟨G', hgrows, hinv'⟩ := hs.inv hinv hsize (by omega) (by rw [hrec.deqs]; exact hd)
    refine ⟨G', hrec.snoc hgrows, ?_⟩
    rw [delivered_snoc]
    exact hinv'

end

/-- What the queue promises after a run `tr` to `S`. -/
structure Fifo (tr : List (Trans (Sys Θ α) (Label α))) (S : Sys Θ α) : Prop where
  /-- Enqueues claim the positions in order, .. -/
  enqOrder : (enqueued tr).map Prod.fst = List.range (enqueued tr).length
  /-- .. and so do dequeues. -/
  deqOrder : dequeued tr = List.range (dequeued tr).length
  /-- The dequeue of `k` returns the element of the enqueue of `k`, .. -/
  value : ∀ k elem, (k, elem) ∈ delivered tr → (k, elem) ∈ enqueued tr
  /-- .. and one dequeue does, which has claimed `k`. -/
  once : ((delivered tr).map Prod.fst).Nodup
  claimed : ∀ k ∈ (delivered tr).map Prod.fst, k ∈ dequeued tr
  /-- An element that is not delivered is in its slot, under its position, or
      its enqueue is under way. -/
  kept : ∀ k elem, (k, elem) ∈ enqueued tr → k ∈ (delivered tr).map Prod.fst ∨
    (S.rb.seq (S.rb.slot k) = k + 1 ∧ S.rb.buffer (S.rb.slot k) = elem) ∨
      ∃ θ, (S.pc θ).enqClaim = some k
  /-- A position that is claimed and not delivered has its dequeue. -/
  served : ∀ k ∈ dequeued tr, k ∈ (delivered tr).map Prod.fst ∨ ∃ θ, (S.pc θ).deqClaim = some k
  enqOwner : ∀ θ τ k, (S.pc θ).enqClaim = some k → (S.pc τ).enqClaim = some k → θ = τ
  deqOwner : ∀ θ τ k, (S.pc θ).deqClaim = some k → (S.pc τ).deqClaim = some k → θ = τ
  /-- A slot that is copied to is not copied to or from by another thread. -/
  exclusive : ∀ θ τ k l, (S.pc θ).copiesTo = some k → θ ≠ τ →
    (S.pc τ).copiesTo = some l ∨ (S.pc τ).copiesFrom = some l → S.rb.slot k ≠ S.rb.slot l

/-- The slot a thread copies to is at its position, and free. -/
theorem Ghost.PcOk.copiesTo {buffer : ℕ → α} {k : ℕ} (h : G.PcOk size buffer q)
    (hq : q.copiesTo = some k) : q.enqClaim = some k ∧ G.At size k false := by
  cases q with
  | enqCopy e t =>
    obtain rfl := Option.some.inj hq
    exact ⟨rfl, h.2⟩
  | _ => cases hq

/-- The slot a thread copies from is at its position, and full. -/
theorem Ghost.PcOk.copiesFrom {buffer : ℕ → α} {k : ℕ} (h : G.PcOk size buffer q)
    (hq : q.copiesFrom = some k) : G.At size k true := by
  cases q with
  | deqCopy t =>
    obtain rfl := Option.some.inj hq
    exact h.2
  | _ => cases hq

/-- A delivered position is one that a dequeue has claimed. -/
theorem Inv.lt_deqs (h : Inv size G D S) (hsize : 0 < size) {k : ℕ} (hk : k ∈ D.map Prod.fst) :
    k < G.deqs := by
  rw [h.delivered] at hk
  have hs := h.slots (k % size) (Nat.mod_lt k hsize)
  have hlap : k + size ≤ G.pos (k % size) := Nat.ModEq.add_le_of_lt hs.mod.symm hk
  have := (hs.prev (by omega)).2
  omega

theorem Recorded.mem_enqueued (h : Recorded G tr) {k : ℕ} {elem : α} :
    (k, elem) ∈ enqueued tr ↔ G.elems[k]? = some elem := by
  have hfst : ∀ (i : ℕ) x, (enqueued tr)[i]? = some x → x.1 = i := by
    intro i x hx
    have hi : ((enqueued tr).map Prod.fst)[i]? = some x.1 := by rw [List.getElem?_map, hx]; rfl
    rw [h.enqPos, List.getElem?_eq_some_iff] at hi
    obtain ⟨_, hi⟩ := hi
    rw [List.getElem_range] at hi
    exact hi.symm
  rw [h.elems, List.getElem?_map, List.mem_iff_getElem?]
  constructor
  · rintro ⟨i, hi⟩
    obtain rfl : k = i := hfst i _ hi
    rw [hi]
    rfl
  · intro hk
    obtain ⟨x, hx, rfl⟩ := Option.map_eq_some_iff.1 hk
    refine ⟨k, ?_⟩
    rw [hx, ← hfst k x hx]

/-! ## A thread that only tries -/

/-- The points of `ring_buffer_try_enqueue` -/
def Pc.InTryEnqueue : Pc α → Prop
  | .idle | .tryEnqCheck _ _ | .tryEnqCas _ _ | .enqStart _ _ | .enqCopy _ _ | .enqPublish _ => True
  | _ => False

/-- The points of `ring_buffer_try_dequeue` in the only thread that dequeues,
    with the position of `head` and what it has claimed and delivered. -/
def Pc.InTryDequeue (head : ℕ) (claimed delivered : List ℕ) : Pc α → Prop
  | .idle => claimed = delivered
  | .tryDeqCheck k | .tryDeqCas k => k = head ∧ claimed = delivered
  | .deqStart k | .deqCopy k | .deqRelease k _ => claimed = delivered ++ [k]
  | _ => False

theorem Pc.InTryEnqueue.deqClaim (h : q.InTryEnqueue) : q.deqClaim = none := by
  cases q <;> first | rfl | cases h

theorem Pc.InTryDequeue.enqClaim {head : ℕ} {claimed deliv : List ℕ}
    (h : q.InTryDequeue head claimed deliv) : q.enqClaim = none := by
  cases q <;> first | rfl | cases h

section
variable [DecidableEq Θ]

theorem ThreadStep.pc_ne (hs : ThreadStep S θ a S') (hτ : τ ≠ θ) : S'.pc τ = S.pc τ := by
  cases hs <;> exact Function.update_of_ne hτ ..

theorem ThreadStep.publish_eq {k : ℕ} (hs : ThreadStep S θ a S') (hp : S.pc θ = .enqPublish k) :
    S'.pc θ = .idle := by
  cases hs with
  | publish h => exact Function.update_self ..
  | tryEnqueue _ h | enqNoSpace h | enqSpace h | enqAgain h | enqCas h | enqueue _ h | enqReady h
  | enqCopyStart _ h | enqCopyEnd h | tryDequeue h | deqEmpty h | deqFull h | deqAgain h | deqCas h
  | dequeue h | deqReady h | deqCopyStart h | deqCopyEnd h | release h =>
    rw [hp] at h
    cases h

/-- A step inside `ring_buffer_try_enqueue` -/
theorem ThreadStep.tryEnqueue_cases (hs : ThreadStep S θ a S') (hp : (S.pc θ).InTryEnqueue)
    (hin : S.pc θ ≠ .idle) : ∃ q, S'.pc = Function.update S.pc θ q ∧ q.InTryEnqueue ∧
      S'.rb.head = S.rb.head ∧ a.dequeued = [] ∧ a.delivered = [] := by
  cases hs with
  | enqNoSpace | enqSpace | enqAgain | enqCas | enqCopyStart | enqCopyEnd | publish =>
    exact ⟨_, rfl, trivial, rfl, rfl, rfl⟩
  | tryEnqueue _ h | enqueue _ h | tryDequeue h | dequeue h => exact absurd h hin
  | enqReady h | deqEmpty h | deqFull h | deqAgain h | deqCas h | deqReady h | deqCopyStart h
  | deqCopyEnd h | release h =>
    rw [h] at hp
    cases hp

variable {claimed deliv : List ℕ}

/-- A step inside `ring_buffer_try_dequeue` -/
theorem ThreadStep.tryDequeue_cases (hs : ThreadStep S θ a S')
    (hp : (S.pc θ).InTryDequeue S.rb.head claimed deliv) (hin : S.pc θ ≠ .idle) :
    ∃ q, S'.pc = Function.update S.pc θ q ∧
      q.InTryDequeue S'.rb.head (claimed ++ a.dequeued) (deliv ++ a.delivered.map Prod.fst) ∧
      S'.rb.tail = S.rb.tail ∧ a.enqueued = [] := by
  cases hs with
  | @deqEmpty head h _ | @deqAgain head h _ =>
    rw [h] at hp
    refine ⟨_, rfl, ?_, rfl, rfl⟩
    show claimed ++ [] = deliv ++ []
    rw [List.append_nil, List.append_nil]
    exact hp.2
  | @deqFull head h _ =>
    rw [h] at hp
    refine ⟨_, rfl, ?_, rfl, rfl⟩
    show head = S.rb.head ∧ claimed ++ [] = deliv ++ []
    rw [List.append_nil, List.append_nil]
    exact hp
  | @deqCas head h _ =>
    rw [h] at hp
    refine ⟨_, rfl, ?_, rfl, rfl⟩
    show claimed ++ [head] = deliv ++ [] ++ [head]
    rw [List.append_nil, hp.2]
  | @deqCopyStart head h | @deqCopyEnd head h =>
    rw [h] at hp
    refine ⟨_, rfl, ?_, rfl, rfl⟩
    show claimed ++ [] = deliv ++ [] ++ [head]
    rw [List.append_nil, List.append_nil]
    exact hp
  | @release head elem h =>
    rw [h] at hp
    refine ⟨_, rfl, ?_, rfl, rfl⟩
    show claimed ++ [] = deliv ++ [head]
    rw [List.append_nil]
    exact hp
  | tryEnqueue _ h | enqueue _ h | tryDequeue h | dequeue h => exact absurd h hin
  | enqNoSpace h | enqSpace h | enqAgain h | enqCas h | enqReady h | enqCopyStart _ h | enqCopyEnd h
  | publish h | deqReady h =>
    rw [h] at hp
    cases hp

/-- Only the end of a successful dequeue delivers. -/
theorem ThreadStep.delivered_eq_nil (hs : ThreadStep S θ a S')
    (hp : ∀ k v, S.pc θ ≠ .deqRelease k v) : a.delivered = [] := by
  cases hs with
  | release h => exact absurd h (hp _ _)
  | _ => rfl

theorem ThreadStep.release_eq {k : ℕ} {v : α} (hs : ThreadStep S θ a S')
    (hp : S.pc θ = .deqRelease k v) : a = .deliver k v ∧ S'.pc θ = .idle := by
  cases hs with
  | release h =>
    rw [hp] at h
    obtain ⟨rfl, rfl⟩ := Pc.deqRelease.inj h
    exact ⟨rfl, Function.update_self ..⟩
  | tryEnqueue _ h | enqNoSpace h | enqSpace h | enqAgain h | enqCas h | enqueue _ h | enqReady h
  | enqCopyStart _ h | enqCopyEnd h | publish h | tryDequeue h | deqEmpty h | deqFull h | deqAgain h
  | deqCas h | dequeue h | deqReady h | deqCopyStart h | deqCopyEnd h =>
    rw [hp] at h
    cases h

/-- `ring_buffer_try_dequeue` returns an error to the only thread that
    dequeues: the slot at `head` is not full. -/
theorem ThreadStep.tryDequeue_fails (hs : ThreadStep S θ a S')
    (hp : (S.pc θ).InTryDequeue S.rb.head claimed deliv) (hin : S.pc θ ≠ .idle)
    (hret : S'.pc θ = .idle) (herr : ∀ k v, S.pc θ ≠ .deqRelease k v) :
    a = .tau ∧ S'.rb = S.rb ∧ S.rb.seq (S.rb.slot S.rb.head) ≠ (S.rb.head + 1) % wrap := by
  have hbusy : ∀ {r : RingBuffer α} {q : Pc α}, q ≠ .idle →
      ({ S.setPc θ q with rb := r } : Sys Θ α).pc θ ≠ .idle := by
    intro r q hq
    show Function.update S.pc θ q θ ≠ .idle
    rw [Function.update_self]
    exact hq
  cases hs with
  | @deqEmpty head h hs =>
    rw [h] at hp
    obtain rfl := hp.1
    exact ⟨rfl, rfl, hs⟩
  | @deqAgain head h ht =>
    rw [h] at hp
    exact absurd hp.1.symm ht
  | deqFull | deqCas | deqCopyStart | deqCopyEnd => exact absurd hret (hbusy nofun)
  | release h => exact absurd h (herr _ _)
  | tryEnqueue _ h | enqueue _ h | tryDequeue h | dequeue h => exact absurd h hin
  | enqNoSpace h | enqSpace h | enqAgain h | enqCas h | enqReady h | enqCopyStart _ h | enqCopyEnd h
  | publish h | deqReady h =>
    rw [h] at hp
    cases hp

end

/-- **The slot at `head` is full** while an element is left and no enqueue is
    under way. -/
theorem Inv.full_of_lt (h : Inv size G D S) (hsize : 0 < size) (hlt : G.deqs < G.elems.length)
    (hidle : ∀ θ, (S.pc θ).enqClaim = none) :
    S.rb.seq (S.rb.slot S.rb.head) = S.rb.head + 1 := by
  rw [h.head]
  rcases h.kept G.deqs hlt with hpos | ha | ⟨θ, hθ⟩
  · have hd := h.lt_deqs hsize ((h.delivered G.deqs).2 hpos)
    exact absurd hd (lt_irrefl _)
  · have hseq := ((h.slot_at hsize G.deqs).full ha.2).1
    rw [ha.1] at hseq
    exact hseq
  · rw [hidle θ] at hθ
    cases hθ

/-- **The ring buffer is a queue**: for every size that `ring_buffer_init`
    accepts and every interleaving of any threads' operations, while fewer than
    `2 ^ 64` positions are claimed on either side. -/
theorem ring_buffer_fifo [DecidableEq Θ] {buffer : ℕ → α} {rb : RingBuffer α}
    (hinit : ringBufferInit size buffer = some rb) (hw : size < 2 ^ 64)
    (h : Exec Step (Sys.init rb : Sys Θ α) tr S) (he : (enqueued tr).length < 2 ^ 64)
    (hd : (dequeued tr).length < 2 ^ 64) : Fifo tr S := by
  unfold ringBufferInit at hinit
  split_ifs at hinit with hsize
  obtain rfl := Option.some.inj hinit
  obtain ⟨G, hrec, hinv⟩ := inv_of_exec (not_lt.1 hsize) hw.le h he hd
  have hmem : ∀ k, k ∈ dequeued tr ↔ k < G.deqs := by
    intro k
    rw [hrec.deqPos, List.mem_range, hrec.deqs]
  have hslot : ∀ k, S.rb.slot k = k % size := fun k => by rw [RingBuffer.slot, hinv.bufSize]
  refine ⟨hrec.enqPos, hrec.deqPos, ?_, hinv.once, ?_, ?_, ?_, hinv.enqUnique, hinv.deqUnique, ?_⟩
  · intro k elem hk
    exact hrec.mem_enqueued.2 (hinv.values _ hk).2.symm
  · intro k hk
    rw [hmem]
    exact hinv.lt_deqs (by omega) hk
  · intro k elem hk
    have hget := hrec.mem_enqueued.1 hk
    rcases hinv.kept k (List.getElem?_eq_some_iff.1 hget).1 with hlt | ha | hθ
    · exact .inl ((hinv.delivered k).2 hlt)
    · obtain ⟨hseq, -, hbuf⟩ := (hinv.slot_at (by omega) k).full ha.2
      rw [ha.1] at hseq hbuf
      rw [hget] at hbuf
      exact .inr (.inl ⟨hseq, by rw [hslot]; exact Option.some.inj hbuf⟩)
    · exact .inr (.inr hθ)
  · intro k hk
    rcases hinv.owner k ((hmem k).1 hk) with hlt | hθ
    · exact .inl ((hinv.delivered k).2 hlt)
    · exact .inr hθ
  · intro θ τ k l hθ hne hτ hkl
    rw [hslot, hslot] at hkl
    obtain ⟨hcθ, haθ⟩ := (hinv.threads θ).copiesTo hθ
    rcases hτ with hτ | hτ
    · obtain ⟨hcτ, haτ⟩ := (hinv.threads τ).copiesTo hτ
      obtain rfl : k = l := by rw [← haθ.1, ← haτ.1, hkl]
      exact hne (hinv.enqUnique θ τ k hcθ hcτ)
    · have haτ := (hinv.threads τ).copiesFrom hτ
      have hfull := haτ.2
      rw [← hkl, haθ.2] at hfull
      cases hfull

/-- Two threads enqueue 7 and 8, and the second one is ready first; while it dequeues them, the
    first one enqueues 9, and 10 into the slot of 7. -/
theorem pass_four : ∃ tr S,
    Exec Step (Sys.init ⟨0, 0, fun i => i, 3, fun _ => 0⟩ : Sys Bool ℕ) tr S ∧
      enqueued tr = [(0, 7), (1, 8), (2, 9), (3, 10)] ∧ dequeued tr = [0, 1, 2, 3] ∧
      delivered tr = [(0, 7), (1, 8), (2, 9), (3, 10)] := by
  have h : Exec Step (Sys.init ⟨0, 0, fun i => i, 3, fun _ => 0⟩ : Sys Bool ℕ) [] _ := .nil
  have h := h.snoc ⟨true, .tryEnqueue 7 rfl⟩
  have h := h.snoc ⟨true, .enqSpace rfl rfl⟩
  have h := h.snoc ⟨true, .enqCas rfl rfl⟩
  have h := h.snoc ⟨false, .tryEnqueue 8 rfl⟩
  have h := h.snoc ⟨false, .enqSpace rfl rfl⟩
  have h := h.snoc ⟨false, .enqCas rfl rfl⟩
  have h := h.snoc ⟨false, .enqCopyStart 0 rfl⟩
  have h := h.snoc ⟨true, .enqCopyStart 0 rfl⟩
  have h := h.snoc ⟨false, .enqCopyEnd rfl⟩
  have h := h.snoc ⟨false, .publish rfl⟩
  have h := h.snoc ⟨true, .enqCopyEnd rfl⟩
  have h := h.snoc ⟨true, .publish rfl⟩
  have h := h.snoc ⟨false, .dequeue rfl⟩
  have h := h.snoc ⟨false, .deqReady rfl rfl⟩
  have h := h.snoc ⟨false, .deqCopyStart rfl⟩
  have h := h.snoc ⟨false, .deqCopyEnd rfl⟩
  have h := h.snoc ⟨true, .tryEnqueue 9 rfl⟩
  have h := h.snoc ⟨true, .enqSpace rfl rfl⟩
  have h := h.snoc ⟨true, .enqCas rfl rfl⟩
  have h := h.snoc ⟨false, .release rfl⟩
  have h := h.snoc ⟨true, .enqCopyStart 0 rfl⟩
  have h := h.snoc ⟨true, .enqCopyEnd rfl⟩
  have h := h.snoc ⟨true, .publish rfl⟩
  -- the slot of 7 is free again
  have h := h.snoc ⟨true, .tryEnqueue 10 rfl⟩
  have h := h.snoc ⟨true, .enqSpace rfl rfl⟩
  have h := h.snoc ⟨true, .enqCas rfl rfl⟩
  have h := h.snoc ⟨false, .dequeue rfl⟩
  have h := h.snoc ⟨false, .deqReady rfl rfl⟩
  have h := h.snoc ⟨false, .deqCopyStart rfl⟩
  have h := h.snoc ⟨true, .enqCopyStart 0 rfl⟩
  have h := h.snoc ⟨true, .enqCopyEnd rfl⟩
  have h := h.snoc ⟨true, .publish rfl⟩
  have h := h.snoc ⟨false, .deqCopyEnd rfl⟩
  have h := h.snoc ⟨false, .release rfl⟩
  have h := h.snoc ⟨false, .dequeue rfl⟩
  have h := h.snoc ⟨false, .deqReady rfl rfl⟩
  have h := h.snoc ⟨false, .deqCopyStart rfl⟩
  have h := h.snoc ⟨false, .deqCopyEnd rfl⟩
  have h := h.snoc ⟨false, .release rfl⟩
  have h := h.snoc ⟨false, .dequeue rfl⟩
  have h := h.snoc ⟨false, .deqReady rfl rfl⟩
  have h := h.snoc ⟨false, .deqCopyStart rfl⟩
  have h := h.snoc ⟨false, .deqCopyEnd rfl⟩
  have h := h.snoc ⟨false, .release rfl⟩
  exact ⟨_, _, h, rfl, rfl, rfl⟩

theorem ring_buffer_fifo_four : ∃ (tr : List (Trans (Sys Bool ℕ) (Label ℕ))) (S : Sys Bool ℕ),
    enqueued tr = [(0, 7), (1, 8), (2, 9), (3, 10)] ∧ delivered tr = [(0, 7), (1, 8), (2, 9), (3, 10)] ∧
    Fifo tr S := by
  obtain ⟨tr, S, h, he, hd, hdel⟩ := pass_four
  refine ⟨tr, S, he, hdel, ring_buffer_fifo (rfl : ringBufferInit 3 _ = _) (by decide) h ?_ ?_⟩
  · rw [he]
    decide
  · rw [hd]
    decide

end EeftSched.Mpmc

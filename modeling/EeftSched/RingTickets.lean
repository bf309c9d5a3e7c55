/-
  The ring buffer of many producers and one consumer, as the requests for
  migrations, the acks and the completion messages use it (`lib/ring_buffer.h`),
  is a queue of tickets.

  * `ConsumerStep`: a step of the buffer with one thread that only tries to
    dequeue, and others that only enqueue;
  * `Sys.tickets`: the queue, read off the buffer;
  * `ThreadStep.tickets`: a step of the buffer is one of the queue, or none;
  * `ring_buffer_tickets`: so is every run; an enqueue waits just while its
    ticket has no free slot, and a dequeue fails just when nothing can be taken.
-/
import EeftSched.Lib.TicketQueue
import EeftSched.RingBuffer

namespace EeftSched.Mpmc

open Lts

universe u
variable {Θ α : Type u}

/-! ## One consumer -/

/-- The points of the two kinds of enqueue -/
def Pc.Enqueues : Pc α → Prop
  | .idle | .tryEnqCheck .. | .tryEnqCas .. | .enqSpin .. | .enqStart .. | .enqCopy ..
  | .enqPublish _ => True
  | _ => False

/-- The points of `ring_buffer_try_dequeue` -/
def Pc.TriesDequeue : Pc α → Prop
  | .idle | .tryDeqCheck _ | .tryDeqCas _ | .deqStart _ | .deqCopy _ | .deqRelease .. => True
  | _ => False

/-- Only `c` dequeues, and does not wait for it. -/
structure OneConsumer (c : Θ) (S : Sys Θ α) : Prop where
  consumer : (S.pc c).TriesDequeue
  producer : ∀ θ ≠ c, (S.pc θ).Enqueues

/-- A step that keeps to the roles -/
def ConsumerStep [DecidableEq Θ] (c : Θ) (S : Sys Θ α) (a : Label α) (S' : Sys Θ α) : Prop :=
  Step S a S' ∧ OneConsumer c S'

theorem Pc.Enqueues.deqClaim {q : Pc α} (h : q.Enqueues) : q.deqClaim = none := by
  cases q <;> first | rfl | cases h

/-- `d` elements are consumed, `deqs` positions claimed for it. -/
def Sys.Consumed (S : Sys Θ α) (c : Θ) (deqs d : ℕ) : Prop :=
  ((S.pc c).deqClaim = none ∧ deqs = d) ∨ ((S.pc c).deqClaim = some d ∧ deqs = d + 1)

theorem Sys.Consumed.congr {S S' : Sys Θ α} {c : Θ} {deqs d : ℕ} (h : S.Consumed c deqs d)
    (hc : (S'.pc c).deqClaim = (S.pc c).deqClaim) : S'.Consumed c deqs d := by
  unfold Consumed
  rw [hc]
  exact h

/-- The queue: the elements from `d` on, those published whose `seq` says so. -/
def Sys.tickets (S : Sys Θ α) (elems : List α) (d : ℕ) : TicketQueue α :=
  ⟨d, (elems.drop d).mapIdx fun i e => (e, S.rb.seq (S.rb.slot (d + i)) == d + i + 1)⟩

variable {c θ : Θ} {S S' : Sys Θ α} {a : Label α} {size d k t : ℕ} {G : Ghost α} {D : List (ℕ × α)}
  {elems : List α} {e : α} {tr : List (Trans (Sys Θ α) (Label α))}

theorem Sys.tickets_getElem? (S : Sys Θ α) (elems : List α) (d i : ℕ) :
    (S.tickets elems d).slots[i]? =
      elems[d + i]?.map fun e => (e, S.rb.seq (S.rb.slot (d + i)) == d + i + 1) := by
  rw [tickets, List.getElem?_mapIdx, List.getElem?_drop]

theorem Sys.tickets_length (S : Sys Θ α) (elems : List α) (d : ℕ) :
    (S.tickets elems d).slots.length = elems.length - d := by
  rw [tickets, List.length_mapIdx, List.length_drop]

theorem Sys.tickets_tail (S : Sys Θ α) (hd : d ≤ elems.length) :
    (S.tickets elems d).tail = elems.length := by
  unfold TicketQueue.tail
  rw [S.tickets_length]
  exact Nat.add_sub_cancel' hd

/-- The queue depends on `seq` only. -/
theorem Sys.tickets_congr (hseq : S'.rb.seq = S.rb.seq) (hsize : S'.rb.bufSize = S.rb.bufSize)
    (elems : List α) (d : ℕ) : S'.tickets elems d = S.tickets elems d := by
  unfold tickets RingBuffer.slot
  rw [hseq, hsize]

/-! ## What the queue says about the buffer -/

/-- A published position is one whose element is in its slot. -/
theorem Inv.seq_eq_iff (h : Inv size G D S) (hsize : 3 ≤ size) (hk : k + 1 < wrap)
    (hlap : size ≤ G.pos (k % size) → G.pos (k % size) - size < k) :
    S.rb.seq (S.rb.slot k) = k + 1 ↔ G.At size k true := by
  have hslot := h.slot_at (by omega) k
  constructor
  · exact hslot.at_full hlap hk
  · intro hat
    rw [(hslot.full hat.2).1, hat.1]

/-- The elements before `d` are delivered, the others are not. -/
theorem Inv.lt_pos_iff (h : Inv size G D S) (hsize : 0 < size) (hc : OneConsumer c S)
    (hd : S.Consumed c G.deqs d) : k < G.pos (k % size) ↔ k < d := by
  constructor
  · intro hk
    have hlt := h.lt_deqs hsize ((h.delivered k).2 hk)
    rcases hd with ⟨-, hd⟩ | ⟨hclaim, hd⟩
    · omega
    · have hpos : G.pos (d % size) ≤ d := by
        have hok := h.threads c
        cases hq : S.pc c with
        | deqStart j | deqCopy j | deqRelease j v =>
          rw [hq] at hok hclaim
          obtain rfl := Option.some.inj hclaim
          first | exact hok.2.1.le | exact hok.2.1.1.le
        | deqSpin j =>
          have := hc.consumer
          rw [hq] at this
          cases this
        | _ =>
          rw [hq] at hclaim
          cases hclaim
      have hne : k ≠ d := by
        rintro rfl
        omega
      omega
  · intro hk
    rcases h.owner k (by rcases hd with hd | hd <;> omega) with hlt | ⟨θ, hθ⟩
    · exact hlt
    · exfalso
      by_cases hθc : θ = c
      · rw [hθc] at hθ
        rcases hd with ⟨hnone, -⟩ | ⟨hclaim, -⟩
        · rw [hnone] at hθ
          cases hθ
        · rw [hclaim] at hθ
          obtain rfl := Option.some.inj hθ
          exact lt_irrefl _ hk
      · rw [(hc.producer θ hθc).deqClaim] at hθ
        cases hθ

/-- The slot of a position is not ahead of it by a lap. -/
theorem Inv.lap (h : Inv size G D S) (hsize : 0 < size) (hc : OneConsumer c S)
    (hd : S.Consumed c G.deqs d) (hk : d ≤ k) (hp : size ≤ G.pos (k % size)) :
    G.pos (k % size) - size < k := by
  have hle : ¬ k < G.pos (k % size) := by
    rw [h.lt_pos_iff hsize hc hd]
    omega
  omega

/-- What is consumed was enqueued. -/
theorem Inv.consumed_le (h : Inv size G D S) (hsize : 0 < size) (hc : OneConsumer c S)
    (hd : S.Consumed c G.deqs d) : d ≤ G.elems.length := by
  cases d with
  | zero => exact Nat.zero_le _
  | succ k =>
    have hk := (h.delivered k).2 ((h.lt_pos_iff hsize hc hd).2 (Nat.lt_succ_self k))
    obtain ⟨x, hx, rfl⟩ := List.mem_map.1 hk
    exact (h.values x hx).1

/-- The slot of an unpublished position is free for it once the position a lap
    before is consumed. -/
theorem Inv.seq_eq_iff_free (h : Inv size G D S) (hsize : 3 ≤ size) (hc : OneConsumer c S)
    (hd : S.Consumed c G.deqs d) (hu : G.Unpublished size k) (hk : k < wrap) :
    S.rb.seq (S.rb.slot k) = k ↔ k < d + size := by
  have hslot := h.slot_at (by omega) k
  constructor
  · intro hseq
    have hat := hslot.at_free (by omega) (fun hp => by have := hu.1; omega) hseq
    by_contra hge
    have hprev := hslot.prev (by rw [hat.1]; omega)
    have hmod : (k - size) % size = k % size := (Nat.mod_eq_sub_mod (by omega)).symm
    have hlt := (h.lt_pos_iff (by omega) hc hd (k := k - size)).1 (by rw [hmod, hat.1]; omega)
    omega
  · intro hlt
    have hpos : G.pos (k % size) = k := by
      by_contra hne
      have hlap : G.pos (k % size) + size ≤ k :=
        Nat.ModEq.add_le_of_lt hslot.mod (lt_of_le_of_ne hu.1 hne)
      have hmod : G.pos (k % size) % size = k % size := hslot.mod
      have hnot := (h.lt_pos_iff (by omega) hc hd (k := G.pos (k % size))).2 (by omega)
      rw [hmod] at hnot
      exact lt_irrefl _ hnot
    cases hf : G.full (k % size) with
    | true =>
      have := hu.2 hf
      omega
    | false => rw [hslot.free hf, hpos, Nat.mod_eq_of_lt hk]

/-- What the consumer finds in the slot at `d` is what it can take. -/
theorem Sys.tryDequeue_tickets (S : Sys Θ α) (elems : List α) (d : ℕ) :
    (S.tickets elems d).tryDequeue =
      if S.rb.seq (S.rb.slot d) = d + 1 then
        elems[d]?.map fun e => (e, ⟨d + 1, (S.tickets elems (d + 1)).slots⟩)
      else none := by
  unfold tickets
  by_cases hd : d < elems.length
  · rw [List.drop_eq_getElem_cons hd, List.mapIdx_cons, List.getElem?_eq_getElem hd]
    have hidx : (fun i e => (e, S.rb.seq (S.rb.slot (d + (i + 1))) == d + (i + 1) + 1)) =
        fun i (e : α) => (e, S.rb.seq (S.rb.slot (d + 1 + i)) == d + 1 + i + 1) := by
      funext i e
      rw [Nat.add_right_comm d 1 i, Nat.add_assoc d i 1]
    rw [hidx, Nat.add_zero]
    by_cases hs : S.rb.seq (S.rb.slot d) = d + 1
    · rw [if_pos hs, beq_iff_eq.2 hs]
      rfl
    · rw [if_neg hs, beq_eq_false_iff_ne.2 hs]
      rfl
  · rw [List.drop_of_length_le (not_lt.1 hd), List.getElem?_eq_none (not_lt.1 hd)]
    split_ifs <;> rfl

/-! ## What a step does to the queue -/

/-- The next position is claimed; its element is not published. -/
theorem Sys.tickets_claim (S : Sys Θ α) (hd : d ≤ elems.length)
    (hs : S.rb.seq (S.rb.slot elems.length) ≠ elems.length + 1) (e : α) :
    S.tickets (elems ++ [e]) d = (S.tickets elems d).claim e := by
  unfold tickets TicketQueue.claim
  rw [List.drop_append_of_le_length hd, List.mapIdx_append, List.length_drop]
  congr 2
  rw [List.mapIdx_singleton, Nat.zero_add, Nat.add_sub_cancel' hd, beq_eq_false_iff_ne.2 hs]

/-- Neighbours have different slots. -/
theorem RingBuffer.slot_succ_ne {rb : RingBuffer α} (hsize : 3 ≤ rb.bufSize) (k : ℕ) :
    rb.slot (k + 1) ≠ rb.slot k := Ghost.succ_mod_ne (by omega)

theorem Sys.tickets_publish (hsize : 3 ≤ S.rb.bufSize) (hbuf : S'.rb.bufSize = S.rb.bufSize)
    (hseq : S'.rb.seq = Function.update S.rb.seq (S.rb.slot t) (t + 1))
    (hs : S.rb.seq (S.rb.slot t) = t) (hd : d ≤ t) (elems : List α) :
    S'.tickets elems d = (S.tickets elems d).publish t := by
  have hslot : ∀ k, S'.rb.slot k = S.rb.slot k := fun k => by
    unfold RingBuffer.slot
    rw [hbuf]
  refine congrArg (TicketQueue.mk d) (List.ext_getElem? fun i => ?_)
  have hleft := S'.tickets_getElem? elems d i
  have hright := S.tickets_getElem? elems d i
  rw [List.getElem?_modify]
  refine hleft.trans ?_
  show _ = (fun x : α × Bool => if t - d = i then (x.1, true) else x) <$> (S.tickets elems d).slots[i]?
  rw [hright, hslot, hseq]
  cases elems[d + i]? with
  | none => rfl
  | some e =>
    show some _ = some (if t - d = i then (e, true) else (e, S.rb.seq (S.rb.slot (d + i)) == d + i + 1))
    by_cases hi : t - d = i
    · obtain rfl : t = d + i := by omega
      rw [if_pos hi, Function.update_self, beq_self_eq_true]
    · rw [if_neg hi]
      by_cases hk : S.rb.slot (d + i) = S.rb.slot t
      · rw [hk, Function.update_self, hs]
        have hne : t ≠ d + i + 1 := by
          rintro rfl
          exact RingBuffer.slot_succ_ne hsize (d + i) hk.symm
        have hne' : t + 1 ≠ d + i + 1 := by omega
        rw [beq_eq_false_iff_ne.2 hne, beq_eq_false_iff_ne.2 hne']
      · rw [Function.update_of_ne hk]

theorem Sys.tickets_release (hsize : 3 ≤ S.rb.bufSize) (hbuf : S'.rb.bufSize = S.rb.bufSize)
    (hseq : S'.rb.seq = Function.update S.rb.seq (S.rb.slot d) ((d + S.rb.bufSize) % wrap))
    (hs : S.rb.seq (S.rb.slot d) = d + 1) (he : elems[d]? = some e) (hw : S.rb.bufSize ≤ wrap) :
    (S.tickets elems d).tryDequeue = some (e, S'.tickets elems (d + 1)) := by
  have hslot : ∀ k, S'.rb.slot k = S.rb.slot k := fun k => by
    unfold RingBuffer.slot
    rw [hbuf]
  rw [S.tryDequeue_tickets, if_pos hs, he]
  refine congrArg (fun l => some (e, TicketQueue.mk (d + 1) l)) (List.ext_getElem? fun i => ?_)
  have hleft := S.tickets_getElem? elems (d + 1) i
  have hright := S'.tickets_getElem? elems (d + 1) i
  refine hleft.trans (Eq.trans ?_ hright.symm)
  rw [hslot, hseq]
  cases elems[d + 1 + i]? with
  | none => rfl
  | some x =>
    refine congrArg (fun b => some (x, b)) ?_
    by_cases hk : S.rb.slot (d + 1 + i) = S.rb.slot d
    · rw [hk, Function.update_self, hs]
      have hne : d + 1 ≠ d + 1 + i + 1 := by omega
      have hne' : (d + S.rb.bufSize) % wrap ≠ d + 1 + i + 1 := by
        intro heq
        by_cases hlap : d + S.rb.bufSize < wrap
        · -- the next lap of the slot has the same remainder as its position
          rw [Nat.mod_eq_of_lt hlap] at heq
          have hmod : S.rb.slot (d + 1 + i + 1) = S.rb.slot d := by
            rw [← heq]
            exact Nat.add_mod_right _ _
          exact RingBuffer.slot_succ_ne hsize (d + 1 + i) (hmod.trans hk.symm)
        · rw [Nat.mod_eq_sub_mod (not_lt.1 hlap)] at heq
          have hle := Nat.mod_le (d + S.rb.bufSize - wrap) wrap
          omega
      rw [beq_eq_false_iff_ne.2 hne, beq_eq_false_iff_ne.2 hne']
    · rw [Function.update_of_ne hk]

/-- The queue goes on as the buffer does. -/
def Follows (size : ℕ) (a : Label α) (r r' : TicketQueue α) : Prop :=
  ∃ tr, Exec (TicketQueue.Step size) r tr r' ∧
    TicketQueue.claimed tr = a.enqueued.map Prod.snd ∧ TicketQueue.taken tr = a.delivered.map Prod.snd

theorem Follows.of_eq {r r' : TicketQueue α} (h : r' = r) (he : a.enqueued = [])
    (hd : a.delivered = []) : Follows size a r r' := by
  refine ⟨[], ?_, ?_, ?_⟩
  · rw [h]
    exact .nil
  · rw [he]
    rfl
  · rw [hd]
    rfl

theorem Follows.of_step {r r' : TicketQueue α} {b : TicketQueue.Act α}
    (h : TicketQueue.Step size r b r') (he : b.claimed = a.enqueued.map Prod.snd)
    (hd : b.taken = a.delivered.map Prod.snd) : Follows size a r r' := by
  refine ⟨[⟨r, b, r'⟩], Exec.nil.snoc h, ?_, ?_⟩
  · rw [← he]
    exact List.append_nil _
  · rw [← hd]
    exact List.append_nil _

section
variable [DecidableEq Θ]

/-- The roles say who dequeues. -/
theorem OneConsumer.eq (hc : OneConsumer c S) (h : ¬ (S.pc θ).Enqueues) : θ = c := by
  by_contra hne
  exact h (hc.producer θ hne)

/-- **A step of the buffer is one of the queue, or none.** -/
theorem ThreadStep.tickets (hs : ThreadStep S θ a S') (h : Inv size G D S) (hsize : 3 ≤ size)
    (hw : size ≤ wrap) (hc : OneConsumer c S) (hc' : OneConsumer c S')
    (hd : S.Consumed c G.deqs d) (he : G.elems.length + a.enqueued.length < wrap) :
    ∃ d', S'.Consumed c (G.deqs + a.dequeued.length) d' ∧
      Follows size a (S.tickets G.elems d) (S'.tickets (G.elems ++ a.enqueued.map Prod.snd) d') := by
  have hpos : 0 < size := by omega
  have hbuf := h.bufSize
  have know : ∀ {q}, S.pc θ = q → G.PcOk size S.rb.buffer q := by
    rintro q rfl
    exact h.threads θ
  have hclaim : ∀ {q : Pc α}, q.deqClaim = (S.pc θ).deqClaim →
      (Function.update S.pc θ q c).deqClaim = (S.pc c).deqClaim := by
    intro q hq
    by_cases hθ : c = θ
    · rw [hθ, Function.update_self, hq]
    · rw [Function.update_of_ne hθ]
  have quiet : ∀ {q : Pc α} {T : Sys Θ α}, T.pc = Function.update S.pc θ q → T.rb.seq = S.rb.seq →
      T.rb.bufSize = S.rb.bufSize → q.deqClaim = (S.pc θ).deqClaim →
      ∃ d', T.Consumed c (G.deqs + (Label.tau : Label α).dequeued.length) d' ∧
        Follows size .tau (S.tickets G.elems d)
          (T.tickets (G.elems ++ (Label.tau : Label α).enqueued.map Prod.snd) d') := by
    intro q T hpc hseq hsz hq
    refine ⟨d, ?_, .of_eq ?_ rfl rfl⟩
    · exact hd.congr (by rw [hpc, hclaim hq])
    · rw [Sys.tickets_congr hseq hsz]
      exact congrArg (S.tickets · d) (List.append_nil _)
  have claim : ∀ {q : Pc α} {T : Sys Θ α} {k : ℕ} {elem : α}, T.pc = Function.update S.pc θ q →
      T.rb.seq = S.rb.seq → T.rb.bufSize = S.rb.bufSize → q.deqClaim = (S.pc θ).deqClaim →
      G.elems.length + 1 < wrap →
      ∃ d', T.Consumed c (G.deqs + (Label.claimEnq k elem).dequeued.length) d' ∧
        Follows size (.claimEnq k elem) (S.tickets G.elems d)
          (T.tickets (G.elems ++ (Label.claimEnq k elem).enqueued.map Prod.snd) d') := by
    intro q T k elem hpc hseq hsz hq hlt
    have hle := h.consumed_le hpos hc hd
    have hfree : S.rb.seq (S.rb.slot G.elems.length) ≠ G.elems.length + 1 := by
      intro hfull
      have hat := (h.seq_eq_iff hsize hlt (h.lap hpos hc hd hle)).1 hfull
      have hpub := ((h.slot_at hpos G.elems.length).full hat.2).2.1
      rw [hat.1] at hpub
      exact lt_irrefl _ hpub
    refine ⟨d, ?_, .of_step (b := .claim elem) ?_ rfl rfl⟩
    · exact hd.congr (by rw [hpc, hclaim hq])
    · rw [Sys.tickets_congr hseq hsz]
      show TicketQueue.Step _ _ _ (S.tickets (G.elems ++ [elem]) d)
      rw [S.tickets_claim hle hfree]
      exact .claim elem
  cases hs with
  | tryEnqueue _ hp | enqNoSpace hp | enqSpace hp | enqAgain hp | enqReady hp | tryDequeue hp
  | deqEmpty hp | deqFull hp | deqAgain hp | deqReady hp | deqCopyStart hp | deqCopyEnd hp =>
    exact quiet rfl rfl rfl (by rw [hp]; rfl)
  | enqCopyStart _ hp | enqCopyEnd hp => exact quiet rfl rfl rfl (by rw [hp]; rfl)
  | enqCas hp | enqueue _ hp => exact claim rfl rfl rfl (by rw [hp]; rfl) he
  | @publish tail hp =>
    obtain ⟨hl, hat, hb⟩ := know hp
    have hslot := h.slot_at hpos tail
    have hlt : tail + 1 < wrap := by omega
    have hseq : S.rb.seq (S.rb.slot tail) = tail := by
      rw [hslot.free hat.2, hat.1, Nat.mod_eq_of_lt (by omega)]
    have hdt : d ≤ tail := by
      have hnot := (h.lt_pos_iff hpos hc hd (k := tail)).not
      rw [hat.1] at hnot
      exact not_lt.1 (hnot.1 (lt_irrefl _))
    have hfree := (h.seq_eq_iff_free hsize hc hd hat.unpublished (by omega)).1 hseq
    obtain ⟨e, hget⟩ : ∃ e, G.elems[tail]? = some e := ⟨_, hb.symm⟩
    refine ⟨d, ?_, .of_step (b := .publish tail) ?_ rfl rfl⟩
    · exact hd.congr (hclaim (by rw [hp]; rfl))
    · have hupd : ∀ T : Sys Θ α, T.rb = S.rb.setSeq tail ((tail + 1) % wrap) →
          T.tickets G.elems d = (S.tickets G.elems d).publish tail := by
        intro T hT
        refine Sys.tickets_publish (by omega) (by rw [hT]; rfl) ?_ hseq hdt _
        rw [hT, Nat.mod_eq_of_lt hlt]
        rfl
      have hnext := hupd { S.setPc θ .idle with rb := S.rb.setSeq tail ((tail + 1) % wrap) } rfl
      show TicketQueue.Step _ _ _ (Sys.tickets _ (G.elems ++ []) d)
      rw [List.append_nil, hnext]
      refine .publish (a := e) hdt ?_ hfree
      show (S.tickets G.elems d).slots[tail - d]? = _
      rw [S.tickets_getElem?, Nat.add_sub_cancel' hdt, hget, hseq]
      exact congrArg some (Prod.ext rfl (beq_eq_false_iff_ne.2 (by omega)))
  | @deqCas head hp hh =>
    obtain rfl := hc.eq (θ := θ) (by rw [hp]; exact id)
    rcases hd with ⟨hnone, hd⟩ | ⟨hsome, -⟩
    · refine ⟨d, .inr ⟨?_, ?_⟩, .of_eq ?_ rfl rfl⟩
      · show (Function.update S.pc θ (Pc.deqStart head) θ).deqClaim = some d
        rw [Function.update_self, ← hh, h.head, hd]
        rfl
      · rw [hd]
        rfl
      · exact congrArg (S.tickets · d) (List.append_nil _)
    · rw [hp] at hsome
      cases hsome
  | @dequeue hp =>
    by_cases hθ : θ = c
    · have hcons := hc'.consumer
      rw [← hθ] at hcons
      change (Function.update S.pc θ _ θ).TriesDequeue at hcons
      rw [Function.update_self] at hcons
      cases hcons
    · have hprod := hc'.producer θ hθ
      change (Function.update S.pc θ _ θ).Enqueues at hprod
      rw [Function.update_self] at hprod
      cases hprod
  | @release head elem hp =>
    obtain rfl := hc.eq (θ := θ) (by rw [hp]; exact id)
    obtain ⟨-, hat, hl, hv⟩ := know hp
    rcases hd with ⟨hnone, -⟩ | ⟨hsome, hd⟩
    · rw [hp] at hnone
      cases hnone
    · rw [hp] at hsome
      obtain rfl := Option.some.inj hsome
      have hseq : S.rb.seq (S.rb.slot head) = head + 1 := by
        rw [((h.slot_at hpos head).full hat.2).1, hat.1]
      refine ⟨head + 1, .inl ⟨?_, hd⟩, .of_step (b := .take elem) ?_ rfl rfl⟩
      · show (Function.update S.pc θ Pc.idle θ).deqClaim = none
        rw [Function.update_self]
        rfl
      · show TicketQueue.Step _ _ _ (Sys.tickets _ (G.elems ++ []) (head + 1))
        rw [List.append_nil]
        exact .take (Sys.tickets_release (by omega) rfl rfl hseq hv.symm (by omega))

/-- The consumer alone moves `head`, so that what it has loaded is still there. -/
def Sys.Reads (S : Sys Θ α) (c : Θ) : Prop := ∀ k, S.pc c = .tryDeqCheck k → k = S.rb.head

theorem ThreadStep.reads (hs : ThreadStep S θ a S') (hc : OneConsumer c S) (hc' : OneConsumer c S')
    (h : S.Reads c) : S'.Reads c := by
  intro k hk
  by_cases hθ : c = θ
  · subst hθ
    cases hs with
    | tryDequeue hp =>
      change Function.update S.pc c _ c = _ at hk
      rw [Function.update_self] at hk
      exact (Pc.tryDeqCheck.inj hk).symm
    | _ =>
      change Function.update S.pc c _ c = _ at hk
      rw [Function.update_self] at hk
      cases hk
  · rw [hs.pc_ne hθ] at hk
    have hkeep := h k hk
    cases hs with
    | deqCas hp hh => exact absurd (hc.eq (θ := θ) (by rw [hp]; exact id)).symm hθ
    | dequeue hp =>
      have hprod := hc'.producer θ (Ne.symm hθ)
      change (Function.update S.pc θ _ θ).Enqueues at hprod
      rw [Function.update_self] at hprod
      cases hprod
    | _ => exact hkeep

/-! ## Runs -/

/-- What is known after a run. -/
structure Traced (size : ℕ) (c : Θ) (tr : List (Trans (Sys Θ α) (Label α))) (S : Sys Θ α)
    (G : Ghost α) (d : ℕ) : Prop where
  recorded : Recorded G tr
  inv : Inv size G (delivered tr) S
  roles : OneConsumer c S
  consumed : S.Consumed c G.deqs d
  reads : S.Reads c
  run : ∃ tr', Exec (TicketQueue.Step size) .empty tr' (S.tickets G.elems d) ∧
    TicketQueue.claimed tr' = (enqueued tr).map Prod.snd ∧
    TicketQueue.taken tr' = (delivered tr).map Prod.snd

theorem traced_of_exec {buffer : ℕ → α} (hsize : 3 ≤ size) (hw : size ≤ wrap)
    (h : Exec (ConsumerStep c) (Sys.init ⟨0, 0, fun i => i, size, buffer⟩ : Sys Θ α) tr S)
    (he : (enqueued tr).length < wrap) (hd : (dequeued tr).length < wrap) :
    ∃ G d, Traced size c tr S G d := by
  induction h with
  | nil =>
    exact ⟨_, 0, ⟨rfl, rfl, rfl, rfl⟩, Inv.init hw, ⟨trivial, fun _ _ => trivial⟩, .inl ⟨rfl, rfl⟩,
      nofun, [], .nil, rfl, rfl⟩
  | @snoc tr S a S' _ hs ih =>
    rw [enqueued_snoc, List.length_append] at he
    rw [dequeued_snoc, List.length_append] at hd
    obtain ⟨G, d, hrec, hinv, hroles, hcons, hreads, tr', hrun, hcl, htk⟩ := ih (by omega) (by omega)
    have hlen : G.elems.length = (enqueued tr).length := by rw [hrec.elems, List.length_map]
    have he' : G.elems.length + a.enqueued.length < wrap := by omega
    obtain ⟨⟨θ, hθ⟩, hroles'⟩ := hs
    obtain ⟨G', hgrows, hinv'⟩ := Step.inv hinv hsize ⟨θ, hθ⟩ he' (by rw [hrec.deqs]; exact hd)
    obtain ⟨d', hcons', tr'', hrun', hcl', htk'⟩ := hθ.tickets hinv hsize hw hroles hroles' hcons he'
    rw [← hgrows.elems] at hrun'
    rw [← hgrows.deqs] at hcons'
    rw [← delivered_snoc S S' a] at hinv'
    refine ⟨G', d', hrec.snoc hgrows, hinv', hroles', hcons', hθ.reads hroles hroles' hreads,
      tr' ++ tr'', hrun.append hrun', ?_, ?_⟩
    · rw [TicketQueue.claimed_append, hcl, hcl', enqueued_snoc, List.map_append]
    · rw [TicketQueue.taken_append, htk, htk', delivered_snoc, List.map_append]

/-- What the operations find in the buffer is what the queue says. -/
structure Sees (size : ℕ) (c : Θ) (S : Sys Θ α) (r : TicketQueue α) : Prop where
  tail : S.rb.tail = r.tail
  /-- `ring_buffer_enqueue` waits until its ticket has a free slot. -/
  waits : ∀ θ e t, S.pc θ = .enqSpin e t → (S.rb.seq (S.rb.slot t) = t ↔ r.Free size t)
  /-- So does the test of `ring_buffer_try_enqueue`, if nobody has got ahead of it. -/
  noSpace : ∀ θ e t, S.pc θ = .tryEnqCheck e t → t = r.tail →
    (S.rb.seq (S.rb.slot t) = t ↔ r.Free size t)
  /-- `ring_buffer_try_dequeue` fails just when there is nothing to take. -/
  empty : ∀ k, S.pc c = .tryDeqCheck k →
    (S.rb.seq (S.rb.slot k) = (k + 1) % wrap ↔ r.tryDequeue.isSome = true)

omit [DecidableEq Θ] in
theorem Traced.sees (h : Traced size c tr S G d) (hsize : 3 ≤ size)
    (he : (enqueued tr).length < wrap) : Sees size c S (S.tickets G.elems d) := by
  obtain ⟨hrec, hinv, hroles, hcons, hreads, -⟩ := h
  have hpos : 0 < size := by omega
  have hlen : G.elems.length = (enqueued tr).length := by rw [hrec.elems, List.length_map]
  have hle := hinv.consumed_le hpos hroles hcons
  have htail := S.tickets_tail hle
  have hnext := (hinv.slot_at hpos G.elems.length).unpublished
  refine ⟨hinv.tail.trans htail.symm, ?_, ?_, ?_⟩
  · intro θ e t hp
    have hok := hinv.threads θ
    rw [hp] at hok
    have hlt := (List.getElem?_eq_some_iff.1 hok.1).1
    exact hinv.seq_eq_iff_free hsize hroles hcons hok.2 (by omega)
  · intro θ e t _ ht
    rw [htail] at ht
    subst ht
    exact hinv.seq_eq_iff_free hsize hroles hcons hnext (by omega)
  · intro k hk
    have hkd : k = d := by
      rw [hreads k hk, hinv.head]
      rcases hcons with ⟨-, hd⟩ | ⟨hclaim, -⟩
      · exact hd
      · rw [hk] at hclaim
        cases hclaim
    subst hkd
    rw [S.tryDequeue_tickets]
    rcases Nat.lt_or_eq_of_le hle with hlt | heq
    · rw [Nat.mod_eq_of_lt (by omega), List.getElem?_eq_getElem hlt]
      split_ifs with hs
      · exact ⟨fun _ => rfl, fun _ => hs⟩
      · exact ⟨fun h => absurd h hs, fun h => by cases h⟩
    · -- all is consumed: the slot waits for the next enqueue
      have hseq := (hinv.seq_eq_iff_free hsize hroles hcons hnext (by omega)).2 (by omega)
      rw [← heq] at hseq
      have hne : k ≠ (k + 1) % wrap := by
        have hwrap : 1 < wrap := by decide
        by_cases hk' : k + 1 < wrap
        · rw [Nat.mod_eq_of_lt hk']
          omega
        · have : k + 1 = wrap := by omega
          rw [this, Nat.mod_self]
          omega
      rw [hseq, List.getElem?_eq_none heq.ge]
      refine ⟨fun h => absurd h hne, fun h => ?_⟩
      split_ifs at h <;> cases h

/-- **The ring buffer of one consumer is a queue of tickets**, whatever the
    interleaving of its accesses: an element is in the queue from the claim of
    its position on, and leaves it when its dequeue returns. -/
theorem ring_buffer_tickets {buffer : ℕ → α} {rb : RingBuffer α}
    (hinit : ringBufferInit size buffer = some rb) (hw : size < 2 ^ 64)
    (h : Exec (ConsumerStep c) (Sys.init rb : Sys Θ α) tr S) (he : (enqueued tr).length < 2 ^ 64)
    (hd : (dequeued tr).length < 2 ^ 64) :
    ∃ tr' r, Exec (TicketQueue.Step size) .empty tr' r ∧
      TicketQueue.claimed tr' = (enqueued tr).map Prod.snd ∧
      TicketQueue.taken tr' = (delivered tr).map Prod.snd ∧
      (enqueued tr).map Prod.snd = (delivered tr).map Prod.snd ++ r.values ∧ Sees size c S r := by
  unfold ringBufferInit at hinit
  split_ifs at hinit with hsize
  obtain rfl := Option.some.inj hinit
  obtain ⟨G, d, htr⟩ := traced_of_exec (not_lt.1 hsize) hw.le h he hd
  obtain ⟨tr', hrun, hcl, htk⟩ := htr.run
  refine ⟨tr', _, hrun, hcl, htk, ?_, htr.sees (not_lt.1 hsize) he⟩
  rw [← hcl, ← htk]
  exact (TicketQueue.claimed_eq hrun).1

end

/-- A run of the producer `true` and the consumer `false` -/
theorem ConsumerStep.of_roles {S S' : Sys Bool ℕ} {a : Label ℕ} (h : Step S a S')
    (hc : (S'.pc false).TriesDequeue) (hp : (S'.pc true).Enqueues) : ConsumerStep false S a S' := by
  refine ⟨h, hc, fun θ hθ => ?_⟩
  cases θ with
  | false => exact absurd rfl hθ
  | true => exact hp

/-- The consumer finds the queue empty at first, then takes 7 and 8 while the producer goes on
    to 9, which is not published at the end. -/
theorem hand_over : ∃ tr S,
    Exec (ConsumerStep false) (Sys.init ⟨0, 0, fun i => i, 3, fun _ => 0⟩ : Sys Bool ℕ) tr S ∧
      enqueued tr = [(0, 7), (1, 8), (2, 9)] ∧ dequeued tr = [0, 1] ∧ delivered tr = [(0, 7), (1, 8)] := by
  have h : Exec (ConsumerStep false)
    (Sys.init ⟨0, 0, fun i => i, 3, fun _ => 0⟩ : Sys Bool ℕ) [] _ := .nil
  have h := h.snoc (.of_roles ⟨false, .tryDequeue rfl⟩ trivial trivial)
  have h := h.snoc (.of_roles ⟨false, .deqEmpty rfl (by decide)⟩ trivial trivial)
  have h := h.snoc (.of_roles ⟨true, .enqueue 7 rfl⟩ trivial trivial)
  have h := h.snoc (.of_roles ⟨true, .enqReady rfl rfl⟩ trivial trivial)
  have h := h.snoc (.of_roles ⟨true, .enqCopyStart 0 rfl⟩ trivial trivial)
  have h := h.snoc (.of_roles ⟨true, .enqCopyEnd rfl⟩ trivial trivial)
  have h := h.snoc (.of_roles ⟨true, .publish rfl⟩ trivial trivial)
  have h := h.snoc (.of_roles ⟨true, .tryEnqueue 8 rfl⟩ trivial trivial)
  have h := h.snoc (.of_roles ⟨false, .tryDequeue rfl⟩ trivial trivial)
  have h := h.snoc (.of_roles ⟨false, .deqFull rfl rfl⟩ trivial trivial)
  have h := h.snoc (.of_roles ⟨true, .enqSpace rfl rfl⟩ trivial trivial)
  have h := h.snoc (.of_roles ⟨true, .enqCas rfl rfl⟩ trivial trivial)
  have h := h.snoc (.of_roles ⟨false, .deqCas rfl rfl⟩ trivial trivial)
  have h := h.snoc (.of_roles ⟨true, .enqCopyStart 0 rfl⟩ trivial trivial)
  have h := h.snoc (.of_roles ⟨false, .deqCopyStart rfl⟩ trivial trivial)
  have h := h.snoc (.of_roles ⟨false, .deqCopyEnd rfl⟩ trivial trivial)
  have h := h.snoc (.of_roles ⟨true, .enqCopyEnd rfl⟩ trivial trivial)
  have h := h.snoc (.of_roles ⟨false, .release rfl⟩ trivial trivial)
  have h := h.snoc (.of_roles ⟨true, .publish rfl⟩ trivial trivial)
  have h := h.snoc (.of_roles ⟨true, .enqueue 9 rfl⟩ trivial trivial)
  have h := h.snoc (.of_roles ⟨true, .enqReady rfl rfl⟩ trivial trivial)
  have h := h.snoc (.of_roles ⟨false, .tryDequeue rfl⟩ trivial trivial)
  have h := h.snoc (.of_roles ⟨false, .deqFull rfl rfl⟩ trivial trivial)
  have h := h.snoc (.of_roles ⟨false, .deqCas rfl rfl⟩ trivial trivial)
  have h := h.snoc (.of_roles ⟨false, .deqCopyStart rfl⟩ trivial trivial)
  have h := h.snoc (.of_roles ⟨false, .deqCopyEnd rfl⟩ trivial trivial)
  have h := h.snoc (.of_roles ⟨false, .release rfl⟩ trivial trivial)
  exact ⟨_, _, h, rfl, rfl, rfl⟩

theorem ring_buffer_tickets_two :
    ∃ (tr' : List (Trans (TicketQueue ℕ) (TicketQueue.Act ℕ))) (r : TicketQueue ℕ),
      Exec (TicketQueue.Step 3) .empty tr' r ∧ TicketQueue.claimed tr' = [7, 8, 9] ∧
        TicketQueue.taken tr' = [7, 8] ∧ r.values = [9] := by
  obtain ⟨tr, S, h, he, hd, hdel⟩ := hand_over
  obtain ⟨tr', r, hrun, hcl, htk, hval, -⟩ :=
    ring_buffer_tickets (rfl : ringBufferInit 3 _ = _) (by decide) h (by rw [he]; decide) (by rw [hd]; decide)
  rw [he, hdel] at hval
  rw [he] at hcl
  rw [hdel] at htk
  exact ⟨tr', r, hrun, hcl, htk, (List.append_cancel_left (show [7, 8] ++ [9] = [7, 8] ++ r.values from hval)).symm⟩

end EeftSched.Mpmc

/-
  The acks of future jobs (`update_delegations`, `process_migration_requests`).

  An ack that is not read yet stands for a job of the donor's own pool, which is
  pending on another core: since this tick, or since a tick after which the
  donor has sent no request any more.

  * `Sys.AcksOf`: the acks of a donor, and the jobs the newer ones stand for;
  * `Sys.Handover`: the invariant, kept by every step;
  * `Reachable.acks_le`: a donor has no more acks outstanding than its pool has
    jobs.
-/
import EeftSched.Handover

namespace EeftSched

open Lts SortedQueue

variable {n : ℕ} {cfg : Config} {S S' : Sys n} {j : JobId n} {c d o : Fin n}

/-! ## The invariant -/

/-- A request for future job `j` is on its way, or accepted and not acked yet. -/
def Sys.Unacked (S : Sys n) (j : JobId n) : Prop :=
  (∃ o, S.Requested j o) ∨ ∃ c r, (S.core c).pc = .procAckClaim r ∧ r.job = j

/-- An ack of donor `d` may stand for pending job `j`. -/
structure Sys.Acked (S : Sys n) (d : Fin n) (j : JobId n) : Prop where
  own : j.1 = d
  later : S.systemTime < (S.job j).arrivalTime
  pending : ∃ c, j ∈ (S.core c).pendingJobsQueue
  acked : ¬ S.Unacked j

/-- The first `old` acks of donor `d` are from earlier ticks, the others stand
    for the jobs `js`. -/
structure Sys.AcksOf (S : Sys n) (d : Fin n) (old : ℕ) (js : List (JobId n)) : Prop where
  length : (S.delegationAckQueue d).slots.length = old + js.length
  published : ∀ x ∈ (S.delegationAckQueue d).slots.take old, x.2 = true
  fresh : (S.core d).pc.sends = true → old = 0
  nodup : js.Nodup
  jobs : ∀ j ∈ js, S.Acked d j

open Classical in
/-- The jobs of the pool of `d` that are on their way -/
noncomputable def Sys.unacked (S : Sys n) (d : Fin n) : Finset (JobId n) :=
  {j | j.1 = d ∧ S.Unacked j}

/-- **The invariant of the handover.** -/
structure Sys.Handover (S : Sys n) : Prop where
  origin : ∀ j o, S.Requested j o → j.1 = o
  hand : ∀ c j ms, (S.core c).pc = .futureHand j ms → j.1 = c
  owes : ∀ c r, (S.core c).pc = .procAckClaim r →
    r.job.1 = r.fromCore ∧ S.systemTime < (S.job r.job).arrivalTime
  unpublished : ∀ d i a, (S.delegationAckQueue d).slots[i]? = some (a, false) →
    ∃ c r, (S.core c).pc = .procAckPublish r ((S.delegationAckQueue d).head + i) ∧ r.fromCore = d
  acks : ∀ d, ∃ old js, S.AcksOf d old js
  total : ∀ d, (S.delegationAckQueue d).slots.length + (S.unacked d).card ≤ jobsPerCore

theorem Sys.mem_unacked : j ∈ S.unacked d ↔ j.1 = d ∧ S.Unacked j := by
  simp only [Sys.unacked, Finset.mem_filter, Finset.mem_univ, true_and]

/-- A pool has so many jobs. -/
theorem card_le_jobsPerCore {s : Finset (JobId n)} (h : ∀ j ∈ s, j.1 = d) : s.card ≤ jobsPerCore := by
  have hsub : s ⊆ {d} ×ˢ Finset.univ := fun j hj =>
    Finset.mem_product.2 ⟨Finset.mem_singleton.2 (h j hj), Finset.mem_univ _⟩
  refine (Finset.card_le_card hsub).trans_eq ?_
  rw [Finset.card_product, Finset.card_singleton, Finset.card_univ, Fintype.card_fin, one_mul]

/-- Another core leaves the pending jobs alone. -/
theorem Elsewhere.pending (h : Elsewhere S S' c d) (hn : (S.core d).held.Nodup) :
    (S'.core d).pendingJobsQueue = (S.core d).pendingJobsQueue := by
  rcases h.core with he | ⟨rq, -, -, ⟨b, hb⟩ | hout, he⟩
  · rw [he]
  · rw [he]
    exact List.erase_of_not_mem (Core.notMem_of_queue (Core.placed_nodup hn) hb).2
  · rw [he, Core.listDel_of_notMem hout]

/-- A job in the hands of a core is not pending. -/
theorem Inv.notMem_pending (hi : Inv S) (h : (S.core c).pc.hand = some j) :
    j ∉ (S.core d).pendingJobsQueue := by
  intro hm
  obtain rfl := hi.core_unique (Core.mem_held.2 (.inr h)) (Sys.mem_held_of_pending hm)
  exact Core.notMem_placed (hi.core_nodup d) h (Core.mem_placed.2 (.inr (.inr (.inr (.inl hm)))))

/-- What core `c` does, as the handover sees it. -/
structure Sys.Moves (c : Fin n) (S S' : Sys n) : Prop where
  inv : Inv S
  step : HandoverStep c S S'
  elsewhere : ∀ d ≠ c, Elsewhere S S' c d
  release : ∀ j ∉ S.free, (S'.job j).release = (S.job j).release
  systemTime : S'.systemTime = S.systemTime

namespace Sys.Moves

theorem pc (m : Sys.Moves c S S') (hd : d ≠ c) : (S'.core d).pc = (S.core d).pc := (m.elsewhere d hd).pc

theorem arrival (m : Sys.Moves c S S') (hj : j ∈ S.held ∨ j ∈ S.reqs) :
    (S'.job j).arrivalTime = (S.job j).arrivalTime :=
  (Prod.mk.inj (m.release j fun hf => hj.elim (m.inv.of_free hf).1 (m.inv.of_free hf).2)).2

/-- What the core has accepted just now -/
theorem accepts (m : Sys.Moves c S S') {r : MigrationRequest n}
    (hp : (S'.core c).pc = .procAckClaim r) :
    S.Requested r.job r.fromCore ∧ S.systemTime < (S.job r.job).arrivalTime := by
  cases m.step.acks with
  | none _ _ h' _ =>
    rw [hp] at h'
    cases h'
  | accept _ _ h' hr ht _ =>
    obtain rfl := Pc.procAckClaim.inj (hp.symm.trans h')
    exact ⟨hr, ht⟩
  | claim _ _ h' | publish _ _ h' | read _ _ _ h' | done _ _ _ h' =>
    rw [hp] at h'
    cases h'

/-- A request on its way is from before, or the core makes it. -/
theorem unacked (m : Sys.Moves c S S') (h : S'.Unacked j) :
    S.Unacked j ∨ ∃ ms, (S.core c).pc = .futureHand j ms := by
  rcases h with ⟨o, h⟩ | ⟨e, r, hp, rfl⟩
  · rcases m.step.requested j o h with h | ⟨-, hms⟩
    · exact .inl (.inl ⟨o, h⟩)
    · exact .inr hms
  · by_cases he : e = c
    · subst he
      exact .inl (.inl ⟨_, (m.accepts hp).1⟩)
    · rw [m.pc he] at hp
      exact .inl (.inr ⟨e, r, hp, rfl⟩)

theorem acked (m : Sys.Moves c S S') (h : S.Acked d j) : S'.Acked d j := by
  obtain ⟨e, he⟩ := h.pending
  have hheld : j ∈ S.held := Sys.mem_held.2 (.inl ⟨e, Sys.mem_held_of_pending he⟩)
  refine ⟨h.own, ?_, ⟨e, ?_⟩, fun hu => ?_⟩
  · rw [m.systemTime, m.arrival (.inl hheld)]
    exact h.later
  · by_cases hc : e = c
    · subst hc
      exact m.step.pending j he h.later
    · rw [(m.elsewhere e hc).pending (m.inv.core_nodup e)]
      exact he
  · rcases m.unacked hu with hu | ⟨ms, hp⟩
    · exact h.acked hu
    · exact m.inv.notMem_pending (by rw [hp]; rfl) he

/-- The core sends its ack, and nothing else is on its way for the job. -/
theorem not_unacked (m : Sys.Moves c S S') {r : MigrationRequest n} {t : ℕ}
    (hp : (S.core c).pc = .procAckClaim r) (hp' : (S'.core c).pc = .procAckPublish r t) :
    ¬ S'.Unacked r.job := by
  have hpend : r.job ∈ (S.core c).pendingJobsQueue := m.inv.acks c r.job (by rw [hp]; rfl)
  have hheld := Sys.mem_held_of_pending hpend
  rintro (⟨o, h⟩ | ⟨e, q, he, hq⟩)
  · rcases m.step.requested _ _ h with h | ⟨-, ms, hms⟩
    · exact m.inv.notMem_held h (Sys.mem_held.2 (.inl ⟨c, hheld⟩))
    · rw [hp] at hms
      cases hms
  · by_cases hc : e = c
    · rw [hc, hp'] at he
      cases he
    · rw [m.pc hc] at he
      have hpend' := m.inv.acks e r.job (by rw [he]; exact congrArg some hq)
      exact hc (m.inv.core_unique hheld (Sys.mem_held_of_pending hpend'))

end Sys.Moves

namespace Sys.AcksOf

variable {old : ℕ} {js : List (JobId n)}

/-- The acks stay, and the jobs too. -/
theorem keep (h : S.AcksOf d old js) (hj : ∀ j ∈ js, S'.Acked d j)
    (hq : S'.delegationAckQueue d = S.delegationAckQueue d)
    (hr : (S'.core d).pc.sends = true → old = 0) : S'.AcksOf d old js := by
  refine ⟨?_, ?_, hr, h.nodup, hj⟩
  · rw [hq]
    exact h.length
  · rw [hq]
    exact h.published

theorem claim {a : DelegationAck} (h : S.AcksOf d old js) (hj : ∀ j ∈ js, S'.Acked d j)
    (hq : S'.delegationAckQueue d = (S.delegationAckQueue d).claim a) (hnew : S'.Acked d j)
    (hout : j ∉ js) (hr : (S'.core d).pc.sends = true → old = 0) : S'.AcksOf d old (j :: js) := by
  have hle : old ≤ (S.delegationAckQueue d).slots.length := h.length ▸ Nat.le_add_right ..
  refine ⟨?_, ?_, hr, List.nodup_cons.2 ⟨hout, h.nodup⟩, ?_⟩
  · rw [hq, TicketQueue.claim, List.length_append, h.length]
    rfl
  · rw [hq, TicketQueue.claim, List.take_append_of_le_length hle]
    exact h.published
  · rintro i (_ | ⟨_, hi⟩)
    · exact hnew
    · exact hj i hi

theorem publish {t : ℕ} (h : S.AcksOf d old js) (hj : ∀ j ∈ js, S'.Acked d j)
    (hq : S'.delegationAckQueue d = (S.delegationAckQueue d).publish t)
    (hr : (S'.core d).pc.sends = true → old = 0) : S'.AcksOf d old js := by
  refine ⟨?_, ?_, hr, h.nodup, hj⟩
  · rw [hq, TicketQueue.length_publish]
    exact h.length
  · rw [hq]
    exact TicketQueue.published_publish h.published

/-- The first ack is read: an old one, as long as there is one. -/
theorem read {a : DelegationAck} (h : S.AcksOf d old js) (hj : ∀ j ∈ js, S'.Acked d j)
    (hd : (S.delegationAckQueue d).tryDequeue = some (a, S'.delegationAckQueue d))
    (hr : (S'.core d).pc.sends = false) : ∃ old js, S'.AcksOf d old js := by
  have hslots := TicketQueue.tryDequeue_slots hd
  have hlen := h.length
  have hpub := h.published
  rw [hslots, List.length_cons] at hlen
  rw [hslots] at hpub
  have hsend : ∀ k, (S'.core d).pc.sends = true → k = 0 := by
    intro k hk
    rw [hr] at hk
    cases hk
  cases old with
  | succ old =>
    rw [Nat.add_right_comm] at hlen
    refine ⟨old, js, Nat.succ.inj hlen, fun x hx => hpub x ?_, hsend _, h.nodup, hj⟩
    exact List.mem_cons_of_mem _ hx
  | zero =>
    cases js with
    | nil => cases hlen
    | cons j js =>
      rw [Nat.zero_add, List.length_cons] at hlen
      refine ⟨0, js, ?_, nofun, fun _ => rfl, (List.nodup_cons.1 h.nodup).2,
        fun i hi => hj i (List.mem_cons_of_mem _ hi)⟩
      rw [Nat.zero_add]
      exact Nat.succ.inj hlen

/-- All acks are published: they are old ones in the next tick. -/
theorem age (h : ∀ x ∈ (S.delegationAckQueue d).slots, x.2 = true)
    (hr : (S.core d).pc.sends = false) : ∃ old js, S.AcksOf d old js := by
  refine ⟨_, [], rfl, fun x hx => h x (List.mem_of_mem_take hx), fun hk => ?_, List.nodup_nil, nofun⟩
  rw [hr] at hk
  cases hk

end Sys.AcksOf

namespace Sys.Handover

theorem init : (Sys.init n).Handover where
  origin j o h := by
    obtain ⟨ht, -⟩ := h
    cases ht with
    | queued h => cases h
  hand := nofun
  owes := nofun
  unpublished := nofun
  acks d := ⟨0, [], rfl, nofun, nofun, List.nodup_nil, nofun⟩
  total d := by
    show 0 + _ ≤ _
    rw [Nat.zero_add]
    exact card_le_jobsPerCore fun j hj => (Sys.mem_unacked.1 hj).1

theorem unpublished_step (h : S.Handover) (m : Sys.Moves c S S') {i : ℕ} {a : DelegationAck}
    (hs : (S'.delegationAckQueue d).slots[i]? = some (a, false)) :
    ∃ e r, (S'.core e).pc = .procAckPublish r ((S'.delegationAckQueue d).head + i) ∧ r.fromCore = d := by
  -- a slot from before belongs to another core
  have hother : ∀ k, (S.delegationAckQueue d).slots[k]? = some (a, false) →
      (∀ r, (S.core c).pc = .procAckPublish r ((S.delegationAckQueue d).head + k) → r.fromCore ≠ d) →
      ∃ e r, (S'.core e).pc = .procAckPublish r ((S.delegationAckQueue d).head + k) ∧ r.fromCore = d := by
    intro k hk hc
    obtain ⟨e, r, he, hr⟩ := h.unpublished d k a hk
    refine ⟨e, r, ?_, hr⟩
    rw [m.pc, he]
    rintro rfl
    exact hc r he hr
  cases m.step.acks with
  | none hq hp _ _ =>
    rw [hq] at hs ⊢
    refine hother i hs fun r hr => ?_
    rw [hr] at hp
    cases hp
  | accept hq hp _ _ _ _ | done hq _ hp _ =>
    rw [hq] at hs ⊢
    exact hother i hs fun r hr => nomatch hp.symm.trans hr
  | @claim r b hq hp hp' =>
    have hc : ∀ k q, (S.core c).pc = .procAckPublish q k → q.fromCore ≠ d :=
      fun k q hr => nomatch hp.symm.trans hr
    rw [hq] at hs ⊢
    by_cases hd : d = r.fromCore
    · subst hd
      rw [Function.update_self] at hs ⊢
      rcases TicketQueue.getElem?_claim hs with hs | rfl
      · exact hother i hs (hc _)
      · exact ⟨c, r, hp', rfl⟩
    · rw [Function.update_of_ne hd] at hs ⊢
      exact hother i hs (hc _)
  | @publish r t hq hp hp' =>
    rw [hq] at hs ⊢
    by_cases hd : d = r.fromCore
    · subst hd
      rw [Function.update_self] at hs ⊢
      obtain ⟨hs, hne⟩ := TicketQueue.getElem?_publish hs
      refine hother i hs fun q hr => ?_
      obtain ⟨rfl, rfl⟩ := Pc.procAckPublish.inj (hp.symm.trans hr)
      exact absurd (Nat.add_sub_cancel_left ..) hne
    · rw [Function.update_of_ne hd] at hs ⊢
      refine hother i hs fun q hr => ?_
      obtain ⟨rfl, rfl⟩ := Pc.procAckPublish.inj (hp.symm.trans hr)
      exact Ne.symm hd
  | @read b q hq hdeq hp hp' =>
    have hc : ∀ k q, (S.core c).pc = .procAckPublish q k → q.fromCore ≠ d :=
      fun k q hr => nomatch hp.symm.trans hr
    rw [hq] at hs ⊢
    by_cases hd : d = c
    · subst hd
      rw [Function.update_self] at hs ⊢
      have hslot : (S.delegationAckQueue d).slots[i + 1]? = some (a, false) := by
        rw [TicketQueue.tryDequeue_slots hdeq]
        exact hs
      rw [(TicketQueue.tryDequeue_eq_some hdeq).2, Nat.add_right_comm]
      exact hother (i + 1) hslot (hc _)
    · rw [Function.update_of_ne hd] at hs ⊢
      exact hother i hs (hc _)

theorem acks_step (h : S.Handover) (m : Sys.Moves c S S') (d : Fin n) :
    ∃ old js, S'.AcksOf d old js := by
  obtain ⟨old, js, ha⟩ := h.acks d
  have hj : ∀ j ∈ js, S'.Acked d j := fun j hj => m.acked (ha.jobs j hj)
  -- no other core starts to send
  have hsend : (d = c → (S'.core d).pc.sends = true → (S.core d).pc.sends = true) →
      (S'.core d).pc.sends = true → old = 0 := by
    intro hs hd
    by_cases hdc : d = c
    · exact ha.fresh (hs hdc hd)
    · rw [m.pc hdc] at hd
      exact ha.fresh hd
  cases m.step.acks with
  | none hq _ _ hs =>
    exact ⟨old, js, ha.keep hj (by rw [hq]) (hsend fun hd => hd ▸ hs)⟩
  | accept hq _ hp' _ _ _ =>
    refine ⟨old, js, ha.keep hj (by rw [hq]) (hsend fun hd => ?_)⟩
    rw [hd, hp']
    nofun
  | @claim r a hq hp hp' =>
    have hs : (S'.core d).pc.sends = true → old = 0 := hsend fun hd => by
      rw [hd, hp']
      nofun
    by_cases hd : d = r.fromCore
    · subst hd
      have hpend : r.job ∈ (S.core c).pendingJobsQueue := m.inv.acks c r.job (by rw [hp]; rfl)
      have hheld : r.job ∈ S.held := Sys.mem_held.2 (.inl ⟨c, Sys.mem_held_of_pending hpend⟩)
      obtain ⟨hown, hlater⟩ := h.owes c r hp
      have hnew : S'.Acked r.fromCore r.job := by
        refine ⟨hown, ?_, ⟨c, m.step.pending _ hpend hlater⟩, m.not_unacked hp hp'⟩
        rw [m.systemTime, m.arrival (.inl hheld)]
        exact hlater
      have hout : r.job ∉ js := fun hm => (ha.jobs _ hm).acked (.inr ⟨c, r, hp, rfl⟩)
      exact ⟨old, r.job :: js, ha.claim hj (by rw [hq, Function.update_self]) hnew hout hs⟩
    · exact ⟨old, js, ha.keep hj (by rw [hq, Function.update_of_ne hd]) hs⟩
  | @publish r t hq hp hp' =>
    have hs : (S'.core d).pc.sends = true → old = 0 := hsend fun hd => by
      rw [hd, hp']
      nofun
    by_cases hd : d = r.fromCore
    · subst hd
      exact ⟨old, js, ha.publish hj (by rw [hq, Function.update_self]) hs⟩
    · exact ⟨old, js, ha.keep hj (by rw [hq, Function.update_of_ne hd]) hs⟩
  | @read a q hq hdeq hp hp' =>
    by_cases hd : d = c
    · subst hd
      refine ha.read (a := a) hj ?_ (by rw [hp']; rfl)
      rw [hq, Function.update_self]
      exact hdeq
    · exact ⟨old, js, ha.keep hj (by rw [hq, Function.update_of_ne hd]) (hsend fun he => absurd he hd)⟩
  | done hq hdeq hp hp' =>
    by_cases hd : d = c
    · subst hd
      refine ⟨old, js, ha.keep hj (by rw [hq]) fun _ => ?_⟩
      exact TicketQueue.eq_zero_of_tryDequeue hdeq ha.published (ha.length ▸ Nat.le_add_right ..)
    · exact ⟨old, js, ha.keep hj (by rw [hq]) (hsend fun he => absurd he hd)⟩

/-- Before the core sends a request for the job in its hands, there is room for
    one more. -/
theorem lt_of_hand (h : S.Handover) (hi : Inv S) {ms : List TaskAlloc}
    (hp : (S.core c).pc = .futureHand j ms) :
    (S.delegationAckQueue c).slots.length + (S.unacked c).card < jobsPerCore := by
  classical
  obtain ⟨old, js, ha⟩ := h.acks c
  obtain rfl := ha.fresh (by rw [hp]; rfl)
  have hlen : (S.delegationAckQueue c).slots.length = js.toFinset.card := by
    rw [ha.length, Nat.zero_add, List.toFinset_card_of_nodup ha.nodup]
  have hdisj : Disjoint js.toFinset (S.unacked c) := by
    refine Finset.disjoint_left.2 fun i hm hu => ?_
    exact (ha.jobs i (List.mem_toFinset.1 hm)).acked (Sys.mem_unacked.1 hu).2
  have hj : j ∉ js.toFinset ∪ S.unacked c := by
    rw [Finset.mem_union, not_or]
    constructor
    · intro hm
      obtain ⟨e, he⟩ := (ha.jobs j (List.mem_toFinset.1 hm)).pending
      exact hi.notMem_pending (by rw [hp]; rfl) he
    · intro hu
      rcases (Sys.mem_unacked.1 hu).2 with ⟨o, hr⟩ | ⟨e, r, he, rfl⟩
      · exact hi.target c j (by rw [hp]; rfl) hr.1.mem_reqs
      · exact hi.notMem_pending (by rw [hp]; rfl) (hi.acks e _ (by rw [he]; rfl))
  have hcard : (insert j (js.toFinset ∪ S.unacked c)).card ≤ jobsPerCore := by
    refine card_le_jobsPerCore (d := c) fun i hm => ?_
    rcases Finset.mem_insert.1 hm with rfl | hm
    · exact h.hand c i ms hp
    · rcases Finset.mem_union.1 hm with hm | hm
      · exact (ha.jobs i (List.mem_toFinset.1 hm)).own
      · exact (Sys.mem_unacked.1 hm).1
  rw [Finset.card_insert_of_notMem hj, Finset.card_union_of_disjoint hdisj, ← hlen] at hcard
  exact hcard

theorem total_step (h : S.Handover) (m : Sys.Moves c S S') (d : Fin n) :
    (S'.delegationAckQueue d).slots.length + (S'.unacked d).card ≤ jobsPerCore := by
  classical
  have htotal := h.total d
  -- the jobs on their way, unless the core makes a request
  have hsub : (∀ j ms, (S.core c).pc ≠ .futureHand j ms) → S'.unacked d ⊆ S.unacked d := by
    intro hp i hm
    obtain ⟨hown, hu⟩ := Sys.mem_unacked.1 hm
    rcases m.unacked hu with hu | ⟨ms, hms⟩
    · exact Sys.mem_unacked.2 ⟨hown, hu⟩
    · exact absurd hms (hp i ms)
  have hcard : (S.core c).pc.target = none → (S'.unacked d).card ≤ (S.unacked d).card := by
    intro ht
    refine Finset.card_le_card (hsub fun j ms hj => ?_)
    rw [hj] at ht
    cases ht
  cases m.step.acks with
  | none hq hp hp' hs =>
    rw [hq]
    by_cases hhand : ∃ j ms, (S.core c).pc = .futureHand j ms
    · obtain ⟨j, ms, hj⟩ := hhand
      have hins : S'.unacked d ⊆ insert j (S.unacked d) := by
        intro i hm
        obtain ⟨hown, hu⟩ := Sys.mem_unacked.1 hm
        rcases m.unacked hu with hu | ⟨ms', hms⟩
        · exact Finset.mem_insert_of_mem (Sys.mem_unacked.2 ⟨hown, hu⟩)
        · obtain ⟨rfl, -⟩ := Pc.futureHand.inj (hj.symm.trans hms)
          exact Finset.mem_insert_self j _
      by_cases hd : d = c
      · subst hd
        have hlt := h.lt_of_hand m.inv hj
        have hcard := (Finset.card_le_card hins).trans (Finset.card_insert_le j _)
        omega
      · have hnot : j ∉ S'.unacked d := by
          intro hm
          exact hd ((Sys.mem_unacked.1 hm).1.symm.trans (h.hand c j ms hj))
        have hcard := Finset.card_le_card ((Finset.subset_insert_iff_of_notMem hnot).1 hins)
        omega
    · have hcard := Finset.card_le_card (hsub fun j ms hj => hhand ⟨j, ms, hj⟩)
      omega
  | accept hq hp _ _ _ _ | done hq _ hp _ =>
    have hle := hcard (by rw [hp]; rfl)
    rw [hq]
    omega
  | @claim r a hq hp hp' =>
    have hle := hcard (by rw [hp]; rfl)
    by_cases hd : d = r.fromCore
    · subst hd
      -- the job of the ack is not on its way any more
      have hmem : r.job ∈ S.unacked r.fromCore :=
        Sys.mem_unacked.2 ⟨(h.owes c r hp).1, .inr ⟨c, r, hp, rfl⟩⟩
      have hnot : r.job ∉ S'.unacked r.fromCore := fun hm =>
        m.not_unacked hp hp' (Sys.mem_unacked.1 hm).2
      have hkept : S'.unacked r.fromCore ⊆ S.unacked r.fromCore := hsub fun j ms hj => by
        rw [hp] at hj
        cases hj
      have hlt := Finset.card_lt_card ((Finset.ssubset_iff_of_subset hkept).2 ⟨r.job, hmem, hnot⟩)
      rw [hq, Function.update_self, TicketQueue.claim, List.length_append, List.length_singleton]
      omega
    · rw [hq, Function.update_of_ne hd]
      omega
  | @publish r t hq hp hp' =>
    have hle := hcard (by rw [hp]; rfl)
    have hlen : (S'.delegationAckQueue d).slots.length = (S.delegationAckQueue d).slots.length := by
      rw [hq]
      by_cases hd : d = r.fromCore
      · subst hd
        rw [Function.update_self, TicketQueue.length_publish]
      · rw [Function.update_of_ne hd]
    omega
  | @read a q hq hdeq hp hp' =>
    have hle := hcard (by rw [hp]; rfl)
    have hlen : (S'.delegationAckQueue d).slots.length ≤ (S.delegationAckQueue d).slots.length := by
      rw [hq]
      by_cases hd : d = c
      · subst hd
        rw [Function.update_self, TicketQueue.tryDequeue_slots hdeq]
        exact Nat.le_succ _
      · rw [Function.update_of_ne hd]
    omega

theorem core_step (h : S.Handover) (m : Sys.Moves c S S') : S'.Handover where
  origin j o hr := by
    rcases m.step.requested j o hr with hr | ⟨rfl, ms, hp⟩
    · exact h.origin j o hr
    · exact h.hand o j ms hp
  hand d j ms hp := by
    by_cases hd : d = c
    · subst hd
      exact m.step.hand j ms hp
    · rw [m.pc hd] at hp
      exact h.hand d j ms hp
  owes d r hp := by
    rw [m.systemTime]
    by_cases hd : d = c
    · subst hd
      obtain ⟨hr, ht⟩ := m.accepts hp
      rw [m.arrival (.inr hr.1.mem_reqs)]
      exact ⟨h.origin _ _ hr, ht⟩
    · rw [m.pc hd] at hp
      have hpend := m.inv.acks d r.job (by rw [hp]; rfl)
      rw [m.arrival (.inl (Sys.mem_held.2 (.inl ⟨d, Sys.mem_held_of_pending hpend⟩)))]
      exact h.owes d r hp
  unpublished _ _ _ hs := h.unpublished_step m hs
  acks d := h.acks_step m d
  total d := h.total_step m d

/-- A step of the timer that leaves cores, queues and the clock alone -/
theorem still (h : S.Handover) (hcore : S'.core = S.core)
    (hq : S'.migrationRequestQueue = S.migrationRequestQueue)
    (ha : S'.delegationAckQueue = S.delegationAckQueue) (ht : S'.systemTime = S.systemTime)
    (hj : ∀ i, (S'.job i).state = (S.job i).state ∧ (S'.job i).arrivalTime = (S.job i).arrivalTime) :
    S'.Handover := by
  have hreq : ∀ j o, S'.Requested j o ↔ S.Requested j o := by
    intro j o
    unfold Sys.Requested
    rw [(hj j).1]
    exact and_congr_left fun _ => ⟨fun h => h.congr hcore hq, fun h => h.congr hcore.symm hq.symm⟩
  have hun : ∀ j, S'.Unacked j ↔ S.Unacked j := by
    intro j
    unfold Sys.Unacked
    simp only [hreq, hcore]
  have hset : ∀ d, S'.unacked d = S.unacked d := by
    intro d
    ext j
    rw [Sys.mem_unacked, Sys.mem_unacked, hun]
  refine ⟨fun j o hr => h.origin j o ((hreq j o).1 hr), ?_, ?_, ?_, fun d => ?_, fun d => ?_⟩
  · rw [hcore]
    exact h.hand
  · intro c r
    rw [hcore, ht, (hj _).2]
    exact h.owes c r
  · rw [ha, hcore]
    exact h.unpublished
  · obtain ⟨old, js, hacks⟩ := h.acks d
    refine ⟨old, js, hacks.keep (fun j hm => ?_) (by rw [ha]) (by rw [hcore]; exact hacks.fresh)⟩
    obtain ⟨h1, h2, h3, h4⟩ := hacks.jobs j hm
    refine ⟨h1, ?_, ?_, fun hu => h4 ((hun j).1 hu)⟩
    · rw [ht, (hj j).2]
      exact h2
    · rw [hcore]
      exact h3
  · rw [ha, hset]
    exact h.total d

/-- All cores have arrived, so that no ack is left unpublished. -/
theorem advance (h : S.Handover) (hp : ∀ c, (S.core c).pc = .arrived)
    (hp' : ∀ c, (S'.core c).pc = .start)
    (hq : S'.migrationRequestQueue = S.migrationRequestQueue)
    (ha : S'.delegationAckQueue = S.delegationAckQueue) (hj : S'.job = S.job) : S'.Handover := by
  have hreq : ∀ j o, S'.Requested j o → S.Requested j o := by
    rintro j o ⟨ht, hi⟩
    exact ⟨ht.of_idle (fun d => by rw [hp' d]; rfl) hq, hj ▸ hi⟩
  have hun : ∀ j, S'.Unacked j → S.Unacked j := by
    rintro j (⟨o, hr⟩ | ⟨c, r, hc, -⟩)
    · exact .inl ⟨o, hreq j o hr⟩
    · rw [hp' c] at hc
      cases hc
  have hpub : ∀ d, ∀ x ∈ (S.delegationAckQueue d).slots, x.2 = true := by
    rintro d ⟨a, b⟩ hx
    cases b with
    | true => rfl
    | false =>
      obtain ⟨i, hi⟩ := List.mem_iff_getElem?.1 hx
      obtain ⟨c, r, hc, -⟩ := h.unpublished d i a hi
      rw [hp c] at hc
      cases hc
  refine ⟨fun j o hr => h.origin j o (hreq j o hr), fun c j ms hc => ?_, fun c r hc => ?_,
    fun d i a hs => ?_, fun d => ?_, fun d => ?_⟩
  · rw [hp' c] at hc
    cases hc
  · rw [hp' c] at hc
    cases hc
  · rw [ha] at hs
    cases hpub d _ (List.mem_iff_getElem?.2 ⟨i, hs⟩)
  · refine Sys.AcksOf.age ?_ (by rw [hp' d]; rfl)
    rw [ha]
    exact hpub d
  · have hcard := Finset.card_le_card (t := S.unacked d) (s := S'.unacked d) fun j hm => by
      rw [Sys.mem_unacked] at hm ⊢
      exact ⟨hm.1, hun j hm.2⟩
    have htotal := h.total d
    rw [ha]
    omega

theorem timer_step (h : S.Handover) (hi : Inv S) (hs : TimerStep cfg S S') : S'.Handover := by
  cases hs with
  | sweep | keep => exact h.still rfl rfl rfl rfl fun _ => ⟨rfl, rfl⟩
  | @expire k j hp hj ht =>
    have hset := fun i => Jobs.set_field (J := S.job) (r := (S.job j).unlink) (j := j)
      (fun r => (r.state, r.arrivalTime)) rfl i
    exact h.still rfl rfl rfl rfl fun i => Prod.mk.inj (hset i)
  | @put k j hp =>
    obtain ⟨f, g, he⟩ := Sys.putJobRef_eq { S with timer := .sweep k } none j
    have hset := fun i => Jobs.set_field (J := S.job)
      (r := { S.job j with refcount := (S.job j).refcount - 1 }) (j := j)
      (fun r => (r.state, r.arrivalTime)) rfl i
    rw [he]
    exact h.still rfl rfl rfl rfl fun i => Prod.mk.inj (hset i)
  | advance hp hj hf hl =>
    exact h.advance (hi.timer (by rw [hp]; nofun)) (fun _ => rfl) rfl rfl rfl

theorem step {a : Label n} (h : S.Handover) (hi : Inv S) (hd : S.Delegations) (hpool : S.Pools)
    (hs : Step cfg S a S') : S'.Handover := by
  cases hs with
  | timer hs => exact h.timer_step hi hs
  | core hl hs =>
    exact h.core_step ⟨hi, hs.handover hi hpool, fun d hne => hs.elsewhere hi hne,
      (hs.records hi hd).release, hs.systemTime_eq⟩

end Sys.Handover

theorem Reachable.pools (h : Reachable cfg S) : S.Pools :=
  Lts.Reachable.invariant h .init fun _ _ _ hp hs => hp.step hs

theorem Reachable.handover (h : Reachable cfg S) : S.Handover := by
  obtain ⟨tr, h⟩ := h
  induction h with
  | nil => exact .init
  | snoc hr hs ih =>
    exact ih.step (Reachable.inv ⟨_, hr⟩) (Reachable.delegations ⟨_, hr⟩) (Reachable.pools ⟨_, hr⟩) hs

/-- **A donor has no more acks outstanding than its pool has jobs.** -/
theorem Reachable.acks_le (h : Reachable cfg S) (d : Fin n) :
    (S.delegationAckQueue d).slots.length ≤ jobsPerCore :=
  (Nat.le_add_right ..).trans (h.handover.total d)

end EeftSched

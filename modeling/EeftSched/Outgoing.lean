/-
  What one processor receives and sends in a round
  (`ipc_receive_completion_messages` and `ipc_send_completion_messages` in
  `ipc.c`, `handle_job_completion` in `sched_core.c`).

  * `Sys.past`: how often the timer has received, sent, passed the barrier of
    the processors;
  * `Sys.backlog`: the messages of the current receive loop;
  * `Outgoing`: each message in the outgoing queue is that of a core that has
    reported since the timer has last sent;
  * `Outgoing.drain_eq`: a packet takes them all.
-/
import EeftSched.Lockstep

namespace EeftSched.Lockstep

variable {M : Type} {n size totalTicks k : ℕ} {S S' : Sys M n} {a : Label M n}

/-! ## The rounds of a timer -/

/-- How far the timer is in its round: it has received (1), it has sent (2), it
    has passed the barrier of the processors (3). -/
def Pc.progress : Pc M → ℕ
  | .test | .exited => 3
  | .arrive .timeSync | .wait .timeSync _ | .procBarrier => 2
  | .sweep | .fatalTest | .advance | .lastTest | .send => 1
  | _ => 0

/-- The point of its round that the timer gets to with a step -/
def Label.mark : Label M n → ℕ
  | .recvEnd => 1
  | .send _ => 2
  | .procPass => 3
  | _ => 0

/-- One more than the number of times that the timer has got to point `k` -/
def Sys.past (S : Sys M n) (k : ℕ) : ℕ := S.rounds none + if k ≤ (S.pc none).progress then 1 else 0

theorem Sys.past_congr (hr : S'.rounds none = S.rounds none)
    (hp : (S'.pc none).progress = (S.pc none).progress) (k : ℕ) : S'.past k = S.past k := by
  unfold past
  rw [hr, hp]

/-- A step of a core leaves the timer where it is. -/
theorem Sys.core_none {c : Fin n} {q : Pc M} (hp : S'.pc = Function.update S.pc (some c) q) :
    S'.pc none = S.pc none := by
  rw [hp]
  exact Function.update_of_ne (Option.some_ne_none c).symm ..

theorem Sys.timer_none {q : Pc M} (hp : S'.pc = Function.update S.pc none q) : S'.pc none = q := by
  rw [hp]
  exact Function.update_self ..

theorem Sys.timer_core {q : Pc M} (hp : S'.pc = Function.update S.pc none q) (c : Fin n) :
    S'.pc (some c) = S.pc (some c) := by
  rw [hp]
  exact Function.update_of_ne (Option.some_ne_none c) ..

theorem Sys.enter_self (S : Sys M n) (θ : Thread n) (q : Pc M) :
    (S.enter θ q).rounds θ = S.rounds θ + 1 := by
  unfold enter
  exact Function.update_self θ (S.rounds θ + 1) S.rounds

theorem Sys.enter_ne (S : Sys M n) {θ τ : Thread n} (q : Pc M) (h : τ ≠ θ) :
    (S.enter θ q).rounds τ = S.rounds τ := by
  unfold enter
  exact Function.update_of_ne h (S.rounds θ + 1) S.rounds

/-- The timer's points change with the labels that say so. -/
theorem Step.past_eq (hs : Step size totalTicks S a S') (hn : NoTest2Exit S) (h₁ : 1 ≤ k)
    (h₃ : k ≤ 3) : S'.past k = S.past k + if a.mark = k then 1 else 0 := by
  have hcore : ∀ {c : Fin n} {q : Pc M}, S'.rounds none = S.rounds none →
      S'.pc = Function.update S.pc (some c) q → a.mark = 0 →
      S'.past k = S.past k + if a.mark = k then 1 else 0 := by
    intro c q hr hp ha
    rw [Sys.past_congr hr (congrArg _ (Sys.core_none hp)), ha, if_neg (by omega), Nat.add_zero]
  have hquiet : ∀ {q : Pc M}, S'.rounds none = S.rounds none →
      S'.pc = Function.update S.pc none q → q.progress = (S.pc none).progress → a.mark = 0 →
      S'.past k = S.past k + if a.mark = k then 1 else 0 := by
    intro q hr hp hq ha
    rw [← Sys.timer_none hp] at hq
    rw [Sys.past_congr hr hq, ha, if_neg (by omega), Nat.add_zero]
  have hmark : ∀ {q : Pc M}, S'.rounds none = S.rounds none →
      S'.pc = Function.update S.pc none q → (S.pc none).progress + 1 = q.progress →
      a.mark = q.progress → S'.past k = S.past k + if a.mark = k then 1 else 0 := by
    intro q hr hp hq ha
    unfold Sys.past
    rw [hr, ha, Sys.timer_none hp]
    split_ifs <;> omega
  cases hs with
  | @tick c h _ => exact hcore (S.enter_ne _ (Option.some_ne_none c).symm) rfl rfl
  | loadHead h | visit h _ _ | readEnd h _ | complete _ h | publish h _ | fatal h | tickEnd h =>
    exact hcore rfl rfl rfl
  | enter h _ =>
    unfold Sys.past
    rw [S.enter_self, Sys.timer_none (S := S) (q := .arrive .coreCompletion) rfl, h]
    show _ + (if k ≤ 0 then 1 else 0) = _ + (if k ≤ 3 then 1 else 0) + if 0 = k then 1 else 0
    rw [if_neg (by omega), if_pos h₃, if_neg (by omega)]
  | test2Exit h hf => exact absurd h (hn hf)
  | test2 h _ | clear h | recv _ h | enqueue h _ | sweep h | fatalTest h | advance h | lastTest h =>
    refine hquiet rfl rfl ?_ rfl
    rw [h]
    rfl
  | recvEnd h | send h | procPass h =>
    refine hmark rfl rfl ?_ rfl
    rw [h]
    rfl
  | @arrive θ g h =>
    cases θ with
    | none =>
      refine hquiet rfl rfl ?_ rfl
      rw [h]
      cases g <;> split_ifs <;> rfl
    | some c => exact hcore rfl rfl rfl
  | @wake θ g cycle h _ =>
    cases θ with
    | none =>
      refine hquiet rfl rfl ?_ rfl
      rw [h]
      cases g <;> rfl
    | some c => exact hcore rfl rfl rfl
  | @exit θ h _ =>
    cases θ with
    | none =>
      refine hquiet rfl rfl ?_ rfl
      rw [h]
      rfl
    | some c => exact hcore rfl rfl rfl

/-- A timer that waits for the other processors stays there until it passes. -/
theorem Step.procBarrier (hs : Step size totalTicks S a S') (hp : S.pc none = .procBarrier)
    (ha : a.mark ≠ 3) : S'.pc none = .procBarrier := by
  have htimer : ∀ {q : Pc M}, S.pc none = q → q ≠ .procBarrier → S'.pc none = .procBarrier := by
    intro q hq hne
    exact absurd (hq.symm.trans hp) hne
  cases hs with
  | tick h _ | loadHead h | visit h _ _ | readEnd h _ | complete _ h | publish h _ | fatal h
  | tickEnd h => exact (Sys.core_none rfl).trans hp
  | enter h _ | test2Exit h _ | test2 h _ | clear h | recv _ h | enqueue h _ | recvEnd h | sweep h
  | fatalTest h | advance h | lastTest h | send h => exact htimer h nofun
  | procPass h => exact absurd rfl ha
  | @arrive θ _ h | @wake θ _ _ h _ | @exit θ h _ =>
    cases θ with
    | none => exact htimer h nofun
    | some c => exact (Sys.core_none rfl).trans hp

/-- The messages that the timer has to put in the incoming queue, or has put
    there in the current phase. -/
def Sys.backlog (S : Sys M n) : ℕ :=
  match S.pc none with
  | .receive pending => pending.length + S.incoming.msgs.length
  | _ => 0

def Label.received : Label M n → ℕ
  | .recv packet => packet.length
  | _ => 0

/-- The backlog grows by the packets received. -/
theorem Step.backlog_le (hs : Step size totalTicks S a S') :
    S'.backlog ≤ S.backlog + a.received := by
  have hcore : ∀ {c : Fin n} {q : Pc M}, S'.incoming = S.incoming →
      S'.pc = Function.update S.pc (some c) q → S'.backlog ≤ S.backlog + a.received := by
    intro c q hi hp
    unfold Sys.backlog
    rw [Sys.core_none hp, hi]
    exact Nat.le_add_right _ _
  have hzero : ∀ {q : Pc M}, S'.pc = Function.update S.pc none q → (∀ l, q ≠ .receive l) →
      S'.backlog ≤ S.backlog + a.received := by
    intro q hp hq
    have hback : S'.backlog = 0 := by
      unfold Sys.backlog
      rw [Sys.timer_none hp]
      cases q with
      | receive l => exact absurd rfl (hq l)
      | _ => rfl
    rw [hback]
    exact Nat.zero_le _
  cases hs with
  | tick h _ | loadHead h | visit h _ _ | readEnd h _ | complete _ h | publish h _ | fatal h
  | tickEnd h => exact hcore rfl rfl
  | enter h _ | test2Exit h _ | test2 h _ | recvEnd h | sweep h | fatalTest h | advance h
  | lastTest h | send h | procPass h => exact hzero rfl nofun
  | clear h =>
    unfold Sys.backlog
    rw [Sys.timer_none rfl]
    exact Nat.zero_le _
  | recv packet h =>
    unfold Sys.backlog
    rw [Sys.timer_none rfl, h]
    show packet.length + S.incoming.msgs.length ≤ 0 + S.incoming.msgs.length + packet.length
    omega
  | @enqueue m rest h _ =>
    unfold Sys.backlog
    rw [Sys.timer_none rfl, h]
    show rest.length + (S.incoming.msgs ++ [m]).length ≤ rest.length + 1 + S.incoming.msgs.length + 0
    rw [List.length_append, List.length_singleton]
    omega
  | @arrive θ g h =>
    cases θ with
    | none =>
      refine hzero rfl ?_
      intro l
      cases g <;> split_ifs <;> nofun
    | some c => exact hcore rfl rfl
  | @wake θ g _ h _ =>
    cases θ with
    | none =>
      refine hzero rfl ?_
      intro l
      cases g <;> nofun
    | some c => exact hcore rfl rfl
  | @exit θ h _ =>
    cases θ with
    | none => exact hzero rfl nofun
    | some c => exact hcore rfl rfl

/-! ## The outgoing queue -/

/-- A core that may still report a completion in its tick -/
def Pc.unreported : Pc M → Bool
  | .tickStart | .read _ | .body => true
  | _ => false

/-- The cores that can have a message in the outgoing queue: they are past the
    place of their tick where they report, and the timer has not sent since. -/
def Sys.reported (S : Sys M n) : Finset (Fin n) :=
  Finset.univ.filter fun c => S.rounds (some c) = S.past 2 ∧ (S.pc (some c)).unreported = false

structure Outgoing (S : Sys M n) : Prop where
  claimed : S.outgoing.slots.length ≤ S.reported.card
  /-- An unpublished message is that of a core that is about to publish it. -/
  owned : ∀ i m, S.outgoing.slots[i]? = some (m, false) →
    ∃ c, S.pc (some c) = .enqueue (S.outgoing.head + i)
  tickets : ∀ c t, S.pc (some c) = .enqueue t → t < S.outgoing.tail

theorem Sys.mem_reported {c : Fin n} :
    c ∈ S.reported ↔ S.rounds (some c) = S.past 2 ∧ (S.pc (some c)).unreported = false := by
  unfold reported
  rw [Finset.mem_filter]
  exact and_iff_right (Finset.mem_univ c)

theorem Sys.reported_le (S : Sys M n) : S.reported.card ≤ n :=
  (Finset.card_le_univ _).trans_eq (Fintype.card_fin n)

/-- `ipc_send_completion_messages` empties a queue that fits in a packet. -/
theorem drain_published : ∀ (k : ℕ) (q : TicketQueue M), (∀ x ∈ q.slots, x.2 = true) →
    q.slots.length ≤ k → drain k q = (q.values, ⟨q.tail, []⟩)
  | 0, ⟨_, []⟩, _, _ => rfl
  | 0, ⟨_, _ :: _⟩, _, hle => absurd hle (Nat.not_succ_le_zero _)
  | _ + 1, ⟨_, []⟩, _, _ => rfl
  | k + 1, ⟨head, (m, b) :: slots⟩, hpub, hle => by
    obtain rfl : b = true := hpub _ List.mem_cons_self
    have hrest := drain_published k ⟨head + 1, slots⟩ (fun x hx => hpub x (List.mem_cons_of_mem _ hx))
      (Nat.le_of_succ_le_succ hle)
    show (m :: (drain k ⟨head + 1, slots⟩).1, (drain k ⟨head + 1, slots⟩).2) = _
    rw [hrest]
    refine Prod.ext rfl (congrArg (TicketQueue.mk · []) ?_)
    show head + 1 + slots.length = head + (slots.length + 1)
    omega

/-- The timer sends between its barriers. -/
theorem Pc.stage_progress (q : Pc M) (hk : PcOk (none : Thread n) q) :
    (q.stage = 2 → 2 ≤ q.progress) ∧ (q.stage = 0 → q.progress = 0) := by
  cases q with
  | arrive g | wait g _ => cases g <;> simp [stage, progress]
  | tickStart | read | body | enqueue | bodyEnd => cases hk
  | _ => simp [stage, progress]

/-- A core at the test of its loop is behind the timer. -/
theorem Control.rounds_lt (h : Control S) {c : Fin n} (hp : S.pc (some c) = .test) :
    S.rounds (some c) < S.past 2 := by
  have hcore := S.arrivals_cases (some c)
  have htwo : (S.pc (some c)).stage = 2 := by rw [hp]; rfl
  have hpast := h.barriers.past .timeSync (some c) (by rw [hp]; nofun)
  have hnear := (h.barriers.counts .timeSync).near none (Finset.mem_univ _)
  have htimer := S.arrivals_cases none
  have hstarted := h.barriers.started none
  have hstage := ((S.pc none).stage_progress (h.barriers.kinds none)).1
  unfold Sys.past
  split_ifs with hprog <;> omega

/-- A core in its tick reports to the next packet. -/
theorem Control.rounds_eq (h : Control S) {c : Fin n} (hp : (S.pc (some c)).InTick) :
    S.rounds (some c) = S.past 2 := by
  obtain ⟨htwo, hzero⟩ := (S.pc none).stage_progress (h.barriers.kinds none)
  unfold Sys.past
  rcases h.barriers.of_tick hp with ⟨hs, hr⟩ | ⟨hs, hr⟩
  · rw [if_pos (htwo hs), hr]
  · have hprog : (S.pc none).progress = 0 := by
      rcases hs with hs | ⟨k, hk⟩
      · exact hzero hs
      · rw [hk]
        rfl
    rw [hprog, if_neg (by omega), hr, Nat.add_zero]

/-- A core that leaves a barrier does not report. -/
theorem next_core (c : Fin n) (g : Gate) :
    (next (some c) g : Pc M).unreported = false ∧ ∀ t, (next (some c) g : Pc M) ≠ .enqueue t := by
  cases g <;> exact ⟨rfl, nofun⟩

namespace Outgoing

theorem init : Outgoing (Sys.init M n) where
  claimed := Nat.zero_le _
  owned _ _ h := by cases h
  tickets _ _ h := by cases h

/-- A core moves on in its round and leaves the queue as it is. -/
theorem core (h : Outgoing S) {c : Fin n} {q : Pc M} (ho : S'.outgoing = S.outgoing)
    (hr : S'.rounds = S.rounds) (hp : S'.pc = Function.update S.pc (some c) q)
    (hu : q.unreported = true → (S.pc (some c)).unreported = true)
    (hn : ∀ t, S.pc (some c) ≠ .enqueue t) (hq : ∀ t, q ≠ .enqueue t) : Outgoing S' := by
  have hself : S'.pc (some c) = q := by rw [hp, Function.update_self]
  have hother : ∀ d ≠ c, S'.pc (some d) = S.pc (some d) := by
    intro d hd
    rw [hp, Function.update_of_ne fun he => hd (Option.some.inj he)]
  have hpast : S'.past 2 = S.past 2 :=
    Sys.past_congr (by rw [hr]) (congrArg _ (Sys.core_none hp)) 2
  refine ⟨?_, ?_, ?_⟩
  · rw [ho]
    refine h.claimed.trans (Finset.card_le_card fun d hd => ?_)
    rw [Sys.mem_reported] at hd ⊢
    rw [hpast, hr]
    refine ⟨hd.1, ?_⟩
    by_cases hdc : d = c
    · rw [hdc, hself]
      by_contra hne
      rw [hdc, hu (Bool.not_eq_false _ ▸ hne)] at hd
      exact nomatch hd.2
    · rw [hother d hdc]
      exact hd.2
  · intro i m hi
    rw [ho] at hi ⊢
    obtain ⟨d, hd⟩ := h.owned i m hi
    refine ⟨d, ?_⟩
    by_cases hdc : d = c
    · rw [hdc] at hd
      exact absurd hd (hn _)
    · rw [hother d hdc]
      exact hd
  · intro d t hd
    rw [ho]
    by_cases hdc : d = c
    · rw [hdc, hself] at hd
      exact absurd hd (hq t)
    · rw [hother d hdc] at hd
      exact h.tickets d t hd

/-- The timer moves on and leaves the queue as it is. -/
theorem timer (h : Outgoing S) (ho : S'.outgoing = S.outgoing)
    (hr : ∀ c, S'.rounds (some c) = S.rounds (some c)) (hp : ∀ c, S'.pc (some c) = S.pc (some c))
    (hpast : S'.past 2 = S.past 2) : Outgoing S' := by
  refine ⟨?_, ?_, ?_⟩
  · rw [ho]
    refine h.claimed.trans (Finset.card_le_card fun d hd => ?_)
    rw [Sys.mem_reported] at hd ⊢
    rw [hpast, hr, hp]
    exact hd
  · intro i m hi
    rw [ho] at hi ⊢
    obtain ⟨d, hd⟩ := h.owned i m hi
    exact ⟨d, (hp d).trans hd⟩
  · intro d t hd
    rw [hp] at hd
    rw [ho]
    exact h.tickets d t hd

/-- A core starts its tick. -/
theorem tick (h : Outgoing S) (hc : Control S) {c : Fin n} (hp : S.pc (some c) = .test) :
    Outgoing (S.enter (some c) .tickStart) := by
  have hother : ∀ d ≠ c, (S.enter (some c) .tickStart).pc (some d) = S.pc (some d) :=
    fun d hd => S.setPc_ne _ fun he => hd (Option.some.inj he)
  have hself : (S.enter (some c) .tickStart).pc (some c) = .tickStart := S.setPc_self (some c) .tickStart
  have hpast : (S.enter (some c) .tickStart).past 2 = S.past 2 :=
    Sys.past_congr (S.enter_ne _ (Option.some_ne_none c).symm) (congrArg _ (Sys.core_none rfl)) 2
  refine ⟨?_, ?_, ?_⟩
  · refine h.claimed.trans (Finset.card_le_card fun d hd => ?_)
    rw [Sys.mem_reported] at hd ⊢
    have hdc : d ≠ c := by
      rintro rfl
      exact (hc.rounds_lt hp).ne hd.1
    rw [hpast, hother d hdc, S.enter_ne _ fun he => hdc (Option.some.inj he)]
    exact hd
  · intro i m hi
    obtain ⟨d, hd⟩ := h.owned i m hi
    have hdc : d ≠ c := by
      rintro rfl
      rw [hp] at hd
      cases hd
    exact ⟨d, (hother d hdc).trans hd⟩
  · intro d t hd
    by_cases hdc : d = c
    · rw [hdc, hself] at hd
      cases hd
    · rw [hother d hdc] at hd
      exact h.tickets d t hd

/-- A core takes the next ticket. -/
theorem complete (h : Outgoing S) (hc : Control S) {c : Fin n} {m : M} (hp : S.pc (some c) = .body)
    (heq : S' = { S.setPc (some c) (.enqueue S.outgoing.tail) with outgoing := S.outgoing.claim m }) :
    Outgoing S' := by
  have hsys : S'.rounds = S.rounds ∧ S'.outgoing = S.outgoing.claim m ∧
      S'.pc = Function.update S.pc (some c) (.enqueue S.outgoing.tail) := by
    rw [heq]
    exact ⟨rfl, rfl, rfl⟩
  obtain ⟨hr, ho, hpc⟩ := hsys
  have hother : ∀ d ≠ c, S'.pc (some d) = S.pc (some d) := by
    intro d hd
    rw [hpc, Function.update_of_ne fun he => hd (Option.some.inj he)]
  have hself : S'.pc (some c) = .enqueue S.outgoing.tail := by rw [hpc, Function.update_self]
  have hpast : S'.past 2 = S.past 2 :=
    Sys.past_congr (by rw [hr]) (congrArg _ (Sys.core_none hpc)) 2
  have htail : S'.outgoing.tail = S.outgoing.tail + 1 := by
    rw [ho]
    show S.outgoing.head + (S.outgoing.slots ++ [(m, false)]).length = _
    rw [List.length_append, ← Nat.add_assoc]
    rfl
  refine ⟨?_, ?_, ?_⟩
  · -- the core has not counted before
    have hnew : c ∉ S.reported := by
      rw [Sys.mem_reported, hp]
      exact fun hu => nomatch hu.2
    have hsub : insert c S.reported ⊆ S'.reported := by
      intro d hd
      rw [Sys.mem_reported, hpast, hr]
      rcases Finset.mem_insert.1 hd with rfl | hd
      · rw [hself]
        exact ⟨hc.rounds_eq (by rw [hp]; trivial), rfl⟩
      · rw [hother d fun he => hnew (he ▸ hd)]
        exact Sys.mem_reported.1 hd
    have hcard := Finset.card_le_card hsub
    rw [Finset.card_insert_of_notMem hnew] at hcard
    rw [ho]
    show (S.outgoing.slots ++ [(m, false)]).length ≤ _
    rw [List.length_append]
    exact (Nat.succ_le_succ h.claimed).trans hcard
  · intro i m' hi
    rw [ho] at hi ⊢
    change (S.outgoing.slots ++ [(m, false)])[i]? = some (m', false) at hi
    rcases Nat.lt_or_ge i S.outgoing.slots.length with hlt | hge
    · rw [List.getElem?_append_left hlt] at hi
      obtain ⟨d, hd⟩ := h.owned i m' hi
      have hdc : d ≠ c := by
        rintro rfl
        rw [hp] at hd
        cases hd
      exact ⟨d, (hother d hdc).trans hd⟩
    · rw [List.getElem?_append_right hge] at hi
      have hzero : i - S.outgoing.slots.length = 0 := by
        have := (List.getElem?_eq_some_iff.1 hi).1
        rw [List.length_singleton] at this
        omega
      refine ⟨c, hself.trans (congrArg Pc.enqueue ?_)⟩
      show S.outgoing.head + S.outgoing.slots.length = S.outgoing.head + i
      omega
  · intro d t hd
    rw [htail]
    by_cases hdc : d = c
    · rw [hdc, hself] at hd
      rw [← Pc.enqueue.inj hd]
      exact Nat.lt_succ_self _
    · rw [hother d hdc] at hd
      exact (h.tickets d t hd).trans (Nat.lt_succ_self _)

/-- A core publishes its message. -/
theorem publish (h : Outgoing S) {c : Fin n} {t : ℕ} (hp : S.pc (some c) = .enqueue t)
    (heq : S' = { S.setPc (some c) .bodyEnd with outgoing := S.outgoing.publish t }) :
    Outgoing S' := by
  have hsys : S'.rounds = S.rounds ∧ S'.outgoing = S.outgoing.publish t ∧
      S'.pc = Function.update S.pc (some c) .bodyEnd := by
    rw [heq]
    exact ⟨rfl, rfl, rfl⟩
  obtain ⟨hr, ho, hpc⟩ := hsys
  have hother : ∀ d ≠ c, S'.pc (some d) = S.pc (some d) := by
    intro d hd
    rw [hpc, Function.update_of_ne fun he => hd (Option.some.inj he)]
  have hself : S'.pc (some c) = .bodyEnd := by rw [hpc, Function.update_self]
  have hpast : S'.past 2 = S.past 2 :=
    Sys.past_congr (by rw [hr]) (congrArg _ (Sys.core_none hpc)) 2
  have hlen : S'.outgoing.slots.length = S.outgoing.slots.length := by
    rw [ho]
    exact List.length_modify ..
  have hhead : S'.outgoing.head = S.outgoing.head := by rw [ho]; rfl
  refine ⟨?_, ?_, ?_⟩
  · rw [hlen]
    refine h.claimed.trans (Finset.card_le_card fun d hd => ?_)
    rw [Sys.mem_reported] at hd ⊢
    rw [hpast, hr]
    refine ⟨hd.1, ?_⟩
    by_cases hdc : d = c
    · rw [hdc, hself]
      rfl
    · rw [hother d hdc]
      exact hd.2
  · intro i m hi
    rw [ho] at hi
    change (S.outgoing.slots.modify (t - S.outgoing.head) fun x => (x.1, true))[i]? = _ at hi
    rw [List.getElem?_modify] at hi
    cases hslot : S.outgoing.slots[i]? with
    | none => rw [hslot] at hi; cases hi
    | some x =>
      rw [hslot] at hi
      replace hi : (if t - S.outgoing.head = i then (x.1, true) else x) = (m, false) :=
        Option.some.inj hi
      split_ifs at hi with hit
      · exact nomatch congrArg Prod.snd hi
      · rw [hi] at hslot
        obtain ⟨d, hd⟩ := h.owned i m hslot
        have hdc : d ≠ c := by
          rintro rfl
          have := Pc.enqueue.inj (hp.symm.trans hd)
          omega
        refine ⟨d, ?_⟩
        rw [hother d hdc, hhead]
        exact hd
  · intro d u hd
    have htail : S'.outgoing.tail = S.outgoing.tail := by
      unfold TicketQueue.tail
      rw [hlen, hhead]
    rw [htail]
    by_cases hdc : d = c
    · rw [hdc, hself] at hd
      cases hd
    · rw [hother d hdc] at hd
      exact h.tickets d u hd

/-- In a timer phase every message is published. -/
theorem published (h : Outgoing S) (hc : Control S) (hp : (S.pc none).InPhase) :
    ∀ x ∈ S.outgoing.slots, x.2 = true := by
  rintro ⟨m, b⟩ hx
  cases b with
  | true => rfl
  | false =>
    obtain ⟨i, hi⟩ := List.mem_iff_getElem?.1 hx
    obtain ⟨c, hcore⟩ := h.owned i m hi
    have hno := (hc.time_of_phase hp c).2
    rw [hcore] at hno
    exact absurd trivial hno

/-- What the timer sends: everything, at most a message for each core. -/
theorem drain_eq (h : Outgoing S) (hc : Control S) (hp : S.pc none = .send) (hsize : n ≤ size) :
    drain size S.outgoing = (S.outgoing.values, ⟨S.outgoing.tail, []⟩) ∧
      S.outgoing.values.length ≤ n := by
  have hle := h.claimed.trans S.reported_le
  refine ⟨drain_published size _ ?_ (hle.trans hsize), ?_⟩
  · exact h.published hc (by rw [hp]; trivial)
  · unfold TicketQueue.values
    rw [List.length_map]
    exact hle

/-- The timer sends. -/
theorem send (h : Outgoing S) (hc : Control S) (hp : S.pc none = .send) (hsize : n ≤ size)
    (heq : S' = { S.setPc none (.arrive .timeSync) with outgoing := (drain size S.outgoing).2 }) :
    Outgoing S' := by
  have hphase : (S.pc none).InPhase := by rw [hp]; trivial
  have hslots : S'.outgoing.slots = [] := by
    rw [heq]
    show (drain size S.outgoing).2.slots = []
    rw [(h.drain_eq hc hp hsize).1]
  have hcores : ∀ c, S'.pc (some c) = S.pc (some c) := by
    rw [heq]
    exact Sys.timer_core rfl
  refine ⟨?_, ?_, ?_⟩
  · rw [hslots]
    exact Nat.zero_le _
  · intro i m hi
    rw [hslots] at hi
    cases hi
  · intro c t ht
    have hno := (hc.time_of_phase hphase c).2
    rw [← hcores, ht] at hno
    exact absurd trivial hno

theorem step (h : Outgoing S) (hc : Control S) (hsize : n ≤ size)
    (hs : Step size totalTicks S a S') : Outgoing S' := by
  have hpast : a.mark ≠ 2 → S'.past 2 = S.past 2 := by
    intro ha
    rw [hs.past_eq (k := 2) hc.noTest2Exit (by omega) (by omega), if_neg ha, Nat.add_zero]
  cases hs with
  | tick hp _ => exact h.tick hc hp
  | complete m hp => exact h.complete hc hp rfl
  | publish hp _ => exact h.publish hp rfl
  | send hp => exact h.send hc hp hsize rfl
  | loadHead hp | visit hp _ _ | readEnd hp _ =>
    refine h.core rfl rfl rfl ?_ ?_ nofun
    · rw [hp]
      exact fun _ => rfl
    · rw [hp]
      nofun
  | fatal hp | tickEnd hp =>
    refine h.core rfl rfl rfl nofun ?_ nofun
    rcases hp with hp | hp
    all_goals
      rw [hp]
      nofun
  | enter hp _ =>
    refine h.timer rfl ?_ (Sys.timer_core rfl) (hpast nofun)
    exact fun c => S.enter_ne _ (Option.some_ne_none c)
  | test2 hp _ | test2Exit hp _ | clear hp | recv _ hp | enqueue hp _ | recvEnd hp | sweep hp
  | fatalTest hp | advance hp | lastTest hp | procPass hp =>
    refine h.timer rfl (fun _ => rfl) (Sys.timer_core rfl) (hpast ?_)
    exact fun h => nomatch h
  | @arrive θ g hp =>
    cases θ with
    | none => exact h.timer rfl (fun _ => rfl) (Sys.timer_core rfl) (hpast nofun)
    | some c =>
      obtain ⟨hu, hq⟩ := next_core (M := M) c g
      refine h.core rfl rfl rfl ?_ (by rw [hp]; nofun) ?_
      · split_ifs
        · rw [hu]
          nofun
        · nofun
      · split_ifs
        · exact hq
        · nofun
  | @wake θ g _ hp _ =>
    cases θ with
    | none => exact h.timer rfl (fun _ => rfl) (Sys.timer_core rfl) (hpast nofun)
    | some c =>
      obtain ⟨hu, hq⟩ := next_core (M := M) c g
      exact h.core rfl rfl rfl (by rw [hu]; nofun) (by rw [hp]; nofun) hq
  | @exit θ hp _ =>
    cases θ with
    | none => exact h.timer rfl (fun _ => rfl) (Sys.timer_core rfl) (hpast nofun)
    | some c => exact h.core rfl rfl rfl nofun (by rw [hp]; nofun) nofun

end Outgoing

end EeftSched.Lockstep

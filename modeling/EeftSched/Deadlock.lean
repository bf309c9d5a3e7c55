/-
  Whether the cores block each other in the migration phase
  (`ring_buffer_enqueue`, `double_rq_lock` and their callers in
  `sched_migration.c`).

  A core blocks in two ways: it spins on a full queue, or it waits for the
  `rq_lock` of another core.  The locks are taken in ascending order, so that
  waiting alone blocks nobody for ever; and a donor's acks fit in its queue.
  What is left are the offers: a request queue has fewer slots than a core has
  jobs to offer, and the core they go to may be at the end of its tick already.

  * `Sys.Tickets`: the tickets of the cores have slots;
  * `no_deadlock`: there is no deadlock as long as every offer goes to a queue
    that has room for it.
-/
import EeftSched.Acks
import EeftSched.Lib.LockOrder
import EeftSched.TwoCores

namespace EeftSched

open Lts

variable {n : ℕ} {cfg : Config} {S S' : Sys n} {K K' : Core n} {c d : Fin n} {t : ℕ}

/-- The core spins in `ring_buffer_enqueue`: the slot of its ticket is not free. -/
inductive Sys.Spins (S : Sys n) (c : Fin n) : Prop
  | offer {dest : Fin n} {ticket k : ℕ} {replica : Bool}
      (h : (S.core c).pc = .offerPublish dest ticket replica k)
      (hf : ¬ (S.migrationRequestQueue dest).Free maxMigrationRequests ticket)
  | future {dest : Fin n} {ticket : ℕ} {entries : List TaskAlloc}
      (h : (S.core c).pc = .futurePublish dest ticket entries)
      (hf : ¬ (S.migrationRequestQueue dest).Free maxMigrationRequests ticket)
  | ack {r : MigrationRequest n} {ticket : ℕ} (h : (S.core c).pc = .procAckPublish r ticket)
      (hf : ¬ (S.delegationAckQueue r.fromCore).Free maxFutureDelegations ticket)

/-- The core spins, or waits for an `rq_lock` that another core holds. -/
def Sys.Blocked (S : Sys n) (c : Fin n) : Prop := S.Spins c ∨ ¬ S.Unblocked c

/-- **A deadlock**: some core has not arrived at the barrier, and every core that
    has not is blocked. -/
def Sys.Deadlocked (S : Sys n) : Prop :=
  (∃ c, (S.core c).pc ≠ .arrived) ∧ ∀ c, (S.core c).pc ≠ .arrived → S.Blocked c

/-- The core whose request queue the core is about to take a ticket of -/
def Pc.offersTo : Pc n → Option (Fin n)
  | .offerClaim _ dest _ _ | .futureClaim _ dest _ => some dest
  | _ => none

/-- The ticket the core has in a request queue -/
def Pc.requestTicket : Pc n → Option (Fin n × ℕ)
  | .offerPublish dest t _ _ | .futurePublish dest t _ => some (dest, t)
  | _ => none

/-- The step is no offer to a queue in which all slots are taken. -/
def OffersInRoom (S : Sys n) (a : Label n) : Prop :=
  ∀ c dest, a = .core c → (S.core c).pc.offersTo = some dest →
    (S.migrationRequestQueue dest).slots.length < maxMigrationRequests

theorem OffersInRoom.of_slots (h : ∀ dest, (S.core c).pc.offersTo = some dest →
    (S.migrationRequestQueue dest).slots.length < maxMigrationRequests) : OffersInRoom S (.core c) := by
  intro d dest hd ho
  obtain rfl := Label.core.inj hd
  exact h dest ho

theorem OffersInRoom.of_none (h : (S.core c).pc.offersTo = none) : OffersInRoom S (.core c) := by
  refine .of_slots fun dest hd => ?_
  rw [h] at hd
  cases hd

/-! ## Tickets -/

/-- The tickets of the cores have slots. -/
structure Sys.Tickets (S : Sys n) : Prop where
  requests : ∀ c d t, (S.core c).pc.requestTicket = some (d, t) →
    (S.migrationRequestQueue d).Free maxMigrationRequests t
  acks : ∀ c r t, (S.core c).pc = .procAckPublish r t →
    (S.delegationAckQueue r.fromCore).Free maxFutureDelegations t

theorem Pc.requestTicket_eq_none {q : Pc n} (h : q.ticket = none) : q.requestTicket = none := by
  cases q with
  | offerPublish | futurePublish => cases h
  | _ => rfl

/-- A queue of many changes, and its head does not go back. -/
theorem TicketQueue.head_le_update {α : Type} {f : Fin n → TicketQueue α} {q : TicketQueue α}
    (h : (f c).head ≤ q.head) (d : Fin n) : (f d).head ≤ (Function.update f c q d).head := by
  by_cases hd : d = c
  · subst hd
    rwa [Function.update_self]
  · rw [Function.update_of_ne hd]

/-- The request queues go forward, and a core takes tickets at their ends. -/
structure RequestTickets (c : Fin n) (S S' : Sys n) : Prop where
  head : ∀ d, (S.migrationRequestQueue d).head ≤ (S'.migrationRequestQueue d).head
  ticket : ∀ d t, (S'.core c).pc.requestTicket = some (d, t) →
    (S.core c).pc.offersTo = some d ∧ t = (S.migrationRequestQueue d).tail

namespace RequestTickets

/-- The core has no ticket after the step. -/
theorem of_none (hcore : S'.core c = K') (hq : ∀ d, (S.migrationRequestQueue d).head ≤
    (S'.migrationRequestQueue d).head) (h : K'.pc.requestTicket = none) : RequestTickets c S S' := by
  refine ⟨hq, fun d t ht => ?_⟩
  rw [hcore, h] at ht
  cases ht

/-- The core has taken the next ticket. -/
theorem of_claim (hcore : S'.core c = K') (hq : ∀ d, (S.migrationRequestQueue d).head ≤
    (S'.migrationRequestQueue d).head) (ho : (S.core c).pc.offersTo = some d)
    (h : K'.pc.requestTicket = some (d, (S.migrationRequestQueue d).tail)) :
    RequestTickets c S S' := by
  refine ⟨hq, fun e t ht => ?_⟩
  rw [hcore, h] at ht
  obtain ⟨rfl, rfl⟩ := Prod.mk.inj (Option.some.inj ht)
  exact ⟨ho, rfl⟩

/-- A reference is dropped. -/
theorem put {me : Option (Fin n)} {T : Sys n} (hs : RequestTickets c S T) (j : JobId n) :
    RequestTickets c S (T.putJobRef me j) := by
  obtain ⟨f, g, he⟩ := T.putJobRef_eq me j
  rw [he]
  exact ⟨hs.head, hs.ticket⟩

end RequestTickets

theorem ArriveStep.requestTickets (hs : ArriveStep cfg c S S') : RequestTickets c S S' := by
  cases hs with
  | @put j K' hp =>
    have hT : RequestTickets c S (S.setCore c K') := by
      refine .of_none (Function.update_self ..) (fun _ => le_rfl) ?_
      cases hp <;> rfl
    exact hT.put j
  | create hp hm hd hj =>
    obtain ⟨-, f, g, rfl⟩ := Sys.takeFree_eq_some hj
    exact .of_none (Function.update_self ..) (fun _ => le_rfl) rfl
  | _ => exact .of_none (Function.update_self ..) (fun _ => le_rfl) rfl

theorem DiscardStep.requestTickets (hs : DiscardStep cfg c S S') : RequestTickets c S S' := by
  cases hs with
  | done hp hj =>
    refine .of_none (Function.update_self ..) (fun _ => le_rfl) ?_
    rw [Core.goto_pc]
    split_ifs <;> rfl
  | ack hp hq =>
    refine .of_none (Function.update_self ..) (fun _ => le_rfl) ?_
    rw [hp]
    rfl
  | _ => exact .of_none (Function.update_self ..) (fun _ => le_rfl) rfl

theorem OfferStep.requestTickets (hs : OfferStep cfg c S S') : RequestTickets c S S' := by
  cases hs with
  | claim hp =>
    exact .of_claim (Function.update_self ..) (TicketQueue.head_le_update le_rfl) (by rw [hp]; rfl) rfl
  | claimFuture hp =>
    exact .of_claim (Function.update_self ..) (TicketQueue.head_le_update le_rfl) (by rw [hp]; rfl) rfl
  | publish | publishFuture =>
    exact .of_none (Function.update_self ..) (TicketQueue.head_le_update le_rfl) rfl
  | createFuture hp ho hj =>
    obtain ⟨-, f, g, rfl⟩ := Sys.takeFree_eq_some hj
    exact .of_none (Function.update_self ..) (fun _ => le_rfl) rfl
  | _ => exact .of_none (Function.update_self ..) (fun _ => le_rfl) rfl

theorem RequestStep.requestTickets (hs : RequestStep cfg c S S') : RequestTickets c S S' := by
  cases hs with
  | dequeue hp hq =>
    refine .of_none (Function.update_self ..) (TicketQueue.head_le_update ?_) rfl
    rw [(TicketQueue.tryDequeue_eq_some hq).2]
    exact Nat.le_succ _
  | @putReject r hp =>
    have hT : RequestTickets c S (S.goto c .process) :=
      .of_none (Function.update_self ..) (fun _ => le_rfl) rfl
    exact hT.put _
  | @putAccept r hp =>
    have hT : RequestTickets c S ((S.setJob r.job { S.job r.job with
        nextMigrationEligibleTick := S.systemTime + jobMigrationCooldownTicks }).goto c .process) :=
      .of_none (Function.update_self ..) (fun _ => le_rfl) rfl
    exact hT.put _
  | _ => exact .of_none (Function.update_self ..) (fun _ => le_rfl) rfl

theorem CoreStep.requestTickets (hs : CoreStep cfg c S S') (hi : Inv S) : RequestTickets c S S' := by
  cases hs with
  | own hs he =>
    have hspec := hs.spec (hi.ok c) (hi.core_nodup c)
    rw [he]
    exact .of_none (Function.update_self ..) (fun _ => le_rfl) (Pc.requestTicket_eq_none hspec.own.ticket)
  | arrive hs => exact hs.requestTickets
  | discard hs => exact hs.requestTickets
  | offer hs => exact hs.requestTickets
  | request hs => exact hs.requestTickets

/-- The ack queues go forward, too. -/
theorem AckMove.head_le (h : AckMove c S S') (d : Fin n) :
    (S.delegationAckQueue d).head ≤ (S'.delegationAckQueue d).head := by
  cases h with
  | none hq _ _ _ | accept hq _ _ _ _ _ | done hq _ _ _ => rw [hq]
  | claim hq _ _ | publish hq _ _ =>
    rw [hq]
    exact TicketQueue.head_le_update (by exact le_rfl) d
  | read hq hd _ _ =>
    rw [hq]
    refine TicketQueue.head_le_update ?_ d
    rw [(TicketQueue.tryDequeue_eq_some hd).2]
    exact Nat.le_succ _

/-- A ticket of an ack queue is taken at its end. -/
theorem AckMove.ticket (h : AckMove c S S') {r : MigrationRequest n}
    (hp : (S'.core c).pc = .procAckPublish r t) : t = (S.delegationAckQueue r.fromCore).tail := by
  cases h with
  | none _ _ h' _ =>
    rw [hp] at h'
    cases h'
  | claim _ _ h' =>
    obtain ⟨rfl, rfl⟩ := Pc.procAckPublish.inj (hp.symm.trans h')
    rfl
  | accept _ _ h' _ _ _ | publish _ _ h' | read _ _ _ h' | done _ _ _ h' =>
    rw [hp] at h'
    cases h'

theorem Sys.Tickets.init : (Sys.init n).Tickets := ⟨nofun, nofun⟩

/-- **A step keeps the tickets**, if it is no offer to a full queue. -/
theorem Sys.Tickets.step {a : Label n} (h : S.Tickets) (hr : Reachable cfg S) (hs : Step cfg S a S')
    (hroom : OffersInRoom S a) : S'.Tickets := by
  have hi := hr.inv
  cases hs with
  | @core c S' hl hs =>
    have hreq := hs.requestTickets hi
    have hack := (hs.handover hi hr.pools).acks
    constructor
    · intro e d t ht
      refine lt_of_lt_of_le ?_ (Nat.add_le_add_right (hreq.head d) _)
      by_cases he : e = c
      · subst he
        obtain ⟨ho, rfl⟩ := hreq.ticket d t ht
        exact Nat.add_lt_add_left (hroom e d rfl ho) _
      · rw [(hs.elsewhere hi he).pc] at ht
        exact h.requests e d t ht
    · intro e r t ht
      refine lt_of_lt_of_le ?_ (Nat.add_le_add_right (hack.head_le _) _)
      by_cases he : e = c
      · subst he
        obtain rfl := hack.ticket ht
        have hle := hr.acks_le r.fromCore
        have hlt : (S.delegationAckQueue r.fromCore).slots.length < maxFutureDelegations :=
          hle.trans_lt (by decide)
        exact Nat.add_lt_add_left hlt _
      · rw [(hs.elsewhere hi he).pc] at ht
        exact h.acks e r t ht
  | timer hs =>
    have hq : S'.migrationRequestQueue = S.migrationRequestQueue ∧
        S'.delegationAckQueue = S.delegationAckQueue := by
      cases hs with
      | @put k j hp =>
        obtain ⟨f, g, he⟩ := Sys.putJobRef_eq { S with timer := .sweep k } none j
        rw [he]
        exact ⟨rfl, rfl⟩
      | _ => exact ⟨rfl, rfl⟩
    have hpc : ∀ e, (S'.core e).pc = (S.core e).pc ∨ (S'.core e).pc = .start := by
      intro e
      rcases (hs.cores hi).1 e with he | ⟨-, he⟩
      · exact .inl (by rw [he])
      · exact .inr (by rw [he]; rfl)
    constructor
    · intro e d t ht
      rw [hq.1]
      rcases hpc e with he | he
      · exact h.requests e d t (he ▸ ht)
      · rw [he] at ht
        cases ht
    · intro e r t ht
      rw [hq.2]
      rcases hpc e with he | he
      · exact h.acks e r t (he ▸ ht)
      · rw [he] at ht
        cases ht

/-- With a slot for its ticket, no core spins. -/
theorem Sys.Tickets.not_spins (h : S.Tickets) (c : Fin n) : ¬ S.Spins c := by
  rintro (⟨hp, hf⟩ | ⟨hp, hf⟩ | ⟨hp, hf⟩)
  · exact hf (h.requests c _ _ (by rw [hp]; rfl))
  · exact hf (h.requests c _ _ (by rw [hp]; rfl))
  · exact hf (h.acks c _ _ hp)

/-! ## Locks -/

/-- A core that holds a lock wants none below it: `double_rq_lock` takes the
    lock of the lower core first. -/
theorem Pc.holds_le_wants {q : Pc n} {l l' : Fin n} (hl : l ∈ q.holds c) (hw : q.wants c = some l') :
    l ≤ l' := by
  cases q with
  | procLock2 r =>
    obtain rfl := Finset.mem_singleton.1 hl
    obtain rfl := Option.some.inj hw
    exact min_le_max
  | _ => first | exact absurd hl (Finset.notMem_empty l) | cases hw

/-- The `rq_lock`s are taken in ascending order. -/
theorem Inv.ascending (hi : Inv S) :
    LockOrder.Ascending (fun c l => l ∈ (S.core c).pc.holds c) (fun c => (S.core c).pc.wants c) :=
  ⟨hi.locks, fun _ _ _ => Pc.holds_le_wants⟩

theorem Sys.not_unblocked_iff : ¬ S.Unblocked c ↔
    LockOrder.Waits (fun c l => l ∈ (S.core c).pc.holds c) (fun c => (S.core c).pc.wants c) c := by
  constructor
  · intro h
    by_contra hno
    exact h fun l hl e he hm => hno ⟨l, hl, e, he, hm⟩
  · rintro ⟨l, hl, e, he, hm⟩ h
    exact h l hl e he hm

/-! ## No deadlock -/

/-- A run leads to the state in which all offers have room. -/
def RunsInRoom (cfg : Config) (S : Sys n) : Prop :=
  ∃ tr, Exec (Step cfg) (Sys.init n) tr S ∧ ∀ x ∈ tr, OffersInRoom x.pre x.lab

theorem RunsInRoom.reachable (h : RunsInRoom cfg S) : Reachable cfg S := by
  obtain ⟨tr, hr, -⟩ := h
  exact ⟨tr, hr⟩

variable {tr : List (Trans (Sys n) (Label n))}

theorem Exec.tickets (h : Exec (Step cfg) (Sys.init n) tr S)
    (hroom : ∀ x ∈ tr, OffersInRoom x.pre x.lab) : S.Tickets := by
  induction h with
  | nil => exact .init
  | @snoc tr T a U hr hs ih =>
    have hT := ih fun x hx => hroom x (List.mem_append_left _ hx)
    exact hT.step ⟨_, hr⟩ hs (hroom ⟨T, a, U⟩ (List.mem_append_right _ (List.mem_singleton_self _)))

/-- **No deadlock**, in a run that offers no job to a core whose request queue is
    full: some core that has not arrived can go on. -/
theorem no_deadlock (h : Exec (Step cfg) (Sys.init n) tr S)
    (hroom : ∀ x ∈ tr, OffersInRoom x.pre x.lab) : ¬ S.Deadlocked := by
  have hreach : Reachable cfg S := ⟨tr, h⟩
  have hi := hreach.inv
  have ht := Exec.tickets h hroom
  rintro ⟨⟨c, hc⟩, hall⟩
  have hwaits : ∀ c, (S.core c).pc ≠ .arrived → ¬ S.Unblocked c := fun c hc =>
    (hall c hc).resolve_left (ht.not_spins c)
  -- a core that holds a lock and does not wait has not arrived either
  obtain ⟨d, l, hl, hd⟩ := hi.ascending.exists_holder (Sys.not_unblocked_iff.1 (hwaits c hc))
  refine hd (Sys.not_unblocked_iff.1 (hwaits d fun hp => ?_))
  simp only [hp] at hl
  exact Finset.notMem_empty l hl

/-! ## A donor with more jobs than slots -/

/-- A task with much time; task 0 needs most of it. -/
def burstTask (id : ℕ) : Task := ⟨id, 1000, 1000, fun _ => if id = 0 then 600 else 3, 0⟩

/-- Two cores: task 0 runs on core 1, and 34 short tasks on core 0. -/
def burstConfig : Config where
  maxCriticalityLevels := 1
  maxTasks := 34
  systemTasks := (List.range 35).map burstTask
  allocationMap := (List.range 35).map fun id =>
    ⟨id, .primary, 0, if id = 0 then 1 else 0, fun _ => 1000⟩
  procId := 0
  enableEcc := false
  enableProcrastination := false
  enableDvfs := false
  enableDpm := false

theorem burstConfig_find {id : ℕ} (h : id ≤ 34) : burstConfig.findTaskById id = some (burstTask id) := by
  have hfind : (burstConfig.systemTasks.reverse.find? (·.id == id)).isSome := by
    rw [List.find?_isSome]
    refine ⟨burstTask id, ?_, beq_self_eq_true id⟩
    exact List.mem_reverse.2 (List.mem_map.2 ⟨id, List.mem_range.2 (by omega), rfl⟩)
  obtain ⟨task, htask⟩ := Option.isSome_iff_exists.1 hfind
  obtain ⟨k, -, rfl⟩ := List.mem_map.1 (List.mem_reverse.1 (List.mem_of_find?_eq_some htask))
  have hid := List.find?_some htask
  obtain rfl : k = id := eq_of_beq hid
  have hmax : ¬ k > burstConfig.maxTasks := not_lt.2 h
  rw [Config.findTaskById, if_neg hmax, htask]

theorem burstConfig_entries {c : ℕ} {m : TaskAlloc} (h : m ∈ burstConfig.entries c) :
    m.taskId ≤ 34 ∧ m.taskType = .primary := by
  obtain ⟨id, hid, rfl⟩ := List.mem_map.1 (List.mem_filter.1 h).1
  exact ⟨Nat.le_of_lt_succ (List.mem_range.1 hid), rfl⟩

/-- The record of a job of these tasks that has run for `e` ticks at most and
    is not on offer -/
structure JobRec.Fit (r : JobRec) (e : ℚ) : Prop where
  acet : 3 ≤ r.acet
  wcet : 3 ≤ r.wcet
  executed : r.executedTime ≤ e
  deadline : 1 ≤ r.actualDeadline
  kind : r.isReplica = false
  eligible : r.nextMigrationEligibleTick = 0
  offer : r.isBeingOffered = false

theorem arrivedJob_fit {m : TaskAlloc} {id : ℕ} (hm : m.taskType = .primary) (acet : ℚ)
    (ha : 3 ≤ acet) : (arrivedJob c 0 0 m (burstTask id) acet).Fit 0 where
  acet := ha
  wcet := by
    show 3 ≤ toFloat (if id = 0 then 600 else 3)
    split_ifs
    · rw [toFloat_eq (by norm_num)]
      norm_num
    · rw [toFloat_eq (by norm_num)]
      norm_num
  executed := le_rfl
  deadline := by
    show 1 ≤ 0 + 1000
    norm_num
  kind := by
    show (m.taskType == .replica) = false
    rw [hm]
    rfl
  eligible := rfl
  offer := rfl

theorem JobRec.Fit.mono {r : JobRec} {e e' : ℚ} (h : r.Fit e) (he : e ≤ e') : r.Fit e' :=
  { h with executed := h.executed.trans he }

theorem Jobs.set_fit {J : Jobs n} {i j : JobId n} {r : JobRec} {e e' : ℚ} (hr : (J j).Fit e → r.Fit e')
    (he : e ≤ e') (hi : (J i).Fit e) : (J.set j r i).Fit e' := by
  by_cases hij : i = j
  · subst hij
    rw [Jobs.set_self]
    exact hr hi
  · rw [Jobs.set_ne _ _ hij]
    exact hi.mono he

/-- A core with these jobs -/
def burstCore (dp : Bool) (ready : List (JobId 2)) (running : Option (JobId 2)) (q : Pc 2) : Core 2 :=
  { Core.init 2 with
    pc := q
    readyQueue := ready
    runningJob := running
    isIdle := running.isNone
    decisionPoint := dp }

/-- The state of the two cores `c`, which is at work, and the other one -/
def burstSys (time : ℕ) (J : Jobs 2) (f : Fin 2 → List (JobId 2))
    (q : Fin 2 → TicketQueue (MigrationRequest 2)) (c : Fin 2) (K L : Core 2) : Sys 2 :=
  { Sys.init 2 with
    core := Function.update (fun _ => L) c K
    job := J
    freeList := f
    migrationRequestQueue := q
    systemTime := time }

/-- A run leads there in which all offers have room, and the other core is
    outside its tick. -/
structure BurstRun (time : ℕ) (J : Jobs 2) (f : Fin 2 → List (JobId 2))
    (q : Fin 2 → TicketQueue (MigrationRequest 2)) (c : Fin 2) (K L : Core 2) : Prop where
  rest : L.pc = .start ∨ L.pc = .arrived
  run : RunsInRoom burstConfig (burstSys time J f q c K L)

variable {time k : ℕ} {S₂ : Sys 2} {J J' : Jobs 2} {f f' : Fin 2 → List (JobId 2)}
  {q q' : Fin 2 → TicketQueue (MigrationRequest 2)} {e : ℚ} {dp : Bool} {l : List (JobId 2)}
  {run : Option (JobId 2)}

section

variable {c : Fin 2} {K K' L : Core 2} {j : JobId 2}

theorem burstSys_core : (burstSys time J f q c K L).core c = K := pairSys_core

theorem burstSys_core_of_ne {d : Fin 2} (h : d ≠ c) : (burstSys time J f q c K L).core d = L :=
  pairSys_core_of_ne h

theorem burstSys_goto {p : Pc 2} :
    (burstSys time J f q c K L).goto c p = burstSys time J f q c (K.goto p) L := pairSys_goto

theorem OffersInRoom.of_quiet {S : Sys 2} (h : (S.core c).pc.isQuiet = true) :
    OffersInRoom S (.core c) := by
  refine .of_none ?_
  unfold Pc.offersTo
  split
  · rename_i hp
    rw [hp] at h
    cases h
  · rename_i hp
    rw [hp] at h
    cases h
  · rfl

namespace BurstRun

/-- The same run, seen as one of two cores that take turns -/
theorem pair (h : BurstRun time J f q c K L) :
    PairRun burstConfig OffersInRoom (Sys.init 2) time J f q (fun _ => .empty) [] c K L where
  plain := ⟨rfl, rfl, rfl, rfl⟩
  quiet _ _ := .of_quiet
  timer _ := nofun
  rest d := by rcases h.rest with hp | hp <;> rw [hp] <;> rfl
  discard := by rcases h.rest with hp | hp <;> rw [hp] <;> rfl
  run := h.run

theorem of_pair (hL : L.pc = .start ∨ L.pc = .arrived)
    (h : PairRun burstConfig OffersInRoom (Sys.init 2) time J f q (fun _ => .empty) [] c K L) :
    BurstRun time J f q c K L := ⟨hL, h.run⟩

theorem reachable (h : BurstRun time J f q c K L) :
    Reachable burstConfig (burstSys time J f q c K L) := h.run.reachable

/-- The core at work takes a step. -/
theorem core (h : BurstRun time J f q c K L)
    (hroom : ∀ d, K.pc.offersTo = some d → (q d).slots.length < maxMigrationRequests)
    (hs : CoreStep burstConfig c (burstSys time J f q c K L) S₂)
    (he : S₂ = burstSys time J' f' q' c K' L) : BurstRun time J' f' q' c K' L := by
  refine of_pair h.rest (h.pair.core (.of_slots fun d hd => ?_) hs he)
  rw [pairSys_core] at hd
  exact hroom d hd

/-- A step that is no offer -/
theorem quiet (h : BurstRun time J f q c K L) (ho : K.pc.offersTo = none)
    (hs : CoreStep burstConfig c (burstSys time J f q c K L) S₂)
    (he : S₂ = burstSys time J' f' q' c K' L) : BurstRun time J' f' q' c K' L := by
  refine h.core (fun d hd => ?_) hs he
  rw [ho] at hd
  cases hd

theorem own (h : BurstRun time J f q c K L) (ho : K.pc.offersTo = none)
    (hs : LocalStep ⟨burstConfig, c, time, 0, []⟩ K J K' J') : BurstRun time J' f q c K' L :=
  h.quiet ho (PairRun.local_step hs) rfl

/-! ### The phases of a tick -/

/-- To `handle_running_job` -/
theorem toRun (h : BurstRun time J f q c (burstCore dp l run .start) L) :
    BurstRun time J f q c (burstCore dp l run .run) L :=
  of_pair h.rest (PairRun.toRun (K := burstCore dp l run .start) h.pair rfl rfl)

/-- Nothing runs, and no job is pending. -/
theorem idle (h : BurstRun time J f q c (burstCore dp l none .run) L) :
    BurstRun time J f q c (burstCore dp l none (.alloc (burstConfig.entries c))) L := by
  have hidle := PairRun.idle (K := burstCore dp l none .run) h.pair rfl
  exact of_pair h.rest (hidle.pendingEnd nofun)

/-- The running job runs for one more tick. -/
theorem go (h : BurstRun 1 J f q c (burstCore dp l (some j) .run) L) (hj : (J j).Fit e)
    (he : e ≤ 1) :
    ∃ J', BurstRun 1 J' f q c (burstCore dp l (some j) (.alloc (burstConfig.entries c))) L ∧
      ∀ i, (J i).Fit e → (J' i).Fit (e + 1) := by
  have hex : ((J j).execute (burstCore dp l (some j) .run)).executedTime = (J j).executedTime + 1 := rfl
  have hacet : ((J j).execute (burstCore dp l (some j) .run)).executedTime < (J j).acet := by
    rw [hex]
    linarith [hj.acet, hj.executed]
  have hwcet : ((J j).execute (burstCore dp l (some j) .run)).executedTime < (J j).wcet := by
    rw [hex]
    linarith [hj.wcet, hj.executed]
  have hgo := PairRun.go (K := burstCore dp l (some j) .run) h.pair rfl hj.deadline hacet hwcet
  refine ⟨_, of_pair h.rest (hgo.pendingEnd nofun), fun i hi => ?_⟩
  refine Jobs.set_fit (fun hj => { hj with executed := ?_ }) (le_add_of_nonneg_right zero_le_one) hi
  rw [hex]
  exact add_le_add_left hj.executed 1

/-- A tick without releases -/
theorem noRelease {ms : List TaskAlloc} (hms : ∀ m ∈ ms, m.taskId ≤ 34)
    (h : BurstRun 1 J f q c (burstCore dp l run (.alloc ms)) L) :
    BurstRun 1 J f q c (burstCore dp l run (.alloc [])) L := by
  induction ms with
  | nil => exact h
  | cons m ms ih =>
    refine ih (fun m' hm' => hms m' (List.mem_cons_of_mem _ hm')) (h.own rfl (.arrival (.allocSkip rfl ?_)))
    exact Ctx.not_releases (burstConfig_find (hms m List.mem_cons_self))
      (show 1 % 1000 ≠ 0 by decide)

/-- One release of a task -/
theorem create {m : TaskAlloc} {ms : List TaskAlloc} {rest : List (JobId 2)}
    (h : BurstRun 0 J f q c (burstCore dp l run (.alloc (m :: ms))) L) (hm : m.taskId ≤ 34)
    (hp : m.taskType = .primary) (hf : f c = j :: rest) (hl : ∀ i ∈ l, (J i).Fit 0) :
    ∃ J' l', BurstRun 0 J' (Function.update f c rest) q c (burstCore true l' run (.alloc ms)) L ∧
      l'.length = l.length + 1 ∧ (∀ i ∈ l', (J' i).Fit 0) ∧ ∀ i, (J i).Fit 0 → (J' i).Fit 0 := by
  set r := arrivedJob c 0 0 m (burstTask m.taskId) 3 with hr
  have hfit : r.link.Fit 0 := { arrivedJob_fit hp 3 le_rfl with }
  have hset : ∀ i, (J i).Fit 0 → (((J.set j r).set j r.link) i).Fit 0 := by
    rw [Jobs.set_set]
    exact fun i => Jobs.set_fit (fun _ => hfit) le_rfl
  have hP : OffersInRoom (burstSys 0 J f q c (burstCore dp l run (.alloc (m :: ms))) L) (.core c) :=
    .of_none (congrArg (Pc.offersTo ∘ Core.pc) burstSys_core)
  have h := of_pair h.rest (PairRun.create (K := burstCore dp l run .start) h.pair hP
    ⟨burstConfig_find hm, show 1000 ≠ 0 by decide, rfl⟩ rfl hf hp le_rfl 3)
  refine ⟨_, _, h, SortedQueue.length_insertBy, fun i hi => ?_, hset⟩
  rcases SortedQueue.mem_insertBy.1 hi with rfl | hi
  · rw [Jobs.set, Function.update_self]
    exact hfit
  · exact hset i (hl i hi)

/-- The releases of a core, as long as its pool has jobs -/
theorem arrivals {ms : List TaskAlloc} (hms : ∀ m ∈ ms, m.taskId ≤ 34 ∧ m.taskType = .primary)
    (hf : ms.length ≤ (f c).length) (hl : ∀ i ∈ l, (J i).Fit 0)
    (h : BurstRun 0 J f q c (burstCore dp l none (.alloc ms)) L) :
    ∃ J' f' dp' l', BurstRun 0 J' f' q c (burstCore dp' l' none (.alloc [])) L ∧
      l'.length = l.length + ms.length ∧ (∀ i ∈ l', (J' i).Fit 0) ∧
      (∀ i, (J i).Fit 0 → (J' i).Fit 0) ∧ ∀ d, d ≠ c → f' d = f d := by
  induction ms generalizing J f dp l with
  | nil => exact ⟨J, f, dp, l, h, rfl, hl, fun _ hi => hi, fun _ _ => rfl⟩
  | cons m ms ih =>
    obtain ⟨j, rest, hj⟩ := List.exists_cons_of_length_pos (Nat.lt_of_lt_of_le (Nat.succ_pos _) hf)
    obtain ⟨hm, hp⟩ := hms m List.mem_cons_self
    obtain ⟨J₁, l₁, h, hlen, hl₁, hJ⟩ := create h hm hp hj hl
    have hlt : ms.length ≤ (Function.update f c rest c).length := by
      rw [Function.update_self]
      rw [hj] at hf
      exact Nat.le_of_succ_le_succ hf
    obtain ⟨J₂, f₂, dp₂, l₂, h, hlen₂, hl₂, hJ₂, hf₂⟩ :=
      ih (fun m' hm' => hms m' (List.mem_cons_of_mem _ hm')) hlt hl₁ h
    refine ⟨J₂, f₂, dp₂, l₂, h, ?_, hl₂, fun i hi => hJ₂ i (hJ i hi), fun d hd => ?_⟩
    · rw [hlen₂, hlen, List.length_cons]
      omega
    · rw [hf₂ d hd, Function.update_of_ne hd]

/-- From the end of the arrivals to `attempt_migration_push` -/
theorem close (h : BurstRun time J f q c (burstCore dp l run (.alloc [])) L) :
    BurstRun time J f q c (burstCore dp l run .push) L :=
  of_pair h.rest (PairRun.close (K := burstCore dp l run .start) h.pair rfl rfl)

/-- No push, and nothing to process -/
theorem toSelect (h : BurstRun time J f q c (burstCore dp l run .push) L)
    (hq : (q c).tryDequeue = none) : BurstRun time J f q c (burstCore dp l run .select) L := by
  have h := h.own rfl (.push (.skip rfl))
  exact of_pair h.rest (PairRun.processed (K := burstCore dp l run .start) h.pair hq)

/-- From the dispatch to the barrier -/
theorem finish (h : BurstRun time J f q c (burstCore dp l run .dispatched) L) :
    BurstRun time J f q c (burstCore dp l run .arrived) L :=
  of_pair h.rest (PairRun.finish (K := burstCore dp l run .start) h.pair)

/-- The first job of the ready queue is dispatched. -/
theorem dispatch (h : BurstRun time J f q c (burstCore dp (j :: l) none .select) L)
    (hj : (J j).Fit e) :
    ∃ J', BurstRun time J' f q c (burstCore true l (some j) .dispatched) L ∧
      ∀ i, (J i).Fit e → (J' i).Fit e := by
  have hrun := PairRun.dispatch (K := burstCore dp (j :: l) none .start) h.pair rfl rfl rfl hj.kind
  exact ⟨_, of_pair h.rest hrun, fun i => Jobs.set_fit (fun hj => { hj with }) le_rfl⟩

/-- The first tick of a core: one of its jobs runs, and the others are ready. -/
theorem firstTick (h : BurstRun 0 J f q c (burstCore dp [] none .start) L)
    (hf : (burstConfig.entries c).length ≤ (f c).length)
    (hpos : 0 < (burstConfig.entries c).length) (hq : (q c).tryDequeue = none) :
    ∃ J' f' l' j, BurstRun 0 J' f' q c (burstCore true l' (some j) .arrived) L ∧
      l'.length + 1 = (burstConfig.entries c).length ∧ (∀ i ∈ j :: l', (J' i).Fit 0) ∧
      (∀ i, (J i).Fit 0 → (J' i).Fit 0) ∧ ∀ d, d ≠ c → f' d = f d := by
  obtain ⟨J₁, f₁, dp₁, l₁, h, hlen, hl, hJ, hf₁⟩ :=
    arrivals (fun _ hm => burstConfig_entries hm) hf (fun _ hi => absurd hi List.not_mem_nil) h.toRun.idle
  rw [List.length_nil, Nat.zero_add] at hlen
  obtain ⟨j, l', rfl⟩ := List.exists_cons_of_length_pos (hlen ▸ hpos)
  obtain ⟨J₂, h, hJ₂⟩ := (h.close.toSelect hq).dispatch (hl j List.mem_cons_self)
  exact ⟨J₂, f₁, l', j, h.finish, hlen, fun i hi => hJ₂ i (hl i hi), fun i hi => hJ₂ i (hJ i hi), hf₁⟩

/-- The two cores change their parts. -/
theorem swap (h : BurstRun time J f q c K L) (hK : K.pc = .start ∨ K.pc = .arrived) :
    BurstRun time J f q c.rev L K := by
  refine of_pair hK (h.pair.swap (fun d => ?_) ?_)
  · rcases hK with hp | hp <;> rw [hp] <;> rfl
  · rcases hK with hp | hp <;> rw [hp] <;> rfl

/-- The timer, when both cores wait at the barrier -/
theorem nextTick (h : BurstRun time J f q c K L) (hK : K.pc = .arrived) (hL : L.pc = .arrived) :
    BurstRun (time + 1) J f q c (K.goto .start) (L.goto .start) := by
  have hself : ∀ {M : Core 2}, M.pc = .arrived → M.goto .arrived = M := fun hM => by
    rw [← hM]
    rfl
  have h := h.pair
  rw [← hself hK, ← hself hL] at h
  exact of_pair (.inl rfl) h.nextTick

/-! ### The offers -/

theorem ready_nodup (h : BurstRun time J f q c K L) : K.readyQueue.Nodup := by
  have hplaced := Core.placed_nodup (h.reachable.inv.core_nodup c)
  rw [burstSys_core] at hplaced
  have hle : (K.readyQueue : Multiset (JobId 2)) ≤ K.placed := by
    unfold Core.placed Core.lists
    simp only [add_assoc]
    exact Multiset.le_add_right ..
  exact Multiset.coe_nodup.1 (Multiset.nodup_of_le hle hplaced)

/-- The next job is on offer, to the other core. -/
theorem target (h : BurstRun 1 J f q c (burstCore dp l run (.offer false k)) L)
    (hk : l[k]? = some j) (hj : (J j).Fit 2) :
    ∃ J', BurstRun 1 J' f q c (burstCore dp l run (.offerClaim j c.rev false k)) L ∧
      ∀ i, i ≠ j → J' i = J i := by
  have hprofit : isMigrationProfitable (J j) 1 := by
    refine ⟨hj.eligible.le.trans (Nat.zero_le 1), le_max_of_le_right ?_⟩
    have hleft : 1 ≤ (J j).wcet - (J j).executedTime := by linarith [hj.wcet, hj.executed]
    exact le_trans (by norm_num [minMigrationBenefitThreshold]) hleft
  have htarget := PairRun.target (K := burstCore dp l run .start) h.pair hk hprofit hj.offer
  exact ⟨_, of_pair h.rest htarget, fun i hi => Function.update_of_ne hi ..⟩

/-- The core takes a ticket for its request. -/
theorem claim {d : Fin 2} : CoreStep burstConfig c
    (burstSys time J f q c (burstCore dp l run (.offerClaim j d false k)) L)
    (burstSys time J f (Function.update q d ((q d).claim ⟨j, c⟩)) c
      (burstCore dp l run (.offerPublish d (q d).tail false k)) L) := by
  refine .offer ?_
  show OfferStep _ _ _ (burstSys _ _ _ _ _
    ((burstCore dp l run (.offerClaim j d false k)).goto (.offerPublish d (q d).tail false k)) _)
  rw [← burstSys_goto]
  exact .claim (congrArg Core.pc burstSys_core)

/-- The request goes to the other core. -/
theorem offer (h : BurstRun 1 J f q c (burstCore dp l run (.offerClaim j c.rev false k)) L)
    (hlen : (q c.rev).slots.length < maxMigrationRequests) :
    ∃ q', BurstRun 1 J f q' c (burstCore dp l run (.offer false (k + 1))) L ∧
      (q' c.rev).slots.length = (q c.rev).slots.length + 1 := by
  have hroom : OffersInRoom (burstSys 1 J f q c (burstCore dp l run (.offerClaim j c.rev false k)) L) (.core c) := by
    refine .of_slots fun dest hd => ?_
    rw [burstSys_core] at hd
    obtain rfl := Option.some.inj hd
    exact hlen
  have hsend := PairRun.send (K := burstCore dp l run .start) h.pair hroom hlen
  refine ⟨_, of_pair h.rest hsend, ?_⟩
  rw [Function.update_self, TicketQueue.length_publish]
  exact List.length_append

/-- The first `k` jobs of the ready queue are offered. -/
theorem offers (h : BurstRun 1 J f q c (burstCore dp l run (.offer false 0)) L)
    (hl : ∀ i ∈ l, (J i).Fit 2) (hq : (q c.rev).slots = []) (hk : k ≤ maxMigrationRequests)
    (hlen : k ≤ l.length) :
    ∃ J' q', BurstRun 1 J' f q' c (burstCore dp l run (.offer false k)) L ∧
      (q' c.rev).slots.length = k ∧ ∀ i j, k ≤ i → l[i]? = some j → (J' j).Fit 2 := by
  induction k with
  | zero =>
    exact ⟨J, q, h, congrArg List.length hq, fun i j _ hj => hl j (List.mem_of_getElem? hj)⟩
  | succ k ih =>
    obtain ⟨J₁, q₁, h₁, hlen₁, hfit⟩ := ih (Nat.le_of_succ_le hk) (Nat.le_of_succ_le hlen)
    have hj : l[k]? = some l[k] := List.getElem?_eq_getElem hlen
    obtain ⟨J₂, h₂, hframe⟩ := h₁.target hj (hfit k _ le_rfl hj)
    obtain ⟨q₂, h₂, hlen₂⟩ := h₂.offer (hlen₁ ▸ hk)
    refine ⟨J₂, q₂, h₂, by rw [hlen₂, hlen₁], fun i j hi hij => ?_⟩
    -- no job is in the queue twice
    have hne : j ≠ l[k] := by
      rintro rfl
      have hki : k = i := (List.getElem?_inj hlen h₂.ready_nodup).1 (hj.trans hij.symm)
      omega
    rw [hframe j hne]
    exact hfit i j (Nat.le_of_succ_le hi) hij

/-- Core 0 is about to offer a job to core 1, which has 32 requests and has
    arrived at the barrier. -/
theorem exists_offerClaim : ∃ J f q l r j₀ j₁,
    BurstRun 1 J f q 0 (burstCore true l (some j₀) (.offerClaim r 1 false maxMigrationRequests))
      (burstCore true [] (some j₁) .arrived) ∧
    (q 1).slots.length = maxMigrationRequests := by
  -- tick 0 of core 1, and of core 0
  have h : BurstRun 0 (fun _ => JobRec.blank) (Sys.init 2).freeList (fun _ => .empty) 1
      (burstCore false [] none .start) (burstCore false [] none .start) := by
    refine ⟨.inl rfl, [], ?_, nofun⟩
    have hinit : burstSys 0 (fun _ => JobRec.blank) (Sys.init 2).freeList (fun _ => .empty) 1
        (burstCore false [] none .start) (burstCore false [] none .start) = Sys.init 2 := by
      unfold burstSys
      rw [Function.update_eq_self_iff.2 rfl]
      rfl
    rw [hinit]
    exact .nil
  obtain ⟨J₁, f₁, l₁, j₁, h, hlen₁, hfit₁, -, hf₁⟩ := h.firstTick (by decide) (by decide) rfl
  obtain rfl : l₁ = [] := List.length_eq_zero_iff.1 (Nat.succ.inj hlen₁)
  have h : BurstRun 0 J₁ f₁ (fun _ => .empty) 0 (burstCore false [] none .start)
    (burstCore true [] (some j₁) .arrived) := h.swap (.inr rfl)
  have hfree : (burstConfig.entries 0).length ≤ (f₁ 0).length := by
    rw [hf₁ 0 Fin.zero_ne_one]
    decide
  obtain ⟨J₂, f₂, l, j₀, h, hlen, hfit, hJ₂, -⟩ := h.firstTick hfree (by decide) rfl
  -- tick 1: core 1 runs its job, and arrives
  have h : BurstRun 1 J₂ f₂ (fun _ => .empty) 1 (burstCore true [] (some j₁) .start)
    (burstCore true l (some j₀) .start) := (h.nextTick rfl rfl).swap (.inl rfl)
  obtain ⟨J₃, h, hJ₃⟩ := h.toRun.go (hJ₂ j₁ (hfit₁ j₁ List.mem_cons_self)) zero_le_one
  have h := (h.noRelease fun _ hm => (burstConfig_entries hm).1).close.toSelect rfl
  have h := h.own rfl (.dispatch (.none rfl nofun))
  have h : BurstRun 1 J₃ f₂ (fun _ => .empty) 0 (burstCore true l (some j₀) .start)
    (burstCore true [] (some j₁) .arrived) := h.finish.swap (.inr rfl)
  -- core 0 runs a job, and offers the others
  have hfit₃ : ∀ i ∈ j₀ :: l, (J₃ i).Fit 1 := fun i hi => zero_add (1 : ℚ) ▸ hJ₃ i (hfit i hi)
  obtain ⟨J₄, h, hJ₄⟩ := h.toRun.go (hfit₃ j₀ List.mem_cons_self) le_rfl
  have hfit₄ : ∀ i ∈ l, (J₄ i).Fit 2 := fun i hi =>
    (one_add_one_eq_two : (1 : ℚ) + 1 = 2) ▸ hJ₄ i (hfit₃ i (List.mem_cons_of_mem _ hi))
  have hl : l.length = 33 := Nat.succ.inj hlen
  have hne : l ≠ [] := List.ne_nil_of_length_pos (hl ▸ Nat.succ_pos _)
  have h := (h.noRelease fun _ hm => (burstConfig_entries hm).1).close
  have h := h.own rfl (.push (.go rfl rfl (Nat.zero_le 1)))
  have h := h.own rfl (.push (.shed rfl fun he => hne he.1))
  have h := h.own rfl (.push (.offerLock rfl))
  obtain ⟨J₅, q₅, h, hslots, hfit₅⟩ := h.offers hfit₄ rfl (le_refl maxMigrationRequests)
    (hl ▸ by decide)
  obtain ⟨r, hr⟩ : ∃ r, l[maxMigrationRequests]? = some r :=
    ⟨_, List.getElem?_eq_getElem (hl ▸ by decide)⟩
  obtain ⟨J₆, h, -⟩ := h.target hr (hfit₅ _ r le_rfl hr)
  exact ⟨J₆, f₂, q₅, l, r, j₀, j₁, h, hslots⟩

/-- Core 0 has taken a ticket that has no slot. -/
theorem exists_spins : ∃ S : Sys 2, Reachable burstConfig S ∧ (S.core 0).pc.holds 0 = {0} ∧
    S.Spins 0 ∧ (S.core 1).pc = .arrived ∧ (S.core 1).isIdle = false := by
  obtain ⟨J, f, q, l, r, j₀, j₁, h, hlen⟩ := exists_offerClaim
  set q' := Function.update q 1 ((q 1).claim ⟨r, 0⟩) with hq'
  set K := burstCore true l (some j₀) (.offerPublish 1 (q 1).tail false maxMigrationRequests) with hK
  set L := burstCore true [] (some j₁) .arrived with hL
  have hreach : Reachable burstConfig (burstSys 1 J f q' 0 K L) :=
    Lts.Reachable.snoc h.reachable (.core h.pair.unblocked claim)
  have h0 : (burstSys 1 J f q' 0 K L).core 0 = K := burstSys_core
  have h1 : (burstSys 1 J f q' 0 K L).core 1 = L := burstSys_core_of_ne Fin.zero_ne_one.symm
  have hfull : ¬ (q' 1).Free maxMigrationRequests (q 1).tail := by
    rw [hq', Function.update_self, ← hlen]
    exact Nat.lt_irrefl _
  exact ⟨_, hreach, congrArg (Pc.holds 0) (congrArg Core.pc h0), .offer (congrArg Core.pc h0) hfull,
    congrArg Core.pc h1, congrArg Core.isIdle h1⟩

end BurstRun

/-- A core with 33 jobs to offer: it spins on a full queue, holds its `rq_lock`, and
    the core that is to empty the queue waits at the barrier. -/
theorem burst_deadlocked : ∃ S : Sys 2, Reachable burstConfig S ∧
    (S.core 0).pc.holds 0 = {0} ∧ (S.core 1).pc = .arrived ∧ (S.core 1).isIdle = false ∧
    S.Deadlocked := by
  obtain ⟨S, hreach, hholds, hspins, harrived, hidle⟩ := BurstRun.exists_spins
  refine ⟨S, hreach, hholds, harrived, hidle, ⟨0, fun h0 => ?_⟩, fun c hc => .inl ?_⟩
  · rw [h0] at hholds
    exact Finset.singleton_ne_empty _ hholds.symm
  · rcases Fin.eq_zero_or_eq_succ c with rfl | ⟨d, rfl⟩
    · exact hspins
    · obtain rfl := Subsingleton.elim d 0
      exact absurd harrived hc

/-- With 32 requests in the queue the cores can go on. -/
theorem not_deadlocked_of_full : ∃ S : Sys 2,
    (S.migrationRequestQueue 1).slots.length = maxMigrationRequests ∧ ¬ S.Deadlocked := by
  obtain ⟨J, f, q, l, r, j₀, j₁, h, hlen⟩ := BurstRun.exists_offerClaim
  obtain ⟨tr, hr, hroom⟩ := h.run
  exact ⟨_, hlen, no_deadlock hr hroom⟩

end

end EeftSched

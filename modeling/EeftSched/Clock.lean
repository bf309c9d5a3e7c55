/-
  The clock of a processor does not stop, unless a core spins on a full queue: the
  other loops of `scheduler_tick`, and that of the sweep, end, also where other
  cores write the queues they walk over (`sched_core.c`, `sched_migration.c`,
  `processor.c`).

  * `Pc.rank`, `Pc.left`: the phases before a core, and what is left of its phase;
  * `CoreStep.nearer`: a step of a core brings it nearer to the end of its tick,
    or moves what it has done into a queue, where it counts less;
  * `CoreStep.left_le`: the other cores have no more to do than before;
  * `Step.distance`: so every step but the last of a tick brings its end nearer;
  * `Pass`: the steps, and the passes of the loop of `ring_buffer_enqueue`;
  * `clock_advances`: the result for runs without end.
-/
import EeftSched.Deadlock
import EeftSched.Execution
import EeftSched.Sweep
import Mathlib.Algebra.Order.BigOperators.Group.Finset
import Mathlib.Data.Prod.Lex

namespace EeftSched

open Lts

variable {n : ℕ} {K K' : Core n} {J J' : Jobs n} {j : JobId n} {c d : Fin n} {X : Ctx n}
  {cfg : Config} {S S' : Sys n} {len len' : Bool → ℕ}
  {pending pending' discard discard' shared shared' : ℕ}

/-! ## How far a core is from the end of its tick -/

/-- The phases of `scheduler_tick`, counted from its end -/
def Pc.rank : Pc n → ℕ
  | .start => 31
  | .cancel _ | .cancelQueue .. | .cancelPut .. | .cancelRunPut .. => 30
  | .sync => 29
  | .syncReload => 28
  | .modeStore _ overrun => if overrun then 23 else 27
  | .modeBody overrun => if overrun then 22 else 26
  | .lowPower => 25
  | .run => 24
  | .missPut _ | .complete => 21
  | .missFatal | .completePut _ => 20
  | .pending _ | .pendingPut .. | .pendingIns .. => 19
  | .alloc _ | .allocIns .. => 18
  | .reclaim => 17
  | .reclaimLoop | .reclaimHand _ => 16
  | .reclaimLock => 15
  | .reclaimQueue _ => 14
  | .updateDelegations => 13
  | .push => 12
  | .pushCheck => 11
  | .offerLock => 10
  | .offer .. | .offerTarget .. | .offerClaim .. | .offerPublish .. => 9
  | .future _ | .futureHand .. | .futureClaim .. | .futurePublish .. => 9
  | .process | .procLock1 _ | .procLock2 _ | .procDecide _ | .procReject _ | .procInsert _ => 8
  | .procAckClaim _ | .procAckPublish .. | .procClear _ | .procPut _ => 8
  | .select => 7
  | .dispatch _ => 6
  | .dispatched => 5
  | .procrastinate => 4
  | .dvfs => 3
  | .dpm => 2
  | .summary => 1
  | .arrived => 0

/-- What a walk over two queues has before it, at place `k` of one of them -/
def walkLeft (len : Bool → ℕ) (first replica : Bool) (k : ℕ) : ℕ :=
  len replica - k + if replica = first then len (!first) else 0

/-- The steps one message takes at most -/
def cancelCost (len : Bool → ℕ) : ℕ := 2 * (len true + len false) + 5

/-- What a core has left to do in its phase: `len` are the lengths of its queues,
    and `pending`, `discard` and `shared` those of `pending_jobs_queue`, of its
    discard list and of the discard queue.  An offer is worth more than the
    request it becomes, and a request more than its ack. -/
def Pc.left (len : Bool → ℕ) (pending discard shared : ℕ) : Pc n → ℕ
  | .cancel msgs => msgs.length * cancelCost len
  | .cancelQueue _ msgs replica k =>
    msgs.length * cancelCost len + 2 * walkLeft len true replica k + if replica then 4 else 3
  | .cancelPut _ _ msgs replica k =>
    msgs.length * cancelCost len + 2 * walkLeft len true replica k + if replica then 5 else 4
  | .cancelRunPut _ msgs => msgs.length * cancelCost len + 1
  | .pending k => 2 * (pending - k)
  | .pendingPut _ k | .pendingIns _ k => 2 * (pending - k) + 1
  | .alloc entries => 2 * entries.length
  | .allocIns _ entries => 2 * entries.length + 1
  | .reclaimLoop => 2 * discard
  | .reclaimHand _ => 2 * discard + 1
  | .reclaimQueue k => shared - k
  | .offer replica k => 16 * walkLeft len false replica k + if replica then 0 else 1
  | .offerTarget _ replica k => 16 * walkLeft len false replica (k + 1) + 15
  | .offerClaim _ _ replica k => 16 * walkLeft len false replica (k + 1) + 14
  | .offerPublish _ _ replica k => 16 * walkLeft len false replica (k + 1) + 2
  | .future entries => 16 * entries.length
  | .futureHand _ entries => 16 * entries.length + 15
  | .futureClaim _ _ entries => 16 * entries.length + 14
  | .futurePublish _ _ entries => 16 * entries.length + 2
  | .procLock1 _ => 9
  | .procLock2 _ => 8
  | .procDecide _ => 7
  | .procReject _ | .procInsert _ | .procAckClaim _ => 6
  | .procClear _ => 5
  | .procAckPublish .. | .procPut _ => 4
  | _ => 0

def Core.left (K : Core n) (shared : ℕ) : ℕ :=
  K.pc.left (fun b => (K.queue b).length) K.pendingJobsQueue.length K.discardList.length shared

theorem walkLeft_mono (h : ∀ b, len' b ≤ len b) (first replica : Bool) (k : ℕ) :
    walkLeft len' first replica k ≤ walkLeft len first replica k := by
  have h₁ := h replica
  have h₂ := h !first
  unfold walkLeft
  split_ifs <;> omega

theorem walkLeft_succ (len : Bool → ℕ) (first : Bool) {replica : Bool} {k : ℕ} (h : k < len replica) :
    walkLeft len first replica k = walkLeft len first replica (k + 1) + 1 := by
  unfold walkLeft
  split_ifs <;> omega

/-- The walk takes out what it is at. -/
theorem walkLeft_erase (first : Bool) {replica : Bool} {k : ℕ} (h : ∀ b, len' b ≤ len b)
    (hr : len' replica + 1 = len replica) (hk : k < len replica) :
    walkLeft len' first replica k + 1 ≤ walkLeft len first replica k := by
  have hother := h !first
  unfold walkLeft
  split_ifs <;> omega

/-- The walk goes on with the other queue. -/
theorem walkLeft_next (len : Bool → ℕ) {first : Bool} {k : ℕ} (h : len first ≤ k) :
    walkLeft len first first k = walkLeft len first (!first) 0 := by
  unfold walkLeft
  rw [if_pos rfl, if_neg (by cases first <;> decide)]
  omega

theorem cancelCost_mono (h : ∀ b, len' b ≤ len b) : cancelCost len' ≤ cancelCost len := by
  have h₁ := h true
  have h₂ := h false
  unfold cancelCost
  omega

/-- Shorter queues leave less to do. -/
theorem Pc.left_mono (q : Pc n) (h : ∀ b, len' b ≤ len b) (hp : pending' ≤ pending)
    (hd : discard' ≤ discard) (hs : q.holdsDiscard = true → shared' ≤ shared) :
    q.left len' pending' discard' shared' ≤ q.left len pending discard shared := by
  have hcost := fun m : ℕ => Nat.mul_le_mul_left m (cancelCost_mono h)
  have hwalk := walkLeft_mono h
  cases q with
  | cancelQueue _ msgs replica k | cancelPut _ _ msgs replica k =>
    have h₁ := hcost msgs.length
    have h₂ := hwalk true replica k
    simp only [left]
    omega
  | offer replica k =>
    have h₂ := hwalk false replica k
    simp only [left]
    omega
  | offerTarget _ replica k | offerClaim _ _ replica k | offerPublish _ _ replica k =>
    have h₂ := hwalk false replica (k + 1)
    simp only [left]
    omega
  | reclaimQueue k => exact Nat.sub_le_sub_right (hs rfl) k
  | cancel msgs => exact hcost msgs.length
  | cancelRunPut _ msgs => exact Nat.add_le_add_right (hcost msgs.length) 1
  | _ => simp only [left]; try omega

/-- A core by itself comes nearer to the end of its tick. -/
def Core.Nearer (K K' : Core n) (shared : ℕ) : Prop :=
  K'.pc.rank < K.pc.rank ∨ K'.pc.rank = K.pc.rank ∧ K'.left shared < K.left shared

namespace Core.Nearer

/-- The next phase -/
theorem next {p q : Pc n} (hp : K.pc = p) (hp' : K'.pc = q) (h : q.rank.blt p.rank = true) :
    K.Nearer K' shared := by
  refine .inl ?_
  rw [hp, hp']
  exact Nat.blt_eq ▸ h

/-- The same phase, with the queues as they are -/
theorem goto {p q : Pc n} (hp : K.pc = p) (hr : q.rank = p.rank)
    (h : q.left (fun b => (K.queue b).length) K.pendingJobsQueue.length K.discardList.length shared <
      p.left (fun b => (K.queue b).length) K.pendingJobsQueue.length K.discardList.length shared) :
    K.Nearer (K.goto q) shared := by
  refine .inr ⟨?_, ?_⟩
  · rw [hp]
    exact hr
  · unfold Core.left
    rw [hp]
    exact h

end Core.Nearer

theorem length_eraseIdx_lt {l : List (JobId n)} {k : ℕ} (h : l[k]? = some j) :
    (l.eraseIdx k).length + 1 = l.length ∧ k < l.length := by
  obtain ⟨hk, -⟩ := List.getElem?_eq_some_iff.1 h
  rw [List.length_eraseIdx_of_lt hk]
  omega

theorem Core.length_queue_setQueue (K : Core n) (a b : Bool) (l : List (JobId n)) :
    ((K.setQueue a l).queue b).length = if b = a then l.length else (K.queue b).length := by
  rw [Core.queue_setQueue]
  split_ifs <;> rfl

theorem CancelStep.nearer (hs : CancelStep K J K' J') : K.Nearer K' shared := by
  cases hs with
  | done hp => exact .next hp rfl rfl
  | lock hp =>
    refine .goto hp rfl ?_
    simp only [Pc.left, walkLeft, cancelCost, List.length_cons, Nat.succ_mul]
    simp only [Bool.not_true, ↓reduceIte]
    omega
  | keep hp hj _ =>
    refine .goto hp rfl ?_
    have hw := walkLeft_succ (fun b => (K.queue b).length) true (length_eraseIdx_lt hj).2
    simp only [Pc.left]
    omega
  | @remove msg msgs replica k j hp hj _ =>
    obtain ⟨hlen, hk⟩ := length_eraseIdx_lt hj
    let len (b : Bool) := (K.queue b).length
    let len' (b : Bool) := ((K.setQueue replica ((K.queue replica).eraseIdx k)).queue b).length
    have hr : len' replica + 1 = len replica := by
      simp only [len', Core.length_queue_setQueue, if_pos]
      exact hlen
    have hle : ∀ b, len' b ≤ len b := by
      intro b
      by_cases hb : b = replica
      · rw [hb]
        exact Nat.le_of_succ_le hr.le
      · simp only [len', Core.length_queue_setQueue, if_neg hb, len, le_refl]
    have hcost := Nat.mul_le_mul_left msgs.length (cancelCost_mono hle)
    have hwalk := walkLeft_erase true hle hr hk
    refine .inr ⟨by rw [hp]; rfl, ?_⟩
    unfold Core.left
    rw [hp]
    show msgs.length * cancelCost len' + 2 * walkLeft len' true replica k + _ <
      msgs.length * cancelCost len + 2 * walkLeft len true replica k + _
    split_ifs <;> omega
  | nextQueue hp hj =>
    refine .goto hp rfl ?_
    have hw := walkLeft_next (fun b => (K.queue b).length) (List.getElem?_eq_none_iff.1 hj)
    simp only [Bool.not_true] at hw
    simp only [Pc.left, hw, Bool.false_eq_true, ↓reduceIte]
    omega
  | running hp _ _ _ =>
    refine .inr ⟨by rw [hp]; rfl, ?_⟩
    unfold Core.left
    rw [hp]
    show _ * cancelCost (fun b => (K.queue b).length) + 1 < _
    simp only [Pc.left, Bool.false_eq_true, ↓reduceIte]
    omega
  | unlock hp _ _ =>
    refine .goto hp rfl ?_
    simp only [Pc.left, Bool.false_eq_true, ↓reduceIte]
    omega

theorem SyncStep.nearer (hs : SyncStep X K J K' J') : K.Nearer K' shared := by
  cases hs with
  | start hp =>
    refine .next hp rfl ?_
    split_ifs <;> rfl
  | @modeBody overrun hp =>
    refine .next hp rfl ?_
    cases overrun <;> rfl
  | _ => exact .next ‹K.pc = _› rfl rfl

theorem RunStep.nearer (hs : RunStep X K J K' J') : K.Nearer K' shared := by
  cases hs <;> exact .next ‹K.pc = _› rfl rfl

theorem ArrivalStep.nearer (hs : ArrivalStep X K J K' J') : K.Nearer K' shared := by
  cases hs with
  | pendingEnd hp _ => exact .next hp rfl rfl
  | missed hp hj _ _ =>
    refine .goto hp rfl ?_
    have hk := (length_eraseIdx_lt hj).2
    simp only [Pc.left]
    omega
  | drop hp hj _ _ =>
    refine .inr ⟨by rw [hp]; rfl, ?_⟩
    have hk := length_eraseIdx_lt hj
    unfold Core.left
    rw [hp]
    simp only [Pc.left]
    omega
  | due hp hj _ =>
    refine .inr ⟨by rw [hp]; rfl, ?_⟩
    have hk := length_eraseIdx_lt hj
    unfold Core.left
    rw [hp]
    simp only [Pc.left]
    omega
  | pendingIns hp =>
    refine .inr ⟨by rw [hp]; rfl, ?_⟩
    unfold Core.left
    rw [hp]
    simp only [Core.goto, Pc.left, Core.addArrival_pending]
    omega
  | allocEnd hp => exact .next hp rfl rfl
  | allocSkip hp _ =>
    refine .goto hp rfl ?_
    simp only [Pc.left, List.length_cons]
    omega
  | allocDelegated hp _ _ =>
    refine .inr ⟨by rw [hp]; rfl, ?_⟩
    unfold Core.left
    rw [hp]
    simp only [Core.goto, Pc.left, List.length_cons]
    omega
  | allocIns hp =>
    refine .inr ⟨by rw [hp]; rfl, ?_⟩
    unfold Core.left
    rw [hp]
    simp only [Core.goto, Pc.left]
    omega

theorem Core.addByKind_discardList (K : Core n) (J : Jobs n) (j : JobId n) :
    (K.addByKind J j).discardList = K.discardList := by
  unfold addByKind setQueue
  split <;> rfl

theorem ReclaimStep.nearer (hs : ReclaimStep K J K' J') : K.Nearer K' shared := by
  cases hs with
  | lock hp => exact .next hp rfl rfl
  | pop hp hd =>
    refine .inr ⟨by rw [hp]; rfl, ?_⟩
    unfold Core.left
    rw [hp, hd]
    simp only [Pc.left, List.length_cons]
    omega
  | empty hp _ => exact .next hp rfl rfl
  | accommodate hp =>
    refine .inr ⟨by rw [hp]; rfl, ?_⟩
    unfold Core.left
    rw [hp]
    simp only [Pc.left, Core.addByKind_discardList]
    omega
  | leave hp _ =>
    refine .goto hp rfl ?_
    simp only [Pc.left]
    omega

theorem PushStep.nearer (hs : PushStep X K J K' J') : K.Nearer K' shared := by
  cases hs with
  | nextQueue hp hk =>
    refine .goto hp rfl ?_
    have hw := walkLeft_next (fun b => (K.queue b).length) (List.getElem?_eq_none_iff.1 hk)
    simp only [Bool.not_false] at hw
    simp only [Pc.left, hw, Bool.false_eq_true, ↓reduceIte]
    omega
  | offerSkip hp hj | offerTaken hp hj _ =>
    refine .goto hp rfl ?_
    have hw := walkLeft_succ (fun b => (K.queue b).length) false (length_eraseIdx_lt hj).2
    simp only [Pc.left]
    omega
  | futureSkip hp =>
    refine .goto hp rfl ?_
    simp only [Pc.left, List.length_cons]
    omega
  | _ => exact .next ‹K.pc = _› rfl rfl

theorem ProcessStep.nearer (hs : ProcessStep c K J K' J') : K.Nearer K' shared := by
  cases hs with
  | lock1 hp =>
    split_ifs
    · exact .goto hp rfl (show 7 < 9 from by omega)
    · exact .goto hp rfl (Nat.lt_succ_self 8)
  | lock2 hp => exact .goto hp rfl (Nat.lt_succ_self 7)
  | insertDiscard hp _ =>
    refine .inr ⟨by rw [hp]; rfl, ?_⟩
    unfold Core.left
    rw [hp]
    exact Nat.lt_succ_self 5
  | insert hp _ =>
    refine .inr ⟨by rw [hp]; rfl, ?_⟩
    unfold Core.left
    rw [hp]
    exact Nat.lt_succ_self 5

theorem DispatchStep.nearer (hs : DispatchStep K J K' J') : K.Nearer K' shared := by
  cases hs <;> exact .next ‹K.pc = _› rfl rfl

theorem PowerStep.nearer (hs : PowerStep X K J K' J') : K.Nearer K' shared := by
  cases hs with
  | begin hp =>
    refine .next hp rfl ?_
    split_ifs <;> rfl
  | procrastinate hp _ _ _ _ => exact .next (q := .summary) hp rfl rfl
  | _ => exact .next ‹K.pc = _› rfl rfl

/-- **A core by itself comes nearer to the end of its tick with every step.** -/
theorem LocalStep.nearer (hs : LocalStep X K J K' J') : K.Nearer K' shared := by
  cases hs with
  | cancel hs => exact hs.nearer
  | sync hs => exact hs.nearer
  | run hs => exact hs.nearer
  | arrival hs => exact hs.nearer
  | reclaim hs => exact hs.nearer
  | push hs => exact hs.nearer
  | process hs => exact hs.nearer
  | dispatch hs => exact hs.nearer
  | power hs => exact hs.nearer

/-! ## All cores -/

/-- The requests and the acks in the queues between the cores -/
def Sys.traffic (S : Sys n) : ℕ :=
  10 * ∑ d, (S.migrationRequestQueue d).slots.length + ∑ d, (S.delegationAckQueue d).slots.length

/-- Core `c` comes nearer to the end of its tick. -/
def Sys.Nearer (S : Sys n) (c : Fin n) (S' : Sys n) : Prop :=
  (S'.core c).pc.rank < (S.core c).pc.rank ∨ (S'.core c).pc.rank = (S.core c).pc.rank ∧
    (S'.core c).left S'.discardQueue.length + S'.traffic <
      (S.core c).left S.discardQueue.length + S.traffic

theorem Sys.Nearer.of (hself : S'.core c = K') (hd : S'.discardQueue = S.discardQueue)
    (ht : S'.traffic = S.traffic) (h : (S.core c).Nearer K' S.discardQueue.length) :
    S.Nearer c S' := by
  unfold Sys.Nearer
  rw [hself, hd, ht]
  exact h.imp_right fun h => ⟨h.1, Nat.add_lt_add_right h.2 _⟩

/-- The same phase; what the core has done or put into a queue counts. -/
theorem Sys.Nearer.same {p q : Pc n} (hp : (S.core c).pc = p) (hself : S'.core c = K') (hq : K'.pc = q)
    (hr : q.rank = p.rank)
    (h : q.left (fun b => (K'.queue b).length) K'.pendingJobsQueue.length K'.discardList.length
        S'.discardQueue.length + S'.traffic <
      p.left (fun b => ((S.core c).queue b).length) (S.core c).pendingJobsQueue.length
        (S.core c).discardList.length S.discardQueue.length + S.traffic) : S.Nearer c S' := by
  refine .inr ?_
  unfold Core.left
  rw [hself, hp, hq]
  exact ⟨hr, h⟩

theorem sum_le_of_ne {f g : Fin n → ℕ} (h : ∀ d ≠ c, g d ≤ f d) :
    ∑ d, g d + f c ≤ ∑ d, f d + g c := by
  have hle : ∑ d ∈ Finset.univ.erase c, g d ≤ ∑ d ∈ Finset.univ.erase c, f d :=
    Finset.sum_le_sum fun d hd => h d (Finset.ne_of_mem_erase hd)
  rw [← Finset.add_sum_erase _ g (Finset.mem_univ c), ← Finset.add_sum_erase _ f (Finset.mem_univ c)]
  omega

theorem sum_slots_update {α : Type} (f : Fin n → TicketQueue α) (d : Fin n) (q : TicketQueue α) :
    ∑ e, (Function.update f d q e).slots.length + (f d).slots.length ≤
      ∑ e, (f e).slots.length + q.slots.length := by
  have h := sum_le_of_ne (c := d) (f := fun e => (f e).slots.length)
    (g := fun e => (Function.update f d q e).slots.length)
    fun e he => by rw [Function.update_of_ne he]
  simpa only [Function.update_self] using h

theorem PutStep.nearer (hs : PutStep K j K') : K.Nearer K' shared := by
  cases hs with
  | cancelPut hp =>
    refine .goto hp rfl ?_
    simp only [Pc.left]
    split_ifs <;> omega
  | cancelRunPut hp => exact .goto hp rfl (Nat.lt_succ_self _)
  | pendingPut hp => exact .goto hp rfl (Nat.lt_succ_self _)
  | futurePut hp => exact .goto hp rfl (Nat.lt_add_of_pos_right (Nat.succ_pos 14))
  | _ => exact .next ‹K.pc = _› rfl rfl

theorem ArriveStep.nearer (hs : ArriveStep cfg c S S') : S.Nearer c S' := by
  cases hs with
  | @modeStore level overrun hp =>
    refine .of (Function.update_self ..) rfl rfl (.next hp rfl ?_)
    cases overrun <;> rfl
  | complete hp _ => exact .of (Function.update_self ..) rfl rfl (.next hp rfl rfl)
  | missFatal hp => exact .of (Function.update_self ..) rfl rfl (.next hp rfl rfl)
  | @put j K' hput =>
    obtain ⟨f, g, he⟩ := (S.setCore c K').putJobRef_eq (some c) j
    rw [he]
    exact .of (Function.update_self ..) rfl rfl hput.nearer
  | create hp _ _ hj =>
    obtain ⟨-, f, g, rfl⟩ := Sys.takeFree_eq_some hj
    refine .of (Function.update_self ..) rfl rfl (.inr ⟨by rw [hp]; rfl, ?_⟩)
    unfold Core.left
    rw [hp]
    simp only [Core.goto, Pc.left, List.length_cons]
    omega
  | exhausted hp _ _ _ =>
    refine .of (Function.update_self ..) rfl rfl (.inr ⟨by rw [hp]; rfl, ?_⟩)
    unfold Core.left
    rw [hp]
    simp only [Core.goto, Pc.left, List.length_cons]
    omega

/-- A request is worth 10. -/
theorem traffic_request {q : TicketQueue (MigrationRequest n)} (d : Fin n)
    (hreq : S'.migrationRequestQueue = Function.update S.migrationRequestQueue d q)
    (hack : S'.delegationAckQueue = S.delegationAckQueue) :
    S'.traffic + 10 * (S.migrationRequestQueue d).slots.length ≤ S.traffic + 10 * q.slots.length := by
  have h := sum_slots_update S.migrationRequestQueue d q
  unfold Sys.traffic
  rw [hreq, hack]
  omega

theorem traffic_ack {q : TicketQueue DelegationAck} (d : Fin n)
    (hreq : S'.migrationRequestQueue = S.migrationRequestQueue)
    (hack : S'.delegationAckQueue = Function.update S.delegationAckQueue d q) :
    S'.traffic + (S.delegationAckQueue d).slots.length ≤ S.traffic + q.slots.length := by
  have h := sum_slots_update S.delegationAckQueue d q
  unfold Sys.traffic
  rw [hreq, hack]
  omega

/-- The same phase, and a request queue changes. -/
theorem Sys.Nearer.request {p q : Pc n} {rq : TicketQueue (MigrationRequest n)} (d : Fin n)
    (hp : (S.core c).pc = p) (hself : S'.core c = K') (hq : K'.pc = q) (hr : q.rank = p.rank)
    (hreq : S'.migrationRequestQueue = Function.update S.migrationRequestQueue d rq)
    (hack : S'.delegationAckQueue = S.delegationAckQueue)
    (h : q.left (fun b => (K'.queue b).length) K'.pendingJobsQueue.length K'.discardList.length
        S'.discardQueue.length + 10 * rq.slots.length <
      p.left (fun b => ((S.core c).queue b).length) (S.core c).pendingJobsQueue.length
        (S.core c).discardList.length S.discardQueue.length +
          10 * (S.migrationRequestQueue d).slots.length) : S.Nearer c S' := by
  have ht := traffic_request d hreq hack
  exact .same hp hself hq hr (by omega)

/-- The same phase, and an ack queue changes. -/
theorem Sys.Nearer.ack {p q : Pc n} {aq : TicketQueue DelegationAck} (d : Fin n)
    (hp : (S.core c).pc = p) (hself : S'.core c = K') (hq : K'.pc = q) (hr : q.rank = p.rank)
    (hreq : S'.migrationRequestQueue = S.migrationRequestQueue)
    (hack : S'.delegationAckQueue = Function.update S.delegationAckQueue d aq)
    (h : q.left (fun b => (K'.queue b).length) K'.pendingJobsQueue.length K'.discardList.length
        S'.discardQueue.length + aq.slots.length <
      p.left (fun b => ((S.core c).queue b).length) (S.core c).pendingJobsQueue.length
        (S.core c).discardList.length S.discardQueue.length +
          (S.delegationAckQueue d).slots.length) : S.Nearer c S' := by
  have ht := traffic_ack d hreq hack
  exact .same hp hself hq hr (by omega)

theorem DiscardStep.nearer (hs : DiscardStep cfg c S S') : S.Nearer c S' := by
  cases hs with
  | discard hp _ _ =>
    refine .same hp (Function.update_self ..) rfl rfl ?_
    exact Nat.add_lt_add_right (Nat.lt_succ_self _) _
  | lock hp _ => exact .of (Function.update_self ..) rfl rfl (.next hp rfl rfl)
  | keep hp hj =>
    refine .of (Function.update_self ..) rfl rfl (.goto hp rfl ?_)
    have hk := (length_eraseIdx_lt hj).2
    simp only [Pc.left]
    omega
  | @accommodate k j hp hj =>
    refine .same hp (Function.update_self ..) rfl rfl ?_
    have hk := length_eraseIdx_lt hj
    refine Nat.add_lt_add_right ?_ _
    show (S.discardQueue.eraseIdx k).length - k < S.discardQueue.length - k
    omega
  | done hp _ =>
    refine .of (Function.update_self ..) rfl rfl (.next hp rfl ?_)
    split_ifs <;> rfl
  | ack hp hq =>
    refine .ack c hp (Function.update_self ..) hp rfl rfl rfl ?_
    rw [TicketQueue.length_tryDequeue hq]
    exact Nat.add_lt_add_left (Nat.lt_succ_self _) _
  | acked hp _ => exact .of (Function.update_self ..) rfl rfl (.next hp rfl rfl)

theorem Core.queue_goto (K : Core n) (q : Pc n) (b : Bool) : (K.goto q).queue b = K.queue b := by
  cases b <;> rfl

theorem OfferStep.nearer (hs : OfferStep cfg c S S') : S.Nearer c S' := by
  cases hs with
  | exchange hp hj _ _ =>
    refine .of (Function.update_self ..) rfl rfl (.goto hp rfl ?_)
    have hw := walkLeft_succ (fun b => ((S.core c).queue b).length) false
      (length_eraseIdx_lt hj).2
    simp only [Pc.left]
    omega
  | withdraw hp =>
    refine .of (Function.update_self ..) rfl rfl (.goto hp rfl ?_)
    simp only [Pc.left]
    split_ifs <;> omega
  | getRef hp _ => exact .of (Function.update_self ..) rfl rfl (.goto hp rfl (Nat.lt_succ_self _))
  | @claim j dest replica k hp =>
    refine .request dest hp (Function.update_self ..) rfl rfl rfl rfl ?_
    rw [TicketQueue.length_claim]
    simp only [Core.goto_pc, Pc.left, Core.queue_goto]
    omega
  | @publish dest t replica k hp _ =>
    refine .request dest hp (Function.update_self ..) rfl rfl rfl rfl ?_
    rw [TicketQueue.length_publish]
    simp only [Core.goto_pc, Pc.left, Core.queue_goto]
    split_ifs <;> omega
  | createFuture hp _ hj =>
    obtain ⟨-, f, g, rfl⟩ := Sys.takeFree_eq_some hj
    refine .of (Function.update_self ..) rfl rfl (.goto hp rfl ?_)
    simp only [Pc.left, List.length_cons]
    omega
  | sendFuture hp _ _ =>
    refine .of (Function.update_self ..) rfl rfl (.inr ⟨by rw [hp]; rfl, ?_⟩)
    unfold Core.left
    rw [hp]
    exact Nat.lt_succ_self _
  | @claimFuture j dest ms hp =>
    refine .request dest hp (Function.update_self ..) rfl rfl rfl rfl ?_
    rw [TicketQueue.length_claim]
    simp only [Core.goto_pc, Pc.left]
    omega
  | @publishFuture dest t ms hp _ =>
    refine .request dest hp (Function.update_self ..) rfl rfl rfl rfl ?_
    rw [TicketQueue.length_publish]
    exact Nat.add_lt_add_right (Nat.lt_add_of_pos_right (Nat.succ_pos 1)) _

theorem RequestStep.nearer (hs : RequestStep cfg c S S') : S.Nearer c S' := by
  cases hs with
  | dequeue hp hq =>
    refine .request c hp (Function.update_self ..) rfl rfl rfl rfl ?_
    rw [TicketQueue.length_tryDequeue hq]
    simp only [Core.goto_pc, Pc.left]
    omega
  | done hp _ => exact .of (Function.update_self ..) rfl rfl (.next hp rfl rfl)
  | reject hp => exact .of (Function.update_self ..) rfl rfl (.goto hp rfl (Nat.lt_succ_self 6))
  | acceptFuture hp _ =>
    refine .of (Function.update_self ..) rfl rfl (.inr ⟨by rw [hp]; rfl, ?_⟩)
    unfold Core.left
    rw [hp]
    exact Nat.lt_succ_self 6
  | accept hp _ _ =>
    refine .same hp (Function.update_self ..) rfl rfl ?_
    exact Nat.add_lt_add_right (Nat.lt_succ_self 6) _
  | @ackClaim rq hp =>
    refine .ack rq.fromCore hp (Function.update_self ..) rfl rfl rfl rfl ?_
    rw [TicketQueue.length_claim]
    simp only [Core.goto_pc, Pc.left]
    omega
  | @ackPublish rq t hp _ =>
    refine .ack rq.fromCore hp (Function.update_self ..) rfl rfl rfl rfl ?_
    rw [TicketQueue.length_publish]
    exact Nat.add_lt_add_right (Nat.succ_pos 3) _
  | clear hp => exact .of (Function.update_self ..) rfl rfl (.goto hp rfl (Nat.lt_succ_self 4))
  | @putReject rq hp =>
    obtain ⟨f, g, he⟩ := (S.goto c .process).putJobRef_eq (some c) rq.job
    rw [he]
    exact .of (Function.update_self ..) rfl rfl (.goto hp rfl (Nat.succ_pos 5))
  | @putAccept rq hp =>
    obtain ⟨f, g, he⟩ := ((S.setJob rq.job { S.job rq.job with
      nextMigrationEligibleTick := S.systemTime + jobMigrationCooldownTicks }).goto c
        .process).putJobRef_eq (some c) rq.job
    rw [he]
    exact .of (Function.update_self ..) rfl rfl (.goto hp rfl (Nat.succ_pos 3))

theorem CoreStep.nearer (hs : CoreStep cfg c S S') : S.Nearer c S' := by
  cases hs with
  | own hs he =>
    rw [he]
    exact .of (Function.update_self ..) rfl rfl hs.nearer
  | arrive hs => exact hs.nearer
  | discard hs => exact hs.nearer
  | offer hs => exact hs.nearer
  | request hs => exact hs.nearer

/-- The discard queue grows only when nobody walks over it. -/
theorem CoreStep.timerFrame (hs : CoreStep cfg c S S') : S'.timer = S.timer ∧
    ∀ d, (S.core d).pc.holdsDiscard = true → S'.discardQueue.length ≤ S.discardQueue.length := by
  cases hs with
  | own _ he =>
    rw [he]
    exact ⟨rfl, fun _ _ => le_rfl⟩
  | arrive hs =>
    cases hs with
    | @put j K' _ =>
      obtain ⟨f, g, he⟩ := (S.setCore c K').putJobRef_eq (some c) j
      rw [he]
      exact ⟨rfl, fun _ _ => le_rfl⟩
    | create _ _ _ hj =>
      obtain ⟨-, f, g, rfl⟩ := Sys.takeFree_eq_some hj
      exact ⟨rfl, fun _ _ => le_rfl⟩
    | _ => exact ⟨rfl, fun _ _ => le_rfl⟩
  | discard hs =>
    cases hs with
    | discard _ _ hl => exact ⟨rfl, fun d hd => (Bool.false_ne_true ((hl.1 d).symm.trans hd)).elim⟩
    | accommodate _ _ => exact ⟨rfl, fun _ _ => List.length_eraseIdx_le ..⟩
    | _ => exact ⟨rfl, fun _ _ => le_rfl⟩
  | offer hs =>
    cases hs with
    | createFuture _ _ hj =>
      obtain ⟨-, f, g, rfl⟩ := Sys.takeFree_eq_some hj
      exact ⟨rfl, fun _ _ => le_rfl⟩
    | _ => exact ⟨rfl, fun _ _ => le_rfl⟩
  | request hs =>
    cases hs with
    | accept _ _ _ => exact ⟨rfl, fun _ _ => List.length_erase_le⟩
    | @putReject rq _ =>
      obtain ⟨f, g, he⟩ := (S.goto c .process).putJobRef_eq (some c) rq.job
      rw [he]
      exact ⟨rfl, fun _ _ => le_rfl⟩
    | @putAccept rq _ =>
      obtain ⟨f, g, he⟩ := ((S.setJob rq.job { S.job rq.job with
        nextMigrationEligibleTick := S.systemTime + jobMigrationCooldownTicks }).goto c
          .process).putJobRef_eq (some c) rq.job
      rw [he]
      exact ⟨rfl, fun _ _ => le_rfl⟩
    | _ => exact ⟨rfl, fun _ _ => le_rfl⟩

/-- Another core has no more to do than before. -/
theorem CoreStep.left_le (hs : CoreStep cfg c S S') (hi : Inv S) (hd : d ≠ c) :
    (S'.core d).left S'.discardQueue.length ≤ (S.core d).left S.discardQueue.length := by
  have he := hs.elsewhere hi hd
  unfold Core.left
  rw [he.pc]
  refine Pc.left_mono _ (fun b => (he.queue b).length_le) ?_ ?_ (hs.timerFrame.2 d)
  · rcases he.core with hc | ⟨rq, -, -, -, hc⟩ <;> rw [hc]
    exact List.length_erase_le
  · rcases he.core with hc | ⟨rq, -, -, -, hc⟩ <;> rw [hc]
    exact List.length_erase_le

/-! ## The processor -/

def TimerPc.rank : TimerPc n → ℕ
  | .idle => 1
  | _ => 0

def TimerPc.left (shared : ℕ) : TimerPc n → ℕ
  | .idle => 0
  | .sweep k => 2 * (shared - k)
  | .sweepPut _ k => 2 * (shared - k) + 1

def Sys.rank (S : Sys n) : ℕ := ∑ d, (S.core d).pc.rank + S.timer.rank

def Sys.left (S : Sys n) : ℕ :=
  ∑ d, (S.core d).left S.discardQueue.length + S.traffic + S.timer.left S.discardQueue.length

/-- The phases left, and then what is left in them -/
def Sys.distance (S : Sys n) : ℕ ×ₗ ℕ := toLex (S.rank, S.left)

theorem Sys.distance_lt (h : S'.rank < S.rank ∨ S'.rank = S.rank ∧ S'.left < S.left) :
    S'.distance < S.distance := by
  rwa [distance, distance, Prod.Lex.toLex_lt_toLex]

/-- **Every step brings the end of the tick nearer**, unless it is the end. -/
theorem Step.distance {a : Label n} (hs : Step cfg S a S') (hi : Inv S) :
    S'.systemTime = S.systemTime + 1 ∨ S'.distance < S.distance := by
  cases hs with
  | @core c _ _ hs =>
    refine .inr (Sys.distance_lt ?_)
    have htimer := hs.timerFrame.1
    have hidle : S.timer = .idle := by
      by_contra hne
      exact hs.not_arrived hi (hi.timer hne c)
    have hpc : ∀ d ≠ c, (S'.core d).pc.rank = (S.core d).pc.rank := fun d hd => by
      rw [(hs.elsewhere hi hd).pc]
    have hrank := sum_le_of_ne fun d hd => (hpc d hd).le
    have hrank' := sum_le_of_ne fun d hd => (hpc d hd).ge
    have hleft := sum_le_of_ne fun d hd => hs.left_le (d := d) hi hd
    have hzero : ∀ k, (TimerPc.idle (n := n)).left k = 0 := fun _ => rfl
    unfold Sys.rank Sys.left
    rw [htimer, hidle, hzero, hzero]
    rcases hs.nearer with hlt | ⟨heq, hlt⟩
    · exact .inl (by omega)
    · exact .inr ⟨by omega, by omega⟩
  | timer hs =>
    cases hs with
    | sweep ht _ =>
      refine .inr (Sys.distance_lt (.inl ?_))
      unfold Sys.rank
      rw [ht]
      exact Nat.lt_succ_self _
    | keep ht hj _ =>
      have hk := (length_eraseIdx_lt hj).2
      refine .inr (Sys.distance_lt (.inr ⟨by unfold Sys.rank; rw [ht]; rfl, ?_⟩))
      unfold Sys.left
      rw [ht]
      refine Nat.add_lt_add_left ?_ _
      simp only [TimerPc.left]
      omega
    | @expire k j ht hj _ =>
      have hk := length_eraseIdx_lt hj
      have hle : ∀ d, (S.core d).left (S.discardQueue.eraseIdx k).length ≤
          (S.core d).left S.discardQueue.length := fun d =>
        Pc.left_mono _ (fun _ => le_rfl) le_rfl le_rfl fun _ => List.length_eraseIdx_le ..
      refine .inr (Sys.distance_lt (.inr ⟨by unfold Sys.rank; rw [ht]; rfl, ?_⟩))
      unfold Sys.left
      rw [ht]
      refine Nat.add_lt_add_of_le_of_lt (Nat.add_le_add_right (Finset.sum_le_sum fun d _ => hle d) _) ?_
      simp only [TimerPc.left]
      omega
    | @put k j ht =>
      obtain ⟨f, g, he⟩ := ({ S with timer := .sweep k } : Sys n).putJobRef_eq none j
      rw [he]
      refine .inr (Sys.distance_lt (.inr ⟨by unfold Sys.rank; rw [ht]; rfl, ?_⟩))
      unfold Sys.left
      rw [ht]
      exact Nat.add_lt_add_left (Nat.lt_succ_self _) _
    | advance _ _ _ _ => exact .inl rfl

/-! ## Where a core spins -/

/-- A core has a completion message to enqueue. -/
def Pc.completes : Pc n → ℕ
  | .complete => 1
  | _ => 0

/-- A call of `ring_buffer_enqueue` of the core finds no slot.  What the other cores
    have to enqueue may be before the completion message of this one. -/
inductive Sys.NoSlot (S : Sys n) (c : Fin n) : Prop
  | spins (h : S.Spins c)
  | complete (h : (S.core c).pc = .complete)
      (hf : messageQueueSize < S.outgoing.length + ∑ d, (S.core d).pc.completes)

/-- A step of the processor, or one pass of the loop of `ring_buffer_enqueue`,
    which changes nothing -/
inductive Pass (cfg : Config) (S : Sys n) : Label n → Sys n → Prop
  | step {a : Label n} {S' : Sys n} (hs : Step cfg S a S') : Pass cfg S a S'
  | spin {c : Fin n} (h : S.NoSlot c) : Pass cfg S (.core c) S

/-- A core may still complete a job in this tick. -/
def Pc.mayComplete (q : Pc n) : ℕ := if 21 ≤ q.rank then 1 else 0

theorem Pc.completes_le (q : Pc n) : q.completes ≤ q.mayComplete := by
  cases q with
  | complete => exact le_rfl
  | _ => exact Nat.zero_le _

/-- A core completes once in a tick. -/
theorem CoreStep.mayComplete (hs : CoreStep cfg c S S') :
    S'.outgoing.length + (S'.core c).pc.mayComplete ≤ S.outgoing.length + (S.core c).pc.mayComplete := by
  have hrank : (S'.core c).pc.rank ≤ (S.core c).pc.rank := by
    rcases hs.nearer with hlt | ⟨heq, -⟩
    · exact hlt.le
    · exact heq.le
  unfold Pc.mayComplete
  rcases hs.outgoing_cases with heq | ⟨j, hp, -, hp', heq⟩
  · rw [heq]
    split_ifs <;> omega
  · rw [heq, hp, hp', List.length_append]
    exact le_rfl

/-- There is room for the messages of a tick. -/
theorem Reachable.outgoing_le (hn : n ≤ messageQueueSize) (h : Reachable cfg S) :
    S.outgoing.length + ∑ d, (S.core d).pc.mayComplete ≤ n := by
  obtain ⟨tr, h⟩ := h
  have hall : ∀ f : Fin n → Core n, (∀ d, (f d).pc = .start) → ∑ d, (f d).pc.mayComplete = n := by
    intro f hf
    rw [Finset.sum_congr rfl fun d _ => congrArg Pc.mayComplete (hf d)]
    simp [Pc.mayComplete, Pc.rank]
  induction h with
  | nil =>
    rw [hall (Sys.init n).core fun _ => rfl]
    exact (Nat.zero_add n).le
  | @snoc tr T a U hr hs ih =>
    have hi := Reachable.inv ⟨_, hr⟩
    cases hs with
    | @core c _ _ hs =>
      have hself := hs.mayComplete
      have hsum := sum_le_of_ne (c := c) (f := fun d => (T.core d).pc.mayComplete)
        (g := fun d => (U.core d).pc.mayComplete) fun d hd => by rw [(hs.elsewhere hi hd).pc]
      omega
    | timer hs =>
      cases hs with
      | advance ht _ _ _ =>
        have hdrop : (T.outgoing.drop messageQueueSize).length = 0 := by
          rw [List.length_drop]
          omega
        dsimp only
        rw [hdrop, hall (fun d => (T.core d).goto .start) fun _ => rfl]
        exact (Nat.zero_add n).le
      | @put k j ht =>
        obtain ⟨f, g, he⟩ := ({ T with timer := .sweep k } : Sys n).putJobRef_eq none j
        rw [he]
        exact ih
      | _ => exact ih

/-- With slots for all tickets, every core goes on. -/
theorem Reachable.not_noSlot (hn : n ≤ messageQueueSize) (h : Reachable cfg S) (ht : S.Tickets) (c : Fin n) :
    ¬ S.NoSlot c := by
  rintro (hspins | ⟨-, hfull⟩)
  · exact ht.not_spins c hspins
  · have hle := h.outgoing_le hn
    have hsum : ∑ d, (S.core d).pc.completes ≤ ∑ d, (S.core d).pc.mayComplete :=
      Finset.sum_le_sum fun d _ => Pc.completes_le _
    omega

/-! ## Runs without end -/

variable {run : ℕ → Sys n} {lab : ℕ → Label n}

theorem Pass.reachable {a : Label n} (hs : Pass cfg S a S') (h : Reachable cfg S) : Reachable cfg S' := by
  cases hs with
  | step hs => exact Lts.Reachable.snoc h hs
  | spin => exact h

theorem reachable_of_passes (h : Reachable cfg (run 0)) (hrun : ∀ i, Pass cfg (run i) (lab i) (run (i + 1)))
    (i : ℕ) : Reachable cfg (run i) := by
  induction i with
  | zero => exact h
  | succ i ih => exact (hrun i).reachable ih

/-- In a run in which the ticks stay below a bound, a core spins in the end, and
    nothing else happens. -/
theorem spins_of_bound (h : Reachable cfg (run 0)) (hrun : ∀ i, Pass cfg (run i) (lab i) (run (i + 1)))
    {bound : ℕ} (hbound : ∀ i, (run i).systemTime ≤ bound) :
    ∃ i, ∀ k ≥ i, (∃ c, lab k = .core c ∧ (run k).NoSlot c ∧ run (k + 1) = run k) ∧ run k = run i := by
  refine eventually_stutters (r := (· < ·)) wellFounded_lt
    (f := fun S : Sys n => toLex (bound - S.systemTime, S.distance)) (fun k hk => ?_) fun k => ?_
  · obtain ⟨c, -, -, heq⟩ := hk
    exact heq
  have hi := (reachable_of_passes h hrun k).inv
  have hle := hbound (k + 1)
  generalize hS : run k = S at hi ⊢
  generalize hS' : run (k + 1) = S' at hle ⊢
  generalize ha : lab k = a
  have hpass := hrun k
  rw [hS, hS', ha] at hpass
  cases hpass with
  | spin hc => exact .inl ⟨_, rfl, hc, rfl⟩
  | step hs =>
    right
    rw [Prod.Lex.toLex_lt_toLex]
    have hmono := hs.systemTime_le
    rcases hs.distance hi with hadv | hlt
    · exact .inl (by omega)
    · rcases hmono.eq_or_lt with heq | hlt'
      · exact .inr ⟨by rw [heq], hlt⟩
      · exact .inl (by omega)

/-! ## A job in every tick -/

/-- Two cores; the task of core 0 is released in every tick, and takes one. -/
def beatConfig : Config where
  maxCriticalityLevels := 1
  maxTasks := 1
  systemTasks := [shortTask 1 1]
  allocationMap := [handAlloc 1 0 1]
  procId := 0
  enableEcc := false
  enableProcrastination := false
  enableDvfs := false
  enableDpm := false

/-- The core of the task, before the release -/
def freeCore (dp : Bool) : Core 2 := { Core.init 2 with decisionPoint := dp }

/-- The core, with the job that runs -/
def beatCore (j : JobId 2) : Core 2 :=
  { Core.init 2 with runningJob := some j, isIdle := false, decisionPoint := true }

abbrev BeatRun (start : Sys 2) (time : ℕ) (J : Jobs 2) (f : Fin 2 → List (JobId 2))
    (o : List CompletionMessage) (c : Fin 2) (K L : Core 2) : Prop :=
  PairRun beatConfig OffersInRoom start time J f (fun _ => .empty) (fun _ => .empty) o c K L

/-- The record of a job of the core that completes in the tick `time` -/
structure JobRec.Due (r : JobRec) (time : ℕ) : Prop where
  deadline : time ≤ r.actualDeadline
  acet : r.acet = 1
  executed : r.executedTime = 0
  refcount : r.refcount = 1

variable {start S : Sys 2} {time : ℕ} {J : Jobs 2} {f : Fin 2 → List (JobId 2)}
  {o : List CompletionMessage} {dp : Bool} {j : JobId 2} {l : List (JobId 2)}

namespace BeatRun

/-- The release, and what follows it up to the barrier -/
theorem release (h : BeatRun start time J f o 0 ((freeCore dp).goto (.alloc (beatConfig.entries 0)))
      ((Core.init 2).goto .start)) (hf : f 0 = j :: l) :
    ∃ J', BeatRun start time J' (Function.update f 0 l) o 0 ((beatCore j).goto .arrived)
      ((Core.init 2).goto .start) ∧ (J' j).Due (time + 1) := by
  have hP : OffersInRoom (pairSys time J f (fun _ => .empty) (fun _ => .empty) o 0
      ((freeCore dp).goto (.alloc (beatConfig.entries 0))) ((Core.init 2).goto .start)) (.core 0) :=
    .of_none (congrArg (Pc.offersTo ∘ Core.pc) pairSys_core)
  set r := arrivedJob (0 : Fin 2) time (freeCore dp).localCriticalityLevel (handAlloc 1 0 1) (shortTask 1 1) 1
  have hm : beatConfig.findTaskById 1 = some (shortTask 1 1) ∧ (shortTask 1 1).period ≠ 0 ∧
      time % (shortTask 1 1).period = 0 := ⟨rfl, one_ne_zero, Nat.mod_one _⟩
  have h := PairRun.create (m := handAlloc 1 0 1) h hP hm rfl hf rfl le_rfl 1
  have hself : (((J.set j r).set j r.link) j) = r.link := by rw [Jobs.set, Function.update_self]
  have h := (h.close rfl rfl).own rfl (.push (.skip rfl))
  have h := (h.processed rfl).dispatch rfl rfl rfl (by rw [hself]; rfl)
  refine ⟨_, h.finish, ?_⟩
  rw [Jobs.set, Function.update_self, hself]
  exact ⟨le_rfl, rfl, rfl, rfl⟩

/-- The tick of the other core, which has nothing to do, and the timer -/
theorem turn {K : Core 2} (h : BeatRun start time J f o 0 (K.goto .arrived) ((Core.init 2).goto .start)) :
    ∃ o', BeatRun start (time + 1) J f o' 0 (K.goto .start) ((Core.init 2).goto .start) := by
  have h : BeatRun start time J f o 1 ((Core.init 2).goto .start) (K.goto .arrived) :=
    h.swap (fun _ => rfl) rfl
  have h := ((h.toRun rfl rfl).idle rfl).pendingEnd nofun
  have h := (h.close rfl rfl).own rfl (.push (.skip rfl))
  have h := ((h.processed rfl).stay rfl rfl).finish
  have h : BeatRun start time J f o 0 (K.goto .arrived) ((Core.init 2).goto .arrived) :=
    h.swap (fun _ => rfl) rfl
  exact ⟨_, h.nextTick⟩

/-- **One tick**: the job completes, and the next one starts. -/
theorem tick (h : BeatRun start time J f o 0 ((beatCore j).goto .start) ((Core.init 2).goto .start))
    (hj : (J j).Due time) (h0 : j.1 = 0) :
    ∃ J' f' o', BeatRun start (time + 1) J' f' o' 0 ((beatCore j).goto .start) ((Core.init 2).goto .start) ∧
      (J' j).Due (time + 1) := by
  have hex : ((J j).execute (beatCore j)).executedTime = 1 := by
    show (J j).executedTime + scalingFactor 0 = 1
    rw [hj.executed, zero_add]
    rfl
  obtain ⟨J₁, o₁, h, -⟩ := (h.toRun rfl rfl).complete rfl hj.deadline (by rw [hex, hj.acet]) hj.refcount h0
  have h : BeatRun start time J₁ (Function.update f 0 (j :: f 0)) o₁ 0
      ((freeCore true).goto (.alloc (beatConfig.entries 0))) ((Core.init 2).goto .start) :=
    h.pendingEnd nofun
  obtain ⟨J₂, h, hj₂⟩ := release h (Function.update_self ..)
  obtain ⟨o₂, h⟩ := h.turn
  exact ⟨J₂, _, o₂, h, hj₂⟩

end BeatRun

/-- At the start of a tick the job of the last one is running. -/
def Beating (S : Sys 2) : Prop :=
  ∃ time J f o j, S = pairSys time J f (fun _ => .empty) (fun _ => .empty) o j.1 ((beatCore j).goto .start)
    ((Core.init 2).goto .start) ∧ (J j).Due time ∧ j.1.val = 0

theorem beating_init : ∃ S : Sys 2, Beating S ∧ RunsInRoom beatConfig S := by
  have h : BeatRun (Sys.init 2) 0 (fun _ => JobRec.blank) (Sys.init 2).freeList [] 0
      ((freeCore false).goto .start) ((Core.init 2).goto .start) :=
    .init ⟨rfl, rfl, rfl, rfl⟩ (fun _ _ => .of_quiet) (fun _ => nofun)
  have h := ((h.toRun rfl rfl).idle rfl).pendingEnd nofun
  obtain ⟨j, l, hj⟩ : ∃ j l, (Sys.init 2).freeList 0 = j :: l := ⟨_, _, rfl⟩
  have h0 : j.1 = 0 := by
    obtain ⟨k, -, rfl⟩ := List.mem_map.1 (hj.symm ▸ List.mem_cons_self (a := j) (l := l))
    rfl
  obtain ⟨J, h, hdue⟩ := BeatRun.release h hj
  obtain ⟨o, h⟩ := h.turn
  exact ⟨_, ⟨1, J, _, o, j, by rw [h0], hdue, congrArg Fin.val h0⟩, h.run⟩

/-- Such a state leads on to the next one. -/
theorem Beating.next (h : Beating S) : ∃ tr T, tr ≠ [] ∧
    Exec (fun T a U => Step beatConfig T a U ∧ OffersInRoom T a) S tr T ∧ Beating T := by
  obtain ⟨time, J, f, o, j, rfl, hdue, hval⟩ := h
  have h0 : j.1 = 0 := Fin.ext hval
  rw [h0]
  have h : BeatRun _ time J f o 0 ((beatCore j).goto .start) ((Core.init 2).goto .start) :=
    ⟨⟨rfl, rfl, rfl, rfl⟩, fun _ _ => .of_quiet, fun _ => nofun, fun _ => rfl, rfl, [], .nil, nofun⟩
  obtain ⟨J', f', o', h, hdue'⟩ := h.tick hdue h0
  obtain ⟨tr, hrun, htr⟩ := h.run
  refine ⟨tr, _, fun hnil => ?_, hrun.restrict htr, time + 1, J', f', o', j, by rw [h0], hdue', hval⟩
  subst hnil
  exact absurd (congrArg Sys.systemTime hrun.eq_of_nil) time.lt_succ_self.ne

end EeftSched

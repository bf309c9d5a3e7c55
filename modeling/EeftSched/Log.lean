/-
  Logging and its shutdown (`lib/log.h`, `lib/log.c`).

  Any number of threads put records in the log queue, a ring buffer; the logger
  thread takes them out and writes them to the log file.  `log_wakeup_pending`
  keeps the posts of `log_sem` down to one for each time the logger runs.
  `log_system_shutdown` starts when every `LOG` has returned.

  * `Step`: one atomic access of a logging thread, of the logger thread or of
    the thread that shuts the system down;
  * `Sys.Caught`: the logger will still empty the queue;
  * `all_written_iff`: no record is lost at shutdown if and only if the state
    is caught when `log_shutdown_requested` is set;
  * `record_lost`: a record is lost while the logger is about to test the flag.
-/
import EeftSched.RingBuffer
import Mathlib.Data.List.TakeDrop

namespace EeftSched.Log

open Lts Mpmc

universe u
variable {Θ α : Type u}

/-- `LOG_QUEUE_SIZE` -/
def logQueueSize : ℕ := 512

/-- Where a thread is in `LOG`. -/
inductive LogPc where
  | idle
  /-- in `ring_buffer_try_enqueue` -/
  | tryEnqueue
  | exchange
  | post
  deriving DecidableEq

/-- Where `logger_thread_func` is. -/
inductive LoggerPc where
  | start
  | test
  | wait
  /-- in the loop over `ring_buffer_try_dequeue` -/
  | drain
  | clear
  | exited
  deriving DecidableEq

/-- Where `log_system_shutdown` is. -/
inductive ShutdownPc where
  | running
  | post
  | join
  | joined
  deriving DecidableEq

/-- The logger thread is `none` in the queue.  `logFile` is what has been
    written, `none` if `fopen` has failed. -/
structure Sys (Θ α : Type u) where
  queue : Mpmc.Sys (Option Θ) α
  wakeupPending : ℕ
  sem : ℕ
  shutdownRequested : Bool
  logFile : Option (List α)
  log : Θ → LogPc
  logger : LoggerPc
  shutdown : ShutdownPc

/-- `log_system_init`, with whatever is in `log_buffer` -/
def logSystemInit (buffer : ℕ → α) (opened : Bool) : Sys Θ α where
  queue := .init ⟨0, 0, fun i => i, logQueueSize, buffer⟩
  wakeupPending := 0
  sem := 0
  shutdownRequested := false
  logFile := if opened then some [] else none
  log := fun _ => .idle
  logger := .start
  shutdown := .running

inductive Label (α : Type u) where
  | queue (a : Mpmc.Label α)
  | requestShutdown
  | tau

section
variable [DecidableEq Θ]

def Sys.setLog (S : Sys Θ α) (θ : Θ) (q : LogPc) : Sys Θ α := { S with log := Function.update S.log θ q }

inductive Step (S : Sys Θ α) : Label α → Sys Θ α → Prop
  /-- `LOG` of a record above the log level -/
  | log {θ : Θ} (elem : α) (h : S.log θ = .idle) (hr : S.shutdown = .running)
      (hq : S.queue.pc (some θ) = .idle) :
      Step S (.queue .tau)
        { S.setLog θ .tryEnqueue with
          queue := S.queue.setPc (some θ) (.tryEnqCheck elem S.queue.rb.tail) }
  | enqueuing {θ : Θ} {a : Mpmc.Label α} {Q : Mpmc.Sys (Option Θ) α} (h : S.log θ = .tryEnqueue)
      (hin : S.queue.pc (some θ) ≠ .idle) (hq : ThreadStep S.queue (some θ) a Q)
      (hmid : Q.pc (some θ) ≠ .idle) : Step S (.queue a) { S with queue := Q }
  /-- `ring_buffer_try_enqueue` returns an error -/
  | notEnqueued {θ : Θ} {a : Mpmc.Label α} {Q : Mpmc.Sys (Option Θ) α} (h : S.log θ = .tryEnqueue)
      (hin : S.queue.pc (some θ) ≠ .idle) (hq : ThreadStep S.queue (some θ) a Q)
      (hret : Q.pc (some θ) = .idle) (herr : ∀ tail, S.queue.pc (some θ) ≠ .enqPublish tail) :
      Step S (.queue a) { S.setLog θ .idle with queue := Q }
  /-- `ring_buffer_try_enqueue` returns 0 -/
  | enqueued {θ : Θ} {a : Mpmc.Label α} {Q : Mpmc.Sys (Option Θ) α} {tail : ℕ}
      (h : S.log θ = .tryEnqueue) (hp : S.queue.pc (some θ) = .enqPublish tail)
      (hq : ThreadStep S.queue (some θ) a Q) :
      Step S (.queue a) { S.setLog θ .exchange with queue := Q }
  | exchange {θ : Θ} (h : S.log θ = .exchange) :
      Step S .tau { S.setLog θ (if S.wakeupPending = 0 then .post else .idle) with wakeupPending := 1 }
  | semPost {θ : Θ} (h : S.log θ = .post) : Step S .tau { S.setLog θ .idle with sem := S.sem + 1 }
  /-- `logger_thread_func` -/
  | loggerStart (h : S.logger = .start) : Step S .tau { S with wakeupPending := 0, logger := .test }
  | testStop (h : S.logger = .test) (hf : S.shutdownRequested = true) :
      Step S .tau { S with logger := .exited }
  | testGo (h : S.logger = .test) (hf : S.shutdownRequested = false) :
      Step S .tau { S with logger := .wait }
  | semWait (h : S.logger = .wait) (hs : 0 < S.sem) :
      Step S .tau { S with sem := S.sem - 1, logger := .drain }
  | tryDequeue (h : S.logger = .drain) (hq : S.queue.pc none = .idle) :
      Step S (.queue .tau) { S with queue := S.queue.setPc none (.tryDeqCheck S.queue.rb.head) }
  | dequeuing {a : Mpmc.Label α} {Q : Mpmc.Sys (Option Θ) α} (h : S.logger = .drain)
      (hin : S.queue.pc none ≠ .idle) (hq : ThreadStep S.queue none a Q) (hmid : Q.pc none ≠ .idle) :
      Step S (.queue a) { S with queue := Q }
  /-- `ring_buffer_try_dequeue` returns 0 -/
  | fwrite {a : Mpmc.Label α} {Q : Mpmc.Sys (Option Θ) α} {head : ℕ} {msg : α}
      (h : S.logger = .drain) (hp : S.queue.pc none = .deqRelease head msg)
      (hq : ThreadStep S.queue none a Q) :
      Step S (.queue a) { S with queue := Q, logFile := S.logFile.map (· ++ [msg]) }
  /-- `ring_buffer_try_dequeue` returns an error -/
  | drained {a : Mpmc.Label α} {Q : Mpmc.Sys (Option Θ) α} (h : S.logger = .drain)
      (hin : S.queue.pc none ≠ .idle) (hq : ThreadStep S.queue none a Q) (hret : Q.pc none = .idle)
      (herr : ∀ head msg, S.queue.pc none ≠ .deqRelease head msg) :
      Step S (.queue a) { S with queue := Q, logger := .clear }
  | loggerClear (h : S.logger = .clear) : Step S .tau { S with wakeupPending := 0, logger := .test }
  /-- `log_system_shutdown`, once every `LOG` has returned -/
  | requestShutdown (h : S.shutdown = .running) (hlog : ∀ θ, S.log θ = .idle) :
      Step S .requestShutdown { S with shutdownRequested := true, shutdown := .post }
  | shutdownPost (h : S.shutdown = .post) : Step S .tau { S with sem := S.sem + 1, shutdown := .join }
  /-- `pthread_join` returns -/
  | join (h : S.shutdown = .join) (hl : S.logger = .exited) : Step S .tau { S with shutdown := .joined }

end

/-! ## What is logged and written -/

variable {tr : List (Trans (Sys Θ α) (Label α))} {S S' : Sys Θ α} {a : Label α}

/-- The step of the queue in a step of the system. -/
def queueTrans (x : Trans (Sys Θ α) (Label α)) : Option (Trans (Mpmc.Sys (Option Θ) α) (Mpmc.Label α)) :=
  match x.lab with
  | .queue a => some ⟨x.pre.queue, a, x.post.queue⟩
  | _ => none

/-- The run of the queue in a run of the system. -/
def queueTrace (tr : List (Trans (Sys Θ α) (Label α))) :
    List (Trans (Mpmc.Sys (Option Θ) α) (Mpmc.Label α)) :=
  tr.filterMap queueTrans

/-- The records that `ring_buffer_try_enqueue` has taken, in queue order. -/
def records (tr : List (Trans (Sys Θ α) (Label α))) : List α :=
  (Mpmc.enqueued (queueTrace tr)).map Prod.snd

/-- **No record is lost**: the log file holds every record once, in queue order. -/
def AllWritten (tr : List (Trans (Sys Θ α) (Label α))) (S : Sys Θ α) : Prop :=
  S.logFile.getD [] = records tr

/-- The queue is empty, or the logger empties it before it tests the flag. -/
def Sys.Drains (S : Sys Θ α) : Prop :=
  S.logger = .wait ∨ S.logger = .drain ∨ S.queue.rb.head = S.queue.rb.tail

/-- Nothing has been logged, or it can be written and will be. -/
def Sys.Caught (S : Sys Θ α) : Prop := S.queue.rb.tail = 0 ∨ S.logFile ≠ none ∧ S.Drains

/-! ## The run of the queue -/

section
variable [DecidableEq Θ]

theorem Step.queue (h : Step S a S') :
    (∃ b, a = .queue b ∧ Mpmc.Step S.queue b S'.queue) ∨ ((∀ b, a ≠ .queue b) ∧ S'.queue = S.queue) := by
  cases h with
  | log elem _ _ hq => exact .inl ⟨_, rfl, _, .tryEnqueue elem hq⟩
  | enqueuing _ _ hq _ | notEnqueued _ _ hq _ _ | enqueued _ _ hq | dequeuing _ _ hq _
  | fwrite _ _ hq | drained _ _ hq _ _ => exact .inl ⟨_, rfl, _, hq⟩
  | tryDequeue _ hq => exact .inl ⟨_, rfl, _, .tryDequeue hq⟩
  | exchange | semPost | loggerStart | testStop | testGo | semWait | loggerClear | requestShutdown
  | shutdownPost | join => exact .inr ⟨nofun, rfl⟩

end

theorem queueTrace_queue (S S' : Sys Θ α) (b : Mpmc.Label α) :
    queueTrace (tr ++ [⟨S, .queue b, S'⟩]) = queueTrace tr ++ [⟨S.queue, b, S'.queue⟩] := by
  rw [queueTrace, List.filterMap_append]
  rfl

theorem queueTrace_other (S S' : Sys Θ α) (ha : ∀ b, a ≠ .queue b) :
    queueTrace (tr ++ [⟨S, a, S'⟩]) = queueTrace tr := by
  rw [queueTrace, List.filterMap_append]
  cases a with
  | queue b => exact absurd rfl (ha b)
  | requestShutdown | tau => exact List.append_nil _

/-! ## The invariant -/

/-- The queue: its run so far, and where its threads are. -/
structure QueueInv (rt : List (Trans (Mpmc.Sys (Option Θ) α) (Mpmc.Label α)))
    (Q : Mpmc.Sys (Option Θ) α) (G : Ghost α) : Prop where
  recorded : Recorded G rt
  inv : Mpmc.Inv logQueueSize G (delivered rt) Q
  le : G.deqs ≤ G.elems.length
  enqueuers : ∀ θ, (Q.pc (some θ)).InTryEnqueue
  dequeuer : (Q.pc none).InTryDequeue Q.rb.head (dequeued rt) ((delivered rt).map Prod.fst)

namespace QueueInv

variable {rt : List (Trans (Mpmc.Sys (Option Θ) α) (Mpmc.Label α))} {Q Q' : Mpmc.Sys (Option Θ) α}
  {G : Ghost α} {b : Mpmc.Label α}

theorem init {buffer : ℕ → α} :
    QueueInv [] (.init ⟨0, 0, fun i => i, logQueueSize, buffer⟩ : Mpmc.Sys (Option Θ) α)
      ⟨[], 0, fun i => i, fun _ => false⟩ :=
  ⟨⟨rfl, rfl, rfl, rfl⟩, Mpmc.Inv.init (by decide), le_rfl, fun _ => trivial, rfl⟩

theorem length (h : QueueInv rt Q G) : G.elems.length = (Mpmc.enqueued rt).length := by
  rw [h.recorded.elems, List.length_map]

/-- The queue is not empty when the dequeuer claims a position. -/
theorem claim_lt [DecidableEq Θ] (h : QueueInv rt Q G) (hs : ThreadStep Q none b Q')
    (hin : Q.pc none ≠ .idle) (hlt : G.elems.length + 1 < wrap) (hb : b.dequeued ≠ []) :
    G.deqs < G.elems.length := by
  have hd := h.dequeuer
  have hle := h.le
  cases hs with
  | @deqCas head hp ht =>
    have hk := h.inv.threads none
    rw [hp] at hd hk
    have hhead : head = G.deqs := hd.1.trans h.inv.head
    have hat := hk.2 hhead (by omega)
    obtain ⟨-, hfull, -⟩ := (h.inv.slot_at (by decide) head).full hat.2
    rw [hat.1] at hfull
    omega
  | dequeue hp => exact absurd hp hin
  | _ => exact absurd rfl hb

/-- A step of the queue's own invariant -/
theorem ghost_step [DecidableEq Θ] (h : QueueInv rt Q G) (hs : Mpmc.Step Q b Q')
    (he : (Mpmc.enqueued (rt ++ [⟨Q, b, Q'⟩])).length + 1 < wrap)
    (hclaim : b.dequeued ≠ [] → G.deqs < G.elems.length) :
    ∃ G', Recorded G' (rt ++ [⟨Q, b, Q'⟩]) ∧
      Mpmc.Inv logQueueSize G' (delivered (rt ++ [⟨Q, b, Q'⟩])) Q' ∧ G'.deqs ≤ G'.elems.length := by
  rw [enqueued_snoc, List.length_append, ← h.length] at he
  have hle := h.le
  have hone := b.dequeued_length_le
  obtain ⟨G', hg, hi⟩ := hs.inv h.inv (by decide) (by omega) (by omega)
  refine ⟨G', h.recorded.snoc hg, ?_, ?_⟩
  · rw [delivered_snoc]
    exact hi
  · rw [hg.deqs, hg.elems, List.length_append]
    by_cases hb : b.dequeued = []
    · rw [hb, List.length_nil]
      omega
    · have := hclaim hb
      omega

/-- Between two calls, what the dequeuer has got is the front of the queue. -/
theorem delivered_eq (h : QueueInv rt Q G) (hidle : Q.pc none = .idle) :
    (delivered rt).map Prod.snd = G.elems.take G.deqs := by
  have hd := h.dequeuer
  rw [hidle] at hd
  have hpos : (delivered rt).map Prod.fst = List.range G.deqs := by
    rw [← show dequeued rt = _ from hd, h.recorded.deqPos, h.recorded.deqs]
  refine List.ext_getElem? ?_
  intro i
  by_cases hi : i < G.deqs
  · have hfst : ((delivered rt).map Prod.fst)[i]? = some i := by
      rw [hpos, List.getElem?_range hi]
    rw [List.getElem?_map] at hfst
    obtain ⟨x, hx, hxi⟩ := Option.map_eq_some_iff.1 hfst
    rw [List.getElem?_map, hx, List.getElem?_take_of_lt hi, ← hxi]
    exact (h.inv.values x (List.mem_of_getElem? hx)).2
  · have hlen : (delivered rt).length = G.deqs := by
      rw [← List.length_map Prod.fst, hpos, List.length_range]
    rw [List.getElem?_eq_none, List.getElem?_eq_none]
    · rw [List.length_take]
      omega
    · rw [List.length_map]
      omega

variable [DecidableEq Θ]

/-- A step inside `ring_buffer_try_enqueue` -/
theorem enqueuer {θ : Θ} (h : QueueInv rt Q G) (hs : ThreadStep Q (some θ) b Q')
    (hin : Q.pc (some θ) ≠ .idle) (he : (Mpmc.enqueued (rt ++ [⟨Q, b, Q'⟩])).length + 1 < wrap) :
    (∃ G', QueueInv (rt ++ [⟨Q, b, Q'⟩]) Q' G') ∧ b.delivered = [] := by
  obtain ⟨q, hpc, hq, hhead, hdq, hdl⟩ := hs.tryEnqueue_cases (h.enqueuers θ) hin
  obtain ⟨G', hrec, hinv, hle⟩ := h.ghost_step ⟨_, hs⟩ he fun hb => absurd hdq hb
  have hne : ∀ τ ≠ some θ, Q'.pc τ = Q.pc τ := fun τ hτ => hs.pc_ne hτ
  refine ⟨⟨G', hrec, hinv, hle, ?_, ?_⟩, hdl⟩
  · intro τ
    by_cases hτ : τ = θ
    · rw [hτ, hpc, Function.update_self]
      exact hq
    · rw [hne _ fun h => hτ (Option.some.inj h)]
      exact h.enqueuers τ
  · rw [hne none nofun, hhead, dequeued_snoc, delivered_snoc, hdq, hdl, List.append_nil, List.append_nil]
    exact h.dequeuer

/-- A step inside `ring_buffer_try_dequeue` -/
theorem consumer (h : QueueInv rt Q G) (hs : ThreadStep Q none b Q') (hin : Q.pc none ≠ .idle)
    (he : (Mpmc.enqueued (rt ++ [⟨Q, b, Q'⟩])).length + 1 < wrap) :
    (∃ G', QueueInv (rt ++ [⟨Q, b, Q'⟩]) Q' G') ∧ Q'.rb.tail = Q.rb.tail := by
  obtain ⟨q, hpc, hq, htail, hen⟩ := hs.tryDequeue_cases h.dequeuer hin
  have hlt : G.elems.length + 1 < wrap := by
    rw [enqueued_snoc, hen, List.append_nil, ← h.length] at he
    exact he
  obtain ⟨G', hrec, hinv, hle⟩ := h.ghost_step ⟨_, hs⟩ he fun hb => h.claim_lt hs hin hlt hb
  refine ⟨⟨G', hrec, hinv, hle, ?_, ?_⟩, htail⟩
  · intro τ
    rw [hs.pc_ne (τ := some τ) nofun]
    exact h.enqueuers τ
  · rw [hpc, Function.update_self, dequeued_snoc, delivered_snoc, List.map_append]
    exact hq

/-- The start of a call -/
theorem call {o : Option Θ} {q : Pc α} (h : QueueInv rt Q G) (hs : ThreadStep Q o .tau (Q.setPc o q))
    (he : (Mpmc.enqueued (rt ++ [⟨Q, .tau, Q.setPc o q⟩])).length + 1 < wrap)
    (henq : ∀ θ, o = some θ → q.InTryEnqueue)
    (hdeq : o = none → q.InTryDequeue Q.rb.head (dequeued rt) ((delivered rt).map Prod.fst)) :
    ∃ G', QueueInv (rt ++ [⟨Q, .tau, Q.setPc o q⟩]) (Q.setPc o q) G' := by
  obtain ⟨G', hrec, hinv, hle⟩ := h.ghost_step ⟨_, hs⟩ he fun hb => absurd rfl hb
  refine ⟨G', hrec, hinv, hle, ?_, ?_⟩
  · intro τ
    show (Function.update Q.pc o q (some τ)).InTryEnqueue
    by_cases hτ : some τ = o
    · rw [hτ, Function.update_self]
      exact henq τ hτ.symm
    · rw [Function.update_of_ne hτ]
      exact h.enqueuers τ
  · rw [dequeued_snoc, delivered_snoc]
    show (Function.update Q.pc o q none).InTryDequeue Q.rb.head (_ ++ []) ((_ ++ []).map Prod.fst)
    rw [List.append_nil, List.append_nil]
    by_cases ho : none = o
    · rw [← ho, Function.update_self]
      exact hdeq ho.symm
    · rw [Function.update_of_ne ho]
      exact h.dequeuer

/-- A dequeue that fails while nobody enqueues finds the queue empty. -/
theorem empty_of_fails (h : QueueInv rt Q G) (hs : ThreadStep Q none b Q') (hin : Q.pc none ≠ .idle)
    (hret : Q'.pc none = .idle) (herr : ∀ k v, Q.pc none ≠ .deqRelease k v)
    (hlt : G.elems.length + 1 < wrap) (hidle : ∀ θ, Q.pc (some θ) = .idle) :
    Q'.rb.head = Q'.rb.tail := by
  obtain ⟨-, hrb, hseq⟩ := hs.tryDequeue_fails h.dequeuer hin hret herr
  have hle := h.le
  rw [hrb, h.inv.head, h.inv.tail]
  by_contra hne
  have hclaims : ∀ o, (Q.pc o).enqClaim = none := by
    intro o
    cases o with
    | none => exact h.dequeuer.enqClaim
    | some θ => rw [hidle θ]; rfl
  have hfull := h.inv.full_of_lt (by decide) (by omega) hclaims
  rw [Nat.mod_eq_of_lt (by rw [h.inv.head]; omega)] at hseq
  exact hseq hfull

end QueueInv

/-- Where the threads are: outside its call a thread is idle in the queue, and
    nobody logs once the shutdown has begun. -/
structure Control (S : Sys Θ α) : Prop where
  outside : ∀ θ, S.log θ ≠ .tryEnqueue → S.queue.pc (some θ) = .idle
  quiet : S.logger ≠ .drain → S.queue.pc none = .idle
  flag : S.shutdownRequested = true ↔ S.shutdown ≠ .running
  stopped : S.shutdown ≠ .running → ∀ θ, S.log θ = .idle
  joined : S.shutdown = .joined → S.logger = .exited

namespace Control

variable {θ : Θ}

theorem running_of_log (h : Control S) (hθ : S.log θ ≠ .idle) : S.shutdown = .running := by
  by_contra hr
  exact hθ (h.stopped hr θ)

variable [DecidableEq Θ]

/-- A step of a logging thread. -/
theorem logStep {p : LogPc} (h : Control S) (hr : S.shutdown = .running)
    (hlog : S'.log = Function.update S.log θ p) (hpc : ∀ o ≠ some θ, S'.queue.pc o = S.queue.pc o)
    (hidle : p ≠ .tryEnqueue → S'.queue.pc (some θ) = .idle)
    (hflag : S'.shutdownRequested = S.shutdownRequested) (hl : S'.logger = S.logger)
    (hs : S'.shutdown = S.shutdown) : Control S' := by
  refine ⟨?_, ?_, ?_, ?_, ?_⟩
  · intro τ hτ
    rw [hlog] at hτ
    by_cases he : τ = θ
    · subst he
      rw [Function.update_self] at hτ
      exact hidle hτ
    · rw [Function.update_of_ne he] at hτ
      rw [hpc _ fun h => he (Option.some.inj h)]
      exact h.outside τ hτ
  · intro hd
    rw [hl] at hd
    rw [hpc none nofun]
    exact h.quiet hd
  · rw [hflag, hs]
    exact h.flag
  · intro hn
    rw [hs] at hn
    exact absurd hr hn
  · intro hj
    rw [hs, hr] at hj
    cases hj

omit [DecidableEq Θ] in
/-- A step of the logger thread. -/
theorem loggerStep (h : Control S) (hlog : S'.log = S.log)
    (hpc : ∀ o ≠ none, S'.queue.pc o = S.queue.pc o)
    (hidle : S'.logger ≠ .drain → S'.queue.pc none = .idle)
    (hflag : S'.shutdownRequested = S.shutdownRequested) (hl : S.logger ≠ .exited)
    (hs : S'.shutdown = S.shutdown) : Control S' := by
  refine ⟨?_, hidle, ?_, ?_, ?_⟩
  · intro τ hτ
    rw [hlog] at hτ
    rw [hpc (some τ) nofun]
    exact h.outside τ hτ
  · rw [hflag, hs]
    exact h.flag
  · rw [hs, hlog]
    exact h.stopped
  · intro hj
    rw [hs] at hj
    exact absurd (h.joined hj) hl

theorem step (h : Control S) (hs : Step S a S') : Control S' := by
  have hne : ∀ {c : LoggerPc}, S.logger = c → c ≠ .exited → S.logger ≠ .exited := by
    rintro c rfl hc
    exact hc
  cases hs with
  | log elem hp hr _ =>
    exact h.logStep hr rfl (fun o ho => Function.update_of_ne ho ..) (fun hp => absurd rfl hp) rfl rfl rfl
  | @enqueuing θ _ Q hp _ hq _ =>
    have hr := h.running_of_log (θ := θ) (by rw [hp]; nofun)
    refine h.logStep (p := .tryEnqueue) hr ?_ (fun o ho => hq.pc_ne ho) (fun hp => absurd rfl hp) rfl rfl rfl
    rw [← hp, Function.update_eq_self]
  | @notEnqueued θ _ Q hp _ hq hret _ =>
    have hr := h.running_of_log (θ := θ) (by rw [hp]; nofun)
    exact h.logStep hr rfl (fun o ho => hq.pc_ne ho) (fun _ => hret) rfl rfl rfl
  | @enqueued θ _ Q tail hp hpub hq =>
    have hr := h.running_of_log (θ := θ) (by rw [hp]; nofun)
    exact h.logStep hr rfl (fun o ho => hq.pc_ne ho) (fun _ => hq.publish_eq hpub) rfl rfl rfl
  | @exchange θ hp | @semPost θ hp =>
    have hr := h.running_of_log (θ := θ) (by rw [hp]; nofun)
    exact h.logStep hr rfl (fun _ _ => rfl) (fun _ => h.outside θ (by rw [hp]; nofun)) rfl rfl rfl
  | loggerStart hl | testStop hl _ | testGo hl _ | loggerClear hl =>
    exact h.loggerStep rfl (fun _ _ => rfl) (fun _ => h.quiet (by rw [hl]; nofun)) rfl (hne hl nofun) rfl
  | semWait hl _ =>
    exact h.loggerStep rfl (fun _ _ => rfl) (fun hd => absurd rfl hd) rfl (hne hl nofun) rfl
  | tryDequeue hl _ =>
    exact h.loggerStep rfl (fun o ho => Function.update_of_ne ho ..) (fun hd => absurd hl hd) rfl
      (hne hl nofun) rfl
  | dequeuing hl _ hq _ | fwrite hl _ hq =>
    exact h.loggerStep rfl (fun o ho => hq.pc_ne ho) (fun hd => absurd hl hd) rfl (hne hl nofun) rfl
  | drained hl _ hq hret _ =>
    exact h.loggerStep rfl (fun o ho => hq.pc_ne ho) (fun _ => hret) rfl (hne hl nofun) rfl
  | requestShutdown hr hlog =>
    exact ⟨h.outside, h.quiet, ⟨nofun, fun _ => rfl⟩, fun _ => hlog, nofun⟩
  | shutdownPost hp =>
    have hr : S.shutdown ≠ .running := by rw [hp]; nofun
    exact ⟨h.outside, h.quiet, ⟨nofun, fun _ => h.flag.2 hr⟩, fun _ => h.stopped hr, nofun⟩
  | join hp hl =>
    have hr : S.shutdown ≠ .running := by rw [hp]; nofun
    exact ⟨h.outside, h.quiet, ⟨nofun, fun _ => h.flag.2 hr⟩, fun _ => h.stopped hr, fun _ => hl⟩

end Control

/-! ## Before and after the request -/

section
variable [DecidableEq Θ]

/-- The flag is set by one step, which changes nothing else but the shutdown. -/
theorem Step.request_eq (hs : Step S .requestShutdown S') :
    S.shutdown = .running ∧ S'.shutdown ≠ .running ∧ S'.queue = S.queue ∧ S'.logger = S.logger := by
  cases hs with
  | requestShutdown h _ => exact ⟨h, nofun, rfl, rfl⟩

theorem Step.running (hs : Step S a S') (hr : S.shutdown = .running) (ha : a ≠ .requestShutdown) :
    S'.shutdown = .running := by
  cases hs with
  | requestShutdown => exact absurd rfl ha
  | shutdownPost h | join h _ => rw [hr] at h; cases h
  | _ => exact hr

/-- After the request, the logger still drains the queue if and only if it
    would have before. -/
theorem Step.drains_iff {G : Ghost α} (hc : Control S) (hq : QueueInv (queueTrace tr) S.queue G)
    (hlt : G.elems.length + 1 < wrap) (hs : Step S a S') (hr : S.shutdown ≠ .running) :
    a ≠ .requestShutdown ∧ S'.shutdown ≠ .running ∧ S'.queue.rb.tail = S.queue.rb.tail ∧
      (S'.Drains ↔ S.Drains) := by
  have hidle := hc.stopped hr
  have hflag := hc.flag.2 hr
  have hlast : ∀ {T : Sys Θ α}, S.logger ≠ .wait → S.logger ≠ .drain → T.logger ≠ .wait →
      T.logger ≠ .drain → T.queue = S.queue → (T.Drains ↔ S.Drains) := by
    intro T h1 h2 h3 h4 hT
    rw [Sys.Drains, Sys.Drains, hT]
    simp only [h1, h2, h3, h4, false_or]
  have htrue : ∀ {T : Sys Θ α}, S.logger = .drain → T.Drains → (T.Drains ↔ S.Drains) := by
    intro T h hT
    exact iff_of_true hT (.inr (.inl h))
  cases hs with
  | log _ _ h _ => exact absurd h hr
  | @enqueuing θ _ _ h | @notEnqueued θ _ _ h | @enqueued θ _ _ _ h | @exchange θ h | @semPost θ h =>
    rw [hidle θ] at h
    cases h
  | requestShutdown h _ => exact absurd h hr
  | testGo _ hf => exact absurd (hf.symm.trans hflag) nofun
  | loggerStart h | testStop h _ | loggerClear h =>
    refine ⟨nofun, hr, rfl, hlast ?_ ?_ nofun nofun rfl⟩
    · rw [h]; nofun
    · rw [h]; nofun
  | semWait h _ => exact ⟨nofun, hr, rfl, iff_of_true (.inr (.inl rfl)) (.inl h)⟩
  | tryDequeue h _ => exact ⟨nofun, hr, rfl, htrue h (.inr (.inl h))⟩
  | dequeuing h hin hd _ =>
    obtain ⟨_, _, _, htail, _⟩ := hd.tryDequeue_cases hq.dequeuer hin
    exact ⟨nofun, hr, htail, htrue h (.inr (.inl h))⟩
  | fwrite h hp hd =>
    have hin : S.queue.pc none ≠ .idle := by rw [hp]; nofun
    obtain ⟨_, _, _, htail, _⟩ := hd.tryDequeue_cases hq.dequeuer hin
    exact ⟨nofun, hr, htail, htrue h (.inr (.inl h))⟩
  | drained h hin hd hret herr =>
    obtain ⟨_, _, _, htail, _⟩ := hd.tryDequeue_cases hq.dequeuer hin
    refine ⟨nofun, hr, htail, htrue h (.inr (.inr ?_))⟩
    exact hq.empty_of_fails hd hin hret herr hlt fun θ => hc.outside θ (by rw [hidle θ]; nofun)
  | shutdownPost h | join h _ => exact ⟨nofun, nofun, rfl, Iff.rfl⟩

end

/-- What a run has made of the state. -/
structure Inv (opened : Bool) (tr : List (Trans (Sys Θ α) (Label α))) (S : Sys Θ α) : Prop where
  queue : ∃ G, QueueInv (queueTrace tr) S.queue G
  control : Control S
  file : S.logFile = if opened then some ((delivered (queueTrace tr)).map Prod.snd) else none
  fresh : S.shutdown = .running → ∀ x ∈ tr, x.lab ≠ .requestShutdown
  request : S.shutdown ≠ .running → ∃ x ∈ tr, (∀ y ∈ tr, y.lab = .requestShutdown ↔ y = x) ∧
    (x.pre.logFile = none ↔ opened = false) ∧ x.pre.queue.rb.tail = S.queue.rb.tail ∧
    (x.pre.Drains ↔ S.Drains)

namespace Inv

variable {opened : Bool}

theorem init {buffer : ℕ → α} : Inv opened [] (logSystemInit buffer opened : Sys Θ α) where
  queue := by
    refine ⟨⟨[], 0, fun i => i, fun _ => false⟩, ?_⟩
    show QueueInv [] (.init ⟨0, 0, fun i => i, logQueueSize, buffer⟩) ⟨[], 0, fun i => i, fun _ => false⟩
    exact QueueInv.init
  control := by
    refine ⟨fun _ _ => rfl, fun _ => rfl, ⟨nofun, ?_⟩, ?_, nofun⟩
    · intro hr
      exact absurd rfl hr
    · intro hr
      exact absurd rfl hr
  file := rfl
  fresh _ x hx := absurd hx List.not_mem_nil
  request hr := absurd rfl hr

/-- A step that leaves the queue alone. -/
theorem quietStep (h : Inv opened tr S) (ha : ∀ b, a ≠ .queue b) (hq : S'.queue = S.queue)
    (hf : S'.logFile = S.logFile) :
    (∃ G, QueueInv (queueTrace (tr ++ [⟨S, a, S'⟩])) S'.queue G) ∧
      S'.logFile = if opened then some ((delivered (queueTrace (tr ++ [⟨S, a, S'⟩]))).map Prod.snd)
        else none := by
  rw [queueTrace_other S S' ha, hq, hf]
  exact ⟨h.queue, h.file⟩

variable [DecidableEq Θ]

theorem queueStep (h : Inv opened tr S) (hs : Step S a S')
    (he : (records (tr ++ [⟨S, a, S'⟩])).length + 1 < wrap) :
    (∃ G, QueueInv (queueTrace (tr ++ [⟨S, a, S'⟩])) S'.queue G) ∧
      S'.logFile = if opened then some ((delivered (queueTrace (tr ++ [⟨S, a, S'⟩]))).map Prod.snd)
        else none := by
  obtain ⟨G, hG⟩ := h.queue
  rw [records, List.length_map] at he
  have hfile := h.file
  cases hs with
  | exchange | semPost | loggerStart | testStop | testGo | semWait | loggerClear | requestShutdown
  | shutdownPost | join => exact h.quietStep nofun rfl rfl
  | log elem _ _ hp =>
    rw [queueTrace_queue] at he ⊢
    have hq := ThreadStep.tryEnqueue elem hp
    have hne : ∀ k v, S.queue.pc _ ≠ .deqRelease k v := fun k v => by rw [hp]; nofun
    refine ⟨hG.call hq he (fun _ _ => trivial) nofun, ?_⟩
    rw [delivered_snoc, hq.delivered_eq_nil hne, List.append_nil]
    exact hfile
  | tryDequeue _ hp =>
    rw [queueTrace_queue] at he ⊢
    have hd := hG.dequeuer
    rw [hp] at hd
    have hq := ThreadStep.tryDequeue hp
    have hne : ∀ k v, S.queue.pc none ≠ .deqRelease k v := fun k v => by rw [hp]; nofun
    refine ⟨hG.call hq he nofun fun _ => ⟨rfl, hd⟩, ?_⟩
    rw [delivered_snoc, hq.delivered_eq_nil hne, List.append_nil]
    exact hfile
  | enqueuing _ hin hq _ | notEnqueued _ hin hq _ _ =>
    rw [queueTrace_queue] at he ⊢
    obtain ⟨hG', hdl⟩ := hG.enqueuer hq hin he
    refine ⟨hG', ?_⟩
    rw [delivered_snoc, hdl, List.append_nil]
    exact hfile
  | enqueued _ hp hq =>
    rw [queueTrace_queue] at he ⊢
    obtain ⟨hG', hdl⟩ := hG.enqueuer hq (by rw [hp]; nofun) he
    refine ⟨hG', ?_⟩
    rw [delivered_snoc, hdl, List.append_nil]
    exact hfile
  | dequeuing _ hin hq hmid =>
    rw [queueTrace_queue] at he ⊢
    refine ⟨(hG.consumer hq hin he).1, ?_⟩
    have hdl := hq.delivered_eq_nil fun k v hp => hmid (hq.release_eq hp).2
    rw [delivered_snoc, hdl, List.append_nil]
    exact hfile
  | drained _ hin hq _ herr =>
    rw [queueTrace_queue] at he ⊢
    refine ⟨(hG.consumer hq hin he).1, ?_⟩
    rw [delivered_snoc, hq.delivered_eq_nil herr, List.append_nil]
    exact hfile
  | @fwrite _ Q k v _ hp hq =>
    rw [queueTrace_queue] at he ⊢
    refine ⟨(hG.consumer hq (by rw [hp]; nofun) he).1, ?_⟩
    obtain ⟨rfl, -⟩ := hq.release_eq hp
    rw [delivered_snoc, List.map_append]
    show S.logFile.map (· ++ [v]) = _
    rw [hfile]
    cases opened <;> rfl

theorem step (h : Inv opened tr S) (hs : Step S a S')
    (he : (records (tr ++ [⟨S, a, S'⟩])).length + 1 < wrap)
    (he' : (records tr).length + 1 < wrap) : Inv opened (tr ++ [⟨S, a, S'⟩]) S' := by
  obtain ⟨hqueue, hfile⟩ := h.queueStep hs he
  refine ⟨hqueue, h.control.step hs, hfile, ?_, ?_⟩
  · intro hr x hx
    rcases List.mem_append.1 hx with hx | hx
    · refine h.fresh ?_ x hx
      by_contra hn
      obtain ⟨G, hG⟩ := h.queue
      rw [records, List.length_map, ← hG.length] at he'
      exact (hs.drains_iff h.control hG he' hn).2.1 hr
    · obtain rfl := List.mem_singleton.1 hx
      rintro rfl
      exact hs.request_eq.2.1 hr
  · intro hr
    by_cases hn : S.shutdown = .running
    · -- this step is the request
      have ha : a = .requestShutdown := by
        by_contra ha
        exact hr (hs.running hn ha)
      subst ha
      obtain ⟨-, -, hq, hl⟩ := hs.request_eq
      refine ⟨_, List.mem_append_right _ (List.mem_singleton_self _), ?_, ?_, ?_, ?_⟩
      · intro y hy
        rcases List.mem_append.1 hy with hy | hy
        · refine iff_of_false (h.fresh hn y hy) ?_
          rintro rfl
          exact h.fresh hn _ hy rfl
        · obtain rfl := List.mem_singleton.1 hy
          exact iff_of_true rfl rfl
      · show S.logFile = none ↔ opened = false
        rw [h.file]
        cases opened <;> simp
      · show S.queue.rb.tail = _
        rw [hq]
      · show S.Drains ↔ _
        rw [Sys.Drains, Sys.Drains, hq, hl]
    · obtain ⟨x, hx, huniq, hx'⟩ := h.request hn
      obtain ⟨G, hG⟩ := h.queue
      rw [records, List.length_map, ← hG.length] at he'
      obtain ⟨ha, -, htail, hdr⟩ := hs.drains_iff h.control hG he' hn
      refine ⟨x, List.mem_append_left _ hx, ?_, hx'.1, hx'.2.1.trans htail.symm, hx'.2.2.trans hdr.symm⟩
      intro y hy
      rcases List.mem_append.1 hy with hy | hy
      · exact huniq y hy
      · obtain rfl := List.mem_singleton.1 hy
        refine iff_of_false ha ?_
        rintro rfl
        exact ha ((huniq _ hx).2 rfl)

end Inv

section
variable [DecidableEq Θ] {buffer : ℕ → α} {opened : Bool}

omit [DecidableEq Θ] in
theorem records_length_le (x : Trans (Sys Θ α) (Label α)) :
    (records tr).length ≤ (records (tr ++ [x])).length := by
  rw [records, records, queueTrace, queueTrace, Mpmc.enqueued, Mpmc.enqueued, List.filterMap_append,
    List.flatMap_append, List.map_append, List.length_append]
  exact Nat.le_add_right _ _

theorem inv_of_exec (h : Exec Step (logSystemInit buffer opened : Sys Θ α) tr S)
    (hn : (records tr).length + 1 < wrap) : Inv opened tr S := by
  induction h with
  | nil => exact Inv.init
  | snoc _ hs ih =>
    have hle := (Nat.add_le_add_right (records_length_le _) 1).trans_lt hn
    exact (ih hle).step hs hn hle

/-- **When `pthread_join` returns in `log_system_shutdown`, every record is in
    the log file, once and in queue order, if and only if** the logger was
    waiting or draining, or the queue was empty, when the flag was set (and
    the file is open, if there was a record at all). -/
theorem all_written_iff (h : Exec Step (logSystemInit buffer opened : Sys Θ α) tr S)
    (hn : (records tr).length + 1 < 2 ^ 64) (hj : S.shutdown = .joined) :
    AllWritten tr S ↔ ∀ x ∈ tr, x.lab = .requestShutdown → x.pre.Caught := by
  have hinv := inv_of_exec h hn
  obtain ⟨G, hG⟩ := hinv.queue
  have hexit := hinv.control.joined hj
  obtain ⟨x, hx, huniq, hfile, htail, hdrains⟩ := hinv.request (by rw [hj]; nofun)
  have hempty : S.Drains ↔ G.deqs = G.elems.length := by
    rw [Sys.Drains, hexit, ← hG.inv.head, ← hG.inv.tail]
    exact ⟨fun h => (h.resolve_left nofun).resolve_left nofun, fun h => .inr (.inr h)⟩
  have hwritten := hG.delivered_eq (hinv.control.quiet (by rw [hexit]; nofun))
  have hrecords : records tr = G.elems := hG.recorded.elems.symm
  have hcaught : x.pre.Caught ↔ G.elems = [] ∨ opened = true ∧ G.deqs = G.elems.length := by
    rw [Sys.Caught, htail, hG.inv.tail, List.length_eq_zero_iff, hdrains, hempty, ne_eq, hfile,
      Bool.not_eq_false]
  have hall : (∀ y ∈ tr, y.lab = .requestShutdown → y.pre.Caught) ↔ x.pre.Caught := by
    constructor
    · intro h
      exact h x hx ((huniq x hx).2 rfl)
    · rintro h y hy hlab
      rw [(huniq y hy).1 hlab]
      exact h
  rw [hall, hcaught, AllWritten, hinv.file, hrecords]
  have hle := hG.le
  cases opened with
  | false =>
    show [] = G.elems ↔ _
    rw [eq_comm]
    exact ⟨.inl, fun h => h.resolve_right nofun⟩
  | true =>
    show (delivered (queueTrace tr)).map Prod.snd = _ ↔ _
    rw [hwritten, List.take_eq_self_iff]
    constructor
    · intro h
      exact .inr ⟨rfl, by omega⟩
    · rintro (h | ⟨-, h⟩)
      · rw [h]
        exact Nat.zero_le _
      · exact h.ge

end

/-- A record is logged, and the logger woken for it, after the logger has
    cleared `log_wakeup_pending` and before it tests the flag. -/
theorem record_lost : ∃ tr S,
    Exec Step (logSystemInit (fun _ => "") true : Sys Unit String) tr S ∧ S.shutdown = .joined ∧
      records tr = ["Completed"] ∧ S.logFile = some [] ∧ ¬AllWritten tr S := by
  have h : Exec Step (logSystemInit (fun _ => "") true : Sys Unit String) [] _ := .nil
  have h := h.snoc (.loggerStart rfl)
  have h := h.snoc (.log (θ := ()) "Completed" rfl rfl rfl)
  have h := h.snoc (.enqueuing (θ := ()) rfl nofun (.enqSpace rfl rfl) nofun)
  have h := h.snoc (.enqueuing (θ := ()) rfl nofun (.enqCas rfl rfl) nofun)
  have h := h.snoc (.enqueuing (θ := ()) rfl nofun (.enqCopyStart "" rfl) nofun)
  have h := h.snoc (.enqueuing (θ := ()) rfl nofun (.enqCopyEnd rfl) nofun)
  have h := h.snoc (.enqueued (θ := ()) rfl rfl (.publish rfl))
  have h := h.snoc (.exchange (θ := ()) rfl)
  have h := h.snoc (.semPost (θ := ()) rfl)
  have h := h.snoc (.requestShutdown rfl fun _ => rfl)
  have h := h.snoc (.testStop rfl rfl)
  have h := h.snoc (.shutdownPost rfl)
  have h := h.snoc (.join rfl rfl)
  exact ⟨_, _, h, rfl, rfl, rfl, nofun⟩

/-- The flag is set while the logger waits. -/
theorem record_written : ∃ tr S,
    Exec Step (logSystemInit (fun _ => "") true : Sys Unit String) tr S ∧ S.shutdown = .joined ∧
      records tr = ["Completed"] ∧ S.logFile = some ["Completed"] := by
  have h : Exec Step (logSystemInit (fun _ => "") true : Sys Unit String) [] _ := .nil
  have h := h.snoc (.loggerStart rfl)
  have h := h.snoc (.testGo rfl rfl)
  have h := h.snoc (.log (θ := ()) "Completed" rfl rfl rfl)
  have h := h.snoc (.enqueuing (θ := ()) rfl nofun (.enqSpace rfl rfl) nofun)
  have h := h.snoc (.enqueuing (θ := ()) rfl nofun (.enqCas rfl rfl) nofun)
  have h := h.snoc (.enqueuing (θ := ()) rfl nofun (.enqCopyStart "" rfl) nofun)
  have h := h.snoc (.enqueuing (θ := ()) rfl nofun (.enqCopyEnd rfl) nofun)
  have h := h.snoc (.enqueued (θ := ()) rfl rfl (.publish rfl))
  have h := h.snoc (.exchange (θ := ()) rfl)
  have h := h.snoc (.semPost (θ := ()) rfl)
  have h := h.snoc (.requestShutdown rfl fun _ => rfl)
  have h := h.snoc (.semWait rfl Nat.one_pos)
  have h := h.snoc (.tryDequeue rfl rfl)
  have h := h.snoc (.dequeuing rfl nofun (.deqFull rfl rfl) nofun)
  have h := h.snoc (.dequeuing rfl nofun (.deqCas rfl rfl) nofun)
  have h := h.snoc (.dequeuing rfl nofun (.deqCopyStart rfl) nofun)
  have h := h.snoc (.dequeuing rfl nofun (.deqCopyEnd rfl) nofun)
  have h := h.snoc (.fwrite rfl rfl (.release rfl))
  have h := h.snoc (.tryDequeue rfl rfl)
  have h := h.snoc (.drained rfl nofun (.deqEmpty rfl (by decide)) rfl nofun)
  have h := h.snoc (.loggerClear rfl)
  have h := h.snoc (.testStop rfl rfl)
  have h := h.snoc (.shutdownPost rfl)
  have h := h.snoc (.join rfl rfl)
  exact ⟨_, _, h, rfl, rfl, rfl⟩

theorem all_written_iff_one : ∃ (tr : List (Trans (Sys Unit String) (Label String))) (S : Sys Unit String),
    AllWritten tr S ∧ records tr = ["Completed"] ∧
      ∀ x ∈ tr, x.lab = .requestShutdown → x.pre.Caught := by
  obtain ⟨tr, S, h, hj, hrec, hfile⟩ := record_written
  have hall : AllWritten tr S := by rw [AllWritten, hfile, hrec]; rfl
  refine ⟨tr, S, hall, hrec, (all_written_iff h ?_ hj).1 hall⟩
  rw [hrec]
  decide

end EeftSched.Log

/-
  Several processors and the multicast group of their criticality changes
  (`ipc_broadcast_criticality_change`, `ipc_receive_completion_messages` in
  `ipc.c`, `timer_thread_func` in `processor.c`).

  A packet is kept with the processor that sent it.  A broadcast puts one
  packet on the way to every processor, the sender included; a timer takes the
  packets that have arrived in any order, and leaves its receive phase only
  after the packets of its own processor, which the loopback delivers within
  the tick.  The processors are not held in step here: `proc_barrier` only
  removes interleavings.

  * `SysStep.localLevel_le`: no core lowers its local level;
  * `Inv.rest`: after a receive phase the shared level is at least every local
    level of its processor and is a level;
  * `localLevel_eq_maxSent`: a tick without broadcasts after every packet has
    arrived leaves every core at the largest level ever sent.
-/
import EeftSched.Criticality
import Mathlib.Data.List.MinMax
import Mathlib.Data.List.Perm.Basic

namespace EeftSched.Criticality

open Lts

variable {p n : ℕ}

/-- `p` processors and the packets on their way to each. -/
structure Sys (p n : ℕ) where
  proc : Fin p → Proc n
  /-- sender and level of every packet not yet received -/
  inbox : Fin p → List (Fin p × ℕ)
  /-- every level ever sent -/
  sent : List ℕ

def Sys.init (p n : ℕ) : Sys p n := ⟨fun _ => Proc.init n, fun _ => [], []⟩

/-- The steps of a processor that touch no packet. -/
def Label.isLocal : Label n → Bool
  | .core _ (.broadcast _) | .recv _ | .endReceive => false
  | _ => true

/-- A step of processor `i`. -/
inductive SysStep (maxLevels : ℕ) (S : Sys p n) : Fin p × Label n → Sys p n → Prop
  | inner {i : Fin p} {a : Label n} {P' : Proc n} (h : Step maxLevels (S.proc i) a P')
      (ha : a.isLocal) : SysStep maxLevels S (i, a) { S with proc := Function.update S.proc i P' }
  | broadcast {i : Fin p} {c : Fin n} {v : ℕ} {P' : Proc n}
      (h : Step maxLevels (S.proc i) (.core c (.broadcast v)) P') :
      SysStep maxLevels S (i, .core c (.broadcast v))
        ⟨Function.update S.proc i P', fun j => (i, v) :: S.inbox j, v :: S.sent⟩
  | recv {i q : Fin p} {v : ℕ} {P' : Proc n} (hm : (q, v) ∈ S.inbox i)
      (h : Step maxLevels (S.proc i) (.recv v) P') :
      SysStep maxLevels S (i, .recv v)
        { S with
          proc := Function.update S.proc i P'
          inbox := Function.update S.inbox i ((S.inbox i).erase (q, v)) }
  | endReceive {i : Fin p} {P' : Proc n} (hown : ∀ m ∈ S.inbox i, m.1 ≠ i)
      (h : Step maxLevels (S.proc i) .endReceive P') :
      SysStep maxLevels S (i, .endReceive) { S with proc := Function.update S.proc i P' }

/-! ## One processor: which levels it holds -/

/-- Every level the processor holds, and every level a core is about to store
    or assign, satisfies `ok`. -/
structure OkLevels (ok : ℕ → Prop) (P : Proc n) : Prop where
  level : ok P.systemCriticalityLevel
  locals : ∀ c, ok (P.localCriticalityLevel c)
  cores : ∀ c v k, P.pc c = .store v k ∨ P.pc c = .assign v k → ok v

theorem OkLevels.mono {ok ok' : ℕ → Prop} {P : Proc n} (h : OkLevels ok P)
    (hm : ∀ b, ok b → ok' b) : OkLevels ok' P :=
  ⟨hm _ h.level, fun c => hm _ (h.locals c), fun c v k hv => hm _ (h.cores c v k hv)⟩

theorem OkLevels.init {ok : ℕ → Prop} (h0 : ok 0) : OkLevels ok (Proc.init n) :=
  ⟨h0, fun _ => h0, fun c v k hv => by simp [Proc.init] at hv⟩

/-- A core moves levels around; only a broadcast brings in a new one. -/
theorem CoreStep.okLevels {maxLevels : ℕ} {ok : ℕ → Prop} {c : Fin n} {P P' : Proc n} {a : Act}
    (h : CoreStep maxLevels c P a P') (hP : OkLevels ok P) (hb : ∀ v, a = .broadcast v → ok v) :
    OkLevels ok P' := by
  obtain ⟨-, hne, -⟩ := h.frame
  have hother : ∀ d v k, d ≠ c → (P'.pc d = .store v k ∨ P'.pc d = .assign v k) → ok v := by
    intro d v k hd hv
    rw [(hne d hd).1] at hv
    exact hP.cores d v k hv
  have hcores : (∀ v k, (P'.pc c = .store v k ∨ P'.pc c = .assign v k) → ok v) →
      ∀ d v k, (P'.pc d = .store v k ∨ P'.pc d = .assign v k) → ok v := by
    intro hc d v k hv
    by_cases hd : d = c
    · subst hd; exact hc v k hv
    · exact hother d v k hd hv
  cases h with
  | compareEq | compareNe | noOverrun | overrun =>
    exact ⟨hP.level, hP.locals, hcores fun v k hv => by simp at hv⟩
  | reload =>
    refine ⟨hP.level, hP.locals, hcores fun v k hv => ?_⟩
    have hv : P.systemCriticalityLevel = v := by simp at hv; exact hv.1
    rw [← hv]; exact hP.level
  | @store v k hpc =>
    have hv := hP.cores c v k (Or.inl hpc)
    refine ⟨hv, hP.locals, hcores fun w k' hw => ?_⟩
    have hw : v = w := by simp [Proc.setPc] at hw; exact hw.1
    rw [← hw]; exact hv
  | @assignSync v hpc | @assignOverrun v hpc =>
    refine ⟨hP.level, fun d => ?_, hcores fun w k hw => by simp [Proc.setPc] at hw⟩
    by_cases hd : d = c
    · subst hd; simpa using hP.cores d v _ (Or.inr hpc)
    · simpa [hd] using hP.locals d
  | @broadcast v =>
    refine ⟨hP.level, hP.locals, hcores fun w k hw => ?_⟩
    have hw : v = w := by simp at hw; exact hw.1
    rw [← hw]; exact hb v rfl

theorem Step.okLevels {maxLevels : ℕ} {ok : ℕ → Prop} {P P' : Proc n} {a : Label n}
    (h : Step maxLevels P a P') (hP : OkLevels ok P)
    (hb : ∀ c v, a = .core c (.broadcast v) → ok v) (hr : ∀ v, a = .recv v → ok v) :
    OkLevels ok P' := by
  cases h with
  | @core c a P' _ h => exact h.okLevels hP fun v hv => hb c v (by rw [hv])
  | enterReceive | endReceive => exact ⟨hP.level, hP.locals, hP.cores⟩
  | resume => exact ⟨hP.level, hP.locals, fun c v k hv => by simp at hv⟩
  | recv v _ =>
    unfold Proc.receive
    split_ifs
    · exact ⟨hr v rfl, hP.locals, hP.cores⟩
    · exact hP

/-- The cores are done with their ticks unless the timer waits for them. -/
def Idle (P : Proc n) : Prop := P.timer ≠ .wait → ∀ c, P.pc c = .done

theorem Step.idle {maxLevels : ℕ} {P P' : Proc n} {a : Label n} (h : Step maxLevels P a P')
    (hP : Idle P) : Idle P' := by
  cases h with
  | core ht h => exact fun hne => absurd (h.frame.1.trans ht) hne
  | enterReceive _ hd => exact fun _ => hd
  | recv m ht =>
    obtain ⟨hp, hτ, -⟩ := P.receive_frame maxLevels m
    intro hne; rw [hp]; exact hP (hτ ▸ hne)
  | endReceive ht => exact fun _ => hP (by simp [ht])
  | resume => exact fun hne => absurd rfl hne

/-- The levels about to be sent exist. -/
def SendsLevels (maxLevels : ℕ) (P : Proc n) : Prop :=
  ∀ c v, P.pc c = .broadcast v → v < maxLevels

theorem Step.sendsLevels {maxLevels : ℕ} {P P' : Proc n} {a : Label n} (h : Step maxLevels P a P')
    (hl : ∀ c, P.localCriticalityLevel c < maxLevels) (hP : SendsLevels maxLevels P) :
    SendsLevels maxLevels P' := by
  cases h with
  | @core c a P' _ h =>
    intro d v hv
    by_cases hd : d = c
    · subst hd
      cases h with
      | overrun job hpc =>
        simp only [Proc.setPc_pc_self, Pc.broadcast.injEq] at hv
        rw [← hv]; exact newCritLevel_lt job.wcet job.executedTime (hl d)
      | _ => simp [Proc.setPc] at hv
    · exact hP d v ((h.frame.2.1 d hd).1 ▸ hv)
  | enterReceive | endReceive => exact hP
  | resume => exact fun c v hv => by simp at hv
  | recv m _ => intro c v hv; exact hP c v ((P.receive_frame maxLevels m).1 ▸ hv)

/-- What core `c` is about to assign is no lower than its local level. -/
def FreshAt (P : Proc n) (c : Fin n) : Prop :=
  match P.pc c with
  | .start | .reload | .store _ .sync | .assign _ .sync => AtLeast (P.localCriticalityLevel c) P
  | .broadcast v | .store v .overrun | .assign v .overrun => P.localCriticalityLevel c ≤ v
  | .run | .done => True

def Fresh (P : Proc n) : Prop := ∀ c, FreshAt P c

theorem FreshAt.congr {P P' : Proc n} {c : Fin n} (hp : P'.pc c = P.pc c)
    (hl : P'.localCriticalityLevel c = P.localCriticalityLevel c)
    (ha : ∀ b, AtLeast b P → AtLeast b P') (h : FreshAt P c) : FreshAt P' c := by
  unfold FreshAt at h ⊢
  rw [hp, hl]
  split at h <;> simp_all

theorem CoreStep.freshAt {maxLevels : ℕ} {c : Fin n} {P P' : Proc n} {a : Act}
    (h : CoreStep maxLevels c P a P') (hP : FreshAt P c) : FreshAt P' c := by
  have ha : ∀ b, AtLeast b P → AtLeast b P' := fun b => h.atLeast
  unfold FreshAt at hP ⊢
  cases h with
  | compareEq h | noOverrun h => simp
  | compareNe h | reload h => simpa [h] using ha _ (by simpa [h] using hP)
  | @store v k h =>
    cases k with
    | sync => simpa [h, Proc.setPc] using ha _ (by simpa [h] using hP)
    | overrun => simpa [h, Proc.setPc] using hP
  | assignSync h | assignOverrun h => simp [Proc.setPc]
  | overrun job h => simpa using newCritLevel_ge maxLevels job.wcet job.executedTime _
  | broadcast h => simpa [h] using hP

theorem Step.fresh {maxLevels : ℕ} {P P' : Proc n} {a : Label n} (h : Step maxLevels P a P')
    (hrest : P.timer = .rest → ∀ c, P.localCriticalityLevel c ≤ P.systemCriticalityLevel)
    (hP : Fresh P) : Fresh P' := by
  have ha : ∀ b, AtLeast b P → AtLeast b P' := fun b => h.atLeast
  intro d
  cases h with
  | @core c a P' _ h =>
    by_cases hd : d = c
    · subst hd; exact h.freshAt (hP d)
    · exact (hP d).congr (h.frame.2.1 d hd).1 (h.frame.2.1 d hd).2 ha
  | enterReceive | endReceive => exact @FreshAt.congr _ P _ d rfl rfl ha (hP d)
  | recv m _ =>
    obtain ⟨hp, -, hl⟩ := P.receive_frame maxLevels m
    exact (hP d).congr (congrFun hp d) (congrFun hl d) ha
  | resume ht => exact ⟨hrest ht d, fun c => trivial⟩

/-- **A step of a fresh processor lowers no local level.** -/
theorem Step.local_le {maxLevels : ℕ} {P P' : Proc n} {a : Label n} (h : Step maxLevels P a P')
    (hP : Fresh P) (d : Fin n) : P.localCriticalityLevel d ≤ P'.localCriticalityLevel d := by
  cases h with
  | @core c a P' _ h =>
    by_cases hd : d = c
    · subst hd
      have hd := hP d
      cases h with
      | assignSync h =>
        have hc := (show AtLeast _ P by simpa [FreshAt, h] using hd).cores d
        rw [PcAtLeast, h] at hc
        simpa using hc
      | assignOverrun h => simpa [FreshAt, h] using hd
      | _ => exact le_rfl
    · exact ((h.frame.2.1 d hd).2).ge
  | enterReceive | endReceive | resume => exact le_rfl
  | recv m _ => rw [(P.receive_frame maxLevels m).2.2]

/-- A core that finishes its tick has a level no lower than any the processor
    cannot fall below. -/
theorem CoreStep.finish_le {maxLevels b : ℕ} {c : Fin n} {P P' : Proc n}
    (h : CoreStep maxLevels c P .finish P') (hb : AtLeast b P) :
    b ≤ P'.localCriticalityLevel c := by
  have hc := hb.cores c
  cases h with
  | assignOverrun h => rw [PcAtLeast, h] at hc; simpa using hc
  | noOverrun h => rw [PcAtLeast, h] at hc; exact hc

theorem AtLeast.of_idle {b : ℕ} {P : Proc n} (hl : b ≤ P.systemCriticalityLevel)
    (hd : ∀ c, P.pc c = .done) : AtLeast b P :=
  ⟨hl, fun c => by simp [PcAtLeast, hd c]⟩

/-- A received level is a lower bound from then on. -/
theorem Step.recv_atLeast {maxLevels v : ℕ} {P P' : Proc n} (h : Step maxLevels P (.recv v) P')
    (hP : Idle P) (hv : v < maxLevels) : AtLeast v P' := by
  cases h with
  | recv _ ht =>
    obtain ⟨hp, -, -⟩ := P.receive_frame maxLevels v
    refine AtLeast.of_idle ?_ fun c => by rw [hp]; exact hP (by simp [ht]) c
    unfold Proc.receive
    split_ifs with h
    · exact le_rfl
    · simp only [not_and, not_lt] at h
      by_contra hlt
      exact absurd (h (not_le.1 hlt)) (by omega)

/-- A core sends the level it holds. -/
theorem Step.pc_of_broadcast {maxLevels v : ℕ} {c : Fin n} {P P' : Proc n}
    (h : Step maxLevels P (.core c (.broadcast v)) P') : P.pc c = .broadcast v := by
  cases h with
  | core _ h => cases h with
    | broadcast h => exact h

/-- The only way into the rest phase. -/
theorem Step.eq_endReceive {maxLevels : ℕ} {P P' : Proc n} {a : Label n}
    (h : Step maxLevels P a P') (ht : P'.timer = .rest) : a = .endReceive := by
  cases h with
  | core hw h => rw [h.frame.1, hw] at ht; cases ht
  | recv m hr => rw [(P.receive_frame maxLevels m).2.1, hr] at ht; cases ht
  | enterReceive | resume => cases ht
  | endReceive => rfl

/-! ## All processors -/

/-- What a step of `i` does to the processors and to the packets. -/
theorem SysStep.cases {maxLevels : ℕ} {S S' : Sys p n} {i : Fin p} {a : Label n}
    (h : SysStep maxLevels S (i, a) S') :
    Step maxLevels (S.proc i) a (S'.proc i) ∧ (∀ j, j ≠ i → S'.proc j = S.proc j) ∧
    ((∃ c v, a = .core c (.broadcast v) ∧ (∀ j, S'.inbox j = (i, v) :: S.inbox j) ∧
        S'.sent = v :: S.sent) ∨
     (∃ q v, a = .recv v ∧ (q, v) ∈ S.inbox i ∧ S'.sent = S.sent ∧
        S'.inbox = Function.update S.inbox i ((S.inbox i).erase (q, v))) ∨
     ((∀ c v, a ≠ .core c (.broadcast v)) ∧ (∀ v, a ≠ .recv v) ∧ S'.sent = S.sent ∧
        S'.inbox = S.inbox ∧ (a = .endReceive → ∀ m ∈ S.inbox i, m.1 ≠ i))) := by
  cases h with
  | inner h ha =>
    refine ⟨by simpa using h, fun j hj => by simp [hj], Or.inr (Or.inr ⟨?_, ?_, rfl, rfl, ?_⟩)⟩
    · rintro c v rfl; simp [Label.isLocal] at ha
    · rintro v rfl; simp [Label.isLocal] at ha
    · rintro rfl; simp [Label.isLocal] at ha
  | broadcast h =>
    exact ⟨by simpa using h, fun j hj => by simp [hj], Or.inl ⟨_, _, rfl, fun _ => rfl, rfl⟩⟩
  | recv hm h =>
    exact ⟨by simpa using h, fun j hj => by simp [hj], Or.inr (Or.inl ⟨_, _, rfl, hm, rfl, rfl⟩)⟩
  | endReceive hown h =>
    exact ⟨by simpa using h, fun j hj => by simp [hj],
      Or.inr (Or.inr ⟨by simp, by simp, rfl, rfl, fun _ => hown⟩)⟩

/-- The processor cannot fall below `b`, or a packet of its own will raise it
    to `b` before its next tick. -/
def Covered (S : Sys p n) (i : Fin p) (b : ℕ) : Prop :=
  AtLeast b (S.proc i) ∨ ∃ v, b ≤ v ∧ (i, v) ∈ S.inbox i

/-- The invariant of the system. -/
structure Inv (maxLevels : ℕ) (S : Sys p n) : Prop where
  idle : ∀ i, Idle (S.proc i)
  fresh : ∀ i, Fresh (S.proc i)
  sends : ∀ i, SendsLevels maxLevels (S.proc i)
  sentLt : ∀ v ∈ S.sent, v < maxLevels
  inbox : ∀ i, ∀ m ∈ S.inbox i, m.2 ∈ S.sent
  /-- no own packet is left after the receive phase -/
  noOwn : ∀ i, (S.proc i).timer = .rest → ∀ m ∈ S.inbox i, m.1 ≠ i
  /-- every level is `0` or was sent -/
  levels : ∀ i, OkLevels (fun v => v ∈ 0 :: S.sent) (S.proc i)
  covered : ∀ i, OkLevels (Covered S i) (S.proc i)
  /-- what was sent has arrived or is on its way -/
  received : ∀ i, ∀ v ∈ S.sent, AtLeast v (S.proc i) ∨ ∃ m ∈ S.inbox i, m.2 = v

theorem Inv.level_lt {maxLevels : ℕ} {S : Sys p n} (h : Inv maxLevels S) (h0 : 0 < maxLevels)
    (i : Fin p) : OkLevels (· < maxLevels) (S.proc i) := by
  refine (h.levels i).mono fun v hv => ?_
  rcases List.mem_cons.1 hv with rfl | hv
  · exact h0
  · exact h.sentLt v hv

/-- **After a receive phase** the shared level is at least every local level of
    its processor. -/
theorem Inv.rest {maxLevels : ℕ} {S : Sys p n} (h : Inv maxLevels S) {i : Fin p}
    (ht : (S.proc i).timer = .rest) (c : Fin n) :
    (S.proc i).localCriticalityLevel c ≤ (S.proc i).systemCriticalityLevel := by
  rcases (h.covered i).locals c with hb | ⟨v, -, hv⟩
  · exact hb.level
  · exact absurd rfl (h.noOwn i ht _ hv)

theorem Inv.init {maxLevels : ℕ} : Inv maxLevels (Sys.init p n) where
  idle _ := fun hne => absurd rfl hne
  fresh _ := fun _ => AtLeast.zero _
  sends _ := fun c v hv => by simp [Sys.init, Proc.init] at hv
  sentLt := by simp [Sys.init]
  inbox := by simp [Sys.init]
  noOwn := by simp [Sys.init]
  levels _ := OkLevels.init (by simp)
  covered _ := OkLevels.init (Or.inl (AtLeast.zero _))
  received := by simp [Sys.init]

section
variable {maxLevels : ℕ} {S S' : Sys p n} {i : Fin p} {a : Label n}

theorem SysStep.atLeast (h : SysStep maxLevels S (i, a) S') {b : ℕ} {j : Fin p}
    (hb : AtLeast b (S.proc j)) : AtLeast b (S'.proc j) := by
  obtain ⟨hs, hne, -⟩ := h.cases
  by_cases hj : j = i
  · subst hj; exact hs.atLeast hb
  · rw [hne j hj]; exact hb

theorem SysStep.sent_subset (h : SysStep maxLevels S (i, a) S') {v : ℕ} (hv : v ∈ S.sent) :
    v ∈ S'.sent := by
  obtain ⟨-, -, ⟨c, w, -, -, he⟩ | ⟨q, w, -, -, he, -⟩ | ⟨-, -, he, -, -⟩⟩ := h.cases
  · rw [he]; exact List.mem_cons_of_mem _ hv
  · rw [he]; exact hv
  · rw [he]; exact hv

/-- A packet stays on its way until its level has been received. -/
theorem SysStep.packet (h : SysStep maxLevels S (i, a) S') (hI : Inv maxLevels S) {j : Fin p}
    {m : Fin p × ℕ} (hm : m ∈ S.inbox j) : m ∈ S'.inbox j ∨ AtLeast m.2 (S'.proc j) := by
  obtain ⟨hs, -, ⟨c, w, -, he, -⟩ | ⟨q, w, rfl, -, -, he⟩ | ⟨-, -, -, he, -⟩⟩ := h.cases
  · exact Or.inl (by rw [he]; exact List.mem_cons_of_mem _ hm)
  · by_cases hj : j = i
    · subst hj
      by_cases hq : m = (q, w)
      · have hw := hI.sentLt _ (hI.inbox j m hm)
        subst hq
        exact Or.inr (hs.recv_atLeast (hI.idle j) hw)
      · exact Or.inl (by rw [he, Function.update_self]; exact (List.mem_erase_of_ne hq).2 hm)
    · exact Or.inl (by rw [he, Function.update_of_ne hj]; exact hm)
  · exact Or.inl (by rw [he]; exact hm)

/-- A packet on its way was so before the step, or the step sends it. -/
theorem SysStep.packet_inv (h : SysStep maxLevels S (i, a) S') {j : Fin p} {m : Fin p × ℕ}
    (hm : m ∈ S'.inbox j) :
    m ∈ S.inbox j ∨ ∃ c v, a = .core c (.broadcast v) ∧ m = (i, v) ∧ S'.sent = v :: S.sent := by
  obtain ⟨-, -, ⟨c, w, rfl, he, hsent⟩ | ⟨q, w, rfl, -, -, he⟩ | ⟨-, -, -, he, -⟩⟩ := h.cases
  · rw [he] at hm
    rcases List.mem_cons.1 hm with rfl | hm
    · exact Or.inr ⟨c, w, rfl, rfl, hsent⟩
    · exact Or.inl hm
  · rw [he] at hm
    by_cases hj : j = i
    · subst hj; rw [Function.update_self] at hm; exact Or.inl (List.mem_of_mem_erase hm)
    · rw [Function.update_of_ne hj] at hm; exact Or.inl hm
  · rw [he] at hm; exact Or.inl hm

theorem SysStep.covered (h : SysStep maxLevels S (i, a) S') (hI : Inv maxLevels S) {j : Fin p}
    {b : ℕ} (hb : Covered S j b) : Covered S' j b := by
  rcases hb with hb | ⟨v, hv, hm⟩
  · exact Or.inl (h.atLeast hb)
  · rcases h.packet hI hm with hm | hb
    · exact Or.inr ⟨v, hv, hm⟩
    · exact Or.inl ⟨hv.trans hb.level, fun c => by
        have := hb.cores c
        unfold PcAtLeast at this ⊢
        split at this <;> simp_all <;> omega⟩

/-- A level a core broadcasts or the timer receives has been sent. -/
theorem SysStep.mem_sent (h : SysStep maxLevels S (i, a) S') (hI : Inv maxLevels S) {v : ℕ}
    (ha : (∃ c, a = .core c (.broadcast v)) ∨ a = .recv v) : v ∈ S'.sent := by
  obtain ⟨-, -, ⟨c, w, rfl, -, he⟩ | ⟨q, w, rfl, hm, he, -⟩ | ⟨hb, hr, -⟩⟩ := h.cases
  · rcases ha with ⟨d, hd⟩ | hd
    · cases hd; rw [he]; exact List.mem_cons_self
    · cases hd
  · rcases ha with ⟨d, hd⟩ | hd
    · cases hd
    · cases hd; rw [he]; exact hI.inbox i _ hm
  · rcases ha with ⟨d, hd⟩ | hd
    · exact absurd hd (hb d v)
    · exact absurd hd (hr v)

/-- What holds of every processor and is kept by its steps is kept. -/
theorem SysStep.proc_induct (h : SysStep maxLevels S (i, a) S') {Q Q' : Fin p → Proc n → Prop}
    (hQ : ∀ j, Q j (S.proc j)) (hmono : ∀ j P, Q j P → Q' j P)
    (hstep : Step maxLevels (S.proc i) a (S'.proc i) → Q' i (S.proc i) → Q' i (S'.proc i))
    (j : Fin p) : Q' j (S'.proc j) := by
  obtain ⟨hs, hne, -⟩ := h.cases
  by_cases hj : j = i
  · subst hj; exact hstep hs (hmono j _ (hQ j))
  · rw [hne j hj]; exact hmono j _ (hQ j)

/-- **The invariant is kept by every step.** -/
theorem SysStep.inv (h0 : 0 < maxLevels) (h : SysStep maxLevels S (i, a) S')
    (hI : Inv maxLevels S) : Inv maxLevels S' where
  idle := h.proc_induct hI.idle (fun _ _ => id) fun hs => hs.idle
  fresh := h.proc_induct hI.fresh (fun _ _ => id) fun hs => hs.fresh hI.rest
  sends := h.proc_induct hI.sends (fun _ _ => id) fun hs => hs.sendsLevels (hI.level_lt h0 i).locals
  sentLt := by
    intro v hv
    obtain ⟨hs, -, ⟨c, w, rfl, -, he⟩ | ⟨q, w, -, -, he, -⟩ | ⟨-, -, he, -, -⟩⟩ := h.cases
    · rw [he] at hv
      rcases List.mem_cons.1 hv with rfl | hv
      · exact hI.sends i c v hs.pc_of_broadcast
      · exact hI.sentLt v hv
    · exact hI.sentLt v (he ▸ hv)
    · exact hI.sentLt v (he ▸ hv)
  inbox := by
    intro j m hm
    rcases h.packet_inv hm with hm | ⟨c, v, -, rfl, he⟩
    · exact h.sent_subset (hI.inbox j m hm)
    · rw [he]; exact List.mem_cons_self
  noOwn := by
    intro j ht m hm hown
    obtain ⟨hs, hne, hcase⟩ := h.cases
    by_cases hj : j = i
    · subst hj
      obtain rfl := hs.eq_endReceive ht
      obtain ⟨c, w, ha, -⟩ | ⟨q, w, ha, -⟩ | ⟨-, -, -, he, hend⟩ := hcase
      · cases ha
      · cases ha
      · exact hend rfl m (he ▸ hm) hown
    · rw [hne j hj] at ht
      rcases h.packet_inv hm with hm | ⟨c, v, -, rfl, -⟩
      · exact hI.noOwn j ht m hm hown
      · exact hj hown.symm
  levels := by
    refine h.proc_induct hI.levels (fun j P hP => hP.mono fun v hv => ?_) fun hs hP => ?_
    · exact (List.mem_cons.1 hv).elim (fun e => e ▸ List.mem_cons_self)
        fun hv => List.mem_cons_of_mem _ (h.sent_subset hv)
    · exact hs.okLevels hP
        (fun c v ha => List.mem_cons_of_mem _ (h.mem_sent hI (Or.inl ⟨c, ha⟩)))
        fun v ha => List.mem_cons_of_mem _ (h.mem_sent hI (Or.inr ha))
  covered := by
    refine h.proc_induct hI.covered (fun j P hP => hP.mono fun v => h.covered hI) fun hs hP => ?_
    refine hs.okLevels hP (fun c v ha => ?_) fun v ha => ?_
    · obtain ⟨-, -, ⟨d, w, hb, he, -⟩ | ⟨q, w, hb, -⟩ | ⟨hb, -⟩⟩ := h.cases
      · cases ha.symm.trans hb
        exact Or.inr ⟨v, le_rfl, by rw [he]; exact List.mem_cons_self⟩
      · cases ha.symm.trans hb
      · exact absurd ha (hb c v)
    · subst ha
      obtain ⟨-, -, ⟨d, w, hb, -⟩ | ⟨q, w, hb, hm, -⟩ | ⟨-, hb, -⟩⟩ := h.cases
      · cases hb
      · cases hb
        exact Or.inl (hs.recv_atLeast (hI.idle i) (hI.sentLt _ (hI.inbox i _ hm)))
      · exact absurd rfl (hb v)
  received := by
    intro j v hv
    by_cases hold : v ∈ S.sent
    · rcases hI.received j v hold with hb | ⟨m, hm, rfl⟩
      · exact Or.inl (h.atLeast hb)
      · rcases h.packet hI hm with hm | hb
        · exact Or.inr ⟨m, hm, rfl⟩
        · exact Or.inl hb
    · obtain ⟨-, -, ⟨c, w, -, he, hs⟩ | ⟨q, w, -, -, hs, -⟩ | ⟨-, -, hs, -, -⟩⟩ := h.cases
      · rw [hs] at hv
        rcases List.mem_cons.1 hv with rfl | hv
        · exact Or.inr ⟨(i, v), by rw [he]; exact List.mem_cons_self, rfl⟩
        · exact absurd hv hold
      · exact absurd (hs ▸ hv) hold
      · exact absurd (hs ▸ hv) hold

theorem SysStep.localLevel_le (h : SysStep maxLevels S (i, a) S') (hI : Inv maxLevels S)
    (j : Fin p) (c : Fin n) :
    (S.proc j).localCriticalityLevel c ≤ (S'.proc j).localCriticalityLevel c := by
  obtain ⟨hs, hne, -⟩ := h.cases
  by_cases hj : j = i
  · subst hj; exact hs.local_le (hI.fresh j) c
  · rw [hne j hj]

end

theorem inv_of_exec {maxLevels : ℕ} (h0 : 0 < maxLevels)
    {tr : List (Trans (Sys p n) (Fin p × Label n))} {S : Sys p n}
    (h : Exec (SysStep maxLevels) (Sys.init p n) tr S) : Inv maxLevels S :=
  h.invariant Inv.init fun _ _ _ hI hs => hs.inv h0 hI

/-! ## A tick without broadcasts -/

/-- No core sends a level in the run. -/
def Quiet (tr : List (Trans (Sys p n) (Fin p × Label n))) : Prop :=
  ∀ x ∈ tr, ∀ i c v, x.lab ≠ (i, .core c (.broadcast v))

/-- The largest level sent, `0` if there is none. -/
def Sys.maxSent (S : Sys p n) : ℕ := S.sent.foldr max 0

theorem Sys.le_maxSent {S : Sys p n} {v : ℕ} (hv : v ∈ 0 :: S.sent) : v ≤ S.maxSent := by
  rcases List.mem_cons.1 hv with rfl | hv
  · exact Nat.zero_le _
  · exact List.le_max_of_le' 0 hv le_rfl

theorem Sys.maxSent_mem (S : Sys p n) : S.maxSent = 0 ∨ S.maxSent ∈ S.sent := by
  unfold maxSent
  induction S.sent with
  | nil => exact Or.inl rfl
  | cons v l ih =>
    rcases le_total v (l.foldr max 0) with h | h
    · rw [List.foldr_cons, max_eq_right h]
      exact ih.imp_right (List.mem_cons_of_mem _)
    · rw [List.foldr_cons, max_eq_left h]
      exact Or.inr List.mem_cons_self

/-- With no packet on its way, every processor is at the largest level. -/
theorem Inv.atLeast_maxSent {maxLevels : ℕ} {S : Sys p n} (h : Inv maxLevels S)
    (he : ∀ i, S.inbox i = []) (i : Fin p) : AtLeast S.maxSent (S.proc i) := by
  rcases S.maxSent_mem with h0 | hm
  · rw [h0]; exact AtLeast.zero _
  · rcases h.received i _ hm with hb | ⟨m, hm, -⟩
    · exact hb
    · rw [he] at hm; simp at hm

/-- In a quiet run nothing is sent, lower bounds stay, and a core that has
    finished a tick is above them for good. -/
theorem Inv.quiet {maxLevels : ℕ} (h0 : 0 < maxLevels) {S S' : Sys p n}
    {tr : List (Trans (Sys p n) (Fin p × Label n))} (hI : Inv maxLevels S)
    (h : Exec (SysStep maxLevels) S tr S') (hq : Quiet tr) {b : ℕ} (hb : ∀ i, AtLeast b (S.proc i)) :
    Inv maxLevels S' ∧ S'.sent = S.sent ∧ (∀ i, AtLeast b (S'.proc i)) ∧
      ∀ i c, (∃ x ∈ tr, x.lab = (i, .core c .finish)) → b ≤ (S'.proc i).localCriticalityLevel c := by
  induction h with
  | nil => exact ⟨hI, rfl, hb, fun i c hx => by simp at hx⟩
  | @snoc tr T a T' _ hs ih =>
    obtain ⟨hT, hsent, hbT, hfin⟩ := ih fun x hx => hq x (List.mem_append_left _ hx)
    obtain ⟨j, a⟩ := a
    have hqa := hq ⟨T, (j, a), T'⟩ (by simp)
    refine ⟨hs.inv h0 hT, ?_, fun i => hs.atLeast (hbT i), ?_⟩
    · obtain ⟨-, -, ⟨c, w, ha, -⟩ | ⟨q, w, -, -, he, -⟩ | ⟨-, -, he, -⟩⟩ := hs.cases
      · exact absurd (by rw [ha]) (hqa j c w)
      · rw [he, hsent]
      · rw [he, hsent]
    · rintro i c ⟨x, hx, hl⟩
      rcases List.mem_append.1 hx with hx | hx
      · exact (hfin i c ⟨x, hx, hl⟩).trans (hs.localLevel_le hT i c)
      · obtain rfl := List.mem_singleton.1 hx
        obtain ⟨rfl, rfl⟩ := Prod.mk.inj hl
        cases hs.cases.1 with
        | core _ hc => exact hc.finish_le (hbT j)

/-- Once every packet has arrived and every core has finished a tick without
    a broadcast, all cores are at the largest level ever sent. -/
theorem Inv.localLevel_eq {maxLevels : ℕ} (h0 : 0 < maxLevels) {S S' : Sys p n}
    (hI : Inv maxLevels S) (he : ∀ i, S.inbox i = [])
    {tr : List (Trans (Sys p n) (Fin p × Label n))} (h : Exec (SysStep maxLevels) S tr S')
    (hq : Quiet tr) (hf : ∀ i c, ∃ x ∈ tr, x.lab = (i, .core c .finish)) (i : Fin p) (c : Fin n) :
    (S'.proc i).localCriticalityLevel c = S'.maxSent := by
  obtain ⟨hI', hsent, -, hle⟩ := hI.quiet h0 h hq (hI.atLeast_maxSent he)
  have hmax : S'.maxSent = S.maxSent := by rw [Sys.maxSent, hsent, Sys.maxSent]
  exact le_antisymm (S'.le_maxSent ((hI'.levels i).locals c)) (hmax ▸ hle i c (hf i c))

/-- **Monotone levels and agreement.** In every run of `p` processors of `n`
    cores no step lowers a local level; after a receive phase the shared level
    is at least the local levels of its processor and is a level; and when
    every packet has arrived, a run without broadcasts in which every core
    finishes a tick leaves all cores at the largest level ever sent. -/
theorem levels_agree {maxLevels : ℕ} (h0 : 0 < maxLevels)
    {tr : List (Trans (Sys p n) (Fin p × Label n))} {S : Sys p n}
    (h : Exec (SysStep maxLevels) (Sys.init p n) tr S) :
    (∀ x ∈ tr, ∀ i c, (x.pre.proc i).localCriticalityLevel c ≤
      (x.post.proc i).localCriticalityLevel c) ∧
    (∀ i, (S.proc i).timer = .rest → (∀ c, (S.proc i).localCriticalityLevel c ≤
      (S.proc i).systemCriticalityLevel) ∧ (S.proc i).systemCriticalityLevel < maxLevels) ∧
    ((∀ i, S.inbox i = []) → ∀ tr' S', Exec (SysStep maxLevels) S tr' S' → Quiet tr' →
      (∀ i c, ∃ x ∈ tr', x.lab = (i, .core c .finish)) →
      ∀ i c, (S'.proc i).localCriticalityLevel c = S'.maxSent) := by
  have hI := inv_of_exec h0 h
  refine ⟨fun x hx i c => ?_, fun i ht => ⟨hI.rest ht, (hI.level_lt h0 i).level⟩,
    fun he tr' S' h' hq hf i c => hI.localLevel_eq h0 he h' hq hf i c⟩
  obtain ⟨⟨tr₀, h⟩, hs⟩ := h.of_mem hx
  exact SysStep.localLevel_le (i := _) (a := _) hs (inv_of_exec h0 h) i c

/-- One core overruns to level 1, the packet is received, and the core runs one
    more tick. -/
theorem levels_agree_overrun :
    ∃ S : Sys 1 1, Reachable (SysStep 2) (Sys.init 1 1) S ∧
      (S.proc 0).localCriticalityLevel 0 = 1 := by
  have hone : ∀ c : Fin 1, c = 0 := fun c => Subsingleton.elim c 0
  have hv : newCritLevel 2 (fun level => level + 1) 1 0 = 1 := by decide +kernel
  have hover : ∀ P : Proc 1, P.pc 0 = .run → P.localCriticalityLevel 0 = 0 →
      CoreStep 2 0 P (.overrun ⟨fun level => level + 1, 1⟩) (P.setPc 0 (.broadcast 1)) := fun P hpc hl => by
    have h : CoreStep 2 0 P _ _ := .overrun ⟨fun level => level + 1, 1⟩ hpc
    rwa [hl, hv] at h
  have overrun : Exec (SysStep 2) (Sys.init 1 1) _ _ :=
    ((((Exec.nil.snoc (.inner (i := 0) (.core (c := 0) rfl (.compareEq rfl rfl)) rfl)).snoc
      (.inner (i := 0) (.core (c := 0) rfl (hover _ rfl rfl)) rfl)).snoc
      (.broadcast (i := 0) (.core rfl (.broadcast (c := 0) rfl)))).snoc
      (.inner (i := 0) (.core rfl (.store (c := 0) rfl)) rfl)).snoc
      (.inner (i := 0) (.core rfl (.assignOverrun (c := 0) rfl)) rfl)
  have received := (((overrun.snoc
      (.inner (i := 0) (.enterReceive rfl fun c => by rw [hone c]; rfl) rfl)).snoc
      (.recv (i := 0) List.mem_cons_self (.recv _ rfl))).snoc
      (.endReceive (i := 0) (by simp [Sys.init]) (.endReceive rfl))).snoc
      (.inner (i := 0) (.resume rfl) rfl)
  obtain ⟨tr, S, hr, he, hs, ht, hl⟩ : ∃ tr S, Exec (SysStep 2) (Sys.init 1 1) tr S ∧
      S.inbox 0 = [] ∧ (S.proc 0).pc 0 = .start ∧ (S.proc 0).timer = .wait ∧
      (S.proc 0).localCriticalityLevel 0 = (S.proc 0).systemCriticalityLevel ∧ S.sent = [1] :=
    ⟨_, _, received, rfl, rfl, rfl, rfl, rfl⟩
  have begins : SysStep 2 S (0, .core 0 .begin) _ := .inner (.core ht (.compareEq hs hl.1)) rfl
  have quiet := (Exec.nil.snoc begins).snoc
    (.inner (i := 0) (.core (c := 0) (by simpa using ht) (.noOverrun (by simp))) rfl)
  refine ⟨_, ⟨_, hr.append quiet⟩, ?_⟩
  rw [(levels_agree (by decide) hr).2.2 (fun i => by rw [hone i]; exact he) _ _ quiet
    (by simp [Quiet])
    (fun i c => ⟨_, List.mem_append_right _ List.mem_cons_self, by rw [hone i, hone c]⟩) 0 0]
  simp [Sys.maxSent, hl.2]

end EeftSched.Criticality

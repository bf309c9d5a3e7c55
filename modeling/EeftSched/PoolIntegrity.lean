/-
  The job pools keep their jobs (`task_management.c`).

  A step of a thread leaves alone what the points of the others speak of: the
  list of a pool is its owner's, the remote one that of whoever has the lock,
  and a job off the lists is in one pair of hands or counted.

  * `Inv.keep`: the rule for a step that moves no job;
  * `Step.inv`: every step keeps the invariant, and does to the lists what
    `ListStep` says;
  * `pool_integrity`: what holds in every run.
-/
import EeftSched.JobPool
import EeftSched.Held

namespace EeftSched.JobPool

open Lts LinkedList

variable {n : ℕ} {S S' : Pools n} {L R L' R' : Fin n → List (JobId n)} {θ η : Thread n} {c : Fin n}
  {j : JobId n} {q : Pc n} {a : Label n}

/-! ## One thread among the others -/

@[simp] theorem goto_pc_self : (S.goto θ q).pc θ = q := Function.update_self ..

theorem goto_pc_ne (hη : η ≠ θ) : (S.goto θ q).pc η = S.pc η := Function.update_of_ne hη ..

/-- What a step of thread `θ` leaves alone -/
structure Others (S S' : Pools n) (θ : Thread n) : Prop where
  pc : ∀ η ≠ θ, S'.pc η = S.pc η
  free : ∀ c, θ ≠ some c → S'.freeList c = S.freeList c
  remote : ∀ c, (S.pc θ).holds θ ≠ some c → S'.remoteFreeList c = S.remoteFreeList c
  lock : ∀ c, ∀ η ≠ θ, S'.remoteLock c = some η ↔ S.remoteLock c = some η
  next : ∀ j, (S.pc θ).hand ≠ some j → S'.nextFree j = S.nextFree j
  job : ∀ j, (∃ η ≠ θ, (S.pc η).hand = some j) → S'.job j = S.job j

/-- The point of a thread is right as long as its pool's list, the job in its
    hands and the list whose lock it has are what they were. -/
theorem PcOk.frame (h : PcOk S θ q) (hfree : ∀ c, θ = some c → S'.freeList c = S.freeList c)
    (hhand : ∀ j, q.hand = some j → S'.nextFree j = S.nextFree j ∧ S'.job j = S.job j)
    (hremote : ∀ c, q.holds θ = some c → S'.remoteFreeList c = S.remoteFreeList c) : PcOk S' θ q := by
  cases q with
  | idle | remoteUnlock | create | createUnlock | pop | fill | localNext | remoteLock | remoteNext =>
    exact h
  | createLock | takeOver =>
    obtain ⟨c, hc, hf⟩ := h
    exact ⟨c, hc, (hfree c hc).trans hf⟩
  | count j =>
    obtain ⟨hθ, hp⟩ := h
    exact ⟨hθ, by rw [(hhand j rfl).2, hp]⟩
  | offered j =>
    obtain ⟨hθ, hp, hr⟩ := h
    exact ⟨hθ, by rw [(hhand j rfl).2, hp], by rw [(hhand j rfl).2, hr]⟩
  | release j =>
    have hp : (S.job j).jobPoolId = j.1 := h
    show (S'.job j).jobPoolId = j.1
    rw [(hhand j rfl).2, hp]
  | localHead j owner =>
    obtain ⟨hn, -⟩ := hhand j rfl
    obtain ⟨ho, hθ, hf⟩ := h
    exact ⟨ho, hθ, by rw [hn, hfree owner hθ, hf]⟩
  | remoteHead j owner =>
    obtain ⟨hn, -⟩ := hhand j rfl
    obtain ⟨ho, hθ, hf⟩ := h
    exact ⟨ho, hθ, by rw [hn, hremote owner rfl, hf]⟩

namespace Inv

theorem pcs_of (h : Inv S L R) (ho : Others S S' θ) (hpc : PcOk S' θ (S'.pc θ)) (η : Thread n) :
    PcOk S' η (S'.pc η) := by
  by_cases hη : η = θ
  · rw [hη]
    exact hpc
  · rw [ho.pc η hη]
    refine (h.pcs η).frame (fun c hc => ho.free c ?_) (fun j hj => ⟨ho.next j ?_, ho.job j ⟨η, hη, hj⟩⟩)
      (fun c hc => ho.remote c ?_)
    · rw [← hc]
      exact Ne.symm hη
    · exact fun hθ => hη (h.unique θ η j hθ hj)
    · intro hθ
      -- two threads would have the lock
      have h1 := (h.lock η c).2 hc
      rw [(h.lock θ c).2 hθ] at h1
      exact hη (Option.some.inj h1).symm

theorem lock_of (h : Inv S L R) (ho : Others S S' θ)
    (hlock : ∀ c, S'.remoteLock c = some θ ↔ (S'.pc θ).holds θ = some c) (η : Thread n) (c : Fin n) :
    S'.remoteLock c = some η ↔ (S'.pc η).holds η = some c := by
  by_cases hη : η = θ
  · rw [hη]
    exact hlock c
  · rw [ho.lock c η hη, ho.pc η hη]
    exact h.lock η c

/-- A list keeps its nodes when the job in the hands of the thread changes. -/
theorem chain_of (h : Inv S L R) (ho : Others S S' θ) {p : Option (JobId n)} {l : List (JobId n)}
    (hl : Chain S.nextFree p l) (hsub : ∀ j ∈ l, j ∈ L j.1 ++ R j.1) : Chain S'.nextFree p l :=
  hl.congr fun j hj => ho.next j fun hθ => (h.hand θ j hθ).2 (hsub j hj)

theorem mem_free (h : Inv S L R) (hj : j ∈ L c) : j ∈ L j.1 ++ R j.1 := by
  rw [h.own c j (List.mem_append_left _ hj)]
  exact List.mem_append_left _ hj

theorem mem_remote (h : Inv S L R) (hj : j ∈ R c) : j ∈ L j.1 ++ R j.1 := by
  rw [h.own c j (List.mem_append_right _ hj)]
  exact List.mem_append_right _ hj

/-- A job is live iff it is on no list. -/
theorem live_iff (h : Inv S L R) (j : JobId n) : Live S j ↔ j ∉ L j.1 ++ R j.1 := by
  refine ⟨?_, h.live j⟩
  rintro (hr | ⟨θ, hθ⟩)
  · exact (h.counted j hr).1
  · exact (h.hand θ j hθ).2

/-- The job in the hands of a thread -/
theorem hand_live (h : Inv S L R) (hp : S.pc θ = q) (hq : q.hand = some j) :
    S.refs j = 0 ∧ j ∉ L j.1 ++ R j.1 := by
  rw [← hp] at hq
  exact h.hand θ j hq

/-- **A step that moves no job**: the thread has the same job in its hands, and
    the lists have the same jobs. -/
theorem keep (h : Inv S L R) (ho : Others S S' θ) (hhand : (S'.pc θ).hand = (S.pc θ).hand)
    (hrefs : S'.refs = S.refs) (hjob : ∀ j, 0 < S.refs j → S'.job j = S.job j)
    (hmem : ∀ c j, j ∈ L' c ++ R' c ↔ j ∈ L c ++ R c) (hnodup : ∀ c, (L' c ++ R' c).Nodup)
    (hfree : ∀ c, Chain S'.nextFree (S'.freeList c) (L' c))
    (hremote : ∀ c, Chain S'.nextFree (S'.remoteFreeList c) (R' c)) (hpc : PcOk S' θ (S'.pc θ))
    (hlock : ∀ c, S'.remoteLock c = some θ ↔ (S'.pc θ).holds θ = some c) : Inv S' L' R' := by
  have hhands : ∀ η, (S'.pc η).hand = (S.pc η).hand := by
    intro η
    by_cases hη : η = θ
    · rw [hη, hhand]
    · rw [ho.pc η hη]
  refine ⟨hfree, hremote, ?_, hnodup, ?_, ?_, ?_, ?_, h.pcs_of ho hpc, h.lock_of ho hlock⟩
  · intro c j hj
    exact h.own c j ((hmem c j).1 hj)
  · intro η j hj
    rw [hhands] at hj
    rw [hrefs, hmem]
    exact h.hand η j hj
  · intro η η' j hj hj'
    rw [hhands] at hj hj'
    exact h.unique η η' j hj hj'
  · intro j hj
    rw [hrefs] at hj
    rw [hmem, hrefs, hjob j hj]
    exact h.counted j hj
  · intro j hj
    rw [hmem] at hj
    unfold Live
    simp only [hhands, hrefs]
    exact h.live j hj

/-- A step that leaves the heads of the lists alone too -/
theorem keep_heads (h : Inv S L R) (ho : Others S S' θ) (hhand : (S'.pc θ).hand = (S.pc θ).hand)
    (hrefs : S'.refs = S.refs) (hjob : ∀ j, 0 < S.refs j → S'.job j = S.job j)
    (hfree : S'.freeList = S.freeList) (hremote : S'.remoteFreeList = S.remoteFreeList)
    (hpc : PcOk S' θ (S'.pc θ))
    (hlock : ∀ c, S'.remoteLock c = some θ ↔ (S'.pc θ).holds θ = some c) : Inv S' L R := by
  refine h.keep ho hhand hrefs hjob (fun _ _ => Iff.rfl) h.nodup ?_ ?_ hpc hlock
  · intro c
    rw [hfree]
    exact h.chain_of ho (h.free c) fun j hj => h.mem_free hj
  · intro c
    rw [hremote]
    exact h.chain_of ho (h.remote c) fun j hj => h.mem_remote hj

/-! ### Steps that move no job -/

variable {q' : Pc n} {r : JobRec} {p : Option (JobId n)}

theorem others_goto : Others S (S.goto θ q) θ :=
  ⟨fun _ hη => goto_pc_ne hη, fun _ _ => rfl, fun _ _ => rfl, fun _ _ _ => Iff.rfl, fun _ _ => rfl,
    fun _ _ => rfl⟩

theorem others_setLock {l : Option (Thread n)} (hl : S.remoteLock c = none ∨ S.remoteLock c = some θ)
    (hl' : l = none ∨ l = some θ) : Others S ((S.setLock c l).goto θ q) θ := by
  refine ⟨fun _ hη => goto_pc_ne hη, fun _ _ => rfl, fun _ _ => rfl, ?_, fun _ _ => rfl, fun _ _ => rfl⟩
  intro d η hη
  show Function.update S.remoteLock c l d = some η ↔ _
  by_cases hd : d = c
  · -- neither the old nor the new value is another thread
    have hne : ∀ l' : Option (Thread n), l' = none ∨ l' = some θ → l' ≠ some η := by
      rintro l' (rfl | rfl)
      · nofun
      · exact fun heq => hη (Option.some.inj heq).symm
    rw [hd, Function.update_self]
    exact ⟨fun h => absurd h (hne _ hl'), fun h => absurd h (hne _ hl)⟩
  · rw [Function.update_of_ne hd]

/-- The thread goes on, without a write. -/
theorem goto (h : Inv S L R) (hp : S.pc θ = q) (hhand : q'.hand = q.hand)
    (hholds : q'.holds θ = q.holds θ) (hpc : PcOk S θ q') : Inv (S.goto θ q') L R := by
  refine h.keep_heads others_goto ?_ rfl (fun _ _ => rfl) rfl rfl ?_ ?_
  · rw [goto_pc_self, hhand, hp]
  · rw [goto_pc_self]
    exact hpc.frame (fun _ _ => rfl) (fun _ _ => ⟨rfl, rfl⟩) fun _ _ => rfl
  · intro c
    rw [goto_pc_self, hholds, ← hp]
    exact h.lock θ c

/-- The thread takes a lock. -/
theorem lockStep (h : Inv S L R) (hp : S.pc θ = q) (hhand : q'.hand = q.hand) (hq : q.holds θ = none)
    (hq' : q'.holds θ = some c) (hl : S.remoteLock c = none) (hpc : PcOk S θ q') :
    Inv ((S.setLock c (some θ)).goto θ q') L R := by
  refine h.keep_heads (others_setLock (.inl hl) (.inr rfl)) ?_ rfl (fun _ _ => rfl) rfl rfl ?_ ?_
  · rw [goto_pc_self, hhand, hp]
  · rw [goto_pc_self]
    exact hpc.frame (fun _ _ => rfl) (fun _ _ => ⟨rfl, rfl⟩) fun _ _ => rfl
  · intro d
    rw [goto_pc_self, hq']
    show Function.update S.remoteLock c (some θ) d = some θ ↔ _
    by_cases hd : d = c
    · rw [hd, Function.update_self]
      exact ⟨fun _ => rfl, fun _ => rfl⟩
    · rw [Function.update_of_ne hd, h.lock θ d, hp, hq]
      exact ⟨nofun, fun heq => absurd (Option.some.inj heq).symm hd⟩

/-- The thread gives a lock back. -/
theorem unlockStep (h : Inv S L R) (hp : S.pc θ = q) (hhand : q'.hand = q.hand)
    (hq : q.holds θ = some c) (hq' : q'.holds θ = none) (hpc : PcOk S θ q') :
    Inv ((S.setLock c none).goto θ q') L R := by
  have hl : S.remoteLock c = some θ := (h.lock θ c).2 (by rw [hp, hq])
  refine h.keep_heads (others_setLock (.inr hl) (.inl rfl)) ?_ rfl (fun _ _ => rfl) rfl rfl ?_ ?_
  · rw [goto_pc_self, hhand, hp]
  · rw [goto_pc_self]
    exact hpc.frame (fun _ _ => rfl) (fun _ _ => ⟨rfl, rfl⟩) fun _ _ => rfl
  · intro d
    rw [goto_pc_self, hq']
    show Function.update S.remoteLock c none d = some θ ↔ _
    by_cases hd : d = c
    · rw [hd, Function.update_self]
      exact ⟨nofun, nofun⟩
    · rw [Function.update_of_ne hd, h.lock θ d, hp, hq]
      exact ⟨fun heq => absurd (Option.some.inj heq).symm hd, nofun⟩

/-- The thread writes to the job in its hands. -/
theorem write (h : Inv S L R) (hp : S.pc θ = q) (hj : q.hand = some j) (hj' : q'.hand = some j)
    (hholds : q'.holds θ = q.holds θ) (hpc : PcOk (S.setJob j r) θ q') :
    Inv ((S.setJob j r).goto θ q') L R := by
  obtain ⟨hr, -⟩ := h.hand_live hp hj
  have hjob : ∀ i ≠ j, (S.setJob j r).job i = S.job i := fun i hi => Jobs.set_ne _ _ hi
  have ho : Others S ((S.setJob j r).goto θ q') θ := by
    refine ⟨fun _ hη => goto_pc_ne hη, fun _ _ => rfl, fun _ _ => rfl, fun _ _ _ => Iff.rfl,
      fun _ _ => rfl, ?_⟩
    rintro i ⟨η, hη, hi⟩
    refine hjob i fun heq => hη ?_
    rw [heq] at hi
    exact h.unique θ η j (by rw [hp, hj]) hi
  refine h.keep_heads ho ?_ rfl ?_ rfl rfl ?_ ?_
  · rw [goto_pc_self, hj', hp, hj]
  · intro i hi
    refine hjob i fun heq => ?_
    rw [heq, hr] at hi
    exact absurd hi (lt_irrefl 0)
  · rw [goto_pc_self]
    exact hpc.frame (fun _ _ => rfl) (fun _ _ => ⟨rfl, rfl⟩) fun _ _ => rfl
  · intro c
    rw [goto_pc_self, hholds, ← hp]
    exact h.lock θ c

/-- The thread writes the pointer of the job in its hands. -/
theorem link (h : Inv S L R) (hp : S.pc θ = q) (hj : q.hand = some j) (hj' : q'.hand = some j)
    (hholds : q'.holds θ = q.holds θ) (hpc : PcOk (S.setNext j p) θ q') :
    Inv ((S.setNext j p).goto θ q') L R := by
  have ho : Others S ((S.setNext j p).goto θ q') θ := by
    refine ⟨fun _ hη => goto_pc_ne hη, fun _ _ => rfl, fun _ _ => rfl, fun _ _ _ => Iff.rfl, ?_,
      fun _ _ => rfl⟩
    intro i hi
    refine Function.update_of_ne (fun heq => hi ?_) _ _
    rw [hp, hj, heq]
  refine h.keep_heads ho ?_ rfl (fun _ _ => rfl) rfl rfl ?_ ?_
  · rw [goto_pc_self, hj', hp, hj]
  · rw [goto_pc_self]
    exact hpc.frame (fun _ _ => rfl) (fun _ _ => ⟨rfl, rfl⟩) fun _ _ => rfl
  · intro c
    rw [goto_pc_self, hholds, ← hp]
    exact h.lock θ c

/-- The count of a job changes with its references, and something is left. -/
theorem recount (h : Inv S L R) {k : ℕ} (hr : 0 < S.refs j) (hk : 0 < k) (hc : r.refcount = k)
    (hid : r.jobPoolId = (S.job j).jobPoolId) : Inv ((S.setJob j r).setRefs j k) L R := by
  obtain ⟨hoff, -, hown⟩ := h.counted j hr
  have hself : ((S.setJob j r).setRefs j k).refs j = k := Function.update_self ..
  have hne : ∀ i ≠ j, ((S.setJob j r).setRefs j k).refs i = S.refs i ∧
      ((S.setJob j r).setRefs j k).job i = S.job i :=
    fun i hi => ⟨Function.update_of_ne hi .., Jobs.set_ne _ _ hi⟩
  have hhand : ∀ {η : Thread n} {i : JobId n}, (S.pc η).hand = some i → i ≠ j := by
    rintro η i hi rfl
    rw [(h.hand η i hi).1] at hr
    exact absurd hr (lt_irrefl 0)
  refine ⟨h.free, h.remote, h.own, h.nodup, ?_, h.unique, ?_, ?_, ?_, h.lock⟩
  · intro η i hi
    rw [(hne i (hhand hi)).1]
    exact h.hand η i hi
  · intro i hi
    by_cases hij : i = j
    · rw [hij, hself]
      refine ⟨hoff, ?_, ?_⟩
      · show (S.job.set j r j).refcount = k
        rw [Jobs.set_self, hc]
      · show (S.job.set j r j).jobPoolId = j.1
        rw [Jobs.set_self, hid, hown]
    · rw [(hne i hij).1] at hi ⊢
      rw [(hne i hij).2]
      exact h.counted i hi
  · intro i hi
    by_cases hij : i = j
    · rw [hij]
      exact .inl (by rw [hself]; exact hk)
    · rcases h.live i hi with hl | hl
      · exact .inl (by rw [(hne i hij).1]; exact hl)
      · exact .inr hl
  · intro η
    exact (h.pcs η).frame (fun _ _ => rfl) (fun i hi => ⟨rfl, (hne i (hhand hi)).2⟩) fun _ _ => rfl

/-! ### Steps that move a job -/

theorem takeOver (h : Inv S L R) {task : Task} (hp : S.pc (some c) = .takeOver task) :
    L c = [] ∧ Inv (((S.setFree c (S.remoteFreeList c)).setRemote c none).goto (some c) (.createUnlock task))
      (Function.update L c (R c)) (Function.update R c []) := by
  have hpc := h.pcs (some c)
  rw [hp] at hpc
  obtain ⟨c', hc, hnone⟩ := hpc
  obtain rfl := Option.some.inj hc
  have hL : L c = [] := (h.free c).eq_nil_iff.2 hnone
  have hmem : ∀ d, Function.update L c (R c) d ++ Function.update R c [] d = L d ++ R d := by
    intro d
    by_cases hd : d = c
    · rw [hd, Function.update_self, Function.update_self, hL, List.append_nil, List.nil_append]
    · rw [Function.update_of_ne hd, Function.update_of_ne hd]
  have hholds : (S.pc (some c)).holds (some c) = some c := by
    rw [hp]
    rfl
  refine ⟨hL, h.keep ⟨fun _ hη => goto_pc_ne hη, ?_, ?_, fun _ _ _ => Iff.rfl, fun _ _ => rfl,
    fun _ _ => rfl⟩ ?_ rfl (fun _ _ => rfl) ?_ ?_ ?_ ?_ ?_ ?_⟩
  · intro d hd
    exact Function.update_of_ne (fun heq => hd (by rw [heq])) _ _
  · intro d hd
    exact Function.update_of_ne (fun heq => hd (by rw [heq, hholds])) _ _
  · rw [goto_pc_self, hp]
    rfl
  · intro d j
    rw [hmem]
  · intro d
    rw [hmem]
    exact h.nodup d
  · intro d
    show Chain S.nextFree (Function.update S.freeList c (S.remoteFreeList c) d) _
    by_cases hd : d = c
    · rw [hd, Function.update_self, Function.update_self]
      exact h.remote c
    · rw [Function.update_of_ne hd, Function.update_of_ne hd]
      exact h.free d
  · intro d
    show Chain S.nextFree (Function.update S.remoteFreeList c none d) _
    by_cases hd : d = c
    · rw [hd, Function.update_self, Function.update_self]
      exact .nil
    · rw [Function.update_of_ne hd, Function.update_of_ne hd]
      exact h.remote d
  · rw [goto_pc_self]
    exact ⟨c, rfl⟩
  · intro d
    rw [goto_pc_self]
    exact (h.lock (some c) d).trans (by rw [hp]; rfl)

/-- A step that changes the lists, the hands and the references of job `j`
    alone: what is to be shown about it -/
theorem move (h : Inv S L R) (ho : Others S S' θ) (hfree : ∀ c, Chain S'.nextFree (S'.freeList c) (L' c))
    (hremote : ∀ c, Chain S'.nextFree (S'.remoteFreeList c) (R' c))
    (hnodup : ∀ c, (L' c ++ R' c).Nodup) (hmem : ∀ c, ∀ i ≠ j, i ∈ L' c ++ R' c ↔ i ∈ L c ++ R c)
    (hown : ∀ c, j ∈ L' c ++ R' c → j.1 = c) (hold : ∀ i, (S.pc θ).hand = some i → i = j)
    (hnew : ∀ i, (S'.pc θ).hand = some i → i = j) (hnone : ∀ η ≠ θ, (S.pc η).hand ≠ some j)
    (hhand : (S'.pc θ).hand = some j → S'.refs j = 0 ∧ j ∉ L' j.1 ++ R' j.1)
    (hrefs : ∀ i ≠ j, S'.refs i = S.refs i ∧ S'.job i = S.job i)
    (hcount : 0 < S'.refs j → j ∉ L' j.1 ++ R' j.1 ∧ (S'.job j).refcount = S'.refs j ∧
      (S'.job j).jobPoolId = j.1)
    (hlive : j ∉ L' j.1 ++ R' j.1 → 0 < S'.refs j ∨ (S'.pc θ).hand = some j)
    (hpc : PcOk S' θ (S'.pc θ))
    (hlock : ∀ c, S'.remoteLock c = some θ ↔ (S'.pc θ).holds θ = some c) : Inv S' L' R' := by
  refine ⟨hfree, hremote, ?_, hnodup, ?_, ?_, ?_, ?_, h.pcs_of ho hpc, h.lock_of ho hlock⟩
  · intro c i hi
    by_cases hij : i = j
    · rw [hij] at hi ⊢
      exact hown c hi
    · exact h.own c i ((hmem c i hij).1 hi)
  · intro η i hi
    by_cases hη : η = θ
    · rw [hη] at hi
      obtain rfl := hnew i hi
      exact hhand hi
    · rw [ho.pc η hη] at hi
      have hij : i ≠ j := fun heq => hnone η hη (heq ▸ hi)
      rw [(hrefs i hij).1, hmem _ i hij]
      exact h.hand η i hi
  · -- who has `j` is `θ`, and all else is as it was
    intro η η' i hi hi'
    by_cases hη : η = θ
    · rw [hη] at hi
      obtain rfl := hnew i hi
      by_contra hne
      have hη' : η' ≠ θ := fun heq => hne (heq.trans hη.symm)
      rw [ho.pc η' hη'] at hi'
      exact hnone η' hη' hi'
    · rw [ho.pc η hη] at hi
      by_cases hη' : η' = θ
      · rw [hη'] at hi'
        obtain rfl := hnew i hi'
        exact absurd hi (hnone η hη)
      · rw [ho.pc η' hη'] at hi'
        exact h.unique η η' i hi hi'
  · intro i hi
    by_cases hij : i = j
    · rw [hij] at hi ⊢
      exact hcount hi
    · rw [(hrefs i hij).1] at hi
      rw [hmem _ i hij, (hrefs i hij).1, (hrefs i hij).2]
      exact h.counted i hi
  · intro i hi
    by_cases hij : i = j
    · rw [hij] at hi ⊢
      rcases hlive hi with hr | hθ
      · exact .inl hr
      · exact .inr ⟨θ, hθ⟩
    · rw [hmem _ i hij] at hi
      rcases h.live i hi with hr | ⟨η, hη⟩
      · exact .inl (by rw [(hrefs i hij).1]; exact hr)
      · refine .inr ⟨η, ?_⟩
        rw [ho.pc η fun heq => hij (hold i (heq ▸ hη))]
        exact hη

theorem pop (h : Inv S L R) {task : Task} (hp : S.pc (some c) = .pop task) (hf : S.freeList c = some j) :
    ∃ rest, L c = j :: rest ∧
      Inv ((S.setFree c (S.nextFree j)).goto (some c) (.fill j task)) (Function.update L c rest) R := by
  have hchain := h.free c
  rw [hf] at hchain
  obtain ⟨rest, hL, hrest⟩ := hchain.pop
  have hjL : j ∈ L c := by
    rw [hL]
    exact List.mem_cons_self
  obtain rfl : j.1 = c := h.own c j (List.mem_append_left _ hjL)
  have hon : j ∈ L j.1 ++ R j.1 := List.mem_append_left _ hjL
  have hrefs : S.refs j = 0 := by
    by_contra hr
    exact (h.counted j (Nat.pos_of_ne_zero hr)).1 hon
  have hnone : ∀ η, (S.pc η).hand ≠ some j := fun η hη => (h.hand η j hη).2 hon
  have hn := h.nodup j.1
  rw [hL, List.cons_append, List.nodup_cons] at hn
  have hself : Function.update L j.1 rest j.1 = rest := Function.update_self ..
  have hoff : j ∉ Function.update L j.1 rest j.1 ++ R j.1 := by
    rw [hself]
    exact hn.1
  refine ⟨rest, hL, h.move (θ := some j.1) (j := j) ?_ ?_ h.remote ?_ ?_ ?_ ?_ ?_ (fun η _ => hnone η) ?_
    (fun _ _ => ⟨rfl, rfl⟩) ?_ ?_ ?_ ?_⟩
  · refine ⟨fun _ hη => goto_pc_ne hη, ?_, fun _ _ => rfl, fun _ _ _ => Iff.rfl, fun _ _ => rfl,
      fun _ _ => rfl⟩
    intro d hd
    exact Function.update_of_ne (fun heq => hd (by rw [heq])) _ _
  · intro d
    show Chain S.nextFree (Function.update S.freeList j.1 (S.nextFree j) d) _
    by_cases hd : d = j.1
    · rw [hd, Function.update_self, hself]
      exact hrest
    · rw [Function.update_of_ne hd, Function.update_of_ne hd]
      exact h.free d
  · intro d
    by_cases hd : d = j.1
    · rw [hd, hself]
      exact hn.2
    · rw [Function.update_of_ne hd]
      exact h.nodup d
  · intro d i hi
    by_cases hd : d = j.1
    · rw [hd, hself, hL, List.cons_append, List.mem_cons]
      exact ⟨.inr, fun hm => hm.resolve_left hi⟩
    · rw [Function.update_of_ne hd]
  · intro d hd
    by_contra hne
    rw [Function.update_of_ne (Ne.symm hne)] at hd
    exact hne (h.own d j hd)
  · intro i hi
    rw [hp] at hi
    cases hi
  · intro i hi
    rw [goto_pc_self] at hi
    exact (Option.some.inj hi).symm
  · exact fun _ => ⟨hrefs, hoff⟩
  · intro hr
    rw [show ((S.setFree j.1 (S.nextFree j)).goto (some j.1) (.fill j task)).refs j = 0 from hrefs] at hr
    exact absurd hr (lt_irrefl 0)
  · intro _
    rw [goto_pc_self]
    exact .inr rfl
  · rw [goto_pc_self]
    exact rfl
  · intro d
    rw [goto_pc_self]
    exact (h.lock (some j.1) d).trans (by rw [hp]; rfl)

/-- A thread that has job `j` in its hands is the only one. -/
theorem hand_only (h : Inv S L R) (hp : S.pc θ = q) (hj : q.hand = some j) :
    (∀ i, (S.pc θ).hand = some i → i = j) ∧ ∀ η ≠ θ, (S.pc η).hand ≠ some j := by
  have hθ : (S.pc θ).hand = some j := by rw [hp, hj]
  refine ⟨fun i hi => ?_, fun η hη hi => hη (h.unique θ η j hθ hi)⟩
  rw [hθ] at hi
  exact (Option.some.inj hi).symm

theorem offered (h : Inv S L R) (hp : S.pc (some c) = .offered j) :
    Inv (((S.setJob j { S.job j with isBeingOffered := false }).setRefs j (S.refs j + 1)).goto (some c)
      .idle) L R := by
  obtain ⟨hrefs, hoff⟩ := h.hand_live hp rfl
  obtain ⟨hold, hnone⟩ := h.hand_only hp rfl
  have hpc := h.pcs (some c)
  rw [hp] at hpc
  obtain ⟨-, hid, hcount⟩ := hpc
  refine h.move (θ := some c) (j := j) ?_ h.free h.remote h.nodup (fun _ _ _ => Iff.rfl)
    (fun d => h.own d j) hold ?_ hnone ?_ ?_ ?_ ?_ ?_ ?_
  · refine ⟨fun _ hη => goto_pc_ne hη, fun _ _ => rfl, fun _ _ => rfl, fun _ _ _ => Iff.rfl,
      fun _ _ => rfl, ?_⟩
    rintro i ⟨η, hη, hi⟩
    exact Jobs.set_ne _ _ fun heq => hnone η hη (heq ▸ hi)
  · intro i hi
    rw [goto_pc_self] at hi
    cases hi
  · intro hj
    rw [goto_pc_self] at hj
    cases hj
  · exact fun i hi => ⟨Function.update_of_ne hi .., Jobs.set_ne _ _ hi⟩
  · intro _
    have hself : (Function.update S.refs j (S.refs j + 1)) j = 1 := by rw [Function.update_self, hrefs]
    refine ⟨hoff, ?_, ?_⟩
    · show (S.job.set j _ j).refcount = ((Function.update S.refs j (S.refs j + 1) j : ℕ) : ℤ)
      rw [hself, Jobs.set_self]
      exact hcount
    · show (S.job.set j _ j).jobPoolId = j.1
      rw [Jobs.set_self]
      exact hid
  · intro _
    refine .inl ?_
    show 0 < Function.update S.refs j (S.refs j + 1) j
    rw [Function.update_self]
    exact Nat.succ_pos _
  · rw [goto_pc_self]
    exact trivial
  · intro d
    rw [goto_pc_self]
    exact (h.lock (some c) d).trans (by rw [hp]; rfl)

/-- The last reference is dropped. -/
theorem putLast (h : Inv S L R) (hp : S.pc θ = .idle) (hr : S.refs j = 1) (r : JobRec)
    (hid : r.jobPoolId = (S.job j).jobPoolId) :
    Inv (((S.setJob j r).setRefs j 0).goto θ (.release j)) L R := by
  obtain ⟨hoff, -, hown⟩ := h.counted j (by rw [hr]; exact Nat.one_pos)
  have hnone : ∀ η, (S.pc η).hand ≠ some j := by
    intro η hη
    rw [(h.hand η j hη).1] at hr
    cases hr
  have hself : (((S.setJob j r).setRefs j 0).goto θ (.release j)).refs j = 0 := Function.update_self ..
  refine h.move (θ := θ) (j := j) ?_ h.free h.remote h.nodup (fun _ _ _ => Iff.rfl)
    (fun d => h.own d j) ?_ ?_ (fun η _ => hnone η) ?_ ?_ ?_ ?_ ?_ ?_
  · refine ⟨fun _ hη => goto_pc_ne hη, fun _ _ => rfl, fun _ _ => rfl, fun _ _ _ => Iff.rfl,
      fun _ _ => rfl, ?_⟩
    rintro i ⟨η, -, hi⟩
    exact Jobs.set_ne _ _ fun heq => hnone η (heq ▸ hi)
  · intro i hi
    rw [hp] at hi
    cases hi
  · intro i hi
    rw [goto_pc_self] at hi
    exact (Option.some.inj hi).symm
  · exact fun _ => ⟨hself, hoff⟩
  · exact fun i hi => ⟨Function.update_of_ne hi .., Jobs.set_ne _ _ hi⟩
  · intro hpos
    rw [hself] at hpos
    exact absurd hpos (lt_irrefl 0)
  · intro _
    rw [goto_pc_self]
    exact .inr rfl
  · rw [goto_pc_self]
    show (S.job.set j r j).jobPoolId = j.1
    rw [Jobs.set_self, hid, hown]
  · intro d
    rw [goto_pc_self]
    exact (h.lock θ d).trans (by rw [hp]; rfl)

/-- The job in the hands of a thread goes on a list of its pool: the lists
    `L'`, `R'` are those with the job in front of one of them. -/
theorem push (h : Inv S L R) (ho : Others S S' θ) (hp : S.pc θ = q) (hj : q.hand = some j)
    (hrefs : S'.refs = S.refs) (hjob : S'.job = S.job)
    (hfree : ∀ c, Chain S'.nextFree (S'.freeList c) (L' c))
    (hremote : ∀ c, Chain S'.nextFree (S'.remoteFreeList c) (R' c))
    (hperm : (L' j.1 ++ R' j.1).Perm (j :: (L j.1 ++ R j.1)))
    (hsame : ∀ c ≠ j.1, L' c ++ R' c = L c ++ R c) (hq' : (S'.pc θ).hand = none)
    (hpc : PcOk S' θ (S'.pc θ))
    (hlock : ∀ c, S'.remoteLock c = some θ ↔ (S'.pc θ).holds θ = some c) : Inv S' L' R' := by
  obtain ⟨hr, hoff⟩ := h.hand_live hp hj
  obtain ⟨hold, hnone⟩ := h.hand_only hp hj
  have hon : j ∈ L' j.1 ++ R' j.1 := hperm.mem_iff.2 List.mem_cons_self
  refine h.move ho hfree hremote ?_ ?_ ?_ hold ?_ hnone ?_ ?_ ?_ ?_ hpc hlock
  · intro c
    by_cases hc : c = j.1
    · rw [hc, hperm.nodup_iff]
      exact List.nodup_cons.2 ⟨hoff, h.nodup j.1⟩
    · rw [hsame c hc]
      exact h.nodup c
  · intro c i hi
    by_cases hc : c = j.1
    · rw [hc, hperm.mem_iff, List.mem_cons]
      exact ⟨fun hm => hm.resolve_left hi, .inr⟩
    · rw [hsame c hc]
  · intro c hc
    by_contra hne
    rw [hsame c (Ne.symm hne)] at hc
    exact hne (h.own c j hc)
  · intro i hi
    rw [hq'] at hi
    cases hi
  · intro hi
    rw [hq'] at hi
    cases hi
  · intro i _
    rw [hrefs, hjob]
    exact ⟨rfl, rfl⟩
  · intro hpos
    rw [hrefs, hr] at hpos
    exact absurd hpos (lt_irrefl 0)
  · exact fun hno => absurd hon hno

theorem localHead (h : Inv S L R) {owner : Fin n} (hp : S.pc θ = .localHead j owner) :
    owner = j.1 ∧ θ = some j.1 ∧ j ∉ L j.1 ++ R j.1 ∧
      Inv ((S.setFree owner (some j)).goto θ .idle) (Function.update L j.1 (j :: L j.1)) R := by
  have hpc := h.pcs θ
  rw [hp] at hpc
  obtain ⟨rfl, hθ, hnext⟩ := hpc
  obtain ⟨-, hoff⟩ := h.hand_live hp rfl
  have hself : Function.update L j.1 (j :: L j.1) j.1 = j :: L j.1 := Function.update_self ..
  refine ⟨rfl, hθ, hoff, h.push (θ := θ) (j := j) ?_ hp rfl rfl rfl ?_ h.remote ?_ ?_ ?_ ?_ ?_⟩
  · refine ⟨fun _ hη => goto_pc_ne hη, ?_, fun _ _ => rfl, fun _ _ _ => Iff.rfl, fun _ _ => rfl,
      fun _ _ => rfl⟩
    intro d hd
    exact Function.update_of_ne (fun heq => hd (by rw [hθ, heq])) _ _
  · intro d
    show Chain S.nextFree (Function.update S.freeList j.1 (some j) d) _
    by_cases hd : d = j.1
    · rw [hd, Function.update_self, hself]
      refine .cons ?_
      rw [hnext]
      exact h.free j.1
    · rw [Function.update_of_ne hd, Function.update_of_ne hd]
      exact h.free d
  · rw [hself]
    rfl
  · intro d hd
    rw [Function.update_of_ne hd]
  · rw [goto_pc_self]
    rfl
  · rw [goto_pc_self]
    exact trivial
  · intro d
    rw [goto_pc_self]
    exact (h.lock θ d).trans (by rw [hp]; rfl)

theorem remoteHead (h : Inv S L R) {owner : Fin n} (hp : S.pc θ = .remoteHead j owner) :
    owner = j.1 ∧ θ ≠ some j.1 ∧ j ∉ L j.1 ++ R j.1 ∧
      Inv ((S.setRemote owner (some j)).goto θ (.remoteUnlock owner)) L
        (Function.update R j.1 (j :: R j.1)) := by
  have hpc := h.pcs θ
  rw [hp] at hpc
  obtain ⟨rfl, hθ, hnext⟩ := hpc
  obtain ⟨-, hoff⟩ := h.hand_live hp rfl
  have hself : Function.update R j.1 (j :: R j.1) j.1 = j :: R j.1 := Function.update_self ..
  have hholds : (S.pc θ).holds θ = some j.1 := by
    rw [hp]
    rfl
  refine ⟨rfl, hθ, hoff, h.push (θ := θ) (j := j) ?_ hp rfl rfl rfl h.free ?_ ?_ ?_ ?_ ?_ ?_⟩
  · refine ⟨fun _ hη => goto_pc_ne hη, fun _ _ => rfl, ?_, fun _ _ _ => Iff.rfl, fun _ _ => rfl,
      fun _ _ => rfl⟩
    intro d hd
    exact Function.update_of_ne (fun heq => hd (by rw [heq, hholds])) _ _
  · intro d
    show Chain S.nextFree (Function.update S.remoteFreeList j.1 (some j) d) _
    by_cases hd : d = j.1
    · rw [hd, Function.update_self, hself]
      refine .cons ?_
      rw [hnext]
      exact h.remote j.1
    · rw [Function.update_of_ne hd, Function.update_of_ne hd]
      exact h.remote d
  · rw [hself]
    exact List.perm_middle
  · intro d hd
    rw [Function.update_of_ne hd]
  · rw [goto_pc_self]
    rfl
  · rw [goto_pc_self]
    exact trivial
  · intro d
    rw [goto_pc_self]
    exact (h.lock θ d).trans (by rw [hp]; rfl)

end Inv

/-! ## Every step -/

theorem coreId_eq {owner : Fin n} : owner.val = coreId θ ↔ θ = some owner := by
  cases θ with
  | none =>
    constructor
    · intro heq
      exact absurd heq owner.isLt.ne
    · nofun
  | some c =>
    constructor
    · intro heq
      rw [Fin.ext heq]
    · intro heq
      rw [Option.some.inj heq]
      rfl

/-- **Every step keeps the invariant**, and does to the lists what `ListStep`
    says. -/
theorem Step.inv (hs : Step S a S') (h : Inv S L R) : ∃ L' R', ListStep L R a L' R' ∧ Inv S' L' R' := by
  have hpcs := h.pcs
  cases hs with
  | call task hp => exact ⟨L, R, .call, h.goto hp rfl rfl ⟨_, rfl⟩⟩
  | empty hp hf => exact ⟨L, R, .other, h.goto hp rfl rfl ⟨_, rfl, hf⟩⟩
  | nonempty hp => exact ⟨L, R, .other, h.goto hp rfl rfl ⟨_, rfl⟩⟩
  | @createLock c task hp hl =>
    have hpc := hpcs (some c)
    rw [hp] at hpc
    exact ⟨L, R, .other, h.lockStep hp rfl rfl rfl hl hpc⟩
  | takeOver hp =>
    obtain ⟨hL, hinv⟩ := h.takeOver hp
    exact ⟨_, _, .takeOver hL, hinv⟩
  | createUnlock hp => exact ⟨L, R, .other, h.unlockStep hp rfl rfl rfl ⟨_, rfl⟩⟩
  | exhausted hp => exact ⟨L, R, .result, h.goto hp rfl rfl trivial⟩
  | pop hp hf =>
    obtain ⟨rest, hL, hinv⟩ := h.pop hp hf
    exact ⟨_, _, .pop hL, hinv⟩
  | @fill c j task hp =>
    have hpc := hpcs (some c)
    rw [hp] at hpc
    have hown : c = j.1 := Option.some.inj hpc
    refine ⟨L, R, .other, h.write hp rfl rfl rfl ⟨hpc, ?_⟩⟩
    show (S.job.set j _ j).jobPoolId = j.1
    rw [Jobs.set_self, ← hown]
    rfl
  | @count c j hp =>
    have hpc := hpcs (some c)
    rw [hp] at hpc
    refine ⟨L, R, .other, h.write hp rfl rfl rfl ⟨hpc.1, ?_, ?_⟩⟩
    · show (S.job.set j _ j).jobPoolId = j.1
      rw [Jobs.set_self]
      exact hpc.2
    · show (S.job.set j _ j).refcount = 1
      rw [Jobs.set_self]
  | offered hp => exact ⟨L, R, .result, h.offered hp⟩
  | @get _ j hp hr =>
    refine ⟨L, R, .get, h.recount hr (Nat.succ_pos _) ?_ rfl⟩
    show (S.job j).refcount + 1 = ((S.refs j + 1 : ℕ) : ℤ)
    rw [(h.counted j hr).2.1]
    rfl
  | @use j r hr hc hid =>
    refine ⟨L, R, .other, ?_⟩
    have hinv := h.recount hr hr (hc.trans (h.counted j hr).2.1) hid
    have hsame : (S.setJob j r).setRefs j (S.refs j) = S.setJob j r := by
      unfold Pools.setRefs
      rw [show S.refs j = (S.setJob j r).refs j from rfl, Function.update_eq_self]
    rw [← hsame]
    exact hinv
  | @put θ j hp hr =>
    refine ⟨L, R, .put, ?_⟩
    have hcount := (h.counted j hr).2.1
    split_ifs with hlast
    · have hone : S.refs j = 1 := by
        rw [hcount] at hlast
        exact_mod_cast hlast
      rw [hone]
      exact h.putLast hp hone _ rfl
    · have hmore : 0 < S.refs j - 1 := by
        rw [hcount] at hlast
        have hne : S.refs j ≠ 1 := by exact_mod_cast hlast
        omega
      have hinv := h.recount (r := { S.job j with refcount := (S.job j).refcount - 1 }) hr hmore (by
        show (S.job j).refcount - 1 = ((S.refs j - 1 : ℕ) : ℤ)
        rw [hcount]
        push_cast [Nat.cast_sub hr]
        rfl) rfl
      exact hinv.goto hp rfl rfl trivial
  | @isLocal θ j owner hp ho hme =>
    have hpc := hpcs θ
    rw [hp] at hpc
    have hown : owner = j.1 := Fin.ext (ho.symm.trans hpc)
    exact ⟨L, R, .other, h.goto hp rfl rfl ⟨hown, coreId_eq.1 hme⟩⟩
  | @isRemote θ j owner hp ho hme =>
    have hpc := hpcs θ
    rw [hp] at hpc
    have hown : owner = j.1 := Fin.ext (ho.symm.trans hpc)
    exact ⟨L, R, .other, h.goto hp rfl rfl ⟨hown, fun heq => hme (coreId_eq.2 heq)⟩⟩
  | @localNext θ j owner hp =>
    have hpc := hpcs θ
    rw [hp] at hpc
    exact ⟨L, R, .other, h.link hp rfl rfl rfl ⟨hpc.1, hpc.2, Function.update_self ..⟩⟩
  | localHead hp =>
    obtain ⟨rfl, rfl, hoff, hinv⟩ := h.localHead hp
    exact ⟨_, _, .pushLocal hoff, hinv⟩
  | @remoteLock θ j owner hp hl =>
    have hpc := hpcs θ
    rw [hp] at hpc
    exact ⟨L, R, .other, h.lockStep hp rfl rfl rfl hl hpc⟩
  | @remoteNext θ j owner hp =>
    have hpc := hpcs θ
    rw [hp] at hpc
    exact ⟨L, R, .other, h.link hp rfl rfl rfl ⟨hpc.1, hpc.2, Function.update_self ..⟩⟩
  | remoteHead hp =>
    obtain ⟨rfl, hθ, hoff, hinv⟩ := h.remoteHead hp
    exact ⟨_, _, .pushRemote hθ hoff, hinv⟩
  | remoteUnlock hp => exact ⟨L, R, .other, h.unlockStep hp rfl rfl rfl trivial⟩

/-! ## The start -/

/-- The jobs of a pool, in the order of its first list -/
def allJobs (c : Fin n) : List (JobId n) := ((List.finRange jobsPerCore).map fun k => (c, k)).reverse

theorem mem_allJobs : j ∈ allJobs c ↔ j.1 = c := by
  unfold allJobs
  rw [List.mem_reverse, List.mem_map]
  constructor
  · rintro ⟨k, -, rfl⟩
    rfl
  · rintro rfl
    exact ⟨j.2, List.mem_finRange _, rfl⟩

theorem pool_nodup (c : Fin n) : ((List.finRange jobsPerCore).map fun k => (c, k)).Nodup := by
  refine (List.nodup_finRange _).map ?_
  intro k l h
  exact congrArg Prod.snd h

theorem allJobs_nodup (c : Fin n) : (allJobs c).Nodup := List.nodup_reverse.2 (pool_nodup c)

/-- The loop over the pools: those it has come to have all their jobs. -/
theorem initPools_spec {cores : List (Fin n)} (hn : cores.Nodup) : ∀ S : Pools n,
    (Pools.initPools cores S).pc = S.pc ∧ (Pools.initPools cores S).refs = S.refs ∧
      (Pools.initPools cores S).remoteLock = S.remoteLock ∧
      (∀ j, j.1 ∉ cores → (Pools.initPools cores S).nextFree j = S.nextFree j) ∧
      (∀ c ∉ cores, (Pools.initPools cores S).freeList c = S.freeList c ∧
        (Pools.initPools cores S).remoteFreeList c = S.remoteFreeList c) ∧
      ∀ c ∈ cores, Chain (Pools.initPools cores S).nextFree ((Pools.initPools cores S).freeList c)
        (allJobs c) ∧ (Pools.initPools cores S).remoteFreeList c = none := by
  induction cores with
  | nil => exact fun S => ⟨rfl, rfl, rfl, fun _ _ => rfl, fun _ _ => ⟨rfl, rfl⟩, nofun⟩
  | cons c cores ih =>
    intro S
    obtain ⟨hc, hn⟩ := List.nodup_cons.1 hn
    obtain ⟨hpc, hrefs, hlock, hnext, hother, hdone⟩ := ih hn
      (({ S with nextFree := (Pools.initPool S.nextFree c).1 }.setFree c
        (Pools.initPool S.nextFree c).2).setRemote c none)
    have hchain : Chain (Pools.initPool S.nextFree c).1 (Pools.initPool S.nextFree c).2 (allJobs c) := by
      have h := Chain.pushAll_chain (s := (S.nextFree, none)) (l := []) .nil (pool_nodup c)
        fun a _ => List.not_mem_nil
      rw [List.append_nil] at h
      exact h
    refine ⟨hpc, hrefs, hlock, ?_, ?_, ?_⟩
    · intro j hj
      rw [List.mem_cons, not_or] at hj
      have hnot : j ∉ (List.finRange jobsPerCore).map fun k => (c, k) := by
        intro hmem
        obtain ⟨k, -, rfl⟩ := List.mem_map.1 hmem
        exact hj.1 rfl
      have hpool : (Pools.initPool S.nextFree c).1 j = S.nextFree j := Chain.pushAll_of_notMem hnot
      exact (hnext j hj.2).trans hpool
    · intro d hd
      rw [List.mem_cons, not_or] at hd
      obtain ⟨hfree, hremote⟩ := hother d hd.2
      exact ⟨hfree.trans (Function.update_of_ne hd.1 ..), hremote.trans (Function.update_of_ne hd.1 ..)⟩
    · intro d hd
      rcases List.mem_cons.1 hd with rfl | hd
      · obtain ⟨hfree, hremote⟩ := hother d hc
        refine ⟨?_, hremote.trans (Function.update_self ..)⟩
        have hhead : (Pools.initPools (d :: cores) S).freeList d = (Pools.initPool S.nextFree d).2 :=
          hfree.trans (Function.update_self ..)
        rw [hhead]
        refine hchain.congr fun j hj => hnext j ?_
        rw [mem_allJobs.1 hj]
        exact hc
      · exact hdone d hd

theorem Inv.init : Inv (Pools.taskManagementInit n) allJobs fun _ => [] := by
  obtain ⟨hpc, hrefs, hlock, -, -, hdone⟩ := initPools_spec (List.nodup_finRange n)
    { job := fun _ => JobRec.blank, nextFree := fun _ => none, freeList := fun _ => none,
      remoteFreeList := fun _ => none, remoteLock := fun _ => none, pc := fun _ => .idle,
      refs := fun _ => 0 }
  have hidle : ∀ θ, (Pools.taskManagementInit n).pc θ = .idle := fun θ => congrFun hpc θ
  have hnone : ∀ j, (Pools.taskManagementInit n).refs j = 0 := fun j => congrFun hrefs j
  refine ⟨fun c => (hdone c (List.mem_finRange c)).1, ?_, ?_, ?_, ?_, ?_, ?_, ?_, ?_, ?_⟩
  · intro c
    rw [show (Pools.taskManagementInit n).remoteFreeList c = none from (hdone c (List.mem_finRange c)).2]
    exact .nil
  · intro c j hj
    rw [List.append_nil] at hj
    exact mem_allJobs.1 hj
  · intro c
    rw [List.append_nil]
    exact allJobs_nodup c
  · intro θ j hj
    rw [hidle] at hj
    cases hj
  · intro θ η j hj
    rw [hidle] at hj
    cases hj
  · intro j hj
    rw [hnone] at hj
    exact absurd hj (lt_irrefl 0)
  · intro j hj
    rw [List.append_nil] at hj
    exact absurd (mem_allJobs.2 rfl) hj
  · intro θ
    rw [hidle]
    exact trivial
  · intro θ c
    rw [hidle, show (Pools.taskManagementInit n).remoteLock c = none from congrFun hlock c]
    exact ⟨nofun, nofun⟩

/-- Some lists are those of the pools, in every state that a run reaches. -/
theorem exec_inv {tr : List (Trans (Pools n) (Label n))}
    (h : Exec Step (Pools.taskManagementInit n) tr S) : ∃ L R, Inv S L R := by
  refine @Exec.invariant _ _ _ _ _ _ (fun S => ∃ L R, Inv S L R) h ⟨_, _, Inv.init⟩ ?_
  rintro S a S' ⟨L, R, hinv⟩ hs
  obtain ⟨L', R', -, hinv'⟩ := hs.inv hinv
  exact ⟨L', R', hinv'⟩

/-! ## A run -/

abbrev Run (n : ℕ) := List (Trans (Pools n) (Label n))

variable {tr : Run n} {x y : Trans (Pools n) (Label n)}

/-- `create_job` takes job `j` off a list. -/
def popped (j : JobId n) (x : Trans (Pools n) (Label n)) : Bool :=
  match x.lab with
  | .pop _ i => i = j
  | _ => false

/-- Job `j` goes back on a list. -/
def pushed (j : JobId n) (x : Trans (Pools n) (Label n)) : Bool :=
  match x.lab with
  | .push _ _ i => i = j
  | _ => false

/-- The last reference to job `j` is dropped. -/
def putLast (j : JobId n) (x : Trans (Pools n) (Label n)) : Bool :=
  match x.lab with
  | .put _ i => i = j ∧ x.pre.refs j = 1
  | _ => false

/-- Transition `y` is in the call of `create_job` by core `c` that is under way
    at the end of the run, or after its last one. -/
def InCall (tr : Run n) (c : Fin n) (y : Trans (Pools n) (Label n)) : Prop :=
  ∃ tr₁ tr₂, tr = tr₁ ++ y :: tr₂ ∧ ∀ z ∈ tr₂, ∀ r, z.lab ≠ .result c r

/-- All jobs of the pool are live. -/
def Exhausted (S : Pools n) (c : Fin n) : Prop := ∀ k, Live S (c, k)

theorem inCall_snoc : InCall (tr ++ [x]) c y ↔
    y = x ∨ (InCall tr c y ∧ ∀ r, x.lab ≠ .result c r) := by
  constructor
  · rintro ⟨tr₁, tr₂, htr, hres⟩
    rcases List.eq_nil_or_concat tr₂ with rfl | ⟨tr₂, z, rfl⟩
    · exact .inl (List.cons.inj (List.append_inj' htr rfl).2).1.symm
    · rw [List.concat_eq_append, ← List.cons_append, ← List.append_assoc] at htr
      obtain ⟨hinit, hz⟩ := List.append_inj' htr rfl
      obtain rfl := (List.cons.inj hz).1
      rw [List.concat_eq_append] at hres
      refine .inr ⟨⟨tr₁, tr₂, hinit, fun w hw => hres w (List.mem_append_left _ hw)⟩, ?_⟩
      exact hres x (List.mem_append_right _ (List.mem_singleton_self _))
  · rintro (rfl | ⟨⟨tr₁, tr₂, rfl, hres⟩, hx⟩)
    · exact ⟨tr, [], rfl, nofun⟩
    · refine ⟨tr₁, tr₂ ++ [x], by rw [List.append_assoc, List.cons_append], ?_⟩
      intro w hw
      rcases List.mem_append.1 hw with hw | hw
      · exact hres w hw
      · rw [List.mem_singleton.1 hw]
        exact hx

/-- What has happened in the call of `create_job` under way -/
def CallOk (tr : Run n) (S : Pools n) (c : Fin n) : Pc n → Prop
  | .createUnlock _ | .pop _ =>
    (S.freeList c = none → ∃ y, InCall tr c y ∧ y.lab = .takeOver c) ∧
      ∀ y, InCall tr c y → y.lab = .takeOver c → (S.freeList c = none ↔ Exhausted y.pre c)
  | .fill j _ | .count j | .offered j =>
    (∃ y, InCall tr c y ∧ y.lab = .pop c j ∧ ¬ Live y.pre j) ∧
      ∀ y, InCall tr c y → y.lab = .takeOver c → ¬ Exhausted y.pre c
  | _ => ∀ y, InCall tr c y → y.lab ≠ .takeOver c

/-- The label is not one of a step of `create_job` by core `c`. -/
def Label.Foreign (c : Fin n) (a : Label n) : Prop :=
  a ≠ .takeOver c ∧ ∀ r, a ≠ .result c r

theorem inCall_foreign (h : x.lab.Foreign c) (hy : y.lab = .takeOver c) :
    InCall (tr ++ [x]) c y ↔ InCall tr c y := by
  rw [inCall_snoc]
  constructor
  · rintro (rfl | ⟨hin, -⟩)
    · exact absurd hy h.1
    · exact hin
  · exact fun hin => .inr ⟨hin, h.2⟩

/-- The step is not one of the call. -/
theorem CallOk.foreign (h : CallOk tr S c q) (hx : x.lab.Foreign c) (hfree : S'.freeList c = S.freeList c) :
    CallOk (tr ++ [x]) S' c q := by
  have hin : ∀ {y}, InCall tr c y → InCall (tr ++ [x]) c y := fun hy => inCall_snoc.2 (.inr ⟨hy, hx.2⟩)
  have htook : ∀ {y}, InCall (tr ++ [x]) c y → y.lab = .takeOver c → InCall tr c y :=
    fun hy hlab => (inCall_foreign hx hlab).1 hy
  cases q with
  | createUnlock | pop =>
    obtain ⟨h1, h2⟩ := h
    refine ⟨fun hnone => ?_, fun y hy hlab => ?_⟩
    · obtain ⟨y, hy, hlab⟩ := h1 (hfree ▸ hnone)
      exact ⟨y, hin hy, hlab⟩
    · rw [hfree]
      exact h2 y (htook hy hlab) hlab
  | fill | count | offered =>
    obtain ⟨⟨y, hy, hrest⟩, h2⟩ := h
    exact ⟨⟨y, hin hy, hrest⟩, fun y hy hlab => h2 y (htook hy hlab) hlab⟩
  | idle | create | createLock | takeOver | release | localNext | localHead | remoteLock | remoteNext |
    remoteHead | remoteUnlock =>
    exact fun y hy hlab => h y (htook hy hlab) hlab

/-- The points of a thread that is past no take-over and has taken no job -/
def Pc.Outside : Pc n → Prop
  | .createUnlock _ | .pop _ | .fill _ _ | .count _ | .offered _ => False
  | _ => True

theorem callOk_outside (hq : q.Outside) :
    CallOk tr S c q ↔ ∀ y, InCall tr c y → y.lab ≠ .takeOver c := by
  cases q with
  | createUnlock | pop | fill | count | offered => exact absurd hq id
  | idle | create | createLock | takeOver | release | localNext | localHead | remoteLock | remoteNext |
    remoteHead | remoteUnlock => rfl

namespace CallOk

/-- The core is where it was. -/
theorem same (h : CallOk tr S c (S.pc (some c))) (hpc : S'.pc (some c) = S.pc (some c))
    (hfree : S'.freeList c = S.freeList c) (ha : a.Foreign c) :
    CallOk (tr ++ [⟨S, a, S'⟩]) S' c (S'.pc (some c)) := by
  rw [hpc]
  exact CallOk.foreign h ha hfree

/-- A thread goes from one point outside to another. -/
theorem outside (h : CallOk tr S c (S.pc (some c))) (hpc : ∀ η ≠ θ, S'.pc η = S.pc η)
    (hfree : ∀ d, θ ≠ some d → S'.freeList d = S.freeList d) (hq : (S.pc θ).Outside)
    (hq' : (S'.pc θ).Outside) (ha : a.Foreign c) :
    CallOk (tr ++ [⟨S, a, S'⟩]) S' c (S'.pc (some c)) := by
  by_cases hθ : some c = θ
  · subst hθ
    rw [callOk_outside hq'] 
    rw [callOk_outside hq] at h
    exact fun y hy hlab => h y ((inCall_foreign ha hlab).1 hy) hlab
  · exact h.same (hpc _ hθ) (hfree c (Ne.symm hθ)) ha

/-- Another core is in its call. -/
theorem ofNe {d : Fin n} {T : Pools n} (h : CallOk tr S c (S.pc (some c))) (hd : d ≠ c)
    (hpc : T.pc = S.pc) (hfree : T.freeList c = S.freeList c) (ha : a.Foreign c) :
    CallOk (tr ++ [⟨S, a, T.goto (some d) q⟩]) (T.goto (some d) q) c ((T.goto (some d) q).pc (some c)) := by
  refine h.same ?_ hfree ha
  rw [goto_pc_ne fun heq => hd (Option.some.inj heq).symm, hpc]

theorem takeOver (h : CallOk tr S c (S.pc (some c))) (hinv : Inv S L R) {task : Task}
    (hp : S.pc (some c) = .takeOver task) (hlab : x.lab = .takeOver c) (hpre : x.pre = S)
    (hfree : S'.freeList c = S.remoteFreeList c) : CallOk (tr ++ [x]) S' c (.createUnlock task) := by
  rw [hp] at h
  obtain ⟨hL, -⟩ := hinv.takeOver hp
  have hiff : S'.freeList c = none ↔ Exhausted S c := by
    rw [hfree, ← (hinv.remote c).eq_nil_iff]
    unfold Exhausted
    simp only [hinv.live_iff, hL, List.nil_append]
    constructor
    · intro hR k
      rw [hR]
      exact List.not_mem_nil
    · intro hnone
      refine List.eq_nil_iff_forall_not_mem.2 fun j hj => ?_
      obtain rfl := hinv.own c j (List.mem_append_right _ hj)
      exact hnone j.2 hj
  refine ⟨fun _ => ⟨x, inCall_snoc.2 (.inl rfl), hlab⟩, fun y hy hy' => ?_⟩
  rcases inCall_snoc.1 hy with rfl | ⟨hy, -⟩
  · rw [hpre]
    exact hiff
  · exact absurd hy' (h y hy)

theorem pop (h : CallOk tr S c (S.pc (some c))) (hinv : Inv S L R) {task : Task}
    (hp : S.pc (some c) = .pop task) (hf : S.freeList c = some j) (hlab : x.lab = .pop c j)
    (hpre : x.pre = S) : CallOk (tr ++ [x]) S' c (.fill j task) := by
  rw [hp] at h
  obtain ⟨rest, hL, -⟩ := hinv.pop hp hf
  have hmem : j ∈ L c := by
    rw [hL]
    exact List.mem_cons_self
  have hforeign : x.lab.Foreign c := by
    rw [hlab]
    exact ⟨nofun, nofun⟩
  refine ⟨⟨x, inCall_snoc.2 (.inl rfl), hlab, ?_⟩, fun y hy hy' hex => ?_⟩
  · rw [hpre, hinv.live_iff, not_not]
    exact hinv.mem_free hmem
  · have hnone := (h.2 y ((inCall_foreign hforeign hy').1 hy) hy').2 hex
    rw [hf] at hnone
    cases hnone

/-- The call returns. -/
theorem result (hlab : ∃ r, x.lab = .result c r) : CallOk (tr ++ [x]) S' c .idle := by
  obtain ⟨r, hlab⟩ := hlab
  intro y hy hy'
  rcases inCall_snoc.1 hy with rfl | ⟨-, hx⟩
  · rw [hlab] at hy'
    cases hy'
  · exact hx r hlab

end CallOk

/-- Every step keeps what is known of the calls. -/
theorem Step.callOk (hs : Step S a S') (hinv : Inv S L R) (h : CallOk tr S c (S.pc (some c))) :
    CallOk (tr ++ [⟨S, a, S'⟩]) S' c (S'.pc (some c)) := by
  have hother : (Label.other : Label n).Foreign c := ⟨nofun, nofun⟩
  cases hs with
  | @call d task hp =>
    exact h.outside (θ := some d) (fun _ hη => goto_pc_ne hη) (fun _ _ => rfl) (by rw [hp]; trivial)
      (by rw [goto_pc_self]; trivial) ⟨nofun, nofun⟩
  | @empty d task hp _ =>
    exact h.outside (θ := some d) (fun _ hη => goto_pc_ne hη) (fun _ _ => rfl) (by rw [hp]; trivial)
      (by rw [goto_pc_self]; trivial) hother
  | @nonempty d task hp hf =>
    by_cases hd : d = c
    · subst hd
      rw [hp, callOk_outside (q := .create task) trivial] at h
      rw [goto_pc_self]
      exact ⟨fun hnone => absurd hnone hf,
        fun y hy hy' => absurd hy' (h y ((inCall_foreign hother hy').1 hy))⟩
    · exact h.ofNe hd rfl rfl hother
  | @createLock d task hp _ =>
    exact h.outside (θ := some d) (fun _ hη => goto_pc_ne hη) (fun _ _ => rfl) (by rw [hp]; trivial)
      (by rw [goto_pc_self]; trivial) hother
  | @takeOver d task hp =>
    by_cases hd : d = c
    · subst hd
      rw [goto_pc_self]
      exact h.takeOver hinv hp rfl rfl (Function.update_self ..)
    · refine h.ofNe hd rfl (Function.update_of_ne (Ne.symm hd) ..) ⟨?_, nofun⟩
      exact fun heq => hd (Label.takeOver.inj heq)
  | @createUnlock d task hp =>
    by_cases hd : d = c
    · subst hd
      rw [hp] at h
      rw [goto_pc_self]
      exact CallOk.foreign (q := .pop task) h hother rfl
    · exact h.ofNe hd rfl rfl hother
  | @exhausted d task hp _ =>
    by_cases hd : d = c
    · subst hd
      rw [goto_pc_self]
      exact CallOk.result ⟨_, rfl⟩
    · exact h.ofNe hd rfl rfl ⟨nofun, fun r heq => hd (Label.result.inj heq).1⟩
  | @pop d task j hp hf =>
    by_cases hd : d = c
    · subst hd
      rw [goto_pc_self]
      exact h.pop hinv hp hf rfl rfl
    · exact h.ofNe hd rfl (Function.update_of_ne (Ne.symm hd) ..) ⟨nofun, nofun⟩
  | @fill d j task hp =>
    by_cases hd : d = c
    · subst hd
      rw [hp] at h
      rw [goto_pc_self]
      exact CallOk.foreign (q := .count j) h hother rfl
    · exact h.ofNe hd rfl rfl hother
  | @count d j hp =>
    by_cases hd : d = c
    · subst hd
      rw [hp] at h
      rw [goto_pc_self]
      exact CallOk.foreign (q := .offered j) h hother rfl
    · exact h.ofNe hd rfl rfl hother
  | @offered d j hp =>
    by_cases hd : d = c
    · subst hd
      rw [goto_pc_self]
      exact CallOk.result ⟨_, rfl⟩
    · exact h.ofNe hd rfl rfl ⟨nofun, fun r heq => hd (Label.result.inj heq).1⟩
  | get => exact h.same rfl rfl ⟨nofun, nofun⟩
  | use => exact h.same rfl rfl hother
  | put hp =>
    refine h.outside (fun _ hη => goto_pc_ne hη) (fun _ _ => rfl) (by rw [hp]; trivial) ?_ ⟨nofun, nofun⟩
    rw [goto_pc_self]
    split_ifs <;> trivial
  | isLocal hp | isRemote hp | localNext hp | remoteLock hp | remoteNext hp | remoteUnlock hp =>
    exact h.outside (fun _ hη => goto_pc_ne hη) (fun _ _ => rfl) (by rw [hp]; trivial)
      (by rw [goto_pc_self]; trivial) hother
  | @localHead θ j owner hp =>
    have hpc := hinv.pcs θ
    rw [hp] at hpc
    refine h.outside (fun _ hη => goto_pc_ne hη) ?_ (by rw [hp]; trivial)
      (by rw [goto_pc_self]; trivial) ⟨nofun, nofun⟩
    intro d hd
    exact Function.update_of_ne (fun heq => hd (by rw [hpc.2.1, heq])) ..
  | remoteHead hp =>
    exact h.outside (fun _ hη => goto_pc_ne hη) (fun _ _ => rfl) (by rw [hp]; trivial)
      (by rw [goto_pc_self]; trivial) ⟨nofun, nofun⟩

/-! ## Who goes where -/

/-- A job is live from when it leaves a list to when it comes back on one. -/
theorem ListStep.live (hl : ListStep L R a L' R') (h : Inv S L R) (h' : Inv S' L' R') (j : JobId n) :
    Turns (popped j ⟨S, a, S'⟩ = true) (pushed j ⟨S, a, S'⟩ = true) (Live S j) (Live S' j) := by
  -- the jobs on the lists of the pool of `j`
  have hstay : (j ∈ L' j.1 ++ R' j.1 ↔ j ∈ L j.1 ++ R j.1) → (Live S' j ↔ Live S j) := by
    intro hmem
    rw [h.live_iff, h'.live_iff, hmem]
  cases hl with
  | call | result | get | put | other => exact ⟨nofun, nofun, fun _ _ => hstay Iff.rfl⟩
  | @takeOver c hL =>
    refine ⟨nofun, nofun, fun _ _ => hstay ?_⟩
    by_cases hc : j.1 = c
    · rw [hc, Function.update_self, Function.update_self, hL, List.append_nil, List.nil_append]
    · rw [Function.update_of_ne hc, Function.update_of_ne hc]
  | @pop c i rest hL =>
    have hi : i ∈ L c := by
      rw [hL]
      exact List.mem_cons_self
    obtain rfl : i.1 = c := h.own c i (List.mem_append_left _ hi)
    have hself : Function.update L i.1 rest i.1 = rest := Function.update_self ..
    refine ⟨fun hj => ?_, nofun, fun hj _ => hstay ?_⟩
    · obtain rfl : i = j := of_decide_eq_true hj
      have hn := h.nodup i.1
      rw [hL, List.cons_append, List.nodup_cons] at hn
      rw [h.live_iff, h'.live_iff, not_not, hself]
      exact ⟨h.mem_free hi, hn.1⟩
    · have hij : j ≠ i := fun heq => hj (decide_eq_true heq.symm)
      by_cases hc : j.1 = i.1
      · rw [hc, hself, hL, List.cons_append, List.mem_cons]
        exact ⟨.inr, fun hm => hm.resolve_left hij⟩
      · rw [Function.update_of_ne hc]
  | @pushLocal i hoff =>
    have hself : Function.update L i.1 (i :: L i.1) i.1 = i :: L i.1 := Function.update_self ..
    refine ⟨nofun, fun hj => ?_, fun _ hj => hstay ?_⟩
    · obtain rfl : i = j := of_decide_eq_true hj
      rw [h.live_iff, h'.live_iff, not_not, hself]
      exact ⟨hoff, List.mem_cons_self⟩
    · have hij : j ≠ i := fun heq => hj (decide_eq_true heq.symm)
      by_cases hc : j.1 = i.1
      · rw [hc, hself, List.cons_append, List.mem_cons]
        exact ⟨fun hm => hm.resolve_left hij, .inr⟩
      · rw [Function.update_of_ne hc]
  | @pushRemote θ i hθ hoff =>
    have hself : Function.update R i.1 (i :: R i.1) i.1 = i :: R i.1 := Function.update_self ..
    refine ⟨nofun, fun hj => ?_, fun _ hj => hstay ?_⟩
    · obtain rfl : i = j := of_decide_eq_true hj
      rw [h.live_iff, h'.live_iff, not_not, hself]
      exact ⟨hoff, List.mem_append_right _ List.mem_cons_self⟩
    · have hij : j ≠ i := fun heq => hj (decide_eq_true heq.symm)
      by_cases hc : j.1 = i.1
      · rw [hc, hself, List.perm_middle.mem_iff, List.mem_cons]
        exact ⟨fun hm => hm.resolve_left hij, .inr⟩
      · rw [Function.update_of_ne hc]

theorem giving_congr (hpc : ∀ η ≠ θ, S'.pc η = S.pc η) (hq : (S'.pc θ).giving = (S.pc θ).giving)
    (j : JobId n) : Giving S' j ↔ Giving S j := by
  have hall : ∀ η, (S'.pc η).giving = (S.pc η).giving := by
    intro η
    by_cases hη : η = θ
    · rw [hη, hq]
    · rw [hpc η hη]
  unfold Giving
  simp only [hall]

theorem Pc.hand_of_giving (h : q.giving = some j) : q.hand = some j := by
  cases q with
  | release | localNext | localHead | remoteLock | remoteNext | remoteHead => exact h
  | idle | create | createLock | takeOver | createUnlock | pop | fill | count | offered | remoteUnlock =>
    cases h

/-- The thread that has given a job back has it no more, and no other had it. -/
theorem giving_push (h : Inv S L R) (hp : S.pc θ = q) (hq : q.giving = some j)
    (hpc : ∀ η ≠ θ, S'.pc η = S.pc η) (hq' : (S'.pc θ).giving = none) (i : JobId n) :
    Turns False (j = i) (Giving S i) (Giving S' i) := by
  have hgives : ∀ k, Giving S' k ↔ Giving S k ∧ k ≠ j := by
    intro k
    constructor
    · rintro ⟨η, hη⟩
      have hne : η ≠ θ := by
        rintro rfl
        rw [hq'] at hη
        cases hη
      rw [hpc η hne] at hη
      refine ⟨⟨η, hη⟩, fun heq => hne ?_⟩
      rw [heq] at hη
      exact h.unique θ η j (by rw [hp]; exact Pc.hand_of_giving hq) (Pc.hand_of_giving hη)
    · rintro ⟨⟨η, hη⟩, hk⟩
      refine ⟨η, ?_⟩
      rw [hpc η]
      · exact hη
      · rintro rfl
        rw [hp, hq] at hη
        exact hk (Option.some.inj hη).symm
  refine ⟨nofun, ?_, fun _ hne => ?_⟩
  · rintro rfl
    rw [hgives]
    exact ⟨⟨θ, by rw [hp]; exact hq⟩, fun hj => hj.2 rfl⟩
  · rw [hgives]
    exact ⟨fun hi => hi.1, fun hi => ⟨hi, Ne.symm hne⟩⟩

/-- `put_job_ref` gives a job back from when it drops the last reference to when
    the job is on a list. -/
theorem Step.giving (hs : Step S a S') (h : Inv S L R) (j : JobId n) :
    Turns (putLast j ⟨S, a, S'⟩ = true) (pushed j ⟨S, a, S'⟩ = true) (Giving S j) (Giving S' j) := by
  cases hs with
  | call _ hp | empty hp _ | nonempty hp _ | createLock hp _ | takeOver hp | createUnlock hp
  | exhausted hp _ | pop hp _ | fill hp | count hp | offered hp | isLocal hp _ _ | isRemote hp _ _
  | localNext hp | remoteLock hp _ | remoteNext hp | remoteUnlock hp =>
    refine ⟨nofun, nofun, fun _ _ => giving_congr (S := S) (fun _ hη => goto_pc_ne hη) ?_ j⟩
    rw [goto_pc_self, hp]
    rfl
  | get | use => exact ⟨nofun, nofun, fun _ _ => Iff.rfl⟩
  | @put θ i hp hr =>
    have hcount := (h.counted i hr).2.1
    by_cases hlast : (S.job i).refcount = 1
    · have hone : S.refs i = 1 := by
        rw [hcount] at hlast
        exact_mod_cast hlast
      have hgives : ∀ k, Giving (((S.setJob i { S.job i with refcount := (S.job i).refcount - 1 }).setRefs i
          (S.refs i - 1)).goto θ (if (S.job i).refcount = 1 then .release i else .idle)) k ↔
          Giving S k ∨ k = i := by
        intro k
        rw [if_pos hlast]
        constructor
        · rintro ⟨η, hη⟩
          by_cases heq : η = θ
          · rw [heq, goto_pc_self] at hη
            exact .inr (Option.some.inj hη).symm
          · rw [goto_pc_ne heq] at hη
            exact .inl ⟨η, hη⟩
        · rintro (⟨η, hη⟩ | rfl)
          · refine ⟨η, ?_⟩
            rw [goto_pc_ne]
            · exact hη
            · rintro rfl
              rw [hp] at hη
              cases hη
          · exact ⟨θ, by rw [goto_pc_self]; rfl⟩
      refine ⟨fun hj => ?_, nofun, fun hj _ => ?_⟩
      · obtain ⟨rfl, -⟩ : i = j ∧ S.refs j = 1 := by simpa [putLast] using hj
        rw [hgives]
        refine ⟨?_, .inr rfl⟩
        rintro ⟨η, hη⟩
        rw [(h.hand η i (Pc.hand_of_giving hη)).1] at hone
        cases hone
      · have hij : j ≠ i := by
          rintro rfl
          exact hj (by simp [putLast, hone])
        rw [hgives]
        exact ⟨fun hi => hi.resolve_right hij, .inl⟩
    · have hmore : S.refs i ≠ 1 := by
        rw [hcount] at hlast
        exact_mod_cast hlast
      refine ⟨fun hj => ?_, nofun, fun _ _ => ?_⟩
      · obtain ⟨rfl, hone⟩ : i = j ∧ S.refs j = 1 := by simpa [putLast] using hj
        exact absurd hone hmore
      · refine giving_congr (S := S) (θ := θ) (fun _ hη => goto_pc_ne hη) ?_ j
        rw [goto_pc_self, hp, if_neg hlast]
  | @localHead θ i owner hp =>
    have ht : Turns False (i = j) (Giving S j) (Giving ((S.setFree owner (some i)).goto θ .idle) j) :=
      giving_push h hp rfl (fun _ hη => goto_pc_ne hη) (by rw [goto_pc_self]; rfl) j
    exact ⟨nofun, fun hj => ht.stop (of_decide_eq_true hj),
      fun _ hj => ht.stay id fun heq => hj (decide_eq_true heq)⟩
  | @remoteHead θ i owner hp =>
    have ht : Turns False (i = j) (Giving S j)
        (Giving ((S.setRemote owner (some i)).goto θ (.remoteUnlock owner)) j) :=
      giving_push h hp rfl (fun _ hη => goto_pc_ne hη) (by rw [goto_pc_self]; rfl) j
    exact ⟨nofun, fun hj => ht.stop (of_decide_eq_true hj),
      fun _ hj => ht.stay id fun heq => hj (decide_eq_true heq)⟩

/-! ## All runs -/

/-- Each call of `create_job` is as it should be, after any run. -/
theorem exec_callOk (h : Exec Step (Pools.taskManagementInit n) tr S) (c : Fin n) :
    CallOk tr S c (S.pc (some c)) := by
  induction h with
  | nil =>
    have hidle : (Pools.taskManagementInit n).pc (some c) = .idle := by
      have hpc := (initPools_spec (List.nodup_finRange n)
        { job := fun _ => JobRec.blank, nextFree := fun _ => none, freeList := fun _ => none,
          remoteFreeList := fun _ => none, remoteLock := fun _ => none, pc := fun _ => .idle,
          refs := fun _ => 0 }).1
      exact congrFun hpc _
    rw [hidle]
    rintro y ⟨tr₁, tr₂, htr, -⟩
    exact absurd htr.symm (List.append_ne_nil_of_right_ne_nil _ (List.cons_ne_nil _ _))
  | snoc h hs ih =>
    obtain ⟨L, R, hinv⟩ := exec_inv h
    exact hs.callOk hinv ih

/-- Core `c` returns job `j` by transition `x`, after the run `tr`. -/
structure Returned (tr : Run n) (x : Trans (Pools n) (Label n)) (c : Fin n) (j : JobId n) : Prop where
  notLive : ∃ y, InCall tr c y ∧ y.lab = .pop c j ∧ ¬ Live y.pre j
  own : j.1 = c
  refcount : (x.post.job j).refcount = 1
  refs : x.post.refs j = 1
  offered : (x.post.job j).isBeingOffered = false

/-- What `create_job` returns -/
theorem Step.result {r : Option (JobId n)} (hs : Step S (.result c r) S') (hinv : Inv S L R)
    (h : CallOk tr S c (S.pc (some c))) :
    (r = none ↔ ∃ y, InCall tr c y ∧ y.lab = .takeOver c ∧ Exhausted y.pre c) ∧
      ∀ j, r = some j → Returned tr ⟨S, .result c r, S'⟩ c j := by
  cases hs with
  | exhausted hp hf =>
    rw [hp] at h
    refine ⟨⟨fun _ => ?_, fun _ => rfl⟩, nofun⟩
    obtain ⟨y, hy, hlab⟩ := h.1 hf
    exact ⟨y, hy, hlab, (h.2 y hy hlab).1 hf⟩
  | @offered _ j hp =>
    rw [hp] at h
    obtain ⟨hpopped, hnot⟩ := h
    have hpc := hinv.pcs (some c)
    rw [hp] at hpc
    obtain ⟨hc, -, hcount⟩ := hpc
    obtain ⟨hrefs, -⟩ := hinv.hand_live hp rfl
    refine ⟨⟨nofun, ?_⟩, ?_⟩
    · rintro ⟨y, hy, hlab, hex⟩
      exact absurd hex (hnot y hy hlab)
    · rintro i hi
      obtain rfl := Option.some.inj hi
      refine ⟨hpopped, (Option.some.inj hc).symm, ?_, ?_, ?_⟩
      · show (S.job.set j _ j).refcount = 1
        rw [Jobs.set_self]
        exact hcount
      · show Function.update S.refs j (S.refs j + 1) j = 1
        rw [Function.update_self, hrefs]
      · show (S.job.set j _ j).isBeingOffered = false
        rw [Jobs.set_self]

/-- A job goes back on a list of its pool, from the hands of a thread. -/
theorem Step.push_own {owner : Fin n} (hs : Step S (.push θ owner j) S') (hinv : Inv S L R) :
    owner = j.1 ∧ S.refs j = 0 := by
  obtain ⟨L', R', hl, -⟩ := hs.inv hinv
  have hhand : (S.pc θ).hand = some j := by
    cases hs with
    | localHead hp | remoteHead hp =>
      rw [hp]
      rfl
  refine ⟨?_, (hinv.hand θ j hhand).1⟩
  cases hl with
  | pushLocal | pushRemote => rfl

/-- What holds after a run, and has held in it -/
structure Integrity (tr : Run n) (S : Pools n) : Prop where
  /-- The lists of a pool are lists, without a cycle and apart, and hold just
      the jobs of the pool that are not live. -/
  lists : ∀ c, ∃ l r, Chain S.nextFree (S.freeList c) l ∧ Chain S.nextFree (S.remoteFreeList c) r ∧
    (l ++ r).Nodup ∧ ∀ j, j ∈ l ++ r ↔ j.1 = c ∧ ¬ Live S j
  /-- A job is back as often as it was created, unless it is live. -/
  live : ∀ j, (Live S j → tr.countP (popped j) = tr.countP (pushed j) + 1) ∧
    (¬ Live S j → tr.countP (popped j) = tr.countP (pushed j))
  /-- It is back as often as the last reference was dropped, unless a thread
      is about to give it back. -/
  giving : ∀ j, (Giving S j → tr.countP (putLast j) = tr.countP (pushed j) + 1) ∧
    (¬ Giving S j → tr.countP (putLast j) = tr.countP (pushed j))
  pushes : ∀ x ∈ tr, ∀ θ owner j, x.lab = .push θ owner j → owner = j.1 ∧ x.pre.refs j = 0
  /-- `create_job` returns `NULL` iff it has taken over the remote list when
      all jobs were live, and else a job that was not. -/
  results : ∀ tr₁ x tr₂ c r, tr = tr₁ ++ x :: tr₂ → x.lab = .result c r →
    (r = none ↔ ∃ y, InCall tr₁ c y ∧ y.lab = .takeOver c ∧ Exhausted y.pre c) ∧
      ∀ j, r = some j → Returned tr₁ x c j

/-- **The pools keep their jobs**, whatever the threads do. -/
theorem pool_integrity (h : Exec Step (Pools.taskManagementInit n) tr S) : Integrity tr S := by
  have hstep : ∀ x ∈ tr, ∃ L R, Inv x.pre L R ∧ Step x.pre x.lab x.post := by
    intro x hx
    obtain ⟨⟨tr₁, hreach⟩, hs⟩ := h.of_mem hx
    obtain ⟨L, R, hinv⟩ := exec_inv hreach
    exact ⟨L, R, hinv, hs⟩
  have hstart : ∀ j, ¬ Live (Pools.taskManagementInit n) j := by
    intro j
    rw [Inv.init.live_iff, not_not, List.append_nil]
    exact mem_allJobs.2 rfl
  refine ⟨?_, ?_, ?_, ?_, ?_⟩
  · obtain ⟨L, R, hinv⟩ := exec_inv h
    intro c
    refine ⟨L c, R c, hinv.free c, hinv.remote c, hinv.nodup c, fun j => ?_⟩
    rw [hinv.live_iff, not_not]
    constructor
    · intro hj
      obtain rfl := hinv.own c j hj
      exact ⟨rfl, hj⟩
    · rintro ⟨rfl, hj⟩
      exact hj
  · intro j
    refine h.count_turns (P := fun S => Live S j) (hstart j) fun x hx => ?_
    obtain ⟨L, R, hinv, hs⟩ := hstep x hx
    obtain ⟨L', R', hl, hinv'⟩ := hs.inv hinv
    exact hl.live hinv hinv' j
  · intro j
    refine h.count_turns (P := fun S => Giving S j) ?_ fun x hx => ?_
    · rintro ⟨θ, hθ⟩
      exact hstart j (.inr ⟨θ, Pc.hand_of_giving hθ⟩)
    · obtain ⟨L, R, hinv, hs⟩ := hstep x hx
      exact hs.giving hinv j
  · intro x hx θ owner j hlab
    obtain ⟨L, R, hinv, hs⟩ := hstep x hx
    rw [hlab] at hs
    exact hs.push_own hinv
  · rintro tr₁ ⟨S₁, a, S₂⟩ tr₂ c r rfl hlab
    obtain rfl : a = .result c r := hlab
    obtain ⟨h₁, hs⟩ := h.split
    obtain ⟨L, R, hinv⟩ := exec_inv h₁
    exact hs.result hinv (exec_callOk h₁ c)

/-- The core creates a job and puts it back. -/
theorem pool_integrity_one : ∃ (tr : Run 1) (S : Pools 1) (j : JobId 1),
    Exec Step (Pools.taskManagementInit 1) tr S ∧ tr.countP (popped j) = 1 ∧ tr.countP (pushed j) = 1 ∧
      Integrity tr S := by
  have hinit := Inv.init (n := 1)
  have hpc : (Pools.taskManagementInit 1).pc (some 0) = .idle := rfl
  obtain ⟨j, hj⟩ : ∃ j, (Pools.taskManagementInit 1).freeList 0 = some j := by
    refine Option.ne_none_iff_exists'.1 fun hnone => ?_
    have hnil := (hinit.free 0).eq_nil_iff.2 hnone
    have hmem : ((0 : Fin 1), (⟨0, by decide⟩ : Fin jobsPerCore)) ∈ allJobs (0 : Fin 1) :=
      mem_allJobs.2 rfl
    rw [hnil] at hmem
    exact List.not_mem_nil hmem
  have h : Exec Step (Pools.taskManagementInit 1) [] (Pools.taskManagementInit 1) := .nil
  have h := h.snoc (.call ⟨1, 10, 10, fun _ => 5, 0⟩ hpc)
  have h := h.snoc (.nonempty goto_pc_self fun hnone => by
    have heq : some j = none := hj.symm.trans hnone
    cases heq)
  have h := h.snoc (.pop goto_pc_self hj)
  have h := h.snoc (.fill goto_pc_self)
  have h := h.snoc (.count goto_pc_self)
  have h := h.snoc (.offered goto_pc_self)
  have hpos : 0 < Function.update (Pools.taskManagementInit 1).refs j
      ((Pools.taskManagementInit 1).refs j + 1) j := by
    rw [Function.update_self]
    exact Nat.succ_pos _
  have h := h.snoc (@Step.put 1 _ (some 0) j goto_pc_self hpos)
  have h := h.snoc (@Step.isLocal 1 _ (some 0) j 0
    (goto_pc_self.trans (if_pos (by simp [Pools.goto, Pools.setRefs, Pools.setJob])))
    (by simp [Pools.goto, Pools.setRefs, Pools.setJob, filled, coreId]) rfl)
  have h := h.snoc (.localNext goto_pc_self)
  have h := h.snoc (.localHead goto_pc_self)
  refine ⟨_, _, j, h, ?_, ?_, pool_integrity h⟩
  · simp [popped]
  · simp [pushed]

end EeftSched.JobPool

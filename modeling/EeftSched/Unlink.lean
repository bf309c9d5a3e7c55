/-
  What a core unlinks when it accepts a migration request
  (`process_migration_requests`): the locks of the two cores protect it.

  * `Sys.InFlight`: a request that is built, queued or being processed, and
    not decided yet;
  * `Sys.OnlyQueued`: a job is in a queue of one core and in no other list;
  * `unlink_protected`: a job has at most one request, what is unlinked is
    queued at the core of the request, and until the request is decided no
    discard list and no other core gets the job.
-/
import EeftSched.Ownership

namespace EeftSched

variable {n : ℕ} {cfg : Config} {S : Sys n} {c d o : Fin n} {j : JobId n}

/-- A request of core `o` for job `j` is in flight, and not decided yet. -/
def Sys.InFlight (S : Sys n) (j : JobId n) (o : Fin n) : Prop := S.Token j o true

/-- Job `j` is in the ready queue or the replica queue of core `o`, and in no
    other list. -/
structure Sys.OnlyQueued (S : Sys n) (j : JobId n) (o : Fin n) : Prop where
  queued : ∃ b, j ∈ (S.core o).queue b
  once : (S.core o).lists.count j = 1
  others : ∀ d ≠ o, j ∉ (S.core d).lists
  discardQueue : j ∉ S.discardQueue

/-- Core `c` has the `rq_lock` of `l` to itself. -/
def Sys.Locked (S : Sys n) (c l : Fin n) : Prop :=
  l ∈ (S.core c).pc.holds c ∧ ∀ d, l ∈ (S.core d).pc.holds d → d = c

theorem Core.mem_held_of_lists {K : Core n} (h : j ∈ K.lists) : j ∈ K.held :=
  Core.mem_held_of_placed (Multiset.mem_add.2 (.inl h))

theorem Core.mem_lists_of_queue {K : Core n} {b : Bool} (h : j ∈ K.queue b) : j ∈ K.lists := by
  cases b
  · exact Multiset.mem_add.2 (.inl (Multiset.mem_add.2 (.inl (Multiset.mem_add.2 (.inl h)))))
  · exact Multiset.mem_add.2 (.inl (Multiset.mem_add.2 (.inl (Multiset.mem_add.2 (.inr h)))))

namespace Inv

theorem locked (h : Inv S) {l : Fin n} (hl : l ∈ (S.core c).pc.holds c) : S.Locked c l :=
  ⟨hl, fun d hd => h.locks d c l hd hl⟩

/-- A job in flight is with the core of the request, or nowhere. -/
theorem not_elsewhere (h : Inv S) (hf : S.InFlight j o) (hd : d ≠ o) : j ∉ (S.core d).lists := by
  intro hm
  exact hd ((h.token j o true hf).owner d (Core.mem_held_of_lists hm))

theorem notMem_discardQueue (h : Inv S) (hf : S.InFlight j o) : j ∉ S.discardQueue := by
  intro hm
  exact (h.token j o true hf).shelf (Multiset.mem_add.2 (.inl hm))

/-- **A linked ready job in flight is queued at the core of the request.** -/
theorem onlyQueued (h : Inv S) (hf : S.InFlight j o) (hl : (S.job j).linked = true)
    (hr : (S.job j).state = .ready) : S.OnlyQueued j o := by
  obtain ⟨b, hb⟩ := h.queued_of_early hf hl hr
  refine ⟨⟨b, hb⟩, ?_, fun d hd => h.not_elsewhere hf hd, h.notMem_discardQueue hf⟩
  have hn : (S.core o).lists.Nodup :=
    (Multiset.nodup_add.1 (Core.placed_nodup (h.core_nodup o))).1
  exact Multiset.count_eq_one_of_mem hn (Core.mem_lists_of_queue hb)

end Inv

/-- **Migration unlinks only what its locks protect.** In every reachable
    state a job has at most one request; when core `c` is about to unlink the
    job of a request, it has both `rq_lock`s and the job is in a queue of the
    core of the request and in no other list; and while a request for a `READY`
    job is not decided, the job is in no discard list, not in the discard
    queue, and in no list of another core. -/
theorem unlink_protected (h : Reachable cfg S) :
    (∀ j, S.reqs.count j ≤ 1) ∧
    (∀ c rq, (S.core c).pc = .procDecide rq → (S.job rq.job).linked = true →
      (S.job rq.job).state = .ready →
        S.Locked c c ∧ S.Locked c rq.fromCore ∧ S.OnlyQueued rq.job rq.fromCore) ∧
    (∀ j o, S.InFlight j o → (S.job j).state = .ready →
      (∀ d, j ∉ (S.core d).discardList) ∧ j ∉ S.discardQueue ∧
        ∀ d ≠ o, j ∉ (S.core d).lists) := by
  have hi := h.inv
  refine ⟨?_, ?_, ?_⟩
  · intro j
    exact Multiset.nodup_iff_count_le_one.1 hi.once j
  · intro c rq hp hl hr
    have hholds : (S.core c).pc.holds c = {c, rq.fromCore} := by rw [hp]; rfl
    have hc : c ∈ (S.core c).pc.holds c := by rw [hholds]; exact Finset.mem_insert_self ..
    have ho : rq.fromCore ∈ (S.core c).pc.holds c := by
      rw [hholds]
      exact Finset.mem_insert_of_mem (Finset.mem_singleton_self _)
    exact ⟨hi.locked hc, hi.locked ho, hi.onlyQueued (Sys.token_of_decide hp) hl hr⟩
  · intro j o hf hr
    exact ⟨hi.notMem_discardList hf hr, hi.notMem_discardQueue hf,
      fun d hd => hi.not_elsewhere hf hd⟩

/-- Core 1 is about to unlink a job of the ready queue of core 0: it has both locks,
    and nobody else has the job. -/
theorem unlink_protected_offered : ∃ (S : Sys 2) (j : JobId 2), Reachable (handConfig 10 5) S ∧
    (S.core 1).pc = .procDecide ⟨j, 0⟩ ∧ (S.job j).linked = true ∧ (S.job j).state = .ready ∧
    S.reqs.count j ≤ 1 ∧ S.Locked 1 1 ∧ S.Locked 1 0 ∧ S.OnlyQueued j 0 := by
  obtain ⟨J, f, o, j₀, j₁, j₂, h, hj₂⟩ := HandRun.decide1 .top (show 5 ≤ 10 by decide) (by decide)
  obtain ⟨tr, hrun, -⟩ := h.run
  obtain ⟨hone, hlocked, -⟩ := unlink_protected ⟨tr, hrun⟩
  have hlinked : (J j₂).linked = true := by rw [hj₂]; rfl
  have hready : (J j₂).state = .ready := by rw [hj₂]; rfl
  exact ⟨_, j₂, ⟨tr, hrun⟩, congrArg Core.pc pairSys_core, hlinked, hready, hone j₂,
    hlocked 1 ⟨j₂, 0⟩ (congrArg Core.pc pairSys_core) hlinked hready⟩

end EeftSched

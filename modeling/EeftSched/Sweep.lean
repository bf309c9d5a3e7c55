/-
  The sweep of the discard queue between two ticks (`timer_thread_func` in
  `processor.c`).

  * `Sweeping`: where the sweep is, between the jobs passed and those to do;
  * `Swept`: what the next tick starts with;
  * `sweep_filter`: the jobs whose deadline has come are dropped, and no others.
-/
import EeftSched.ModeTrigger

namespace EeftSched

open SortedQueue Lts

variable {n : ℕ} {j : JobId n} {c : Fin n} {cfg : Config} {S S' S₀ S₁ : Sys n}
  {tr : List (Trans (Sys n) (Label n))} {seen todo : List (JobId n)} {k : ℕ}

/-- A core at the barrier waits. -/
theorem CoreStep.not_arrived (hs : CoreStep cfg c S S') (hi : Inv S) : (S.core c).pc ≠ .arrived := by
  cases hs with
  | own hs _ => exact (hs.spec (hi.ok c) (hi.core_nodup c)).own.start
  | arrive hs =>
    cases hs with
    | put hput => cases hput <;> rw [‹(S.core c).pc = _›] <;> nofun
    | _ => rw [‹(S.core c).pc = _›]; nofun
  | discard hs => cases hs <;> rw [‹(S.core c).pc = _›] <;> nofun
  | offer hs => cases hs <;> rw [‹(S.core c).pc = _›] <;> nofun
  | request hs => cases hs <;> rw [‹(S.core c).pc = _›] <;> nofun

/-- The deadline of the job has not come. -/
def Sys.inTime (S : Sys n) (j : JobId n) : Bool := decide (S.systemTime < (S.job j).actualDeadline)

/-- The record of a job the sweep has dropped -/
def JobRec.dropped (r : JobRec) : JobRec := { r.unlink with refcount := r.refcount - 1 }

/-- Where the sweep that began in `S₀` is: it has passed the jobs `seen` and
    kept those in time. -/
structure Sweeping (S₀ : Sys n) (seen todo : List (JobId n)) (S : Sys n) : Prop where
  queue₀ : S₀.discardQueue = seen ++ todo
  core : S.core = S₀.core
  time : S.systemTime = S₀.systemTime
  queue : S.discardQueue = seen.filter S₀.inTime ++ todo
  timer : S.timer = .sweep (seen.filter S₀.inTime).length ∨
    ∃ j ∈ seen, S₀.inTime j = false ∧ S.timer = .sweepPut j (seen.filter S₀.inTime).length
  kept : ∀ j, j ∉ seen ∨ S₀.inTime j = true → S.job j = S₀.job j
  hand : ∀ j, S.timer.hand = some j → S.job j = (S₀.job j).unlink
  dropped : ∀ j ∈ seen, S₀.inTime j = false → S.timer.hand ≠ some j →
    S.job j = (S₀.job j).dropped ∧ ((S₀.job j).refcount = 1 → j ∈ S.remoteFreeList j.1)

theorem Sweeping.start (ht : S₀.timer = .sweep 0) : Sweeping S₀ [] S₀.discardQueue S₀ where
  queue₀ := rfl
  core := rfl
  time := rfl
  queue := rfl
  timer := .inl ht
  kept _ _ := rfl
  hand j hj := by
    rw [ht] at hj
    cases hj
  dropped := nofun

theorem filter_append_singleton {p : JobId n → Bool} {l : List (JobId n)} {b : Bool} (h : p j = b) :
    (l ++ [j]).filter p = l.filter p ++ if b then [j] else [] := by
  subst h
  rw [List.filter_append, List.filter_singleton]
  cases p j <;> rfl

/-- The job at the cursor is the first one to do. -/
theorem Sweeping.cursor (h : Sweeping S₀ seen todo S) (ht : S.timer = .sweep k) :
    k = (seen.filter S₀.inTime).length ∧ S.discardQueue[k]? = todo.head? := by
  rcases h.timer with ht' | ⟨j, -, -, ht'⟩
  · obtain rfl : k = (seen.filter S₀.inTime).length := by simpa using ht.symm.trans ht'
    refine ⟨rfl, ?_⟩
    rw [h.queue, List.getElem?_append_right le_rfl, Nat.sub_self, List.head?_eq_getElem?]
  · cases ht.symm.trans ht'

theorem Sweeping.inTime_eq (h : Sweeping S₀ seen todo S) (hj : j ∉ seen) :
    S₀.inTime j = S.inTime j := by
  unfold Sys.inTime
  rw [h.time, h.kept j (.inl hj)]

/-- The timer owns no pool: the last reference it drops fills a remote list. -/
theorem Sys.putJobRef_timer (T : Sys n) (j : JobId n) : ∃ g, T.putJobRef none j =
      { T with job := T.job.set j { T.job j with refcount := (T.job j).refcount - 1 }, remoteFreeList := g } ∧
    (∀ i c, i ∈ T.remoteFreeList c → i ∈ g c) ∧ ((T.job j).refcount = 1 → j ∈ g j.1) := by
  unfold putJobRef releaseJobToPool
  dsimp only
  split_ifs with hone hpool
  · cases hpool
  · refine ⟨_, rfl, fun i c hi => ?_, fun _ => ?_⟩
    · by_cases hc : c = j.1
      · subst hc
        rw [Function.update_self]
        exact List.mem_cons_of_mem j hi
      · rw [Function.update_of_ne hc]
        exact hi
    · rw [Function.update_self]
      exact List.mem_cons_self
  · exact ⟨_, rfl, fun _ _ => id, fun h => absurd h hone⟩

theorem Sweeping.step {a : Label n} (h : Sweeping S₀ seen todo S) (hn : S₀.discardQueue.Nodup)
    (hi : Inv S) (hs : Step cfg S a S') (hne : S.timer ≠ .idle) (hne' : S'.timer ≠ .idle) :
    ∃ seen' todo', Sweeping S₀ seen' todo' S' := by
  have hcur : ∀ j todo', todo = j :: todo' → S₀.discardQueue = (seen ++ [j]) ++ todo' ∧ j ∉ seen := by
    rintro j todo' rfl
    have hq : S₀.discardQueue = (seen ++ [j]) ++ todo' := by
      rw [h.queue₀, List.append_assoc, List.singleton_append]
    rw [hq] at hn
    exact ⟨hq, fun hj => List.disjoint_of_nodup_append (List.nodup_append.1 hn).1 hj List.mem_cons_self⟩
  cases hs with
  | core _ hs => exact absurd (hi.timer hne _) (hs.not_arrived hi)
  | timer hs =>
    cases hs with
    | sweep ht _ => exact absurd ht hne
    | @keep k j ht hj hd =>
      obtain ⟨rfl, hhead⟩ := h.cursor ht
      obtain ⟨todo', rfl⟩ := List.head?_eq_some_iff.1 (hhead.symm.trans hj)
      obtain ⟨hq, hnot⟩ := hcur j todo' rfl
      have hin : S₀.inTime j = true := by
        rw [h.inTime_eq hnot]
        exact decide_eq_true (not_le.1 hd)
      have hf := filter_append_singleton (l := seen) hin
      have hhand : ∀ i, (TimerPc.sweep (n := n) ((seen.filter S₀.inTime).length + 1)).hand ≠ some i := nofun
      refine ⟨seen ++ [j], todo', hq, h.core, h.time, ?_, .inl ?_, fun i hi => ?_, nofun, ?_⟩
      · rw [hf, h.queue, List.append_assoc]
        rfl
      · rw [hf, List.length_append]
        rfl
      · by_cases hij : i = j
        · exact h.kept i (.inl (hij ▸ hnot))
        · refine h.kept i (hi.imp_left fun hm hmem => hm (List.mem_append_left _ hmem))
      · intro i hi hout _
        have hne : i ∈ seen := by
          refine (List.mem_append.1 hi).resolve_right fun hij => ?_
          rw [List.mem_singleton.1 hij, hin] at hout
          cases hout
        exact h.dropped i hne hout (by rw [ht]; nofun)
    | @expire k j ht hj hd =>
      obtain ⟨rfl, hhead⟩ := h.cursor ht
      obtain ⟨todo', rfl⟩ := List.head?_eq_some_iff.1 (hhead.symm.trans hj)
      obtain ⟨hq, hnot⟩ := hcur j todo' rfl
      have hout : S₀.inTime j = false := by
        rw [h.inTime_eq hnot]
        exact decide_eq_false (not_lt.2 hd)
      have hf : (seen ++ [j]).filter S₀.inTime = seen.filter S₀.inTime := by
        rw [filter_append_singleton hout]
        exact List.append_nil _
      refine ⟨seen ++ [j], todo', hq, h.core, h.time, ?_,
        .inr ⟨j, List.mem_append_right _ List.mem_cons_self, hout, by rw [hf]⟩, fun i hi => ?_, ?_, ?_⟩
      · show S.discardQueue.eraseIdx _ = _
        rw [hf, h.queue, List.eraseIdx_append_of_length_le le_rfl, Nat.sub_self]
        rfl
      · have hij : i ≠ j := by
          rintro rfl
          rcases hi with hi | hi
          · exact hi (List.mem_append_right _ List.mem_cons_self)
          · exact Bool.false_ne_true (hout.symm.trans hi)
        refine (Jobs.set_ne _ _ hij).trans (h.kept i (hi.imp_left fun hm hmem => ?_))
        exact hm (List.mem_append_left _ hmem)
      · intro i hi
        obtain rfl : j = i := Option.some.inj hi
        refine (Jobs.set_self ..).trans ?_
        rw [h.kept j (.inl hnot)]
      · intro i hi hout' hhand
        have hij : i ≠ j := fun hij => hhand (congrArg some hij.symm)
        have hmem : i ∈ seen := (List.mem_append.1 hi).resolve_right fun hm => hij (List.mem_singleton.1 hm)
        obtain ⟨hjob, hpool⟩ := h.dropped i hmem hout' (by rw [ht]; nofun)
        exact ⟨(Jobs.set_ne _ _ hij).trans hjob, hpool⟩
    | @put k j ht =>
      have hjob := h.hand j (by rw [ht]; rfl)
      obtain ⟨i, hmem, hout, ht'⟩ : ∃ i ∈ seen, S₀.inTime i = false ∧
          S.timer = .sweepPut i (seen.filter S₀.inTime).length := by
        refine h.timer.resolve_left fun ht' => ?_
        cases ht.symm.trans ht'
      obtain ⟨rfl, rfl⟩ : j = i ∧ k = (seen.filter S₀.inTime).length := by
        simpa using ht.symm.trans ht'
      obtain ⟨g, he, hg, hlast⟩ :=
        ({ S with timer := .sweep (seen.filter S₀.inTime).length } : Sys n).putJobRef_timer j
      rw [he]
      refine ⟨seen, todo, h.queue₀, h.core, h.time, h.queue, .inl rfl, fun i hi => ?_, nofun, ?_⟩
      · refine (Jobs.set_ne _ _ ?_).trans (h.kept i hi)
        rintro rfl
        rcases hi with hi | hi
        · exact hi hmem
        · exact Bool.false_ne_true (hout.symm.trans hi)
      · intro i hi hout' _
        by_cases hij : i = j
        · subst hij
          refine ⟨?_, fun hone => hlast ?_⟩
          · refine (Jobs.set_self ..).trans ?_
            rw [hjob]
            rfl
          · show (S.job i).refcount = 1
            rw [hjob]
            exact hone
        · obtain ⟨hjob', hpool⟩ := h.dropped i hi hout' (by rw [ht]; exact fun hij' => hij (Option.some.inj hij').symm)
          exact ⟨(Jobs.set_ne _ _ hij).trans hjob', fun hone => hg i _ (hpool hone)⟩
    | advance => exact absurd rfl hne'

/-- What the sweep makes of a processor, when the next tick starts in `S'` -/
structure Swept (S S' : Sys n) : Prop where
  time : S'.systemTime = S.systemTime + 1
  core : ∀ c, S'.core c = (S.core c).goto .start
  queue : S'.discardQueue = S.discardQueue.filter S.inTime
  kept : ∀ j, j ∉ S.discardQueue ∨ S.inTime j = true → S'.job j = S.job j
  dropped : ∀ j ∈ S.discardQueue, S.inTime j = false →
    S'.job j = (S.job j).dropped ∧ ((S.job j).refcount = 1 → j ∈ S'.remoteFreeList j.1)

theorem Sweeping.advance (h : Sweeping S₀ seen todo S) (hs : TimerStep cfg S S') (hne : S.timer ≠ .idle)
    (hidle : S'.timer = .idle) : Swept S₀ S' := by
  cases hs with
  | sweep ht _ => exact absurd ht hne
  | keep => cases hidle
  | expire => cases hidle
  | @put k j _ =>
    obtain ⟨f, g, he⟩ := ({ S with timer := .sweep k } : Sys n).putJobRef_eq none j
    rw [he] at hidle
    cases hidle
  | @advance k _ _ ht hj _ _ =>
    obtain ⟨-, hhead⟩ := h.cursor ht
    obtain rfl : todo = [] := List.head?_eq_none_iff.1 (hhead.symm.trans hj)
    have hq : S₀.discardQueue = seen := h.queue₀.trans (List.append_nil _)
    refine ⟨congrArg (· + 1) h.time, fun c => ?_, ?_, fun j hj => h.kept j (hq ▸ hj), fun j hj hout => ?_⟩
    · show (S.core c).goto .start = _
      rw [h.core]
    · show S.discardQueue = _
      rw [h.queue, hq, List.append_nil]
    · exact h.dropped j (hq ▸ hj) hout (by rw [ht]; nofun)

/-- **The sweep keeps the jobs in time and drops the others**, whatever the
    order and the number of references: the next tick starts with the jobs whose
    deadline has not come, in the same order, and with every record but theirs
    as it was.  A job that was in the queue alone is in its pool again. -/
theorem sweep_filter (h : Reachable cfg S) (ht : S.timer = .sweep 0) (hr : Exec (Step cfg) S tr S₁)
    (hn : ∀ x ∈ tr, x.post.timer ≠ .idle) {a : Label n} (hs : Step cfg S₁ a S')
    (hidle : S'.timer = .idle) : Swept S S' := by
  have hnodup : S.discardQueue.Nodup := by
    have hle : (S.discardQueue : Multiset (JobId n)) ≤ S.held := by
      rw [Sys.held, add_assoc]
      exact (Multiset.le_add_right _ _).trans (Multiset.le_add_left _ _)
    exact Multiset.coe_nodup.1 (Multiset.nodup_of_le hle h.inv.held_nodup)
  obtain ⟨seen, todo, hsweep, hne, hi⟩ : ∃ seen todo, Sweeping S seen todo S₁ ∧ S₁.timer ≠ .idle ∧
      Inv S₁ := by
    clear hs
    induction hr with
    | nil =>
      refine ⟨[], _, .start ht, fun hidle => ?_, h.inv⟩
      cases ht.symm.trans hidle
    | @snoc tr T a U hr hs ih =>
      obtain ⟨seen, todo, hsweep, hne, hi⟩ := ih fun x hx => hn x (List.mem_append_left _ hx)
      have hne' := hn ⟨T, a, U⟩ (List.mem_append_right _ List.mem_cons_self)
      obtain ⟨seen', todo', hsweep'⟩ := hsweep.step hnodup hi hs hne hne'
      exact ⟨seen', todo', hsweep', hne', hs.inv hi⟩
  cases hs with
  | core _ hs => exact absurd (hi.timer hne _) (hs.not_arrived hi)
  | timer hs => exact hsweep.advance hs hne hidle

namespace OneCore

/-- A task whose jobs are discarded at level 1 and expire in the same tick -/
def briefTask : Task := ⟨1, 20, 1, fun _ => 1, 0⟩

/-- A task whose jobs are discarded with them and have time left -/
def longTask : Task := ⟨2, 20, 20, fun _ => 4, 0⟩

/-- One core and two levels -/
def briefConfig : Config :=
  { lowConfig with
    maxCriticalityLevels := 2
    maxTasks := 2
    systemTasks := [briefTask, longTask]
    allocationMap := [⟨1, .primary, 0, 0, fun _ => 1⟩, ⟨2, .primary, 0, 0, fun _ => 20⟩] }

/-- A run from where another one has ended -/
theorem after {s S : Sys 1} {tr : List (Trans (Sys 1) (Label 1))} (_ : Exec (Step cfg) s tr S) :
    Exec (Step cfg) S [] S := .nil

/-- Two jobs arrive at level 0, the level rises to 1, and the core discards both:
    the sweep finds one of them past its deadline. -/
theorem two_discards : ∃ (S S₁ S' : Sys 1) (tr : List (Trans (Sys 1) (Label 1))) (i j : JobId 1),
    Reachable briefConfig S ∧ S.timer = .sweep 0 ∧ S.discardQueue = [i, j] ∧ S.inTime i = false ∧
      (S.job i).refcount = 1 ∧ Exec (Step briefConfig) S tr S₁ ∧ (∀ x ∈ tr, x.post.timer ≠ .idle) ∧
      Step briefConfig S₁ .timer S' ∧ S'.timer = .idle ∧ S'.discardQueue = [j] := by
  have h : Exec (Step briefConfig) (Sys.init 1) [] _ := .nil
  have h := own h (.sync (.start rfl))
  have h := own h (.sync (.equal rfl rfl))
  have h := own h (.sync (.awake rfl rfl))
  have h := own h (.run (.idle rfl rfl))
  have h := own h (.arrival (.pendingEnd rfl nofun))
  have h := shared h (.arrive (@ArriveStep.create _ _ _ _ _ _ _ _ _ 1 rfl ⟨rfl, by decide, rfl⟩ nofun rfl))
  have h := own h (.arrival (.allocIns rfl))
  have h := shared h (.arrive (@ArriveStep.create _ _ _ _ _ _ _ _ _ 4 rfl ⟨rfl, by decide, rfl⟩ nofun rfl))
  have h := own h (.arrival (.allocIns rfl))
  have h := own h (.arrival (.allocEnd rfl))
  have h := own h (.reclaim (.lock rfl))
  have h := own h (.reclaim (.empty rfl rfl))
  have h := shared h (.discard (.lock rfl ⟨Fin.forall_fin_one.2 rfl, rfl, nofun⟩))
  have h := shared h (.discard (.done rfl rfl))
  have h := own h (.dispatch (.pop rfl rfl nofun rfl))
  have h := own h (.dispatch (.start rfl rfl))
  have h := own h (.power (.begin rfl))
  have h := own h (.power (.dvfsSkip rfl))
  have h := own h (.power (.dpm rfl))
  have h := own h (.power (.summary rfl))
  have h := h.snoc (.timer (.sweep rfl (Fin.forall_fin_one.2 rfl)))
  have h := h.snoc (.timer (@TimerStep.advance _ _ _ _ 1 [] rfl rfl rfl (.inr (by decide))))
  have h := own h (.sync (.start rfl))
  have h := own h (.sync (.differ rfl (by decide)))
  have h := own h (.sync (.reload rfl))
  have h := shared h (.arrive (.modeStore rfl))
  have h := own h (.sync (.modeBody rfl))
  have h := own h (.sync (.awake rfl rfl))
  have h := own h (.run (.idle rfl rfl))
  have h := own h (.arrival (.pendingEnd rfl nofun))
  have h := own h (.arrival (.allocSkip rfl (Ctx.not_releases rfl (by decide))))
  have h := own h (.arrival (.allocSkip rfl (Ctx.not_releases rfl (by decide))))
  have h := own h (.arrival (.allocEnd rfl))
  have h := own h (.reclaim (.lock rfl))
  have h := own h (.reclaim (.pop rfl rfl))
  have h := shared h (.discard (.discard rfl rfl ⟨Fin.forall_fin_one.2 rfl, rfl, nofun⟩))
  have h := own h (.reclaim (.pop rfl rfl))
  have h := shared h (.discard (.discard rfl rfl ⟨Fin.forall_fin_one.2 rfl, rfl, nofun⟩))
  have h := own h (.reclaim (.empty rfl rfl))
  have h := shared h (.discard (.lock rfl ⟨Fin.forall_fin_one.2 rfl, rfl, nofun⟩))
  have h := shared h (.discard (.keep rfl rfl))
  have h := shared h (.discard (.keep rfl rfl))
  have h := shared h (.discard (.done rfl rfl))
  have h := own h (.dispatch (.none rfl nofun))
  have h := own h (.power (.begin rfl))
  have h := own h (.power (.dvfsSkip rfl))
  have h := own h (.power (.dpm rfl))
  have h := own h (.power (.summary rfl))
  have h := h.snoc (.timer (.sweep rfl (Fin.forall_fin_one.2 rfl)))
  have h' := after h
  have h' := h'.snoc (.timer (.expire rfl rfl (by decide)))
  have h' := h'.snoc (.timer (.put rfl))
  have h' := h'.snoc (.timer (.keep rfl rfl (by decide)))
  refine ⟨_, _, _, _, _, _, ⟨_, h⟩, rfl, rfl, by decide, rfl, h', fun x hx => ?_,
    .timer (@TimerStep.advance _ _ _ _ 1 [] rfl rfl rfl (.inl rfl)), rfl, rfl⟩
  rcases List.mem_append.1 hx with hx | hx
  · rcases List.mem_append.1 hx with hx | hx
    · obtain rfl := List.mem_singleton.1 hx
      nofun
    · obtain rfl := List.mem_singleton.1 hx
      nofun
  · obtain rfl := List.mem_singleton.1 hx
    nofun

end OneCore

/-- The sweep drops the job past its deadline into its pool and keeps the other. -/
theorem sweep_filter_two : ∃ (S S' : Sys 1) (i j : JobId 1), S.discardQueue = [i, j] ∧
    S'.discardQueue = [j] ∧ S'.job j = S.job j ∧ i ∈ S'.remoteFreeList i.1 ∧ Swept S S' := by
  obtain ⟨S, S₁, S', tr, i, j, hr, ht, hq, hout, hone, h, hn, hs, hidle, hq'⟩ := OneCore.two_discards
  have hswept := sweep_filter hr ht h hn hs hidle
  refine ⟨S, S', i, j, hq, hq', hswept.kept j (.inr ?_), ?_, hswept⟩
  · have hfilter := hswept.queue
    rw [hq, hq'] at hfilter
    have hmem : j ∈ [i, j].filter S.inTime := hfilter ▸ List.mem_cons_self
    exact (List.mem_filter.1 hmem).2
  · exact (hswept.dropped i (hq ▸ List.mem_cons_self) hout).2 hone

end EeftSched

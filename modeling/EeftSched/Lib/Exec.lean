/-
  Executions of a labelled transition system.

  `Exec step s tr t` is a run from `s` to `t`; its trace `tr` lists the
  transitions taken, each with the states before and after it, so that a
  property of a run ("no step lowers the level") is a property of its trace.
  The rules below turn a step lemma into a run lemma; `eventually_stutters` is the
  one for what goes down, `Exec.simulate` the one for two levels of a design, and
  `Exec.count_turns` counts how often something has begun and ended.
-/
import Mathlib.Data.List.Basic
import Mathlib.Data.List.Induction
import Mathlib.Data.Nat.Find
import Mathlib.Data.Nat.Init
import Mathlib.Order.Basic

namespace Lts

universe u v
variable {σ : Type u} {ℓ : Type v}

/-- A transition: the state before, the label, the state after. -/
structure Trans (σ : Type u) (ℓ : Type v) where
  pre : σ
  lab : ℓ
  post : σ

/-- The runs of `step` from `s`, with their traces. -/
inductive Exec (step : σ → ℓ → σ → Prop) (s : σ) : List (Trans σ ℓ) → σ → Prop
  | nil : Exec step s [] s
  | snoc {tr t a u} : Exec step s tr t → step t a u → Exec step s (tr ++ [⟨t, a, u⟩]) u

/-- The states some run reaches. -/
def Reachable (step : σ → ℓ → σ → Prop) (s t : σ) : Prop := ∃ tr, Exec step s tr t

variable {step : σ → ℓ → σ → Prop} {s t u : σ} {tr tr' : List (Trans σ ℓ)}

theorem Reachable.refl : Reachable step s s := ⟨[], .nil⟩

theorem Reachable.snoc {a : ℓ} (h : Reachable step s t) (hs : step t a u) : Reachable step s u := by
  obtain ⟨tr, h⟩ := h
  exact ⟨_, h.snoc hs⟩

/-- **Invariant rule**: what holds initially and is preserved by every step
    holds at the end of every run. -/
theorem Exec.invariant {Inv : σ → Prop} (h : Exec step s tr t) (h0 : Inv s)
    (hs : ∀ t a u, Inv t → step t a u → Inv u) : Inv t := by
  induction h with
  | nil => exact h0
  | snoc _ ha ih => exact hs _ _ _ ih ha

theorem Reachable.invariant {Inv : σ → Prop} (h : Reachable step s t) (h0 : Inv s)
    (hs : ∀ t a u, Inv t → step t a u → Inv u) : Inv t := by
  obtain ⟨tr, h⟩ := h
  exact h.invariant h0 hs

theorem Exec.append (h : Exec step s tr t) (h' : Exec step t tr' u) : Exec step s (tr ++ tr') u := by
  induction h' with
  | nil => simpa using h
  | snoc _ ha ih => rw [← List.append_assoc]; exact ih.snoc ha

/-- A run up to a step, the step, and the run after it -/
theorem Exec.join {v : σ} {a : ℓ} (h : Exec step s tr t) (hs : step t a u) (h' : Exec step u tr' v) :
    Exec step s (tr ++ ⟨t, a, u⟩ :: tr') v := by
  rw [List.append_cons]
  exact (h.snoc hs).append h'

/-- Every transition of a run is a step from a state the run has reached. -/
theorem Exec.of_mem (h : Exec step s tr t) {x : Trans σ ℓ} (hx : x ∈ tr) :
    Reachable step s x.pre ∧ step x.pre x.lab x.post := by
  induction h with
  | nil => simp at hx
  | @snoc tr t a u h ha ih =>
    rcases List.mem_append.1 hx with hx | hx
    · exact ih hx
    · rw [List.mem_singleton.1 hx]; exact ⟨⟨_, h⟩, ha⟩

/-- A run whose transitions all satisfy `P` is a run of the restricted relation. -/
theorem Exec.restrict {P : σ → ℓ → Prop} (h : Exec step s tr t) (hP : ∀ x ∈ tr, P x.pre x.lab) :
    Exec (fun t a u => step t a u ∧ P t a) s tr t := by
  induction h with
  | nil => exact .nil
  | @snoc tr t a u _ ha ih =>
    exact .snoc (ih fun x hx => hP x (by simp [hx])) ⟨ha, hP ⟨t, a, u⟩ (by simp)⟩

/-- The last transition of a run -/
theorem Exec.last {x : Trans σ ℓ} (h : Exec step s (tr ++ [x]) t) :
    Exec step s tr x.pre ∧ step x.pre x.lab x.post ∧ t = x.post := by
  generalize hl : tr ++ [x] = l at h
  cases h with
  | nil => exact absurd hl (List.append_ne_nil_of_right_ne_nil _ (List.cons_ne_nil _ _))
  | snoc h ha =>
    obtain ⟨rfl, hx⟩ := List.append_inj' hl rfl
    obtain rfl := (List.cons.inj hx).1
    exact ⟨h, ha, rfl⟩

theorem Exec.eq_of_nil (h : Exec step s [] t) : s = t := by
  generalize hl : ([] : List (Trans σ ℓ)) = l at h
  cases h with
  | nil => rfl
  | snoc => exact absurd hl.symm (List.append_ne_nil_of_right_ne_nil _ (List.cons_ne_nil _ _))

/-- The first transition of a run -/
theorem Exec.head {x : Trans σ ℓ} (h : Exec step s (x :: tr) t) :
    s = x.pre ∧ step x.pre x.lab x.post ∧ Exec step x.post tr t := by
  induction tr using List.reverseRecOn generalizing t with
  | nil =>
    rw [← List.nil_append [x]] at h
    obtain ⟨hpre, hx, rfl⟩ := h.last
    exact ⟨hpre.eq_of_nil, hx, .nil⟩
  | append_singleton tr z ih =>
    rw [← List.cons_append] at h
    obtain ⟨hpre, hz, rfl⟩ := h.last
    obtain ⟨hs, hx, hrest⟩ := ih hpre
    exact ⟨hs, hx, hrest.snoc hz⟩

/-- The part of a run before one of its transitions -/
theorem Exec.split {x : Trans σ ℓ} (h : Exec step s (tr ++ x :: tr') t) :
    Exec step s tr x.pre ∧ step x.pre x.lab x.post := by
  induction tr' using List.reverseRecOn generalizing t with
  | nil => exact ⟨h.last.1, h.last.2.1⟩
  | append_singleton tr' z ih =>
    rw [← List.cons_append, ← List.append_assoc] at h
    exact ih h.last.1

/-- What holds after one of the transitions of a run, and is preserved by those
    that follow it, holds from there on. -/
theorem Exec.after {P : σ → Prop} {x : Trans σ ℓ} (h : Exec step s (tr ++ x :: tr') t) (h0 : P x.post)
    (hs : ∀ z ∈ tr', Reachable step s z.pre → step z.pre z.lab z.post → P z.pre → P z.post) :
    (∀ z ∈ tr', P z.pre) ∧ P t := by
  induction tr' using List.reverseRecOn generalizing t with
  | nil =>
    obtain ⟨-, -, rfl⟩ := h.last
    exact ⟨nofun, h0⟩
  | append_singleton tr' z ih =>
    rw [← List.cons_append, ← List.append_assoc] at h
    obtain ⟨hrun, hz, rfl⟩ := h.last
    obtain ⟨hall, hpre⟩ := ih hrun fun y hy => hs y (List.mem_append_left _ hy)
    refine ⟨fun y hy => ?_, hs z (List.mem_append_right _ (List.mem_singleton_self z)) ⟨_, hrun⟩ hz hpre⟩
    rcases List.mem_append.1 hy with hy | hy
    · exact hall y hy
    · obtain rfl := List.mem_singleton.1 hy
      exact hpre

/-- **Variant rule**: where every step of an infinite run that is no stutter lets
    `f` go down, only stutters are left from some point on. -/
theorem eventually_stutters {α : Type*} {r : α → α → Prop} (hr : WellFounded r) {f : σ → α}
    {run : ℕ → σ} {Stutter : ℕ → Prop} (hstay : ∀ i, Stutter i → run (i + 1) = run i)
    (hdown : ∀ i, Stutter i ∨ r (f (run (i + 1))) (f (run i))) :
    ∃ i, ∀ k ≥ i, Stutter k ∧ run k = run i := by
  suffices ∀ x i, f (run i) = x → ∃ i', ∀ k ≥ i', Stutter k ∧ run k = run i' from this _ 0 rfl
  intro x
  induction x using hr.induction with
  | _ x ih =>
    rintro i rfl
    -- up to the next step that is no stutter, the state stays
    have hsame : ∀ k ≥ i, (∀ m, i ≤ m → m < k → Stutter m) → run k = run i := by
      intro k hk
      induction k, hk using Nat.le_induction with
      | base => exact fun _ => rfl
      | succ k hk ihk =>
        intro hall
        rw [hstay k (hall k hk k.lt_succ_self), ihk fun m hm hlt => hall m hm (Nat.lt_succ_of_lt hlt)]
    by_cases hall : ∃ k, i ≤ k ∧ ¬ Stutter k
    · classical
      have hk := Nat.find_spec hall
      have hmin : ∀ m, i ≤ m → m < Nat.find hall → Stutter m := fun m hm hlt =>
        not_not.1 fun hn => Nat.find_min hall hlt ⟨hm, hn⟩
      have hlt := (hdown _).resolve_left hk.2
      rw [hsame _ hk.1 hmin] at hlt
      exact ih _ hlt _ rfl
    · have hall : ∀ k ≥ i, Stutter k := fun k hk => not_not.1 fun hn => hall ⟨k, hk, hn⟩
      exact ⟨i, fun k hk => ⟨hall k hk, hsame k hk fun m hm _ => hall m hm⟩⟩

/-- Where every good state leads on to one, there is a run without end. -/
theorem exists_infinite {Good : σ → Prop} (h0 : Good s)
    (h : ∀ t, Good t → ∃ tr u, tr ≠ [] ∧ Exec step t tr u ∧ Good u) :
    ∃ (run : ℕ → σ) (lab : ℕ → ℓ), run 0 = s ∧ ∀ i, step (run i) (lab i) (run (i + 1)) := by
  have hnext : ∀ t : {t // ∃ tr u, Exec step t tr u ∧ Good u},
      ∃ x : ℓ × {t // ∃ tr u, Exec step t tr u ∧ Good u}, step t x.1 x.2 := by
    rintro ⟨t, tr, u, hrun, hu⟩
    obtain ⟨x, tr, u, hrun, hu⟩ : ∃ x tr u, Exec step t (x :: tr) u ∧ Good u := by
      cases tr with
      | cons x tr => exact ⟨x, tr, u, hrun, hu⟩
      | nil =>
        obtain rfl := hrun.eq_of_nil
        obtain ⟨tr, u, hne, hrun, hu⟩ := h t hu
        obtain ⟨x, tr, rfl⟩ := List.exists_cons_of_ne_nil hne
        exact ⟨x, tr, u, hrun, hu⟩
    obtain ⟨rfl, hx, hrest⟩ := hrun.head
    exact ⟨(x.lab, ⟨x.post, tr, u, hrest, hu⟩), hx⟩
  choose next hstep using hnext
  let run : ℕ → {t // ∃ tr u, Exec step t tr u ∧ Good u} := fun i =>
    i.rec ⟨s, [], s, .nil, h0⟩ fun _ t => (next t).2
  exact ⟨fun i => (run i).1, fun i => (next (run i)).1, rfl, fun i => hstep (run i)⟩

/-- What a transition does to a property: it begins, ends, or stays. -/
structure Turns (begins ends before after : Prop) : Prop where
  start : begins → ¬ before ∧ after
  stop : ends → before ∧ ¬ after
  stay : ¬ begins → ¬ ends → (after ↔ before)

/-- **Counting rule**: a property that does not hold at first has begun as often
    as it has ended, or once more while it holds. -/
theorem Exec.count_turns {begins ends : Trans σ ℓ → Bool} {P : σ → Prop} (h : Exec step s tr t)
    (h0 : ¬ P s) (hs : ∀ x ∈ tr, Turns (begins x = true) (ends x = true) (P x.pre) (P x.post)) :
    (P t → tr.countP begins = tr.countP ends + 1) ∧ (¬ P t → tr.countP begins = tr.countP ends) := by
  induction h with
  | nil => exact ⟨fun hp => absurd hp h0, fun _ => rfl⟩
  | @snoc tr t a u _ _ ih =>
    obtain ⟨hyes, hno⟩ := ih fun x hx => hs x (List.mem_append_left _ hx)
    have hturn := hs ⟨t, a, u⟩ (List.mem_append_right _ (List.mem_singleton_self _))
    rw [List.countP_append, List.countP_append, List.countP_singleton, List.countP_singleton]
    by_cases hb : begins ⟨t, a, u⟩ = true
    · obtain ⟨hbefore, hafter⟩ := hturn.start hb
      have he : ¬ ends ⟨t, a, u⟩ = true := fun he => hbefore (hturn.stop he).1
      rw [if_pos hb, if_neg he, hno hbefore]
      exact ⟨fun _ => rfl, fun hu => absurd hafter hu⟩
    · by_cases he : ends ⟨t, a, u⟩ = true
      · obtain ⟨hbefore, hafter⟩ := hturn.stop he
        rw [if_neg hb, if_pos he, hyes hbefore]
        exact ⟨fun hu => absurd hu hafter, fun _ => rfl⟩
      · rw [if_neg hb, if_neg he]
        have hstay := hturn.stay hb he
        exact ⟨fun hu => hyes (hstay.1 hu), fun hu => hno fun ht => hu (hstay.2 ht)⟩

/-! ## Two levels -/

section

variable {σ' ℓ' : Type*} {step' : σ' → ℓ' → σ' → Prop} {f : σ → σ'} {tr₁ : List (Trans σ' ℓ')}

/-- A trace of `step'` that does a block of steps for each transition of a trace,
    between the states that `f` makes of those before and after it. -/
inductive Blocks (step' : σ' → ℓ' → σ' → Prop) (f : σ → σ') : List (Trans σ ℓ) → List (Trans σ' ℓ') → Prop
  | nil : Blocks step' f [] []
  | snoc {tr tr₁ x block} : Blocks step' f tr tr₁ → Exec step' (f x.pre) block (f x.post) →
      Blocks step' f (tr ++ [x]) (tr₁ ++ block)

/-- **Simulation rule**: if `step'` can do what a step does in a block of steps, it
    can do what a run does. -/
theorem Exec.simulate {Inv : σ → Prop} (h : Exec step s tr t) (h0 : Inv s)
    (hinv : ∀ t a u, Inv t → step t a u → Inv u)
    (hs : ∀ t a u, Inv t → step t a u → ∃ block, Exec step' (f t) block (f u)) :
    ∃ tr₁, Exec step' (f s) tr₁ (f t) ∧ Blocks step' f tr tr₁ := by
  induction h with
  | nil => exact ⟨[], .nil, .nil⟩
  | @snoc tr t a u h ha ih =>
    obtain ⟨tr₁, hexec, hblocks⟩ := ih
    obtain ⟨block, hblock⟩ := hs t a u (h.invariant h0 hinv) ha
    exact ⟨tr₁ ++ block, hexec.append hblock, hblocks.snoc hblock⟩

theorem Exec.le {m : σ → ℕ} (h : Exec step s tr t) (hm : ∀ x ∈ tr, m x.pre ≤ m x.post) : m s ≤ m t := by
  induction h with
  | nil => exact Nat.le_refl _
  | snoc _ _ ih =>
    exact Nat.le_trans (ih fun x hx => hm x (List.mem_append_left _ hx))
      (hm _ (List.mem_append_right _ (List.mem_singleton_self _)))

/-- What never goes down in the blocks never goes down. -/
theorem Blocks.le {m : σ' → ℕ} (h : Blocks step' f tr tr₁) (hm : ∀ y ∈ tr₁, m y.pre ≤ m y.post) :
    ∀ x ∈ tr, m (f x.pre) ≤ m (f x.post) := by
  induction h with
  | nil => nofun
  | snoc _ hblock ih =>
    intro x hx
    rcases List.mem_append.1 hx with hx | hx
    · exact ih (fun y hy => hm y (List.mem_append_left _ hy)) x hx
    · obtain rfl := List.mem_singleton.1 hx
      exact hblock.le fun y hy => hm y (List.mem_append_right _ hy)

end

end Lts

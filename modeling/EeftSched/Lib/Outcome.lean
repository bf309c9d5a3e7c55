/-
  Programs that pass on a state and may fault, by what they can return.

  * `Yields m Q`: whatever the state, what `m` returns satisfies `Q`;
  * `Yields.bind`: the rule of a program of two parts;
  * `Yields.mapM`: the rule of a loop that collects its results.
-/
import EeftSched.Lib.Checked

namespace Outcome

variable {σ ε α β ι : Type} {m : StateT σ (Except ε) α} {Q R : α → Prop}

/-- Whatever the state, a result satisfies `Q`. -/
def Yields (m : StateT σ (Except ε) α) (Q : α → Prop) : Prop :=
  ∀ s a s', m.run s = .ok (a, s') → Q a

namespace Yields

theorem pure {a : α} (h : Q a) : Yields (Pure.pure a : StateT σ (Except ε) α) Q := by
  intro s b s' hrun
  cases hrun
  exact h

theorem throw (e : ε) : Yields (MonadExcept.throw e : StateT σ (Except ε) α) Q := by
  intro s b s' hrun
  cases hrun

theorem mono (h : Yields m Q) (hq : ∀ a, Q a → R a) : Yields m R :=
  fun s a s' hrun => hq a (h s a s' hrun)

/-- Nothing is known of the result. -/
theorem any (m : StateT σ (Except ε) α) : Yields m fun _ => True := fun _ _ _ _ => trivial

theorem bind {m : StateT σ (Except ε) β} {P : β → Prop} {k : β → StateT σ (Except ε) α} (h : Yields m P)
    (hk : ∀ b, P b → Yields (k b) Q) : Yields (m >>= k) Q := by
  intro s a s' hrun
  rw [StateT.run_bind] at hrun
  obtain ⟨x, hx, hrun⟩ := Except.bind_eq_ok.1 hrun
  exact hk x.1 (h s x.1 x.2 hx) x.2 a s' hrun

/-- A computation without state -/
theorem lift {x : Except ε α} (h : ∀ a, x = .ok a → Q a) : Yields (StateT.lift x : StateT σ (Except ε) α) Q := by
  intro s a s' hrun
  obtain ⟨b, hb, hrun⟩ := Except.bind_eq_ok.1 hrun
  cases hrun
  exact h a hb

theorem mapM {f : ι → StateT σ (Except ε) α} {l : List ι} (h : ∀ i ∈ l, Yields (f i) Q) :
    Yields (l.mapM f) fun l' => l'.length = l.length ∧ ∀ a ∈ l', Q a := by
  induction l with
  | nil => exact .pure ⟨rfl, nofun⟩
  | cons i l ih =>
    rw [List.mapM_cons]
    refine (h i List.mem_cons_self).bind fun a ha => ?_
    refine (ih fun i hi => h i (List.mem_cons_of_mem _ hi)).bind fun l' hl => .pure ⟨?_, ?_⟩
    · exact congrArg Nat.succ hl.1
    · exact List.forall_mem_cons.2 ⟨ha, hl.2⟩

end Yields

end Outcome

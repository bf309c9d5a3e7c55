/-
  Computations that take fuel, and may fault.

  * `Settles`: with enough fuel the computation ends, always the same way: in a
    result for which `Q`, or in an error for which `E`;
  * `Settles.bind`: the rule of a computation of two parts;
  * `Settles.foldlM`: the rule of a loop, by an invariant of what is done.
-/
import EeftSched.Lib.Checked

namespace Except

variable {ε α β ι : Type} {E E' : ε → Prop} {f g : ℕ → Except ε α} {Q R : α → Prop}

/-- With enough fuel the computation ends. -/
inductive Settles (E : ε → Prop) (f : ℕ → Except ε α) (Q : α → Prop) : Prop
  | ok {a : α} (fuel : ℕ) (h : ∀ fuel' ≥ fuel, f fuel' = .ok a) (hq : Q a)
  | error {e : ε} (fuel : ℕ) (h : ∀ fuel' ≥ fuel, f fuel' = .error e) (he : E e)

namespace Settles

theorem pure {a : α} (h : Q a) : Settles E (fun _ => .ok a) Q := .ok 0 (fun _ _ => rfl) h

theorem throw {e : ε} (h : E e) : Settles E (fun _ => .error e) Q := .error 0 (fun _ _ => rfl) h

theorem congr (h : Settles E f Q) (he : ∀ fuel, g fuel = f fuel) : Settles E g Q := by
  rwa [funext he]

theorem mono (h : Settles E f Q) (hq : ∀ a, Q a → R a) (he : ∀ e, E e → E' e) : Settles E' f R := by
  cases h with
  | ok fuel h hr => exact .ok fuel h (hq _ hr)
  | error fuel h hr => exact .error fuel h (he _ hr)

/-- What every result is, whatever the fuel -/
theorem and (h : Settles E f Q) (hr : ∀ fuel a, f fuel = .ok a → R a) : Settles E f fun a => Q a ∧ R a := by
  cases h with
  | ok fuel h hq => exact .ok fuel h ⟨hq, hr fuel _ (h fuel (Nat.le_refl _))⟩
  | error fuel h he => exact .error fuel h he

theorem bind {f : ℕ → Except ε β} {P : β → Prop} {k : ℕ → β → Except ε α} (h : Settles E f P)
    (hk : ∀ b, P b → Settles E (fun fuel => k fuel b) Q) : Settles E (fun fuel => f fuel >>= k fuel) Q := by
  cases h with
  | @ok b fuel h hb =>
    cases hk b hb with
    | ok fuel₁ h₁ hq =>
      refine .ok (max fuel fuel₁) (fun fuel' hle => ?_) hq
      rw [h fuel' (Nat.le_trans (Nat.le_max_left _ _) hle), ok_bind]
      exact h₁ fuel' (Nat.le_trans (Nat.le_max_right _ _) hle)
    | error fuel₁ h₁ he =>
      refine .error (max fuel fuel₁) (fun fuel' hle => ?_) he
      rw [h fuel' (Nat.le_trans (Nat.le_max_left _ _) hle), ok_bind]
      exact h₁ fuel' (Nat.le_trans (Nat.le_max_right _ _) hle)
  | error fuel h he =>
    refine .error fuel (fun fuel' hle => ?_) he
    rw [h fuel' hle]
    rfl

/-- **Loop rule** -/
theorem foldlM {l : List ι} {f : ℕ → α → ι → Except ε α} {I : List ι → α → Prop} {a : α} (h0 : I [] a)
    (hs : ∀ done i rest a, l = done ++ i :: rest → I done a →
      Settles E (fun fuel => f fuel a i) (I (done ++ [i]))) :
    Settles E (fun fuel => l.foldlM (f fuel) a) (I l) := by
  suffices ∀ rest done a, l = done ++ rest → I done a →
      Settles E (fun fuel => rest.foldlM (f fuel) a) (I l) from this l [] a rfl h0
  intro rest
  induction rest with
  | nil =>
    intro done a hl ha
    rw [List.append_nil] at hl
    rw [hl]
    exact .pure ha
  | cons i rest ih =>
    intro done a hl ha
    simp only [List.foldlM_cons]
    refine (hs done i rest a hl ha).bind fun a₁ ha₁ => ?_
    exact ih (done ++ [i]) a₁ (by rw [hl, List.append_assoc, List.singleton_append]) ha₁

end Settles

end Except

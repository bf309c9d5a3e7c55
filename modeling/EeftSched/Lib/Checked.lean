/-
  Computations that may fault, and loops of them.

  * `Except.Fails`: the computation faults;
  * `bind_eq_ok`: what a computation of two parts with a result has done;
  * `foldlM_eq_ok`, `mapM_eq_ok`, `allM_eq_ok`: a loop none of whose passes faults does what
    the loop of the same passes without the checks does;
  * `foldlM_invariant`: what the passes of a loop keep;
  * `mapM_eq_map`: what a loop that collects its results has collected;
  * `foldlM_fails`: one pass that faults is enough.
-/
import Mathlib.Data.List.Basic

namespace Except

universe u v
variable {ε : Type u} {α β : Type v}

/-- The computation faults. -/
def Fails (r : Except ε α) : Prop := ∃ e, r = .error e

@[simp] theorem fails_error (e : ε) : (error e : Except ε α).Fails := ⟨e, rfl⟩

@[simp] theorem not_fails_ok (a : α) : ¬ (ok a : Except ε α).Fails := nofun

@[simp] theorem not_fails_pure (a : α) : ¬ (pure a : Except ε α).Fails := nofun

@[simp] theorem ok_bind (a : α) (f : α → Except ε β) : ((ok a : Except ε α) >>= f) = f a := rfl

theorem not_fails_iff {r : Except ε α} : ¬ r.Fails ↔ ∃ a, r = .ok a := by
  cases r with
  | error e => simp
  | ok a => simp

theorem fails_bind {r : Except ε α} {f : α → Except ε β} :
    (r >>= f).Fails ↔ r.Fails ∨ ∃ a, r = .ok a ∧ (f a).Fails := by
  cases r with
  | error e => exact ⟨fun _ => .inl ⟨e, rfl⟩, fun _ => ⟨e, rfl⟩⟩
  | ok a =>
    constructor
    · intro h
      exact .inr ⟨a, rfl, h⟩
    · rintro (h | ⟨b, hb, h⟩)
      · exact absurd h (not_fails_ok a)
      · cases hb
        exact h

theorem bind_eq_ok {r : Except ε α} {f : α → Except ε β} {b : β} :
    (r >>= f) = .ok b ↔ ∃ a, r = .ok a ∧ f a = .ok b := by
  cases r with
  | error e => exact ⟨nofun, fun ⟨a, ha, _⟩ => nomatch ha⟩
  | ok a =>
    constructor
    · exact fun h => ⟨a, rfl, h⟩
    · rintro ⟨_, ⟨⟩, h⟩
      exact h

theorem Fails.bind {r : Except ε α} (h : r.Fails) (f : α → Except ε β) : (r >>= f).Fails :=
  fails_bind.2 (.inl h)

theorem not_fails_bind {r : Except ε α} {f : α → Except ε β} (h : ¬ r.Fails)
    (hf : ∀ a, ¬ (f a).Fails) : ¬ (r >>= f).Fails := by
  rw [fails_bind]
  rintro (hr | ⟨a, -, ha⟩)
  · exact h hr
  · exact hf a ha

/-! ## Loops -/

variable {ι : Type v} {l : List ι}

theorem foldlM_eq_ok {f : β → ι → Except ε β} {g : β → ι → β}
    (h : ∀ b, ∀ i ∈ l, f b i = .ok (g b i)) (b : β) : l.foldlM f b = .ok (l.foldl g b) := by
  induction l generalizing b with
  | nil => rfl
  | cons i l ih =>
    rw [List.foldlM_cons, h b i List.mem_cons_self, List.foldl_cons]
    exact ih (fun b i hi => h b i (List.mem_cons_of_mem _ hi)) (g b i)

theorem not_fails_foldlM {f : β → ι → Except ε β} (h : ∀ b, ∀ i ∈ l, ¬ (f b i).Fails) (b : β) :
    ¬ (l.foldlM f b).Fails := by
  induction l generalizing b with
  | nil => exact not_fails_pure b
  | cons i l ih =>
    rw [List.foldlM_cons]
    exact not_fails_bind (h b i List.mem_cons_self)
      (ih fun b i hi => h b i (List.mem_cons_of_mem _ hi))

/-- **Loop rule**: an invariant of what is done holds of the whole list at the
    end of a loop that returns. -/
theorem foldlM_invariant {f : β → ι → Except ε β} {I : List ι → β → Prop} {b b' : β}
    (h : l.foldlM f b = .ok b') (h0 : I [] b)
    (hs : ∀ done i rest b₁ b₂, l = done ++ i :: rest → I done b₁ → f b₁ i = .ok b₂ → I (done ++ [i]) b₂) :
    I l b' := by
  suffices ∀ rest done b, l = done ++ rest → I done b → rest.foldlM f b = .ok b' → I l b' from
    this l [] b rfl h0 h
  intro rest
  induction rest with
  | nil =>
    intro done b hl hb h
    cases h
    rw [hl, List.append_nil]
    exact hb
  | cons i rest ih =>
    intro done b hl hb h
    rw [List.foldlM_cons] at h
    obtain ⟨b₁, h₁, h⟩ := bind_eq_ok.1 h
    exact ih (done ++ [i]) b₁ (by rw [hl, List.append_assoc, List.singleton_append])
      (hs done i rest b b₁ hl hb h₁) h

theorem foldlM_fails {f : β → ι → Except ε β} {i : ι} (hi : i ∈ l) (h : ∀ b, (f b i).Fails) (b : β) :
    (l.foldlM f b).Fails := by
  induction l generalizing b with
  | nil => cases hi
  | cons k l ih =>
    rw [List.foldlM_cons, fails_bind]
    rcases List.mem_cons.1 hi with rfl | hi
    · exact .inl (h b)
    · rcases Classical.em (f b k).Fails with hk | hk
      · exact .inl hk
      · obtain ⟨b', hb'⟩ := not_fails_iff.1 hk
        exact .inr ⟨b', hb', ih hi b'⟩

theorem mapM_eq_ok {f : ι → Except ε β} {g : ι → β} (h : ∀ i ∈ l, f i = .ok (g i)) :
    l.mapM f = .ok (l.map g) := by
  induction l with
  | nil => rfl
  | cons i l ih =>
    rw [List.mapM_cons, h i List.mem_cons_self, ih fun i hi => h i (List.mem_cons_of_mem _ hi)]
    rfl

theorem mapM_ok {f : ι → Except ε β} (h : ∀ i ∈ l, ∃ b, f i = .ok b) :
    ∃ l', l.mapM f = .ok l' ∧ l'.length = l.length := by
  induction l with
  | nil => exact ⟨[], rfl, rfl⟩
  | cons i l ih =>
    obtain ⟨b, hb⟩ := h i List.mem_cons_self
    obtain ⟨l', hl, hlen⟩ := ih fun i hi => h i (List.mem_cons_of_mem _ hi)
    exact ⟨b :: l', by rw [List.mapM_cons, hb, hl]; rfl, congrArg Nat.succ hlen⟩

/-- A loop that collects its results, each of which can only be `g i` -/
theorem mapM_eq_map {f : ι → Except ε β} {g : ι → β} {l' : List β} (h : l.mapM f = .ok l')
    (hg : ∀ i b, f i = .ok b → b = g i) : l' = l.map g := by
  induction l generalizing l' with
  | nil =>
    rw [List.mapM_nil] at h
    cases h
    rfl
  | cons i l ih =>
    rw [List.mapM_cons] at h
    obtain ⟨b, hb, h⟩ := bind_eq_ok.1 h
    obtain ⟨l₁, hl, h⟩ := bind_eq_ok.1 h
    cases h
    rw [List.map_cons, hg i b hb, ih hl]

/-- None of its passes faults. -/
theorem exists_ok_of_mapM {f : ι → Except ε β} {l' : List β} {i : ι} (h : l.mapM f = .ok l') (hi : i ∈ l) :
    ∃ b, f i = .ok b := by
  induction l generalizing l' with
  | nil => cases hi
  | cons k l ih =>
    rw [List.mapM_cons] at h
    obtain ⟨b, hb, h⟩ := bind_eq_ok.1 h
    obtain ⟨l₁, hl, -⟩ := bind_eq_ok.1 h
    rcases List.mem_cons.1 hi with rfl | hi
    · exact ⟨b, hb⟩
    · exact ih hl hi

theorem allM_eq_ok {κ : Type} {l : List κ} {p : κ → Except ε Bool} {q : κ → Bool}
    (h : ∀ i ∈ l, p i = .ok (q i)) : l.allM p = .ok (l.all q) := by
  induction l with
  | nil => rfl
  | cons i l ih =>
    have hl := ih fun i hi => h i (List.mem_cons_of_mem _ hi)
    rw [List.allM, h i List.mem_cons_self, List.all_cons]
    cases q i with
    | false => rfl
    | true => exact hl

end Except

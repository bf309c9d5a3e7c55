/-
  Regular expressions that are sequences of words and of repeated character
  classes, matched from the start of a text with backtracking, the longest
  repetition first.

  * `Parses`: a way to read a text by an expression, with what its groups read;
  * `matchFrom_sound`, `matchFrom_isSome`: a match is such a way, and there is a
    match if there is one;
  * `append_run_inj`: how far a run of a class goes is determined by the text.
-/
import Mathlib.Data.List.Basic
import Mathlib.Data.List.TakeWhile

namespace Regex

universe u
variable {α : Type u}

/-- A part of an expression: a word, or at least `least` elements of a class. -/
inductive Item (α : Type u) where
  | word (w : List α)
  | many (p : α → Bool) (least : ℕ) (group : Bool)

/-- The first result of `f` on `k`, `k - 1`, .., `least` -/
def longest {β : Type u} (f : ℕ → Option β) (least : ℕ) : ℕ → Option β
  | 0 => if least = 0 then f 0 else none
  | k + 1 =>
    if k + 1 < least then none
    else
      match f (k + 1) with
      | some b => some b
      | none => longest f least k

/-- The groups of the first match at the start of a text -/
def matchFrom [BEq α] : List (Item α) → List α → Option (List (List α))
  | [], _ => some []
  | .word w :: re, s => if w.isPrefixOf s then matchFrom re (s.drop w.length) else none
  | .many p least group :: re, s =>
    longest (fun k => (matchFrom re (s.drop k)).map fun groups => if group then s.take k :: groups else groups)
      least (s.takeWhile p).length

inductive Parses : List (Item α) → List α → List (List α) → Prop
  | nil (s : List α) : Parses [] s []
  | word {w s : List α} {re : List (Item α)} {groups : List (List α)} (h : Parses re s groups) :
      Parses (.word w :: re) (w ++ s) groups
  | many {a s : List α} {re : List (Item α)} {groups : List (List α)} {p : α → Bool} {least : ℕ}
      {group : Bool} (ha : ∀ x ∈ a, p x = true) (hl : least ≤ a.length) (h : Parses re s groups) :
      Parses (.many p least group :: re) (a ++ s) (if group then a :: groups else groups)

/-! ## The longest repetition -/

section
variable {β : Type u} {f : ℕ → Option β} {least k : ℕ} {b : β}

theorem longest_eq_some (h : longest f least k = some b) : ∃ i, least ≤ i ∧ i ≤ k ∧ f i = some b := by
  induction k with
  | zero =>
    unfold longest at h
    split_ifs at h with h0
    exact ⟨0, h0.le, le_rfl, h⟩
  | succ k ih =>
    unfold longest at h
    split_ifs at h with hlt
    split at h
    · rename_i b' hf
      exact ⟨k + 1, not_lt.1 hlt, le_rfl, hf.trans h⟩
    · obtain ⟨i, hi, hk, hf⟩ := ih h
      exact ⟨i, hi, hk.trans (Nat.le_succ k), hf⟩

theorem longest_isSome {i : ℕ} (hl : least ≤ i) (hi : i ≤ k) (h : (f i).isSome) :
    (longest f least k).isSome := by
  induction k with
  | zero =>
    obtain rfl : i = 0 := Nat.le_zero.1 hi
    rw [longest, if_pos (Nat.le_zero.1 hl)]
    exact h
  | succ k ih =>
    rw [longest, if_neg (not_lt.2 (hl.trans hi))]
    split
    · rfl
    · rename_i hf
      rcases Nat.lt_or_eq_of_le hi with hlt | rfl
      · exact ih (Nat.le_of_lt_succ hlt)
      · rw [hf] at h
        cases h

end

/-! ## Matches -/

variable {re : List (Item α)} {s : List α} {groups : List (List α)}

theorem forall_mem_take_takeWhile {p : α → Bool} {k : ℕ} (hk : k ≤ (s.takeWhile p).length) :
    ∀ x ∈ s.take k, p x = true := by
  intro x hx
  have htake : s.take k = (s.takeWhile p).take k := by
    rw [← List.takeWhile_append_dropWhile (p := p) (l := s), List.take_append_of_le_length]
    · rw [List.takeWhile_append_dropWhile]
    · exact hk
  rw [htake] at hx
  exact List.mem_takeWhile_imp (List.mem_of_mem_take hx)

/-- **A match reads the text.** -/
theorem matchFrom_sound [BEq α] [LawfulBEq α] (h : matchFrom re s = some groups) : Parses re s groups := by
  induction re generalizing s groups with
  | nil =>
    cases h
    exact .nil s
  | cons item re ih =>
    cases item with
    | word w =>
      unfold matchFrom at h
      split_ifs at h with hw
      obtain ⟨s', rfl⟩ := List.isPrefixOf_iff_prefix.1 hw
      rw [List.drop_left] at h
      exact .word (ih h)
    | many p least group =>
      obtain ⟨k, hl, hk, hf⟩ := longest_eq_some h
      obtain ⟨groups', hmatch, rfl⟩ := Option.map_eq_some_iff.1 hf
      have hlen : (s.take k).length = k :=
        List.length_take_of_le (hk.trans (List.takeWhile_sublist p).length_le)
      have hparse : Parses (.many p least group :: re) (s.take k ++ s.drop k)
          (if group then s.take k :: groups' else groups') :=
        .many (forall_mem_take_takeWhile hk) (hl.trans_eq hlen.symm) (ih hmatch)
      rw [List.take_append_drop] at hparse
      exact hparse

/-- **What can be read is matched.** -/
theorem matchFrom_isSome [BEq α] [LawfulBEq α] (h : Parses re s groups) : (matchFrom re s).isSome := by
  induction h with
  | nil => rfl
  | @word w s re groups h ih =>
    have hw := List.isPrefixOf_iff_prefix.2 (List.prefix_append w s)
    rw [matchFrom, if_pos hw, List.drop_left]
    exact ih
  | @many a s re groups p least group ha hl h ih =>
    refine longest_isSome hl ?_ ?_
    · rw [List.takeWhile_append_of_pos ha, List.length_append]
      exact Nat.le_add_right _ _
    · rw [List.drop_left, Option.isSome_map]
      exact ih

theorem matchFrom_eq_none [BEq α] [LawfulBEq α] (h : ∀ groups, ¬ Parses re s groups) :
    matchFrom re s = none :=
  Option.eq_none_iff_forall_ne_some.2 fun groups hm => h groups (matchFrom_sound hm)

/-! ## Reading a text -/

theorem parses_word_iff {w : List α} :
    Parses (.word w :: re) s groups ↔ ∃ s', s = w ++ s' ∧ Parses re s' groups := by
  constructor
  · intro h
    cases h with
    | word h => exact ⟨_, rfl, h⟩
  · rintro ⟨s', rfl, h⟩
    exact .word h

theorem parses_word_append_iff {w : List α} :
    Parses (.word w :: re) (w ++ s) groups ↔ Parses re s groups := by
  rw [parses_word_iff]
  constructor
  · rintro ⟨s', heq, h⟩
    rw [List.append_cancel_left heq]
    exact h
  · exact fun h => ⟨s, rfl, h⟩

theorem parses_many_iff {p : α → Bool} {least : ℕ} {group : Bool} :
    Parses (.many p least group :: re) s groups ↔
      ∃ a s' groups', s = a ++ s' ∧ (∀ x ∈ a, p x = true) ∧ least ≤ a.length ∧ Parses re s' groups' ∧
        groups = if group then a :: groups' else groups' := by
  constructor
  · intro h
    cases h with
    | many ha hl h => exact ⟨_, _, _, rfl, ha, hl, h, rfl⟩
  · rintro ⟨a, s', groups', rfl, ha, hl, h, rfl⟩
    exact .many ha hl h

/-- A word of the expression stands in the text. -/
theorem Parses.infix_of_mem {w : List α} (h : Parses re s groups) (hw : .word w ∈ re) : w <:+: s := by
  induction h with
  | nil => cases hw
  | @word w' s re groups h ih =>
    rcases List.mem_cons.1 hw with heq | hw
    · cases heq
      exact (List.prefix_append w s).isInfix
    · exact (ih hw).trans (List.suffix_append w' s).isInfix
  | @many a s re groups p least group ha hl h ih =>
    rcases List.mem_cons.1 hw with heq | hw
    · cases heq
    · exact (ih hw).trans (List.suffix_append a s).isInfix

def Item.isGroup : Item α → Bool
  | .word _ => false
  | .many _ _ group => group

/-- One group for each part that is one -/
theorem Parses.length_groups (h : Parses re s groups) : groups.length = (re.filter Item.isGroup).length := by
  induction h with
  | nil => rfl
  | word h ih => exact ih
  | @many a s re groups p least group ha hl h ih =>
    cases group with
    | false => exact ih
    | true => exact congrArg Nat.succ ih

/-! ## Reading a text in one way -/

/-- A run of a class ends where the class does. -/
theorem append_run_inj {p : α → Bool} {a b s t : List α} {x y : α} (ha : ∀ z ∈ a, p z = true)
    (hb : ∀ z ∈ b, p z = true) (hx : p x = false) (hy : p y = false)
    (h : a ++ x :: s = b ++ y :: t) : a = b ∧ x = y ∧ s = t := by
  have htake : ∀ {c : List α} {z : α} (u : List α), (∀ v ∈ c, p v = true) → p z = false →
      (c ++ z :: u).takeWhile p = c := by
    intro c z u hc hz
    rw [List.takeWhile_append_of_pos hc, List.takeWhile_cons, hz]
    exact List.append_nil c
  have hab : a = b := by
    rw [← htake s ha hx, h, htake t hb hy]
  subst hab
  obtain ⟨hxy, hst⟩ := List.cons.inj (List.append_cancel_left h)
  exact ⟨rfl, hxy, hst⟩

/-- A class and a word that starts outside it, where a run of the class ends -/
theorem parses_run_iff {p : α → Bool} {least : ℕ} {group : Bool} {a w : List α} {y z : α}
    (ha : ∀ x ∈ a, p x = true) (hl : least ≤ a.length) (hy : p y = false) (hz : p z = false) :
    Parses (.many p least group :: .word (z :: w) :: re) (a ++ y :: s) groups ↔
      ∃ groups', Parses (.word (z :: w) :: re) (y :: s) groups' ∧
        groups = if group then a :: groups' else groups' := by
  constructor
  · intro h
    obtain ⟨b, s', groups', heq, hb, -, hrest, rfl⟩ := parses_many_iff.1 h
    obtain ⟨t, rfl, -⟩ := parses_word_iff.1 hrest
    obtain ⟨rfl, rfl, rfl⟩ := append_run_inj ha hb hy hz heq
    exact ⟨groups', hrest, rfl⟩
  · rintro ⟨groups', h, rfl⟩
    exact .many ha hl h

end Regex

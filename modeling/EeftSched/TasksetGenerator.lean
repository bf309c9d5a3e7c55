/-
  Random tasks (`generate_single_task` in `tools/taskset_generator.py`), over
  exact arithmetic.

  The execution times are rounded and raised to be nondecreasing, scaled down
  when the largest one does not fit, and rounded and raised again.

  * `raise_pairwise`, `mem_of_mem_raise`: raising sorts a list and adds no values;
  * `generateSingleTask_spec`: a task comes out, and it is what the scheduler
    expects.
-/
import Mathlib.Algebra.Order.Field.Basic
import Mathlib.Tactic.NormNum
import EeftSched.Lib.Checked
import EeftSched.Lib.FoldMax
import EeftSched.Lib.Rounding

namespace EeftSched.TasksetGenerator

open Except FoldMax Rounding

inductive Error where
  | key
  | index
  | value
deriving DecidableEq, Repr

abbrev Py := Except Error

/-- `random.random()` -/
abbrev Draw := { r : ℚ // 0 ≤ r ∧ r < 1 }

/-- `random.uniform(a, b)` -/
def uniform (a b : ℚ) (r : Draw) : ℚ := a + (b - a) * r

/-- `wcet_scale[l]`, or the last one -/
def factorAt (wcetScale : List ℚ) (l : ℕ) : Py ℚ :=
  match wcetScale[l]? with
  | some factor => .ok factor
  | none =>
    match wcetScale.getLast? with
    | some factor => .ok factor
    | none => .error .index

/-- The loop over the levels below that of the task, downwards -/
def divideDown (wcetScale : List ℚ) : ℕ → List ℚ → Py (List ℚ)
  | 0, floatWcet => .ok floatWcet
  | l + 1, floatWcet => do
    let factor ← factorAt wcetScale (l + 1)
    match floatWcet[l + 1]? with
    | none => .error .index
    | some next => divideDown wcetScale l (floatWcet.set l (if factor > 0 then next / factor else next))

/-- The loop over the levels above -/
def copyUp (critLevel maxLevels : ℕ) (floatWcet : List ℚ) : List ℚ :=
  (List.range' (critLevel + 1) (maxLevels - (critLevel + 1))).foldl
    (fun w l => w.set l (w.getD critLevel 0)) floatWcet

/-- `float_wcet` -/
def floatWcets (wcetScale : List ℚ) (critLevel maxLevels : ℕ) (baseWcet : ℚ) : Py (List ℚ) :=
  if critLevel < maxLevels then do
    let floatWcet ← divideDown wcetScale critLevel ((List.replicate maxLevels 0).set critLevel baseWcet)
    .ok (copyUp critLevel maxLevels floatWcet)
  else .error .index

/-- The entries after `prev` -/
def raiseFrom (prev : ℤ) : List ℤ → List ℤ
  | [] => []
  | w :: wcet =>
    let w' := if w < prev then prev else w
    w' :: raiseFrom w' wcet

/-- The loop that makes the execution times nondecreasing -/
def raise : List ℤ → List ℤ
  | [] => []
  | w :: wcet => w :: raiseFrom w wcet

/-- `max` of a list -/
def maxOf : List ℤ → Py ℤ
  | [] => .error .value
  | w :: wcet => .ok (wcet.foldl max w)

/-- The execution times scaled down to `cap`, when the largest one reaches it -/
def fit (cap : ℤ) (wcet : List ℤ) : Py (List ℤ) := do
  let maxW ← maxOf wcet
  let scaleDown : ℚ := if maxW > 0 then cap / maxW else 1
  .ok (if maxW ≥ cap then raise (wcet.map fun w : ℤ => max 1 (roundHalfEven (w * scaleDown))) else wcet)

def drawDeadline (period : ℤ) (deadlineEqualPeriod : Bool) (draw : Draw) : ℤ :=
  if deadlineEqualPeriod then period
  else max 1 (roundHalfEven (uniform (7 / 10) 1 draw * period))

/-- What `generate_single_task` returns -/
structure TaskDict where
  taskId : ℕ
  name : String
  period : ℤ
  deadline : ℤ
  criticality : String
  wcet : List ℤ
  replicas : ℤ

/-- `generate_single_task`; `sampled` is what `sample_replicas` draws. -/
def generateSingleTask (taskId : ℕ) (util : ℚ) (crit : String) (period : ℤ) (deadlineEqualPeriod : Bool)
    (critLevelsMap : List (String × ℕ)) (maxLevels : ℕ) (wcetScale : List ℚ) (replicaMax : ℤ)
    (sampled : ℤ) (draw : Draw) : Py TaskDict := do
  let critLevel ←
    match critLevelsMap.lookup crit with
    | some level => .ok level
    | none => .error .key
  let baseWcet := max 1 (util * period)
  let floatWcet ← floatWcets wcetScale critLevel maxLevels baseWcet
  let wcet := raise (floatWcet.map fun x => max 1 (roundHalfEven x))
  let replicas := max 0 (min replicaMax sampled)
  let deadline := drawDeadline period deadlineEqualPeriod draw
  let wcet ← fit (max 1 (min period deadline - 1)) wcet
  .ok
    { taskId := taskId
      name := s!"Task_{taskId}"
      period := period
      deadline := deadline
      criticality := crit
      wcet := wcet
      replicas := replicas }

/-! ## Raising -/

section
variable {w w' prev : ℤ} {wcet : List ℤ}

theorem length_raiseFrom (prev : ℤ) (wcet : List ℤ) : (raiseFrom prev wcet).length = wcet.length := by
  induction wcet generalizing prev with
  | nil => rfl
  | cons w wcet ih => exact congrArg Nat.succ (ih _)

@[simp] theorem length_raise (wcet : List ℤ) : (raise wcet).length = wcet.length := by
  cases wcet with
  | nil => rfl
  | cons w wcet => exact congrArg Nat.succ (length_raiseFrom w wcet)

theorem raiseFrom_pairwise (prev : ℤ) (wcet : List ℤ) :
    (raiseFrom prev wcet).Pairwise (· ≤ ·) ∧ ∀ w ∈ raiseFrom prev wcet, prev ≤ w := by
  induction wcet generalizing prev with
  | nil => exact ⟨.nil, nofun⟩
  | cons w wcet ih =>
    rw [raiseFrom]
    have hle : prev ≤ if w < prev then prev else w := by split_ifs <;> omega
    obtain ⟨hsorted, hfrom⟩ := ih (if w < prev then prev else w)
    refine ⟨List.pairwise_cons.2 ⟨hfrom, hsorted⟩, ?_⟩
    rintro v hv
    rcases List.mem_cons.1 hv with rfl | hv
    · exact hle
    · exact hle.trans (hfrom v hv)

theorem raise_pairwise (wcet : List ℤ) : (raise wcet).Pairwise (· ≤ ·) := by
  cases wcet with
  | nil => exact .nil
  | cons w wcet =>
    obtain ⟨hsorted, hfrom⟩ := raiseFrom_pairwise w wcet
    exact List.pairwise_cons.2 ⟨hfrom, hsorted⟩

theorem mem_of_mem_raiseFrom (h : w ∈ raiseFrom prev wcet) : w = prev ∨ w ∈ wcet := by
  induction wcet generalizing prev with
  | nil => cases h
  | cons v wcet ih =>
    have hv : (if v < prev then prev else v) = prev ∨ (if v < prev then prev else v) = v := by
      split_ifs
      · exact .inl rfl
      · exact .inr rfl
    have hw : w = (if v < prev then prev else v) ∨ w ∈ wcet := by
      rcases List.mem_cons.1 h with h | h
      · exact .inl h
      · exact ih h
    rcases hw with rfl | hw
    · rcases hv with hv | hv
      · exact .inl hv
      · rw [hv]
        exact .inr List.mem_cons_self
    · exact .inr (List.mem_cons_of_mem _ hw)

/-- Raising adds no values. -/
theorem mem_of_mem_raise (h : w ∈ raise wcet) : w ∈ wcet := by
  cases wcet with
  | nil => cases h
  | cons v wcet =>
    rcases List.mem_cons.1 h with rfl | h
    · exact List.mem_cons_self
    · rcases mem_of_mem_raiseFrom h with rfl | h
      · exact List.mem_cons_self
      · exact List.mem_cons_of_mem _ h

theorem maxOf_ok (h : wcet ≠ []) : ∃ maxW, maxOf wcet = .ok maxW ∧ ∀ w ∈ wcet, w ≤ maxW := by
  cases wcet with
  | nil => exact absurd rfl h
  | cons v wcet => exact ⟨_, rfl, fun w => le_foldl_max v wcet⟩

end

/-! ## The execution times before rounding -/

theorem factorAt_ok {wcetScale : List ℚ} (h : wcetScale ≠ []) (l : ℕ) :
    ∃ factor, factorAt wcetScale l = .ok factor := by
  unfold factorAt
  split
  · exact ⟨_, rfl⟩
  · split
    · exact ⟨_, rfl⟩
    · rename_i hlast
      exact absurd (List.getLast?_eq_none_iff.1 hlast) h

theorem divideDown_ok {wcetScale : List ℚ} (h : wcetScale ≠ []) {l : ℕ} {w : List ℚ} (hl : l < w.length) :
    ∃ w', divideDown wcetScale l w = .ok w' ∧ w'.length = w.length := by
  induction l generalizing w with
  | zero => exact ⟨w, rfl, rfl⟩
  | succ l ih =>
    obtain ⟨factor, hfactor⟩ := factorAt_ok h (l + 1)
    have hnext : w[l + 1]? = some w[l + 1] := List.getElem?_eq_getElem hl
    let w₁ := w.set l (if factor > 0 then w[l + 1] / factor else w[l + 1])
    have hw₁ : w₁.length = w.length := List.length_set
    obtain ⟨w', hw', hlen⟩ := @ih w₁ (by omega)
    refine ⟨w', ?_, hlen.trans hw₁⟩
    rw [divideDown, hfactor, hnext]
    exact hw'

theorem length_copyUp (critLevel maxLevels : ℕ) (w : List ℚ) :
    (copyUp critLevel maxLevels w).length = w.length := by
  unfold copyUp
  generalize List.range' (critLevel + 1) (maxLevels - (critLevel + 1)) = levels
  induction levels generalizing w with
  | nil => rfl
  | cons l levels ih =>
    rw [List.foldl_cons, ih, List.length_set]

theorem floatWcets_ok {wcetScale : List ℚ} (h : wcetScale ≠ []) {critLevel maxLevels : ℕ}
    (hl : critLevel < maxLevels) (baseWcet : ℚ) :
    ∃ w, floatWcets wcetScale critLevel maxLevels baseWcet = .ok w ∧ w.length = maxLevels := by
  have hlen : ((List.replicate maxLevels (0 : ℚ)).set critLevel baseWcet).length = maxLevels := by
    rw [List.length_set, List.length_replicate]
  obtain ⟨w, hw, hlen'⟩ := divideDown_ok h (hl.trans_eq hlen.symm)
  refine ⟨copyUp critLevel maxLevels w, ?_, (length_copyUp _ _ _).trans (hlen'.trans hlen)⟩
  rw [floatWcets, if_pos hl, hw]
  rfl

/-! ## The task -/

theorem uniform_le {a b : ℚ} (h : a ≤ b) (r : Draw) : uniform a b r ≤ b := by
  have hmul := mul_le_mul_of_nonneg_left r.2.2.le (sub_nonneg.2 h)
  unfold uniform
  linarith

theorem drawDeadline_bounds {period : ℤ} (hp : 1 ≤ period) (deadlineEqualPeriod : Bool) (draw : Draw) :
    1 ≤ drawDeadline period deadlineEqualPeriod draw ∧
      drawDeadline period deadlineEqualPeriod draw ≤ period := by
  have hpq : (0 : ℚ) ≤ period := Int.cast_nonneg (by omega)
  unfold drawDeadline
  split_ifs
  · exact ⟨hp, le_rfl⟩
  · refine ⟨le_max_left _ _, max_le hp (roundHalfEven_le ?_)⟩
    exact mul_le_of_le_one_left hpq (uniform_le (by norm_num) draw)

/-- Scaled down, an execution time fits. -/
theorem scaled_le {w maxW cap : ℤ} (hw : 1 ≤ w) (hmax : w ≤ maxW) (hcap : 1 ≤ cap) :
    max 1 (roundHalfEven (w * (if maxW > 0 then (cap / maxW : ℚ) else 1))) ≤ cap := by
  have hmaxq : (0 : ℚ) < maxW := Int.cast_pos.2 (by omega)
  have hcapq : (0 : ℚ) ≤ cap := Int.cast_nonneg (by omega)
  refine max_le hcap (roundHalfEven_le ?_)
  rw [if_pos (by omega), mul_div_assoc', div_le_iff₀ hmaxq, mul_comm (cap : ℚ)]
  exact mul_le_mul_of_nonneg_right (Int.cast_le.2 hmax) hcapq

theorem fit_spec {cap : ℤ} {wcet : List ℤ} (hcap : 1 ≤ cap) (hne : wcet ≠ [])
    (hsorted : wcet.Pairwise (· ≤ ·)) (hw : ∀ w ∈ wcet, 1 ≤ w) :
    ∃ fitted, fit cap wcet = .ok fitted ∧ fitted.length = wcet.length ∧ fitted.Pairwise (· ≤ ·) ∧
      ∀ w ∈ fitted, 1 ≤ w ∧ w ≤ cap := by
  obtain ⟨maxW, hmaxW, hmax⟩ := maxOf_ok hne
  refine ⟨_, by rw [fit, hmaxW]; rfl, ?_⟩
  by_cases hfull : maxW ≥ cap
  · rw [if_pos hfull]
    refine ⟨by rw [length_raise, List.length_map], raise_pairwise _, fun w h => ?_⟩
    obtain ⟨v, hv, rfl⟩ := List.mem_map.1 (mem_of_mem_raise h)
    exact ⟨le_max_left _ _, scaled_le (hw v hv) (hmax v hv) hcap⟩
  · rw [if_neg hfull]
    exact ⟨rfl, hsorted, fun w h => ⟨hw w h, (hmax w h).trans (not_le.1 hfull).le⟩⟩

/-- **A generated task meets the assumptions of the scheduler**, whatever is
    drawn. -/
theorem generateSingleTask_spec (taskId : ℕ) (util : ℚ) {crit : String} {period : ℤ}
    (deadlineEqualPeriod : Bool) {critLevelsMap : List (String × ℕ)} {critLevel maxLevels : ℕ}
    {wcetScale : List ℚ} (replicaMax sampled : ℤ) (draw : Draw) (hp : 1 ≤ period)
    (hc : critLevelsMap.lookup crit = some critLevel) (hl : critLevel < maxLevels)
    (hs : wcetScale ≠ []) :
    ∃ t, generateSingleTask taskId util crit period deadlineEqualPeriod critLevelsMap maxLevels wcetScale
        replicaMax sampled draw = .ok t ∧
      t.wcet.length = maxLevels ∧ t.wcet.Pairwise (· ≤ ·) ∧
      (∀ w ∈ t.wcet, 1 ≤ w ∧ w ≤ max 1 (min t.period t.deadline - 1)) ∧
      t.period = period ∧ 1 ≤ t.deadline ∧ t.deadline ≤ t.period := by
  obtain ⟨floatWcet, hfloat, hlen⟩ := floatWcets_ok hs hl (max 1 (util * period))
  let wcet := raise (floatWcet.map fun x => max 1 (roundHalfEven x))
  have hlenw : wcet.length = maxLevels := by
    rw [length_raise, List.length_map, hlen]
  have hne : wcet ≠ [] := by
    intro hnil
    rw [hnil, List.length_nil] at hlenw
    omega
  have hwcet : ∀ w ∈ wcet, 1 ≤ w := by
    intro w hw
    obtain ⟨x, -, rfl⟩ := List.mem_map.1 (mem_of_mem_raise hw)
    exact le_max_left _ _
  let deadline := drawDeadline period deadlineEqualPeriod draw
  obtain ⟨fitted, hfit, hlenf, hsorted, hbounds⟩ :=
    fit_spec (le_max_left 1 (min period deadline - 1)) hne (raise_pairwise _) hwcet
  refine ⟨⟨taskId, s!"Task_{taskId}", period, deadline, crit, fitted, max 0 (min replicaMax sampled)⟩, ?_,
    hlenf.trans hlenw, hsorted, hbounds, rfl, drawDeadline_bounds hp deadlineEqualPeriod draw⟩
  unfold generateSingleTask
  simp only [hc, ok_bind, hfloat]
  rw [show fit (max 1 (min period (drawDeadline period deadlineEqualPeriod draw) - 1))
    (raise (floatWcet.map fun x => max 1 (roundHalfEven x))) = .ok fitted from hfit]
  rfl

def halfDraw : Draw := ⟨1 / 2, by norm_num⟩

theorem generateSingleTask_spec_half :
    ∃ t, generateSingleTask 1 (1 / 2) "HI" 10 false [("LO", 0), ("HI", 1)] 2 [1 / 2] 3 0 halfDraw = .ok t ∧
      t.wcet.length = 2 ∧ 1 ≤ t.deadline ∧ t.deadline ≤ t.period := by
  have hp : (1 : ℤ) ≤ 10 := by norm_num
  have hc : [("LO", 0), ("HI", 1)].lookup "HI" = some 1 := rfl
  have hs : [(1 / 2 : ℚ)] ≠ [] := List.cons_ne_nil _ _
  obtain ⟨t, ht, hlen, -, -, -, hdeadline⟩ :=
    generateSingleTask_spec 1 (1 / 2) false 3 0 halfDraw hp hc one_lt_two hs
  exact ⟨t, ht, hlen, hdeadline⟩

end EeftSched.TasksetGenerator

/-
  What the generator of task sets draws (`uunifast_discard`, `sample_period`,
  `sample_criticality`, `sample_replicas` in `tools/taskset_generator.py`), over
  exact arithmetic but for the utilizations.

  A draw is the next of a sequence that nothing is known of, so that what holds
  whatever is drawn holds of every run.

  * `uunifastDiscard_yields`: the utilizations add up to the total, up to the error
    of one rounding, and none is above the limit;
  * `samplePeriod_yields`: a period is in range, also one that has been changed
    to share a factor with the others;
  * `sampleReplicas_yields`: no task has more replicas than allowed.
-/
import EeftSched.Lib.Outcome
import EeftSched.TasksetGenerator

namespace EeftSched.TasksetGenerator

open Except Outcome Rounding

/-! ## Drawing -/

/-- How the generator stops -/
inductive Abort where
  | raised (e : Error)
  | zeroDivision
  /-- `RuntimeError` -/
  | runtime
  /-- `sys.exit` -/
  | exit
  /-- the loop of `sample_replicas` goes on -/
  | fuel
deriving DecidableEq, Repr

/-- What is drawn from now on, and `_chosen_periods` -/
structure Source where
  draws : ℕ → Draw
  /-- of the standard normal distribution -/
  normals : ℕ → ℚ
  chosenPeriods : List ℤ

abbrev Gen := StateT Source (Except Abort)

/-- `random.random()` -/
def random : Gen Draw := do
  let s ← get
  set { s with draws := fun i => s.draws (i + 1) }
  pure (s.draws 0)

/-- `random.gauss(mu, sigma)` -/
def gauss (mu sigma : ℚ) : Gen ℚ := do
  let s ← get
  set { s with normals := fun i => s.normals (i + 1) }
  pure (mu + s.normals 0 * sigma)

/-- `random.randint(a, b)` -/
def randint (a b : ℤ) : Gen ℤ :=
  if b < a then throw (.raised .value)
  else do
    let r ← random
    pure (a + ⌊r.1 * (b - a + 1 : ℤ)⌋)

/-- `random.choice(seq)` -/
def choice (seq : List ℤ) : Gen ℤ := do
  let r ← random
  match seq[⌊r.1 * seq.length⌋₊]? with
  | some x => pure x
  | none => throw (.raised .index)

/-- The functions of `math` on the numbers that the generator works with, and the
    float that is nearest to a result -/
structure FloatMath where
  exp : ℚ → ℚ
  log : ℚ → ℚ
  sqrt : ℚ → ℚ
  pow : ℚ → ℚ → ℚ
  rnd : ℚ → ℚ

/-- What the periods need of them: the error of `exp` after `log` is not seen once it
    is rounded to an integer. -/
structure FloatMath.Lawful (m : FloatMath) : Prop where
  exp_mono : ∀ {x y}, x ≤ y → m.exp x ≤ m.exp y
  log_mono : ∀ {x y}, 0 < x → x ≤ y → m.log x ≤ m.log y
  exp_log : ∀ {p : ℤ}, 0 < p → p < 2 ^ 32 → |m.exp (m.log p) - p| < 1 / 2

/-- What the utilizations need: a difference of floats is rounded to 53 bits. -/
structure FloatMath.Rounds (m : FloatMath) : Prop where
  pow_unit : ∀ {x y}, 0 ≤ x → x ≤ 1 → 0 ≤ y → 0 ≤ m.pow x y ∧ m.pow x y ≤ 1
  rnd_zero : m.rnd 0 = 0
  rnd_mono : ∀ {x y}, x ≤ y → m.rnd x ≤ m.rnd y
  rnd_rnd : ∀ x, m.rnd (m.rnd x) = m.rnd x
  rnd_sub : ∀ {x y}, m.rnd x = x → m.rnd y = y → 0 ≤ y → y ≤ x →
    |m.rnd (x - y) - (x - y)| ≤ (x - y) / 2 ^ 53

/-! ## Utilizations -/

/-- The loop of `uunifast`, with `k` turns left -/
def uunifastFrom (m : FloatMath) : ℕ → ℚ → Gen (List ℚ)
  | 0, sumU => pure [sumU]
  | k + 1, sumU => do
    let r ← random
    let nextSum := m.rnd (sumU * m.pow r.1 (m.rnd (1 / (k + 1 : ℕ))))
    let utilizations ← uunifastFrom m k nextSum
    pure (m.rnd (sumU - nextSum) :: utilizations)

def uunifast (m : FloatMath) : ℕ → ℚ → Gen (List ℚ)
  | 0, _ => pure []
  | n + 1, uTotal => uunifastFrom m n uTotal

/-- `1.0 + 1e-12` -/
def FloatMath.utilLimit (m : FloatMath) : ℚ := m.rnd (1 + m.rnd (1 / 10 ^ 12))

/-- The loop of `uunifast_discard` -/
def uunifastTries (m : FloatMath) (n : ℕ) (uTotal : ℚ) : ℕ → Gen (List ℚ)
  | 0 => throw .runtime
  | tries + 1 => do
    let utils ← uunifast m n uTotal
    if utils.all (· ≤ m.utilLimit) then pure utils else uunifastTries m n uTotal tries

def uunifastDiscard (m : FloatMath) (n : ℕ) (uTotal : ℚ) : Gen (List ℚ) :=
  if uTotal < 0 then throw (.raised .value)
  else if n = 0 then pure []
  else uunifastTries m n uTotal 1000

/-! ## Periods -/

def isPrime (n : ℤ) : Bool :=
  decide (2 ≤ n) && (List.range' 2 (Nat.sqrt n.toNat - 1)).all fun i => n % i != 0

/-- Up to `turns` changes, until the candidate is good -/
def adjust (good : ℤ → Bool) (change : ℤ → Gen ℤ) : ℕ → ℤ → Gen ℤ
  | 0, candidate => pure candidate
  | turns + 1, candidate =>
    if good candidate then pure candidate
    else do
      let candidate ← change candidate
      adjust good change turns candidate

/-- `candidate += random.choice([-1, 1]) * random.randint(1, 3)` -/
def nudge (candidate : ℤ) : Gen ℤ := do
  let sign ← choice [-1, 1]
  let step ← randint 1 3
  pure (candidate + sign * step)

/-- `((candidate - period_min) % span) + period_min` -/
def wrap (periodMin periodMax candidate : ℤ) : Gen ℤ :=
  if periodMax - periodMin = 0 then throw .zeroDivision
  else pure ((candidate - periodMin).fmod (periodMax - periodMin) + periodMin)

/-- The first candidate -/
def drawPeriod (m : FloatMath) (periodMin periodMax : ℤ) (mode : String) (choices : List ℤ) : Gen ℤ :=
  if choices ≠ [] then choice choices
  else if mode = "loguniform" then
    if periodMin ≤ 0 ∨ periodMax ≤ 0 then throw (.raised .value)
    else do
      let a := m.log periodMin
      let b := m.log periodMax
      let r ← random
      pure (roundHalfEven (m.exp (r.1 * (b - a) + a)))
  else randint periodMin periodMax

/-- The candidate before it is brought into the range; the first one of all is
    kept as it is. -/
def shareFactors (candidate : ℤ) : Gen ℤ := do
  let s ← get
  if s.chosenPeriods = [] then
    let candidate ← adjust (fun c => !isPrime c && [2, 3, 5].any fun f => c % f == 0) nudge 20 candidate
    modify fun s => { s with chosenPeriods := [candidate] }
    pure candidate
  else
    let base ← choice s.chosenPeriods
    let factor ← randint 1 8
    let candidate := if base % factor = 0 then base.fdiv factor else base * factor
    let candidate ← adjust (fun c => s.chosenPeriods.all fun p => c.gcd p != 1)
      (fun c => do
        let step ← randint (-5) 5
        pure (c + step)) 10 candidate
    adjust (fun c => !isPrime c) nudge 5 candidate

/-- `sample_period`; without choices `choices` is empty. -/
def samplePeriod (m : FloatMath) (periodMin periodMax : ℤ) (mode : String) (choices : List ℤ)
    (enforceHarmonic : Bool) : Gen ℤ := do
  let candidate ← drawPeriod m periodMin periodMax mode choices
  if enforceHarmonic then
    let candidate ← shareFactors candidate
    let candidate ← wrap periodMin periodMax candidate
    let s ← get
    let candidate ← adjust (fun c => !(isPrime c || s.chosenPeriods.all fun p => c.gcd p == 1))
      (fun c => do
        let c ← nudge c
        wrap periodMin periodMax c) 5 candidate
    modify fun s => { s with chosenPeriods := s.chosenPeriods ++ [candidate] }
    pure candidate
  else pure candidate

/-! ## Criticalities and replicas -/

def normalizeWeights (mapping : List (String × ℚ)) : Gen (List (String × ℚ)) :=
  let s := (mapping.map Prod.snd).sum
  if s ≤ 0 then throw (.raised .value)
  else pure (mapping.map fun kv => (kv.1, kv.2 / s))

/-- The first key whose cumulated weight is above `x`, or the last one -/
def pick (x : ℚ) : ℚ → List (String × ℚ) → Option String
  | _, [] => none
  | _, [kv] => some kv.1
  | acc, kv :: kv' :: rest => if x < acc + kv.2 then some kv.1 else pick x (acc + kv.2) (kv' :: rest)

/-- `random.choices(keys, weights, k=1)[0]` -/
def sampleCriticality (critDist : List (String × ℚ)) : Gen String := do
  let total := (critDist.map Prod.snd).sum
  if critDist = [] then throw (.raised .index)
  else if total ≤ 0 then throw (.raised .value)
  else
    let r ← random
    match pick (r.1 * total) 0 critDist with
    | some key => pure key
    | none => throw (.raised .index)

/-- `while p > L`, after `k` turns -/
def poisson (l : ℚ) : ℕ → ℕ → ℚ → Gen ℕ
  | 0, _, _ => throw .fuel
  | fuel + 1, k, p =>
    if p > l then do
      let r ← random
      poisson l fuel (k + 1) (p * r.1)
    else pure k

def sampleReplicas (m : FloatMath) (fuel : ℕ) (replicaMean : ℚ) (replicaMax : ℤ) : Gen ℤ := do
  let lam := max 0 replicaMean
  let r ←
    if lam < 10 then do
      let k ← poisson (m.exp (-lam)) fuel 0 1
      pure (max 0 ((k : ℤ) - 1))
    else do
      let x ← gauss lam (m.sqrt lam)
      pure (max 0 (roundHalfEven x))
  pure (min r (max 0 replicaMax))

variable {m : FloatMath}

/-! ## The primitives -/

theorem randint_yields (a b : ℤ) : Yields (randint a b) fun x => a ≤ x ∧ x ≤ b := by
  unfold randint
  split_ifs with hlt
  · exact .throw _
  · refine (Yields.any random).bind fun r _ => .pure ?_
    have hspan : (0 : ℚ) < (b - a + 1 : ℤ) := Int.cast_pos.2 (by omega)
    have hlow : 0 ≤ ⌊r.1 * (b - a + 1 : ℤ)⌋ := Int.floor_nonneg.2 (mul_nonneg r.2.1 hspan.le)
    have hhigh : ⌊r.1 * (b - a + 1 : ℤ)⌋ < b - a + 1 :=
      Int.floor_lt.2 (mul_lt_of_lt_one_left hspan r.2.2)
    omega

theorem choice_yields (seq : List ℤ) : Yields (choice seq) (· ∈ seq) := by
  refine (Yields.any random).bind fun r _ => ?_
  split
  · next x hx => exact .pure (List.mem_of_getElem? hx)
  · exact .throw _

/-- What every change keeps is kept. -/
theorem adjust_yields {good : ℤ → Bool} {change : ℤ → Gen ℤ} {I : ℤ → Prop}
    (hchange : ∀ c, I c → Yields (change c) I) (turns : ℕ) {candidate : ℤ} (hc : I candidate) :
    Yields (adjust good change turns candidate) I := by
  induction turns generalizing candidate with
  | zero => exact .pure hc
  | succ turns ih =>
    unfold adjust
    split_ifs
    · exact .pure hc
    · exact (hchange candidate hc).bind fun c hc => ih hc

/-! ## Utilizations -/

theorem uunifastFrom_length (m : FloatMath) (k : ℕ) (sumU : ℚ) :
    Yields (uunifastFrom m k sumU) fun us => us.length = k + 1 := by
  induction k generalizing sumU with
  | zero => exact .pure rfl
  | succ k ih =>
    refine (Yields.any random).bind fun r _ => ?_
    exact (ih _).bind fun us hus => .pure (congrArg Nat.succ hus)

/-- What every attempt yields, if it is within the limit -/
theorem uunifastDiscard_yields_of {n : ℕ} (hn : n ≠ 0) {uTotal : ℚ} {P : List ℚ → Prop}
    (h : 0 ≤ uTotal → Yields (uunifastFrom m (n - 1) uTotal) P) :
    Yields (uunifastDiscard m n uTotal) fun us => P us ∧ ∀ u ∈ us, u ≤ m.utilLimit := by
  obtain ⟨n, rfl⟩ := Nat.exists_eq_succ_of_ne_zero hn
  have htries : ∀ tries, 0 ≤ uTotal →
      Yields (uunifastTries m (n + 1) uTotal tries) fun us => P us ∧ ∀ u ∈ us, u ≤ m.utilLimit := by
    intro tries hU
    induction tries with
    | zero => exact .throw _
    | succ tries ih =>
      refine (h hU).bind fun us hus => ?_
      split_ifs with hall
      · exact .pure ⟨hus, fun u hu => of_decide_eq_true (List.all_eq_true.1 hall u hu)⟩
      · exact ih
  unfold uunifastDiscard
  rw [if_neg n.succ_ne_zero]
  split_ifs with hneg
  · exact .throw _
  · exact htries 1000 (not_lt.1 hneg)

theorem uunifastDiscard_length (m : FloatMath) {n : ℕ} (hn : n ≠ 0) (uTotal : ℚ) :
    Yields (uunifastDiscard m n uTotal) fun us => us.length = n := by
  refine (uunifastDiscard_yields_of hn fun _ => uunifastFrom_length m _ _).mono fun us hus => ?_
  rw [hus.1, Nat.sub_add_cancel (Nat.one_le_iff_ne_zero.2 hn)]

theorem FloatMath.Rounds.nonneg (hm : m.Rounds) {x : ℚ} (h : 0 ≤ x) : 0 ≤ m.rnd x :=
  hm.rnd_zero.symm.trans_le (hm.rnd_mono h)

/-- Each turn takes a part of what is left, and the errors are those of the parts. -/
theorem uunifastFrom_yields (hm : m.Rounds) (k : ℕ) {sumU : ℚ} (hsum : 0 ≤ sumU) (hfloat : m.rnd sumU = sumU) :
    Yields (uunifastFrom m k sumU) fun us =>
      us.length = k + 1 ∧ |us.sum - sumU| ≤ sumU / 2 ^ 53 ∧ ∀ u ∈ us, 0 ≤ u := by
  induction k generalizing sumU with
  | zero =>
    refine .pure ⟨rfl, ?_, List.forall_mem_singleton.2 hsum⟩
    rw [List.sum_singleton, sub_self, abs_zero]
    exact div_nonneg hsum (by norm_num)
  | succ k ih =>
    refine (Yields.any random).bind fun r _ => ?_
    have hk : (0 : ℚ) ≤ 1 / (k + 1 : ℕ) := one_div_nonneg.2 (Nat.cast_nonneg _)
    obtain ⟨hpos, hle⟩ := hm.pow_unit r.2.1 r.2.2.le (hm.nonneg hk)
    set x := sumU * m.pow r.1 (m.rnd (1 / (k + 1 : ℕ)))
    have hnext : 0 ≤ m.rnd x := hm.nonneg (mul_nonneg hsum hpos)
    have hnextLe : m.rnd x ≤ sumU := (hm.rnd_mono (mul_le_of_le_one_right hsum hle)).trans_eq hfloat
    refine (ih hnext (hm.rnd_rnd x)).bind fun us hus => .pure ⟨congrArg Nat.succ hus.1, ?_, ?_⟩
    · have hdiff := hm.rnd_sub hfloat (hm.rnd_rnd x) hnext hnextLe
      have hsplit : (m.rnd (sumU - m.rnd x) :: us).sum - sumU =
          (m.rnd (sumU - m.rnd x) - (sumU - m.rnd x)) + (us.sum - m.rnd x) := by
        rw [List.sum_cons]
        ring
      calc |(m.rnd (sumU - m.rnd x) :: us).sum - sumU|
          ≤ |m.rnd (sumU - m.rnd x) - (sumU - m.rnd x)| + |us.sum - m.rnd x| := by
            rw [hsplit]
            exact abs_add_le _ _
        _ ≤ (sumU - m.rnd x) / 2 ^ 53 + m.rnd x / 2 ^ 53 := add_le_add hdiff hus.2.1
        _ = sumU / 2 ^ 53 := by ring
    · exact List.forall_mem_cons.2 ⟨hm.nonneg (sub_nonneg.2 hnextLe), hus.2.2⟩

/-- **UUniFast-Discard**: the utilizations add up to the total up to the error of one
    rounding, and none is above the limit. -/
theorem uunifastDiscard_yields (hm : m.Rounds) {n : ℕ} (hn : n ≠ 0) {uTotal : ℚ} (hfloat : m.rnd uTotal = uTotal) :
    Yields (uunifastDiscard m n uTotal) fun us =>
      us.length = n ∧ |us.sum - uTotal| ≤ uTotal / 2 ^ 53 ∧ ∀ u ∈ us, 0 ≤ u ∧ u ≤ m.utilLimit := by
  refine (uunifastDiscard_yields_of hn fun hU => uunifastFrom_yields hm _ hU hfloat).mono fun us hus => ?_
  obtain ⟨⟨hlen, hsum, hpos⟩, hle⟩ := hus
  rw [Nat.sub_add_cancel (Nat.one_le_iff_ne_zero.2 hn)] at hlen
  exact ⟨hlen, hsum, fun u hu => ⟨hpos u hu, hle u hu⟩⟩

/-- Right at 0 and 1, and for roots of degree 1 -/
def roughMath : FloatMath := ⟨fun x => 1 + x, fun x => x - 1, id, fun x _ => x, id⟩

theorem roughMath_lawful : roughMath.Lawful where
  exp_mono h := add_le_add_right h 1
  log_mono _ h := sub_le_sub_right h 1
  exp_log := by
    intro p _ _
    have hexact : roughMath.exp (roughMath.log p) = p := add_sub_cancel ..
    rw [hexact, sub_self, abs_zero]
    norm_num

theorem roughMath_rounds : roughMath.Rounds where
  pow_unit h0 h1 _ := ⟨h0, h1⟩
  rnd_zero := rfl
  rnd_mono h := h
  rnd_rnd _ := rfl
  rnd_sub := by
    intro x y _ _ _ hle
    have hexact : roughMath.rnd (x - y) - (x - y) = 0 := sub_self _
    rw [hexact, abs_zero]
    exact div_nonneg (sub_nonneg.2 hle) (by norm_num)

theorem uunifastDiscard_yields_two : ∃ us, us.length = 2 ∧ |us.sum - 1| ≤ 1 / 2 ^ 53 ∧
    ∃ s, (uunifastDiscard roughMath 2 1).run ⟨fun _ => halfDraw, fun _ => 0, []⟩ = .ok (us, s) := by
  have hok : ((uunifastDiscard roughMath 2 1).run ⟨fun _ => halfDraw, fun _ => 0, []⟩).toBool = true := by
    decide +kernel
  cases hrun : (uunifastDiscard roughMath 2 1).run ⟨fun _ => halfDraw, fun _ => 0, []⟩ with
  | error e =>
    rw [hrun] at hok
    cases hok
  | ok r =>
    obtain ⟨hlen, hsum, -⟩ := uunifastDiscard_yields roughMath_rounds two_ne_zero rfl _ r.1 r.2 hrun
    exact ⟨r.1, hlen, hsum, r.2, rfl⟩

/-! ## Periods -/

/-- A candidate in the range -/
def InRange (periodMin periodMax candidate : ℤ) : Prop := periodMin ≤ candidate ∧ candidate < periodMax

section
variable {periodMin periodMax : ℤ}

theorem wrap_yields (hle : periodMin ≤ periodMax) (candidate : ℤ) :
    Yields (wrap periodMin periodMax candidate) (InRange periodMin periodMax) := by
  unfold wrap
  split_ifs with hspan
  · exact .throw _
  · have hpos : 0 < periodMax - periodMin := by omega
    have hlow := Int.fmod_nonneg_of_pos (candidate - periodMin) hpos
    have hhigh := Int.fmod_lt_of_pos (candidate - periodMin) hpos
    exact .pure ⟨by omega, by omega⟩

theorem drawPeriod_yields (hm : m.Lawful) (hle : periodMin ≤ periodMax) (hmax : periodMax < 2 ^ 32)
    (mode : String) (choices : List ℤ) :
    Yields (drawPeriod m periodMin periodMax mode choices) fun p =>
      if choices ≠ [] then p ∈ choices else periodMin ≤ p ∧ p ≤ periodMax := by
  unfold drawPeriod
  by_cases hchoices : choices ≠ []
  · simp only [if_pos hchoices]
    exact choice_yields choices
  simp only [if_neg hchoices]
  split_ifs with hmode hlog
  · exact .throw _
  · refine (Yields.any random).bind fun r _ => .pure ?_
    obtain ⟨hmin, hpos⟩ := not_or.1 hlog
    have hminq : (0 : ℚ) < periodMin := Int.cast_pos.2 (not_le.1 hmin)
    have hlogs : 0 ≤ m.log periodMax - m.log periodMin := sub_nonneg.2 (hm.log_mono hminq (Int.cast_le.2 hle))
    have hlow : m.log periodMin ≤ r.1 * (m.log periodMax - m.log periodMin) + m.log periodMin :=
      le_add_of_nonneg_left (mul_nonneg r.2.1 hlogs)
    have hhigh : r.1 * (m.log periodMax - m.log periodMin) + m.log periodMin ≤ m.log periodMax :=
      add_le_of_le_sub_right (mul_le_of_le_one_left hlogs r.2.2.le)
    have hlowErr := (abs_lt.1 (hm.exp_log (not_le.1 hmin) (hle.trans_lt hmax))).1
    have hhighErr := (abs_lt.1 (hm.exp_log (not_le.1 hpos) hmax)).2
    have hexplow := hm.exp_mono hlow
    have hexphigh := hm.exp_mono hhigh
    exact ⟨le_roundHalfEven_of_lt (by linarith), roundHalfEven_le_of_lt (by linarith)⟩
  · exact randint_yields _ _

/-- **A period is in range.** -/
theorem samplePeriod_yields (hm : m.Lawful) (hle : periodMin ≤ periodMax) (hmax : periodMax < 2 ^ 32)
    (mode : String) (choices : List ℤ) (enforceHarmonic : Bool) :
    Yields (samplePeriod m periodMin periodMax mode choices enforceHarmonic) fun p =>
      if enforceHarmonic then InRange periodMin periodMax p
      else if choices ≠ [] then p ∈ choices else periodMin ≤ p ∧ p ≤ periodMax := by
  refine (drawPeriod_yields hm hle hmax mode choices).bind fun candidate hc => ?_
  cases enforceHarmonic with
  | false => exact .pure hc
  | true =>
    simp only [if_true]
    refine (Yields.any (shareFactors candidate)).bind fun candidate _ => ?_
    refine (wrap_yields hle candidate).bind fun candidate hc => ?_
    refine (Yields.any get).bind fun s _ => ?_
    refine (adjust_yields (fun c _ => ?_) 5 hc).bind fun candidate hc => ?_
    · exact (Yields.any (nudge c)).bind fun c _ => wrap_yields hle c
    · exact (Yields.any _).bind fun _ _ => .pure hc

end

/-! ## Replicas -/

/-- **No task has more replicas than allowed.** -/
theorem sampleReplicas_yields (m : FloatMath) (fuel : ℕ) (replicaMean : ℚ) (replicaMax : ℤ) :
    Yields (sampleReplicas m fuel replicaMean replicaMax) fun r => 0 ≤ r ∧ r ≤ max 0 replicaMax := by
  have hmin : ∀ r : ℤ, 0 ≤ r → 0 ≤ min r (max 0 replicaMax) ∧ min r (max 0 replicaMax) ≤ max 0 replicaMax :=
    fun r hr => ⟨le_min hr (le_max_left _ _), min_le_right _ _⟩
  unfold sampleReplicas
  simp only
  split_ifs
  · exact (Yields.any _).bind fun k _ => .pure (hmin _ (le_max_left _ _))
  · exact (Yields.any _).bind fun x _ => .pure (hmin _ (le_max_left _ _))

end EeftSched.TasksetGenerator

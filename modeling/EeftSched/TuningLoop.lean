/-
  The tuning loop of a mode (`tune_mode` in `tools/task_allocator.py`) ends, and
  raises nothing.

  * `TuneState.Ok`: the candidates have time left above their execution times,
    and the deadlines that were shortened can be lengthened again as often;
  * `scan_spec`: a pass over the lengths keeps this, and brings `measure` down:
    it counts a deadline step that is left twice, and one to undo once;
  * `tuneMode_terminates`.
-/
import EeftSched.LMax

namespace EeftSched.TaskAllocator

open Except

/-- A task with a period, and execution times that are not negative -/
structure Task.Regular (t : Task) : Prop where
  period : 1 ≤ t.period
  wcet : ∀ level, 0 ≤ t.wcet level

variable {m : ℕ} {s s' : TuneState} {tasks : List Task} {t : Task} {l : ℤ} {i : ℕ}

/-! ## The demand bound -/

theorem dbf_ok (ht : t.Regular) (mPrime : ℕ) (l : ℤ) : ∃ d, dbf t mPrime l = .ok d := by
  by_cases hl : l < 0
  · exact ⟨0, if_pos hl⟩
  by_cases hc : t.criticalityLevel < mPrime
  · exact ⟨0, dbf_below hc l⟩
  exact ⟨_, dbf_eq_max ht.period (ht.wcet mPrime) (not_lt.1 hc) (not_lt.1 hl)⟩

/-! ## The invariant of the loop -/

/-- **The invariant of the tuning loop** at level `m`. -/
structure TuneState.Ok (m : ℕ) (s : TuneState) : Prop where
  regular : ∀ t ∈ s.allCandidates, t.Regular
  nodup : s.tuningCandidates.Nodup
  room : ∀ i ∈ s.tuningCandidates, ∃ t, s.allCandidates[i]? = some t ∧ m < t.criticalityLevel ∧
    t.wcet m < t.virtualDeadline m
  lower : ∀ t ∈ s.allCandidates, m < t.criticalityLevel → t.wcet m ≤ t.virtualDeadline m
  /-- every step back that `mods` may ask for stays below the next level -/
  history : ∀ i t, s.allCandidates[i]? = some t → m < t.criticalityLevel →
    t.virtualDeadline m + (s.mods.count i : ℤ) ≤ t.virtualDeadline (m + 1)
  mods : ∀ i ∈ s.mods, ∃ t, s.allCandidates[i]? = some t ∧ m < t.criticalityLevel

namespace TuneState.Ok

theorem upper (h : s.Ok m) (ht : t ∈ s.allCandidates) (hc : m < t.criticalityLevel) :
    t.virtualDeadline m ≤ t.virtualDeadline (m + 1) := by
  obtain ⟨i, hi⟩ := List.mem_iff_getElem?.1 ht
  have := h.history i t hi hc
  omega

end TuneState.Ok

/-- A sum of demand bounds has a value if each of them has one. -/
theorem sumDbf_ok {mPrime : ℕ} (h : ∀ t ∈ tasks, ∃ d, dbf t mPrime l = .ok d) :
    ∃ sum, sumDbf tasks mPrime l = .ok sum := by
  refine not_fails_iff.1 (not_fails_foldlM (fun sum t ht => ?_) 0)
  obtain ⟨d, hd⟩ := h t ht
  rw [hd]
  exact not_fails_ok _

theorem startOverloaded_ok (h : s.Ok m) (l : ℤ) :
    ∃ b, startOverloaded m s.allCandidates l = .ok b := by
  unfold startOverloaded
  split_ifs
  · obtain ⟨sum, hsum⟩ := sumDbf_ok fun t ht => dbf_ok (h.regular t ht) 0 l
    exact ⟨_, by rw [hsum]; rfl⟩
  · exact ⟨_, rfl⟩

/-- The target is one of the candidates. -/
theorem pickTarget_ok (h : s.Ok m) (l : ℤ) : ∀ (is : List ℕ) (target : ℕ) (maxDelta : ℤ),
    (∀ i ∈ is, i ∈ s.tuningCandidates) → target ∈ s.tuningCandidates →
      ∃ i ∈ s.tuningCandidates, pickTarget s.allCandidates (m + 1) l is target maxDelta = .ok i := by
  intro is
  induction is with
  | nil => exact fun target _ _ ht => ⟨target, ht, rfl⟩
  | cons i is ih =>
    intro target maxDelta his htarget
    have hi := his i List.mem_cons_self
    have hrest : ∀ j ∈ is, j ∈ s.tuningCandidates := fun j hj => his j (List.mem_cons_of_mem _ hj)
    obtain ⟨t, ht, -, -⟩ := h.room i hi
    obtain ⟨a, ha⟩ := dbf_ok (h.regular t (List.mem_of_getElem? ht)) (m + 1) l
    obtain ⟨b, hb⟩ := dbf_ok (h.regular t (List.mem_of_getElem? ht)) (m + 1) (l - 1)
    rw [pickTarget, ht]
    simp only
    rw [ha, hb]
    show ∃ j ∈ s.tuningCandidates,
      (if a - b > maxDelta then pickTarget s.allCandidates (m + 1) l is i (a - b)
        else pickTarget s.allCandidates (m + 1) l is target maxDelta) = .ok j
    split_ifs
    · exact ih i (a - b) hrest hi
    · exact ih target maxDelta hrest htarget

/-! ## One step -/

/-- The time left to the candidate at place `i` -/
def roomOf (m : ℕ) (tasks : List Task) (i : ℕ) : ℕ :=
  match tasks[i]? with
  | none => 0
  | some t => (t.virtualDeadline m - t.wcet m).toNat

/-- **The measure of the loop** -/
def TuneState.measure (m : ℕ) (s : TuneState) : ℕ :=
  2 * (s.tuningCandidates.map (roomOf m s.allCandidates)).sum + s.mods.length

theorem getElem?_modify_eq (tasks : List Task) (i j : ℕ) (f : Task → Task) :
    (tasks.modify i f)[j]? = if i = j then tasks[j]?.map f else tasks[j]? := by
  rw [List.getElem?_modify]
  split_ifs <;> simp

theorem roomOf_modify_ne {j : ℕ} (f : Task → Task) (h : i ≠ j) :
    roomOf m (tasks.modify i f) j = roomOf m tasks j := by
  unfold roomOf
  rw [getElem?_modify_eq, if_neg h]

/-- The room of the other candidates stays. -/
theorem sum_room_erase {places : List ℕ} (hn : places.Nodup) (f : Task → Task) :
    ((places.erase i).map (roomOf m (tasks.modify i f))).sum =
      ((places.erase i).map (roomOf m tasks)).sum := by
  refine congrArg List.sum (List.map_congr_left fun j hj => roomOf_modify_ne f ?_)
  rintro rfl
  exact hn.not_mem_erase hj

theorem sum_room_eq {places : List ℕ} (h : i ∈ places) :
    (places.map (roomOf m tasks)).sum =
      roomOf m tasks i + ((places.erase i).map (roomOf m tasks)).sum := by
  have hperm := (List.perm_cons_erase h).map (roomOf m tasks)
  rw [hperm.sum_eq, List.map_cons, List.sum_cons]

@[simp] theorem Task.shift_self (m : ℕ) (delta : ℤ) (t : Task) :
    (t.shift m delta).virtualDeadline m = t.virtualDeadline m + delta := Function.update_self ..

@[simp] theorem Task.shift_succ (m : ℕ) (delta : ℤ) (t : Task) :
    (t.shift m delta).virtualDeadline (m + 1) = t.virtualDeadline (m + 1) :=
  Function.update_of_ne (Nat.succ_ne_self m) ..

/-- The deadline of one task moves, within its bounds. -/
theorem TuneState.Ok.modify (h : s.Ok m) (hi : s.allCandidates[i]? = some t)
    (hc : m < t.criticalityLevel) {delta : ℤ} {tuning mods : List ℕ}
    (hlower : t.wcet m ≤ t.virtualDeadline m + delta)
    (hself : t.virtualDeadline m + delta + (mods.count i : ℤ) ≤ t.virtualDeadline (m + 1))
    (hcount : ∀ j ≠ i, mods.count j ≤ s.mods.count j) (hmods : ∀ j ∈ mods, j ∈ s.mods ∨ j = i)
    (hn : tuning.Nodup) (hsub : ∀ j ∈ tuning, j ∈ s.tuningCandidates)
    (hroom : i ∈ tuning → t.wcet m < t.virtualDeadline m + delta) :
    TuneState.Ok m ⟨s.allCandidates.modify i (Task.shift m delta), tuning, mods⟩ := by
  have hget : ∀ j t', (s.allCandidates.modify i (Task.shift m delta))[j]? = some t' →
      j = i ∧ t' = t.shift m delta ∨ j ≠ i ∧ s.allCandidates[j]? = some t' := by
    intro j t' hj
    rw [getElem?_modify_eq] at hj
    by_cases hij : i = j
    · subst hij
      rw [if_pos rfl, hi] at hj
      exact .inl ⟨rfl, (Option.some.inj hj).symm⟩
    · rw [if_neg hij] at hj
      exact .inr ⟨Ne.symm hij, hj⟩
  have hself' : (s.allCandidates.modify i (Task.shift m delta))[i]? = some (t.shift m delta) := by
    rw [getElem?_modify_eq, if_pos rfl, hi]
    rfl
  have hother : ∀ j ≠ i, (s.allCandidates.modify i (Task.shift m delta))[j]? = s.allCandidates[j]? := by
    intro j hj
    rw [getElem?_modify_eq, if_neg (Ne.symm hj)]
  constructor
  · intro t' ht'
    obtain ⟨j, hj⟩ := List.mem_iff_getElem?.1 ht'
    rcases hget j t' hj with ⟨-, rfl⟩ | ⟨-, hj⟩
    · have hr := h.regular t (List.mem_of_getElem? hi)
      exact ⟨hr.period, hr.wcet⟩
    · exact h.regular t' (List.mem_of_getElem? hj)
  · exact hn
  · intro j hj
    by_cases hij : j = i
    · subst hij
      exact ⟨_, hself', hc, by rw [Task.shift_self]; exact hroom hj⟩
    · show ∃ t, (s.allCandidates.modify i _)[j]? = some t ∧ _
      rw [hother j hij]
      exact h.room j (hsub j hj)
  · intro t' ht' hc'
    obtain ⟨j, hj⟩ := List.mem_iff_getElem?.1 ht'
    rcases hget j t' hj with ⟨-, rfl⟩ | ⟨-, hj⟩
    · rw [Task.shift_self]
      exact hlower
    · exact h.lower t' (List.mem_of_getElem? hj) hc'
  · intro j t' hj hc'
    rcases hget j t' hj with ⟨rfl, rfl⟩ | ⟨hne, hj⟩
    · rw [Task.shift_self, Task.shift_succ]
      exact hself
    · have hle := h.history j t' hj hc'
      have := hcount j hne
      simp only
      omega
  · intro j hj
    by_cases hij : j = i
    · subst hij
      exact ⟨_, hself', hc⟩
    · show ∃ t, (s.allCandidates.modify i _)[j]? = some t ∧ _
      rw [hother j hij]
      exact h.mods j ((hmods j hj).resolve_right hij)

theorem roomOf_eq {tasks : List Task} (hi : tasks[i]? = some t) :
    roomOf m tasks i = (t.virtualDeadline m - t.wcet m).toNat := by
  unfold roomOf
  rw [hi]

/-- A step back, when the lowest mode is overloaded: the task is no candidate
    any more. -/
theorem TuneState.Ok.pop {mods : List ℕ} (h : s.Ok 0) (hs : s.mods = i :: mods) :
    ∃ tuning, remove i (if i ∈ s.tuningCandidates then s.tuningCandidates
        else s.tuningCandidates ++ [i]) = .ok tuning ∧
      TuneState.Ok 0 ⟨s.allCandidates.modify i (Task.shift 0 1), tuning, mods⟩ ∧
      TuneState.measure 0 ⟨s.allCandidates.modify i (Task.shift 0 1), tuning, mods⟩ < s.measure 0 := by
  refine ⟨s.tuningCandidates.erase i, ?_, ?_, ?_⟩
  · unfold remove
    by_cases hi : i ∈ s.tuningCandidates
    · rw [if_pos hi, if_pos hi]
    · rw [if_neg hi, if_pos (by simp), List.erase_append_right _ hi, List.erase_of_not_mem hi]
      simp
  · obtain ⟨t, hi, hc⟩ := h.mods i (by rw [hs]; exact List.mem_cons_self)
    have hlower := h.lower t (List.mem_of_getElem? hi) hc
    have hupper := h.history i t hi hc
    rw [hs, List.count_cons_self] at hupper
    have hself : t.virtualDeadline 0 + 1 + (mods.count i : ℤ) ≤ t.virtualDeadline (0 + 1) := by
      push_cast at hupper ⊢
      omega
    refine h.modify hi hc (by omega) hself ?_ ?_ (h.nodup.erase i) ?_ ?_
    · intro j hj
      rw [hs, List.count_cons_of_ne (Ne.symm hj)]
    · intro j hj
      rw [hs]
      exact .inl (List.mem_cons_of_mem _ hj)
    · exact fun j hj => List.mem_of_mem_erase hj
    · exact fun hi => absurd hi h.nodup.not_mem_erase
  · unfold measure
    simp only
    rw [sum_room_erase h.nodup, hs, List.length_cons]
    by_cases hi : i ∈ s.tuningCandidates
    · rw [sum_room_eq hi]
      omega
    · rw [List.erase_of_not_mem hi]
      omega

/-- A step that shortens the deadline of a candidate. -/
theorem TuneState.Ok.shorten (h : s.Ok m) (hi : i ∈ s.tuningCandidates) :
    ∃ tuning, removeTight (s.allCandidates.modify i (Task.shift m (-1))) m i s.tuningCandidates =
        .ok tuning ∧
      TuneState.Ok m ⟨s.allCandidates.modify i (Task.shift m (-1)), tuning, i :: s.mods⟩ ∧
      TuneState.measure m ⟨s.allCandidates.modify i (Task.shift m (-1)), tuning, i :: s.mods⟩ <
        s.measure m := by
  obtain ⟨t, ht, hc, hroom⟩ := h.room i hi
  have hhist := h.history i t ht hc
  have hget : (s.allCandidates.modify i (Task.shift m (-1)))[i]? = some (t.shift m (-1)) := by
    rw [getElem?_modify_eq, if_pos rfl, ht]
    rfl
  have hok : ∀ tuning : List ℕ, tuning.Nodup → (∀ j ∈ tuning, j ∈ s.tuningCandidates) →
      (i ∈ tuning → t.wcet m < t.virtualDeadline m + -1) →
      TuneState.Ok m ⟨s.allCandidates.modify i (Task.shift m (-1)), tuning, i :: s.mods⟩ := by
    intro tuning hn hsub hr
    refine h.modify ht hc (by omega) ?_ ?_ ?_ hn hsub hr
    · rw [List.count_cons_self]
      push_cast
      omega
    · intro j hj
      rw [List.count_cons_of_ne (Ne.symm hj)]
    · rintro j hj
      rcases List.mem_cons.1 hj with rfl | hj
      · exact .inr rfl
      · exact .inl hj
  have hmeasure : s.measure m = 2 * (roomOf m s.allCandidates i +
      ((s.tuningCandidates.erase i).map (roomOf m s.allCandidates)).sum) + s.mods.length := by
    unfold measure
    rw [sum_room_eq hi]
  have hri := @roomOf_eq m t i _ ht
  unfold removeTight
  rw [hget]
  simp only [Task.shift_self]
  by_cases htight : t.virtualDeadline m + -1 = (t.shift m (-1)).wcet m
  · have hw : t.virtualDeadline m + -1 = t.wcet m := htight
    refine ⟨s.tuningCandidates.erase i, ?_, hok _ (h.nodup.erase i)
      (fun j hj => List.mem_of_mem_erase hj) (fun hi => absurd hi h.nodup.not_mem_erase), ?_⟩
    · rw [if_pos htight]
      exact if_pos hi
    · rw [hmeasure]
      unfold measure
      simp only
      rw [sum_room_erase h.nodup, List.length_cons]
      omega
  · have hw : t.virtualDeadline m + -1 ≠ t.wcet m := htight
    refine ⟨s.tuningCandidates, if_neg htight, hok _ h.nodup (fun _ => id) (fun _ => by omega), ?_⟩
    have hri' := @roomOf_eq m _ i _ hget
    rw [Task.shift_self] at hri'
    rw [hmeasure]
    unfold measure
    simp only
    rw [sum_room_eq hi, sum_room_erase h.nodup, List.length_cons, hri', hri]
    have hwc : (t.shift m (-1)).wcet m = t.wcet m := rfl
    rw [hwc]
    omega

/-- **One pass** over the lengths has a result; if it changes a deadline, the
    invariant stays and the measure falls. -/
theorem scan_spec (h : s.Ok m) (k : ℕ) (l : ℤ) :
    ∃ r, scan m s k l = .ok r ∧ ∀ s', r = .changed s' → s'.Ok m ∧ s'.measure m < s.measure m := by
  induction k generalizing l with
  | zero =>
    refine ⟨.unchanged, rfl, ?_⟩
    rintro s' ⟨⟩
  | succ k ih =>
    obtain ⟨overloaded, ho⟩ := startOverloaded_ok h l
    rw [scan, ho]
    cases overloaded with
    | true =>
      have hm : m = 0 := by
        by_contra hne
        rw [startOverloaded, if_neg hne] at ho
        cases ho
      subst hm
      simp only [ok_bind, if_true]
      cases hs : s.mods with
      | nil =>
        refine ⟨.fail, rfl, ?_⟩
        rintro s' ⟨⟩
      | cons i mods =>
        obtain ⟨tuning, ht, hok, hlt⟩ := h.pop hs
        simp only [ht, ok_bind]
        refine ⟨_, rfl, ?_⟩
        rintro s' ⟨⟩
        exact ⟨hok, hlt⟩
    | false =>
      obtain ⟨sum, hsum⟩ := sumDbf_ok fun t ht => dbf_ok (h.regular t ht) (m + 1) l
      simp only [ok_bind, Bool.false_eq_true, if_false, hsum]
      by_cases hgt : sum > l
      · rw [if_pos hgt]
        cases hs : s.tuningCandidates with
        | nil =>
          refine ⟨.fail, rfl, ?_⟩
          rintro s' ⟨⟩
        | cons i is =>
          have hi : i ∈ s.tuningCandidates := by rw [hs]; exact List.mem_cons_self
          obtain ⟨target, htarget, hpick⟩ :=
            pickTarget_ok h l s.tuningCandidates i 0 (fun _ hj => hj) hi
          obtain ⟨tuning, ht, hok, hlt⟩ := h.shorten htarget
          rw [hs] at hpick ht
          simp only [hpick, ht, ok_bind]
          refine ⟨_, rfl, ?_⟩
          rintro s' ⟨⟩
          exact ⟨hok, hlt⟩
      · rw [if_neg hgt]
        exact ih (l + 1)

/-! ## The loop -/

theorem computeLMax_ok (h : ∀ t ∈ tasks, t.Regular) (m : ℕ) : ∃ lMax, computeLMax tasks m = .ok lMax := by
  have hsub : ∀ level, ∀ t ∈ tasks.filter (level ≤ ·.criticalityLevel), 1 ≤ t.period :=
    fun level t ht => (h t (List.mem_filter.1 ht).1).period
  obtain ⟨a, ha⟩ := getModeLMax_ok (hsub m) m (·.virtualDeadline m)
  obtain ⟨b, hb⟩ := getModeLMax_ok (hsub (m + 1)) (m + 1)
    (fun t => t.virtualDeadline (m + 1) - t.virtualDeadline m)
  unfold computeLMax computeLMaxCap
  rw [ha, hb]
  exact ⟨_, rfl⟩

/-- The loop ends within as many rounds as the measure says. -/
theorem tuneLoop_ok {fuel : ℕ} (h : s.Ok m) (hf : s.measure m < fuel) :
    ∃ r, tuneLoop m fuel s = .ok r := by
  induction fuel generalizing s with
  | zero => omega
  | succ fuel ih =>
    obtain ⟨lMax, hl⟩ := computeLMax_ok h.regular m
    obtain ⟨r, hr, hchanged⟩ := scan_spec h (lMax + 1).toNat 0
    rw [tuneLoop, hl]
    simp only [ok_bind, hr]
    cases r with
    | unchanged => exact ⟨_, rfl⟩
    | fail => exact ⟨_, rfl⟩
    | changed s' =>
      obtain ⟨hok, hlt⟩ := hchanged s' rfl
      exact ih hok (by omega)

/-- With more fuel the loop has the same result. -/
theorem tuneLoop_mono {fuel fuel' : ℕ} {r : Bool × List Task} (h : tuneLoop m fuel s = .ok r)
    (hf : fuel ≤ fuel') : tuneLoop m fuel' s = .ok r := by
  induction fuel generalizing s fuel' with
  | zero => cases h
  | succ fuel ih =>
    obtain ⟨fuel', rfl⟩ : ∃ n, fuel' = n + 1 := ⟨fuel' - 1, by omega⟩
    rw [tuneLoop] at h ⊢
    obtain ⟨lMax, hl, h⟩ := bind_eq_ok.1 h
    obtain ⟨q, hq, h⟩ := bind_eq_ok.1 h
    simp only [hl, hq, ok_bind]
    cases q with
    | unchanged | fail => exact h
    | changed s' => exact ih h (by omega)

/-! ## The start -/

/-- What holds while the deadlines of mode `m` are brought below those of the
    next one; `is` are the places still to handle. -/
structure Clamping (m : ℕ) (is : List ℕ) (tasks : List Task) (tuning : List ℕ) : Prop where
  regular : ∀ t ∈ tasks, t.Regular
  nodup : tuning.Nodup
  todoNodup : is.Nodup
  todo : ∀ i ∈ is, i ∈ tuning
  above : ∀ i ∈ tuning, ∃ t, tasks[i]? = some t ∧ m < t.criticalityLevel
  handled : ∀ i t, tasks[i]? = some t → m < t.criticalityLevel → i ∉ is →
    t.wcet m ≤ t.virtualDeadline m ∧ t.virtualDeadline m ≤ t.virtualDeadline (m + 1) ∧
      (i ∈ tuning → t.wcet m < t.virtualDeadline m)

namespace Clamping

variable {is tuning : List ℕ}

theorem ok (h : Clamping m [] tasks tuning) : TuneState.Ok m ⟨tasks, tuning, []⟩ where
  regular := h.regular
  nodup := h.nodup
  room := by
    intro i hi
    obtain ⟨t, ht, hc⟩ := h.above i hi
    exact ⟨t, ht, hc, (h.handled i t ht hc List.not_mem_nil).2.2 hi⟩
  lower := by
    intro t ht hc
    obtain ⟨i, hi⟩ := List.mem_iff_getElem?.1 ht
    exact (h.handled i t hi hc List.not_mem_nil).1
  history := by
    intro i t ht hc
    have hle := (h.handled i t ht hc List.not_mem_nil).2.1
    simpa using hle
  mods := nofun

@[simp] theorem setDeadline_self (m : ℕ) (d : ℤ) (t : Task) :
    (t.setDeadline m d).virtualDeadline m = d := Function.update_self ..

@[simp] theorem setDeadline_succ (m : ℕ) (d : ℤ) (t : Task) :
    (t.setDeadline m d).virtualDeadline (m + 1) = t.virtualDeadline (m + 1) :=
  Function.update_of_ne (Nat.succ_ne_self m) ..

/-- One place is handled: its task gets the deadline `d`. -/
theorem step (h : Clamping m (i :: is) tasks tuning) (ht : tasks[i]? = some t) {d : ℤ}
    (hw : t.wcet m ≤ d) (hd : d ≤ t.virtualDeadline (m + 1)) :
    ∃ tuning', removeTight (tasks.modify i (Task.setDeadline m d)) m i tuning = .ok tuning' ∧
      Clamping m is (tasks.modify i (Task.setDeadline m d)) tuning' := by
  obtain ⟨hi, hnodup⟩ := List.nodup_cons.1 h.todoNodup
  have hmem := h.todo i List.mem_cons_self
  have hself : (tasks.modify i (Task.setDeadline m d))[i]? = some (t.setDeadline m d) := by
    rw [getElem?_modify_eq, if_pos rfl, ht]
    rfl
  have hother : ∀ j ≠ i, (tasks.modify i (Task.setDeadline m d))[j]? = tasks[j]? := by
    intro j hj
    rw [getElem?_modify_eq, if_neg (Ne.symm hj)]
  -- the task at `i` goes on only if it has time left
  have hnext : ∀ tuning' : List ℕ, tuning'.Nodup → (∀ j ∈ tuning', j ∈ tuning) →
      (∀ j ∈ tuning, j ≠ i → j ∈ tuning') → (i ∈ tuning' → t.wcet m < d) →
      Clamping m is (tasks.modify i (Task.setDeadline m d)) tuning' := by
    intro tuning' hn hsub hkeep hroom
    constructor
    · intro t' ht'
      obtain ⟨j, hj⟩ := List.mem_iff_getElem?.1 ht'
      by_cases hji : j = i
      · rw [hji, hself] at hj
        cases hj
        have hr := h.regular t (List.mem_of_getElem? ht)
        exact ⟨hr.period, hr.wcet⟩
      · rw [hother j hji] at hj
        exact h.regular t' (List.mem_of_getElem? hj)
    · exact hn
    · exact hnodup
    · intro j hj
      refine hkeep j (h.todo j (List.mem_cons_of_mem _ hj)) ?_
      rintro rfl
      exact hi hj
    · intro j hj
      obtain ⟨t', ht', hc⟩ := h.above j (hsub j hj)
      by_cases hji : j = i
      · rw [hji] at ht' ⊢
        rw [ht] at ht'
        cases ht'
        exact ⟨_, hself, hc⟩
      · rw [hother j hji]
        exact ⟨t', ht', hc⟩
    · intro j t' hj hc hjs
      by_cases hji : j = i
      · rw [hji, hself] at hj
        cases hj
        rw [setDeadline_self, setDeadline_succ, hji]
        exact ⟨hw, hd, hroom⟩
      · rw [hother j hji] at hj
        obtain ⟨h1, h2, h3⟩ := h.handled j t' hj hc (by simp [hji, hjs])
        exact ⟨h1, h2, fun hj' => h3 (hsub j hj')⟩
  unfold removeTight
  rw [hself]
  simp only [setDeadline_self]
  by_cases htight : d = (t.setDeadline m d).wcet m
  · rw [if_pos htight]
    refine ⟨tuning.erase i, if_pos hmem, hnext _ (h.nodup.erase i)
      (fun j hj => List.mem_of_mem_erase hj) (fun j hj hji => (List.mem_erase_of_ne hji).2 hj)
      (fun hi => absurd hi h.nodup.not_mem_erase)⟩
  · rw [if_neg htight]
    have hne : d ≠ t.wcet m := htight
    exact ⟨tuning, rfl, hnext _ h.nodup (fun _ hj => hj) (fun _ hj _ => hj) (fun _ => by omega)⟩

/-- The start of the loop has a result, and is a state that satisfies the
    invariant. -/
theorem clampDeadlines_ok (h : Clamping m is tasks tuning) :
    ∃ tasks' r, clampDeadlines m is tasks tuning = .ok (tasks', r) ∧
      ∀ tuning', r = some tuning' → TuneState.Ok m ⟨tasks', tuning', []⟩ := by
  induction is generalizing tasks tuning with
  | nil =>
    refine ⟨tasks, some tuning, rfl, ?_⟩
    rintro tuning' ⟨⟩
    exact h.ok
  | cons i is ih =>
    obtain ⟨t, ht, -⟩ := h.above i (h.todo i List.mem_cons_self)
    rw [clampDeadlines, ht]
    simp only
    split_ifs with hlt
    · exact ⟨tasks, none, rfl, nofun⟩
    · obtain ⟨tuning', hr, hnext⟩ := h.step ht (not_lt.1 hlt) (min_le_right _ _)
      rw [hr]
      exact ih hnext

end Clamping

theorem mem_initialCandidates :
    i ∈ initialCandidates tasks m ↔ ∃ t, tasks[i]? = some t ∧ m < t.criticalityLevel := by
  unfold initialCandidates
  rw [List.mem_filter, List.mem_range]
  constructor
  · rintro ⟨-, h⟩
    cases ht : tasks[i]? with
    | none =>
      rw [ht] at h
      cases h
    | some t =>
      rw [ht] at h
      exact ⟨t, rfl, of_decide_eq_true h⟩
  · rintro ⟨t, ht, hc⟩
    obtain ⟨hi, -⟩ := List.getElem?_eq_some_iff.1 ht
    exact ⟨hi, by simp [ht, hc]⟩

theorem clamping_start (h : ∀ t ∈ tasks, t.Regular) (m : ℕ) :
    Clamping m (initialCandidates tasks m) tasks (initialCandidates tasks m) where
  regular := h
  nodup := List.nodup_range.filter _
  todoNodup := List.nodup_range.filter _
  todo _ hi := hi
  above _ hi := mem_initialCandidates.1 hi
  handled _ t ht hc hi := absurd (mem_initialCandidates.2 ⟨t, ht, hc⟩) hi

/-- The states at the top of the loop of `tune_mode` at level `m`, started with
    `tasks` -/
inductive LoopState (m : ℕ) (tasks : List Task) : TuneState → Prop where
  | start (tasks' tuning)
      (h : clampDeadlines m (initialCandidates tasks m) tasks (initialCandidates tasks m) =
        .ok (tasks', some tuning)) :
      LoopState m tasks ⟨tasks', tuning, []⟩
  | next (s s' lMax) (hs : LoopState m tasks s) (hl : computeLMax s.allCandidates m = .ok lMax)
      (h : scan m s (lMax + 1).toNat 0 = .ok (.changed s')) : LoopState m tasks s'

theorem LoopState.ok (h : ∀ t ∈ tasks, t.Regular) (hs : LoopState m tasks s) : s.Ok m := by
  induction hs with
  | start tasks' tuning hc =>
    obtain ⟨ts, r, hr, hok⟩ := (clamping_start h m).clampDeadlines_ok
    rw [hc] at hr
    cases hr
    exact hok tuning rfl
  | next s s' lMax _ _ hscan ih =>
    obtain ⟨r, hr, hok⟩ := scan_spec ih (lMax + 1).toNat 0
    rw [hscan] at hr
    cases hr
    exact (hok s' rfl).1

/-- **The tuning loop ends without an error.** -/
theorem tuneMode_terminates (cfg : SysConfig) (tasks : List Task) (m : ℕ)
    (h : ∀ t ∈ tasks, t.Regular) :
    (∃ fuel r, ∀ fuel' ≥ fuel, tuneMode cfg fuel' tasks m = .ok r) ∧
    ∀ s, LoopState m tasks s →
      (∀ i ∈ s.tuningCandidates, ∃ t, s.allCandidates[i]? = some t ∧
        t.wcet m < t.virtualDeadline m) ∧
      ∀ t ∈ s.allCandidates, m < t.criticalityLevel →
        t.wcet m ≤ t.virtualDeadline m ∧ t.virtualDeadline m ≤ t.virtualDeadline (m + 1) := by
  constructor
  · unfold tuneMode
    split_ifs
    · exact ⟨0, _, fun _ _ => rfl⟩
    · exact ⟨0, _, fun _ _ => rfl⟩
    · obtain ⟨tasks', r, hr, hok⟩ := (clamping_start h m).clampDeadlines_ok
      rw [hr]
      cases r with
      | none => exact ⟨0, _, fun _ _ => rfl⟩
      | some tuning =>
        obtain ⟨r, hloop⟩ := tuneLoop_ok (hok tuning rfl) (Nat.lt_succ_self _)
        exact ⟨_, r, fun fuel' hf => tuneLoop_mono hloop hf⟩
  · intro s hs
    have hok := hs.ok h
    constructor
    · intro i hi
      obtain ⟨t, ht, -, hroom⟩ := hok.room i hi
      exact ⟨t, ht, hroom⟩
    · exact fun t ht hc => ⟨hok.lower t ht hc, hok.upper ht hc⟩

/-- `halfTask` at the upper of two levels -/
def highTask : Task := ⟨1, 10, 10, fun _ => 10, "HI", fun _ => 5, 0, 1, [1 / 2, 1 / 2]⟩

theorem tuneMode_terminates_high :
    ∃ fuel r, ∀ fuel' ≥ fuel, tuneMode twoLevels fuel' [highTask] 0 = .ok r := by
  refine (tuneMode_terminates twoLevels [highTask] 0 fun t ht => ?_).1
  obtain rfl := List.mem_singleton.1 ht
  exact ⟨by decide, fun _ => show (0 : ℤ) ≤ 5 by decide⟩

end EeftSched.TaskAllocator

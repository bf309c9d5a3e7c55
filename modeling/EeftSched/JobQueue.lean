/-
  The job queues with their pointers (`add_to_queue_sorted`,
  `add_to_queue_sorted_by_arrival` and `pop_next_job` in
  `task_management.c`).

  A history records what a caller did to one queue: jobs it added, jobs it
  took.  Between the calls it may write to jobs that are not in the queue.

  * `addSortedFrom_ring`: the scan with its two cursors inserts before the
    first job of a larger key;
  * `History.holds`: the queue is the stable sort of the jobs stored, in the
    order in which they were added;
  * `jobQueue_law`: the law of a stable priority queue, for both keys.
-/
import EeftSched.Lib.SortedQueue
import EeftSched.ListHead
import EeftSched.Slack

namespace EeftSched

open CircularList SortedQueue

/-- The `list_head`s of one queue: its head, and the `link` of each job -/
inductive Addr (J : Type) where
  | queueHead
  | link (job : J)
deriving DecidableEq

/-- A queue in memory -/
structure JobQueue (J : Type) where
  links : Links (Addr J)
  job : J → Job

namespace JobQueue

section
variable {J : Type} [DecidableEq J]

/-- The loop of `add_to_queue_sorted`: `cursor` and `n` are the cursors of
    `list_for_each_entry_safe`. -/
def addSortedFrom (key : Job → ℕ) (s : JobQueue J) (jobToAdd : J) :
    ℕ → Addr J → Addr J → Option (Links (Addr J))
  | 0, _, _ => none
  | _ + 1, .queueHead, _ => listAddTail s.links (.link jobToAdd) .queueHead
  | fuel + 1, .link cursor, n =>
    if key (s.job jobToAdd) < key (s.job cursor) then
      listAddTail s.links (.link jobToAdd) (.link cursor)
    else do
      let next ← s.links.next n
      addSortedFrom key s jobToAdd fuel n next

/-- The two functions that add a job differ in the key they compare. -/
def addSorted (key : Job → ℕ) (fuel : ℕ) (s : JobQueue J) (jobToAdd : J) : Option (JobQueue J) := do
  let cursor ← s.links.next .queueHead
  let n ← s.links.next cursor
  let links ← addSortedFrom key s jobToAdd fuel cursor n
  pure { s with links := links }

/-- `add_to_queue_sorted` -/
def addToQueueSorted (fuel : ℕ) (s : JobQueue J) (jobToAdd : J) : Option (JobQueue J) :=
  addSorted Job.virtualDeadline fuel s jobToAdd

/-- `add_to_queue_sorted_by_arrival` -/
def addToQueueSortedByArrival (fuel : ℕ) (s : JobQueue J) (jobToAdd : J) : Option (JobQueue J) :=
  addSorted Job.arrivalTime fuel s jobToAdd

/-- `pop_next_job`: the queue it leaves, and the job it returns -/
def popNextJob (s : JobQueue J) : Option (JobQueue J × Option J) := do
  match ← listFirstEntry s.links .queueHead with
  | some (.link job) =>
    let links ← listDel s.links (.link job)
    pure ({ s with links := links }, some job)
  | some .queueHead | none => pure (s, none)

end

/-! ## The queue in memory -/

variable {J : Type} {key : Job → ℕ} {s s' : JobQueue J} {j : J} {queue l₁ l₂ : List J}

/-- The jobs in the queue, in the order of the pointers -/
def Holds (s : JobQueue J) (queue : List J) : Prop := s.links.Ring .queueHead (queue.map .link)

/-- The first job of the rest of the queue, or its head -/
def front : List J → Addr J
  | [] => .queueHead
  | j :: _ => .link j

theorem link_notMem (hj : j ∉ queue) : Addr.link j ∉ Addr.queueHead :: queue.map Addr.link := by
  simpa using hj

theorem Holds.append (h : s.Holds (l₁ ++ j :: l₂)) :
    s.links.Ring .queueHead (l₁.map .link ++ .link j :: l₂.map .link) := by
  rwa [Holds, List.map_append, List.map_cons] at h

theorem Holds.next_queueHead (h : s.Holds queue) : s.links.next .queueHead = some (front queue) := by
  cases queue with
  | nil => exact h.next_nil
  | cons j queue => exact h.next_cons

theorem Holds.next_link (h : s.Holds (l₁ ++ j :: l₂)) : s.links.next (.link j) = some (front l₂) := by
  have hr := h.append.rotate
  cases l₂ with
  | nil => exact hr.next_cons
  | cons k l₂ => exact hr.next_cons

/-- No pointer of the circle is null. -/
theorem Holds.next_front (h : s.Holds (l₁ ++ l₂)) : ∃ n, s.links.next (front l₂) = some n := by
  cases l₂ with
  | nil => exact ⟨_, h.next_queueHead⟩
  | cons j l₂ => exact ⟨_, h.next_link⟩

variable [DecidableEq J] {fuel : ℕ} {r : Option J}

theorem holds_init (links : Links (Addr J)) (job : J → Job) :
    Holds ⟨initListHead links .queueHead, job⟩ [] := initListHead_ring links _

/-! ## One operation -/

theorem addSortedFrom_link (c : J) (n : Addr J) :
    addSortedFrom key s j (fuel + 1) (.link c) n =
      if key (s.job j) < key (s.job c) then listAddTail s.links (.link j) (.link c)
      else (s.links.next n).bind fun next => addSortedFrom key s j fuel n next := rfl

/-- More fuel than is needed changes nothing. -/
theorem addSortedFrom_mono {fuel' : ℕ} (hle : fuel ≤ fuel') {cursor n : Addr J}
    {links : Links (Addr J)} (h : addSortedFrom key s j fuel cursor n = some links) :
    addSortedFrom key s j fuel' cursor n = some links := by
  induction fuel generalizing fuel' cursor n with
  | zero => cases h
  | succ fuel ih =>
    obtain ⟨fuel', rfl⟩ : ∃ m, fuel' = m + 1 := ⟨fuel' - 1, by omega⟩
    cases cursor with
    | queueHead => exact h
    | link c =>
      rw [addSortedFrom_link] at h ⊢
      split_ifs at h ⊢ with hlt
      · exact h
      · obtain ⟨next, hnext, h⟩ := Option.bind_eq_some_iff.1 h
        rw [hnext]
        exact ih (by omega) h

theorem addSorted_mono {fuel' : ℕ} (hle : fuel ≤ fuel') (h : addSorted key fuel s j = some s') :
    addSorted key fuel' s j = some s' := by
  simp only [addSorted, Option.bind_eq_bind, Option.bind_eq_some_iff] at h ⊢
  obtain ⟨cursor, hcursor, n, hn, links, hadd, hs'⟩ := h
  exact ⟨cursor, hcursor, n, hn, links, addSortedFrom_mono hle hadd, hs'⟩

/-- **The scan** inserts before the first job of a larger key. -/
theorem addSortedFrom_holds (h : s.Holds (l₁ ++ l₂)) (hj : j ∉ l₁ ++ l₂) (hf : l₂.length < fuel)
    {n : Addr J} (hn : s.links.next (front l₂) = some n) :
    ∃ links, addSortedFrom key s j fuel (front l₂) n = some links ∧
      Holds ⟨links, s.job⟩ (l₁ ++ insertBy (key ∘ s.job) j l₂) := by
  induction l₂ generalizing l₁ fuel n with
  | nil =>
    obtain ⟨fuel, rfl⟩ : ∃ m, fuel = m + 1 := ⟨fuel - 1, by omega⟩
    obtain ⟨links, hadd, hring⟩ := listAddTail_head h (link_notMem hj)
    exact ⟨links, hadd, by simpa [Holds] using hring⟩
  | cons c l₂ ih =>
    obtain ⟨fuel, rfl⟩ : ∃ m, fuel = m + 1 := ⟨fuel - 1, by omega⟩
    obtain rfl : n = front l₂ := Option.some.inj (hn.symm.trans h.next_link)
    by_cases hlt : key (s.job j) < key (s.job c)
    · -- the first job of a larger key
      have hnew := link_notMem hj
      rw [List.map_append, List.map_cons] at hnew
      obtain ⟨links, hadd, hring⟩ := listAddTail_ring h.append hnew
      refine ⟨links, (if_pos hlt).trans hadd, ?_⟩
      rw [insertBy, List.orderedInsert_cons_of_le _ l₂ hlt]
      simpa [Holds] using hring
    · rw [List.append_cons] at h hj
      obtain ⟨n, hn⟩ := h.next_front
      obtain ⟨links, hadd, hring⟩ := ih h hj (Nat.lt_of_succ_lt_succ hf) hn
      refine ⟨links, ?_, ?_⟩
      · rw [front, addSortedFrom_link, if_neg hlt, hn]
        exact hadd
      · rw [insertBy, List.orderedInsert_of_not_le _ l₂ hlt, List.append_cons]
        exact hring

theorem addSorted_holds (h : s.Holds queue) (hj : j ∉ queue) (hf : queue.length < fuel) :
    ∃ s', addSorted key fuel s j = some s' ∧ s'.job = s.job ∧
      s'.Holds (insertBy (key ∘ s.job) j queue) := by
  have h0 : s.Holds ([] ++ queue) := h
  obtain ⟨n, hn⟩ := h0.next_front
  obtain ⟨links, hadd, hring⟩ := addSortedFrom_holds h0 hj hf hn
  exact ⟨⟨links, s.job⟩, by simp [addSorted, h.next_queueHead, hn, hadd], rfl, hring⟩

/-- The pointers do what `Slack` says of lists of jobs. -/
theorem addToQueueSorted_refines (h : s.Holds queue) (hj : j ∉ queue) (hf : queue.length < fuel) :
    ∃ s' queue', addToQueueSorted fuel s j = some s' ∧ s'.Holds queue' ∧
      queue'.map s'.job = EeftSched.addToQueueSorted (s.job j) (queue.map s.job) := by
  obtain ⟨s', hadd, hjob, hholds⟩ :
      ∃ s', addSorted Job.virtualDeadline fuel s j = some s' ∧ s'.job = s.job ∧
        s'.Holds (insertBy (Job.virtualDeadline ∘ s.job) j queue) := addSorted_holds h hj hf
  refine ⟨s', _, hadd, hholds, ?_⟩
  rw [hjob, EeftSched.addToQueueSorted, insertBy, insertBy]
  exact List.map_orderedInsert _ _ _ _ _ (fun _ _ => Iff.rfl) fun _ _ => Iff.rfl

/-- Whatever fuel ends the scan, what it leaves is the same. -/
theorem addSorted_eq (h : s.Holds queue) (hj : j ∉ queue) (ha : addSorted key fuel s j = some s') :
    s'.job = s.job ∧ s'.Holds (insertBy (key ∘ s.job) j queue) := by
  obtain ⟨t, ht, hjob, hholds⟩ := addSorted_holds h hj
    (Nat.lt_of_lt_of_le queue.length.lt_succ_self (Nat.le_add_left _ fuel))
  obtain rfl : s' = t := Option.some.inj ((addSorted_mono (Nat.le_add_right _ _) ha).symm.trans ht)
  exact ⟨hjob, hholds⟩

theorem popNextJob_nil (h : s.Holds []) : s.popNextJob = some (s, none) := by
  unfold popNextJob
  rw [listFirstEntry_nil h]
  rfl

theorem popNextJob_cons (h : s.Holds (j :: queue)) :
    ∃ s', s.popNextJob = some (s', some j) ∧ s'.job = s.job ∧ s'.Holds queue := by
  have hr : s.links.Ring .queueHead ([] ++ .link j :: queue.map .link) := h
  obtain ⟨links, hdel, hring⟩ := listDel_ring hr
  refine ⟨⟨links, s.job⟩, ?_, rfl, hring⟩
  unfold popNextJob
  rw [listFirstEntry_cons hr]
  simp [hdel]

/-! ## Histories -/

/-- What a caller did to a queue -/
inductive Event (J : Type) where
  | added (job : J)
  | popped (job : Option J)

/-- What one event does to the jobs stored, in the order of their addition -/
def store (stored : List J) : Event J → List J
  | .added j => stored ++ [j]
  | .popped none => stored
  | .popped (some j) => stored.erase j

/-- The jobs stored after some events, in the order in which they were added -/
def stored (es : List (Event J)) : List J := es.foldl store []

def Event.add : Event J → Option J
  | .added j => some j
  | .popped _ => none

def Event.pop : Event J → Option J
  | .added _ => none
  | .popped r => r

/-- The runs of the two operations on a queue that is empty at first.  A job
    is added, and written to, only while it is not in the queue. -/
inductive History (add : ℕ → JobQueue J → J → Option (JobQueue J)) :
    JobQueue J → List (Event J) → Prop
  | init (links : Links (Addr J)) (job : J → Job) :
    History add ⟨initListHead links .queueHead, job⟩ []
  | write {s es} (h : History add s es) {j : J} (hj : j ∉ stored es) (job : Job) :
    History add { s with job := Function.update s.job j job } es
  | add {s s' es} (h : History add s es) {j : J} (hj : j ∉ stored es) {fuel : ℕ}
    (ha : add fuel s j = some s') : History add s' (es ++ [.added j])
  | pop {s s' es} (h : History add s es) {r : Option J} (hp : s.popNextJob = some (s', r)) :
    History add s' (es ++ [.popped r])

/-- The stable sort of the jobs stored -/
def sorted (key : Job → ℕ) (s : JobQueue J) (es : List (Event J)) : List J :=
  (stored es).mergeSort ((key ∘ s.job) · ≤ (key ∘ s.job) ·)

/-- **The law of a stable priority queue** -/
structure Law (add : ℕ → JobQueue J → J → Option (JobQueue J)) (key : Job → ℕ) (s : JobQueue J)
    (es : List (Event J)) : Prop where
  /-- the queue in memory is the stable sort of the jobs stored -/
  holds : s.Holds (sorted key s es)
  /-- adding a job ends -/
  added : ∀ j ∉ stored es, ∀ fuel > (stored es).length, ∃ s', add fuel s j = some s'
  /-- taking a job ends -/
  popped : ∃ s' r, s.popNextJob = some (s', r)
  /-- nothing is taken exactly when nothing is stored -/
  pop_none : ∀ s', s.popNextJob = some (s', none) ↔ s' = s ∧ stored es = []
  /-- the job taken has the least key, and was added before others of this key -/
  pop_some : ∀ s' j, s.popNextJob = some (s', some j) → ∃ l₁ l₂, stored es = l₁ ++ j :: l₂ ∧
    (∀ i ∈ l₁, key (s.job j) < key (s.job i)) ∧ ∀ i ∈ l₂, key (s.job j) ≤ key (s.job i)
  /-- what was added was taken or is stored -/
  conserved : (es.filterMap Event.add).Perm (es.filterMap Event.pop ++ stored es)

section
variable {es : List (Event J)}

theorem stored_concat (es : List (Event J)) (e : Event J) : stored (es ++ [e]) = store (stored es) e := by
  simp [stored]

/-- The order of the jobs of the queue, and of those stored, that have one key -/
def SameOrder (key : Job → ℕ) (s : JobQueue J) (queue stored : List J) : Prop :=
  ∀ k, queue.filter ((key ∘ s.job) · = k) = stored.filter ((key ∘ s.job) · = k)

/-- What holds of a queue after some events -/
structure Kept (key : Job → ℕ) (s : JobQueue J) (es : List (Event J)) (queue : List J) : Prop where
  holds : s.Holds queue
  sorted : SortedBy (key ∘ s.job) queue
  order : SameOrder key s queue (stored es)
  nodup : (stored es).Nodup

theorem Kept.mem_iff (h : Kept key s es queue) : j ∈ queue ↔ j ∈ stored es :=
  mem_iff_of_filter_eq h.order

theorem Kept.eq_sorted (h : Kept key s es queue) : queue = JobQueue.sorted key s es :=
  h.sorted.eq_mergeSort h.order

theorem Kept.perm (h : Kept key s es queue) : queue.Perm (stored es) := by
  rw [h.eq_sorted]
  exact List.mergeSort_perm _ _

theorem Kept.nodup_queue (h : Kept key s es queue) : queue.Nodup := h.perm.nodup_iff.2 h.nodup

/-- A write to a job that is not in the queue -/
theorem Kept.write (h : Kept key s es queue) (hj : j ∉ stored es) (job : Job) :
    Kept key { s with job := Function.update s.job j job } es queue := by
  have hkey : ∀ i, i ≠ j → (key ∘ Function.update s.job j job) i = (key ∘ s.job) i := fun i hi => by
    rw [Function.comp_apply, Function.update_of_ne hi, Function.comp_apply]
  have hq : ∀ i ∈ queue, i ≠ j := by
    rintro i hi rfl
    exact hj (h.mem_iff.1 hi)
  have hs : ∀ i ∈ stored es, i ≠ j := by
    rintro i hi rfl
    exact hj hi
  refine ⟨h.holds, h.sorted.congr fun i hi => hkey i (hq i hi), fun k => ?_, h.nodup⟩
  have hfilter : ∀ l : List J, (∀ i ∈ l, i ≠ j) →
      l.filter ((key ∘ Function.update s.job j job) · = k) = l.filter ((key ∘ s.job) · = k) :=
    fun l hl => List.filter_congr fun i hi => by rw [hkey i (hl i hi)]
  rw [hfilter queue hq, hfilter (stored es) hs]
  exact h.order k

theorem Kept.add (h : Kept key s es queue) (hj : j ∉ stored es)
    (ha : addSorted key fuel s j = some s') :
    Kept key s' (es ++ [.added j]) (insertBy (key ∘ s.job) j queue) := by
  obtain ⟨hjob, hholds⟩ := addSorted_eq h.holds (fun hq => hj (h.mem_iff.1 hq)) ha
  refine ⟨hholds, ?_, fun k => ?_, ?_⟩
  · rw [hjob]
    exact h.sorted.insertBy
  · rw [stored_concat, store, List.filter_append, hjob, ← h.order k]
    exact h.sorted.filter_insertBy j k
  · rw [stored_concat, store, ← List.concat_eq_append]
    exact h.nodup.concat hj

/-- The first job is taken. -/
theorem Kept.pop_cons (h : Kept key s es (j :: queue)) :
    ∃ s', s.popNextJob = some (s', some j) ∧ Kept key s' (es ++ [.popped (some j)]) queue := by
  obtain ⟨s', hpop, hjob, hholds⟩ := popNextJob_cons h.holds
  refine ⟨s', hpop, hholds, ?_, fun k => ?_, ?_⟩
  · rw [hjob]
    exact (List.pairwise_cons.1 h.sorted).2
  · -- the first job is the first one of its key
    have hrest : (j :: queue).filter (· != j) = queue := by
      rw [List.filter_cons_of_neg (by simp), List.filter_eq_self]
      intro i hi
      simpa using ne_of_mem_of_not_mem hi (List.nodup_cons.1 h.nodup_queue).1
    rw [stored_concat, store, hjob, h.nodup.erase_eq_filter, List.filter_comm, ← h.order k,
      List.filter_comm, hrest]
  · rw [stored_concat, store]
    exact h.nodup.erase j

theorem Kept.pop_nil (h : Kept key s es []) : Kept key s (es ++ [.popped none]) [] := by
  have hstored : stored (es ++ [.popped none]) = stored es := stored_concat es _
  refine ⟨h.holds, .nil, ?_, ?_⟩
  · rw [hstored]
    exact h.order
  · rw [hstored]
    exact h.nodup

/-- The two cases of `pop_next_job` -/
theorem Kept.pop_cases (h : Kept key s es queue) (hp : s.popNextJob = some (s', r)) :
    (queue = [] ∧ r = none ∧ s' = s) ∨
      ∃ j rest, queue = j :: rest ∧ r = some j ∧ Kept key s' (es ++ [.popped (some j)]) rest := by
  cases queue with
  | nil =>
    rw [popNextJob_nil h.holds] at hp
    cases hp
    exact .inl ⟨rfl, rfl, rfl⟩
  | cons j rest =>
    obtain ⟨t, ht, hkept⟩ := h.pop_cons
    rw [ht] at hp
    cases hp
    exact .inr ⟨j, rest, rfl, rfl, hkept⟩

/-- The first job of the queue is, among those stored, one of the least key,
    and the first of these. -/
theorem Kept.first (h : Kept key s es (j :: queue)) :
    ∃ l₁ l₂, stored es = l₁ ++ j :: l₂ ∧
      (∀ i ∈ l₁, key (s.job j) < key (s.job i)) ∧ ∀ i ∈ l₂, key (s.job j) ≤ key (s.job i) := by
  have hle : ∀ i ∈ stored es, key (s.job j) ≤ key (s.job i) := fun i hi =>
    h.sorted.head_le i (h.mem_iff.2 hi)
  obtain ⟨l₁, l₂, heq⟩ := List.append_of_mem (h.mem_iff.1 List.mem_cons_self)
  have hd := h.nodup
  have hfirst := h.order (key (s.job j))
  rw [heq] at hd hfirst hle
  rw [List.filter_cons_of_pos (by simp), List.filter_append] at hfirst
  refine ⟨l₁, l₂, heq, fun i hi => lt_of_le_of_ne (hle i (by simp [hi])) fun hkey => ?_,
    fun i hi => hle i (by simp [hi])⟩
  -- another job of the same key would come first
  cases hl : l₁.filter ((key ∘ s.job) · = key (s.job j)) with
  | nil => exact List.filter_eq_nil_iff.1 hl i hi (by simpa using hkey.symm)
  | cons a l =>
    rw [hl] at hfirst
    obtain ⟨rfl, -⟩ := List.cons.inj hfirst
    have hmem : j ∈ l₁ := (List.mem_filter.1 (hl ▸ List.mem_cons_self)).1
    exact (List.nodup_append.1 hd).2.2 j hmem j List.mem_cons_self rfl

/-- **Every history keeps the queue in order.** -/
theorem History.kept (h : History (addSorted key) s es) : ∃ queue, Kept key s es queue := by
  induction h with
  | init links job => exact ⟨[], holds_init links job, .nil, fun k => rfl, List.nodup_nil⟩
  | write _ hj job ih =>
    obtain ⟨queue, hq⟩ := ih
    exact ⟨queue, hq.write hj job⟩
  | add _ hj ha ih =>
    obtain ⟨queue, hq⟩ := ih
    exact ⟨_, hq.add hj ha⟩
  | pop _ hp ih =>
    obtain ⟨queue, hq⟩ := ih
    rcases hq.pop_cases hp with ⟨rfl, rfl, rfl⟩ | ⟨j, rest, rfl, rfl, hrest⟩
    · exact ⟨[], hq.pop_nil⟩
    · exact ⟨rest, hrest⟩

/-- What was added was taken, or is stored. -/
theorem History.conserved (h : History (addSorted key) s es) :
    (es.filterMap Event.add).Perm (es.filterMap Event.pop ++ stored es) := by
  induction h with
  | init => rfl
  | write _ _ _ ih => exact ih
  | @add s s' es _ j hj fuel ha ih =>
    rw [List.filterMap_append, List.filterMap_append, stored_concat]
    simp only [List.filterMap_cons, Event.add, Event.pop, List.filterMap_nil, List.append_nil, store]
    rw [← List.append_assoc]
    exact ih.append_right [j]
  | @pop s s' es h r hp ih =>
    obtain ⟨queue, hq⟩ := h.kept
    rw [List.filterMap_append, List.filterMap_append, stored_concat]
    rcases hq.pop_cases hp with ⟨rfl, rfl, rfl⟩ | ⟨j, rest, rfl, rfl, -⟩
    · simp only [List.filterMap_cons, Event.add, Event.pop, List.filterMap_nil, List.append_nil, store]
      exact ih
    · have hj := List.perm_cons_erase (hq.mem_iff.1 List.mem_cons_self)
      simp only [List.filterMap_cons, Event.add, Event.pop, List.filterMap_nil, List.append_nil,
        List.append_assoc, List.singleton_append, store]
      exact ih.trans (hj.append_left _)

/-- **Every history obeys the law.** -/
theorem History.law (h : History (addSorted key) s es) : Law (addSorted key) key s es := by
  obtain ⟨queue, hq⟩ := h.kept
  refine ⟨hq.eq_sorted ▸ hq.holds, fun j hj fuel hf => ?_, ?_, fun s' => ?_, fun s' j hp => ?_, h.conserved⟩
  · rw [← hq.perm.length_eq] at hf
    obtain ⟨s', ha, -⟩ := addSorted_holds hq.holds (fun hm => hj (hq.mem_iff.1 hm)) hf
    exact ⟨s', ha⟩
  · cases queue with
    | nil => exact ⟨s, none, popNextJob_nil hq.holds⟩
    | cons j queue =>
      obtain ⟨s', hp, -⟩ := popNextJob_cons hq.holds
      exact ⟨s', some j, hp⟩
  · constructor
    · intro hp
      rcases hq.pop_cases hp with ⟨rfl, -, rfl⟩ | ⟨j, rest, -, hr, -⟩
      · exact ⟨rfl, hq.perm.nil_eq.symm⟩
      · cases hr
    · rintro ⟨rfl, hnil⟩
      have hperm := hq.perm
      rw [hnil] at hperm
      obtain rfl := hperm.eq_nil
      exact popNextJob_nil hq.holds
  · rcases hq.pop_cases hp with ⟨-, hr, -⟩ | ⟨i, rest, rfl, hr, -⟩
    · cases hr
    · cases hr
      exact hq.first

end

/-- **The job queues are stable priority queues**, by virtual deadline and by
    arrival time. -/
theorem jobQueue_law :
    (∀ (s : JobQueue J) (es : List (Event J)),
      History addToQueueSorted s es → Law addToQueueSorted Job.virtualDeadline s es) ∧
    ∀ (s : JobQueue J) (es : List (Event J)),
      History addToQueueSortedByArrival s es → Law addToQueueSortedByArrival Job.arrivalTime s es :=
  ⟨fun _ _ h => h.law, fun _ _ h => h.law⟩

/-- A queue with pointers that are all null but those of its head, and jobs of which
    only the first has a late deadline -/
def emptyQueue : JobQueue ℕ :=
  ⟨initListHead ⟨fun _ => none, fun _ => none⟩ .queueHead, fun j =>
    ⟨⟨1, 4, 4, fun _ => 1, 0⟩, 0, fun _ => 4, 4, if j = 1 then 8 else 5, 1, 1, 0, 0, false, .ready, 0⟩⟩

/-- Jobs 1, 2 and 3 are added: job 2 is taken, which is as urgent as job 3, and job 3
    is before job 1. -/
theorem jobQueue_law_tie : ∃ s₁ s₂ s₃ s₄ : JobQueue ℕ,
    addToQueueSorted 1 emptyQueue 1 = some s₁ ∧ addToQueueSorted 2 s₁ 2 = some s₂ ∧
    addToQueueSorted 3 s₂ 3 = some s₃ ∧ s₃.popNextJob = some (s₄, some 2) ∧
    Law addToQueueSorted Job.virtualDeadline s₄ [.added 1, .added 2, .added 3, .popped (some 2)] ∧
    s₄.Holds [3, 1] := by
  obtain ⟨s₁, s₂, s₃, s₄, h₁, h₂, h₃, h₄, hjob⟩ : ∃ s₁ s₂ s₃ s₄ : JobQueue ℕ,
      addToQueueSorted 1 emptyQueue 1 = some s₁ ∧ addToQueueSorted 2 s₁ 2 = some s₂ ∧
      addToQueueSorted 3 s₂ 3 = some s₃ ∧ s₃.popNextJob = some (s₄, some 2) ∧ s₄.job = emptyQueue.job :=
    ⟨_, _, _, _, rfl, rfl, rfl, rfl, rfl⟩
  have hinit : History addToQueueSorted emptyQueue [] := .init _ _
  have hadded := ((hinit.add (by decide) h₁).add (by decide) h₂).add (by decide) h₃
  have hlaw := jobQueue_law.1 _ _ (hadded.pop h₄)
  have hsorted : sorted Job.virtualDeadline s₄ [.added 1, .added 2, .added 3, .popped (some 2)] = [3, 1] := by
    simp [sorted, stored, store, hjob, emptyQueue, List.mergeSort, List.MergeSort.Internal.splitInTwo]
  exact ⟨s₁, s₂, s₃, s₄, h₁, h₂, h₃, h₄, hlaw, hsorted ▸ hlaw.holds⟩

end JobQueue

end EeftSched

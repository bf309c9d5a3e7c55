/-
  Whatever arrives at the socket (`ipc_receive_completion_messages`).

  `packet_buf` is not cleared between two `recvfrom`s, and the length of the
  payload is an unsigned difference, so a datagram of no bytes is read with the
  type byte of the one before it and a payload of `2^64 - 1` bytes.

  * `datagramMessages`: what a datagram is meant to bring;
  * `Handled`, `CallSafe`: a datagram, and all those of a call, are handled by
    their own bytes alone;
  * `callSafe_iff`: they are iff none is empty and the messages fit the queue.
-/
import EeftSched.Ipc

namespace EeftSched.Ipc

open Mpmc

variable {maxLevels k n i : ℕ} {buf buf' : ℕ → Byte} {d : List Byte} {ds : List (List Byte)}
  {R R' : Receiver} {rb : RingBuffer CompletionMessage} {l : List CompletionMessage}

/-- `packet_buf` after a `recvfrom` -/
def fill (buf : ℕ → Byte) (d : List Byte) : ℕ → Byte := memcpy buf 0 (d.take packetSize)

/-- One turn of the loop -/
def receiveDatagram (maxLevels : ℕ) (buf : ℕ → Byte) (d : List Byte) (R : Receiver) : Option Receiver :=
  receivePacket maxLevels (fill buf d) (min d.length packetSize) R

theorem ipcReceive_cons : ipcReceiveCompletionMessages maxLevels buf (d :: ds) R =
    (receiveDatagram maxLevels buf d R).bind (ipcReceiveCompletionMessages maxLevels (fill buf d) ds) :=
  rfl

/-! ## What a datagram is meant to do -/

/-- The bytes of a datagram, by their place -/
def datagramMem (d : List Byte) : ℕ → Byte := fun i => d[i]?.getD 0

/-- `floor((len - 1) / sizeof(completion_message))` messages of a completion
    datagram, none of another -/
def datagramMessages (d : List Byte) : List CompletionMessage :=
  if d[0]? = some typeCompletion then
    (List.range ((d.length - 1) / messageSize)).map fun i => readMessage (datagramMem d) (1 + i * messageSize)
  else []

/-- The level that a datagram of the type and the size of a criticality change
    names -/
def datagramLevel (d : List Byte) : Option ℕ :=
  if d[0]? = some typeCriticalityChange ∧ d.length = 5 then some (readWord (datagramMem d) 1).toNat else none

/-- A datagram `d` is handled, with the messages `l` in the queue and `buf` in
    `packet_buf` when `recvfrom` is called. -/
structure Handled (maxLevels : ℕ) (buf : ℕ → Byte) (d : List Byte) (R : Receiver) (k : ℕ)
    (l : List CompletionMessage) : Prop where
  /-- What was in `packet_buf` does not matter. -/
  fresh : ∀ buf', receiveDatagram maxLevels buf' d R = receiveDatagram maxLevels buf d R
  result : ∃ R', receiveDatagram maxLevels buf d R = some R' ∧
    Holds R'.incoming messageQueueSize k (l ++ datagramMessages d) ∧
    (R'.systemCriticalityLevel = R.systemCriticalityLevel ∨
      datagramLevel d = some R'.systemCriticalityLevel ∧
        R.systemCriticalityLevel < R'.systemCriticalityLevel ∧ R'.systemCriticalityLevel < maxLevels)

/-- A call handles each of its datagrams in turn, and returns. -/
structure CallSafe (maxLevels : ℕ) (junk : ℕ → Byte) (ds : List (List Byte)) (R : Receiver) (k : ℕ)
    (l : List CompletionMessage) : Prop where
  each : ∀ before d after, ds = before ++ d :: after →
    ∃ R₁, ipcReceiveCompletionMessages maxLevels junk before R = some R₁ ∧
      Holds R₁.incoming messageQueueSize k (l ++ before.flatMap datagramMessages) ∧
      Handled maxLevels (before.foldl fill junk) d R₁ k (l ++ before.flatMap datagramMessages)
  returns : ∃ R', ipcReceiveCompletionMessages maxLevels junk ds R = some R' ∧
    Holds R'.incoming messageQueueSize k (l ++ ds.flatMap datagramMessages)

/-! ## The bytes that are read -/

theorem fill_get (hi : i < min d.length packetSize) : fill buf d i = datagramMem d i := by
  have hlen : i < d.length := by omega
  have hget : (d.take packetSize)[i]? = some d[i] := by
    rw [List.getElem?_take_of_lt (by omega), List.getElem?_eq_getElem hlen]
  have h : memcpy buf 0 (d.take packetSize) (0 + i) = d[i] := memcpy_get hget
  rw [Nat.zero_add] at h
  rw [fill, h, datagramMem, List.getElem?_eq_getElem hlen]
  rfl

/-- The words of a message lie in its bytes. -/
theorem readMessage_congr {off : ℕ} (h : ∀ i < messageSize, buf (off + i) = buf' (off + i)) :
    readMessage buf off = readMessage buf' off := by
  have hword : ∀ j, j + 3 < messageSize → readWord buf (off + j) = readWord buf' (off + j) := by
    intro j hj
    have hbyte : ∀ b ≤ 3, buf (off + j + b) = buf' (off + j + b) := by
      intro b hb
      rw [Nat.add_assoc]
      exact h (j + b) (by omega)
    have hlow := hbyte 0 (by decide)
    rw [Nat.add_zero] at hlow
    unfold readWord
    rw [hlow, hbyte 1 (by decide), hbyte 2 (by decide), hbyte 3 (by decide)]
  have h0 := hword 0 (by decide)
  rw [Nat.add_zero] at h0
  rw [readMessage, readMessage, h0, hword 4 (by decide), hword 8 (by decide)]

/-- The queue has room for what the loop reads. -/
theorem receiveMessages_reads (buf : ℕ → Byte) (n : ℕ) : ∀ {i : ℕ} {l : List CompletionMessage}
    {rb : RingBuffer CompletionMessage}, Holds rb messageQueueSize k l →
    l.length + n ≤ messageQueueSize →
    ∃ rb', receiveMessages buf n i rb = some rb' ∧ Holds rb' messageQueueSize k
      (l ++ (List.range' i n).map fun j => readMessage buf (1 + j * messageSize)) := by
  induction n with
  | zero =>
    intro i l rb h _
    exact ⟨rb, rfl, by rw [List.range'_zero, List.map_nil, List.append_nil]; exact h⟩
  | succ n ih =>
    intro i l rb h hle
    obtain ⟨rb₁, henq, h₁⟩ :=
      h.enqueue (.inl size_dvd) (by omega) (readMessage buf (1 + i * messageSize))
    have hlen : (l ++ [readMessage buf (1 + i * messageSize)]).length = l.length + 1 :=
      List.length_append
    obtain ⟨rb', hloop, h'⟩ := @ih (i + 1) _ _ h₁ (by omega)
    refine ⟨rb', ?_, ?_⟩
    · rw [receiveMessages, henq]
      exact hloop
    · rw [List.range'_succ, List.map_cons, List.append_cons]
      exact h'

/-- The queue has no room: some enqueue spins. -/
theorem receiveMessages_spins (n : ℕ) : ∀ {i : ℕ} {l : List CompletionMessage}
    {rb : RingBuffer CompletionMessage}, Holds rb messageQueueSize k l →
    messageQueueSize < l.length + n → receiveMessages buf n i rb = none := by
  induction n with
  | zero =>
    intro i l rb h hlt
    have hle := h.le
    omega
  | succ n ih =>
    intro i l rb h hlt
    rw [receiveMessages]
    by_cases hfull : l.length = messageQueueSize
    · rw [h.enqueue_full (.inl size_dvd) (by decide) hfull]
      rfl
    · have hle := h.le
      obtain ⟨rb₁, henq, h₁⟩ :=
      h.enqueue (.inl size_dvd) (by omega) (readMessage buf (1 + i * messageSize))
      have hlen : (l ++ [readMessage buf (1 + i * messageSize)]).length = l.length + 1 :=
        List.length_append
      rw [henq]
      exact ih h₁ (by omega)

/-! ## A datagram with bytes -/

theorem payloadLen_eq (hd : d ≠ []) :
    (min d.length packetSize + (2 ^ 64 - 1)) % 2 ^ 64 = min d.length packetSize - 1 := by
  have hpos := List.length_pos_iff.2 hd
  have hsize : packetSize = 769 := rfl
  omega

theorem fill_zero (hd : d ≠ []) : fill buf d 0 = datagramMem d 0 :=
  fill_get (lt_min (List.length_pos_iff.2 hd) (by decide))

theorem datagramMem_zero (hd : d ≠ []) (x : Byte) : datagramMem d 0 = x ↔ d[0]? = some x := by
  rw [datagramMem, List.getElem?_eq_getElem (List.length_pos_iff.2 hd), Option.getD_some,
    Option.some_inj]

/-- A datagram of a type other than completion -/
theorem receiveDatagram_level (hd : d ≠ []) (htype : d[0]? ≠ some typeCompletion) :
    receiveDatagram maxLevels buf d R = some
      { R with systemCriticalityLevel := match datagramLevel d with
          | some level => if level > R.systemCriticalityLevel ∧ level < maxLevels then level
            else R.systemCriticalityLevel
          | none => R.systemCriticalityLevel } := by
  have hcompletion : ¬ datagramMem d 0 = typeCompletion := by
    rw [datagramMem_zero hd]
    exact htype
  have hsize : packetSize = 769 := rfl
  have hpos := List.length_pos_iff.2 hd
  have hfour : min d.length packetSize - 1 = 4 ↔ d.length = 5 := by omega
  rw [receiveDatagram, receivePacket, payloadLen_eq hd, fill_zero hd, if_neg hcompletion]
  simp only [datagramMem_zero hd, hfour, datagramLevel]
  by_cases h : d[0]? = some typeCriticalityChange ∧ d.length = 5
  · have hword : readWord (fill buf d) 1 = readWord (datagramMem d) 1 := by
      unfold readWord
      rw [fill_get (by omega), fill_get (by omega), fill_get (by omega), fill_get (by omega)]
    rw [if_pos h, if_pos h, hword]
    show _ = some { R with systemCriticalityLevel := if _ then _ else _ }
    split_ifs <;> rfl
  · rw [if_neg h, if_neg h]

/-- A completion datagram is the messages that fit the buffer. -/
theorem receiveDatagram_completion (hd : d ≠ []) (htype : d[0]? = some typeCompletion) :
    receiveDatagram maxLevels buf d R =
      (receiveMessages (fill buf d) ((min d.length packetSize - 1) / messageSize) 0 R.incoming).map
        fun rb => { R with incoming := rb } := by
  have hne : ¬(typeCompletion = typeCriticalityChange ∧ min d.length packetSize - 1 = 4) := by
    rintro ⟨h, -⟩
    exact absurd h (by decide)
  rw [receiveDatagram, receivePacket, payloadLen_eq hd, fill_zero hd,
    (datagramMem_zero hd typeCompletion).2 htype, if_neg hne, if_pos rfl]

/-- What a datagram with bytes does, when its messages fit -/
theorem receiveDatagram_spec (maxLevels : ℕ) (buf : ℕ → Byte)
    (hR : Holds R.incoming messageQueueSize k l) (hd : d ≠ []) (hfit : l.length + (datagramMessages d).length ≤ messageQueueSize) :
    ∃ R', receiveDatagram maxLevels buf d R = some R' ∧
      Holds R'.incoming messageQueueSize k (l ++ datagramMessages d) ∧
      (R'.systemCriticalityLevel = R.systemCriticalityLevel ∨
        datagramLevel d = some R'.systemCriticalityLevel ∧
          R.systemCriticalityLevel < R'.systemCriticalityLevel ∧
          R'.systemCriticalityLevel < maxLevels) := by
  by_cases htype : d[0]? = some typeCompletion
  · have hmsgs : datagramMessages d = (List.range ((d.length - 1) / messageSize)).map
        fun i => readMessage (datagramMem d) (1 + i * messageSize) := if_pos htype
    rw [hmsgs, List.length_map, List.length_range] at hfit
    -- a datagram that is cut has no more messages than the queue has slots
    have hcut : (min d.length packetSize - 1) / messageSize = (d.length - 1) / messageSize := by
      have hslots : (d.length - 1) / 12 ≤ 64 := (Nat.le_add_left _ _).trans hfit
      show (min d.length 769 - 1) / 12 = (d.length - 1) / 12
      omega
    obtain ⟨rb', hloop, h'⟩ := receiveMessages_reads (fill buf d) _ (i := 0) hR hfit
    refine ⟨{ R with incoming := rb' }, ?_, ?_, .inl rfl⟩
    · rw [receiveDatagram_completion hd htype, hcut, hloop]
      rfl
    · convert h' using 1
      rw [hmsgs, List.range_eq_range']
      congr 1
      refine List.map_congr_left fun j hj => ?_
      refine readMessage_congr fun b hb => (fill_get ?_).symm
      have hj' : j < (min d.length packetSize - 1) / messageSize := by
        rw [hcut]
        simpa using hj
      have hmul : (j + 1) * messageSize ≤ min d.length packetSize - 1 :=
        (Nat.mul_le_mul_right _ hj').trans (Nat.div_mul_le_self _ _)
      rw [Nat.succ_mul] at hmul
      omega
  · have hnone : datagramMessages d = [] := if_neg htype
    refine ⟨_, receiveDatagram_level hd htype, ?_, ?_⟩
    · rw [hnone, List.append_nil]
      exact hR
    · cases hl : datagramLevel d with
      | none => exact .inl rfl
      | some level =>
        simp only
        split_ifs with h
        · exact .inr ⟨rfl, h.1, h.2⟩
        · exact .inl rfl

/-- The outcome is that of the bytes of the datagram. -/
theorem receiveDatagram_fresh (hd : d ≠ []) :
    receiveDatagram maxLevels buf d R = receiveDatagram maxLevels buf' d R := by
  by_cases htype : d[0]? = some typeCompletion
  · rw [receiveDatagram_completion hd htype, receiveDatagram_completion hd htype]
    congr 1
    have hread : ∀ (left i : ℕ) (rb : RingBuffer CompletionMessage),
        i + left ≤ (min d.length packetSize - 1) / messageSize →
        receiveMessages (fill buf d) left i rb = receiveMessages (fill buf' d) left i rb := by
      intro left
      induction left with
      | zero => exact fun _ _ _ => rfl
      | succ left ih =>
        intro i rb hle
        have hmul : (i + 1) * messageSize ≤ min d.length packetSize - 1 :=
          (Nat.mul_le_mul_right _ (by omega)).trans (Nat.div_mul_le_self _ _)
        rw [Nat.succ_mul] at hmul
        have hmsg : readMessage (fill buf d) (1 + i * messageSize) =
            readMessage (fill buf' d) (1 + i * messageSize) :=
          readMessage_congr fun b hb => by rw [fill_get (by omega), fill_get (by omega)]
        rw [receiveMessages, receiveMessages, hmsg]
        congr 1
        funext rb₁
        exact ih _ _ (by omega)
    exact hread _ _ _ (Nat.zero_add _).le
  · rw [receiveDatagram_level hd htype, receiveDatagram_level hd htype]

/-! ## A datagram without bytes -/

/-- With a completion's type byte left in the buffer, the loop does not end. -/
theorem receiveDatagram_nil_spins (hR : Holds R.incoming messageQueueSize k l)
    (hstale : buf 0 = typeCompletion) : receiveDatagram maxLevels buf [] R = none := by
  have hfill : fill buf [] 0 = typeCompletion := hstale
  have hlen : (min ([] : List Byte).length packetSize + (2 ^ 64 - 1)) % 2 ^ 64 = 2 ^ 64 - 1 := rfl
  have hne : ¬(typeCompletion = typeCriticalityChange ∧ 2 ^ 64 - 1 = 4) := by
    rintro ⟨h, -⟩
    exact absurd h (by decide)
  have hmany : messageQueueSize < l.length + (2 ^ 64 - 1) / messageSize :=
    Nat.lt_add_left _ (by decide)
  rw [receiveDatagram, receivePacket, hlen, hfill, if_neg hne, if_pos rfl,
    receiveMessages_spins _ hR hmany]
  rfl

/-- With another type's, it passes. -/
theorem receiveDatagram_nil_passes (hstale : buf 0 ≠ typeCompletion) :
    receiveDatagram maxLevels buf [] R = some R := by
  have hfill : ¬ fill buf [] 0 = typeCompletion := hstale
  have hlen : (min ([] : List Byte).length packetSize + (2 ^ 64 - 1)) % 2 ^ 64 = 2 ^ 64 - 1 := rfl
  rw [receiveDatagram, receivePacket, hlen, if_neg (fun h => absurd h.2 (by decide)), if_neg hfill]

/-- What is left in the buffer decides. -/
theorem Handled.ne_nil (hR : Holds R.incoming messageQueueSize k l) (h : Handled maxLevels buf d R k l) :
    d ≠ [] := by
  rintro rfl
  have hspins : receiveDatagram maxLevels (fun _ => typeCompletion) [] R = none :=
    receiveDatagram_nil_spins hR rfl
  have hpasses : receiveDatagram maxLevels (fun _ => 0) [] R = some R :=
    receiveDatagram_nil_passes (by decide)
  rw [h.fresh, ← h.fresh fun _ => 0, hpasses] at hspins
  cases hspins

/-! ## A call -/

/-- The datagrams of a call, when none is empty and their messages fit -/
theorem ipcReceive_spec (maxLevels : ℕ) (buf : ℕ → Byte)
    (hR : Holds R.incoming messageQueueSize k l) (hd : ∀ d ∈ ds, d ≠ [])
    (hfit : l.length + (ds.flatMap datagramMessages).length ≤ messageQueueSize) :
    ∃ R', ipcReceiveCompletionMessages maxLevels buf ds R = some R' ∧
      Holds R'.incoming messageQueueSize k (l ++ ds.flatMap datagramMessages) := by
  induction ds generalizing buf R l with
  | nil => exact ⟨R, rfl, by rw [List.flatMap_nil, List.append_nil]; exact hR⟩
  | cons d ds ih =>
    rw [List.flatMap_cons, List.length_append] at hfit
    obtain ⟨R₁, hone, h₁, -⟩ := receiveDatagram_spec maxLevels buf hR
      (hd d List.mem_cons_self) (by omega)
    obtain ⟨R', hrest, h'⟩ := @ih R₁ _ (fill buf d) h₁ (fun e he => hd e (List.mem_cons_of_mem _ he))
      (by rw [List.length_append]; omega)
    refine ⟨R', ?_, ?_⟩
    · rw [ipcReceive_cons, hone]
      exact hrest
    · rw [List.flatMap_cons, ← List.append_assoc]
      exact h'

/-- **A call handles every datagram by its own bytes alone, and returns, iff**
    none is empty and the queue has room for all messages. -/
theorem callSafe_iff (hR : Holds R.incoming messageQueueSize k l) (maxLevels : ℕ) (junk : ℕ → Byte)
    (ds : List (List Byte)) : CallSafe maxLevels junk ds R k l ↔
      (∀ d ∈ ds, d ≠ []) ∧ l.length + (ds.flatMap datagramMessages).length ≤ messageQueueSize := by
  constructor
  · intro h
    refine ⟨?_, ?_⟩
    · intro d hd
      obtain ⟨before, after, hds⟩ := List.append_of_mem hd
      obtain ⟨R₁, -, h₁, hhandled⟩ := h.each before d after hds
      exact hhandled.ne_nil h₁
    · obtain ⟨R', -, h'⟩ := h.returns
      rw [← List.length_append]
      exact h'.le
  · rintro ⟨hd, hfit⟩
    refine ⟨?_, ipcReceive_spec maxLevels junk hR hd hfit⟩
    rintro before d after rfl
    rw [List.flatMap_append, List.flatMap_cons, List.length_append, List.length_append] at hfit
    obtain ⟨R₁, hbefore, h₁⟩ := ipcReceive_spec maxLevels junk hR
      (fun e he => hd e (List.mem_append_left _ he)) (by omega)
    have hne : d ≠ [] := hd d (List.mem_append_right _ List.mem_cons_self)
    refine ⟨R₁, hbefore, h₁, fun _ => receiveDatagram_fresh hne, ?_⟩
    exact receiveDatagram_spec maxLevels _ h₁ hne (by rw [List.length_append]; omega)

/-- A processor at level 0 with an empty queue -/
def Receiver.empty : Receiver := ⟨⟨0, 0, fun i => i, messageQueueSize, fun _ => ⟨0, 0, 0⟩⟩, 0⟩

theorem Receiver.empty_holds : Holds Receiver.empty.incoming messageQueueSize 0 [] :=
  Holds.init (by decide)

/-- A completion datagram without messages, and then an empty datagram -/
theorem empty_datagram_spins : Holds Receiver.empty.incoming messageQueueSize 0 [] ∧
    ipcReceiveCompletionMessages 3 (fun _ => 0) [[typeCompletion], []] .empty = none ∧
    ¬ CallSafe 3 (fun _ => 0) [[typeCompletion], []] .empty 0 [] := by
  have hone : receiveDatagram 3 (fun _ => 0) [typeCompletion] .empty = some .empty := rfl
  have hspins : ipcReceiveCompletionMessages 3 (fun _ => 0) [[typeCompletion], []] .empty = none := by
    rw [ipcReceive_cons, hone, Option.bind_some, ipcReceive_cons,
      receiveDatagram_nil_spins Receiver.empty_holds rfl, Option.bind_none]
  refine ⟨Receiver.empty_holds, hspins, fun h => ?_⟩
  obtain ⟨R', hR', -⟩ := h.returns
  rw [hspins] at hR'
  cases hR'

theorem callSafe_iff_three : CallSafe 3 (fun _ => 0)
    [[typeCriticalityChange, 1, 0, 0, 0], [typeCompletion, 7, 0, 0, 0, 10, 0, 0, 0, 12, 0, 0, 0], [0]]
    .empty 0 [] :=
  (callSafe_iff Receiver.empty_holds 3 _ _).2 ⟨by decide, by decide⟩

end EeftSched.Ipc

/-
  Completion packets (`ipc.h`, `ipc.c`).

  `ipc_send_completion_messages` packs what is in the outgoing queue into one
  packet, a type byte and the messages as they are in memory;
  `ipc_receive_completion_messages` unpacks every packet that waits at the
  socket.  Both queues are ring buffers used by the timer thread alone.

  * `packet_round_trip`: what one side packs, the other side unpacks, in order,
    wherever the two buffers wrap.
-/
import EeftSched.RingQueue

namespace EeftSched.Ipc

open Mpmc

/-- `MESSAGE_QUEUE_SIZE` -/
def messageQueueSize : ℕ := 64

/-- `completion_message` -/
structure CompletionMessage where
  completedTaskId : BitVec 32
  jobArrivalTime : BitVec 32
  systemTime : BitVec 32
  deriving DecidableEq

/-- `sizeof(completion_message)` -/
def messageSize : ℕ := 12

/-- `sizeof(packet_buf)` -/
def packetSize : ℕ := 1 + messageQueueSize * messageSize

abbrev Byte := BitVec 8

/-- `PACKET_TYPE_COMPLETION` -/
def typeCompletion : Byte := 0x01

/-- `PACKET_TYPE_CRITICALITY_CHANGE` -/
def typeCriticalityChange : Byte := 0x02

/-! ## Memory -/

/-- A `uint32_t` in memory, the low byte first -/
def wordBytes (w : BitVec 32) : List Byte :=
  [.ofNat 8 w.toNat, .ofNat 8 (w.toNat / 2 ^ 8), .ofNat 8 (w.toNat / 2 ^ 16), .ofNat 8 (w.toNat / 2 ^ 24)]

/-- The `uint32_t` at `off` -/
def readWord (mem : ℕ → Byte) (off : ℕ) : BitVec 32 :=
  .ofNat 32 ((mem off).toNat + 2 ^ 8 * (mem (off + 1)).toNat + 2 ^ 16 * (mem (off + 2)).toNat +
    2 ^ 24 * (mem (off + 3)).toNat)

def CompletionMessage.bytes (msg : CompletionMessage) : List Byte :=
  wordBytes msg.completedTaskId ++ wordBytes msg.jobArrivalTime ++ wordBytes msg.systemTime

/-- The `completion_message` at `off` -/
def readMessage (mem : ℕ → Byte) (off : ℕ) : CompletionMessage :=
  ⟨readWord mem off, readWord mem (off + 4), readWord mem (off + 8)⟩

/-- `memcpy(mem + off, src, ..)` -/
def memcpy (mem : ℕ → Byte) (off : ℕ) (src : List Byte) : ℕ → Byte :=
  fun i => if off ≤ i then src[i - off]?.getD (mem i) else mem i

/-! ## Sending -/

/-- The loop of `ipc_send_completion_messages`, from `num_msgs = n` on: the
    messages packed, the packet and the queue -/
def sendLoop : ℕ → ℕ → (ℕ → Byte) → RingBuffer CompletionMessage →
    ℕ × (ℕ → Byte) × RingBuffer CompletionMessage
  | 0, n, buf, rb => (n, buf, rb)
  | left + 1, n, buf, rb =>
    match ringBufferTryDequeue rb with
    | some (msg, rb) => sendLoop left (n + 1) (memcpy buf (1 + n * messageSize) msg.bytes) rb
    | none => (n, buf, rb)

/-- `ipc_send_completion_messages`: the packet, if one is sent, and the queue.
    `junk` is what is in `packet_buf` at first. -/
def ipcSendCompletionMessages (junk : ℕ → Byte) (outgoing : RingBuffer CompletionMessage) :
    Option (List Byte) × RingBuffer CompletionMessage :=
  let (numMsgs, buf, rb) := sendLoop messageQueueSize 0 (memcpy junk 0 [typeCompletion]) outgoing
  if 0 < numMsgs then
    (some ((List.range (1 + numMsgs * messageSize)).map buf), rb)
  else (none, rb)

/-! ## Receiving -/

structure Receiver where
  incoming : RingBuffer CompletionMessage
  systemCriticalityLevel : ℕ

/-- The messages `i`, `i + 1`, .. of a packet go to the queue; `none` if an
    enqueue spins. -/
def receiveMessages (buf : ℕ → Byte) : ℕ → ℕ → RingBuffer CompletionMessage →
    Option (RingBuffer CompletionMessage)
  | 0, _, rb => some rb
  | left + 1, i, rb =>
    (ringBufferEnqueue rb (readMessage buf (1 + i * messageSize))).bind (receiveMessages buf left (i + 1))

/-- One packet of `len` bytes in `packet_buf`; `payload_len` is a `size_t`. -/
def receivePacket (maxLevels : ℕ) (buf : ℕ → Byte) (len : ℕ) (R : Receiver) : Option Receiver :=
  let payloadLen := (len + (2 ^ 64 - 1)) % 2 ^ 64
  if buf 0 = typeCriticalityChange ∧ payloadLen = 4 then
    let newLevel := (readWord buf 1).toNat
    if newLevel > R.systemCriticalityLevel ∧ newLevel < maxLevels then
      some { R with systemCriticalityLevel := newLevel }
    else some R
  else if buf 0 = typeCompletion then
    (receiveMessages buf (payloadLen / messageSize) 0 R.incoming).map fun rb => { R with incoming := rb }
  else some R

/-- `ipc_receive_completion_messages`, with the packets that wait at the socket;
    `recvfrom` cuts a packet that does not fit. -/
def ipcReceiveCompletionMessages (maxLevels : ℕ) : (ℕ → Byte) → List (List Byte) → Receiver → Option Receiver
  | _, [], R => some R
  | buf, packet :: packets, R =>
    let buf := memcpy buf 0 (packet.take packetSize)
    (receivePacket maxLevels buf (min packet.length packetSize) R).bind
      (ipcReceiveCompletionMessages maxLevels buf packets)

/-! ## Bytes -/

variable {mem : ℕ → Byte} {off i : ℕ} {src : List Byte}

theorem memcpy_get {x : Byte} (h : src[i]? = some x) : memcpy mem off src (off + i) = x := by
  rw [memcpy, if_pos (Nat.le_add_right _ _), Nat.add_sub_cancel_left, h]
  rfl

theorem memcpy_below (h : i < off) : memcpy mem off src i = mem i := if_neg (not_le.2 h)

/-- The bytes of a word are the word. -/
theorem readWord_eq {w : BitVec 32} (h0 : mem off = .ofNat 8 w.toNat)
    (h1 : mem (off + 1) = .ofNat 8 (w.toNat / 2 ^ 8)) (h2 : mem (off + 2) = .ofNat 8 (w.toNat / 2 ^ 16))
    (h3 : mem (off + 3) = .ofNat 8 (w.toNat / 2 ^ 24)) : readWord mem off = w := by
  have hw := w.isLt
  refine BitVec.eq_of_toNat_eq ?_
  rw [readWord, h0, h1, h2, h3]
  simp only [BitVec.toNat_ofNat]
  omega

/-- A message lies at `off`. -/
def HasMessage (mem : ℕ → Byte) (off : ℕ) (msg : CompletionMessage) : Prop :=
  ∀ (b : ℕ) x, msg.bytes[b]? = some x → mem (off + b) = x

/-- The bytes of a message are the message. -/
theorem HasMessage.read {msg : CompletionMessage} (h : HasMessage mem off msg) :
    readMessage mem off = msg := by
  have h1 : readWord mem off = msg.completedTaskId :=
    readWord_eq (h 0 _ rfl) (h 1 _ rfl) (h 2 _ rfl) (h 3 _ rfl)
  have h2 : readWord mem (off + 4) = msg.jobArrivalTime :=
    readWord_eq (h 4 _ rfl) (h 5 _ rfl) (h 6 _ rfl) (h 7 _ rfl)
  have h3 : readWord mem (off + 8) = msg.systemTime :=
    readWord_eq (h 8 _ rfl) (h 9 _ rfl) (h 10 _ rfl) (h 11 _ rfl)
  rw [readMessage, h1, h2, h3]

theorem HasMessage.lt {msg : CompletionMessage} {b : ℕ} {x : Byte} (h : msg.bytes[b]? = some x) :
    b < messageSize := (List.getElem?_eq_some_iff.1 h).1

theorem HasMessage.congr {mem' : ℕ → Byte} {msg : CompletionMessage} (h : HasMessage mem off msg)
    (hm : ∀ i, off ≤ i → i < off + messageSize → mem' i = mem i) : HasMessage mem' off msg := by
  intro b x hb
  have hlt := HasMessage.lt hb
  rw [hm _ (Nat.le_add_right _ _) (by omega)]
  exact h b x hb

/-! ## The two loops -/

variable {rb : RingBuffer CompletionMessage} {k n : ℕ} {msgs : List CompletionMessage}

theorem size_dvd : messageQueueSize ∣ wrap := by decide

/-- The send loop packs what the queue holds, from message `n` on. -/
theorem sendLoop_holds : ∀ (msgs : List CompletionMessage) (left n : ℕ) (buf : ℕ → Byte) {k : ℕ}
    {rb : RingBuffer CompletionMessage}, Holds rb messageQueueSize k msgs → msgs.length ≤ left →
    ∃ buf' rb', sendLoop left n buf rb = (n + msgs.length, buf', rb') ∧
      Holds rb' messageQueueSize (k + msgs.length) [] ∧ (∀ i < 1 + n * messageSize, buf' i = buf i) ∧
      ∀ (i : ℕ) msg, msgs[i]? = some msg → HasMessage buf' (1 + (n + i) * messageSize) msg
  | [], left, n, buf, k, rb, h, _ => by
    refine ⟨buf, rb, ?_, h, fun _ _ => rfl, nofun⟩
    cases left with
    | zero => rfl
    | succ left => rw [sendLoop, h.tryDequeue_nil (.inl size_dvd) (by decide)]; rfl
  | m :: msgs, 0, n, buf, k, rb, h, hle => absurd hle (Nat.not_succ_le_zero _)
  | m :: msgs, left + 1, n, buf, k, rb, h, hle => by
    obtain ⟨rb₁, hdeq, h₁⟩ := h.tryDequeue (.inl size_dvd)
    have hlen : m.bytes.length = messageSize := rfl
    obtain ⟨buf', rb', hloop, h', hbelow, hmsgs⟩ := sendLoop_holds msgs left (n + 1)
      (memcpy buf (1 + n * messageSize) m.bytes) h₁ (Nat.le_of_succ_le_succ hle)
    refine ⟨buf', rb', ?_, ?_, ?_, ?_⟩
    · rw [sendLoop, hdeq]
      show sendLoop left (n + 1) _ rb₁ = _
      rw [hloop, List.length_cons, Nat.add_right_comm n, ← Nat.add_assoc]
    · rw [List.length_cons, Nat.add_comm msgs.length, ← Nat.add_assoc]
      exact h'
    · intro i hi
      rw [hbelow i (by rw [Nat.succ_mul]; omega), memcpy_below hi]
    · intro i msg hi
      cases i with
      | zero =>
        obtain rfl := Option.some.inj hi
        intro b x hb
        have hlt := HasMessage.lt hb
        rw [Nat.add_zero, hbelow _ (by rw [Nat.succ_mul]; omega), memcpy_get hb]
      | succ i =>
        have hm := hmsgs i msg hi
        rw [Nat.add_assoc, Nat.add_comm 1 i] at hm
        exact hm

/-- The receive loop puts the messages of a packet, from number `i` on, behind
    what the queue holds. -/
theorem receiveMessages_holds {buf : ℕ → Byte} : ∀ (msgs : List CompletionMessage) {i : ℕ}
    {l : List CompletionMessage} {rb : RingBuffer CompletionMessage}, Holds rb messageQueueSize k l →
    l.length + msgs.length ≤ messageQueueSize →
    (∀ (j : ℕ) msg, msgs[j]? = some msg → HasMessage buf (1 + (i + j) * messageSize) msg) →
    ∃ rb', receiveMessages buf msgs.length i rb = some rb' ∧ Holds rb' messageQueueSize k (l ++ msgs)
  | [], i, l, rb, h, _, _ => ⟨rb, rfl, by rw [List.append_nil]; exact h⟩
  | m :: msgs, i, l, rb, h, hle, hbuf => by
    rw [List.length_cons] at hle
    obtain ⟨rb₁, henq, h₁⟩ := h.enqueue (.inl size_dvd) (by omega) m
    have hread : readMessage buf (1 + i * messageSize) = m := (hbuf 0 m rfl).read
    have hlen : (l ++ [m]).length = l.length + 1 := List.length_append
    obtain ⟨rb', hloop, h'⟩ := receiveMessages_holds msgs (i := i + 1) h₁ (by omega) (by
      intro j msg hj
      have hm := hbuf (j + 1) msg hj
      rw [Nat.add_comm j, ← Nat.add_assoc] at hm
      exact hm)
    refine ⟨rb', ?_, ?_⟩
    · rw [List.length_cons, receiveMessages, hread, henq]
      exact hloop
    · rw [List.append_cons]
      exact h'

/-- One completion packet that is delivered whole. -/
theorem receivePacket_holds (maxLevels : ℕ) (buf : ℕ → Byte) {R : Receiver}
    (h : Holds R.incoming messageQueueSize k []) (hle : msgs.length ≤ messageQueueSize)
    (htype : buf 0 = typeCompletion)
    (hbuf : ∀ (i : ℕ) msg, msgs[i]? = some msg → HasMessage buf (1 + i * messageSize) msg) :
    ∃ incoming, receivePacket maxLevels buf (1 + msgs.length * messageSize) R = some { R with incoming } ∧
      Holds incoming messageQueueSize k msgs := by
  have hpayload : (1 + msgs.length * messageSize + (2 ^ 64 - 1)) % 2 ^ 64 = msgs.length * messageSize := by
    have hlt : msgs.length * messageSize ≤ messageQueueSize * messageSize := Nat.mul_le_mul_right _ hle
    have hmax : messageQueueSize * messageSize = 768 := rfl
    omega
  obtain ⟨rb, hloop, hrb⟩ := receiveMessages_holds msgs (i := 0) h (by rw [List.length_nil]; omega) (by
    intro j msg hj
    rw [Nat.zero_add]
    exact hbuf j msg hj)
  refine ⟨rb, ?_, hrb⟩
  have hne : ¬(typeCompletion = typeCriticalityChange ∧ msgs.length * messageSize = 4) := by
    rintro ⟨h, -⟩
    exact absurd h (by decide)
  rw [receivePacket, hpayload, htype, if_neg hne, if_pos rfl,
    Nat.mul_div_cancel _ (show 0 < messageSize by decide), hloop]
  rfl

/-- **Completion packets round-trip.**  The packet that is sent holds the
    messages of the outgoing queue; delivered to a processor with an empty
    incoming queue, it puts them there, in order, and changes nothing else.
    With no message, nothing is sent. -/
theorem packet_round_trip {outgoing : RingBuffer CompletionMessage} {msgs : List CompletionMessage}
    {R : Receiver} {k l maxLevels : ℕ} (hout : Holds outgoing messageQueueSize k msgs)
    (hin : Holds R.incoming messageQueueSize l []) (junk junk' : ℕ → Byte) :
    Holds (ipcSendCompletionMessages junk outgoing).2 messageQueueSize (k + msgs.length) [] ∧
      (msgs = [] → (ipcSendCompletionMessages junk outgoing).1 = none) ∧
        (msgs ≠ [] → ∃ packet incoming, (ipcSendCompletionMessages junk outgoing).1 = some packet ∧
          packet.length ≤ packetSize ∧
          ipcReceiveCompletionMessages maxLevels junk' [packet] R = some { R with incoming } ∧
          Holds incoming messageQueueSize l msgs) := by
  obtain ⟨buf, rb, hloop, hrb, hbelow, hmsgs⟩ := sendLoop_holds msgs messageQueueSize 0
    (memcpy junk 0 [typeCompletion]) hout hout.le
  rw [Nat.zero_add] at hloop
  have hsend : ipcSendCompletionMessages junk outgoing =
      if 0 < msgs.length then
        (some ((List.range (1 + msgs.length * messageSize)).map buf), rb)
      else (none, rb) := by
    rw [ipcSendCompletionMessages, hloop]
  rw [hsend]
  refine ⟨?_, ?_, ?_⟩
  · split_ifs <;> exact hrb
  · rintro rfl
    rfl
  · intro hne
    have hfits : 1 + msgs.length * messageSize ≤ packetSize :=
      Nat.add_le_add_left (Nat.mul_le_mul_right _ hout.le) 1
    rw [if_pos (List.length_pos_iff.2 hne)]
    have hlen : ((List.range (1 + msgs.length * messageSize)).map buf).length =
        1 + msgs.length * messageSize := by rw [List.length_map, List.length_range]
    -- what arrives in `packet_buf` is what was sent
    have hrecv : ∀ i < 1 + msgs.length * messageSize,
        memcpy junk' 0 ((List.range (1 + msgs.length * messageSize)).map buf) i = buf i := by
      intro i hi
      have hget : ((List.range (1 + msgs.length * messageSize)).map buf)[i]? = some (buf i) := by
        rw [List.getElem?_map, List.getElem?_range hi]
        rfl
      rw [← Nat.zero_add i, memcpy_get hget, Nat.zero_add]
    obtain ⟨incoming, hpacket, hincoming⟩ := receivePacket_holds maxLevels
      (memcpy junk' 0 ((List.range (1 + msgs.length * messageSize)).map buf)) hin hout.le
      (by rw [hrecv 0 (by omega), hbelow 0 (by omega)]; rfl) (by
        intro i msg hi
        have hm := hmsgs i msg hi
        rw [Nat.zero_add] at hm
        refine hm.congr fun j _ hj => hrecv j ?_
        have hlt : i + 1 ≤ msgs.length := (List.getElem?_eq_some_iff.1 hi).1
        have := Nat.mul_le_mul_right messageSize hlt
        rw [Nat.succ_mul] at this
        omega)
    refine ⟨_, incoming, rfl, hlen.trans_le hfits, ?_, hincoming⟩
    rw [ipcReceiveCompletionMessages, List.take_of_length_le (hlen.trans_le hfits), hlen,
      Nat.min_eq_left hfits, hpacket]
    rfl

theorem packet_round_trip_two : ∃ (outgoing incoming : RingBuffer CompletionMessage) (packet : List Byte),
    (ipcSendCompletionMessages (fun _ => 0) outgoing).1 = some packet ∧
      ipcReceiveCompletionMessages 3 (fun _ => 0) [packet]
        ⟨⟨0, 0, fun i => i, messageQueueSize, fun _ => ⟨0, 0, 0⟩⟩, 0⟩ = some ⟨incoming, 0⟩ ∧
      Holds incoming messageQueueSize 0 [⟨7, 100, 107⟩, ⟨9, 100, 107⟩] := by
  have hempty : Holds ⟨0, 0, fun i => i, messageQueueSize, fun _ => ⟨0, 0, 0⟩⟩ messageQueueSize 0
      ([] : List CompletionMessage) := Holds.init (by decide)
  obtain ⟨rb₁, -, h₁⟩ := hempty.enqueue (.inl size_dvd) (by decide) ⟨7, 100, 107⟩
  obtain ⟨rb₂, -, h₂⟩ := h₁.enqueue (.inl size_dvd) (by decide) ⟨9, 100, 107⟩
  obtain ⟨-, -, h⟩ := packet_round_trip (R := ⟨_, 0⟩) h₂ hempty (fun _ => 0) (fun _ => 0)
  obtain ⟨packet, incoming, hsend, -, hrecv, hincoming⟩ := h nofun
  exact ⟨rb₂, incoming, packet, hsend, hrecv, hincoming⟩

end EeftSched.Ipc

import Mathlib.Data.Nat.Digits.Lemmas
import Psn.Lib.Cells
import Psn.Lib.CallOutcome
import Psn.Mosquitto

/-!
# Packets of the broker protocol

A packet is a command byte, the length of what follows, and that many bytes. The length is written
in base 128, lowest digit first, with the top bit set on every digit but the last, and may have up
to four digits. The functions that send a packet allocate it at its full length, put the first part
there and then write field by field behind it.

`frame` says what the bytes of a packet are. Every function below that builds a packet comes to it,
which means that each field has the place that the length accounts for: nothing is written outside
the buffer, and no byte goes out that was not written.

## Main definitions

* `MosqPacket`: `struct _mosquitto_packet`
* `packetAlloc`, `MosqPacket.writeByte`, `writeBytes`, `writeUint16`, `writeString`
* `sendRealPublish`, `sendCommandWithMid`, `sendSimpleCommand`, `sendSubscribe`
* `frame`: the bytes of a packet

## Main results

* `remainingBytes_eq`: the length in base 128
* `packetAlloc_eq`, `writeBytes_fill`: building a packet
* `sendRealPublish_eq` and its like: what the senders build
-/

namespace Psn

/-! ### The structure -/

/-- `struct _mosquitto_packet`, without its link. -/
structure MosqPacket where
  /-- `command`. -/
  command : UInt8
  /-- `have_remaining`. -/
  haveRemaining : Bool
  /-- `remaining_count`. -/
  remainingCount : ℕ
  /-- `mid`. -/
  mid : UInt16
  /-- `remaining_mult`. -/
  remainingMult : ℕ
  /-- `remaining_length`. -/
  remainingLength : ℕ
  /-- `packet_length`. -/
  packetLength : ℕ
  /-- `to_process`. -/
  toProcess : ℕ
  /-- `pos`. -/
  pos : ℕ
  /-- `payload`, which has no cells while it is `NULL`. -/
  payload : List (Option UInt8)
  deriving DecidableEq

/-- A packet from `calloc`. -/
def MosqPacket.calloc : MosqPacket := ⟨0, false, 0, 0, 0, 0, 0, 0, 0, []⟩

/-- `CONNECT`. -/
def connectCmd : UInt8 := 0x10
/-- `CONNACK`. -/
def connackCmd : UInt8 := 0x20
/-- `PUBLISH`. -/
def publishCmd : UInt8 := 0x30
/-- `PUBACK`. -/
def pubackCmd : UInt8 := 0x40
/-- `PUBREC`. -/
def pubrecCmd : UInt8 := 0x50
/-- `PUBREL`. -/
def pubrelCmd : UInt8 := 0x60
/-- `PUBCOMP`. -/
def pubcompCmd : UInt8 := 0x70
/-- `SUBSCRIBE`. -/
def subscribeCmd : UInt8 := 0x80
/-- `SUBACK`. -/
def subackCmd : UInt8 := 0x90
/-- `UNSUBACK`. -/
def unsubackCmd : UInt8 := 0xB0
/-- `PINGREQ`. -/
def pingreqCmd : UInt8 := 0xC0
/-- `PINGRESP`. -/
def pingrespCmd : UInt8 := 0xD0
/-- `DISCONNECT`. -/
def disconnectCmd : UInt8 := 0xE0

/-! ### The remaining length -/

/-- The loop of `_mosquitto_packet_alloc` that writes the remaining length: the digits it stores
with `count` places left in `remaining_bytes`. -/
def remainingBytes : ℕ → ℕ → List UInt8
  | 0, _ => []
  | count + 1, remainingLength =>
    if remainingLength / 128 > 0 then
      (UInt8.ofNat (remainingLength % 128) ||| 0x80) ::
        remainingBytes count (remainingLength / 128)
    else [UInt8.ofNat (remainingLength % 128)]

/-- The bytes of a number in base 128, with the top bit where more follow. -/
def base128 : List ℕ → List UInt8
  | [] => []
  | [d] => [UInt8.ofNat d]
  | d :: e :: ds => (UInt8.ofNat d ||| 0x80) :: base128 (e :: ds)

@[simp] theorem length_base128 (ds : List ℕ) : (base128 ds).length = ds.length := by
  induction ds using base128.induct with
  | case1 => rfl
  | case2 d => rfl
  | case3 d e ds ih => simp [base128, ih]

/-- The digits of a length, of which there is at least one. -/
def lengthDigits (n : ℕ) : List ℕ := if n = 0 then [0] else Nat.digits 128 n

theorem lengthDigits_of_lt {n : ℕ} (h : n < 128) : lengthDigits n = [n] := by
  by_cases hn : n = 0
  · simp [lengthDigits, hn]
  · rw [lengthDigits, if_neg hn, Nat.digits_of_lt 128 n hn h]

theorem lengthDigits_of_le {n : ℕ} (h : 128 ≤ n) :
    lengthDigits n = n % 128 :: lengthDigits (n / 128) := by
  have hn : n ≠ 0 := by omega
  have hdiv : n / 128 ≠ 0 := by omega
  rw [lengthDigits, lengthDigits, if_neg hn, if_neg hdiv,
    Nat.digits_def' (by omega) (by omega)]

theorem lengthDigits_ne_nil (n : ℕ) : lengthDigits n ≠ [] := by
  by_cases h : n < 128
  · simp [lengthDigits_of_lt h]
  · simp [lengthDigits_of_le (Nat.le_of_not_lt h)]

theorem lt_of_mem_lengthDigits {n d : ℕ} (h : d ∈ lengthDigits n) : d < 128 := by
  rw [lengthDigits] at h
  split at h
  · simp_all
  · exact Nat.digits_lt_base (by omega) h

theorem ofDigits_lengthDigits (n : ℕ) : Nat.ofDigits 128 (lengthDigits n) = n := by
  rw [lengthDigits]
  split
  · simp_all
  · exact Nat.ofDigits_digits 128 n

theorem length_lengthDigits_le_iff {n k : ℕ} :
    (lengthDigits n).length ≤ k + 1 ↔ n < 128 ^ (k + 1) := by
  rw [lengthDigits]
  split
  · rename_i hn
    simp [hn]
  · exact Nat.digits_length_le_iff (by omega) n

/-- **The length in base 128**, when there are enough places for it. -/
theorem remainingBytes_eq {k n : ℕ} (h : n < 128 ^ (k + 1)) :
    remainingBytes (k + 1) n = base128 (lengthDigits n) := by
  induction k generalizing n with
  | zero =>
    have hn : n < 128 := by omega
    rw [remainingBytes, if_neg (by omega), lengthDigits_of_lt hn, base128, Nat.mod_eq_of_lt hn]
  | succ k ih =>
    rw [remainingBytes]
    by_cases hn : n < 128
    · rw [if_neg (by omega), lengthDigits_of_lt hn, base128, Nat.mod_eq_of_lt hn]
    · have hle : 128 ≤ n := Nat.le_of_not_lt hn
      have hdiv : n / 128 < 128 ^ (k + 1) := by
        rw [Nat.div_lt_iff_lt_mul (by omega), ← Nat.pow_succ]
        exact h
      obtain ⟨d, ds, hds⟩ := List.exists_cons_of_ne_nil (lengthDigits_ne_nil (n / 128))
      rw [if_pos (by omega), ih hdiv, lengthDigits_of_le hle, hds, base128]

/-! ### Building a packet -/

/-- Which allocations of a send succeed. -/
structure SendIo where
  /-- That of the packet. -/
  packet : Bool
  /-- That of its payload. -/
  payload : Bool
  deriving DecidableEq, Repr

/-- `_mosquitto_packet_alloc`. -/
def packetAlloc (alloc : Bool) (packet : MosqPacket) : CallOutcome MosqErr MosqPacket :=
  let remaining := remainingBytes 5 packet.remainingLength
  let packetLength := packet.remainingLength + 1 + remaining.length
  if remaining.length = 5 then .error .payloadSize
  else if !alloc then .error .nomem
  else .ok { packet with
    remainingCount := remaining.length
    packetLength := packetLength
    payload := Cells.filled packetLength (packet.command :: remaining)
    pos := 1 + remaining.length }

/-- The allocation of a packet for a command, with its payload. -/
def newPacket (io : SendIo) (command : UInt8) (mid : UInt16) (remainingLength : ℕ) :
    CallOutcome MosqErr MosqPacket :=
  if !io.packet then .error .nomem
  else packetAlloc io.payload
    { MosqPacket.calloc with command := command, mid := mid, remainingLength := remainingLength }

namespace MosqPacket

/-- `_mosquitto_write_byte`, whose assertion keeps it inside the packet. -/
def writeByte (packet : MosqPacket) (byte : UInt8) : CallOutcome MosqErr MosqPacket :=
  if packet.pos + 1 ≤ packet.packetLength then
    (CallOutcome.ofOption (Cells.write packet.payload packet.pos [byte])) >>= fun payload =>
      .ok { packet with payload := payload, pos := packet.pos + 1 }
  else .undefined

/-- `_mosquitto_write_bytes`, which copies the first `count` of `bytes`. -/
def writeBytes (packet : MosqPacket) (bytes : Bytes) (count : ℕ) : CallOutcome MosqErr MosqPacket :=
  if packet.pos + count ≤ packet.packetLength ∧ count ≤ bytes.length then
    (CallOutcome.ofOption (Cells.write packet.payload packet.pos (bytes.take count))) >>=
      fun payload => .ok { packet with payload := payload, pos := packet.pos + count }
  else .undefined

/-- `MOSQ_MSB`. -/
def msb (word : UInt16) : UInt8 := UInt8.ofNat (word.toNat / 256)

/-- `MOSQ_LSB`. -/
def lsb (word : UInt16) : UInt8 := UInt8.ofNat (word.toNat % 256)

/-- `_mosquitto_write_uint16`. -/
def writeUint16 (packet : MosqPacket) (word : UInt16) : CallOutcome MosqErr MosqPacket :=
  (packet.writeByte (msb word)) >>= fun packet => packet.writeByte (lsb word)

/-- `_mosquitto_write_string`. -/
def writeString (packet : MosqPacket) (str : CStr) (length : UInt16) :
    CallOutcome MosqErr MosqPacket :=
  (packet.writeUint16 length) >>= fun packet => packet.writeBytes str length.toNat

theorem toNat_ofNat_length {str : CStr} (h : str.length ≤ 65535) :
    (UInt16.ofNat str.length).toNat = str.length :=
  UInt16.toNat_ofNat_of_lt' (Nat.lt_of_le_of_lt h (by decide))

/-- A word as it is sent, high byte first. -/
def wordBytes (word : UInt16) : Bytes := [msb word, lsb word]

/-- A string as it is sent, behind its length. -/
def stringBytes (str : CStr) : Bytes := wordBytes (UInt16.ofNat str.length) ++ str

@[simp] theorem length_wordBytes (word : UInt16) : (wordBytes word).length = 2 := rfl

@[simp] theorem length_stringBytes (str : CStr) : (stringBytes str).length = str.length + 2 := rfl

/-- The packet with its payload filled up to `pos`. -/
def fill (packet : MosqPacket) (bytes : Bytes) : MosqPacket :=
  { packet with payload := Cells.filled packet.packetLength bytes, pos := bytes.length }

variable {packet : MosqPacket} {done : Bytes}

@[simp] theorem packetLength_fill : (packet.fill done).packetLength = packet.packetLength := rfl

@[simp] theorem pos_fill : (packet.fill done).pos = done.length := rfl

@[simp] theorem payload_fill :
    (packet.fill done).payload = Cells.filled packet.packetLength done := rfl

theorem writeByte_fill (h : done.length < packet.packetLength) (byte : UInt8) :
    (packet.fill done).writeByte byte = .ok (packet.fill (done ++ [byte])) := by
  have hwrite : Cells.write (Cells.filled packet.packetLength done) done.length [byte] =
      some (Cells.filled packet.packetLength (done ++ [byte])) := Cells.write_filled h
  rw [writeByte, pos_fill, packetLength_fill, if_pos (Nat.succ_le_of_lt h), payload_fill, hwrite]
  simp [fill]

/-- **Writing behind what is there** keeps the packet filled up to `pos`. -/
theorem writeBytes_fill {bytes : Bytes} {count : ℕ}
    (h : done.length + count ≤ packet.packetLength) (hcount : count ≤ bytes.length) :
    (packet.fill done).writeBytes bytes count =
      .ok (packet.fill (done ++ bytes.take count)) := by
  have hlen : (bytes.take count).length = count := List.length_take_of_le hcount
  have hwrite : Cells.write (Cells.filled packet.packetLength done) done.length
      (bytes.take count) = some (Cells.filled packet.packetLength (done ++ bytes.take count)) :=
    Cells.write_filled (by omega)
  rw [writeBytes, pos_fill, packetLength_fill, if_pos ⟨h, hcount⟩, payload_fill, hwrite]
  simp [fill, hcount]

theorem writeUint16_fill (h : done.length + 2 ≤ packet.packetLength) (word : UInt16) :
    (packet.fill done).writeUint16 word =
      .ok (packet.fill (done ++ wordBytes word)) := by
  rw [writeUint16, writeByte_fill (by omega), CallOutcome.ok_bind,
    writeByte_fill (by rw [List.length_append, List.length_singleton]; omega),
    List.append_assoc, List.singleton_append, wordBytes]

theorem writeString_fill {str : CStr} {length : UInt16}
    (h : done.length + 2 + length.toNat ≤ packet.packetLength)
    (hlength : length.toNat ≤ str.length) :
    (packet.fill done).writeString str length =
      .ok (packet.fill (done ++ (wordBytes length ++ str.take length.toNat))) := by
  rw [writeString, writeUint16_fill (by omega), CallOutcome.ok_bind,
    writeBytes_fill (by rw [List.length_append]; simpa using h) hlength, List.append_assoc]

/-- A whole string behind what is there. -/
theorem writeString_fill_length {str : CStr} (hstr : str.length ≤ 65535)
    (h : done.length + 2 + str.length ≤ packet.packetLength) :
    (packet.fill done).writeString str (UInt16.ofNat str.length) =
      .ok (packet.fill (done ++ stringBytes str)) := by
  have hlength := toNat_ofNat_length hstr
  rw [writeString_fill (by omega) (by omega), hlength, List.take_length, stringBytes]

/-- A block of bytes behind what is there, which may be empty. -/
theorem writeBytes_fill_length {bytes : Bytes}
    (h : done.length + bytes.length ≤ packet.packetLength) :
    (if bytes.length ≠ 0 then (packet.fill done).writeBytes bytes bytes.length
      else .ok (packet.fill done)) = .ok (packet.fill (done ++ bytes)) := by
  split
  · rw [writeBytes_fill h (Nat.le_refl _), List.take_length]
  · rename_i hzero
    have hnil : bytes = [] := by simpa using hzero
    rw [hnil, List.append_nil]

end MosqPacket

/-! ### The senders -/

/-- `_mosquitto_send_real_publish`, up to the packet that it queues. -/
def sendRealPublish (io : SendIo) (mid : UInt16) (topic : CStr) (payloadlen : ℕ)
    (payload : Bytes) (qos : ℕ) (retain dup : Bool) : CallOutcome MosqErr MosqPacket :=
  newPacket io
      (UInt8.ofNat (publishCmd.toNat ||| dup.toNat <<< 3 ||| qos <<< 1 ||| retain.toNat)) mid
      ((2 + topic.length + payloadlen + if qos > 0 then 2 else 0) % 4294967296) >>= fun packet =>
  packet.writeString topic (UInt16.ofNat topic.length) >>= fun packet =>
  (if qos > 0 then packet.writeUint16 mid else .ok packet) >>= fun packet =>
  if payloadlen ≠ 0 then packet.writeBytes payload payloadlen else .ok packet

/-- `_mosquitto_send_command_with_mid`, up to the packet that it queues. -/
def sendCommandWithMid (io : SendIo) (command : UInt8) (mid : UInt16) (dup : Bool) :
    CallOutcome MosqErr MosqPacket :=
  newPacket io (if dup then command ||| 8 else command) 0 2 >>= fun packet =>
  (CallOutcome.ofOption (Cells.write packet.payload packet.pos [MosqPacket.msb mid])) >>=
    fun payload =>
  (CallOutcome.ofOption (Cells.write payload (packet.pos + 1) [MosqPacket.lsb mid])) >>=
    fun payload =>
  .ok { packet with payload := payload }

/-- `_mosquitto_send_simple_command`, up to the packet that it queues. -/
def sendSimpleCommand (io : SendIo) (command : UInt8) : CallOutcome MosqErr MosqPacket :=
  newPacket io command 0 0

/-- `_mosquitto_send_subscribe` with the message id that it generates, up to the packet that it
queues. -/
def sendSubscribe (io : SendIo) (mid : UInt16) (dup : Bool) (topic : CStr) (topicQos : UInt8) :
    CallOutcome MosqErr MosqPacket :=
  newPacket io (UInt8.ofNat (subscribeCmd.toNat ||| dup.toNat <<< 3 ||| 1 <<< 1)) 0
      ((2 + 2 + topic.length + 1) % 4294967296) >>= fun packet =>
  packet.writeUint16 mid >>= fun packet =>
  packet.writeString topic (UInt16.ofNat topic.length) >>= fun packet =>
  packet.writeByte topicQos

/-! ### What they build -/

/-- A command with what follows it. -/
structure Frame where
  /-- The command byte. -/
  command : UInt8
  /-- The rest of the packet, without its length. -/
  body : Bytes
  deriving DecidableEq

/-- What stands before the body: the command and the length. -/
def Frame.head (f : Frame) : Bytes := f.command :: base128 (lengthDigits f.body.length)

/-- The bytes of a packet. -/
def frame (f : Frame) : Bytes := f.head ++ f.body

/-- A command that is not zero, with no more behind it than four digits can say. -/
def Frame.WellFormed (f : Frame) : Prop := f.command ≠ 0 ∧ f.body.length < 128 ^ 4

/-- The packet holds the bytes of `f`, all of them and no others. -/
structure MosqPacket.Carries (packet : MosqPacket) (f : Frame) : Prop where
  command_eq : packet.command = f.command
  payload_eq : packet.payload = (frame f).map some
  packetLength_eq : packet.packetLength = (frame f).length

/-- A packet that is filled with a frame and has room for it only. -/
theorem MosqPacket.carries_fill {packet : MosqPacket} {f : Frame}
    (hcommand : packet.command = f.command)
    (hlength : packet.packetLength = (frame f).length) : (packet.fill (frame f)).Carries f :=
  ⟨hcommand, Cells.filled_of_length hlength.symm, hlength⟩

/-- **A packet is allocated for a frame**: it is filled with the head, and has room for the body. -/
theorem newPacket_eq (f : Frame) (mid : UInt16) (h : f.body.length < 128 ^ 4) :
    ∃ packet : MosqPacket, newPacket ⟨true, true⟩ f.command mid f.body.length =
        .ok (packet.fill f.head) ∧
      packet.mid = mid ∧ packet.command = f.command ∧ packet.packetLength = (frame f).length := by
  have hremaining : remainingBytes 5 f.body.length = base128 (lengthDigits f.body.length) :=
    remainingBytes_eq (Nat.lt_of_lt_of_le h (by decide))
  have hcount : (base128 (lengthDigits f.body.length)).length ≠ 5 := by
    have := length_lengthDigits_le_iff.mpr h
    rw [length_base128]
    omega
  refine ⟨{ MosqPacket.calloc with
      command := f.command, mid := mid, remainingLength := f.body.length
      remainingCount := (base128 (lengthDigits f.body.length)).length
      packetLength := f.body.length + 1 + (base128 (lengthDigits f.body.length)).length },
    ?_, rfl, rfl, ?_⟩
  · rw [newPacket, if_neg (by simp), packetAlloc]
    simp only [hremaining, if_neg hcount]
    simp [MosqPacket.fill, Frame.head, Nat.add_comm 1]
  · simp only [frame, Frame.head, List.length_append, List.length_cons]
    omega

/-- The frame of a publish. -/
def publishFrame (mid : UInt16) (topic : CStr) (payload : Bytes) (qos : ℕ) (retain dup : Bool) :
    Frame :=
  ⟨UInt8.ofNat (publishCmd.toNat ||| dup.toNat <<< 3 ||| qos <<< 1 ||| retain.toNat),
    MosqPacket.stringBytes topic ++ ((if qos > 0 then MosqPacket.wordBytes mid else []) ++ payload)⟩

/-- The frame of a command that has a message id only. -/
def midFrame (command : UInt8) (mid : UInt16) (dup : Bool) : Frame :=
  ⟨if dup then command ||| 8 else command, MosqPacket.wordBytes mid⟩

/-- The frame of a subscription. -/
def subscribeFrame (mid : UInt16) (dup : Bool) (topic : CStr) (topicQos : UInt8) : Frame :=
  ⟨UInt8.ofNat (subscribeCmd.toNat ||| dup.toNat <<< 3 ||| 1 <<< 1),
    MosqPacket.wordBytes mid ++ (MosqPacket.stringBytes topic ++ [topicQos])⟩

theorem length_publishFrame (mid : UInt16) (topic : CStr) (payload : Bytes) (qos : ℕ)
    (retain dup : Bool) :
    (publishFrame mid topic payload qos retain dup).body.length =
      2 + topic.length + payload.length + if qos > 0 then 2 else 0 := by
  rw [publishFrame]
  split <;> simp <;> omega

/-- **A publish is built as its frame**, with nothing written outside it. -/
theorem sendRealPublish_carries {mid : UInt16} {topic : CStr} {payload : Bytes} {qos : ℕ}
    {retain dup : Bool} (htopic : topic.length ≤ 65535)
    (hlen : (publishFrame mid topic payload qos retain dup).body.length < 128 ^ 4) :
    ∃ packet, sendRealPublish ⟨true, true⟩ mid topic payload.length payload qos retain dup =
        .ok packet ∧
      packet.mid = mid ∧ packet.Carries (publishFrame mid topic payload qos retain dup) := by
  obtain ⟨packet, hnew, hmid, hcommand, hlength⟩ := newPacket_eq _ mid hlen
  have hbody := length_publishFrame mid topic payload qos retain dup
  have hmod : (2 + topic.length + payload.length + if qos > 0 then 2 else 0) % 4294967296 =
      (publishFrame mid topic payload qos retain dup).body.length := by
    rw [hbody] at hlen ⊢
    exact Nat.mod_eq_of_lt (Nat.lt_of_lt_of_le hlen (by decide))
  have hroom : packet.packetLength =
      (publishFrame mid topic payload qos retain dup).head.length +
        (2 + topic.length + payload.length + if qos > 0 then 2 else 0) := by
    rw [hlength, frame, List.length_append, hbody]
  refine ⟨packet.fill (frame (publishFrame mid topic payload qos retain dup)), ?_, hmid,
    packet.carries_fill hcommand hlength⟩
  have hcommand' : UInt8.ofNat (publishCmd.toNat ||| dup.toNat <<< 3 ||| qos <<< 1 |||
      retain.toNat) = (publishFrame mid topic payload qos retain dup).command := rfl
  rw [sendRealPublish, hmod, hcommand', hnew, CallOutcome.ok_bind,
    MosqPacket.writeString_fill_length htopic (by omega), CallOutcome.ok_bind]
  by_cases hqos : qos > 0
  · rw [if_pos hqos] at hroom
    rw [if_pos hqos, MosqPacket.writeUint16_fill (by simp; omega), CallOutcome.ok_bind,
      MosqPacket.writeBytes_fill_length (by simp; omega), frame, publishFrame, if_pos hqos]
    simp
  · rw [if_neg hqos] at hroom
    rw [if_neg hqos, CallOutcome.ok_bind, MosqPacket.writeBytes_fill_length (by simp; omega), frame,
      publishFrame, if_neg hqos]
    simp

/-- A command with a message id is built as its frame. -/
theorem sendCommandWithMid_carries (command : UInt8) (mid : UInt16) (dup : Bool) :
    ∃ packet, sendCommandWithMid ⟨true, true⟩ command mid dup = .ok packet ∧
      packet.Carries (midFrame command mid dup) := by
  obtain ⟨packet, hnew, -, hcommand, hlength⟩ :=
    newPacket_eq (midFrame command mid dup) 0 (by simp [midFrame])
  have hroom : packet.packetLength = (midFrame command mid dup).head.length + 2 := by
    rw [hlength, frame, List.length_append]
    rfl
  have hmsb : Cells.write (Cells.filled packet.packetLength (midFrame command mid dup).head)
      (midFrame command mid dup).head.length [MosqPacket.msb mid] =
      some (Cells.filled packet.packetLength
        ((midFrame command mid dup).head ++ [MosqPacket.msb mid])) :=
    Cells.write_filled (by simp; omega)
  have hlsb : Cells.write (Cells.filled packet.packetLength
      ((midFrame command mid dup).head ++ [MosqPacket.msb mid]))
      ((midFrame command mid dup).head ++ [MosqPacket.msb mid]).length [MosqPacket.lsb mid] =
      some (Cells.filled packet.packetLength
        ((midFrame command mid dup).head ++ [MosqPacket.msb mid] ++ [MosqPacket.lsb mid])) :=
    Cells.write_filled (by simp; omega)
  rw [List.length_append, List.length_singleton, List.append_assoc] at hlsb
  have hnew' : newPacket ⟨true, true⟩ (if dup then command ||| 8 else command) 0 2 =
      .ok (packet.fill (midFrame command mid dup).head) := hnew
  rw [sendCommandWithMid, hnew', CallOutcome.ok_bind, MosqPacket.payload_fill, MosqPacket.pos_fill,
    hmsb, CallOutcome.ofOption_some, CallOutcome.ok_bind, hlsb, CallOutcome.ofOption_some,
    CallOutcome.ok_bind]
  exact ⟨_, rfl, hcommand, Cells.filled_of_length hlength.symm, hlength⟩

/-- A command with nothing behind it is built as its frame. -/
theorem sendSimpleCommand_carries (command : UInt8) :
    ∃ packet, sendSimpleCommand ⟨true, true⟩ command = .ok packet ∧
      packet.Carries ⟨command, []⟩ := by
  obtain ⟨packet, hnew, -, hcommand, hlength⟩ :=
    newPacket_eq ⟨command, []⟩ 0 (by simp)
  have hhead : (Frame.head ⟨command, []⟩) = frame ⟨command, []⟩ := by simp [frame]
  rw [hhead] at hnew
  exact ⟨_, hnew, packet.carries_fill hcommand hlength⟩

/-- A subscription is built as its frame. -/
theorem sendSubscribe_carries {mid : UInt16} {dup : Bool} {topic : CStr} {topicQos : UInt8}
    (htopic : topic.length ≤ 65535) :
    ∃ packet, sendSubscribe ⟨true, true⟩ mid dup topic topicQos = .ok packet ∧
      packet.Carries (subscribeFrame mid dup topic topicQos) := by
  have hbody : (subscribeFrame mid dup topic topicQos).body.length = 2 + 2 + topic.length + 1 := by
    simp [subscribeFrame]
    omega
  obtain ⟨packet, hnew, -, hcommand, hlength⟩ :=
    newPacket_eq (subscribeFrame mid dup topic topicQos) 0 (by rw [hbody]; omega)
  have hmod : (2 + 2 + topic.length + 1) % 4294967296 =
      (subscribeFrame mid dup topic topicQos).body.length := by
    rw [hbody]
    exact Nat.mod_eq_of_lt (by omega)
  have hroom : packet.packetLength =
      (subscribeFrame mid dup topic topicQos).head.length + (2 + 2 + topic.length + 1) := by
    rw [hlength, frame, List.length_append, hbody]
  have hcommand' : UInt8.ofNat (subscribeCmd.toNat ||| dup.toNat <<< 3 ||| 1 <<< 1) =
      (subscribeFrame mid dup topic topicQos).command := rfl
  refine ⟨packet.fill (frame (subscribeFrame mid dup topic topicQos)), ?_,
    packet.carries_fill hcommand hlength⟩
  rw [sendSubscribe, hmod, hcommand', hnew, CallOutcome.ok_bind,
    MosqPacket.writeUint16_fill (by omega), CallOutcome.ok_bind,
    MosqPacket.writeString_fill_length htopic (by simp; omega), CallOutcome.ok_bind,
    MosqPacket.writeByte_fill (by simp; omega), frame, subscribeFrame]
  simp

end Psn

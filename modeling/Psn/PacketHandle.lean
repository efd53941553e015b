import Mathlib.Data.List.GetD
import Mathlib.Data.List.TakeWhile
import Psn.Messages
import Psn.PacketStream

/-!
# Handling packets

`_mosquitto_packet_handle` takes a packet apart and acts on it. The broker, or whoever is at the
other end, may have put anything into it, so every read checks the length that is left.

The functions below read `in_packet` through `readByte`, `readUint16`, `readBytes` and
`readString`. Whatever the packet says, they do nothing undefined: what is read has arrived. A
publish that was built by `_mosquitto_send_publish` is taken apart into what was put in, except
that a topic ends at its first zero byte.

## Main definitions

* `MosqPacket.readByte`, `readUint16`, `readBytes`, `readString`: the reads
* `handlePublish`, `handlePubackcomp`, `handlePubrec`, `handlePubrel`, `handleSuback`,
  `handleUnsuback`, `handleConnack`, `packetHandle`: the handlers

## Main results

* `packetHandle_defined`: no packet makes a handler do anything undefined
* `packetHandle_cases`, `packetHandle_sends`: what handling a packet does
* `readPublish_publishFrame`: what was published is what is handled
-/

namespace Psn

namespace MosqPacket

/-! ### The reads -/

/-- `_mosquitto_read_byte`. -/
def readByte (p : MosqPacket) : CallOutcome MosqErr (UInt8 × MosqPacket) :=
  if p.pos + 1 > p.remainingLength then .error .protocol
  else CallOutcome.ofOption (Cells.read p.payload p.pos 1) >>= fun bytes =>
    .ok (bytes.headD 0, { p with pos := p.pos + 1 })

/-- `_mosquitto_read_bytes`. -/
def readBytes (p : MosqPacket) (count : ℕ) : CallOutcome MosqErr (Bytes × MosqPacket) :=
  if p.pos + count > p.remainingLength then .error .protocol
  else CallOutcome.ofOption (Cells.read p.payload p.pos count) >>= fun bytes =>
    .ok (bytes, { p with pos := p.pos + count })

/-- `_mosquitto_read_uint16`. -/
def readUint16 (p : MosqPacket) : CallOutcome MosqErr (UInt16 × MosqPacket) :=
  if p.pos + 2 > p.remainingLength then .error .protocol
  else CallOutcome.ofOption (Cells.read p.payload p.pos 1) >>= fun msb =>
    CallOutcome.ofOption (Cells.read p.payload (p.pos + 1) 1) >>= fun lsb =>
    .ok (UInt16.ofNat ((msb.headD 0).toNat * 256 + (lsb.headD 0).toNat),
      { p with pos := p.pos + 2 })

/-- `_mosquitto_read_string`, with the buffer that it allocates, zero at the end left out. -/
def readString (p : MosqPacket) (alloc : Bool) : CallOutcome MosqErr (Bytes × MosqPacket) :=
  p.readUint16 >>= fun r =>
    if r.2.pos + r.1.toNat > r.2.remainingLength then .error .protocol
    else if !alloc then .error .nomem
    else CallOutcome.ofOption (Cells.read r.2.payload r.2.pos r.1.toNat) >>= fun bytes =>
      .ok (bytes, { r.2 with pos := r.2.pos + r.1.toNat })

/-- The packet holds `body` behind its length, and the reads are at `pos`. -/
structure Holds (p : MosqPacket) (body : Bytes) : Prop where
  payload_eq : p.payload = body.map some
  remainingLength_eq : p.remainingLength = body.length
  pos_le : p.pos ≤ body.length

variable {p : MosqPacket} {body : Bytes}

/-- A packet that has arrived holds its body. -/
theorem Complete.holds {f : Frame} (h : p.Complete f) : p.Holds f.body :=
  ⟨h.payload_eq, h.remainingLength_eq, by rw [h.pos_eq]; exact Nat.zero_le _⟩

/-- What is inside the packet can be read. -/
theorem Holds.read (h : p.Holds body) {pos count : ℕ} (hcount : pos + count ≤ body.length) :
    Cells.read p.payload pos count = some ((body.drop pos).take count) := by
  rw [h.payload_eq]
  exact Cells.read_map_some body hcount

/-- Reading moves on within the body. -/
theorem Holds.advance (h : p.Holds body) {count : ℕ} (hcount : p.pos + count ≤ body.length) :
    { p with pos := p.pos + count }.Holds body :=
  ⟨h.payload_eq, h.remainingLength_eq, hcount⟩

/-- The length that the checks look at is the length of the body. -/
theorem Holds.remainingLength_lt_iff (h : p.Holds body) {n : ℕ} :
    p.remainingLength < n ↔ body.length < n := by rw [h.remainingLength_eq]

/-- One byte of it. -/
theorem headD_drop_take {i : ℕ} (hi : i + 1 ≤ body.length) :
    ((body.drop i).take 1).headD 0 = body.getD i 0 := by
  rw [List.getD_eq_getElem _ _ (by omega), List.drop_eq_getElem_cons (by omega)]
  rfl

/-- With enough left, the reads give what is there: a byte, -/
theorem Holds.readByte_eq (h : p.Holds body) (hcount : p.pos + 1 ≤ body.length) :
    p.readByte = .ok (body.getD p.pos 0, { p with pos := p.pos + 1 }) := by
  rw [readByte, if_neg (by rw [gt_iff_lt, h.remainingLength_lt_iff]; omega), h.read hcount,
    CallOutcome.ofOption_some, CallOutcome.ok_bind, headD_drop_take hcount]

/-- some bytes, -/
theorem Holds.readBytes_eq (h : p.Holds body) {count : ℕ} (hcount : p.pos + count ≤ body.length) :
    p.readBytes count = .ok ((body.drop p.pos).take count, { p with pos := p.pos + count }) := by
  rw [readBytes, if_neg (by rw [gt_iff_lt, h.remainingLength_lt_iff]; omega), h.read hcount,
    CallOutcome.ofOption_some, CallOutcome.ok_bind]

/-- or a number, with its high byte first. -/
theorem Holds.readUint16_eq (h : p.Holds body) (hcount : p.pos + 2 ≤ body.length) :
    p.readUint16 =
      .ok (UInt16.ofNat ((body.getD p.pos 0).toNat * 256 + (body.getD (p.pos + 1) 0).toNat),
        { p with pos := p.pos + 2 }) := by
  rw [readUint16, if_neg (by rw [gt_iff_lt, h.remainingLength_lt_iff]; omega), h.read (by omega),
    h.read (by omega), CallOutcome.ofOption_some, CallOutcome.ok_bind, CallOutcome.ofOption_some,
    CallOutcome.ok_bind, headD_drop_take (by omega), headD_drop_take (by omega)]

/-- A read that succeeds stays inside the packet, and one that does not is an error. -/
def Reads (body : Bytes) {α : Type} (x : CallOutcome MosqErr (α × MosqPacket)) : Prop :=
  x.Defined ∧ ∀ a q, x = .ok (a, q) → q.Holds body

/-- **The rule for a read** of `count` bytes. -/
theorem Holds.reads_of {α : Type} {x : CallOutcome MosqErr (α × MosqPacket)} (h : p.Holds body)
    (count : ℕ)
    (hok : p.pos + count ≤ body.length → ∃ a, x = .ok (a, { p with pos := p.pos + count }))
    (herror : body.length < p.pos + count → x = .error .protocol) : Reads body x := by
  by_cases hcount : p.pos + count ≤ body.length
  · obtain ⟨a, rfl⟩ := hok hcount
    refine ⟨trivial, fun b q hq => ?_⟩
    cases hq
    exact h.advance hcount
  · rw [herror (by omega)]
    exact ⟨trivial, fun a q hq => by cases hq⟩

/-- With too little left they are refused. In no case is anything read that has not arrived. -/
theorem Holds.reads_readByte (h : p.Holds body) : Reads body p.readByte :=
  h.reads_of 1 (fun hcount => ⟨_, h.readByte_eq hcount⟩) fun hlt =>
    if_pos (h.remainingLength_lt_iff.mpr hlt)

theorem Holds.reads_readBytes (h : p.Holds body) (count : ℕ) : Reads body (p.readBytes count) :=
  h.reads_of count (fun hcount => ⟨_, h.readBytes_eq hcount⟩) fun hlt =>
    if_pos (h.remainingLength_lt_iff.mpr hlt)

theorem Holds.reads_readUint16 (h : p.Holds body) : Reads body p.readUint16 :=
  h.reads_of 2 (fun hcount => ⟨_, h.readUint16_eq hcount⟩) fun hlt =>
    if_pos (h.remainingLength_lt_iff.mpr hlt)

/-- What follows a read does nothing undefined when it does not on the packet that is left. -/
theorem Reads.defined_bind {α β : Type} {x : CallOutcome MosqErr (α × MosqPacket)}
    {f : α × MosqPacket → CallOutcome MosqErr β} (hx : Reads body x)
    (hf : ∀ r, r.2.Holds body → (f r).Defined) : (x >>= f).Defined :=
  CallOutcome.defined_bind hx.1 fun r hr => hf r (hx.2 r.1 r.2 hr)

theorem Holds.reads_readString (h : p.Holds body) (alloc : Bool) :
    Reads body (p.readString alloc) := by
  obtain ⟨hdefined, hok⟩ := h.reads_readUint16
  rw [readString]
  cases hread : p.readUint16 with
  | undefined =>
    rw [hread] at hdefined
    exact hdefined.elim
  | error e => exact ⟨trivial, fun a q hq => by cases hq⟩
  | ok r =>
    have hr : r.2.Holds body := hok r.1 r.2 hread
    rw [CallOutcome.ok_bind]
    by_cases hlen : r.2.pos + r.1.toNat > r.2.remainingLength
    · rw [if_pos hlen]
      exact ⟨trivial, fun a q hq => by cases hq⟩
    · have hcount : r.2.pos + r.1.toNat ≤ body.length := by
        rw [hr.remainingLength_eq] at hlen
        omega
      rw [if_neg hlen]
      cases alloc with
      | false => exact ⟨trivial, fun a q hq => by cases hq⟩
      | true =>
        rw [if_neg (by simp), hr.read hcount, CallOutcome.ofOption_some, CallOutcome.ok_bind]
        refine ⟨trivial, fun a q hq => ?_⟩
        cases hq
        exact hr.advance hcount

end MosqPacket

/-! ### The handlers -/

/-- What a handler makes happen, in order. -/
inductive ClientEvent
  /-- A packet is queued. -/
  | send (f : Frame)
  | onMessage (message : MessageAll)
  | onPublish (mid : UInt16)
  | onSubscribe (mid : UInt16) (grantedQos : List UInt8)
  | onUnsubscribe (mid : UInt16)
  | onConnect (result : UInt8)
  deriving DecidableEq

/-- What the run decides about the handling of one packet. -/
structure HandleIo where
  /-- `mosquitto_time()`. -/
  now : ℕ
  /-- There is memory for the message. -/
  allocMessage : Bool
  /-- There is memory for a string of the packet. -/
  allocString : Bool
  /-- There is memory for the payload, or for the granted QoS levels. -/
  allocPayload : Bool
  /-- The send of the answer. -/
  answer : SendResult
  /-- The sends of messages that were waiting. -/
  publish : MessageAll → SendResult

/-- What a handler comes to when it does not return early: its return code, the messages of the
client after it, and what it made happen. -/
structure HandleResult where
  /-- The return code. -/
  rc : MosqErr
  /-- The messages. -/
  mosq : MosqState
  /-- What it made happen. -/
  events : List ClientEvent

/-- The answer to a packet. -/
def HandleIo.answers (io : HandleIo) (f : Frame) : List ClientEvent :=
  (io.answer.frames f).map .send

/-- The message id of a publish, when the QoS has one. -/
def readMid (qos : ℕ) (p : MosqPacket) : CallOutcome MosqErr (UInt16 × MosqPacket) :=
  if qos > 0 then p.readUint16 else .ok (0, p)

/-- The rest of a publish. -/
def readRest (alloc : Bool) (p : MosqPacket) : CallOutcome MosqErr (Bytes × MosqPacket) :=
  if p.remainingLength - p.pos ≠ 0 then
    if !alloc then .error .nomem else p.readBytes (p.remainingLength - p.pos)
  else .ok ([], p)

/-- The message of a publish, as it is read from the packet: the flags of the command, the topic up
to its first zero byte, a message id when the QoS has one, and the rest. -/
def readPublish (io : HandleIo) (p : MosqPacket) : CallOutcome MosqErr MessageAll :=
  if !io.allocMessage then .error .nomem
  else p.readString io.allocString >>= fun r =>
    if r.1.takeWhile (· ≠ 0) = [] then .error .protocol
    else readMid ((p.command &&& 0x06) >>> 1).toNat r.2 >>= fun m =>
      readRest io.allocPayload m.2 >>= fun b =>
        .ok ⟨io.now, .invalid, decide ((p.command &&& 0x08) >>> 3 ≠ 0), m.1,
          ⟨r.1.takeWhile (· ≠ 0), b.1⟩, ((p.command &&& 0x06) >>> 1).toNat,
          decide (p.command &&& 0x01 ≠ 0)⟩

/-- The QoS of a publish is in its command. -/
theorem qos_of_readPublish {io : HandleIo} {p : MosqPacket} {message : MessageAll}
    (h : readPublish io p = .ok message) :
    message.qos = ((p.command &&& 0x06) >>> 1).toNat := by
  rw [readPublish] at h
  split at h
  · cases h
  · obtain ⟨r, -, h⟩ := CallOutcome.bind_eq_ok.mp h
    split at h
    · cases h
    · obtain ⟨m, -, h⟩ := CallOutcome.bind_eq_ok.mp h
      obtain ⟨b, -, h⟩ := CallOutcome.bind_eq_ok.mp h
      cases h
      rfl

/-- `_mosquitto_handle_publish`. -/
def handlePublish (io : HandleIo) (mosq : MosqState) (p : MosqPacket) :
    CallOutcome MosqErr HandleResult :=
  readPublish io p >>= fun message =>
    if message.qos = 0 then .ok ⟨.success, mosq, [.onMessage message]⟩
    else if message.qos = 1 then
      .ok ⟨io.answer.rc, mosq,
        io.answers (midFrame pubackCmd message.mid false) ++ [.onMessage message]⟩
    else if message.qos = 2 then
      .ok ⟨io.answer.rc, messageQueueIn mosq { message with state := .waitForPubrel },
        io.answers (midFrame pubrecCmd message.mid false)⟩
    else .error .protocol

/-- `_mosquitto_handle_pubackcomp`. -/
def handlePubackcomp (io : HandleIo) (mosq : MosqState) (p : MosqPacket) :
    CallOutcome MosqErr HandleResult :=
  p.readUint16 >>= fun r =>
    let removed := messageRemoveOut io.publish mosq r.1
    .ok ⟨.success, removed.mosq, removed.frames.map .send ++
      if removed.rc = .success then [.onPublish r.1] else []⟩

/-- `_mosquitto_handle_pubrec`. -/
def handlePubrec (io : HandleIo) (mosq : MosqState) (p : MosqPacket) :
    CallOutcome MosqErr HandleResult :=
  p.readUint16 >>= fun r =>
    let updated := messageOutUpdate mosq r.1 .waitForPubcomp io.now
    if updated.1 ≠ .success then .ok ⟨updated.1, updated.2, []⟩
    else .ok ⟨io.answer.rc, updated.2, io.answers (midFrame (pubrelCmd ||| 2) r.1 false)⟩

/-- `_mosquitto_handle_pubrel`. The client library never sets `protocol`, so the check of the
command for MQTT 3.1.1 does not take place. -/
def handlePubrel (io : HandleIo) (mosq : MosqState) (p : MosqPacket) :
    CallOutcome MosqErr HandleResult :=
  p.readUint16 >>= fun r =>
    let removed := messageRemoveIn mosq r.1
    .ok ⟨io.answer.rc, removed.mosq, removed.message.toList.map .onMessage ++
      io.answers (midFrame pubcompCmd r.1 false)⟩

/-- The loop of `_mosquitto_handle_suback` over the bytes that are left. -/
def readGranted : ℕ → MosqPacket → CallOutcome MosqErr (List UInt8)
  | 0, _ => .ok []
  | fuel + 1, p =>
    if p.pos < p.remainingLength then
      p.readByte >>= fun r => readGranted fuel r.2 >>= fun granted => .ok (r.1 :: granted)
    else .ok []

/-- `_mosquitto_handle_suback`. -/
def handleSuback (io : HandleIo) (mosq : MosqState) (p : MosqPacket) :
    CallOutcome MosqErr HandleResult :=
  p.readUint16 >>= fun r =>
    if !io.allocPayload then .error .nomem
    else readGranted (r.2.remainingLength - r.2.pos) r.2 >>= fun granted =>
      .ok ⟨.success, mosq, [.onSubscribe r.1 granted]⟩

/-- `_mosquitto_handle_unsuback`. -/
def handleUnsuback (mosq : MosqState) (p : MosqPacket) : CallOutcome MosqErr HandleResult :=
  p.readUint16 >>= fun r => .ok ⟨.success, mosq, [.onUnsubscribe r.1]⟩

/-- `_mosquitto_handle_connack`. -/
def handleConnack (mosq : MosqState) (p : MosqPacket) : CallOutcome MosqErr HandleResult :=
  p.readByte >>= fun r => r.2.readByte >>= fun s =>
    .ok ⟨if s.1 = 0 then .success else if s.1 ≤ 5 then .connRefused else .protocol, mosq,
      [.onConnect s.1]⟩

/-- `_mosquitto_packet_handle`. -/
def packetHandle (io : HandleIo) (mosq : MosqState) (p : MosqPacket) :
    CallOutcome MosqErr HandleResult :=
  let command := p.command &&& 0xF0
  if command = pingreqCmd then
    .ok ⟨io.answer.rc, mosq, io.answers ⟨pingrespCmd, []⟩⟩
  else if command = pingrespCmd then .ok ⟨.success, mosq, []⟩
  else if command = pubackCmd then handlePubackcomp io mosq p
  else if command = pubcompCmd then handlePubackcomp io mosq p
  else if command = publishCmd then handlePublish io mosq p
  else if command = pubrecCmd then handlePubrec io mosq p
  else if command = pubrelCmd then handlePubrel io mosq p
  else if command = connackCmd then handleConnack mosq p
  else if command = subackCmd then handleSuback io mosq p
  else if command = unsubackCmd then handleUnsuback mosq p
  else .error .protocol

/-- Which handler a packet goes to. -/
theorem packetHandle_eq (io : HandleIo) (mosq : MosqState) (p : MosqPacket) :
    packetHandle io mosq p = .ok ⟨io.answer.rc, mosq, io.answers ⟨pingrespCmd, []⟩⟩ ∨
      packetHandle io mosq p = .ok ⟨.success, mosq, []⟩ ∨
      (p.command &&& 0xF0 = pubackCmd ∨ p.command &&& 0xF0 = pubcompCmd) ∧
        packetHandle io mosq p = handlePubackcomp io mosq p ∨
      p.command &&& 0xF0 = publishCmd ∧ packetHandle io mosq p = handlePublish io mosq p ∨
      p.command &&& 0xF0 = pubrecCmd ∧ packetHandle io mosq p = handlePubrec io mosq p ∨
      p.command &&& 0xF0 = pubrelCmd ∧ packetHandle io mosq p = handlePubrel io mosq p ∨
      packetHandle io mosq p = handleConnack mosq p ∨
      packetHandle io mosq p = handleSuback io mosq p ∨
      packetHandle io mosq p = handleUnsuback mosq p ∨
      packetHandle io mosq p = .error .protocol := by
  rw [packetHandle]
  by_cases hpingreq : p.command &&& 0xF0 = pingreqCmd
  · exact .inl (if_pos hpingreq)
  rw [if_neg hpingreq]
  refine .inr ?_
  by_cases hpingresp : p.command &&& 0xF0 = pingrespCmd
  · exact .inl (if_pos hpingresp)
  rw [if_neg hpingresp]
  refine .inr ?_
  by_cases hpuback : p.command &&& 0xF0 = pubackCmd
  · exact .inl ⟨.inl hpuback, if_pos hpuback⟩
  rw [if_neg hpuback]
  by_cases hpubcomp : p.command &&& 0xF0 = pubcompCmd
  · exact .inl ⟨.inr hpubcomp, if_pos hpubcomp⟩
  rw [if_neg hpubcomp]
  refine .inr ?_
  by_cases hpublish : p.command &&& 0xF0 = publishCmd
  · exact .inl ⟨hpublish, if_pos hpublish⟩
  rw [if_neg hpublish]
  refine .inr ?_
  by_cases hpubrec : p.command &&& 0xF0 = pubrecCmd
  · exact .inl ⟨hpubrec, if_pos hpubrec⟩
  rw [if_neg hpubrec]
  refine .inr ?_
  by_cases hpubrel : p.command &&& 0xF0 = pubrelCmd
  · exact .inl ⟨hpubrel, if_pos hpubrel⟩
  rw [if_neg hpubrel]
  refine .inr ?_
  by_cases hconnack : p.command &&& 0xF0 = connackCmd
  · exact .inl (if_pos hconnack)
  rw [if_neg hconnack]
  refine .inr ?_
  by_cases hsuback : p.command &&& 0xF0 = subackCmd
  · exact .inl (if_pos hsuback)
  rw [if_neg hsuback]
  refine .inr ?_
  by_cases hunsuback : p.command &&& 0xF0 = unsubackCmd
  · exact .inl (if_pos hunsuback)
  · exact .inr (if_neg hunsuback)

/-! ### No packet does harm -/

section Defined

variable {io : HandleIo} {mosq : MosqState} {p : MosqPacket} {body : Bytes}

open MosqPacket

theorem reads_readMid (h : p.Holds body) (qos : ℕ) : Reads body (readMid qos p) := by
  rw [readMid]
  split
  · exact h.reads_readUint16
  · exact h.reads_of 0 (fun _ => ⟨0, rfl⟩) fun hlt => absurd h.pos_le (by omega)

theorem reads_readRest (h : p.Holds body) (alloc : Bool) : Reads body (readRest alloc p) := by
  rw [readRest]
  split
  · cases alloc with
    | false => exact ⟨trivial, fun a q hq => by cases hq⟩
    | true => exact h.reads_readBytes _
  · exact h.reads_of 0 (fun _ => ⟨[], rfl⟩) fun hlt => absurd h.pos_le (by omega)

/-- A PUBLISH is taken apart by such reads alone. -/
theorem readPublish_defined (h : p.Holds body) : (readPublish io p).Defined := by
  rw [readPublish]
  split
  · trivial
  · refine (h.reads_readString _).defined_bind fun r hr => ?_
    split
    · trivial
    · refine (reads_readMid hr _).defined_bind fun m hm => ?_
      exact (reads_readRest hm _).defined_bind fun b _ => trivial

/-- So is a SUBACK, one granted QoS after the other. -/
theorem readGranted_defined {fuel : ℕ} : ∀ {p : MosqPacket}, p.Holds body →
    (readGranted fuel p).Defined := by
  induction fuel with
  | zero => exact fun _ => trivial
  | succ fuel ih =>
    intro p h
    rw [readGranted]
    split
    · refine h.reads_readByte.defined_bind fun r hr => ?_
      exact CallOutcome.defined_bind (ih hr) fun granted _ => trivial
    · trivial

/-- **No packet makes a handler do anything undefined.** Whatever the command and whatever is behind
it, all that is read has arrived. -/
theorem packetHandle_defined {f : Frame} (h : p.Complete f) : (packetHandle io mosq p).Defined := by
  have hp : p.Holds f.body := h.holds
  rcases packetHandle_eq io mosq p with heq | heq | ⟨-, heq⟩ | ⟨-, heq⟩ | ⟨-, heq⟩ | ⟨-, heq⟩ |
    heq | heq | heq | heq <;> rw [heq]
  · trivial
  · trivial
  · exact hp.reads_readUint16.defined_bind fun r _ => trivial
  · refine CallOutcome.defined_bind (readPublish_defined hp) fun message _ => ?_
    split_ifs <;> trivial
  · refine hp.reads_readUint16.defined_bind fun r _ => ?_
    dsimp only
    split_ifs <;> trivial
  · exact hp.reads_readUint16.defined_bind fun r _ => trivial
  · refine hp.reads_readByte.defined_bind fun r hr => ?_
    exact hr.reads_readByte.defined_bind fun s _ => trivial
  · refine hp.reads_readUint16.defined_bind fun r hr => ?_
    split_ifs
    · trivial
    · exact CallOutcome.defined_bind (readGranted_defined hr) fun granted _ => trivial
  · exact hp.reads_readUint16.defined_bind fun r _ => trivial
  · trivial

end Defined

/-! ### What a packet does to the messages -/

/-- **What handling a packet does to the messages of the client**: nothing, or what the type of the
packet says. -/
theorem packetHandle_cases {io : HandleIo} {mosq : MosqState} {p : MosqPacket} {h : HandleResult}
    (heq : packetHandle io mosq p = .ok h) :
    h.mosq = mosq ∨
      (∃ mid q, (p.command &&& 0xF0 = pubackCmd ∨ p.command &&& 0xF0 = pubcompCmd) ∧
        p.readUint16 = .ok (mid, q) ∧ h.mosq = (messageRemoveOut io.publish mosq mid).mosq) ∨
      (∃ message, p.command &&& 0xF0 = publishCmd ∧ readPublish io p = .ok message ∧
        message.qos = 2 ∧ h.mosq = messageQueueIn mosq { message with state := .waitForPubrel }) ∨
      (∃ mid q, p.command &&& 0xF0 = pubrecCmd ∧ p.readUint16 = .ok (mid, q) ∧
        h.mosq = (messageOutUpdate mosq mid .waitForPubcomp io.now).2) ∨
      (∃ mid q, p.command &&& 0xF0 = pubrelCmd ∧ p.readUint16 = .ok (mid, q) ∧
        h.mosq = (messageRemoveIn mosq mid).mosq) := by
  rcases packetHandle_eq io mosq p with hp | hp | ⟨hcommand, hp⟩ | ⟨hcommand, hp⟩ |
    ⟨hcommand, hp⟩ | ⟨hcommand, hp⟩ | hp | hp | hp | hp <;> rw [hp] at heq
  · cases heq
    exact .inl rfl
  · cases heq
    exact .inl rfl
  · obtain ⟨⟨mid, q⟩, hread, hok⟩ := CallOutcome.bind_eq_ok.mp heq
    cases hok
    exact .inr (.inl ⟨mid, q, hcommand, hread, rfl⟩)
  · obtain ⟨message, hread, hok⟩ := CallOutcome.bind_eq_ok.mp heq
    split_ifs at hok with h0 h1 h2
    · cases hok
      exact .inl rfl
    · cases hok
      exact .inl rfl
    · cases hok
      exact .inr (.inr (.inl ⟨message, hcommand, hread, h2, rfl⟩))
  · obtain ⟨⟨mid, q⟩, hread, hok⟩ := CallOutcome.bind_eq_ok.mp heq
    dsimp only at hok
    split_ifs at hok <;> cases hok <;>
      exact .inr (.inr (.inr (.inl ⟨mid, q, hcommand, hread, rfl⟩)))
  · obtain ⟨⟨mid, q⟩, hread, hok⟩ := CallOutcome.bind_eq_ok.mp heq
    cases hok
    exact .inr (.inr (.inr (.inr ⟨mid, q, hcommand, hread, rfl⟩)))
  · obtain ⟨r, -, hok⟩ := CallOutcome.bind_eq_ok.mp heq
    obtain ⟨r', -, hok'⟩ := CallOutcome.bind_eq_ok.mp hok
    cases hok'
    exact .inl rfl
  · obtain ⟨r, -, hok⟩ := CallOutcome.bind_eq_ok.mp heq
    split_ifs at hok
    obtain ⟨granted, -, hok'⟩ := CallOutcome.bind_eq_ok.mp hok
    cases hok'
    exact .inl rfl
  · obtain ⟨r, -, hok⟩ := CallOutcome.bind_eq_ok.mp heq
    cases hok
    exact .inl rfl
  · cases heq

/-- An answer is the one packet that it is, if it is sent at all. -/
theorem HandleIo.eq_of_send_mem_answers {io : HandleIo} {f f' : Frame}
    (h : .send f' ∈ io.answers f) : f' = f := by
  rw [HandleIo.answers, SendResult.frames] at h
  split at h
  · simpa using h
  · simp at h

/-- Handling a packet publishes nothing but messages that were waiting for an acknowledgement. -/
theorem packetHandle_sends {io : HandleIo} {mosq : MosqState} {p : MosqPacket} {r : HandleResult}
    {f : Frame} (heq : packetHandle io mosq p = .ok r) (hsend : .send f ∈ r.events)
    (hf : f.command &&& 0xF0 = publishCmd) :
    ∃ mid q, (p.command &&& 0xF0 = pubackCmd ∨ p.command &&& 0xF0 = pubcompCmd) ∧
      p.readUint16 = .ok (mid, q) ∧ f ∈ (messageRemoveOut io.publish mosq mid).frames := by
  have hanswer : ∀ {f'}, .send f ∈ io.answers f' → f'.command &&& 0xF0 ≠ publishCmd → False :=
    fun h hne => hne (HandleIo.eq_of_send_mem_answers h ▸ hf)
  have hremove : ∀ {mid : UInt16} {rc : MosqErr},
      .send f ∈ (messageRemoveOut io.publish mosq mid).frames.map ClientEvent.send ++
        (if rc = .success then [.onPublish mid] else []) →
      f ∈ (messageRemoveOut io.publish mosq mid).frames := by
    intro mid rc h
    rcases List.mem_append.mp h with h | h
    · obtain ⟨f', hf', heq⟩ := List.mem_map.mp h
      cases heq
      exact hf'
    · split at h <;> simp at h
  rcases packetHandle_eq io mosq p with hp | hp | ⟨hcommand, hp⟩ | ⟨-, hp⟩ | ⟨-, hp⟩ | ⟨-, hp⟩ |
    hp | hp | hp | hp <;> rw [hp] at heq
  · cases heq
    exact (hanswer hsend (show pingrespCmd &&& 0xF0 ≠ publishCmd by decide)).elim
  · cases heq
    cases hsend
  · obtain ⟨⟨mid, q⟩, hread, hok⟩ := CallOutcome.bind_eq_ok.mp heq
    cases hok
    exact ⟨mid, q, hcommand, hread, hremove hsend⟩
  · obtain ⟨message, hread, hok⟩ := CallOutcome.bind_eq_ok.mp heq
    split_ifs at hok with h0 h1 h2
    · cases hok
      simp at hsend
    · cases hok
      rcases List.mem_append.mp hsend with hsend | hsend
      · exact (hanswer hsend (show pubackCmd &&& 0xF0 ≠ publishCmd by decide)).elim
      · simp at hsend
    · cases hok
      exact (hanswer hsend (show pubrecCmd &&& 0xF0 ≠ publishCmd by decide)).elim
  · obtain ⟨⟨mid, q⟩, hread, hok⟩ := CallOutcome.bind_eq_ok.mp heq
    dsimp only at hok
    split_ifs at hok
    · cases hok
      cases hsend
    · cases hok
      exact (hanswer hsend (show (pubrelCmd ||| 2) &&& 0xF0 ≠ publishCmd by decide)).elim
  · obtain ⟨⟨mid, q⟩, hread, hok⟩ := CallOutcome.bind_eq_ok.mp heq
    cases hok
    rcases List.mem_append.mp hsend with hsend | hsend
    · simp at hsend
    · exact (hanswer hsend (show pubcompCmd &&& 0xF0 ≠ publishCmd by decide)).elim
  · obtain ⟨r, -, hok⟩ := CallOutcome.bind_eq_ok.mp heq
    obtain ⟨r', -, hok'⟩ := CallOutcome.bind_eq_ok.mp hok
    cases hok'
    simp at hsend
  · obtain ⟨r, -, hok⟩ := CallOutcome.bind_eq_ok.mp heq
    split_ifs at hok
    obtain ⟨granted, -, hok'⟩ := CallOutcome.bind_eq_ok.mp hok
    cases hok'
    simp at hsend
  · obtain ⟨r, -, hok⟩ := CallOutcome.bind_eq_ok.mp heq
    cases hok
    simp at hsend
  · cases heq

/-! ### What was sent is what is handled -/

section RoundTrip

variable {p : MosqPacket} {pre post : Bytes}

open MosqPacket

/-- A number that was written in two bytes is read back. -/
theorem ofNat_msb_lsb (word : UInt16) :
    UInt16.ofNat ((msb word).toNat * 256 + (lsb word).toNat) = word := by
  have hlt := word.toNat_lt
  have hmsb : (msb word).toNat = word.toNat / 256 :=
    UInt8.toNat_ofNat_of_lt' (show word.toNat / 256 < 256 by omega)
  have hlsb : (lsb word).toNat = word.toNat % 256 :=
    UInt8.toNat_ofNat_of_lt' (show word.toNat % 256 < 256 by omega)
  rw [hmsb, hlsb, Nat.div_add_mod', UInt16.ofNat_toNat]

/-- A word is read as it was written. -/
theorem readUint16_wordBytes {word : UInt16} (h : p.Holds (pre ++ wordBytes word ++ post))
    (hpos : p.pos = pre.length) :
    p.readUint16 = .ok (word, { p with pos := pre.length + 2 }) := by
  have hfirst : (pre ++ wordBytes word ++ post).getD pre.length 0 = msb word := by
    rw [List.append_assoc, List.getD_append_right _ _ _ _ (Nat.le_refl _), Nat.sub_self]
    rfl
  have hsecond : (pre ++ wordBytes word ++ post).getD (pre.length + 1) 0 = lsb word := by
    rw [List.append_assoc, List.getD_append_right _ _ _ _ (Nat.le_add_right _ 1),
      Nat.add_sub_cancel_left]
    rfl
  rw [h.readUint16_eq (by simp [hpos]), hpos, hfirst, hsecond, ofNat_msb_lsb]

/-- A string is read as it was written. -/
theorem readString_stringBytes {str : CStr} (hstr : str.length ≤ 65535)
    (h : p.Holds (pre ++ stringBytes str ++ post)) (hpos : p.pos = pre.length) :
    p.readString true = .ok (str, { p with pos := pre.length + 2 + str.length }) := by
  have hlength := toNat_ofNat_length hstr
  have hbody : pre ++ stringBytes str ++ post =
      pre ++ wordBytes (UInt16.ofNat str.length) ++ (str ++ post) := by
    simp [stringBytes]
  rw [hbody] at h
  have hdrop : ((pre ++ wordBytes (UInt16.ofNat str.length) ++ (str ++ post)).drop
      (pre.length + 2)).take str.length = str := by
    have hpre : pre.length + 2 = (pre ++ wordBytes (UInt16.ofNat str.length)).length := by simp
    rw [hpre, List.drop_left, List.take_left]
  have hroom : ¬pre.length + 2 + str.length > p.remainingLength := by
    rw [h.remainingLength_eq]
    simp
    omega
  have hread : Cells.read p.payload (pre.length + 2) str.length = some str := by
    rw [h.read (by simp; omega), hdrop]
  rw [readString, readUint16_wordBytes h hpos, CallOutcome.ok_bind]
  simp only [hlength, if_neg hroom, hread]
  rfl

/-- The bytes behind what has been read. -/
theorem readRest_eq {payload : Bytes} (h : p.Holds (pre ++ payload)) (hpos : p.pos = pre.length) :
    ∃ q, readRest true p = .ok (payload, q) := by
  have hleft : p.remainingLength - p.pos = payload.length := by
    rw [h.remainingLength_eq, hpos, List.length_append, Nat.add_sub_cancel_left]
  rw [readRest, hleft]
  split
  · rw [if_neg (by simp), h.readBytes_eq (by rw [hpos, List.length_append]), hpos, List.drop_left,
      List.take_length]
    exact ⟨_, rfl⟩
  · rename_i hzero
    have hnil : payload = [] := by simpa using hzero
    rw [hnil]
    exact ⟨p, rfl⟩

/-- The message id behind what has been read. -/
theorem readMid_eq {qos : ℕ} {mid : UInt16}
    (h : p.Holds (pre ++ (if qos > 0 then wordBytes mid else []) ++ post))
    (hpos : p.pos = pre.length) :
    ∃ q, readMid qos p = .ok (if qos > 0 then mid else 0, q) ∧
      q.Holds (pre ++ (if qos > 0 then wordBytes mid else []) ++ post) ∧
      q.pos = (pre ++ if qos > 0 then wordBytes mid else []).length := by
  rw [readMid]
  split
  · rename_i hqos
    rw [if_pos hqos] at h
    exact ⟨_, readUint16_wordBytes h hpos, ⟨h.payload_eq, h.remainingLength_eq, by simp⟩, by simp⟩
  · rename_i hqos
    rw [if_neg hqos] at h
    exact ⟨p, rfl, h, by simpa using hpos⟩

/-- The flags of a publish are those it was sent with. -/
theorem publishFrame_flags (mid : UInt16) (topic : CStr) (payload : Bytes) {qos : ℕ}
    (hqos : qos < 4) (retain dup : Bool) :
    ((publishFrame mid topic payload qos retain dup).command &&& 0x06) >>> 1 = UInt8.ofNat qos ∧
      decide (((publishFrame mid topic payload qos retain dup).command &&& 0x08) >>> 3 ≠ 0) = dup ∧
      decide ((publishFrame mid topic payload qos retain dup).command &&& 0x01 ≠ 0) = retain ∧
      (publishFrame mid topic payload qos retain dup).command &&& 0xF0 = publishCmd := by
  have key : ∀ q < 4, ∀ r d : Bool,
      let c := UInt8.ofNat (publishCmd.toNat ||| d.toNat <<< 3 ||| q <<< 1 ||| r.toNat)
      (c &&& 0x06) >>> 1 = UInt8.ofNat q ∧ decide ((c &&& 0x08) >>> 3 ≠ 0) = d ∧
        decide (c &&& 0x01 ≠ 0) = r ∧ c &&& 0xF0 = publishCmd := by
    decide +kernel
  exact key qos hqos retain dup

/-- **What was published is what is handled.** -/
theorem readPublish_publishFrame {io : HandleIo} {mid : UInt16} {topic : CStr} {payload : Bytes}
    {qos : ℕ} {retain dup : Bool}
    (h : p.Complete (publishFrame mid topic payload qos retain dup))
    (hio : io.allocMessage = true ∧ io.allocString = true ∧ io.allocPayload = true)
    (htopic : topic ≠ [] ∧ topic.length ≤ 65535 ∧ 0 ∉ topic) (hqos : qos < 4) :
    readPublish io p = .ok ⟨io.now, .invalid, dup, if qos > 0 then mid else 0, ⟨topic, payload⟩,
      qos, retain⟩ := by
  obtain ⟨hm, hs, hp⟩ := hio
  obtain ⟨hne, hlength, hzero⟩ := htopic
  obtain ⟨hflagQos, hflagDup, hflagRetain, -⟩ :=
    publishFrame_flags mid topic payload hqos retain dup
  rw [← h.command_eq] at hflagQos hflagDup hflagRetain
  have hqosNat : (UInt8.ofNat qos).toNat = qos :=
    UInt8.toNat_ofNat_of_lt' (show qos < 256 by omega)
  have htake : topic.takeWhile (· ≠ 0) = topic := by
    refine List.takeWhile_eq_self_iff.mpr fun b hb => ?_
    simpa using fun hb0 : b = 0 => hzero (hb0 ▸ hb)
  have hholds : p.Holds ([] ++ stringBytes topic ++
      ((if qos > 0 then wordBytes mid else []) ++ payload)) := h.holds
  have hstring := readString_stringBytes hlength hholds h.pos_eq
  -- the positions behind the topic and behind the message id
  have hafter : MosqPacket.Holds { p with pos := ([] : Bytes).length + 2 + topic.length }
      (stringBytes topic ++ (if qos > 0 then wordBytes mid else []) ++ payload) := by
    refine ⟨?_, ?_, ?_⟩
    · simpa using hholds.payload_eq
    · simpa using hholds.remainingLength_eq
    · simp
      omega
  obtain ⟨q, hmid, hq, hqpos⟩ := readMid_eq hafter (by simp; omega)
  obtain ⟨q', hrest⟩ := readRest_eq hq hqpos
  rw [readPublish, hm, if_neg (by simp), hs, hstring, CallOutcome.ok_bind, htake, if_neg hne,
    hflagQos, hflagDup, hflagRetain, hqosNat, hmid, CallOutcome.ok_bind, hp, hrest,
    CallOutcome.ok_bind]

end RoundTrip

end Psn

import Psn.Inflight

/-!
# Messages, from one end to the other

A message is built into a packet, the packet is written in the pieces that the socket takes and read
in the pieces that it gives, and what has been read is taken apart into a message. Both the broker
and its clients do this with the same functions.

The functions that build packets are `Psn.Packet`, the writing and reading `Psn.PacketStream`, and
what takes a PUBLISH apart `readPublish`. A message keeps its topic, its payload, its QoS, its id
and both flags on the way. With QoS 0 it has no id, and reads as one with id zero.

The same holds of every other packet that a client sends, apart from CONNECT, which is not modelled:
it arrives with the command and the bytes that it was built from. What the broker makes of a
SUBSCRIBE is left to `Psn.Handlers`.

There is memory for every packet and for what is read. The connection is one that nobody closes; how
a client gets another one is `Psn.Connection` and `Psn.Inflight`.

## Main definitions

* `MessageAll.Sendable`: a message that fits into a packet
* `MessageAll.received`: a message at the other end
* `Sending`: a call of one of the functions that build packets

## Main results

* `Channel.run_messages`: messages arrive as they were sent, in order
* `Channel.run_sent`: so does all that is sent
-/

namespace Psn

open PartialMachine

/-- A message that fits into a packet. -/
structure MessageAll.Sendable (m : MessageAll) : Prop where
  topic_ne_nil : m.msg.topic ≠ []
  topic_le : m.msg.topic.length ≤ 65535
  zero_notMem : 0 ∉ m.msg.topic
  qos_le : m.qos ≤ 2
  fits : m.frame.body.length < 128 ^ 4

/-- A message at the other end: it has no id there when it has none. -/
def MessageAll.received (now : ℕ) (m : MessageAll) : MessageAll :=
  ⟨now, .invalid, m.dup, if m.qos > 0 then m.mid else 0, m.msg, m.qos, m.retain⟩

/-- The packet of a message. -/
def MessageAll.packet (m : MessageAll) : CallOutcome MosqErr MosqPacket :=
  sendRealPublish ⟨true, true⟩ m.mid m.msg.topic m.msg.payload.length m.msg.payload m.qos m.retain
    m.dup

/-- There is memory for a message that is read. -/
def HandleIo.Roomy (io : HandleIo) : Prop :=
  io.allocMessage = true ∧ io.allocString = true ∧ io.allocPayload = true

theorem MessageAll.Sendable.readPublish {m : MessageAll} (h : m.Sendable) {io : HandleIo}
    (hio : io.Roomy) :
    readPublish io (.ofFrame m.frame) = .ok (m.received io.now) :=
  readPublish_publishFrame (MosqPacket.complete_ofFrame m.frame) hio
    ⟨h.topic_ne_nil, h.topic_le, h.zero_notMem⟩ (Nat.lt_of_le_of_lt h.qos_le (by decide))

theorem MessageAll.Sendable.packet {m : MessageAll} (h : m.Sendable) {packet : MosqPacket}
    (heq : m.packet = .ok packet) : packet.Carries m.frame := by
  obtain ⟨packet', heq', -, hcarries⟩ := sendRealPublish_carries h.topic_le h.fits
  cases heq.symm.trans heq'
  exact hcarries

theorem MessageAll.Sendable.wellFormed {m : MessageAll} (h : m.Sendable) : m.frame.WellFormed := by
  have hqos : m.qos < 4 := Nat.lt_of_le_of_lt h.qos_le (by decide)
  refine ⟨fun hzero => ?_, h.fits⟩
  have hcommand : m.frame.command &&& 0xF0 = publishCmd :=
    (publishFrame_flags m.mid m.msg.topic m.msg.payload hqos m.retain m.dup).2.2.2
  rw [hzero] at hcommand
  exact absurd hcommand (by decide)

/-- A packet is what it carries. -/
theorem MosqPacket.Carries.eq {p : MosqPacket} {f g : Frame} (hf : p.Carries f) (hg : p.Carries g)
    (hf' : f.WellFormed) (hg' : g.WellFormed) : f = g := by
  have hbytes : frame f = frame g := by
    have hpayload := hf.payload_eq.symm.trans hg.payload_eq
    exact List.map_injective_iff.mpr (Option.some_injective _) hpayload
  have hread := delimits_frame hf'
  rw [Framing.Delimits, hbytes, delimits_frame hg'] at hread
  exact (List.cons.inj (Prod.mk.inj hread).2).1.symm

/-- The packet that an action queues. -/
def ChannelAct.packet : ChannelAct → Option OutPacket
  | .queue p => some p
  | _ => none

theorem Channel.queued_step {c c' : Channel} {a : ChannelAct} {rc : MosqErr}
    (h : c.step a = some (rc, c')) :
    c'.queued = c.queued ++ a.packet.toList.map OutPacket.frame := by
  cases a with
  | queue p =>
    cases h
    rfl
  | write sched =>
    rw [Channel.step, Channel.wrote.eq_def] at h
    split at h
    · cases h
    · cases h
      exact (List.append_nil _).symm
    · obtain ⟨r, -, heq⟩ := Option.map_eq_some_iff.mp h
      cases heq
      exact (List.append_nil _).symm
  | receive cut alloc handled =>
    obtain ⟨r, -, heq⟩ := Option.map_eq_some_iff.mp h
    cases heq
    exact (List.append_nil _).symm

theorem Channel.queued_run {acts : List ChannelAct} : ∀ {c c' : Channel} {rcs : List MosqErr},
    run Channel.step c acts = some (rcs, c') →
      c'.queued = c.queued ++ (acts.filterMap ChannelAct.packet).map OutPacket.frame := by
  induction acts with
  | nil =>
    intro c c' rcs h
    cases h
    exact (List.append_nil _).symm
  | cons a acts ih =>
    intro c c' rcs h
    obtain ⟨rc, c₁, rcs, hstep, hrest, rfl⟩ := run_cons_eq_some.mp h
    rw [ih hrest, Channel.queued_step hstep, List.append_assoc, ← List.map_append]
    cases hp : a.packet <;> simp [hp]

/-- What has been queued, when every packet carries a frame that is known. -/
theorem Channel.queued_of_carries {acts : List ChannelAct} {frames : List Frame}
    (hbuilt : List.Forall₂ (fun p f => p.packet.Carries f ∧ f.WellFormed)
      (acts.filterMap ChannelAct.packet) frames) {rcs : List MosqErr} {c : Channel}
    (hrun : run Channel.step Channel.init acts = some (rcs, c)) : c.queued = frames := by
  rw [Channel.queued_run hrun]
  show [] ++ _ = _
  rw [List.nil_append]
  clear hrun
  generalize acts.filterMap ChannelAct.packet = packets at hbuilt ⊢
  induction hbuilt with
  | nil => rfl
  | @cons p f ps fs hp _ ih =>
    rw [List.map_cons, ih, p.carries.eq hp.1 p.wellFormed hp.2]

/-- What is built carries what it is built from. -/
theorem forall₂_carries {α : Type} {packet : α → CallOutcome MosqErr MosqPacket} {f : α → Frame}
    {packets : List OutPacket} {xs : List α}
    (hxs : ∀ x ∈ xs, (f x).WellFormed ∧ ∀ p, packet x = .ok p → p.Carries (f x))
    (hbuilt : List.Forall₂ (fun p x => packet x = .ok p.packet) packets xs) :
    List.Forall₂ (fun p g => p.packet.Carries g ∧ g.WellFormed) packets (xs.map f) := by
  induction hbuilt with
  | nil => exact .nil
  | @cons p x packets xs hp _ ih =>
    obtain ⟨hwell, hcarries⟩ := hxs x List.mem_cons_self
    exact .cons ⟨hcarries _ hp, hwell⟩ (ih fun y hy => hxs y (List.mem_cons_of_mem x hy))

/-- **Messages arrive as they were sent.** When the packets that are queued are built from messages,
then in every run of queueing, writing and reading, with pieces of any size, no call does anything
undefined, and what has been handed on reads as the first of these messages, in order. When nothing
is left to write or to read, it reads as all of them. -/
theorem Channel.run_messages {acts : List ChannelAct} {ms : List MessageAll} {io : HandleIo}
    (hio : io.Roomy) (hms : ∀ m ∈ ms, m.Sendable)
    (hbuilt : List.Forall₂ (fun p m => m.packet = .ok p.packet)
      (acts.filterMap ChannelAct.packet) ms) :
    ∃ rcs c, run Channel.step Channel.init acts = some (rcs, c) ∧
      (c.inlet.handed.map fun f => readPublish io (.ofFrame f)) <+:
        ms.map (fun m => .ok (m.received io.now)) ∧
      (c.outlet.current = none → c.outlet.outPacket = [] → c.inlet.wire = [] →
        (c.inlet.handed.map fun f => readPublish io (.ofFrame f)) =
          ms.map fun m => .ok (m.received io.now)) := by
  obtain ⟨rcs, c, hrun, hinv⟩ := Channel.exists_run_inv acts
  have hframes : List.Forall₂ (fun p f => p.packet.Carries f ∧ f.WellFormed)
      (acts.filterMap ChannelAct.packet) (ms.map MessageAll.frame) :=
    forall₂_carries (fun m hm => ⟨(hms m hm).wellFormed, fun _ => (hms m hm).packet⟩) hbuilt
  have hread : (c.queued.map fun f => readPublish io (.ofFrame f)) =
      ms.map fun m => .ok (m.received io.now) := by
    rw [Channel.queued_of_carries hframes hrun, List.map_map]
    exact List.map_congr_left fun m hm => (hms m hm).readPublish hio
  refine ⟨rcs, c, hrun, ?_, fun hcurrent hout hwire => ?_⟩
  · rw [← hread]
    exact hinv.handed_prefix.map _
  · rw [← hread, hinv.handed_eq hcurrent hout hwire]

/-- A message with QoS 1. -/
def qosOneMessage : MessageAll := ⟨0, .waitForPuback, false, 7, ⟨[97], [98]⟩, 1, false⟩

/-- A message with QoS 0, which has no id. -/
def qosZeroMessage : MessageAll := ⟨0, .publishQos0, false, 0, ⟨[99, 47], []⟩, 0, true⟩

theorem qosOneMessage_sendable : qosOneMessage.Sendable :=
  ⟨by decide, by decide, by decide, by decide, by decide⟩

theorem qosZeroMessage_sendable : qosZeroMessage.Sendable :=
  ⟨by decide, by decide, by decide, by decide, by decide⟩

/-- Where there is memory for every message. -/
def roomyIo : HandleIo := ⟨5, true, true, true, ⟨.success, true⟩, fun _ => ⟨.success, true⟩⟩

/-- Their packets. -/
def qosOnePacket : MosqPacket :=
  ⟨0x32, false, 1, 7, 0, 6, 8, 0, 8, [0x32, 6, 0, 1, 97, 0, 7, 98].map some⟩

def qosZeroPacket : MosqPacket :=
  ⟨0x31, false, 1, 0, 0, 4, 6, 0, 6, [0x31, 4, 0, 2, 99, 47].map some⟩

theorem packet_qosOneMessage : qosOneMessage.packet = .ok qosOnePacket := by decide

theorem packet_qosZeroMessage : qosZeroMessage.packet = .ok qosZeroPacket := by decide

/-- The two packets, written and read in pieces that end in the middle of a packet. -/
def piecewise : List ChannelAct :=
  [.queue ⟨qosOnePacket, qosOneMessage.frame, qosOneMessage_sendable.packet packet_qosOneMessage,
      qosOneMessage_sendable.wellFormed⟩,
    .queue ⟨qosZeroPacket, qosZeroMessage.frame,
      qosZeroMessage_sendable.packet packet_qosZeroMessage, qosZeroMessage_sendable.wellFormed⟩,
    .write [.upTo 2, .eagain],
    .receive [.data [0x32, 6] (List.cons_ne_nil _ _), .data [0] (List.cons_ne_nil _ _)]
      true .success,
    .write [.upTo 20, .upTo 20],
    .receive [.data [1, 97, 0, 7, 98, 0x31] (List.cons_ne_nil _ _)] true .success,
    .receive [.data [0x31, 4, 0, 2, 99, 47] (List.cons_ne_nil _ _)] true .success]

/-- Nothing is left in the end, and the two messages read as they were sent. -/
theorem Channel.run_messages_two : ∃ (rcs : List MosqErr) (c : Channel),
    run Channel.step Channel.init piecewise = some (rcs, c) ∧
      c.inlet.handed.map (fun f => readPublish roomyIo (.ofFrame f)) =
        [.ok ⟨5, .invalid, false, 7, ⟨[97], [98]⟩, 1, false⟩,
          .ok ⟨5, .invalid, false, 0, ⟨[99, 47], []⟩, 0, true⟩] := by
  have hms : ∀ m ∈ [qosOneMessage, qosZeroMessage], m.Sendable :=
    List.forall_mem_cons.mpr ⟨qosOneMessage_sendable,
      List.forall_mem_singleton.mpr qosZeroMessage_sendable⟩
  have hbuilt : List.Forall₂ (fun (p : OutPacket) (m : MessageAll) => m.packet = .ok p.packet)
      (piecewise.filterMap ChannelAct.packet) [qosOneMessage, qosZeroMessage] :=
    .cons packet_qosOneMessage (.cons packet_qosZeroMessage .nil)
  have hio : roomyIo.Roomy := ⟨rfl, rfl, rfl⟩
  obtain ⟨rcs, c, hrun, -, hall⟩ := Channel.run_messages hio hms hbuilt
  have hdone : run Channel.step Channel.init piecewise = some (_, _) := rfl
  cases hrun.symm.trans hdone
  exact ⟨_, _, hrun, hall rfl rfl rfl⟩

/-! ### All that a client sends -/

/-- A call of one of the functions that send something. -/
inductive Sending
  | publish (m : MessageAll)
  /-- PUBACK, PUBREC, PUBREL and PUBCOMP. -/
  | commandWithMid (command : UInt8) (mid : UInt16) (dup : Bool)
  /-- PINGREQ, PINGRESP and DISCONNECT. -/
  | simpleCommand (command : UInt8)
  | subscribe (mid : UInt16) (dup : Bool) (topic : CStr) (topicQos : UInt8)

namespace Sending

/-- The packet that the call queues. -/
def packet : Sending → CallOutcome MosqErr MosqPacket
  | publish m => m.packet
  | commandWithMid command mid dup => sendCommandWithMid ⟨true, true⟩ command mid dup
  | simpleCommand command => sendSimpleCommand ⟨true, true⟩ command
  | subscribe mid dup topic topicQos => sendSubscribe ⟨true, true⟩ mid dup topic topicQos

/-- What the packet is. -/
def frame : Sending → Frame
  | publish m => m.frame
  | commandWithMid command mid dup => midFrame command mid dup
  | simpleCommand command => ⟨command, []⟩
  | subscribe mid dup topic topicQos => subscribeFrame mid dup topic topicQos

/-- A message or a filter has a length of 16 bits, and a command is none of those that read as no
command at all. -/
def Fits : Sending → Prop
  | publish m => m.Sendable
  | commandWithMid command _ dup => (if dup then command ||| 8 else command) ≠ 0
  | simpleCommand command => command ≠ 0
  | subscribe _ _ topic _ => topic.length ≤ 65535

variable {s : Sending}

theorem subscribe_command (dup : Bool) :
    UInt8.ofNat (subscribeCmd.toNat ||| dup.toNat <<< 3 ||| 1 <<< 1) ≠ 0 := by
  cases dup <;> decide

theorem Fits.wellFormed (h : s.Fits) : s.frame.WellFormed := by
  cases s with
  | publish m => exact MessageAll.Sendable.wellFormed h
  | commandWithMid command mid dup => exact ⟨h, by simp [frame, midFrame]⟩
  | simpleCommand command => exact ⟨h, by simp [frame]⟩
  | subscribe mid dup topic topicQos =>
    have hlength : topic.length ≤ 65535 := h
    refine ⟨subscribe_command dup, ?_⟩
    simp only [frame, subscribeFrame, List.length_append, MosqPacket.length_wordBytes,
      MosqPacket.length_stringBytes, List.length_singleton]
    omega

/-- Every packet that is built is what it is said to be. -/
theorem Fits.carries (h : s.Fits) {packet : MosqPacket} (heq : s.packet = .ok packet) :
    packet.Carries s.frame := by
  cases s with
  | publish m => exact MessageAll.Sendable.packet h heq
  | commandWithMid command mid dup =>
    obtain ⟨built, hbuilt, hcarries⟩ := sendCommandWithMid_carries command mid dup
    cases heq.symm.trans hbuilt
    exact hcarries
  | simpleCommand command =>
    obtain ⟨built, hbuilt, hcarries⟩ := sendSimpleCommand_carries command
    cases heq.symm.trans hbuilt
    exact hcarries
  | subscribe mid dup topic topicQos =>
    obtain ⟨built, hbuilt, hcarries⟩ := @sendSubscribe_carries mid dup topic topicQos h
    cases heq.symm.trans hbuilt
    exact hcarries

end Sending

/-- **All that is sent arrives.** Whichever functions have built the packets, in every run of
queueing, writing and reading, with pieces of any size, what has been handed on are the first of
them, in order, each with the command and the bytes that it was built from. When nothing is left to
write or to read, it is all of them. -/
theorem Channel.run_sent {acts : List ChannelAct} {ss : List Sending} (hss : ∀ s ∈ ss, s.Fits)
    (hbuilt : List.Forall₂ (fun p s => s.packet = .ok p.packet)
      (acts.filterMap ChannelAct.packet) ss) :
    ∃ rcs c, run Channel.step Channel.init acts = some (rcs, c) ∧
      c.inlet.handed <+: ss.map Sending.frame ∧
      (c.outlet.current = none → c.outlet.outPacket = [] → c.inlet.wire = [] →
        c.inlet.handed = ss.map Sending.frame) := by
  obtain ⟨rcs, c, hrun, hinv⟩ := Channel.exists_run_inv acts
  have hframes : List.Forall₂ (fun p f => p.packet.Carries f ∧ f.WellFormed)
      (acts.filterMap ChannelAct.packet) (ss.map Sending.frame) :=
    forall₂_carries (fun s hs => ⟨(hss s hs).wellFormed, fun _ => (hss s hs).carries⟩) hbuilt
  rw [← Channel.queued_of_carries hframes hrun]
  exact ⟨rcs, c, hrun, hinv.handed_prefix, hinv.handed_eq⟩

/-! A subscription, an acknowledgement and a PINGREQ, with the packets that are built. -/

def threeSendings : List Sending :=
  [.subscribe 1 false [97] 1, .commandWithMid pubackCmd 7 false, .simpleCommand pingreqCmd]

def subscribePacket : MosqPacket :=
  ⟨0x82, false, 1, 0, 0, 6, 8, 0, 8, [0x82, 6, 0, 1, 0, 1, 97, 1].map some⟩

def pubackPacket : MosqPacket := ⟨0x40, false, 1, 0, 0, 2, 4, 0, 2, [0x40, 2, 0, 7].map some⟩

def pingreqPacket : MosqPacket := ⟨0xC0, false, 1, 0, 0, 0, 2, 0, 2, [0xC0, 0].map some⟩

theorem packet_subscribe : (Sending.subscribe 1 false [97] 1).packet = .ok subscribePacket := by
  decide

theorem packet_puback : (Sending.commandWithMid pubackCmd 7 false).packet = .ok pubackPacket := by
  decide

theorem packet_pingreq : (Sending.simpleCommand pingreqCmd).packet = .ok pingreqPacket := by
  decide

theorem fits_subscribe : (Sending.subscribe 1 false [97] 1).Fits := by
  show 1 ≤ 65535
  decide

theorem fits_puback : (Sending.commandWithMid pubackCmd 7 false).Fits := by
  show pubackCmd ≠ 0
  decide

theorem fits_pingreq : (Sending.simpleCommand pingreqCmd).Fits := by
  show pingreqCmd ≠ 0
  decide

/-- They are written at once and read in three pieces. -/
def threeSent : List ChannelAct :=
  [.queue ⟨subscribePacket, _, fits_subscribe.carries packet_subscribe, fits_subscribe.wellFormed⟩,
    .queue ⟨pubackPacket, _, fits_puback.carries packet_puback, fits_puback.wellFormed⟩,
    .queue ⟨pingreqPacket, _, fits_pingreq.carries packet_pingreq, fits_pingreq.wellFormed⟩,
    .write [.upTo 20, .upTo 20, .upTo 20],
    .receive [.data [0x82, 6, 0, 1, 0] (List.cons_ne_nil _ _)] true .success,
    .receive [.data [1, 97, 1, 0x40, 2] (List.cons_ne_nil _ _)] true .success,
    .receive [.data [0x40, 2, 0, 7] (List.cons_ne_nil _ _)] true .success,
    .receive [.data [0xC0, 0] (List.cons_ne_nil _ _)] true .success]

theorem Channel.run_sent_three : ∃ (rcs : List MosqErr) (c : Channel),
    run Channel.step Channel.init threeSent = some (rcs, c) ∧
      c.inlet.handed = [⟨0x82, [0, 1, 0, 1, 97, 1]⟩, ⟨0x40, [0, 7]⟩, ⟨0xC0, []⟩] := by
  have hss : ∀ s ∈ threeSendings, s.Fits :=
    List.forall_mem_cons.mpr ⟨fits_subscribe,
      List.forall_mem_cons.mpr ⟨fits_puback, List.forall_mem_singleton.mpr fits_pingreq⟩⟩
  have hbuilt : List.Forall₂ (fun (p : OutPacket) (s : Sending) => s.packet = .ok p.packet)
      (threeSent.filterMap ChannelAct.packet) threeSendings :=
    .cons packet_subscribe (.cons packet_puback (.cons packet_pingreq .nil))
  obtain ⟨rcs, c, hrun, -, hall⟩ := Channel.run_sent hss hbuilt
  have hdone : run Channel.step Channel.init threeSent = some (_, _) := rfl
  cases hrun.symm.trans hdone
  exact ⟨_, _, hrun, hall rfl rfl rfl⟩

end Psn

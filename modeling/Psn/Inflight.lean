import Mathlib.Data.List.Nodup
import Psn.PacketHandle

/-!
# What a client has accepted

A client publishes, handles the packets of its broker, loses the connection and gets another one,
and sends again what has not been acknowledged. A run of these steps, in any order and with any
packets, is a run of `MosqState.step`.

However its messages are sent, the client keeps what it has accepted. `Outbox` is all that this
takes: the accepted messages, oldest first, without the ones that have been acknowledged.

A run may end at a reconnect. The two loops of `_mosquitto_messages_reconnect_reset` share a
pointer, and when there is a message that has come in with QoS 2, and none of the client's own, the
end of the list of its own messages becomes that message. What is published after this is appended
to the wrong list. `MosqState.step` has no result there, and the results say where this does not
happen (`MosqState.Apart`).

## Scope

The steps are those of one thread. `mosquitto_publish` and the thread that handles packets lock the
lists of messages, and a run is the order in which they get the lock.

A message is accepted when it is in the list. A publish that `mosquitto_publish` refuses is no step,
nor is one with QoS 0, which is sent and forgotten. That what is sent gets to the broker is not said
here; sends may fail, and the bytes on the way are the subject of `Psn.Delivery` and
`Psn.PacketStream`.

The list is all that is kept, and it is not bounded. How much of it is on its way is in
`Psn.Window`.

## Main definitions

* `MosqState.step`: a client, step by step
* `Outbox.step`: what a client has accepted, step by step
* `MosqState.Inv`: what holds in every state of a client

## Main results

* `MosqState.run_init`: the client keeps what it has accepted
* `MosqState.nodup_mid`, `MosqState.kept_iff`: message ids are distinct until there are none left,
  and a message is kept until it is acknowledged
-/

namespace Psn

open PartialMachine

/-! ### The steps of a client -/

/-- A packet that has been read. -/
def MosqPacket.ofFrame (f : Frame) : MosqPacket :=
  { MosqPacket.calloc with
    command := f.command
    payload := f.body.map some
    remainingLength := f.body.length }

/-- A packet is handled when all of it has been read. -/
theorem MosqPacket.complete_ofFrame (f : Frame) : (MosqPacket.ofFrame f).Complete f :=
  ⟨rfl, rfl, rfl, rfl⟩

/-- What happens to a client. -/
inductive SessionAct
  /-- `mosquitto_publish` with QoS 1 or 2 accepts a message. -/
  | publish (now : ℕ) (io : MessageAll → SendResult) (msg : Message) (qos : ℕ)
      (hqos : qos = 1 ∨ qos = 2) (retain : Bool)
  /-- `_mosquitto_send_subscribe` takes a message id. -/
  | subscribe
  /-- A packet is handled. -/
  | handle (io : HandleIo) (f : Frame)
  /-- `_mosquitto_reconnect` resets the messages. -/
  | reconnect
  /-- `_mosquitto_message_retry_check`. -/
  | retry (now : ℕ) (io : MessageAll → SendResult)

/-- What a handler comes to, as a step. A handler that returns early has done nothing. -/
def MosqState.handled (mosq : MosqState) :
    CallOutcome MosqErr HandleResult → Option (List ClientEvent × MosqState)
  | .undefined => none
  | .error _ => some ([], mosq)
  | .ok h => some (h.events, h.mosq)

/-- One step of a client. It has no result where a function does something undefined. -/
def MosqState.step (mosq : MosqState) : SessionAct → Option (List ClientEvent × MosqState)
  | .publish now io msg qos _ retain =>
    let r := publishQueue now io mosq msg qos retain
    some (r.2.2.map .send, r.2.1)
  | .subscribe => some ([], (midGenerate mosq).2)
  | .handle io f => mosq.handled (packetHandle io mosq (.ofFrame f))
  | .reconnect => (messagesReconnectReset mosq).map fun mosq => ([], mosq)
  | .retry now io =>
    some ((messageRetryCheck now io mosq).2.map .send, (messageRetryCheck now io mosq).1)

/-! ### What has been accepted -/

/-- A message that has been accepted, apart from how it is sent. -/
structure Outgoing where
  /-- The id that it was given. -/
  mid : UInt16
  /-- The topic and the payload. -/
  msg : Message
  /-- The QoS that was asked for. -/
  qos : ℕ
  /-- Whether the broker is to retain it. -/
  retain : Bool
  deriving DecidableEq

/-- The message, apart from how it is sent. -/
def MessageAll.outgoing (m : MessageAll) : Outgoing := ⟨m.mid, m.msg, m.qos, m.retain⟩

/-- The id does not depend on how the message is sent, -/
@[simp] theorem MessageAll.mid_outgoing (m : MessageAll) : m.outgoing.mid = m.mid := rfl

/-- and neither does the QoS. -/
@[simp] theorem MessageAll.qos_outgoing (m : MessageAll) : m.outgoing.qos = m.qos := rfl

/-- What a client owes its broker, oldest first, and the last message id. -/
structure Outbox where
  /-- The last message id that was given. -/
  lastMid : UInt16
  /-- The messages that are not acknowledged. -/
  messages : List Outgoing

/-- What a client owes its broker. -/
def MosqState.outbox (mosq : MosqState) : Outbox :=
  ⟨mosq.lastMid, mosq.outMessages.map MessageAll.outgoing⟩

/-- The message id that a packet acknowledges for good. -/
def Frame.acked (f : Frame) : Option UInt16 :=
  if f.command &&& 0xF0 = pubackCmd ∨ f.command &&& 0xF0 = pubcompCmd then
    match f.body with
    | msb :: lsb :: _ => some (UInt16.ofNat (msb.toNat * 256 + lsb.toNat))
    | _ => none
  else none

/-- The first message with this id is acknowledged. -/
def Outbox.discard (o : Outbox) (mid : UInt16) : Outbox :=
  { o with messages := o.messages.eraseP fun m => m.mid = mid }

/-- A step of a client, as far as what it owes its broker is concerned. -/
def Outbox.step (o : Outbox) : SessionAct → Outbox
  | .publish _ _ msg qos _ retain =>
    ⟨nextMid o.lastMid, o.messages ++ [⟨nextMid o.lastMid, msg, qos, retain⟩]⟩
  | .subscribe => { o with lastMid := nextMid o.lastMid }
  | .handle _ f => (f.acked.map o.discard).getD o
  | .reconnect => o
  | .retry _ _ => o

/-- An acknowledgement discards one message at most. -/
theorem Outbox.step_of_acked {o : Outbox} {f : Frame} {mid : UInt16} (h : f.acked = some mid)
    (io : HandleIo) : o.step (.handle io f) = o.discard mid := by
  rw [Outbox.step, h]
  rfl

/-- All other packets are nothing to the messages that were accepted. -/
theorem Outbox.step_of_not_acked {o : Outbox} {f : Frame} (h : f.acked = none) (io : HandleIo) :
    o.step (.handle io f) = o := by
  rw [Outbox.step, h]
  rfl

/-! ### What holds in every state -/

/-- All messages have QoS 1 or 2. -/
def Acked (l : List MessageAll) : Prop := ∀ m ∈ l, m.qos = 1 ∨ m.qos = 2

/-- What holds in every state of a client: only messages with an acknowledgement to come are kept,
and the queues are counted right. -/
structure MosqState.Inv (mosq : MosqState) : Prop where
  /-- Each message that goes out is to be acknowledged. -/
  acked : Acked mosq.outMessages
  /-- Of what comes in, only messages with QoS 2 are kept. -/
  released : ∀ m ∈ mosq.inMessages, m.qos = 2
  /-- `out_queue_len` is the length of the one list, -/
  outQueueLen_eq : mosq.outQueueLen = mosq.outMessages.length
  /-- and `in_queue_len` that of the other. -/
  inQueueLen_eq : mosq.inQueueLen = mosq.inMessages.length

/-- A client starts without messages. -/
theorem MosqState.inv_init : MosqState.init.Inv :=
  ⟨by simp [MosqState.init, Acked], by simp [MosqState.init], rfl, rfl⟩

variable {max inflight : ℤ} {io : MessageAll → SendResult} {l l' : List MessageAll}
  {mosq : MosqState}

/-- Whether all messages have QoS 1 or 2 can be seen from what has been accepted. -/
theorem Acked.of_outgoing (hl : Acked l)
    (h : l'.map MessageAll.outgoing = l.map MessageAll.outgoing) : Acked l' := by
  intro m hm
  obtain ⟨n, hn, hsame⟩ := List.mem_map.mp (h ▸ List.mem_map_of_mem hm)
  have hqos : n.qos = m.qos := congrArg Outgoing.qos hsame
  rw [← hqos]
  exact hl n hn

/-- How many there are can be seen from it as well. -/
theorem length_eq_of_outgoing (h : l'.map MessageAll.outgoing = l.map MessageAll.outgoing) :
    l'.length = l.length := by
  rw [← List.length_map MessageAll.outgoing, h, List.length_map]

/-! ### Removing a message -/

/-- The loop that sends waiting messages changes them only in how they are sent. -/
theorem map_outgoing_promote :
    (promote max io inflight l).messages.map MessageAll.outgoing =
      l.map MessageAll.outgoing := by
  fun_induction promote max io inflight l with
  | case1 => rfl
  | case2 inflight cur rest hroom hwait hrc p ih => exact congrArg (cur.outgoing :: ·) ih
  | case3 => rfl
  | case4 inflight cur rest hroom hwait p ih => exact congrArg (cur.outgoing :: ·) ih
  | case5 => rfl

/-- What an acknowledgement does: the message with its id is removed, if there is one, and others
are sent. -/
theorem messageRemoveOut_cases (io : MessageAll → SendResult) (mosq : MosqState) (mid : UInt16) :
    (∀ m ∈ mosq.outMessages, m.mid ≠ mid) ∧
        messageRemoveOut io mosq mid = ⟨.notFound, none, mosq, []⟩ ∨
      ∃ pre cur post inflight, mosq.outMessages = pre ++ cur :: post ∧ cur.mid = mid ∧
        (∀ m ∈ pre, m.mid ≠ mid) ∧
        inflight = (if cur.qos > 0 then mosq.inflightMessages - 1 else mosq.inflightMessages) ∧
        messageRemoveOut io mosq mid =
          ⟨(promote mosq.maxInflightMessages io inflight (pre ++ post)).rc, some cur, { mosq with
            outMessages := (promote mosq.maxInflightMessages io inflight (pre ++ post)).messages
            inflightMessages :=
              (promote mosq.maxInflightMessages io inflight (pre ++ post)).inflight
            outQueueLen := mosq.outQueueLen - 1 },
            (promote mosq.maxInflightMessages io inflight (pre ++ post)).frames⟩ := by
  rw [messageRemoveOut]
  cases hfind : mosq.outMessages.find? fun cur => cur.mid = mid with
  | none =>
    refine .inl ⟨fun m hm => ?_, rfl⟩
    simpa using List.find?_eq_none.mp hfind m hm
  | some cur =>
    obtain ⟨hmid, pre, post, hsplit, hpre⟩ := List.find?_eq_some_iff_append.mp hfind
    have hpre' : ∀ m ∈ pre, m.mid ≠ mid := fun m hm => by simpa using hpre m hm
    have herase : (mosq.outMessages.eraseP fun cur => cur.mid = mid) = pre ++ post := by
      rw [hsplit, List.eraseP_append_right _ fun m hm => by simpa using hpre' m hm,
        List.eraseP_cons_of_pos (by simpa using hmid)]
    exact .inr ⟨pre, cur, post, _, hsplit, by simpa using hmid, hpre', rfl, by rw [herase]⟩

/-- An acknowledgement removes the first message with its id, and no other. -/
theorem outbox_messageRemoveOut (mid : UInt16) :
    (messageRemoveOut io mosq mid).mosq.outbox = mosq.outbox.discard mid := by
  rcases messageRemoveOut_cases io mosq mid with ⟨hnone, heq⟩ |
    ⟨pre, cur, post, inflight, hsplit, hmid, hpre, -, heq⟩
  · have hkeep : (mosq.outMessages.map MessageAll.outgoing).eraseP (fun m => m.mid = mid) =
        mosq.outMessages.map MessageAll.outgoing := by
      refine List.eraseP_of_forall_not fun m hm => ?_
      obtain ⟨n, hn, rfl⟩ := List.mem_map.mp hm
      exact fun h => hnone n hn (of_decide_eq_true h)
    rw [heq, Outbox.discard, MosqState.outbox, hkeep]
  · have herase : (mosq.outMessages.map MessageAll.outgoing).eraseP (fun m => m.mid = mid) =
        (pre ++ post).map MessageAll.outgoing := by
      rw [hsplit, List.map_append, List.map_cons, List.map_append]
      rw [List.eraseP_append_right, List.eraseP_cons_of_pos]
      · exact decide_eq_true hmid
      · intro m hm
        obtain ⟨n, hn, rfl⟩ := List.mem_map.mp hm
        exact fun h => hpre n hn (of_decide_eq_true h)
    rw [heq, Outbox.discard, MosqState.outbox, MosqState.outbox, herase, map_outgoing_promote]

/-- Removing a message keeps the invariant. -/
theorem MosqState.Inv.removeOut (hmosq : mosq.Inv) (mid : UInt16) :
    (messageRemoveOut io mosq mid).mosq.Inv := by
  rcases messageRemoveOut_cases io mosq mid with ⟨-, heq⟩ |
    ⟨pre, cur, post, inflight, hsplit, -, -, -, heq⟩
  · rw [heq]
    exact hmosq
  · have hrest : Acked (pre ++ post) := by
      intro m hm
      refine hmosq.acked m ?_
      rw [hsplit]
      exact (List.sublist_cons_self cur post).append_left pre |>.mem hm
    have hlength := hmosq.outQueueLen_eq
    rw [hsplit, List.length_append, List.length_cons] at hlength
    rw [heq]
    refine ⟨hrest.of_outgoing map_outgoing_promote, hmosq.released, ?_, hmosq.inQueueLen_eq⟩
    show mosq.outQueueLen - 1 = _
    rw [length_eq_of_outgoing map_outgoing_promote, hlength, List.length_append]
    push_cast
    omega

/-! ### The other functions -/

/-- A PUBREC changes how a message is sent, -/
theorem map_outgoing_messageOutUpdate (mosq : MosqState) (mid : UInt16) (state : MsgState)
    (now : ℕ) :
    (messageOutUpdate mosq mid state now).2.outMessages.map MessageAll.outgoing =
      mosq.outMessages.map MessageAll.outgoing := by
  rw [messageOutUpdate]
  split
  · rfl
  · rename_i i hfind
    obtain ⟨hi, -⟩ := List.findIdx?_eq_some_iff_getElem.mp hfind
    obtain ⟨pre, m, post, hsplit, -, hmodify⟩ :=
      List.exists_of_modify (fun m => { m with state := state, timestamp := now }) hi
    dsimp only
    rw [hmodify, List.map_append, List.map_cons]
    conv_rhs => rw [hsplit, List.map_append, List.map_cons]
    rfl

/-- a reconnect does so with all of them, -/
theorem map_outgoing_resetOut :
    (resetOut max inflight l).2.map MessageAll.outgoing = l.map MessageAll.outgoing := by
  induction l generalizing inflight with
  | nil => rfl
  | cons m rest ih => exact congrArg (m.outgoing :: ·) ih

/-- and sending one again sets its flag for that. -/
theorem retryOne_outgoing (retry now : ℕ) (io : MessageAll → SendResult) (m : MessageAll) :
    (retryOne retry now io m).1.outgoing = m.outgoing := by
  rw [retryOne]
  split
  · dsimp only
    split <;> rfl
  · rfl

/-- So the list stays as it is when messages are sent again. -/
theorem map_outgoing_messageRetryCheck (now : ℕ) (io : MessageAll → SendResult)
    (mosq : MosqState) :
    (messageRetryCheck now io mosq).1.outMessages.map MessageAll.outgoing =
      mosq.outMessages.map MessageAll.outgoing := by
  show (mosq.outMessages.map _).map _ = _
  rw [List.map_map]
  exact List.map_congr_left fun m _ => retryOne_outgoing _ _ _ m

/-- The reset of the messages that were received is defined, and drops none. -/
theorem resetIn_of_released {l : List MessageAll} (h : ∀ m ∈ l, m.qos = 2) (first : Bool) :
    resetIn first l = some ((l.length : ℤ), l.map fun m => { m with timestamp := 0 }) := by
  fun_induction resetIn first l with
  | case1 => rfl
  | case2 m hqos => exact absurd (h m List.mem_cons_self) hqos
  | case3 m hqos => rfl
  | case4 m n rest hqos ih => exact absurd (h m List.mem_cons_self) hqos
  | case5 m n rest hqos ih =>
    rw [ih fun m' hm => h m' (List.mem_cons_of_mem m hm)]
    rfl
  | case6 m rest hqos ih => exact absurd (h m List.mem_cons_self) hqos
  | case7 m rest hqos ih =>
    rw [ih fun m' hm => h m' (List.mem_cons_of_mem m hm)]
    rfl

/-- The client has messages of its own at a reconnect, or none that it has received and that have
not been released. -/
def MosqState.Apart (mosq : MosqState) (a : SessionAct) : Prop :=
  a = .reconnect → mosq.inMessages = [] ∨ mosq.outMessages ≠ []

/-- The reset of the messages, where it keeps the two lists apart. -/
theorem messagesReconnectReset_eq_some (hmosq : mosq.Inv) {mosq' : MosqState} :
    messagesReconnectReset mosq = some mosq' ↔
      (mosq.inMessages = [] ∨ mosq.outMessages ≠ []) ∧ mosq' = { mosq with
        inQueueLen := mosq.inMessages.length
        inMessages := mosq.inMessages.map fun m => { m with timestamp := 0 }
        inflightMessages := (resetOut mosq.maxInflightMessages 0 mosq.outMessages).1
        outMessages := (resetOut mosq.maxInflightMessages 0 mosq.outMessages).2
        outQueueLen := mosq.outMessages.length } := by
  rw [messagesReconnectReset, resetIn_of_released hmosq.released]
  simp only [Option.bind_eq_bind, Option.bind_some, Option.ite_none_left_eq_some, not_and_or,
    ne_eq, not_not, List.map_eq_nil_iff, Option.some.injEq]
  exact and_congr_right fun _ => eq_comm

/-- A message that comes in with QoS 2 is kept and counted. -/
theorem MosqState.Inv.queueIn (hmosq : mosq.Inv) {message : MessageAll} (hqos : message.qos = 2) :
    (messageQueueIn mosq message).Inv := by
  refine ⟨hmosq.acked, fun m hm => ?_, hmosq.outQueueLen_eq, ?_⟩
  · rcases List.mem_append.mp hm with hm | hm
    · exact hmosq.released m hm
    · rw [List.mem_singleton.mp hm, hqos]
  · show mosq.inQueueLen + 1 = ((mosq.inMessages ++ [message]).length : ℤ)
    rw [hmosq.inQueueLen_eq, List.length_append, List.length_singleton]
    rfl

/-- A PUBREL takes it off the list and the count. -/
theorem MosqState.Inv.removeIn (hmosq : mosq.Inv) (mid : UInt16) :
    (messageRemoveIn mosq mid).mosq.Inv := by
  rw [messageRemoveIn]
  split
  · exact hmosq
  · rename_i cur hfind
    refine ⟨hmosq.acked, fun m hm => hmosq.released m (List.mem_of_mem_eraseP hm),
      hmosq.outQueueLen_eq, ?_⟩
    have hlength := List.length_eraseP_add_one (List.mem_of_find?_eq_some hfind)
      (List.find?_some hfind)
    show mosq.inQueueLen - 1 = _
    rw [hmosq.inQueueLen_eq, ← hlength]
    push_cast
    omega

/-- A PUBREC changes neither. -/
theorem MosqState.Inv.outUpdate (hmosq : mosq.Inv) (mid : UInt16) (state : MsgState) (now : ℕ) :
    (messageOutUpdate mosq mid state now).2.Inv := by
  have hsame := map_outgoing_messageOutUpdate mosq mid state now
  refine ⟨hmosq.acked.of_outgoing hsame, ?_, ?_, ?_⟩
  · rw [messageOutUpdate]
    split <;> exact hmosq.released
  · rw [length_eq_of_outgoing hsame, ← hmosq.outQueueLen_eq, messageOutUpdate]
    split <;> rfl
  · rw [messageOutUpdate]
    split <;> exact hmosq.inQueueLen_eq

/-! ### Handling a packet -/

/-- The id is in the first two bytes of the body. -/
theorem readUint16_ofFrame (f : Frame) :
    (MosqPacket.ofFrame f).readUint16 = match f.body with
      | msb :: lsb :: _ => .ok (UInt16.ofNat (msb.toNat * 256 + lsb.toNat),
          { MosqPacket.ofFrame f with pos := 2 })
      | _ => .error .protocol := by
  have hholds := (MosqPacket.complete_ofFrame f).holds
  cases hbody : f.body with
  | nil => exact if_pos (by show 2 > f.body.length; simp [hbody])
  | cons msb body =>
    cases body with
    | nil => exact if_pos (by show 2 > f.body.length; simp [hbody])
    | cons lsb rest =>
      rw [hholds.readUint16_eq (by show 2 ≤ f.body.length; simp [hbody]), hbody]
      rfl

/-- So a handler reads the id that the packet acknowledges. -/
theorem acked_of_readUint16 {f : Frame} {mid : UInt16} {q : MosqPacket}
    (hcommand : f.command &&& 0xF0 = pubackCmd ∨ f.command &&& 0xF0 = pubcompCmd)
    (hread : (MosqPacket.ofFrame f).readUint16 = .ok (mid, q)) : f.acked = some mid := by
  rw [readUint16_ofFrame] at hread
  rw [Frame.acked, if_pos hcommand]
  split at hread
  · exact congrArg some (Prod.mk.inj (CallOutcome.ok.inj hread)).1
  · cases hread

/-- An acknowledgement removes the message that it acknowledges. -/
theorem packetHandle_of_acked (io : HandleIo) (mosq : MosqState) {f : Frame} {mid : UInt16}
    (h : f.acked = some mid) :
    ∃ r, packetHandle io mosq (.ofFrame f) = .ok r ∧
      r.mosq = (messageRemoveOut io.publish mosq mid).mosq := by
  rw [Frame.acked] at h
  split at h
  · rename_i hcommand
    have hread : ∃ q, (MosqPacket.ofFrame f).readUint16 = .ok (mid, q) := by
      rw [readUint16_ofFrame]
      split at h
      · rw [Option.some.inj h]
        exact ⟨_, rfl⟩
      · cases h
    obtain ⟨q, hread⟩ := hread
    have hhandle : packetHandle io mosq (.ofFrame f) =
        handlePubackcomp io mosq (.ofFrame f) := by
      have hof : (MosqPacket.ofFrame f).command = f.command := rfl
      rw [packetHandle, hof]
      rcases hcommand with hcommand | hcommand <;> rw [hcommand] <;> rfl
    rw [hhandle, handlePubackcomp, hread]
    exact ⟨_, rfl, rfl⟩
  · cases h

/-- Another packet leaves what has been accepted alone. -/
theorem packetHandle_of_not_acked {io : HandleIo} {f : Frame} {r : HandleResult}
    (h : f.acked = none) (heq : packetHandle io mosq (.ofFrame f) = .ok r) :
    r.mosq = mosq ∨
      (∃ message, readPublish io (.ofFrame f) = .ok message ∧
        f.command &&& 0xF0 = publishCmd ∧ message.qos = 2 ∧
        r.mosq = messageQueueIn mosq { message with state := .waitForPubrel }) ∨
      (∃ mid, f.command &&& 0xF0 = pubrecCmd ∧
        r.mosq = (messageOutUpdate mosq mid .waitForPubcomp io.now).2) ∨
      ∃ mid, r.mosq = (messageRemoveIn mosq mid).mosq := by
  rcases packetHandle_cases heq with hsame | ⟨mid, q, hcommand, hread, hmosq⟩ |
    ⟨message, hcommand, hread, hqos, hmosq⟩ | ⟨mid, q, hcommand, -, hmosq⟩ |
    ⟨mid, q, hcommand, -, hmosq⟩
  · exact .inl hsame
  · cases h.symm.trans (acked_of_readUint16 hcommand hread)
  · exact .inr (.inl ⟨message, hread, hcommand, hqos, hmosq⟩)
  · exact .inr (.inr (.inl ⟨mid, hcommand, hmosq⟩))
  · exact .inr (.inr (.inr ⟨mid, hmosq⟩))

/-- **What handling a packet does to the messages that are sent**: an acknowledgement removes one,
and a PUBREC marks one. -/
theorem MosqState.step_handle {io : HandleIo} {f : Frame} {evs : List ClientEvent}
    {mosq' : MosqState} (h : mosq.step (.handle io f) = some (evs, mosq')) :
    mosq' = mosq ∨
      (∃ mid, f.acked = some mid ∧ mosq' = (messageRemoveOut io.publish mosq mid).mosq) ∨
      (∃ message, readPublish io (.ofFrame f) = .ok message ∧
        f.command &&& 0xF0 = publishCmd ∧ message.qos = 2 ∧
        mosq' = messageQueueIn mosq { message with state := .waitForPubrel }) ∨
      (∃ mid, f.command &&& 0xF0 = pubrecCmd ∧
        mosq' = (messageOutUpdate mosq mid .waitForPubcomp io.now).2) ∨
      ∃ mid, mosq' = (messageRemoveIn mosq mid).mosq := by
  cases hr : packetHandle io mosq (.ofFrame f) with
  | undefined =>
    rw [MosqState.step, hr] at h
    cases h
  | error e =>
    rw [MosqState.step, hr] at h
    cases h
    exact .inl rfl
  | ok r =>
    rw [MosqState.step, hr] at h
    cases h
    cases hacked : f.acked with
    | some mid =>
      obtain ⟨r', hr', hmosq⟩ := packetHandle_of_acked io mosq hacked
      cases hr.symm.trans hr'
      exact .inr (.inl ⟨mid, rfl, hmosq⟩)
    | none =>
      rcases packetHandle_of_not_acked hacked hr with hsame | hpublish | hpubrec | hpubrel
      · exact .inl hsame
      · exact .inr (.inr (.inl hpublish))
      · exact .inr (.inr (.inr (.inl hpubrec)))
      · exact .inr (.inr (.inr (.inr hpubrel)))

/-! ### Every step, and every run -/

/-- What holds in every state holds after a step, and what the client owes its broker has changed
as `Outbox.step` says. -/
structure MosqState.Keeps (mosq : MosqState) (a : SessionAct) (mosq' : MosqState) : Prop where
  /-- The invariant holds afterwards. -/
  inv : mosq'.Inv
  /-- What has been accepted changes as it should. -/
  outbox : mosq'.outbox = mosq.outbox.step a

/-- A publish appends a message with QoS 1 or 2. -/
theorem MosqState.Inv.publish (hmosq : mosq.Inv) (now : ℕ) (io : MessageAll → SendResult)
    (msg : Message) (qos : ℕ) (hqos : qos = 1 ∨ qos = 2) (retain : Bool) :
    mosq.Keeps (.publish now io msg qos hqos retain)
      (publishQueue now io mosq msg qos retain).2.1 := by
  have hqueue : ∀ message : MessageAll, message.qos = qos →
      Acked (mosq.outMessages ++ [message]) ∧
        mosq.outQueueLen + 1 = ((mosq.outMessages ++ [message]).length : ℤ) := by
    intro message hmessage
    refine ⟨fun m hm => ?_, ?_⟩
    · rcases List.mem_append.mp hm with hm | hm
      · exact hmosq.acked m hm
      · rw [List.mem_singleton.mp hm, hmessage]
        exact hqos
    · rw [hmosq.outQueueLen_eq, List.length_append, List.length_singleton]
      rfl
  have hbox : ∀ message : MessageAll,
      message.outgoing = ⟨nextMid mosq.lastMid, msg, qos, retain⟩ →
      (mosq.outMessages ++ [message]).map MessageAll.outgoing =
        mosq.outMessages.map MessageAll.outgoing ++
          [⟨nextMid mosq.lastMid, msg, qos, retain⟩] := by
    intro message hmessage
    rw [List.map_append, List.map_singleton, hmessage]
  rw [publishQueue]
  split
  · obtain ⟨hacked, hlength⟩ := hqueue (MessageAll.start
      ⟨now, .invalid, false, nextMid mosq.lastMid, msg, qos, retain⟩) rfl
    exact ⟨⟨hacked, hmosq.released, hlength, hmosq.inQueueLen_eq⟩,
      congrArg (Outbox.mk _) (hbox _ rfl)⟩
  · obtain ⟨hacked, hlength⟩ := hqueue
      ⟨now, .invalid, false, nextMid mosq.lastMid, msg, qos, retain⟩ rfl
    exact ⟨⟨hacked, hmosq.released, hlength, hmosq.inQueueLen_eq⟩,
      congrArg (Outbox.mk _) (hbox _ rfl)⟩

/-- An acknowledgement discards, and no other packet changes what has been accepted. -/
theorem MosqState.Inv.packet (hmosq : mosq.Inv) {io : HandleIo} {f : Frame} {r : HandleResult}
    (hr : packetHandle io mosq (.ofFrame f) = .ok r) : mosq.Keeps (.handle io f) r.mosq := by
  cases hacked : f.acked with
  | some mid =>
    obtain ⟨r', hr', hmosq'⟩ := packetHandle_of_acked io mosq hacked
    obtain rfl := CallOutcome.ok.inj (hr.symm.trans hr')
    rw [hmosq']
    refine ⟨hmosq.removeOut mid, ?_⟩
    rw [outbox_messageRemoveOut, Outbox.step_of_acked hacked]
  | none =>
    have hsame : mosq.outbox.step (.handle io f) = mosq.outbox :=
      Outbox.step_of_not_acked hacked io
    rcases packetHandle_of_not_acked hacked hr with heq | ⟨message, -, -, hqos, heq⟩ |
      ⟨mid, -, heq⟩ | ⟨mid, heq⟩
    · rw [heq]
      exact ⟨hmosq, hsame.symm⟩
    · rw [heq]
      exact ⟨hmosq.queueIn hqos, hsame.symm⟩
    · rw [heq]
      refine ⟨hmosq.outUpdate mid _ _, ?_⟩
      rw [hsame, MosqState.outbox, map_outgoing_messageOutUpdate]
      rw [messageOutUpdate]
      split <;> rfl
    · rw [heq]
      refine ⟨hmosq.removeIn mid, ?_⟩
      rw [hsame, messageRemoveIn]
      split <;> rfl

/-- A packet that is refused changes nothing. -/
theorem MosqState.Inv.handle (hmosq : mosq.Inv) {io : HandleIo} {f : Frame}
    {evs : List ClientEvent} {mosq' : MosqState}
    (hstep : mosq.step (.handle io f) = some (evs, mosq')) : mosq.Keeps (.handle io f) mosq' := by
  cases hr : packetHandle io mosq (.ofFrame f) with
  | undefined =>
    rw [MosqState.step, hr] at hstep
    cases hstep
  | error e =>
    rw [MosqState.step, hr] at hstep
    cases hstep
    -- an acknowledgement is never refused
    cases hacked : f.acked with
    | some mid =>
      obtain ⟨r, hr', -⟩ := packetHandle_of_acked io mosq hacked
      cases hr.symm.trans hr'
    | none => exact ⟨hmosq, (Outbox.step_of_not_acked hacked io).symm⟩
  | ok r =>
    rw [MosqState.step, hr] at hstep
    cases hstep
    exact hmosq.packet hr

/-- The reset counts the messages that are there. -/
theorem MosqState.Inv.reset (hmosq : mosq.Inv) {mosq' : MosqState}
    (hreset : messagesReconnectReset mosq = some mosq') : mosq.Keeps .reconnect mosq' := by
  obtain ⟨-, rfl⟩ := (messagesReconnectReset_eq_some hmosq).mp hreset
  refine ⟨⟨hmosq.acked.of_outgoing map_outgoing_resetOut, fun m hm => ?_, ?_, ?_⟩,
    congrArg (Outbox.mk _) map_outgoing_resetOut⟩
  · obtain ⟨n, hn, rfl⟩ := List.mem_map.mp hm
    exact hmosq.released n hn
  · show (mosq.outMessages.length : ℤ) = _
    rw [length_eq_of_outgoing map_outgoing_resetOut]
  · show (mosq.inMessages.length : ℤ) = _
    rw [List.length_map]

/-- Sending again changes only how messages are sent. -/
theorem MosqState.Inv.retry (hmosq : mosq.Inv) (now : ℕ) (io : MessageAll → SendResult) :
    mosq.Keeps (.retry now io) (messageRetryCheck now io mosq).1 := by
  have hsame := map_outgoing_messageRetryCheck now io mosq
  refine ⟨⟨hmosq.acked.of_outgoing hsame, fun m hm => ?_, ?_, ?_⟩, congrArg (Outbox.mk _) hsame⟩
  · obtain ⟨n, hn, rfl⟩ := List.mem_map.mp hm
    have hqos := congrArg Outgoing.qos (retryOne_outgoing mosq.messageRetry now io n)
    exact hqos.trans (hmosq.released n hn)
  · rw [length_eq_of_outgoing hsame]
    exact hmosq.outQueueLen_eq
  · show mosq.inQueueLen = _
    rw [hmosq.inQueueLen_eq, messageRetryCheck, List.length_map]

/-- **One step of a client** keeps what holds in every state, and changes what the client owes its
broker as `Outbox.step` says. -/
theorem MosqState.Inv.step (hmosq : mosq.Inv) {a : SessionAct} {evs : List ClientEvent}
    {mosq' : MosqState} (hstep : mosq.step a = some (evs, mosq')) : mosq.Keeps a mosq' := by
  cases a with
  | publish now io msg qos hqos retain =>
    cases hstep
    exact hmosq.publish now io msg qos hqos retain
  | subscribe =>
    cases hstep
    exact ⟨⟨hmosq.acked, hmosq.released, hmosq.outQueueLen_eq, hmosq.inQueueLen_eq⟩, rfl⟩
  | handle io f => exact hmosq.handle hstep
  | reconnect =>
    obtain ⟨mosq₁, hreset, heq⟩ := Option.map_eq_some_iff.mp hstep
    cases heq
    exact hmosq.reset hreset
  | retry now io =>
    cases hstep
    exact hmosq.retry now io

/-- A step that keeps the lists apart is defined. -/
theorem MosqState.Inv.exists_step (hmosq : mosq.Inv) {a : SessionAct} (ha : mosq.Apart a) :
    ∃ evs mosq', mosq.step a = some (evs, mosq') := by
  cases a with
  | publish now io msg qos hqos retain => exact ⟨_, _, rfl⟩
  | subscribe => exact ⟨_, _, rfl⟩
  | handle io f =>
    have hdefined : (packetHandle io mosq (.ofFrame f)).Defined :=
      packetHandle_defined (MosqPacket.complete_ofFrame f)
    cases hr : packetHandle io mosq (.ofFrame f) with
    | undefined =>
      rw [hr] at hdefined
      exact hdefined.elim
    | error e => exact ⟨[], mosq, by rw [MosqState.step, hr]; rfl⟩
    | ok r => exact ⟨r.events, r.mosq, by rw [MosqState.step, hr]; rfl⟩
  | reconnect =>
    have hreset := (messagesReconnectReset_eq_some hmosq).mpr ⟨ha rfl, rfl⟩
    exact ⟨[], _, Option.map_eq_some_iff.mpr ⟨_, hreset, rfl⟩⟩
  | retry now io => exact ⟨_, _, rfl⟩

/-- What every step does to what the client owes its broker, a run does step by step. -/
theorem MosqState.Inv.of_run {as : List SessionAct} : ∀ {mosq mosq' : MosqState}
    {evs : List (List ClientEvent)}, mosq.Inv →
      PartialMachine.run MosqState.step mosq as = some (evs, mosq') →
        mosq'.Inv ∧ mosq'.outbox = as.foldl Outbox.step mosq.outbox := by
  induction as with
  | nil =>
    intro mosq mosq' evs h hrun
    cases hrun
    exact ⟨h, rfl⟩
  | cons a as ih =>
    intro mosq mosq' evs h hrun
    obtain ⟨ev, mosq₁, evs, hstep, hrest, rfl⟩ := run_cons_eq_some.mp hrun
    have hkeeps := h.step hstep
    obtain ⟨hinv, hbox⟩ := ih hkeeps.inv hrest
    exact ⟨hinv, by rw [hbox, hkeeps.outbox, List.foldl_cons]⟩

/-- A run that keeps the lists apart is defined. -/
theorem MosqState.Inv.exists_run {as : List SessionAct} : ∀ {mosq : MosqState}, mosq.Inv →
    Along MosqState.step MosqState.Apart mosq as →
      ∃ evs mosq', PartialMachine.run MosqState.step mosq as = some (evs, mosq') := by
  induction as with
  | nil => exact fun {mosq} _ _ => ⟨[], mosq, rfl⟩
  | cons a as ih =>
    intro mosq h hapart
    obtain ⟨ev, mosq₁, hstep⟩ := h.exists_step hapart.1
    obtain ⟨evs, mosq₂, hrest⟩ := ih (h.step hstep).inv (hapart.2 ev mosq₁ hstep)
    exact ⟨ev :: evs, mosq₂, run_cons_eq_some.mpr ⟨ev, mosq₁, evs, hstep, hrest, rfl⟩⟩

/-- **A client keeps what it has accepted.** Whatever happens, and whatever packets arrive, as long
as every reconnect finds messages of the client's own or none that it has received and not
released: all that the client does is defined, its queues are counted right, and the messages that
it keeps are those it has accepted, in order, each of them until an acknowledgement with its id is
handled. -/
theorem MosqState.run_init {as : List SessionAct}
    (h : Along MosqState.step MosqState.Apart .init as) :
    ∃ evs mosq, PartialMachine.run MosqState.step .init as = some (evs, mosq) ∧ mosq.Inv ∧
      mosq.outbox = as.foldl Outbox.step ⟨0, []⟩ := by
  obtain ⟨evs, mosq, hrun⟩ := MosqState.inv_init.exists_run h
  exact ⟨evs, mosq, hrun, MosqState.inv_init.of_run hrun⟩

/-- A PUBLISH with QoS 2 and the id 7. -/
def publishTwo : Frame := ⟨publishCmd ||| 4, [0, 1, 97, 0, 7]⟩

/-- A client that has published and has received a message with QoS 2 gets another connection: both
messages are still there, and the one that it sent goes when it is acknowledged. -/
theorem MosqState.run_init_reconnect : ∃ evs mosq, PartialMachine.run MosqState.step .init
    [.publish 0 (fun _ => ⟨.success, true⟩) ⟨[97], []⟩ 1 (.inl rfl) false,
      .handle ⟨0, true, true, true, ⟨.success, true⟩, fun _ => ⟨.success, true⟩⟩ publishTwo,
      .reconnect,
      .handle ⟨0, true, true, true, ⟨.success, true⟩, fun _ => ⟨.success, true⟩⟩
        (midFrame pubackCmd 1 false)] = some (evs, mosq) ∧ mosq.Inv ∧ mosq.outbox = ⟨1, []⟩ := by
  refine MosqState.run_init ⟨nofun, fun _ _ h₁ => ?_⟩
  cases h₁
  refine ⟨nofun, fun _ _ h₂ => ?_⟩
  cases h₂
  refine ⟨fun _ => .inr (List.cons_ne_nil _ _), fun _ _ _ => ?_⟩
  exact ⟨nofun, fun _ _ _ => trivial⟩

/-! ### Message ids -/

/-- Whether a step takes a message id. -/
def SessionAct.takesMid : SessionAct → Bool
  | .publish .. => true
  | .subscribe => true
  | _ => false

/-- After `k` message ids: the last one is `k`, and those of the messages are distinct. -/
structure Outbox.Numbered (o : Outbox) (k : ℕ) : Prop where
  /-- The ids have not come round. -/
  lastMid_eq : o.lastMid.toNat = k
  /-- So the next one is larger than all of them. -/
  le : ∀ m ∈ o.messages, m.mid.toNat ≤ k
  /-- No two messages have one id. -/
  nodup : (o.messages.map Outgoing.mid).Nodup

/-- Ids are counted up, until there are none left. -/
theorem toNat_nextMid {mid : UInt16} (h : mid.toNat + 1 ≤ 65535) :
    (nextMid mid).toNat = mid.toNat + 1 := by
  have hadd : (mid + 1).toNat = mid.toNat + 1 := by
    rw [UInt16.toNat_add]
    exact Nat.mod_eq_of_lt (show mid.toNat + 1 < 65536 by omega)
  rw [nextMid, if_neg, hadd]
  intro hzero
  rw [hzero] at hadd
  exact absurd hadd (Nat.succ_ne_zero _).symm

variable {o : Outbox} {k : ℕ} {a : SessionAct}

/-- A publish and a subscribe take the next id, -/
theorem Outbox.lastMid_step (ha : a.takesMid = true) : (o.step a).lastMid = nextMid o.lastMid := by
  cases a with
  | publish => rfl
  | subscribe => rfl
  | handle => cases ha
  | reconnect => cases ha
  | retry => cases ha

/-- and nothing else takes any. -/
theorem Outbox.lastMid_step_of_not (ha : a.takesMid = false) :
    (o.step a).lastMid = o.lastMid := by
  cases a with
  | publish => cases ha
  | subscribe => cases ha
  | handle io f =>
    cases hacked : f.acked with
    | none => rw [Outbox.step_of_not_acked hacked]
    | some mid =>
      rw [Outbox.step_of_acked hacked]
      rfl
  | reconnect => rfl
  | retry => rfl

/-- A message comes from the messages before it, or has just been given an id. -/
theorem Outbox.mem_step {m : Outgoing} (hm : m ∈ (o.step a).messages) :
    m ∈ o.messages ∨ a.takesMid = true ∧ m.mid = nextMid o.lastMid := by
  cases a with
  | publish now io msg qos hqos retain =>
    rcases List.mem_append.mp hm with hm | hm
    · exact .inl hm
    · rw [List.mem_singleton.mp hm]
      exact .inr ⟨rfl, rfl⟩
  | handle io f =>
    cases hacked : f.acked with
    | none =>
      rw [Outbox.step_of_not_acked hacked] at hm
      exact .inl hm
    | some mid =>
      rw [Outbox.step_of_acked hacked] at hm
      exact .inl (List.mem_of_mem_eraseP hm)
  | subscribe => exact .inl hm
  | reconnect => exact .inl hm
  | retry => exact .inl hm

/-- Ids stay distinct as long as they are counted up. -/
theorem Outbox.Numbered.step (h : o.Numbered k) (a : SessionAct)
    (hk : k + (if a.takesMid then 1 else 0) ≤ 65535) :
    (o.step a).Numbered (k + if a.takesMid then 1 else 0) := by
  have hlast : (o.step a).lastMid.toNat = k + if a.takesMid then 1 else 0 := by
    cases ha : a.takesMid with
    | false =>
      rw [Outbox.lastMid_step_of_not ha]
      exact h.lastMid_eq
    | true =>
      rw [ha, if_pos rfl, ← h.lastMid_eq] at hk
      rw [Outbox.lastMid_step ha, toNat_nextMid hk, h.lastMid_eq, if_pos rfl]
  refine ⟨hlast, fun m hm => ?_, ?_⟩
  · rcases Outbox.mem_step hm with hm | ⟨ha, hmid⟩
    · exact (h.le m hm).trans (Nat.le_add_right _ _)
    · rw [hmid, ← Outbox.lastMid_step ha, hlast]
  · cases a with
    | publish now io msg qos hqos retain =>
      show ((o.messages ++ [_]).map Outgoing.mid).Nodup
      rw [List.map_append, List.map_singleton, List.nodup_append]
      refine ⟨h.nodup, List.nodup_singleton _, fun mid hmid mid' hmid' => ?_⟩
      obtain ⟨m, hm, rfl⟩ := List.mem_map.mp hmid
      rw [List.mem_singleton.mp hmid']
      intro heq
      have hle := h.le m hm
      rw [heq, toNat_nextMid (by rw [h.lastMid_eq]; exact hk), h.lastMid_eq] at hle
      omega
    | handle io f =>
      cases hacked : f.acked with
      | none =>
        rw [Outbox.step_of_not_acked hacked]
        exact h.nodup
      | some mid =>
        rw [Outbox.step_of_acked hacked]
        exact h.nodup.sublist (List.eraseP_sublist.map _)
    | subscribe => exact h.nodup
    | reconnect => exact h.nodup
    | retry => exact h.nodup

/-- And so in a whole run. -/
theorem Outbox.Numbered.foldl (as : List SessionAct) : ∀ {o : Outbox} {k : ℕ}, o.Numbered k →
    k + as.countP SessionAct.takesMid ≤ 65535 →
      (as.foldl Outbox.step o).Numbered (k + as.countP SessionAct.takesMid) := by
  induction as with
  | nil => exact fun h _ => h
  | cons a as ih =>
    intro o k h hk
    rw [List.countP_cons] at hk ⊢
    have hstep := ih (h.step a (by omega)) (by omega)
    rw [List.foldl_cons, Nat.add_comm (as.countP _), ← Nat.add_assoc]
    exact hstep

/-- At the start, no id is given. -/
theorem Outbox.numbered_init : (⟨0, []⟩ : Outbox).Numbered 0 :=
  ⟨rfl, by simp, List.nodup_nil⟩

/-- A message stays until its id is acknowledged. -/
theorem Outbox.mem_foldl {m : Outgoing} (as : List SessionAct) : ∀ {o : Outbox}, m ∈ o.messages →
    (∀ io f, SessionAct.handle io f ∈ as → f.acked ≠ some m.mid) →
      m ∈ (as.foldl Outbox.step o).messages := by
  induction as with
  | nil => exact fun h _ => h
  | cons a as ih =>
    intro o h hack
    refine ih ?_ fun io f hmem => hack io f (List.mem_cons_of_mem a hmem)
    cases a with
    | publish => exact List.mem_append_left _ h
    | handle io f =>
      have hne := hack io f List.mem_cons_self
      cases hacked : f.acked with
      | none => rwa [Outbox.step_of_not_acked hacked]
      | some mid =>
        rw [Outbox.step_of_acked hacked]
        have hmid : ¬m.mid = mid := fun heq => hne (hacked.trans (congrArg some heq.symm))
        exact (List.mem_eraseP_of_neg (by simpa using hmid)).mpr h
    | subscribe => exact h
    | reconnect => exact h
    | retry => exact h

/-- An id that has been used and that no message has is not used again. -/
theorem Outbox.absent_foldl {mid : UInt16} (as : List SessionAct) :
    ∀ {o : Outbox} {k : ℕ}, o.Numbered k → k + as.countP SessionAct.takesMid ≤ 65535 →
      mid.toNat ≤ k → (∀ m ∈ o.messages, m.mid ≠ mid) →
        ∀ m ∈ (as.foldl Outbox.step o).messages, m.mid ≠ mid := by
  induction as with
  | nil => exact fun _ _ _ h => h
  | cons a as ih =>
    intro o k h hk hmid habsent
    rw [List.countP_cons] at hk
    refine ih (h.step a (by omega)) (by omega) (hmid.trans (Nat.le_add_right _ _)) ?_
    intro m hm
    rcases Outbox.mem_step hm with hm | ⟨ha, hnext⟩
    · exact habsent m hm
    · rintro rfl
      rw [ha, if_pos rfl] at hk
      rw [hnext, toNat_nextMid (by rw [h.lastMid_eq]; omega), h.lastMid_eq] at hmid
      omega

/-- An acknowledgement removes the message whose id it names, when ids are distinct. -/
theorem ne_of_mem_eraseP {mid : UInt16} {l : List Outgoing} (hnodup : (l.map Outgoing.mid).Nodup) :
    ∀ m ∈ l.eraseP fun m => m.mid = mid, m.mid ≠ mid := by
  induction l with
  | nil => simp
  | cons n rest ih =>
    rw [List.map_cons, List.nodup_cons] at hnodup
    by_cases hn : n.mid = mid
    · rw [List.eraseP_cons_of_pos (by simpa using hn)]
      intro m hm heq
      exact hnodup.1 (hn ▸ heq ▸ List.mem_map_of_mem hm)
    · rw [List.eraseP_cons_of_neg (by simpa using hn)]
      intro m hm
      rcases List.mem_cons.mp hm with rfl | hm
      · exact hn
      · exact ih hnodup.2 m hm

/-- **Message ids are distinct** among the messages that a client keeps, in every run that takes no
more ids than there are. -/
theorem MosqState.nodup_mid {as : List SessionAct} {evs : List (List ClientEvent)}
    (hids : as.countP SessionAct.takesMid ≤ 65535)
    (hrun : PartialMachine.run MosqState.step .init as = some (evs, mosq)) :
    (mosq.outMessages.map MessageAll.mid).Nodup := by
  obtain ⟨-, hbox⟩ := MosqState.inv_init.of_run hrun
  change mosq.outbox = as.foldl Outbox.step ⟨0, []⟩ at hbox
  have hnumbered := Outbox.numbered_init.foldl as (by rwa [Nat.zero_add])
  rw [← hbox] at hnumbered
  have hmap : mosq.outbox.messages.map Outgoing.mid = mosq.outMessages.map MessageAll.mid := by
    rw [MosqState.outbox, List.map_map]
    rfl
  exact hmap ▸ hnumbered.nodup

/-- Two messages. -/
theorem MosqState.nodup_mid_two : ∃ evs mosq, PartialMachine.run MosqState.step .init
    [.publish 0 (fun _ => ⟨.success, true⟩) ⟨[97], []⟩ 1 (.inl rfl) false,
      .publish 0 (fun _ => ⟨.success, true⟩) ⟨[97], []⟩ 1 (.inl rfl) false] = some (evs, mosq) ∧
    (mosq.outMessages.map MessageAll.mid).Nodup := by
  have hrun : PartialMachine.run MosqState.step .init
      [.publish 0 (fun _ => ⟨.success, true⟩) ⟨[97], []⟩ 1 (.inl rfl) false,
        .publish 0 (fun _ => ⟨.success, true⟩) ⟨[97], []⟩ 1 (.inl rfl) false] = some (_, _) := rfl
  exact ⟨_, _, hrun, MosqState.nodup_mid (by decide) hrun⟩

/-- **A message is kept until it is acknowledged, and no longer**, in every run that takes no more
ids than there are. -/
theorem MosqState.kept_iff {pre post : List SessionAct} {now : ℕ} {io : MessageAll → SendResult}
    {msg : Message} {qos : ℕ} {hqos : qos = 1 ∨ qos = 2} {retain : Bool}
    {evs : List (List ClientEvent)}
    (hids : (pre ++ .publish now io msg qos hqos retain :: post).countP SessionAct.takesMid ≤ 65535)
    (hrun : PartialMachine.run MosqState.step .init
      (pre ++ .publish now io msg qos hqos retain :: post) = some (evs, mosq)) :
    (∃ m ∈ mosq.outMessages, m.outgoing =
        ⟨UInt16.ofNat (pre.countP SessionAct.takesMid + 1), msg, qos, retain⟩) ↔
      ∀ io f, SessionAct.handle io f ∈ post →
        f.acked ≠ some (UInt16.ofNat (pre.countP SessionAct.takesMid + 1)) := by
  obtain ⟨-, hbox⟩ := MosqState.inv_init.of_run hrun
  change mosq.outbox = (pre ++ .publish now io msg qos hqos retain :: post).foldl
    Outbox.step ⟨0, []⟩ at hbox
  have hmem : (∃ m ∈ mosq.outMessages, m.outgoing =
      ⟨UInt16.ofNat (pre.countP SessionAct.takesMid + 1), msg, qos, retain⟩) ↔
      ⟨UInt16.ofNat (pre.countP SessionAct.takesMid + 1), msg, qos, retain⟩ ∈
        mosq.outbox.messages := List.mem_map.symm
  rw [hmem, hbox, List.foldl_append, List.foldl_cons]
  rw [List.countP_append, List.countP_cons] at hids
  have htakes : SessionAct.takesMid (.publish now io msg qos hqos retain) = true := rfl
  rw [if_pos htakes] at hids
  have hpre := Outbox.numbered_init.foldl pre (by omega)
  rw [Nat.zero_add] at hpre
  generalize pre.foldl Outbox.step ⟨0, []⟩ = o at hpre
  have hmid : nextMid o.lastMid = UInt16.ofNat (pre.countP SessionAct.takesMid + 1) := by
    rw [← hpre.lastMid_eq, ← toNat_nextMid (by rw [hpre.lastMid_eq]; omega), UInt16.ofNat_toNat]
  have hstep := hpre.step (.publish now io msg qos hqos retain) (by rw [if_pos htakes]; omega)
  rw [if_pos htakes] at hstep
  constructor
  · intro hkept io' f hmem' hacked
    obtain ⟨post₁, post₂, rfl⟩ := List.append_of_mem hmem'
    rw [List.countP_append, List.countP_cons] at hids
    rw [List.foldl_append, List.foldl_cons] at hkept
    have hbefore := hstep.foldl post₁ (by omega)
    have hafter := hbefore.step (.handle io' f) (by omega)
    refine Outbox.absent_foldl post₂ hafter (by omega) ?_ ?_ _ hkept rfl
    · rw [UInt16.toNat_ofNat_of_lt' (show _ < 65536 by omega)]
      omega
    · rw [Outbox.step_of_acked hacked]
      exact ne_of_mem_eraseP hbefore.nodup
  · intro hnot
    refine Outbox.mem_foldl post ?_ hnot
    rw [Outbox.step, hmid]
    exact List.mem_append_right _ (List.mem_singleton_self _)

/-- A message that is acknowledged is not kept. -/
theorem MosqState.kept_iff_acked : ∃ evs mosq, PartialMachine.run MosqState.step .init
    ([] ++ .publish 0 (fun _ => ⟨.success, true⟩) ⟨[97], []⟩ 1 (.inl rfl) false ::
      [.handle ⟨0, true, true, true, ⟨.success, true⟩, fun _ => ⟨.success, true⟩⟩
        (midFrame pubackCmd 1 false)]) = some (evs, mosq) ∧
    ¬∃ m ∈ mosq.outMessages, m.outgoing = ⟨1, ⟨[97], []⟩, 1, false⟩ := by
  have hrun : PartialMachine.run MosqState.step .init
      ([] ++ .publish 0 (fun _ => ⟨.success, true⟩) ⟨[97], []⟩ 1 (.inl rfl) false ::
        [.handle ⟨0, true, true, true, ⟨.success, true⟩, fun _ => ⟨.success, true⟩⟩
          (midFrame pubackCmd 1 false)]) = some (_, _) := rfl
  refine ⟨_, _, hrun, fun hkept => ?_⟩
  exact (MosqState.kept_iff (by decide) hrun).mp hkept _ _ List.mem_cons_self rfl

end Psn

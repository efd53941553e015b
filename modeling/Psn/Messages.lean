import Psn.Friends
import Psn.Packet

/-!
# The messages of a client

A client of libmosquitto keeps every message with QoS 1 or 2 that it sends until the broker has
acknowledged it, and every message with QoS 2 that it receives until the broker releases it. At
most `max_inflight_messages` of the messages it sends are on their way at a time. The others wait,
in the state `mosq_ms_invalid`, until an acknowledgement makes room.

`MosqState` is the part of `struct mosquitto` that this is about. Its two chains of messages are
lists here, so `in_messages_last` and `out_messages_last` are the ends of these lists. The code
keeps to that with one exception, a reconnect at which messages have been received with QoS 2 and
none are to be sent (see `messagesReconnectReset`); what it does after such a reconnect is left
out. psn subscribes with QoS 1, so its broker sends it no message with QoS 2.

The counters are of type `int` and have no bound here: each of them is at most the number of
messages that are kept in memory.

## Main definitions

* `MsgState`, `MessageAll`, `MosqState`: the types
* `midGenerate`, `messageQueueOut`, `messageQueueIn`, `messageRemoveOut`, `messageRemoveIn`,
  `messageOutUpdate`, `messagesReconnectReset`, `messageRetryCheck`: `messages_mosq.c`
* `publishQueue`: `mosquitto_publish` behind its checks
-/

namespace Psn

/-- `enum mosquitto_msg_state`. -/
inductive MsgState
  | invalid
  | publishQos0
  | publishQos1
  | waitForPuback
  | publishQos2
  | waitForPubrec
  | resendPubrel
  | waitForPubrel
  | resendPubcomp
  | waitForPubcomp
  | sendPubrec
  | queued
  deriving DecidableEq, Repr

/-- `struct mosquitto_message_all`. -/
structure MessageAll where
  /-- `timestamp`. -/
  timestamp : ℕ
  /-- `state`. -/
  state : MsgState
  /-- `dup`. -/
  dup : Bool
  /-- `msg.mid`. -/
  mid : UInt16
  /-- `msg.topic`, `msg.payload` and `msg.payloadlen`. -/
  msg : Message
  /-- `msg.qos`. -/
  qos : ℕ
  /-- `msg.retain`. -/
  retain : Bool
  deriving DecidableEq

/-- The fields of `struct mosquitto` that keep track of messages. -/
structure MosqState where
  /-- `last_mid`. -/
  lastMid : UInt16
  /-- `in_messages`. -/
  inMessages : List MessageAll
  /-- `out_messages`. -/
  outMessages : List MessageAll
  /-- `inflight_messages`. -/
  inflightMessages : ℤ
  /-- `max_inflight_messages`. -/
  maxInflightMessages : ℤ
  /-- `message_retry`. -/
  messageRetry : ℕ
  /-- `in_queue_len`. -/
  inQueueLen : ℤ
  /-- `out_queue_len`. -/
  outQueueLen : ℤ

/-- The fields as `mosquitto_reinitialise` sets them. -/
def MosqState.init : MosqState := ⟨0, [], [], 0, 20, 20, 0, 0⟩

/-- `max_inflight_messages == 0 || inflight_messages < max_inflight_messages`. -/
def room (max inflight : ℤ) : Bool := decide (max = 0 ∨ inflight < max)

/-- What sending a packet comes to: the return code, and whether the packet was queued. -/
structure SendResult where
  /-- The return code. -/
  rc : MosqErr
  /-- The packet was queued. -/
  queued : Bool
  deriving DecidableEq, Repr

/-- The packets of a send. -/
def SendResult.frames (r : SendResult) (f : Frame) : List Frame := if r.queued then [f] else []

/-- The publish of a message. -/
def MessageAll.frame (m : MessageAll) : Frame :=
  publishFrame m.mid m.msg.topic m.msg.payload m.qos m.retain m.dup

/-! ### Message ids -/

/-- The id after `mid`. -/
def nextMid (mid : UInt16) : UInt16 := if mid + 1 = 0 then 1 else mid + 1

/-- `_mosquitto_mid_generate`. -/
def midGenerate (mosq : MosqState) : UInt16 × MosqState :=
  (nextMid mosq.lastMid, { mosq with lastMid := nextMid mosq.lastMid })

/-! ### The queues -/

/-- `_mosquitto_message_queue` for a message to send. -/
def messageQueueOut (mosq : MosqState) (message : MessageAll) : MosqState :=
  { mosq with
    outMessages := mosq.outMessages ++ [message]
    outQueueLen := mosq.outQueueLen + 1 }

/-- `_mosquitto_message_queue` for a message that was received. -/
def messageQueueIn (mosq : MosqState) (message : MessageAll) : MosqState :=
  { mosq with
    inMessages := mosq.inMessages ++ [message]
    inQueueLen := mosq.inQueueLen + 1
    inflightMessages :=
      if message.qos > 0 ∧ room mosq.maxInflightMessages mosq.inflightMessages then
        mosq.inflightMessages + 1
      else mosq.inflightMessages }

/-- The state of a message that is sent. -/
def MessageAll.start (m : MessageAll) : MessageAll :=
  { m with state :=
      if m.qos = 1 then .waitForPuback else if m.qos = 2 then .waitForPubrec else m.state }

/-- What the loop of `_mosquitto_message_remove` that sends waiting messages comes to. -/
structure Promoted where
  /-- The return code. -/
  rc : MosqErr
  /-- `inflight_messages`. -/
  inflight : ℤ
  /-- The messages. -/
  messages : List MessageAll
  /-- The packets that were queued. -/
  frames : List Frame

/-- The loop of `_mosquitto_message_remove` that sends waiting messages while there is room. -/
def promote (max : ℤ) (io : MessageAll → SendResult) : ℤ → List MessageAll → Promoted
  | inflight, [] => ⟨.success, inflight, [], []⟩
  | inflight, cur :: rest =>
    if room max inflight then
      if cur.qos > 0 ∧ cur.state = .invalid then
        if (io cur.start).rc = .success then
          let p := promote max io (inflight + 1) rest
          { p with
            messages := cur.start :: p.messages
            frames := (io cur.start).frames cur.start.frame ++ p.frames }
        else ⟨(io cur.start).rc, inflight + 1, cur.start :: rest,
          (io cur.start).frames cur.start.frame⟩
      else
        let p := promote max io inflight rest
        { p with messages := cur :: p.messages }
    else ⟨.success, inflight, cur :: rest, []⟩

/-- What a call that removes a message comes to. -/
structure Removed where
  /-- The return code. -/
  rc : MosqErr
  /-- The message, when it was found. -/
  message : Option MessageAll
  /-- The state after it. -/
  mosq : MosqState
  /-- The packets that were queued. -/
  frames : List Frame

/-- `_mosquitto_message_remove` for a message that was sent. -/
def messageRemoveOut (io : MessageAll → SendResult) (mosq : MosqState) (mid : UInt16) : Removed :=
  match mosq.outMessages.find? fun cur => cur.mid = mid with
  | none => ⟨.notFound, none, mosq, []⟩
  | some cur =>
    let p := promote mosq.maxInflightMessages io
      (if cur.qos > 0 then mosq.inflightMessages - 1 else mosq.inflightMessages)
      (mosq.outMessages.eraseP fun cur => cur.mid = mid)
    ⟨p.rc, some cur, { mosq with
      outMessages := p.messages
      inflightMessages := p.inflight
      outQueueLen := mosq.outQueueLen - 1 }, p.frames⟩

/-- `_mosquitto_message_remove` for a message that was received. -/
def messageRemoveIn (mosq : MosqState) (mid : UInt16) : Removed :=
  match mosq.inMessages.find? fun cur => cur.mid = mid with
  | none => ⟨.notFound, none, mosq, []⟩
  | some cur => ⟨.success, some cur, { mosq with
      inMessages := mosq.inMessages.eraseP fun cur => cur.mid = mid
      inQueueLen := mosq.inQueueLen - 1
      inflightMessages :=
        if cur.qos = 2 then mosq.inflightMessages - 1 else mosq.inflightMessages }, []⟩

/-- `_mosquitto_message_out_update`. -/
def messageOutUpdate (mosq : MosqState) (mid : UInt16) (state : MsgState) (now : ℕ) :
    MosqErr × MosqState :=
  match mosq.outMessages.findIdx? fun cur => cur.mid = mid with
  | none => (.notFound, mosq)
  | some i => (.success, { mosq with
      outMessages := mosq.outMessages.modify i fun m =>
        { m with state := state, timestamp := now } })

/-! ### After a reconnect -/

/-- The first loop of `_mosquitto_messages_reconnect_reset`, with the count of the messages that it
comes to. It goes on from the message behind the one it is at, and when it has dropped the first
message it is at the second; when there is none, that is a NULL pointer. -/
def resetIn : (first : Bool) → List MessageAll → Option (ℤ × List MessageAll)
  | _, [] => some (0, [])
  | true, [m] => if m.qos ≠ 2 then none else some (1, [{ m with timestamp := 0 }])
  | true, m :: n :: rest =>
    if m.qos ≠ 2 then (resetIn false rest).map fun r => (r.1 + 1, n :: r.2)
    else (resetIn false (n :: rest)).map fun r => (r.1 + 1, { m with timestamp := 0 } :: r.2)
  | false, m :: rest =>
    if m.qos ≠ 2 then (resetIn false rest).map fun r => (r.1 + 1, r.2)
    else (resetIn false rest).map fun r => (r.1 + 1, { m with timestamp := 0 } :: r.2)

/-- The second loop of `_mosquitto_messages_reconnect_reset`. -/
def resetOut (max : ℤ) : ℤ → List MessageAll → ℤ × List MessageAll
  | inflight, [] => (inflight, [])
  | inflight, m :: rest =>
    let inflight := if m.qos > 0 then inflight + 1 else inflight
    let m := { m with
      timestamp := 0
      state := if room max inflight then (if m.qos = 1 then .waitForPuback else m.state)
        else .invalid }
    ((resetOut max inflight rest).1, m :: (resetOut max inflight rest).2)

/-- `_mosquitto_messages_reconnect_reset`. One `prev` serves both loops: with messages received and
none to send it stays at the last one received, and `out_messages_last` with it. The next message
that is published would be chained behind that one and be missing from `out_messages`. The two
lists are not two lists any more then, and the reset has no result here. -/
def messagesReconnectReset (mosq : MosqState) : Option MosqState := do
  let r ← resetIn true mosq.inMessages
  if r.2 ≠ [] ∧ mosq.outMessages = [] then none
  else some { mosq with
    inQueueLen := r.1
    inMessages := r.2
    inflightMessages := (resetOut mosq.maxInflightMessages 0 mosq.outMessages).1
    outMessages := (resetOut mosq.maxInflightMessages 0 mosq.outMessages).2
    outQueueLen := mosq.outMessages.length }

/-! ### Sending again -/

/-- What `_mosquitto_message_retry_check_actual` does with one message. -/
def retryOne (retry now : ℕ) (io : MessageAll → SendResult) (m : MessageAll) :
    MessageAll × List Frame :=
  if m.timestamp + retry < now then
    let again := { m with timestamp := now, dup := true }
    match m.state with
    | .waitForPuback => (again, (io again).frames again.frame)
    | .waitForPubrec => (again, (io again).frames again.frame)
    | .waitForPubrel => (again, (io again).frames (midFrame pubrecCmd m.mid false))
    | .waitForPubcomp => (again, (io again).frames (midFrame (pubrelCmd ||| 2) m.mid true))
    | _ => (m, [])
  else (m, [])

/-- `_mosquitto_message_retry_check`. -/
def messageRetryCheck (now : ℕ) (io : MessageAll → SendResult) (mosq : MosqState) :
    MosqState × List Frame :=
  ({ mosq with
      outMessages := mosq.outMessages.map fun m => (retryOne mosq.messageRetry now io m).1
      inMessages := mosq.inMessages.map fun m => (retryOne mosq.messageRetry now io m).1 },
    mosq.outMessages.flatMap (fun m => (retryOne mosq.messageRetry now io m).2) ++
      mosq.inMessages.flatMap fun m => (retryOne mosq.messageRetry now io m).2)

/-! ### Publishing -/

/-- `mosquitto_publish` with QoS 1 or 2, behind its checks and with memory for the message. -/
def publishQueue (now : ℕ) (io : MessageAll → SendResult) (mosq : MosqState) (msg : Message)
    (qos : ℕ) (retain : Bool) : MosqErr × MosqState × List Frame :=
  let mid := (midGenerate mosq).1
  let mosq := (midGenerate mosq).2
  let message : MessageAll := ⟨now, .invalid, false, mid, msg, qos, retain⟩
  if room mosq.maxInflightMessages mosq.inflightMessages then
    ((io message.start).rc,
      { messageQueueOut mosq message.start with
        inflightMessages := mosq.inflightMessages + 1 },
      (io message.start).frames message.start.frame)
  else (.success, messageQueueOut mosq message, [])

end Psn

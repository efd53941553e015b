import Mathlib.Data.List.Induction
import Mathlib.Logic.Function.Basic
import Psn.Retained

/-!
# What the broker does with a packet

Between a client and the subscription tree are the handlers of the broker. They check what the
client asks for, and keep its messages with QoS 2 until it releases them.

A PUBLISH with QoS 0 or 1 is routed at once, one with QoS 2 when the PUBREL for it comes. In between
the broker knows the message by its id, and this goes wrong in one case.
`mqtt3_db_message_store_find` looks for the id of every PUBLISH, also of one with QoS 1. When there
is a message with this id that is not released, the PUBLISH is routed by its own topic, but what is
delivered is the other message: somebody gets what was sent to somebody else. The message that was
found may even be one that was refused. It has no topic, and the broker does not survive sending it
(`assert(topic)` in `_mosquitto_send_publish`).

Each act here is one topic of a packet, so a SUBSCRIBE with several topics is several acts. A packet
that makes a handler fail ends the connection, which is an act of its own.

Several things are left out. Which user a client belongs to does not change, although a client id
can be taken over by another user. There are no wills, whose topics may have wildcards, no bridges
that map topics, no mount points, and no messages that the broker publishes below `$SYS` or restores
from a file. The queues to the clients are not modelled: a delivery is a call of
`mqtt3_db_message_insert`, which drops it when the queue is full, and whether there is room for an
incoming message with QoS 2 is part of the act.

## Main definitions

* `MosquittoDb`: the tree, and the messages that are not released
* `mqtt3HandlePublish`, `mqtt3DbMessageRelease`, `mqtt3HandleSubscribe`: the handlers
* `MosquittoDb.step`: one act of a client
* `MosquittoDb.routed`: the message that the act makes the broker route

## Main results

* `MosquittoDb.step_cases`: what an act does to the tree
* `MosquittoDb.exists_passed`: a run of the broker is one of the tree
* `MosquittoDb.traced_of_run`: where messages come from
-/

namespace Psn

open PartialMachine

variable {κ : Type}

/-! ### The handlers -/

/-- `struct mosquitto_client_msg` of a message that comes in. -/
structure ClientMsg where
  /-- `mid`. -/
  mid : UInt16
  /-- `retain`. -/
  retain : Bool
  /-- `store`. -/
  store : MsgStore

/-- A PUBLISH. -/
structure PublishPacket where
  /-- `topic`. -/
  topic : CStr
  /-- The payload. -/
  payload : Bytes
  /-- `qos`. -/
  qos : ℕ
  /-- `retain`. -/
  retain : Bool
  /-- `mid`, which a packet with QoS 0 does not have. -/
  mid : UInt16
  deriving DecidableEq

/-- What a client sends to the broker, and the end of its session. -/
inductive ClientAct
  /-- A PUBLISH, and whether there is room for another message with QoS 2. -/
  | publish (packet : PublishPacket) (room : Bool)
  /-- A PUBREL. -/
  | pubrel (mid : UInt16)
  /-- A topic of a SUBSCRIBE, and whether the client speaks MQTT 3.1.1. -/
  | subscribe (sub : CStr) (qos : ℕ) (mqtt311 : Bool)
  /-- A topic of an UNSUBSCRIBE. -/
  | unsubscribe (sub : CStr)
  /-- The client is gone, and its session ends. -/
  | clean

/-- How the broker is configured. -/
structure BrokerConfig (κ : Type) extends SubsConfig κ where
  /-- `mosquitto_acl_check` for writing. -/
  aclWrite : κ → CStr → MosqErr
  /-- `message_size_limit`, and 0 for no limit. -/
  messageSizeLimit : ℕ

/-- `struct mosquitto_db`, with the messages that clients have not released yet. -/
structure MosquittoDb (κ : Type) where
  /-- `subs`. -/
  subs : SubDb κ
  /-- `context->msgs`, as far as they come in. -/
  msgs : κ → List ClientMsg

/-- The state after `mqtt3_db_open`. -/
def MosquittoDb.init : MosquittoDb κ := ⟨.init, fun _ => []⟩

/-- `mqtt3_db_message_store_find`. -/
def mqtt3DbMessageStoreFind (msgs : List ClientMsg) (mid : UInt16) : Option MsgStore :=
  (msgs.find? fun tail => tail.store.sourceMid = mid).map ClientMsg.store

/-- `mqtt3_db_message_store`, for a packet. -/
def PublishPacket.store (sourceId : CStr) (packet : PublishPacket) : MsgStore :=
  ⟨sourceId, if packet.qos > 0 then packet.mid else 0, some packet.topic, packet.payload,
    packet.qos⟩

/-- The same for a packet that is refused. -/
def PublishPacket.refused (sourceId : CStr) (packet : PublishPacket) : MsgStore :=
  ⟨sourceId, packet.mid, none, [], packet.qos⟩

/-- The payload is larger than the broker allows. -/
def BrokerConfig.TooLarge (config : BrokerConfig κ) (packet : PublishPacket) : Prop :=
  packet.payload ≠ [] ∧ config.messageSizeLimit ≠ 0 ∧
    packet.payload.length > config.messageSizeLimit

instance (config : BrokerConfig κ) (packet : PublishPacket) : Decidable (config.TooLarge packet) :=
  inferInstanceAs (Decidable (_ ∧ _ ∧ _))

section Handlers

variable [DecidableEq κ]

/-- `mqtt3_db_message_insert` for a message that comes in. -/
def MosquittoDb.insert (db : MosquittoDb κ) (context : κ) (msg : ClientMsg) (room : Bool) :
    MosquittoDb κ :=
  if room then { db with msgs := Function.update db.msgs context (db.msgs context ++ [msg]) }
  else db

/-- `mqtt3_handle_publish`. -/
def mqtt3HandlePublish (config : BrokerConfig κ) (db : MosquittoDb κ) (context : κ)
    (packet : PublishPacket) (room : Bool) : List (Delivery κ) × MosquittoDb κ :=
  if packet.qos > 2 ∨ ¬IsTopic packet.topic then ([], db)
  else if config.TooLarge packet ∨ config.aclWrite context packet.topic = .aclDenied then
    -- `process_bad_message`
    if packet.qos = 2 ∧ mqtt3DbMessageStoreFind (db.msgs context) packet.mid = none then
      ([], db.insert context ⟨packet.mid, false, packet.refused (config.id context)⟩ room)
    else ([], db)
  else if config.aclWrite context packet.topic ≠ .success then ([], db)
  else
    let found :=
      if packet.qos > 0 then mqtt3DbMessageStoreFind (db.msgs context) packet.mid else none
    let stored := found.getD (packet.store (config.id context))
    if packet.qos = 2 then
      if found = none then ([], db.insert context ⟨packet.mid, packet.retain, stored⟩ room)
      else ([], db)
    else
      let r := mqtt3DbMessagesQueue config.toSubsConfig db.subs
        ⟨some (config.id context), packet.topic, packet.qos, packet.retain, stored⟩
      (r.1, { db with subs := r.2 })

/-- `mqtt3_db_message_release`, for a PUBREL. The loop is over all messages with the id, and there
is never more than one (`MosquittoDb.traced_of_run`). -/
def mqtt3DbMessageRelease (config : BrokerConfig κ) (db : MosquittoDb κ) (context : κ)
    (mid : UInt16) : List (Delivery κ) × MosquittoDb κ :=
  match (db.msgs context).find? fun tail => tail.mid = mid with
  | none => ([], db)
  | some tail =>
    let msgs := Function.update db.msgs context ((db.msgs context).eraseP fun t => t.mid = mid)
    match tail.store.topic with
    | none => ([], { db with msgs := msgs })
    | some topic =>
      let r := mqtt3DbMessagesQueue config.toSubsConfig db.subs
        ⟨some tail.store.sourceId, topic, tail.store.qos, tail.retain, tail.store⟩
      (r.1, ⟨r.2, msgs⟩)

/-- The loop of `mqtt3_handle_subscribe`, for one topic. -/
def mqtt3HandleSubscribe (config : BrokerConfig κ) (db : MosquittoDb κ) (context : κ) (sub : CStr)
    (qos : ℕ) (mqtt311 : Bool) : List (Delivery κ) × MosquittoDb κ :=
  if ¬IsFilter sub ∨ qos > 2 then ([], db)
  else if mqtt311 ∧ config.aclRead context sub = .aclDenied then ([], db)
  else
    let subs := mqtt3SubAdd config.id db.subs context sub qos
    (mqtt3RetainQueue config.toSubsConfig context qos subs sub, { db with subs := subs })

/-- The loop of `mqtt3_handle_unsubscribe`, for one topic. -/
def mqtt3HandleUnsubscribe (db : MosquittoDb κ) (context : κ) (sub : CStr) : MosquittoDb κ :=
  if IsFilter sub then { db with subs := mqtt3SubRemove db.subs context sub } else db

/-- What `mqtt3_context_cleanup` does when the session ends. -/
def mqtt3ContextCleanup (db : MosquittoDb κ) (context : κ) : MosquittoDb κ :=
  ⟨mqtt3SubsCleanSession db.subs context, Function.update db.msgs context []⟩

/-- One act of a client. -/
def MosquittoDb.step (config : BrokerConfig κ) (db : MosquittoDb κ) :
    κ × ClientAct → Option (List (Delivery κ) × MosquittoDb κ)
  | (context, .publish packet room) => some (mqtt3HandlePublish config db context packet room)
  | (context, .pubrel mid) => some (mqtt3DbMessageRelease config db context mid)
  | (context, .subscribe sub qos mqtt311) =>
    some (mqtt3HandleSubscribe config db context sub qos mqtt311)
  | (context, .unsubscribe sub) => some ([], mqtt3HandleUnsubscribe db context sub)
  | (context, .clean) => some ([], mqtt3ContextCleanup db context)

/-- The broker stops at nothing that clients send. -/
theorem MosquittoDb.exists_step (config : BrokerConfig κ) (db : MosquittoDb κ)
    (a : κ × ClientAct) : ∃ out db', MosquittoDb.step config db a = some (out, db') := by
  obtain ⟨context, act⟩ := a
  cases act <;> exact ⟨_, _, rfl⟩

theorem MosquittoDb.exists_run (config : BrokerConfig κ) (acts : List (κ × ClientAct)) :
    ∀ db : MosquittoDb κ, ∃ outs db', run (MosquittoDb.step config) db acts = some (outs, db') := by
  induction acts with
  | nil => exact fun db => ⟨[], db, rfl⟩
  | cons a acts ih =>
    intro db
    obtain ⟨out, middle, hstep⟩ := MosquittoDb.exists_step config db a
    obtain ⟨outs, db', hrun⟩ := ih middle
    exact ⟨_, _, run_cons_eq_some.mpr ⟨out, middle, outs, hstep, hrun, rfl⟩⟩

end Handlers

/-! ### What an act does -/

/-- The broker accepts a PUBLISH. -/
def BrokerConfig.Accepts (config : BrokerConfig κ) (context : κ) (packet : PublishPacket) : Prop :=
  packet.qos ≤ 2 ∧ IsTopic packet.topic ∧ ¬config.TooLarge packet ∧
    config.aclWrite context packet.topic = .success

instance (config : BrokerConfig κ) (context : κ) (packet : PublishPacket) :
    Decidable (config.Accepts context packet) := inferInstanceAs (Decidable (_ ∧ _ ∧ _ ∧ _))

/-- The broker grants a subscription. -/
def BrokerConfig.Grants (config : BrokerConfig κ) (context : κ) (sub : CStr) (qos : ℕ)
    (mqtt311 : Bool) : Prop :=
  IsFilter sub ∧ qos ≤ 2 ∧ ¬(mqtt311 ∧ config.aclRead context sub = .aclDenied)

instance (config : BrokerConfig κ) (context : κ) (sub : CStr) (qos : ℕ) (mqtt311 : Bool) :
    Decidable (config.Grants context sub qos mqtt311) := inferInstanceAs (Decidable (_ ∧ _ ∧ _))

/-- What an act does to the subscriptions. -/
def BrokerConfig.granted (config : BrokerConfig κ) : κ × ClientAct → Option (SubAct κ)
  | (context, .subscribe sub qos mqtt311) =>
    if config.Grants context sub qos mqtt311 then some (.subscribe context sub qos) else none
  | (context, .unsubscribe sub) => some (.unsubscribe context sub)
  | (context, .clean) => some (.clean context)
  | (_, .publish _ _) => none
  | (_, .pubrel _) => none

/-- The message that the broker delivers for a PUBLISH with QoS 0 or 1. -/
def MosquittoDb.stored (config : BrokerConfig κ) (db : MosquittoDb κ) (context : κ)
    (packet : PublishPacket) : MsgStore :=
  (if packet.qos > 0 then mqtt3DbMessageStoreFind (db.msgs context) packet.mid else none).getD
    (packet.store (config.id context))

/-- The message that an act makes the broker route: one with QoS 0 or 1 that is published, or one
with QoS 2 that is released. -/
def MosquittoDb.routed (config : BrokerConfig κ) (db : MosquittoDb κ) :
    κ × ClientAct → Option Publication
  | (context, .publish packet _) =>
    if config.Accepts context packet ∧ packet.qos < 2 then
      some ⟨some (config.id context), packet.topic, packet.qos, packet.retain,
        db.stored config context packet⟩
    else none
  | (context, .pubrel mid) =>
    ((db.msgs context).find? fun tail => tail.mid = mid).bind fun tail =>
      tail.store.topic.map fun topic =>
        ⟨some tail.store.sourceId, topic, tail.store.qos, tail.retain, tail.store⟩
  | (_, .subscribe _ _ _) => none
  | (_, .unsubscribe _) => none
  | (_, .clean) => none

section Effect

variable [DecidableEq κ] {config : BrokerConfig κ} {db db' : MosquittoDb κ} {context : κ}
  {packet : PublishPacket} {room : Bool}

theorem subs_insert (msg : ClientMsg) : (db.insert context msg room).subs = db.subs := by
  rw [MosquittoDb.insert]
  split <;> rfl

theorem msgs_insert (db : MosquittoDb κ) (context : κ) (msg : ClientMsg) (room : Bool) (x : κ) :
    (db.insert context msg room).msgs x = db.msgs x ∨
      x = context ∧ (db.insert context msg room).msgs x = db.msgs x ++ [msg] := by
  rw [MosquittoDb.insert]
  split
  · by_cases hx : x = context
    · subst hx
      exact .inr ⟨rfl, Function.update_self _ _ _⟩
    · exact .inl (Function.update_of_ne hx _ _)
  · exact .inl rfl

/-- A PUBLISH that is accepted. -/
theorem mqtt3HandlePublish_of_accepts (h : config.Accepts context packet) :
    mqtt3HandlePublish config db context packet room =
      if packet.qos = 2 then
        ([], if mqtt3DbMessageStoreFind (db.msgs context) packet.mid = none then
          db.insert context ⟨packet.mid, packet.retain, packet.store (config.id context)⟩ room
          else db)
      else
        let r := mqtt3DbMessagesQueue config.toSubsConfig db.subs
          ⟨some (config.id context), packet.topic, packet.qos, packet.retain,
            db.stored config context packet⟩
        (r.1, { db with subs := r.2 }) := by
  obtain ⟨hqos, htopic, hlarge, hacl⟩ := h
  rw [mqtt3HandlePublish, if_neg (by rw [not_or, not_not]; exact ⟨by omega, htopic⟩),
    if_neg (by rw [not_or, hacl]; exact ⟨hlarge, by decide⟩), if_neg (not_not.mpr hacl)]
  by_cases htwo : packet.qos = 2
  · have hpos : packet.qos > 0 := by omega
    simp only [if_pos htwo, if_pos hpos]
    by_cases hfind : mqtt3DbMessageStoreFind (db.msgs context) packet.mid = none
    · rw [if_pos hfind, if_pos hfind, hfind]
      rfl
    · rw [if_neg hfind, if_neg hfind]
  · rw [if_neg htwo, if_neg htwo]
    rfl

/-- A PUBLISH that is not accepted. -/
theorem mqtt3HandlePublish_of_not_accepts (db : MosquittoDb κ) (room : Bool)
    (h : ¬config.Accepts context packet) :
    mqtt3HandlePublish config db context packet room = ([], db) ∨
      packet.qos = 2 ∧ mqtt3DbMessageStoreFind (db.msgs context) packet.mid = none ∧
        mqtt3HandlePublish config db context packet room =
          ([], db.insert context ⟨packet.mid, false, packet.refused (config.id context)⟩ room) := by
  rw [mqtt3HandlePublish]
  split
  · exact .inl rfl
  rename_i hvalid
  rw [not_or, not_not] at hvalid
  split
  · split
    · rename_i hfind
      exact .inr ⟨hfind.1, hfind.2, rfl⟩
    · exact .inl rfl
  rename_i hgood
  rw [not_or] at hgood
  split
  · exact .inl rfl
  · rename_i hacl
    exact absurd ⟨by omega, hvalid.2, hgood.1, not_not.mp hacl⟩ h

/-- What a PUBLISH does to the tree. -/
theorem publish_cases {r : List (Delivery κ) × MosquittoDb κ}
    (hr : r = mqtt3HandlePublish config db context packet room) :
    (db.routed config (context, .publish packet room) = none ∧ r.1 = [] ∧
        r.2.subs = db.subs) ∨
      ∃ m, db.routed config (context, .publish packet room) = some m ∧
        (r.1, r.2.subs) = mqtt3DbMessagesQueue config.toSubsConfig db.subs m := by
  dsimp only [MosquittoDb.routed]
  by_cases haccepts : config.Accepts context packet
  · rw [mqtt3HandlePublish_of_accepts haccepts] at hr
    have hqos := haccepts.1
    by_cases htwo : packet.qos = 2
    · rw [if_pos htwo] at hr
      rw [if_neg (by omega), hr]
      refine .inl ⟨rfl, rfl, ?_⟩
      dsimp only
      split
      · exact subs_insert _
      · rfl
    · rw [if_neg htwo] at hr
      rw [if_pos ⟨haccepts, by omega⟩, hr]
      exact .inr ⟨_, rfl, rfl⟩
  · rw [if_neg fun h => haccepts h.1]
    rcases mqtt3HandlePublish_of_not_accepts db room haccepts with heq | ⟨-, -, heq⟩
    · rw [hr, heq]
      exact .inl ⟨rfl, rfl, rfl⟩
    · rw [hr, heq]
      exact .inl ⟨rfl, rfl, subs_insert _⟩

/-- What a PUBREL does to the tree. -/
theorem pubrel_cases {mid : UInt16} {r : List (Delivery κ) × MosquittoDb κ}
    (hr : r = mqtt3DbMessageRelease config db context mid) :
    (db.routed config (context, .pubrel mid) = none ∧ r.1 = [] ∧ r.2.subs = db.subs) ∨
      ∃ m, db.routed config (context, .pubrel mid) = some m ∧
        (r.1, r.2.subs) = mqtt3DbMessagesQueue config.toSubsConfig db.subs m := by
  rw [mqtt3DbMessageRelease] at hr
  dsimp only [MosquittoDb.routed]
  cases hfind : (db.msgs context).find? fun tail => tail.mid = mid with
  | none =>
    rw [hfind] at hr
    exact .inl ⟨rfl, hr ▸ rfl, hr ▸ rfl⟩
  | some tail =>
    rw [hfind] at hr
    cases htopic : tail.store.topic with
    | none =>
      simp only [htopic] at hr
      exact .inl ⟨by rw [Option.bind_some, htopic]; rfl, hr ▸ rfl, hr ▸ rfl⟩
    | some topic =>
      simp only [htopic] at hr
      refine .inr
        ⟨⟨some tail.store.sourceId, topic, tail.store.qos, tail.retain, tail.store⟩, ?_, ?_⟩
      · rw [Option.bind_some, htopic]
        rfl
      · rw [hr]

/-- **What an act does to the tree**: nothing, or it routes a message, or it changes subscriptions
and brings the client what is retained. -/
theorem MosquittoDb.step_cases {a : κ × ClientAct} {out : List (Delivery κ)}
    (hstep : MosquittoDb.step config db a = some (out, db')) :
    (db.routed config a = none ∧ config.granted a = none ∧ out = [] ∧ db'.subs = db.subs) ∨
      (∃ m, db.routed config a = some m ∧ config.granted a = none ∧
        (out, db'.subs) = mqtt3DbMessagesQueue config.toSubsConfig db.subs m) ∨
      ∃ act, db.routed config a = none ∧ config.granted a = some act ∧
        (∀ m, act ≠ .publish m) ∧
        SubDb.step config.toSubsConfig db.subs act = some ([], db'.subs) ∧
          ∀ d ∈ out, db'.subs.Keeps d.stored ∧ RetainedDelivery config.toSubsConfig a.1 d := by
  obtain ⟨context, act⟩ := a
  have hnone : ∀ d ∈ ([] : List (Delivery κ)),
      db'.subs.Keeps d.stored ∧ RetainedDelivery config.toSubsConfig context d :=
    fun d hd => absurd hd List.not_mem_nil
  cases act with
  | publish packet room =>
    rcases publish_cases (Option.some.inj hstep).symm with ⟨hrouted, hout, hsubs⟩ | ⟨m, hm⟩
    · exact .inl ⟨hrouted, rfl, hout, hsubs⟩
    · exact .inr (.inl ⟨m, hm.1, rfl, hm.2⟩)
  | pubrel mid =>
    rcases pubrel_cases (Option.some.inj hstep).symm with ⟨hrouted, hout, hsubs⟩ | ⟨m, hm⟩
    · exact .inl ⟨hrouted, rfl, hout, hsubs⟩
    · exact .inr (.inl ⟨m, hm.1, rfl, hm.2⟩)
  | subscribe sub qos mqtt311 =>
    have hresult := Option.some.inj hstep
    rw [mqtt3HandleSubscribe] at hresult
    dsimp only [BrokerConfig.granted]
    by_cases hgrants : config.Grants context sub qos mqtt311
    · obtain ⟨hfilter, hqos, hacl⟩ := hgrants
      rw [if_neg (by rw [not_or, not_not]; exact ⟨hfilter, by omega⟩), if_neg hacl] at hresult
      obtain ⟨rfl, rfl⟩ := Prod.mk.inj hresult
      refine .inr (.inr ⟨_, rfl, if_pos ⟨hfilter, hqos, hacl⟩, fun m heq => ?_, ?_, fun d hd =>
        keeps_of_mem_retainQueue hd⟩)
      · cases heq
      · rw [SubDb.step, if_pos hfilter]
    · refine .inl ⟨rfl, if_neg hgrants, ?_⟩
      split at hresult
      · obtain ⟨rfl, rfl⟩ := Prod.mk.inj hresult
        exact ⟨rfl, rfl⟩
      rename_i hvalid
      rw [not_or, not_not] at hvalid
      split at hresult
      · obtain ⟨rfl, rfl⟩ := Prod.mk.inj hresult
        exact ⟨rfl, rfl⟩
      · rename_i hacl
        exact absurd ⟨hvalid.1, by omega, hacl⟩ hgrants
  | unsubscribe sub =>
    obtain ⟨rfl, rfl⟩ := Prod.mk.inj (Option.some.inj hstep)
    refine .inr (.inr ⟨_, rfl, rfl, fun m heq => ?_, ?_, hnone⟩)
    · cases heq
    · rw [SubDb.step, mqtt3HandleUnsubscribe]
      split <;> rfl
  | clean =>
    obtain ⟨rfl, rfl⟩ := Prod.mk.inj (Option.some.inj hstep)
    refine .inr (.inr ⟨_, rfl, rfl, fun m heq => ?_, rfl, hnone⟩)
    cases heq

/-- What is delivered of a message that is routed. -/
theorem MosquittoDb.out_of_routed {a : κ × ClientAct} {out : List (Delivery κ)} {m : Publication}
    (hstep : MosquittoDb.step config db a = some (out, db')) (hm : db.routed config a = some m) :
    out = (mqtt3DbMessagesQueue config.toSubsConfig db.subs m).1 := by
  rcases MosquittoDb.step_cases hstep with ⟨hnone, -⟩ | ⟨m', hm', -, heq⟩ | ⟨act, hnone, -⟩
  · cases hnone.symm.trans hm
  · obtain rfl := Option.some.inj (hm'.symm.trans hm)
    exact (Prod.mk.inj heq).1
  · cases hnone.symm.trans hm

/-- What is delivered when no message is routed is retained. -/
theorem MosquittoDb.keeps_of_not_routed {a : κ × ClientAct} {out : List (Delivery κ)}
    (hstep : MosquittoDb.step config db a = some (out, db')) (hm : db.routed config a = none)
    {d : Delivery κ} (hd : d ∈ out) :
    db.subs.Keeps d.stored ∧ RetainedDelivery config.toSubsConfig a.1 d := by
  rcases MosquittoDb.step_cases hstep with ⟨-, -, rfl, -⟩ | ⟨m', hm', -⟩ |
    ⟨act, -, -, hact, hsub, hout⟩
  · cases hd
  · cases hm.symm.trans hm'
  · exact (hout d hd).imp_left fun hkeeps => SubDb.keeps_of_step hact hsub hkeeps

/-- What becomes of the messages of one client, when those of another one change. -/
theorem sublist_update {msgs : κ → List ClientMsg} {l : List ClientMsg}
    (h : l.Sublist (msgs context)) (x : κ) :
    (Function.update msgs context l x).Sublist (msgs x) := by
  by_cases hx : x = context
  · subst hx
    rw [Function.update_self]
    exact h
  · rw [Function.update_of_ne hx]

/-- A PUBLISH with QoS 2 whose id is not in use is kept, as it was sent or as one that was
refused. -/
theorem msgs_publish {r : List (Delivery κ) × MosquittoDb κ}
    (hr : r = mqtt3HandlePublish config db context packet room) (x : κ) :
    (r.2.msgs x).Sublist (db.msgs x) ∨
      x = context ∧ packet.qos = 2 ∧
        mqtt3DbMessageStoreFind (db.msgs context) packet.mid = none ∧
          ∃ tail, r.2.msgs x = db.msgs x ++ [tail] ∧ tail.mid = packet.mid ∧
            (config.Accepts context packet ∧ tail.store = packet.store (config.id context) ∨
              tail.store = packet.refused (config.id context)) := by
  by_cases haccepts : config.Accepts context packet
  · rw [mqtt3HandlePublish_of_accepts haccepts] at hr
    by_cases htwo : packet.qos = 2
    · rw [if_pos htwo] at hr
      by_cases hfind : mqtt3DbMessageStoreFind (db.msgs context) packet.mid = none
      · rw [if_pos hfind] at hr
        rw [hr]
        refine (msgs_insert db context ⟨packet.mid, packet.retain,
          packet.store (config.id context)⟩ room x).imp (fun heq => ?_) fun hnew => ?_
        · exact heq ▸ List.Sublist.refl _
        · exact ⟨hnew.1, htwo, hfind, _, hnew.2, rfl, .inl ⟨haccepts, rfl⟩⟩
      · rw [if_neg hfind] at hr
        rw [hr]
        exact .inl (List.Sublist.refl _)
    · rw [if_neg htwo] at hr
      rw [hr]
      exact .inl (List.Sublist.refl _)
  · rcases mqtt3HandlePublish_of_not_accepts db room haccepts with heq | ⟨htwo, hfind, heq⟩
    · rw [hr, heq]
      exact .inl (List.Sublist.refl _)
    · rw [hr, heq]
      refine (msgs_insert db context ⟨packet.mid, false, packet.refused (config.id context)⟩ room
        x).imp (fun heq => ?_) fun hnew => ?_
      · exact heq ▸ List.Sublist.refl _
      · exact ⟨hnew.1, htwo, hfind, _, hnew.2, rfl, .inr rfl⟩

/-- A PUBREL takes one message away, if there is one with its id. -/
theorem msgs_pubrel (config : BrokerConfig κ) (db : MosquittoDb κ) (context : κ) (mid : UInt16)
    (x : κ) : ((mqtt3DbMessageRelease config db context mid).2.msgs x).Sublist (db.msgs x) := by
  rw [mqtt3DbMessageRelease]
  split
  · exact List.Sublist.refl _
  · split
    · exact sublist_update List.eraseP_sublist x
    · exact sublist_update List.eraseP_sublist x

omit [DecidableEq κ] in
/-- A SUBSCRIBE is nothing to them. -/
theorem msgs_subscribe (config : BrokerConfig κ) (db : MosquittoDb κ) (context : κ) (sub : CStr)
    (qos : ℕ) (mqtt311 : Bool) :
    (mqtt3HandleSubscribe config db context sub qos mqtt311).2.msgs = db.msgs := by
  rw [mqtt3HandleSubscribe]
  split
  · rfl
  · split <;> rfl

/-- Neither is an UNSUBSCRIBE. -/
theorem msgs_unsubscribe (db : MosquittoDb κ) (context : κ) (sub : CStr) :
    (mqtt3HandleUnsubscribe db context sub).msgs = db.msgs := by
  rw [mqtt3HandleUnsubscribe]
  split <;> rfl

/-- **What an act does to the messages that are not released**: some are no longer there, or one
that was published with QoS 2 and an id that is not in use is there, too. -/
theorem MosquittoDb.msgs_cases {a : κ × ClientAct} {out : List (Delivery κ)}
    (hstep : MosquittoDb.step config db a = some (out, db')) (x : κ) :
    (db'.msgs x).Sublist (db.msgs x) ∨
      ∃ packet room tail, a = (x, .publish packet room) ∧ packet.qos = 2 ∧
        mqtt3DbMessageStoreFind (db.msgs x) packet.mid = none ∧
        db'.msgs x = db.msgs x ++ [tail] ∧ tail.mid = packet.mid ∧
          (config.Accepts x packet ∧ tail.store = packet.store (config.id x) ∨
            tail.store = packet.refused (config.id x)) := by
  obtain ⟨context, act⟩ := a
  cases act with
  | publish packet room =>
    refine (msgs_publish (Option.some.inj hstep).symm x).imp_right ?_
    rintro ⟨rfl, htwo, hfind, tail, htail⟩
    exact ⟨packet, room, tail, rfl, htwo, hfind, htail⟩
  | pubrel mid =>
    have hsub := msgs_pubrel config db context mid x
    rw [Option.some.inj hstep] at hsub
    exact .inl hsub
  | subscribe sub qos mqtt311 =>
    have hsame := msgs_subscribe config db context sub qos mqtt311
    rw [Option.some.inj hstep] at hsame
    exact .inl (hsame ▸ List.Sublist.refl _)
  | unsubscribe sub =>
    obtain ⟨-, rfl⟩ := Prod.mk.inj (Option.some.inj hstep)
    exact .inl (msgs_unsubscribe db context sub ▸ List.Sublist.refl _)
  | clean =>
    obtain ⟨-, rfl⟩ := Prod.mk.inj (Option.some.inj hstep)
    exact .inl (sublist_update (List.nil_sublist _) x)

end Effect

/-! ### Where messages come from -/

/-- A client has sent a PUBLISH, which the broker has accepted. -/
def Sent (config : BrokerConfig κ) (acts : List (κ × ClientAct)) (sender : κ)
    (packet : PublishPacket) : Prop :=
  (∃ room, (sender, .publish packet room) ∈ acts) ∧ config.Accepts sender packet

theorem Sent.append {config : BrokerConfig κ} {acts : List (κ × ClientAct)} {sender : κ}
    {packet : PublishPacket} (h : Sent config acts sender packet) (acts' : List (κ × ClientAct)) :
    Sent config (acts ++ acts') sender packet :=
  ⟨h.1.imp fun _ hmem => List.mem_append_left _ hmem, h.2⟩

/-- Where a message that is not released comes from: it was refused, or its client has sent it. -/
def ClientMsg.Origin (config : BrokerConfig κ) (acts : List (κ × ClientAct)) (context : κ)
    (tail : ClientMsg) : Prop :=
  (tail.store.topic = none ∧ tail.store.payload = []) ∨
    ∃ packet, Sent config acts context packet ∧ packet.qos = 2 ∧
      tail.store = packet.store (config.id context)

theorem ClientMsg.Origin.append {config : BrokerConfig κ} {acts : List (κ × ClientAct)}
    {context : κ} {tail : ClientMsg} (h : tail.Origin config acts context)
    (acts' : List (κ × ClientAct)) : tail.Origin config (acts ++ acts') context :=
  h.imp_right fun ⟨packet, hsent, hrest⟩ => ⟨packet, hsent.append acts', hrest⟩

/-- Every message that the broker has was sent by a client, unless it was refused. A client has no
two messages with one id that it has not released. -/
structure MosquittoDb.Traced (config : BrokerConfig κ) (acts : List (κ × ClientAct))
    (db : MosquittoDb κ) : Prop where
  mid : ∀ x, ∀ tail ∈ db.msgs x, tail.store.sourceMid = tail.mid
  nodup : ∀ x, ((db.msgs x).map ClientMsg.mid).Nodup
  msgs : ∀ x, ∀ tail ∈ db.msgs x, tail.Origin config acts x
  retained : ∀ r, db.subs.Keeps r →
    ∃ sender packet, Sent config acts sender packet ∧ r = packet.store (config.id sender)

/-- The act is a PUBLISH with QoS 1, and takes the id of a message that is not released. -/
structure Reuses (config : BrokerConfig κ) (db : MosquittoDb κ) (a : κ × ClientAct) (sender : κ)
    (packet packet' : PublishPacket) : Prop where
  act : ∃ room, a = (sender, .publish packet' room)
  accepts : config.Accepts sender packet'
  qos_eq_one : packet'.qos = 1
  mid_eq : packet'.mid = packet.mid
  qos_eq_two : packet.qos = 2
  unreleased : ∃ tail ∈ db.msgs sender, tail.store = packet.store (config.id sender)

theorem traced_init {config : BrokerConfig κ} {acts : List (κ × ClientAct)} :
    MosquittoDb.Traced config acts (.init : MosquittoDb κ) where
  mid := fun _ _ htail => absurd htail List.not_mem_nil
  nodup := fun _ => List.nodup_nil
  msgs := fun _ _ htail => absurd htail List.not_mem_nil
  retained := fun _ hkeeps => absurd hkeeps not_keeps_init

theorem sent_of_eq {config : BrokerConfig κ} {acts : List (κ × ClientAct)} {a : κ × ClientAct}
    {sender : κ} {packet : PublishPacket} {room : Bool} (ha : a = (sender, .publish packet room))
    (haccepts : config.Accepts sender packet) : Sent config (acts ++ [a]) sender packet :=
  ⟨⟨room, List.mem_append_right _ (List.mem_singleton.mpr ha.symm)⟩, haccepts⟩

/-- The message that is found for an id. -/
theorem exists_of_storeFind {msgs : List ClientMsg} {mid : UInt16} {stored : MsgStore}
    (h : mqtt3DbMessageStoreFind msgs mid = some stored) :
    ∃ tail ∈ msgs, tail.store = stored ∧ stored.sourceMid = mid := by
  obtain ⟨tail, hfind, rfl⟩ := Option.map_eq_some_iff.mp h
  exact ⟨tail, List.mem_of_find?_eq_some hfind, rfl, by simpa using List.find?_some hfind⟩

section Origin

variable [DecidableEq κ] {config : BrokerConfig κ} {acts : List (κ × ClientAct)}
  {db db' : MosquittoDb κ} {a : κ × ClientAct}

omit [DecidableEq κ] in
/-- **The message that is routed** was sent by the client of the act, now or before. It is routed by
its own topic, unless its id is used twice. -/
theorem MosquittoDb.Traced.routed (h : db.Traced config acts) {m : Publication}
    (hm : db.routed config a = some m) :
    m.sourceId = some (config.id a.1) ∧ IsTopic m.topic ∧ config.aclWrite a.1 m.topic = .success ∧
      ((m.stored.topic = none ∧ m.stored.payload = []) ∨
        ∃ packet, Sent config (acts ++ [a]) a.1 packet ∧ m.stored = packet.store (config.id a.1) ∧
          (m.topic = packet.topic ∨
            ∃ packet', Reuses config db a a.1 packet packet' ∧ m.topic = packet'.topic)) := by
  obtain ⟨context, act⟩ := a
  cases act with
  | publish packet room =>
    dsimp only [MosquittoDb.routed] at hm
    split at hm
    · rename_i hand
      obtain ⟨haccepts, hqos⟩ := hand
      obtain rfl := Option.some.inj hm
      refine ⟨rfl, haccepts.2.1, haccepts.2.2.2, ?_⟩
      dsimp only [MosquittoDb.stored]
      cases hfind : if packet.qos > 0 then mqtt3DbMessageStoreFind (db.msgs context) packet.mid
        else none with
      | none => exact .inr ⟨packet, sent_of_eq rfl haccepts, rfl, .inl rfl⟩
      | some stored =>
        split at hfind
        · rename_i hpos
          obtain ⟨tail, hmem, rfl, hmid⟩ := exists_of_storeFind hfind
          refine (h.msgs context tail hmem).imp_right fun hsent => ?_
          obtain ⟨packet₂, hsent, htwo, hstore⟩ := hsent
          refine ⟨packet₂, hsent.append _, hstore, .inr ⟨packet, ⟨⟨room, rfl⟩, haccepts, by omega,
            ?_, htwo, tail, hmem, hstore⟩, rfl⟩⟩
          rw [← hmid, hstore, PublishPacket.store, if_pos (by omega)]
        · cases hfind
    · cases hm
  | pubrel mid =>
    obtain ⟨tail, hfind, hmap⟩ := Option.bind_eq_some_iff.mp hm
    obtain ⟨topic, htopic, rfl⟩ := Option.map_eq_some_iff.mp hmap
    rcases h.msgs context tail (List.mem_of_find?_eq_some hfind) with ⟨hnone, -⟩ | hsent
    · exact absurd (hnone.symm.trans htopic) (Option.some_ne_none topic).symm
    · obtain ⟨packet, hsent, -, hstore⟩ := hsent
      have heq : topic = packet.topic := by
        rw [hstore] at htopic
        exact (Option.some.inj htopic).symm
      refine ⟨by rw [hstore]; rfl, heq ▸ hsent.2.2.1, heq ▸ hsent.2.2.2.2, .inr ?_⟩
      exact ⟨packet, hsent.append _, hstore, .inl heq⟩
  | subscribe sub qos mqtt311 => cases hm
  | unsubscribe sub => cases hm
  | clean => cases hm

/-- One act, and the messages that are not released. -/
theorem MosquittoDb.Traced.msgs_step (h : db.Traced config acts) {out : List (Delivery κ)}
    (hstep : MosquittoDb.step config db a = some (out, db')) {x : κ} {tail : ClientMsg}
    (htail : tail ∈ db'.msgs x) :
    tail.store.sourceMid = tail.mid ∧ tail.Origin config (acts ++ [a]) x := by
  rcases MosquittoDb.msgs_cases hstep x with
    hsub | ⟨packet, room, new, rfl, htwo, -, heq, hmid, hstore⟩
  · exact ⟨h.mid x tail (hsub.subset htail), (h.msgs x tail (hsub.subset htail)).append _⟩
  rw [heq, List.mem_append, List.mem_singleton] at htail
  rcases htail with htail | rfl
  · exact ⟨h.mid x tail htail, (h.msgs x tail htail).append _⟩
  rcases hstore with ⟨haccepts, hstore⟩ | hstore
  · refine ⟨?_, .inr ⟨packet, sent_of_eq rfl haccepts, htwo, hstore⟩⟩
    rw [hstore, hmid, PublishPacket.store, if_pos (by omega)]
  · rw [ClientMsg.Origin, hstore, hmid]
    exact ⟨rfl, .inl ⟨rfl, rfl⟩⟩

/-- A message that is new has an id that is not in use. -/
theorem MosquittoDb.Traced.nodup_step (h : db.Traced config acts) {out : List (Delivery κ)}
    (hstep : MosquittoDb.step config db a = some (out, db')) (x : κ) :
    ((db'.msgs x).map ClientMsg.mid).Nodup := by
  rcases MosquittoDb.msgs_cases hstep x with hsub | ⟨packet, room, new, rfl, -, hfind, heq, hmid, -⟩
  · exact (h.nodup x).sublist (hsub.map _)
  rw [heq, List.map_append, List.map_singleton]
  refine List.nodup_append.mpr ⟨h.nodup x, List.nodup_singleton _, fun n hn n' hn' hne => ?_⟩
  obtain ⟨tail, htail, rfl⟩ := List.mem_map.mp hn
  rw [mqtt3DbMessageStoreFind, Option.map_eq_none_iff, List.find?_eq_none] at hfind
  refine hfind tail htail (decide_eq_true ?_)
  rw [h.mid x tail htail, hne, List.mem_singleton.mp hn', hmid]

/-- What is retained was so before, or is what the act makes the broker route. A message without a
topic has no payload, and is not retained. -/
theorem MosquittoDb.Traced.retained_step (h : db.Traced config acts) {out : List (Delivery κ)}
    (hstep : MosquittoDb.step config db a = some (out, db')) {r : MsgStore}
    (hkeeps : db'.subs.Keeps r) : ∃ sender packet, Sent config (acts ++ [a]) sender packet ∧
      r = packet.store (config.id sender) := by
  have hkept : db.subs.Keeps r → ∃ sender packet, Sent config (acts ++ [a]) sender packet ∧
      r = packet.store (config.id sender) := fun hkeeps => by
    obtain ⟨sender, packet, hsent, heq⟩ := h.retained r hkeeps
    exact ⟨sender, packet, hsent.append _, heq⟩
  rcases MosquittoDb.step_cases hstep with
    ⟨-, -, -, heq⟩ | ⟨m, hm, -, heq⟩ | ⟨act, -, -, hact, hsub, -⟩
  · exact hkept (heq ▸ hkeeps)
  · obtain ⟨-, hsubs⟩ := Prod.mk.inj heq
    rw [hsubs] at hkeeps
    rcases keeps_of_messagesQueue hkeeps with hkeeps | ⟨-, rfl, hpayload⟩
    · exact hkept hkeeps
    · rcases (h.routed hm).2.2.2 with ⟨-, hnil⟩ | ⟨packet, hsent, hstored, -⟩
      · exact absurd hnil hpayload
      · exact ⟨a.1, packet, hsent, hstored⟩
  · exact hkept (SubDb.keeps_of_step hact hsub hkeeps)

/-- One act. -/
theorem MosquittoDb.Traced.step (h : db.Traced config acts) {out : List (Delivery κ)}
    (hstep : MosquittoDb.step config db a = some (out, db')) :
    db'.Traced config (acts ++ [a]) where
  mid := fun _ _ htail => (h.msgs_step hstep htail).1
  nodup := h.nodup_step hstep
  msgs := fun _ _ htail => (h.msgs_step hstep htail).2
  retained := fun _ hkeeps => h.retained_step hstep hkeeps

/-- **Where messages come from.** After every run, each message that the broker has was sent by a
client, unless it was refused, and a client has no two messages with one id that it has not
released. -/
theorem MosquittoDb.traced_of_run {outs : List (List (Delivery κ))}
    (hrun : run (MosquittoDb.step config) .init acts = some (outs, db)) :
    db.Traced config acts := by
  induction acts using List.reverseRecOn generalizing outs db with
  | nil =>
    obtain ⟨-, rfl⟩ := Prod.mk.inj (Option.some.inj hrun)
    exact traced_init
  | append_singleton acts a ih =>
    obtain ⟨outs', middle, out, hrun', hstep, -⟩ := run_append_singleton.mp hrun
    exact (ih hrun').step hstep

/-- A client that has published nothing has nothing to release. -/
theorem MosquittoDb.msgs_eq_nil {outs : List (List (Delivery κ))}
    (hrun : run (MosquittoDb.step config) .init acts = some (outs, db)) {x : κ}
    (hacts : ∀ a ∈ acts, ∀ packet room, a ≠ (x, .publish packet room)) : db.msgs x = [] := by
  refine invariant_of_run (MosquittoDb.step config) (I := fun db => db.msgs x = []) ?_ rfl hacts
    hrun
  intro db a out db' h ha hstep
  rcases MosquittoDb.msgs_cases hstep x with hsub | ⟨packet, room, -, rfl, -⟩
  · exact List.sublist_nil.mp (h ▸ hsub)
  · exact absurd rfl (ha packet room)

end Origin

/-! ### The run of the tree -/

section Passed

variable [DecidableEq κ] {config : BrokerConfig κ} {acts : List (κ × ClientAct)}
  {db : MosquittoDb κ}

/-- The act is a message. -/
def SubAct.isPublish : SubAct κ → Bool
  | .publish _ => true
  | _ => false

/-- **A run of the broker is one of the tree**, with what is routed and what is granted. -/
theorem MosquittoDb.exists_passed {outs : List (List (Delivery κ))}
    (hrun : run (MosquittoDb.step config) .init acts = some (outs, db)) :
    ∃ passed outs', run (SubDb.step config.toSubsConfig) .init passed = some (outs', db.subs) ∧
      passed.filter (fun act => !act.isPublish) = acts.filterMap config.granted := by
  induction acts using List.reverseRecOn generalizing outs db with
  | nil =>
    obtain ⟨-, rfl⟩ := Prod.mk.inj (Option.some.inj hrun)
    exact ⟨[], [], rfl, rfl⟩
  | append_singleton acts a ih =>
    obtain ⟨outs', middle, out, hrun', hstep, -⟩ := run_append_singleton.mp hrun
    obtain ⟨passed, outs'', htree, hpassed⟩ := ih hrun'
    rw [List.filterMap_append]
    rcases MosquittoDb.step_cases hstep with ⟨-, hgranted, -, heq⟩ | ⟨m, hm, hgranted, heq⟩ |
      ⟨act, -, hgranted, hact, hsub, -⟩
    · refine ⟨passed, outs'', heq ▸ htree, ?_⟩
      rw [hpassed, List.filterMap_cons_none hgranted, List.filterMap_nil, List.append_nil]
    · refine ⟨passed ++ [.publish m], outs'' ++ [out], run_append_singleton.mpr
        ⟨outs'', middle.subs, out, htree, ?_, rfl⟩, ?_⟩
      · rw [SubDb.step, if_pos ((MosquittoDb.traced_of_run hrun').routed hm).2.1, ← heq]
      · rw [List.filter_append, hpassed, List.filterMap_cons_none hgranted]
        rfl
    · refine ⟨passed ++ [act], outs'' ++ [[]], run_append_singleton.mpr
        ⟨outs'', middle.subs, [], htree, hsub, rfl⟩, ?_⟩
      have hnot : act.isPublish = false := by
        cases act with
        | publish m => exact absurd rfl (hact m)
        | subscribe | unsubscribe | clean => rfl
      rw [List.filter_append, hpassed, List.filterMap_cons_some hgranted, List.filterMap_nil,
        List.filter_cons_of_pos (by rw [hnot]; rfl), List.filter_nil]

end Passed

end Psn

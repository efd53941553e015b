import Psn.Inflight

/-!
# How much is on its way

At most `max_inflight_messages` messages are on their way at a time, and a message that waits is
sent when an acknowledgement makes room. `inflight_messages` says whether there is room. After a
reconnect it counts all messages, those that wait included, and those are counted once more when
they are sent. The difference is `MosqState.drift`, and nothing but another reconnect makes it
smaller.

With up to `2 * max - 2` messages at each reconnect the client goes on: as long as it has messages,
one of them is on its way. With more there is never room again. Once the messages on their way have
been acknowledged, the others wait for the next reconnect.

psn publishes and subscribes with QoS 1, and so all messages have QoS 1 here.

Both results rest on the drift. An acknowledgement makes it no larger, sending a message that waits
leaves it as it is, and a reconnect sets it to the number of messages that wait then. As long as it
is below the limit, a client without messages on their way has room, so one that waits would have
been sent; that is `MosqState.Moving`. Once it has reached the limit there is no room whatever is
acknowledged; that is `MosqState.Starving`.

## Scope

A packet that acknowledges a message that waits has no place in a `MosqState.Served` run: a broker
acknowledges what it was sent. It would make room, since the counter is lowered for it as for any
other message. A PUBREC for a message with QoS 1 is left out for the same reason.

psn itself leaves the limit at 20. The results are about every limit that
`mosquitto_max_inflight_messages_set` can set without a negative number in `max_inflight_messages`;
the setter is not modelled as a call that may come at any time, since psn never calls it.

Messages are neither lost nor made here. That is the subject of `Psn.Inflight`, for any QoS.

## Main definitions

* `onTheirWay`, `MosqState.drift`: the window, and by how much the counter is too high
* `MosqState.Moving`, `MosqState.Starving`: what the two kinds of state keep

## Main results

* `MosqState.not_stalled`: with few messages at each reconnect the client never stalls
* `MosqState.drained`: and a broker that acknowledges gets all its messages
* `MosqState.starved`: with many messages at a reconnect the ones that wait are not sent
-/

namespace Psn

open PartialMachine

/-! ### Messages on their way -/

/-- How many messages are on their way. -/
def onTheirWay (l : List MessageAll) : ℕ := l.countP fun m => m.state ≠ .invalid

/-- One message more. -/
theorem onTheirWay_cons (m : MessageAll) (l : List MessageAll) :
    onTheirWay (m :: l) = onTheirWay l + if m.state ≠ .invalid then 1 else 0 := by
  rw [onTheirWay, List.countP_cons]
  simp [onTheirWay]

/-- Messages are counted one at a time. -/
theorem onTheirWay_append (l l' : List MessageAll) :
    onTheirWay (l ++ l') = onTheirWay l + onTheirWay l' :=
  List.countP_append

/-- A message that was sent is on its way. -/
theorem onTheirWay_pos {l : List MessageAll} {m : MessageAll} (h : m ∈ l)
    (hm : m.state ≠ .invalid) : 0 < onTheirWay l :=
  List.countP_pos_iff.mpr ⟨m, h, by simpa using hm⟩

/-- Where the count is not zero there is such a message. -/
theorem exists_of_onTheirWay_pos {l : List MessageAll} (h : 0 < onTheirWay l) :
    ∃ m ∈ l, m.state ≠ .invalid := by
  obtain ⟨m, hm, hstate⟩ := List.countP_pos_iff.mp h
  exact ⟨m, hm, by simpa using hstate⟩

/-- A message that starts is on its way, unless it has QoS 0. -/
theorem MessageAll.state_start_ne {m : MessageAll} (h : m.qos = 1 ∨ m.qos = 2) :
    m.start.state ≠ .invalid := by
  rcases h with h | h <;> simp [MessageAll.start, h]

variable {max inflight : ℤ} {io : MessageAll → SendResult} {l : List MessageAll}
  {mosq mosq' : MosqState}

/-- Without a limit there is always room. -/
theorem room_eq_false_iff : room max inflight = false ↔ max ≠ 0 ∧ max ≤ inflight := by
  rw [room, decide_eq_false_iff_not, not_or, not_lt]

/-- With one, the counter decides. -/
theorem room_eq_true_iff : room max inflight = true ↔ max = 0 ∨ inflight < max := by
  rw [room, decide_eq_true_iff]

/-! ### The loop that sends waiting messages -/

/-- Without room the loop does nothing. -/
theorem promote_of_not_room (h : room max inflight = false) :
    promote max io inflight l = ⟨.success, inflight, l, []⟩ := by
  cases l with
  | nil => rfl
  | cons cur rest => rw [promote, if_neg (by simp [h])]

/-- The loop counts every message that it sends. -/
theorem promote_drift (hl : Acked l) :
    (promote max io inflight l).inflight - onTheirWay (promote max io inflight l).messages =
      inflight - onTheirWay l := by
  fun_induction promote max io inflight l with
  | case1 => rfl
  | case2 inflight cur rest hroom hwait hrc p ih =>
    have hstart := MessageAll.state_start_ne (hl cur List.mem_cons_self)
    have hrest : p.inflight - onTheirWay p.messages = inflight + 1 - onTheirWay rest :=
      ih fun m hm => hl m (List.mem_cons_of_mem cur hm)
    rw [onTheirWay_cons, onTheirWay_cons, if_pos hstart, if_neg (by simp [hwait.2])]
    push_cast
    omega
  | case3 inflight cur rest hroom hwait hrc =>
    have hstart := MessageAll.state_start_ne (hl cur List.mem_cons_self)
    rw [onTheirWay_cons, onTheirWay_cons, if_pos hstart, if_neg (by simp [hwait.2])]
    push_cast
    omega
  | case4 inflight cur rest hroom hwait p ih =>
    have hrest : p.inflight - onTheirWay p.messages = inflight - onTheirWay rest :=
      ih fun m hm => hl m (List.mem_cons_of_mem cur hm)
    rw [onTheirWay_cons, onTheirWay_cons]
    push_cast
    omega
  | case5 inflight cur rest hroom => rfl

/-- The loop leaves messages waiting only without room, or with others on their way. -/
theorem promote_waiting (hl : Acked l)
    (h : ∃ m ∈ (promote max io inflight l).messages, m.state = .invalid) :
    room max (promote max io inflight l).inflight = false ∨
      0 < onTheirWay (promote max io inflight l).messages := by
  fun_induction promote max io inflight l with
  | case1 =>
    obtain ⟨m, hm, -⟩ := h
    cases hm
  | case2 inflight cur rest hroom hwait hrc p ih =>
    exact .inr (onTheirWay_pos List.mem_cons_self
      (MessageAll.state_start_ne (hl cur List.mem_cons_self)))
  | case3 inflight cur rest hroom hwait hrc =>
    exact .inr (onTheirWay_pos List.mem_cons_self
      (MessageAll.state_start_ne (hl cur List.mem_cons_self)))
  | case4 inflight cur rest hroom hwait p ih =>
    by_cases hcur : cur.state = .invalid
    · have hqos : cur.qos > 0 := by
        rcases hl cur List.mem_cons_self with h | h <;> omega
      exact absurd ⟨hqos, hcur⟩ hwait
    · exact .inr (onTheirWay_pos List.mem_cons_self hcur)
  | case5 inflight cur rest hroom => exact .inl (by simpa using hroom)

/-! ### The reset after a reconnect -/

/-- The reset counts every message, sent or not. -/
theorem resetOut_inflight (hl : ∀ m ∈ l, m.qos = 1) :
    (resetOut max inflight l).1 = inflight + l.length := by
  induction l generalizing inflight with
  | nil => exact (add_zero inflight).symm
  | cons m rest ih =>
    have hqos : m.qos > 0 := by
      rw [hl m List.mem_cons_self]
      exact Nat.one_pos
    show (resetOut max (if m.qos > 0 then inflight + 1 else inflight) rest).1 = _
    rw [if_pos hqos, ih fun m' hm => hl m' (List.mem_cons_of_mem m hm), List.length_cons]
    push_cast
    omega

/-- The messages that are on their way after the reset: all without a limit, and otherwise one less
than the limit. -/
theorem onTheirWay_resetOut (hl : ∀ m ∈ l, m.qos = 1) :
    onTheirWay (resetOut max inflight l).2 =
      if max = 0 then l.length else min l.length (max - 1 - inflight).toNat := by
  induction l generalizing inflight with
  | nil => simp [resetOut, onTheirWay]
  | cons m rest ih =>
    have hm : m.qos = 1 := hl m List.mem_cons_self
    have hrest : onTheirWay (resetOut max (inflight + 1) rest).2 = _ :=
      ih fun m' hm' => hl m' (List.mem_cons_of_mem m hm')
    -- the counter is raised before it is compared, so the last one of the window waits
    obtain ⟨m', hstate, hcons⟩ : ∃ m' : MessageAll,
        m'.state = (if room max (inflight + 1) then .waitForPuback else .invalid) ∧
          (resetOut max inflight (m :: rest)).2 = m' :: (resetOut max (inflight + 1) rest).2 := by
      rw [resetOut, hm, if_pos Nat.one_pos, if_pos rfl]
      exact ⟨_, rfl, rfl⟩
    rw [hcons, onTheirWay_cons, hrest, List.length_cons, hstate]
    cases hroom : room max (inflight + 1) with
    | true =>
      rw [if_pos (show (if true then MsgState.waitForPuback else .invalid) ≠ .invalid by decide)]
      rcases room_eq_true_iff.mp hroom with rfl | hlt
      · rw [if_pos rfl, if_pos rfl]
      · split
        · rfl
        · omega
    | false =>
      obtain ⟨hne, hle⟩ := room_eq_false_iff.mp hroom
      rw [if_neg (show ¬(if false then MsgState.waitForPuback else .invalid) ≠ .invalid by decide),
        if_neg hne, if_neg hne]
      omega

/-! ### The other functions -/

/-- A PUBREC takes no message off its way. -/
theorem onTheirWay_messageOutUpdate (mosq : MosqState) (mid : UInt16) (now : ℕ) :
    onTheirWay mosq.outMessages ≤
      onTheirWay (messageOutUpdate mosq mid .waitForPubcomp now).2.outMessages := by
  rw [messageOutUpdate]
  split
  · exact Nat.le_refl _
  · rename_i i hfind
    obtain ⟨hi, -⟩ := List.findIdx?_eq_some_iff_getElem.mp hfind
    obtain ⟨pre, m, post, hsplit, -, hmodify⟩ :=
      List.exists_of_modify (fun m => { m with state := .waitForPubcomp, timestamp := now }) hi
    -- the one message that changes is on its way afterwards
    show _ ≤ onTheirWay (mosq.outMessages.modify i _)
    rw [hmodify, hsplit, onTheirWay_append, onTheirWay_append, onTheirWay_cons, onTheirWay_cons,
      if_pos (show MsgState.waitForPubcomp ≠ .invalid by decide)]
    split <;> omega

/-- Sending again changes no state, -/
theorem retryOne_state (retry now : ℕ) (io : MessageAll → SendResult) (m : MessageAll) :
    (retryOne retry now io m).1.state = m.state := by
  rw [retryOne]
  split
  · dsimp only
    split <;> rfl
  · rfl

/-- so nothing is on its way that was not before. -/
theorem onTheirWay_messageRetryCheck (now : ℕ) (io : MessageAll → SendResult)
    (mosq : MosqState) :
    onTheirWay (messageRetryCheck now io mosq).1.outMessages = onTheirWay mosq.outMessages := by
  show onTheirWay (mosq.outMessages.map _) = _
  rw [onTheirWay, onTheirWay, List.countP_map]
  refine List.countP_congr fun m _ => ?_
  rw [Function.comp_apply, retryOne_state]

/-- By how much the counter is too high. -/
def MosqState.drift (mosq : MosqState) : ℤ := mosq.inflightMessages - onTheirWay mosq.outMessages

/-- **An acknowledgement makes the drift no larger**, and leaves it as it is when the message was on
its way. -/
theorem drift_messageRemoveOut (io : MessageAll → SendResult) (hacked : Acked mosq.outMessages)
    (mid : UInt16) :
    (messageRemoveOut io mosq mid).mosq.drift ≤ mosq.drift ∧
      ((∀ m ∈ mosq.outMessages, m.mid = mid → m.state ≠ .invalid) →
        (messageRemoveOut io mosq mid).mosq.drift = mosq.drift) := by
  rcases messageRemoveOut_cases io mosq mid with ⟨-, heq⟩ |
    ⟨pre, cur, post, inflight, hsplit, hmid, hpre, hinflight, heq⟩
  · rw [heq]
    exact ⟨le_rfl, fun _ => rfl⟩
  · have hcur : cur ∈ mosq.outMessages := by
      rw [hsplit]
      exact List.mem_append_right _ List.mem_cons_self
    have hqos : cur.qos > 0 := by
      rcases hacked cur hcur with h | h <;> omega
    have hrest : Acked (pre ++ post) := by
      intro m hm
      refine hacked m ?_
      rw [hsplit]
      exact (List.sublist_cons_self cur post).append_left pre |>.mem hm
    have hdrift : (promote mosq.maxInflightMessages io inflight (pre ++ post)).inflight -
        onTheirWay (promote mosq.maxInflightMessages io inflight (pre ++ post)).messages = _ :=
      promote_drift hrest
    rw [if_pos hqos] at hinflight
    rw [heq, MosqState.drift, MosqState.drift]
    show _ - _ ≤ _ ∧ (_ → _ - _ = _)
    rw [hdrift, hinflight, hsplit, onTheirWay_append, onTheirWay_append, onTheirWay_cons]
    push_cast
    -- the counter is lowered by one, and the messages on their way by one or none
    refine ⟨by split <;> omega, fun h => ?_⟩
    rw [if_pos (h cur (List.mem_append_right _ List.mem_cons_self) hmid)]
    omega

/-! ### Steps with QoS 1 -/

/-- No step brings a message with another QoS than 1. -/
def SessionAct.QosOne : SessionAct → Prop
  | .publish _ _ _ qos _ _ => qos = 1
  | .handle _ f => f.command &&& 0xF0 = publishCmd → (f.command &&& 0x06) >>> 1 ≠ 2
  | _ => True

/-- With publishes of QoS 1, all messages have QoS 1. -/
theorem Outbox.qos_step {o : Outbox} {a : SessionAct} (ha : a.QosOne)
    (ho : ∀ m ∈ o.messages, m.qos = 1) : ∀ m ∈ (o.step a).messages, m.qos = 1 := by
  intro m hm
  cases a with
  | publish now io msg qos hqos retain =>
    rcases List.mem_append.mp hm with hm | hm
    · exact ho m hm
    · rw [List.mem_singleton.mp hm]
      exact ha
  | handle io f =>
    cases hacked : f.acked with
    | none =>
      rw [Outbox.step_of_not_acked hacked] at hm
      exact ho m hm
    | some mid =>
      rw [Outbox.step_of_acked hacked] at hm
      exact ho m (List.mem_of_mem_eraseP hm)
  | subscribe => exact ho m hm
  | reconnect => exact ho m hm
  | retry => exact ho m hm

/-- What holds in every state of a client with QoS 1. -/
structure MosqState.InvOne (mosq : MosqState) : Prop where
  /-- The invariant of all runs. -/
  inv : mosq.Inv
  /-- No message waits for a PUBREC or PUBCOMP. -/
  qos_eq : ∀ m ∈ mosq.outMessages, m.qos = 1

/-- Both go with every step. -/
theorem MosqState.InvOne.step {a : SessionAct} {evs : List ClientEvent} (h : mosq.InvOne)
    (ha : a.QosOne) (hstep : mosq.step a = some (evs, mosq')) : mosq'.InvOne := by
  obtain ⟨hinv, hbox⟩ := h.inv.step hstep
  refine ⟨hinv, fun m hm => ?_⟩
  have ho : ∀ m ∈ mosq.outbox.messages, m.qos = 1 := by
    intro m hm
    obtain ⟨n, hn, rfl⟩ := List.mem_map.mp hm
    exact h.qos_eq n hn
  refine Outbox.qos_step ha ho m.outgoing ?_
  rw [← hbox]
  exact List.mem_map_of_mem hm

/-- What a reconnect leaves behind: all messages are counted, and one less than the limit of them
are on their way. -/
structure MosqState.IsReset (mosq start : MosqState) : Prop where
  /-- It is a state of a client with QoS 1. -/
  invOne : start.InvOne
  /-- The limit is as before. -/
  max_eq : start.maxInflightMessages = mosq.maxInflightMessages
  /-- The counter starts from zero and counts every message. -/
  inflight_eq : start.inflightMessages = mosq.outMessages.length
  /-- No message is lost. -/
  length_eq : start.outMessages.length = mosq.outMessages.length
  /-- How many of them are sent again. -/
  onTheirWay_eq : onTheirWay start.outMessages =
    if mosq.maxInflightMessages = 0 then mosq.outMessages.length
    else min mosq.outMessages.length (mosq.maxInflightMessages - 1).toNat
  /-- No message comes in from nowhere. -/
  inMessages_eq : mosq.inMessages = [] → start.inMessages = []

/-- Where the step is defined at all, this is what `_mosquitto_messages_reconnect_reset` does. -/
theorem MosqState.InvOne.isReset {evs : List ClientEvent} {start : MosqState} (h : mosq.InvOne)
    (hstep : mosq.step .reconnect = some (evs, start)) : mosq.IsReset start := by
  have hinv : start.InvOne := h.step (show SessionAct.QosOne .reconnect from trivial) hstep
  obtain ⟨mosq₁, hreset, heq⟩ := Option.map_eq_some_iff.mp hstep
  cases heq
  obtain ⟨-, rfl⟩ := (messagesReconnectReset_eq_some h.inv).mp hreset
  refine ⟨hinv, rfl, ?_, length_eq_of_outgoing map_outgoing_resetOut, ?_, fun hin => ?_⟩
  · show (resetOut mosq.maxInflightMessages 0 mosq.outMessages).1 = _
    rw [resetOut_inflight h.qos_eq, zero_add]
  · show onTheirWay (resetOut mosq.maxInflightMessages 0 mosq.outMessages).2 = _
    rw [onTheirWay_resetOut h.qos_eq, sub_zero]
  · show mosq.inMessages.map _ = []
    rw [hin, List.map_nil]

/-- What a publish does to the window. -/
theorem publishQueue_cases (now : ℕ) (io : MessageAll → SendResult) (mosq : MosqState)
    (msg : Message) (qos : ℕ) (retain : Bool) :
    ∃ m : MessageAll, m.qos = qos ∧ m.state = .invalid ∧
      (room mosq.maxInflightMessages mosq.inflightMessages = true ∧
          (publishQueue now io mosq msg qos retain).2.1 = { mosq with
            lastMid := nextMid mosq.lastMid
            outMessages := mosq.outMessages ++ [m.start]
            outQueueLen := mosq.outQueueLen + 1
            inflightMessages := mosq.inflightMessages + 1 } ∨
        room mosq.maxInflightMessages mosq.inflightMessages = false ∧
          (publishQueue now io mosq msg qos retain).2 = ({ mosq with
            lastMid := nextMid mosq.lastMid
            outMessages := mosq.outMessages ++ [m]
            outQueueLen := mosq.outQueueLen + 1 }, [])) := by
  refine ⟨⟨now, .invalid, false, nextMid mosq.lastMid, msg, qos, retain⟩, rfl, rfl, ?_⟩
  cases hroom : room mosq.maxInflightMessages mosq.inflightMessages with
  | true =>
    have hif : room (midGenerate mosq).2.maxInflightMessages
        (midGenerate mosq).2.inflightMessages = true := hroom
    refine .inl ⟨rfl, ?_⟩
    rw [publishQueue, if_pos hif]
    rfl
  | false =>
    have hif : ¬room (midGenerate mosq).2.maxInflightMessages
        (midGenerate mosq).2.inflightMessages = true := fun h => by cases hroom.symm.trans h
    refine .inr ⟨rfl, ?_⟩
    rw [publishQueue, if_neg hif]
    rfl

/-- A client with QoS 1 handles a packet: it takes up no room. -/
theorem MosqState.step_handle_qosOne {io : HandleIo} {f : Frame} {evs : List ClientEvent}
    (hf : SessionAct.QosOne (.handle io f))
    (hstep : mosq.step (.handle io f) = some (evs, mosq')) :
    mosq' = mosq ∨
      (∃ mid, f.acked = some mid ∧ mosq' = (messageRemoveOut io.publish mosq mid).mosq) ∨
      (∃ mid, f.command &&& 0xF0 = pubrecCmd ∧
        mosq' = (messageOutUpdate mosq mid .waitForPubcomp io.now).2) ∨
      ∃ mid, mosq' = (messageRemoveIn mosq mid).mosq := by
  rcases MosqState.step_handle hstep with hsame | hacked | ⟨message, hread, hcommand, hqos, -⟩ |
    hpubrec | hpubrel
  · exact .inl hsame
  · exact .inr (.inl hacked)
  · have hflags : ((f.command &&& 0x06) >>> 1).toNat = 2 :=
      (qos_of_readPublish hread).symm.trans hqos
    exact absurd (UInt8.toNat_inj.mp hflags) (hf hcommand)
  · exact .inr (.inr (.inl hpubrec))
  · exact .inr (.inr (.inr hpubrel))

/-- A PUBREL takes an incoming message off the counter, and leaves what goes out. -/
theorem messageRemoveIn_out (mosq : MosqState) (mid : UInt16) :
    (messageRemoveIn mosq mid).mosq.outMessages = mosq.outMessages ∧
      (messageRemoveIn mosq mid).mosq.maxInflightMessages = mosq.maxInflightMessages ∧
      (messageRemoveIn mosq mid).mosq.inflightMessages ≤ mosq.inflightMessages := by
  rw [messageRemoveIn]
  split
  · exact ⟨rfl, rfl, le_rfl⟩
  · refine ⟨rfl, rfl, ?_⟩
    dsimp only
    split <;> omega

/-- A PUBREC changes a state, not the counter. -/
theorem messageOutUpdate_inflight (mosq : MosqState) (mid : UInt16) (state : MsgState) (now : ℕ) :
    (messageOutUpdate mosq mid state now).2.inflightMessages = mosq.inflightMessages ∧
      (messageOutUpdate mosq mid state now).2.maxInflightMessages = mosq.maxInflightMessages := by
  rw [messageOutUpdate]
  split <;> exact ⟨rfl, rfl⟩

/-- Nothing changes the limit. -/
theorem messageRemoveOut_max (mosq : MosqState) (mid : UInt16) :
    (messageRemoveOut io mosq mid).mosq.maxInflightMessages = mosq.maxInflightMessages := by
  rw [messageRemoveOut]
  split <;> rfl

/-- An acknowledgement leaves messages waiting only without room, or with others on their way. -/
theorem messageRemoveOut_waiting (io : MessageAll → SendResult) (hacked : Acked mosq.outMessages)
    (mid : UInt16) :
    (messageRemoveOut io mosq mid).mosq = mosq ∨
      ((∃ m ∈ (messageRemoveOut io mosq mid).mosq.outMessages, m.state = .invalid) →
        room mosq.maxInflightMessages (messageRemoveOut io mosq mid).mosq.inflightMessages =
            false ∨
          0 < onTheirWay (messageRemoveOut io mosq mid).mosq.outMessages) := by
  rcases messageRemoveOut_cases io mosq mid with ⟨-, heq⟩ |
    ⟨pre, cur, post, inflight, hsplit, -, -, -, heq⟩
  · rw [heq]
    exact .inl rfl
  · have hrest : Acked (pre ++ post) := by
      intro m hm
      refine hacked m ?_
      rw [hsplit]
      exact (List.sublist_cons_self cur post).append_left pre |>.mem hm
    rw [heq]
    exact .inr (promote_waiting hrest)

/-! ### Few messages at a reconnect -/

/-- As long as there are messages, one of them is on its way, and the counter is not too high for
another one to follow. -/
structure MosqState.Moving (mosq : MosqState) : Prop where
  /-- All messages have QoS 1. -/
  invOne : mosq.InvOne
  /-- With nothing on its way, the counter is below the limit. -/
  drift_lt : mosq.maxInflightMessages = 0 ∨
    0 < mosq.maxInflightMessages ∧ mosq.drift < mosq.maxInflightMessages
  /-- Something is on its way. -/
  pos : mosq.outMessages ≠ [] → 0 < onTheirWay mosq.outMessages

/-- Few enough messages for a reconnect. -/
def MosqState.Fits (mosq : MosqState) : Prop :=
  mosq.maxInflightMessages = 0 ∨
    (mosq.outMessages.length : ℤ) + 2 ≤ 2 * mosq.maxInflightMessages

/-- Messages wait, and none is on its way. -/
def MosqState.Stalled (mosq : MosqState) : Prop :=
  mosq.outMessages ≠ [] ∧ onTheirWay mosq.outMessages = 0

/-- Such a client has not stalled. -/
theorem MosqState.Moving.on_the_way (h : mosq.Moving) : ¬mosq.Stalled :=
  fun hstalled => (h.pos hstalled.1).ne' hstalled.2

/-- Steps that take nothing off its way and count nothing go on. -/
theorem MosqState.Moving.of_le (h : mosq.Moving) (hinv : mosq'.InvOne)
    (hmax : mosq'.maxInflightMessages = mosq.maxInflightMessages)
    (hlength : mosq'.outMessages.length = mosq.outMessages.length)
    (hway : onTheirWay mosq.outMessages ≤ onTheirWay mosq'.outMessages)
    (hinflight : mosq'.inflightMessages ≤ mosq.inflightMessages) : mosq'.Moving := by
  refine ⟨hinv, ?_, fun hne => ?_⟩
  · rw [hmax]
    refine h.drift_lt.imp_right fun hpos => ⟨hpos.1, ?_⟩
    have hdrift := hpos.2
    rw [MosqState.drift] at hdrift ⊢
    omega
  · have hpos : mosq.outMessages ≠ [] := by
      intro hnil
      rw [hnil] at hlength
      exact hne (List.eq_nil_of_length_eq_zero hlength)
    exact Nat.lt_of_lt_of_le (h.pos hpos) hway

/-- A message that is sent at once is on its way, and one that has to wait finds others there. -/
theorem MosqState.Moving.publish (h : mosq.Moving) {now qos : ℕ} {msg : Message} {retain : Bool}
    (hqos : qos = 1 ∨ qos = 2) (hinv : (publishQueue now io mosq msg qos retain).2.1.InvOne) :
    (publishQueue now io mosq msg qos retain).2.1.Moving := by
  obtain ⟨m, hqosm, hstate, hroom⟩ := publishQueue_cases now io mosq msg qos retain
  rcases hroom with ⟨-, heq⟩ | ⟨hroom, heq⟩
  · have hstart : m.start.state ≠ .invalid := MessageAll.state_start_ne (by rwa [hqosm])
    rw [heq] at hinv ⊢
    refine ⟨hinv, h.drift_lt.imp_right fun hpos => ⟨hpos.1, ?_⟩, fun _ => ?_⟩
    · have hdrift := hpos.2
      rw [MosqState.drift] at hdrift ⊢
      dsimp only
      rw [onTheirWay_append, onTheirWay_cons, if_pos hstart]
      push_cast
      omega
    · exact onTheirWay_pos (List.mem_append_right _ (List.mem_singleton_self _)) hstart
  · obtain ⟨hne, hle⟩ := room_eq_false_iff.mp hroom
    rw [heq] at hinv ⊢
    rcases h.drift_lt with hzero | ⟨hmax, hdrift⟩
    · exact absurd hzero hne
    · have hway : onTheirWay (mosq.outMessages ++ [m]) = onTheirWay mosq.outMessages := by
        rw [onTheirWay_append, onTheirWay_cons, if_neg (by simp [hstate])]
        rfl
      rw [MosqState.drift] at hdrift
      refine ⟨hinv, .inr ⟨hmax, ?_⟩, fun _ => ?_⟩
      · rw [MosqState.drift]
        dsimp only
        rw [hway]
        exact hdrift
      · dsimp only
        rw [hway]
        omega

/-- Where the last message on its way is acknowledged, another one is sent. -/
theorem MosqState.Moving.removeOut (h : mosq.Moving) {mid : UInt16}
    (hinv : (messageRemoveOut io mosq mid).mosq.InvOne) :
    (messageRemoveOut io mosq mid).mosq.Moving := by
  have hdrift := (drift_messageRemoveOut io h.invOne.inv.acked mid).1
  have hlt : mosq.maxInflightMessages = 0 ∨ 0 < mosq.maxInflightMessages ∧
      (messageRemoveOut io mosq mid).mosq.drift < mosq.maxInflightMessages :=
    h.drift_lt.imp_right fun hpos => ⟨hpos.1, lt_of_le_of_lt hdrift hpos.2⟩
  refine ⟨hinv, by rwa [messageRemoveOut_max], fun hne => ?_⟩
  rcases messageRemoveOut_waiting io h.invOne.inv.acked mid with hsame | hroom
  · rw [hsame] at hne ⊢
    exact h.pos hne
  · -- with none on its way, all of them wait, so there was no room, and the drift is the counter
    by_contra hzero
    obtain ⟨m, hm⟩ := List.exists_mem_of_ne_nil _ hne
    have hstate : m.state = .invalid := by
      by_contra hstate
      exact hzero (onTheirWay_pos hm hstate)
    obtain ⟨hmax, hle⟩ := room_eq_false_iff.mp ((hroom ⟨m, hm, hstate⟩).resolve_right hzero)
    rcases hlt with hnone | ⟨-, hdrift⟩
    · exact hmax hnone
    · rw [MosqState.drift] at hdrift
      omega

/-- With few messages, the reset sends one and counts the others no further than the limit. -/
theorem MosqState.IsReset.moving {start : MosqState} (h : mosq.IsReset start) (hfits : mosq.Fits) :
    start.Moving := by
  have hway := h.onTheirWay_eq
  have hlength := h.length_eq
  have hpos : start.outMessages ≠ [] → 0 < mosq.outMessages.length := by
    intro hne
    rw [← hlength]
    exact List.length_pos_iff.mpr hne
  by_cases hzero : mosq.maxInflightMessages = 0
  · rw [if_pos hzero] at hway
    exact ⟨h.invOne, .inl (h.max_eq.trans hzero), fun hne => hway ▸ hpos hne⟩
  · have hfew := hfits.resolve_left hzero
    rw [if_neg hzero] at hway
    refine ⟨h.invOne, .inr ?_, fun hne => ?_⟩
    · rw [h.max_eq, MosqState.drift, h.inflight_eq, hway]
      omega
    · have hone := hpos hne
      omega

/-- One step of a client with few messages at a reconnect. -/
theorem MosqState.Moving.step {a : SessionAct} {evs : List ClientEvent} (h : mosq.Moving)
    (ha : a.QosOne) (hfits : a = .reconnect → mosq.Fits)
    (hstep : mosq.step a = some (evs, mosq')) : mosq'.Moving := by
  have hinv := h.invOne.step ha hstep
  cases a with
  | publish now io msg qos hqos retain =>
    cases hstep
    exact h.publish hqos hinv
  | subscribe =>
    cases hstep
    exact h.of_le hinv rfl rfl (Nat.le_refl _) le_rfl
  | handle io f =>
    rcases MosqState.step_handle_qosOne ha hstep with rfl | ⟨mid, -, rfl⟩ | ⟨mid, -, rfl⟩ |
      ⟨mid, rfl⟩
    · exact h
    · exact h.removeOut hinv
    · obtain ⟨hinflight, hmax⟩ := messageOutUpdate_inflight mosq mid .waitForPubcomp io.now
      exact h.of_le hinv hmax
        (length_eq_of_outgoing (map_outgoing_messageOutUpdate mosq mid _ _))
        (onTheirWay_messageOutUpdate mosq mid io.now) hinflight.le
    · obtain ⟨hout, hmax, hinflight⟩ := messageRemoveIn_out mosq mid
      exact h.of_le hinv hmax (by rw [hout]) (by rw [hout]) hinflight
  | reconnect => exact (h.invOne.isReset hstep).moving (hfits rfl)
  | retry now io =>
    cases hstep
    exact h.of_le hinv rfl (length_eq_of_outgoing (map_outgoing_messageRetryCheck now io mosq))
      (onTheirWay_messageRetryCheck now io mosq).ge le_rfl

/-- The condition of a step for a client to go on. -/
def MosqState.Eased (mosq : MosqState) (a : SessionAct) : Prop :=
  a.QosOne ∧ (a = .reconnect → mosq.Fits)

/-- The client with another limit, as `mosquitto_max_inflight_messages_set` leaves it before it has
sent anything. The setter takes an `unsigned int` and stores it in an `int`. -/
def MosqState.limited (max : UInt32) : MosqState :=
  { MosqState.init with maxInflightMessages := max.toInt32.toInt }

/-- Below `2 ^ 31` the `int` is the number that was set. -/
theorem toInt_toInt32_nonneg {max : UInt32} (hmax : max.toNat < 2147483648) :
    0 ≤ max.toInt32.toInt := by
  have hbits : max.toInt32.toInt = max.toBitVec.toInt := rfl
  rw [hbits, BitVec.toInt_eq_toNat_of_lt (show 2 * max.toNat < 4294967296 by omega)]
  exact Int.natCast_nonneg _

/-- A client without messages has nothing to count. -/
theorem MosqState.moving_limited {max : UInt32} (hmax : max.toNat < 2147483648) :
    (MosqState.limited max).Moving := by
  refine ⟨⟨⟨?_, ?_, rfl, rfl⟩, ?_⟩, ?_, fun hne => absurd rfl hne⟩
  · exact fun m hm => absurd hm List.not_mem_nil
  · exact fun m hm => absurd hm List.not_mem_nil
  · exact fun m hm => absurd hm List.not_mem_nil
  · rcases (toInt_toInt32_nonneg hmax).eq_or_lt with hzero | hpos
    · exact .inl hzero.symm
    · refine .inr ⟨hpos, ?_⟩
      show (0 : ℤ) - (0 : ℕ) < _
      rw [Int.natCast_zero, sub_zero]
      exact hpos

/-- And so in every state of a run. -/
theorem MosqState.always_moving {max : UInt32} (hmax : max.toNat < 2147483648)
    {as : List SessionAct} (has : Along MosqState.step MosqState.Eased (.limited max) as) :
    Always MosqState.step MosqState.Moving (.limited max) as := by
  have hstep : ∀ {s : MosqState} {a : SessionAct} {b : List ClientEvent} {t : MosqState},
      s.Moving → s.Eased a → s.step a = some (b, t) → t.Moving :=
    fun h hC hs => h.step hC.1 hC.2 hs
  exact Along.always hstep (MosqState.moving_limited hmax) has

/-- **A client never stalls** whose messages have QoS 1 and that has no more than `2 * max - 2` of
them at each reconnect: in every state of every run, as long as there are messages, one of them is
on its way. The limit is one that an `int` can hold. -/
theorem MosqState.not_stalled {max : UInt32} (hmax : max.toNat < 2147483648)
    {as : List SessionAct} (has : Along MosqState.step MosqState.Eased (.limited max) as) :
    Always MosqState.step (fun mosq => ¬mosq.Stalled) (.limited max) as :=
  (MosqState.always_moving hmax has).mono fun _ h => h.on_the_way

/-- A publish with QoS 1 that is sent at once. -/
def publishOne : SessionAct :=
  .publish 0 (fun _ => ⟨.success, true⟩) ⟨[97], []⟩ 1 (.inl rfl) false

/-- Two messages at a reconnect, with a limit of two: one of them is on its way, the other one
waits, and so does a third. -/
theorem MosqState.eased_reconnect :
    Along MosqState.step MosqState.Eased (.limited 2)
      [publishOne, publishOne, .reconnect, publishOne] := by
  have hpublish : ∀ mosq : MosqState, mosq.Eased publishOne :=
    fun _ => ⟨rfl, fun h => by cases h⟩
  refine ⟨hpublish _, fun _ _ h₁ => ?_⟩
  cases h₁
  refine ⟨hpublish _, fun _ _ h₂ => ?_⟩
  cases h₂
  refine ⟨⟨trivial, fun _ => .inr (by decide)⟩, fun _ _ _ => ?_⟩
  exact ⟨hpublish _, fun _ _ _ => trivial⟩

/-- In that run two messages wait in the end, and the client has not stalled. -/
theorem MosqState.not_stalled_reconnect : ∃ evs mosq,
    run MosqState.step (.limited 2) [publishOne, publishOne, .reconnect, publishOne] =
        some (evs, mosq) ∧
      mosq.outMessages.map MessageAll.state = [.waitForPuback, .invalid, .invalid] ∧
      ¬mosq.Stalled := by
  have hrun : run MosqState.step (.limited 2) [publishOne, publishOne, .reconnect, publishOne] =
      some (_, _) := rfl
  exact ⟨_, _, hrun, rfl,
    (MosqState.not_stalled (by decide) MosqState.eased_reconnect).of_run hrun⟩

/-! ### A broker that acknowledges -/

/-- A PUBACK. -/
def SessionAct.puback (io : HandleIo) (mid : UInt16) : SessionAct :=
  .handle io (midFrame pubackCmd mid false)

/-- A PUBACK acknowledges the message with its id. -/
theorem acked_midFrame (mid : UInt16) : (midFrame pubackCmd mid false).acked = some mid := by
  rw [Frame.acked, if_pos (.inl (show pubackCmd &&& 0xF0 = pubackCmd by decide))]
  exact congrArg some (ofNat_msb_lsb mid)

/-- Whatever the sends come to, a client that goes on can be acknowledged, one message that is on
its way at a time, until there are none left. -/
theorem MosqState.Moving.drain (io : HandleIo) (n : ℕ) : ∀ {mosq : MosqState}, mosq.Moving →
    mosq.outMessages.length = n →
      ∃ (mids : List UInt16) (evs : List (List ClientEvent)) (mosq' : MosqState),
        mids.length = n ∧
        Along MosqState.step (fun mosq a => ∃ m ∈ mosq.outMessages, m.state ≠ .invalid ∧
          a = .puback io m.mid) mosq (mids.map (SessionAct.puback io)) ∧
        run MosqState.step mosq (mids.map (SessionAct.puback io)) = some (evs, mosq') ∧
        mosq'.outMessages = [] := by
  induction n with
  | zero =>
    exact fun {mosq} _ hn => ⟨[], [], mosq, rfl, trivial, rfl, List.eq_nil_of_length_eq_zero hn⟩
  | succ n ih =>
    intro mosq h hn
    obtain ⟨m, hm, hstate⟩ := exists_of_onTheirWay_pos (h.pos fun hnil => by simp [hnil] at hn)
    obtain ⟨evs, mosq₁, hstep⟩ : ∃ evs mosq₁, mosq.step (.puback io m.mid) = some (evs, mosq₁) :=
      h.invOne.inv.exists_step fun heq => by cases heq
    have hbox := (h.invOne.inv.step hstep).outbox
    have hqos : SessionAct.QosOne (.puback io m.mid) :=
      fun hcommand => absurd hcommand (show ¬pubackCmd &&& 0xF0 = publishCmd by decide)
    have hmoving := h.step hqos (fun heq => by cases heq) hstep
    -- the PUBACK takes exactly one message out, since the id is the one of a message that is there
    have hlength : mosq₁.outMessages.length = n := by
      have hdiscard : mosq₁.outbox = mosq.outbox.discard m.mid :=
        hbox.trans (Outbox.step_of_acked (acked_midFrame m.mid) io)
      have hmem : m.outgoing ∈ mosq.outMessages.map MessageAll.outgoing := List.mem_map_of_mem hm
      have herase : ((mosq.outMessages.map MessageAll.outgoing).eraseP
          fun n => n.mid = m.mid).length + 1 = _ :=
        List.length_eraseP_add_one hmem (decide_eq_true rfl)
      have hcount := congrArg (fun o => o.messages.length) hdiscard
      simp only [MosqState.outbox, Outbox.discard, List.length_map] at hcount herase
      omega
    obtain ⟨mids, evss, mosq', hmids, halong, hrun, hnil⟩ := ih hmoving hlength
    refine ⟨m.mid :: mids, evs :: evss, mosq', by rw [List.length_cons, hmids], ?_, ?_, hnil⟩
    · refine ⟨⟨m, hm, hstate, rfl⟩, fun b t ht => ?_⟩
      obtain ⟨rfl, rfl⟩ := Prod.mk.inj (Option.some_inj.mp (hstep.symm.trans ht))
      exact halong
    · exact run_cons_eq_some.mpr ⟨evs, mosq₁, evss, hstep, hrun, rfl⟩

/-- **A broker that acknowledges gets everything.** From every state that a client reaches with few
messages at each reconnect, and whatever the sends come to, as many acknowledgements as it has
messages, each of a message that is on its way, leave none of them. -/
theorem MosqState.drained {max : UInt32} (hmax : max.toNat < 2147483648) {as : List SessionAct}
    (has : Along MosqState.step MosqState.Eased (.limited max) as) {evs : List (List ClientEvent)}
    (hrun : run MosqState.step (.limited max) as = some (evs, mosq)) (io : HandleIo) :
    ∃ (mids : List UInt16) (evs' : List (List ClientEvent)) (mosq' : MosqState),
      mids.length = mosq.outMessages.length ∧
      Along MosqState.step (fun mosq a => ∃ m ∈ mosq.outMessages, m.state ≠ .invalid ∧
        a = .puback io m.mid) mosq (mids.map (SessionAct.puback io)) ∧
      run MosqState.step mosq (mids.map (SessionAct.puback io)) = some (evs', mosq') ∧
      mosq'.outMessages = [] :=
  MosqState.Moving.drain io _ ((MosqState.always_moving hmax has).of_run hrun) rfl

/-- Three messages, two of which wait, are acknowledged one after the other. -/
theorem MosqState.drained_three : ∃ (evs evs' : List (List ClientEvent)) (mosq mosq' : MosqState)
    (mids : List UInt16),
    run MosqState.step (.limited 2) [publishOne, publishOne, .reconnect, publishOne] =
        some (evs, mosq) ∧
      mids.length = 3 ∧
      run MosqState.step mosq (mids.map (SessionAct.puback
        ⟨0, true, true, true, ⟨.success, true⟩, fun _ => ⟨.success, true⟩⟩)) =
          some (evs', mosq') ∧
      mosq'.outMessages = [] := by
  have hrun : run MosqState.step (.limited 2) [publishOne, publishOne, .reconnect, publishOne] =
      some (_, _) := rfl
  obtain ⟨mids, evs', mosq', hmids, -, hrun', hnil⟩ :=
    MosqState.drained (by decide) MosqState.eased_reconnect hrun
      ⟨0, true, true, true, ⟨.success, true⟩, fun _ => ⟨.success, true⟩⟩
  exact ⟨_, evs', _, mosq', mids, hrun, hmids, hrun', hnil⟩

/-! ### Many messages at a reconnect -/

/-- The counter is so much too high that there is no room even with nothing on its way. -/
structure MosqState.Starving (mosq : MosqState) : Prop where
  /-- All messages have QoS 1, -/
  invOne : mosq.InvOne
  /-- and those that came in as well, so that no PUBREL lowers the counter. -/
  inMessages_eq : mosq.inMessages = []
  /-- There is a limit. -/
  pos : 0 < mosq.maxInflightMessages
  /-- The counter has reached it with nothing on its way. -/
  le_drift : mosq.maxInflightMessages ≤ mosq.drift

/-- The messages that wait. -/
def MosqState.waiting (mosq : MosqState) : List MessageAll :=
  mosq.outMessages.filter fun m => m.state = .invalid

/-- A broker acknowledges only what has been sent to it, and uses PUBREC for QoS 2 only. The client
keeps its connection. -/
def MosqState.Served (mosq : MosqState) (a : SessionAct) : Prop :=
  a.QosOne ∧ match a with
    | .handle _ f => f.command &&& 0xF0 ≠ pubrecCmd ∧
        ∀ m ∈ mosq.outMessages, f.acked = some m.mid → m.state ≠ .invalid
    | .reconnect => False
    | _ => True

/-- What is left of the messages that were on their way in `mosq`, and what waits. -/
structure MosqState.Behind (mosq mosq' : MosqState) : Prop where
  /-- New messages wait behind the others. -/
  waiting : mosq.waiting <+: mosq'.waiting
  /-- Nothing has started since. -/
  onTheirWay : ∀ m ∈ mosq'.outMessages, m.state ≠ .invalid →
    ∃ n ∈ mosq.outMessages, n.state ≠ .invalid ∧ n.outgoing = m.outgoing

/-- Nothing has happened. -/
theorem MosqState.Behind.refl (mosq : MosqState) : mosq.Behind mosq :=
  ⟨List.prefix_rfl, fun m hm hstate => ⟨m, hm, hstate, rfl⟩⟩

/-- One step after the other. -/
theorem MosqState.Behind.trans {mosq'' : MosqState} (h : mosq.Behind mosq')
    (h' : mosq'.Behind mosq'') : mosq.Behind mosq'' := by
  refine ⟨h.waiting.trans h'.waiting, fun m hm hstate => ?_⟩
  obtain ⟨n, hn, hnstate, hsame⟩ := h'.onTheirWay m hm hstate
  obtain ⟨l, hl, hlstate, hsame'⟩ := h.onTheirWay n hn hnstate
  exact ⟨l, hl, hlstate, hsame'.trans hsame⟩

/-- There is no room. -/
theorem MosqState.Starving.room (h : mosq.Starving) :
    room mosq.maxInflightMessages mosq.inflightMessages = false := by
  have hle := h.le_drift
  rw [MosqState.drift] at hle
  exact room_eq_false_iff.mpr ⟨h.pos.ne', by omega⟩

/-- An acknowledgement of a message that was on its way makes no room. -/
theorem MosqState.Starving.removeOut (h : mosq.Starving) (io : MessageAll → SendResult)
    (mid : UInt16)
    (hmid : ∀ m ∈ mosq.outMessages, m.mid = mid → m.state ≠ .invalid) :
    (messageRemoveOut io mosq mid).frames = [] ∧
      mosq.Behind (messageRemoveOut io mosq mid).mosq ∧
      (messageRemoveOut io mosq mid).mosq.inMessages = [] := by
  rcases messageRemoveOut_cases io mosq mid with ⟨-, heq⟩ |
    ⟨pre, cur, post, inflight, hsplit, hcurmid, -, hinflight, heq⟩
  · rw [heq]
    exact ⟨rfl, .refl mosq, h.inMessages_eq⟩
  · have hcur : cur ∈ mosq.outMessages := by
      rw [hsplit]
      exact List.mem_append_right _ List.mem_cons_self
    have hstate : cur.state ≠ .invalid := hmid cur hcur hcurmid
    -- the counter is lowered, but the message was on its way, so the drift stays
    have hroom : Psn.room mosq.maxInflightMessages inflight = false := by
      have hle := h.le_drift
      rw [MosqState.drift, hsplit, onTheirWay_append, onTheirWay_cons, if_pos hstate] at hle
      rw [h.invOne.qos_eq cur hcur, if_pos Nat.one_pos] at hinflight
      push_cast at hle
      exact room_eq_false_iff.mpr ⟨h.pos.ne', by omega⟩
    rw [promote_of_not_room hroom] at heq
    rw [heq]
    refine ⟨rfl, ⟨?_, fun m hm hmstate => ⟨m, ?_, hmstate, rfl⟩⟩, h.inMessages_eq⟩
    · rw [MosqState.waiting, MosqState.waiting, hsplit, List.filter_append,
        List.filter_cons_of_neg (by simpa using hstate), List.filter_append]
    · rw [hsplit]
      exact (List.sublist_cons_self cur post).append_left pre |>.mem hm

/-- A message that waits is not sent again. -/
theorem retryOne_waiting {m : MessageAll} (h : m.state = .invalid) (retry now : ℕ)
    (io : MessageAll → SendResult) : retryOne retry now io m = (m, []) := by
  rw [retryOne, h]
  split <;> rfl

/-- What is sent again as a publish was on its way. -/
theorem retryOne_sends {m : MessageAll} {retry now : ℕ} {io : MessageAll → SendResult} {f : Frame}
    (hsend : f ∈ (retryOne retry now io m).2) (hf : f.command &&& 0xF0 = publishCmd) :
    m.state ≠ .invalid ∧ f = { m with dup := true }.frame := by
  have hframes : ∀ {r : SendResult} {f' : Frame}, f ∈ r.frames f' → f = f' := by
    intro r f' h
    rw [SendResult.frames] at h
    split at h
    · exact List.mem_singleton.mp h
    · cases h
  rw [retryOne] at hsend
  split at hsend
  · dsimp only at hsend
    split at hsend
    · rename_i hstate
      exact ⟨by rw [hstate]; decide, hframes hsend⟩
    · rename_i hstate
      exact ⟨by rw [hstate]; decide, hframes hsend⟩
    · rw [hframes hsend] at hf
      exact absurd hf (show ¬pubrecCmd &&& 0xF0 = publishCmd by decide)
    · rw [hframes hsend] at hf
      exact absurd hf (show ¬((pubrelCmd ||| 2) ||| 8) &&& 0xF0 = publishCmd by decide)
    · cases hsend
  · cases hsend

/-- What a step of a client that starves does: it goes on to starve, what waits goes on to wait, and
nothing is published but what was on its way, once more. -/
structure MosqState.Waits (mosq : MosqState) (evs : List ClientEvent) (mosq' : MosqState) :
    Prop where
  /-- There is no room after it either. -/
  starving : mosq'.Starving
  /-- The messages that wait are still there. -/
  behind : mosq.Behind mosq'
  /-- What it publishes, it had published before. -/
  sends : ∀ f, .send f ∈ evs → f.command &&& 0xF0 = publishCmd →
    ∃ m ∈ mosq.outMessages, m.state ≠ .invalid ∧ f = { m with dup := true }.frame

/-- A new message waits behind the others. -/
theorem MosqState.Starving.publish (h : mosq.Starving) {now qos : ℕ} {msg : Message}
    {retain : Bool} (hinv : (publishQueue now io mosq msg qos retain).2.1.InvOne) :
    mosq.Waits ((publishQueue now io mosq msg qos retain).2.2.map .send)
      (publishQueue now io mosq msg qos retain).2.1 := by
  obtain ⟨m, -, hstate, hroom⟩ := publishQueue_cases now io mosq msg qos retain
  have heq := (hroom.resolve_left fun hroom => by cases h.room.symm.trans hroom.1).2
  rw [heq] at hinv ⊢
  have hway : onTheirWay (mosq.outMessages ++ [m]) = onTheirWay mosq.outMessages := by
    rw [onTheirWay_append, onTheirWay_cons, if_neg (by simp [hstate])]
    rfl
  have hdrift := h.le_drift
  rw [MosqState.drift] at hdrift
  refine ⟨⟨hinv, h.inMessages_eq, h.pos, ?_⟩, ⟨?_, fun n hn hnstate => ?_⟩, fun f hf => ?_⟩
  · rw [MosqState.drift]
    dsimp only
    rw [hway]
    exact hdrift
  · rw [MosqState.waiting, MosqState.waiting, List.filter_append]
    exact List.prefix_append _ _
  · rcases List.mem_append.mp hn with hn | hn
    · exact ⟨n, hn, hnstate, rfl⟩
    · rw [List.mem_singleton.mp hn] at hnstate
      exact absurd hstate hnstate
  · cases hf

/-- No packet makes a client publish that starves. -/
theorem MosqState.Starving.handle_sends (h : mosq.Starving) {io : HandleIo} {f : Frame}
    {evs : List ClientEvent}
    (hacks : ∀ m ∈ mosq.outMessages, f.acked = some m.mid → m.state ≠ .invalid)
    (hstep : mosq.step (.handle io f) = some (evs, mosq')) {f' : Frame} (hf' : .send f' ∈ evs) :
    f'.command &&& 0xF0 ≠ publishCmd := by
  intro hcommand
  cases hr : packetHandle io mosq (.ofFrame f) with
  | undefined =>
    rw [MosqState.step, hr] at hstep
    cases hstep
  | error e =>
    rw [MosqState.step, hr] at hstep
    cases hstep
    cases hf'
  | ok r =>
    rw [MosqState.step, hr] at hstep
    cases hstep
    obtain ⟨mid, q, hack, hread, hmem⟩ := packetHandle_sends hr hf' hcommand
    have hacked : f.acked = some mid := acked_of_readUint16 hack hread
    rw [(h.removeOut io.publish mid fun m hm hmid => hacks m hm (hmid ▸ hacked)).1] at hmem
    cases hmem

/-- An acknowledgement of what was on its way makes no room. -/
theorem MosqState.Starving.handle (h : mosq.Starving) {io : HandleIo} {f : Frame}
    {evs : List ClientEvent} (hserved : mosq.Served (.handle io f)) (hinv : mosq'.InvOne)
    (hstep : mosq.step (.handle io f) = some (evs, mosq')) : mosq.Waits evs mosq' := by
  obtain ⟨hone, hpubrec, hacks⟩ := hserved
  suffices mosq'.Starving ∧ mosq.Behind mosq' from
    ⟨this.1, this.2, fun f' hf' hcommand =>
      absurd hcommand (h.handle_sends hacks hstep hf')⟩
  rcases MosqState.step_handle_qosOne hone hstep with rfl | ⟨mid, hacked, rfl⟩ |
    ⟨mid, hcommand, -⟩ | ⟨mid, hmosq⟩
  · exact ⟨h, .refl _⟩
  · have hmid : ∀ m ∈ mosq.outMessages, m.mid = mid → m.state ≠ .invalid :=
      fun m hm hmid => hacks m hm (hmid ▸ hacked)
    obtain ⟨-, hbehind, hin⟩ := h.removeOut io.publish mid hmid
    refine ⟨⟨hinv, hin, ?_, ?_⟩, hbehind⟩
    · rw [messageRemoveOut_max]
      exact h.pos
    · rw [messageRemoveOut_max, (drift_messageRemoveOut io.publish h.invOne.inv.acked mid).2 hmid]
      exact h.le_drift
  · exact absurd hcommand hpubrec
  · have hsame : (messageRemoveIn mosq mid).mosq = mosq := by
      rw [messageRemoveIn, h.inMessages_eq]
      rfl
    rw [hmosq, hsame]
    exact ⟨h, .refl _⟩

/-- Sending again leaves the messages that wait as they are. -/
theorem waiting_messageRetryCheck (now : ℕ) (io : MessageAll → SendResult) (mosq : MosqState) :
    (messageRetryCheck now io mosq).1.waiting = mosq.waiting := by
  have hpred : ((fun m : MessageAll => decide (m.state = .invalid)) ∘
      fun m => (retryOne mosq.messageRetry now io m).1) =
      fun m => decide (m.state = .invalid) :=
    funext fun m => by rw [Function.comp_apply, retryOne_state]
  show (mosq.outMessages.map fun m => (retryOne mosq.messageRetry now io m).1).filter
    (fun m => m.state = .invalid) = mosq.waiting
  rw [List.filter_map, MosqState.waiting, hpred]
  refine (List.map_congr_left fun m hm => ?_).trans (List.map_id _)
  rw [retryOne_waiting (by simpa using (List.mem_filter.mp hm).2)]
  rfl

/-- Only what is on its way is sent again. -/
theorem MosqState.Starving.retry (h : mosq.Starving) {now : ℕ}
    (hinv : (messageRetryCheck now io mosq).1.InvOne) :
    mosq.Waits ((messageRetryCheck now io mosq).2.map .send) (messageRetryCheck now io mosq).1 := by
  have hway := onTheirWay_messageRetryCheck now io mosq
  have hdrift := h.le_drift
  rw [MosqState.drift] at hdrift
  refine ⟨⟨hinv, ?_, h.pos, ?_⟩, ⟨?_, fun m hm hstate => ?_⟩, fun f hf hcommand => ?_⟩
  · rw [messageRetryCheck, h.inMessages_eq]
    rfl
  · rw [MosqState.drift, hway]
    exact hdrift
  · rw [waiting_messageRetryCheck]
  · obtain ⟨n, hn, rfl⟩ := List.mem_map.mp hm
    rw [retryOne_state] at hstate
    exact ⟨n, hn, hstate, (retryOne_outgoing _ _ _ n).symm⟩
  · obtain ⟨f', hf', heq⟩ := List.mem_map.mp hf
    cases heq
    rcases List.mem_append.mp hf' with hf' | hf'
    · obtain ⟨m, hm, hmf⟩ := List.mem_flatMap.mp hf'
      obtain ⟨hstate, rfl⟩ := retryOne_sends hmf hcommand
      exact ⟨m, hm, hstate, rfl⟩
    · rw [h.inMessages_eq] at hf'
      cases hf'

/-- **One step of a client that starves.** -/
theorem MosqState.Starving.step {a : SessionAct} {evs : List ClientEvent} (h : mosq.Starving)
    (ha : mosq.Served a) (hstep : mosq.step a = some (evs, mosq')) : mosq.Waits evs mosq' := by
  have hinv := h.invOne.step ha.1 hstep
  cases a with
  | publish now io msg qos hqos retain =>
    cases hstep
    exact h.publish hinv
  | subscribe =>
    cases hstep
    exact ⟨⟨hinv, h.inMessages_eq, h.pos, h.le_drift⟩,
      ⟨List.prefix_rfl, fun m hm hstate => ⟨m, hm, hstate, rfl⟩⟩, fun f hf => by cases hf⟩
  | handle io f => exact h.handle ha hinv hstep
  | reconnect => exact ha.2.elim
  | retry now io =>
    cases hstep
    exact h.retry hinv

/-- And so for a whole run. -/
theorem MosqState.Starving.run {as : List SessionAct} : ∀ {mosq mosq' : MosqState}
    {evs : List (List ClientEvent)}, mosq.Starving → Along MosqState.step MosqState.Served mosq as →
      PartialMachine.run MosqState.step mosq as = some (evs, mosq') →
        mosq.Behind mosq' ∧ ∀ f, .send f ∈ evs.flatten → f.command &&& 0xF0 = publishCmd →
          ∃ m ∈ mosq.outMessages, m.state ≠ .invalid ∧ f = { m with dup := true }.frame := by
  induction as with
  | nil =>
    intro mosq mosq' evs _ _ hrun
    cases hrun
    exact ⟨.refl mosq, fun f hf => by cases hf⟩
  | cons a as ih =>
    intro mosq mosq' evs h hserved hrun
    obtain ⟨ev, mosq₁, evs, hstep, hrest, rfl⟩ := run_cons_eq_some.mp hrun
    obtain ⟨hstarving, hbehind, hsends⟩ := h.step hserved.1 hstep
    obtain ⟨hbehind', hsends'⟩ := ih hstarving (hserved.2 ev mosq₁ hstep) hrest
    refine ⟨hbehind.trans hbehind', fun f hf hcommand => ?_⟩
    rw [List.flatten_cons] at hf
    rcases List.mem_append.mp hf with hf | hf
    · exact hsends f hf hcommand
    · obtain ⟨m, hm, hstate, rfl⟩ := hsends' f hf hcommand
      obtain ⟨n, hn, hnstate, hsame⟩ := hbehind.onTheirWay m hm hstate
      refine ⟨n, hn, hnstate, ?_⟩
      obtain ⟨hmid, hmsg, hqos, hretain⟩ := Outgoing.mk.inj hsame
      rw [MessageAll.frame, MessageAll.frame, hmid, hmsg, hqos, hretain]

/-- What waits, and what is on its way. -/
theorem length_waiting (mosq : MosqState) :
    mosq.waiting.length + onTheirWay mosq.outMessages = mosq.outMessages.length := by
  rw [MosqState.waiting, ← List.countP_eq_length_filter, onTheirWay,
    List.length_eq_countP_add_countP fun m : MessageAll => decide (m.state = .invalid)]
  refine congrArg (_ + ·) (List.countP_congr fun m _ => ?_)
  simp

/-- **Messages are left behind.** When a client with QoS 1 has `2 * max - 1` messages or more at a
reconnect, and none that it has received, then `max - 1` of them are on their way and the others
wait. Until the next reconnect, whatever the client does, as long as only messages that are on their
way are acknowledged, those that wait go on to wait, and nothing is published but those that were on
their way, once more. (Acknowledging a message that waits would make room.) -/
theorem MosqState.starved {start : MosqState} {as : List SessionAct}
    {ev : List ClientEvent} {evs : List (List ClientEvent)} (h : mosq.InvOne)
    (hin : mosq.inMessages = []) (hmax : 0 < mosq.maxInflightMessages)
    (hmany : 2 * mosq.maxInflightMessages ≤ mosq.outMessages.length + 1)
    (hreset : mosq.step .reconnect = some (ev, start))
    (hserved : Along MosqState.step MosqState.Served start as)
    (hrun : PartialMachine.run MosqState.step start as = some (evs, mosq')) :
    (start.waiting.length : ℤ) = mosq.outMessages.length - (mosq.maxInflightMessages - 1) ∧
      start.waiting <+: mosq'.waiting ∧
      ∀ f, .send f ∈ evs.flatten → f.command &&& 0xF0 = publishCmd →
        ∃ m ∈ start.outMessages, m.state ≠ .invalid ∧ f = { m with dup := true }.frame := by
  obtain ⟨hone, hmaxeq, hinflight, hlength, hway, hin'⟩ := h.isReset hreset
  rw [if_neg hmax.ne'] at hway
  have hwait := length_waiting start
  have hdrift : start.maxInflightMessages ≤ start.drift := by
    rw [hmaxeq, MosqState.drift, hinflight, hway]
    omega
  obtain ⟨hbehind, hsends⟩ := MosqState.Starving.run ⟨hone, hin' hin, hmaxeq ▸ hmax, hdrift⟩
    hserved hrun
  exact ⟨by omega, hbehind.waiting, hsends⟩

/-- A client that may have one message on its way has two of them at a reconnect. -/
theorem MosqState.starved_two :
    ∃ (mosq start mosq' : MosqState) (ev : List ClientEvent) (evs : List (List ClientEvent)),
      mosq.step .reconnect = some (ev, start) ∧
      PartialMachine.run MosqState.step start [.retry 100 fun _ => ⟨.success, true⟩] =
        some (evs, mosq') ∧ (start.waiting.length : ℤ) = 2 ∧ start.waiting <+: mosq'.waiting := by
  have hmosq : MosqState.InvOne ⟨2, [], [⟨0, .waitForPuback, false, 1, ⟨[97], []⟩, 1, false⟩,
      ⟨0, .invalid, false, 2, ⟨[97], []⟩, 1, false⟩], 1, 1, 20, 0, 2⟩ := by
    refine ⟨⟨?_, ?_, rfl, rfl⟩, ?_⟩
    · simp [Acked]
    · simp
    · simp
  have hreset : MosqState.step ⟨2, [], [⟨0, .waitForPuback, false, 1, ⟨[97], []⟩, 1, false⟩,
      ⟨0, .invalid, false, 2, ⟨[97], []⟩, 1, false⟩], 1, 1, 20, 0, 2⟩ .reconnect =
        some (_, _) := rfl
  have hserved : ∀ start, Along MosqState.step MosqState.Served start
      [.retry 100 fun _ => ⟨.success, true⟩] :=
    fun _ => ⟨⟨trivial, trivial⟩, fun _ _ _ => trivial⟩
  obtain ⟨hwaiting, hprefix, -⟩ := MosqState.starved hmosq rfl (by decide) (by decide) hreset
    (hserved _) rfl
  exact ⟨_, _, _, _, _, hreset, rfl, hwaiting, hprefix⟩

end Psn

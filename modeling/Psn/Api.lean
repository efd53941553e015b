import Psn.Config
import Psn.Executable
import Psn.Publishing
import Psn.Session

/-!
# The whole interface

`Proc.apiStep` takes one operation of any kind: every function of `psn.h` and the callback. A run
of it is any use of an instance at all, with any outcome of the library calls.

Chat messages have a gate, and `psn_send_message` keeps it. `psn_send_encrypted_message` does not
look at the flag `connected` or at the friends, and so the gate holds in a run only as far as its
user keeps it himself.

## Scope

`Proc.step` of `Psn.Refinement` is the part of this that works on the lists, with names that fit.
The operations here have the session and the profile besides, and a run has no result behind a call
that is undefined. So a result about `Proc.apiStep` is about every use of the interface up to such a
call.

What an operation prints is kept apart from what it publishes. `Silent` and `Notices` say that an
operation publishes nothing, and this is shown once for each of them.

## Main results

* `topic_of_publish_api`: what the operations publish
* `sendsGated_iff`: when the two sending operations keep the gate
-/

namespace Psn

open Buffer KeyedChain PartialMachine Tomcrypt

/-- The operations of `psn.h`. -/
inductive ApiOp (κ : Type)
  | init (io : InitIo)
  | free
  | generateNewKey (made : Bool) (pkKey : κ)
  | connect (io : ConnectIo)
  | disconnect
  | setUsername (username password : CStr)
  | setShownName (shownName : CStr)
  | setServer (hostname : CStr) (port : Int32)
  | getFriendList
  | lists (op : Op)
  | sendEncryptedMessage (target plainMessage : CStr) (prng : Bytes) (io : PublishIo)
  | serializeConfig (stack : KeyBuffers) (cap : ℕ)
  | deserializeConfig (srcStr : CStr) (pkKeyBuf : Sized 2048)

variable {τ κ : Type} [Tomcrypt κ] [UserTable τ κ]

/-- One operation of the interface. -/
def Proc.apiStep (J : Jansson) (p : Proc τ κ) : ApiOp κ → Option (Output × Proc τ κ)
  | .init io => some (psnInit p io).result
  | .free => (psnFree p).map Reply.result
  | .generateNewKey made pkKey => some (psnGenerateNewKey p made pkKey).result
  | .connect io => (psnConnect p io).map Reply.result
  | .disconnect => some (psnDisconnect p).result
  | .setUsername username password => (psnSetUsername p username password).map Reply.result
  | .setShownName shownName => (psnSetShownName p shownName).map Reply.result
  | .setServer hostname port => (psnSetServer p hostname port).map Reply.result
  | .getFriendList => (psnGetFriendList p.psn).map fun _ => (⟨none, []⟩, p)
  | .lists op => p.step op
  | .sendEncryptedMessage target plainMessage prng io =>
    (psnSendEncryptedMessage p target plainMessage prng io).map Reply.result
  | .serializeConfig stack cap =>
    (psnSerializeConfig J p.psn stack cap).map fun r => (⟨some r.1, r.2.2⟩, p)
  | .deserializeConfig srcStr pkKeyBuf =>
    (psnDeserializeConfig J p.psn srcStr pkKeyBuf).map fun r =>
      (⟨some r.1, r.2.2⟩, { p with psn := r.2.1 })

/-! ### Operations that publish nothing -/

omit [Tomcrypt κ] [UserTable τ κ] in
/-- Connecting subscribes, and publishes nothing. -/
theorem silent_psnConnect {p : Proc τ κ} {io : ConnectIo} {r : Reply τ κ}
    (h : psnConnect p io = some r) : Silent r.effects := by
  obtain ⟨⟨psn, mosq⟩, -, h⟩ := Option.bind_eq_some_iff.mp h
  simp only at h
  split at h
  · cases h
    simp [Effect.message]
  obtain ⟨usersTopic, -, h⟩ := Option.bind_eq_some_iff.mp h
  obtain ⟨chatTopic, -, h⟩ := Option.bind_eq_some_iff.mp h
  split at h
  · cases h
    simp [Effect.message]
  · cases h
    simp [Effect.message]

omit [UserTable τ κ] in
/-- Saving users prints notices only. -/
theorem notices_serializeUsers {J : Jansson} {failed saved : ConfigArrays → Json → ConfigArrays}
    {users : List (User κ)} :
    ∀ {k : KeyBuffers} {arrays : ConfigArrays} {r : KeyBuffers × ConfigArrays × List Effect},
      serializeUsers J failed saved users k arrays = some r → Notices r.2.2 := by
  induction users with
  | nil =>
    intro k arrays r h
    cases Option.some_inj.mp h
    exact notices_nil
  | cons s users ih =>
    intro k arrays r h
    obtain ⟨⟨k₁, newObj, found⟩, -, h⟩ := Option.bind_eq_some_iff.mp h
    obtain ⟨⟨k₂, arrays₂, effects⟩, hrest, h⟩ := Option.bind_eq_some_iff.mp h
    cases Option.some_inj.mp h
    refine notices_append.mpr ⟨?_, ih hrest⟩
    cases found <;> simp

/-- Loading them prints notices only as well. -/
theorem notices_deserializeUsers {root : Option Json} {mark : CStr} {arr : List Json} :
    ∀ {buf : Sized 2048} {t : τ} {r : Sized 2048 × τ × List Effect},
      deserializeUsers root mark arr buf t = some r → Notices r.2.2 := by
  induction arr with
  | nil =>
    intro buf t r h
    cases Option.some_inj.mp h
    exact notices_nil
  | cons obj arr ih =>
    intro buf t r h
    obtain ⟨⟨buf₁, new, warning⟩, hnew, h⟩ := Option.bind_eq_some_iff.mp h
    obtain ⟨⟨buf₂, t₂, effects⟩, hrest, h⟩ := Option.bind_eq_some_iff.mp h
    cases Option.some_inj.mp h
    refine notices_append.mpr ⟨?_, ih hrest⟩
    obtain ⟨name, -, hnew⟩ := Option.bind_eq_some_iff.mp hnew
    obtain ⟨shownName, -, hnew⟩ := Option.bind_eq_some_iff.mp hnew
    split at hnew
    · cases Option.some_inj.mp hnew
      simp
    · obtain ⟨_, -, hnew⟩ := Option.bind_eq_some_iff.mp hnew
      cases Option.some_inj.mp hnew
      exact notices_nil

/-- So saving a profile publishes nothing, -/
theorem notices_psnSerializeConfig {J : Jansson} {psn : PsnT τ κ} {stack : KeyBuffers} {cap : ℕ}
    {r : PsnErr × Field cap × List Effect} (h : psnSerializeConfig J psn stack cap = some r) :
    Notices r.2.2 := by
  obtain ⟨⟨root, effects⟩, hroot, h⟩ := Option.bind_eq_some_iff.mp h
  obtain ⟨destStr, -, h⟩ := Option.bind_eq_some_iff.mp h
  cases Option.some_inj.mp h
  obtain ⟨_, h₁, hroot⟩ := Option.bind_eq_some_iff.mp hroot
  obtain ⟨_, h₂, hroot⟩ := Option.bind_eq_some_iff.mp hroot
  obtain ⟨_, h₃, hroot⟩ := Option.bind_eq_some_iff.mp hroot
  obtain ⟨_, -, hroot⟩ := Option.bind_eq_some_iff.mp hroot
  obtain ⟨_, -, hroot⟩ := Option.bind_eq_some_iff.mp hroot
  cases Option.some_inj.mp hroot
  exact notices_append.mpr ⟨notices_append.mpr
    ⟨notices_serializeUsers h₁, notices_serializeUsers h₂⟩, notices_serializeUsers h₃⟩

/-- and neither does loading one. -/
theorem notices_psnDeserializeConfig {J : Jansson} {psn q : PsnT τ κ} {srcStr : CStr}
    {buf : Sized 2048} {err : PsnErr} {effects : List Effect}
    (h : psnDeserializeConfig J psn srcStr buf = some (err, q, effects)) : Notices effects := by
  obtain ⟨-, _, _, _, _, _, _, h₁, h₂, h₃, -, rfl⟩ := psnDeserializeConfig_eq_some h
  exact notices_append.mpr ⟨notices_append.mpr
    ⟨notices_deserializeUsers h₁, notices_deserializeUsers h₂⟩, notices_deserializeUsers h₃⟩

/-- The operations that ask the library for something else than the delivery of a message. -/
def ApiOp.isSession : ApiOp κ → Bool
  | .connect _ | .disconnect | .free => true
  | _ => false

/-- Apart from those, only the operations on the lists and the encrypted messages do more than
print notices. -/
theorem notices_of_apiStep {J : Jansson} {p q : Proc τ κ} {op : ApiOp κ} {o : Output}
    (h : p.apiStep J op = some (o, q)) (hsession : op.isSession = false)
    (hlists : ∀ op', op ≠ .lists op')
    (hsend : ∀ target message prng io, op ≠ .sendEncryptedMessage target message prng io) :
    Notices o.effects := by
  cases op with
  | init io =>
    obtain rfl : (psnInit p io).result.1 = o := congrArg Prod.fst (Option.some_inj.mp h)
    rw [psnInit]
    split
    · simp
    split <;> simp
  | free | connect | disconnect => cases hsession
  | generateNewKey made pkKey =>
    obtain rfl : (psnGenerateNewKey p made pkKey).result.1 = o :=
      congrArg Prod.fst (Option.some_inj.mp h)
    exact notices_nil
  | setUsername username password =>
    obtain ⟨r, hr, rfl, -⟩ := exists_reply h
    obtain ⟨_, -, hr⟩ := Option.bind_eq_some_iff.mp hr
    obtain ⟨_, -, hr⟩ := Option.bind_eq_some_iff.mp hr
    obtain ⟨_, -, hr⟩ := Option.bind_eq_some_iff.mp hr
    cases Option.some_inj.mp hr
    exact notices_nil
  | setShownName shownName =>
    obtain ⟨r, hr, rfl, -⟩ := exists_reply h
    obtain ⟨_, -, hr⟩ := Option.bind_eq_some_iff.mp hr
    cases Option.some_inj.mp hr
    exact notices_nil
  | setServer hostname port =>
    obtain ⟨r, hr, rfl, -⟩ := exists_reply h
    obtain ⟨_, -, hr⟩ := Option.bind_eq_some_iff.mp hr
    cases Option.some_inj.mp hr
    exact notices_nil
  | getFriendList =>
    obtain ⟨_, -, heq⟩ := Option.map_eq_some_iff.mp h
    cases heq
    exact notices_nil
  | lists op => exact absurd rfl (hlists op)
  | sendEncryptedMessage target message prng io => exact absurd rfl (hsend target message prng io)
  | serializeConfig stack cap =>
    obtain ⟨r, hr, heq⟩ := Option.map_eq_some_iff.mp h
    cases heq
    exact notices_psnSerializeConfig hr
  | deserializeConfig srcStr pkKeyBuf =>
    obtain ⟨⟨err, psn, effects⟩, hr, heq⟩ := Option.map_eq_some_iff.mp h
    cases heq
    exact notices_psnDeserializeConfig hr

/-- Only the operations on the lists and the encrypted messages publish anything. -/
theorem silent_of_apiStep {J : Jansson} {p q : Proc τ κ} {op : ApiOp κ} {o : Output}
    (h : p.apiStep J op = some (o, q)) (hlists : ∀ op', op ≠ .lists op')
    (hsend : ∀ target message prng io, op ≠ .sendEncryptedMessage target message prng io) :
    Silent o.effects := by
  by_cases hsession : op.isSession = false
  · exact (notices_of_apiStep h hsession hlists hsend).silent
  cases op with
  | free =>
    obtain ⟨r, hr, rfl, -⟩ := exists_reply h
    rw [psnFree] at hr
    split at hr
    · cases hr
      cases p.psn.mosq <;> simp [Effect.message]
    · cases hr
  | connect io =>
    obtain ⟨r, hr, rfl, -⟩ := exists_reply h
    exact silent_psnConnect hr
  | disconnect =>
    obtain rfl : (psnDisconnect p).result.1 = o := congrArg Prod.fst (Option.some_inj.mp h)
    rw [psnDisconnect]
    split
    · exact silent_nil
    split <;> simp [Effect.message]
  | _ => exact absurd rfl hsession

/-! ### The gate -/

/-- What a sending operation owes: it publishes for the target only if the gate is open, and
reports a closed gate. -/
structure Gated (p : Proc τ κ) (target : CStr) (r : Reply τ κ) : Prop where
  published : ∀ mosq topic payload, .publish mosq topic payload ∈ r.effects →
    topic = chatTopic p.psn.username.1 target ∧ MaySend p target
  refused : ¬MaySend p target → r.err = .notConnected ∨ r.err = .userNotInFriendList

/-- The code with which an operation refuses to send, if it does. -/
def Reply.refusal {τ κ : Type} (r : Reply τ κ) : Option PsnErr :=
  if r.err = .notConnected ∨ r.err = .userNotInFriendList then some r.err else none

/-- Both sending operations are defined and gated, and they decide alike. -/
def SendsGated (p : Proc τ κ) (target message : CStr) (prng : Bytes) (io io' : PublishIo) : Prop :=
  ∃ r r', psnSendMessage p target message io = some r ∧
    psnSendEncryptedMessage p target message prng io' = some r' ∧
    Gated p target r ∧ Gated p target r' ∧ r.refusal = r'.refusal

omit [Tomcrypt κ] in
/-- `psn_send_message` keeps the gate. -/
theorem gated_psnSendMessage {p : Proc τ κ} {target message : CStr} {io : PublishIo}
    {r : Reply τ κ} (h : psnSendMessage p target message io = some r) : Gated p target r where
  published mosq topic payload he := by
    rcases psnSendMessage_eq_some h with
      ⟨-, ⟨-, -, heffects⟩ | ⟨-, -, -, heffects⟩ | ⟨hconn, hfriend, -, heffects⟩⟩
    · simp [heffects] at he
    · simp [heffects] at he
    · rw [heffects] at he
      obtain ⟨_, -, heq⟩ := mem_mosquittoPublish he
      exact ⟨(Effect.publish.inj heq).2.1, hconn, hfriend⟩
  refused hclosed := by
    rcases psnSendMessage_eq_some h with
      ⟨-, ⟨-, herr, -⟩ | ⟨-, -, herr, -⟩ | ⟨hconn, hfriend, -, -⟩⟩
    · exact Or.inl herr
    · exact Or.inr herr
    · exact absurd ⟨hconn, hfriend⟩ hclosed

omit [Tomcrypt κ] in
/-- Behind an open gate, `psn_send_message` does not refuse. -/
theorem refusal_psnSendMessage {p : Proc τ κ} {target message : CStr} {io : PublishIo}
    {r : Reply τ κ} (h : psnSendMessage p target message io = some r) (hopen : MaySend p target) :
    r.refusal = none := by
  rcases psnSendMessage_eq_some h with
    ⟨-, ⟨hconn, -, -⟩ | ⟨-, hfriend, -, -⟩ | ⟨-, -, herr, -⟩⟩
  · rw [hopen.1] at hconn
    cases hconn
  · exact absurd hopen.2 hfriend
  · simp [Reply.refusal, herr]

omit [UserTable τ κ] in
/-- `psn_send_encrypted_message` never refuses. -/
theorem refusal_psnSendEncryptedMessage {p : Proc τ κ} {target message : CStr} {prng : Bytes}
    {io : PublishIo} {r : Reply τ κ}
    (h : psnSendEncryptedMessage p target message prng io = some r) : r.refusal = none := by
  rcases psnSendEncryptedMessage_eq_some h with ⟨herr, -⟩ | ⟨herr, -⟩ <;>
    simp [Reply.refusal, herr]

omit [UserTable τ κ] in
/-- An encrypted message has the topic of a chat message. -/
theorem topic_of_psnSendEncryptedMessage {p : Proc τ κ} {target message : CStr} {prng : Bytes}
    {io : PublishIo} {r : Reply τ κ}
    (h : psnSendEncryptedMessage p target message prng io = some r) {mosq : Mosq}
    {topic payload : CStr} (he : .publish mosq topic payload ∈ r.effects) :
    p.psn.mosq = some mosq ∧ topic = chatTopic p.psn.username.1 target := by
  rcases psnSendEncryptedMessage_eq_some h with ⟨-, heffects⟩ | ⟨-, encrypted, heffects⟩
  · simp [heffects] at he
  · rw [heffects] at he
    obtain ⟨_, hmosq, heq⟩ := mem_mosquittoPublish he
    obtain ⟨rfl, htopic, -⟩ := Effect.publish.inj heq
    exact ⟨hmosq, htopic⟩

/-- An operation that never refuses is gated only where the gate is open. -/
theorem maySend_of_sendsGated {p : Proc τ κ} {target message : CStr} {prng : Bytes}
    {io io' : PublishIo} (h : SendsGated p target message prng io io') : MaySend p target := by
  obtain ⟨r, r', -, hr', -, hgated', -⟩ := h
  by_contra hclosed
  have hrefusal := refusal_psnSendEncryptedMessage hr'
  rw [Reply.refusal, if_pos (hgated'.refused hclosed)] at hrefusal
  cases hrefusal

/-- Behind an open gate, both operations send, and only for the target. -/
theorem sendsGated_of_maySend {p : Proc τ κ} {target : CStr} (h : MaySend p target)
    (message : CStr) (prng : Bytes) (io io' : PublishIo) :
    SendsGated p target message prng io io' := by
  obtain ⟨r, hr⟩ := exists_psnSendMessage p target message io
  obtain ⟨r', hr'⟩ :=
    exists_psnSendEncryptedMessage p (length_lt_of_mem_keys h.2) message prng io'
  refine ⟨r, r', hr, hr', gated_psnSendMessage hr, ⟨?_, fun hclosed => absurd h hclosed⟩, ?_⟩
  · exact fun mosq topic payload he => ⟨(topic_of_psnSendEncryptedMessage hr' he).2, h⟩
  · rw [refusal_psnSendMessage hr h, refusal_psnSendEncryptedMessage hr']

/-- Whatever an operation publishes goes through the client of the instance, and is a friend request
or a chat message under its name. -/
theorem topic_of_publish_api {J : Jansson} {p q : Proc τ κ} {op : ApiOp κ} {o : Output}
    (h : p.apiStep J op = some (o, q)) {mosq : Mosq} {topic payload : CStr}
    (he : .publish mosq topic payload ∈ o.effects) :
    p.psn.mosq = some mosq ∧ ∃ t, topic = frequestTopic t p.psn.username.1 ∨
      topic = chatTopic p.psn.username.1 t := by
  by_cases hlists : ∃ op', op = .lists op'
  · obtain ⟨op', rfl⟩ := hlists
    obtain ⟨hmosq, t, ht⟩ := topic_of_publish h he
    exact ⟨hmosq, t, ht.imp_right And.left⟩
  by_cases hsend : ∃ target message prng io, op = .sendEncryptedMessage target message prng io
  · obtain ⟨target, message, prng, io, rfl⟩ := hsend
    obtain ⟨r, hr, rfl, -⟩ := exists_reply h
    obtain ⟨hmosq, htopic⟩ := topic_of_psnSendEncryptedMessage hr he
    exact ⟨hmosq, target, Or.inr htopic⟩
  · have hsilent := silent_of_apiStep h (fun op' heq => hlists ⟨op', heq⟩)
      fun target message prng io heq => hsend ⟨target, message, prng, io, heq⟩
    exact absurd he (hsilent.publish_not_mem mosq topic payload)

/-! ### The gate over whole runs -/

/-- The user encrypts messages only behind an open gate. -/
def EncryptsToFriends (p : Proc τ κ) (op : ApiOp κ) : Prop :=
  ∀ target message prng io, op = .sendEncryptedMessage target message prng io → MaySend p target

/-- Whatever an operation publishes is a friend request or a chat message of the client, and a
chat message only behind an open gate. -/
def ChatsToFriends (J : Jansson) (p : Proc τ κ) (op : ApiOp κ) : Prop :=
  ∀ o q, p.apiStep J op = some (o, q) → ∀ mosq topic payload,
    .publish mosq topic payload ∈ o.effects →
      ∃ t, topic = frequestTopic t p.psn.username.1 ∨
        (topic = chatTopic p.psn.username.1 t ∧ MaySend p t)

/-- If the user keeps the gate for the encrypted messages, the client does for all of them. -/
theorem chatsToFriends_of_encryptsToFriends (J : Jansson) (p : Proc τ κ) (op : ApiOp κ)
    (h : EncryptsToFriends p op) : ChatsToFriends J p op := by
  intro o q hstep mosq topic payload he
  by_cases hlists : ∃ op', op = .lists op'
  · obtain ⟨op', rfl⟩ := hlists
    exact (topic_of_publish hstep he).2
  by_cases hsend : ∃ target message prng io, op = .sendEncryptedMessage target message prng io
  · obtain ⟨target, message, prng, io, rfl⟩ := hsend
    obtain ⟨r, hr, rfl, -⟩ := exists_reply hstep
    exact ⟨target, Or.inr ⟨(topic_of_psnSendEncryptedMessage hr he).2, h _ _ _ _ rfl⟩⟩
  · have hsilent := silent_of_apiStep hstep (fun op' heq => hlists ⟨op', heq⟩)
      fun target message prng io heq => hsend ⟨target, message, prng, io, heq⟩
    exact absurd he (hsilent.publish_not_mem mosq topic payload)

/-- **The gate.** Whatever was done with an instance, the two sending operations keep the gate for
a target exactly if it is open for him, because one of them never looks at it. Hence a run in
which the user keeps the gate himself has all its chat messages sent to friends. -/
theorem sendsGated_iff (J : Jansson) (p : Proc τ κ) (ops : List (ApiOp κ)) :
    (∀ outs q, run (Proc.apiStep J) p.init ops = some (outs, q) →
      ∀ target message prng io io',
        SendsGated q target message prng io io' ↔ MaySend q target) ∧
    (Along (Proc.apiStep J) EncryptsToFriends p.init ops →
      Along (Proc.apiStep J) (ChatsToFriends J) p.init ops) := by
  refine ⟨fun outs q _ target message prng io io' => ?_, fun h => ?_⟩
  · exact ⟨maySend_of_sendsGated, fun h => sendsGated_of_maySend h message prng io io'⟩
  · exact h.mono (chatsToFriends_of_encryptsToFriends J)

/-- A client that was never connected. -/
def offlineProc : Proc (List (User DerKey)) DerKey := { concreteProc alice with connected := false }

set_option maxRecDepth 4000 in
/-- A client without friends publishes an encrypted message. -/
theorem not_sendsGated_stranger :
    ∃ outs q, run (Proc.apiStep (asciiJansson .null)) offlineProc.init
        [.generateNewKey true ⟨some tinyKey⟩, .connect ⟨some 2, .success, .success⟩] =
          some (outs, q) ∧
      (∃ payload, (psnSendEncryptedMessage q bob.bytes (lit "hi") [] .ok).map Reply.effects =
        some [.publish 2 (lit "chat/alice/bob") payload]) ∧
      ¬SendsGated q bob.bytes (lit "hi") [] .ok .ok := by
  refine ⟨_, _, rfl, ⟨_, rfl⟩, fun h => ?_⟩
  exact absurd (maySend_of_sendsGated h).2 (by decide)

/-- Connect, accept a request, and send an encrypted message to the new friend. -/
def befriendBob : List (ApiOp DerKey) :=
  [.connect ⟨some 2, .success, .success⟩, .lists (.frequest alice bob []),
    .lists (.acceptFriendReq bob.bytes .ok), .sendEncryptedMessage bob.bytes (lit "hi") [] .ok]

/-- A message to a friend passes the gate. -/
theorem sendsGated_iff_friend :
    (∃ outs q, run (Proc.apiStep (asciiJansson .null)) offlineProc.init befriendBob =
        some (outs, q) ∧ SendsGated q bob.bytes (lit "hi") [] .ok .ok) ∧
      Along (Proc.apiStep (asciiJansson .null)) (ChatsToFriends (asciiJansson .null))
        offlineProc.init befriendBob := by
  obtain ⟨hgate, hchats⟩ := sendsGated_iff (asciiJansson .null) offlineProc befriendBob
  constructor
  · refine ⟨_, _, rfl, (hgate _ _ rfl bob.bytes (lit "hi") [] .ok .ok).mpr ⟨rfl, ?_⟩⟩
    decide
  · refine hchats ⟨(fun _ _ _ _ h => nomatch h), fun b t ht => ?_⟩
    cases ht
    refine ⟨(fun _ _ _ _ h => nomatch h), fun b t ht => ?_⟩
    cases ht
    refine ⟨(fun _ _ _ _ h => nomatch h), fun b t ht => ?_⟩
    cases ht
    refine ⟨fun _ _ _ _ h => ?_, fun b t ht => trivial⟩
    cases h
    exact ⟨rfl, by decide⟩

end Psn

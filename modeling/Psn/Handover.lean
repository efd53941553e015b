import Psn.Executable
import Psn.Publishing

/-!
# Publishes that fail

Four calls end in a publish and none of them looks at what it returned. `PublishCall` is one of
the four. Such a call should be all or nothing: it reports success and has handed its message to
libmosquitto and changed the lists, or it reports an error and has done neither (`Atomic`).

Everything that a call checks itself it checks before it does anything, so a call that stops
there is atomic. Behind its checks a call always reports success, and then it is atomic exactly
if libmosquitto takes the message (`Accepted`).

## Main results

* `publish_mem_iff`: when `mosquitto_publish` takes a message
* `reply_of_starts`, `reply_of_not_starts`: the two outcomes of a call that publishes
* `atomic_iff_accepted`: which calls are all or nothing
-/

namespace Psn

open KeyedChain Tomcrypt

variable {τ κ : Type}

/-! ### What the library takes -/

/-- A message is handed over whole exactly if the client is there, the topic has no wildcards, the
payload is short enough and there is memory. -/
theorem publish_mem_iff {mosq : Option Mosq} {m : Mosq} {topic payload : CStr} {len : ℤ}
    {io : PublishIo} (hlen : len = intOfSize payload.length ∨ len = payload.length) :
    .publish m topic payload ∈ (mosquittoPublish mosq topic len payload io).2 ↔
      mosq = some m ∧ topic ≠ [] ∧ (payload.length : ℤ) ≤ mqttMaxPayload ∧
        topicWildcardLenCheck topic = .success ∧ io.alloc = true := by
  constructor
  · intro h
    obtain ⟨m', rfl, heq⟩ := mem_mosquittoPublish h
    obtain ⟨rfl, -, htake⟩ := Effect.publish.inj heq
    rw [mosquittoPublish] at h
    split at h
    · cases h
    rename_i htopic
    split at h
    · cases h
    rename_i hrange
    split at h
    · cases h
    rename_i hwild
    split at h
    · cases h
    rename_i halloc
    refine ⟨rfl, htopic, ?_, by simpa using hwild, by simpa using halloc⟩
    -- nothing is cut off, so the length that was announced covers the payload
    have hcovers : payload.length ≤ len.toNat := by
      have hlength := congrArg List.length htake
      rw [List.length_take] at hlength
      omega
    omega
  · rintro ⟨rfl, htopic, hmax, hwild, halloc⟩
    have hint : len = payload.length := by
      rcases hlen with rfl | rfl
      · refine intOfSize_of_lt ?_
        rw [mqttMaxPayload] at hmax
        omega
      · rfl
    rw [hint, mosquittoPublish_ok htopic hmax hwild halloc]
    exact List.mem_singleton_self _

/-! ### The calls -/

/-- The calls that publish. -/
inductive PublishCall
  | makeFriendReq (target message : CStr) (io : PublishIo)
  | acceptFriendReq (target : CStr) (io : PublishIo)
  | sendMessage (target message : CStr) (io : PublishIo)
  | sendEncryptedMessage (target plainMessage : CStr) (prng : Bytes) (io : PublishIo)
  deriving DecidableEq, Repr

namespace PublishCall

/-- The user the call names. -/
def target : PublishCall → CStr
  | makeFriendReq target .. | acceptFriendReq target .. | sendMessage target ..
  | sendEncryptedMessage target .. => target

/-- What the run decides about the publish. -/
def io : PublishCall → PublishIo
  | makeFriendReq _ _ io | acceptFriendReq _ io | sendMessage _ _ io
  | sendEncryptedMessage _ _ _ io => io

/-- The topic of the message. -/
def topic (psn : PsnT τ κ) : PublishCall → CStr
  | makeFriendReq target .. | acceptFriendReq target .. => frequestTopic target psn.username.1
  | sendMessage target .. | sendEncryptedMessage target .. => chatTopic psn.username.1 target

/-- What the call is for its target's standing. -/
def act : PublishCall → Option Standing.Act
  | makeFriendReq .. => some .request
  | acceptFriendReq .. => some .accept
  | _ => none

variable [Tomcrypt κ]

/-- The payload of the message. -/
def payload (psn : PsnT τ κ) : PublishCall → Bytes
  | makeFriendReq _ message _ | sendMessage _ message _ => message
  | acceptFriendReq .. => []
  | sendEncryptedMessage _ plainMessage prng _ =>
    (rsaEncryptKey plainMessage (encryptedLen plainMessage) 4096 prng psn.pkKey).getD []

/-- `mosquitto_publish` takes the message of the call. -/
def Accepted (p : Proc τ κ) (c : PublishCall) : Prop :=
  p.psn.mosq ≠ none ∧ topicWildcardLenCheck (c.topic p.psn) = .success ∧
    ((c.payload p.psn).length : ℤ) ≤ mqttMaxPayload ∧ c.io.alloc = true

instance (p : Proc τ κ) (c : PublishCall) : Decidable (c.Accepted p) :=
  inferInstanceAs (Decidable (_ ∧ _ ∧ _ ∧ _))

variable [UserTable τ κ]

/-- The call itself. -/
def reply (p : Proc τ κ) : PublishCall → Option (Reply τ κ)
  | makeFriendReq target message io => psnMakeFriendReq p target message io
  | acceptFriendReq target io => psnAcceptFriendReq p target io
  | sendMessage target message io => psnSendMessage p target message io
  | sendEncryptedMessage target plainMessage prng io =>
    psnSendEncryptedMessage p target plainMessage prng io

/-- The call gets past its own checks. -/
def Starts (p : Proc τ κ) : PublishCall → Prop
  | makeFriendReq .. => Ready p
  | acceptFriendReq target _ => Ready p ∧ target ∈ keys p.psn.friendRequestsIncoming
  | sendMessage target .. => MaySend p target
  | sendEncryptedMessage _ plainMessage prng _ =>
    (rsaEncryptKey plainMessage (encryptedLen plainMessage) 4096 prng p.psn.pkKey).isSome

/-- The message of the call went to the client. -/
def HandedOver (p : Proc τ κ) (c : PublishCall) (r : Reply τ κ) : Prop :=
  ∃ m, p.psn.mosq = some m ∧ .publish m (c.topic p.psn) (c.payload p.psn) ∈ r.effects

/-- The lists changed as the call means them to, and only for its target. -/
def Moved (p : Proc τ κ) (c : PublishCall) (r : Reply τ κ) : Prop :=
  ∀ name, standing r.proc.psn name =
    if c.target = name then (c.act.elim id fun a s => s.step a) (standing p.psn name)
    else standing p.psn name

/-- All or nothing. -/
def Atomic (p : Proc τ κ) (c : PublishCall) (r : Reply τ κ) : Prop :=
  (r.err = .success ∧ c.HandedOver p r ∧ c.Moved p r) ∨
    (r.err ≠ .success ∧ Silent r.effects ∧ SameLists p.psn r.proc.psn)

/-! ### The two outcomes -/

variable {p : Proc τ κ} {c : PublishCall} {r : Reply τ κ}

/-- A call that stops at its own checks reports an error and does nothing. -/
theorem reply_of_not_starts (h : c.reply p = some r) (hstarts : ¬c.Starts p) :
    r.err ≠ .success ∧ Silent r.effects ∧ r.proc = p := by
  cases c with
  | makeFriendReq target message io =>
    rcases psnMakeFriendReq_eq_some h with ⟨-, hproc, herr, hprint⟩ | ⟨hready, -⟩
    · exact ⟨herr, fun e he => by rw [hprint e he]; rfl, hproc⟩
    · exact absurd hready hstarts
  | acceptFriendReq target io =>
    rcases psnAcceptFriendReq_eq_some h with
      ⟨-, hproc, herr, hprint⟩ | ⟨-, -, herr, hproc, hnone⟩ | ⟨inList, hready, hfind, -⟩
    · exact ⟨herr, fun e he => by rw [hprint e he]; rfl, hproc⟩
    · exact ⟨by simp [herr], by simp [hnone], hproc⟩
    · exact absurd ⟨hready, mem_keys_of_find hfind⟩ hstarts
  | sendMessage target message io =>
    obtain ⟨hproc, ⟨-, herr, hprint⟩ | ⟨-, -, herr, hprint⟩ | ⟨hconn, hfriend, -⟩⟩ :=
      psnSendMessage_eq_some h
    · exact ⟨by simp [herr], by simp [hprint, Effect.message], hproc⟩
    · exact ⟨by simp [herr], by simp [hprint, Effect.message], hproc⟩
    · exact absurd ⟨hconn, hfriend⟩ hstarts
  | sendEncryptedMessage target plainMessage prng io =>
    have hfail : rsaEncryptKey plainMessage (encryptedLen plainMessage) 4096 prng p.psn.pkKey =
        none := by simpa [Starts] using hstarts
    simp only [reply, psnSendEncryptedMessage, hfail, Option.some.injEq] at h
    rw [← h]
    exact ⟨by simp, silent_nil, rfl⟩

/-- Behind its checks a call changes the lists and reports success, whatever came of the
publish. -/
theorem reply_of_starts (h : c.reply p = some r) (hstarts : c.Starts p) :
    r.err = .success ∧ c.Moved p r ∧
      ∃ len : ℤ, (len = intOfSize (c.payload p.psn).length ∨ len = (c.payload p.psn).length) ∧
        r.effects =
          (mosquittoPublish p.psn.mosq (c.topic p.psn) len (c.payload p.psn) c.io).2 := by
  cases c with
  | makeFriendReq target message io =>
    rcases psnMakeFriendReq_eq_some h with ⟨hnot, -⟩ | ⟨-, herr, -, hpub, hins⟩
    · exact absurd hstarts hnot
    · exact ⟨herr, fun name => standing_makeFriendReqInsert hins name, _, Or.inl rfl,
        makeFriendReqPublish_eq_some hpub⟩
  | acceptFriendReq target io =>
    rcases psnAcceptFriendReq_eq_some h with
      ⟨hnot, -⟩ | ⟨-, hnot, -⟩ | ⟨inList, -, hfind, herr, -, hpub, hpsn⟩
    · exact absurd hstarts.1 hnot
    · exact absurd hstarts.2 hnot
    · refine ⟨herr, fun name => ?_, 0, Or.inr rfl, acceptFriendReqPublish_eq_some hpub⟩
      rw [hpsn]
      exact standing_move hfind name
  | sendMessage target message io =>
    obtain ⟨hproc, ⟨hconn, -⟩ | ⟨-, hfriend, -⟩ | ⟨-, -, herr, hpub⟩⟩ := psnSendMessage_eq_some h
    · rw [hstarts.1] at hconn
      cases hconn
    · exact absurd hstarts.2 hfriend
    · refine ⟨herr, fun name => ?_, _, Or.inl rfl, hpub⟩
      rw [hproc]
      exact (ite_self _).symm
  | sendEncryptedMessage target plainMessage prng io =>
    obtain ⟨encrypted, hencrypted⟩ := Option.isSome_iff_exists.mp hstarts
    simp only [reply, psnSendEncryptedMessage, hencrypted] at h
    obtain ⟨text, htext, h⟩ := Option.bind_eq_some_iff.mp h
    obtain rfl := Option.some_inj.mp h
    refine ⟨rfl, fun name => (ite_self _).symm, _, Or.inr rfl, ?_⟩
    simp only [payload, hencrypted, Option.getD_some, topic, sprintf_eq_some.mp htext]
    rfl

omit [Tomcrypt κ] [UserTable τ κ] in
/-- No call has an empty topic. -/
theorem topic_ne_nil (psn : PsnT τ κ) (c : PublishCall) : c.topic psn ≠ [] := by
  have hpos : 0 < (c.topic psn).length := by
    cases c <;> simp only [topic, length_frequestTopic, length_chatTopic] <;> omega
  exact List.ne_nil_of_length_pos hpos

/-- Behind its checks a call hands its message over exactly if the library takes it. -/
theorem handedOver_iff (h : c.reply p = some r) (hstarts : c.Starts p) :
    c.HandedOver p r ↔ c.Accepted p := by
  obtain ⟨-, -, len, hlen, heffects⟩ := reply_of_starts h hstarts
  simp only [HandedOver, heffects, publish_mem_iff hlen]
  constructor
  · rintro ⟨m, hmosq, -, -, hmax, hwild, halloc⟩
    exact ⟨by simp [hmosq], hwild, hmax, halloc⟩
  · rintro ⟨hmosq, hwild, hmax, halloc⟩
    obtain ⟨m, hm⟩ := Option.ne_none_iff_exists'.mp hmosq
    exact ⟨m, hm, hm, topic_ne_nil p.psn c, hmax, hwild, halloc⟩

/-- **Which calls are all or nothing.** A call that publishes is atomic exactly if it stops at its
own checks or the library takes its message. -/
theorem atomic_iff_accepted (h : c.reply p = some r) :
    c.Atomic p r ↔ (c.Starts p → c.Accepted p) := by
  by_cases hstarts : c.Starts p
  · obtain ⟨herr, hmoved, -⟩ := reply_of_starts h hstarts
    rw [forall_prop_of_true hstarts, ← handedOver_iff h hstarts]
    constructor
    · rintro (⟨-, hhanded, -⟩ | ⟨hnot, -⟩)
      · exact hhanded
      · exact absurd herr hnot
    · exact fun hhanded => Or.inl ⟨herr, hhanded, hmoved⟩
  · obtain ⟨herr, hsilent, hproc⟩ := reply_of_not_starts h hstarts
    refine iff_of_true (Or.inr ⟨herr, hsilent, ?_⟩) fun hc => absurd hc hstarts
    rw [hproc]
    exact SameLists.refl _

/-- A request that the library takes. -/
theorem atomic_iff_accepted_asked :
    ∃ r, (makeFriendReq bob.bytes (lit "hi") .ok).reply (concreteProc alice) = some r ∧
      (makeFriendReq bob.bytes (lit "hi") .ok).Atomic (concreteProc alice) r :=
  ⟨_, rfl, (atomic_iff_accepted rfl).mpr fun _ => by decide⟩

/-- A request to a name with a wildcard is recorded as outgoing and never sent. -/
theorem not_atomic_wildcard :
    ∃ r, (makeFriendReq (lit "bob+") (lit "hi") .ok).reply (concreteProc alice) = some r ∧
      r.err = .success ∧ r.effects = [] ∧
      keys r.proc.psn.friendRequestsOutgoing = [lit "bob+"] ∧
      ¬(makeFriendReq (lit "bob+") (lit "hi") .ok).Atomic (concreteProc alice) r := by
  obtain ⟨r, hr, herr, heffects, hkeys⟩ :
      ∃ r, (makeFriendReq (lit "bob+") (lit "hi") .ok).reply (concreteProc alice) = some r ∧
        r.err = .success ∧ r.effects = [] ∧
        keys r.proc.psn.friendRequestsOutgoing = [lit "bob+"] :=
    ⟨_, rfl, rfl, by decide, by decide⟩
  refine ⟨r, hr, herr, heffects, hkeys, ?_⟩
  rintro (⟨-, ⟨m, -, hmem⟩, -⟩ | ⟨hnot, -⟩)
  · rw [heffects] at hmem
    cases hmem
  · exact hnot herr

end PublishCall

end Psn

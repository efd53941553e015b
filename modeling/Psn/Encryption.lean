import Psn.Executable
import Psn.Outcomes

/-!
# Encrypted messages

`psn_send_encrypted_message` has one call of `rsa_encrypt_key`. It takes the length of the message
less one, in unsigned arithmetic, and its own key. So what is encrypted is never the whole message:
the last byte is missing, or for the empty message the length wraps around; and the one who can
decrypt it is the sender.

## Main results

* `recovered_of_ownKey`: what can be decrypted, and by whom
* `not_encryptsFor`: the whole message is never encrypted for its recipient
-/

namespace Psn

open KeyedChain Tomcrypt

variable {τ κ : Type} [Tomcrypt κ]

/-- The arguments of a call of `rsa_encrypt_key`. -/
structure EncryptCall (κ : Type) where
  /-- The bytes at `in`. -/
  plain : Bytes
  /-- `inlen`. -/
  inlen : ℕ
  /-- `outlen`. -/
  outlen : ℕ
  /-- `key`. -/
  key : κ
  deriving DecidableEq

/-- What the call writes, or its failure. -/
def EncryptCall.result (call : EncryptCall κ) (prng : Bytes) : Option Bytes :=
  rsaEncryptKey call.plain call.inlen call.outlen prng call.key

omit [Tomcrypt κ] in
/-- The call in `psn_send_encrypted_message`. -/
def encryptCall (psn : PsnT τ κ) (plainMessage : CStr) : EncryptCall κ :=
  ⟨plainMessage, encryptedLen plainMessage, 4096, psn.pkKey⟩

/-- `psn_send_encrypted_message` publishes the result of its call. -/
theorem psnSendEncryptedMessage_eq (p : Proc τ κ) (target plainMessage : CStr) (prng : Bytes)
    (io : PublishIo) :
    psnSendEncryptedMessage p target plainMessage prng io =
      match (encryptCall p.psn plainMessage).result prng with
      | none => some ⟨.cryptFail, p, []⟩
      | some encrypted => do
        let topic ← sprintf 128 (chatTopic p.psn.username.1 target)
        return ⟨.success, p,
          (mosquittoPublish p.psn.mosq topic.1 encrypted.length encrypted io).2⟩ := rfl

theorem effects_of_encryption_fails {p : Proc τ κ} {target plainMessage : CStr} {prng : Bytes}
    {io : PublishIo} {r : Reply τ κ} (hfails : (encryptCall p.psn plainMessage).result prng = none)
    (h : psnSendEncryptedMessage p target plainMessage prng io = some r) : r.effects = [] := by
  rw [psnSendEncryptedMessage_eq, hfails] at h
  cases h
  rfl

theorem payload_of_publish {p : Proc τ κ} {target plainMessage : CStr} {prng : Bytes}
    {io : PublishIo} {r : Reply τ κ}
    (h : psnSendEncryptedMessage p target plainMessage prng io = some r) {mosq : Mosq}
    {topic payload : CStr} (he : .publish mosq topic payload ∈ r.effects) :
    (encryptCall p.psn plainMessage).result prng = some payload := by
  rw [psnSendEncryptedMessage_eq] at h
  split at h
  · cases h
    cases he
  · rename_i encrypted hencrypted
    obtain ⟨topic', -, h⟩ := Option.bind_eq_some_iff.mp h
    cases h
    obtain ⟨_, -, heq⟩ := mem_mosquittoPublish he
    obtain ⟨-, -, rfl⟩ := Effect.publish.inj heq
    rw [hencrypted, Int.toNat_natCast, List.take_length]

/-! ### What is encrypted -/

/-- Decryption with the private key that matches a public one undoes encryption. -/
def Decrypts (decrypt : κ → Bytes → Option Bytes) : Prop :=
  ∀ (call : EncryptCall κ) (prng encrypted : Bytes), call.inlen ≤ call.plain.length →
    call.result prng = some encrypted →
      decrypt call.key encrypted = some (call.plain.take call.inlen)

/-- The whole message is encrypted for a user: the call is passed all of its bytes and his key, what
is published is decrypted to the message by his private key, and nothing is published when the
encryption fails. -/
structure EncryptsFor (p : Proc τ κ) (user : User κ) (plainMessage : CStr) : Prop where
  plain : (encryptCall p.psn plainMessage).plain = plainMessage
  inlen : (encryptCall p.psn plainMessage).inlen = plainMessage.length
  key : (encryptCall p.psn plainMessage).key = user.pubKey
  recovered : ∀ decrypt, Decrypts decrypt → ∀ prng io r,
    psnSendEncryptedMessage p user.name.1 plainMessage prng io = some r →
      ∀ mosq topic payload, .publish mosq topic payload ∈ r.effects →
        decrypt user.pubKey payload = some plainMessage
  failed : ∀ prng io r, (encryptCall p.psn plainMessage).result prng = none →
    psnSendEncryptedMessage p user.name.1 plainMessage prng io = some r → r.effects = []

omit [Tomcrypt κ] in
theorem encryptedLen_eq (plainMessage : CStr) :
    encryptedLen plainMessage =
      (18446744073709551615 + plainMessage.length) % 18446744073709551616 := by
  rw [encryptedLen, UInt64.toNat_sub, UInt64.toNat_ofNat']
  simp

omit [Tomcrypt κ] in
/-- The length that is passed is off by one, or it wraps around. -/
theorem encryptedLen_ne (plainMessage : CStr) :
    encryptedLen plainMessage ≠ plainMessage.length := by
  rw [encryptedLen_eq]
  omega

omit [Tomcrypt κ] in
theorem encryptedLen_of_ne_nil {plainMessage : CStr} (hne : plainMessage ≠ [])
    (h : plainMessage.length < 18446744073709551616) :
    encryptedLen plainMessage = plainMessage.length - 1 := by
  have hpos := List.length_pos_of_ne_nil hne
  rw [encryptedLen_eq]
  omega

/-- What is published for a message that is not empty is decrypted to the message without its last
byte, by the private key of the sender. -/
theorem recovered_of_ownKey {p : Proc τ κ} {target plainMessage : CStr} {prng : Bytes}
    {io : PublishIo} {r : Reply τ κ} (hne : plainMessage ≠ [])
    (hlen : plainMessage.length < 18446744073709551616)
    {decrypt : κ → Bytes → Option Bytes} (hdecrypt : Decrypts decrypt)
    (h : psnSendEncryptedMessage p target plainMessage prng io = some r) {mosq : Mosq}
    {topic payload : CStr} (he : .publish mosq topic payload ∈ r.effects) :
    decrypt p.psn.pkKey payload = some plainMessage.dropLast := by
  have hinlen : (encryptCall p.psn plainMessage).inlen = plainMessage.length - 1 :=
    encryptedLen_of_ne_nil hne hlen
  have hplain : (encryptCall p.psn plainMessage).plain = plainMessage := rfl
  have hresult := hdecrypt (encryptCall p.psn plainMessage) prng payload
    (by rw [hinlen, hplain]; omega) (payload_of_publish h he)
  rwa [hinlen, hplain, ← List.dropLast_eq_take] at hresult

/-- **Whole messages.** For no state, user and message is the whole message encrypted for the
user. -/
theorem not_encryptsFor (p : Proc τ κ) (user : User κ) (plainMessage : CStr) :
    ¬EncryptsFor p user plainMessage :=
  fun h => encryptedLen_ne plainMessage h.inlen

/-- Alice has a key of her own, and bob is a friend whose key is known. -/
def keyedProc : Proc (List (User DerKey)) DerKey where
  connected := true
  psn := { (concreteProc alice).psn with
    friends := [⟨bob.field, bob.field, ⟨some tinyPublicKey⟩⟩]
    pkKey := ⟨some tinyKey⟩ }

/-- Of the message `hi` to bob, one byte is encrypted, and with the key of alice. -/
theorem not_encryptsFor_hi :
    encryptCall keyedProc.psn (lit "hi") = ⟨lit "hi", 1, 4096, ⟨some tinyKey⟩⟩ ∧
      ¬EncryptsFor keyedProc ⟨bob.field, bob.field, ⟨some tinyPublicKey⟩⟩ (lit "hi") := by
  refine ⟨by decide, fun h => ?_⟩
  exact absurd h.inlen (by decide)

end Psn

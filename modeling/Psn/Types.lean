import Psn.Lib.KeyedChain
import Psn.CString

/-!
# The data of the client

The types of `psn.h`, and the two libraries whose values they hold. libtomcrypt is not part of the
repository, and of uthash only the copy of the broker is, so they enter as classes: `Tomcrypt` is an
RSA key with the operations the client calls, and a list of users is any `KeyedChain` of user
records. That the tables of uthash are one is shown in `Psn.HashTable`.

## Main definitions

* `PsnErr`: the return codes
* `User`, `PsnT`: a user record and a client instance
* `Proc`: a process, which is an instance together with the static flag `connected`
* `Effect`: what a call makes happen outside the instance
-/

namespace Psn

/-- Raw bytes, which may contain zeros. -/
abbrev Bytes := List UInt8

/-- `psn_err`. -/
inductive PsnErr
  | success
  | notConnected
  | couldNotConnect
  | alreadyConnected
  | userNotInFriendList
  | userNotInIncomingFriendList
  | userNotInOutgoingFriendList
  | frequestPending
  | fail
  | cryptFail
  deriving DecidableEq, Repr

/-! ### libtomcrypt -/

/-- The `type` argument of `rsa_export`. -/
inductive PkType
  | pkPublic
  | pkPrivate
  deriving DecidableEq, Repr

/-- An `rsa_key` with the operations of libtomcrypt that the client calls. -/
class Tomcrypt (κ : Type) where
  /-- The key of a record fresh from `calloc`: every byte is zero. -/
  zero : κ
  /-- `key.e == 0`. -/
  unset : κ → Bool
  unset_zero : unset zero = true
  /-- `rsa_export` into a buffer of `outlen` bytes: the bytes written, or a failure. -/
  rsaExport : PkType → (outlen : ℕ) → κ → Option Bytes
  rsaExport_length : ∀ {type outlen key out},
    rsaExport type outlen key = some out → out.length ≤ outlen
  /-- An exported key is a DER sequence, which has at least a header. -/
  rsaExport_ne_nil : ∀ {type outlen key out}, rsaExport type outlen key = some out → out ≠ []
  /-- `rsa_import` over the key that is there already: whether it returns `CRYPT_OK`, and what it
  leaves of the key. A failing import may leave anything. -/
  rsaImport : Bytes → κ → Bool × κ
  /-- `rsa_encrypt_key` of `inlen` bytes at `plain` with the given random bytes, into a buffer
  of `outlen` bytes. -/
  rsaEncryptKey : (plain : Bytes) → (inlen outlen : ℕ) → (prng : Bytes) → κ → Option Bytes

/-! ### Users and instances -/

/-- `user_t`, without its hash handle. -/
structure User (κ : Type) where
  /-- `name`, the key of the hash table. -/
  name : Field 32
  /-- `shown_name`. -/
  shownName : Field 32
  /-- `pub_key`. -/
  pubKey : κ
  deriving DecidableEq

instance (κ : Type) : Keyed (User κ) CStr := ⟨fun u => u.name.1⟩

@[simp] theorem key_user {κ : Type} (u : User κ) : Keyed.key u = u.name.1 := rfl

/-- A list of users: a uthash table of `user_t` records keyed by `name`. -/
abbrev UserTable (τ κ : Type) := KeyedChain τ (User κ) CStr

/-- The address of a `struct mosquitto`. -/
abbrev Mosq := ℕ

/-- `psn_t`. -/
structure PsnT (τ κ : Type) where
  /-- `mosq`; NULL is `none`. -/
  mosq : Option Mosq
  /-- `username`. -/
  username : Field 32
  /-- `shown_name`. -/
  shownName : Field 32
  /-- `password`. -/
  password : Field 32
  /-- `hostname`. -/
  hostname : Field 256
  /-- `port`. -/
  port : Int32
  /-- `friends`. -/
  friends : τ
  /-- `friend_requests_outgoing`. -/
  friendRequestsOutgoing : τ
  /-- `friend_requests_incoming`. -/
  friendRequestsIncoming : τ
  /-- `pk_key`. -/
  pkKey : κ

/-- Two instances have the same three lists. -/
structure SameLists {τ κ : Type} (psn psn' : PsnT τ κ) : Prop where
  friends : psn'.friends = psn.friends
  incoming : psn'.friendRequestsIncoming = psn.friendRequestsIncoming
  outgoing : psn'.friendRequestsOutgoing = psn.friendRequestsOutgoing

theorem SameLists.refl {τ κ : Type} (psn : PsnT τ κ) : SameLists psn psn := ⟨rfl, rfl, rfl⟩

/-- A process: the static flag `connected` of `psn.c` and the instance it works on. -/
structure Proc (τ κ : Type) where
  /-- `connected`. -/
  connected : Bool
  /-- The instance. -/
  psn : PsnT τ κ

/-- The process after a successful `psn_init`: the lists are empty, and every other field still
holds what the memory of the instance held before. -/
def Proc.init {τ κ : Type} [UserTable τ κ] (p : Proc τ κ) : Proc τ κ :=
  { p with
    psn := { p.psn with
      friends := KeyedChain.empty
      friendRequestsIncoming := KeyedChain.empty
      friendRequestsOutgoing := KeyedChain.empty } }

/-! ### Effects -/

/-- What the client prints. -/
inductive Notice
  | sprngNotRegistered
  | sha1NotRegistered
  | tomcryptInitFailed
  | notConnected
  | sendNotConnected
  | targetNotFriend
  | message (sender text : CStr)
  | requestAccepted (name : CStr)
  | requestReceived (name : CStr)
  | keyNotFound (name : CStr)
  | noPublicKey (name mark : CStr)
  deriving DecidableEq, Repr

/-- The text of a notice, as `printf` writes it. -/
def Notice.text : Notice → CStr
  | .sprngNotRegistered => lit "Error registering sprng"
  | .sha1NotRegistered => lit "Error registering sha1"
  | .tomcryptInitFailed => lit "* ERROR: libtomcrypt init failed.\n"
  | .notConnected => lit "* ERROR: not connected\n"
  | .sendNotConnected => lit "*ERROR: not connected\n"
  | .targetNotFriend => lit "*ERROR: target not in friend list\n"
  | .message sender text => lit "\r" ++ sender ++ lit ": " ++ text ++ lit "\n> "
  | .requestAccepted name => lit "\r* " ++ name ++ lit " has accepted your friend request\n> "
  | .requestReceived name => lit "\r* " ++ name ++ lit " sent you a friend request\n> "
  | .keyNotFound name => lit "* WARNING: could not find key for: " ++ name ++ lit "\n"
  | .noPublicKey name mark =>
    lit "* WARNING: " ++ name ++ lit " has no public key stored" ++ mark ++ lit "\n"

/-- What a call makes happen outside the instance, in order: the calls of libmosquitto and the
notices printed. `publish` stands for a message that the library has taken over. -/
inductive Effect
  | publish (mosq : Mosq) (topic payload : CStr)
  | new (id : CStr) (result : Mosq)
  | messageCallbackSet (mosq : Mosq)
  | usernamePwSet (mosq : Mosq) (username password : CStr)
  | connect (mosq : Mosq) (hostname : CStr) (port : Int32)
  | subscribe (mosq : Mosq) (sub : CStr)
  | loopStart (mosq : Mosq)
  | disconnect (mosq : Mosq)
  | loopStop (mosq : Mosq)
  | destroy (mosq : Mosq)
  | print (notice : Notice)
  deriving DecidableEq, Repr

/-- The return code of a call, the process after it and its effects. -/
structure Reply (τ κ : Type) where
  /-- The return code. -/
  err : PsnErr
  /-- The process after the call. -/
  proc : Proc τ κ
  /-- The effects, in order. -/
  effects : List Effect

end Psn

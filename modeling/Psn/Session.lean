import Psn.Mosquitto

/-!
# The session and the profile

The functions of `psn.c` that set up an instance, connect it and take it down. `connected` is a
static flag of the module, so it belongs to the process and not to the instance.

What the libraries return is an argument. A call that hands a NULL client to libmosquitto's
`mosquitto_message_callback_set`, which dereferences it, has no result.
-/

namespace Psn

open KeyedChain

variable {τ κ : Type} [UserTable τ κ]

/-- What the run decides about `psn_init`: whether libtomcrypt registers the generator and the
hash. -/
structure InitIo where
  /-- `register_prng` succeeds. -/
  sprng : Bool
  /-- `register_hash` succeeds. -/
  sha1 : Bool
  deriving DecidableEq, Repr

/-- `psn_init`. -/
def psnInit (p : Proc τ κ) (io : InitIo) : Reply τ κ :=
  if io.sprng = false then
    ⟨.fail, p, [.print .sprngNotRegistered, .print .tomcryptInitFailed]⟩
  else if io.sha1 = false then
    ⟨.fail, p, [.print .sha1NotRegistered, .print .tomcryptInitFailed]⟩
  else ⟨.success, p.init, []⟩

/-- What the run decides about `psn_connect`: the client that `mosquitto_new` made, and what
`mosquitto_connect` and `mosquitto_loop_start` returned. -/
structure ConnectIo where
  /-- The result of `mosquitto_new`. -/
  new : Option Mosq
  /-- The result of `mosquitto_connect`. -/
  connect : MosqErr
  /-- The result of `mosquitto_loop_start`. -/
  loopStart : MosqErr
  deriving DecidableEq, Repr

/-- The first part of `psn_connect`, up to setting the callback, which is where a NULL client is
dereferenced. The check for NULL that follows it comes too late. -/
def connectClient (psn : PsnT τ κ) (io : ConnectIo) : Option (PsnT τ κ × Mosq) := do
  let mosq ←
    match psn.mosq with
    -- `mosquitto_reinitialise` refuses NULL and changes nothing
    | none => none
    | some _ => io.new
  return ({ psn with mosq := some mosq }, mosq)

/-- `psn_connect`. -/
def psnConnect (p : Proc τ κ) (io : ConnectIo) : Option (Reply τ κ) := do
  let (psn, mosq) ← connectClient p.psn io
  let effects := [Effect.new psn.username.1 mosq, .messageCallbackSet mosq,
    .usernamePwSet mosq psn.username.1 psn.password.1, .connect mosq psn.hostname.1 psn.port]
  if io.connect ≠ .success then return ⟨.couldNotConnect, { p with psn }, effects⟩
  let usersTopic ← sprintf 128 (usersSub psn.username.1)
  let chatTopic ← sprintf 128 (chatSub psn.username.1)
  let effects := effects ++
    [.subscribe mosq usersTopic.1, .subscribe mosq chatTopic.1, .loopStart mosq]
  if io.loopStart ≠ .success then return ⟨.fail, { p with psn }, effects⟩
  return ⟨.success, ⟨true, psn⟩, effects⟩

/-- `psn_disconnect`. -/
def psnDisconnect (p : Proc τ κ) : Reply τ κ :=
  match p.psn.mosq with
  | none => ⟨.fail, p, []⟩
  | some mosq =>
    if p.connected = false then ⟨.alreadyConnected, p, []⟩
    else ⟨.success, { p with connected := false }, [.disconnect mosq, .loopStop mosq]⟩

/-- `psn_free`. The loops over the lists read the link of a record that they have freed, so they
are defined for empty lists only. -/
def psnFree (p : Proc τ κ) : Option (Reply τ κ) :=
  let destroyed := p.psn.mosq.toList.map Effect.destroy
  if items p.psn.friends = [] ∧ items p.psn.friendRequestsIncoming = [] ∧
      items p.psn.friendRequestsOutgoing = [] then some ⟨.success, p, destroyed⟩
  else none

omit [UserTable τ κ] in
/-- `psn_generate_new_key`, given whether `rsa_make_key` succeeded and the key that it left. -/
def psnGenerateNewKey (p : Proc τ κ) (made : Bool) (pkKey : κ) : Reply τ κ :=
  ⟨if made then .success else .fail, { p with psn := { p.psn with pkKey := pkKey } }, []⟩

/-- `psn_set_server`. -/
def psnSetServer (p : Proc τ κ) (hostname : CStr) (port : Int32) : Option (Reply τ κ) := do
  let hostname ← strcpy 256 (some hostname)
  return ⟨.success, { p with psn := { p.psn with hostname := hostname, port := port } }, []⟩

/-- `psn_set_username`. -/
def psnSetUsername (p : Proc τ κ) (username password : CStr) : Option (Reply τ κ) := do
  let password ← strcpy 32 (some password)
  let shownName ← strcpy 32 (some username)
  let username ← strcpy 32 (some username)
  return ⟨.success, { p with
    psn := { p.psn with username := username, shownName := shownName, password := password } },
    []⟩

/-- `psn_set_shown_name`. -/
def psnSetShownName (p : Proc τ κ) (shownName : CStr) : Option (Reply τ κ) := do
  let shownName ← strcpy 32 (some shownName)
  return ⟨.success, { p with psn := { p.psn with shownName := shownName } }, []⟩

/-- `psn_get_friend_list`: the strings behind the out-parameter. It points to one pointer, and for
the second friend the code takes the one behind it. -/
def psnGetFriendList (psn : PsnT τ κ) : Option (List CStr) :=
  if (keys psn.friends).length ≤ 1 then some (keys psn.friends) else none

end Psn

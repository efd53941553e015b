import Psn.Mosquitto

/-!
# Friend lists and messages

The functions of `psn.c` that work on the three lists of users, as the code computes them. A
function is `none` where the code has undefined behaviour: a string that does not fit its buffer,
or a NULL level handed to a string function.

`psn_make_friend_req` and `psn_accept_friend_req` are written as the sequence of their steps
(publish, then insert; unlink, publish, insert), each of which has its own definition, because
the loop thread may run a callback between any two of them.
-/

namespace Psn

open KeyedChain Tomcrypt

variable {τ κ : Type} [Tomcrypt κ] [UserTable τ κ]

/-! ### Records and lookups -/

/-- A record fresh from `calloc`, with `name` copied into both of its strings. -/
def callocUser (name : Option CStr) : Option (User κ) := do
  let field ← strcpy 32 name
  let shownName ← strcpy 32 name
  return ⟨field, shownName, zero⟩

/-- `HASH_FIND_STR`. The macro reads the key only when the table has records. -/
def hashFindStr (t : τ) : Option CStr → Option (Option (Fin (items t).length))
  | some name => some (find t name)
  | none => if (items t).isEmpty then some none else none

/-! ### Requests -/

/-- The first step of `psn_make_friend_req`: build the topic and publish the request. -/
def makeFriendReqPublish (psn : PsnT τ κ) (target message : CStr) (io : PublishIo) :
    Option (List Effect) := do
  let topic ← sprintf 128 (frequestTopic target psn.username.1)
  return (mosquittoPublish psn.mosq topic.1 (intOfSize message.length) message io).2

/-- The second step of `psn_make_friend_req`: record the target as outgoing. -/
def makeFriendReqInsert (psn : PsnT τ κ) (target : CStr) : Option (PsnT τ κ) := do
  let new ← callocUser (some target)
  return { psn with friendRequestsOutgoing := add psn.friendRequestsOutgoing new }

/-- `psn_make_friend_req`. -/
def psnMakeFriendReq (p : Proc τ κ) (target message : CStr) (io : PublishIo) :
    Option (Reply τ κ) :=
  if p.psn.mosq = none then some ⟨.fail, p, []⟩
  else if p.connected = false then some ⟨.notConnected, p, [.print .notConnected]⟩
  else do
    let published ← makeFriendReqPublish p.psn target message io
    let psn ← makeFriendReqInsert p.psn target
    return ⟨.success, { p with psn }, published⟩

/-- The first step of `psn_accept_friend_req`: unlink the record from the incoming list. -/
def acceptFriendReqDelete (psn : PsnT τ κ)
    (inList : Fin (items psn.friendRequestsIncoming).length) : PsnT τ κ :=
  { psn with friendRequestsIncoming := del psn.friendRequestsIncoming inList }

/-- The second step of `psn_accept_friend_req`: build the topic and publish the acceptance. -/
def acceptFriendReqPublish (psn : PsnT τ κ) (target : CStr) (io : PublishIo) :
    Option (List Effect) := do
  let topic ← sprintf 128 (frequestTopic target psn.username.1)
  return (mosquittoPublish psn.mosq topic.1 0 [] io).2

/-- The third step of `psn_accept_friend_req`: link the same record into the friend list. -/
def acceptFriendReqInsert (psn : PsnT τ κ) (user : User κ) : PsnT τ κ :=
  { psn with friends := add psn.friends user }

/-- `psn_accept_friend_req`. -/
def psnAcceptFriendReq (p : Proc τ κ) (target : CStr) (io : PublishIo) : Option (Reply τ κ) :=
  if p.psn.mosq = none then some ⟨.fail, p, []⟩
  else if p.connected = false then some ⟨.notConnected, p, [.print .notConnected]⟩
  else
    match find p.psn.friendRequestsIncoming target with
    | none => some ⟨.userNotInIncomingFriendList, p, []⟩
    | some inList => do
      let user := record p.psn.friendRequestsIncoming inList
      let psn := acceptFriendReqDelete p.psn inList
      let published ← acceptFriendReqPublish psn target io
      return ⟨.success, { p with psn := acceptFriendReqInsert psn user }, published⟩

/-- `psn_refuse_friend_req`. -/
def psnRefuseFriendReq (p : Proc τ κ) (target : CStr) : Reply τ κ :=
  match find p.psn.friendRequestsIncoming target with
  | none => ⟨.userNotInIncomingFriendList, p, []⟩
  | some inList =>
    let incoming := del p.psn.friendRequestsIncoming inList
    ⟨.success, { p with psn := { p.psn with friendRequestsIncoming := incoming } }, []⟩

/-- `psn_delete_friend`. -/
def psnDeleteFriend (p : Proc τ κ) (target : CStr) : Reply τ κ :=
  match find p.psn.friends target with
  | none => ⟨.userNotInFriendList, p, []⟩
  | some inList =>
    let friends := del p.psn.friends inList
    ⟨.success, { p with psn := { p.psn with friends := friends } }, []⟩

/-! ### Chat messages -/

/-- `psn_send_message`. -/
def psnSendMessage (p : Proc τ κ) (target message : CStr) (io : PublishIo) :
    Option (Reply τ κ) :=
  if p.connected = false then some ⟨.notConnected, p, [.print .sendNotConnected]⟩
  else
    match find p.psn.friends target with
    | none => some ⟨.userNotInFriendList, p, [.print .targetNotFriend]⟩
    | some _ => do
      let topic ← sprintf 128 (chatTopic p.psn.username.1 target)
      let len := intOfSize message.length
      return ⟨.success, p, (mosquittoPublish p.psn.mosq topic.1 len message io).2⟩

/-- `strlen(plain_message) - 1` in an `unsigned long`. -/
def encryptedLen (plainMessage : CStr) : ℕ := (UInt64.ofNat plainMessage.length - 1).toNat

/-- `psn_send_encrypted_message`; `prng` is what the random generator supplies. -/
def psnSendEncryptedMessage (p : Proc τ κ) (target plainMessage : CStr) (prng : Bytes)
    (io : PublishIo) : Option (Reply τ κ) :=
  match rsaEncryptKey plainMessage (encryptedLen plainMessage) 4096 prng p.psn.pkKey with
  | none => some ⟨.cryptFail, p, []⟩
  | some encrypted => do
    let topic ← sprintf 128 (chatTopic p.psn.username.1 target)
    return ⟨.success, p, (mosquittoPublish p.psn.mosq topic.1 encrypted.length encrypted io).2⟩

/-! ### Incoming messages -/

/-- `struct mosquitto_message`, as far as the callback reads it. -/
structure Message where
  /-- `topic`. -/
  topic : CStr
  /-- `payload`, of `payloadlen` bytes. -/
  payload : Bytes
  deriving DecidableEq, Repr

/-- The branch of `psn_message_callback` for three levels: a chat message. `printf` stops at the
first zero byte of the payload. -/
def chatCallback (psn : PsnT τ κ) (topic₀ topic₁ topic₂ : Option CStr) (payload : Bytes) :
    Option (List Effect) := do
  if !(← strcmpEq topic₀ (lit "chat")) then return []
  if !(← strcmpEq topic₂ psn.username.1) then return []
  if payload = [] then return []
  match ← hashFindStr psn.friends topic₁ with
  | none => return []
  | some _ =>
    let text := payload.takeWhile (· ≠ 0)
    return [.print (.message (topic₁.getD []) text)]

/-- The branch of `psn_message_callback` for four levels: a friend request. It is dropped when
its source is in the incoming or in the friend list, it is taken for an acceptance when its
source is in the outgoing list, and it is recorded as incoming otherwise. -/
def frequestCallback (psn : PsnT τ κ) (topic₀ topic₂ topic₃ : Option CStr) :
    Option (PsnT τ κ × List Effect) := do
  if !(← strcmpEq topic₀ (lit "users")) then return (psn, [])
  if !(← strcmpEq topic₂ (lit "frequest")) then return (psn, [])
  if (← hashFindStr psn.friendRequestsIncoming topic₃).isSome then return (psn, [])
  if (← hashFindStr psn.friends topic₃).isSome then return (psn, [])
  match ← hashFindStr psn.friendRequestsOutgoing topic₃ with
  | some fromList =>
    let outgoing := del psn.friendRequestsOutgoing fromList
    let new ← callocUser topic₃
    return ({ psn with friendRequestsOutgoing := outgoing, friends := add psn.friends new },
      [.print (.requestAccepted new.name.1)])
  | none =>
    let new ← callocUser topic₃
    return ({ psn with friendRequestsIncoming := add psn.friendRequestsIncoming new },
      [.print (.requestReceived new.name.1)])

/-- `psn_message_callback`. -/
def psnMessageCallback (psn : PsnT τ κ) (message : Message) : Option (PsnT τ κ × List Effect) :=
  match subTopicTokenise message.topic with
  | [topic₀, topic₁, topic₂] =>
    (chatCallback psn topic₀ topic₁ topic₂ message.payload).map fun effects => (psn, effects)
  | [topic₀, _, topic₂, topic₃] => frequestCallback psn topic₀ topic₂ topic₃
  | _ => some (psn, [])

end Psn

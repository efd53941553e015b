import Psn.Hex
import Psn.Json
import Psn.Types

/-!
# Saving and loading the profile

`psn_serialize_config` turns an instance into a JSON document and `psn_deserialize_config` reads
one back. As elsewhere, a function is `none` where the code has undefined behaviour. The stack
buffers that both functions use for keys are arguments: they hold anything at first.

The three loops of each function differ in the list they walk and in the array or table they
append to, so each is one definition with parameters.

## Main results

* `exists_serializeUsers`, `fits_of_serializeUsers`: what a loop appends, if every key fits the hex
  buffer
* `keys_deserializeUsers`: a table that was loaded holds the names of its array
* `psnDeserializeConfig_eq_some`: what a load does
-/

namespace Psn

open Buffer KeyedChain Tomcrypt

variable {τ κ : Type} [Tomcrypt κ]

/-! ### Saving -/

/-- The stack buffers `pk_key_buf` and `pk_hex_str` of `psn_serialize_config`. -/
structure KeyBuffers where
  /-- `pk_key_buf`. -/
  pkKeyBuf : Sized 2048
  /-- `pk_hex_str`. -/
  pkHexStr : Sized 4097

/-- `rsa_export` into `pk_key_buf`, with the value of `key_buf_len`. A failure leaves both
untouched. -/
def KeyBuffers.rsaExport (k : KeyBuffers) (type : PkType) (key : κ) : Option (KeyBuffers × ℕ) :=
  match h : Tomcrypt.rsaExport type 2048 key with
  | none => none
  | some out =>
    some ({ k with pkKeyBuf := ⟨overwrite k.pkKeyBuf.1 out, by
      rw [length_overwrite (k.pkKeyBuf.2.symm ▸ rsaExport_length h), k.pkKeyBuf.2]⟩ }, out.length)

/-- `buf_to_hex_str` from `pk_key_buf` to `pk_hex_str`. -/
def KeyBuffers.toHexStr (k : KeyBuffers) (keyBufLen : ℕ) : Option KeyBuffers :=
  match h : bufToHexStr k.pkKeyBuf.1 (UInt32.ofNat keyBufLen) k.pkHexStr.1 4097 with
  | none => none
  | some r =>
    some { k with pkHexStr := ⟨r.1, by rw [length_of_bufToHexStr h, k.pkHexStr.2]⟩ }

/-- The arrays `friend_list`, `friend_req_i_list` and `friend_req_o_list`. -/
structure ConfigArrays where
  /-- `friend_list`. -/
  friendList : List Json
  /-- `friend_req_i_list`. -/
  friendReqIList : List Json
  /-- `friend_req_o_list`. -/
  friendReqOList : List Json

/-- `json_array_append(friend_list, new_obj)`. -/
def ConfigArrays.appendFriend (a : ConfigArrays) (newObj : Json) : ConfigArrays :=
  { a with friendList := a.friendList ++ [newObj] }

/-- `json_array_append(friend_req_i_list, new_obj)`. -/
def ConfigArrays.appendFriendReqI (a : ConfigArrays) (newObj : Json) : ConfigArrays :=
  { a with friendReqIList := a.friendReqIList ++ [newObj] }

/-- `json_array_append(friend_req_o_list, new_obj)`. -/
def ConfigArrays.appendFriendReqO (a : ConfigArrays) (newObj : Json) : ConfigArrays :=
  { a with friendReqOList := a.friendReqOList ++ [newObj] }

/-- What all three loops do before they append: build `new_obj`, with a `pubkey` if the key is
set and can be exported. The last component says whether it was. -/
def serializeUser (J : Jansson) (k : KeyBuffers) (s : User κ) :
    Option (KeyBuffers × Json × Bool) :=
  let newObj := jsonObjectSetNew [] (lit "name") (jsonString J s.name.1)
  let newObj := jsonObjectSetNew newObj (lit "shown_name") (jsonString J s.shownName.1)
  if unset s.pubKey then some (k, .object newObj, false)
  else
    match k.rsaExport .pkPublic s.pubKey with
    | none => some (k, .object newObj, false)
    | some (k, keyBufLen) => do
      let k ← k.toHexStr keyBufLen
      let pkHexStr ← terminated k.pkHexStr.1
      return (k, .object (jsonObjectSetNew newObj (lit "pubkey") (jsonString J pkHexStr)), true)

/-- A loop of `psn_serialize_config`: `saved` is where it appends a user with a key, and `failed`
where it appends one without. -/
def serializeUsers (J : Jansson) (failed saved : ConfigArrays → Json → ConfigArrays) :
    List (User κ) → KeyBuffers → ConfigArrays → Option (KeyBuffers × ConfigArrays × List Effect)
  | [], k, arrays => some (k, arrays, [])
  | s :: users, k, arrays => do
    let (k, newObj, found) ← serializeUser J k s
    let warning := if found then [] else [Effect.print (.keyNotFound s.name.1)]
    let arrays := if found then saved arrays newObj else failed arrays newObj
    let (k, arrays, effects) ← serializeUsers J failed saved users k arrays
    return (k, arrays, warning ++ effects)

variable [UserTable τ κ]

/-- The document that `psn_serialize_config` builds. -/
def configRoot (J : Jansson) (psn : PsnT τ κ) (stack : KeyBuffers) :
    Option (Json × List Effect) := do
  let root := jsonObjectSetNew [] (lit "username") (jsonString J psn.username.1)
  let root := jsonObjectSetNew root (lit "hostname") (jsonString J psn.hostname.1)
  let root := jsonObjectSetNew root (lit "port") (some (.integer psn.port.toInt))
  let (k, arrays, friendEffects) ← serializeUsers J .appendFriend .appendFriend
    (items psn.friends) stack ⟨[], [], []⟩
  let (k, arrays, incomingEffects) ← serializeUsers J .appendFriend .appendFriendReqI
    (items psn.friendRequestsIncoming) k arrays
  let (k, arrays, outgoingEffects) ← serializeUsers J .appendFriend .appendFriendReqO
    (items psn.friendRequestsOutgoing) k arrays
  let root := jsonObjectSetNew root (lit "friends") (some (.array arrays.friendList))
  let root := jsonObjectSetNew root (lit "friendrqsinc") (some (.array arrays.friendReqIList))
  let root := jsonObjectSetNew root (lit "friendrqsout") (some (.array arrays.friendReqOList))
  -- nobody looks at the result of this export
  let (k, keyBufLen) := (k.rsaExport .pkPrivate psn.pkKey).getD (k, 2048)
  let k ← k.toHexStr keyBufLen
  let pkHexStr ← terminated k.pkHexStr.1
  let root := jsonObjectSetNew root (lit "privkey") (jsonString J pkHexStr)
  return (.object root, friendEffects ++ incomingEffects ++ outgoingEffects)

/-- `psn_serialize_config` into a buffer of `cap` bytes. -/
def psnSerializeConfig (J : Jansson) (psn : PsnT τ κ) (stack : KeyBuffers) (cap : ℕ) :
    Option (PsnErr × Field cap × List Effect) := do
  let (root, effects) ← configRoot J psn stack
  let destStr ← strcpy cap (J.dumps root)
  return (.success, destStr, effects)

/-! ### Loading -/

/-- Copy a hex string into `pk_hex_str`, decode it into `pk_key_buf` and import the bytes. Whether
the import worked is not looked at. -/
def importKey (pkKeyBuf : Sized 2048) (hex : Option CStr) (key : κ) :
    Option (Sized 2048 × κ) := do
  let pkHexStr ← strcpy 4097 hex
  match h : hexStrToBuf pkHexStr.1 (UInt32.ofNat pkHexStr.1.length) pkKeyBuf.1 2048 with
  | none => none
  | some r =>
    some (⟨r.1, by rw [length_of_hexStrToBuf h, pkKeyBuf.2]⟩, (rsaImport (r.1.take r.2) key).2)

/-- The body of the loops of `psn_deserialize_config`: a fresh record from `new_obj`. The hex
string of its key is looked up in `root`. -/
def deserializeUser (root : Option Json) (mark : CStr) (newObj : Json) (pkKeyBuf : Sized 2048) :
    Option (Sized 2048 × User κ × List Effect) := do
  let name ← strcpy 32 (jsonStringValue (jsonObjectGet (some newObj) (lit "name")))
  let shownName ← strcpy 32 (jsonStringValue (jsonObjectGet (some newObj) (lit "shown_name")))
  match jsonObjectGet (some newObj) (lit "pubkey") with
  | none => return (pkKeyBuf, ⟨name, shownName, zero⟩, [.print (.noPublicKey name.1 mark)])
  | some _ => do
    let (pkKeyBuf, pubKey) ← importKey pkKeyBuf
      (jsonStringValue (jsonObjectGet root (lit "pubkey"))) zero
    return (pkKeyBuf, ⟨name, shownName, pubKey⟩, [])

/-- A loop of `psn_deserialize_config`, which appends to a table. -/
def deserializeUsers (root : Option Json) (mark : CStr) : List Json → Sized 2048 → τ →
    Option (Sized 2048 × τ × List Effect)
  | [], pkKeyBuf, t => some (pkKeyBuf, t, [])
  | newObj :: arr, pkKeyBuf, t => do
    let (pkKeyBuf, new, warning) ← deserializeUser root mark newObj pkKeyBuf
    let (pkKeyBuf, t, effects) ← deserializeUsers root mark arr pkKeyBuf (add t new)
    return (pkKeyBuf, t, warning ++ effects)

/-- `psn_deserialize_config`. -/
def psnDeserializeConfig (J : Jansson) (psn : PsnT τ κ) (srcStr : CStr)
    (pkKeyBuf : Sized 2048) : Option (PsnErr × PsnT τ κ × List Effect) := do
  let root := J.loads srcStr
  let username ← strcpy 32 (jsonStringValue (jsonObjectGet root (lit "username")))
  let shownName ← strcpy 32 (jsonStringValue (jsonObjectGet root (lit "username")))
  let hostname ← strcpy 256 (jsonStringValue (jsonObjectGet root (lit "hostname")))
  let port := Int32.ofInt (jsonIntegerValue (jsonObjectGet root (lit "port")))
  let (pkKeyBuf, friends, friendEffects) ← deserializeUsers root []
    (jsonArrayItems (jsonObjectGet root (lit "friends"))) pkKeyBuf psn.friends
  let (pkKeyBuf, incoming, incomingEffects) ← deserializeUsers root (lit "2")
    (jsonArrayItems (jsonObjectGet root (lit "friendrqsinc"))) pkKeyBuf
    psn.friendRequestsIncoming
  let (pkKeyBuf, outgoing, outgoingEffects) ← deserializeUsers root (lit "3")
    (jsonArrayItems (jsonObjectGet root (lit "friendrqsout"))) pkKeyBuf
    psn.friendRequestsOutgoing
  let (_, pkKey) ← importKey pkKeyBuf
    (jsonStringValue (jsonObjectGet root (lit "privkey"))) psn.pkKey
  let psn : PsnT τ κ :=
    { psn with
      username := username
      shownName := shownName
      hostname := hostname
      port := port
      friends := friends
      friendRequestsIncoming := incoming
      friendRequestsOutgoing := outgoing
      pkKey := pkKey }
  return (.success, psn, friendEffects ++ incomingEffects ++ outgoingEffects)

/-! ### What the hex layer does to the buffers -/

section Saved

omit [UserTable τ κ]

theorem rsaExport_of_none {k : KeyBuffers} {type : PkType} {key : κ}
    (h : Tomcrypt.rsaExport type 2048 key = none) : k.rsaExport type key = none := by
  rw [KeyBuffers.rsaExport]
  split
  · rfl
  · rename_i out hout
    rw [h] at hout
    cases hout

theorem exists_rsaExport (k : KeyBuffers) {type : PkType} {key : κ} {out : Bytes}
    (h : Tomcrypt.rsaExport type 2048 key = some out) :
    ∃ k', k.rsaExport type key = some (k', out.length) ∧
      k'.pkKeyBuf.1.take out.length = out := by
  rw [KeyBuffers.rsaExport]
  split
  · rename_i hout
    rw [h] at hout
    cases hout
  · rename_i out' hout
    obtain rfl : out' = out := Option.some_inj.mp (hout.symm.trans h)
    exact ⟨_, rfl, take_overwrite _ _⟩

omit [Tomcrypt κ] in
theorem exists_toHexStr (k : KeyBuffers) {n : ℕ} (hn : n ≤ 1024) :
    ∃ k', k.toHexStr n = some k' ∧
      terminated k'.pkHexStr.1 = some (hexOf (k.pkKeyBuf.1.take n)) := by
  have hbuf := k.pkKeyBuf.2
  have hstr := k.pkHexStr.2
  obtain ⟨hexOut, hout, -, hterm⟩ : ∃ hexOut, bufToHexStr k.pkKeyBuf.1 (UInt32.ofNat n)
      k.pkHexStr.1 4097 = some (hexOut, 2 * n) ∧ hexOut.length = k.pkHexStr.1.length ∧
      terminated hexOut = some (hexOf (k.pkKeyBuf.1.take n)) :=
    exists_bufToHexStr (by omega) (by omega) (by omega) (by omega)
  rw [KeyBuffers.toHexStr]
  split
  · rename_i h
    rw [hout] at h
    cases h
  · rename_i r h
    obtain rfl : (hexOut, 2 * n) = r := Option.some_inj.mp (hout.symm.trans h)
    exact ⟨_, rfl, hterm⟩

omit [Tomcrypt κ] in
theorem toHexStr_eq_none (k : KeyBuffers) {n : ℕ} (hn : 1024 < n) (hle : n ≤ 2048) :
    k.toHexStr n = none := by
  have hbuf := k.pkKeyBuf.2
  have hstr := k.pkHexStr.2
  have hout : bufToHexStr k.pkKeyBuf.1 (UInt32.ofNat n) k.pkHexStr.1 4097 = none :=
    bufToHexStr_eq_none (by omega) (by omega) (by omega) (by omega) (by omega)
  rw [KeyBuffers.toHexStr]
  split
  · rfl
  · rename_i r h
    rw [hout] at h
    cases h

/-- Hex digits are valid UTF-8. -/
theorem jsonString_hexOf (J : Jansson) (bytes : Bytes) :
    jsonString J (hexOf bytes) = some (.string (hexOf bytes)) :=
  jsonString_of_utf8 (J.utf8_ascii _ (forall_mem_hexOf (P := (· < 128)) hexDigit_lt bytes))

/-! ### What a loop appends -/

/-- The bytes that are saved for the key of a user, if there are any. -/
def exportedKey (key : κ) : Option Bytes :=
  if unset key then none else Tomcrypt.rsaExport .pkPublic 2048 key

/-- The hex buffer has room for the digits of a key and for the store behind them. -/
def FitsHexStr (key : Option Bytes) : Prop := ∀ out, key = some out → out.length ≤ 1024

/-- The object that is saved for a user. -/
def savedUser (J : Jansson) (s : User κ) : Json :=
  let newObj := jsonObjectSetNew [] (lit "name") (jsonString J s.name.1)
  let newObj := jsonObjectSetNew newObj (lit "shown_name") (jsonString J s.shownName.1)
  match exportedKey s.pubKey with
  | none => .object newObj
  | some out => .object (jsonObjectSetNew newObj (lit "pubkey") (jsonString J (hexOf out)))

theorem exists_serializeUser (J : Jansson) (k : KeyBuffers) {s : User κ}
    (h : FitsHexStr (exportedKey s.pubKey)) :
    ∃ k', serializeUser J k s = some (k', savedUser J s, (exportedKey s.pubKey).isSome) := by
  rw [serializeUser, savedUser]
  cases hunset : unset s.pubKey with
  | true => exact ⟨k, by simp [exportedKey, hunset]⟩
  | false =>
    cases hout : Tomcrypt.rsaExport .pkPublic 2048 s.pubKey with
    | none => exact ⟨k, by simp [exportedKey, hunset, hout, rsaExport_of_none hout]⟩
    | some out =>
      have hkey : exportedKey s.pubKey = some out := by simp [exportedKey, hunset, hout]
      obtain ⟨k₁, hk₁, htake⟩ := exists_rsaExport k hout
      obtain ⟨k₂, hk₂, hterm⟩ := exists_toHexStr k₁ (h out hkey)
      rw [htake] at hterm
      exact ⟨k₂, by simp [hkey, hk₁, hk₂, hterm]⟩

theorem serializeUser_eq_none (J : Jansson) (k : KeyBuffers) {s : User κ}
    (h : ¬FitsHexStr (exportedKey s.pubKey)) : serializeUser J k s = none := by
  rw [serializeUser]
  cases hunset : unset s.pubKey with
  | true => simp [FitsHexStr, exportedKey, hunset] at h
  | false =>
    cases hout : Tomcrypt.rsaExport .pkPublic 2048 s.pubKey with
    | none => simp [FitsHexStr, exportedKey, hunset, hout] at h
    | some out =>
      have hlong : 1024 < out.length := by simpa [FitsHexStr, exportedKey, hunset, hout] using h
      obtain ⟨k₁, hk₁, -⟩ := exists_rsaExport k hout
      simp [hk₁, toHexStr_eq_none k₁ hlong (rsaExport_length hout)]

/-- What a loop does with one user, given where it appends. -/
def appendUser (J : Jansson) (failed saved : ConfigArrays → Json → ConfigArrays)
    (arrays : ConfigArrays) (s : User κ) : ConfigArrays :=
  if (exportedKey s.pubKey).isSome then saved arrays (savedUser J s)
  else failed arrays (savedUser J s)

theorem exists_serializeUsers (J : Jansson) (failed saved : ConfigArrays → Json → ConfigArrays)
    {users : List (User κ)} (h : ∀ s ∈ users, FitsHexStr (exportedKey s.pubKey)) :
    ∀ (k : KeyBuffers) (arrays : ConfigArrays), ∃ k' effects,
      serializeUsers J failed saved users k arrays =
        some (k', users.foldl (appendUser J failed saved) arrays, effects) := by
  induction users with
  | nil => exact fun k arrays => ⟨k, [], rfl⟩
  | cons s users ih =>
    intro k arrays
    obtain ⟨k₁, hk₁⟩ := exists_serializeUser J k (h s List.mem_cons_self)
    obtain ⟨k₂, effects, hk₂⟩ := ih (fun s hs => h s (List.mem_cons_of_mem _ hs)) k₁
      (appendUser J failed saved arrays s)
    refine ⟨k₂, (if (exportedKey s.pubKey).isSome then [] else
      [Effect.print (.keyNotFound s.name.1)]) ++ effects, ?_⟩
    rw [serializeUsers, hk₁]
    simp only [Option.bind_eq_bind, Option.bind_some]
    rw [← appendUser, hk₂]
    rfl

/-- A loop that stays inside the hex buffer has met only keys that fit. -/
theorem fits_of_serializeUsers {J : Jansson} {failed saved : ConfigArrays → Json → ConfigArrays}
    {users : List (User κ)} :
    ∀ {k : KeyBuffers} {arrays : ConfigArrays} {r : KeyBuffers × ConfigArrays × List Effect},
      serializeUsers J failed saved users k arrays = some r →
        ∀ s ∈ users, FitsHexStr (exportedKey s.pubKey) := by
  induction users with
  | nil =>
    intro k arrays r _ s hs
    cases hs
  | cons u users ih =>
    intro k arrays r h s hs
    obtain ⟨⟨k₁, newObj, found⟩, hu, hrest⟩ := Option.bind_eq_some_iff.mp h
    obtain ⟨r', hr', -⟩ := Option.bind_eq_some_iff.mp hrest
    rcases List.mem_cons.mp hs with rfl | hs
    · by_contra hlong
      rw [serializeUser_eq_none J k hlong] at hu
      cases hu
    · exact ih hr' s hs

end Saved

/-! ### What a loop loads -/

omit [UserTable τ κ] in
/-- The key that was exported is imported from its digits. -/
theorem importKey_hexOf {bytes : Bytes} (hne : bytes ≠ []) (hlen : bytes.length ≤ 1024)
    (buf : Sized 2048) (key : κ) :
    ∃ buf', importKey buf (some (hexOf bytes)) key = some (buf', (rsaImport bytes key).2) := by
  have hfits : (hexOf bytes).length < 4097 := by
    rw [length_hexOf]
    omega
  have hdecode : hexStrToBuf (hexOf bytes) (UInt32.ofNat (hexOf bytes).length) buf.1 2048 =
      some (overwrite buf.1 bytes, bytes.length) :=
    hexStrToBuf_hexOf hne (by omega) (by omega) (by rw [buf.2]; omega)
  rw [importKey, strcpy_of_lt hfits]
  simp only [Option.bind_eq_bind, Option.bind_some]
  split
  · rename_i h
    rw [hdecode] at h
    cases h
  · rename_i r h
    obtain rfl : (overwrite buf.1 bytes, bytes.length) = r :=
      Option.some_inj.mp (hdecode.symm.trans h)
    rw [take_overwrite]
    exact ⟨_, rfl⟩

theorem name_deserializeUser {root : Option Json} {mark : CStr} {newObj : Json}
    {buf buf' : Sized 2048} {new : User κ} {effects : List Effect}
    (h : deserializeUser root mark newObj buf = some (buf', new, effects)) :
    jsonStringValue (jsonObjectGet (some newObj) (lit "name")) = some new.name.1 := by
  obtain ⟨name, hname, h⟩ := Option.bind_eq_some_iff.mp h
  obtain ⟨shownName, -, h⟩ := Option.bind_eq_some_iff.mp h
  rw [strcpy_eq_some.mp hname]
  split at h
  · cases Option.some_inj.mp h
    rfl
  · obtain ⟨⟨buf₁, pubKey⟩, -, h⟩ := Option.bind_eq_some_iff.mp h
    cases Option.some_inj.mp h
    rfl

/-- A loop appends a record for each object, under the name that stands there. -/
theorem keys_deserializeUsers {root : Option Json} {mark : CStr} {arr : List Json} :
    ∀ {buf buf' : Sized 2048} {t t' : τ} {effects : List Effect},
      deserializeUsers root mark arr buf t = some (buf', t', effects) →
        (keys t').map some = (keys t).map some ++
          arr.map fun obj => jsonStringValue (jsonObjectGet (some obj) (lit "name")) := by
  induction arr with
  | nil =>
    intro buf buf' t t' effects h
    cases Option.some_inj.mp h
    simp
  | cons obj arr ih =>
    intro buf buf' t t' effects h
    obtain ⟨⟨buf₁, new, warning⟩, hnew, h⟩ := Option.bind_eq_some_iff.mp h
    obtain ⟨⟨buf₂, t₂, effects₂⟩, hrest, h⟩ := Option.bind_eq_some_iff.mp h
    cases Option.some_inj.mp h
    rw [ih hrest, keys_add, List.map_cons, name_deserializeUser hnew]
    simp

/-- **What a load does.** The shown name is taken from the user name, and the three loops append to
the three tables. -/
theorem psnDeserializeConfig_eq_some {J : Jansson} {psn q : PsnT τ κ} {srcStr : CStr}
    {buf : Sized 2048} {err : PsnErr} {effects : List Effect}
    (h : psnDeserializeConfig J psn srcStr buf = some (err, q, effects)) :
    q.shownName = q.username ∧ ∃ b₁ b₂ b₃ e₁ e₂ e₃,
      deserializeUsers (J.loads srcStr) []
        (jsonArrayItems (jsonObjectGet (J.loads srcStr) (lit "friends"))) buf psn.friends =
          some (b₁, q.friends, e₁) ∧
      deserializeUsers (J.loads srcStr) (lit "2")
        (jsonArrayItems (jsonObjectGet (J.loads srcStr) (lit "friendrqsinc"))) b₁
        psn.friendRequestsIncoming = some (b₂, q.friendRequestsIncoming, e₂) ∧
      deserializeUsers (J.loads srcStr) (lit "3")
        (jsonArrayItems (jsonObjectGet (J.loads srcStr) (lit "friendrqsout"))) b₂
        psn.friendRequestsOutgoing = some (b₃, q.friendRequestsOutgoing, e₃) ∧
      (∃ b₄, importKey b₃ (jsonStringValue (jsonObjectGet (J.loads srcStr) (lit "privkey")))
        psn.pkKey = some (b₄, q.pkKey)) ∧
      effects = e₁ ++ e₂ ++ e₃ := by
  obtain ⟨username, husername, h⟩ := Option.bind_eq_some_iff.mp h
  obtain ⟨shownName, hshownName, h⟩ := Option.bind_eq_some_iff.mp h
  obtain ⟨hostname, -, h⟩ := Option.bind_eq_some_iff.mp h
  obtain ⟨⟨b₁, friends, e₁⟩, h₁, h⟩ := Option.bind_eq_some_iff.mp h
  obtain ⟨⟨b₂, incoming, e₂⟩, h₂, h⟩ := Option.bind_eq_some_iff.mp h
  obtain ⟨⟨b₃, outgoing, e₃⟩, h₃, h⟩ := Option.bind_eq_some_iff.mp h
  obtain ⟨⟨b₄, pkKey⟩, hkey, h⟩ := Option.bind_eq_some_iff.mp h
  cases Option.some_inj.mp h
  exact ⟨Option.some_inj.mp (hshownName.symm.trans husername), b₁, b₂, b₃, e₁, e₂, e₃, h₁, h₂, h₃,
    ⟨b₄, hkey⟩, rfl⟩

/-- What a load does to the other fields: the client and the password stay, the rest is taken from
the document. It reports no errors. -/
theorem fields_of_psnDeserializeConfig {J : Jansson} {psn q : PsnT τ κ} {srcStr : CStr}
    {buf : Sized 2048} {err : PsnErr} {effects : List Effect}
    (h : psnDeserializeConfig J psn srcStr buf = some (err, q, effects)) :
    err = .success ∧ q.mosq = psn.mosq ∧ q.password = psn.password ∧
      jsonStringValue (jsonObjectGet (J.loads srcStr) (lit "username")) = some q.username.1 ∧
      jsonStringValue (jsonObjectGet (J.loads srcStr) (lit "hostname")) = some q.hostname.1 ∧
      q.port = Int32.ofInt (jsonIntegerValue (jsonObjectGet (J.loads srcStr) (lit "port"))) := by
  obtain ⟨username, husername, h⟩ := Option.bind_eq_some_iff.mp h
  obtain ⟨shownName, -, h⟩ := Option.bind_eq_some_iff.mp h
  obtain ⟨hostname, hhostname, h⟩ := Option.bind_eq_some_iff.mp h
  obtain ⟨_, -, h⟩ := Option.bind_eq_some_iff.mp h
  obtain ⟨_, -, h⟩ := Option.bind_eq_some_iff.mp h
  obtain ⟨_, -, h⟩ := Option.bind_eq_some_iff.mp h
  obtain ⟨_, -, h⟩ := Option.bind_eq_some_iff.mp h
  cases Option.some_inj.mp h
  exact ⟨rfl, rfl, rfl, strcpy_eq_some.mp husername, strcpy_eq_some.mp hhostname, rfl⟩

/-- Where the root holds no key, a loop is undefined for users with keys. -/
theorem eq_nil_of_deserializeUsers {root : Option Json} {mark : CStr} {arr : List Json}
    {buf : Sized 2048} {t : τ} {r : Sized 2048 × τ × List Effect}
    (hroot : jsonObjectGet root (lit "pubkey") = none)
    (harr : ∀ obj ∈ arr, jsonObjectGet (some obj) (lit "pubkey") ≠ none)
    (h : deserializeUsers root mark arr buf t = some r) : arr = [] := by
  cases arr with
  | nil => rfl
  | cons obj arr =>
    obtain ⟨_, hobj, -⟩ := Option.bind_eq_some_iff.mp h
    obtain ⟨name, -, hobj⟩ := Option.bind_eq_some_iff.mp hobj
    obtain ⟨shownName, -, hobj⟩ := Option.bind_eq_some_iff.mp hobj
    split at hobj
    · rename_i hnone
      exact absurd hnone (harr obj List.mem_cons_self)
    · obtain ⟨_, hkey, -⟩ := Option.bind_eq_some_iff.mp hobj
      have hvalue : jsonStringValue (jsonObjectGet root (lit "pubkey")) = none := by
        rw [hroot]
        rfl
      rw [importKey, hvalue, strcpy_null] at hkey
      cases hkey

end Psn

import Psn.Config
import Psn.Executable

/-!
# What a saved profile holds

A profile is saved so that the next start of the client finds every user in the list he belongs
to. The three loops of `psn_serialize_config` each have a path for users whose key cannot be
exported, and all of these paths append to the array of the friends; and `psn_deserialize_config`
looks for the key of a user in the root of the document, where no key is stored. The theorems
below say which profiles survive.

## Main results

* `exists_configRoot`, `fitsBuffers_of_configRoot`: the document that is built, if one is
* `savesLists_iff`: when every user is saved in the list he belongs to
* `roundTrips_iff`: when a profile is loaded as it was saved
-/

namespace Psn

open Buffer KeyedChain Tomcrypt

variable {τ κ : Type} [Tomcrypt κ] [UserTable τ κ]

/-! ### The document -/

/-- The users of all three lists. -/
def allUsers (psn : PsnT τ κ) : List (User κ) :=
  items psn.friends ++ items psn.friendRequestsIncoming ++ items psn.friendRequestsOutgoing

/-- Every key that is exported fits the hex buffer, and the own key is exported. -/
structure FitsBuffers (psn : PsnT τ κ) : Prop where
  users : ∀ s ∈ allUsers psn, FitsHexStr (exportedKey s.pubKey)
  own : ∃ out, rsaExport .pkPrivate 2048 psn.pkKey = some out ∧ out.length ≤ 1024

/-- The three arrays after the three loops. -/
def savedArrays (J : Jansson) (psn : PsnT τ κ) : ConfigArrays :=
  let arrays := (items psn.friends).foldl (appendUser J .appendFriend .appendFriend) ⟨[], [], []⟩
  let arrays := (items psn.friendRequestsIncoming).foldl
    (appendUser J .appendFriend .appendFriendReqI) arrays
  (items psn.friendRequestsOutgoing).foldl (appendUser J .appendFriend .appendFriendReqO) arrays

/-- The document, given the bytes of the own key. -/
def savedRoot (J : Jansson) (psn : PsnT τ κ) (out : Bytes) : Json :=
  let arrays := savedArrays J psn
  let root := jsonObjectSetNew [] (lit "username") (jsonString J psn.username.1)
  let root := jsonObjectSetNew root (lit "hostname") (jsonString J psn.hostname.1)
  let root := jsonObjectSetNew root (lit "port") (some (.integer psn.port.toInt))
  let root := jsonObjectSetNew root (lit "friends") (some (.array arrays.friendList))
  let root := jsonObjectSetNew root (lit "friendrqsinc") (some (.array arrays.friendReqIList))
  let root := jsonObjectSetNew root (lit "friendrqsout") (some (.array arrays.friendReqOList))
  .object (jsonObjectSetNew root (lit "privkey") (jsonString J (hexOf out)))

/-- The document that is built when everything fits. -/
theorem exists_configRoot (J : Jansson) {psn : PsnT τ κ}
    (h : ∀ s ∈ allUsers psn, FitsHexStr (exportedKey s.pubKey)) {out : Bytes}
    (hown : rsaExport .pkPrivate 2048 psn.pkKey = some out) (hlen : out.length ≤ 1024)
    (stack : KeyBuffers) :
    ∃ effects, configRoot J psn stack = some (savedRoot J psn out, effects) := by
  simp only [allUsers, List.mem_append, or_imp, forall_and] at h
  obtain ⟨k₁, e₁, h₁⟩ :=
    exists_serializeUsers J .appendFriend .appendFriend h.1.1 stack ⟨[], [], []⟩
  obtain ⟨k₂, e₂, h₂⟩ := exists_serializeUsers J .appendFriend .appendFriendReqI h.1.2 k₁
    ((items psn.friends).foldl (appendUser J .appendFriend .appendFriend) ⟨[], [], []⟩)
  obtain ⟨k₃, e₃, h₃⟩ := exists_serializeUsers J .appendFriend .appendFriendReqO h.2 k₂
    ((items psn.friendRequestsIncoming).foldl (appendUser J .appendFriend .appendFriendReqI)
      ((items psn.friends).foldl (appendUser J .appendFriend .appendFriend) ⟨[], [], []⟩))
  obtain ⟨k₄, h₄, htake⟩ := exists_rsaExport k₃ hown
  obtain ⟨k₅, h₅, hterm⟩ := exists_toHexStr k₄ hlen
  rw [htake] at hterm
  refine ⟨e₁ ++ e₂ ++ e₃, ?_⟩
  simp only [configRoot, h₁, h₂, h₃, h₄, h₅, hterm, Option.bind_eq_bind, Option.bind_some,
    Option.getD_some]
  rfl

/-- Otherwise the code leaves the hex buffer. -/
theorem fitsBuffers_of_configRoot {J : Jansson} {psn : PsnT τ κ} {stack : KeyBuffers}
    {r : Json × List Effect} (h : configRoot J psn stack = some r) : FitsBuffers psn := by
  obtain ⟨⟨k₁, a₁, e₁⟩, h₁, h⟩ := Option.bind_eq_some_iff.mp h
  obtain ⟨⟨k₂, a₂, e₂⟩, h₂, h⟩ := Option.bind_eq_some_iff.mp h
  obtain ⟨⟨k₃, a₃, e₃⟩, h₃, h⟩ := Option.bind_eq_some_iff.mp h
  obtain ⟨k₅, h₅, -⟩ := Option.bind_eq_some_iff.mp h
  refine ⟨?_, ?_⟩
  · simp only [allUsers, List.mem_append, or_imp, forall_and]
    exact ⟨⟨fits_of_serializeUsers h₁, fits_of_serializeUsers h₂⟩, fits_of_serializeUsers h₃⟩
  · cases hout : Tomcrypt.rsaExport .pkPrivate 2048 psn.pkKey with
    | none =>
      rw [rsaExport_of_none hout] at h₅
      have hfull : k₃.toHexStr 2048 = some k₅ := h₅
      rw [toHexStr_eq_none k₃ (by omega) (by omega)] at hfull
      cases hfull
    | some out =>
      refine ⟨out, rfl, ?_⟩
      by_contra hlong
      obtain ⟨k₄, h₄, -⟩ := exists_rsaExport k₃ hout
      rw [h₄] at h₅
      have hfull : k₄.toHexStr out.length = some k₅ := h₅
      rw [toHexStr_eq_none k₄ (by omega) (rsaExport_length hout)] at hfull
      cases hfull

/-! ### The arrays -/

/-- The key of a user is set and can be exported. -/
def hasKey (s : User κ) : Bool := (exportedKey s.pubKey).isSome

omit [UserTable τ κ] in
/-- The loop over the friends appends each of them to the array of the friends, with a key or
without. -/
theorem foldl_appendFriend (J : Jansson) (users : List (User κ)) :
    ∀ arrays : ConfigArrays, users.foldl (appendUser J .appendFriend .appendFriend) arrays =
      { arrays with friendList := arrays.friendList ++ users.map (savedUser J) } := by
  induction users with
  | nil => intro arrays; simp
  | cons s users ih =>
    intro arrays
    rw [List.foldl_cons, ih]
    simp [appendUser, ConfigArrays.appendFriend]

omit [UserTable τ κ] in
/-- The loop over the incoming requests appends those without a key there, too, -/
theorem foldl_appendFriendReqI (J : Jansson) (users : List (User κ)) :
    ∀ arrays : ConfigArrays, users.foldl (appendUser J .appendFriend .appendFriendReqI) arrays =
      { arrays with
        friendList := arrays.friendList ++ (users.filter fun s => !hasKey s).map (savedUser J)
        friendReqIList := arrays.friendReqIList ++ (users.filter hasKey).map (savedUser J) } := by
  induction users with
  | nil => intro arrays; simp
  | cons s users ih =>
    intro arrays
    rw [List.foldl_cons, ih]
    cases hs : hasKey s with
    | true =>
      have hsome : (exportedKey s.pubKey).isSome = true := hs
      simp [appendUser, hsome, hs, ConfigArrays.appendFriendReqI]
    | false =>
      have hnone : (exportedKey s.pubKey).isSome = false := hs
      simp [appendUser, hnone, hs, ConfigArrays.appendFriend]

omit [UserTable τ κ] in
/-- and so does the one over the outgoing requests. -/
theorem foldl_appendFriendReqO (J : Jansson) (users : List (User κ)) :
    ∀ arrays : ConfigArrays, users.foldl (appendUser J .appendFriend .appendFriendReqO) arrays =
      { arrays with
        friendList := arrays.friendList ++ (users.filter fun s => !hasKey s).map (savedUser J)
        friendReqOList := arrays.friendReqOList ++ (users.filter hasKey).map (savedUser J) } := by
  induction users with
  | nil => intro arrays; simp
  | cons s users ih =>
    intro arrays
    rw [List.foldl_cons, ih]
    cases hs : hasKey s with
    | true =>
      have hsome : (exportedKey s.pubKey).isSome = true := hs
      simp [appendUser, hsome, hs, ConfigArrays.appendFriendReqO]
    | false =>
      have hnone : (exportedKey s.pubKey).isSome = false := hs
      simp [appendUser, hnone, hs, ConfigArrays.appendFriend]

/-- **The three arrays.** Whoever has no key is saved as a friend, whatever list he is in. -/
theorem savedArrays_eq (J : Jansson) (psn : PsnT τ κ) : savedArrays J psn =
    { friendList := (items psn.friends ++
        (items psn.friendRequestsIncoming).filter (fun s => !hasKey s) ++
        (items psn.friendRequestsOutgoing).filter fun s => !hasKey s).map (savedUser J)
      friendReqIList := ((items psn.friendRequestsIncoming).filter hasKey).map (savedUser J)
      friendReqOList := ((items psn.friendRequestsOutgoing).filter hasKey).map (savedUser J) } := by
  rw [savedArrays, foldl_appendFriend, foldl_appendFriendReqI, foldl_appendFriendReqO]
  simp

section Root

variable (J : Jansson) (psn : PsnT τ κ) (out : Bytes)

/-- What the loader reads from the document that was saved: the name of the user, -/
theorem get_username_savedRoot : jsonObjectGet (some (savedRoot J psn out)) (lit "username") =
    jsonString J psn.username.1 := by
  simp (disch := decide) only [savedRoot, jsonObjectGet_set_of_ne, jsonObjectGet_set_self,
    jsonObjectGet_nil, Option.or_none]

/-- the server, -/
theorem get_hostname_savedRoot : jsonObjectGet (some (savedRoot J psn out)) (lit "hostname") =
    jsonString J psn.hostname.1 := by
  simp (disch := decide) only [savedRoot, jsonObjectGet_set_of_ne, jsonObjectGet_set_self,
    jsonObjectGet_nil, Option.or_none]

/-- its port, -/
theorem get_port_savedRoot : jsonObjectGet (some (savedRoot J psn out)) (lit "port") =
    some (.integer psn.port.toInt) := by
  simp (disch := decide) only [savedRoot, jsonObjectGet_set_of_ne, jsonObjectGet_set_self,
    Option.some_or]

/-- the three arrays, -/
theorem get_friends_savedRoot : jsonObjectGet (some (savedRoot J psn out)) (lit "friends") =
    some (.array (savedArrays J psn).friendList) := by
  simp (disch := decide) only [savedRoot, jsonObjectGet_set_of_ne, jsonObjectGet_set_self,
    Option.some_or]

theorem get_friendrqsinc_savedRoot :
    jsonObjectGet (some (savedRoot J psn out)) (lit "friendrqsinc") =
      some (.array (savedArrays J psn).friendReqIList) := by
  simp (disch := decide) only [savedRoot, jsonObjectGet_set_of_ne, jsonObjectGet_set_self,
    Option.some_or]

theorem get_friendrqsout_savedRoot :
    jsonObjectGet (some (savedRoot J psn out)) (lit "friendrqsout") =
      some (.array (savedArrays J psn).friendReqOList) := by
  simp (disch := decide) only [savedRoot, jsonObjectGet_set_of_ne, jsonObjectGet_set_self,
    Option.some_or]

/-- and the private key. -/
theorem get_privkey_savedRoot : jsonObjectGet (some (savedRoot J psn out)) (lit "privkey") =
    some (.string (hexOf out)) := by
  rw [savedRoot, jsonObjectGet_set_self, jsonString_hexOf, Option.some_or]

/-- The keys of the users are not in the root. -/
theorem get_pubkey_savedRoot :
    jsonObjectGet (some (savedRoot J psn out)) (lit "pubkey") = none := by
  simp (disch := decide) only [savedRoot, jsonObjectGet_set_of_ne, jsonObjectGet_nil]

end Root

/-! ### The lists of the document -/

/-- The name and the shown name that stand in an object. -/
def objectNames (obj : Json) : Option CStr × Option CStr :=
  (jsonStringValue (jsonObjectGet (some obj) (lit "name")),
    jsonStringValue (jsonObjectGet (some obj) (lit "shown_name")))

omit [UserTable τ κ] in
/-- A user is saved under both of his names, as far as JSON can hold them. -/
theorem objectNames_savedUser (J : Jansson) (s : User κ) : objectNames (savedUser J s) =
    (jsonStringValue (jsonString J s.name.1), jsonStringValue (jsonString J s.shownName.1)) := by
  have hname : jsonObjectGet (some (savedUser J s)) (lit "name") = jsonString J s.name.1 := by
    rw [savedUser]
    split <;> simp (disch := decide) only [jsonObjectGet_set_of_ne, jsonObjectGet_set_self,
      jsonObjectGet_nil, Option.or_none]
  have hshown : jsonObjectGet (some (savedUser J s)) (lit "shown_name") =
      jsonString J s.shownName.1 := by
    rw [savedUser]
    split <;> simp (disch := decide) only [jsonObjectGet_set_of_ne, jsonObjectGet_set_self,
      jsonObjectGet_nil, Option.or_none]
  rw [objectNames, hname, hshown]

/-- The names of a user are valid UTF-8. -/
def ValidNames (J : Jansson) (s : User κ) : Prop :=
  J.utf8 s.name.1 = true ∧ J.utf8 s.shownName.1 = true

omit [UserTable τ κ] in
/-- They come back when they are valid strings. -/
theorem objectNames_savedUser_iff {J : Jansson} {s : User κ} :
    objectNames (savedUser J s) = (some s.name.1, some s.shownName.1) ↔ ValidNames J s := by
  rw [objectNames_savedUser, Prod.mk.injEq, jsonStringValue_jsonString, jsonStringValue_jsonString,
    ValidNames]

/-- The array under a key holds exactly the given users, each once and in order, with their
names. -/
def HoldsUsers (root : Json) (key : CStr) (users : List (User κ)) : Prop :=
  ∃ objs, jsonObjectGet (some root) key = some (.array objs) ∧
    objs.map objectNames = users.map fun s => (some s.name.1, some s.shownName.1)

omit [UserTable τ κ] in
/-- Whether an array holds exactly the users that it was built from. -/
theorem holdsUsers_map_iff {J : Jansson} {root : Json} {key : CStr} {users : List (User κ)}
    (h : jsonObjectGet (some root) key = some (.array (users.map (savedUser J)))) :
    HoldsUsers root key users ↔ ∀ s ∈ users, ValidNames J s := by
  constructor
  · rintro ⟨objs, hobjs, hnames⟩ s hs
    obtain rfl : users.map (savedUser J) = objs := by
      simpa using h.symm.trans hobjs
    rw [List.map_map] at hnames
    exact objectNames_savedUser_iff.mp (List.map_inj_left.mp hnames s hs)
  · intro hvalid
    refine ⟨_, h, ?_⟩
    rw [List.map_map]
    exact List.map_congr_left fun s hs => objectNames_savedUser_iff.mpr (hvalid s hs)

omit [Tomcrypt κ] [UserTable τ κ] in
/-- An array that holds the given users is as long as their list. -/
theorem length_of_holdsUsers {root : Json} {key : CStr} {users : List (User κ)} {objs : List Json}
    (h : HoldsUsers root key users) (hobjs : jsonObjectGet (some root) key = some (.array objs)) :
    objs.length = users.length := by
  obtain ⟨objs', hobjs', hnames⟩ := h
  obtain rfl : objs = objs' := by
    simpa using hobjs.symm.trans hobjs'
  simpa using congrArg List.length hnames

/-- Loading an array that holds the given users appends their names. -/
theorem keys_of_holdsUsers {root : Json} {key : CStr} {users : List (User κ)} {mark : CStr}
    {buf : Sized 2048} {t : τ} {r : Sized 2048 × τ × List Effect}
    (h : HoldsUsers root key users)
    (hload : deserializeUsers (some root) mark (jsonArrayItems (jsonObjectGet (some root) key))
      buf t = some r) :
    keys r.2.1 = keys t ++ users.map Keyed.key := by
  obtain ⟨objs, hobjs, hnames⟩ := h
  rw [hobjs] at hload
  have hkeys := keys_deserializeUsers hload
  have hfst := congrArg (List.map Prod.fst) hnames
  simp only [List.map_map, Function.comp_def, objectNames] at hfst
  rw [jsonArrayItems, hfst] at hkeys
  apply (List.map_inj_right fun _ _ => Option.some_inj.mp).mp
  rw [hkeys, List.map_append, List.map_map]
  rfl

/-! ### Saving the lists -/

/-- The document lists every user in the list he belongs to, and so does an instance that loads
it from an empty start. -/
def SavesLists (J : Jansson) (psn : PsnT τ κ) (stack : KeyBuffers) : Prop :=
  ∃ root effects, configRoot J psn stack = some (root, effects) ∧
    HoldsUsers root (lit "friends") (items psn.friends) ∧
    HoldsUsers root (lit "friendrqsinc") (items psn.friendRequestsIncoming) ∧
    HoldsUsers root (lit "friendrqsout") (items psn.friendRequestsOutgoing) ∧
    ∀ text, J.loads text = some root →
      ∀ (fresh : Proc τ κ) (buf : Sized 2048) (err : PsnErr) (q : PsnT τ κ) (loadEffects),
        psnDeserializeConfig J fresh.init.psn text buf = some (err, q, loadEffects) →
          keys q.friends = keys psn.friends ∧
          keys q.friendRequestsIncoming = keys psn.friendRequestsIncoming ∧
          keys q.friendRequestsOutgoing = keys psn.friendRequestsOutgoing

/-- The lists of an instance that was loaded into empty ones are those of the document. -/
theorem keys_of_load {J : Jansson} {root : Json} {text : CStr} {psn q : PsnT τ κ}
    {fresh : Proc τ κ} {buf : Sized 2048} {err : PsnErr} {effects : List Effect}
    (hroot : J.loads text = some root)
    (hfriends : HoldsUsers root (lit "friends") (items psn.friends))
    (hincoming : HoldsUsers root (lit "friendrqsinc") (items psn.friendRequestsIncoming))
    (houtgoing : HoldsUsers root (lit "friendrqsout") (items psn.friendRequestsOutgoing))
    (hload : psnDeserializeConfig J fresh.init.psn text buf = some (err, q, effects)) :
    keys q.friends = keys psn.friends ∧
      keys q.friendRequestsIncoming = keys psn.friendRequestsIncoming ∧
      keys q.friendRequestsOutgoing = keys psn.friendRequestsOutgoing := by
  obtain ⟨-, b₁, b₂, b₃, e₁, e₂, e₃, h₁, h₂, h₃, -⟩ := psnDeserializeConfig_eq_some hload
  rw [hroot] at h₁ h₂ h₃
  refine ⟨?_, ?_, ?_⟩
  · rw [keys_of_holdsUsers hfriends h₁, Proc.init, keys_empty, List.nil_append, keys]
  · rw [keys_of_holdsUsers hincoming h₂, Proc.init, keys_empty, List.nil_append, keys]
  · rw [keys_of_holdsUsers houtgoing h₃, Proc.init, keys_empty, List.nil_append, keys]

/-- If the array of the friends is as long as the list, no pending user was misplaced. -/
theorem hasKey_of_length {J : Jansson} {psn : PsnT τ κ}
    (h : (savedArrays J psn).friendList.length = (items psn.friends).length) :
    ∀ s ∈ items psn.friendRequestsIncoming ++ items psn.friendRequestsOutgoing,
      hasKey s = true := by
  simp only [savedArrays_eq, List.length_map, List.length_append] at h
  have hincoming := List.eq_nil_of_length_eq_zero
    (l := (items psn.friendRequestsIncoming).filter fun s => !hasKey s) (by omega)
  have houtgoing := List.eq_nil_of_length_eq_zero
    (l := (items psn.friendRequestsOutgoing).filter fun s => !hasKey s) (by omega)
  intro s hs
  rcases List.mem_append.mp hs with hs | hs
  · simpa using List.filter_eq_nil_iff.mp hincoming s hs
  · simpa using List.filter_eq_nil_iff.mp houtgoing s hs

/-- With keys for all pending users, the arrays are the lists. -/
theorem savedArrays_of_hasKey (J : Jansson) {psn : PsnT τ κ}
    (h : ∀ s ∈ items psn.friendRequestsIncoming ++ items psn.friendRequestsOutgoing,
      hasKey s = true) :
    savedArrays J psn =
      { friendList := (items psn.friends).map (savedUser J)
        friendReqIList := (items psn.friendRequestsIncoming).map (savedUser J)
        friendReqOList := (items psn.friendRequestsOutgoing).map (savedUser J) } := by
  simp only [List.mem_append, or_imp, forall_and] at h
  have hnone : ∀ {users : List (User κ)}, (∀ s ∈ users, hasKey s = true) →
      users.filter (fun s => !hasKey s) = [] := fun hkeys =>
    List.filter_eq_nil_iff.mpr fun s hs => by simp [hkeys s hs]
  rw [savedArrays_eq, hnone h.1, hnone h.2, List.filter_eq_self.mpr h.1,
    List.filter_eq_self.mpr h.2, List.append_nil, List.append_nil]

/-- Then the document holds the lists exactly if all names are valid. -/
theorem holdsUsers_savedRoot_iff {J : Jansson} {psn : PsnT τ κ} {out : Bytes}
    (hkeys : ∀ s ∈ items psn.friendRequestsIncoming ++ items psn.friendRequestsOutgoing,
      hasKey s = true) :
    (HoldsUsers (savedRoot J psn out) (lit "friends") (items psn.friends) ∧
      HoldsUsers (savedRoot J psn out) (lit "friendrqsinc") (items psn.friendRequestsIncoming) ∧
      HoldsUsers (savedRoot J psn out) (lit "friendrqsout")
        (items psn.friendRequestsOutgoing)) ↔
      ∀ s ∈ allUsers psn, ValidNames J s := by
  have harrays := savedArrays_of_hasKey J hkeys
  have h₁ := get_friends_savedRoot J psn out
  have h₂ := get_friendrqsinc_savedRoot J psn out
  have h₃ := get_friendrqsout_savedRoot J psn out
  rw [harrays] at h₁ h₂ h₃
  rw [holdsUsers_map_iff h₁, holdsUsers_map_iff h₂, holdsUsers_map_iff h₃]
  simp only [allUsers, List.mem_append, or_imp, forall_and, and_assoc]

/-- **When every user is saved in his list.** This is so exactly if all names are valid UTF-8,
every user in the two lists of requests has a key that can be exported, and all exported keys
fit the buffers. -/
theorem savesLists_iff (J : Jansson) (psn : PsnT τ κ) (stack : KeyBuffers) :
    SavesLists J psn stack ↔
      (∀ s ∈ allUsers psn, ValidNames J s) ∧
      (∀ s ∈ items psn.friendRequestsIncoming ++ items psn.friendRequestsOutgoing,
        hasKey s = true) ∧
      FitsBuffers psn := by
  constructor
  · rintro ⟨root, effects, hroot, hfriends, hincoming, houtgoing, -⟩
    have hfits := fitsBuffers_of_configRoot hroot
    obtain ⟨out, hown, hlen⟩ := hfits.own
    obtain ⟨effects', hsaved⟩ := exists_configRoot J hfits.users hown hlen stack
    obtain ⟨rfl, rfl⟩ : savedRoot J psn out = root ∧ effects' = effects := by
      simpa using hsaved.symm.trans hroot
    have hkeys := hasKey_of_length (length_of_holdsUsers hfriends (get_friends_savedRoot J psn out))
    exact ⟨(holdsUsers_savedRoot_iff hkeys).mp ⟨hfriends, hincoming, houtgoing⟩, hkeys, hfits⟩
  · rintro ⟨hvalid, hkeys, hfits⟩
    obtain ⟨out, hown, hlen⟩ := hfits.own
    obtain ⟨effects, hsaved⟩ := exists_configRoot J hfits.users hown hlen stack
    obtain ⟨hfriends, hincoming, houtgoing⟩ := (holdsUsers_savedRoot_iff hkeys).mpr hvalid
    exact ⟨_, effects, hsaved, hfriends, hincoming, houtgoing, fun text htext fresh buf err q
      loadEffects hload => keys_of_load htext hfriends hincoming houtgoing hload⟩

/-- A buffer that was never written. -/
def blankStack : KeyBuffers where
  pkKeyBuf := ⟨List.replicate 2048 0, List.length_replicate⟩
  pkHexStr := ⟨List.replicate 4097 0, List.length_replicate⟩

/-- A client with a private key and the given friends and incoming requests. -/
def profile (friends incoming : List (User DerKey)) : PsnT (List (User DerKey)) DerKey :=
  { (concreteProc alice).psn with
    friends := friends
    friendRequestsIncoming := incoming
    pkKey := ⟨some tinyKey⟩ }

/-- A user named bob with the given key. -/
def bobWith (key : DerKey) : User DerKey := ⟨bob.field, bob.field, key⟩

/-- A user named bob whose key is known. -/
def keyedBob : User DerKey := bobWith ⟨some tinyPublicKey⟩

/-- Somebody whose request waits for an answer, and whose key is not known, is saved as a
friend. -/
theorem not_savesLists_keyless :
    (∃ root effects,
      configRoot (asciiJansson .null) (profile [] [bobWith ⟨none⟩]) blankStack =
        some (root, effects) ∧ HoldsUsers root (lit "friends") [bobWith ⟨none⟩]) ∧
    ¬SavesLists (asciiJansson .null) (profile [] [bobWith ⟨none⟩]) blankStack := by
  have hfits : ∀ s ∈ allUsers (profile [] [bobWith ⟨none⟩]), FitsHexStr (exportedKey s.pubKey) := by
    intro s hs
    obtain rfl : s = bobWith ⟨none⟩ := List.mem_singleton.mp hs
    have hnone : exportedKey (bobWith ⟨none⟩).pubKey = none := rfl
    rw [hnone]
    exact fun out hout => nomatch hout
  obtain ⟨effects, hroot⟩ := exists_configRoot (asciiJansson .null) hfits
    (show rsaExport .pkPrivate 2048 (⟨some tinyKey⟩ : DerKey) = some tinyKey by decide)
    (by decide) blankStack
  have hget := get_friends_savedRoot (asciiJansson .null) (profile [] [bobWith ⟨none⟩]) tinyKey
  constructor
  · refine ⟨_, effects, hroot, (holdsUsers_map_iff hget).mpr fun s hs => ?_⟩
    obtain rfl : s = bobWith ⟨none⟩ := List.mem_singleton.mp hs
    exact ⟨by decide, by decide⟩
  · rintro ⟨root, effects', hroot', hfriends, -⟩
    obtain ⟨rfl, -⟩ :
        savedRoot (asciiJansson .null) (profile [] [bobWith ⟨none⟩]) tinyKey = root ∧
          effects = effects' := by
      simpa using hroot.symm.trans hroot'
    have hkey := hasKey_of_length (length_of_holdsUsers hfriends hget) (bobWith ⟨none⟩)
      List.mem_cons_self
    exact absurd hkey (by decide)

/-! ### The round trip -/

/-- What a saved profile is to restore. -/
structure Restores (q psn : PsnT τ κ) : Prop where
  username : q.username = psn.username
  shownName : q.shownName = psn.shownName
  hostname : q.hostname = psn.hostname
  port : q.port = psn.port
  pkKey : q.pkKey = psn.pkKey
  friends : items q.friends = items psn.friends
  incoming : items q.friendRequestsIncoming = items psn.friendRequestsIncoming
  outgoing : items q.friendRequestsOutgoing = items psn.friendRequestsOutgoing

/-- A profile is saved into a buffer of `cap` bytes, and whatever fresh instance loads it is as
the one that was saved. -/
def RoundTrips (J : Jansson) (psn : PsnT τ κ) (stack : KeyBuffers) (cap : ℕ) : Prop :=
  ∃ destStr effects, psnSerializeConfig J psn stack cap = some (.success, destStr, effects) ∧
    ∀ (fresh : Proc τ κ) (buf : Sized 2048), ∃ q loadEffects,
      psnDeserializeConfig J fresh.init.psn destStr.1 buf = some (.success, q, loadEffects) ∧
        Restores q psn

/-- What the round trip may take for granted: valid strings, keys for everyone, a private key
that can be saved and imported, and a document that survives being text. -/
structure Savable (J : Jansson) (psn : PsnT τ κ) (stack : KeyBuffers) (cap : ℕ) : Prop where
  username : J.utf8 psn.username.1 = true
  hostname : J.utf8 psn.hostname.1 = true
  users : ∀ s ∈ allUsers psn, hasKey s = true
  own : ∃ out, rsaExport .pkPrivate 2048 psn.pkKey = some out ∧ out.length ≤ 1024 ∧
    ∀ old, (rsaImport out old).2 = psn.pkKey
  text : ∀ root effects, configRoot J psn stack = some (root, effects) →
    ∃ text, J.dumps root = some text ∧ text.length < cap ∧ J.loads text = some root

omit [UserTable τ κ] in
/-- A key is saved with its user, although the loader looks for it in the root. -/
theorem get_pubkey_savedUser {J : Jansson} {s : User κ} (h : hasKey s = true) :
    jsonObjectGet (some (savedUser J s)) (lit "pubkey") ≠ none := by
  obtain ⟨out, hout⟩ := Option.isSome_iff_exists.mp h
  rw [savedUser, hout, jsonObjectGet_set_self, jsonString_hexOf, Option.some_or]
  exact Option.some_ne_none _

/-- A document with users who have keys cannot be loaded. -/
theorem allUsers_eq_nil_of_load {J : Jansson} {psn fresh : PsnT τ κ} {out : Bytes} {text : CStr}
    {buf : Sized 2048} {r : PsnErr × PsnT τ κ × List Effect}
    (hkeys : ∀ s ∈ allUsers psn, hasKey s = true)
    (htext : J.loads text = some (savedRoot J psn out))
    (hload : psnDeserializeConfig J fresh text buf = some r) : allUsers psn = [] := by
  obtain ⟨-, b₁, b₂, b₃, e₁, e₂, e₃, h₁, h₂, h₃, -⟩ := psnDeserializeConfig_eq_some hload
  simp only [allUsers, List.mem_append, or_imp, forall_and] at hkeys
  have hpending : ∀ s ∈ items psn.friendRequestsIncoming ++ items psn.friendRequestsOutgoing,
      hasKey s = true := fun s hs => (List.mem_append.mp hs).elim (hkeys.1.2 s) (hkeys.2 s)
  have harrays := savedArrays_of_hasKey J hpending
  have hnil : ∀ {users : List (User κ)} {mark : CStr} {buf : Sized 2048} {t : τ} {r},
      (∀ s ∈ users, hasKey s = true) →
      deserializeUsers (some (savedRoot J psn out)) mark (users.map (savedUser J)) buf t = some r →
        users = [] := by
    intro users mark buf t r husers h
    refine List.map_eq_nil_iff.mp (eq_nil_of_deserializeUsers (get_pubkey_savedRoot J psn out) ?_ h)
    intro obj hobj
    obtain ⟨s, hs, rfl⟩ := List.mem_map.mp hobj
    exact get_pubkey_savedUser (husers s hs)
  rw [htext, get_friends_savedRoot, harrays] at h₁
  rw [htext, get_friendrqsinc_savedRoot, harrays] at h₂
  rw [htext, get_friendrqsout_savedRoot, harrays] at h₃
  rw [allUsers, hnil hkeys.1.1 h₁, hnil hkeys.1.2 h₂, hnil hkeys.2 h₃]
  rfl

/-- A profile without users is loaded as it was saved, up to the shown name. -/
theorem exists_load_of_allUsers_eq_nil {J : Jansson} {psn : PsnT τ κ} {out : Bytes} {text : CStr}
    (husers : allUsers psn = []) (hshown : psn.shownName = psn.username)
    (husername : J.utf8 psn.username.1 = true) (hhostname : J.utf8 psn.hostname.1 = true)
    (hne : out ≠ []) (hlen : out.length ≤ 1024) (hown : ∀ old, (rsaImport out old).2 = psn.pkKey)
    (htext : J.loads text = some (savedRoot J psn out)) (fresh : Proc τ κ) (buf : Sized 2048) :
    ∃ q, psnDeserializeConfig J fresh.init.psn text buf = some (.success, q, []) ∧
      Restores q psn := by
  simp only [allUsers, List.append_eq_nil_iff] at husers
  have harrays : savedArrays J psn = ⟨[], [], []⟩ := by
    rw [savedArrays_eq, husers.1.1, husers.1.2, husers.2]
    rfl
  have hstrcpy : ∀ {n : ℕ} (f : Field n), strcpy n (some f.1) = some f := fun f =>
    strcpy_eq_some.mpr rfl
  obtain ⟨buf', himport⟩ := importKey_hexOf hne hlen buf fresh.init.psn.pkKey
  refine ⟨{ fresh.init.psn with
    username := psn.username
    shownName := psn.username
    hostname := psn.hostname
    port := psn.port
    pkKey := (rsaImport out fresh.init.psn.pkKey).2 }, ?_, ?_⟩
  · simp only [psnDeserializeConfig, htext, get_username_savedRoot, get_hostname_savedRoot,
      get_port_savedRoot, get_friends_savedRoot, get_friendrqsinc_savedRoot,
      get_friendrqsout_savedRoot, get_privkey_savedRoot, harrays, jsonString_of_utf8 husername,
      jsonString_of_utf8 hhostname, jsonStringValue, jsonIntegerValue, jsonArrayItems, hstrcpy,
      deserializeUsers, himport, Int32.ofInt_toInt, Option.bind_eq_bind, Option.bind_some]
    rfl
  · exact ⟨rfl, hshown.symm, rfl, rfl, hown _, by simp [Proc.init, husers.1.1],
      by simp [Proc.init, husers.1.2], by simp [Proc.init, husers.2]⟩

/-- A profile that makes the round trip is saved as a document, and the document is loaded. -/
theorem exists_load_of_roundTrips {J : Jansson} {psn : PsnT τ κ} {stack : KeyBuffers} {cap : ℕ}
    (h : Savable J psn stack cap) (hround : RoundTrips J psn stack cap) :
    ∃ out text fresh buf q effects, J.loads text = some (savedRoot J psn out) ∧
      psnDeserializeConfig J fresh text buf = some (.success, q, effects) ∧ Restores q psn := by
  obtain ⟨out, hout, hlen, -⟩ := h.own
  obtain ⟨destStr, effects, hsave, hload⟩ := hround
  obtain ⟨⟨root, _⟩, hroot, hsave⟩ := Option.bind_eq_some_iff.mp hsave
  obtain ⟨_, hstrcpy, hsave⟩ := Option.bind_eq_some_iff.mp hsave
  cases Option.some_inj.mp hsave
  obtain ⟨text, hdumps, -, hloads⟩ := h.text root effects hroot
  obtain rfl : text = destStr.1 := by
    simpa [hdumps] using strcpy_eq_some.mp hstrcpy
  obtain ⟨effects', hsaved⟩ :=
    exists_configRoot J (fitsBuffers_of_configRoot hroot).users hout hlen stack
  obtain ⟨rfl, -⟩ : savedRoot J psn out = root ∧ effects' = effects := by
    simpa using hsaved.symm.trans hroot
  obtain ⟨q, loadEffects, hq, hrestores⟩ := hload ⟨false, psn⟩ stack.pkKeyBuf
  exact ⟨out, destStr.1, _, _, q, loadEffects, hloads, hq, hrestores⟩

/-- The round trip needs empty lists, because the keys of users cannot be loaded. -/
theorem allUsers_eq_nil_of_roundTrips {J : Jansson} {psn : PsnT τ κ} {stack : KeyBuffers} {cap : ℕ}
    (h : Savable J psn stack cap) (hround : RoundTrips J psn stack cap) : allUsers psn = [] := by
  obtain ⟨out, text, fresh, buf, q, effects, hloads, hq, -⟩ := exists_load_of_roundTrips h hround
  exact allUsers_eq_nil_of_load h.users hloads hq

/-- The round trip needs a client shown under its user name, because the shown name is not
saved. -/
theorem shownName_of_roundTrips {J : Jansson} {psn : PsnT τ κ} {stack : KeyBuffers} {cap : ℕ}
    (h : Savable J psn stack cap) (hround : RoundTrips J psn stack cap) :
    psn.shownName = psn.username := by
  obtain ⟨out, text, fresh, buf, q, effects, -, hq, hrestores⟩ := exists_load_of_roundTrips h hround
  calc psn.shownName = q.shownName := hrestores.shownName.symm
    _ = q.username := (psnDeserializeConfig_eq_some hq).1
    _ = psn.username := hrestores.username

/-- **When a profile is loaded as it was saved.** This is so exactly if all three lists are empty
and the client is shown under its user name. -/
theorem roundTrips_iff {J : Jansson} {psn : PsnT τ κ} {stack : KeyBuffers} {cap : ℕ}
    (h : Savable J psn stack cap) :
    RoundTrips J psn stack cap ↔ allUsers psn = [] ∧ psn.shownName = psn.username := by
  constructor
  · intro hround
    exact ⟨allUsers_eq_nil_of_roundTrips h hround, shownName_of_roundTrips h hround⟩
  · rintro ⟨husers, hshown⟩
    obtain ⟨out, hout, hlen, hown⟩ := h.own
    obtain ⟨effects, hroot⟩ := exists_configRoot J (by simp [husers]) hout hlen stack
    obtain ⟨text, hdumps, hcap, hloads⟩ := h.text _ effects hroot
    refine ⟨⟨text, hcap⟩, effects, ?_, fun fresh buf => ?_⟩
    · rw [psnSerializeConfig, hroot]
      simp only [Option.bind_eq_bind, Option.bind_some, hdumps, strcpy_of_lt hcap]
      rfl
    · obtain ⟨q, hq, hrestores⟩ := exists_load_of_allUsers_eq_nil husers hshown h.username
        h.hostname (rsaExport_ne_nil hout) hlen hown hloads fresh buf
      exact ⟨q, [], hq, hrestores⟩

/-- The document of a client with the given friends. -/
def profileDoc (friends : List (User DerKey)) : Json :=
  savedRoot (asciiJansson .null) (profile friends []) tinyKey

theorem allUsers_profile (friends : List (User DerKey)) :
    allUsers (profile friends []) = friends := by
  simp [allUsers, profile, concreteProc, KeyedChain.items]

theorem savable_profile {friends : List (User DerKey)}
    (hkeys : ∀ s ∈ friends, hasKey s = true)
    (hfits : ∀ s ∈ friends, FitsHexStr (exportedKey s.pubKey))
    (hlen : (textOf (profileDoc friends)).length < 2048) :
    Savable (asciiJansson (profileDoc friends)) (profile friends []) blankStack 2048 := by
  have hown : rsaExport .pkPrivate 2048 (profile friends []).pkKey = some tinyKey := rfl
  refine ⟨rfl, rfl, by rwa [allUsers_profile], ⟨tinyKey, hown, by decide, fun old => rfl⟩, ?_⟩
  intro root effects hroot
  obtain ⟨effects', hsaved⟩ := exists_configRoot (asciiJansson (profileDoc friends))
    (by rwa [allUsers_profile]) hown (by decide) blankStack
  obtain ⟨rfl, -⟩ :
      savedRoot (asciiJansson (profileDoc friends)) (profile friends []) tinyKey = root ∧
        effects' = effects := by
    simpa using hsaved.symm.trans hroot
  have hdoc : savedRoot (asciiJansson (profileDoc friends)) (profile friends []) tinyKey =
      profileDoc friends := rfl
  rw [hdoc]
  exact ⟨textOf (profileDoc friends), dumps_asciiJansson _ _, hlen, loads_asciiJansson _⟩

/-- A list with one friend, who has a key. -/
def oneFriend : List (User DerKey) := [keyedBob]

/-- A friend with a key makes a saved profile unreadable. -/
theorem not_roundTrips_friend :
    Savable (asciiJansson (profileDoc oneFriend)) (profile oneFriend []) blankStack 2048 ∧
    ¬RoundTrips (asciiJansson (profileDoc oneFriend)) (profile oneFriend []) blankStack 2048 := by
  have hkey : exportedKey keyedBob.pubKey = some tinyPublicKey := rfl
  have hfits : tinyPublicKey.length ≤ 1024 := by decide
  have h : Savable (asciiJansson (profileDoc oneFriend)) (profile oneFriend []) blankStack 2048 :=
    savable_profile (by simp [oneFriend, hasKey, hkey])
      (by simp [oneFriend, FitsHexStr, hkey, hfits]) (by decide +kernel)
  refine ⟨h, fun hround => ?_⟩
  have husers := allUsers_eq_nil_of_roundTrips h hround
  rw [allUsers_profile] at husers
  exact List.cons_ne_nil _ _ husers

/-- A client without users makes the round trip. -/
theorem roundTrips_iff_alone :
    Savable (asciiJansson (profileDoc [])) (profile [] []) blankStack 2048 ∧
    RoundTrips (asciiJansson (profileDoc [])) (profile [] []) blankStack 2048 := by
  have h : Savable (asciiJansson (profileDoc [])) (profile [] []) blankStack 2048 :=
    savable_profile (by simp) (by simp) (by decide +kernel)
  exact ⟨h, (roundTrips_iff h).mpr ⟨rfl, rfl⟩⟩

end Psn

import Psn.Reload

/-!
# Documents that cannot be loaded

A configuration is read from disk, so any document can turn up in it. `psn_deserialize_config`
works through it field by field and writes into the instance as it goes. It looks at no result:
a string that is missing is handed to `strcpy` as NULL, and what is returned in the end is
`PSN_ERR_SUCCESS`.

`readProfile` says which documents are complete and what stands in them. A load that is all or
nothing takes over everything that stands in a complete document and leaves the instance alone
otherwise. A key is taken over if it was loaded, that is if `rsa_import` accepts the bytes that
stand in the document and the key is the one it makes of them.

Whether a document is taken over must not depend on what the stack holds when the function is
called, so the buffer for keys may hold anything. It shows through only where the string that is
decoded is empty.

## Main definitions

* `DocProfile`, `readProfile`: the contents of a complete document
* `AllOrNothing`: a load either takes over the whole document or nothing
* `Loadable`: a complete document that the code can take over

## Main results

* `loadsUsers_iff`: what a loop takes over
* `allOrNothing_iff`: a load is all or nothing exactly for loadable documents
-/

namespace Psn

open Buffer KeyedChain Tomcrypt

/-! ### Complete documents -/

/-- A user in a document. -/
structure DocUser where
  /-- `name`. -/
  name : CStr
  /-- `shown_name`. -/
  shownName : CStr
  /-- The bytes of `pubkey`, which may be missing. -/
  pubkey : Option Bytes

/-- A profile in a document. -/
structure DocProfile where
  /-- `username`. -/
  username : CStr
  /-- `hostname`. -/
  hostname : CStr
  /-- `port`. -/
  port : ℤ
  /-- `friends`. -/
  friends : List DocUser
  /-- `friendrqsinc`. -/
  incoming : List DocUser
  /-- `friendrqsout`. -/
  outgoing : List DocUser
  /-- The bytes of `privkey`. -/
  privkey : Bytes

/-- The users of all three arrays. -/
def DocProfile.users (doc : DocProfile) : List DocUser :=
  doc.friends ++ doc.incoming ++ doc.outgoing

/-- A key is a string of hex digits that is not empty. -/
def readKey (value : Option Json) : Option Bytes := do
  let hex ← jsonStringValue value
  let bytes ← hexBytes hex
  if bytes = [] then none else some bytes

/-- A user has a name and a shown name; the key may be missing. -/
def readUser (obj : Json) : Option DocUser := do
  let name ← jsonStringValue (jsonObjectGet (some obj) (lit "name"))
  let shownName ← jsonStringValue (jsonObjectGet (some obj) (lit "shown_name"))
  match jsonObjectGet (some obj) (lit "pubkey") with
  | none => return ⟨name, shownName, none⟩
  | some value => do
    let bytes ← readKey (some value)
    return ⟨name, shownName, some bytes⟩

/-- An array of users. -/
def readUsers : Option Json → Option (List DocUser)
  | some (.array objs) => objs.mapM readUser
  | _ => none

/-- The port is an integer. -/
def readPort : Option Json → Option ℤ
  | some (.integer port) => some port
  | _ => none

/-- The contents of a document, if it has everything that a saved profile has. -/
def readProfile (root : Option Json) : Option DocProfile := do
  let username ← jsonStringValue (jsonObjectGet root (lit "username"))
  let hostname ← jsonStringValue (jsonObjectGet root (lit "hostname"))
  let port ← readPort (jsonObjectGet root (lit "port"))
  let friends ← readUsers (jsonObjectGet root (lit "friends"))
  let incoming ← readUsers (jsonObjectGet root (lit "friendrqsinc"))
  let outgoing ← readUsers (jsonObjectGet root (lit "friendrqsout"))
  let privkey ← readKey (jsonObjectGet root (lit "privkey"))
  return ⟨username, hostname, port, friends, incoming, outgoing, privkey⟩

theorem readKey_eq_some {value : Option Json} {bytes : Bytes} (h : readKey value = some bytes) :
    ∃ hex, jsonStringValue value = some hex ∧ hexBytes hex = some bytes ∧ bytes ≠ [] := by
  obtain ⟨hex, hhex, h⟩ := Option.bind_eq_some_iff.mp h
  obtain ⟨bytes', hbytes', h⟩ := Option.bind_eq_some_iff.mp h
  obtain ⟨hne, h⟩ := Option.ite_none_left_eq_some.mp h
  obtain rfl := Option.some_inj.mp h
  exact ⟨hex, hhex, hbytes', hne⟩

theorem readUser_eq_some {obj : Json} {u : DocUser} (h : readUser obj = some u) :
    jsonStringValue (jsonObjectGet (some obj) (lit "name")) = some u.name ∧
      jsonStringValue (jsonObjectGet (some obj) (lit "shown_name")) = some u.shownName ∧
      (jsonObjectGet (some obj) (lit "pubkey") = none ↔ u.pubkey = none) := by
  obtain ⟨name, hname, h⟩ := Option.bind_eq_some_iff.mp h
  obtain ⟨shownName, hshown, h⟩ := Option.bind_eq_some_iff.mp h
  split at h
  · rename_i hnone
    cases h
    exact ⟨hname, hshown, iff_of_true hnone rfl⟩
  · rename_i value hsome
    obtain ⟨bytes, -, h⟩ := Option.bind_eq_some_iff.mp h
    cases h
    exact ⟨hname, hshown, iff_of_false (by simp [hsome]) (by simp)⟩

theorem readUsers_eq_some {arr : Option Json} {users : List DocUser}
    (h : readUsers arr = some users) : (jsonArrayItems arr).mapM readUser = some users := by
  unfold readUsers at h
  split at h
  · exact h
  · cases h

theorem readPort_eq_some {value : Option Json} {port : ℤ} (h : readPort value = some port) :
    jsonIntegerValue value = port := by
  unfold readPort at h
  split at h
  · exact Option.some_inj.mp h
  · cases h

/-! ### Keys -/

/-- A string of hex digits is decoded to what it stands for. -/
theorem decodeKey_of_readKey {value : Option Json} {bytes : Bytes}
    (h : readKey value = some bytes) (buf : Sized 2048) :
    decodeKey buf (jsonStringValue value) = some bytes ↔ bytes.length ≤ 2048 := by
  obtain ⟨hex, hhex, hbytes, hne⟩ := readKey_eq_some h
  have hlen := length_of_hexBytes hbytes
  rw [hhex]
  constructor
  · intro hdecode
    obtain ⟨s, r, hs, hsize, -⟩ := decodeKey_eq_some.mp hdecode
    rw [← Option.some_inj.mp hs] at hsize
    omega
  · intro hsize
    have hbuf := buf.2
    have hdecode : hexStrToBuf hex (UInt32.ofNat hex.length) buf.1 2048 =
        some (overwrite buf.1 bytes, bytes.length) :=
      hexStrToBuf_of_hexBytes hbytes hne (by omega) hsize (by omega)
    exact decodeKey_eq_some.mpr ⟨hex, _, rfl, by omega, hdecode, take_overwrite _ _⟩

variable {τ κ : Type} [Tomcrypt κ]

/-- An import happens exactly if something is decoded, and then over the key that was there. -/
theorem importKey_iff {buf : Sized 2048} {hex : Option CStr} {key k : κ} :
    (∃ b, importKey buf hex key = some (b, k)) ↔
      ∃ bytes, decodeKey buf hex = some bytes ∧ k = (rsaImport bytes key).2 := by
  constructor
  · rintro ⟨b, h⟩
    exact (importKey_eq_some.mp h).2
  · rintro ⟨bytes, h, rfl⟩
    obtain ⟨b, hb⟩ := exists_keyBuffer h
    exact ⟨b, importKey_eq_some.mpr ⟨hb, bytes, h, rfl⟩⟩

/-! ### Users -/

/-- A record holds the user of a document: both names, and the key that `rsa_import` loads from the
bytes of the user's own `pubkey`. A record without one is as fresh as `calloc` made it. -/
structure DocUser.Loaded (u : DocUser) (new : User κ) : Prop where
  name : new.name.1 = u.name
  shownName : new.shownName.1 = u.shownName
  noKey : u.pubkey = none → new.pubKey = zero
  pubKey : ∀ bytes, u.pubkey = some bytes → rsaImport bytes (zero : κ) = (true, new.pubKey)

/-- The code can take over a user: the names fit, the bytes of `pubkey` are a key, and the import
of the given bytes, those of the root of the document, leaves that same key. -/
structure LoadableUser (κ : Type) [Tomcrypt κ] (rootKey : Option Bytes) (u : DocUser) : Prop where
  name : u.name.length < 32
  shownName : u.shownName.length < 32
  pubkey : ∀ bytes, u.pubkey = some bytes → ∃ key : κ, rsaImport bytes zero = (true, key) ∧
    ∃ rootBytes, rootKey = some rootBytes ∧ (rsaImport rootBytes (zero : κ)).2 = key

/-- What one pass of a loop takes over. -/
theorem loadsUser_iff {root : Option Json} {obj : Json} {u : DocUser} (hu : readUser obj = some u)
    (mark : CStr) (buf : Sized 2048) :
    (∃ b, ∃ new : User κ, ∃ e, deserializeUser root mark obj buf = some (b, new, e) ∧
      u.Loaded new) ↔ LoadableUser κ (decodeKey buf (rootHex root)) u := by
  obtain ⟨hname, hshown, hkey⟩ := readUser_eq_some hu
  constructor
  · rintro ⟨b, new, e, h, hloaded⟩
    obtain ⟨-, -, -, hpubkey⟩ := deserializeUser_eq_some h
    refine ⟨hloaded.name ▸ new.name.2, hloaded.shownName ▸ new.shownName.2, fun bytes hbytes => ?_⟩
    rcases hpubkey with ⟨hnone, -⟩ | ⟨-, rootBytes, hdecode, hnew⟩
    · rw [hkey.mp hnone] at hbytes
      cases hbytes
    · exact ⟨new.pubKey, hloaded.pubKey bytes hbytes, rootBytes, hdecode, hnew.symm⟩
  · intro h
    simp only [deserializeUser, hname, hshown, strcpy_of_lt h.name, strcpy_of_lt h.shownName,
      Option.bind_eq_bind, Option.bind_some]
    cases hpubkey : u.pubkey with
    | none =>
      rw [hkey.mpr hpubkey]
      exact ⟨_, _, _, rfl, rfl, rfl, fun _ => rfl, by simp [hpubkey]⟩
    | some bytes =>
      obtain ⟨key, hown, rootBytes, hdecode, hroot⟩ := h.pubkey bytes hpubkey
      obtain ⟨b, himport⟩ : ∃ b, importKey buf (rootHex root) (zero : κ) = some (b, key) :=
        importKey_iff.mpr ⟨rootBytes, hdecode, hroot.symm⟩
      obtain ⟨value, hvalue⟩ := Option.ne_none_iff_exists'.mp (mt hkey.mp (by simp [hpubkey]))
      rw [rootHex] at himport
      simp only [hvalue, himport, Option.bind_some]
      refine ⟨_, _, _, rfl, rfl, rfl, by simp [hpubkey], fun bytes' hbytes' => ?_⟩
      obtain rfl := Option.some_inj.mp (hpubkey.symm.trans hbytes')
      exact hown

variable [UserTable τ κ]

/-- A list got a record for each of the given users, in order, and kept what it had. -/
def LoadsUsers (t t' : τ) (users : List DocUser) : Prop :=
  ∃ news, items t' = items t ++ news ∧ List.Forall₂ DocUser.Loaded users news

theorem LoadsUsers.cons {t t' : τ} {new : User κ} {u : DocUser} {users : List DocUser}
    (hnew : u.Loaded new) (h : LoadsUsers (add t new) t' users) :
    LoadsUsers t t' (u :: users) := by
  obtain ⟨news, hnews, hloaded⟩ := h
  refine ⟨new :: news, ?_, .cons hnew hloaded⟩
  rw [hnews, items_add, List.append_assoc]
  rfl

/-- What a loop has taken over, its first pass and the others have. -/
theorem LoadsUsers.of_cons {root : Option Json} {mark : CStr} {arr : List Json}
    {buf b : Sized 2048} {t t' : τ} {e : List Effect} {new : User κ} {u : DocUser}
    {users : List DocUser} (h : LoadsUsers t t' (u :: users))
    (hrest : deserializeUsers root mark arr buf (add t new) = some (b, t', e)) :
    u.Loaded new ∧ LoadsUsers (add t new) t' users := by
  obtain ⟨news, hnews, hloaded⟩ := h
  obtain ⟨rest, hitems, -⟩ := items_deserializeUsers hrest
  obtain rfl : news = new :: rest := by
    rw [hnews, items_add, List.append_assoc] at hitems
    exact List.append_cancel_left hitems
  obtain ⟨hnew, hrest⟩ := List.forall₂_cons.mp hloaded
  exact ⟨hnew, rest, hitems, hrest⟩

/-- **What a loop takes over.** It takes over the users of an array exactly if each of them is
loadable. -/
theorem loadsUsers_iff {root : Option Json} (mark : CStr) {arr : List Json} :
    ∀ {users : List DocUser}, arr.mapM readUser = some users → ∀ (buf : Sized 2048) (t : τ),
      (∃ b t' e, deserializeUsers root mark arr buf t = some (b, t', e) ∧ LoadsUsers t t' users) ↔
        ∀ u ∈ users, LoadableUser κ (decodeKey buf (rootHex root)) u := by
  induction arr with
  | nil =>
    intro users harr buf t
    obtain rfl : [] = users := Option.some_inj.mp harr
    exact iff_of_true ⟨buf, t, [], rfl, [], by simp, .nil⟩ (by simp)
  | cons obj arr ih =>
    intro users harr buf t
    rw [List.mapM_cons] at harr
    obtain ⟨u, hu, harr⟩ := Option.bind_eq_some_iff.mp harr
    obtain ⟨users, husers, harr⟩ := Option.bind_eq_some_iff.mp harr
    obtain rfl := Option.some_inj.mp harr
    rw [List.forall_mem_cons]
    constructor
    · rintro ⟨b, t', e, h, hloads⟩
      obtain ⟨⟨b₁, new, warning⟩, hnew, h⟩ := Option.bind_eq_some_iff.mp h
      obtain ⟨⟨b₂, t₂, e₂⟩, hrest, h⟩ := Option.bind_eq_some_iff.mp h
      cases Option.some_inj.mp h
      obtain ⟨hdata, hloads⟩ := hloads.of_cons hrest
      refine ⟨(loadsUser_iff hu mark buf).mp ⟨b₁, new, warning, hnew, hdata⟩, ?_⟩
      rw [← decodeKey_of_deserializeUser hnew]
      exact (ih husers b₁ (add t new)).mp ⟨b, t', e₂, hrest, hloads⟩
    · rintro ⟨hu', husers'⟩
      obtain ⟨b₁, new, warning, hnew, hdata⟩ := (loadsUser_iff hu mark buf).mpr hu'
      rw [← decodeKey_of_deserializeUser hnew] at husers'
      obtain ⟨b, t', e, hrest, hloads⟩ := (ih husers b₁ (add t new)).mpr husers'
      refine ⟨b, t', warning ++ e, ?_, hloads.cons hdata⟩
      simp only [deserializeUsers, hnew, hrest, Option.bind_eq_bind, Option.bind_some,
        Option.pure_def]

/-! ### Profiles -/

/-- An instance took over a document: every field holds what stands there, every user got a record,
and the private key is the one that `rsa_import` loads from the bytes of `privkey`. -/
structure Loads (psn q : PsnT τ κ) (doc : DocProfile) : Prop where
  username : q.username.1 = doc.username
  hostname : q.hostname.1 = doc.hostname
  port : q.port.toInt = doc.port
  friends : LoadsUsers psn.friends q.friends doc.friends
  incoming : LoadsUsers psn.friendRequestsIncoming q.friendRequestsIncoming doc.incoming
  outgoing : LoadsUsers psn.friendRequestsOutgoing q.friendRequestsOutgoing doc.outgoing
  pkKey : rsaImport doc.privkey psn.pkKey = (true, q.pkKey)

/-- Whatever the stack buffer for keys holds, a load takes over the whole of a complete document
and reports success, or it reports an error and leaves the instance as it was. A NULL string is
handed to no function in either case, since the load has a result. -/
def AllOrNothing (J : Jansson) (psn : PsnT τ κ) (srcStr : CStr) : Prop :=
  ∀ buf : Sized 2048, ∃ err q effects,
    psnDeserializeConfig J psn srcStr buf = some (err, q, effects) ∧
      ((∃ doc, readProfile (J.loads srcStr) = some doc ∧ err = .success ∧ Loads psn q doc) ∨
        (err ≠ .success ∧ q = psn))

/-- The code can take over a profile: everything fits, `privkey` is a key, and the given bytes,
those of the root of the document, are the key of every user who has one. -/
structure Loadable (pkKey : κ) (rootKey : Option Bytes) (doc : DocProfile) : Prop where
  username : doc.username.length < 32
  hostname : doc.hostname.length < 256
  port : -2147483648 ≤ doc.port ∧ doc.port < 2147483648
  users : ∀ u ∈ doc.users, LoadableUser κ rootKey u
  privkeyLength : doc.privkey.length ≤ 2048
  privkey : (rsaImport doc.privkey pkKey).1 = true

theorem readProfile_eq_some {root : Option Json} {doc : DocProfile}
    (h : readProfile root = some doc) :
    jsonStringValue (jsonObjectGet root (lit "username")) = some doc.username ∧
      jsonStringValue (jsonObjectGet root (lit "hostname")) = some doc.hostname ∧
      jsonIntegerValue (jsonObjectGet root (lit "port")) = doc.port ∧
      (jsonArrayItems (jsonObjectGet root (lit "friends"))).mapM readUser = some doc.friends ∧
      (jsonArrayItems (jsonObjectGet root (lit "friendrqsinc"))).mapM readUser =
        some doc.incoming ∧
      (jsonArrayItems (jsonObjectGet root (lit "friendrqsout"))).mapM readUser =
        some doc.outgoing ∧
      readKey (jsonObjectGet root (lit "privkey")) = some doc.privkey := by
  obtain ⟨username, husername, h⟩ := Option.bind_eq_some_iff.mp h
  obtain ⟨hostname, hhostname, h⟩ := Option.bind_eq_some_iff.mp h
  obtain ⟨port, hport, h⟩ := Option.bind_eq_some_iff.mp h
  obtain ⟨friends, hfriends, h⟩ := Option.bind_eq_some_iff.mp h
  obtain ⟨incoming, hincoming, h⟩ := Option.bind_eq_some_iff.mp h
  obtain ⟨outgoing, houtgoing, h⟩ := Option.bind_eq_some_iff.mp h
  obtain ⟨privkey, hprivkey, h⟩ := Option.bind_eq_some_iff.mp h
  obtain rfl := Option.some_inj.mp h
  exact ⟨husername, hhostname, readPort_eq_some hport, readUsers_eq_some hfriends,
    readUsers_eq_some hincoming, readUsers_eq_some houtgoing, hprivkey⟩

section Load

variable {J : Jansson} {psn q : PsnT τ κ} {srcStr : CStr} {buf : Sized 2048} {doc : DocProfile}

theorem toInt_ofInt_port {port : ℤ} :
    (Int32.ofInt port).toInt = port ↔ -2147483648 ≤ port ∧ port < 2147483648 := by
  constructor
  · intro h
    have hle := Int32.le_toInt (Int32.ofInt port)
    have hlt := Int32.toInt_lt (Int32.ofInt port)
    omega
  · rintro ⟨hle, hlt⟩
    exact Int32.toInt_ofInt_of_le (by omega) (by omega)

/-- What was taken over could be taken over. -/
theorem loadable_of_loads {err : PsnErr} {effects : List Effect}
    (hdoc : readProfile (J.loads srcStr) = some doc)
    (h : psnDeserializeConfig J psn srcStr buf = some (err, q, effects))
    (hloads : Loads psn q doc) :
    Loadable psn.pkKey (decodeKey buf (rootHex (J.loads srcStr))) doc := by
  obtain ⟨-, -, hport', hfriends, hincoming, houtgoing, hprivkey⟩ := readProfile_eq_some hdoc
  obtain ⟨-, b₁, b₂, b₃, e₁, e₂, e₃, h₁, h₂, h₃, ⟨b₄, hkey⟩, -⟩ := psnDeserializeConfig_eq_some h
  obtain ⟨-, -, -, -, -, hport⟩ := fields_of_psnDeserializeConfig h
  have hroot₁ := decodeKey_of_deserializeUsers h₁
  have hroot₂ := (decodeKey_of_deserializeUsers h₂).trans hroot₁
  refine ⟨hloads.username ▸ q.username.2, hloads.hostname ▸ q.hostname.2, ?_, ?_, ?_,
    congrArg Prod.fst hloads.pkKey⟩
  · rw [← toInt_ofInt_port, ← hport', ← hport, hloads.port, hport']
  · simp only [DocProfile.users, List.mem_append, or_imp, forall_and]
    refine ⟨⟨?_, ?_⟩, ?_⟩
    · exact (loadsUsers_iff [] hfriends buf psn.friends).mp ⟨b₁, _, e₁, h₁, hloads.friends⟩
    · rw [← hroot₁]
      exact (loadsUsers_iff (lit "2") hincoming b₁ psn.friendRequestsIncoming).mp
        ⟨b₂, _, e₂, h₂, hloads.incoming⟩
    · rw [← hroot₂]
      exact (loadsUsers_iff (lit "3") houtgoing b₂ psn.friendRequestsOutgoing).mp
        ⟨b₃, _, e₃, h₃, hloads.outgoing⟩
  · obtain ⟨bytes, hdecode, -⟩ := importKey_iff.mp ⟨b₄, hkey⟩
    obtain ⟨hex, hhex, hbytes, -⟩ := readKey_eq_some hprivkey
    obtain ⟨s, r, hs, hsize, -⟩ := decodeKey_eq_some.mp hdecode
    obtain rfl := Option.some_inj.mp (hhex.symm.trans hs)
    have hlen := length_of_hexBytes hbytes
    omega

/-- What can be taken over is taken over. -/
theorem exists_loads (hdoc : readProfile (J.loads srcStr) = some doc)
    (h : Loadable psn.pkKey (decodeKey buf (rootHex (J.loads srcStr))) doc) :
    ∃ q effects, psnDeserializeConfig J psn srcStr buf = some (.success, q, effects) ∧
      Loads psn q doc := by
  obtain ⟨husername, hhostname, hport, hfriends, hincoming, houtgoing, hprivkey⟩ :=
    readProfile_eq_some hdoc
  have husers := h.users
  simp only [DocProfile.users, List.mem_append, or_imp, forall_and] at husers
  obtain ⟨b₁, friends, e₁, h₁, hloads₁⟩ :=
    (loadsUsers_iff [] hfriends buf psn.friends).mpr husers.1.1
  have hroot₁ := decodeKey_of_deserializeUsers h₁
  obtain ⟨b₂, incoming, e₂, h₂, hloads₂⟩ :=
    (loadsUsers_iff (lit "2") hincoming b₁ psn.friendRequestsIncoming).mpr
      (hroot₁ ▸ husers.1.2)
  have hroot₂ := (decodeKey_of_deserializeUsers h₂).trans hroot₁
  obtain ⟨b₃, outgoing, e₃, h₃, hloads₃⟩ :=
    (loadsUsers_iff (lit "3") houtgoing b₂ psn.friendRequestsOutgoing).mpr
      (hroot₂ ▸ husers.2)
  obtain ⟨b₄, hkey⟩ : ∃ b₄, importKey b₃
      (jsonStringValue (jsonObjectGet (J.loads srcStr) (lit "privkey"))) psn.pkKey =
        some (b₄, (rsaImport doc.privkey psn.pkKey).2) :=
    importKey_iff.mpr ⟨doc.privkey, (decodeKey_of_readKey hprivkey b₃).mpr h.privkeyLength, rfl⟩
  refine ⟨{ psn with
    username := ⟨doc.username, h.username⟩
    shownName := ⟨doc.username, h.username⟩
    hostname := ⟨doc.hostname, h.hostname⟩
    port := Int32.ofInt doc.port
    friends := friends
    friendRequestsIncoming := incoming
    friendRequestsOutgoing := outgoing
    pkKey := (rsaImport doc.privkey psn.pkKey).2 }, e₁ ++ e₂ ++ e₃, ?_, ?_⟩
  · simp only [psnDeserializeConfig, husername, hhostname, hport, strcpy_of_lt h.username,
      strcpy_of_lt h.hostname, h₁, h₂, h₃, hkey, Option.bind_eq_bind, Option.bind_some,
      Option.pure_def]
  · exact ⟨rfl, rfl, toInt_ofInt_port.mpr h.port, hloads₁, hloads₂, hloads₃,
      Prod.ext h.privkey rfl⟩

end Load

/-- **When a load is all or nothing.** This is so exactly if the document is complete and the code
can take it over, with whatever the stack holds: an error is never reported, and neither a document
that is not complete nor a key that cannot be imported is refused. -/
theorem allOrNothing_iff (J : Jansson) (psn : PsnT τ κ) (srcStr : CStr) :
    AllOrNothing J psn srcStr ↔
      ∃ doc, readProfile (J.loads srcStr) = some doc ∧
        ∀ buf : Sized 2048, Loadable psn.pkKey (decodeKey buf (rootHex (J.loads srcStr))) doc := by
  constructor
  · intro h
    have hload : ∀ buf : Sized 2048, ∃ doc, readProfile (J.loads srcStr) = some doc ∧
        Loadable psn.pkKey (decodeKey buf (rootHex (J.loads srcStr))) doc := by
      intro buf
      obtain ⟨err, q, effects, hq, ⟨doc, hdoc, -, hloads⟩ | ⟨hne, -⟩⟩ := h buf
      · exact ⟨doc, hdoc, loadable_of_loads hdoc hq hloads⟩
      · exact absurd (fields_of_psnDeserializeConfig hq).1 hne
    obtain ⟨doc, hdoc, -⟩ := hload blankStack.pkKeyBuf
    refine ⟨doc, hdoc, fun buf => ?_⟩
    obtain ⟨doc', hdoc', hloadable⟩ := hload buf
    obtain rfl := Option.some_inj.mp (hdoc.symm.trans hdoc')
    exact hloadable
  · rintro ⟨doc, hdoc, h⟩ buf
    obtain ⟨q, effects, hq, hloads⟩ : ∃ q effects,
        psnDeserializeConfig J psn srcStr buf = some (.success, q, effects) ∧ Loads psn q doc :=
      exists_loads hdoc (h buf)
    exact ⟨.success, q, effects, hq, Or.inl ⟨doc, hdoc, rfl, hloads⟩⟩

/-- A complete document of alice, with her key and with that of her friend, which stands in the
root as well. -/
def keyedDoc : Json :=
  .object [(lit "username", .string (lit "alice")), (lit "hostname", .string (lit "localhost")),
    (lit "port", .integer 1883),
    (lit "friends", .array [.object [(lit "name", .string (lit "bob")),
      (lit "shown_name", .string (lit "bob")), (lit "pubkey", .string (hexOf tinyPublicKey))]]),
    (lit "friendrqsinc", .array []), (lit "friendrqsout", .array []),
    (lit "pubkey", .string (hexOf tinyPublicKey)), (lit "privkey", .string (hexOf tinyKey))]

/-- That document is taken over as a whole. -/
theorem allOrNothing_iff_keyedDoc :
    AllOrNothing (asciiJansson keyedDoc) (concreteProc alice).psn (textOf keyedDoc) := by
  have hne : tinyPublicKey ≠ [] := by decide
  have hlen : tinyPublicKey.length ≤ 2048 := by decide
  rw [allOrNothing_iff, loads_asciiJansson]
  refine ⟨⟨lit "alice", lit "localhost", 1883, [⟨lit "bob", lit "bob", some tinyPublicKey⟩], [], [],
    tinyKey⟩, rfl, fun buf => ?_⟩
  have hroot : decodeKey buf (rootHex (some keyedDoc)) = some tinyPublicKey :=
    decodeKey_hexOf hne hlen buf
  rw [hroot]
  refine ⟨by decide, by decide, by decide, ?_, by decide, rfl⟩
  simp only [DocProfile.users, List.append_nil, List.mem_singleton, forall_eq]
  refine ⟨by decide, by decide, fun bytes hbytes => ?_⟩
  obtain rfl := Option.some_inj.mp hbytes
  exact ⟨⟨some tinyPublicKey⟩, rsaImport_tinyPublicKey _, tinyPublicKey, rfl, rfl⟩

/-- A text that is no JSON is not refused: its missing user name is handed to `strcpy`. -/
theorem not_allOrNothing_no_json :
    (asciiJansson .null).loads (lit "no json") = none ∧
      ¬AllOrNothing (asciiJansson .null) (profile [] []) (lit "no json") := by
  have hloads : (asciiJansson .null).loads (lit "no json") = none := rfl
  refine ⟨hloads, fun hall => ?_⟩
  obtain ⟨err, q, effects, h, -⟩ := hall blankStack.pkKeyBuf
  obtain ⟨-, -, -, husername, -⟩ := fields_of_psnDeserializeConfig h
  rw [hloads] at husername
  cases husername

end Psn

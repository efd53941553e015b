import Psn.Connection
import Psn.Encryption
import Psn.Malformed

/-!
# Copies into fields of fixed size

The client copies and formats strings into fields of 32 and 256 bytes, topic buffers of 128 and a
hex buffer of 4097, and looks at no length. The strings come from the command line, from the topics
of messages and from configuration files. Here the copies of each operation are listed, and it is
said exactly which operations stay inside their fields.

A name that is in a list fits its field, because it was copied there. So an operation that copies a
name after it has found it in a list is safe, and the others are as safe as their callers.

## Main definitions

* `copies`: the copies of an operation, in order
* `FieldsSafe`: no copy leaves its field, and a record that was added is found under its name
* `Bounded`: the bounds on the inputs of an operation

## Main results

* `fieldsSafe_iff_bounded`: an operation is safe exactly within its bounds
* `along_fieldsSafe_iff`: the same along whole runs
-/

namespace Psn

open Buffer KeyedChain PartialMachine Tomcrypt

variable {τ κ : Type} [Tomcrypt κ] [UserTable τ κ]

/-! ### Copies -/

/-- A copy of a string into a field of `capacity` bytes. The source may be NULL. -/
structure Copy where
  /-- The size of the field. -/
  capacity : ℕ
  /-- The source. -/
  source : Option CStr

/-- The copies are made in order, and up to the first NULL source each one fits with its
terminator. -/
def Within : List Copy → Prop
  | [] => True
  | c :: cs => ∀ s, c.source = some s → s.length < c.capacity ∧ Within cs

/-- The copies are made one after the other, and each has to fit. -/
theorem within_cons {n : ℕ} {s : CStr} {cs : List Copy} :
    Within (⟨n, some s⟩ :: cs) ↔ s.length < n ∧ Within cs := by
  simp [Within]

/-- The copies of a loop of the loader for one object. -/
def userCopies (root : Option Json) (obj : Json) : List Copy :=
  [⟨32, jsonStringValue (jsonObjectGet (some obj) (lit "name"))⟩,
    ⟨32, jsonStringValue (jsonObjectGet (some obj) (lit "shown_name"))⟩] ++
    match jsonObjectGet (some obj) (lit "pubkey") with
    | none => []
    | some _ => [⟨4097, jsonStringValue (jsonObjectGet root (lit "pubkey"))⟩]

/-- The copies of the loader. -/
def documentCopies (root : Option Json) : List Copy :=
  [⟨32, jsonStringValue (jsonObjectGet root (lit "username"))⟩,
    ⟨32, jsonStringValue (jsonObjectGet root (lit "username"))⟩,
    ⟨256, jsonStringValue (jsonObjectGet root (lit "hostname"))⟩] ++
    (jsonArrayItems (jsonObjectGet root (lit "friends"))).flatMap (userCopies root) ++
    (jsonArrayItems (jsonObjectGet root (lit "friendrqsinc"))).flatMap (userCopies root) ++
    (jsonArrayItems (jsonObjectGet root (lit "friendrqsout"))).flatMap (userCopies root) ++
    [⟨4097, jsonStringValue (jsonObjectGet root (lit "privkey"))⟩]

omit [Tomcrypt κ] in
local instance (t : τ) (name : CStr) : Decidable (name ∈ keys t) :=
  decidable_of_iff _ find_isSome_iff

/-- The copies of an operation into the fields of the instance and of its records, into the topic
buffers and into the hex buffer of the loader. A fresh record gets its name twice. -/
def copies (J : Jansson) (p : Proc τ κ) : ApiOp κ → List Copy
  | .setServer hostname _ => [⟨256, some hostname⟩]
  | .setUsername username password =>
    [⟨32, some password⟩, ⟨32, some username⟩, ⟨32, some username⟩]
  | .setShownName shownName => [⟨32, some shownName⟩]
  | .connect io =>
    if io.connect = .success then
      [⟨128, some (usersSub p.psn.username.1)⟩, ⟨128, some (chatSub p.psn.username.1)⟩]
    else []
  | .lists (.makeFriendReq target _ _) =>
    if Ready p then
      [⟨128, some (frequestTopic target p.psn.username.1)⟩, ⟨32, some target⟩, ⟨32, some target⟩]
    else []
  | .lists (.acceptFriendReq target _) =>
    if Ready p ∧ target ∈ keys p.psn.friendRequestsIncoming then
      [⟨128, some (frequestTopic target p.psn.username.1)⟩]
    else []
  | .lists (.sendMessage target _ _) =>
    if p.connected = true ∧ target ∈ keys p.psn.friends then
      [⟨128, some (chatTopic p.psn.username.1 target)⟩]
    else []
  | .lists (.receive m) =>
    match frequestSource m.topic with
    | none => []
    | some source =>
      if source ∈ keys p.psn.friendRequestsIncoming ∨ source ∈ keys p.psn.friends then []
      else [⟨32, some source⟩, ⟨32, some source⟩]
  | .sendEncryptedMessage target plainMessage prng _ =>
    if ((encryptCall p.psn plainMessage).result prng).isSome then
      [⟨128, some (chatTopic p.psn.username.1 target)⟩]
    else []
  | .deserializeConfig srcStr _ => documentCopies (J.loads srcStr)
  | _ => []

/-- The operation rejects its input and changes nothing. -/
def Rejects (J : Jansson) (p : Proc τ κ) (op : ApiOp κ) : Prop :=
  ∃ o, p.apiStep J op = some (o, p) ∧ o.err ≠ some .success

/-! ### Records that are added -/

/-- The lists of an instance. -/
inductive UserList
  | friends
  | incoming
  | outgoing

omit [Tomcrypt κ] [UserTable τ κ] in
/-- The table of a list. -/
def UserList.table (psn : PsnT τ κ) : UserList → τ
  | .friends => psn.friends
  | .incoming => psn.friendRequestsIncoming
  | .outgoing => psn.friendRequestsOutgoing

/-- The names in an array of a document. -/
def namesIn (root : Option Json) (member : CStr) : List CStr :=
  (jsonArrayItems (jsonObjectGet root member)).filterMap fun obj =>
    jsonStringValue (jsonObjectGet (some obj) (lit "name"))

/-- The names for which an operation adds a record, and where. -/
def additions (J : Jansson) (p : Proc τ κ) : ApiOp κ → List (UserList × CStr)
  | .lists (.makeFriendReq target _ _) => if Ready p then [(.outgoing, target)] else []
  | .lists (.acceptFriendReq target _) =>
    if Ready p ∧ target ∈ keys p.psn.friendRequestsIncoming then [(.friends, target)] else []
  | .lists (.receive m) =>
    match frequestSource m.topic with
    | none => []
    | some source =>
      if source ∈ keys p.psn.friendRequestsIncoming ∨ source ∈ keys p.psn.friends then []
      else if source ∈ keys p.psn.friendRequestsOutgoing then [(.friends, source)]
      else [(.incoming, source)]
  | .deserializeConfig srcStr _ =>
    (namesIn (J.loads srcStr) (lit "friends")).map (Prod.mk .friends) ++
      (namesIn (J.loads srcStr) (lit "friendrqsinc")).map (Prod.mk .incoming) ++
      (namesIn (J.loads srcStr) (lit "friendrqsout")).map (Prod.mk .outgoing)
  | _ => []

/-- Every record that was added is found under exactly its name. -/
def FoundAgain (J : Jansson) (p : Proc τ κ) (op : ApiOp κ) : Prop :=
  ∀ o q, p.apiStep J op = some (o, q) → ∀ list name, (list, name) ∈ additions J p op →
    ∃ i, find (list.table q.psn) name = some i ∧ (record (list.table q.psn) i).name.1 = name

/-- The fields are not overrun: every copy of the operation fits, or it rejects its input. -/
structure FieldsSafe (J : Jansson) (p : Proc τ κ) (op : ApiOp κ) : Prop where
  fits : Within (copies J p op) ∨ Rejects J p op
  found : FoundAgain J p op

/-! ### Bounds -/

/-- If the string is there, it is shorter than `n`, and the rest of the document is within its
bounds. Behind a string that is missing nothing is copied. -/
def FitsThen (n : ℕ) (source : Option CStr) (rest : Prop) : Prop :=
  ∀ s, source = some s → s.length < n ∧ rest

/-- The bounds on the objects of an array. -/
def UsersFit (root : Option Json) : List Json → Prop → Prop
  | [], rest => rest
  | obj :: arr, rest =>
    FitsThen 32 (jsonStringValue (jsonObjectGet (some obj) (lit "name"))) <|
      FitsThen 32 (jsonStringValue (jsonObjectGet (some obj) (lit "shown_name"))) <|
        match jsonObjectGet (some obj) (lit "pubkey") with
        | none => UsersFit root arr rest
        | some _ => FitsThen 4097 (jsonStringValue (jsonObjectGet root (lit "pubkey")))
            (UsersFit root arr rest)

/-- The bounds on a document. -/
def DocumentFits (root : Option Json) : Prop :=
  FitsThen 32 (jsonStringValue (jsonObjectGet root (lit "username"))) <|
    FitsThen 256 (jsonStringValue (jsonObjectGet root (lit "hostname"))) <|
      UsersFit root (jsonArrayItems (jsonObjectGet root (lit "friends"))) <|
        UsersFit root (jsonArrayItems (jsonObjectGet root (lit "friendrqsinc"))) <|
          UsersFit root (jsonArrayItems (jsonObjectGet root (lit "friendrqsout"))) <|
            FitsThen 4097 (jsonStringValue (jsonObjectGet root (lit "privkey"))) True

/-- The bounds on an operation. -/
def Bounded (J : Jansson) (p : Proc τ κ) : ApiOp κ → Prop
  | .setServer hostname _ => hostname.length < 256
  | .setUsername username password => username.length < 32 ∧ password.length < 32
  | .setShownName shownName => shownName.length < 32
  | .lists (.makeFriendReq target _ _) => Ready p → target.length < 32
  | .lists (.receive m) => ∀ source, frequestSource m.topic = some source → source.length < 32
  | .sendEncryptedMessage target plainMessage prng _ =>
    ((encryptCall p.psn plainMessage).result prng).isSome →
      6 + p.psn.username.1.length + target.length < 128
  | .deserializeConfig srcStr _ => DocumentFits (J.loads srcStr)
  | _ => True

section Bounds

omit [Tomcrypt κ] [UserTable τ κ]

theorem within_nil : Within [] ↔ True := Iff.rfl

/-- A copy from a string that may be missing: then there is no copy, and the operation ends. -/
theorem within_source_cons {n : ℕ} {source : Option CStr} {cs : List Copy} :
    Within (⟨n, source⟩ :: cs) ↔ FitsThen n source (Within cs) := Iff.rfl

/-- The copies for each user of a list, and then the others. -/
theorem within_flatMap (root : Option Json) (arr : List Json) (cs : List Copy) :
    Within (arr.flatMap (userCopies root) ++ cs) ↔ UsersFit root arr (Within cs) := by
  induction arr with
  | nil => rfl
  | cons obj arr ih =>
    rw [List.flatMap_cons, userCopies, UsersFit]
    cases jsonObjectGet (some obj) (lit "pubkey") with
    | none => simp only [List.append_nil, List.cons_append, List.nil_append,
        within_source_cons, ih]
    | some _ => simp only [List.cons_append, List.nil_append, within_source_cons, ih]

/-- Making one copy twice is no more than making it once. -/
theorem fitsThen_self {n : ℕ} {source : Option CStr} {rest : Prop} :
    FitsThen n source (FitsThen n source rest) ↔ FitsThen n source rest := by
  constructor
  · intro h s hs
    exact (h s hs).2 s hs
  · intro h s hs
    exact ⟨(h s hs).1, h⟩

/-- A document fits when all its strings do, in the order in which they are copied. -/
theorem within_documentCopies (root : Option Json) :
    Within (documentCopies root) ↔ DocumentFits root := by
  simp only [documentCopies, List.append_assoc, List.cons_append, List.nil_append,
    within_source_cons, within_flatMap, fitsThen_self, within_nil]
  rfl

end Bounds

/-- **The copies of an operation.** They fit exactly within its bounds. Names that were found in a
list fit, and so do the topics that are built of them. -/
theorem within_iff_bounded (J : Jansson) (p : Proc τ κ) (op : ApiOp κ) :
    Within (copies J p op) ↔ Bounded J p op := by
  have hu := p.psn.username.2
  cases op with
  | setServer hostname port => simp [copies, Bounded, within_cons, within_nil]
  | setUsername username password =>
    simp only [copies, Bounded, within_cons, within_nil]
    tauto
  | setShownName shownName => simp [copies, Bounded, within_cons, within_nil]
  | connect io =>
    have husers := length_usersSub_lt p.psn.username
    have hchat := length_chatSub_lt p.psn.username
    rw [copies]
    split <;> simp [Bounded, within_cons, within_nil, husers, hchat]
  | sendEncryptedMessage target plainMessage prng io =>
    rw [copies]
    split
    · rename_i hsome
      simp [Bounded, within_cons, within_nil, length_chatTopic, hsome]
    · rename_i hnone
      simp [Bounded, within_nil, hnone]
  | deserializeConfig srcStr buf => exact within_documentCopies _
  | init | free | generateNewKey | disconnect | getFriendList | serializeConfig => exact Iff.rfl
  | lists op =>
    cases op with
    | makeFriendReq target message io =>
      rw [copies]
      split
      · rename_i hready
        simp only [Bounded, within_cons, within_nil, length_frequestTopic, hready]
        constructor
        · exact fun h _ => h.2.1
        · intro h
          have := h trivial
          exact ⟨by omega, this, this, trivial⟩
      · rename_i hready
        simp [Bounded, within_nil, hready]
    | acceptFriendReq target io =>
      rw [copies]
      split
      · rename_i hmem
        have htarget := length_lt_of_mem_keys hmem.2
        simp only [Bounded, within_cons, within_nil, length_frequestTopic, and_true, iff_true]
        omega
      · exact Iff.rfl
    | sendMessage target message io =>
      rw [copies]
      split
      · rename_i hmem
        have htarget := length_lt_of_mem_keys hmem.2
        simp only [Bounded, within_cons, within_nil, length_chatTopic, and_true, iff_true]
        omega
      · exact Iff.rfl
    | receive m =>
      rw [copies, Bounded]
      cases hsource : frequestSource m.topic with
      | none => simp [within_nil]
      | some source =>
        simp only
        split
        · rename_i hknown
          have hlen : source.length < 32 := hknown.elim length_lt_of_mem_keys length_lt_of_mem_keys
          simp [within_nil, hlen]
        · simp [within_cons, within_nil]
    | refuseFriendReq | deleteFriend => exact Iff.rfl

/-! ### The model of an operation -/

omit [Tomcrypt κ] [UserTable τ κ] in
/-- What was copied did fit. -/
theorem lt_of_strcpy {n : ℕ} {s : CStr} {f : Field n} (h : strcpy n (some s) = some f) :
    s.length < n := by
  obtain rfl := Option.some_inj.mp (strcpy_eq_some.mp h)
  exact f.2

omit [UserTable τ κ] in
/-- So did the name of a record, -/
theorem lt_of_callocUser {name : CStr} {u : User κ} (h : callocUser (some name) = some u) :
    name.length < 32 := by
  obtain ⟨field, hfield, -⟩ := Option.bind_eq_some_iff.mp h
  exact lt_of_strcpy hfield

/-- those of all users of a list, -/
theorem usersFit_of_deserializeUsers {root : Option Json} {mark : CStr} {arr : List Json}
    {rest : Prop} : ∀ {buf : Sized 2048} {t : τ} {r : Sized 2048 × τ × List Effect},
      deserializeUsers root mark arr buf t = some r → rest → UsersFit root arr rest := by
  induction arr with
  | nil => exact fun _ hrest => hrest
  | cons obj arr ih =>
    intro buf t r h hrest
    obtain ⟨⟨buf₁, new, warning⟩, hnew, h⟩ := Option.bind_eq_some_iff.mp h
    obtain ⟨⟨buf₂, t₂, effects⟩, hrec, -⟩ := Option.bind_eq_some_iff.mp h
    obtain ⟨name, hname, hnew⟩ := Option.bind_eq_some_iff.mp hnew
    obtain ⟨shownName, hshown, hnew⟩ := Option.bind_eq_some_iff.mp hnew
    have hih := ih hrec hrest
    intro s hs
    rw [hs] at hname
    refine ⟨lt_of_strcpy hname, fun s' hs' => ?_⟩
    rw [hs'] at hshown
    refine ⟨lt_of_strcpy hshown, ?_⟩
    cases hpubkey : jsonObjectGet (some obj) (lit "pubkey") with
    | none => exact hih
    | some value =>
      rw [hpubkey] at hnew
      obtain ⟨⟨buf', key⟩, hkey, -⟩ := Option.bind_eq_some_iff.mp hnew
      obtain ⟨hex, hhex, -⟩ := Option.bind_eq_some_iff.mp hkey
      intro s'' hs''
      rw [hs''] at hhex
      exact ⟨lt_of_strcpy hhex, hih⟩

/-- and all of a document that was loaded. -/
theorem documentFits_of_psnDeserializeConfig {J : Jansson} {psn : PsnT τ κ} {srcStr : CStr}
    {buf : Sized 2048} {r : PsnErr × PsnT τ κ × List Effect}
    (h : psnDeserializeConfig J psn srcStr buf = some r) : DocumentFits (J.loads srcStr) := by
  obtain ⟨username, husername, h⟩ := Option.bind_eq_some_iff.mp h
  obtain ⟨shownName, -, h⟩ := Option.bind_eq_some_iff.mp h
  obtain ⟨hostname, hhostname, h⟩ := Option.bind_eq_some_iff.mp h
  obtain ⟨⟨b₁, friends, e₁⟩, h₁, h⟩ := Option.bind_eq_some_iff.mp h
  obtain ⟨⟨b₂, incoming, e₂⟩, h₂, h⟩ := Option.bind_eq_some_iff.mp h
  obtain ⟨⟨b₃, outgoing, e₃⟩, h₃, h⟩ := Option.bind_eq_some_iff.mp h
  obtain ⟨⟨b₄, pkKey⟩, hkey, -⟩ := Option.bind_eq_some_iff.mp h
  obtain ⟨hex, hhex, -⟩ := Option.bind_eq_some_iff.mp hkey
  intro s hs
  rw [hs] at husername
  refine ⟨lt_of_strcpy husername, fun s' hs' => ?_⟩
  rw [hs'] at hhostname
  refine ⟨lt_of_strcpy hhostname, usersFit_of_deserializeUsers h₁
    (usersFit_of_deserializeUsers h₂ (usersFit_of_deserializeUsers h₃ fun s'' hs'' => ?_))⟩
  rw [hs''] at hhex
  exact ⟨lt_of_strcpy hhex, trivial⟩

/-- An operation that has a result was within its bounds. -/
theorem bounded_of_apiStep {J : Jansson} {p q : Proc τ κ} {op : ApiOp κ} {o : Output}
    (h : p.apiStep J op = some (o, q)) : Bounded J p op := by
  cases op with
  | setServer hostname port =>
    obtain ⟨r, hr, -⟩ := exists_reply h
    obtain ⟨field, hfield, -⟩ := Option.bind_eq_some_iff.mp hr
    exact lt_of_strcpy hfield
  | setUsername username password =>
    obtain ⟨r, hr, -⟩ := exists_reply h
    obtain ⟨field, hpassword, hr⟩ := Option.bind_eq_some_iff.mp hr
    obtain ⟨field', husername, -⟩ := Option.bind_eq_some_iff.mp hr
    exact ⟨lt_of_strcpy husername, lt_of_strcpy hpassword⟩
  | setShownName shownName =>
    obtain ⟨r, hr, -⟩ := exists_reply h
    obtain ⟨field, hfield, -⟩ := Option.bind_eq_some_iff.mp hr
    exact lt_of_strcpy hfield
  | sendEncryptedMessage target plainMessage prng io =>
    obtain ⟨r, hr, -⟩ := exists_reply h
    rw [psnSendEncryptedMessage_eq] at hr
    intro hsome
    obtain ⟨encrypted, hencrypted⟩ := Option.isSome_iff_exists.mp hsome
    rw [hencrypted] at hr
    obtain ⟨topic, htopic, -⟩ := Option.bind_eq_some_iff.mp hr
    have hlen := lt_of_strcpy htopic
    rwa [length_chatTopic] at hlen
  | deserializeConfig srcStr buf =>
    obtain ⟨r, hr, -⟩ := Option.map_eq_some_iff.mp h
    exact documentFits_of_psnDeserializeConfig hr
  | init | free | generateNewKey | connect | disconnect | getFriendList | serializeConfig =>
    exact trivial
  | lists op =>
    cases op with
    | makeFriendReq target message io =>
      obtain ⟨r, hr, -⟩ := exists_reply h
      intro hready
      rcases psnMakeFriendReq_eq_some hr with ⟨hnot, -⟩ | ⟨-, -, -, -, hinsert⟩
      · exact absurd hready hnot
      · obtain ⟨new, hnew, -⟩ := Option.bind_eq_some_iff.mp hinsert
        exact lt_of_callocUser hnew
    | receive m =>
      intro source hsource
      by_contra hlong
      have hnone := (psnMessageCallback_eq_none_iff p.psn m).mpr
        (Or.inr ⟨source, hsource, Nat.le_of_not_lt hlong⟩)
      obtain ⟨r, hr, -⟩ := Option.map_eq_some_iff.mp h
      rw [hnone] at hr
      cases hr
    | acceptFriendReq | refuseFriendReq | deleteFriend | sendMessage => exact trivial

/-! ### Records are found again -/

omit [Tomcrypt κ] in
/-- A record that is in a list is found under its name. -/
theorem foundAgain_of_mem {psn : PsnT τ κ} {list : UserList} {name : CStr}
    (h : name ∈ keys (list.table psn)) :
    ∃ i, find (list.table psn) name = some i ∧ (record (list.table psn) i).name.1 = name := by
  obtain ⟨i, hi⟩ := exists_find_of_mem h
  exact ⟨i, hi, key_record_of_find hi⟩

/-- Every user of the document is in the list. -/
theorem mem_keys_of_namesIn {root : Option Json} {mark member : CStr} {buf buf' : Sized 2048}
    {t t' : τ} {effects : List Effect} {name : CStr}
    (h : deserializeUsers root mark (jsonArrayItems (jsonObjectGet root member)) buf t =
      some (buf', t', effects)) (hname : name ∈ namesIn root member) : name ∈ keys t' := by
  obtain ⟨obj, hobj, hget⟩ := List.mem_filterMap.mp hname
  have hmem : some name ∈ (keys t').map some := by
    rw [keys_deserializeUsers h]
    exact List.mem_append_right _ (List.mem_map.mpr ⟨obj, hobj, hget⟩)
  obtain ⟨name', hname', heq⟩ := List.mem_map.mp hmem
  exact Option.some_inj.mp heq ▸ hname'

omit [UserTable τ κ] in
/-- A record has the name that was copied into it. -/
theorem key_of_callocUser {name : CStr} {u : User κ} (h : callocUser (some name) = some u) :
    u.name.1 = name :=
  (Option.some_inj.mp (callocUser_eq_some h).1).symm

/-- What an operation adds is found again. -/
theorem foundAgain (J : Jansson) (p : Proc τ κ) (op : ApiOp κ) : FoundAgain J p op := by
  intro o q h list name hadd
  apply foundAgain_of_mem
  cases op with
  | deserializeConfig srcStr buf =>
    obtain ⟨⟨err, psn, effects⟩, hr, heq⟩ := Option.map_eq_some_iff.mp h
    cases heq
    obtain ⟨-, b₁, b₂, b₃, e₁, e₂, e₃, h₁, h₂, h₃, -⟩ := psnDeserializeConfig_eq_some hr
    simp only [additions, List.mem_append, List.mem_map, Prod.mk.injEq] at hadd
    rcases hadd with (⟨n, hn, rfl, rfl⟩ | ⟨n, hn, rfl, rfl⟩) | ⟨n, hn, rfl, rfl⟩
    · exact mem_keys_of_namesIn h₁ hn
    · exact mem_keys_of_namesIn h₂ hn
    · exact mem_keys_of_namesIn h₃ hn
  | init | free | generateNewKey | connect | disconnect | setUsername | setShownName | setServer
  | getFriendList | sendEncryptedMessage | serializeConfig => cases hadd
  | lists op =>
    cases op with
    | makeFriendReq target message io =>
      obtain ⟨r, hr, -, rfl⟩ := exists_reply h
      rw [additions] at hadd
      split at hadd
      · rename_i hready
        cases List.mem_singleton.mp hadd
        rcases psnMakeFriendReq_eq_some hr with ⟨hnot, -⟩ | ⟨-, -, -, -, hinsert⟩
        · exact absurd hready hnot
        · obtain ⟨new, hnew, hpsn⟩ := Option.bind_eq_some_iff.mp hinsert
          have hname := key_of_callocUser hnew
          rw [← Option.some_inj.mp hpsn]
          simp [UserList.table, hname]
      · cases hadd
    | acceptFriendReq target io =>
      obtain ⟨r, hr, -, rfl⟩ := exists_reply h
      rw [additions] at hadd
      split at hadd
      · rename_i hmem
        cases List.mem_singleton.mp hadd
        rcases psnAcceptFriendReq_eq_some hr with ⟨hnot, -⟩ | ⟨-, hnot, -⟩ |
          ⟨inList, -, hfind, -, -, -, hpsn⟩
        · exact absurd hmem.1 hnot
        · exact absurd hmem.2 hnot
        · have hname := key_record_of_find hfind
          rw [key_user] at hname
          simp [UserList.table, hpsn, acceptFriendReqInsert, acceptFriendReqDelete, hname]
      · cases hadd
    | receive m =>
      obtain ⟨⟨psn, effects⟩, hr, heq⟩ := Option.map_eq_some_iff.mp h
      cases heq
      rw [additions] at hadd
      rcases psnMessageCallback_eq_some hr with hsource | ⟨_, _, _, htokens⟩ |
        ⟨source, hsource, hreceived⟩
      · simp [hsource] at hadd
      · have hsource : frequestSource m.topic = none := by simp [frequestSource, htokens]
        simp [hsource] at hadd
      · simp only [hsource] at hadd
        cases hreceived with
        | known hknown =>
          rw [if_pos hknown] at hadd
          cases hadd
        | accepted hi hf fromList ho new hnew =>
          rw [if_neg (by simp [hi, hf]), if_pos (mem_keys_of_find ho)] at hadd
          cases List.mem_singleton.mp hadd
          simp [UserList.table, key_of_callocUser hnew]
        | recorded hi hf ho new hnew =>
          rw [if_neg (by simp [hi, hf]), if_neg ho] at hadd
          cases List.mem_singleton.mp hadd
          simp [UserList.table, key_of_callocUser hnew]
    | refuseFriendReq | deleteFriend | sendMessage => cases hadd

/-! ### Safe operations -/

/-- **Fixed-size fields.** An operation leaves them intact exactly within its bounds: where a copy
does not fit, nothing rejects the input. -/
theorem fieldsSafe_iff_bounded (J : Jansson) (p : Proc τ κ) (op : ApiOp κ) :
    FieldsSafe J p op ↔ Bounded J p op := by
  constructor
  · rintro ⟨hwithin | ⟨o, ho, -⟩, -⟩
    · exact (within_iff_bounded J p op).mp hwithin
    · exact bounded_of_apiStep ho
  · exact fun h => ⟨Or.inl ((within_iff_bounded J p op).mpr h), foundAgain J p op⟩

/-- From any state, a use of the interface leaves the fields intact in each of its steps exactly if
each step is within its bounds. -/
theorem along_fieldsSafe_iff (J : Jansson) (p : Proc τ κ) (ops : List (ApiOp κ)) :
    Along (Proc.apiStep J) (FieldsSafe J) p ops ↔ Along (Proc.apiStep J) (Bounded J) p ops :=
  ⟨fun h => h.mono fun q op => (fieldsSafe_iff_bounded J q op).mp,
    fun h => h.mono fun q op => (fieldsSafe_iff_bounded J q op).mpr⟩

/-- A friend request from a name of 32 bytes. -/
def longRequest : Message := ⟨frequestTopic alice.bytes (List.replicate 32 97), []⟩

/-- A request from a name of 32 bytes overruns the fields of the record that is made for it. -/
theorem not_fieldsSafe_long :
    ¬Along (Proc.apiStep (asciiJansson .null)) (FieldsSafe (asciiJansson .null))
      (concreteProc alice).init [.lists (.receive longRequest)] := by
  intro h
  have hbounded := (fieldsSafe_iff_bounded _ _ _).mp h.1
  exact absurd (hbounded (List.replicate 32 97) (by decide)) (by decide)

end Psn

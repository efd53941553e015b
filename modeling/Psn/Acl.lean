import Mathlib.Tactic.Ring
import Psn.TopicMatch

/-!
# Access control

The broker has one list of access rights for each user that has some of his own, and a list of
patterns for all clients, in which `%c` stands for the name of the client and `%u` for that of the
user. Whoever has neither list to fear may do everything. A client whose own list does not let it
pass is checked against the patterns, one turn of a loop for each of them. For a client without a
user name a turn either starts over at the same pattern or takes the length of a name that is not
there.

## Scope

This is `mosquitto_acl_check_default` alone. The broker may have a plugin for access control in its
place, which is not modelled. What the patterns of the protocol come to is in `Psn.StaticAcl`, and
how rights are read from a file is in `Psn.AclFile`.

## Main definitions

* `mosquittoAclCheckDefault`: the check, `patternPass` one turn of its loop over the patterns
* `AclDb.Permits`: what it is for

## Main results

* `length_substitute`: the buffer for a pattern is as long as what is written into it
* `mosquittoAclCheckDefault_eq`: the check of a client with a user name
* `mosquittoAclCheckDefault_returns`: for whom the check comes to an end
-/

namespace Psn

/-- `%`. -/
def percent : UInt8 := 37

/-- `MOSQ_ACL_READ`. -/
def mosqAclRead : ℕ := 1

/-- `MOSQ_ACL_WRITE`. -/
def mosqAclWrite : ℕ := 2

/-- `struct _mosquitto_acl`. -/
structure Acl where
  /-- `topic`. -/
  topic : CStr
  /-- `access`, a set of bits. -/
  access : ℕ
  deriving DecidableEq

/-- `struct _mosquitto_acl_user`. -/
structure AclUser where
  /-- `username`, NULL for clients without one. -/
  username : Option CStr
  /-- `acl`. -/
  acl : List Acl
  deriving DecidableEq

/-- The access rights in `struct mosquitto_db`. -/
structure AclDb where
  /-- `acl_list`. -/
  aclList : List AclUser
  /-- `acl_patterns`. -/
  aclPatterns : List Acl
  deriving DecidableEq

/-- What the check reads of a client. -/
structure AclContext where
  /-- `id`. -/
  id : CStr
  /-- `username`, unless it is NULL. -/
  username : Option CStr
  /-- There is a `bridge`. -/
  bridge : Bool
  /-- `acl_list`, the entry for its user. -/
  aclList : Option AclUser

/-! ### Patterns -/

/-- The loop that counts how often `%` stands before the byte `c`. -/
def conversions (c : UInt8) : CStr → ℕ
  | x :: y :: s =>
    if x = percent ∧ y = c then conversions c s + 1 else conversions c (y :: s)
  | _ => 0

/-- The loop that copies a pattern, with the names in it. -/
def substitute (id username : CStr) : CStr → CStr
  | x :: y :: s =>
    if x = percent then
      if y = 99 then id ++ substitute id username s
      else if y = 117 then username ++ substitute id username s
      else x :: substitute id username (y :: s)
    else x :: substitute id username (y :: s)
  | s => s

/-- `len`, for which `local_acl` is allocated. -/
def localAclLen (id username topic : CStr) : ℤ :=
  topic.length + conversions 99 topic * ((id.length : ℤ) - 2) +
    conversions 117 topic * ((username.length : ℤ) - 2)

/-- `local_acl`. What is written must fill the buffer, and no more. -/
def localAcl (id username topic : CStr) : Option CStr :=
  if ((substitute id username topic).length : ℤ) = localAclLen id username topic then
    some (substitute id username topic)
  else none

theorem conversions_cons {c x : UInt8} (h : x ≠ percent) (s : CStr) :
    conversions c (x :: s) = conversions c s := by
  cases s with
  | nil => rfl
  | cons y s => rw [conversions, if_neg fun hand => h hand.1]

theorem conversions_percent {c x : UInt8} (h : x ≠ percent) (s : CStr) :
    conversions c (percent :: x :: s) =
      if x = c then conversions c s + 1 else conversions c s := by
  rw [conversions]
  by_cases hx : x = c
  · rw [if_pos ⟨rfl, hx⟩, if_pos hx]
  · rw [if_neg fun hand => hx hand.2, if_neg hx, conversions_cons h]

/-- **The buffer for a pattern is as long as what is written into it**, for every pattern and all
names. -/
theorem length_substitute (id username topic : CStr) :
    ((substitute id username topic).length : ℤ) = localAclLen id username topic := by
  rw [localAclLen]
  fun_induction substitute id username topic with
  | case1 s ih =>
    rw [List.length_append, conversions_percent (by decide), conversions_percent (by decide),
      if_pos rfl, if_neg (by decide)]
    push_cast
    rw [ih]
    simp only [List.length_cons]
    push_cast
    ring
  | case2 s hc ih =>
    rw [List.length_append, conversions_percent (by decide), conversions_percent (by decide),
      if_neg (by decide), if_pos rfl]
    push_cast
    rw [ih]
    simp only [List.length_cons]
    push_cast
    ring
  | case3 y s hc hu ih =>
    rw [List.length_cons, conversions, conversions, if_neg fun hand => hc hand.2,
      if_neg fun hand => hu hand.2]
    push_cast
    rw [ih]
    simp only [List.length_cons]
    push_cast
    ring
  | case4 x y s hx ih =>
    rw [List.length_cons, conversions_cons hx, conversions_cons hx]
    push_cast
    rw [ih]
    simp only [List.length_cons]
    push_cast
    ring
  | case5 s hs =>
    have hnone : ∀ c, conversions c s = 0 := by
      intro c
      rw [conversions]
      exact hs
    rw [hnone, hnone]
    simp

theorem localAcl_eq (id username topic : CStr) :
    localAcl id username topic = some (substitute id username topic) :=
  if_pos (length_substitute id username topic)

/-! ### The check -/

/-- The loop over the rights of the own user: whether one of them lets the client pass. There is no
result when the comparison leaves its result as it was. -/
def aclLoop (topic : CStr) (access : ℕ) : List Acl → Option Bool
  | [] => some false
  | acl :: rest =>
    if topic.head? = some dollar ∧ acl.topic.head? ≠ some dollar then aclLoop topic access rest
    else
      match mosquittoTopicMatchesSub acl.topic topic with
      | none => none
      | some result =>
        if result ∧ access &&& acl.access ≠ 0 then some true else aclLoop topic access rest

/-- Where one turn of the loop over the patterns leads to. -/
inductive PatternPass
  | returns (rc : MosqErr)
  | next (aclRoot : List Acl)

/-- One turn of the loop over the patterns. For a client without a user name, a pattern with `%u` in
it is skipped by `continue`, before the loop has moved on, and any other makes `strlen` read a NULL
pointer. -/
def patternPass (context : AclContext) (topic : CStr) (access : ℕ) :
    List Acl → Option PatternPass
  | [] => some (.returns .aclDenied)
  | acl :: rest =>
    if conversions 117 acl.topic ≠ 0 ∧ context.username = none then some (.next (acl :: rest))
    else
      match context.username with
      | none => none
      | some username =>
        match localAcl context.id username acl.topic with
        | none => none
        | some localTopic =>
          match mosquittoTopicMatchesSub localTopic topic with
          | none => none
          | some result =>
            if result ∧ access &&& acl.access ≠ 0 then some (.returns .success)
            else some (.next rest)

/-- The loop over the patterns, for that many turns. -/
def patternLoop (context : AclContext) (topic : CStr) (access : ℕ) :
    ℕ → List Acl → Option MosqErr
  | 0, _ => none
  | turns + 1, aclRoot =>
    match patternPass context topic access aclRoot with
    | none => none
    | some (.returns rc) => some rc
    | some (.next aclRoot) => patternLoop context topic access turns aclRoot

/-- `mosquitto_acl_check_default`, with at most `turns` turns of the loop over the patterns. -/
def mosquittoAclCheckDefault (turns : ℕ) (db : AclDb) (context : AclContext) (topic : CStr)
    (access : ℕ) : Option MosqErr :=
  if db.aclList = [] ∧ db.aclPatterns = [] then some .success
  else if context.bridge then some .success
  else if context.aclList = none ∧ db.aclPatterns = [] then some .aclDenied
  else
    match aclLoop topic access (context.aclList.elim [] AclUser.acl) with
    | none => none
    | some true => some .success
    | some false => patternLoop context topic access turns db.aclPatterns

/-! ### What it decides -/

/-- The right is for this kind of access and this topic. -/
def Acl.Grants (acl : Acl) (topic : CStr) (access : ℕ) : Prop :=
  mosquittoTopicMatchesSub acl.topic topic = some true ∧ access &&& acl.access ≠ 0

/-- The right that a pattern stands for. -/
def Acl.instantiate (id username : CStr) (acl : Acl) : Acl :=
  { acl with topic := substitute id username acl.topic }

/-- The own list of a client lets it pass. -/
def AclContext.Owns (context : AclContext) (topic : CStr) (access : ℕ) : Prop :=
  ∃ user ∈ context.aclList, ∃ acl ∈ user.acl, acl.Grants topic access

/-- A client with this user name has access. -/
def AclDb.Permits (db : AclDb) (context : AclContext) (username topic : CStr) (access : ℕ) : Prop :=
  (db.aclList = [] ∧ db.aclPatterns = []) ∨ context.bridge = true ∨ context.Owns topic access ∨
    ∃ acl ∈ db.aclPatterns, (acl.instantiate context.id username).Grants topic access

/-- The loop has a result unless both strings are empty. -/
theorem exists_topicMatchesLoop {sub topic : CStr} (h : sub ≠ [] ∨ topic ≠ []) :
    ∃ b, topicMatchesLoop sub topic = some b := by
  induction sub generalizing topic with
  | nil =>
    cases topic with
    | nil => exact absurd rfl (h.resolve_left fun hne => hne rfl)
    | cons t topic => exact ⟨false, rfl⟩
  | cons s sub ih =>
    cases topic with
    | nil => exact ⟨false, rfl⟩
    | cons t topic =>
      rw [topicMatchesLoop]
      dsimp only
      have hrest : ∀ {topic' : CStr}, ¬(topic' = [] ∧ sub = []) →
          ∃ b, topicMatchesLoop sub topic' = some b := fun hne =>
        ih (by by_contra hor; exact hne (by simpa [and_comm] using hor))
      split
      · split
        · exact ⟨true, rfl⟩
        · rename_i hne
          split
          · exact ⟨true, rfl⟩
          · exact hrest fun hand => hne ⟨hand.1, .inl hand.2⟩
      · split
        · split
          · exact ⟨true, rfl⟩
          · rename_i hne
            split
            · exact ⟨true, rfl⟩
            · exact hrest hne
        · split
          · exact ⟨_, rfl⟩
          · exact ⟨false, rfl⟩

theorem exists_mosquittoTopicMatchesSub (sub : CStr) {topic : CStr} (h : topic ≠ []) :
    ∃ b, mosquittoTopicMatchesSub sub topic = some b := by
  rw [mosquittoTopicMatchesSub]
  split
  · exact ⟨false, rfl⟩
  · exact exists_topicMatchesLoop (.inr h)

/-- A right is for topics with a `$` in front only if it has one. -/
theorem Acl.Grants.dollar {acl : Acl} {topic : CStr} {access : ℕ} (h : acl.Grants topic access)
    (hne : topic ≠ []) (htopic : topic.head? = some dollar) : acl.topic.head? = some dollar := by
  by_contra hacl
  have hmatch := h.1
  by_cases hempty : acl.topic = []
  · rw [mosquittoTopicMatchesSub, if_neg fun hand => hand.1.1 hempty, hempty] at hmatch
    obtain ⟨t, topic, rfl⟩ := List.exists_cons_of_ne_nil hne
    exact absurd (Option.some.inj hmatch) (by decide)
  · rw [mosquittoTopicMatchesSub, if_pos ⟨⟨hempty, hne⟩, .inr ⟨htopic, hacl⟩⟩] at hmatch
    exact absurd (Option.some.inj hmatch) (by decide)

section Loops

variable {context : AclContext} {topic : CStr} (access : ℕ)

theorem aclLoop_eq (hne : topic ≠ []) (acls : List Acl) :
    ∃ b, aclLoop topic access acls = some b ∧
      (b = true ↔ ∃ acl ∈ acls, acl.Grants topic access) := by
  induction acls with
  | nil => exact ⟨false, rfl, by simp⟩
  | cons acl acls ih =>
    obtain ⟨b, hb, hiff⟩ := ih
    rw [aclLoop]
    by_cases hdollar : topic.head? = some dollar ∧ acl.topic.head? ≠ some dollar
    · have hnot : ¬acl.Grants topic access := fun h => hdollar.2 (h.dollar hne hdollar.1)
      exact ⟨b, by rw [if_pos hdollar, hb], by simp [hiff, hnot]⟩
    · obtain ⟨result, hresult⟩ := exists_mosquittoTopicMatchesSub acl.topic hne
      rw [if_neg hdollar, hresult]
      dsimp only
      by_cases hgrants : result = true ∧ access &&& acl.access ≠ 0
      · have hyes : acl.Grants topic access := ⟨by rw [hresult, hgrants.1], hgrants.2⟩
        exact ⟨true, if_pos hgrants, by simp [hyes]⟩
      · have hnot : ¬acl.Grants topic access := fun h =>
          hgrants ⟨Option.some.inj (hresult.symm.trans h.1), h.2⟩
        exact ⟨b, by rw [if_neg hgrants, hb], by simp [hiff, hnot]⟩

/-- The loop over the rights of the own user. -/
theorem aclLoop_own (context : AclContext) (hne : topic ≠ []) :
    ∃ b, aclLoop topic access (context.aclList.elim [] AclUser.acl) = some b ∧
      (b = true ↔ context.Owns topic access) := by
  obtain ⟨b, hb, hiff⟩ := aclLoop_eq access hne (context.aclList.elim [] AclUser.acl)
  refine ⟨b, hb, hiff.trans ?_⟩
  rw [AclContext.Owns]
  cases context.aclList with
  | none => simp
  | some user => simp

/-- One turn, for a client with a user name. -/
theorem patternPass_cons {username : CStr} (huser : context.username = some username)
    (hne : topic ≠ []) (acl : Acl) (rest : List Acl) :
    ((acl.instantiate context.id username).Grants topic access ∧
        patternPass context topic access (acl :: rest) = some (.returns .success)) ∨
      (¬(acl.instantiate context.id username).Grants topic access ∧
        patternPass context topic access (acl :: rest) = some (.next rest)) := by
  obtain ⟨result, hresult⟩ :=
    exists_mosquittoTopicMatchesSub (substitute context.id username acl.topic) hne
  rw [patternPass, if_neg fun hand => absurd (hand.2.symm.trans huser) (Option.some_ne_none _).symm,
    huser]
  dsimp only
  rw [localAcl_eq]
  dsimp only
  rw [hresult]
  dsimp only
  by_cases hgrants : result = true ∧ access &&& acl.access ≠ 0
  · exact .inl ⟨⟨hresult.trans (by rw [hgrants.1]), hgrants.2⟩, if_pos hgrants⟩
  · refine .inr ⟨fun h => hgrants ⟨?_, h.2⟩, if_neg hgrants⟩
    exact Option.some.inj (hresult.symm.trans h.1)

/-- The loop over the patterns, for a client with a user name. -/
theorem patternLoop_eq {username : CStr} (huser : context.username = some username)
    (hne : topic ≠ []) {turns : ℕ} {acls : List Acl} (hturns : acls.length < turns) :
    ∃ rc, patternLoop context topic access turns acls = some rc ∧
      (rc = .success ∨ rc = .aclDenied) ∧
        (rc = .success ↔
          ∃ acl ∈ acls, (acl.instantiate context.id username).Grants topic access) := by
  induction acls generalizing turns with
  | nil =>
    obtain ⟨turns, rfl⟩ := Nat.exists_eq_add_of_lt hturns
    exact ⟨.aclDenied, rfl, .inr rfl, by simp⟩
  | cons acl acls ih =>
    obtain ⟨turns, rfl⟩ : ∃ k, turns = k + 1 := ⟨turns - 1, by omega⟩
    rw [patternLoop]
    rcases patternPass_cons access huser hne acl acls with ⟨hgrants, hpass⟩ | ⟨hnot, hpass⟩
    · exact ⟨.success, by rw [hpass], .inl rfl, by simp [hgrants]⟩
    · obtain ⟨rc, hrc, hor, hiff⟩ := ih (Nat.lt_of_succ_lt_succ hturns)
      exact ⟨rc, by rw [hpass]; exact hrc, hor, by simp [hiff, hnot]⟩

/-- The loop over the patterns, for a client without one. -/
theorem patternLoop_none (huser : context.username = none) (turns : ℕ) (acl : Acl)
    (rest : List Acl) : patternLoop context topic access turns (acl :: rest) = none := by
  induction turns with
  | zero => rfl
  | succ turns ih =>
    rw [patternLoop, patternPass]
    by_cases hcount : conversions 117 acl.topic ≠ 0
    · rw [if_pos ⟨hcount, huser⟩]
      exact ih
    · rw [if_neg fun hand => hcount hand.1, huser]

end Loops

/-- **The check of a client with a user name.** Enough turns for the patterns end it, and it lets
the client pass if and only if the client has access. -/
theorem mosquittoAclCheckDefault_eq {db : AclDb} {context : AclContext} {username topic : CStr}
    (access : ℕ) {turns : ℕ} (huser : context.username = some username) (hne : topic ≠ [])
    (hturns : db.aclPatterns.length < turns) :
    ∃ rc, mosquittoAclCheckDefault turns db context topic access = some rc ∧
      (rc = .success ∨ rc = .aclDenied) ∧
        (rc = .success ↔ db.Permits context username topic access) := by
  rw [mosquittoAclCheckDefault, AclDb.Permits]
  by_cases hnone : db.aclList = [] ∧ db.aclPatterns = []
  · exact ⟨.success, if_pos hnone, .inl rfl, iff_of_true rfl (.inl hnone)⟩
  rw [if_neg hnone]
  by_cases hbridge : context.bridge = true
  · exact ⟨.success, if_pos hbridge, .inl rfl, iff_of_true rfl (.inr (.inl hbridge))⟩
  rw [if_neg hbridge]
  by_cases hempty : context.aclList = none ∧ db.aclPatterns = []
  · refine ⟨.aclDenied, if_pos hempty, .inr rfl, iff_of_false (by simp) ?_⟩
    rintro (h | h | ⟨user, huser, -⟩ | ⟨acl, hacl, -⟩)
    · exact hnone h
    · exact hbridge h
    · rw [hempty.1] at huser
      cases huser
    · rw [hempty.2] at hacl
      cases hacl
  rw [if_neg hempty]
  obtain ⟨b, hb, hown⟩ := aclLoop_own access context hne
  rw [hb]
  cases b with
  | true =>
    exact ⟨.success, rfl, .inl rfl, iff_of_true rfl (.inr (.inr (.inl (hown.mp rfl))))⟩
  | false =>
    obtain ⟨rc, hrc, hor, hiff⟩ := patternLoop_eq access huser hne hturns
    refine ⟨rc, hrc, hor, hiff.trans ⟨fun h => .inr (.inr (.inr h)), ?_⟩⟩
    rintro (h | h | h | h)
    · exact absurd h hnone
    · exact absurd h hbridge
    · cases hown.mpr h
    · exact h

/-- A list of patterns. -/
def patternDb : AclDb := ⟨[], [⟨lit "chat/%u/#", mosqAclWrite⟩]⟩

/-- A client. -/
def bobContext : AclContext := ⟨lit "bob", some (lit "bob"), false, none⟩

example : mosquittoAclCheckDefault 2 patternDb bobContext (lit "chat/bob/alice") mosqAclWrite =
    some .success := by decide

/-- **For whom the check comes to an end.** It does for a client with a user name, and for any
client when there are no patterns, when it is a bridge, and when its own list lets it pass. For
every other the loop over the patterns does not get past the first of them. -/
theorem mosquittoAclCheckDefault_returns {db : AclDb} {context : AclContext} {topic : CStr}
    (access : ℕ) (hne : topic ≠ []) :
    (∃ turns rc, mosquittoAclCheckDefault turns db context topic access = some rc) ↔
      context.username ≠ none ∨ db.aclPatterns = [] ∨ context.bridge = true ∨
        context.Owns topic access := by
  cases huser : context.username with
  | some username =>
    obtain ⟨rc, hrc, -⟩ := mosquittoAclCheckDefault_eq access huser hne
      (Nat.lt_succ_self db.aclPatterns.length)
    exact iff_of_true ⟨_, rc, hrc⟩ (.inl (Option.some_ne_none username))
  | none =>
    rw [or_iff_right fun h => h rfl]
    obtain ⟨b, hb, hown⟩ := aclLoop_own access context hne
    constructor
    · rintro ⟨turns, rc, hrc⟩
      by_contra hnot
      obtain ⟨hpatterns, hnot⟩ := not_or.mp hnot
      obtain ⟨hbridge, hnot⟩ := not_or.mp hnot
      obtain ⟨acl, rest, hacls⟩ := List.exists_cons_of_ne_nil hpatterns
      rw [mosquittoAclCheckDefault, if_neg fun hand => hpatterns hand.2, if_neg hbridge,
        if_neg fun hand => hpatterns hand.2, hb, hacls] at hrc
      cases b with
      | true => exact hnot (hown.mp rfl)
      | false =>
        rw [patternLoop_none access huser] at hrc
        cases hrc
    · intro h
      refine ⟨1, ?_⟩
      rw [mosquittoAclCheckDefault]
      split
      · exact ⟨_, rfl⟩
      split
      · exact ⟨_, rfl⟩
      split
      · exact ⟨_, rfl⟩
      rename_i hbridge _
      rw [hb]
      cases b with
      | true => exact ⟨_, rfl⟩
      | false =>
        have hpatterns : db.aclPatterns = [] := by
          rcases h with h | h | h
          · exact h
          · exact absurd h hbridge
          · cases hown.mpr h
        rw [hpatterns]
        exact ⟨_, rfl⟩

theorem mosquittoAclCheckDefault_returns_anonymous :
    ¬∃ turns rc, mosquittoAclCheckDefault turns patternDb ⟨lit "bob", none, false, none⟩
      (lit "chat/bob/alice") mosqAclWrite = some rc := by
  have hne : lit "chat/bob/alice" ≠ [] := List.cons_ne_nil _ _
  rw [mosquittoAclCheckDefault_returns mosqAclWrite hne]
  rintro (h | h | h | ⟨user, huser, -⟩)
  · exact h rfl
  · exact absurd h (List.cons_ne_nil _ _)
  · cases h
  · cases huser

end Psn

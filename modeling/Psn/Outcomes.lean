import Psn.Friends

/-!
# What one call does

Inversion and totality of the functions of `Psn.Friends`. Each function gets one statement that
says everything a call of it can do, and the runs of the later files are reasoned about through
these statements.

## Main results

* `frequestCallback_eq_some`, `psnMessageCallback_eq_some`: the outcomes of a callback
* `exists_received`: a friend request from a name that fits is always handled
* `psnMakeFriendReq_eq_some`, `psnAcceptFriendReq_eq_some`: the outcomes of the two calls that
  publish
* `psnRefuseFriendReq_eq`, `psnDeleteFriend_eq`: the outcomes of the two calls that unlink
* `psnSendMessage_eq_some`, `psnSendEncryptedMessage_eq_some`: the outcomes of the two calls that
  send
-/

namespace Psn

open KeyedChain Tomcrypt

variable {τ κ : Type} [Tomcrypt κ] [UserTable τ κ]

/-! ### Records -/

/-- A new record has the name as both of its names, and no key. -/
theorem callocUser_eq_some {name : Option CStr} {u : User κ} (h : callocUser name = some u) :
    name = some u.name.1 ∧ u.shownName = u.name ∧ u.pubKey = zero := by
  simp only [callocUser, Option.bind_eq_bind, Option.pure_def] at h
  obtain ⟨field, hfield, h⟩ := Option.bind_eq_some_iff.mp h
  obtain ⟨shownName, hshown, h⟩ := Option.bind_eq_some_iff.mp h
  obtain rfl := Option.some_inj.mp h
  rw [strcpy_eq_some] at hfield hshown
  refine ⟨hfield, ?_, rfl⟩
  rw [hfield, Option.some_inj] at hshown
  exact Subtype.ext hshown.symm

/-- There is one for every name that fits. -/
theorem callocUser_of_lt {name : CStr} (h : name.length < 32) :
    callocUser (some name) = some (⟨⟨name, h⟩, ⟨name, h⟩, zero⟩ : User κ) := by
  simp [callocUser, strcpy_of_lt h]

/-- `strcpy` from NULL is undefined. -/
theorem callocUser_null : callocUser (κ := κ) none = none := by simp [callocUser]

/-! ### Incoming friend requests -/

/-- What handling a friend request from `source` can do. -/
inductive Received (psn : PsnT τ κ) (source : CStr) : PsnT τ κ → List Effect → Prop
  /-- The source waits for an answer or is a friend: the request is dropped. -/
  | known (h : source ∈ keys psn.friendRequestsIncoming ∨ source ∈ keys psn.friends) :
      Received psn source psn []
  /-- The source was asked: one record leaves the outgoing list, a new one joins the friends. -/
  | accepted (hi : source ∉ keys psn.friendRequestsIncoming) (hf : source ∉ keys psn.friends)
      (fromList : Fin (items psn.friendRequestsOutgoing).length)
      (ho : find psn.friendRequestsOutgoing source = some fromList)
      (new : User κ) (hnew : callocUser (some source) = some new) :
      Received psn source
        { psn with
          friendRequestsOutgoing := del psn.friendRequestsOutgoing fromList
          friends := add psn.friends new }
        [.print (.requestAccepted new.name.1)]
  /-- The source is in no list: a new record joins the incoming list. -/
  | recorded (hi : source ∉ keys psn.friendRequestsIncoming) (hf : source ∉ keys psn.friends)
      (ho : source ∉ keys psn.friendRequestsOutgoing)
      (new : User κ) (hnew : callocUser (some source) = some new) :
      Received psn source
        { psn with friendRequestsIncoming := add psn.friendRequestsIncoming new }
        [.print (.requestReceived new.name.1)]

/-- The frequest branch, once the two fixed levels are what they have to be. -/
theorem frequestCallback_of_levels (psn : PsnT τ κ) (source : CStr) :
    frequestCallback psn (some (lit "users")) (some (lit "frequest")) (some source) =
      if (find psn.friendRequestsIncoming source).isSome then some (psn, [])
      else if (find psn.friends source).isSome then some (psn, [])
      else
        match find psn.friendRequestsOutgoing source with
        | some fromList => (callocUser (some source)).map fun new =>
          ({ psn with
              friendRequestsOutgoing := del psn.friendRequestsOutgoing fromList
              friends := add psn.friends new }, [.print (.requestAccepted new.name.1)])
        | none => (callocUser (some source)).map fun new =>
          ({ psn with friendRequestsIncoming := add psn.friendRequestsIncoming new },
            [.print (.requestReceived new.name.1)]) := by
  simp only [frequestCallback, strcmpEq_some, hashFindStr]
  cases hi : find psn.friendRequestsIncoming source with
  | some p => simp
  | none =>
    cases hf : find psn.friends source with
    | some p => simp
    | none =>
      cases ho : find psn.friendRequestsOutgoing source with
      | some p => cases callocUser (κ := κ) (some source) <;> simp
      | none => cases callocUser (κ := κ) (some source) <;> simp

/-- A NULL source passes the lookups in empty tables, but not `strcpy`. -/
theorem frequestCallback_null (psn : PsnT τ κ) :
    frequestCallback psn (some (lit "users")) (some (lit "frequest")) none = none := by
  simp only [frequestCallback, strcmpEq_some, hashFindStr, callocUser_null]
  cases (items psn.friendRequestsIncoming).isEmpty with
  | false => simp
  | true =>
    cases (items psn.friends).isEmpty with
    | false => simp
    | true => cases (items psn.friendRequestsOutgoing).isEmpty <;> simp

/-- With a source that is there, the callback is `Received`. -/
theorem received_of_frequestCallback {psn psn' : PsnT τ κ} {source : CStr}
    {effects : List Effect}
    (h : frequestCallback psn (some (lit "users")) (some (lit "frequest")) (some source) =
      some (psn', effects)) : Received psn source psn' effects := by
  rw [frequestCallback_of_levels] at h
  by_cases hi : source ∈ keys psn.friendRequestsIncoming
  · rw [if_pos (find_isSome_iff.mpr hi)] at h
    cases h
    exact .known (Or.inl hi)
  rw [if_neg (mt find_isSome_iff.mp hi)] at h
  by_cases hf : source ∈ keys psn.friends
  · rw [if_pos (find_isSome_iff.mpr hf)] at h
    cases h
    exact .known (Or.inr hf)
  rw [if_neg (mt find_isSome_iff.mp hf)] at h
  cases ho : find psn.friendRequestsOutgoing source with
  | some fromList =>
    rw [ho] at h
    obtain ⟨new, hnew, heq⟩ := Option.map_eq_some_iff.mp h
    cases heq
    exact .accepted hi hf fromList ho new hnew
  | none =>
    rw [ho] at h
    obtain ⟨new, hnew, heq⟩ := Option.map_eq_some_iff.mp h
    cases heq
    exact .recorded hi hf (find_eq_none_iff.mp ho) new hnew

/-- A friend request is handled whenever its source fits a name field. -/
theorem exists_received (psn : PsnT τ κ) {source : CStr} (h : source.length < 32) :
    ∃ psn' effects, frequestCallback psn (some (lit "users")) (some (lit "frequest"))
      (some source) = some (psn', effects) := by
  rw [frequestCallback_of_levels, callocUser_of_lt h]
  split
  · exact ⟨_, _, rfl⟩
  split
  · exact ⟨_, _, rfl⟩
  split <;> exact ⟨_, _, rfl⟩

/-- The outcomes of the frequest branch: the topic is of another kind and nothing happens, or
both fixed levels match and there is a source, whose request is handled. -/
theorem frequestCallback_eq_some {psn psn' : PsnT τ κ} {t₀ t₂ t₃ : Option CStr}
    {effects : List Effect} (h : frequestCallback psn t₀ t₂ t₃ = some (psn', effects)) :
    (psn' = psn ∧ effects = [] ∧ ¬(t₀ = some (lit "users") ∧ t₂ = some (lit "frequest"))) ∨
      ∃ source, t₀ = some (lit "users") ∧ t₂ = some (lit "frequest") ∧ t₃ = some source ∧
        Received psn source psn' effects := by
  match t₀, t₂, t₃ with
  | none, _, _ => simp [frequestCallback] at h
  | some a, t₂, t₃ =>
    by_cases ha : a = lit "users"
    · match t₂, t₃ with
      | none, _ => simp [frequestCallback, ha] at h
      | some b, t₃ =>
        by_cases hb : b = lit "frequest"
        · subst ha hb
          cases t₃ with
          | some source => exact Or.inr ⟨source, rfl, rfl, rfl, received_of_frequestCallback h⟩
          | none =>
            rw [frequestCallback_null] at h
            cases h
        · simp only [frequestCallback, ha, hb, strcmpEq_some] at h
          simp only [decide_true, decide_false, Bool.not_true, Bool.not_false, if_true, if_false,
            Bool.false_eq_true, Option.bind_eq_bind, Option.bind_some, Option.pure_def,
            Option.some.injEq, Prod.mk.injEq] at h
          exact Or.inl ⟨h.1.symm, h.2.symm, by simp [hb]⟩
    · simp only [frequestCallback, ha, strcmpEq_some] at h
      simp only [decide_false, Bool.not_false, if_true, Option.bind_eq_bind, Option.bind_some,
        Option.pure_def, Option.some.injEq, Prod.mk.injEq] at h
      exact Or.inl ⟨h.1.symm, h.2.symm, by simp [ha]⟩

/-! ### Incoming messages of any kind -/

/-- The source of the friend request that a topic stands for, if it stands for one. -/
def frequestSource (topic : CStr) : Option CStr :=
  match subTopicTokenise topic with
  | [t₀, _, t₂, t₃] => if t₀ = some (lit "users") ∧ t₂ = some (lit "frequest") then t₃ else none
  | _ => none

/-- The source of a request is read off its topic. -/
@[simp] theorem frequestSource_frequestTopic (target source : UserName) :
    frequestSource (frequestTopic target.bytes source.bytes) = some source.bytes := by
  simp [frequestSource, tokenise_frequestTopic]

/-- What `psn_message_callback` can do with a message. -/
inductive Handled (psn : PsnT τ κ) (m : Message) : PsnT τ κ → List Effect → Prop
  /-- The message is ignored. -/
  | ignored (h : frequestSource m.topic = none) : Handled psn m psn []
  /-- A chat message of a friend is displayed. -/
  | displayed (sender : CStr) (hf : sender ∈ keys psn.friends) (hpayload : m.payload ≠ [])
      (htopic : subTopicTokenise m.topic =
        [some (lit "chat"), some sender, some psn.username.1]) :
      Handled psn m psn [.print (.message sender (m.payload.takeWhile (· ≠ 0)))]
  /-- A friend request is handled. -/
  | frequest {psn' : PsnT τ κ} {effects : List Effect} (source : CStr)
      (hsource : frequestSource m.topic = some source)
      (h : Received psn source psn' effects) : Handled psn m psn' effects

omit [Tomcrypt κ] in
/-- A chat message is displayed, or nothing happens. -/
theorem chatCallback_eq_some {psn : PsnT τ κ} {t₀ t₁ t₂ : Option CStr} {payload : Bytes}
    {effects : List Effect} (h : chatCallback psn t₀ t₁ t₂ payload = some effects) :
    effects = [] ∨ ∃ sender, t₀ = some (lit "chat") ∧ t₁ = some sender ∧
      t₂ = some psn.username.1 ∧ payload ≠ [] ∧ sender ∈ keys psn.friends ∧
      effects = [.print (.message sender (payload.takeWhile (· ≠ 0)))] := by
  match t₀, t₂ with
  | none, _ => simp [chatCallback] at h
  | some a, t₂ =>
    by_cases ha : a = lit "chat"
    swap
    · exact Or.inl (by simpa [chatCallback, ha] using h.symm)
    match t₂ with
    | none => simp [chatCallback, ha] at h
    | some c =>
      by_cases hc : c = psn.username.1
      swap
      · exact Or.inl (by simpa [chatCallback, ha, hc] using h.symm)
      by_cases hpayload : payload = []
      · exact Or.inl (by simpa [chatCallback, ha, hc, hpayload] using h.symm)
      cases t₁ with
      | none =>
        -- a NULL sender is not looked up in an empty table, and is found in no table
        cases hf : (items psn.friends).isEmpty with
        | true =>
          exact Or.inl (by simpa [chatCallback, ha, hc, hpayload, hashFindStr, hf] using h.symm)
        | false => simp [chatCallback, ha, hc, hpayload, hashFindStr, hf] at h
      | some sender =>
        cases hf : find psn.friends sender with
        | none =>
          exact Or.inl (by simpa [chatCallback, ha, hc, hpayload, hashFindStr, hf] using h.symm)
        | some p =>
          refine Or.inr ⟨sender, by rw [ha], rfl, by rw [hc], hpayload, mem_keys_of_find hf, ?_⟩
          simpa [chatCallback, ha, hc, hpayload, hashFindStr, hf] using h.symm

/-- **The outcomes of a callback.** -/
theorem psnMessageCallback_eq_some {psn psn' : PsnT τ κ} {m : Message} {effects : List Effect}
    (h : psnMessageCallback psn m = some (psn', effects)) : Handled psn m psn' effects := by
  rw [psnMessageCallback] at h
  split at h
  · rename_i t₀ t₁ t₂ htokens
    obtain ⟨es, hes, heq⟩ := Option.map_eq_some_iff.mp h
    cases heq
    rcases chatCallback_eq_some hes with rfl | ⟨sender, rfl, rfl, rfl, hpayload, hf, rfl⟩
    · exact .ignored (by simp [frequestSource, htokens])
    · exact .displayed sender hf hpayload htokens
  · rename_i t₀ t₁ t₂ t₃ htokens
    rcases frequestCallback_eq_some h with ⟨rfl, rfl, hne⟩ | ⟨source, rfl, rfl, rfl, hr⟩
    · exact .ignored (by simp only [frequestSource, htokens]; exact if_neg hne)
    · exact .frequest source (by simp [frequestSource, htokens]) hr
  · rename_i hthree hfour
    cases h
    refine .ignored ?_
    rw [frequestSource]
    split
    · rename_i htokens
      exact absurd htokens (hfour _ _ _ _)
    · rfl

/-- A well-formed friend request is always handled. -/
theorem exists_psnMessageCallback (psn : PsnT τ κ) (target source : UserName) (payload : Bytes) :
    ∃ psn' effects, psnMessageCallback psn ⟨frequestTopic target.bytes source.bytes, payload⟩ =
      some (psn', effects) := by
  rw [psnMessageCallback, tokenise_frequestTopic]
  exact exists_received psn (Nat.lt_succ_of_le source.length_le)

/-! ### Calls that publish -/

/-- The checks that `psn_make_friend_req` and `psn_accept_friend_req` begin with pass. -/
def Ready (p : Proc τ κ) : Prop := p.psn.mosq ≠ none ∧ p.connected = true

instance (p : Proc τ κ) : Decidable (Ready p) := inferInstanceAs (Decidable (_ ∧ _))

omit [Tomcrypt κ] [UserTable τ κ] in
/-- A call that begins with the two checks: one of them fails and nothing happens, or the call goes
on. -/
theorem checks_eq_some {p : Proc τ κ} {rest : Option (Reply τ κ)} {r : Reply τ κ}
    (h : (if p.psn.mosq = none then some ⟨.fail, p, []⟩
      else if p.connected = false then some ⟨.notConnected, p, [.print .notConnected]⟩
      else rest) = some r) :
    (¬Ready p ∧ r.proc = p ∧ r.err ≠ .success ∧ ∀ e ∈ r.effects, e = .print .notConnected) ∨
      (Ready p ∧ rest = some r) := by
  by_cases hmosq : p.psn.mosq = none
  · rw [if_pos hmosq] at h
    cases h
    exact Or.inl ⟨fun hr => hr.1 hmosq, rfl, by simp, by simp⟩
  rw [if_neg hmosq] at h
  by_cases hconn : p.connected = false
  · rw [if_pos hconn] at h
    cases h
    exact Or.inl ⟨fun hr => by simp [hr.2] at hconn, rfl, by simp, by simp⟩
  rw [if_neg hconn] at h
  exact Or.inr ⟨⟨hmosq, by simpa using hconn⟩, h⟩

/-- The outcomes of `psn_make_friend_req`: a check fails and nothing happens, or the request is
published and recorded. -/
theorem psnMakeFriendReq_eq_some {p : Proc τ κ} {target message : CStr} {io : PublishIo}
    {r : Reply τ κ} (h : psnMakeFriendReq p target message io = some r) :
    (¬Ready p ∧ r.proc = p ∧ r.err ≠ .success ∧ ∀ e ∈ r.effects, e = .print .notConnected) ∨
      (Ready p ∧ r.err = .success ∧ r.proc.connected = p.connected ∧
        makeFriendReqPublish p.psn target message io = some r.effects ∧
        makeFriendReqInsert p.psn target = some r.proc.psn) := by
  rcases checks_eq_some h with hfails | ⟨hready, h⟩
  · exact Or.inl hfails
  obtain ⟨published, hpub, h⟩ := Option.bind_eq_some_iff.mp h
  obtain ⟨psn, hins, h⟩ := Option.bind_eq_some_iff.mp h
  cases h
  exact Or.inr ⟨hready, rfl, rfl, hpub, hins⟩

omit [Tomcrypt κ] [UserTable τ κ] in
/-- What is published, where the topic fits its buffer. -/
theorem makeFriendReqPublish_eq_some {psn : PsnT τ κ} {target message : CStr} {io : PublishIo}
    {effects : List Effect} (h : makeFriendReqPublish psn target message io = some effects) :
    effects = (mosquittoPublish psn.mosq (frequestTopic target psn.username.1)
      (intOfSize message.length) message io).2 := by
  obtain ⟨topic, htopic, h⟩ := Option.bind_eq_some_iff.mp h
  rw [← Option.some_inj.mp h, ← sprintf_eq_some.mp htopic]

omit [Tomcrypt κ] [UserTable τ κ] in
theorem acceptFriendReqPublish_eq_some {psn : PsnT τ κ} {target : CStr} {io : PublishIo}
    {effects : List Effect} (h : acceptFriendReqPublish psn target io = some effects) :
    effects =
      (mosquittoPublish psn.mosq (frequestTopic target psn.username.1) 0 [] io).2 := by
  obtain ⟨topic, htopic, h⟩ := Option.bind_eq_some_iff.mp h
  rw [← Option.some_inj.mp h, ← sprintf_eq_some.mp htopic]

omit [Tomcrypt κ] [UserTable τ κ] in
/-- A request to a name that fits has a topic that fits. -/
theorem exists_makeFriendReqPublish (psn : PsnT τ κ) {target : CStr} (h : target.length < 32)
    (message : CStr) (io : PublishIo) :
    ∃ effects, makeFriendReqPublish psn target message io = some effects := by
  have hu := psn.username.2
  have htopic : (frequestTopic target psn.username.1).length < 128 := by
    rw [length_frequestTopic]; omega
  exact ⟨_, by rw [makeFriendReqPublish, sprintf_of_lt htopic]; rfl⟩

/-- A name that fits can be recorded, -/
theorem exists_makeFriendReqInsert (psn : PsnT τ κ) {target : CStr} (h : target.length < 32) :
    ∃ psn', makeFriendReqInsert psn target = some psn' :=
  ⟨_, by rw [makeFriendReqInsert, callocUser_of_lt h]; rfl⟩

omit [Tomcrypt κ] [UserTable τ κ] in
/-- and its topic fits as well. -/
theorem exists_acceptFriendReqPublish (psn : PsnT τ κ) {target : CStr} (h : target.length < 32)
    (io : PublishIo) : ∃ effects, acceptFriendReqPublish psn target io = some effects := by
  have hu := psn.username.2
  have htopic : (frequestTopic target psn.username.1).length < 128 := by
    rw [length_frequestTopic]; omega
  exact ⟨_, by rw [acceptFriendReqPublish, sprintf_of_lt htopic]; rfl⟩

/-- Where the checks pass, `psn_make_friend_req` publishes and inserts. -/
theorem psnMakeFriendReq_of_ready {p : Proc τ κ} (h : Ready p) (target message : CStr)
    (io : PublishIo) :
    psnMakeFriendReq p target message io =
      (makeFriendReqPublish p.psn target message io).bind fun published =>
        (makeFriendReqInsert p.psn target).bind fun psn =>
          some ⟨.success, { p with psn }, published⟩ := by
  rw [psnMakeFriendReq, if_neg h.1, if_neg (by simp [h.2])]
  rfl

/-- Without a connection nothing is done, -/
theorem psnMakeFriendReq_of_not_ready {p : Proc τ κ} (h : ¬Ready p) (target message : CStr)
    (io : PublishIo) :
    ∃ r, psnMakeFriendReq p target message io = some r ∧ r.proc = p := by
  rw [psnMakeFriendReq]
  split
  · exact ⟨_, rfl, rfl⟩
  rename_i hmosq
  split
  · exact ⟨_, rfl, rfl⟩
  rename_i hconn
  exact absurd ⟨hmosq, by simpa using hconn⟩ h

omit [Tomcrypt κ] in
/-- Where the checks pass and the target is found, `psn_accept_friend_req` unlinks, publishes and
inserts. -/
theorem psnAcceptFriendReq_of_find {p : Proc τ κ} (h : Ready p) {target : CStr}
    {inList : Fin (items p.psn.friendRequestsIncoming).length}
    (hfind : find p.psn.friendRequestsIncoming target = some inList) (io : PublishIo) :
    psnAcceptFriendReq p target io =
      (acceptFriendReqPublish (acceptFriendReqDelete p.psn inList) target io).bind fun published =>
        some ⟨.success,
          { p with
            psn := acceptFriendReqInsert (acceptFriendReqDelete p.psn inList)
              (record p.psn.friendRequestsIncoming inList) },
          published⟩ := by
  rw [psnAcceptFriendReq, if_neg h.1, if_neg (by simp [h.2])]
  simp only [hfind]
  rfl

omit [Tomcrypt κ] in
/-- nor for somebody who does not wait. -/
theorem psnAcceptFriendReq_of_not_starts {p : Proc τ κ} {target : CStr}
    (h : ¬(Ready p ∧ target ∈ keys p.psn.friendRequestsIncoming)) (io : PublishIo) :
    ∃ r, psnAcceptFriendReq p target io = some r ∧ r.proc = p := by
  rw [psnAcceptFriendReq]
  split
  · exact ⟨_, rfl, rfl⟩
  rename_i hmosq
  split
  · exact ⟨_, rfl, rfl⟩
  rename_i hconn
  split
  · exact ⟨_, rfl, rfl⟩
  rename_i inList hfind
  exact absurd ⟨⟨hmosq, by simpa using hconn⟩, mem_keys_of_find hfind⟩ h

omit [Tomcrypt κ] in
/-- The outcomes of `psn_accept_friend_req`: a check fails and nothing happens, the target is not
in the incoming list, or his record moves to the friends and the acceptance is published. -/
theorem psnAcceptFriendReq_eq_some {p : Proc τ κ} {target : CStr} {io : PublishIo}
    {r : Reply τ κ} (h : psnAcceptFriendReq p target io = some r) :
    (¬Ready p ∧ r.proc = p ∧ r.err ≠ .success ∧ ∀ e ∈ r.effects, e = .print .notConnected) ∨
      (Ready p ∧ target ∉ keys p.psn.friendRequestsIncoming ∧
        r.err = .userNotInIncomingFriendList ∧ r.proc = p ∧ r.effects = []) ∨
      ∃ inList, Ready p ∧ find p.psn.friendRequestsIncoming target = some inList ∧
        r.err = .success ∧ r.proc.connected = p.connected ∧
        acceptFriendReqPublish p.psn target io = some r.effects ∧
        r.proc.psn = acceptFriendReqInsert (acceptFriendReqDelete p.psn inList)
          (record p.psn.friendRequestsIncoming inList) := by
  rcases checks_eq_some h with hfails | ⟨hready, h⟩
  · exact Or.inl hfails
  cases hfind : find p.psn.friendRequestsIncoming target with
  | none =>
    rw [hfind] at h
    cases h
    exact Or.inr (Or.inl ⟨hready, find_eq_none_iff.mp hfind, rfl, rfl, rfl⟩)
  | some inList =>
    rw [hfind] at h
    obtain ⟨published, hpub, h⟩ := Option.bind_eq_some_iff.mp h
    cases h
    exact Or.inr (Or.inr ⟨inList, hready, rfl, rfl, rfl, hpub, rfl⟩)

/-! ### Calls that unlink -/

omit [Tomcrypt κ] in
/-- The outcomes of `psn_refuse_friend_req`: the target is not in the incoming list, or his record
is unlinked. -/
theorem psnRefuseFriendReq_eq (p : Proc τ κ) (target : CStr) :
    (target ∉ keys p.psn.friendRequestsIncoming ∧
        psnRefuseFriendReq p target = ⟨.userNotInIncomingFriendList, p, []⟩) ∨
      ∃ inList, find p.psn.friendRequestsIncoming target = some inList ∧
        psnRefuseFriendReq p target =
          ⟨.success, { p with psn := acceptFriendReqDelete p.psn inList }, []⟩ := by
  rw [psnRefuseFriendReq]
  split
  · rename_i hfind
    exact Or.inl ⟨find_eq_none_iff.mp hfind, rfl⟩
  · rename_i inList hfind
    exact Or.inr ⟨inList, hfind, rfl⟩

omit [Tomcrypt κ] in
/-- The outcomes of `psn_delete_friend`: the target is not in the friend list, or his record is
unlinked. -/
theorem psnDeleteFriend_eq (p : Proc τ κ) (target : CStr) :
    (target ∉ keys p.psn.friends ∧
        psnDeleteFriend p target = ⟨.userNotInFriendList, p, []⟩) ∨
      ∃ inList, find p.psn.friends target = some inList ∧
        psnDeleteFriend p target = ⟨.success,
          { p with psn := { p.psn with friends := del p.psn.friends inList } }, []⟩ := by
  rw [psnDeleteFriend]
  split
  · rename_i hfind
    exact Or.inl ⟨find_eq_none_iff.mp hfind, rfl⟩
  · rename_i inList hfind
    exact Or.inr ⟨inList, hfind, rfl⟩

/-! ### Calls that send -/

omit [Tomcrypt κ] in
/-- The outcomes of `psn_send_message`: the gate is shut and nothing is published, or the target
is a friend and the message is published on the topic for him. -/
theorem psnSendMessage_eq_some {p : Proc τ κ} {target message : CStr} {io : PublishIo}
    {r : Reply τ κ} (h : psnSendMessage p target message io = some r) :
    r.proc = p ∧
      ((p.connected = false ∧ r.err = .notConnected ∧ r.effects = [.print .sendNotConnected]) ∨
        (p.connected = true ∧ target ∉ keys p.psn.friends ∧ r.err = .userNotInFriendList ∧
          r.effects = [.print .targetNotFriend]) ∨
        (p.connected = true ∧ target ∈ keys p.psn.friends ∧ r.err = .success ∧
          r.effects = (mosquittoPublish p.psn.mosq (chatTopic p.psn.username.1 target)
            (intOfSize message.length) message io).2)) := by
  rw [psnSendMessage] at h
  split at h
  · rename_i hconn
    cases h
    exact ⟨rfl, Or.inl ⟨hconn, rfl, rfl⟩⟩
  rename_i hconn
  have hconn : p.connected = true := by simpa using hconn
  split at h
  · rename_i hfind
    cases h
    exact ⟨rfl, Or.inr (Or.inl ⟨hconn, find_eq_none_iff.mp hfind, rfl, rfl⟩)⟩
  · rename_i q hfind
    obtain ⟨topic, htopic, h⟩ := Option.bind_eq_some_iff.mp h
    cases h
    refine ⟨rfl, Or.inr (Or.inr ⟨hconn, mem_keys_of_find hfind, rfl, ?_⟩)⟩
    rw [sprintf_eq_some.mp htopic]

omit [Tomcrypt κ] in
/-- Sending changes no list. -/
theorem psnSendMessage_proc {p : Proc τ κ} {target message : CStr} {io : PublishIo}
    {r : Reply τ κ} (h : psnSendMessage p target message io = some r) : r.proc = p :=
  (psnSendMessage_eq_some h).1

omit [UserTable τ κ] in
/-- The outcomes of `psn_send_encrypted_message`: the encryption fails, or the message is
published. -/
theorem psnSendEncryptedMessage_eq_some {p : Proc τ κ} {target message : CStr} {prng : Bytes}
    {io : PublishIo} {r : Reply τ κ}
    (h : psnSendEncryptedMessage p target message prng io = some r) :
    (r.err = .cryptFail ∧ r.effects = []) ∨
      (r.err = .success ∧ ∃ encrypted : Bytes,
        r.effects = (mosquittoPublish p.psn.mosq (chatTopic p.psn.username.1 target)
          encrypted.length encrypted io).2) := by
  rw [psnSendEncryptedMessage] at h
  split at h
  · cases h
    exact Or.inl ⟨rfl, rfl⟩
  · rename_i encrypted hencrypted
    obtain ⟨topic, htopic, h⟩ := Option.bind_eq_some_iff.mp h
    cases h
    refine Or.inr ⟨rfl, encrypted, ?_⟩
    rw [sprintf_eq_some.mp htopic]

omit [Tomcrypt κ] [UserTable τ κ] in
/-- A chat message to a name that fits has a topic that fits. -/
theorem length_chatTopic_lt (psn : PsnT τ κ) {target : CStr} (h : target.length < 32) :
    (chatTopic psn.username.1 target).length < 128 := by
  have hu := psn.username.2
  rw [length_chatTopic]
  omega

omit [UserTable τ κ] in
/-- Encrypting is never undefined, whatever comes of it. -/
theorem exists_psnSendEncryptedMessage (p : Proc τ κ) {target : CStr} (h : target.length < 32)
    (message : CStr) (prng : Bytes) (io : PublishIo) :
    ∃ r, psnSendEncryptedMessage p target message prng io = some r := by
  rw [psnSendEncryptedMessage]
  rw [sprintf_of_lt (length_chatTopic_lt p.psn h)]
  split <;> exact ⟨_, rfl⟩

end Psn

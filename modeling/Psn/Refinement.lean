import Psn.Lib.PartialMachine
import Psn.Outcomes
import Psn.Standing

/-!
# The lists follow the standings

A client is driven by operations: the calls of the API that work on the three lists, and the
messages that arrive. `Proc.step` takes one operation; runs are `PartialMachine.run Proc.step`.

The abstraction of a client is the family of the standings of all user names, and the abstraction
of an operation is what it does to each of them: `Op.act` says which act an operation is for a
given name, if it is one. `standing_step` is the refinement: an operation changes the standing
of every name by the act that it is for this name.

So whatever is kept by the acts on one standing is kept by the operations on all names at once. The
modules about the lists use this, and look at one name at a time.

## Scope

The names are those that the calls and the topics give. An operation that does not find its fields
large enough has no result, and `Op.WellFormed` rules this out for `exists_step`. What the records
hold besides their names is not seen by a standing: whether a record moves or is made anew is the
subject of `Psn.Befriending`.

## Main results

* `standing_step`: one operation, seen at one name
* `exists_step`: an operation with well-formed names is always defined
* `standing_forall_step`: what every act keeps for every name, every operation keeps
-/

namespace Psn

open KeyedChain Tomcrypt

variable {τ κ : Type}

/-! ### Operations -/

/-- The operations that work on the lists of users: the calls of the API and the callback. -/
inductive Op
  | makeFriendReq (target message : CStr) (io : PublishIo)
  | acceptFriendReq (target : CStr) (io : PublishIo)
  | refuseFriendReq (target : CStr)
  | deleteFriend (target : CStr)
  | sendMessage (target message : CStr) (io : PublishIo)
  | receive (m : Message)
  deriving DecidableEq, Repr

/-- The operations that the user calls. -/
def Op.isCall : Op → Bool
  | .receive _ => false
  | _ => true

/-- What an operation reports: the return code, which the callback does not have, and the
effects. -/
structure Output where
  /-- The return code. -/
  err : Option PsnErr
  /-- The effects, in order. -/
  effects : List Effect
  deriving DecidableEq, Repr

/-- What a call reports. -/
def Reply.result (r : Reply τ κ) : Output × Proc τ κ := (⟨some r.err, r.effects⟩, r.proc)

@[simp] theorem Reply.result_snd (r : Reply τ κ) : r.result.2 = r.proc := rfl

@[simp] theorem Reply.result_err (r : Reply τ κ) : r.result.1.err = some r.err := rfl

@[simp] theorem Reply.result_effects (r : Reply τ κ) : r.result.1.effects = r.effects := rfl

/-- What is reported comes from a reply. -/
theorem exists_reply {r : Option (Reply τ κ)} {o : Output} {q : Proc τ κ}
    (h : r.map Reply.result = some (o, q)) : ∃ r', r = some r' ∧ r'.result.1 = o ∧ r'.proc = q := by
  obtain ⟨r', hr, heq⟩ := Option.map_eq_some_iff.mp h
  exact ⟨r', hr, congrArg Prod.fst heq, congrArg Prod.snd heq⟩

variable [UserTable τ κ]

/-- One operation. -/
def Proc.step [Tomcrypt κ] (p : Proc τ κ) : Op → Option (Output × Proc τ κ)
  | .makeFriendReq target message io => (psnMakeFriendReq p target message io).map Reply.result
  | .acceptFriendReq target io => (psnAcceptFriendReq p target io).map Reply.result
  | .refuseFriendReq target => some (psnRefuseFriendReq p target).result
  | .deleteFriend target => some (psnDeleteFriend p target).result
  | .sendMessage target message io => (psnSendMessage p target message io).map Reply.result
  | .receive m =>
    (psnMessageCallback p.psn m).map fun q => (⟨none, q.2⟩, { p with psn := q.1 })

/-- The names in an operation fit their fields, and a message is a friend request between
well-formed names. -/
def Op.WellFormed : Op → Prop
  | .makeFriendReq target _ _ => target.length < 32
  | .receive m => ∃ target source : UserName, m.topic = frequestTopic target.bytes source.bytes
  | _ => True

/-- The delivery of a friend request between two users. -/
def Op.frequest (target source : UserName) (payload : Bytes) : Op :=
  .receive ⟨frequestTopic target.bytes source.bytes, payload⟩

/-- A friend request from one user to another names both. -/
theorem Op.wellFormed_frequest (target source : UserName) (payload : Bytes) :
    (Op.frequest target source payload).WellFormed :=
  ⟨target, source, rfl⟩

/-! ### Standings -/

/-- How often a name occurs in each of the three lists. -/
def standing (psn : PsnT τ κ) (name : CStr) : Standing where
  incoming := (keys psn.friendRequestsIncoming).count name
  friends := (keys psn.friends).count name
  outgoing := (keys psn.friendRequestsOutgoing).count name

/-- A standing counts the records of a name. Somebody is in a list when the count is not zero, -/
theorem incoming_pos_iff {psn : PsnT τ κ} {name : CStr} :
    0 < (standing psn name).incoming ↔ name ∈ keys psn.friendRequestsIncoming :=
  List.count_pos_iff

/-- for each of the lists. -/
theorem friends_pos_iff {psn : PsnT τ κ} {name : CStr} :
    0 < (standing psn name).friends ↔ name ∈ keys psn.friends :=
  List.count_pos_iff

theorem outgoing_pos_iff {psn : PsnT τ κ} {name : CStr} :
    0 < (standing psn name).outgoing ↔ name ∈ keys psn.friendRequestsOutgoing :=
  List.count_pos_iff

/-- Nobody is, when it is. -/
theorem incoming_eq_zero_iff {psn : PsnT τ κ} {name : CStr} :
    (standing psn name).incoming = 0 ↔ name ∉ keys psn.friendRequestsIncoming :=
  List.count_eq_zero

theorem friends_eq_zero_iff {psn : PsnT τ κ} {name : CStr} :
    (standing psn name).friends = 0 ↔ name ∉ keys psn.friends :=
  List.count_eq_zero

theorem outgoing_eq_zero_iff {psn : PsnT τ κ} {name : CStr} :
    (standing psn name).outgoing = 0 ↔ name ∉ keys psn.friendRequestsOutgoing :=
  List.count_eq_zero

/-- Who is known is a friend or waits for an answer. -/
theorem known_iff {psn : PsnT τ κ} {name : CStr} :
    (standing psn name).Known ↔
      name ∈ keys psn.friendRequestsIncoming ∨ name ∈ keys psn.friends :=
  or_congr incoming_pos_iff friends_pos_iff

/-- What an operation is for one user name. A call is nothing for anybody unless its checks
pass. -/
def Op.act (p : Proc τ κ) (name : CStr) : Op → Option Standing.Act
  | .makeFriendReq target _ _ =>
    if p.psn.mosq ≠ none ∧ p.connected = true ∧ target = name then some .request else none
  | .acceptFriendReq target _ =>
    if p.psn.mosq ≠ none ∧ p.connected = true ∧ target = name then some .accept else none
  | .refuseFriendReq target => if target = name then some .refuse else none
  | .deleteFriend target => if target = name then some .delete else none
  | .sendMessage .. => none
  | .receive m => if frequestSource m.topic = some name then some .receive else none

omit [UserTable τ κ] in
/-- Of a gate that is open, the name is what is left to check. -/
theorem ite_ready {p : Proc τ κ} (h : Ready p) (target name : CStr) (a : Standing.Act) :
    (if p.psn.mosq ≠ none ∧ p.connected = true ∧ target = name then some a else none) =
      if target = name then some a else none := by
  by_cases hn : target = name
  · rw [if_pos hn, if_pos ⟨h.1, h.2, hn⟩]
  · rw [if_neg hn, if_neg fun hc => hn hc.2.2]

omit [UserTable τ κ] in
/-- When the client is connected, asking is an act for the one who is asked, -/
theorem act_makeFriendReq {p : Proc τ κ} (h : Ready p) (target message : CStr) (io : PublishIo)
    (name : CStr) : (Op.makeFriendReq target message io).act p name =
      if target = name then some .request else none :=
  ite_ready h target name .request

omit [UserTable τ κ] in
/-- and accepting is one for the one who is accepted. -/
theorem act_acceptFriendReq {p : Proc τ κ} (h : Ready p) (target : CStr) (io : PublishIo)
    (name : CStr) : (Op.acceptFriendReq target io).act p name =
      if target = name then some .accept else none :=
  ite_ready h target name .accept

omit [UserTable τ κ] in
/-- Only a request acts as one, and only if its checks pass. -/
theorem act_eq_request {p : Proc τ κ} {op : Op} {name : CStr}
    (h : op.act p name = some .request) :
    ∃ message io, op = .makeFriendReq name message io ∧ Ready p := by
  cases op with
  | makeFriendReq target message io =>
    simp only [Op.act, Option.ite_none_right_eq_some] at h
    obtain ⟨⟨hmosq, hconn, rfl⟩, -⟩ := h
    exact ⟨message, io, rfl, hmosq, hconn⟩
  | _ => simp [Op.act] at h

omit [UserTable τ κ] in
/-- Nothing else is an acceptance, -/
theorem act_eq_accept {p : Proc τ κ} {op : Op} {name : CStr}
    (h : op.act p name = some .accept) : ∃ io, op = .acceptFriendReq name io ∧ Ready p := by
  cases op with
  | acceptFriendReq target io =>
    simp only [Op.act, Option.ite_none_right_eq_some] at h
    obtain ⟨⟨hmosq, hconn, rfl⟩, -⟩ := h
    exact ⟨io, rfl, hmosq, hconn⟩
  | _ => simp [Op.act] at h

omit [UserTable τ κ] in
/-- and nothing else is heard of. -/
theorem act_eq_receive {p : Proc τ κ} {op : Op} {name : CStr}
    (h : op.act p name = some .receive) :
    ∃ m, op = .receive m ∧ frequestSource m.topic = some name := by
  cases op with
  | receive m =>
    simp only [Op.act, Option.ite_none_right_eq_some] at h
    exact ⟨m, rfl, h.1⟩
  | _ => simp [Op.act] at h

/-! ### The steps, one function at a time -/

/-- A new record in the outgoing list counts for the name that was copied. -/
theorem standing_makeFriendReqInsert [Tomcrypt κ] {psn psn' : PsnT τ κ} {target : CStr}
    (h : makeFriendReqInsert psn target = some psn') (name : CStr) :
    standing psn' name =
      if target = name then (standing psn name).request else standing psn name := by
  obtain ⟨new, hnew, h⟩ := Option.bind_eq_some_iff.mp h
  cases h
  have hname : target = new.name.1 := Option.some_inj.mp (callocUser_eq_some hnew).1
  simp only [standing, count_keys_add, key_user, ← hname]
  by_cases hn : target = name <;> simp [hn, Standing.request]

/-- Unlinking the record of an incoming request, as an acceptance and a refusal do. -/
theorem standing_acceptFriendReqDelete {psn : PsnT τ κ} {target : CStr}
    {p : Fin (items psn.friendRequestsIncoming).length}
    (hp : find psn.friendRequestsIncoming target = some p) (name : CStr) :
    standing (acceptFriendReqDelete psn p) name =
      if target = name then (standing psn name).refuse else standing psn name := by
  have hkey : (record psn.friendRequestsIncoming p).name.1 = target := key_record_of_find hp
  have hcount := count_keys_del psn.friendRequestsIncoming p name
  rw [key_user, hkey] at hcount
  by_cases hn : target = name <;>
    simp [standing, acceptFriendReqDelete, Standing.refuse, hn, hcount]

/-- A record in the friend list counts for its own name. -/
theorem standing_acceptFriendReqInsert (psn : PsnT τ κ) (user : User κ) (name : CStr) :
    standing (acceptFriendReqInsert psn user) name =
      if user.name.1 = name then (standing psn name).befriend else standing psn name := by
  by_cases hn : user.name.1 = name <;>
    simp [standing, acceptFriendReqInsert, Standing.befriend, hn]

/-- So a record that moves takes its name from one list to the other. -/
theorem standing_move {psn : PsnT τ κ} {target : CStr}
    {p : Fin (items psn.friendRequestsIncoming).length}
    (hp : find psn.friendRequestsIncoming target = some p) (name : CStr) :
    standing (acceptFriendReqInsert (acceptFriendReqDelete psn p)
        (record psn.friendRequestsIncoming p)) name =
      if target = name then (standing psn name).accept else standing psn name := by
  have hkey : (record psn.friendRequestsIncoming p).name.1 = target := key_record_of_find hp
  rw [standing_acceptFriendReqInsert, standing_acceptFriendReqDelete hp, hkey]
  by_cases hn : target = name
  · have hpos := incoming_pos_iff.mpr (hn ▸ mem_keys_of_find hp)
    rw [if_pos hn, if_pos hn, if_pos hn, Standing.accept_of_pos hpos]
    rfl
  · simp [hn]

/-- Refusing removes one record of the name, if there is one. -/
theorem standing_psnRefuseFriendReq (p : Proc τ κ) (target name : CStr) :
    standing (psnRefuseFriendReq p target).proc.psn name =
      if target = name then (standing p.psn name).refuse else standing p.psn name := by
  rcases psnRefuseFriendReq_eq p target with ⟨hnot, heq⟩ | ⟨inList, hfind, heq⟩
  · rw [heq]
    have hzero := incoming_eq_zero_iff.mpr hnot
    by_cases hn : target = name
    · subst hn
      simp [Standing.refuse, Standing.ext_iff, hzero]
    · simp [hn]
  · rw [heq]
    exact standing_acceptFriendReqDelete hfind name

/-- Deleting does the same with friends. -/
theorem standing_psnDeleteFriend (p : Proc τ κ) (target name : CStr) :
    standing (psnDeleteFriend p target).proc.psn name =
      if target = name then (standing p.psn name).delete else standing p.psn name := by
  rcases psnDeleteFriend_eq p target with ⟨hnot, heq⟩ | ⟨inList, hfind, heq⟩
  · rw [heq]
    have hzero := friends_eq_zero_iff.mpr hnot
    by_cases hn : target = name
    · subst hn
      simp [Standing.delete, Standing.ext_iff, hzero]
    · simp [hn]
  · rw [heq]
    have hkey : (record p.psn.friends inList).name.1 = target := key_record_of_find hfind
    have hcount := count_keys_del p.psn.friends inList name
    rw [key_user, hkey] at hcount
    by_cases hn : target = name <;> simp [standing, Standing.delete, hn, hcount]

/-- The callback compares the source with three lists, and so does `Standing.receive`. -/
theorem standing_received [Tomcrypt κ] {psn psn' : PsnT τ κ} {source : CStr}
    {effects : List Effect} (h : Received psn source psn' effects) (name : CStr) :
    standing psn' name =
      if source = name then (standing psn name).receive else standing psn name := by
  cases h with
  | known hk =>
    by_cases hn : source = name
    · subst hn
      rw [if_pos rfl, Standing.receive_of_known (known_iff.mpr hk)]
    · rw [if_neg hn]
  | accepted hi hf fromList ho new hnew =>
    have hname : source = new.name.1 := Option.some_inj.mp (callocUser_eq_some hnew).1
    have hkey : (record psn.friendRequestsOutgoing fromList).name.1 = source :=
      key_record_of_find ho
    have hcount := count_keys_del psn.friendRequestsOutgoing fromList name
    rw [key_user, hkey] at hcount
    by_cases hn : source = name
    · subst hn
      have hk : ¬(standing psn source).Known := mt known_iff.mp (not_or.mpr ⟨hi, hf⟩)
      rw [if_pos rfl, Standing.receive_of_asked hk (by simp [standing, hcount])]
      simp [standing, ← hname, hcount]
    · simp [standing, ← hname, hn, hcount]
  | recorded hi hf ho new hnew =>
    have hname : source = new.name.1 := Option.some_inj.mp (callocUser_eq_some hnew).1
    by_cases hn : source = name
    · subst hn
      have hk : ¬(standing psn source).Known := mt known_iff.mp (not_or.mpr ⟨hi, hf⟩)
      rw [if_pos rfl, Standing.receive_of_stranger hk (outgoing_eq_zero_iff.mpr ho)]
      simp [standing, ← hname]
    · simp [standing, ← hname, hn]

/-- Only friend requests change a standing, and only that of their source. -/
theorem standing_psnMessageCallback [Tomcrypt κ] {psn psn' : PsnT τ κ} {m : Message}
    {effects : List Effect} (h : psnMessageCallback psn m = some (psn', effects))
    (name : CStr) :
    standing psn' name =
      if frequestSource m.topic = some name then (standing psn name).receive
      else standing psn name := by
  cases psnMessageCallback_eq_some h with
  | ignored hsource => simp [hsource]
  | displayed sender hf hpayload htopic => simp [frequestSource, htopic]
  | frequest source hsource hr => simpa [hsource] using standing_received hr name

/-! ### One operation -/

/-- What an operation leaves alone: the connection and the user name. -/
def Proc.session (p : Proc τ κ) : Bool × Option Mosq × Field 32 :=
  (p.connected, p.psn.mosq, p.psn.username)

/-- A message changes no session, -/
theorem session_received [Tomcrypt κ] {psn psn' : PsnT τ κ} {source : CStr}
    {effects : List Effect} (h : Received psn source psn' effects) :
    psn'.mosq = psn.mosq ∧ psn'.username = psn.username := by
  cases h <;> exact ⟨rfl, rfl⟩

/-- and neither does any operation on the lists. -/
theorem session_step [Tomcrypt κ] {p q : Proc τ κ} {op : Op} {o : Output}
    (h : p.step op = some (o, q)) : q.session = p.session := by
  cases op with
  | makeFriendReq target message io =>
    obtain ⟨r, hr, -, rfl⟩ := exists_reply h
    rcases psnMakeFriendReq_eq_some hr with ⟨-, hp, -, -⟩ | ⟨-, -, hconn, -, hins⟩
    · rw [hp]
    · obtain ⟨new, -, hpsn⟩ := Option.bind_eq_some_iff.mp hins
      obtain hpsn := Option.some_inj.mp hpsn
      simp only [Proc.session, hconn, ← hpsn]
  | acceptFriendReq target io =>
    obtain ⟨r, hr, -, rfl⟩ := exists_reply h
    rcases psnAcceptFriendReq_eq_some hr with
      ⟨-, hp, -, -⟩ | ⟨-, -, -, hp, -⟩ | ⟨_, -, -, -, hconn, -, hpsn⟩
    · rw [hp]
    · rw [hp]
    · simp only [Proc.session, hconn, hpsn, acceptFriendReqInsert, acceptFriendReqDelete]
  | refuseFriendReq target =>
    obtain rfl : (psnRefuseFriendReq p target).proc = q :=
      congrArg Prod.snd (Option.some_inj.mp h)
    rcases psnRefuseFriendReq_eq p target with ⟨-, heq⟩ | ⟨_, -, heq⟩
    · rw [heq]
    · rw [heq]
      rfl
  | deleteFriend target =>
    obtain rfl : (psnDeleteFriend p target).proc = q := congrArg Prod.snd (Option.some_inj.mp h)
    rcases psnDeleteFriend_eq p target with ⟨-, heq⟩ | ⟨_, -, heq⟩
    · rw [heq]
    · rw [heq]
      rfl
  | sendMessage target message io =>
    obtain ⟨r, hr, -, rfl⟩ := exists_reply h
    rw [psnSendMessage_proc hr]
  | receive m =>
    obtain ⟨⟨psn', effects⟩, hm, heq⟩ := Option.map_eq_some_iff.mp h
    cases heq
    cases psnMessageCallback_eq_some hm with
    | ignored => rfl
    | displayed => rfl
    | frequest source hsource hr =>
      obtain ⟨hmosq, husername⟩ := session_received hr
      simp only [Proc.session, hmosq, husername]

omit [UserTable τ κ] in
/-- Whether a client can publish can be told from its session. -/
theorem ready_of_session {p q : Proc τ κ} (h : q.session = p.session) : Ready q ↔ Ready p := by
  simp only [Proc.session, Prod.mk.injEq] at h
  simp only [Ready, h.1, h.2.1]

/-- **The refinement.** An operation changes the standing of every name by the act that it is
for this name, and leaves the standing of the other names alone. -/
theorem standing_step [Tomcrypt κ] {p q : Proc τ κ} {op : Op} {o : Output}
    (h : p.step op = some (o, q)) (name : CStr) :
    standing q.psn name =
      match op.act p name with
      | none => standing p.psn name
      | some a => (standing p.psn name).step a := by
  cases op with
  | makeFriendReq target message io =>
    obtain ⟨r, hr, -, rfl⟩ := exists_reply h
    rcases psnMakeFriendReq_eq_some hr with ⟨hnot, hp, -, -⟩ | ⟨hready, -, -, -, hins⟩
    · have hact : (Op.makeFriendReq target message io).act p name = none :=
        if_neg fun hc => hnot ⟨hc.1, hc.2.1⟩
      rw [hact, hp]
    · rw [standing_makeFriendReqInsert hins]
      by_cases hn : target = name
      · simp [Op.act, hready.1, hready.2, hn, Standing.step]
      · simp [Op.act, hn]
  | acceptFriendReq target io =>
    obtain ⟨r, hr, -, rfl⟩ := exists_reply h
    rcases psnAcceptFriendReq_eq_some hr with
      ⟨hnot, hp, -, -⟩ | ⟨hready, hi, -, hp, -⟩ | ⟨inList, hready, hfind, -, -, -, hpsn⟩
    · have hact : (Op.acceptFriendReq target io).act p name = none :=
        if_neg fun hc => hnot ⟨hc.1, hc.2.1⟩
      rw [hact, hp]
    · rw [hp]
      by_cases hn : target = name
      · have hzero : (standing p.psn name).incoming = 0 :=
          incoming_eq_zero_iff.mpr (hn ▸ hi)
        simp [Op.act, hready.1, hready.2, hn, Standing.step, Standing.accept_of_zero hzero]
      · simp [Op.act, hn]
    · rw [hpsn, standing_move hfind]
      by_cases hn : target = name
      · simp [Op.act, hready.1, hready.2, hn, Standing.step]
      · simp [Op.act, hn]
  | refuseFriendReq target =>
    obtain rfl : (psnRefuseFriendReq p target).proc = q :=
      congrArg Prod.snd (Option.some_inj.mp h)
    rw [standing_psnRefuseFriendReq]
    by_cases hn : target = name <;> simp [Op.act, hn, Standing.step]
  | deleteFriend target =>
    obtain rfl : (psnDeleteFriend p target).proc = q := congrArg Prod.snd (Option.some_inj.mp h)
    rw [standing_psnDeleteFriend]
    by_cases hn : target = name <;> simp [Op.act, hn, Standing.step]
  | sendMessage target message io =>
    obtain ⟨r, hr, -, rfl⟩ := exists_reply h
    rw [psnSendMessage_proc hr]
    rfl
  | receive m =>
    obtain ⟨⟨psn', effects⟩, hm, heq⟩ := Option.map_eq_some_iff.mp h
    cases heq
    rw [standing_psnMessageCallback hm]
    by_cases hn : frequestSource m.topic = some name <;> simp [Op.act, hn, Standing.step]

/-- An acceptance whose checks pass and whose target waits for it succeeds. -/
theorem err_acceptFriendReq {p q : Proc τ κ} [Tomcrypt κ] {target : CStr} {io : PublishIo}
    {o : Output} (h : p.step (.acceptFriendReq target io) = some (o, q)) (hready : Ready p)
    (hi : target ∈ keys p.psn.friendRequestsIncoming) : o.err = some .success := by
  obtain ⟨r, hr, rfl, -⟩ := exists_reply h
  rcases psnAcceptFriendReq_eq_some hr with ⟨hnot, -⟩ | ⟨-, hnot, -⟩ | ⟨_, -, -, herr, -⟩
  · exact absurd hready hnot
  · exact absurd hi hnot
  · rw [Reply.result_err, herr]

/-! ### Runs -/

/-- A name that is recorded somewhere fits its field. -/
theorem length_lt_of_mem_keys {t : τ} {name : CStr} (h : name ∈ keys t) : name.length < 32 := by
  obtain ⟨u, -, rfl⟩ := List.mem_map.mp h
  exact u.name.2

/-- The topic of a message to a friend always fits. -/
theorem exists_psnSendMessage (p : Proc τ κ) (target message : CStr) (io : PublishIo) :
    ∃ r, psnSendMessage p target message io = some r := by
  rw [psnSendMessage]
  split
  · exact ⟨_, rfl⟩
  split
  · exact ⟨_, rfl⟩
  · rename_i q hfind
    have htarget := length_lt_of_mem_keys (mem_keys_of_find hfind)
    rw [sprintf_of_lt (length_chatTopic_lt p.psn htarget)]
    exact ⟨_, rfl⟩

/-- An operation whose names are well-formed is always defined. -/
theorem exists_step [Tomcrypt κ] (p : Proc τ κ) {op : Op} (h : op.WellFormed) :
    ∃ o q, p.step op = some (o, q) := by
  cases op with
  | makeFriendReq target message io =>
    by_cases hready : Ready p
    · obtain ⟨effects, hpub⟩ := exists_makeFriendReqPublish p.psn h message io
      obtain ⟨psn', hins⟩ := exists_makeFriendReqInsert p.psn h
      exact ⟨_, _, by
        simp only [Proc.step, psnMakeFriendReq_of_ready hready, hpub, hins]
        rfl⟩
    · obtain ⟨r, hr, -⟩ := psnMakeFriendReq_of_not_ready hready target message io
      exact ⟨_, _, by simp only [Proc.step, hr]; rfl⟩
  | acceptFriendReq target io =>
    by_cases hstarts : Ready p ∧ target ∈ keys p.psn.friendRequestsIncoming
    · obtain ⟨hready, hmem⟩ := hstarts
      obtain ⟨inList, hfind⟩ := exists_find_of_mem hmem
      obtain ⟨effects, hpub⟩ := exists_acceptFriendReqPublish (acceptFriendReqDelete p.psn inList)
        (length_lt_of_mem_keys hmem) io
      exact ⟨_, _, by
        simp only [Proc.step, psnAcceptFriendReq_of_find hready hfind, hpub]
        rfl⟩
    · obtain ⟨r, hr, -⟩ := psnAcceptFriendReq_of_not_starts hstarts io
      exact ⟨_, _, by simp only [Proc.step, hr]; rfl⟩
  | refuseFriendReq target => exact ⟨_, _, rfl⟩
  | deleteFriend target => exact ⟨_, _, rfl⟩
  | sendMessage target message io =>
    obtain ⟨r, hr⟩ := exists_psnSendMessage p target message io
    exact ⟨_, _, by simp only [Proc.step, hr]; rfl⟩
  | receive m =>
    obtain ⟨target, source, htopic⟩ := h
    obtain ⟨psn', effects, hm⟩ := exists_psnMessageCallback p.psn target source m.payload
    rw [← htopic] at hm
    exact ⟨_, _, by simp only [Proc.step, hm]; rfl⟩

/-- A run of operations whose names are well-formed is always defined. -/
theorem exists_run_step [Tomcrypt κ] (p : Proc τ κ) (ops : List Op)
    (h : ∀ op ∈ ops, op.WellFormed) :
    ∃ outs q, PartialMachine.run Proc.step p ops = some (outs, q) := by
  obtain ⟨outs, q, hq, -⟩ := PartialMachine.exists_run
    (Proc.step : Proc τ κ → Op → Option (Output × Proc τ κ)) (I := fun _ => True)
    (fun {s a} _ ha => by
      obtain ⟨o, t, ht⟩ := exists_step s ha
      exact ⟨o, t, ht, trivial⟩) trivial h
  exact ⟨outs, q, hq⟩

/-- What every act keeps for the standing of every name, every operation keeps. -/
theorem standing_forall_step [Tomcrypt κ] {I : Standing → Prop} (hI : ∀ s a, I s → I (s.step a))
    {p q : Proc τ κ} {op : Op} {o : Output} (h : ∀ name, I (standing p.psn name))
    (hstep : p.step op = some (o, q)) (name : CStr) : I (standing q.psn name) := by
  rw [standing_step hstep]
  cases op.act p name with
  | none => exact h name
  | some a => exact hI _ a (h name)

/-- Nobody is recorded after `psn_init`. -/
@[simp] theorem standing_init (p : Proc τ κ) (name : CStr) :
    standing p.init.psn name = Standing.stranger := by
  simp [standing, Proc.init, Standing.stranger]

end Psn

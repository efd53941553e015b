import Psn.Executable
import Psn.Lib.Projection
import Psn.Refinement

/-!
# Users do not influence each other

Every operation on the lists names one user. What it does to his standing and what it returns
are decided by his standing alone, so a run, seen from one user, is a run of the operations that
name him (`run_user`). It does not matter which other users were asked, accepted, refused or
heard of in between, and in which order.

## Main results

* `err_step`: the return code of an operation
* `run_user`: a run seen from one user
* `users_independent`: reordering the operations of different users changes no return code
-/

namespace Psn

open KeyedChain PartialMachine

variable {τ κ : Type}

/-- The user an operation names. -/
def Op.user : Op → CStr
  | .makeFriendReq target _ _ | .acceptFriendReq target _ | .refuseFriendReq target
  | .deleteFriend target | .sendMessage target _ _ => target
  | .receive m => (frequestSource m.topic).getD []

/-- The return code of an operation, given the standing of the user it names. -/
def Op.code (p : Proc τ κ) (s : Standing) : Op → Option PsnErr
  | .makeFriendReq .. =>
    some (if p.psn.mosq = none then .fail
      else if p.connected = false then .notConnected else .success)
  | .acceptFriendReq .. =>
    some (if p.psn.mosq = none then .fail
      else if p.connected = false then .notConnected
      else if 0 < s.incoming then .success else .userNotInIncomingFriendList)
  | .refuseFriendReq .. =>
    some (if 0 < s.incoming then .success else .userNotInIncomingFriendList)
  | .deleteFriend .. => some (if 0 < s.friends then .success else .userNotInFriendList)
  | .sendMessage .. =>
    some (if p.connected = false then .notConnected
      else if 0 < s.friends then .success else .userNotInFriendList)
  | .receive .. => none

/-- What an operation does to the standing of a user. -/
def Op.effect (p : Proc τ κ) (name : CStr) (s : Standing) (op : Op) : Standing :=
  (op.act p name).elim s s.step

/-- An operation acts on the user it names only. -/
theorem act_of_ne {p : Proc τ κ} {op : Op} {name : CStr} (h : op.user ≠ name) :
    op.act p name = none := by
  cases op with
  | makeFriendReq | acceptFriendReq => exact if_neg fun hc => h hc.2.2
  | refuseFriendReq | deleteFriend => exact if_neg h
  | sendMessage => rfl
  | receive m => exact if_neg fun hc => h (by simp [Op.user, hc])

/-- The session is all that matters of a client for what an operation does. -/
theorem act_congr {p q : Proc τ κ} (h : q.session = p.session) (op : Op) (name : CStr) :
    op.act q name = op.act p name := by
  simp only [Proc.session, Prod.mk.injEq] at h
  cases op <;> simp only [Op.act, h.1, h.2.1]

theorem code_congr {p q : Proc τ κ} (h : q.session = p.session) (op : Op) (s : Standing) :
    op.code q s = op.code p s := by
  simp only [Proc.session, Prod.mk.injEq] at h
  cases op <;> simp only [Op.code, h.1, h.2.1]

variable [Tomcrypt κ] [UserTable τ κ]

/-! ### Return codes -/

omit [Tomcrypt κ] [UserTable τ κ] in
/-- A call that begins with the two checks reports the first one that fails. -/
theorem err_checks {p : Proc τ κ} {rest : Option (Reply τ κ)} {r : Reply τ κ} {err : PsnErr}
    (h : (if p.psn.mosq = none then some ⟨.fail, p, []⟩
      else if p.connected = false then some ⟨.notConnected, p, [.print .notConnected]⟩
      else rest) = some r)
    (hrest : rest = some r → r.err = err) :
    r.err = if p.psn.mosq = none then .fail
      else if p.connected = false then .notConnected else err := by
  by_cases hmosq : p.psn.mosq = none
  · rw [if_pos hmosq] at h ⊢
    rw [← Option.some_inj.mp h]
  rw [if_neg hmosq] at h ⊢
  by_cases hconn : p.connected = false
  · rw [if_pos hconn] at h ⊢
    rw [← Option.some_inj.mp h]
  rw [if_neg hconn] at h ⊢
  exact hrest h

theorem err_psnMakeFriendReq {p : Proc τ κ} {target message : CStr} {io : PublishIo}
    {r : Reply τ κ} (h : psnMakeFriendReq p target message io = some r) :
    r.err = if p.psn.mosq = none then .fail
      else if p.connected = false then .notConnected else .success := by
  refine err_checks h fun hrest => ?_
  obtain ⟨published, -, hrest⟩ := Option.bind_eq_some_iff.mp hrest
  obtain ⟨psn, -, hrest⟩ := Option.bind_eq_some_iff.mp hrest
  rw [← Option.some_inj.mp hrest]

omit [Tomcrypt κ] in
theorem err_psnAcceptFriendReq {p : Proc τ κ} {target : CStr} {io : PublishIo}
    {r : Reply τ κ} (h : psnAcceptFriendReq p target io = some r) :
    r.err = if p.psn.mosq = none then .fail
      else if p.connected = false then .notConnected
      else if 0 < (standing p.psn target).incoming then .success
      else .userNotInIncomingFriendList := by
  refine err_checks h fun hrest => ?_
  cases hfind : find p.psn.friendRequestsIncoming target with
  | none =>
    rw [hfind] at hrest
    rw [if_neg (mt incoming_pos_iff.mp (find_eq_none_iff.mp hfind)), ← Option.some_inj.mp hrest]
  | some inList =>
    rw [hfind] at hrest
    obtain ⟨published, -, hrest⟩ := Option.bind_eq_some_iff.mp hrest
    rw [if_pos (incoming_pos_iff.mpr (mem_keys_of_find hfind)), ← Option.some_inj.mp hrest]

omit [Tomcrypt κ] in
theorem err_psnRefuseFriendReq (p : Proc τ κ) (target : CStr) :
    (psnRefuseFriendReq p target).err =
      if 0 < (standing p.psn target).incoming then .success
      else .userNotInIncomingFriendList := by
  rcases psnRefuseFriendReq_eq p target with ⟨hnot, heq⟩ | ⟨inList, hfind, heq⟩
  · rw [heq, if_neg (mt incoming_pos_iff.mp hnot)]
  · rw [heq, if_pos (incoming_pos_iff.mpr (mem_keys_of_find hfind))]

omit [Tomcrypt κ] in
theorem err_psnDeleteFriend (p : Proc τ κ) (target : CStr) :
    (psnDeleteFriend p target).err =
      if 0 < (standing p.psn target).friends then .success else .userNotInFriendList := by
  rcases psnDeleteFriend_eq p target with ⟨hnot, heq⟩ | ⟨inList, hfind, heq⟩
  · rw [heq, if_neg (mt friends_pos_iff.mp hnot)]
  · rw [heq, if_pos (friends_pos_iff.mpr (mem_keys_of_find hfind))]

omit [Tomcrypt κ] in
theorem err_psnSendMessage {p : Proc τ κ} {target message : CStr} {io : PublishIo}
    {r : Reply τ κ} (h : psnSendMessage p target message io = some r) :
    r.err = if p.connected = false then .notConnected
      else if 0 < (standing p.psn target).friends then .success else .userNotInFriendList := by
  obtain ⟨-, ⟨hconn, herr, -⟩ | ⟨hconn, hnot, herr, -⟩ | ⟨hconn, hfriend, herr, -⟩⟩ :=
    psnSendMessage_eq_some h
  · rw [if_pos hconn, herr]
  · rw [if_neg (by simp [hconn]), if_neg (mt friends_pos_iff.mp hnot), herr]
  · rw [if_neg (by simp [hconn]), if_pos (friends_pos_iff.mpr hfriend), herr]

/-- **The return code** is decided by the standing of the user that the operation names. -/
theorem err_step {p q : Proc τ κ} {op : Op} {o : Output} (h : p.step op = some (o, q)) :
    o.err = op.code p (standing p.psn op.user) := by
  cases op with
  | makeFriendReq target message io =>
    obtain ⟨r, hr, rfl, -⟩ := exists_reply h
    rw [Reply.result_err, err_psnMakeFriendReq hr]
    rfl
  | acceptFriendReq target io =>
    obtain ⟨r, hr, rfl, -⟩ := exists_reply h
    rw [Reply.result_err, err_psnAcceptFriendReq hr]
    rfl
  | refuseFriendReq target =>
    obtain rfl : (psnRefuseFriendReq p target).result.1 = o :=
      congrArg Prod.fst (Option.some_inj.mp h)
    rw [Reply.result_err, err_psnRefuseFriendReq]
    rfl
  | deleteFriend target =>
    obtain rfl : (psnDeleteFriend p target).result.1 = o :=
      congrArg Prod.fst (Option.some_inj.mp h)
    rw [Reply.result_err, err_psnDeleteFriend]
    rfl
  | sendMessage target message io =>
    obtain ⟨r, hr, rfl, -⟩ := exists_reply h
    rw [Reply.result_err, err_psnSendMessage hr]
    rfl
  | receive m =>
    obtain ⟨⟨psn', effects⟩, hcb, heq⟩ := Option.map_eq_some_iff.mp h
    cases heq
    rfl

/-- An operation, seen from one user. -/
theorem standing_eq_effect {p q : Proc τ κ} {op : Op} {o : Output} (h : p.step op = some (o, q))
    (name : CStr) : standing q.psn name = op.effect p name (standing p.psn name) := by
  rw [standing_step h, Op.effect]
  cases op.act p name <;> rfl

/-! ### Runs -/

/-- An operation on the standing of one user, in the session of `p`. -/
def userStep (p : Proc τ κ) (name : CStr) (s : Standing) (op : Op) :
    Option (Option PsnErr × Standing) :=
  some (op.code p s, op.effect p name s)

/-- The operation, if it names the user. -/
def Op.naming (name : CStr) : Op → Option Op := Option.guard fun op => op.user = name

/-- The operations of a run that name a user, each with the code it returned. -/
def codesOf (name : CStr) (ops : List Op) (outs : List Output) : List (Op × Option PsnErr) :=
  partTrace (Op.naming name) Output.err ops outs

/-- **A run seen from one user** is a run of the operations that name him on his standing. -/
theorem run_user {p q : Proc τ κ} {ops : List Op} {outs : List Output}
    (h : run Proc.step p ops = some (outs, q)) (name : CStr) :
    ∃ codes, run (userStep p name) (standing p.psn name) (ops.filterMap (Op.naming name)) =
        some (codes, standing q.psn name) ∧
      codesOf name ops outs = (ops.filterMap (Op.naming name)).zip codes := by
  -- the session is that of `p` all along
  have hsession : Along Proc.step (fun r _ => r.session = p.session) p ops :=
    Along.of_invariant (fun hr hstep => (session_step hstep).trans hr) rfl
  refine run_part (fun r => standing r.psn name) ?_ ?_ hsession h
  · intro r op o r' hr hstep hnone
    have hne : op.user ≠ name := by simpa [Op.naming, Option.guard] using hnone
    rw [standing_eq_effect hstep, Op.effect, act_of_ne hne]
    rfl
  · intro r op op' o r' hr hstep hsome
    obtain ⟨rfl, hname⟩ : op = op' ∧ op.user = name := by simpa [Op.naming] using hsome
    rw [userStep, err_step hstep, standing_eq_effect hstep, hname, code_congr hr, Op.effect,
      Op.effect, act_congr hr]

/-- **Users are independent.** Reorder a run without touching the order of the operations that name
the same user. Every operation returns what it returned before, and everybody ends up as often in
each of the lists as before. -/
theorem users_independent (p : Proc τ κ) {ops ops' : List Op} (hops : ∀ op ∈ ops, op.WellFormed)
    (h : Reordered Op.user ops ops') :
    ∃ outs q outs' q', run Proc.step p ops = some (outs, q) ∧
      run Proc.step p ops' = some (outs', q') ∧
      (∀ name, codesOf name ops outs = codesOf name ops' outs') ∧
      ∀ name, standing q.psn name = standing q'.psn name := by
  obtain ⟨outs, q, hq⟩ := exists_run_step p ops hops
  obtain ⟨outs', q', hq'⟩ := exists_run_step p ops' fun op hop => hops op (h.perm.mem_iff.mpr hop)
  have hsame : ∀ name, codesOf name ops outs = codesOf name ops' outs' ∧
      standing q.psn name = standing q'.psn name := by
    intro name
    obtain ⟨codes, hrun, hcodes⟩ := run_user hq name
    obtain ⟨codes', hrun', hcodes'⟩ := run_user hq' name
    have hnaming : ops.filterMap (Op.naming name) = ops'.filterMap (Op.naming name) := by
      rw [Op.naming, List.filterMap_eq_filter]
      exact h name
    rw [hnaming, hrun', Option.some_inj, Prod.mk.injEq] at hrun
    rw [hcodes, hcodes', hnaming, hrun.1]
    exact ⟨rfl, hrun.2.symm⟩
  exact ⟨outs, q, outs', q', hq, hq', fun name => (hsame name).1, fun name => (hsame name).2⟩

/-- A request to one user overtakes a request from another. -/
theorem users_independent_overtaken :
    ∃ outs q outs' q',
      run Proc.step (concreteProc alice) [.frequest alice bob [],
        .makeFriendReq (lit "carol") (lit "hi") .ok, .acceptFriendReq bob.bytes .ok] =
          some (outs, q) ∧
      run Proc.step (concreteProc alice) [.makeFriendReq (lit "carol") (lit "hi") .ok,
        .frequest alice bob [], .acceptFriendReq bob.bytes .ok] = some (outs', q') ∧
      (∀ name, codesOf name [.frequest alice bob [],
        .makeFriendReq (lit "carol") (lit "hi") .ok, .acceptFriendReq bob.bytes .ok] outs =
          codesOf name [.makeFriendReq (lit "carol") (lit "hi") .ok,
            .frequest alice bob [], .acceptFriendReq bob.bytes .ok] outs') ∧
      ∀ name, standing q.psn name = standing q'.psn name := by
  refine users_independent (concreteProc alice) ?_ (Reordered.swap (by decide) [] _)
  intro op hop
  simp only [List.mem_cons, List.not_mem_nil, or_false] at hop
  rcases hop with rfl | rfl | rfl
  · exact Op.wellFormed_frequest alice bob []
  · exact show (lit "carol").length < 32 by decide
  · trivial

end Psn

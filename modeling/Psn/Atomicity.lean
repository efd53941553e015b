import Psn.FriendLists

/-!
# Calls and callbacks of two threads

The API runs on the user's thread and `psn_message_callback` on the thread that
`mosquitto_loop_start` creates. A call that publishes is therefore not one step: callbacks may
run before its publish and between its publish and its last insertion. `Call.interleaved` runs a
call with callbacks in both windows, `Call.atomic` runs the whole call at the moment of its
publish with the same callbacks around it, and `atomicAtPublish_iff` says exactly when the two put
everybody into the same lists.

Only the target of the call can tell the difference, and only if a request of his own arrives in
a window: the request is recorded after it was published, and an accepted user is in no list
until he is inserted among the friends.
-/

namespace Psn

open KeyedChain PartialMachine

variable {τ κ : Type} [UserTable τ κ]

/-! ### Sequences of callbacks -/

/-- The sources of the friend requests among the messages. -/
def sources (w : List Message) : List CStr := w.filterMap fun m => frequestSource m.topic

@[simp] theorem sources_append (w₁ w₂ : List Message) :
    sources (w₁ ++ w₂) = sources w₁ ++ sources w₂ :=
  List.filterMap_append

/-- A friend request between well-formed names. -/
def Message.IsFrequest (m : Message) : Prop :=
  ∃ target source : UserName, m.topic = frequestTopic target.bytes source.bytes

/-- Run `psn_message_callback` on messages, one after the other. -/
def callbacks [Tomcrypt κ] (p : Proc τ κ) (w : List Message) : Option (Proc τ κ) :=
  (run Proc.step p (w.map Op.receive)).map Prod.snd

@[simp] theorem callbacks_nil [Tomcrypt κ] (p : Proc τ κ) : callbacks p [] = some p := rfl

theorem exists_callbacks [Tomcrypt κ] (p : Proc τ κ) (w : List Message)
    (hw : ∀ m ∈ w, m.IsFrequest) : ∃ q, callbacks p w = some q := by
  obtain ⟨outs, q, hrun⟩ := exists_run_step p (w.map Op.receive) fun op hop => by
    obtain ⟨m, hm, rfl⟩ := List.mem_map.mp hop
    exact hw m hm
  exact ⟨q, by simp [callbacks, hrun]⟩

theorem session_callbacks [Tomcrypt κ] {p q : Proc τ κ} {w : List Message}
    (h : callbacks p w = some q) : q.session = p.session := by
  obtain ⟨⟨outs, q'⟩, hrun, rfl⟩ := Option.map_eq_some_iff.mp h
  exact invariant_of_run Proc.step (I := fun r => r.session = p.session)
    (P := fun _ => True) (fun hr _ hstep => (session_step hstep).trans hr) rfl (by simp) hrun

/-- Receive the requests of a user among the messages. -/
def Standing.hear (s : Standing) (name : CStr) (w : List Message) : Standing :=
  if name ∈ sources w then s.receive else s

namespace Standing

variable {s : Standing} {name : CStr} {w : List Message}

theorem hear_of_mem (h : name ∈ sources w) : s.hear name w = s.receive := if_pos h

theorem hear_of_not_mem (h : name ∉ sources w) : s.hear name w = s := if_neg h

theorem hear_of_known (h : s.Known) : s.hear name w = s := by
  by_cases hmem : name ∈ sources w
  · rw [hear_of_mem hmem, receive_of_known h]
  · exact hear_of_not_mem hmem

theorem hear_hear (s : Standing) (name : CStr) (w₁ w₂ : List Message) :
    (s.hear name w₁).hear name w₂ = s.hear name (w₁ ++ w₂) := by
  by_cases h₁ : name ∈ sources w₁
  · have hmem : name ∈ sources (w₁ ++ w₂) := by simp [h₁]
    rw [hear_of_mem h₁, hear_of_known (known_receive s), hear_of_mem hmem]
  · rw [hear_of_not_mem h₁]
    simp [hear, h₁]

end Standing

/-- Callbacks change the standing of those who sent a request, as one request of theirs would. -/
theorem standing_callbacks [Tomcrypt κ] {w : List Message} :
    ∀ {p q : Proc τ κ}, callbacks p w = some q →
      ∀ name, standing q.psn name = (standing p.psn name).hear name w := by
  induction w with
  | nil =>
    intro p q h name
    obtain rfl : p = q := Option.some_inj.mp h
    rfl
  | cons m w ih =>
    intro p q h name
    obtain ⟨⟨outs, q'⟩, hrun, rfl⟩ := Option.map_eq_some_iff.mp h
    obtain ⟨o, r, outs', hstep, hrest, -⟩ := run_cons_eq_some.mp hrun
    rw [ih (p := r) (by simp [callbacks, hrest]) name, standing_step hstep,
      ← List.singleton_append, ← Standing.hear_hear]
    by_cases hm : frequestSource m.topic = some name
    · have hmem : name ∈ sources [m] := by simp [sources, hm]
      simp only [Op.act, if_pos hm, Standing.hear_of_mem hmem, Standing.step]
    · have hmem : name ∉ sources [m] := by simp [sources, hm]
      simp only [Op.act, if_neg hm, Standing.hear_of_not_mem hmem]

/-! ### Interleaved and atomic calls -/

/-- The two calls that publish a friend request. -/
inductive Call
  | makeFriendReq (target message : CStr) (io : PublishIo)
  | acceptFriendReq (target : CStr) (io : PublishIo)
  deriving DecidableEq, Repr

/-- The call as one operation. -/
def Call.op : Call → Op
  | .makeFriendReq target message io => .makeFriendReq target message io
  | .acceptFriendReq target io => .acceptFriendReq target io

/-- The user the call names. -/
def Call.target : Call → CStr
  | .makeFriendReq target _ _ => target
  | .acceptFriendReq target _ => target

/-- What the call is for the user it names. -/
def Call.act : Call → Standing.Act
  | .makeFriendReq .. => .request
  | .acceptFriendReq .. => .accept

omit [UserTable τ κ] in
theorem act_op {p : Proc τ κ} (h : Ready p) (c : Call) (name : CStr) :
    c.op.act p name = if c.target = name then some c.act else none := by
  cases c with
  | makeFriendReq target message io => exact act_makeFriendReq h target message io name
  | acceptFriendReq target io => exact act_acceptFriendReq h target io name

/-- The call gets past its checks and lookups, and has steps to interleave with. -/
def Call.Starts (p : Proc τ κ) : Call → Prop
  | .makeFriendReq .. => Ready p
  | .acceptFriendReq target _ => Ready p ∧ target ∈ keys p.psn.friendRequestsIncoming

theorem Call.Starts.ready {p : Proc τ κ} {c : Call} (h : c.Starts p) : Ready p := by
  cases c with
  | makeFriendReq target message io => exact h
  | acceptFriendReq target io => exact h.1

instance (p : Proc τ κ) : (c : Call) → Decidable (c.Starts p)
  | .makeFriendReq .. => inferInstanceAs (Decidable (Ready p))
  | .acceptFriendReq .. => inferInstanceAs (Decidable (_ ∧ _))

/-- The steps of a call with the callbacks `w₁` before its publish and `w₂` between its publish
and its last insertion. A call that does not start has no steps, and the callbacks run alone. -/
def Call.interleaved [Tomcrypt κ] (p : Proc τ κ) (w₁ w₂ : List Message) :
    Call → Option (Proc τ κ)
  | .makeFriendReq target message io =>
    if Ready p then do
      let p₁ ← callbacks p w₁
      let _ ← makeFriendReqPublish p₁.psn target message io
      let p₂ ← callbacks p₁ w₂
      let psn ← makeFriendReqInsert p₂.psn target
      return { p₂ with psn }
    else callbacks p (w₁ ++ w₂)
  | .acceptFriendReq target io =>
    if Ready p then
      match find p.psn.friendRequestsIncoming target with
      | none => callbacks p (w₁ ++ w₂)
      | some inList => do
        let user := record p.psn.friendRequestsIncoming inList
        let p₁ ← callbacks { p with psn := acceptFriendReqDelete p.psn inList } w₁
        let _ ← acceptFriendReqPublish p₁.psn target io
        let p₂ ← callbacks p₁ w₂
        return { p₂ with psn := acceptFriendReqInsert p₂.psn user }
    else callbacks p (w₁ ++ w₂)

/-- The whole call as one step at the moment of its publish, between the same callbacks. -/
def Call.atomic [Tomcrypt κ] (p : Proc τ κ) (w₁ w₂ : List Message) (c : Call) :
    Option (Proc τ κ) :=
  if c.Starts p then do
    let p₁ ← callbacks p w₁
    let r ← p₁.step c.op
    callbacks r.2 w₂
  else callbacks p (w₁ ++ w₂)

/-- Everybody is in the same lists of both clients. -/
def SameMembers (p q : Proc τ κ) : Prop :=
  ∀ name, (name ∈ keys p.psn.friendRequestsIncoming ↔ name ∈ keys q.psn.friendRequestsIncoming) ∧
    (name ∈ keys p.psn.friends ↔ name ∈ keys q.psn.friends) ∧
    (name ∈ keys p.psn.friendRequestsOutgoing ↔ name ∈ keys q.psn.friendRequestsOutgoing)

/-- The interleaved call ends with the memberships of the atomic one. -/
def AtomicAtPublish [Tomcrypt κ] (p : Proc τ κ) (c : Call) (w₁ w₂ : List Message) : Prop :=
  ∃ q q', c.interleaved p w₁ w₂ = some q ∧ c.atomic p w₁ w₂ = some q' ∧ SameMembers q q'

/-- No request of the target disturbs the call: none arrives in a window that matters, or the
lists hide it. -/
def Call.Undisturbed (p : Proc τ κ) (w₁ w₂ : List Message) : Call → Prop
  | .makeFriendReq target _ _ => ¬Ready p ∨ target ∉ sources w₂ ∨ target ∈ sources w₁ ∨
      target ∈ keys p.psn.friendRequestsIncoming ∨ target ∈ keys p.psn.friends ∨
      target ∈ keys p.psn.friendRequestsOutgoing
  | .acceptFriendReq target _ => ¬Ready p ∨ target ∉ keys p.psn.friendRequestsIncoming ∨
      target ∉ sources (w₁ ++ w₂) ∨ 2 ≤ (keys p.psn.friendRequestsOutgoing).count target

theorem sameMembers_iff {p q : Proc τ κ} :
    SameMembers p q ↔ ∀ name, (standing p.psn name).Alike (standing q.psn name) := by
  simp only [SameMembers, Standing.Alike, incoming_pos_iff, friends_pos_iff, outgoing_pos_iff]

/-- Two clients that differ in the standing of one user at most. -/
theorem sameMembers_iff_of_ne {p q : Proc τ κ} (target : CStr)
    (h : ∀ name, name ≠ target → standing p.psn name = standing q.psn name) :
    SameMembers p q ↔ (standing p.psn target).Alike (standing q.psn target) := by
  rw [sameMembers_iff]
  refine ⟨fun hall => hall target, fun htarget name => ?_⟩
  by_cases hn : name = target
  · rwa [hn]
  · rw [h name hn]
    exact Standing.Alike.refl _

theorem atomicAtPublish_iff_of_eq [Tomcrypt κ] {p q q' : Proc τ κ} {c : Call}
    {w₁ w₂ : List Message} (hq : c.interleaved p w₁ w₂ = some q)
    (hq' : c.atomic p w₁ w₂ = some q') : AtomicAtPublish p c w₁ w₂ ↔ SameMembers q q' := by
  simp [AtomicAtPublish, hq, hq']

/-- Without callbacks, the steps of a call are the call. -/
theorem interleaved_nil [Tomcrypt κ] (p : Proc τ κ) (c : Call) :
    c.interleaved p [] [] = (p.step c.op).map Prod.snd := by
  cases c with
  | makeFriendReq target message io =>
    by_cases hready : Ready p
    · simp only [Call.interleaved, if_pos hready, callbacks_nil, Call.op, Proc.step,
        psnMakeFriendReq_of_ready hready, Option.bind_eq_bind, Option.bind_some]
      cases makeFriendReqPublish p.psn target message io with
      | none => rfl
      | some effects => cases makeFriendReqInsert p.psn target <;> rfl
    · obtain ⟨r, hr, hp⟩ := psnMakeFriendReq_of_not_ready hready target message io
      simp [Call.interleaved, hready, Call.op, Proc.step, hr, hp]
  | acceptFriendReq target io =>
    by_cases hready : Ready p
    · cases hfind : find p.psn.friendRequestsIncoming target with
      | none =>
        have hnot : ¬(Ready p ∧ target ∈ keys p.psn.friendRequestsIncoming) := fun h =>
          find_eq_none_iff.mp hfind h.2
        obtain ⟨r, hr, hp⟩ := psnAcceptFriendReq_of_not_starts hnot io
        simp [Call.interleaved, hready, hfind, Call.op, Proc.step, hr, hp]
      | some inList =>
        simp only [Call.interleaved, if_pos hready, hfind, callbacks_nil, Call.op, Proc.step,
          psnAcceptFriendReq_of_find hready hfind, Option.bind_eq_bind, Option.bind_some]
        cases acceptFriendReqPublish (acceptFriendReqDelete p.psn inList) target io <;> rfl
    · have hnot : ¬(Ready p ∧ target ∈ keys p.psn.friendRequestsIncoming) := fun h => hready h.1
      obtain ⟨r, hr, hp⟩ := psnAcceptFriendReq_of_not_starts hnot io
      simp [Call.interleaved, hready, Call.op, Proc.step, hr, hp]

/-! ### What the two ways of running a call do to a standing -/

namespace Standing

variable {s : Standing} {name : CStr} {w : List Message}

/-- A request recorded after its answers were heard, or before. -/
theorem alike_hear_request_iff (s : Standing) (name : CStr) (w₁ w₂ : List Message) :
    ((s.hear name w₁).hear name w₂).request.Alike ((s.hear name w₁).request.hear name w₂) ↔
      name ∉ sources w₂ ∨ name ∈ sources w₁ ∨ s.Known ∨ 0 < s.outgoing := by
  by_cases h₂ : name ∈ sources w₂
  · rw [hear_of_mem h₂, hear_of_mem h₂, alike_receive_request_iff]
    by_cases h₁ : name ∈ sources w₁
    · rw [hear_of_mem h₁]
      exact iff_of_true (Or.inl (known_receive s)) (Or.inr (Or.inl h₁))
    · simp [hear_of_not_mem h₁, h₁, h₂]
  · rw [hear_of_not_mem h₂, hear_of_not_mem h₂]
    exact iff_of_true (Alike.refl _) (Or.inl h₂)

/-- A user accepted around his own requests, or at one moment between them. -/
theorem alike_hear_befriend_iff (name : CStr) (hu : s.Unique) (hi : 0 < s.incoming)
    (w₁ w₂ : List Message) :
    ((s.refuse.hear name w₁).hear name w₂).befriend.Alike
        ((s.hear name w₁).accept.hear name w₂) ↔
      name ∉ sources (w₁ ++ w₂) ∨ 2 ≤ s.outgoing := by
  have hk : s.Known := Or.inl hi
  rw [hear_hear, hear_of_known hk, hear_of_known hk.accept]
  by_cases h : name ∈ sources (w₁ ++ w₂)
  · rw [hear_of_mem h, alike_receive_befriend_iff hu hi]
    exact ⟨Or.inr, fun hor => hor.resolve_left fun hnot => hnot h⟩
  · rw [hear_of_not_mem h, accept_of_pos hi]
    exact iff_of_true (Alike.refl _) (Or.inl h)

end Standing

/-! ### The two ways of running a call agree -/

/-- `psn_make_friend_req` with callbacks inside. -/
theorem interleaved_makeFriendReq [Tomcrypt κ] {p : Proc τ κ} (h : Ready p) {target : CStr}
    (ht : target.length < 32) (message : CStr) (io : PublishIo) {w₁ w₂ : List Message}
    (hw : ∀ m ∈ w₁ ++ w₂, m.IsFrequest) :
    ∃ q, (Call.makeFriendReq target message io).interleaved p w₁ w₂ = some q ∧
      ∀ name, standing q.psn name =
        let s := ((standing p.psn name).hear name w₁).hear name w₂
        if target = name then s.request else s := by
  obtain ⟨p₁, hp₁⟩ := exists_callbacks p w₁ fun m hm => hw m (List.mem_append_left _ hm)
  obtain ⟨p₂, hp₂⟩ := exists_callbacks p₁ w₂ fun m hm => hw m (List.mem_append_right _ hm)
  obtain ⟨effects, hpub⟩ := exists_makeFriendReqPublish p₁.psn ht message io
  obtain ⟨psn, hins⟩ := exists_makeFriendReqInsert p₂.psn ht
  refine ⟨{ p₂ with psn }, ?_, fun name => ?_⟩
  · simp only [Call.interleaved, if_pos h, hp₁, hpub, hp₂, hins, Option.bind_eq_bind,
      Option.bind_some]
    rfl
  · rw [standing_makeFriendReqInsert hins, standing_callbacks hp₂, standing_callbacks hp₁]

/-- `psn_accept_friend_req` with callbacks inside. -/
theorem interleaved_acceptFriendReq [Tomcrypt κ] {p : Proc τ κ} (h : Ready p) {target : CStr}
    (hi : target ∈ keys p.psn.friendRequestsIncoming) (io : PublishIo) {w₁ w₂ : List Message}
    (hw : ∀ m ∈ w₁ ++ w₂, m.IsFrequest) :
    ∃ q, (Call.acceptFriendReq target io).interleaved p w₁ w₂ = some q ∧
      ∀ name, standing q.psn name =
        if target = name then
          (((standing p.psn name).refuse.hear name w₁).hear name w₂).befriend
        else ((standing p.psn name).hear name w₁).hear name w₂ := by
  obtain ⟨inList, hfind⟩ := exists_find_of_mem hi
  have hkey : (record p.psn.friendRequestsIncoming inList).name.1 = target :=
    key_record_of_find hfind
  obtain ⟨p₁, hp₁⟩ := exists_callbacks { p with psn := acceptFriendReqDelete p.psn inList }
    w₁ fun m hm => hw m (List.mem_append_left _ hm)
  obtain ⟨p₂, hp₂⟩ := exists_callbacks p₁ w₂ fun m hm => hw m (List.mem_append_right _ hm)
  obtain ⟨effects, hpub⟩ := exists_acceptFriendReqPublish p₁.psn (length_lt_of_mem_keys hi) io
  refine ⟨{ p₂ with
    psn := acceptFriendReqInsert p₂.psn (record p.psn.friendRequestsIncoming inList) },
    ?_, fun name => ?_⟩
  · simp only [Call.interleaved, if_pos h, hfind, hp₁, hpub, hp₂, Option.bind_eq_bind,
      Option.bind_some]
    rfl
  · rw [standing_acceptFriendReqInsert, hkey, standing_callbacks hp₂, standing_callbacks hp₁,
      standing_acceptFriendReqDelete hfind]
    by_cases hn : target = name <;> simp [hn]

/-- The call at the moment of its publish. -/
theorem atomic_of_starts [Tomcrypt κ] {p : Proc τ κ} {c : Call} (h : c.Starts p)
    (hc : c.op.WellFormed) {w₁ w₂ : List Message} (hw : ∀ m ∈ w₁ ++ w₂, m.IsFrequest) :
    ∃ q, c.atomic p w₁ w₂ = some q ∧ ∀ name, standing q.psn name =
      let s := (standing p.psn name).hear name w₁
      (if c.target = name then s.step c.act else s).hear name w₂ := by
  obtain ⟨p₁, hp₁⟩ := exists_callbacks p w₁ fun m hm => hw m (List.mem_append_left _ hm)
  obtain ⟨o, p₂, hp₂⟩ := exists_step p₁ hc
  obtain ⟨p₃, hp₃⟩ := exists_callbacks p₂ w₂ fun m hm => hw m (List.mem_append_right _ hm)
  have hready : Ready p₁ := (ready_of_session (session_callbacks hp₁)).mpr h.ready
  refine ⟨p₃, ?_, fun name => ?_⟩
  · simp only [Call.atomic, if_pos h, hp₁, hp₂, hp₃, Option.bind_eq_bind, Option.bind_some]
  · rw [standing_callbacks hp₃, standing_step hp₂, act_op hready, standing_callbacks hp₁]
    by_cases hn : c.target = name <;> simp [hn]

theorem sameMembers_refl (p : Proc τ κ) : SameMembers p p := fun _ =>
  ⟨Iff.rfl, Iff.rfl, Iff.rfl⟩

/-- A call that fails its checks or lookups has no steps to interleave with. -/
theorem atomicAtPublish_of_not_starts [Tomcrypt κ] {p : Proc τ κ} {c : Call} (h : ¬c.Starts p)
    {w₁ w₂ : List Message} (hw : ∀ m ∈ w₁ ++ w₂, m.IsFrequest) : AtomicAtPublish p c w₁ w₂ := by
  obtain ⟨q, hq⟩ := exists_callbacks p (w₁ ++ w₂) hw
  refine ⟨q, q, ?_, by rw [Call.atomic, if_neg h, hq], sameMembers_refl q⟩
  cases c with
  | makeFriendReq target message io =>
    have hready : ¬Ready p := h
    rw [Call.interleaved, if_neg hready, hq]
  | acceptFriendReq target io =>
    by_cases hready : Ready p
    · have hfind : find p.psn.friendRequestsIncoming target = none :=
        find_eq_none_iff.mpr fun hmem => h ⟨hready, hmem⟩
      simp only [Call.interleaved, if_pos hready, hfind, hq]
    · rw [Call.interleaved, if_neg hready, hq]

/-- **When a call is atomic at its publish.** In well-kept lists, a call with requests arriving
in its windows ends with the memberships of the atomic call exactly if no request of its target
disturbs it. -/
theorem atomicAtPublish_iff [Tomcrypt κ] {p : Proc τ κ} (hp : WellKept p.psn) {c : Call}
    (hc : c.op.WellFormed) {w₁ w₂ : List Message} (hw : ∀ m ∈ w₁ ++ w₂, m.IsFrequest) :
    AtomicAtPublish p c w₁ w₂ ↔ c.Undisturbed p w₁ w₂ := by
  by_cases hstarts : c.Starts p
  swap
  · refine iff_of_true (atomicAtPublish_of_not_starts hstarts hw) ?_
    cases c with
    | makeFriendReq target message io => exact Or.inl hstarts
    | acceptFriendReq target io =>
      rcases not_and_or.mp hstarts with hready | hmem
      · exact Or.inl hready
      · exact Or.inr (Or.inl hmem)
  obtain ⟨q', hq', hstanding'⟩ := atomic_of_starts hstarts hc hw
  cases c with
  | makeFriendReq target message io =>
    have hready : Ready p := hstarts
    obtain ⟨q, hq, hstanding⟩ := interleaved_makeFriendReq hready hc message io hw
    have htarget := Standing.alike_hear_request_iff (standing p.psn target) target w₁ w₂
    rw [known_iff, outgoing_pos_iff] at htarget
    rw [atomicAtPublish_iff_of_eq hq hq', sameMembers_iff_of_ne target]
    · rw [hstanding, hstanding']
      simp only [Call.target, Call.act, Standing.step, if_true, htarget, Call.Undisturbed]
      simp only [hready, not_true_eq_false, false_or, or_assoc]
    · intro name hn
      simp [hstanding, hstanding', Call.target, Ne.symm hn]
  | acceptFriendReq target io =>
    obtain ⟨hready, hmem⟩ := hstarts
    obtain ⟨q, hq, hstanding⟩ := interleaved_acceptFriendReq hready hmem io hw
    have htarget := Standing.alike_hear_befriend_iff target (wellKept_iff.mp hp target)
      (incoming_pos_iff.mpr hmem) w₁ w₂
    rw [atomicAtPublish_iff_of_eq hq hq', sameMembers_iff_of_ne target]
    · rw [hstanding, hstanding']
      simp only [Call.target, Call.act, Standing.step, if_true, htarget, Call.Undisturbed]
      simp only [hready, hmem, not_true_eq_false, false_or]
      exact Iff.rfl
    · intro name hn
      simp [hstanding, hstanding', Call.target, Ne.symm hn]

/-- The answer to a request that is not recorded yet is taken for a request. -/
theorem not_atomicAtPublish_answered :
    WellKept (concreteProc alice).psn ∧
      ¬AtomicAtPublish (concreteProc alice) (.makeFriendReq bob.bytes (lit "hi") .ok) []
        [⟨frequestTopic alice.bytes bob.bytes, []⟩] := by
  refine ⟨wellKept_init (concreteProc alice), ?_⟩
  rintro ⟨q, q', hq, hq', hsame⟩
  have hfriends : (Call.interleaved (concreteProc alice) []
      [⟨frequestTopic alice.bytes bob.bytes, []⟩]
      (.makeFriendReq bob.bytes (lit "hi") .ok)).map (fun r => keys r.psn.friends) = some [] := by
    decide
  have hfriends' : (Call.atomic (concreteProc alice) []
      [⟨frequestTopic alice.bytes bob.bytes, []⟩]
      (.makeFriendReq bob.bytes (lit "hi") .ok)).map (fun r => keys r.psn.friends) =
        some [bob.bytes] := by
    decide
  rw [hq, Option.map_some, Option.some_inj] at hfriends
  rw [hq', Option.map_some, Option.some_inj] at hfriends'
  have hbob := (hsame bob.bytes).2.1
  rw [hfriends, hfriends'] at hbob
  simp at hbob

/-- A request whose target had sent one before. -/
theorem atomicAtPublish_iff_crossed :
    AtomicAtPublish (concreteProc alice) (.makeFriendReq bob.bytes (lit "hi") .ok)
        [⟨frequestTopic alice.bytes bob.bytes, []⟩] [⟨frequestTopic alice.bytes bob.bytes, []⟩] ↔
      (Call.makeFriendReq bob.bytes (lit "hi") .ok).Undisturbed (concreteProc alice)
        [⟨frequestTopic alice.bytes bob.bytes, []⟩] [⟨frequestTopic alice.bytes bob.bytes, []⟩] :=
  atomicAtPublish_iff (p := concreteProc alice) (c := .makeFriendReq bob.bytes (lit "hi") .ok)
    (wellKept_init (concreteProc alice)) (show bob.bytes.length < 32 by decide) fun m hm => by
      obtain rfl : m = ⟨frequestTopic alice.bytes bob.bytes, []⟩ := by simpa using hm
      exact ⟨alice, bob, rfl⟩

end Psn

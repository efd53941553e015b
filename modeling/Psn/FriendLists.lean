import Psn.Executable
import Psn.Refinement

/-!
# The friend lists over whole runs

What the three lists of one client look like after any run of operations, whoever is named in
them and in whatever order.

The friends and the incoming requests are well kept: nobody is recorded twice, and nobody is
recorded as both. The code never checks for this when it inserts; it follows from the lookups
that the callback makes. The outgoing requests are not: `psn_make_friend_req` records a target
without looking for him, and `outgoing_pendingOnly_iff` says that this is the only way to spoil
them.

## Main results

* `friendLists_wellKept`: friends and incoming requests after any run
* `outgoing_pendingOnly_iff`: when the outgoing requests stay unique and pending only
* `redelivery_harmless`: delivering a request again changes nothing
-/

namespace Psn

open KeyedChain PartialMachine

variable {τ κ : Type} [UserTable τ κ]

/-! ### Friends and incoming requests -/

/-- Nobody is recorded twice as a friend, nobody twice as waiting, and nobody as both. -/
structure WellKept (psn : PsnT τ κ) : Prop where
  friends_nodup : (keys psn.friends).Nodup
  incoming_nodup : (keys psn.friendRequestsIncoming).Nodup
  disjoint : ∀ name ∈ keys psn.friends, name ∉ keys psn.friendRequestsIncoming

/-- Well-kept lists are those in which every standing is unique. -/
theorem wellKept_iff {psn : PsnT τ κ} : WellKept psn ↔ ∀ name, (standing psn name).Unique := by
  constructor
  · intro h name
    have hf := List.nodup_iff_count_le_one.mp h.friends_nodup name
    have hi := List.nodup_iff_count_le_one.mp h.incoming_nodup name
    simp only [Standing.Unique, standing]
    by_cases hmem : name ∈ keys psn.friends
    · have hzero := List.count_eq_zero.mpr (h.disjoint name hmem)
      omega
    · have hzero := List.count_eq_zero.mpr hmem
      omega
  · intro h
    refine ⟨List.nodup_iff_count_le_one.mpr fun name => ?_,
      List.nodup_iff_count_le_one.mpr fun name => ?_, fun name hf hi => ?_⟩
    · have := h name
      simp only [Standing.Unique, standing] at this
      omega
    · have := h name
      simp only [Standing.Unique, standing] at this
      omega
    · have := h name
      have hfpos := friends_pos_iff.mpr hf
      have hipos := incoming_pos_iff.mpr hi
      simp only [Standing.Unique] at this
      omega

theorem wellKept_init (p : Proc τ κ) : WellKept p.init.psn :=
  wellKept_iff.mpr fun name => by simpa using Standing.unique_stranger

theorem WellKept.step [Tomcrypt κ] {p q : Proc τ κ} {op : Op} {o : Output}
    (h : WellKept p.psn) (hstep : p.step op = some (o, q)) : WellKept q.psn :=
  wellKept_iff.mpr
    (standing_forall_step (fun _ a hs => hs.step a) (wellKept_iff.mp h) hstep)

/-- In well-kept lists a refusal leaves no record of the refused. -/
theorem WellKept.not_mem_refuse {p : Proc τ κ} (h : WellKept p.psn) (t : CStr) :
    t ∉ keys (psnRefuseFriendReq p t).proc.psn.friendRequestsIncoming := by
  rw [← incoming_eq_zero_iff, standing_psnRefuseFriendReq, if_pos rfl]
  have := wellKept_iff.mp h t
  simp only [Standing.Unique] at this
  simp only [Standing.refuse]
  omega

/-- In well-kept lists a deletion leaves no record of the deleted. -/
theorem WellKept.not_mem_delete {p : Proc τ κ} (h : WellKept p.psn) (t : CStr) :
    t ∉ keys (psnDeleteFriend p t).proc.psn.friends := by
  rw [← friends_eq_zero_iff, standing_psnDeleteFriend, if_pos rfl]
  have := wellKept_iff.mp h t
  simp only [Standing.Unique] at this
  simp only [Standing.delete]
  omega

/-- **Friends and incoming requests are well kept.** Every run of operations on well-formed names
is defined and ends in well-kept lists, so a refusal or a deletion that succeeds there leaves no
record of its target behind. -/
theorem friendLists_wellKept [Tomcrypt κ] (p : Proc τ κ) {ops : List Op}
    (hops : ∀ op ∈ ops, op.WellFormed) :
    ∃ outs q, run Proc.step p.init ops = some (outs, q) ∧ WellKept q.psn ∧
      (∀ t, (psnRefuseFriendReq q t).err = .success →
        t ∉ keys (psnRefuseFriendReq q t).proc.psn.friendRequestsIncoming) ∧
      ∀ t, (psnDeleteFriend q t).err = .success →
        t ∉ keys (psnDeleteFriend q t).proc.psn.friends := by
  obtain ⟨outs, q, hrun, hq⟩ := exists_run Proc.step (P := Op.WellFormed)
    (fun {s a} (hs : WellKept s.psn) ha => by
      obtain ⟨o, t, ht⟩ := exists_step s ha
      exact ⟨o, t, ht, hs.step ht⟩)
    (wellKept_init p) hops
  exact ⟨outs, q, hrun, hq, fun t _ => hq.not_mem_refuse t, fun t _ => hq.not_mem_delete t⟩

/-- A run in which a request crosses another, is taken for an acceptance, and the friend is
deleted and asks again. -/
theorem friendLists_wellKept_crossed :
    ∃ outs q, run Proc.step (concreteProc alice).init
        [.makeFriendReq bob.bytes (lit "hi") .ok, .frequest alice bob [],
          .makeFriendReq bob.bytes (lit "hi") .ok, .deleteFriend bob.bytes,
          .frequest alice bob []] = some (outs, q) ∧
      WellKept q.psn ∧
      (∀ t, (psnRefuseFriendReq q t).err = .success →
        t ∉ keys (psnRefuseFriendReq q t).proc.psn.friendRequestsIncoming) ∧
      ∀ t, (psnDeleteFriend q t).err = .success →
        t ∉ keys (psnDeleteFriend q t).proc.psn.friends :=
  friendLists_wellKept (concreteProc alice) fun op hop => by
    simp only [List.mem_cons, List.not_mem_nil, or_false] at hop
    rcases hop with rfl | rfl | rfl | rfl | rfl
    · exact show bob.bytes.length < 32 by decide
    · exact Op.wellFormed_frequest alice bob []
    · exact show bob.bytes.length < 32 by decide
    · trivial
    · exact Op.wellFormed_frequest alice bob []

/-! ### Outgoing requests -/

/-- Nobody was asked twice, and only strangers are being asked. -/
structure PendingOnly (psn : PsnT τ κ) : Prop where
  outgoing_nodup : (keys psn.friendRequestsOutgoing).Nodup
  stranger : ∀ name ∈ keys psn.friendRequestsOutgoing,
    name ∉ keys psn.friends ∧ name ∉ keys psn.friendRequestsIncoming

/-- A request that passes its checks names somebody who is in none of the lists. -/
def AsksStranger (p : Proc τ κ) : Op → Prop
  | .makeFriendReq target _ _ => Ready p → target ∉ keys p.psn.friendRequestsOutgoing ∧
      target ∉ keys p.psn.friends ∧ target ∉ keys p.psn.friendRequestsIncoming
  | _ => True

/-- In well-kept lists, outgoing requests are unique and pending only if every standing is
exclusive. -/
theorem pendingOnly_iff {psn : PsnT τ κ} (h : WellKept psn) :
    PendingOnly psn ↔ ∀ name, (standing psn name).Exclusive := by
  constructor
  · intro hp name
    have hu := wellKept_iff.mp h name
    have ho := List.nodup_iff_count_le_one.mp hp.outgoing_nodup name
    simp only [Standing.Unique, Standing.Exclusive] at hu ⊢
    by_cases hmem : name ∈ keys psn.friendRequestsOutgoing
    · obtain ⟨hf, hi⟩ := hp.stranger name hmem
      have hf := friends_eq_zero_iff.mpr hf
      have hi := incoming_eq_zero_iff.mpr hi
      simp only [standing] at hf hi ho ⊢
      omega
    · have ho := outgoing_eq_zero_iff.mpr hmem
      omega
  · intro he
    refine ⟨List.nodup_iff_count_le_one.mpr fun name => ?_, fun name hmem => ?_⟩
    · have := he name
      simp only [Standing.Exclusive, standing] at this
      omega
    · have hpos := outgoing_pos_iff.mpr hmem
      have := he name
      simp only [Standing.Exclusive] at this
      exact ⟨friends_eq_zero_iff.mp (by omega), incoming_eq_zero_iff.mp (by omega)⟩

theorem standing_eq_stranger_iff {psn : PsnT τ κ} {name : CStr} :
    standing psn name = Standing.stranger ↔ name ∉ keys psn.friendRequestsOutgoing ∧
      name ∉ keys psn.friends ∧ name ∉ keys psn.friendRequestsIncoming := by
  rw [← outgoing_eq_zero_iff, ← friends_eq_zero_iff, ← incoming_eq_zero_iff, Standing.ext_iff]
  simp only [Standing.stranger]
  constructor
  · rintro ⟨hi, hf, ho⟩
    exact ⟨ho, hf, hi⟩
  · rintro ⟨ho, hf, hi⟩
    exact ⟨hi, hf, ho⟩

/-- Where the outgoing requests are unique and pending only, asking a stranger is what keeps them
so. -/
theorem asksStranger_iff [Tomcrypt κ] {p : Proc τ κ} {op : Op} (hw : WellKept p.psn)
    (hp : PendingOnly p.psn) :
    AsksStranger p op ↔ ∀ o q, p.step op = some (o, q) → PendingOnly q.psn := by
  have he := (pendingOnly_iff hw).mp hp
  constructor
  · intro hask o q hstep
    refine (pendingOnly_iff (hw.step hstep)).mpr fun name => ?_
    rw [standing_step hstep]
    cases hact : op.act p name with
    | none => exact he name
    | some a =>
      by_cases ha : a = .request
      · subst ha
        obtain ⟨message, io, rfl, hready⟩ := act_eq_request hact
        exact Standing.exclusive_request_iff.mpr (standing_eq_stranger_iff.mpr (hask hready))
      · exact (he name).step ha
  · intro hnext
    cases op with
    | makeFriendReq target message io =>
      intro hready
      by_cases hlen : target.length < 32
      · obtain ⟨o, q, hstep⟩ := exists_step p
          (show (Op.makeFriendReq target message io).WellFormed from hlen)
        have hq := (pendingOnly_iff (hw.step hstep)).mp (hnext o q hstep) target
        rw [standing_step hstep, Op.act, if_pos ⟨hready.1, hready.2, rfl⟩] at hq
        exact standing_eq_stranger_iff.mp (Standing.exclusive_request_iff.mp hq)
      · -- a target that does not fit is in no list
        exact ⟨fun h => hlen (length_lt_of_mem_keys h), fun h => hlen (length_lt_of_mem_keys h),
          fun h => hlen (length_lt_of_mem_keys h)⟩
    | _ => trivial

/-- **When outgoing requests are unique and pending only.** In every run from the lists of
`psn_init`, they are so in every state exactly if every request that passes its checks names
somebody who is in none of the three lists at that moment. -/
theorem outgoing_pendingOnly_iff [Tomcrypt κ] (p : Proc τ κ) (ops : List Op) :
    Always Proc.step (fun q => PendingOnly q.psn) p.init ops ↔
      Along Proc.step AsksStranger p.init ops :=
  always_iff_along (J := fun q => WellKept q.psn) (fun hw hstep => hw.step hstep)
    (fun hw hp => asksStranger_iff hw hp) (wellKept_init p)
    ((pendingOnly_iff (wellKept_init p)).mpr fun name => by
      simpa using Standing.exclusive_stranger)

/-- Asking the same user twice records him twice. -/
theorem not_pendingOnly_asked_twice :
    ¬Always Proc.step (fun q => PendingOnly q.psn) (concreteProc alice).init
      [.makeFriendReq bob.bytes (lit "hi") .ok, .makeFriendReq bob.bytes (lit "hi") .ok] := by
  intro h
  have hrun : (run Proc.step (concreteProc alice).init
      [.makeFriendReq bob.bytes (lit "hi") .ok, .makeFriendReq bob.bytes (lit "hi") .ok]).map
        (fun r => keys r.2.psn.friendRequestsOutgoing) = some [bob.bytes, bob.bytes] := by decide
  obtain ⟨⟨outs, q⟩, hq, hkeys⟩ := Option.map_eq_some_iff.mp hrun
  have hnodup := (h.of_run hq).outgoing_nodup
  rw [show keys q.psn.friendRequestsOutgoing = [bob.bytes, bob.bytes] from hkeys] at hnodup
  exact absurd hnodup (by decide)

/-! ### Redelivery -/

/-- A request from somebody who was heard of is dropped. -/
theorem step_frequest_of_known [Tomcrypt κ] {p : Proc τ κ} {source : UserName}
    (h : (standing p.psn source.bytes).Known) (target : UserName) (payload : Bytes) :
    p.step (.frequest target source payload) = some (⟨none, []⟩, p) := by
  obtain ⟨psn', effects, hcb⟩ := exists_psnMessageCallback p.psn target source payload
  obtain ⟨rfl, rfl⟩ : psn' = p.psn ∧ effects = [] := by
    cases psnMessageCallback_eq_some hcb with
    | ignored => exact ⟨rfl, rfl⟩
    | displayed sender hf hpayload htopic =>
      rw [tokenise_frequestTopic] at htopic
      simp at htopic
    | frequest source' hsource hr =>
      obtain rfl : source.bytes = source' := by simpa using hsource
      cases hr with
      | known => exact ⟨rfl, rfl⟩
      | accepted hi hf => exact absurd (known_iff.mp h) (not_or.mpr ⟨hi, hf⟩)
      | recorded hi hf => exact absurd (known_iff.mp h) (not_or.mpr ⟨hi, hf⟩)
  simp only [Op.frequest, Proc.step, hcb, Option.map_some]

/-- Somebody who was heard of stays known until he is refused or deleted. -/
theorem known_step [Tomcrypt κ] {p q : Proc τ κ} {op : Op} {o : Output} {name : CStr}
    (h : (standing p.psn name).Known) (hr : op ≠ .refuseFriendReq name)
    (hd : op ≠ .deleteFriend name) (hstep : p.step op = some (o, q)) :
    (standing q.psn name).Known := by
  rw [standing_step hstep]
  cases hact : op.act p name with
  | none => exact h
  | some a =>
    refine h.step ?_ ?_
    · rintro rfl
      cases op <;> simp [Op.act] at hact
      exact hr (by rw [hact])
    · rintro rfl
      cases op <;> simp [Op.act] at hact
      exact hd (by rw [hact])

/-- Whoever sends a request was heard of afterwards. -/
theorem known_frequest [Tomcrypt κ] {p q : Proc τ κ} {target source : UserName}
    {payload : Bytes} {o : Output}
    (hstep : p.step (.frequest target source payload) = some (o, q)) :
    (standing q.psn source.bytes).Known := by
  have hact : (Op.frequest target source payload).act p source.bytes = some .receive := by
    simp [Op.frequest, Op.act]
  rw [standing_step hstep, hact]
  exact Standing.known_receive _

/-- **Redelivery is harmless.** Insert one more delivery of a request at any later point of a
run, with no refusal and no deletion of its source in between. The run still exists, ends in the
same client, and reports the same, except that the new delivery reports nothing. -/
theorem redelivery_harmless [Tomcrypt κ] (p : Proc τ κ) (target source : UserName)
    (payload : Bytes) (pre mid post : List Op) (hops : ∀ op ∈ pre ++ mid ++ post, op.WellFormed)
    (hmid : ∀ op ∈ mid, op ≠ .refuseFriendReq source.bytes ∧ op ≠ .deleteFriend source.bytes) :
    ∃ before after q, before.length = (pre ++ .frequest target source payload :: mid).length ∧
      run Proc.step p (pre ++ .frequest target source payload :: mid ++ post) =
        some (before ++ after, q) ∧
      run Proc.step p
          (pre ++ .frequest target source payload :: mid ++
            .frequest target source payload :: post) =
        some (before ++ ⟨none, []⟩ :: after, q) := by
  set d := Op.frequest target source payload
  have hwf : ∀ op ∈ pre ++ d :: mid, op.WellFormed := by
    intro op hop
    rcases List.mem_append.mp hop with h | h
    · exact hops op (by simp [h])
    rcases List.mem_cons.mp h with rfl | h
    · exact Op.wellFormed_frequest target source payload
    · exact hops op (by simp [h])
  obtain ⟨before, r, hr⟩ := exists_run_step p _ hwf
  obtain ⟨after, q, hq⟩ := exists_run_step r post fun op h => hops op (by simp [h])
  -- the source is known right after its first delivery, and `mid` does not make anybody forget
  have hknown : (standing r.psn source.bytes).Known := by
    obtain ⟨_, p₁, _, -, hrest, -⟩ := run_append_eq_some.mp hr
    obtain ⟨_, p₂, _, hstep, hmidrun, -⟩ := run_cons_eq_some.mp hrest
    exact invariant_of_run Proc.step
      (I := fun s => (standing s.psn source.bytes).Known)
      (P := fun op => op ≠ .refuseFriendReq source.bytes ∧ op ≠ .deleteFriend source.bytes)
      (fun hs ha hstep => known_step hs ha.1 ha.2 hstep) (known_frequest hstep) hmid hmidrun
  refine ⟨before, after, q, length_of_run hr, ?_, ?_⟩
  · rw [run_append, hr, Option.bind_some, hq]
    rfl
  · rw [run_insert_of_noop (fun hs => step_frequest_of_known hs target payload) hr hknown, hq]
    rfl

/-- A request that is accepted and then delivered once more. -/
theorem redelivery_harmless_accepted :
    ∃ before after q, before.length = 2 ∧
      run Proc.step (concreteProc alice)
        [.frequest alice bob (lit "hi"), .acceptFriendReq bob.bytes .ok,
          .deleteFriend bob.bytes] = some (before ++ after, q) ∧
      run Proc.step (concreteProc alice)
        [.frequest alice bob (lit "hi"), .acceptFriendReq bob.bytes .ok,
          .frequest alice bob (lit "hi"), .deleteFriend bob.bytes] =
        some (before ++ ⟨none, []⟩ :: after, q) :=
  redelivery_harmless (concreteProc alice) alice bob (lit "hi") []
    [.acceptFriendReq bob.bytes .ok] [.deleteFriend bob.bytes]
    (fun op hop => by
      simp only [List.nil_append, List.singleton_append, List.mem_cons, List.not_mem_nil,
        or_false] at hop
      rcases hop with rfl | rfl <;> trivial)
    (by decide)

end Psn

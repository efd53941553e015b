import Psn.FriendLists
import Psn.Network

/-!
# Agreement between two sides

One kind of message serves as a request and as its acceptance, and the receiver decides by his
own lists which of the two it is. This file is about what two clients believe about each other
when requests cross, are repeated and are delivered late or twice, as long as nobody refuses or
deletes anybody and every publish succeeds.

`Net.Courted` is the joint invariant: whoever has published a request is still on his way or was
heard of, and wants the other for ever after. It says that no request is orphaned
(`no_request_orphaned`). It does not say that the two sides agree: a client that asks somebody who
is waiting for its answer tells him that it accepts, and records no acceptance of its own.
`friends_symmetric` is about the runs in which this does not happen.

What each side believes is read off its lists as a `Standing`, one for every pair of clients, and a
step of the network changes the standings of one client only. So the invariant is about pairs as
well: `wants` connects what a client has published with what its own lists say, and `heard` with
what the lists of the other one say. The first holds at any moment, the second up to the messages in
flight.

## Scope

The network may deliver any message late, twice or never, but it does not invent any. A publish that
fails is left out, since `psn_make_friend_req` records a request that was never sent; what follows
from this is in `Psn.Handover`. Refusals and deletions are left out as well. Nothing is told to
the other side when a client refuses it, so the two would not agree.

The clients are connected and stay so. A courtship has no call that changes the session.

## Main results

* `Net.Courted.step`: the joint invariant
* `friends_symmetric`: agreement, if nobody asks whom he could accept
* `no_request_orphaned`: a request that arrived is known, and leads to a friendship
-/

namespace Psn

open KeyedChain PartialMachine

variable {ι τ κ : Type}

/-! ### Calls whose publish succeeds -/

/-- The operations of a courtship: ask or accept another client, with a publish that succeeds. -/
inductive Op.Courts (name : ι → UserName) : Op → Prop
  | request (j : ι) (message : CStr) (hlen : message.length ≤ 268435455) :
      Courts name (.makeFriendReq (name j).bytes message .ok)
  | accept (j : ι) : Courts name (.acceptFriendReq (name j).bytes .ok)

section Client

variable [Tomcrypt κ] [UserTable τ κ] {p q : Proc τ κ} {o : Output} {u v : UserName}

/-- Asking publishes one request, whatever the lists say. -/
theorem messages_makeFriendReq (hu : p.psn.username = u.field) (hready : Ready p) {message : CStr}
    (hlen : message.length ≤ 268435455)
    (h : p.step (.makeFriendReq v.bytes message .ok) = some (o, q)) :
    o.messages = [⟨frequestTopic v.bytes u.bytes, message⟩] := by
  obtain ⟨r, hr, rfl, -⟩ := exists_reply h
  rcases psnMakeFriendReq_eq_some hr with ⟨hnot, -⟩ | ⟨-, -, -, hpub, -⟩
  · exact absurd hready hnot
  obtain ⟨m, hm⟩ := Option.ne_none_iff_exists'.mp hready.1
  have hsize : intOfSize message.length = message.length := intOfSize_of_lt (by omega)
  rw [Output.messages, Reply.result_effects, makeFriendReqPublish_eq_some hpub, hm, hu, hsize,
    UserName.field_val, mosquittoPublish_frequestTopic m v u message hlen]
  rfl

/-- Accepting somebody who waits publishes the same kind of message, without a text. -/
theorem messages_acceptFriendReq (hu : p.psn.username = u.field) (hready : Ready p)
    (hi : v.bytes ∈ keys p.psn.friendRequestsIncoming)
    (h : p.step (.acceptFriendReq v.bytes .ok) = some (o, q)) :
    o.messages = [⟨frequestTopic v.bytes u.bytes, []⟩] := by
  obtain ⟨r, hr, rfl, -⟩ := exists_reply h
  rcases psnAcceptFriendReq_eq_some hr with ⟨hnot, -⟩ | ⟨-, hnot, -⟩ | ⟨_, -, -, -, -, hpub, -⟩
  · exact absurd hready hnot
  · exact absurd hi hnot
  obtain ⟨m, hm⟩ := Option.ne_none_iff_exists'.mp hready.1
  have hok : mosquittoPublish (some m) (frequestTopic v.bytes u.bytes) 0 [] .ok =
      (.success, [.publish m (frequestTopic v.bytes u.bytes) []]) :=
    mosquittoPublish_frequestTopic m v u [] (Nat.zero_le _)
  rw [Output.messages, Reply.result_effects, acceptFriendReqPublish_eq_some hpub, hm, hu,
    UserName.field_val, hok]
  rfl

/-- Accepting somebody who does not wait publishes nothing. -/
theorem messages_acceptFriendReq_of_not_mem (hready : Ready p)
    (hi : v.bytes ∉ keys p.psn.friendRequestsIncoming)
    (h : p.step (.acceptFriendReq v.bytes .ok) = some (o, q)) : o.messages = [] := by
  obtain ⟨r, hr, rfl, -⟩ := exists_reply h
  rcases psnAcceptFriendReq_eq_some hr with ⟨hnot, -⟩ | ⟨-, -, -, -, hnone⟩ | ⟨_, -, hfind, -⟩
  · exact absurd hready hnot
  · rw [Output.messages, Reply.result_effects, hnone]
    rfl
  · exact absurd (mem_keys_of_find hfind) hi

/-- And so does hearing of a request. -/
theorem messages_receive {m : Message} (h : p.step (.receive m) = some (o, q)) :
    o.messages = [] := by
  obtain ⟨⟨psn', effects⟩, hcb, heq⟩ := Option.map_eq_some_iff.mp h
  cases heq
  cases psnMessageCallback_eq_some hcb with
  | ignored => rfl
  | displayed => rfl
  | frequest source hsource hr => cases hr <;> rfl

/-- A friend request or an acceptance for `v` is among the messages of a client named `u`. -/
def Output.Addresses (o : Output) (v u : UserName) : Prop :=
  ∃ payload, ⟨frequestTopic v.bytes u.bytes, payload⟩ ∈ o.messages

/-- One message is for one user: the topic tells who it is. -/
theorem addresses_of_messages {w : UserName} {payload : CStr}
    (h : o.messages = [⟨frequestTopic w.bytes u.bytes, payload⟩]) :
    o.Addresses v u ↔ w = v := by
  constructor
  · rintro ⟨payload', hmem⟩
    rw [h, List.mem_singleton] at hmem
    exact (frequestTopic_inj (congrArg Message.topic hmem)).1.symm
  · rintro rfl
    exact ⟨payload, by rw [h]; exact List.mem_singleton_self _⟩

/-- A courting client addresses exactly those whom it asks or accepts. -/
theorem addresses_iff {name : ι → UserName} (hu : p.psn.username = u.field) (hready : Ready p)
    {op : Op} (hop : op.Courts name) (h : p.step op = some (o, q)) :
    o.Addresses v u ↔ op.act p v.bytes = some .request ∨
      (op.act p v.bytes = some .accept ∧ 0 < (standing p.psn v.bytes).incoming) := by
  cases hop with
  | request j message hlen =>
    rw [addresses_of_messages (messages_makeFriendReq hu hready hlen h),
      act_makeFriendReq hready, ← UserName.bytes_inj]
    simp
  | accept j =>
    rw [act_acceptFriendReq hready]
    -- accepting addresses somebody only if he waits for it
    by_cases hi : (name j).bytes ∈ keys p.psn.friendRequestsIncoming
    · rw [addresses_of_messages (messages_acceptFriendReq hu hready hi h), ← UserName.bytes_inj]
      by_cases hv : (name j).bytes = v.bytes
      · simp [← hv, incoming_pos_iff, hi]
      · simp [hv]
    · have hnone : ¬o.Addresses v u := by
        rintro ⟨payload, hmem⟩
        rw [messages_acceptFriendReq_of_not_mem hready hi h] at hmem
        cases hmem
      refine iff_of_false hnone ?_
      rintro (hact | ⟨hact, hpos⟩)
      · simp at hact
      · obtain ⟨hv, -⟩ := Option.ite_none_right_eq_some.mp hact
        rw [hv] at hi
        exact hi (incoming_pos_iff.mp hpos)

omit [Tomcrypt κ] [UserTable τ κ] in
/-- A courting client neither refuses nor deletes. -/
theorem act_of_courts {name : ι → UserName} {op : Op} (hop : op.Courts name) {n : CStr}
    {a : Standing.Act} (h : op.act p n = some a) : a ≠ .refuse ∧ a ≠ .delete := by
  cases hop <;> obtain ⟨-, heq⟩ := Option.ite_none_right_eq_some.mp h <;> cases heq <;> simp

omit [Tomcrypt κ] [UserTable τ κ] in
/-- Only a friend request is something to hear of. -/
theorem act_receive_eq {m : Message} {n : CStr} {a : Standing.Act}
    (h : (Op.receive m).act p n = some a) : a = .receive ∧ frequestSource m.topic = some n := by
  obtain ⟨hsource, heq⟩ := Option.ite_none_right_eq_some.mp h
  exact ⟨(Option.some_inj.mp heq).symm, hsource⟩

omit [Tomcrypt κ] [UserTable τ κ] in
/-- A message neither refuses nor deletes. -/
theorem act_of_receive {m : Message} {n : CStr} {a : Standing.Act}
    (h : (Op.receive m).act p n = some a) : a ≠ .refuse ∧ a ≠ .delete := by
  rw [(act_receive_eq h).1]
  exact ⟨by simp, by simp⟩

/-- A client that receives a message addresses nobody. -/
theorem not_addresses_receive {m : Message} (h : p.step (.receive m) = some (o, q)) :
    ¬o.Addresses v u := by
  rintro ⟨payload, hmem⟩
  rw [messages_receive h] at hmem
  cases hmem

end Client

namespace Net

/-! ### The joint invariant -/

/-- The actions of a courtship. -/
inductive Courting (name : ι → UserName) : Action ι → Prop
  | call (i : ι) (op : Op) (hop : op.Courts name) : Courting name (.call i op)
  | deliver (i : ι) (m : Message) (keep : Bool) : Courting name (.deliver i m keep)

section View

variable (name : ι → UserName)

/-- What the lists of `y` say about `x`. -/
def view [UserTable τ κ] (net : Net ι τ κ) (y x : ι) : Standing :=
  standing (net.proc y).psn (name x).bytes

/-- A request or an acceptance of `x` is in flight to `y`. -/
def Underway (net : Net ι τ κ) (x y : ι) : Prop :=
  ∃ payload, ⟨frequestTopic (name y).bytes (name x).bytes, payload⟩ ∈ net.inFlight

/-- No friend request is in flight between `x` and `y`. -/
def Quiescent (net : Net ι τ κ) (x y : ι) : Prop :=
  ¬net.Underway name x y ∧ ¬net.Underway name y x

/-- All clients are connected, and whoever has published a request to another client is on his
way to it or was heard of, and wants it. -/
structure Courted [UserTable τ κ] (net : Net ι τ κ) : Prop where
  /-- What the lists hold was published or called for. -/
  traced : net.Traced name
  /-- Every client can publish. -/
  ready : ∀ i, Ready (net.proc i)
  /-- The lists of a client name nobody twice. -/
  wellKept : ∀ i, WellKept (net.proc i).psn
  /-- A request that is not on its way is known to the one it was for. -/
  heard : ∀ x y, net.Requested name x y → net.Underway name x y ∨ (net.view name y x).Known
  /-- The lists of a client know whom it has asked or accepted. -/
  wants : ∀ x y, net.Requested name x y ↔ (net.view name x y).Wanted

end View

variable {name : ι → UserName}

/-- Nothing is published and no list holds anybody. -/
theorem courted_init [UserTable τ κ] {start : ι → Proc τ κ}
    (hstart : ∀ i, (start i).psn.username = (name i).field) (hready : ∀ i, Ready (start i)) :
    (init start).Courted name where
  traced := traced_init hstart
  ready := hready
  wellKept i := wellKept_init (start i)
  heard x y h := by
    obtain ⟨payload, hmem⟩ := h
    cases hmem
  wants x y := by
    refine iff_of_false ?_ ?_
    · rintro ⟨payload, hmem⟩
      cases hmem
    · simp [view, init, Standing.Wanted, Standing.stranger]

section Step

variable [DecidableEq ι]

/-- Who has published to whom, after an operation of one client. -/
theorem requested_record {net : Net ι τ κ} {x y i : ι} (op : Op) (o : Output) (p : Proc τ κ) :
    (net.record i op o p).Requested name x y ↔
      net.Requested name x y ∨ (x = i ∧ o.Addresses (name y) (name i)) := by
  constructor
  · rintro ⟨payload, hmem⟩
    rcases List.mem_append.mp hmem with hmem | hmem
    · exact Or.inl ⟨payload, hmem⟩
    · obtain ⟨m, hm, heq⟩ := List.mem_map.mp hmem
      cases heq
      exact Or.inr ⟨rfl, payload, hm⟩
  · rintro (h | ⟨rfl, payload, hmem⟩)
    · exact h.record i op o p
    · exact ⟨payload, List.mem_append_right _ (List.mem_map.mpr ⟨_, hmem, rfl⟩)⟩

/-- An operation takes nothing out of the network. -/
theorem Underway.record {net : Net ι τ κ} {x y : ι} (h : net.Underway name x y) (i : ι) (op : Op)
    (o : Output) (p : Proc τ κ) : (net.record i op o p).Underway name x y := by
  obtain ⟨payload, hmem⟩ := h
  exact ⟨payload, List.mem_append_left _ hmem⟩

omit [DecidableEq ι] in
/-- A message that is taken out was underway, or what was underway still is. -/
theorem Underway.take {net : Net ι τ κ} {x y : ι} (h : net.Underway name x y) (m : Message)
    (keep : Bool) : (net.take m keep).Underway name x y ∨
      ∃ payload, m = ⟨frequestTopic (name y).bytes (name x).bytes, payload⟩ := by
  obtain ⟨payload, hmem⟩ := h
  by_cases heq : m = ⟨frequestTopic (name y).bytes (name x).bytes, payload⟩
  · exact Or.inr ⟨payload, heq⟩
  · refine Or.inl ⟨payload, ?_⟩
    cases keep with
    | false => exact (List.mem_erase_of_ne (Ne.symm heq)).mpr hmem
    | true => exact hmem

variable [Tomcrypt κ] [UserTable τ κ]

/-- What a client's lists say after one of its operations. -/
theorem view_record_self {net : Net ι τ κ} {i : ι} {op : Op} {o : Output} {p : Proc τ κ}
    (h : (net.proc i).step op = some (o, p)) (x : ι) :
    (net.record i op o p).view name i x =
      match op.act (net.proc i) (name x).bytes with
      | none => net.view name i x
      | some a => (net.view name i x).step a := by
  rw [view, proc_record_self]
  exact standing_step h _

omit [Tomcrypt κ] in
/-- The lists of all other clients stay as they are. -/
theorem view_record_of_ne {net : Net ι τ κ} {i y : ι} (hy : y ≠ i) (op : Op) (o : Output)
    (p : Proc τ κ) (x : ι) : (net.record i op o p).view name y x = net.view name y x := by
  rw [view, proc_record_of_ne hy, view]

/-- An operation that neither refuses nor deletes forgets nobody. -/
theorem known_record {net : Net ι τ κ} {i y x : ι} {op : Op} {o : Output} {p : Proc τ κ}
    (hstep : (net.proc i).step op = some (o, p))
    (hact : ∀ a, op.act (net.proc i) (name x).bytes = some a → a ≠ .refuse ∧ a ≠ .delete)
    (h : (net.view name y x).Known) : ((net.record i op o p).view name y x).Known := by
  by_cases hy : y = i
  · subst hy
    rw [view_record_self hstep]
    cases ha : op.act (net.proc y) (name x).bytes with
    | none => exact h
    | some a => exact h.step (hact a ha).1 (hact a ha).2
  · rwa [view_record_of_ne hy]

/-- A client wants exactly those to whom it has published. -/
theorem wants_record {net : Net ι τ κ} {i : ι} {op : Op} {o : Output} {p : Proc τ κ}
    (hwants : ∀ x y, net.Requested name x y ↔ (net.view name x y).Wanted)
    (hstep : (net.proc i).step op = some (o, p))
    (hact : ∀ n a, op.act (net.proc i) n = some a → a ≠ .refuse ∧ a ≠ .delete)
    (haddr : ∀ y, o.Addresses (name y) (name i) ↔
      op.act (net.proc i) (name y).bytes = some .request ∨
        (op.act (net.proc i) (name y).bytes = some .accept ∧ 0 < (net.view name i y).incoming))
    (x y : ι) :
    (net.record i op o p).Requested name x y ↔ ((net.record i op o p).view name x y).Wanted := by
  rw [requested_record]
  -- only the client itself may want somebody new, and exactly then it has addressed him
  by_cases hx : x = i
  · subst hx
    rw [view_record_self hstep, hwants, haddr]
    cases ha : op.act (net.proc x) (name y).bytes with
    | none => simp
    | some a =>
      constructor
      · rintro (h | ⟨-, h | ⟨h, hi⟩⟩)
        · exact h.step (hact _ a ha).2
        · cases h
          exact Standing.wanted_request _
        · cases h
          exact Standing.wanted_accept hi
      · intro h
        rcases Standing.wanted_step h with h | rfl | ⟨rfl, hi⟩
        · exact Or.inl h
        · exact Or.inr ⟨rfl, Or.inl rfl⟩
        · exact Or.inr ⟨rfl, Or.inr ⟨rfl, hi⟩⟩
  · rw [view_record_of_ne hx, hwants]
    simp [hx]

/-- A call of a courtship keeps the joint invariant. -/
theorem Courted.call {net net' : Net ι τ κ} (h : net.Courted name) {i : ι} {op : Op}
    (hop : op.Courts name) {o : Output} (hstep : net.step (.call i op) = some (o, net')) :
    net'.Courted name := by
  have htraced := h.traced.step hstep
  obtain ⟨-, p, hp, rfl⟩ := step_call_eq_some.mp hstep
  have hact := fun n a => act_of_courts (p := net.proc i) (n := n) (a := a) hop
  have haddr := fun y => addresses_iff (v := name y) (h.traced.username i) (h.ready i) hop hp
  refine ⟨htraced,
    forall_proc_record h.ready ((ready_of_session (session_step hp)).mpr (h.ready i)),
    forall_proc_record (P := fun q => WellKept q.psn) h.wellKept ((h.wellKept i).step hp),
    fun x y hreq => ?_,
    wants_record h.wants hp hact haddr⟩
  rcases (requested_record op o p).mp hreq with hreq | ⟨rfl, payload, hmem⟩
  · rcases h.heard x y hreq with hway | hknown
    · exact Or.inl (hway.record i op o p)
    · exact Or.inr (known_record hp (hact _) hknown)
  · exact Or.inl ⟨payload, List.mem_append_right _ hmem⟩

/-- A delivery keeps the joint invariant: what it takes out of the network is heard of. -/
theorem Courted.deliver {net net' : Net ι τ κ} (h : net.Courted name)
    (hname : Function.Injective name) {i : ι} {m : Message} {keep : Bool} {o : Output}
    (hstep : net.step (.deliver i m keep) = some (o, net')) : net'.Courted name := by
  have htraced := h.traced.step hstep
  obtain ⟨⟨hm, hsub⟩, p, hp, rfl⟩ := step_deliver_eq_some.mp hstep
  have hp' : ((net.take m keep).proc i).step (.receive m) = some (o, p) := hp
  have haddr : ∀ y, o.Addresses (name y) (name i) ↔
      (Op.receive m).act (net.proc i) (name y).bytes = some .request ∨
        ((Op.receive m).act (net.proc i) (name y).bytes = some .accept ∧
          0 < (net.view name i y).incoming) := fun y => by
    refine iff_of_false (not_addresses_receive hp) ?_
    rintro (ha | ⟨ha, -⟩) <;> cases (act_receive_eq ha).1
  refine ⟨htraced,
    forall_proc_record h.ready ((ready_of_session (session_step hp)).mpr (h.ready i)),
    forall_proc_record (P := fun q => WellKept q.psn) h.wellKept ((h.wellKept i).step hp),
    fun x y hreq => ?_,
    wants_record h.wants hp (fun _ _ => act_of_receive) haddr⟩
  have hreq : net.Requested name x y :=
    ((requested_record _ o p).mp hreq).resolve_right fun hadd => not_addresses_receive hp hadd.2
  rcases h.heard x y hreq with hway | hknown
  · rcases hway.take m keep with hway | ⟨payload, rfl⟩
    · exact Or.inl (hway.record i _ o p)
    · -- the message arrives, and its target is who receives it
      rw [h.traced.username i] at hsub
      obtain rfl : y = i := hname (UserName.bytes_inj.mp
        (target_of_subscribed (name y).levels hsub))
      refine Or.inr ?_
      rw [view_record_self hp', Op.act, if_pos (frequestSource_frequestTopic _ _)]
      exact Standing.known_receive _
  · exact Or.inr (known_record hp' (fun _ => act_of_receive) hknown)

/-- **The joint invariant**, after every action of a courtship. -/
theorem Courted.step {net net' : Net ι τ κ} (h : net.Courted name)
    (hname : Function.Injective name) {a : Action ι} (ha : Courting name a) {o : Output}
    (hstep : net.step a = some (o, net')) : net'.Courted name := by
  cases ha with
  | call i op hop => exact h.call hop hstep
  | deliver i m keep => exact h.deliver hname hstep

/-! ### Agreement -/

/-- Nobody asks a user who is waiting for his answer. -/
def Forthcoming (net : Net ι τ κ) : Action ι → Prop
  | .call i (.makeFriendReq target _ _) =>
    target ∉ keys (net.proc i).psn.friendRequestsIncoming
  | _ => True

/-- Whoever has published a request to another client owes it no answer. -/
def Answered (name : ι → UserName) (net : Net ι τ κ) : Prop :=
  ∀ x y, net.Requested name x y → (net.view name x y).incoming = 0

/-- An operation of a client that asks nobody who is waiting: whoever it addresses is owed no answer
afterwards. -/
theorem answered_record {net : Net ι τ κ} {i : ι} {op : Op} {o : Output} {p : Proc τ κ}
    (h : net.Answered name)
    (hwants : ∀ x y, net.Requested name x y ↔ (net.view name x y).Wanted)
    (hkept : WellKept (net.proc i).psn) (hstep : (net.proc i).step op = some (o, p))
    (haddr : ∀ y, o.Addresses (name y) (name i) →
      op.act (net.proc i) (name y).bytes = some .request ∨
        (op.act (net.proc i) (name y).bytes = some .accept ∧ 0 < (net.view name i y).incoming))
    (hask : ∀ y, op.act (net.proc i) (name y).bytes = some .request →
      (net.view name i y).incoming = 0) : (net.record i op o p).Answered name := by
  intro x y hreq
  rcases (requested_record op o p).mp hreq with hold | ⟨rfl, hadd⟩
  · -- no answer was owed, and whoever is wanted already does not start to wait
    have hzero := h x y hold
    by_cases hx : x = i
    · subst hx
      rw [view_record_self hstep]
      cases op.act (net.proc x) (name y).bytes with
      | none => exact hzero
      | some a =>
        have hle := Standing.incoming_step_le (Or.inr ((hwants x y).mp hold)) a
        exact Nat.le_zero.mp (hzero ▸ hle)
    · rwa [view_record_of_ne hx]
  · -- the message is new: a request to somebody who is not waiting, or the answer to one who is
    rw [view_record_self hstep]
    rcases haddr y hadd with hact | ⟨hact, hi⟩
    · rw [hact]
      exact hask y hact
    · rw [hact]
      have hunique : (net.view name x y).Unique := wellKept_iff.mp hkept _
      simp only [Standing.step, Standing.accept_of_pos hi]
      simp only [Standing.Unique] at hunique
      omega

/-- So agreement goes with every action of a courtship in which nobody asks whom he could accept. -/
theorem Answered.step {net net' : Net ι τ κ} (h : net.Answered name)
    (hcourted : net.Courted name) {a : Action ι} (ha : Courting name a)
    (hf : net.Forthcoming a) {o : Output} (hstep : net.step a = some (o, net')) :
    net'.Answered name := by
  cases ha with
  | call i op hop =>
    obtain ⟨-, p, hp, rfl⟩ := step_call_eq_some.mp hstep
    have haddr := fun y =>
      addresses_iff (v := name y) (hcourted.traced.username i) (hcourted.ready i) hop hp
    refine answered_record h hcourted.wants (hcourted.wellKept i) hp (fun y => (haddr y).mp)
      fun y hact => ?_
    obtain ⟨message, io, rfl, -⟩ := act_eq_request hact
    exact incoming_eq_zero_iff.mpr hf
  | deliver i m keep =>
    obtain ⟨-, p, hp, rfl⟩ := step_deliver_eq_some.mp hstep
    have h' : (net.take m keep).Answered name := h
    refine answered_record h' hcourted.wants (hcourted.wellKept i) hp (fun y hadd => ?_)
      fun y hact => ?_
    · exact absurd hadd (not_addresses_receive hp)
    · cases (act_receive_eq hact).1

omit [DecidableEq ι] [Tomcrypt κ] in
/-- A request that is not in flight any more was heard of. -/
theorem Courted.known {net : Net ι τ κ} (h : net.Courted name) {x y : ι}
    (hreq : net.Requested name x y) (hway : ¬net.Underway name x y) :
    (net.view name y x).Known :=
  (h.heard x y hreq).resolve_left hway

omit [DecidableEq ι] [Tomcrypt κ] in
/-- Whoever was heard of has published a request. -/
theorem Courted.requested {net : Net ι τ κ} (h : net.Courted name)
    (hname : Function.Injective name) {x y : ι} (hknown : (net.view name y x).Known) :
    net.Requested name x y := by
  rcases hknown with hi | hf
  · obtain ⟨x', hx', hreq⟩ := h.traced.incoming y _ hi
    obtain rfl : x' = x := hname (UserName.bytes_inj.mp hx')
    exact hreq
  · obtain ⟨x', hx', hreq, -⟩ := h.traced.friends y _ hf
    obtain rfl : x' = x := hname (UserName.bytes_inj.mp hx')
    exact hreq

omit [DecidableEq ι] [Tomcrypt κ] in
/-- Once the friends of `y` include `x`, and the publishes of `y` have arrived at `x`, the friends
of `x` include `y`, provided that `x` owes `y` no answer. -/
theorem Courted.friends {net : Net ι τ κ} (h : net.Courted name) (ha : net.Answered name)
    (hname : Function.Injective name) {x y : ι} (hway : ¬net.Underway name y x)
    (hf : 0 < (net.view name y x).friends) : 0 < (net.view name x y).friends := by
  have hyx : net.Requested name y x := (h.wants y x).mpr (Or.inr hf)
  have hxy : net.Requested name x y := h.requested hname (Or.inr hf)
  have hzero := ha x y hxy
  rcases h.known hyx hway with hi | hf'
  · omega
  · exact hf'

/-! ### Settling a courtship -/

/-- One of the two sides accepts the other, who is waiting for its answer, or a message is
delivered. -/
inductive Settling (name : ι → UserName) (x y : ι) (net : Net ι τ κ) : Action ι → Prop
  | accept (u v : ι) (hside : u = x ∧ v = y ∨ u = y ∧ v = x)
      (hi : (name v).bytes ∈ keys (net.proc u).psn.friendRequestsIncoming) :
      Settling name x y net (.call u (.acceptFriendReq (name v).bytes .ok))
  | deliver (i : ι) (m : Message) (keep : Bool) : Settling name x y net (.deliver i m keep)

omit [DecidableEq ι] [Tomcrypt κ] in
/-- Settling is a courtship without new requests. -/
theorem Settling.courting {net : Net ι τ κ} {x y : ι} {a : Action ι}
    (h : Settling name x y net a) : Courting name a := by
  cases h with
  | accept u v hside hi => exact .call u _ (.accept v)
  | deliver i m keep => exact .deliver i m keep

/-- How many answers the two sides owe each other. -/
def owed (name : ι → UserName) (x y : ι) (net : Net ι τ κ) : ℕ :=
  (net.view name x y).incoming + (net.view name y x).incoming

/-- `x` has asked `y`, and `y` has heard of it. -/
structure Asked (name : ι → UserName) (x y : ι) (net : Net ι τ κ) : Prop where
  /-- The joint invariant. -/
  courted : net.Courted name
  /-- The request was published. -/
  requested : net.Requested name x y
  /-- It has arrived. -/
  known : (net.view name y x).Known

/-- No operation makes anybody wait who is known or wanted already. -/
theorem incoming_record_le {net : Net ι τ κ} {i u v : ι} {op : Op} {o : Output} {p : Proc τ κ}
    (hstep : (net.proc i).step op = some (o, p))
    (h : (net.view name u v).Known ∨ (net.view name u v).Wanted) :
    ((net.record i op o p).view name u v).incoming ≤ (net.view name u v).incoming := by
  by_cases hu : u = i
  · subst hu
    rw [view_record_self hstep]
    cases op.act (net.proc u) (name v).bytes with
    | none => exact Nat.le_refl _
    | some a => exact Standing.incoming_step_le h a
  · exact Nat.le_of_eq (by rw [view_record_of_ne hu])

/-- Settling pays one answer with each acceptance and raises no new one. -/
theorem Asked.step {net net' : Net ι τ κ} {x y : ι} (h : Asked name x y net)
    (hname : Function.Injective name) {a : Action ι}
    (ha : Settling name x y net a) {o : Output} (hstep : net.step a = some (o, net')) :
    Asked name x y net' ∧ owed name x y net' + (if a.isCall then 1 else 0) ≤ owed name x y net := by
  have hcourted := h.courted.step hname ha.courting hstep
  have hwanted := (h.courted.wants x y).mp h.requested
  cases ha with
  | accept u v hside hi =>
    obtain ⟨-, p, hp, rfl⟩ := step_call_eq_some.mp hstep
    have hop : (Op.acceptFriendReq (name v).bytes .ok).Courts name := .accept v
    have hact := fun n a => act_of_courts (p := net.proc u) (n := n) (a := a) hop
    refine ⟨⟨hcourted, h.requested.record u _ o p, known_record hp (hact _) h.known⟩, ?_⟩
    have hxy := incoming_record_le hp (Or.inr hwanted)
    have hyx := incoming_record_le hp (Or.inl h.known)
    have hpos : 0 < (net.view name u v).incoming := incoming_pos_iff.mpr hi
    have huv : ((net.record u (.acceptFriendReq (name v).bytes .ok) o p).view name u v).incoming =
        (net.view name u v).incoming - 1 := by
      rw [view_record_self hp, act_acceptFriendReq (h.courted.ready u), if_pos rfl]
      simp only [Standing.step, Standing.accept_of_pos hpos]
    simp only [owed, Action.isCall, if_true]
    rcases hside with ⟨rfl, rfl⟩ | ⟨rfl, rfl⟩ <;> omega
  | deliver i m keep =>
    obtain ⟨-, p, hp, rfl⟩ := step_deliver_eq_some.mp hstep
    have hp' : ((net.take m keep).proc i).step (.receive m) = some (o, p) := hp
    have hrequested : (net.take m keep).Requested name x y := h.requested
    refine ⟨⟨hcourted, hrequested.record i _ o p,
      known_record hp' (fun _ => act_of_receive) h.known⟩, ?_⟩
    have hxy := incoming_record_le (v := y) hp' (Or.inr hwanted)
    have hyx := incoming_record_le (v := x) hp' (Or.inl h.known)
    simp only [owed, Action.isCall, Bool.false_eq_true, if_false, Nat.add_zero]
    exact Nat.add_le_add hxy hyx

/-- The answers that are owed bound the calls of a run that settles. -/
theorem Asked.run {net net' : Net ι τ κ} {x y : ι} (h : Asked name x y net)
    (hname : Function.Injective name) {acts : List (Action ι)}
    (ha : Along Net.step (Settling name x y) net acts) {outs : List Output}
    (hrun : run Net.step net acts = some (outs, net')) :
    Asked name x y net' ∧ owed name x y net' + acts.countP Action.isCall ≤ owed name x y net :=
  countP_add_rank_le (fun h ha hstep => h.step hname ha hstep) h ha hrun

/-- Somebody who waits for an answer can be given one, and the answer can be delivered. -/
theorem exists_answer {net : Net ι τ κ} (h : net.Courted name) {x y u v : ι}
    (hside : u = x ∧ v = y ∨ u = y ∧ v = x) (hquiet : net.Quiescent name x y)
    (hi : (name v).bytes ∈ keys (net.proc u).psn.friendRequestsIncoming) :
    ∃ acts outs net', Along Net.step (Settling name x y) net acts ∧
      run Net.step net acts = some (outs, net') ∧ net'.Quiescent name x y ∧
      0 < acts.countP Action.isCall := by
  -- the answer is published by the one side and received by the other
  let m : Message := ⟨frequestTopic (name v).bytes (name u).bytes, []⟩
  obtain ⟨o, p, hp⟩ := exists_step (net.proc u)
    (show (Op.acceptFriendReq (name v).bytes .ok).WellFormed from trivial)
  have hmessages : o.messages = [m] :=
    messages_acceptFriendReq (h.traced.username u) (h.ready u) hi hp
  obtain ⟨net₁, hnet₁⟩ : ∃ net₁, net₁ = net.record u (.acceptFriendReq (name v).bytes .ok) o p :=
    ⟨_, rfl⟩
  have hstep₁ : net.step (.call u (.acceptFriendReq (name v).bytes .ok)) = some (o, net₁) :=
    step_call_eq_some.mpr ⟨rfl, p, hp, hnet₁⟩
  have hflight₁ : net₁.inFlight = net.inFlight ++ [m] := by
    rw [hnet₁, ← hmessages]
    rfl
  have hcourted₁ := h.traced.step hstep₁
  obtain ⟨o', p', hp'⟩ := exists_step (net₁.proc v)
    (show (Op.receive m).WellFormed from ⟨name v, name u, rfl⟩)
  obtain ⟨net₂, hnet₂⟩ : ∃ net₂, net₂ = (net₁.take m false).record v (.receive m) o' p' :=
    ⟨_, rfl⟩
  have hstep₂ : net₁.step (.deliver v m false) = some (o', net₂) := by
    refine step_deliver_eq_some.mpr ⟨⟨?_, ?_⟩, p', hp', hnet₂⟩
    · rw [hflight₁]
      exact List.mem_append_right _ (List.mem_singleton_self m)
    · rw [hcourted₁.username v]
      exact subscribed_frequestTopic (name v) (name u)
  have hnot : m ∉ net.inFlight := fun hm => by
    rcases hside with ⟨rfl, rfl⟩ | ⟨rfl, rfl⟩
    · exact hquiet.1 ⟨[], hm⟩
    · exact hquiet.2 ⟨[], hm⟩
  -- which leaves the network as it was: receiving publishes nothing
  have hflight₂ : net₂.inFlight = net.inFlight := by
    rw [hnet₂]
    simp only [Net.record, Net.take, messages_receive hp', hflight₁, Bool.false_eq_true, if_false,
      List.append_nil, List.erase_append_right _ hnot, List.erase_cons_head]
  refine ⟨[.call u (.acceptFriendReq (name v).bytes .ok), .deliver v m false], [o, o'], net₂,
    ⟨.accept u v hside hi, fun _ _ _ => ⟨.deliver v m false, fun _ _ _ => trivial⟩⟩, ?_, ?_, ?_⟩
  · rw [run_cons_of_step hstep₁, run_cons_of_step hstep₂]
    rfl
  · simpa only [Quiescent, Underway, hflight₂] using hquiet
  · exact Nat.succ_pos _

/-- All answers can be given. -/
theorem exists_settled {x y : ι} (hname : Function.Injective name) :
    ∀ (n : ℕ) (net : Net ι τ κ), Asked name x y net → net.Quiescent name x y →
      owed name x y net ≤ n → ∃ acts outs net', Along Net.step (Settling name x y) net acts ∧
        run Net.step net acts = some (outs, net') ∧ net'.Quiescent name x y ∧
        owed name x y net' = 0 := by
  intro n
  induction n with
  | zero =>
    intro net _ hquiet hn
    exact ⟨[], [], net, trivial, rfl, hquiet, Nat.le_zero.mp hn⟩
  | succ n ih =>
    intro net h hquiet hn
    rcases Nat.eq_zero_or_pos (owed name x y net) with hzero | hpos
    · exact ⟨[], [], net, trivial, rfl, hquiet, hzero⟩
    obtain ⟨u, v, hside, hi⟩ : ∃ u v, (u = x ∧ v = y ∨ u = y ∧ v = x) ∧
        0 < (net.view name u v).incoming := by
      rcases Nat.eq_zero_or_pos (net.view name x y).incoming with hx | hx
      · exact ⟨y, x, Or.inr ⟨rfl, rfl⟩, by simpa [owed, hx] using hpos⟩
      · exact ⟨x, y, Or.inl ⟨rfl, rfl⟩, hx⟩
    obtain ⟨acts, outs, net₁, hacts, hrun, hquiet₁, hcalls⟩ :=
      exists_answer h.courted hside hquiet (incoming_pos_iff.mp hi)
    obtain ⟨h₁, hrank⟩ := h.run hname hacts hrun
    obtain ⟨acts', outs', net', hacts', hrun', hquiet', hzero'⟩ :=
      ih net₁ h₁ hquiet₁ (by omega)
    exact ⟨acts ++ acts', outs ++ outs', net', hacts.append hrun hacts',
      run_append_eq_some.mpr ⟨outs, net₁, outs', hrun, hrun', rfl⟩, hquiet', hzero'⟩

omit [DecidableEq ι] [Tomcrypt κ] in
/-- Once every answer is given and delivered, each of the two is a friend of the other. -/
theorem Asked.friends {net : Net ι τ κ} {x y : ι} (h : Asked name x y net)
    (hquiet : net.Quiescent name x y) (howed : owed name x y net = 0) :
    (name x).bytes ∈ keys (net.proc y).psn.friends ∧
      (name y).bytes ∈ keys (net.proc x).psn.friends := by
  obtain ⟨hx, hy⟩ := Nat.add_eq_zero_iff.mp howed
  have hyx : 0 < (net.view name y x).friends := h.known.resolve_left (by omega)
  have hknown := h.courted.known ((h.courted.wants y x).mpr (Or.inr hyx)) hquiet.2
  have hxy : 0 < (net.view name x y).friends := hknown.resolve_left (by omega)
  exact ⟨friends_pos_iff.mp hyx, friends_pos_iff.mp hxy⟩

end Step

end Net

/-- **Agreement of the two sides.** Take connected clients with different names and any run of
requests, acceptances and deliveries from the empty lists of `psn_init`, in which no client asks
a user who is waiting for its answer. Whenever no friend request is in flight between `x` and
`y`, each of them is a friend of the other or neither is. -/
theorem friends_symmetric [Tomcrypt κ] [UserTable τ κ] [DecidableEq ι] {name : ι → UserName}
    (hname : Function.Injective name) {start : ι → Proc τ κ}
    (hstart : ∀ i, (start i).psn.username = (name i).field) (hready : ∀ i, Ready (start i))
    {acts : List (Action ι)} (hacts : ∀ a ∈ acts, Net.Courting name a)
    (hask : Along Net.step Net.Forthcoming (Net.init start) acts) {outs : List Output}
    {net : Net ι τ κ} (hrun : run Net.step (Net.init start) acts = some (outs, net)) {x y : ι}
    (hquiet : net.Quiescent name x y) :
    (name x).bytes ∈ keys (net.proc y).psn.friends ↔
      (name y).bytes ∈ keys (net.proc x).psn.friends := by
  obtain ⟨hcourted, hanswered⟩ : net.Courted name ∧ net.Answered name :=
    invariant_of_along (I := fun net => net.Courted name ∧ net.Answered name)
      (C := fun net a => Net.Courting name a ∧ net.Forthcoming a)
      (fun h hC hstep => ⟨h.1.step hname hC.1 hstep, h.2.step h.1 hC.1 hC.2 hstep⟩)
      ⟨Net.courted_init hstart hready, fun x y hreq => by
        obtain ⟨payload, hmem⟩ := hreq
        cases hmem⟩ (hask.and_forall hacts) hrun
  rw [← friends_pos_iff, ← friends_pos_iff]
  exact ⟨hcourted.friends hanswered hname hquiet.2, hcourted.friends hanswered hname hquiet.1⟩

/-- A request to a user who is waiting for an answer makes a friend of one side only. -/
theorem not_friends_symmetric_counter_request :
    ∃ acts outs net, (∀ a ∈ acts, Net.Courting couple a) ∧
      run Net.step (Net.init coupleProc) acts = some (outs, net) ∧
      net.Quiescent couple false true ∧
      ¬((couple false).bytes ∈ keys (net.proc true).psn.friends ↔
        (couple true).bytes ∈ keys (net.proc false).psn.friends) := by
  let acts : List (Action Bool) :=
    [.call false (.makeFriendReq bob.bytes (lit "hi") .ok),
      .deliver true ⟨frequestTopic bob.bytes alice.bytes, lit "hi"⟩ false,
      .call true (.makeFriendReq alice.bytes (lit "hi") .ok),
      .deliver false ⟨frequestTopic alice.bytes bob.bytes, lit "hi"⟩ false]
  have hview : (run Net.step (Net.init coupleProc) acts).map (fun r =>
      (r.2.inFlight, keys (r.2.proc false).psn.friends, keys (r.2.proc true).psn.friends)) =
        some ([], [bob.bytes], []) := by decide
  obtain ⟨⟨outs, net⟩, hrun, heq⟩ := Option.map_eq_some_iff.mp hview
  simp only [Prod.mk.injEq] at heq
  obtain ⟨hflight, hfalse, htrue⟩ := heq
  refine ⟨acts, outs, net, ?_, hrun, ?_, ?_⟩
  · intro a ha
    simp only [acts, List.mem_cons, List.not_mem_nil, or_false] at ha
    rcases ha with rfl | rfl | rfl | rfl
    · exact .call false _ (.request true _ (by decide))
    · exact .deliver true _ false
    · exact .call true _ (.request false _ (by decide))
    · exact .deliver false _ false
  · constructor <;> rintro ⟨payload, hmem⟩ <;> rw [hflight] at hmem <;> cases hmem
  · rw [hfalse, htrue]
    decide

/-- A courtship that agrees: a request and its acceptance. -/
theorem friends_symmetric_accepted :
    ∃ outs net, run Net.step (Net.init coupleProc)
        [.call false (.makeFriendReq bob.bytes (lit "hi") .ok),
          .deliver true ⟨frequestTopic bob.bytes alice.bytes, lit "hi"⟩ false,
          .call true (.acceptFriendReq alice.bytes .ok),
          .deliver false ⟨frequestTopic alice.bytes bob.bytes, []⟩ false] = some (outs, net) ∧
      ((couple false).bytes ∈ keys (net.proc true).psn.friends ↔
        (couple true).bytes ∈ keys (net.proc false).psn.friends) := by
  let acts : List (Action Bool) :=
    [.call false (.makeFriendReq bob.bytes (lit "hi") .ok),
      .deliver true ⟨frequestTopic bob.bytes alice.bytes, lit "hi"⟩ false,
      .call true (.acceptFriendReq alice.bytes .ok),
      .deliver false ⟨frequestTopic alice.bytes bob.bytes, []⟩ false]
  have hflight : (run Net.step (Net.init coupleProc) acts).map (fun r => r.2.inFlight) =
      some [] := by decide
  obtain ⟨⟨outs, net⟩, hrun, hflight⟩ := Option.map_eq_some_iff.mp hflight
  have hacts : ∀ a ∈ acts, Net.Courting couple a := by
    intro a ha
    simp only [acts, List.mem_cons, List.not_mem_nil, or_false] at ha
    rcases ha with rfl | rfl | rfl | rfl
    · exact .call false _ (.request true _ (by decide))
    · exact .deliver true _ false
    · exact .call true _ (.accept false)
    · exact .deliver false _ false
  have hquiet : net.Quiescent couple false true := by
    constructor <;> rintro ⟨payload, hmem⟩ <;> rw [hflight] at hmem <;> cases hmem
  exact ⟨outs, net, hrun, friends_symmetric couple_injective (fun _ => rfl)
    (fun _ => ⟨by simp [coupleProc, concreteProc], rfl⟩) hacts
    ⟨show bob.bytes ∉ keys ((Net.init coupleProc).proc false).psn.friendRequestsIncoming by
        decide,
      fun _ _ _ => ⟨trivial, fun _ _ _ => ⟨trivial, fun _ _ _ => ⟨trivial, fun _ _ _ => trivial⟩⟩⟩⟩
    hrun hquiet⟩

/-! ### No request is orphaned -/

/-- **No request is orphaned.** Take connected clients with different names and any run of
requests, acceptances and deliveries from the empty lists of `psn_init`. In every state in which
no friend request is in flight between `x` and `y` and `x` has published one to `y`, it is known
at `y`: `x` is a friend of `y` or waits for its answer. Settling from there, the two sides accept
each other at most twice; once no answer is owed and nothing is in flight, each is a friend of
the other; and such a state can be reached. -/
theorem no_request_orphaned [Tomcrypt κ] [UserTable τ κ] [DecidableEq ι] {name : ι → UserName}
    (hname : Function.Injective name) {start : ι → Proc τ κ}
    (hstart : ∀ i, (start i).psn.username = (name i).field) (hready : ∀ i, Ready (start i))
    {acts : List (Action ι)} (hacts : ∀ a ∈ acts, Net.Courting name a) {outs : List Output}
    {net : Net ι τ κ} (hrun : run Net.step (Net.init start) acts = some (outs, net)) {x y : ι}
    (hquiet : net.Quiescent name x y) (hreq : net.Requested name x y) :
    ((name x).bytes ∈ keys (net.proc y).psn.friendRequestsIncoming ∨
        (name x).bytes ∈ keys (net.proc y).psn.friends) ∧
      (∀ acts' outs' net', Along Net.step (Net.Settling name x y) net acts' →
        run Net.step net acts' = some (outs', net') →
          acts'.countP Action.isCall ≤ 2 ∧
          (net'.Quiescent name x y → Net.owed name x y net' = 0 →
            (name x).bytes ∈ keys (net'.proc y).psn.friends ∧
              (name y).bytes ∈ keys (net'.proc x).psn.friends)) ∧
      ∃ acts' outs' net', Along Net.step (Net.Settling name x y) net acts' ∧
        run Net.step net acts' = some (outs', net') ∧ acts'.countP Action.isCall ≤ 2 ∧
        (name x).bytes ∈ keys (net'.proc y).psn.friends ∧
          (name y).bytes ∈ keys (net'.proc x).psn.friends := by
  have hcourted : net.Courted name :=
    invariant_of_run Net.step (fun h ha hstep => h.step hname ha hstep)
      (Net.courted_init hstart hready) hacts hrun
  have hasked : Net.Asked name x y net := ⟨hcourted, hreq, hcourted.known hreq hquiet.1⟩
  have howed : Net.owed name x y net ≤ 2 := by
    have hx : (net.view name x y).Unique := wellKept_iff.mp (hcourted.wellKept x) _
    have hy : (net.view name y x).Unique := wellKept_iff.mp (hcourted.wellKept y) _
    simp only [Standing.Unique] at hx hy
    simp only [Net.owed]
    omega
  refine ⟨known_iff.mp hasked.known, fun acts' outs' net' hacts' hrun' => ?_, ?_⟩
  · obtain ⟨hasked', hrank⟩ := hasked.run hname hacts' hrun'
    exact ⟨by omega, fun hquiet' howed' => hasked'.friends hquiet' howed'⟩
  · obtain ⟨acts', outs', net', hacts', hrun', hquiet', howed'⟩ :=
      Net.exists_settled hname 2 net hasked hquiet howed
    obtain ⟨hasked', hrank⟩ := hasked.run hname hacts' hrun'
    exact ⟨acts', outs', net', hacts', hrun', by omega, hasked'.friends hquiet' howed'⟩

/-- A request that crossed none and waits for its answer. -/
theorem no_request_orphaned_waiting :
    ∃ outs net, run Net.step (Net.init coupleProc)
        [.call false (.makeFriendReq bob.bytes (lit "hi") .ok),
          .deliver true ⟨frequestTopic bob.bytes alice.bytes, lit "hi"⟩ false] =
            some (outs, net) ∧
      ((couple false).bytes ∈ keys (net.proc true).psn.friendRequestsIncoming ∨
        (couple false).bytes ∈ keys (net.proc true).psn.friends) ∧
      (∀ acts' outs' net', Along Net.step (Net.Settling couple false true) net acts' →
        run Net.step net acts' = some (outs', net') →
          acts'.countP Action.isCall ≤ 2 ∧
          (net'.Quiescent couple false true → Net.owed couple false true net' = 0 →
            (couple false).bytes ∈ keys (net'.proc true).psn.friends ∧
              (couple true).bytes ∈ keys (net'.proc false).psn.friends)) ∧
      ∃ acts' outs' net', Along Net.step (Net.Settling couple false true) net acts' ∧
        run Net.step net acts' = some (outs', net') ∧ acts'.countP Action.isCall ≤ 2 ∧
        (couple false).bytes ∈ keys (net'.proc true).psn.friends ∧
          (couple true).bytes ∈ keys (net'.proc false).psn.friends := by
  let acts : List (Action Bool) :=
    [.call false (.makeFriendReq bob.bytes (lit "hi") .ok),
      .deliver true ⟨frequestTopic bob.bytes alice.bytes, lit "hi"⟩ false]
  have hview : (run Net.step (Net.init coupleProc) acts).map
      (fun r => (r.2.inFlight, r.2.published)) =
        some ([], [(false, ⟨frequestTopic bob.bytes alice.bytes, lit "hi"⟩)]) := by decide
  obtain ⟨⟨outs, net⟩, hrun, heq⟩ := Option.map_eq_some_iff.mp hview
  obtain ⟨hflight, hpublished⟩ := Prod.mk.inj heq
  have hacts : ∀ a ∈ acts, Net.Courting couple a := by
    intro a ha
    simp only [acts, List.mem_cons, List.not_mem_nil, or_false] at ha
    rcases ha with rfl | rfl
    · exact .call false _ (.request true _ (by decide))
    · exact .deliver true _ false
  have hquiet : net.Quiescent couple false true := by
    constructor <;> rintro ⟨payload, hmem⟩ <;> rw [hflight] at hmem <;> cases hmem
  have hreq : net.Requested couple false true :=
    ⟨lit "hi", by rw [hpublished]; exact List.mem_singleton_self _⟩
  exact ⟨outs, net, hrun, no_request_orphaned couple_injective (fun _ => rfl)
    (fun _ => ⟨by simp [coupleProc, concreteProc], rfl⟩) hacts hrun hquiet hreq⟩

end Psn

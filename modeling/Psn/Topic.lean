import Psn.CString

/-!
# Topics

The client speaks over topics of two kinds, built by `sprintf` and taken apart again by
`mosquitto_sub_topic_tokenise`:

```
users/<target>/frequest/<source>
chat/<source>/<target>
```

A level is a maximal run without `/`. The tokeniser leaves the array entry of an empty level
NULL, so a level is an `Option`.

## Main results

* `subTopicTokenise_eq`: the tokeniser's loop splits at every `/`
* `levels_frequestTopic`, `levels_chatTopic`: the levels of the two kinds of topic
* `eq_of_usersSub_matches`, `eq_of_chatSub_matches`: what a subscription says about the addressee
-/

namespace Psn

/-- The level separator `/`. -/
def slash : UInt8 := 47

/-- The single-level wildcard `+`. -/
def plus : UInt8 := 43

/-- The multi-level wildcard `#`. -/
def hash : UInt8 := 35

/-! ### User names -/

/-- A user name that a broker can route: 1 to 31 bytes, none of them a terminator, a level
separator or a wildcard. -/
structure UserName where
  /-- The bytes of the name. -/
  bytes : CStr
  /-- An empty name would leave a level of a topic empty. -/
  ne_nil : bytes ≠ []
  /-- With the NUL it fits into `char username[32]`. -/
  length_le : bytes.length ≤ 31
  /-- It is a string. -/
  nul_not_mem : 0 ∉ bytes
  /-- It is one level of a topic, -/
  slash_not_mem : slash ∉ bytes
  /-- and as a level of a filter it stands for itself. -/
  plus_not_mem : plus ∉ bytes
  /-- The same goes for the other wildcard. -/
  hash_not_mem : hash ∉ bytes
  deriving DecidableEq

theorem UserName.bytes_injective : Function.Injective UserName.bytes := by
  rintro ⟨a⟩ ⟨b⟩ h
  simpa using h

theorem UserName.bytes_inj {a b : UserName} : a.bytes = b.bytes ↔ a = b :=
  UserName.bytes_injective.eq_iff

theorem UserName.ne_plus (n : UserName) : n.bytes ≠ [plus] := fun h =>
  n.plus_not_mem (by simp [h])

theorem UserName.ne_hash (n : UserName) : n.bytes ≠ [hash] := fun h =>
  n.hash_not_mem (by simp [h])

/-- A user name in a field of a record. -/
def UserName.field (n : UserName) : Field 32 := ⟨n.bytes, Nat.lt_succ_of_le n.length_le⟩

@[simp] theorem UserName.field_val (n : UserName) : n.field.1 = n.bytes := rfl

/-! ### Taking a topic apart -/

/-- The levels of a topic. -/
def levels (topic : CStr) : List CStr := topic.splitOn slash

theorem levels_append_slash (a b : CStr) : levels (a ++ slash :: b) = levels a ++ levels b :=
  List.splitOn_append_cons_self a b

theorem levels_of_not_mem {a : CStr} (h : slash ∉ a) : levels a = [a] :=
  List.splitOn_eq_singleton h

theorem intercalate_levels (a : CStr) : [slash].intercalate (levels a) = a :=
  List.intercalate_splitOn slash

theorem eq_of_levels_eq_singleton {a b : CStr} (h : levels a = [b]) : a = b := by
  rw [← intercalate_levels a, h]
  simp

theorem levels_ne_nil (a : CStr) : levels a ≠ [] := List.splitOn_ne_nil slash a

theorem UserName.levels (n : UserName) : levels n.bytes = [n.bytes] :=
  levels_of_not_mem n.slash_not_mem

theorem levels_cons (c : UInt8) (a : CStr) :
    levels (c :: a) = if c = slash then [] :: levels a else (levels a).modifyHead (c :: ·) := by
  rw [levels, List.splitOn_cons_eq_if_modifyHead]
  simp [levels]

/-- Every level is followed by a separator if one is put at the end. -/
theorem append_slash (a : CStr) : a ++ [slash] = ((levels a).map (· ++ [slash])).flatten := by
  have hjoin : ∀ ls : List CStr, ls ≠ [] →
      [slash].intercalate ls ++ [slash] = (ls.map (· ++ [slash])).flatten := by
    intro ls
    induction ls with
    | nil => exact fun h => absurd rfl h
    | cons l ls ih =>
      intro _
      cases ls with
      | nil => simp
      | cons l' ls =>
        rw [List.intercalate_cons_cons, List.append_assoc, ih (by simp)]
        simp
  rw [← hjoin (levels a) (levels_ne_nil a), intercalate_levels]

/-- A level has no separator, and its bytes are bytes of the topic in the same order. -/
theorem of_mem_levels {a l : CStr} (h : l ∈ levels a) : slash ∉ l ∧ l.Sublist a := by
  induction a generalizing l with
  | nil =>
    rw [levels_of_not_mem (by simp), List.mem_singleton] at h
    rw [h]
    exact ⟨by simp, List.Sublist.refl _⟩
  | cons c a ih =>
    rw [levels_cons] at h
    by_cases hc : c = slash
    · rw [if_pos hc] at h
      rcases List.mem_cons.mp h with rfl | h
      · exact ⟨by simp, List.nil_sublist _⟩
      · exact ⟨(ih h).1, (ih h).2.cons c⟩
    · rw [if_neg hc] at h
      cases hl : levels a with
      | nil => exact absurd hl (levels_ne_nil a)
      | cons first rest =>
        rw [hl, List.modifyHead_cons] at h
        rcases List.mem_cons.mp h with rfl | h
        · obtain ⟨hslash, hsub⟩ := ih (l := first) (by simp [hl])
          exact ⟨by simp [hslash, Ne.symm hc], hsub.cons_cons c⟩
        · obtain ⟨hslash, hsub⟩ := ih (l := l) (by simp [hl, h])
          exact ⟨hslash, hsub.cons c⟩

/-- One entry of the tokeniser's array: the entry of an empty level stays NULL. -/
def token (level : CStr) : Option CStr := if level = [] then none else some level

theorem token_of_ne_nil {a : CStr} (h : a ≠ []) : token a = some a := by simp [token, h]

/-- What the tokeniser found is what the level was. -/
theorem token_eq_some {level t : CStr} : token level = some t ↔ level = t ∧ t ≠ [] := by
  rw [token]
  by_cases h : level = []
  · rw [if_pos h]
    exact iff_of_false (by simp) fun hc => hc.2 (hc.1 ▸ h)
  · rw [if_neg h, Option.some_inj]
    exact ⟨fun heq => ⟨heq, heq ▸ h⟩, And.left⟩

theorem UserName.token (n : UserName) : token n.bytes = some n.bytes := token_of_ne_nil n.ne_nil

/-- The scan of `mosquitto_sub_topic_tokenise`, with the bytes between `start` and `i`. -/
def tokeniseFrom (pending : CStr) : CStr → List (Option CStr)
  | [] => [token pending]
  | c :: rest =>
    if c = slash then token pending :: tokeniseFrom [] rest
    else tokeniseFrom (pending ++ [c]) rest

/-- `mosquitto_sub_topic_tokenise`. The count it returns is the length of the list. -/
def subTopicTokenise (subtopic : CStr) : List (Option CStr) := tokeniseFrom [] subtopic

theorem tokeniseFrom_eq {pending : CStr} (h : slash ∉ pending) (rest : CStr) :
    tokeniseFrom pending rest = (levels (pending ++ rest)).map token := by
  induction rest generalizing pending with
  | nil => simp [tokeniseFrom, levels_of_not_mem h]
  | cons c rest ih =>
    by_cases hc : c = slash
    · subst hc
      rw [tokeniseFrom, if_pos rfl, ih (by simp), levels_append_slash, levels_of_not_mem h]
      rfl
    · have hmem : slash ∉ pending ++ [c] := by simp [h, Ne.symm hc]
      rw [tokeniseFrom, if_neg hc, ih hmem, List.append_assoc]
      rfl

theorem subTopicTokenise_eq (subtopic : CStr) :
    subTopicTokenise subtopic = (levels subtopic).map token :=
  tokeniseFrom_eq (by simp) subtopic

/-! ### Building a topic -/

/-- `users/<target>/frequest/<source>`, as `sprintf` builds it. -/
def frequestTopic (target source : CStr) : CStr :=
  lit "users/" ++ target ++ lit "/frequest/" ++ source

/-- `chat/<source>/<target>`, as `sprintf` builds it. -/
def chatTopic (source target : CStr) : CStr := lit "chat/" ++ source ++ lit "/" ++ target

/-- `users/<username>/#`, the first subscription of `psn_connect`. -/
def usersSub (username : CStr) : CStr := lit "users/" ++ username ++ lit "/#"

/-- `chat/+/<username>`, the second subscription of `psn_connect`. -/
def chatSub (username : CStr) : CStr := lit "chat/+/" ++ username

theorem length_frequestTopic (target source : CStr) :
    (frequestTopic target source).length = 16 + target.length + source.length := by
  have husers : (lit "users/").length = 6 := rfl
  have hfrequest : (lit "/frequest/").length = 10 := rfl
  simp only [frequestTopic, List.length_append, husers, hfrequest]
  omega

theorem length_chatTopic (source target : CStr) :
    (chatTopic source target).length = 6 + source.length + target.length := by
  have hchat : (lit "chat/").length = 5 := rfl
  have hslash : (lit "/").length = 1 := rfl
  simp only [chatTopic, List.length_append, hchat, hslash]
  omega

theorem levels_frequestTopic (target source : CStr) :
    levels (frequestTopic target source) =
      lit "users" :: (levels target ++ lit "frequest" :: levels source) := by
  have h : frequestTopic target source =
      lit "users" ++ slash :: (target ++ slash :: (lit "frequest" ++ slash :: source)) := by
    rw [frequestTopic, show lit "users/" = lit "users" ++ [slash] from rfl,
      show lit "/frequest/" = slash :: (lit "frequest" ++ [slash]) from rfl]
    simp
  rw [h, levels_append_slash, levels_append_slash, levels_append_slash,
    levels_of_not_mem (a := lit "users") (by decide),
    levels_of_not_mem (a := lit "frequest") (by decide)]
  simp

theorem levels_chatTopic (source target : CStr) :
    levels (chatTopic source target) = lit "chat" :: (levels source ++ levels target) := by
  have h : chatTopic source target = lit "chat" ++ slash :: (source ++ slash :: target) := by
    rw [chatTopic, show lit "chat/" = lit "chat" ++ [slash] from rfl,
      show lit "/" = [slash] from rfl]
    simp
  rw [h, levels_append_slash, levels_append_slash,
    levels_of_not_mem (a := lit "chat") (by decide)]
  simp

theorem levels_usersSub (name : CStr) :
    levels (usersSub name) = lit "users" :: (levels name ++ [[hash]]) := by
  have h : usersSub name = lit "users" ++ slash :: (name ++ slash :: [hash]) := by
    rw [usersSub, show lit "users/" = lit "users" ++ [slash] from rfl,
      show lit "/#" = slash :: [hash] from rfl]
    simp
  rw [h, levels_append_slash, levels_append_slash,
    levels_of_not_mem (a := lit "users") (by decide), levels_of_not_mem (a := [hash]) (by decide)]
  rfl

theorem levels_chatSub (name : CStr) :
    levels (chatSub name) = lit "chat" :: [plus] :: levels name := by
  have h : chatSub name = lit "chat" ++ slash :: ([plus] ++ slash :: name) := by
    rw [chatSub, show lit "chat/+/" = lit "chat" ++ slash :: ([plus] ++ [slash]) from rfl]
    simp
  rw [h, levels_append_slash, levels_append_slash,
    levels_of_not_mem (a := lit "chat") (by decide), levels_of_not_mem (a := [plus]) (by decide)]
  rfl

/-- The callback's view of a well-formed friend request. -/
theorem tokenise_frequestTopic (target source : UserName) :
    subTopicTokenise (frequestTopic target.bytes source.bytes) =
      [some (lit "users"), some target.bytes, some (lit "frequest"), some source.bytes] := by
  rw [subTopicTokenise_eq, levels_frequestTopic, target.levels, source.levels]
  simp only [List.map_cons, List.map_nil, List.cons_append, List.nil_append, target.token,
    source.token]
  rfl

/-- A well-formed friend request names its target and its source. -/
theorem frequestTopic_inj {t s t' s' : UserName}
    (h : frequestTopic t.bytes s.bytes = frequestTopic t'.bytes s'.bytes) : t = t' ∧ s = s' := by
  have hl := congrArg subTopicTokenise h
  rw [tokenise_frequestTopic, tokenise_frequestTopic] at hl
  simp only [List.cons.injEq, Option.some.injEq, true_and, and_true] at hl
  exact ⟨UserName.bytes_inj.mp hl.1, UserName.bytes_inj.mp hl.2⟩

theorem not_mem_frequestTopic {c : UInt8} {t s : CStr} (husers : c ∉ lit "users/")
    (hfrequest : c ∉ lit "/frequest/") (ht : c ∉ t) (hs : c ∉ s) : c ∉ frequestTopic t s := by
  simp only [frequestTopic, List.mem_append, not_or]
  exact ⟨⟨⟨husers, ht⟩, hfrequest⟩, hs⟩

/-! ### Subscriptions -/

/-- MQTT matching of the levels of a topic filter against the levels of a topic: `+` stands for
one level, a final `#` for any number of levels, the parent's included. -/
def levelsMatch : List CStr → List CStr → Bool
  | [], [] => true
  | [], _ :: _ => false
  | f :: fs, [] => decide (f = [hash]) && fs.isEmpty
  | f :: fs, t :: ts =>
    if f = [hash] then fs.isEmpty else (decide (f = [plus]) || decide (f = t)) && levelsMatch fs ts

theorem levelsMatch_cons (f t : CStr) (fs ts : List CStr) (h : f ≠ [hash]) :
    levelsMatch (f :: fs) (t :: ts) = true ↔ (f = [plus] ∨ f = t) ∧ levelsMatch fs ts = true := by
  simp [levelsMatch, h]

/-- A `#` that is not the last level matches nothing. -/
theorem levelsMatch_hash_cons (g : CStr) (fs ts : List CStr) :
    levelsMatch ([hash] :: g :: fs) ts = false := by
  cases ts <;> simp [levelsMatch]

@[simp] theorem levelsMatch_hash (ts : List CStr) : levelsMatch [[hash]] ts = true := by
  cases ts <;> simp [levelsMatch]

/-- Levels other than `#` match themselves. -/
theorem levelsMatch_append {ls : List CStr} (h : [hash] ∉ ls) {fs ts : List CStr}
    (hrest : levelsMatch fs ts = true) : levelsMatch (ls ++ fs) (ls ++ ts) = true := by
  induction ls with
  | nil => exact hrest
  | cons l ls ih =>
    have hl : l ≠ [hash] := fun hl => h (by simp [hl])
    rw [List.cons_append, List.cons_append, levelsMatch_cons _ _ _ _ hl]
    exact ⟨Or.inr rfl, ih fun hmem => h (List.mem_cons_of_mem l hmem)⟩

/-- Whether a broker delivers a message on `topic` to a subscriber of `sub`. -/
def topicMatchesSub (sub topic : CStr) : Bool := levelsMatch (levels sub) (levels topic)

/-- The messages a broker delivers to a client that `psn_connect` subscribed. -/
def Subscribed (username topic : CStr) : Prop :=
  topicMatchesSub (usersSub username) topic = true ∨
    topicMatchesSub (chatSub username) topic = true

instance (username topic : CStr) : Decidable (Subscribed username topic) :=
  inferInstanceAs (Decidable (_ ∨ _))

/-- The friend requests to a user match his subscription. -/
theorem usersSub_matches {username : CStr} (h : [hash] ∉ levels username) (source : CStr) :
    topicMatchesSub (usersSub username) (frequestTopic username source) = true := by
  rw [topicMatchesSub, levels_usersSub, levels_frequestTopic,
    levelsMatch_cons _ _ _ _ (by decide)]
  exact ⟨Or.inr rfl, levelsMatch_append h (levelsMatch_hash _)⟩

/-- So do the chat messages to him. -/
theorem chatSub_matches {username source : CStr} (h : [hash] ∉ levels username)
    (hsource : slash ∉ source) :
    topicMatchesSub (chatSub username) (chatTopic source username) = true := by
  have hnil : levelsMatch [] [] = true := rfl
  have hself : levelsMatch (levels username) (levels username) = true := by
    simpa using levelsMatch_append h hnil
  rw [topicMatchesSub, levels_chatSub, levels_chatTopic, levels_of_not_mem hsource,
    levelsMatch_cons _ _ _ _ (by decide), List.singleton_append,
    levelsMatch_cons _ _ _ _ (by decide)]
  exact ⟨Or.inr rfl, Or.inl rfl, hself⟩

/-- A topic that matches `users/<username>/#` starts with the levels `users` and `username`. -/
theorem eq_of_usersSub_matches {u : UserName} {topic t₀ t₁ : CStr} {ts : List CStr}
    (hl : levels topic = t₀ :: t₁ :: ts)
    (h : topicMatchesSub (usersSub u.bytes) topic = true) : t₀ = lit "users" ∧ t₁ = u.bytes := by
  rw [topicMatchesSub, levels_usersSub, u.levels, hl, List.singleton_append] at h
  have husers : lit "users" ≠ [hash] ∧ lit "users" ≠ [plus] := by decide
  simp only [levelsMatch, if_neg husers.1, if_neg u.ne_hash, husers.2, u.ne_plus, decide_false,
    Bool.false_or, Bool.and_eq_true, decide_eq_true_eq] at h
  exact ⟨h.1.symm, h.2.1.symm⟩

/-- A topic that matches `chat/+/<username>` has the three levels `chat`, some sender and
`username`. -/
theorem eq_of_chatSub_matches {u : UserName} {topic : CStr}
    (h : topicMatchesSub (chatSub u.bytes) topic = true) :
    ∃ sender, levels topic = [lit "chat", sender, u.bytes] := by
  rw [topicMatchesSub, levels_chatSub, u.levels] at h
  have hchat : lit "chat" ≠ [hash] ∧ lit "chat" ≠ [plus] := by decide
  have hplus : [plus] ≠ [hash] := by decide
  match hl : levels topic with
  | [] => simp [hl, levelsMatch, hchat] at h
  | [_] => simp [hl, levelsMatch, hchat, hplus] at h
  | [_, _] => simp [hl, levelsMatch, hchat, hplus, u.ne_hash] at h
  | t₀ :: t₁ :: t₂ :: ts =>
    rw [hl] at h
    simp only [levelsMatch, if_neg hchat.1, if_neg hplus, if_neg u.ne_hash, hchat.2, u.ne_plus,
      decide_false, decide_true, Bool.false_or, Bool.true_or, Bool.true_and, Bool.and_eq_true,
      decide_eq_true_eq] at h
    obtain ⟨h₀, h₂, hts⟩ := h
    have hnil : ts = [] := by
      cases ts with
      | nil => rfl
      | cons t ts => simp [levelsMatch] at hts
    exact ⟨t₁, by rw [← h₀, ← h₂, hnil]⟩

/-- A friend request is delivered to its target. -/
theorem subscribed_frequestTopic (t s : UserName) :
    Subscribed t.bytes (frequestTopic t.bytes s.bytes) :=
  Or.inl (usersSub_matches (by simpa [t.levels] using t.ne_hash.symm) s.bytes)

end Psn

import Psn.Executable
import Psn.Publishing

/-!
# To whom a message is addressed

Names are pasted into topics and subscriptions as they are, and the callback takes a topic apart
at every separator. A sender's name with separators in it only makes a topic longer, and a longer
topic is ignored, so no choice of names makes a message look like one of another kind, for another
user, or from another source.

The callback compares the addressee of a chat message with the own name. For a friend request it
leaves this to the subscription `users/<username>/#`, which lets only requests to the own name
pass unless this name is itself a wildcard or has separators in it.

## Scope

The names are any strings here, except where a theorem says that they are levels: the program checks
no name, neither its own nor the one that it is given as a target. What the broker lets pass is not
part of this. A client that is subscribed to a topic gets what is published there, by whomever; that
the broker may be told who may publish what is in `Psn.StaticAcl`.

## Main results

* `psnMessageCallback_of_levels_three`, `psnMessageCallback_of_levels_four`,
  `psnMessageCallback_of_length`: the callback by the number of levels
* `addressing`: what the callback makes of the topics that are built
* `addressed_iff`: for which user names only requests to the user himself get through
-/

namespace Psn

open KeyedChain

variable {τ κ : Type} [Tomcrypt κ] [UserTable τ κ]

/-! ### The callback by the number of levels -/

/-- The numbers of entries that the callback looks for are numbers of levels. -/
theorem subTopicTokenise_ne {topic : CStr} (hthree : (levels topic).length ≠ 3)
    (hfour : (levels topic).length ≠ 4) :
    (∀ t₀ t₁ t₂, subTopicTokenise topic ≠ [t₀, t₁, t₂]) ∧
      ∀ t₀ t₁ t₂ t₃, subTopicTokenise topic ≠ [t₀, t₁, t₂, t₃] := by
  have hlength : (subTopicTokenise topic).length = (levels topic).length := by
    rw [subTopicTokenise_eq, List.length_map]
  constructor
  · intro t₀ t₁ t₂ htokens
    rw [htokens] at hlength
    exact hthree hlength.symm
  · intro t₀ t₁ t₂ t₃ htokens
    rw [htokens] at hlength
    exact hfour hlength.symm

/-- A topic that has neither three nor four levels is ignored. -/
theorem psnMessageCallback_of_length (psn : PsnT τ κ) {topic : CStr} (payload : Bytes)
    (hthree : (levels topic).length ≠ 3) (hfour : (levels topic).length ≠ 4) :
    psnMessageCallback psn ⟨topic, payload⟩ = some (psn, []) := by
  obtain ⟨hne₃, hne₄⟩ := subTopicTokenise_ne hthree hfour
  rw [psnMessageCallback]
  split
  · rename_i htokens
    exact absurd htokens (hne₃ _ _ _)
  · rename_i htokens
    exact absurd htokens (hne₄ _ _ _ _)
  · rfl

/-- With three levels a message is a chat message or nothing, -/
theorem psnMessageCallback_of_levels_three (psn : PsnT τ κ) {topic l₀ l₁ l₂ : CStr}
    (payload : Bytes) (h : levels topic = [l₀, l₁, l₂]) :
    psnMessageCallback psn ⟨topic, payload⟩ =
      (chatCallback psn (token l₀) (token l₁) (token l₂) payload).map fun effects =>
        (psn, effects) := by
  simp only [psnMessageCallback, subTopicTokenise_eq, h, List.map_cons, List.map_nil]

/-- and with four a friend request or nothing. -/
theorem psnMessageCallback_of_levels_four (psn : PsnT τ κ) {topic l₀ l₁ l₂ l₃ : CStr}
    (payload : Bytes) (h : levels topic = [l₀, l₁, l₂, l₃]) :
    psnMessageCallback psn ⟨topic, payload⟩ =
      frequestCallback psn (token l₀) (token l₂) (token l₃) := by
  simp only [psnMessageCallback, subTopicTokenise_eq, h, List.map_cons, List.map_nil]

omit [Tomcrypt κ] in
/-- The chat branch ignores what is no chat message. -/
theorem chatCallback_of_ne (psn : PsnT τ κ) {kind : CStr} (h : kind ≠ lit "chat")
    (t₁ t₂ : Option CStr) (payload : Bytes) :
    chatCallback psn (some kind) t₁ t₂ payload = some [] := by
  simp [chatCallback, h]

omit [Tomcrypt κ] in
/-- Only a friend is displayed, and only to the user who is named. -/
theorem chatCallback_of_levels (psn : PsnT τ κ) (sender target : CStr) (payload : Bytes) :
    chatCallback psn (some (lit "chat")) (some sender) (some target) payload =
      if target = psn.username.1 ∧ payload ≠ [] ∧ sender ∈ keys psn.friends then
        some [.print (.message sender (payload.takeWhile (· ≠ 0)))]
      else some [] := by
  by_cases htarget : target = psn.username.1
  swap
  · simp [chatCallback, htarget]
  by_cases hpayload : payload = []
  · simp [chatCallback, hpayload]
  cases hfind : find psn.friends sender with
  | none =>
    have hnot := find_eq_none_iff.mp hfind
    simp [chatCallback, htarget, hpayload, hashFindStr, hfind, hnot]
  | some inList =>
    have hmem := mem_keys_of_find hfind
    simp [chatCallback, htarget, hpayload, hashFindStr, hfind, hmem]

/-- The frequest branch ignores what is no friend request. -/
theorem frequestCallback_of_ne (psn : PsnT τ κ) {kind : CStr} (h : kind ≠ lit "users")
    (t₂ t₃ : Option CStr) : frequestCallback psn (some kind) t₂ t₃ = some (psn, []) := by
  simp [frequestCallback, h]

/-- The third level has to be the word. -/
theorem frequestCallback_of_ne_frequest (psn : PsnT τ κ) {level : CStr}
    (h : level ≠ lit "frequest") (t₃ : Option CStr) :
    frequestCallback psn (some (lit "users")) (some level) t₃ = some (psn, []) := by
  simp [frequestCallback, h]

/-! ### Topics that are built -/

/-- A target and a sender as they go into a topic. Separators may occur in both. -/
structure Sendable (target source : CStr) : Prop where
  target_ne_nil : target ≠ []
  source_ne_nil : source ≠ []
  source_length : source.length < 32
  plus_not_mem : plus ∉ target ∧ plus ∉ source
  hash_not_mem : hash ∉ target ∧ hash ∉ source

/-- The topic was built from a target and a sender, and fits its buffer. -/
def Built (topic : CStr) : Prop :=
  topic.length < 128 ∧ ∃ target source, Sendable target source ∧
    (topic = frequestTopic target source ∨ topic = chatTopic source target)

/-- A name without separators is a single level, and another name has more. -/
theorem levels_eq_or_two_le (s : CStr) : levels s = [s] ∨ 2 ≤ (levels s).length := by
  cases hl : levels s with
  | nil => exact absurd hl (levels_ne_nil s)
  | cons a rest =>
    cases rest with
    | nil => exact Or.inl (by rw [eq_of_levels_eq_singleton hl])
    | cons b rest => exact Or.inr (by simp)

/-- What the callback makes of a friend request that was built for `target` under the name
`source`. -/
theorem psnMessageCallback_frequestTopic (psn : PsnT τ κ) {r : UserName} {target source : CStr}
    (payload : Bytes) (h : Sendable target source)
    (hsub : Subscribed r.bytes (frequestTopic target source)) :
    ∃ psn' effects,
      psnMessageCallback psn ⟨frequestTopic target source, payload⟩ = some (psn', effects) ∧
        ((psn' = psn ∧ effects = []) ∨
          (target = r.bytes ∧ Received psn source psn' effects)) := by
  have hlevels := levels_frequestTopic target source
  have hignored : 5 ≤ (levels (frequestTopic target source)).length → ∃ psn' effects,
      psnMessageCallback psn ⟨frequestTopic target source, payload⟩ = some (psn', effects) ∧
        ((psn' = psn ∧ effects = []) ∨
          (target = r.bytes ∧ Received psn source psn' effects)) := fun hlong =>
    ⟨psn, [], psnMessageCallback_of_length psn payload (by omega) (by omega),
      Or.inl ⟨rfl, rfl⟩⟩
  have htargetPos := List.length_pos_iff.mpr (levels_ne_nil target)
  have hsourcePos := List.length_pos_iff.mpr (levels_ne_nil source)
  rcases levels_eq_or_two_le target with htarget | hlong
  swap
  · exact hignored (by simp only [hlevels, List.length_cons, List.length_append]; omega)
  rcases levels_eq_or_two_le source with hsource | hlong
  swap
  · exact hignored (by simp only [hlevels, List.length_cons, List.length_append]; omega)
  -- neither name has separators
  rw [htarget, hsource] at hlevels
  obtain ⟨psn', effects, hcb⟩ := exists_received psn h.source_length
  refine ⟨psn', effects, ?_, Or.inr ⟨target_of_subscribed htarget hsub, ?_⟩⟩
  · rw [psnMessageCallback_of_levels_four psn payload hlevels, token_of_ne_nil (by decide),
      token_of_ne_nil (by decide), token_of_ne_nil h.source_ne_nil, hcb]
  · exact received_of_frequestCallback hcb

/-- What the callback makes of a chat message that was built for `target` under the name
`source`. -/
theorem psnMessageCallback_chatTopic (psn : PsnT τ κ) {target source : CStr} (payload : Bytes)
    (h : Sendable target source) :
    ∃ effects, psnMessageCallback psn ⟨chatTopic source target, payload⟩ = some (psn, effects) ∧
      (effects = [] ∨ (target = psn.username.1 ∧ source ∈ keys psn.friends ∧
        effects = [.print (.message source (payload.takeWhile (· ≠ 0)))])) := by
  have hlevels := levels_chatTopic source target
  by_cases hthree : (levels (chatTopic source target)).length = 3
  · have hlength : (levels source).length + (levels target).length = 2 := by
      rw [hlevels, List.length_cons, List.length_append] at hthree
      omega
    have htargetPos := List.length_pos_iff.mpr (levels_ne_nil target)
    have hsourcePos := List.length_pos_iff.mpr (levels_ne_nil source)
    have htarget := (levels_eq_or_two_le target).resolve_right (by omega)
    have hsource := (levels_eq_or_two_le source).resolve_right (by omega)
    rw [htarget, hsource] at hlevels
    rw [psnMessageCallback_of_levels_three psn payload hlevels, token_of_ne_nil (by decide),
      token_of_ne_nil h.source_ne_nil, token_of_ne_nil h.target_ne_nil, chatCallback_of_levels]
    split
    · rename_i hshown
      exact ⟨_, rfl, Or.inr ⟨hshown.1, hshown.2.2, rfl⟩⟩
    · exact ⟨_, rfl, Or.inl rfl⟩
  by_cases hfour : (levels (chatTopic source target)).length = 4
  · obtain ⟨l₁, l₂, l₃, hrest⟩ := List.length_eq_three.mp
      (show (levels source ++ levels target).length = 3 by
        rw [hlevels, List.length_cons] at hfour
        omega)
    rw [hrest] at hlevels
    rw [psnMessageCallback_of_levels_four psn payload hlevels, token_of_ne_nil (by decide),
      frequestCallback_of_ne psn (by decide)]
    exact ⟨_, rfl, Or.inl rfl⟩
  · exact ⟨[], psnMessageCallback_of_length psn payload hthree hfour, Or.inl rfl⟩

/-- A level that the grammar of the topics allows for a name. -/
def NameLevel (level : CStr) : Prop :=
  level ≠ [] ∧ level.length ≤ 31 ∧ plus ∉ level ∧ hash ∉ level

/-- A name that is a level can be pasted in. -/
theorem NameLevel.sendable {r : UserName} {level : CStr} (h : NameLevel level) :
    Sendable r.bytes level :=
  ⟨r.ne_nil, h.1, Nat.lt_succ_of_le h.2.1, ⟨r.plus_not_mem, h.2.2.1⟩, r.hash_not_mem, h.2.2.2⟩

/-- So the topics that the program builds for it are among these, -/
theorem built_frequestTopic {r : UserName} {source : CStr} (h : NameLevel source) :
    Built (frequestTopic r.bytes source) := by
  refine ⟨?_, r.bytes, source, h.sendable, Or.inl rfl⟩
  have hr := r.length_le
  have hs := h.2.1
  rw [length_frequestTopic]
  omega

/-- those of messages as well. -/
theorem built_chatTopic {r : UserName} {source : CStr} (h : NameLevel source) :
    Built (chatTopic source r.bytes) := by
  refine ⟨?_, r.bytes, source, h.sendable, Or.inr rfl⟩
  have hr := r.length_le
  have hs := h.2.1
  rw [length_chatTopic]
  omega

/-- The callback ignores what was not built. -/
theorem psnMessageCallback_of_not_built (psn : PsnT τ κ) {r : UserName} {topic : CStr}
    (payload : Bytes) (hsub : Subscribed r.bytes topic)
    (hname : ∀ level ∈ levels topic, NameLevel level) (hbuilt : ¬Built topic) :
    psnMessageCallback psn ⟨topic, payload⟩ = some (psn, []) := by
  rcases hsub with husers | hchat
  swap
  · -- every topic of the chat subscription was built
    obtain ⟨sender, hl⟩ := eq_of_chatSub_matches hchat
    have htopic : topic = chatTopic sender r.bytes := by
      rw [← intercalate_levels topic, hl]
      simp [chatTopic, show lit "chat/" = lit "chat" ++ [slash] from rfl,
        show lit "/" = [slash] from rfl]
    rw [htopic] at hbuilt
    exact absurd (built_chatTopic (hname sender (by simp [hl]))) hbuilt
  by_cases hthree : (levels topic).length = 3
  · obtain ⟨l₀, l₁, l₂, hl⟩ := List.length_eq_three.mp hthree
    obtain ⟨rfl, -⟩ := eq_of_usersSub_matches hl husers
    rw [psnMessageCallback_of_levels_three psn payload hl, token_of_ne_nil (by decide),
      chatCallback_of_ne psn (by decide)]
    rfl
  by_cases hfour : (levels topic).length = 4
  · obtain ⟨l₀, rest, hl⟩ := List.exists_cons_of_length_eq_add_one hfour
    obtain ⟨l₁, l₂, l₃, rfl⟩ := List.length_eq_three.mp
      (show rest.length = 3 by simpa [hl] using hfour)
    obtain ⟨rfl, rfl⟩ := eq_of_usersSub_matches hl husers
    have hfrequest : l₂ ≠ lit "frequest" := by
      rintro rfl
      have htopic : topic = frequestTopic r.bytes l₃ := by
        rw [← intercalate_levels topic, hl]
        simp [frequestTopic, show lit "users/" = lit "users" ++ [slash] from rfl,
          show lit "/frequest/" = slash :: (lit "frequest" ++ [slash]) from rfl]
      rw [htopic] at hbuilt
      exact hbuilt (built_frequestTopic (hname l₃ (by simp [hl])))
    rw [psnMessageCallback_of_levels_four psn payload hl, token_of_ne_nil (by decide),
      token_of_ne_nil (hname l₂ (by simp [hl])).1, frequestCallback_of_ne_frequest psn hfrequest]
  · exact psnMessageCallback_of_length psn payload hthree hfour

/-- **The topics are unambiguous.** The callback of the user `r` takes a topic that was built as a
friend request for nothing else, and only if it was built for `r`, and then handles the request of
the name it was built under, which is the only name whose standing can change. It takes a topic
that was built as a chat message for nothing else, and displays the message under the name it was
built under, only if it was built for `r` and this name is a friend's. All other topics it
ignores. -/
theorem addressing (psn : PsnT τ κ) (r : UserName) (hr : psn.username.1 = r.bytes) :
    (∀ target source payload, Sendable target source →
      Subscribed r.bytes (frequestTopic target source) → ∃ psn' effects,
        psnMessageCallback psn ⟨frequestTopic target source, payload⟩ = some (psn', effects) ∧
        (∀ sender text, .print (.message sender text) ∉ effects) ∧
        ((psn' = psn ∧ effects = []) ∨
          (target = r.bytes ∧ Received psn source psn' effects ∧
            ∀ name, name ≠ source → standing psn' name = standing psn name))) ∧
    (∀ target source payload, Sendable target source → ∃ effects,
        psnMessageCallback psn ⟨chatTopic source target, payload⟩ = some (psn, effects) ∧
        (effects = [] ∨ (target = r.bytes ∧ source ∈ keys psn.friends ∧
          effects = [.print (.message source (payload.takeWhile (· ≠ 0)))]))) ∧
    ∀ topic payload, Subscribed r.bytes topic → (∀ level ∈ levels topic, NameLevel level) →
      ¬Built topic → psnMessageCallback psn ⟨topic, payload⟩ = some (psn, []) := by
  refine ⟨fun target source payload hsend hsub => ?_, fun target source payload hsend => ?_,
    fun topic payload hsub hname hbuilt =>
      psnMessageCallback_of_not_built psn payload hsub hname hbuilt⟩
  · obtain ⟨psn', effects, hcb, houtcome⟩ :=
      psnMessageCallback_frequestTopic psn payload hsend hsub
    refine ⟨psn', effects, hcb, fun sender text hprint => ?_, houtcome.imp_right ?_⟩
    · rcases houtcome with ⟨-, rfl⟩ | ⟨-, hreceived⟩
      · cases hprint
      · cases hreceived <;> simp at hprint
    · rintro ⟨htarget, hreceived⟩
      refine ⟨htarget, hreceived, fun name hne => ?_⟩
      rw [standing_received hreceived, if_neg (Ne.symm hne)]
  · rw [← hr]
    exact psnMessageCallback_chatTopic psn payload hsend

/-- A request of bob reaches alice as such. -/
theorem addressing_delivered :
    ∃ psn' effects,
      psnMessageCallback (concreteProc alice).psn ⟨frequestTopic alice.bytes bob.bytes, []⟩ =
          some (psn', effects) ∧
        (∀ sender text, .print (.message sender text) ∉ effects) ∧
        ((psn' = (concreteProc alice).psn ∧ effects = []) ∨
          (alice.bytes = alice.bytes ∧ Received (concreteProc alice).psn bob.bytes psn' effects ∧
            ∀ name, name ≠ bob.bytes →
              standing psn' name = standing (concreteProc alice).psn name)) :=
  (addressing (concreteProc alice).psn alice rfl).1 alice.bytes bob.bytes []
    ⟨alice.ne_nil, bob.ne_nil, by decide, by decide, by decide⟩
    (subscribed_frequestTopic alice bob)

/-! ### Names that divert messages -/

/-- The addressee of a topic: the second of its levels for friend requests, the third for chat
messages. -/
def addressee (topic : CStr) : Option CStr :=
  match levels topic with
  | kind :: rest =>
    if kind = lit "users" then rest[0]? else if kind = lit "chat" then rest[1]? else none
  | [] => none

/-- A level without wildcards, which a published topic may have. -/
def Unwild (level : CStr) : Prop := plus ∉ level ∧ hash ∉ level

/-- The user name turns the subscription `users/<username>/#` into one for the friend requests of
other users: it is the wildcard `+`, or it has separators and continues the topic itself. -/
def Diverts (name : CStr) : Prop :=
  match levels name with
  | [user] => user = [plus]
  | [user, kind] => (user = [plus] ∨ Unwild user) ∧ (kind = [plus] ∨ kind = lit "frequest")
  | [user, kind, source] =>
    (user = [plus] ∨ Unwild user) ∧ (kind = [plus] ∨ kind = lit "frequest") ∧
      (source = [plus] ∨ (Unwild source ∧ source ≠ []))
  | _ => False

/-- The callback changes a list or displays something only for messages to the user himself. -/
def OnlyAddressed (psn : PsnT τ κ) (m : Message) : Prop :=
  ∀ psn' effects, psnMessageCallback psn m = some (psn', effects) →
    ¬SameLists psn psn' ∨ effects ≠ [] → addressee m.topic = some psn.username.1

/-- A level of a topic has no wildcards if the topic has none. -/
theorem unwild_of_mem_levels {topic level : CStr} (h : Unwild topic) (hl : level ∈ levels topic) :
    Unwild level :=
  ⟨fun hplus => h.1 ((of_mem_levels hl).2.subset hplus),
    fun hhash => h.2 ((of_mem_levels hl).2.subset hhash)⟩

/-- The subscriptions of a client let a topic of the friend requests pass exactly if the first one
does. -/
theorem subscribed_users_iff {name topic : CStr} {ts : List CStr}
    (hl : levels topic = lit "users" :: ts) :
    Subscribed name topic ↔ levelsMatch (levels name ++ [[hash]]) ts = true := by
  have husers : lit "users" ≠ [hash] := by decide
  have hchat : lit "chat" ≠ [hash] := by decide
  have hne : ¬(lit "chat" = [plus] ∨ lit "chat" = lit "users") := by decide
  rw [Subscribed, topicMatchesSub, topicMatchesSub, levels_usersSub, levels_chatSub, hl,
    levelsMatch_cons _ _ _ _ husers, levelsMatch_cons _ _ _ _ hchat]
  simp [hne]

/-- It is no wildcard itself, then. -/
theorem Unwild.ne_hash {level : CStr} (h : Unwild level) : level ≠ [hash] := by
  rintro rfl
  exact h.2 (by simp)

/-- If a friend request gets through, it is for the user himself, or his name diverts it. -/
theorem diverts_of_levelsMatch {name user source : CStr} (huser : Unwild user)
    (hsource : Unwild source) (hne : source ≠ [])
    (h : levelsMatch (levels name ++ [[hash]]) [user, lit "frequest", source] = true) :
    user = name ∨ Diverts name := by
  cases hl : levels name with
  | nil => exact absurd hl (levels_ne_nil name)
  | cons a rest =>
    rw [hl, List.cons_append] at h
    have ha : a ≠ [hash] := by
      rintro rfl
      cases rest <;> simp [levelsMatch_hash_cons] at h
    obtain ⟨hfirst, h⟩ := (levelsMatch_cons _ _ _ _ ha).mp h
    cases rest with
    | nil =>
      rcases hfirst with rfl | rfl
      · exact Or.inr (by rw [Diverts, hl])
      · exact Or.inl (eq_of_levels_eq_singleton hl).symm
    | cons b rest =>
      have hfirst : a = [plus] ∨ Unwild a := by
        rcases hfirst with hplus | rfl
        · exact Or.inl hplus
        · exact Or.inr huser
      rw [List.cons_append] at h
      have hb : b ≠ [hash] := by
        rintro rfl
        cases rest <;> simp [levelsMatch_hash_cons] at h
      obtain ⟨hsecond, h⟩ := (levelsMatch_cons _ _ _ _ hb).mp h
      cases rest with
      | nil => exact Or.inr (by rw [Diverts, hl]; exact ⟨hfirst, hsecond⟩)
      | cons c rest =>
        rw [List.cons_append] at h
        have hc : c ≠ [hash] := by
          rintro rfl
          cases rest <;> simp [levelsMatch_hash_cons] at h
        obtain ⟨hthird, h⟩ := (levelsMatch_cons _ _ _ _ hc).mp h
        have hthird : c = [plus] ∨ (Unwild c ∧ c ≠ []) := by
          rcases hthird with hplus | rfl
          · exact Or.inl hplus
          · exact Or.inr ⟨hsource, hne⟩
        cases rest with
        | nil => exact Or.inr (by rw [Diverts, hl]; exact ⟨hfirst, hsecond, hthird⟩)
        | cons d rest => simp [levelsMatch] at h

/-- A level of a subscription lets some level of a topic pass. -/
theorem exists_level {name level : CStr} (hname : name.length < 32) (hl : level ∈ levels name)
    (h : level = [plus] ∨ Unwild level) :
    ∃ t, (level = [plus] ∨ level = t) ∧ Unwild t ∧ slash ∉ t ∧ t.length < 32 ∧
      (level ≠ [] → t ≠ []) := by
  rcases h with h | h
  · exact ⟨lit "a", Or.inl h, ⟨by decide, by decide⟩, by decide, by decide, fun _ => by decide⟩
  · have hsub := of_mem_levels hl
    exact ⟨level, Or.inr rfl, h, hsub.1, Nat.lt_of_le_of_lt hsub.2.length_le hname, id⟩

/-- Under a name that diverts, a friend request to somebody else gets through. -/
theorem exists_diverted {name : CStr} (hname : name.length < 32) (h : Diverts name) :
    ∃ user source, Unwild user ∧ Unwild source ∧ slash ∉ user ∧ slash ∉ source ∧
      source ≠ [] ∧ source.length < 32 ∧ user ≠ name ∧
      levelsMatch (levels name ++ [[hash]]) [user, lit "frequest", source] = true := by
  have hkind : ∀ {kind : CStr}, kind = [plus] ∨ kind = lit "frequest" → kind ≠ [hash] := by
    rintro kind (rfl | rfl) <;> decide
  have hwild : ∀ {l : CStr}, l = [plus] ∨ Unwild l → l ≠ [hash] := by
    rintro l (rfl | hl)
    · decide
    · exact hl.ne_hash
  have hb : Unwild (lit "b") ∧ slash ∉ lit "b" ∧ lit "b" ≠ [] ∧ (lit "b").length < 32 :=
    ⟨⟨by decide, by decide⟩, by decide, by decide, by decide⟩
  rw [Diverts] at h
  split at h
  · rename_i user hl
    subst h
    refine ⟨lit "a", lit "b", ⟨by decide, by decide⟩, hb.1, by decide, hb.2.1, hb.2.2.1,
      hb.2.2.2, fun heq => ?_, ?_⟩
    · rw [← heq] at hl
      exact absurd hl (by decide)
    · rw [hl, List.cons_append, levelsMatch_cons _ _ _ _ (by decide)]
      exact ⟨Or.inl rfl, levelsMatch_hash _⟩
  · rename_i user kind hl
    obtain ⟨t, hmatch, ht, hslash, -, -⟩ := exists_level hname (by simp [hl]) h.1
    refine ⟨t, lit "b", ht, hb.1, hslash, hb.2.1, hb.2.2.1, hb.2.2.2, fun heq => ?_, ?_⟩
    · rw [← heq, levels_of_not_mem hslash] at hl
      cases hl
    · rw [hl, List.cons_append, levelsMatch_cons _ _ _ _ (hwild h.1), List.cons_append,
        levelsMatch_cons _ _ _ _ (hkind h.2)]
      exact ⟨hmatch, h.2, levelsMatch_hash _⟩
  · rename_i user kind source hl
    obtain ⟨t, hmatch, ht, hslash, -, -⟩ := exists_level hname (by simp [hl]) h.1
    have hsource : source = [plus] ∨ Unwild source := h.2.2.imp_right And.left
    have hne : source ≠ [] := by
      rcases h.2.2 with rfl | hc
      · decide
      · exact hc.2
    obtain ⟨s, hmatchs, hs, hslashs, hlength, hnil⟩ := exists_level hname (by simp [hl]) hsource
    refine ⟨t, s, ht, hs, hslash, hslashs, hnil hne, hlength, fun heq => ?_, ?_⟩
    · rw [← heq, levels_of_not_mem hslash] at hl
      cases hl
    · rw [hl, List.cons_append, levelsMatch_cons _ _ _ _ (hwild h.1), List.cons_append,
        levelsMatch_cons _ _ _ _ (hkind h.2.1), List.cons_append,
        levelsMatch_cons _ _ _ _ (hwild hsource)]
      exact ⟨hmatch, h.2.1, hmatchs, levelsMatch_hash _⟩
  · exact absurd h id

/-- Where there is a source, the topic is that of a friend request, for some user. -/
theorem levels_of_frequestSource {topic source : CStr} (h : frequestSource topic = some source) :
    ∃ user, levels topic = [lit "users", user, lit "frequest", source] ∧ source ≠ [] := by
  rw [frequestSource] at h
  split at h
  · rename_i t₀ t₁ t₂ t₃ htokens
    obtain ⟨⟨rfl, rfl⟩, rfl⟩ := Option.ite_none_right_eq_some.mp h
    rw [subTopicTokenise_eq] at htokens
    obtain ⟨l₀, rest, hl, h₀, hrest⟩ := List.map_eq_cons_iff.mp htokens
    obtain ⟨l₁, rest, rfl, -, hrest⟩ := List.map_eq_cons_iff.mp hrest
    obtain ⟨l₂, rest, rfl, h₂, hrest⟩ := List.map_eq_cons_iff.mp hrest
    obtain ⟨l₃, rest, rfl, h₃, hrest⟩ := List.map_eq_cons_iff.mp hrest
    refine ⟨l₁, ?_, (token_eq_some.mp h₃).2⟩
    rw [hl, (token_eq_some.mp h₀).1, (token_eq_some.mp h₂).1, (token_eq_some.mp h₃).1,
      List.map_eq_nil_iff.mp hrest]
  · cases h

/-- An instance without users that has only a name. -/
def PsnT.named (name : Field 32) : PsnT τ κ where
  mosq := none
  username := name
  shownName := name
  password := Field.nil 31
  hostname := Field.nil 255
  port := 0
  friends := empty
  friendRequestsOutgoing := empty
  friendRequestsIncoming := empty
  pkKey := Tomcrypt.zero

/-- **For which names only requests to the user himself get through.** The callback changes a list
or displays something only for messages that are addressed to the user, in every state and for
every message that his subscriptions let pass, exactly if his name does not divert friend
requests. -/
theorem addressed_iff (name : Field 32) :
    (∀ (psn : PsnT τ κ) (m : Message), psn.username = name → Unwild m.topic →
      Subscribed name.1 m.topic → OnlyAddressed psn m) ↔ ¬Diverts name.1 := by
  constructor
  · intro honly hdiverts
    obtain ⟨user, source, huser, hsource, huserSlash, hsourceSlash, hne, hlength, hother,
      hmatch⟩ := exists_diverted name.2 hdiverts
    have hl : levels (frequestTopic user source) =
        [lit "users", user, lit "frequest", source] := by
      rw [levels_frequestTopic, levels_of_not_mem huserSlash, levels_of_not_mem hsourceSlash]
      rfl
    have hunwild : Unwild (frequestTopic user source) :=
      ⟨not_mem_frequestTopic (by decide) (by decide) huser.1 hsource.1,
        not_mem_frequestTopic (by decide) (by decide) huser.2 hsource.2⟩
    obtain ⟨psn', effects, hcb⟩ := exists_received (PsnT.named (τ := τ) (κ := κ) name) hlength
    have hhandled : psnMessageCallback (PsnT.named (τ := τ) (κ := κ) name)
        ⟨frequestTopic user source, []⟩ = some (psn', effects) := by
      rw [psnMessageCallback_of_levels_four _ [] hl, token_of_ne_nil (by decide),
        token_of_ne_nil (by decide), token_of_ne_nil hne, hcb]
    have heffects : effects ≠ [] := by
      cases received_of_frequestCallback hcb with
      | known h => simp [PsnT.named] at h
      | accepted | recorded => simp
    have haddressee := honly (PsnT.named name) ⟨frequestTopic user source, []⟩ rfl hunwild
      ((subscribed_users_iff hl).mpr hmatch) psn' effects hhandled (Or.inr heffects)
    simp only [addressee, hl, PsnT.named, if_true, List.getElem?_cons_zero,
      Option.some.injEq] at haddressee
    exact hother haddressee
  · rintro hnot psn m rfl hunwild hsub psn' effects hcb hchanged
    cases psnMessageCallback_eq_some hcb with
    | ignored => exact absurd (SameLists.refl psn) (hchanged.resolve_right (by simp))
    | displayed sender hf hpayload htopic =>
      rw [subTopicTokenise_eq] at htopic
      obtain ⟨l₀, rest, hl, h₀, hrest⟩ := List.map_eq_cons_iff.mp htopic
      obtain ⟨l₁, rest, rfl, -, hrest⟩ := List.map_eq_cons_iff.mp hrest
      obtain ⟨l₂, rest, rfl, h₂, -⟩ := List.map_eq_cons_iff.mp hrest
      have hkind : ¬lit "chat" = lit "users" := by decide
      simp [addressee, hl, (token_eq_some.mp h₀).1, hkind, (token_eq_some.mp h₂).1]
    | frequest source hsource hr =>
      obtain ⟨user, hl, hne⟩ := levels_of_frequestSource hsource
      have huser : Unwild user := unwild_of_mem_levels hunwild (by simp [hl])
      have hsource : Unwild source := unwild_of_mem_levels hunwild (by simp [hl])
      have hmatch := (subscribed_users_iff hl).mp hsub
      have hname := (diverts_of_levelsMatch huser hsource hne hmatch).resolve_right hnot
      simp [addressee, hl, hname]

/-- A user named `+` records a request to somebody else. -/
theorem not_addressed_plus :
    ∃ (psn : PsnT (List (User DerKey)) DerKey) (m : Message), psn.username.1 = lit "+" ∧
      m.topic = lit "users/bob/frequest/carol" ∧ Unwild m.topic ∧ Subscribed (lit "+") m.topic ∧
      ¬OnlyAddressed psn m := by
  refine ⟨.named ⟨lit "+", by decide⟩, ⟨lit "users/bob/frequest/carol", []⟩, rfl, rfl,
    ⟨by decide, by decide⟩, by decide, fun honly => ?_⟩
  obtain ⟨psn', effects, hcb, heffects⟩ : ∃ psn' effects,
      psnMessageCallback (PsnT.named ⟨lit "+", by decide⟩ : PsnT (List (User DerKey)) DerKey)
        ⟨lit "users/bob/frequest/carol", []⟩ = some (psn', effects) ∧ effects ≠ [] :=
    ⟨_, _, rfl, by simp⟩
  exact absurd (honly psn' effects hcb (Or.inr heffects)) (by decide)

end Psn

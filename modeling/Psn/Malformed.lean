import Psn.Addressing

/-!
# Topics with empty levels

The tokeniser leaves the array entry of an empty level NULL, and a remote sender chooses the topic.
The callback hands the levels to `strcmp`, to the lookups in the tables and to `strcpy` without
looking for NULL. Which of them are read depends on the number of levels, on the comparisons
before, and on the tables: a lookup in an empty table does not read its key.

## Scope

The topics are those that a broker can deliver for one of the two subscriptions. The payload plays
no part in it, except that an empty one is not displayed.

## Main definitions

* `callbackReads`: the levels that the callback reads
* `BreaksCallback`: the topics of the two subscriptions that make it read a NULL level

## Main results

* `psnMessageCallback_eq_none_iff`: the callback is undefined exactly where it reads NULL, or
  copies a name that does not fit
* `safeTopic_iff`: which topics are safe
-/

namespace Psn

open KeyedChain

variable {τ κ : Type} [Tomcrypt κ] [UserTable τ κ]

/-! ### The levels that are read -/

omit [Tomcrypt κ] in
/-- The levels that the branch for chat messages hands to a string function or to a lookup that
reads its key, in order. -/
def chatReads (psn : PsnT τ κ) (topic₀ topic₁ topic₂ : Option CStr) (payload : Bytes) :
    List (Option CStr) :=
  if topic₀ ≠ some (lit "chat") then [topic₀]
  else if topic₂ ≠ some psn.username.1 ∨ payload = [] then [topic₀, topic₂]
  else if items psn.friends = [] then [topic₀, topic₂]
  else [topic₀, topic₂, topic₁]

/-- The levels that the branch for friend requests reads. The source is read by the first lookup
in a table with records, and by `strcpy` if there is none. -/
def frequestReads (topic₀ topic₂ topic₃ : Option CStr) : List (Option CStr) :=
  if topic₀ ≠ some (lit "users") then [topic₀]
  else if topic₂ ≠ some (lit "frequest") then [topic₀, topic₂]
  else [topic₀, topic₂, topic₃]

omit [Tomcrypt κ] in
/-- The levels that `psn_message_callback` reads. -/
def callbackReads (psn : PsnT τ κ) (m : Message) : List (Option CStr) :=
  match subTopicTokenise m.topic with
  | [topic₀, topic₁, topic₂] => chatReads psn topic₀ topic₁ topic₂ m.payload
  | [topic₀, _, topic₂, topic₃] => frequestReads topic₀ topic₂ topic₃
  | _ => []

omit [Tomcrypt κ] in
theorem chatReads_of_ne (psn : PsnT τ κ) {kind : CStr} (h : kind ≠ lit "chat")
    (t₁ t₂ : Option CStr) (payload : Bytes) :
    chatReads psn (some kind) t₁ t₂ payload = [some kind] :=
  if_pos fun heq => h (Option.some_inj.mp heq)

omit [Tomcrypt κ] in
theorem chatCallback_eq_none_iff (psn : PsnT τ κ) (t₀ t₁ t₂ : Option CStr) (payload : Bytes) :
    chatCallback psn t₀ t₁ t₂ payload = none ↔ none ∈ chatReads psn t₀ t₁ t₂ payload := by
  match t₀ with
  | none => simp [chatCallback, chatReads]
  | some a =>
    by_cases ha : a = lit "chat"
    swap
    · simp [chatCallback, chatReads, ha]
    match t₂ with
    | none => simp [chatCallback, chatReads, ha]
    | some c =>
      by_cases hc : c = psn.username.1
      swap
      · simp [chatCallback, chatReads, ha, hc]
      by_cases hpayload : payload = []
      · simp [chatCallback, chatReads, ha, hc, hpayload]
      cases t₁ with
      | none =>
        by_cases hf : items psn.friends = []
        · simp [chatCallback, chatReads, ha, hc, hpayload, hashFindStr, hf]
        · simp [chatCallback, chatReads, ha, hc, hpayload, hashFindStr, hf]
      | some sender =>
        have hreads : none ∉ chatReads psn (some a) (some sender) (some c) payload := by
          rw [chatReads]
          split
          · simp
          split
          · simp
          split <;> simp
        refine iff_of_false ?_ hreads
        rw [ha, hc, chatCallback_of_levels]
        split <;> simp

/-- A source that does not fit a name field is in no table, and breaks `strcpy`. -/
theorem frequestCallback_of_long (psn : PsnT τ κ) {source : CStr} (h : 32 ≤ source.length) :
    frequestCallback psn (some (lit "users")) (some (lit "frequest")) (some source) = none := by
  have hkeys : ∀ t : τ, find t source = none := by
    intro t
    refine find_eq_none_iff.mpr fun hmem => ?_
    obtain ⟨u, -, hu⟩ := List.mem_map.mp hmem
    have hlen := u.name.2
    rw [key_user] at hu
    rw [hu] at hlen
    omega
  have hnew : callocUser (κ := κ) (some source) = none := by
    rw [callocUser, strcpy, dif_neg (by omega)]
    rfl
  rw [frequestCallback_of_levels, hkeys, hkeys, hkeys, hnew]
  simp

theorem frequestCallback_eq_none_iff (psn : PsnT τ κ) (t₀ t₂ t₃ : Option CStr) :
    frequestCallback psn t₀ t₂ t₃ = none ↔
      none ∈ frequestReads t₀ t₂ t₃ ∨
        (t₀ = some (lit "users") ∧ t₂ = some (lit "frequest") ∧
          ∃ source, t₃ = some source ∧ 32 ≤ source.length) := by
  cases t₀ with
  | none => simp [frequestCallback, frequestReads]
  | some a =>
    by_cases ha : a = lit "users"
    swap
    · simp [frequestCallback_of_ne psn ha, frequestReads, ha]
    subst ha
    cases t₂ with
    | none => simp [frequestCallback, frequestReads]
    | some b =>
      by_cases hb : b = lit "frequest"
      swap
      · simp [frequestCallback_of_ne_frequest psn hb, frequestReads, hb]
      subst hb
      cases t₃ with
      | none => simp [frequestCallback_null, frequestReads]
      | some source =>
        by_cases hlen : source.length < 32
        · obtain ⟨psn', effects, h⟩ := exists_received psn hlen
          have hshort : ¬32 ≤ source.length := by omega
          simp [h, frequestReads, hshort]
        · rw [frequestCallback_of_long psn (by omega)]
          exact iff_of_true rfl (Or.inr ⟨rfl, rfl, source, rfl, by omega⟩)

/-- **Where the callback is undefined.** It reads a NULL level, or the source of a friend request
does not fit the name of a record. -/
theorem psnMessageCallback_eq_none_iff (psn : PsnT τ κ) (m : Message) :
    psnMessageCallback psn m = none ↔
      none ∈ callbackReads psn m ∨
        ∃ source, frequestSource m.topic = some source ∧ 32 ≤ source.length := by
  rw [psnMessageCallback, callbackReads, frequestSource]
  generalize subTopicTokenise m.topic = tokens
  rcases tokens with - | ⟨t₀, - | ⟨t₁, - | ⟨t₂, - | ⟨t₃, - | ⟨t₄, tokens⟩⟩⟩⟩⟩
  · simp
  · simp
  · simp
  · simp only [Option.map_eq_none_iff, chatCallback_eq_none_iff]
    simp
  · simp only [frequestCallback_eq_none_iff]
    by_cases hlevels : t₀ = some (lit "users") ∧ t₂ = some (lit "frequest")
    · simp [hlevels]
    · rw [if_neg hlevels]
      simp only [not_and] at hlevels
      simp +contextual [hlevels]
  · simp

/-! ### Safe topics -/

/-- The callback reads no NULL level of a topic, and ignores it if it has an empty level. The
tokeniser counts every separator, and leaves the entries of empty levels NULL. -/
structure SafeTopic (psn : PsnT τ κ) (m : Message) : Prop where
  reads : none ∉ callbackReads psn m
  ignored : [] ∈ levels m.topic → psnMessageCallback psn m = some (psn, [])
  count : (subTopicTokenise m.topic).length = m.topic.count slash + 1
  entries : subTopicTokenise m.topic = (levels m.topic).map token

theorem length_levels (topic : CStr) : (levels topic).length = topic.count slash + 1 := by
  induction topic with
  | nil => rfl
  | cons c topic ih =>
    rw [levels_cons, List.count_cons]
    by_cases hc : c = slash
    · simp [hc, ih]
    · simp [hc, ih]

theorem safeTopic_of {psn : PsnT τ κ} {m : Message} (hreads : none ∉ callbackReads psn m)
    (hignored : [] ∈ levels m.topic → psnMessageCallback psn m = some (psn, [])) :
    SafeTopic psn m where
  reads := hreads
  ignored := hignored
  count := by rw [subTopicTokenise_eq, List.length_map, length_levels]
  entries := subTopicTokenise_eq m.topic

theorem safeTopic_of_length (psn : PsnT τ κ) {topic : CStr} (payload : Bytes)
    (hthree : (levels topic).length ≠ 3) (hfour : (levels topic).length ≠ 4) :
    SafeTopic psn ⟨topic, payload⟩ := by
  refine safeTopic_of ?_ fun _ => psnMessageCallback_of_length psn payload hthree hfour
  obtain ⟨hne₃, hne₄⟩ := subTopicTokenise_ne hthree hfour
  rw [callbackReads]
  split
  · rename_i htokens
    exact absurd htokens (hne₃ _ _ _)
  · rename_i htokens
    exact absurd htokens (hne₄ _ _ _ _)
  · simp

/-- A topic with the levels of a friend request is safe if the third of them is not empty, and if
the source is not empty either when the topic is one. -/
theorem safeTopic_users_iff (psn : PsnT τ κ) {topic user kind source : CStr} (payload : Bytes)
    (huser : user ≠ []) (hl : levels topic = [lit "users", user, kind, source]) :
    SafeTopic psn ⟨topic, payload⟩ ↔ kind ≠ [] ∧ ¬(kind = lit "frequest" ∧ source = []) := by
  have husers : token (lit "users") = some (lit "users") := rfl
  have hreads : callbackReads psn ⟨topic, payload⟩ =
      frequestReads (some (lit "users")) (token kind) (token source) := by
    simp only [callbackReads, subTopicTokenise_eq, hl, List.map_cons, List.map_nil, husers]
  constructor
  · intro h
    have hnull := h.reads
    rw [hreads] at hnull
    constructor
    · rintro rfl
      exact hnull (by simp [frequestReads, token])
    · rintro ⟨rfl, rfl⟩
      exact hnull (by simp [frequestReads, token, lit])
  · rintro ⟨hkind, hsource⟩
    refine safeTopic_of ?_ fun hempty => ?_
    · rw [hreads, token_of_ne_nil hkind, frequestReads, if_neg (by simp)]
      by_cases hfrequest : kind = lit "frequest"
      · rw [token_of_ne_nil fun hnil => hsource ⟨hfrequest, hnil⟩]
        split <;> simp
      · rw [if_pos (by simpa using hfrequest)]
        simp
    · -- the empty level is the source, and the topic is no friend request
      have hnil : source = [] := by
        simpa [hl, lit, Ne.symm huser, Ne.symm hkind] using hempty
      rw [psnMessageCallback_of_levels_four psn payload hl, husers, token_of_ne_nil hkind,
        frequestCallback_of_ne_frequest psn fun hfrequest => hsource ⟨hfrequest, hnil⟩]

/-- A topic of the chat subscription is safe unless its sender is empty and is looked up. -/
theorem safeTopic_chat_iff {psn : PsnT τ κ} {u : UserName} (hu : psn.username.1 = u.bytes)
    {topic sender : CStr} (payload : Bytes) (hl : levels topic = [lit "chat", sender, u.bytes]) :
    SafeTopic psn ⟨topic, payload⟩ ↔
      ¬(sender = [] ∧ payload ≠ [] ∧ items psn.friends ≠ []) := by
  have hchat : token (lit "chat") = some (lit "chat") := rfl
  have hreads : callbackReads psn ⟨topic, payload⟩ =
      chatReads psn (some (lit "chat")) (token sender) (some psn.username.1) payload := by
    simp only [callbackReads, subTopicTokenise_eq, hl, List.map_cons, List.map_nil, hchat, u.token,
      hu]
  have hcallback := psnMessageCallback_of_levels_three psn payload hl
  rw [hchat, u.token, ← hu] at hcallback
  constructor
  · rintro h ⟨rfl, hpayload, hfriends⟩
    have hnull := h.reads
    rw [hreads] at hnull
    exact hnull (by simp [chatReads, token, hpayload, hfriends])
  · intro h
    refine safeTopic_of ?_ fun hempty => ?_
    · rw [hreads, chatReads, if_neg (by simp)]
      split
      · simp
      split
      · simp
      rename_i hpayload hfriends
      simp only [not_or] at hpayload
      rw [token_of_ne_nil fun hnil => h ⟨hnil, hpayload.2, hfriends⟩]
      simp
    · have hnil : sender = [] := by
        simpa [hl, lit, Ne.symm u.ne_nil] using hempty
      subst hnil
      rw [hcallback]
      by_cases hpayload : payload = []
      · simp [chatCallback, hpayload]
      · have hfriends : items psn.friends = [] := not_not.mp fun hne => h ⟨rfl, hpayload, hne⟩
        simp [chatCallback, token, hpayload, hashFindStr, hfriends]

omit [Tomcrypt κ] in
/-- The topics of the two subscriptions of a user that make the callback read NULL: the kind of the
message is empty, or the source of a friend request is, or the sender of a chat message is and there
are friends to look through. -/
def BreaksCallback (psn : PsnT τ κ) (user : CStr) (m : Message) : Prop :=
  (∃ source, levels m.topic = [lit "users", user, [], source]) ∨
    levels m.topic = [lit "users", user, lit "frequest", []] ∨
    (levels m.topic = [lit "chat", [], user] ∧ m.payload ≠ [] ∧ items psn.friends ≠ [])

/-- **Which topics are safe.** For a topic that reaches a client through its subscriptions, the
callback reads no NULL level and ignores an empty one exactly if the topic is none of the three
kinds that break it. -/
theorem safeTopic_iff {psn : PsnT τ κ} {u : UserName} (hu : psn.username.1 = u.bytes)
    {topic : CStr} (hsub : Subscribed u.bytes topic) (payload : Bytes) :
    SafeTopic psn ⟨topic, payload⟩ ↔ ¬BreaksCallback psn u.bytes ⟨topic, payload⟩ := by
  by_cases hthree : (levels topic).length = 3
  · obtain ⟨l₀, l₁, l₂, hl⟩ := List.length_eq_three.mp hthree
    rcases hsub with husers | hchat
    · obtain ⟨rfl, rfl⟩ := eq_of_usersSub_matches hl husers
      refine iff_of_true (safeTopic_of ?_ fun _ => ?_) ?_
      · simp only [callbackReads, subTopicTokenise_eq, hl, List.map_cons, List.map_nil,
          token_of_ne_nil (a := lit "users") (by decide)]
        rw [chatReads_of_ne psn (by decide)]
        simp
      · rw [psnMessageCallback_of_levels_three psn payload hl, token_of_ne_nil (by decide),
          chatCallback_of_ne psn (by decide)]
        rfl
      · simp [BreaksCallback, hl, lit]
    · obtain ⟨sender, hl⟩ := eq_of_chatSub_matches hchat
      rw [safeTopic_chat_iff hu payload hl]
      simp [BreaksCallback, hl]
  by_cases hfour : (levels topic).length = 4
  · rcases hsub with husers | hchat
    · obtain ⟨l₀, rest, hl⟩ := List.exists_cons_of_length_eq_add_one hfour
      obtain ⟨l₁, l₂, l₃, rfl⟩ := List.length_eq_three.mp
        (show rest.length = 3 by simpa [hl] using hfour)
      obtain ⟨rfl, rfl⟩ := eq_of_usersSub_matches hl husers
      rw [safeTopic_users_iff psn payload u.ne_nil hl]
      simp [BreaksCallback, hl]
    · obtain ⟨sender, hl⟩ := eq_of_chatSub_matches hchat
      simp [hl] at hfour
  · refine iff_of_true (safeTopic_of_length psn payload hthree hfour) ?_
    rintro (⟨source, hl⟩ | hl | ⟨hl, -⟩)
    · simp [hl] at hfour
    · simp [hl] at hfour
    · simp [hl] at hthree

/-- A friend request without a source is delivered to alice and breaks her callback. -/
theorem not_safeTopic_no_source :
    Subscribed alice.bytes (frequestTopic alice.bytes []) ∧
      ¬SafeTopic (concreteProc alice).psn ⟨frequestTopic alice.bytes [], []⟩ ∧
      psnMessageCallback (concreteProc alice).psn ⟨frequestTopic alice.bytes [], []⟩ = none := by
  have hsub : Subscribed alice.bytes (frequestTopic alice.bytes []) := by decide
  have hl : levels (frequestTopic alice.bytes []) =
      [lit "users", alice.bytes, lit "frequest", []] := by decide
  refine ⟨hsub, fun h => ?_, ?_⟩
  · exact ((safeTopic_users_iff (concreteProc alice).psn [] alice.ne_nil hl).mp h).2 ⟨rfl, rfl⟩
  · rw [psnMessageCallback_of_levels_four _ [] hl]
    exact frequestCallback_null _

/-- A topic with an empty level that is of no kind is ignored. -/
theorem safeTopic_iff_status :
    SafeTopic (concreteProc alice).psn ⟨lit "users/alice/status/", []⟩ :=
  (safeTopic_iff rfl (show Subscribed alice.bytes (lit "users/alice/status/") by decide) []).mpr
    (by
      have hl : levels (lit "users/alice/status/") =
          [lit "users", alice.bytes, lit "status", []] := by decide
      rintro (⟨source, h⟩ | h | ⟨h, -⟩)
      · have hkind : lit "status" = [] := (List.cons.inj (List.cons.inj (List.cons.inj
          (hl.symm.trans h)).2).2).1
        exact absurd hkind (by decide)
      · exact absurd (hl.symm.trans h) (by decide)
      · exact absurd (hl.symm.trans h) (by decide))

end Psn

import Psn.Lib.PartialMachine
import Psn.SubTree

/-!
# What the subscription tree is for

A broker has a table of subscriptions, and a message goes to every subscription whose filter matches
its topic. `Routes` says this, and nothing about trees. The tree of `subs.c` does the same in every
run.

There is one thing in it that nobody would ask of a table. A subscription to a filter that starts
with `$` and another first level than `$SYS` makes a new root, and all other subscriptions are gone.

`Routes` keeps, besides the table, the first tokens that a subscription in it can have. It has to:
which of them there are is not seen from the subscriptions, since the broker starts with two roots
and no subscription, and what a new first token does depends on them. Everything below the root is
covered by `Psn.SubTree`. What is added here is the root itself, where `mqtt3_sub_add`,
`mqtt3_sub_remove` and `mqtt3_db_messages_queue` compare the first token with the children as it is,
without wildcards.

The invariant is `SubDb.Represents`. Each step of `SubDb.step` keeps it and makes the same
deliveries as the step of the table, up to order: the tree hands a message out node by node, the
table in the order in which it was filled.

## Scope

These are the calls of `subs.c`, each with the check of the filter or topic that stands before it.
Which requests reach them, that is, what `mqtt3_handle_subscribe` refuses because of its QoS or the
ACL, and the retained message that a new subscription is sent, are in `Psn.Handlers` and
`Psn.Retained`.

What a client does with a delivery is not covered either. A delivery is what the broker hands to
`mqtt3_db_message_insert` for one subscription; that a queue may be full is the subject of
`Psn.Window`, on the other side of the connection.

## Main definitions

* `Routes`: a table of subscriptions
* `SubDb.Represents`: the tree and the table say the same

## Main results

* `SubDb.run_routes`: the tree does what the table does
-/

namespace Psn

open PartialMachine SubHier

variable {κ : Type}

/-! ### Filters and topics -/

/-- A `#` that is not the last level has a separator behind it. -/
theorem exists_of_not_hashLast {path : List CStr} (h : ¬HashLast path) :
    ∃ a b, [slash].intercalate path = a ++ hash :: slash :: b := by
  induction path with
  | nil => exact absurd trivial h
  | cons t path ih =>
    rw [HashLast, Classical.not_and_iff_not_or_not] at h
    have hne : path ≠ [] := by
      rintro rfl
      rcases h with h | h
      · exact h fun _ => rfl
      · exact h trivial
    rw [List.intercalate_cons_of_ne_nil hne]
    -- the `#` in question is the first level, or one of the others
    by_cases hpath : HashLast path
    · have ht : t = [hash] := by
        rcases h with h | h
        · exact Classical.byContradiction fun ht => h fun heq => absurd heq ht
        · exact absurd hpath h
      exact ⟨[], [slash].intercalate path, by simp [ht]⟩
    · obtain ⟨a, b, heq⟩ := ih hpath
      exact ⟨t ++ [slash] ++ a, b, by rw [heq]; simp⟩

/-- The check of the position of `#` refuses every other filter. -/
theorem hashLast_of_intercalate {path : List CStr} {sub a : CStr}
    (hsub : sub = a ++ [slash].intercalate path) (h : topicWildcardPosCheck sub = .success) :
    HashLast path := by
  by_contra hpath
  obtain ⟨b, c, heq⟩ := exists_of_not_hashLast hpath
  rw [hsub, heq, topicWildcardPosCheck, ← List.append_assoc, topicWildcardPosCheckFrom_hash,
    if_pos rfl] at h
  cases h

/-- In a filter, a `#` is the last level. -/
theorem hashLast_subTopicTokens {sub : CStr} (h : topicWildcardPosCheck sub = .success) :
    HashLast (subTopicTokens sub) := by
  have hlevels : HashLast (levels sub) :=
    hashLast_of_intercalate (a := []) (intercalate_levels sub).symm h
  -- the empty token that stands in front of all but a `$` is no `#`
  have hnil : ∀ path : List CStr, HashLast path → HashLast ([] :: path) :=
    fun _ hpath => ⟨fun heq => absurd heq (by decide), hpath⟩
  by_cases hdollar : sub.head? = some dollar
  · rw [subTopicTokens_dollar hdollar]
    exact hlevels
  by_cases hslash : sub.head? = some slash
  · obtain ⟨topic, rfl⟩ : ∃ topic, sub = slash :: topic := List.head?_eq_some_iff.mp hslash
    rw [subTopicTokens, if_neg hdollar, if_pos hslash, List.tail_cons,
      subTopicTokensFrom_eq List.not_mem_nil, List.nil_append]
    refine hnil _ (hashLast_of_intercalate (a := [slash]) ?_ h)
    rw [intercalate_levels]
    rfl
  · rw [subTopicTokens_eq hdollar hslash]
    exact hnil _ hlevels

/-- The first token is no wildcard. -/
theorem exists_subTopicTokens (sub : CStr) :
    ∃ t rest, subTopicTokens sub = t :: rest ∧ t ≠ [plus] ∧ t ≠ [hash] := by
  by_cases hdollar : sub.head? = some dollar
  · obtain ⟨topic, rfl⟩ : ∃ topic, sub = dollar :: topic := List.head?_eq_some_iff.mp hdollar
    obtain ⟨t, rest, hlevels⟩ := List.exists_cons_of_ne_nil (levels_ne_nil topic)
    refine ⟨dollar :: t, rest, ?_, fun heq => ?_, fun heq => ?_⟩
    · rw [subTopicTokens_dollar hdollar, levels_cons, if_neg (by decide), hlevels]
      rfl
    · exact absurd (List.cons.inj heq).1 (by decide)
    · exact absurd (List.cons.inj heq).1 (by decide)
  · have hnil : ([] : CStr) ≠ [plus] ∧ ([] : CStr) ≠ [hash] := by decide
    rw [subTopicTokens, if_neg hdollar]
    split
    · exact ⟨_, _, rfl, hnil⟩
    · exact ⟨_, _, rfl, hnil⟩

/-- A level that is a wildcard would bring its character into the topic. -/
theorem plain_levels {topic : CStr} (hplus : plus ∉ topic) (hhash : hash ∉ topic) :
    ∀ t ∈ levels topic, t ≠ [plus] ∧ t ≠ [hash] := by
  intro t ht
  have hsub := (of_mem_levels ht).2
  constructor
  · rintro rfl
    exact hplus (hsub.subset List.mem_cons_self)
  · rintro rfl
    exact hhash (hsub.subset List.mem_cons_self)

/-- No token of a topic is a wildcard. -/
theorem plain_subTopicTokens {topic : CStr} (h : topicWildcardLenCheck topic = .success) :
    ∀ t ∈ subTopicTokens topic, t ≠ [plus] ∧ t ≠ [hash] := by
  have hmem : plus ∉ topic ∧ hash ∉ topic := by
    rw [topicWildcardLenCheck] at h
    split at h
    · cases h
    · rename_i hnot
      exact not_or.mp hnot
  have hnil : ([] : CStr) ≠ [plus] ∧ ([] : CStr) ≠ [hash] := by decide
  by_cases hdollar : topic.head? = some dollar
  · rw [subTopicTokens_dollar hdollar]
    exact plain_levels hmem.1 hmem.2
  by_cases hslash : topic.head? = some slash
  · obtain ⟨rest, rfl⟩ : ∃ rest, topic = slash :: rest := List.head?_eq_some_iff.mp hslash
    rw [subTopicTokens, if_neg hdollar, if_pos hslash, List.tail_cons,
      subTopicTokensFrom_eq List.not_mem_nil, List.nil_append]
    refine List.forall_mem_cons.mpr ⟨hnil, plain_levels ?_ ?_⟩
    · exact fun hplus => hmem.1 (List.mem_cons_of_mem _ hplus)
    · exact fun hhash => hmem.2 (List.mem_cons_of_mem _ hhash)
  · rw [subTopicTokens_eq hdollar hslash]
    exact List.forall_mem_cons.mpr ⟨hnil, plain_levels hmem.1 hmem.2⟩

/-! ### The table of a broker -/

/-- A table of subscriptions. -/
structure Routes (κ : Type) where
  /-- The first tokens that a subscription in the table can have. -/
  roots : List CStr
  /-- The subscriptions, each with its tokens. -/
  table : List (SubEntry κ)

/-- The table of a broker that starts. -/
def Routes.init : Routes κ := ⟨[[], lit "$SYS"], []⟩

/-- A client subscribes. A first token that no subscription can have starts a new table. -/
def Routes.subscribe (id : κ → CStr) (routes : Routes κ) (context : κ) (tokens : List CStr)
    (qos : ℕ) : Routes κ :=
  if routes.roots.any fun root => root = tokens.headD [] then
    { routes with table := tableAdd id context qos tokens routes.table }
  else ⟨[tokens.headD []], [(tokens, ⟨context, qos⟩)]⟩

/-- A first token that is there leaves the roots. -/
theorem Routes.subscribe_of_mem {id : κ → CStr} {routes : Routes κ} {tokens : List CStr}
    (h : tokens.headD [] ∈ routes.roots) (context : κ) (qos : ℕ) :
    routes.subscribe id context tokens qos =
      { routes with table := tableAdd id context qos tokens routes.table } :=
  if_pos (List.any_eq_true.mpr ⟨_, h, decide_eq_true rfl⟩)

/-- Any other one takes the place of everything that was there. -/
theorem Routes.subscribe_of_not_mem {id : κ → CStr} {routes : Routes κ} {tokens : List CStr}
    (h : tokens.headD [] ∉ routes.roots) (context : κ) (qos : ℕ) :
    routes.subscribe id context tokens qos =
      ⟨[tokens.headD []], [(tokens, ⟨context, qos⟩)]⟩ := by
  refine if_neg fun hany => ?_
  obtain ⟨root, hroot, heq⟩ := List.any_eq_true.mp hany
  exact h (of_decide_eq_true heq ▸ hroot)

/-- One step of a broker that has a table. -/
def Routes.step [DecidableEq κ] (config : SubsConfig κ) (routes : Routes κ) :
    SubAct κ → Option (List (Delivery κ) × Routes κ)
  | .subscribe context sub qos =>
    some ([], if IsFilter sub then routes.subscribe config.id context (subTopicTokens sub) qos
      else routes)
  | .unsubscribe context sub =>
    some ([], if IsFilter sub then
        { routes with table := routes.table.filter (isKept context (subTopicTokens sub)) }
      else routes)
  | .clean context =>
    some ([], { routes with table := routes.table.filter fun e => e.2.context ≠ context })
  | .publish m =>
    some (if IsTopic m.topic then
        deliverTable config m (matching (subTopicTokens m.topic) routes.table)
      else [], routes)

/-! ### The tree and the table -/

/-- Of the children of the root, the first one with the topic is changed. -/
theorem alterFirst_append {f : SubHier κ → SubHier κ} {t : CStr} {pre post : List (SubHier κ)}
    {child : SubHier κ} (hpre : ∀ b ∈ pre, b.topic ≠ t) (hchild : child.topic = t) :
    alterFirst f t (pre ++ child :: post) = pre ++ f child :: post := by
  induction pre with
  | nil => rw [List.nil_append, alterFirst, if_pos hchild, List.nil_append]
  | cons b pre ih =>
    rw [List.cons_append, alterFirst, if_neg (hpre b List.mem_cons_self),
      ih fun c hc => hpre c (List.mem_cons_of_mem b hc), List.cons_append]

/-- If there is none, nothing is. -/
theorem alterFirst_of_forall_ne {f : SubHier κ → SubHier κ} {t : CStr}
    {children : List (SubHier κ)} (h : ∀ b ∈ children, b.topic ≠ t) :
    alterFirst f t children = children := by
  induction children with
  | nil => rfl
  | cons b rest ih =>
    rw [alterFirst, if_neg (h b List.mem_cons_self), ih fun c hc => h c (List.mem_cons_of_mem b hc)]

/-- The child of the root has a good tree, and its subscriptions start with its own topic. -/
structure Rooted (id : κ → CStr) (child : SubHier κ) : Prop where
  /-- It is found by its topic alone. -/
  plain : child.topic ≠ [plus] ∧ child.topic ≠ [hash]
  /-- No client has two subscriptions at one node, and `#` is the last level. -/
  good : child.Good id
  /-- The path of an entry starts at the root of the whole tree. -/
  heads : ∀ e ∈ child.entries, e.1.head? = some child.topic

/-- The tree and the table say the same. This is the invariant of all runs. -/
structure SubDb.Represents (id : κ → CStr) (db : SubDb κ) (routes : Routes κ) : Prop where
  /-- The children of the root are those that the table may use, in the same order. -/
  roots : db.children.map topic = routes.roots
  /-- So at most one child answers to a first token. -/
  nodup : routes.roots.Nodup
  /-- Each of them has a tree on which the operations are those of a table. -/
  rooted : ∀ child ∈ db.children, Rooted id child
  /-- The subscriptions, in some order. -/
  entries : (db.children.flatMap SubHier.entries).Perm routes.table

/-- A root that `mqtt3_sub_add` has just made. -/
theorem rooted_new {id : κ → CStr} {t : CStr} (h : t ≠ [plus] ∧ t ≠ [hash]) :
    Rooted id (SubHier.new t : SubHier κ) :=
  ⟨h, good_new t, fun e he => by rw [entries_new] at he; cases he⟩

/-- The broker starts with a root for `$SYS` and one for everything else, and nobody has subscribed.
-/
theorem SubDb.represents_init (id : κ → CStr) :
    (SubDb.init : SubDb κ).Represents id .init where
  roots := rfl
  nodup := show ([[], lit "$SYS"] : List CStr).Nodup by decide
  rooted := by
    intro child hchild
    rcases List.mem_cons.mp hchild with rfl | hchild
    · exact rooted_new (by decide)
    · rw [List.mem_singleton.mp hchild]
      exact rooted_new (by decide)
  entries := by
    rw [SubDb.init, List.flatMap_cons, List.flatMap_singleton, entries_new, entries_new]
    rfl

/-- Other children of the root have no entry with this first token. -/
theorem SubDb.Represents.head_ne {id : κ → CStr} {db : SubDb κ} {routes : Routes κ}
    (h : db.Represents id routes) {t : CStr} {children : List (SubHier κ)}
    (hsub : ∀ b ∈ children, b ∈ db.children) (hne : ∀ b ∈ children, b.topic ≠ t) :
    ∀ e ∈ children.flatMap SubHier.entries, e.1.head? ≠ some t := by
  intro e he heq
  obtain ⟨b, hb, heb⟩ := List.mem_flatMap.mp he
  rw [(h.rooted b (hsub b hb)).heads e heb] at heq
  exact hne b hb (Option.some.inj heq)

/-- The child of the root for a first token, and the others, which have nothing to do with it. -/
theorem SubDb.Represents.exists_root {id : κ → CStr} {db : SubDb κ} {routes : Routes κ}
    (h : db.Represents id routes) {t : CStr} (ht : t ∈ routes.roots) :
    ∃ pre child post, db = ⟨pre ++ child :: post⟩ ∧ child.topic = t ∧ Rooted id child ∧
      (∀ b ∈ pre, b.topic ≠ t) ∧ (∀ e ∈ pre.flatMap SubHier.entries, e.1.head? ≠ some t) ∧
        ∀ e ∈ post.flatMap SubHier.entries, e.1.head? ≠ some t := by
  rw [← h.roots] at ht
  rcases branch_cases (h.roots ▸ h.nodup) t with hnone | ⟨pre, child, post, hsplit, htopic, hpre,
    hpost⟩
  · -- a root that the table may use has a child
    obtain ⟨child, hchild, htopic⟩ := List.mem_map.mp ht
    exact absurd htopic (hnone child hchild)
  · refine ⟨pre, child, post, congrArg SubDb.mk hsplit, htopic, h.rooted child (hsplit ▸ by simp),
      hpre, h.head_ne (fun b hb => hsplit ▸ List.mem_append_left _ hb) hpre,
      h.head_ne (fun b hb => hsplit ▸ List.mem_append_right _ (List.mem_cons_of_mem _ hb)) hpost⟩

/-- One child of the root changes. -/
theorem SubDb.Represents.alter {id : κ → CStr} {pre post : List (SubHier κ)}
    {child child' : SubHier κ} {routes : Routes κ} {table : List (SubEntry κ)}
    (h : SubDb.Represents id ⟨pre ++ child :: post⟩ routes) (htopic : child'.topic = child.topic)
    (hrooted : Rooted id child')
    (htable : (pre.flatMap SubHier.entries ++ child'.entries ++
      post.flatMap SubHier.entries).Perm table) :
    SubDb.Represents id ⟨pre ++ child' :: post⟩ { routes with table := table } where
  roots := by
    have hroots : (pre ++ child :: post).map topic = routes.roots := h.roots
    show (pre ++ child' :: post).map topic = routes.roots
    rw [← hroots, List.map_append, List.map_cons, htopic, ← List.map_cons, ← List.map_append]
  nodup := h.nodup
  rooted := by
    intro b hb
    rcases List.mem_append.mp hb with hb | hb
    · exact h.rooted b (List.mem_append_left _ hb)
    · rcases List.mem_cons.mp hb with rfl | hb
      · exact hrooted
      · exact h.rooted b (List.mem_append_right _ (List.mem_cons_of_mem _ hb))
  entries := by
    show ((pre ++ child' :: post).flatMap SubHier.entries).Perm table
    rw [List.flatMap_append, List.flatMap_cons, ← List.append_assoc]
    exact htable

/-- Every entry of a table with one more has its path or is at a path that was there. -/
theorem path_of_mem_tableAdd {id : κ → CStr} {context : κ} {qos : ℕ} {path : List CStr}
    {table : List (SubEntry κ)} {e : SubEntry κ} (h : e ∈ tableAdd id context qos path table) :
    e.1 = path ∨ ∃ e' ∈ table, e.1 = e'.1 := by
  rw [tableAdd] at h
  split at h
  · obtain ⟨e', he', rfl⟩ := List.mem_map.mp h
    refine .inr ⟨e', he', ?_⟩
    rw [SubEntry.update]
    split <;> rfl
  · rcases List.mem_append.mp h with h | h
    · exact .inr ⟨e, h, rfl⟩
    · rw [List.mem_singleton.mp h]
      exact .inl rfl

/-- A subscription is added where its first token is the topic of the root. -/
theorem rooted_subAdd {id : κ → CStr} {context : κ} {qos : ℕ} {tokens : List CStr}
    {child : SubHier κ} (h : Rooted id child) (hlast : HashLast tokens)
    (hhead : tokens.head? = some child.topic) :
    Rooted id (subAdd id (some context) qos tokens child) where
  plain := by
    rw [topic_subAdd]
    exact h.plain
  good := good_subAdd _ _ tokens hlast h.good fun hhash => absurd hhash h.plain.2
  heads := by
    intro e he
    rw [topic_subAdd]
    rcases path_of_mem_tableAdd ((entries_subAdd context qos tokens h.good).subset he) with
      heq | ⟨e', he', heq⟩
    · rw [heq, hhead]
    · rw [heq, h.heads e' he']

/-- Below the other roots there is nothing for the path, -/
theorem isFor_eq_false {id : κ → CStr} {context : κ} {tokens : List CStr} {t : CStr}
    {table : List (SubEntry κ)} (h : ∀ e ∈ table, e.1.head? ≠ some t)
    (htokens : tokens.head? = some t) : ∀ e ∈ table, e.isFor id context tokens = false :=
  fun e he => decide_eq_false fun heq => h e he (heq.1 ▸ htokens)

/-- **A client subscribes.** -/
theorem SubDb.Represents.subscribe {id : κ → CStr} {db : SubDb κ} {routes : Routes κ}
    (h : db.Represents id routes) (context : κ) {sub : CStr} (qos : ℕ)
    (hsub : topicWildcardPosCheck sub = .success) :
    (mqtt3SubAdd id db context sub qos).Represents id
      (routes.subscribe id context (subTopicTokens sub) qos) := by
  obtain ⟨t, rest, htokens, hplain⟩ := exists_subTopicTokens sub
  have hlast := hashLast_subTopicTokens hsub
  rw [mqtt3SubAdd]
  rw [htokens] at hlast ⊢
  rw [List.headD_cons]
  by_cases ht : t ∈ routes.roots
  · have hany : (db.children.any fun subhier => subhier.topic = t) = true := by
      rw [← h.roots] at ht
      obtain ⟨child, hchild, htopic⟩ := List.mem_map.mp ht
      exact List.any_eq_true.mpr ⟨child, hchild, decide_eq_true htopic⟩
    rw [if_pos hany, Routes.subscribe_of_mem ht]
    -- the root for the first token is there: the entries of the others stay around its own
    obtain ⟨pre, child, post, rfl, htopic, hchild, hpre, hprefix, hsuffix⟩ := h.exists_root ht
    rw [alterFirst_append hpre htopic]
    refine h.alter (topic_subAdd _ _ _ _)
      (rooted_subAdd hchild hlast (by rw [htopic]; rfl)) ?_
    have hentries := h.entries
    rw [List.flatMap_append, List.flatMap_cons, ← List.append_assoc] at hentries
    refine List.Perm.trans ?_ (tableAdd_perm hentries)
    refine List.Perm.trans ?_ (tableAdd_middle (isFor_eq_false hprefix rfl)
      (isFor_eq_false hsuffix rfl))
    exact ((entries_subAdd context qos _ hchild.good).append_left _).append_right _
  · -- it is not: the one that `mqtt3_sub_add` makes is the only root that is left
    have hany : ¬(db.children.any fun subhier => subhier.topic = t) = true := by
      intro hany
      obtain ⟨child, hchild, htopic⟩ := List.any_eq_true.mp hany
      exact ht (h.roots ▸ of_decide_eq_true htopic ▸ List.mem_map_of_mem hchild)
    rw [if_neg hany, Routes.subscribe_of_not_mem ht]
    refine ⟨congrArg ([·]) (topic_subAdd _ _ _ _), List.nodup_singleton _, ?_, ?_⟩
    · intro child hchild
      rw [List.mem_singleton.mp hchild]
      exact rooted_subAdd (rooted_new hplain) hlast rfl
    · rw [List.flatMap_singleton]
      have hentries : (subAdd id (some context) qos (t :: rest) (.new t)).entries.Perm _ :=
        entries_subAdd context qos (t :: rest) (good_new t)
      rw [entries_new] at hentries
      exact hentries

/-- and nothing that unsubscribing takes away. -/
theorem filter_isKept_eq {context : κ} [DecidableEq κ] {tokens : List CStr} {t : CStr}
    {table : List (SubEntry κ)} (h : ∀ e ∈ table, e.1.head? ≠ some t)
    (htokens : tokens.head? = some t) : table.filter (isKept context tokens) = table :=
  filter_isKept_of_forall_ne fun e he heq => h e he (heq ▸ htokens)

/-- **A client unsubscribes.** -/
theorem SubDb.Represents.unsubscribe [DecidableEq κ] {id : κ → CStr} {db : SubDb κ}
    {routes : Routes κ} (h : db.Represents id routes) (context : κ) (sub : CStr) :
    (mqtt3SubRemove db context sub).Represents id
      { routes with table := routes.table.filter (isKept context (subTopicTokens sub)) } := by
  obtain ⟨t, rest, htokens, -⟩ := exists_subTopicTokens sub
  rw [mqtt3SubRemove, htokens, List.headD_cons]
  by_cases ht : t ∈ routes.roots
  · obtain ⟨pre, child, post, rfl, htopic, hchild, hpre, hprefix, hsuffix⟩ := h.exists_root ht
    have hremoved : (subRemove context (t :: rest) child).entries = _ :=
      entries_subRemove (t :: rest) hchild.good
    rw [alterFirst_append hpre htopic]
    refine h.alter (topic_subRemove _ _) ⟨?_, good_subRemove _ hchild.good, ?_⟩ ?_
    · rw [topic_subRemove]
      exact hchild.plain
    · intro e he
      rw [hremoved] at he
      rw [topic_subRemove]
      exact hchild.heads e (List.mem_filter.mp he).1
    · have hentries := h.entries
      rw [List.flatMap_append, List.flatMap_cons, ← List.append_assoc] at hentries
      -- unsubscribing filters the whole table, which leaves the parts before and behind
      have hkept : ∀ table : List (SubEntry κ), (∀ e ∈ table, e.1.head? ≠ some t) →
          table.filter (isKept context (t :: rest)) = table :=
        fun _ htable => filter_isKept_eq htable rfl
      rw [hremoved, ← hkept _ hprefix, ← hkept _ hsuffix, ← List.filter_append,
        ← List.filter_append]
      exact hentries.filter _
  · -- no root for the first token, so the table has nothing to take away
    have hnone : ∀ b ∈ db.children, b.topic ≠ t := fun b hb heq =>
      ht (h.roots ▸ heq ▸ List.mem_map_of_mem hb)
    rw [alterFirst_of_forall_ne hnone]
    have hkept : ∀ e ∈ routes.table, e.1.head? ≠ some t := fun e he =>
      h.head_ne (fun _ hb => hb) hnone e (h.entries.symm.subset he)
    rw [filter_isKept_eq hkept rfl]
    exact h

/-- **A client is gone.** -/
theorem SubDb.Represents.clean [DecidableEq κ] {id : κ → CStr} {db : SubDb κ} {routes : Routes κ}
    (h : db.Represents id routes) (context : κ) :
    (mqtt3SubsCleanSession db context).Represents id
      { routes with table := routes.table.filter fun e => e.2.context ≠ context } where
  roots := by
    show (db.children.map (subsCleanSession context)).map topic = routes.roots
    rw [← h.roots, List.map_map]
    exact List.map_congr_left fun child _ => topic_subsCleanSession child
  nodup := h.nodup
  rooted := by
    intro child hchild
    obtain ⟨child, hmem, rfl⟩ := List.mem_map.mp hchild
    have hrooted := h.rooted child hmem
    refine ⟨?_, good_clean hrooted.good, fun e he => ?_⟩
    · rw [topic_subsCleanSession]
      exact hrooted.plain
    · rw [entries_clean] at he
      rw [topic_subsCleanSession]
      exact hrooted.heads e (List.mem_filter.mp he).1
  entries := by
    show ((db.children.map (subsCleanSession context)).flatMap SubHier.entries).Perm _
    rw [List.flatMap_map]
    have hclean : db.children.flatMap (fun child => (subsCleanSession context child).entries) =
        (db.children.flatMap SubHier.entries).filter fun e => e.2.context ≠ context := by
      rw [List.filter_flatMap]
      exact List.flatMap_congr fun child _ => entries_clean child
    rw [hclean]
    exact h.entries.filter _

/-- Topics have no `#` at all. -/
theorem hashLast_of_plain {path : List CStr} (h : ∀ l ∈ path, l ≠ [hash]) : HashLast path := by
  induction path with
  | nil => trivial
  | cons l path ih =>
    exact ⟨fun heq => absurd heq (h l List.mem_cons_self),
      ih fun l hl => h l (List.mem_cons_of_mem _ hl)⟩

/-- No entry below a child with another topic matches. -/
theorem matching_of_head_ne {child : SubHier κ} {id : κ → CStr} (h : Rooted id child)
    {t : CStr} (rest : List CStr) (hne : child.topic ≠ t) :
    matching (t :: rest) child.entries = [] := by
  refine List.filter_eq_nil_iff.mpr fun e he => ?_
  obtain ⟨path, hpath⟩ := List.head?_eq_some_iff.mp (h.heads e he)
  rw [hpath]
  simp [levelsMatch, h.plain, hne]

section

variable {config : SubsConfig κ} {m : Publication}

/-- What a message to a topic does to one child of the root. -/
theorem alike_queueChild {child : SubHier κ} (h : Rooted config.id child) {tokens : List CStr}
    (hlast : HashLast tokens) :
    Alike config.id child (queueChild config m tokens child).2 := by
  rw [queueChild]
  split
  · refine Alike.trans ?_ (alike_subSearch config.id tokens true _)
    split
    · exact alike_subAdd_none h.good hlast fun hhash => absurd hhash h.plain.2
    · exact Alike.refl _ _
  · exact Alike.refl _ _

/-- Who gets a message through one child of the root. -/
theorem queueChild_fst {child : SubHier κ} (h : Rooted config.id child) {t : CStr}
    {rest : List CStr} (hplain : ∀ l ∈ t :: rest, l ≠ [plus] ∧ l ≠ [hash])
    (hlast : HashLast (t :: rest)) : (queueChild config m (t :: rest) child).1 =
      deliverTable config m (matching (t :: rest) child.entries) := by
  rw [queueChild, List.headD_cons]
  by_cases htopic : child.topic = t
  · have halike : Alike config.id child
        (if m.retain then subAdd config.id none 0 (t :: rest) child else child) := by
      split
      · exact alike_subAdd_none h.good hlast fun hhash => absurd hhash h.plain.2
      · exact Alike.refl _ _
    rw [if_pos htopic, subSearch_fst (t :: rest) hplain (halike.good h.good),
      ← halike.entries_eq, SubHier.entries_eq (if m.retain then _ else _), matching_append,
      deliverTable_append, matching_own, if_neg (List.cons_ne_nil _ _), List.append_nil]
  · rw [if_neg htopic, matching_of_head_ne h rest htopic, deliverTable_nil]

/-- **A client publishes.** -/
theorem SubDb.Represents.publish {db : SubDb κ} {routes : Routes κ}
    (h : db.Represents config.id routes) (htopic : topicWildcardLenCheck m.topic = .success) :
    (mqtt3DbMessagesQueue config db m).1.Perm
        (deliverTable config m (matching (subTopicTokens m.topic) routes.table)) ∧
      (mqtt3DbMessagesQueue config db m).2.Represents config.id routes := by
  obtain ⟨t, rest, htokens, -⟩ := exists_subTopicTokens m.topic
  have hplain := plain_subTopicTokens htopic
  have hlast := hashLast_of_plain fun l hl => (hplain l hl).2
  have halike : ∀ child ∈ db.children,
      Alike config.id child (queueChild config m (subTopicTokens m.topic) child).2 :=
    fun child hchild => alike_queueChild (h.rooted child hchild) hlast
  constructor
  · -- the deliveries: each root makes those of its part of the table
    show (db.children.flatMap fun child =>
      (queueChild config m (subTopicTokens m.topic) child).1).Perm _
    rw [htokens] at hplain hlast ⊢
    have hout : (db.children.flatMap fun child => (queueChild config m (t :: rest) child).1) =
        deliverTable config m (matching (t :: rest) (db.children.flatMap SubHier.entries)) := by
      rw [matching, List.filter_flatMap, deliverTable_flatMap]
      exact List.flatMap_congr fun child hchild =>
        queueChild_fst (h.rooted child hchild) hplain hlast
    rw [hout]
    exact deliverTable_perm (h.entries.filter _)
  · -- the tree: a retained message changes nodes, but no subscription
    refine ⟨?_, h.nodup, fun child hchild => ?_, ?_⟩
    · show (db.children.map _).map topic = routes.roots
      rw [← h.roots, List.map_map]
      exact List.map_congr_left fun child hchild => (halike child hchild).topic_eq
    · obtain ⟨child, hmem, rfl⟩ := List.mem_map.mp hchild
      have hrooted := h.rooted child hmem
      have hsame := halike child hmem
      refine ⟨?_, hsame.good hrooted.good, fun e he => ?_⟩
      · rw [hsame.topic_eq]
        exact hrooted.plain
      · rw [hsame.entries_eq] at he
        rw [hsame.topic_eq]
        exact hrooted.heads e he
    · show ((db.children.map _).flatMap SubHier.entries).Perm _
      rw [List.flatMap_map, List.flatMap_congr fun child hchild =>
        (halike child hchild).entries_eq]
      exact h.entries

end

/-- One step of the tree is one step of the table. -/
theorem SubDb.Represents.step [DecidableEq κ] (config : SubsConfig κ) {db : SubDb κ}
    {routes : Routes κ} (h : db.Represents config.id routes) (act : SubAct κ) :
    ∃ out db' out' routes', SubDb.step config db act = some (out, db') ∧
      Routes.step config routes act = some (out', routes') ∧ out.Perm out' ∧
        db'.Represents config.id routes' := by
  cases act with
  | subscribe context sub qos =>
    refine ⟨_, _, _, _, rfl, rfl, .refl _, ?_⟩
    by_cases hsub : IsFilter sub
    · rw [if_pos hsub, if_pos hsub]
      exact h.subscribe context qos hsub.2
    · rw [if_neg hsub, if_neg hsub]
      exact h
  | unsubscribe context sub =>
    refine ⟨_, _, _, _, rfl, rfl, .refl _, ?_⟩
    by_cases hsub : IsFilter sub
    · rw [if_pos hsub, if_pos hsub]
      exact h.unsubscribe context sub
    · rw [if_neg hsub, if_neg hsub]
      exact h
  | clean context => exact ⟨_, _, _, _, rfl, rfl, .refl _, h.clean context⟩
  | publish m =>
    rw [SubDb.step, Routes.step]
    by_cases htopic : IsTopic m.topic
    · obtain ⟨hout, hdb⟩ := h.publish htopic.2
      rw [if_pos htopic, if_pos htopic]
      exact ⟨_, _, _, _, rfl, rfl, hout, hdb⟩
    · rw [if_neg htopic, if_neg htopic]
      exact ⟨_, _, _, _, rfl, rfl, .refl _, h⟩

/-- A whole run, from a tree and a table that say the same. -/
theorem SubDb.Represents.run [DecidableEq κ] (config : SubsConfig κ) (acts : List (SubAct κ)) :
    ∀ {db : SubDb κ} {routes : Routes κ}, db.Represents config.id routes →
      ∃ outs db' outs' routes', run (SubDb.step config) db acts = some (outs, db') ∧
        run (Routes.step config) routes acts = some (outs', routes') ∧
          List.Forall₂ List.Perm outs outs' ∧ db'.Represents config.id routes' := by
  induction acts with
  | nil => exact fun h => ⟨[], _, [], _, rfl, rfl, .nil, h⟩
  | cons act acts ih =>
    intro db routes h
    obtain ⟨out, db', out', routes', hstep, hstep', hout, h'⟩ := h.step config act
    obtain ⟨outs, db'', outs', routes'', hrun, hrun', houts, h''⟩ := ih h'
    refine ⟨out :: outs, db'', out' :: outs', routes'', ?_, ?_, .cons hout houts, h''⟩
    · rw [run_cons_of_step hstep, hrun]
      rfl
    · rw [run_cons_of_step hstep', hrun']
      rfl

/-- **The tree does what the table does.** In every run from the tree that the broker starts with,
whatever clients subscribe to and publish, each message goes to the subscriptions of the table that
match it, and to each of them as often. -/
theorem SubDb.run_routes [DecidableEq κ] (config : SubsConfig κ) (acts : List (SubAct κ)) :
    ∃ outs db outs' routes, run (SubDb.step config) .init acts = some (outs, db) ∧
      run (Routes.step config) .init acts = some (outs', routes) ∧
        List.Forall₂ List.Perm outs outs' ∧
          (db.children.flatMap SubHier.entries).Perm routes.table := by
  obtain ⟨outs, db, outs', routes, hrun, hrun', houts, h⟩ :=
    SubDb.Represents.run config acts (SubDb.represents_init config.id)
  exact ⟨outs, db, outs', routes, hrun, hrun', houts, h.entries⟩

end Psn

import Psn.Mosquitto

/-!
# The subscription tree of the broker

The broker keeps the subscriptions of all clients in a tree of topic levels, `db->subs`. A node has
the subscriptions that end at it, a retained message, and one child for each next level. Its first
level below the root is the first level of a topic, which is empty unless the topic starts with `$`,
and from there on the path of a subscription is all of its levels, the first one once more.

## Main definitions

* `SubHier`, `SubLeaf`: the tree
* `subAdd`, `subRemove`, `subSearch`, `subsCleanSession`: the recursions of `subs.c`
* `mqtt3SubAdd`, `mqtt3SubRemove`, `mqtt3SubsCleanSession`, `mqtt3DbMessagesQueue`: its entry points
* `SubDb.step`: what the calls of the handlers do to the tree

## Main results

* `subTopicTokens_slash`: a separator in front of a topic makes no difference
-/

namespace Psn

/-- `$`. -/
def dollar : UInt8 := 36

/-! ### Tokens -/

/-- The loop of `_sub_topic_tokenise`, with the bytes between `start` and `i`. -/
def subTopicTokensFrom (pending : CStr) : CStr → List CStr
  | [] => [pending]
  | c :: rest =>
    if c = slash then pending :: subTopicTokensFrom [] rest
    else subTopicTokensFrom (pending ++ [c]) rest

/-- `_sub_topic_tokenise`. The list starts with an empty token unless the topic starts with `$`. A
separator in front of the topic is skipped, and the empty token for it takes the place of the first
one. -/
def subTopicTokens (subtopic : CStr) : List CStr :=
  if subtopic.head? = some dollar then subTopicTokensFrom [] subtopic
  else if subtopic.head? = some slash then [] :: subTopicTokensFrom [] subtopic.tail
  else [] :: subTopicTokensFrom [] subtopic

theorem subTopicTokensFrom_eq {pending : CStr} (h : slash ∉ pending) (rest : CStr) :
    subTopicTokensFrom pending rest = levels (pending ++ rest) := by
  induction rest generalizing pending with
  | nil => rw [subTopicTokensFrom, List.append_nil, levels_of_not_mem h]
  | cons c rest ih =>
    rw [subTopicTokensFrom]
    by_cases hc : c = slash
    · rw [if_pos hc, hc, levels_append_slash, levels_of_not_mem h, ih List.not_mem_nil]
      rfl
    · have hmem : slash ∉ pending ++ [c] := by simp [h, Ne.symm hc]
      rw [if_neg hc, ih hmem, List.append_assoc]
      rfl

/-- The tokens are the levels, behind an empty one. -/
theorem subTopicTokens_eq {topic : CStr} (hdollar : topic.head? ≠ some dollar)
    (hslash : topic.head? ≠ some slash) : subTopicTokens topic = [] :: levels topic := by
  rw [subTopicTokens, if_neg hdollar, if_neg hslash, subTopicTokensFrom_eq List.not_mem_nil,
    List.nil_append]

theorem subTopicTokens_dollar {topic : CStr} (hdollar : topic.head? = some dollar) :
    subTopicTokens topic = levels topic := by
  rw [subTopicTokens, if_pos hdollar, subTopicTokensFrom_eq List.not_mem_nil, List.nil_append]

/-- A separator in front of a topic makes no difference. -/
theorem subTopicTokens_slash {topic : CStr} (hdollar : topic.head? ≠ some dollar)
    (hslash : topic.head? ≠ some slash) :
    subTopicTokens (slash :: topic) = subTopicTokens topic := by
  rw [subTopicTokens_eq hdollar hslash, subTopicTokens, List.head?_cons,
    if_neg (show ¬some slash = some dollar by decide), if_pos rfl, List.tail_cons,
    subTopicTokensFrom_eq List.not_mem_nil, List.nil_append]

/-! ### The tree -/

variable {κ : Type}

/-- `struct _mosquitto_subleaf`. -/
structure SubLeaf (κ : Type) where
  /-- `context`, the client. -/
  context : κ
  /-- `qos`. -/
  qos : ℕ
  deriving DecidableEq

/-- `struct mosquitto_msg_store`, a message that the broker keeps. -/
structure MsgStore where
  /-- `source_id`. -/
  sourceId : CStr
  /-- `source_mid`. -/
  sourceMid : UInt16
  /-- `msg.topic`, which is NULL when the message was refused. -/
  topic : Option CStr
  /-- `msg.payload`. -/
  payload : Bytes
  /-- `msg.qos`. -/
  qos : ℕ
  deriving DecidableEq

/-- The arguments of `mqtt3_db_messages_queue`. The topic by which a message finds its subscriptions
is not always that of the stored message, see `Psn.Handlers`. -/
structure Publication where
  /-- `source_id`, unless there is none. -/
  sourceId : Option CStr
  /-- `topic`. -/
  topic : CStr
  /-- `qos`. -/
  qos : ℕ
  /-- `retain`. -/
  retain : Bool
  /-- `stored`. -/
  stored : MsgStore
  deriving DecidableEq

/-- `struct _mosquitto_subhier`, with the children as a list. -/
structure SubHier (κ : Type) where
  /-- `topic`. -/
  topic : CStr
  /-- `subs`. -/
  subs : List (SubLeaf κ)
  /-- `retained`. -/
  retained : Option MsgStore
  /-- `children`. -/
  children : List (SubHier κ)

/-- A new node. -/
def SubHier.new (topic : CStr) : SubHier κ := ⟨topic, [], none, []⟩

/-- `!branch->children && !branch->subs && !branch->retained`. -/
def SubHier.isBare (hier : SubHier κ) : Bool :=
  hier.children.isEmpty && hier.subs.isEmpty && hier.retained.isNone

/-- What the tree asks about clients, and how it is configured. -/
structure SubsConfig (κ : Type) where
  /-- `context->id`. -/
  id : κ → CStr
  /-- `context->is_bridge`. -/
  isBridge : κ → Bool
  /-- `mosquitto_acl_check` for reading. -/
  aclRead : κ → CStr → MosqErr
  /-- `upgrade_outgoing_qos`. -/
  upgradeOutgoingQos : Bool

/-- A call of `mqtt3_db_message_insert`. -/
structure Delivery (κ : Type) where
  /-- `context`. -/
  context : κ
  /-- `qos`. -/
  qos : ℕ
  /-- `retain`. -/
  retain : Bool
  /-- `stored`. -/
  stored : MsgStore
  deriving DecidableEq

/-! ### Adding and removing subscriptions -/

/-- The loop of `_sub_add` over the subscriptions of a node. -/
def addLeaf (id : κ → CStr) (context : κ) (qos : ℕ) : List (SubLeaf κ) → List (SubLeaf κ)
  | [] => [⟨context, qos⟩]
  | leaf :: rest =>
    if id leaf.context = id context then { leaf with qos := qos } :: rest
    else leaf :: addLeaf id context qos rest

/-- The loop of `_sub_add` over the children: `f` is done to the one for `topic`, which is new when
there is none. -/
def alterBranch (f : SubHier κ → SubHier κ) (topic : CStr) : List (SubHier κ) → List (SubHier κ)
  | [] => [f (.new topic)]
  | branch :: rest =>
    if branch.topic = topic then f branch :: rest else branch :: alterBranch f topic rest

/-- `_sub_add`. Without a client it makes the nodes only. -/
def subAdd (id : κ → CStr) (context : Option κ) (qos : ℕ) : List CStr → SubHier κ → SubHier κ
  | [], hier => { hier with
      subs := context.elim hier.subs fun context => addLeaf id context qos hier.subs }
  | topic :: tokens, hier => { hier with
      children := alterBranch (subAdd id context qos tokens) topic hier.children }

/-- The loop of `_sub_remove` over the children: `f` is done to the one for `topic`, which is freed
when nothing is left of it. -/
def removeBranch (f : SubHier κ → SubHier κ) (topic : CStr) : List (SubHier κ) → List (SubHier κ)
  | [] => []
  | branch :: rest =>
    if branch.topic = topic then if (f branch).isBare then rest else f branch :: rest
    else branch :: removeBranch f topic rest

section

variable [DecidableEq κ]

/-- `_sub_remove`. -/
def subRemove (context : κ) : List CStr → SubHier κ → SubHier κ
  | [], hier => { hier with subs := hier.subs.eraseP fun leaf => leaf.context = context }
  | topic :: tokens, hier => { hier with
      children := removeBranch (subRemove context tokens) topic hier.children }

mutual

/-- `_subs_clean_session`. -/
def subsCleanSession (context : κ) : SubHier κ → SubHier κ
  | ⟨topic, subs, retained, children⟩ =>
    ⟨topic, subs.filter fun leaf => leaf.context ≠ context, retained,
      subsCleanChildren context children⟩

/-- The loop of `_subs_clean_session` over the children. -/
def subsCleanChildren (context : κ) : List (SubHier κ) → List (SubHier κ)
  | [] => []
  | child :: rest =>
    if (subsCleanSession context child).isBare then subsCleanChildren context rest
    else subsCleanSession context child :: subsCleanChildren context rest

end

end

/-! ### Delivering -/

/-- The loop of `_subs_process`, for one subscription. -/
def deliverLeaf (config : SubsConfig κ) (m : Publication) (leaf : SubLeaf κ) :
    Option (Delivery κ) :=
  if config.isBridge leaf.context ∧ some (config.id leaf.context) = m.sourceId then none
  else if config.aclRead leaf.context m.topic = .success then
    some ⟨leaf.context,
      if config.upgradeOutgoingQos then leaf.qos else if m.qos > leaf.qos then leaf.qos else m.qos,
      if config.isBridge leaf.context then m.retain else false, m.stored⟩
  else none

/-- The deliveries of `_subs_process`. -/
def deliverLeaves (config : SubsConfig κ) (m : Publication) (subs : List (SubLeaf κ)) :
    List (Delivery κ) :=
  if m.sourceId = none then [] else subs.filterMap (deliverLeaf config m)

/-- `_subs_process`. -/
def subsProcess (config : SubsConfig κ) (m : Publication) (setRetain : Bool) (hier : SubHier κ) :
    List (Delivery κ) × SubHier κ :=
  (deliverLeaves config m hier.subs, { hier with
    retained := if m.retain && setRetain then
        if m.stored.payload = [] then none else some m.stored
      else hier.retained })

/-- A loop over the children that goes through all of them. -/
def SubHier.forChildren (f : SubHier κ → List (Delivery κ) × SubHier κ) (hier : SubHier κ) :
    List (Delivery κ) × SubHier κ :=
  (hier.children.flatMap fun branch => (f branch).1,
    { hier with children := hier.children.map fun branch => (f branch).2 })

/-- The branch is `#`, and ends there. -/
def SubHier.isHash (branch : SubHier κ) : Bool :=
  decide (branch.topic = [hash]) && branch.children.isEmpty

/-- `_sub_search`. -/
def subSearch (config : SubsConfig κ) (m : Publication) :
    List CStr → Bool → SubHier κ → List (Delivery κ) × SubHier κ
  | [], _, hier => hier.forChildren fun branch =>
    if branch.isHash then subsProcess config m false branch else ([], branch)
  | topic :: tokens, setRetain, hier => hier.forChildren fun branch =>
    if branch.topic = topic ∨ branch.topic = [plus] then
      let sr := if branch.topic = [plus] then false else setRetain
      let r := subSearch config m tokens sr branch
      if tokens = [] then (r.1 ++ (subsProcess config m sr r.2).1, (subsProcess config m sr r.2).2)
      else r
    else if branch.isHash then subsProcess config m false branch
    else ([], branch)

/-! ### The entry points -/

/-- `db->subs`, whose own fields but the children are never used. -/
structure SubDb (κ : Type) where
  /-- `children`. -/
  children : List (SubHier κ)

/-- The tree as `mqtt3_db_open` leaves it. -/
def SubDb.init : SubDb κ := ⟨[.new [], .new (lit "$SYS")]⟩

/-- What is done to the first child for `topic`, when there is one. -/
def alterFirst (f : SubHier κ → SubHier κ) (topic : CStr) : List (SubHier κ) → List (SubHier κ)
  | [] => []
  | child :: rest =>
    if child.topic = topic then f child :: rest else child :: alterFirst f topic rest

/-- `mqtt3_sub_add`. When there is no child for the first token, a new one takes the place of all
there are. -/
def mqtt3SubAdd (id : κ → CStr) (db : SubDb κ) (context : κ) (sub : CStr) (qos : ℕ) : SubDb κ :=
  let tokens := subTopicTokens sub
  let topic := tokens.headD []
  if db.children.any fun subhier => subhier.topic = topic then
    ⟨alterFirst (subAdd id (some context) qos tokens) topic db.children⟩
  else ⟨[subAdd id (some context) qos tokens (.new topic)]⟩

/-- `mqtt3_sub_remove`. -/
def mqtt3SubRemove [DecidableEq κ] (db : SubDb κ) (context : κ) (sub : CStr) : SubDb κ :=
  let tokens := subTopicTokens sub
  ⟨alterFirst (subRemove context tokens) (tokens.headD []) db.children⟩

/-- `mqtt3_subs_clean_session`. -/
def mqtt3SubsCleanSession [DecidableEq κ] (db : SubDb κ) (context : κ) : SubDb κ :=
  ⟨db.children.map (subsCleanSession context)⟩

/-- What `mqtt3_db_messages_queue` does with one child of the root. -/
def queueChild (config : SubsConfig κ) (m : Publication) (tokens : List CStr)
    (subhier : SubHier κ) : List (Delivery κ) × SubHier κ :=
  if subhier.topic = tokens.headD [] then
    subSearch config m tokens true
      (if m.retain then subAdd config.id none 0 tokens subhier else subhier)
  else ([], subhier)

/-- `mqtt3_db_messages_queue`. -/
def mqtt3DbMessagesQueue (config : SubsConfig κ) (db : SubDb κ) (m : Publication) :
    List (Delivery κ) × SubDb κ :=
  let tokens := subTopicTokens m.topic
  (db.children.flatMap fun subhier => (queueChild config m tokens subhier).1,
    ⟨db.children.map fun subhier => (queueChild config m tokens subhier).2⟩)

/-! ### Retained messages -/

section Retained

variable (config : SubsConfig κ) (context : κ) (subQos : ℕ)

/-- `_retain_process`. A retained message has a topic, because one without a topic has no
payload. -/
def retainProcess (retained : MsgStore) : List (Delivery κ) :=
  match retained.topic with
  | none => []
  | some topic =>
    if config.aclRead context topic = .success then
      [⟨context, if retained.qos > subQos then subQos else retained.qos, true, retained⟩]
    else []

mutual

/-- `_retain_search`, with whether it returns -1. -/
def retainSearch (tokens : List CStr) (level : ℕ) : SubHier κ → List (Delivery κ) × Bool
  | ⟨_, _, _, children⟩ => retainChildren tokens level children

/-- The loop of `_retain_search` over the children. Its `tokens` are never empty. -/
def retainChildren (tokens : List CStr) (level : ℕ) : List (SubHier κ) → List (Delivery κ) × Bool
  | [] => ([], false)
  | branch :: rest =>
    let own := (branch.retained.map (retainProcess config context subQos)).getD []
    let others := retainChildren tokens level rest
    match tokens with
    | [] => others
    | topic :: next =>
      if topic = [hash] ∧ next = [] then
        (own ++ (retainSearch tokens (level + 1) branch).1 ++ others.1, true)
      else if branch.topic ≠ [plus] ∧ (branch.topic = topic ∨ topic = [plus]) then
        if next = [] then (own ++ others.1, others.2)
        else
          let below := retainSearch next (level + 1) branch
          -- at the last child, its own message is for `#` even when nothing is below it
          if below.2 ∨ rest = [] ∧ next.head? = some [hash] ∧ level > 0 then
            (below.1 ++ own ++ others.1, others.2)
          else (below.1 ++ others.1, others.2)
      else others

end

/-- `mqtt3_retain_queue`. -/
def mqtt3RetainQueue (db : SubDb κ) (sub : CStr) : List (Delivery κ) :=
  let tokens := subTopicTokens sub
  ((db.children.find? fun subhier => subhier.topic = tokens.headD []).map fun subhier =>
    (retainSearch config context subQos tokens 0 subhier).1).getD []

end Retained

/-! ### Steps -/

/-- What clients do to the tree. -/
inductive SubAct (κ : Type)
  /-- A topic of a SUBSCRIBE that is granted. -/
  | subscribe (context : κ) (sub : CStr) (qos : ℕ)
  /-- A topic of an UNSUBSCRIBE. -/
  | unsubscribe (context : κ) (sub : CStr)
  /-- A client is gone, and its session ends. -/
  | clean (context : κ)
  /-- A PUBLISH that the broker accepts. -/
  | publish (m : Publication)

/-- A filter that `mqtt3_handle_subscribe` and `mqtt3_handle_unsubscribe` let pass. -/
def IsFilter (sub : CStr) : Prop := sub ≠ [] ∧ topicWildcardPosCheck sub = .success

instance (sub : CStr) : Decidable (IsFilter sub) := inferInstanceAs (Decidable (_ ∧ _))

/-- A topic that `mqtt3_handle_publish` lets pass. -/
def IsTopic (topic : CStr) : Prop := topic ≠ [] ∧ topicWildcardLenCheck topic = .success

instance (topic : CStr) : Decidable (IsTopic topic) := inferInstanceAs (Decidable (_ ∧ _))

/-- One call of `subs.c`, behind the check of the filter or topic that every handler makes. What the
handlers refuse besides, and `mqtt3_retain_queue`, which sends a new subscriber what is retained,
are in `Psn.Handlers`. -/
def SubDb.step [DecidableEq κ] (config : SubsConfig κ) (db : SubDb κ) :
    SubAct κ → Option (List (Delivery κ) × SubDb κ)
  | .subscribe context sub qos =>
    some ([], if IsFilter sub then mqtt3SubAdd config.id db context sub qos else db)
  | .unsubscribe context sub =>
    some ([], if IsFilter sub then mqtt3SubRemove db context sub else db)
  | .clean context => some ([], mqtt3SubsCleanSession db context)
  | .publish m => some (if IsTopic m.topic then mqtt3DbMessagesQueue config db m else ([], db))

end Psn

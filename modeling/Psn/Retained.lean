import Psn.Routing

/-!
# Retained messages

A message that is published with the retain flag stays in the tree, at the node of its topic, until
another one takes its place. A client that subscribes gets what is retained for its filter.

This file says where such messages come from. What is in the tree was in it before or has just been
published, and what a client gets when it subscribes is in the tree and may be read by it. So
whatever holds of every message that is published holds of those that come later, too.

It does not say which of them come. `_retain_search` does not get this right. For a filter `foo/#`
the message at `foo` itself is passed over when `foo` has no children and another child follows it.
And a new root takes the place of all others, with what was retained below them.

## Main definitions

* `SubHier.Keeps`, `SubDb.Keeps`: a message is retained in the tree

## Main results

* `keeps_of_messagesQueue`: where a retained message comes from
* `keeps_of_mem_retainQueue`: what a client gets when it subscribes
-/

namespace Psn

variable {κ : Type} {r : MsgStore}

/-! ### Messages in a tree -/

/-- A message is retained at a node or below it. -/
inductive SubHier.Keeps (r : MsgStore) : SubHier κ → Prop
  | own {hier : SubHier κ} (h : hier.retained = some r) : Keeps r hier
  | child {hier child : SubHier κ} (hmem : child ∈ hier.children) (h : Keeps r child) :
    Keeps r hier

/-- A message is retained in the tree. -/
def SubDb.Keeps (r : MsgStore) (db : SubDb κ) : Prop := ∃ child ∈ db.children, child.Keeps r

/-- A message that is routed is retained when it says so and has a payload. -/
def Publication.Retains (m : Publication) (r : MsgStore) : Prop :=
  m.retain = true ∧ m.stored = r ∧ r.payload ≠ []

namespace SubHier

/-- At the node itself, or below one of its children. -/
theorem keeps_iff {hier : SubHier κ} :
    hier.Keeps r ↔ hier.retained = some r ∨ ∃ child ∈ hier.children, child.Keeps r := by
  constructor
  · intro h
    cases h with
    | own h => exact .inl h
    | child hmem h => exact .inr ⟨_, hmem, h⟩
  · rintro (h | ⟨child, hmem, h⟩)
    · exact .own h
    · exact .child hmem h

/-- Nothing is retained at a new node. -/
theorem not_keeps_new (topic : CStr) : ¬(SubHier.new topic : SubHier κ).Keeps r := by
  rw [keeps_iff]
  rintro (h | ⟨child, hmem, -⟩)
  · cases h
  · cases hmem

/-! ### The recursions -/

/-- A loop over the children changes the first one, and it stops there. -/
theorem keeps_of_cons_head {f : SubHier κ → SubHier κ} (hf : ∀ b, (f b).Keeps r → b.Keeps r)
    {b child : SubHier κ} {rest : List (SubHier κ)} (hmem : child ∈ f b :: rest)
    (h : child.Keeps r) : ∃ c ∈ b :: rest, c.Keeps r := by
  rcases List.mem_cons.mp hmem with rfl | hmem
  · exact ⟨b, List.mem_cons_self, hf b h⟩
  · exact ⟨child, List.mem_cons_of_mem b hmem, h⟩

/-- Or it leaves the first one and goes on with the others. -/
theorem keeps_of_cons_tail {b child : SubHier κ} {rest rest' : List (SubHier κ)}
    (ih : child ∈ rest' → ∃ c ∈ rest, c.Keeps r) (hmem : child ∈ b :: rest') (h : child.Keeps r) :
    ∃ c ∈ b :: rest, c.Keeps r := by
  rcases List.mem_cons.mp hmem with rfl | hmem
  · exact ⟨child, List.mem_cons_self, h⟩
  · obtain ⟨c, hc, hkeeps⟩ := ih hmem
    exact ⟨c, List.mem_cons_of_mem b hc, hkeeps⟩

/-- Other children keep what they have. -/
theorem keeps_of_alterBranch {f : SubHier κ → SubHier κ} (hf : ∀ b, (f b).Keeps r → b.Keeps r)
    {t : CStr} {children : List (SubHier κ)} {child : SubHier κ}
    (hmem : child ∈ alterBranch f t children) (h : child.Keeps r) :
    ∃ b ∈ children, b.Keeps r := by
  induction children with
  | nil =>
    rw [alterBranch, List.mem_singleton] at hmem
    exact absurd (hf _ (hmem ▸ h)) (not_keeps_new t)
  | cons b rest ih =>
    rw [alterBranch] at hmem
    split at hmem
    · exact keeps_of_cons_head hf hmem h
    · exact keeps_of_cons_tail ih hmem h

/-- A subscription brings no message into the tree. -/
theorem keeps_of_subAdd {id : κ → CStr} {context : Option κ} {qos : ℕ} {path : List CStr} :
    ∀ {hier : SubHier κ}, (subAdd id context qos path hier).Keeps r → hier.Keeps r := by
  induction path with
  | nil =>
    intro hier h
    rw [keeps_iff] at h ⊢
    exact h
  | cons t path ih =>
    intro hier h
    rw [keeps_iff] at h ⊢
    refine h.imp_right fun ⟨child, hmem, hkeeps⟩ => ?_
    exact keeps_of_alterBranch (fun b => ih) hmem hkeeps

/-- What is freed takes its messages with it; nothing else changes. -/
theorem keeps_of_removeBranch {f : SubHier κ → SubHier κ} (hf : ∀ b, (f b).Keeps r → b.Keeps r)
    {t : CStr} {children : List (SubHier κ)} {child : SubHier κ}
    (hmem : child ∈ removeBranch f t children) (h : child.Keeps r) :
    ∃ b ∈ children, b.Keeps r := by
  induction children with
  | nil => cases hmem
  | cons b rest ih =>
    rw [removeBranch] at hmem
    split at hmem
    · split at hmem
      · exact ⟨child, List.mem_cons_of_mem b hmem, h⟩
      · exact keeps_of_cons_head hf hmem h
    · exact keeps_of_cons_tail ih hmem h

section Remove

variable [DecidableEq κ] {context : κ}

/-- Nor does taking one back. -/
theorem keeps_of_subRemove {path : List CStr} : ∀ {hier : SubHier κ},
    (subRemove context path hier).Keeps r → hier.Keeps r := by
  induction path with
  | nil =>
    intro hier h
    rw [keeps_iff] at h ⊢
    exact h
  | cons t path ih =>
    intro hier h
    rw [keeps_iff] at h ⊢
    refine h.imp_right fun ⟨child, hmem, hkeeps⟩ => ?_
    exact keeps_of_removeBranch (fun b => ih) hmem hkeeps

/-- Nor does the end of a session. -/
theorem keeps_of_subsCleanSession {hier : SubHier κ} :
    (subsCleanSession context hier).Keeps r → hier.Keeps r := by
  induction hier using SubHier.induction with
  | h hier ih =>
    intro h
    rw [subsCleanSession_eq, keeps_iff] at h
    rw [keeps_iff]
    refine h.imp_right fun ⟨child, hmem, hkeeps⟩ => ?_
    obtain ⟨b, hb, rfl⟩ := List.mem_map.mp (List.mem_filter.mp hmem).1
    exact ⟨b, hb, ih b hb hkeeps⟩

end Remove

section Search

variable {config : SubsConfig κ} {m : Publication}

/-- A loop over the children retains what it retains in one of them. -/
theorem keeps_of_forChildren {f : SubHier κ → List (Delivery κ) × SubHier κ}
    (hf : ∀ b, (f b).2.Keeps r → b.Keeps r ∨ m.Retains r) {hier : SubHier κ}
    (h : (hier.forChildren f).2.Keeps r) : hier.Keeps r ∨ m.Retains r := by
  rw [keeps_iff] at h ⊢
  rcases h with h | ⟨child, hmem, hkeeps⟩
  · exact .inl (.inl h)
  · obtain ⟨b, hb, rfl⟩ := List.mem_map.mp hmem
    exact (hf b hkeeps).imp_left fun hkept => .inr ⟨b, hb, hkept⟩

/-- Where the message of a node comes from. -/
theorem keeps_of_subsProcess (config : SubsConfig κ) {setRetain : Bool} {hier : SubHier κ}
    (h : (subsProcess config m setRetain hier).2.Keeps r) : hier.Keeps r ∨ m.Retains r := by
  rw [keeps_iff] at h
  rcases h with h | ⟨child, hmem, hkeeps⟩
  · dsimp only [subsProcess] at h
    split at h
    · rename_i hset
      rw [Bool.and_eq_true] at hset
      split at h
      · cases h
      · rename_i hpayload
        obtain rfl := Option.some.inj h
        exact .inr ⟨hset.1, rfl, hpayload⟩
    · exact .inl (.own h)
  · exact .inl (.child hmem hkeeps)

/-- **Searching the tree** leaves in it what was retained, or puts the message there. -/
theorem keeps_of_subSearch {tokens : List CStr} : ∀ {setRetain : Bool} {hier : SubHier κ},
    (subSearch config m tokens setRetain hier).2.Keeps r → hier.Keeps r ∨ m.Retains r := by
  induction tokens with
  | nil =>
    intro setRetain hier h
    refine keeps_of_forChildren (fun b hb => ?_) h
    split at hb
    · exact keeps_of_subsProcess config hb
    · exact .inl hb
  | cons t tokens ih =>
    intro setRetain hier h
    refine keeps_of_forChildren (fun b hb => ?_) h
    dsimp only at hb
    split at hb
    · split at hb
      · exact (keeps_of_subsProcess config hb).elim ih .inr
      · exact ih hb
    · split at hb
      · exact keeps_of_subsProcess config hb
      · exact .inl hb

/-- So does routing it through one child of the root. -/
theorem keeps_of_queueChild {tokens : List CStr} {hier : SubHier κ}
    (h : (queueChild config m tokens hier).2.Keeps r) : hier.Keeps r ∨ m.Retains r := by
  rw [queueChild] at h
  split at h
  · refine (keeps_of_subSearch h).imp_left fun hkeeps => ?_
    split at hkeeps
    · exact keeps_of_subAdd hkeeps
    · exact hkeeps
  · exact .inl h

end Search

end SubHier

/-! ### The tree of the broker -/

open SubHier

/-- The broker starts with nothing that is retained. -/
theorem not_keeps_init : ¬(SubDb.init : SubDb κ).Keeps r := by
  rintro ⟨child, hmem, hkeeps⟩
  rcases List.mem_cons.mp hmem with rfl | hmem
  · exact not_keeps_new _ hkeeps
  · rw [List.mem_singleton.mp hmem] at hkeeps
    exact not_keeps_new _ hkeeps

/-- Only one child of the root changes. -/
theorem keeps_of_alterFirst {f : SubHier κ → SubHier κ} (hf : ∀ b, (f b).Keeps r → b.Keeps r)
    {t : CStr} {children : List (SubHier κ)} {child : SubHier κ}
    (hmem : child ∈ alterFirst f t children) (h : child.Keeps r) :
    ∃ b ∈ children, b.Keeps r := by
  induction children with
  | nil => cases hmem
  | cons b rest ih =>
    rw [alterFirst] at hmem
    split at hmem
    · exact keeps_of_cons_head hf hmem h
    · exact keeps_of_cons_tail ih hmem h

/-- Routing a message leaves in the tree what was retained, or puts the message there. -/
theorem keeps_of_messagesQueue {config : SubsConfig κ} {db : SubDb κ} {m : Publication}
    (h : (mqtt3DbMessagesQueue config db m).2.Keeps r) : db.Keeps r ∨ m.Retains r := by
  obtain ⟨child, hmem, hkeeps⟩ := h
  obtain ⟨b, hb, rfl⟩ := List.mem_map.mp hmem
  exact (keeps_of_queueChild hkeeps).imp_left fun hkept => ⟨b, hb, hkept⟩

/-- Subscriptions and ends of sessions bring no message into the tree. -/
theorem SubDb.keeps_of_step [DecidableEq κ] {config : SubsConfig κ} {db db' : SubDb κ}
    {act : SubAct κ} {out : List (Delivery κ)} (hact : ∀ m, act ≠ .publish m)
    (hstep : SubDb.step config db act = some (out, db')) (h : db'.Keeps r) : db.Keeps r := by
  cases act with
  | subscribe context sub qos =>
    obtain ⟨-, rfl⟩ := Prod.mk.inj (Option.some.inj hstep)
    split at h
    · obtain ⟨child, hmem, hkeeps⟩ := h
      rw [mqtt3SubAdd] at hmem
      split at hmem
      · exact keeps_of_alterFirst (fun b => keeps_of_subAdd) hmem hkeeps
      · rw [List.mem_singleton.mp hmem] at hkeeps
        exact absurd (keeps_of_subAdd hkeeps) (not_keeps_new _)
    · exact h
  | unsubscribe context sub =>
    obtain ⟨-, rfl⟩ := Prod.mk.inj (Option.some.inj hstep)
    split at h
    · obtain ⟨child, hmem, hkeeps⟩ := h
      exact keeps_of_alterFirst (fun b => keeps_of_subRemove) hmem hkeeps
    · exact h
  | clean context =>
    obtain ⟨-, rfl⟩ := Prod.mk.inj (Option.some.inj hstep)
    obtain ⟨child, hmem, hkeeps⟩ := h
    obtain ⟨b, hb, rfl⟩ := List.mem_map.mp hmem
    exact ⟨b, hb, keeps_of_subsCleanSession hkeeps⟩
  | publish m => exact absurd rfl (hact m)

/-! ### Subscribing -/

section Subscribe

variable {config : SubsConfig κ} {context : κ} {subQos : ℕ}

/-- What a client gets when it subscribes: a message with a topic that it may read. -/
structure RetainedDelivery (config : SubsConfig κ) (context : κ) (d : Delivery κ) : Prop where
  context_eq : d.context = context
  retain : d.retain = true
  aclRead : ∃ topic, d.stored.topic = some topic ∧ config.aclRead context topic = .success

/-- What `_retain_process` delivers is the message of the node. -/
theorem of_mem_retainProcess {d : Delivery κ}
    (hd : d ∈ retainProcess config context subQos r) :
    d.stored = r ∧ RetainedDelivery config context d := by
  rw [retainProcess] at hd
  split at hd
  · cases hd
  · rename_i topic htopic
    split at hd
    · rename_i hacl
      obtain rfl := List.mem_singleton.mp hd
      exact ⟨rfl, rfl, rfl, topic, htopic, hacl⟩
    · cases hd

/-- What is sent for one node. -/
theorem of_mem_own {hier : SubHier κ} {d : Delivery κ}
    (hd : d ∈ (hier.retained.map (retainProcess config context subQos)).getD []) :
    hier.Keeps d.stored ∧ RetainedDelivery config context d := by
  cases hretained : hier.retained with
  | none =>
    rw [hretained] at hd
    cases hd
  | some r =>
    rw [hretained] at hd
    obtain ⟨heq, hdelivery⟩ := of_mem_retainProcess hd
    exact ⟨.own (heq ▸ hretained), hdelivery⟩

/-- What is sent for some children, when it is so for each. -/
theorem of_mem_retainChildren {children : List (SubHier κ)} {d : Delivery κ} {tokens : List CStr}
    {level : ℕ} (hchild : ∀ child ∈ children, ∀ tokens level,
      d ∈ (retainSearch config context subQos tokens level child).1 →
        child.Keeps d.stored ∧ RetainedDelivery config context d)
    (hd : d ∈ (retainChildren config context subQos tokens level children).1) :
    (∃ child ∈ children, child.Keeps d.stored) ∧ RetainedDelivery config context d := by
  induction children with
  | nil => cases hd
  | cons branch rest ih =>
    have hown : d ∈ (branch.retained.map (retainProcess config context subQos)).getD [] →
        (∃ child ∈ branch :: rest, child.Keeps d.stored) ∧ RetainedDelivery config context d :=
      fun hd => (of_mem_own hd).imp_left fun hkeeps => ⟨branch, List.mem_cons_self, hkeeps⟩
    have hbelow : ∀ tokens level, d ∈ (retainSearch config context subQos tokens level branch).1 →
        (∃ child ∈ branch :: rest, child.Keeps d.stored) ∧ RetainedDelivery config context d :=
      fun tokens level hd => (hchild branch List.mem_cons_self tokens level hd).imp_left
        fun hkeeps => ⟨branch, List.mem_cons_self, hkeeps⟩
    have hothers : d ∈ (retainChildren config context subQos tokens level rest).1 →
        (∃ child ∈ branch :: rest, child.Keeps d.stored) ∧ RetainedDelivery config context d :=
      fun hd => (ih (fun child hmem => hchild child (List.mem_cons_of_mem branch hmem)) hd).imp_left
        fun ⟨child, hmem, hkeeps⟩ => ⟨child, List.mem_cons_of_mem branch hmem, hkeeps⟩
    cases tokens with
    | nil => exact hothers (by simpa only [retainChildren] using hd)
    | cons topic next =>
      rw [retainChildren] at hd
      dsimp only at hd
      split at hd
      · rcases List.mem_append.mp hd with hd | hd
        · exact (List.mem_append.mp hd).elim hown (hbelow _ _)
        · exact hothers hd
      · split at hd
        · split at hd
          · exact (List.mem_append.mp hd).elim hown hothers
          · split at hd
            · rcases List.mem_append.mp hd with hd | hd
              · exact (List.mem_append.mp hd).elim (hbelow _ _) hown
              · exact hothers hd
            · exact (List.mem_append.mp hd).elim (hbelow _ _) hothers
        · exact hothers hd

/-- And `_retain_search` delivers what is in the tree. -/
theorem of_mem_retainSearch {hier : SubHier κ} {d : Delivery κ} : ∀ {tokens : List CStr}
    {level : ℕ}, d ∈ (retainSearch config context subQos tokens level hier).1 →
      hier.Keeps d.stored ∧ RetainedDelivery config context d := by
  induction hier using SubHier.induction with
  | h hier ih =>
    intro tokens level hd
    obtain ⟨topic, subs, retained, children⟩ := hier
    rw [retainSearch] at hd
    exact (of_mem_retainChildren (fun child hmem tokens level => ih child hmem) hd).imp_left
      fun ⟨child, hmem, hkeeps⟩ => .child hmem hkeeps

/-- **A client that subscribes gets** messages that are retained in the tree and that it may
read. -/
theorem keeps_of_mem_retainQueue {db : SubDb κ} {sub : CStr} {d : Delivery κ}
    (hd : d ∈ mqtt3RetainQueue config context subQos db sub) :
    db.Keeps d.stored ∧ RetainedDelivery config context d := by
  rw [mqtt3RetainQueue] at hd
  cases hfind : db.children.find? fun subhier => subhier.topic = (subTopicTokens sub).headD [] with
  | none =>
    rw [hfind] at hd
    cases hd
  | some child =>
    rw [hfind] at hd
    obtain ⟨hkeeps, hdelivery⟩ := of_mem_retainSearch hd
    exact ⟨⟨child, List.mem_of_find?_eq_some hfind, hkeeps⟩, hdelivery⟩

end Subscribe

end Psn

import Mathlib.Data.List.Perm.Basic
import Psn.Subs

/-!
# The subscriptions in a tree

What a subscription tree says is a table of subscriptions, each of them a client and the path of its
node. The recursions of `subs.c` over the tree do to the table what one expects: add an entry or
change its QoS, remove it, remove those of a client, and find the ones that match a topic.

The order of a table does not matter, so what is said of it is said up to `List.Perm` where the tree
puts an entry in another place than the table: behind the others of its node, and not behind all
others. Where the tree leaves the others as they are, the two lists are equal.

All of it needs trees that are `Good`. The paths of a node's children differ in their first token
only if no two of them have the same topic, and `_sub_search` looks for a `#` without children,
which is the end of a filter only if `#` never stands in front of anything. Subscriptions that the
handlers let pass keep this.

## Scope

Nodes that have no subscription are not in the table. They come and go: `_sub_add` makes them,
`_sub_remove` and `_subs_clean_session` free them, but `mqtt3_db_messages_queue` makes them as well,
for the topic of a retained message. So two trees with one table may differ in their nodes, and
nothing here depends on it. Neither does it on the retained messages, which are the subject of
`Psn.Retained`.

What becomes of the root, where the first token of a filter is looked up in another way than the
others, is left to `Psn.Routing`.

## Main definitions

* `SubHier.entries`: the subscriptions in a tree, each with its path
* `SubHier.Good`: what holds at every node
* `tableAdd`, `isKept`, `matching`: the same on the table

## Main results

* `SubHier.entries_subAdd`, `SubHier.entries_subRemove`, `SubHier.entries_clean`
* `SubHier.subSearch_fst`: who gets a message
* `SubHier.alike_subSearch`: a message changes no subscription
-/

namespace Psn

variable {κ : Type}

/-! ### The subscriptions in a tree -/

/-- A subscription and its path. -/
abbrev SubEntry (κ : Type) := List CStr × SubLeaf κ

/-- A subscription one level further down. -/
def SubEntry.under (topic : CStr) (e : SubEntry κ) : SubEntry κ := (topic :: e.1, e.2)

mutual

/-- The subscriptions in a tree. -/
def SubHier.entries : SubHier κ → List (SubEntry κ)
  | ⟨_, subs, _, children⟩ => SubHier.entriesAll children ++ subs.map fun leaf => ([], leaf)

/-- The subscriptions below a node. -/
def SubHier.entriesAll : List (SubHier κ) → List (SubEntry κ)
  | [] => []
  | branch :: rest => branch.entries.map (SubEntry.under branch.topic) ++ SubHier.entriesAll rest

end

namespace SubHier

/-- The subscriptions below a branch. -/
def inside (branch : SubHier κ) : List (SubEntry κ) :=
  branch.entries.map (SubEntry.under branch.topic)

/-- The mutual recursion is a loop over the children. -/
theorem entriesAll_eq (children : List (SubHier κ)) :
    entriesAll children = children.flatMap inside := by
  induction children with
  | nil => rfl
  | cons branch rest ih =>
    rw [entriesAll, ih]
    rfl

/-- The entries of a node: those below its children, and its own, whose path is empty. -/
theorem entries_eq (hier : SubHier κ) :
    hier.entries = hier.children.flatMap inside ++ hier.subs.map fun leaf => ([], leaf) := by
  obtain ⟨topic, subs, retained, children⟩ := hier
  rw [entries, entriesAll_eq]

/-- Induction over a tree. -/
theorem induction {P : SubHier κ → Prop}
    (h : ∀ hier : SubHier κ, (∀ branch ∈ hier.children, P branch) → P hier) (hier : SubHier κ) :
    P hier :=
  @SubHier.rec κ P (fun children => ∀ branch ∈ children, P branch)
    (fun topic subs retained children ih => h ⟨topic, subs, retained, children⟩ ih)
    (fun _ hmem => absurd hmem List.not_mem_nil)
    (fun _ _ hhead htail _ hmem => (List.mem_cons.mp hmem).elim (fun heq => heq ▸ hhead) (htail _))
    hier

/-- What holds at every node: one child for each topic, no child below `#`, and no client twice. -/
inductive Good (id : κ → CStr) : SubHier κ → Prop
  | intro {hier : SubHier κ} (nodup : (hier.children.map topic).Nodup)
      (hash : hier.topic = [hash] → hier.children = [])
      (ids : (hier.subs.map fun leaf => id leaf.context).Nodup)
      (branches : ∀ branch ∈ hier.children, Good id branch) : Good id hier

variable {id : κ → CStr}

/-- No two children of a node have the same topic. -/
theorem Good.nodup {hier : SubHier κ} (h : hier.Good id) : (hier.children.map topic).Nodup := by
  cases h
  assumption

/-- A `#` is a leaf. -/
theorem Good.children_eq {hier : SubHier κ} (h : hier.Good id) (hhash : hier.topic = [hash]) :
    hier.children = [] := by
  cases h with
  | intro _ hash _ _ => exact hash hhash

/-- A client has one subscription at a node. -/
theorem Good.ids {hier : SubHier κ} (h : hier.Good id) :
    (hier.subs.map fun leaf => id leaf.context).Nodup := by
  cases h
  assumption

/-- The children are good as well. -/
theorem Good.branches {hier : SubHier κ} (h : hier.Good id) {branch : SubHier κ}
    (hmem : branch ∈ hier.children) : branch.Good id := by
  cases h with
  | intro _ _ _ branches => exact branches branch hmem

/-- A new node is good. -/
theorem good_new (topic : CStr) : (SubHier.new topic : SubHier κ).Good id :=
  .intro List.nodup_nil (fun _ => rfl) List.nodup_nil fun _ hmem => absurd hmem List.not_mem_nil

/-- A new node has no entries. -/
@[simp] theorem entries_new (topic : CStr) : (SubHier.new topic : SubHier κ).entries = [] := by
  rw [entries_eq]
  rfl

/-- And nothing is below it. -/
@[simp] theorem inside_new (topic : CStr) : (SubHier.new topic : SubHier κ).inside = [] := by
  rw [inside, entries_new, List.map_nil]

/-- The paths below a branch start with its topic. -/
theorem head_of_mem_inside {branch : SubHier κ} {e : SubEntry κ} (h : e ∈ branch.inside) :
    ∃ path, e.1 = branch.topic :: path := by
  obtain ⟨e', -, rfl⟩ := List.mem_map.mp h
  exact ⟨e'.1, rfl⟩

/-! ### One child among the others -/

/-- There is no child for a topic, or there is exactly one. -/
theorem branch_cases {children : List (SubHier κ)} (h : (children.map topic).Nodup)
    (t : CStr) :
    (∀ branch ∈ children, branch.topic ≠ t) ∨
      ∃ pre branch post, children = pre ++ branch :: post ∧ branch.topic = t ∧
        (∀ b ∈ pre, b.topic ≠ t) ∧ ∀ b ∈ post, b.topic ≠ t := by
  -- the topics are distinct, so the child that is found is the only one
  by_cases hmem : t ∈ children.map topic
  · right
    obtain ⟨branch, hbranch, rfl⟩ := List.mem_map.mp hmem
    obtain ⟨pre, post, rfl⟩ := List.append_of_mem hbranch
    rw [List.map_append, List.map_cons, List.nodup_append, List.nodup_cons] at h
    obtain ⟨-, ⟨hpost, -⟩, hpre⟩ := h
    refine ⟨pre, branch, post, rfl, rfl, fun b hb heq => ?_, fun b hb heq => ?_⟩
    · exact hpre b.topic (List.mem_map_of_mem hb) branch.topic List.mem_cons_self heq
    · exact hpost (heq ▸ List.mem_map_of_mem hb)
  · left
    intro branch hbranch heq
    exact hmem (heq ▸ List.mem_map_of_mem hbranch)

/-- The loop of `_sub_add` appends a new child when none is for the topic. -/
theorem alterBranch_of_forall_ne {f : SubHier κ → SubHier κ} {t : CStr}
    {children : List (SubHier κ)} (h : ∀ b ∈ children, b.topic ≠ t) :
    alterBranch f t children = children ++ [f (.new t)] := by
  induction children with
  | nil => rfl
  | cons b rest ih =>
    rw [alterBranch, if_neg (h b List.mem_cons_self),
      ih fun c hc => h c (List.mem_cons_of_mem b hc)]
    rfl

/-- It changes the one that is for the topic, and leaves the others. -/
theorem alterBranch_append {f : SubHier κ → SubHier κ} {t : CStr} {pre post : List (SubHier κ)}
    {branch : SubHier κ} (hpre : ∀ b ∈ pre, b.topic ≠ t) (hbranch : branch.topic = t) :
    alterBranch f t (pre ++ branch :: post) = pre ++ f branch :: post := by
  induction pre with
  | nil => rw [List.nil_append, alterBranch, if_pos hbranch, List.nil_append]
  | cons b pre ih =>
    rw [List.cons_append, alterBranch, if_neg (hpre b List.mem_cons_self),
      ih fun c hc => hpre c (List.mem_cons_of_mem b hc), List.cons_append]

/-- Entries below the children for other topics. -/
theorem ne_of_mem_flatMap_inside {children : List (SubHier κ)} {t : CStr}
    (h : ∀ b ∈ children, b.topic ≠ t) {e : SubEntry κ} (he : e ∈ children.flatMap inside)
    (path : List CStr) : e.1 ≠ t :: path := by
  obtain ⟨b, hb, heb⟩ := List.mem_flatMap.mp he
  obtain ⟨path', hpath⟩ := head_of_mem_inside heb
  rw [hpath]
  exact fun heq => h b hb (List.cons.inj heq).1

/-- A node that is freed takes no entry with it. -/
theorem entries_of_isBare {hier : SubHier κ} (h : hier.isBare = true) : hier.entries = [] := by
  rw [isBare, Bool.and_eq_true, Bool.and_eq_true, List.isEmpty_iff, List.isEmpty_iff] at h
  rw [entries_eq, h.1.1, h.1.2]
  rfl

end SubHier

/-! ### The table -/

section Table

variable {id : κ → CStr} {context : κ} {qos : ℕ} {path : List CStr}

/-- The entry is at this path, and is that of a client with this id. -/
def SubEntry.isFor (id : κ → CStr) (context : κ) (path : List CStr) (e : SubEntry κ) : Bool :=
  decide (e.1 = path ∧ id e.2.context = id context)

/-- The entry with another QoS, when it is for this client. -/
def SubEntry.update (id : κ → CStr) (context : κ) (qos : ℕ) (path : List CStr) (e : SubEntry κ) :
    SubEntry κ :=
  if e.isFor id context path then (e.1, { e.2 with qos := qos }) else e

/-- A client subscribes. Its second subscription to the same filter changes the QoS only. -/
def tableAdd (id : κ → CStr) (context : κ) (qos : ℕ) (path : List CStr)
    (table : List (SubEntry κ)) : List (SubEntry κ) :=
  if table.any (SubEntry.isFor id context path) then
    table.map (SubEntry.update id context qos path)
  else table ++ [(path, ⟨context, qos⟩)]

/-- Adding to a table does not depend on its order. -/
theorem tableAdd_perm {table table' : List (SubEntry κ)} (h : table.Perm table') :
    (tableAdd id context qos path table).Perm (tableAdd id context qos path table') := by
  rw [tableAdd, tableAdd, h.any_eq]
  split
  · exact h.map _
  · exact h.append_right _

/-- Updating leaves a table that has nothing for this client at this path. -/
theorem SubEntry.map_update {table : List (SubEntry κ)}
    (h : ∀ e ∈ table, e.isFor id context path = false) :
    table.map (SubEntry.update id context qos path) = table := by
  conv_rhs => rw [← List.map_id table]
  refine List.map_congr_left fun e he => ?_
  rw [SubEntry.update, h e he]
  rfl

/-- Nor is anything found in it. -/
theorem any_isFor_eq_false {table : List (SubEntry κ)}
    (h : ∀ e ∈ table, e.isFor id context path = false) :
    table.any (SubEntry.isFor id context path) = false :=
  List.any_eq_false.mpr fun e he => by simp [h e he]

/-- A part of the table is enough when the rest has nothing for this client. -/
theorem tableAdd_middle {left middle right : List (SubEntry κ)}
    (hleft : ∀ e ∈ left, e.isFor id context path = false)
    (hright : ∀ e ∈ right, e.isFor id context path = false) :
    (left ++ tableAdd id context qos path middle ++ right).Perm
      (tableAdd id context qos path (left ++ middle ++ right)) := by
  rw [tableAdd, tableAdd, List.any_append, List.any_append, any_isFor_eq_false hleft,
    any_isFor_eq_false hright, Bool.false_or, Bool.or_false]
  split
  · rw [List.map_append, List.map_append, SubEntry.map_update hleft, SubEntry.map_update hright]
  · rw [List.append_assoc, List.append_assoc, List.append_assoc, List.append_assoc]
    exact ((List.perm_append_comm).append_left middle).append_left left

/-- One level further down, an entry is for the same client. -/
theorem SubEntry.isFor_under (t : CStr) (e : SubEntry κ) :
    (e.under t).isFor id context (t :: path) = e.isFor id context path := by
  rw [SubEntry.isFor, SubEntry.isFor, SubEntry.under]
  simp

/-- A table one level further down. -/
theorem tableAdd_under (t : CStr) (table : List (SubEntry κ)) :
    tableAdd id context qos (t :: path) (table.map (SubEntry.under t)) =
      (tableAdd id context qos path table).map (SubEntry.under t) := by
  have hany : (table.map (SubEntry.under t)).any (SubEntry.isFor id context (t :: path)) =
      table.any (SubEntry.isFor id context path) := by
    rw [List.any_map]
    exact congrArg (table.any ·) (funext fun e => e.isFor_under t)
  rw [tableAdd, tableAdd, hany]
  split
  · rw [List.map_map, List.map_map]
    refine List.map_congr_left fun e _ => ?_
    rw [Function.comp_apply, Function.comp_apply, SubEntry.update, SubEntry.update,
      SubEntry.isFor_under]
    split <;> rfl
  · rw [List.map_append]
    rfl

/-- The loop over the subscriptions of a node. -/
theorem map_addLeaf {subs : List (SubLeaf κ)} (h : (subs.map fun leaf => id leaf.context).Nodup) :
    (addLeaf id context qos subs).map (fun leaf => (([] : List CStr), leaf)) =
      tableAdd id context qos [] (subs.map fun leaf => ([], leaf)) := by
  induction subs with
  | nil => rfl
  | cons leaf rest ih =>
    rw [List.map_cons, List.nodup_cons] at h
    rw [addLeaf, List.map_cons]
    -- the first leaf with the id of the client is the only one, and the loop stops there
    by_cases hleaf : id leaf.context = id context
    · have hfor : SubEntry.isFor id context [] (([] : List CStr), leaf) = true :=
        decide_eq_true ⟨rfl, hleaf⟩
      have hrest : ∀ e ∈ rest.map fun leaf => (([] : List CStr), leaf),
          SubEntry.isFor id context [] e = false := by
        intro e he
        obtain ⟨leaf', hleaf', rfl⟩ := List.mem_map.mp he
        refine decide_eq_false fun heq => h.1 ?_
        rw [hleaf, ← heq.2]
        exact List.mem_map_of_mem (f := fun leaf => id leaf.context) hleaf'
      rw [if_pos hleaf, tableAdd, List.any_cons, hfor, Bool.true_or, if_pos rfl, List.map_cons,
        List.map_cons, SubEntry.map_update hrest, SubEntry.update, hfor]
      rfl
    · have hfor : SubEntry.isFor id context [] (([] : List CStr), leaf) = false :=
        decide_eq_false fun heq => hleaf heq.2
      rw [if_neg hleaf, List.map_cons, ih h.2, tableAdd, tableAdd, List.any_cons, hfor,
        Bool.false_or]
      split
      · rw [List.map_cons, SubEntry.update, hfor]
        rfl
      · rfl

end Table

/-! ### Adding -/

namespace SubHier

variable {id : κ → CStr}

/-- The entries of a node itself are for no longer path, -/
theorem isFor_own_cons {context : κ} {t : CStr} {path : List CStr} {subs : List (SubLeaf κ)} :
    ∀ e ∈ subs.map fun leaf => (([] : List CStr), leaf),
      SubEntry.isFor id context (t :: path) e = false := by
  intro e he
  obtain ⟨leaf, -, rfl⟩ := List.mem_map.mp he
  exact decide_eq_false fun heq => by cases heq.1

/-- those below its children are not for the node itself, -/
theorem isFor_inside_nil {context : κ} {children : List (SubHier κ)} :
    ∀ e ∈ children.flatMap inside, SubEntry.isFor id context [] e = false := by
  intro e he
  obtain ⟨b, hb, heb⟩ := List.mem_flatMap.mp he
  obtain ⟨path, hpath⟩ := head_of_mem_inside heb
  exact decide_eq_false fun heq => List.cons_ne_nil _ _ (hpath.symm.trans heq.1)

/-- and those below the children for other topics are not for this one. -/
theorem isFor_inside_cons {context : κ} {t : CStr} {path : List CStr}
    {children : List (SubHier κ)} (h : ∀ b ∈ children, b.topic ≠ t) :
    ∀ e ∈ children.flatMap inside, SubEntry.isFor id context (t :: path) e = false :=
  fun _ he => decide_eq_false fun heq => ne_of_mem_flatMap_inside h he path heq.1

/-- Adding leaves the topic of a node. -/
theorem topic_subAdd (context : Option κ) (qos : ℕ) (path : List CStr) (hier : SubHier κ) :
    (subAdd id context qos path hier).topic = hier.topic := by
  cases path <;> rfl

/-- **Adding a subscription to a tree** adds it to the table. -/
theorem entries_subAdd (context : κ) (qos : ℕ) (path : List CStr) : ∀ {hier : SubHier κ},
    hier.Good id → (subAdd id (some context) qos path hier).entries.Perm
      (tableAdd id context qos path hier.entries) := by
  induction path with
  | nil =>
    intro hier h
    -- the path ends here: the loop over the subscriptions of the node, behind the children
    have hmiddle : (hier.children.flatMap inside ++
        tableAdd id context qos [] (hier.subs.map fun leaf => ([], leaf)) ++ []).Perm _ :=
      tableAdd_middle isFor_inside_nil fun _ he => absurd he List.not_mem_nil
    rw [List.append_nil, List.append_nil, ← map_addLeaf h.ids] at hmiddle
    rw [entries_eq, entries_eq hier]
    exact hmiddle
  | cons t path ih =>
    intro hier h
    -- what the induction hypothesis says about the child for the first token
    have hinside : ∀ {branch : SubHier κ}, branch.Good id → branch.topic = t →
        (subAdd id (some context) qos path branch).inside.Perm
          (tableAdd id context qos (t :: path) branch.inside) := by
      intro branch hbranch htopic
      rw [inside, inside, topic_subAdd, htopic, tableAdd_under]
      exact (ih hbranch).map _
    rw [entries_eq, entries_eq hier]
    show ((alterBranch (subAdd id (some context) qos path) t hier.children).flatMap inside ++
      hier.subs.map _).Perm _
    rcases branch_cases h.nodup t with hnone | ⟨pre, branch, post, hsplit, htopic, hpre, hpost⟩
    · -- no child is for the token: a new one stands behind the others
      have hnew := hinside (good_new t) rfl
      have hmiddle : (hier.children.flatMap inside ++ tableAdd id context qos (t :: path) [] ++
          hier.subs.map fun leaf => ([], leaf)).Perm _ :=
        tableAdd_middle (isFor_inside_cons hnone) isFor_own_cons
      rw [alterBranch_of_forall_ne hnone, List.flatMap_append, List.flatMap_singleton]
      rw [List.append_nil] at hmiddle
      refine List.Perm.trans ?_ hmiddle
      rw [inside_new] at hnew
      exact (hnew.append_left _).append_right _
    · -- one child is, and the entries of all others are for other paths
      have hbranch := hinside (h.branches (by rw [hsplit]; simp)) htopic
      have hright : ∀ e ∈ post.flatMap inside ++ hier.subs.map fun leaf => (([] : List CStr), leaf),
          SubEntry.isFor id context (t :: path) e = false := by
        intro e he
        rcases List.mem_append.mp he with he | he
        · exact isFor_inside_cons hpost e he
        · exact isFor_own_cons e he
      have hmiddle : (pre.flatMap inside ++ tableAdd id context qos (t :: path) branch.inside ++
          (post.flatMap inside ++ hier.subs.map fun leaf => ([], leaf))).Perm _ :=
        tableAdd_middle (isFor_inside_cons hpre) hright
      rw [hsplit, alterBranch_append hpre htopic, List.flatMap_append, List.flatMap_cons,
        List.flatMap_append, List.flatMap_cons]
      have hassoc : ∀ a b c d : List (SubEntry κ), a ++ (b ++ c) ++ d = a ++ b ++ (c ++ d) := by
        intro a b c d
        simp only [List.append_assoc]
      rw [hassoc, hassoc]
      exact List.Perm.trans ((hbranch.append_left _).append_right _) hmiddle

/-- Making the nodes of a path adds nothing. -/
theorem entries_subAdd_none (qos : ℕ) (path : List CStr) : ∀ {hier : SubHier κ},
    hier.Good id → (subAdd id none qos path hier).entries = hier.entries := by
  induction path with
  | nil =>
    intro hier _
    rw [subAdd, entries_eq, entries_eq hier]
    rfl
  | cons t path ih =>
    intro hier h
    have hinside : ∀ {branch : SubHier κ}, branch.Good id →
        (subAdd id none qos path branch).inside = branch.inside := by
      intro branch hbranch
      rw [inside, inside, topic_subAdd, ih hbranch]
    rw [entries_eq, entries_eq hier]
    show (alterBranch (subAdd id none qos path) t hier.children).flatMap inside ++
      hier.subs.map _ = _
    rcases branch_cases h.nodup t with hnone | ⟨pre, branch, post, hsplit, htopic, hpre, hpost⟩
    · have hnew : (subAdd id none qos path (.new t)).inside = [] := by
        rw [hinside (good_new t), inside_new]
      rw [alterBranch_of_forall_ne hnone, List.flatMap_append, List.flatMap_singleton, hnew,
        List.append_nil]
    · rw [hsplit, alterBranch_append hpre htopic, List.flatMap_append, List.flatMap_cons,
        List.flatMap_append, List.flatMap_cons, hinside (h.branches (by rw [hsplit]; simp))]

/-- A `#` is the last level. -/
def HashLast : List CStr → Prop
  | [] => True
  | t :: path => (t = [hash] → path = []) ∧ HashLast path

/-- Adding brings no other client. -/
theorem id_of_mem_addLeaf {context : κ} {qos : ℕ} {subs : List (SubLeaf κ)} {leaf : SubLeaf κ}
    (h : leaf ∈ addLeaf id context qos subs) :
    id leaf.context = id context ∨ id leaf.context ∈ subs.map fun leaf => id leaf.context := by
  induction subs with
  | nil =>
    rw [List.mem_singleton.mp h]
    exact .inl rfl
  | cons first rest ih =>
    rw [addLeaf] at h
    split at h
    · rcases List.mem_cons.mp h with rfl | h
      · exact .inr List.mem_cons_self
      · exact .inr (List.mem_map_of_mem (List.mem_cons_of_mem first h))
    · rcases List.mem_cons.mp h with rfl | h
      · exact .inr List.mem_cons_self
      · exact (ih h).imp_right fun hmem => List.mem_cons_of_mem _ hmem

/-- A client that subscribes again is still there only once. -/
theorem good_addLeaf {context : κ} {qos : ℕ} {subs : List (SubLeaf κ)}
    (h : (subs.map fun leaf => id leaf.context).Nodup) :
    ((addLeaf id context qos subs).map fun leaf => id leaf.context).Nodup := by
  induction subs with
  | nil => exact List.nodup_singleton _
  | cons leaf rest ih =>
    rw [List.map_cons, List.nodup_cons] at h
    rw [addLeaf]
    split
    · exact List.nodup_cons.mpr h
    · rename_i hleaf
      rw [List.map_cons, List.nodup_cons]
      refine ⟨fun hmem => ?_, ih h.2⟩
      obtain ⟨leaf', hleaf', heq⟩ := List.mem_map.mp hmem
      rcases id_of_mem_addLeaf hleaf' with hnew | hold
      · exact hleaf (heq.symm.trans hnew)
      · exact h.1 (heq ▸ hold)

/-- Adding keeps the tree good. -/
theorem good_subAdd (context : Option κ) (qos : ℕ) (path : List CStr) (hpath : HashLast path) :
    ∀ {hier : SubHier κ}, hier.Good id → (hier.topic = [hash] → path = []) →
      (subAdd id context qos path hier).Good id := by
  induction path with
  | nil =>
    intro hier h _
    refine .intro h.nodup h.children_eq ?_ fun _ => h.branches
    cases context with
    | none => exact h.ids
    | some context => exact good_addLeaf h.ids
  | cons t path ih =>
    intro hier h htop
    have hf : ∀ {branch : SubHier κ}, branch.Good id → branch.topic = t →
        (subAdd id context qos path branch).Good id :=
      fun hbranch htopic => ih hpath.2 hbranch fun hhash => hpath.1 (htopic.symm.trans hhash)
    refine .intro ?_ (fun hhash => absurd (htop hhash) (List.cons_ne_nil _ _)) h.ids ?_
    · -- the topics of the children: at most one is new, and it is none of the others
      show ((alterBranch (subAdd id context qos path) t hier.children).map topic).Nodup
      rcases branch_cases h.nodup t with hnone | ⟨pre, branch, post, hsplit, htopic, hpre, hpost⟩
      · rw [alterBranch_of_forall_ne hnone, List.map_append, List.map_singleton, topic_subAdd]
        refine List.nodup_append.mpr ⟨h.nodup, List.nodup_singleton _, fun a ha b hb heq => ?_⟩
        obtain ⟨branch, hbranch, rfl⟩ := List.mem_map.mp ha
        exact hnone branch hbranch (heq.trans (List.mem_singleton.mp hb))
      · have hnodup := h.nodup
        rw [hsplit] at hnodup ⊢
        rw [alterBranch_append hpre htopic, List.map_append, List.map_cons, topic_subAdd,
          ← List.map_cons, ← List.map_append]
        exact hnodup
    · -- the children: all but the one for the token are as before
      show ∀ b ∈ alterBranch (subAdd id context qos path) t hier.children, b.Good id
      rcases branch_cases h.nodup t with hnone | ⟨pre, branch, post, hsplit, htopic, hpre, hpost⟩
      · rw [alterBranch_of_forall_ne hnone]
        intro b hb
        rcases List.mem_append.mp hb with hb | hb
        · exact h.branches hb
        · rw [List.mem_singleton.mp hb]
          exact hf (good_new t) rfl
      · rw [hsplit, alterBranch_append hpre htopic]
        intro b hb
        rcases List.mem_append.mp hb with hb | hb
        · exact h.branches (hsplit ▸ List.mem_append_left _ hb)
        · rcases List.mem_cons.mp hb with rfl | hb
          · exact hf (h.branches (by rw [hsplit]; simp)) htopic
          · exact h.branches (hsplit ▸ List.mem_append_right _ (List.mem_cons_of_mem _ hb))

/-! ### Removing -/

/-- The loop of `_sub_remove` does nothing when no child is for the topic. -/
theorem removeBranch_of_forall_ne {f : SubHier κ → SubHier κ} {t : CStr}
    {children : List (SubHier κ)} (h : ∀ b ∈ children, b.topic ≠ t) :
    removeBranch f t children = children := by
  induction children with
  | nil => rfl
  | cons b rest ih =>
    rw [removeBranch, if_neg (h b List.mem_cons_self),
      ih fun c hc => h c (List.mem_cons_of_mem b hc)]

/-- It frees the one that is, if nothing is left of it. -/
theorem removeBranch_append {f : SubHier κ → SubHier κ} {t : CStr} {pre post : List (SubHier κ)}
    {branch : SubHier κ} (hpre : ∀ b ∈ pre, b.topic ≠ t) (hbranch : branch.topic = t) :
    removeBranch f t (pre ++ branch :: post) =
      pre ++ ((if (f branch).isBare then [] else [f branch]) ++ post) := by
  induction pre with
  | nil =>
    rw [List.nil_append, removeBranch, if_pos hbranch, List.nil_append]
    split <;> rfl
  | cons b pre ih =>
    rw [List.cons_append, removeBranch, if_neg (hpre b List.mem_cons_self),
      ih fun c hc => hpre c (List.mem_cons_of_mem b hc), List.cons_append]

section Remove

variable [DecidableEq κ] {context : κ}

/-- The entry is not the one of this client at this path. -/
def isKept (context : κ) (path : List CStr) (e : SubEntry κ) : Bool :=
  decide ¬(e.1 = path ∧ e.2.context = context)

/-- Removing leaves the topic of a node. -/
theorem topic_subRemove (path : List CStr) (hier : SubHier κ) :
    (subRemove context path hier).topic = hier.topic := by
  cases path <;> rfl

/-- Entries at other paths are kept. -/
theorem filter_isKept_of_forall_ne {path : List CStr} {table : List (SubEntry κ)}
    (h : ∀ e ∈ table, e.1 ≠ path) : table.filter (isKept context path) = table :=
  List.filter_eq_self.mpr fun e he => decide_eq_true fun heq => h e he heq.1

/-- The loop over the subscriptions of a node removes the only one of a client. -/
theorem eraseP_eq_filter {subs : List (SubLeaf κ)}
    (h : (subs.map fun leaf => id leaf.context).Nodup) :
    subs.eraseP (fun leaf => leaf.context = context) =
      subs.filter fun leaf => decide ¬leaf.context = context := by
  induction subs with
  | nil => rfl
  | cons leaf rest ih =>
    rw [List.map_cons, List.nodup_cons] at h
    by_cases hleaf : leaf.context = context
    · have hrest : ∀ l ∈ rest, decide ¬l.context = context = true := by
        intro l hl
        refine decide_eq_true fun heq => h.1 ?_
        rw [hleaf, ← heq]
        exact List.mem_map_of_mem (f := fun leaf => id leaf.context) hl
      rw [List.eraseP_cons, decide_eq_true hleaf, cond_true,
        List.filter_cons_of_neg (by simpa using hleaf), List.filter_eq_self.mpr hrest]
    · rw [List.eraseP_cons, decide_eq_false hleaf, cond_false,
        List.filter_cons_of_pos (by simpa using hleaf), ih h.2]

/-- **Removing a subscription from a tree** removes it from the table. -/
theorem entries_subRemove (path : List CStr) : ∀ {hier : SubHier κ}, hier.Good id →
    (subRemove context path hier).entries = hier.entries.filter (isKept context path) := by
  induction path with
  | nil =>
    intro hier h
    have hinside : (hier.children.flatMap inside).filter (isKept context []) =
        hier.children.flatMap inside := by
      refine filter_isKept_of_forall_ne fun e he heq => ?_
      obtain ⟨b, -, heb⟩ := List.mem_flatMap.mp he
      obtain ⟨path, hpath⟩ := head_of_mem_inside heb
      exact List.cons_ne_nil _ _ (hpath.symm.trans heq)
    rw [entries_eq, entries_eq hier, List.filter_append, hinside, List.filter_map]
    show _ ++ (hier.subs.eraseP fun leaf => leaf.context = context).map _ = _
    rw [eraseP_eq_filter h.ids]
    refine congrArg (_ ++ ·) (congrArg (List.map _) (List.filter_congr fun leaf _ => ?_))
    rw [Function.comp_apply, isKept]
    simp
  | cons t path ih =>
    intro hier h
    -- the entries of the node itself are at another path
    have hown : (hier.subs.map fun leaf => (([] : List CStr), leaf)).filter
        (isKept context (t :: path)) = hier.subs.map fun leaf => ([], leaf) := by
      refine filter_isKept_of_forall_ne fun e he heq => ?_
      obtain ⟨leaf, -, rfl⟩ := List.mem_map.mp he
      cases heq
    -- and so are those below the other children
    have hother : ∀ {children : List (SubHier κ)}, (∀ b ∈ children, b.topic ≠ t) →
        (children.flatMap inside).filter (isKept context (t :: path)) =
          children.flatMap inside :=
      fun hne => filter_isKept_of_forall_ne fun e he => ne_of_mem_flatMap_inside hne he path
    -- the child for the token: when it is freed, it has no entry left
    have hbranch : ∀ {branch : SubHier κ}, branch.Good id → branch.topic = t →
        (if (subRemove context path branch).isBare then []
          else [subRemove context path branch]).flatMap inside =
            branch.inside.filter (isKept context (t :: path)) := by
      intro branch hgood htopic
      have hfilter : (subRemove context path branch).inside =
          branch.inside.filter (isKept context (t :: path)) := by
        rw [inside, inside, topic_subRemove, ih hgood, List.filter_map]
        refine congrArg (List.map _) (List.filter_congr fun e _ => ?_)
        rw [Function.comp_apply, isKept, isKept, SubEntry.under, htopic]
        simp
      rw [← hfilter]
      split
      · rename_i hbare
        rw [inside, entries_of_isBare hbare]
        rfl
      · exact List.flatMap_singleton _ _
    rw [entries_eq, entries_eq hier, List.filter_append, hown]
    show (removeBranch (subRemove context path) t hier.children).flatMap inside ++
      hier.subs.map _ = _
    refine congrArg (· ++ _) ?_
    rcases branch_cases h.nodup t with hnone | ⟨pre, branch, post, hsplit, htopic, hpre, hpost⟩
    · rw [removeBranch_of_forall_ne hnone, hother hnone]
    · have hgood : branch.Good id := h.branches (by rw [hsplit]; simp)
      rw [hsplit, removeBranch_append hpre htopic, List.flatMap_append, List.flatMap_append,
        hbranch hgood htopic, List.flatMap_append, List.flatMap_cons, List.filter_append,
        List.filter_append, hother hpre, hother hpost]

/-- Removing keeps the tree good. -/
theorem good_subRemove (path : List CStr) : ∀ {hier : SubHier κ}, hier.Good id →
    (subRemove context path hier).Good id := by
  induction path with
  | nil =>
    intro hier h
    exact .intro h.nodup h.children_eq (h.ids.sublist (List.eraseP_sublist.map _))
      fun _ => h.branches
  | cons t path ih =>
    intro hier h
    -- the children that are left are those from before, but for the one for the token
    have hmem : ∀ b ∈ removeBranch (subRemove context path) t hier.children,
        b ∈ hier.children ∨ ∃ branch ∈ hier.children, b = subRemove context path branch := by
      rcases branch_cases h.nodup t with hnone | ⟨pre, branch, post, hsplit, htopic, hpre, -⟩
      · rw [removeBranch_of_forall_ne hnone]
        exact fun b hb => .inl hb
      · rw [hsplit, removeBranch_append hpre htopic]
        intro b hb
        rcases List.mem_append.mp hb with hb | hb
        · exact .inl (List.mem_append_left _ hb)
        · rcases List.mem_append.mp hb with hb | hb
          · refine .inr ⟨branch, List.mem_append_right _ List.mem_cons_self, ?_⟩
            split at hb
            · cases hb
            · exact List.mem_singleton.mp hb
          · exact .inl (List.mem_append_right _ (List.mem_cons_of_mem _ hb))
    have htopics : ((removeBranch (subRemove context path) t hier.children).map topic).Sublist
        (hier.children.map topic) := by
      rcases branch_cases h.nodup t with hnone | ⟨pre, branch, post, hsplit, htopic, hpre, -⟩
      · rw [removeBranch_of_forall_ne hnone]
      · rw [hsplit, removeBranch_append hpre htopic, List.map_append, List.map_append,
          List.map_append, List.map_cons]
        refine List.Sublist.append_left ?_ _
        split
        · exact List.sublist_cons_self _ _
        · rw [List.map_singleton, topic_subRemove]
          exact List.Sublist.refl _
    refine .intro (h.nodup.sublist htopics) (fun hhash => ?_) h.ids fun b hb => ?_
    · show removeBranch (subRemove context path) t hier.children = []
      rw [h.children_eq hhash]
      rfl
    · rcases hmem b hb with hb | ⟨branch, hbranch, rfl⟩
      · exact h.branches hb
      · exact ih (h.branches hbranch)

/-- The mutual recursion is a loop that cleans the children and frees those of which nothing is
left. -/
theorem subsCleanChildren_eq (children : List (SubHier κ)) :
    subsCleanChildren context children =
      (children.map (subsCleanSession context)).filter fun child => !child.isBare := by
  induction children with
  | nil => rfl
  | cons child rest ih =>
    rw [subsCleanChildren, List.map_cons]
    cases hbare : (subsCleanSession context child).isBare with
    | true => rw [if_pos rfl, List.filter_cons_of_neg (by simp [hbare]), ih]
    | false => rw [if_neg (by simp), List.filter_cons_of_pos (by simp [hbare]), ih]

/-- A node after the cleaning. -/
theorem subsCleanSession_eq (hier : SubHier κ) :
    subsCleanSession context hier =
      ⟨hier.topic, hier.subs.filter fun leaf => leaf.context ≠ context, hier.retained,
        (hier.children.map (subsCleanSession context)).filter fun child => !child.isBare⟩ := by
  obtain ⟨topic, subs, retained, children⟩ := hier
  rw [subsCleanSession, subsCleanChildren_eq]

/-- Cleaning leaves the topic of a node. -/
theorem topic_subsCleanSession (hier : SubHier κ) :
    (subsCleanSession context hier).topic = hier.topic := by
  rw [subsCleanSession_eq]

/-- **When a client is gone** its subscriptions are, and no others. -/
theorem entries_clean (hier : SubHier κ) :
    (subsCleanSession context hier).entries =
      hier.entries.filter fun e => e.2.context ≠ context := by
  induction hier using SubHier.induction with
  | h hier ih =>
    -- freeing bare nodes takes no entry with it
    have hbare : ∀ children : List (SubHier κ),
        (children.filter fun child => !child.isBare).flatMap inside = children.flatMap inside := by
      intro children
      induction children with
      | nil => rfl
      | cons child rest ih =>
        rw [List.flatMap_cons, ← ih]
        cases hchild : child.isBare with
        | true =>
          rw [List.filter_cons_of_neg (by simp [hchild]), inside, entries_of_isBare hchild]
          rfl
        | false => rw [List.filter_cons_of_pos (by simp [hchild]), List.flatMap_cons]
    have hinside : ∀ child ∈ hier.children, (subsCleanSession context child).inside =
        child.inside.filter fun e => e.2.context ≠ context := by
      intro child hchild
      rw [inside, inside, topic_subsCleanSession, ih child hchild, List.filter_map]
      rfl
    rw [subsCleanSession_eq, entries_eq, entries_eq hier]
    show ((hier.children.map (subsCleanSession context)).filter _).flatMap inside ++ _ = _
    rw [hbare, List.filter_append, List.filter_flatMap, List.flatMap_map]
    refine congrArg₂ (· ++ ·) (List.flatMap_congr fun child hchild => hinside child hchild) ?_
    show (hier.subs.filter _).map _ = _
    rw [List.filter_map]
    rfl

/-- Cleaning keeps the tree good. -/
theorem good_clean {hier : SubHier κ} (h : hier.Good id) :
    (subsCleanSession context hier).Good id := by
  induction h with
  | @intro hier nodup hash ids branches ih =>
    rw [subsCleanSession_eq]
    refine .intro ?_ (fun hhash => ?_) (ids.sublist (List.filter_sublist.map _)) fun b hb => ?_
    · show (((hier.children.map (subsCleanSession context)).filter _).map topic).Nodup
      refine List.Nodup.sublist (List.filter_sublist.map _) ?_
      rw [List.map_map]
      have htopics : (topic ∘ subsCleanSession context) = (topic : SubHier κ → CStr) :=
        funext fun child => topic_subsCleanSession child
      rw [htopics]
      exact nodup
    · show (hier.children.map _).filter _ = []
      rw [hash hhash]
      rfl
    · obtain ⟨child, hchild, rfl⟩ := List.mem_map.mp (List.mem_filter.mp hb).1
      exact ih child hchild

end Remove

/-! ### Searching -/

section Search

variable {config : SubsConfig κ} {m : Publication}

/-- Deliveries are made one subscription at a time. -/
theorem deliverLeaves_append (config : SubsConfig κ) (m : Publication)
    (subs subs' : List (SubLeaf κ)) :
    deliverLeaves config m (subs ++ subs') =
      deliverLeaves config m subs ++ deliverLeaves config m subs' := by
  rw [deliverLeaves, deliverLeaves, deliverLeaves]
  split
  · rfl
  · exact List.filterMap_append

/-- The deliveries for a table. -/
def deliverTable (config : SubsConfig κ) (m : Publication) (table : List (SubEntry κ)) :
    List (Delivery κ) :=
  deliverLeaves config m (table.map Prod.snd)

/-- Deliveries to two tables, one after the other. -/
theorem deliverTable_append (table table' : List (SubEntry κ)) :
    deliverTable config m (table ++ table') =
      deliverTable config m table ++ deliverTable config m table' := by
  rw [deliverTable, List.map_append, deliverLeaves_append]
  rfl

/-- There is nobody to deliver to. -/
theorem deliverTable_nil : deliverTable config m [] = [] := by
  rw [deliverTable, List.map_nil, deliverLeaves]
  split <;> rfl

/-- The same for any number of tables. -/
theorem deliverTable_flatMap {α : Type} (l : List α) (f : α → List (SubEntry κ)) :
    deliverTable config m (l.flatMap f) = l.flatMap fun a => deliverTable config m (f a) := by
  induction l with
  | nil => exact deliverTable_nil
  | cons a l ih => rw [List.flatMap_cons, List.flatMap_cons, deliverTable_append, ih]

/-- In another order the same deliveries are made, in another order. -/
theorem deliverTable_perm {table table' : List (SubEntry κ)} (h : table.Perm table') :
    (deliverTable config m table).Perm (deliverTable config m table') := by
  rw [deliverTable, deliverTable, deliverLeaves, deliverLeaves]
  split
  · exact List.Perm.refl _
  · exact (h.map _).filterMap _

/-- Deliveries do not depend on the paths. -/
theorem deliverTable_map {f : SubEntry κ → SubEntry κ} (hf : ∀ e, (f e).2 = e.2)
    (table : List (SubEntry κ)) :
    deliverTable config m (table.map f) = deliverTable config m table := by
  rw [deliverTable, deliverTable, List.map_map]
  exact congrArg _ (List.map_congr_left fun e _ => hf e)

/-- The entries that a topic goes to. -/
def matching (tokens : List CStr) (table : List (SubEntry κ)) : List (SubEntry κ) :=
  table.filter fun e => levelsMatch e.1 tokens

/-- Matching looks at one entry at a time. -/
theorem matching_append (tokens : List CStr) (table table' : List (SubEntry κ)) :
    matching tokens (table ++ table') = matching tokens table ++ matching tokens table' :=
  List.filter_append _ _

/-- What the subscriptions at a node come to. -/
theorem matching_own (tokens : List CStr) (subs : List (SubLeaf κ)) :
    deliverTable config m (matching tokens (subs.map fun leaf => ([], leaf))) =
      if tokens = [] then deliverLeaves config m subs else [] := by
  cases tokens with
  | nil =>
    have hall : matching [] (subs.map fun leaf => (([] : List CStr), leaf)) =
        subs.map fun leaf => ([], leaf) := by
      refine List.filter_eq_self.mpr fun e he => ?_
      obtain ⟨leaf, -, rfl⟩ := List.mem_map.mp he
      rfl
    rw [hall, if_pos rfl, deliverTable, List.map_map]
    exact congrArg _ (List.map_id subs)
  | cons t tokens =>
    have hnone : matching (t :: tokens) (subs.map fun leaf => (([] : List CStr), leaf)) = [] := by
      refine List.filter_eq_nil_iff.mpr fun e he => ?_
      obtain ⟨leaf, -, rfl⟩ := List.mem_map.mp he
      simp [levelsMatch]
    rw [hnone, if_neg (List.cons_ne_nil _ _), deliverTable_nil]

/-- A branch that matches the first level passes the others on. -/
theorem matching_inside {branch : SubHier κ} {t : CStr} (tokens : List CStr)
    (hhash : branch.topic ≠ [hash]) (h : branch.topic = t ∨ branch.topic = [plus]) :
    deliverTable config m (matching (t :: tokens) branch.inside) =
      deliverTable config m (matching tokens (branch.children.flatMap inside)) ++
        if tokens = [] then deliverLeaves config m branch.subs else [] := by
  have hfilter : matching (t :: tokens) branch.inside =
      (matching tokens branch.entries).map (SubEntry.under branch.topic) := by
    rw [matching, inside, List.filter_map, matching]
    refine congrArg (List.map _) (List.filter_congr fun e _ => ?_)
    have hmatch : (decide (branch.topic = [plus]) || decide (branch.topic = t)) = true := by
      rcases h with h | h <;> simp [h]
    rw [Function.comp_apply, SubEntry.under, levelsMatch, if_neg hhash, hmatch, Bool.true_and]
  rw [hfilter, deliverTable_map (f := SubEntry.under branch.topic) fun _ => rfl, entries_eq,
    matching_append, deliverTable_append, matching_own]

/-- A branch for another level. -/
theorem matching_inside_of_ne {branch : SubHier κ} {tokens : List CStr}
    (hhash : branch.topic ≠ [hash]) (hplus : branch.topic ≠ [plus])
    (h : tokens.head? ≠ some branch.topic) : matching tokens branch.inside = [] := by
  refine List.filter_eq_nil_iff.mpr fun e he => ?_
  obtain ⟨path, hpath⟩ := head_of_mem_inside he
  rw [hpath]
  cases tokens with
  | nil => simp [levelsMatch, hhash]
  | cons t tokens =>
    have hne : branch.topic ≠ t := fun heq => h (by rw [heq]; rfl)
    simp [levelsMatch, hhash, hplus, hne]

/-- A `#` matches whatever is left. -/
theorem matching_inside_hash {branch : SubHier κ} (tokens : List CStr)
    (hhash : branch.topic = [hash]) (hchildren : branch.children = []) :
    deliverTable config m (matching tokens branch.inside) = deliverLeaves config m branch.subs := by
  have hinside : branch.inside = branch.subs.map fun leaf => ([[hash]], leaf) := by
    rw [inside, entries_eq, hchildren, hhash, List.flatMap_nil, List.nil_append, List.map_map]
    rfl
  have hall : matching tokens branch.inside = branch.inside := by
    rw [hinside]
    refine List.filter_eq_self.mpr fun e he => ?_
    obtain ⟨leaf, -, rfl⟩ := List.mem_map.mp he
    exact levelsMatch_hash tokens
  rw [hall, hinside, deliverTable, List.map_map]
  exact congrArg _ (List.map_id branch.subs)

/-- In a good tree, a `#` has no children, so the test for them is idle. -/
theorem isHash_eq {id : κ → CStr} {branch : SubHier κ} (h : branch.Good id) :
    branch.isHash = decide (branch.topic = [hash]) := by
  rw [isHash]
  by_cases hhash : branch.topic = [hash]
  · rw [h.children_eq hhash]
    simp [hhash]
  · simp [hhash]

/-- The search leaves the subscriptions of the node. -/
theorem subs_subSearch (tokens : List CStr) (setRetain : Bool) (hier : SubHier κ) :
    (subSearch config m tokens setRetain hier).2.subs = hier.subs := by
  cases tokens <;> rfl

/-- **Searching the tree** finds the entries that match. -/
theorem subSearch_fst {id : κ → CStr} (tokens : List CStr)
    (hplain : ∀ t ∈ tokens, t ≠ [plus] ∧ t ≠ [hash]) : ∀ {setRetain : Bool} {hier : SubHier κ},
    hier.Good id → (subSearch config m tokens setRetain hier).1 =
      deliverTable config m (matching tokens (hier.children.flatMap inside)) := by
  induction tokens with
  | nil =>
    intro setRetain hier h
    rw [matching, List.filter_flatMap, deliverTable_flatMap]
    refine List.flatMap_congr fun branch hbranch => ?_
    dsimp only
    -- the topic ends at this node: only a `#` below it matches, with no level at all
    have hgood := h.branches hbranch
    by_cases hhash : branch.topic = [hash]
    · rw [isHash_eq hgood, decide_eq_true hhash, if_pos rfl]
      exact (matching_inside_hash [] hhash (hgood.children_eq hhash)).symm
    · have hnone : branch.inside.filter (fun e => levelsMatch e.1 []) = [] := by
        refine List.filter_eq_nil_iff.mpr fun e he => ?_
        obtain ⟨path, hpath⟩ := head_of_mem_inside he
        rw [hpath]
        simp [levelsMatch, hhash]
      rw [isHash_eq hgood, decide_eq_false hhash, if_neg (by simp), hnone, deliverTable_nil]
  | cons t tokens ih =>
    intro setRetain hier h
    obtain ⟨htplus, hthash⟩ := hplain t List.mem_cons_self
    rw [matching, List.filter_flatMap, deliverTable_flatMap]
    refine List.flatMap_congr fun branch hbranch => ?_
    dsimp only
    have hgood := h.branches hbranch
    -- a child that matches the token, a `#`, or none of both
    by_cases hmatch : branch.topic = t ∨ branch.topic = [plus]
    · have hhash : branch.topic ≠ [hash] := by
        rintro heq
        rcases hmatch with hmatch | hmatch
        · exact hthash (hmatch.symm.trans heq)
        · rw [hmatch] at heq
          exact absurd heq (by decide)
      have hinside : deliverTable config m (branch.inside.filter fun e =>
          levelsMatch e.1 (t :: tokens)) = _ := matching_inside tokens hhash hmatch
      have hrest : ∀ sr : Bool, (subSearch config m tokens sr branch).1 = _ := fun _ =>
        ih (fun t ht => hplain t (List.mem_cons_of_mem _ ht)) hgood
      rw [if_pos hmatch, hinside]
      -- below the last token, `_sub_search` processes the child itself as well
      by_cases hnil : tokens = []
      · rw [if_pos hnil, if_pos hnil, hrest, subsProcess, subs_subSearch]
      · rw [if_neg hnil, if_neg hnil, hrest, List.append_nil]
    · rw [if_neg hmatch, isHash_eq hgood]
      rw [not_or] at hmatch
      by_cases hhash : branch.topic = [hash]
      · rw [decide_eq_true hhash, if_pos rfl]
        exact (matching_inside_hash _ hhash (hgood.children_eq hhash)).symm
      · have hnone : branch.inside.filter (fun e => levelsMatch e.1 (t :: tokens)) = [] :=
          matching_inside_of_ne hhash hmatch.2 fun heq => hmatch.1 (Option.some.inj heq).symm
        rw [decide_eq_false hhash, if_neg (by simp), hnone, deliverTable_nil]

/-- Two nodes with one table. Retained messages may differ, and nodes without subscriptions. -/
structure Alike (id : κ → CStr) (hier hier' : SubHier κ) : Prop where
  topic_eq : hier'.topic = hier.topic
  entries_eq : hier'.entries = hier.entries
  good : hier.Good id → hier'.Good id

/-- Nothing has changed. -/
theorem Alike.refl (id : κ → CStr) (hier : SubHier κ) : Alike id hier hier := ⟨rfl, rfl, fun h => h⟩

/-- One change after the other. -/
theorem Alike.trans {id : κ → CStr} {a b c : SubHier κ} (hab : Alike id a b) (hbc : Alike id b c) :
    Alike id a c :=
  ⟨hbc.topic_eq.trans hab.topic_eq, hbc.entries_eq.trans hab.entries_eq,
    fun h => hbc.good (hab.good h)⟩

/-- The node above sees no difference. -/
theorem Alike.inside_eq {id : κ → CStr} {hier hier' : SubHier κ} (h : Alike id hier hier') :
    hier'.inside = hier.inside := by
  rw [inside, inside, h.topic_eq, h.entries_eq]

/-- A loop over the children changes nothing if it changes nothing in any of them. -/
theorem alike_forChildren {id : κ → CStr} {f : SubHier κ → List (Delivery κ) × SubHier κ}
    {hier : SubHier κ} (h : ∀ branch ∈ hier.children, Alike id branch (f branch).2) :
    Alike id hier (hier.forChildren f).2 := by
  refine ⟨rfl, ?_, fun hgood => .intro ?_ (fun hhash => ?_) hgood.ids fun b hb => ?_⟩
  · rw [SubHier.entries_eq, SubHier.entries_eq hier]
    show (hier.children.map fun branch => (f branch).2).flatMap inside ++ _ = _
    rw [List.flatMap_map]
    exact congrArg (· ++ _) (List.flatMap_congr fun branch hmem => (h branch hmem).inside_eq)
  · show ((hier.children.map fun branch => (f branch).2).map topic).Nodup
    rw [List.map_map]
    have htopics : hier.children.map (topic ∘ fun branch => (f branch).2) =
        hier.children.map topic :=
      List.map_congr_left fun branch hmem => (h branch hmem).topic_eq
    rw [htopics]
    exact hgood.nodup
  · show hier.children.map _ = []
    rw [hgood.children_eq hhash]
    rfl
  · obtain ⟨branch, hmem, rfl⟩ := List.mem_map.mp hb
    exact (h branch hmem).good (hgood.branches hmem)

/-- `_subs_process` changes the retained message only. -/
theorem alike_subsProcess (config : SubsConfig κ) (m : Publication) (id : κ → CStr)
    (setRetain : Bool) (hier : SubHier κ) :
    Alike id hier (subsProcess config m setRetain hier).2 := by
  refine ⟨rfl, ?_, fun h => .intro h.nodup h.children_eq h.ids fun _ => h.branches⟩
  rw [SubHier.entries_eq, SubHier.entries_eq hier]
  rfl

/-- **A message changes no subscription.** -/
theorem alike_subSearch (id : κ → CStr) (tokens : List CStr) : ∀ (setRetain : Bool)
    (hier : SubHier κ), Alike id hier (subSearch config m tokens setRetain hier).2 := by
  induction tokens with
  | nil =>
    intro setRetain hier
    refine alike_forChildren fun branch _ => ?_
    split
    · exact alike_subsProcess config m id false branch
    · exact Alike.refl id branch
  | cons t tokens ih =>
    intro setRetain hier
    refine alike_forChildren fun branch _ => ?_
    dsimp only
    split
    · split
      · exact (ih _ branch).trans (alike_subsProcess config m id _ _)
      · exact ih _ branch
    · split
      · exact alike_subsProcess config m id false branch
      · exact Alike.refl id branch

/-- The nodes for a retained message change no subscription. -/
theorem alike_subAdd_none {id : κ → CStr} {qos : ℕ} {path : List CStr} {hier : SubHier κ}
    (h : hier.Good id) (hpath : HashLast path) (htop : hier.topic = [hash] → path = []) :
    Alike id hier (subAdd id none qos path hier) :=
  ⟨topic_subAdd none qos path hier, entries_subAdd_none qos path h,
    fun _ => good_subAdd none qos path hpath h htop⟩

end Search

end SubHier

end Psn

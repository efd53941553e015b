import Mathlib.Data.List.Nodup
import Psn.Lib.Handles

/-!
# Doubly linked lists of nodes

An intrusive list has no cells of its own. Its nodes carry the links, and a list is a way in
which the links of some nodes hang together. The store keeps the links of each live node; a node
that was freed has none, and to follow a link to it is an error.

`Segment` says that nodes stand in a row, with the links that lead in and out. A list is a
segment that nothing leads into or out of. Segments split where lists of nodes do, and whoever
changes a link has to look at one end of one segment.

## Main definitions

* `Links`, `Links.Segment`, `Links.Chain`: the links of a node, and of nodes in a row
* `Links.linkNext`, `Links.linkPrev`: write one link, unless there is no node to write to

## Main results

* `segment_append`: a row of nodes splits into two
* `nodup_of_chain`: a list does not meet itself
* `exists_unlink`, `exists_linkLast`: the writes that take a node out of a list and put one at its
  end, and what they leave alone
-/

/-- The links of a node. -/
structure Links (ν : Type*) where
  /-- The node before it. -/
  prev : Option ν
  /-- The node behind it. -/
  next : Option ν
deriving DecidableEq

namespace Links

variable {ν : Type*}

/-- The nodes stand in a row, with `p` before the first and `q` behind the last. -/
def Segment (s : Handles ν (Links ν)) : (p : Option ν) → (nodes : List ν) → (q : Option ν) → Prop
  | _, [], _ => True
  | p, n :: nodes, q => s n = some ⟨p, nodes.head?.or q⟩ ∧ Segment s (some n) nodes q

/-- The nodes are those of a list. -/
def Chain (s : Handles ν (Links ν)) (nodes : List ν) : Prop := Segment s none nodes none

section Segments

variable {s t : Handles ν (Links ν)} {p q : Option ν} {n : ν} {nodes as bs : List ν}

theorem segment_append :
    Segment s p (as ++ bs) q ↔
      Segment s p as (bs.head?.or q) ∧ Segment s (as.getLast?.or p) bs q := by
  induction as generalizing p with
  | nil => simp [Segment]
  | cons a as ih =>
    have hhead : (as ++ bs).head?.or q = as.head?.or (bs.head?.or q) := by
      rw [List.head?_append, Option.or_assoc]
    have hlast : (a :: as).getLast?.or p = as.getLast?.or (some a) := by
      cases as with
      | nil => rfl
      | cons b as =>
        rw [List.getLast?_cons_cons, List.getLast?_cons, Option.some_or, Option.some_or]
    rw [List.cons_append, Segment, Segment, ih, hhead, hlast, and_assoc]

/-- A segment depends on the links of its nodes only. -/
theorem Segment.congr (h : Segment s p nodes q) (hst : ∀ n ∈ nodes, t n = s n) :
    Segment t p nodes q := by
  induction nodes generalizing p with
  | nil => trivial
  | cons n nodes ih =>
    refine ⟨?_, ih h.2 fun m hm => hst m (List.mem_cons_of_mem n hm)⟩
    rw [hst n List.mem_cons_self, h.1]

theorem Segment.isSome (h : Segment s p nodes q) (hn : n ∈ nodes) : (s n).isSome := by
  obtain ⟨as, bs, rfl⟩ := List.append_of_mem hn
  obtain ⟨-, hlinks, -⟩ := segment_append.mp h
  rw [hlinks]
  rfl

/-- Two segments to the end of a list that start at one node are the same. -/
theorem Segment.unique {p' : Option ν} (ha : Segment s p as none) (hb : Segment s p' bs none)
    (hhead : as.head? = bs.head?) : as = bs := by
  induction as generalizing bs p p' with
  | nil =>
    cases bs with
    | nil => rfl
    | cons b bs => cases hhead
  | cons a as ih =>
    cases bs with
    | nil => cases hhead
    | cons b bs =>
      obtain rfl : a = b := Option.some_inj.mp hhead
      have hlinks := Option.some_inj.mp (ha.1.symm.trans hb.1)
      rw [Links.mk.injEq, Option.or_none, Option.or_none] at hlinks
      rw [ih ha.2 hb.2 hlinks.2]

/-- A list does not come back to a node that it has left. -/
theorem nodup_of_segment (h : Segment s p nodes none) : nodes.Nodup := by
  induction nodes generalizing p with
  | nil => exact List.nodup_nil
  | cons n nodes ih =>
    refine List.nodup_cons.mpr ⟨fun hmem => ?_, ih h.2⟩
    obtain ⟨as, bs, rfl⟩ := List.append_of_mem hmem
    have hback : Segment s (as.getLast?.or (some n)) (n :: bs) none := (segment_append.mp h.2).2
    have hsame : n :: (as ++ n :: bs) = n :: bs := h.unique hback rfl
    have hlen := congrArg List.length hsame
    rw [List.length_cons, List.length_append, List.length_cons] at hlen
    omega

theorem nodup_of_chain (h : Chain s nodes) : nodes.Nodup := nodup_of_segment h

/-- What a node of a list is linked to. -/
theorem Chain.links (h : Chain s (as ++ n :: bs)) : s n = some ⟨as.getLast?, bs.head?⟩ := by
  obtain ⟨-, hn, -⟩ := segment_append.mp h
  rw [hn, Option.or_none, Option.or_none]

end Segments

/-! ### Writing links -/

section Operations

variable [DecidableEq ν]

/-- `p->next = q`, unless `p` is null. -/
def linkNext (s : Handles ν (Links ν)) (p q : Option ν) : Option (Handles ν (Links ν)) :=
  p.elim (some s) fun p => s.modify p fun l => { l with next := q }

/-- `q->prev = p`, unless `q` is null. -/
def linkPrev (s : Handles ν (Links ν)) (q p : Option ν) : Option (Handles ν (Links ν)) :=
  q.elim (some s) fun q => s.modify q fun l => { l with prev := p }

variable {s t : Handles ν (Links ν)} {p q : Option ν} {n : ν} {nodes pre post : List ν}

/-- What is written elsewhere, or freed there, leaves a segment as it is. -/
theorem Segment.update (h : Segment s p nodes q) (hn : n ∉ nodes) (l : Option (Links ν)) :
    Segment (Function.update s n l) p nodes q := by
  refine h.congr ?_
  intro m hm
  have hne : m ≠ n := by
    rintro rfl
    exact hn hm
  exact Function.update_of_ne hne _ _

/-- A write changes the links of one node at most. -/
theorem linkNext_of_ne (h : linkNext s p q = some t) (hn : p ≠ some n) : t n = s n := by
  cases p with
  | none => rw [← Option.some_inj.mp h]
  | some m =>
    obtain ⟨l, -, rfl⟩ := Handles.modify_eq_some.mp h
    exact Function.update_of_ne (fun hnm => hn (by rw [hnm])) _ _

/-- Writing the link that leads out of a segment changes no other. -/
theorem exists_linkNext (h : Segment s p nodes q) (hnodup : nodes.Nodup) (q' : Option ν) :
    ∃ t, linkNext s nodes.getLast? q' = some t ∧ Segment t p nodes q' ∧
      ∀ m ∉ nodes, t m = s m := by
  rcases List.eq_nil_or_concat nodes with rfl | ⟨as, a, rfl⟩
  · exact ⟨s, rfl, trivial, fun _ _ => rfl⟩
  · rw [List.concat_eq_append] at h hnodup ⊢
    obtain ⟨has, ha, -⟩ := segment_append.mp h
    have hlast : a ∉ as := by
      intro hmem
      exact List.disjoint_of_nodup_append hnodup hmem (List.mem_singleton_self a)
    refine ⟨Function.update s a (some ⟨as.getLast?.or p, q'⟩), ?_, ?_, ?_⟩
    · rw [List.getLast?_concat]
      exact Handles.modify_eq_some.mpr ⟨_, ha, rfl⟩
    · refine segment_append.mpr ⟨?_, ?_, trivial⟩
      · exact has.update hlast _
      · rw [Function.update_self]
        rfl
    · intro m hm
      exact Function.update_of_ne (fun hma => hm (by simp [hma])) _ _

/-- Writing the link that leads back from a segment changes no other. -/
theorem exists_linkPrev (h : Segment s p nodes q) (hnodup : nodes.Nodup) (p' : Option ν) :
    ∃ t, linkPrev s nodes.head? p' = some t ∧ Segment t p' nodes q ∧
      ∀ m ∉ nodes, t m = s m := by
  cases nodes with
  | nil => exact ⟨s, rfl, trivial, fun _ _ => rfl⟩
  | cons b bs =>
    refine ⟨Function.update s b (some ⟨p', bs.head?.or q⟩), ?_, ⟨?_, ?_⟩, ?_⟩
    · exact Handles.modify_eq_some.mpr ⟨_, h.1, rfl⟩
    · rw [Function.update_self]
    · exact h.2.update (List.nodup_cons.mp hnodup).1 _
    · intro m hm
      exact Function.update_of_ne (fun hmb => hm (by simp [hmb])) _ _

/-- **Unlinking.** Two writes take a node out of a list. Its own links stay, and so do those of
the nodes outside the list. -/
theorem exists_unlink (h : Chain s (pre ++ n :: post)) :
    ∃ s' t, linkNext s pre.getLast? post.head? = some s' ∧ s' n = s n ∧
      linkPrev s' post.head? pre.getLast? = some t ∧ Chain t (pre ++ post) ∧
      ∀ m ∉ pre ++ post, t m = s m := by
  obtain ⟨hpre, -, hpost⟩ := segment_append.mp h
  obtain ⟨hnodup, ⟨hn, hnodup'⟩, hdisj⟩ : pre.Nodup ∧ (n ∉ post ∧ post.Nodup) ∧
      List.Disjoint pre (n :: post) := by
    simpa only [List.nodup_append', List.nodup_cons] using nodup_of_chain h
  obtain ⟨s', hnext, hpre', hframe⟩ := exists_linkNext hpre hnodup post.head?
  have hn' : n ∉ pre := fun hmem => hdisj hmem List.mem_cons_self
  have hpost' : Segment s' (some n) post none := by
    refine hpost.congr ?_
    intro m hm
    exact hframe m fun hmem => hdisj hmem (List.mem_cons_of_mem n hm)
  obtain ⟨t, hprev, hpost'', hframe'⟩ := exists_linkPrev hpost' hnodup' pre.getLast?
  refine ⟨s', t, hnext, hframe n hn', hprev, segment_append.mpr ⟨?_, ?_⟩, ?_⟩
  · rw [Option.or_none]
    refine hpre'.congr ?_
    intro m hm
    exact hframe' m fun hmem => hdisj hm (List.mem_cons_of_mem n hmem)
  · rwa [Option.or_none]
  · intro m hm
    obtain ⟨hm, hm'⟩ := not_or.mp fun hmem => hm (List.mem_append.mpr hmem)
    rw [hframe' m hm', hframe m hm]

/-- **Linking.** Three writes put a live node behind the last one of a list. The other nodes
outside the list stay as they are. -/
theorem exists_linkLast (h : Chain s nodes) (hn : n ∉ nodes) (hlive : (s n).isSome) :
    ∃ s₁ s₂ t, linkNext s (some n) none = some s₁ ∧
      linkNext s₁ nodes.getLast? (some n) = some s₂ ∧
      linkPrev s₂ (some n) nodes.getLast? = some t ∧ Chain t (nodes ++ [n]) ∧
      ∀ m ∉ nodes, m ≠ n → t m = s m := by
  obtain ⟨l, hl⟩ := Option.isSome_iff_exists.mp hlive
  have hnodes := Segment.update h hn (some ⟨l.prev, none⟩)
  obtain ⟨s₂, hnext, hnodes', hframe⟩ := exists_linkNext hnodes (nodup_of_chain h) (some n)
  have hn' : s₂ n = some ⟨l.prev, none⟩ := by rw [hframe n hn, Function.update_self]
  refine ⟨_, s₂, Function.update s₂ n (some ⟨nodes.getLast?, none⟩),
    Handles.modify_eq_some.mpr ⟨l, hl, rfl⟩, hnext, Handles.modify_eq_some.mpr ⟨_, hn', rfl⟩,
    segment_append.mpr ⟨?_, ?_, trivial⟩, ?_⟩
  · exact hnodes'.update hn _
  · rw [Function.update_self, Option.or_none]
    rfl
  · intro m hm hmn
    rw [Function.update_of_ne hmn, hframe m hm, Function.update_of_ne hmn]

end Operations

end Links

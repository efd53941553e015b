import Psn.Lib.Links
import Psn.Session

/-!
# The lists of users as linked records

`KeyedChain` is what the functions of `psn.c` need of uthash. `psn_free` needs more: it walks a
list while it takes the list apart, so here the lists are what they are in memory. Each record
carries the links `hh.prev` and `hh.next`, a list is the pointer to its first record, and a table
that every record points to remembers the last one. A record that was freed has no links, and to
read them is an error. Buckets are left out, since the loops of `psn_free` do not follow them.

The macros of uthash keep the lists linked, and taking the first record off a list and freeing it
leaves the list of the others. But the header of each loop advances with `s = s->hh.next` after
the body has freed `s`. So `psn_free` is defined for empty lists only. `HASH_ITER`, which is made
for this purpose and is what `_unpwd_cleanup` of the vendored broker uses, reads the link
first.

## Main results

* `exists_hashAdd`, `exists_hashDelete`: what the macros do to a list
* `tearsDown_iff`: `psn_free` takes the lists apart if there is nothing in them
* `psnFree_isSome_iff`: the model of `psn_free` over tables agrees
* `unpwdCleanup_tornDown`: the loop with `HASH_ITER` takes all lists apart
-/

namespace Psn

open Links KeyedChain

variable {ν : Type*} [DecidableEq ν]

/-! ### uthash -/

/-- A list of users: the pointer to the first record, and `tail` of its table. -/
structure HashList (ν : Type*) where
  /-- The head pointer. -/
  head : Option ν
  /-- `tbl->tail`. -/
  tail : Option ν

/-- `(head)->hh.tbl->tail`. The table is found through the first record. -/
def tblTail (mem : Handles ν (Links ν)) (l : HashList ν) : Option (Option ν) := do
  let head ← l.head
  let _ ← mem head
  return l.tail

/-- `HASH_ADD_KEYPTR`, as far as it writes links. -/
def hashAdd (mem : Handles ν (Links ν)) (l : HashList ν) (add : ν) :
    Option (Handles ν (Links ν) × HashList ν) := do
  let mem ← linkNext mem (some add) none
  if l.head.isNone then
    let mem ← linkPrev mem (some add) none
    -- `HASH_MAKE_TABLE`
    return (mem, ⟨some add, some add⟩)
  else
    let tail ← tblTail mem l
    let last ← tail
    let mem ← linkNext mem (some last) (some add)
    let mem ← linkPrev mem (some add) (some last)
    return (mem, { l with tail := some add })

/-- `HASH_DELETE`, as far as it follows links and writes them. -/
def hashDelete (mem : Handles ν (Links ν)) (l : HashList ν) (delptr : ν) :
    Option (Handles ν (Links ν) × HashList ν) := do
  let hh ← mem delptr
  let tail ← tblTail mem l
  if hh.prev.isNone ∧ hh.next.isNone then
    -- the table goes with its last record
    return (mem, ⟨none, none⟩)
  else
    let tail := if tail = some delptr then hh.prev else tail
    let mem ← linkNext mem hh.prev hh.next
    let head := if hh.prev.isNone then hh.next else l.head
    let hh ← mem delptr
    let mem ← linkPrev mem hh.next hh.prev
    -- the buckets are reached through the new head
    let _ ← tblTail mem ⟨head, tail⟩
    return (mem, ⟨head, tail⟩)

/-- The records of a list, in its order. -/
structure Linked (mem : Handles ν (Links ν)) (l : HashList ν) (nodes : List ν) : Prop where
  chain : Chain mem nodes
  head_eq : l.head = nodes.head?
  tail_eq : l.tail = nodes.getLast?

section Macros

variable {mem mem' : Handles ν (Links ν)} {l : HashList ν} {n : ν} {nodes pre post : List ν}

omit [DecidableEq ν] in
theorem Linked.nodup (h : Linked mem l nodes) : nodes.Nodup := nodup_of_chain h.chain

omit [DecidableEq ν] in
/-- A list depends on the links of its records only. -/
theorem Linked.congr (h : Linked mem l nodes) (hmem : ∀ n ∈ nodes, mem' n = mem n) :
    Linked mem' l nodes :=
  ⟨Segment.congr h.chain hmem, h.head_eq, h.tail_eq⟩

omit [DecidableEq ν] in
theorem tblTail_of_linked (h : Linked mem l nodes) (hne : nodes ≠ []) :
    tblTail mem l = some nodes.getLast? := by
  obtain ⟨n, rest, rfl⟩ := List.exists_cons_of_ne_nil hne
  obtain ⟨links, hlinks⟩ := Option.isSome_iff_exists.mp
    (Segment.isSome h.chain List.mem_cons_self)
  rw [tblTail, h.head_eq, h.tail_eq, List.head?_cons, Option.bind_eq_bind, Option.bind_some,
    hlinks]
  rfl

/-- `HASH_ADD_KEYPTR` puts a record at the end of a list. -/
theorem exists_hashAdd (h : Linked mem l nodes) (hn : n ∉ nodes) (hlive : (mem n).isSome) :
    ∃ mem' l', hashAdd mem l n = some (mem', l') ∧ Linked mem' l' (nodes ++ [n]) ∧
      ∀ m ∉ nodes, m ≠ n → mem' m = mem m := by
  obtain ⟨s₁, s₂, mem', h₁, h₂, h₃, hchain, hframe⟩ := exists_linkLast h.chain hn hlive
  cases nodes with
  | nil =>
    obtain rfl : s₁ = s₂ := Option.some_inj.mp h₂
    have hempty : l.head.isNone := by rw [h.head_eq]; rfl
    refine ⟨mem', ⟨some n, some n⟩, ?_, ⟨hchain, rfl, rfl⟩, hframe⟩
    rw [List.getLast?_nil] at h₃
    simp only [hashAdd, h₁, hempty, h₃, Option.bind_eq_bind, Option.bind_some, if_true]
    rfl
  | cons a rest =>
    obtain ⟨z, hz⟩ : ∃ z, (a :: rest).getLast? = some z := ⟨_, List.getLast?_cons⟩
    have hfull : l.head.isNone = false := by rw [h.head_eq]; rfl
    have hlinked : Linked s₁ l (a :: rest) := by
      refine h.congr ?_
      intro m hm
      refine linkNext_of_ne h₁ ?_
      rintro ⟨⟩
      exact hn hm
    have htail := tblTail_of_linked hlinked (List.cons_ne_nil a rest)
    rw [hz] at h₂ h₃ htail
    refine ⟨mem', { l with tail := some n }, ?_, ⟨hchain, ?_, ?_⟩, hframe⟩
    · simp only [hashAdd, h₁, hfull, htail, h₂, h₃, Option.bind_eq_bind, Option.bind_some,
        Bool.false_eq_true, if_false]
      rfl
    · exact h.head_eq
    · rw [List.getLast?_concat]

/-- What is left of the end of a list. -/
theorem getLast?_unlink (hn : n ∉ post) :
    (if (pre ++ n :: post).getLast? = some n then pre.getLast?
      else (pre ++ n :: post).getLast?) = (pre ++ post).getLast? := by
  rcases List.eq_nil_or_concat post with rfl | ⟨rest, z, rfl⟩
  · rw [List.getLast?_concat, if_pos rfl, List.append_nil]
  · have hz : z ≠ n := by
      rintro rfl
      exact hn (by simp)
    have hlast : ∀ front : List ν, (front ++ rest.concat z).getLast? = some z := fun front => by
      rw [List.concat_eq_append, ← List.append_assoc, List.getLast?_concat]
    have hsplit : pre ++ n :: rest.concat z = (pre ++ [n]) ++ rest.concat z := by simp
    rw [hsplit, hlast, hlast, if_neg fun h => hz (Option.some_inj.mp h)]

omit [DecidableEq ν] in
/-- What is left of the start of a list. -/
theorem head?_unlink :
    (if pre.getLast?.isNone then post.head? else (pre ++ n :: post).head?) =
      (pre ++ post).head? := by
  cases pre with
  | nil => rfl
  | cons a pre => simp

/-- **`HASH_DELETE` takes a record out of a list**, wherever it stands, and leaves its own links
as they were. -/
theorem exists_hashDelete (h : Linked mem l (pre ++ n :: post)) :
    ∃ mem' l', hashDelete mem l n = some (mem', l') ∧ Linked mem' l' (pre ++ post) ∧
      ∀ m ∉ pre ++ post, mem' m = mem m := by
  have htail := tblTail_of_linked h (by simp)
  have hlinks := h.chain.links
  obtain ⟨s', mem', h₁, hn, h₂, hchain, hframe⟩ := exists_unlink h.chain
  have hn' : n ∉ post := (List.nodup_cons.mp (List.nodup_append'.mp h.nodup).2.1).1
  by_cases hsingle : pre.getLast?.isNone ∧ post.head?.isNone
  · obtain ⟨rfl, rfl⟩ : pre = [] ∧ post = [] := by simpa using hsingle
    refine ⟨mem, ⟨none, none⟩, ?_, ⟨trivial, rfl, rfl⟩, fun _ _ => rfl⟩
    simp only [hashDelete, hlinks, htail, Option.bind_eq_bind, Option.bind_some, if_pos hsingle]
    rfl
  · have hne : pre ++ post ≠ [] := by simpa using hsingle
    have hlinked : Linked mem'
        ⟨if pre.getLast?.isNone then post.head? else l.head,
          if (pre ++ n :: post).getLast? = some n then pre.getLast?
          else (pre ++ n :: post).getLast?⟩ (pre ++ post) := by
      refine ⟨hchain, ?_, getLast?_unlink hn'⟩
      rw [h.head_eq]
      exact head?_unlink
    refine ⟨mem', _, ?_, hlinked, hframe⟩
    simp only [hashDelete, hlinks, htail, Option.bind_eq_bind, Option.bind_some, if_neg hsingle,
      h₁, hn, h₂, tblTail_of_linked hlinked hne]
    rfl

end Macros

/-! ### Tables as lists -/

section Tables

variable {τ κ : Type} [UserTable τ κ]

/-- A table is in memory: the records of the list hold the users of the table. -/
structure Represents (data : ν → User κ) (mem : Handles ν (Links ν)) (l : HashList ν)
    (nodes : List ν) (t : τ) : Prop where
  linked : Linked mem l nodes
  map_eq : nodes.map data = items t

end Tables

/-! ### Freeing -/

/-- What a loop over one list works on: the memory, the list, and what was freed so far. -/
structure Sweep (ν : Type*) where
  /-- The links of the records that are not freed. -/
  mem : Handles ν (Links ν)
  /-- The list. -/
  list : HashList ν
  /-- The records freed so far. -/
  freed : List ν

/-- `HASH_DEL(list, s); free(s);`. -/
def delFree (r : Sweep ν) (s : ν) : Option (Sweep ν) := do
  let d ← hashDelete r.mem r.list s
  let mem ← d.1.destroy s
  return ⟨mem, d.2, r.freed ++ [s]⟩

/-- A loop of `psn_free` at its record `s`. A loop that has not ended after `fuel` rounds has no
result. -/
def freeLoop : (fuel : ℕ) → Sweep ν → (s : Option ν) → Option (Sweep ν)
  | _, r, none => some r
  | 0, _, some _ => none
  | fuel + 1, r, some s => do
    let r ← delFree r s
    let hh ← r.mem s
    freeLoop fuel r hh.next

/-- `(p) ? (p)->hh.next : NULL`. -/
def nextOf (mem : Handles ν (Links ν)) (p : Option ν) : Option (Option ν) :=
  p.elim (some none) fun n => (mem n).map Links.next

/-- The loop of `_unpwd_cleanup`, which is `HASH_ITER` with the same body, apart from the strings
of its records. -/
def unpwdCleanupLoop : (fuel : ℕ) → Sweep ν → (u tmp : Option ν) → Option (Sweep ν)
  | _, r, none, _ => some r
  | 0, _, some _, _ => none
  | fuel + 1, r, some u, tmp => do
    let r ← delFree r u
    let next ← nextOf r.mem tmp
    unpwdCleanupLoop fuel r tmp next

/-- `for (s = list; s != NULL; s = s->hh.next)` of `psn_free`. -/
def psnFreeList (fuel : ℕ) (r : Sweep ν) : Option (Sweep ν) := freeLoop fuel r r.list.head

/-- `HASH_ITER(hh, *root, u, tmp)` of `_unpwd_cleanup`. -/
def unpwdCleanup (fuel : ℕ) (r : Sweep ν) : Option (Sweep ν) := do
  let tmp ← nextOf r.mem r.list.head
  unpwdCleanupLoop fuel r r.list.head tmp

section Loops

variable {mem : Handles ν (Links ν)} {l : HashList ν} {n : ν} {nodes freed : List ν}

/-- What was freed has no links any more. -/
theorem mem_of_delFree {r r' : Sweep ν} {s : ν} (h : delFree r s = some r') : r'.mem s = none := by
  obtain ⟨d, -, h⟩ := Option.bind_eq_some_iff.mp h
  obtain ⟨mem, hmem, h⟩ := Option.bind_eq_some_iff.mp h
  obtain ⟨-, rfl⟩ := Handles.destroy_eq_some.mp hmem
  rw [← Option.some_inj.mp h]
  exact Function.update_self _ _ _

/-- **The body of the loop.** The first record of a list is taken off it and freed, and the others
are still a list. The links of all records outside the list are what they were. -/
theorem exists_delFree (freed : List ν) (h : Linked mem l (n :: nodes)) :
    ∃ r, delFree ⟨mem, l, freed⟩ n = some r ∧ r.freed = freed ++ [n] ∧
      Linked r.mem r.list nodes ∧ ∀ m ∉ n :: nodes, r.mem m = mem m := by
  have h' : Linked mem l ([] ++ n :: nodes) := h
  obtain ⟨mem', l', hdel, hlinked, hframe⟩ := exists_hashDelete h'
  rw [List.nil_append] at hlinked hframe
  have hn : n ∉ nodes := (List.nodup_cons.mp h.nodup).1
  have hlive : (mem' n).isSome := by
    rw [hframe n hn]
    exact Segment.isSome h.chain List.mem_cons_self
  refine ⟨⟨Function.update mem' n none, l', freed ++ [n]⟩, ?_, rfl, ?_, ?_⟩
  · simp only [delFree, hdel, Handles.destroy_eq_some.mpr ⟨hlive, rfl⟩, Option.bind_eq_bind,
      Option.bind_some]
    rfl
  · exact ⟨Segment.update hlinked.chain hn none, hlinked.head_eq, hlinked.tail_eq⟩
  · intro m hm
    obtain ⟨hmn, hm⟩ := not_or.mp fun hmem => hm (List.mem_cons.mpr hmem)
    exact (Function.update_of_ne hmn _ _).trans (hframe m hm)

/-- The loop of `psn_free` has no result from any record on: it reads the link of the record that
it has freed. -/
theorem freeLoop_some (fuel : ℕ) (r : Sweep ν) (s : ν) : freeLoop fuel r (some s) = none := by
  cases fuel with
  | zero => rfl
  | succ fuel =>
    refine Option.bind_eq_none_iff.mpr fun r' hbody => ?_
    rw [mem_of_delFree hbody]
    rfl

theorem psnFreeList_of_head {fuel : ℕ} {r : Sweep ν} (h : r.list.head = none) :
    psnFreeList fuel r = some r := by
  rw [psnFreeList, h]
  cases fuel <;> rfl

theorem head_of_psnFreeList {fuel : ℕ} {r r' : Sweep ν} (h : psnFreeList fuel r = some r') :
    r.list.head = none := by
  cases hs : r.list.head with
  | none => rfl
  | some s =>
    rw [psnFreeList, hs, freeLoop_some] at h
    cases h

/-- A loop over a list has taken it apart: its records were freed in turn, and the links of the
others are what they were. -/
structure Swept (nodes : List ν) (r r' : Sweep ν) : Prop where
  freed : r'.freed = r.freed ++ nodes
  head : r'.list.head = none
  gone : ∀ m ∈ nodes, r'.mem m = none
  frame : ∀ m ∉ nodes, r'.mem m = r.mem m

/-- No loop brings a record back. -/
theorem Swept.none_of_none {r r' : Sweep ν} (h : Swept nodes r r') (hn : r.mem n = none) :
    r'.mem n = none := by
  by_cases hmem : n ∈ nodes
  · exact h.gone n hmem
  · rw [h.frame n hmem, hn]

omit [DecidableEq ν] in
theorem nextOf_head (h : Linked mem l nodes) : nextOf mem nodes.head? = some nodes.tail.head? := by
  cases nodes with
  | nil => rfl
  | cons n nodes =>
    rw [List.head?_cons, nextOf, Option.elim_some, h.chain.1, Option.map_some, Option.or_none]
    rfl

/-- With `HASH_ITER`, each round takes the first record off the list, so the list that is left
gets shorter until the loop ends. -/
theorem exists_unpwdCleanupLoop {fuel : ℕ} (hfuel : nodes.length ≤ fuel)
    (h : Linked mem l nodes) :
    ∃ r, unpwdCleanupLoop fuel ⟨mem, l, freed⟩ nodes.head? nodes.tail.head? = some r ∧
      Swept nodes ⟨mem, l, freed⟩ r := by
  induction nodes generalizing fuel mem l freed with
  | nil =>
    refine ⟨⟨mem, l, freed⟩, ?_, ?_⟩
    · cases fuel <;> rfl
    · refine ⟨(List.append_nil freed).symm, h.head_eq, ?_, fun _ _ => rfl⟩
      intro m hm
      exact absurd hm List.not_mem_nil
  | cons n nodes ih =>
    rw [List.length_cons] at hfuel
    obtain ⟨fuel, rfl⟩ : ∃ k, fuel = k + 1 := ⟨fuel - 1, by omega⟩
    obtain ⟨r, hbody, hfreed, hlinked, hframe⟩ := exists_delFree freed h
    obtain ⟨r', hloop, hswept⟩ := ih (Nat.le_of_succ_le_succ hfuel) hlinked
    have hn : n ∉ nodes := (List.nodup_cons.mp h.nodup).1
    refine ⟨r', ?_, ?_, hswept.head, ?_, ?_⟩
    · rw [List.head?_cons, List.tail_cons, unpwdCleanupLoop, hbody, Option.bind_eq_bind,
        Option.bind_some, nextOf_head hlinked]
      exact hloop
    · rw [hswept.freed, hfreed]
      exact List.append_assoc _ _ _
    · rintro m (_ | ⟨_, hm⟩)
      · rw [hswept.frame n hn]
        exact mem_of_delFree hbody
      · exact hswept.gone m hm
    · intro m hm
      rw [hswept.frame m fun hmem => hm (List.mem_cons_of_mem n hmem)]
      exact hframe m hm

/-- **`HASH_ITER` takes a list apart.** -/
theorem exists_unpwdCleanup {fuel : ℕ} (freed : List ν) (hfuel : nodes.length ≤ fuel)
    (h : Linked mem l nodes) :
    ∃ r, unpwdCleanup fuel ⟨mem, l, freed⟩ = some r ∧ Swept nodes ⟨mem, l, freed⟩ r := by
  obtain ⟨r, hloop, hswept⟩ := exists_unpwdCleanupLoop hfuel h
  refine ⟨r, ?_, hswept⟩
  rw [unpwdCleanup, h.head_eq, nextOf_head h]
  exact hloop

end Loops

/-! ### The three lists -/

/-- The records of an instance: three lists that share no record. -/
structure LinkedUsers (ν : Type*) where
  /-- The links of the records. -/
  mem : Handles ν (Links ν)
  /-- `friends`. -/
  friends : HashList ν
  /-- `friend_requests_incoming`. -/
  incoming : HashList ν
  /-- `friend_requests_outgoing`. -/
  outgoing : HashList ν
  /-- The records of `friends`. -/
  friendNodes : List ν
  /-- The records of `friend_requests_incoming`. -/
  incomingNodes : List ν
  /-- The records of `friend_requests_outgoing`. -/
  outgoingNodes : List ν
  friends_linked : Linked mem friends friendNodes
  incoming_linked : Linked mem incoming incomingNodes
  outgoing_linked : Linked mem outgoing outgoingNodes
  nodup : (friendNodes ++ incomingNodes ++ outgoingNodes).Nodup

/-- What is left when the lists were taken apart one after the other. -/
structure Freed (ν : Type*) where
  /-- The links of the records that are not freed. -/
  mem : Handles ν (Links ν)
  /-- `friends`. -/
  friends : HashList ν
  /-- `friend_requests_incoming`. -/
  incoming : HashList ν
  /-- `friend_requests_outgoing`. -/
  outgoing : HashList ν
  /-- The records that were freed, in this order. -/
  freed : List ν

namespace LinkedUsers

/-- All records. -/
def nodes (u : LinkedUsers ν) : List ν := u.friendNodes ++ u.incomingNodes ++ u.outgoingNodes

/-- The same loop over each list. -/
def sweep (loop : Sweep ν → Option (Sweep ν)) (u : LinkedUsers ν) : Option (Freed ν) := do
  let f ← loop ⟨u.mem, u.friends, []⟩
  let i ← loop ⟨f.mem, u.incoming, f.freed⟩
  let o ← loop ⟨i.mem, u.outgoing, i.freed⟩
  return ⟨o.mem, f.list, i.list, o.list, o.freed⟩

/-- Every record was freed once and none is left in a list. The memory outside the lists was left
alone. -/
structure TornDown (u : LinkedUsers ν) (r : Freed ν) : Prop where
  freed : r.freed.Perm u.nodes
  gone : ∀ m ∈ u.nodes, r.mem m = none
  frame : ∀ m ∉ u.nodes, r.mem m = u.mem m
  friends : r.friends.head = none
  incoming : r.incoming.head = none
  outgoing : r.outgoing.head = none

/-- The loops of `psn_free` end and have taken all lists apart. -/
def TearsDown (u : LinkedUsers ν) : Prop :=
  ∃ fuel r, u.sweep (psnFreeList fuel) = some r ∧ u.TornDown r

/-- **The lists of `psn_free`.** Its loops take the three lists apart if there is nothing in
them, and only then. -/
theorem tearsDown_iff (u : LinkedUsers ν) :
    u.TearsDown ↔ u.friendNodes = [] ∧ u.incomingNodes = [] ∧ u.outgoingNodes = [] := by
  constructor
  · rintro ⟨fuel, r, h, -⟩
    obtain ⟨f, hf, h⟩ := Option.bind_eq_some_iff.mp h
    obtain ⟨i, hi, h⟩ := Option.bind_eq_some_iff.mp h
    obtain ⟨o, ho, -⟩ := Option.bind_eq_some_iff.mp h
    refine ⟨?_, ?_, ?_⟩
    · exact List.head?_eq_none_iff.mp (u.friends_linked.head_eq ▸ head_of_psnFreeList hf)
    · exact List.head?_eq_none_iff.mp (u.incoming_linked.head_eq ▸ head_of_psnFreeList hi)
    · exact List.head?_eq_none_iff.mp (u.outgoing_linked.head_eq ▸ head_of_psnFreeList ho)
  · rintro ⟨hf, hi, ho⟩
    have hfriends : u.friends.head = none := by rw [u.friends_linked.head_eq, hf]; rfl
    have hincoming : u.incoming.head = none := by rw [u.incoming_linked.head_eq, hi]; rfl
    have houtgoing : u.outgoing.head = none := by rw [u.outgoing_linked.head_eq, ho]; rfl
    have hnodes : u.nodes = [] := by rw [nodes, hf, hi, ho]; rfl
    refine ⟨0, ⟨u.mem, u.friends, u.incoming, u.outgoing, []⟩, ?_, ?_, ?_, fun _ _ => rfl,
      hfriends, hincoming, houtgoing⟩
    · simp only [sweep, psnFreeList_of_head, hfriends, hincoming, houtgoing, Option.bind_eq_bind,
        Option.bind_some]
      rfl
    · rw [hnodes]
    · intro m hm
      rw [hnodes] at hm
      exact absurd hm List.not_mem_nil

end LinkedUsers

/-- One friend, the record at address `0`. -/
def oneRecord : LinkedUsers ℕ where
  mem := Function.update Handles.empty 0 (some ⟨none, none⟩)
  friends := ⟨some 0, some 0⟩
  incoming := ⟨none, none⟩
  outgoing := ⟨none, none⟩
  friendNodes := [0]
  incomingNodes := []
  outgoingNodes := []
  friends_linked := ⟨⟨rfl, trivial⟩, rfl, rfl⟩
  incoming_linked := ⟨trivial, rfl, rfl⟩
  outgoing_linked := ⟨trivial, rfl, rfl⟩
  nodup := List.nodup_singleton 0

/-- The friend is taken off the list and freed, and then read. -/
theorem not_tearsDown_oneRecord :
    (∃ r, delFree ⟨oneRecord.mem, oneRecord.friends, []⟩ 0 = some r ∧ r.freed = [0] ∧
      r.mem 0 = none) ∧ ¬ oneRecord.TearsDown := by
  constructor
  · obtain ⟨r, hr, hfreed, -⟩ := exists_delFree [] oneRecord.friends_linked
    exact ⟨r, hr, hfreed, mem_of_delFree hr⟩
  · rintro ⟨fuel, r, h, -⟩
    obtain ⟨f, hf, -⟩ := Option.bind_eq_some_iff.mp h
    cases head_of_psnFreeList hf

/-- **`HASH_ITER` takes all lists apart**, whatever is in them. -/
theorem LinkedUsers.unpwdCleanup_tornDown (u : LinkedUsers ν) :
    ∃ fuel r, u.sweep (unpwdCleanup fuel) = some r ∧ u.TornDown r := by
  have hlen : u.nodes.length =
      u.friendNodes.length + u.incomingNodes.length + u.outgoingNodes.length := by
    rw [LinkedUsers.nodes, List.length_append, List.length_append]
  obtain ⟨-, -, hdisj⟩ := List.nodup_append'.mp u.nodup
  obtain ⟨-, -, hdisj'⟩ := List.nodup_append'.mp (List.nodup_append'.mp u.nodup).1
  have hle : u.friendNodes.length ≤ u.nodes.length := by omega
  have hle' : u.incomingNodes.length ≤ u.nodes.length := by omega
  have hle'' : u.outgoingNodes.length ≤ u.nodes.length := by omega
  obtain ⟨f, hf, hfriends⟩ := exists_unpwdCleanup [] hle u.friends_linked
  have hlinked : Linked f.mem u.incoming u.incomingNodes := by
    refine u.incoming_linked.congr ?_
    intro m hm
    exact hfriends.frame m fun hmem => hdisj' hmem hm
  obtain ⟨i, hi, hincoming⟩ := exists_unpwdCleanup f.freed hle' hlinked
  have hlinked' : Linked i.mem u.outgoing u.outgoingNodes := by
    refine u.outgoing_linked.congr ?_
    intro m hm
    rw [hincoming.frame m fun hmem => hdisj (List.mem_append_right _ hmem) hm]
    exact hfriends.frame m fun hmem => hdisj (List.mem_append_left _ hmem) hm
  obtain ⟨o, ho, houtgoing⟩ := exists_unpwdCleanup i.freed hle'' hlinked'
  refine ⟨u.nodes.length, ⟨o.mem, f.list, i.list, o.list, o.freed⟩, ?_, ?_, ?_, ?_,
    hfriends.head, hincoming.head, houtgoing.head⟩
  · simp only [LinkedUsers.sweep, hf, hi, ho, Option.bind_eq_bind, Option.bind_some]
    rfl
  · rw [houtgoing.freed, hincoming.freed, hfriends.freed, List.nil_append]
    exact List.Perm.refl _
  · intro m hm
    rcases List.mem_append.mp hm with hm | hm
    · refine houtgoing.none_of_none ?_
      rcases List.mem_append.mp hm with hm | hm
      · exact hincoming.none_of_none (hfriends.gone m hm)
      · exact hincoming.gone m hm
    · exact houtgoing.gone m hm
  · intro m hm
    have hm' := fun hmem => hm (List.mem_append_left _ hmem)
    calc o.mem m
        = i.mem m := houtgoing.frame m fun hmem => hm (List.mem_append_right _ hmem)
      _ = f.mem m := hincoming.frame m fun hmem => hm' (List.mem_append_right _ hmem)
      _ = u.mem m := hfriends.frame m fun hmem => hm' (List.mem_append_left _ hmem)

section Tables

variable {τ κ : Type} [UserTable τ κ] {data : ν → User κ} {p : Proc τ κ} {u : LinkedUsers ν}

/-- The model of `psn_free` over tables has a result exactly where the loops over the records
do. -/
theorem psnFree_isSome_iff
    (hf : Represents data u.mem u.friends u.friendNodes p.psn.friends)
    (hi : Represents data u.mem u.incoming u.incomingNodes p.psn.friendRequestsIncoming)
    (ho : Represents data u.mem u.outgoing u.outgoingNodes p.psn.friendRequestsOutgoing) :
    (psnFree p).isSome ↔ u.TearsDown := by
  rw [LinkedUsers.tearsDown_iff, psnFree, ← hf.map_eq, ← hi.map_eq, ← ho.map_eq]
  simp

end Tables

end Psn

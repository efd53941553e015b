import Mathlib.Algebra.Order.BigOperators.Group.List
import Psn.Independence
import Psn.Teardown
import Psn.UtHash

/-!
# The client on hash tables

The lists of users of a client are hash tables, and a hash table with its invariant is a chain with
a lookup. So everything that was proved about clients holds of clients with hash tables, whatever
the hash function is.

Which of several records with one key a lookup finds depends on the table. It does not show: two
clients with different tables return the same codes and have everybody in the same lists.

A chain is a list in `Psn.UtHash`. In memory it is the records with the links that the macros write,
and `run_linked` says that these links are right after every run.

A client may have any number of users here, so its tables are those that `UtHash` describes without
the bounds of `UtHash.step`: a real table does not get beyond `2 ^ 31` buckets, to which it takes
some hundred users and a hash function that is chosen for the purpose.

## Main definitions

* `UserHash`: hash tables that have their invariant
* `linkStep`: what the macros do to the links of the records

## Main results

* `UtHash.run_linked`: the chain of a table is linked in memory
* `run_userHash`: a client does not show what its tables are
-/

namespace Psn

open Keyed (key)
open KeyedChain PartialMachine

variable {α κ : Type}

/-! ### Hash tables as chains -/

/-- An address for the next record. -/
def freshAddr (chain : List (HashElt ℕ α)) : ℕ := (chain.map HashElt.addr).sum + 1

theorem freshAddr_not_mem (chain : List (HashElt ℕ α)) :
    freshAddr chain ∉ chain.map HashElt.addr := by
  intro hmem
  have hle := List.le_sum_of_mem hmem
  rw [freshAddr] at hle
  omega

theorem filter_addr_ne {chain : List (HashElt ℕ α)} (h : (chain.map HashElt.addr).Nodup) :
    ∀ {i : ℕ} (hi : i < chain.length),
      chain.filter (fun e => e.addr ≠ chain[i].addr) = chain.eraseIdx i := by
  induction chain with
  | nil => exact fun hi => absurd hi (Nat.not_lt_zero _)
  | cons e chain ih =>
    intro i hi
    rw [List.map_cons, List.nodup_cons] at h
    have hne : ∀ x ∈ chain, x.addr ≠ e.addr := by
      intro x hx heq
      exact h.1 (heq ▸ List.mem_map_of_mem hx)
    cases i with
    | zero =>
      rw [List.eraseIdx_cons_zero, List.getElem_cons_zero, List.filter_cons_of_neg (by simp)]
      exact List.filter_eq_self.mpr fun x hx => by simpa using hne x hx
    | succ i =>
      have hmem : chain.get ⟨i, Nat.lt_of_succ_lt_succ hi⟩ ∈ chain := List.get_mem _ _
      rw [List.eraseIdx_cons_succ, List.getElem_cons_succ,
        List.filter_cons_of_pos (by simpa using (hne _ hmem).symm), ih h.2]

theorem get_map {α β : Type} (f : α → β) (l : List α) (p : Fin (l.map f).length) :
    (l.map f).get p = f (l.get (p.cast (List.length_map f))) := by
  rw [List.get_eq_getElem, List.getElem_map]
  rfl

/-! ### The chain in memory -/

section Linked

variable {ν : Type} [DecidableEq ν]

/-- What the macros write into the links of records. A record that is new in memory comes from
`calloc`, and one that has been in a list before keeps the links that it had there. -/
def linkStep (s : Handles ν (Links ν) × HashList ν) :
    HashOp ν α κ → Option (Unit × (Handles ν (Links ν) × HashList ν))
  | .add addr _ => (hashAdd (Function.update s.1 addr
      (some ((s.1 addr).getD ⟨none, none⟩))) s.2 addr).map fun r => ((), r)
  | .find _ => some ((), s)
  | .del addr => (hashDelete s.1 s.2 addr).map fun r => ((), r)

variable [Keyed α κ] [DecidableEq κ] {hash : κ → UInt32}

/-- One operation keeps the records linked in the order of the chain. -/
theorem UtHash.Inv.step_linked {t t' : UtHash ν α} (h : t.Inv hash)
    {s : Handles ν (Links ν) × HashList ν} (hs : Linked s.1 s.2 (t.chain.map HashElt.addr))
    {op : HashOp ν α κ} {out : Option (HashElt ν α)}
    (hstep : UtHash.step hash t op = some (out, t')) :
    ∃ s', linkStep s op = some ((), s') ∧ Linked s'.1 s'.2 (t'.chain.map HashElt.addr) := by
  cases op with
  | add addr a =>
    obtain ⟨hmem, hadd, -, -⟩ := UtHash.step_add hstep
    obtain ⟨t₁, -, hadd', -, hchain, -⟩ := h.add hmem a
    obtain rfl := Option.some_inj.mp (hadd.symm.trans hadd')
    have halloc : Linked (Function.update s.1 addr (some ((s.1 addr).getD ⟨none, none⟩))) s.2
        (t.chain.map HashElt.addr) := by
      refine hs.congr fun n hn => ?_
      have hne : n ≠ addr := by
        rintro rfl
        exact hmem hn
      exact Function.update_of_ne hne _ _
    obtain ⟨mem', l', hlink, hlinked, -⟩ :=
      exists_hashAdd halloc hmem (by rw [Function.update_self]; rfl)
    refine ⟨(mem', l'), by rw [linkStep, hlink]; rfl, ?_⟩
    rw [hchain, List.map_append]
    exact hlinked
  | find k =>
    obtain ⟨-, rfl⟩ := Prod.mk.inj (Option.some.inj hstep)
    exact ⟨s, rfl, hs⟩
  | del addr =>
    obtain ⟨t₁, hdel, heq⟩ := Option.map_eq_some_iff.mp hstep
    obtain ⟨-, rfl⟩ := Prod.mk.inj heq
    obtain ⟨e, he, rfl⟩ : ∃ e ∈ t.chain, e.addr = addr := by
      by_contra hmem
      rw [UtHash.del_of_not_mem fun hin => hmem (List.mem_map.mp hin)] at hdel
      cases hdel
    obtain ⟨t₂, hdel', -, hchain, -⟩ := h.del (List.mem_map_of_mem he)
    obtain rfl := Option.some_inj.mp (hdel.symm.trans hdel')
    obtain ⟨pre, post, hsplit⟩ := List.append_of_mem he
    have hnodup := h.addrs
    rw [hsplit, List.map_append, List.map_cons] at hs hnodup
    obtain ⟨mem', l', hlink, hlinked, -⟩ := exists_hashDelete hs
    refine ⟨(mem', l'), by rw [linkStep, hlink]; rfl, ?_⟩
    have herase : t₁.chain.map HashElt.addr =
        pre.map HashElt.addr ++ post.map HashElt.addr := by
      rw [hchain, ← eraseP_addr h.addrs, hsplit, List.eraseP_append_right,
        List.eraseP_cons_of_pos (by simp), List.map_append]
      intro x hx heq
      refine (List.nodup_append'.mp hnodup).2.2 (List.mem_map_of_mem hx) ?_
      rw [of_decide_eq_true heq]
      exact List.mem_cons_self
    rw [herase]
    exact hlinked

theorem UtHash.Inv.exists_linked {ops : List (HashOp ν α κ)} : ∀ {t t' : UtHash ν α}
    {outs : List (Option (HashElt ν α))} {s : Handles ν (Links ν) × HashList ν}, t.Inv hash →
      Linked s.1 s.2 (t.chain.map HashElt.addr) →
      run (UtHash.step hash) t ops = some (outs, t') →
        ∃ us s', run linkStep s ops = some (us, s') ∧
          Linked s'.1 s'.2 (t'.chain.map HashElt.addr) := by
  induction ops with
  | nil =>
    intro t t' outs s _ hs hrun
    obtain ⟨-, rfl⟩ := Prod.mk.inj (Option.some.inj hrun)
    exact ⟨[], s, rfl, hs⟩
  | cons op ops ih =>
    intro t t' outs s h hs hrun
    obtain ⟨out, t₁, outs', hstep, hrest, -⟩ := run_cons_eq_some.mp hrun
    obtain ⟨s₁, hlink, hs₁⟩ := h.step_linked hs hstep
    have hinv : t₁.Inv hash := by
      rcases h.step op with ⟨hnone, -⟩ | ⟨out', t₂, ok, hstep', -, hinv, -⟩
      · cases hnone.symm.trans hstep
      · obtain ⟨-, rfl⟩ := Prod.mk.inj (Option.some.inj (hstep.symm.trans hstep'))
        exact hinv
    obtain ⟨us, s', hrun', hs'⟩ := ih hinv hs₁ hrest
    exact ⟨() :: us, s', run_cons_eq_some.mpr ⟨(), s₁, us, hlink, hrun', rfl⟩, hs'⟩

/-- **The chain of a table is linked in memory.** In every run of operations on an empty table, the
macros find every link that they read, and in the end the links of the records, the head pointer and
the tail are those of the chain. -/
theorem UtHash.run_linked {ops : List (HashOp ν α κ)} {t : UtHash ν α}
    {outs : List (Option (HashElt ν α))}
    (hrun : run (UtHash.step hash) .empty ops = some (outs, t)) :
    ∃ us s, run linkStep (Handles.empty, ⟨none, none⟩) ops = some (us, s) ∧
      Linked s.1 s.2 (t.chain.map HashElt.addr) :=
  (UtHash.inv_empty hash).exists_linked ⟨trivial, rfl, rfl⟩ hrun

/-- Two records for one name, one of which is deleted. -/
theorem UtHash.run_linked_deleted : ∃ outs t us s,
    run (UtHash.step fun _ => 0) .empty (addTwice ++ [.del 0]) = some (outs, t) ∧
      run linkStep (Handles.empty, ⟨none, none⟩) (addTwice ++ [.del 0]) = some (us, s) ∧
        Linked s.1 s.2 [1] := by
  have hrun : ∃ outs t, run (UtHash.step fun _ => 0) .empty (addTwice ++ [.del 0]) =
      some (outs, t) ∧ t.chain.map HashElt.addr = [1] := ⟨_, _, rfl, rfl⟩
  obtain ⟨outs, t, hrun, hchain⟩ := hrun
  obtain ⟨us, s, hlinks, hlinked⟩ := UtHash.run_linked hrun
  exact ⟨outs, t, us, s, hrun, hlinks, hchain ▸ hlinked⟩

end Linked

/-! ### Tables of a client -/

/-- A hash table that has its invariant. -/
abbrev UserHash (α : Type) [Keyed α κ] (hash : κ → UInt32) := { t : UtHash ℕ α // t.Inv hash }

namespace UserHash

variable [Keyed α κ] {hash : κ → UInt32}

/-- The records in the order in which they were added. -/
def items (t : UserHash α hash) : List α := t.1.chain.map HashElt.elt

variable [DecidableEq κ]

theorem exists_add (t : UserHash α hash) (a : α) : ∃ t', t.1.add hash (freshAddr t.1.chain) a =
    some t' ∧ t'.Inv hash ∧ t'.chain.map HashElt.elt = t.items ++ [a] := by
  obtain ⟨t', -, hadd, hinv, hchain, -⟩ := t.2.add (freshAddr_not_mem t.1.chain) a
  refine ⟨t', hadd, hinv, ?_⟩
  rw [hchain, List.map_append]
  rfl

/-- A record is added at an address of its own. -/
def add (t : UserHash α hash) (a : α) : UserHash α hash :=
  ⟨(t.1.add hash (freshAddr t.1.chain) a).getD .empty, by
    obtain ⟨t', hadd, hinv, -⟩ := t.exists_add a
    rw [hadd]
    exact hinv⟩

theorem items_add (t : UserHash α hash) (a : α) : (t.add a).items = t.items ++ [a] := by
  obtain ⟨t', hadd, -, hitems⟩ := t.exists_add a
  show ((t.1.add hash (freshAddr t.1.chain) a).getD .empty).chain.map _ = _
  rw [hadd, ← hitems]
  rfl

/-- The address of the record at a position. -/
def addr (t : UserHash α hash) (p : Fin t.items.length) : ℕ :=
  (t.1.chain.get (p.cast (List.length_map _))).addr

theorem exists_del (t : UserHash α hash) (p : Fin t.items.length) :
    ∃ t', t.1.del (t.addr p) = some t' ∧ t'.Inv hash ∧
      t'.chain.map HashElt.elt = t.items.eraseIdx p := by
  have hmem : t.addr p ∈ t.1.chain.map HashElt.addr := List.mem_map_of_mem (List.get_mem _ _)
  obtain ⟨t', hdel, hinv, hchain, -⟩ := t.2.del hmem
  have hfilter : t.1.chain.filter (fun e => e.addr ≠ t.addr p) = t.1.chain.eraseIdx p :=
    filter_addr_ne t.2.addrs _
  refine ⟨t', hdel, hinv, ?_⟩
  show _ = (t.1.chain.map HashElt.elt).eraseIdx p
  rw [hchain, hfilter, List.eraseIdx_map]

/-- The record at a position is deleted. -/
def del (t : UserHash α hash) (p : Fin t.items.length) : UserHash α hash :=
  ⟨(t.1.del (t.addr p)).getD .empty, by
    obtain ⟨t', hdel, hinv, -⟩ := t.exists_del p
    rw [hdel]
    exact hinv⟩

theorem items_del (t : UserHash α hash) (p : Fin t.items.length) :
    (t.del p).items = t.items.eraseIdx p := by
  obtain ⟨t', hdel, -, hitems⟩ := t.exists_del p
  show ((t.1.del (t.addr p)).getD .empty).chain.map _ = _
  rw [hdel, ← hitems]
  rfl

/-- The position of the record that a lookup finds. -/
def find (t : UserHash α hash) (k : κ) : Option (Fin t.items.length) :=
  (t.1.find hash k).bind fun e =>
    (List.finRange t.items.length).find? fun p => t.addr p = e.addr

theorem key_of_find {t : UserHash α hash} {k : κ} {p : Fin t.items.length}
    (h : t.find k = some p) : key (t.items.get p) = k := by
  obtain ⟨e, hfind, hp⟩ := Option.bind_eq_some_iff.mp h
  have hfound := t.2.find k
  rw [hfind] at hfound
  have haddr : t.addr p = e.addr := by simpa using List.find?_some hp
  have helt : t.1.chain.get (p.cast (List.length_map _)) = e :=
    List.inj_on_of_nodup_map t.2.addrs (List.get_mem _ _) hfound.1 haddr
  have hget : t.items.get p = (t.1.chain.get (p.cast (List.length_map _))).elt :=
    get_map HashElt.elt t.1.chain p
  rw [hget, helt]
  exact hfound.2

theorem not_mem_of_find {t : UserHash α hash} {k : κ} (h : t.find k = none) :
    ∀ a ∈ t.items, key a ≠ k := by
  have hfound := t.2.find k
  cases hfind : t.1.find hash k with
  | none =>
    rw [hfind] at hfound
    intro a ha
    obtain ⟨e, he, rfl⟩ := List.mem_map.mp ha
    exact hfound e he
  | some e =>
    rw [hfind] at hfound
    obtain ⟨i, hi, hget⟩ := List.getElem_of_mem hfound.1
    have hlt : i < t.items.length := by rw [items, List.length_map]; exact hi
    rw [find, hfind, Option.bind_some] at h
    refine absurd ?_ (List.find?_eq_none.mp h ⟨i, hlt⟩ (List.mem_finRange _))
    refine decide_eq_true ?_
    show (t.1.chain[i]).addr = e.addr
    rw [hget]

/-- Hash tables are chains with a lookup. -/
instance : KeyedChain (UserHash α hash) α κ where
  empty := ⟨.empty, UtHash.inv_empty hash⟩
  items := items
  find := find
  add := add
  del := del
  items_empty := rfl
  items_add := items_add
  items_del := items_del
  key_of_find := key_of_find
  not_mem_of_find := not_mem_of_find

end UserHash

/-! ### Clients -/

section Clients

variable {τ τ' : Type} [UserTable τ κ] [UserTable τ' κ]

/-- Two clients, maybe with different tables, that nobody can tell apart. -/
structure Indistinct (p : Proc τ κ) (p' : Proc τ' κ) : Prop where
  session : p'.session = p.session
  standing : ∀ name, standing p'.psn name = standing p.psn name

theorem Indistinct.act {p : Proc τ κ} {p' : Proc τ' κ} (h : Indistinct p p') (op : Op)
    (name : CStr) : op.act p' name = op.act p name := by
  have hsession := h.session
  simp only [Proc.session, Prod.mk.injEq] at hsession
  cases op <;> simp only [Op.act, hsession.1, hsession.2.1]

theorem Indistinct.code {p : Proc τ κ} {p' : Proc τ' κ} (h : Indistinct p p') (op : Op)
    (s : Standing) : op.code p' s = op.code p s := by
  have hsession := h.session
  simp only [Proc.session, Prod.mk.injEq] at hsession
  cases op <;> simp only [Op.code, hsession.1, hsession.2.1]

/-- The client after `psn_init`, with hash tables. -/
def Proc.onHash (hash : CStr → UInt32) (p : Proc τ κ) : Proc (UserHash (User κ) hash) κ where
  connected := p.connected
  psn :=
    { mosq := p.psn.mosq
      username := p.psn.username
      shownName := p.psn.shownName
      password := p.psn.password
      hostname := p.psn.hostname
      port := p.psn.port
      friends := KeyedChain.empty
      friendRequestsOutgoing := KeyedChain.empty
      friendRequestsIncoming := KeyedChain.empty
      pkKey := p.psn.pkKey }

theorem indistinct_onHash (hash : CStr → UInt32) (p : Proc τ κ) :
    Indistinct p.init (p.onHash hash) where
  session := rfl
  standing := fun name => (standing_init (p.onHash hash) name).trans (standing_init p name).symm

variable [Tomcrypt κ]

/-- One operation on both of them. -/
theorem Indistinct.step {p q : Proc τ κ} {p' q' : Proc τ' κ} (h : Indistinct p p') {op : Op}
    {o o' : Output} (hstep : p.step op = some (o, q)) (hstep' : p'.step op = some (o', q')) :
    o'.err = o.err ∧ Indistinct q q' := by
  refine ⟨?_, ?_, fun name => ?_⟩
  · rw [err_step hstep, err_step hstep', h.code, h.standing]
  · rw [session_step hstep, session_step hstep', h.session]
  · rw [standing_eq_effect hstep, standing_eq_effect hstep', Op.effect, Op.effect, h.act,
      h.standing]

/-- Any operations on both of them. -/
theorem Indistinct.run {ops : List Op} (hops : ∀ op ∈ ops, op.WellFormed) :
    ∀ {p : Proc τ κ} {p' : Proc τ' κ}, Indistinct p p' →
      ∃ outs q outs' q', run Proc.step p ops = some (outs, q) ∧
        run Proc.step p' ops = some (outs', q') ∧
          outs'.map Output.err = outs.map Output.err ∧ Indistinct q q' := by
  induction ops with
  | nil => exact fun h => ⟨[], _, [], _, rfl, rfl, rfl, h⟩
  | cons op ops ih =>
    intro p p' h
    obtain ⟨o, q, hstep⟩ := exists_step p (hops op List.mem_cons_self)
    obtain ⟨o', q', hstep'⟩ := exists_step p' (hops op List.mem_cons_self)
    obtain ⟨herr, hq⟩ := h.step hstep hstep'
    obtain ⟨outs, r, outs', r', hrun, hrun', herrs, hr⟩ :=
      ih (fun a ha => hops a (List.mem_cons_of_mem op ha)) hq
    refine ⟨o :: outs, r, o' :: outs', r', ?_, ?_, ?_, hr⟩
    · rw [run_cons_of_step hstep, hrun]
      rfl
    · rw [run_cons_of_step hstep', hrun']
      rfl
    · rw [List.map_cons, List.map_cons, herr, herrs]

/-- **A client does not show what its tables are.** Take a client with any tables and the same one
with hash tables, whatever the hash function is. In every run of the same operations on well-formed
names they return the same codes, and in the end everybody is in the same lists as often.

This is about tables that stay below `2 ^ 31` buckets and `2 ^ 28` records: the tables here do not
stop there, as those in memory would. -/
theorem run_userHash (hash : CStr → UInt32) (p : Proc τ κ) {ops : List Op}
    (hops : ∀ op ∈ ops, op.WellFormed) :
    ∃ outs q outs' q', run Proc.step p.init ops = some (outs, q) ∧
      run Proc.step (p.onHash hash) ops = some (outs', q') ∧
        outs'.map Output.err = outs.map Output.err ∧
          ∀ name, standing q'.psn name = standing q.psn name := by
  obtain ⟨outs, q, outs', q', hrun, hrun', herrs, hq⟩ := (indistinct_onHash hash p).run hops
  exact ⟨outs, q, outs', q', hrun, hrun', herrs, hq.standing⟩

/-- A request comes in and is accepted, with the hash function of `uthash.h`. -/
theorem run_userHash_accepted : ∃ outs q outs' q',
    run Proc.step (concreteProc alice).init
        [.frequest alice bob [], .acceptFriendReq bob.bytes .ok] = some (outs, q) ∧
      run Proc.step ((concreteProc alice).onHash hashJen)
          [.frequest alice bob [], .acceptFriendReq bob.bytes .ok] = some (outs', q') ∧
        outs'.map Output.err = outs.map Output.err ∧
          ∀ name, standing q'.psn name = standing q.psn name := by
  refine run_userHash hashJen (concreteProc alice) fun op hop => ?_
  simp only [List.mem_cons, List.not_mem_nil, or_false] at hop
  rcases hop with rfl | rfl
  · exact Op.wellFormed_frequest alice bob []
  · trivial

end Clients

end Psn

import Mathlib.Data.List.Perm.Basic
import Mathlib.Data.List.Nodup
import Mathlib.Data.List.Basic
import Mathlib.Data.List.FinRange

/-!
# Records chained in insertion order and looked up by key

An intrusive hash table keeps its records in two structures at once: a chain in insertion order,
which is what a traversal sees, and buckets, which is what a lookup searches. Insertion appends
to the chain and does *not* look for a record with the same key. A lookup returns *some* record
with the key, and which one it is when there are several depends on the buckets.

`KeyedChain` states exactly that and leaves the buckets abstract: `find` is any function of the
table that is sound and complete. A pointer to a record is a position in the chain, so a pointer
to a record that is not in the table cannot be built.

## Main definitions

* `KeyedChain`: the operations and their laws
* `KeyedChain.keys`: the keys of the records, in chain order
* `KeyedChain.ofList`: the implementation without buckets

## Main results

* `find_eq_none_iff`, `find_isSome_iff`: a lookup decides membership
* `keys_del_perm`, `count_keys_add`, `count_keys_del`: how the operations count keys
-/

universe u v w

/-- Records of type `α` carry a key of type `κ`. -/
class Keyed (α : Type v) (κ : outParam (Type w)) where
  /-- The key of a record. -/
  key : α → κ

open Keyed (key)

/-- A table of records of type `α` with keys of type `κ`: a chain in insertion order with a
lookup that finds some record with the key whenever there is one. -/
class KeyedChain (τ : Type u) (α : outParam (Type v)) (κ : outParam (Type w)) [Keyed α κ] where
  /-- The table without records. -/
  empty : τ
  /-- The records in insertion order. -/
  items : τ → List α
  /-- Some record with the given key. -/
  find : (t : τ) → κ → Option (Fin (items t).length)
  /-- Append a record, whether or not its key is there already. -/
  add : τ → α → τ
  /-- Unlink one record. -/
  del : (t : τ) → Fin (items t).length → τ
  items_empty : items empty = []
  items_add : ∀ t a, items (add t a) = items t ++ [a]
  items_del : ∀ t p, items (del t p) = (items t).eraseIdx p
  key_of_find : ∀ {t k p}, find t k = some p → key ((items t).get p) = k
  not_mem_of_find : ∀ {t k}, find t k = none → ∀ a ∈ items t, key a ≠ k

namespace KeyedChain

variable {τ : Type u} {α : Type v} {κ : Type w} [Keyed α κ] [KeyedChain τ α κ]

attribute [simp] items_empty items_add items_del

/-- The record a pointer refers to. -/
def record (t : τ) (p : Fin (items t).length) : α := (items t).get p

/-- The keys of the records, in insertion order. -/
def keys (t : τ) : List κ := (items t).map key

@[simp] theorem keys_empty : keys (empty : τ) = [] := by simp [keys]

@[simp] theorem keys_add (t : τ) (a : α) : keys (add t a) = keys t ++ [key a] := by simp [keys]

theorem record_mem (t : τ) (p : Fin (items t).length) : record t p ∈ items t :=
  List.get_mem _ _

theorem key_record_of_find {t : τ} {k : κ} {p : Fin (items t).length} (h : find t k = some p) :
    key (record t p) = k :=
  key_of_find h

theorem find_eq_none_iff {t : τ} {k : κ} : find t k = none ↔ k ∉ keys t := by
  constructor
  · intro h hmem
    obtain ⟨a, ha, hk⟩ := List.mem_map.mp hmem
    exact not_mem_of_find h a ha hk
  · intro h
    cases hf : find t k with
    | none => rfl
    | some p =>
      exact absurd (List.mem_map.mpr ⟨record t p, record_mem t p, key_record_of_find hf⟩) h

theorem find_isSome_iff {t : τ} {k : κ} : (find t k).isSome ↔ k ∈ keys t := by
  rw [Option.isSome_iff_ne_none, ne_eq, find_eq_none_iff, not_not]

theorem mem_keys_of_find {t : τ} {k : κ} {p : Fin (items t).length} (h : find t k = some p) :
    k ∈ keys t :=
  find_isSome_iff.mp (by simp [h])

theorem exists_find_of_mem {t : τ} {k : κ} (h : k ∈ keys t) : ∃ p, find t k = some p :=
  Option.isSome_iff_exists.mp (find_isSome_iff.mpr h)

/-- Unlinking a record takes one occurrence of its key out of the chain. -/
theorem keys_del_perm (t : τ) (p : Fin (items t).length) :
    (keys t).Perm (key (record t p) :: keys (del t p)) := by
  have hperm : ((items t)[p.val] :: (items t).eraseIdx p).Perm (items t) :=
    List.getElem_cons_eraseIdx_perm p.isLt
  simpa [keys, record] using (hperm.map key).symm

variable [DecidableEq κ]

section Counting

variable [BEq κ] [LawfulBEq κ]

theorem count_keys_add (t : τ) (a : α) (k : κ) :
    (keys (add t a)).count k = (keys t).count k + if key a = k then 1 else 0 := by
  simp [List.count_append, List.count_singleton]

theorem count_keys_del (t : τ) (p : Fin (items t).length) (k : κ) :
    (keys t).count k = (keys (del t p)).count k + if key (record t p) = k then 1 else 0 := by
  rw [(keys_del_perm t p).count_eq, List.count_cons]
  simp

end Counting

/-! ### The implementation without buckets -/

/-- The position of the record with key `k` that was added last. -/
def lastWithKey (l : List α) (k : κ) : Option (Fin l.length) :=
  (List.finRange l.length).reverse.find? fun p => key (l.get p) = k

/-- A list of records is a table: a lookup walks the chain from its end. -/
abbrev ofList (α : Type v) {κ : Type w} [Keyed α κ] [DecidableEq κ] : KeyedChain (List α) α κ where
  empty := []
  items := id
  find := lastWithKey
  add l a := l ++ [a]
  del l p := l.eraseIdx p
  items_empty := rfl
  items_add _ _ := rfl
  items_del _ _ := rfl
  key_of_find h := by simpa using List.find?_some h
  not_mem_of_find h a ha := by
    obtain ⟨p, rfl⟩ := List.mem_iff_get.mp ha
    have := List.find?_eq_none.mp h p (by simp)
    simpa using this

end KeyedChain

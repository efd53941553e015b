import Mathlib.Data.List.Perm.Basic
import Mathlib.Data.Nat.Digits.Lemmas
import Psn.Lib.PartialMachine
import Psn.Types

/-!
# Hash tables

The lists of users are hash tables of `uthash.h`. The records of a table are in a chain in the order
in which they were added, and each of them is in the bucket that the hash of its key says. A bucket
that gets too long doubles the number of buckets.

The links of the chain are those of `Psn.Teardown`, so the chain is a list here, and so are the
records of a bucket.

The counters of a table are `unsigned`, and numbers without a bound here. There are two places at
which this makes a difference. A table of `2 ^ 31` buckets cannot grow: `2 * num_buckets` is 0, no
buckets are allocated, and the records are put into them nevertheless. And from `2 ^ 28` records on,
`(expand_mult + 1) * 10` may wrap around. An operation that leads there has no result in
`UtHash.step`, so nothing is said of such tables. When there is no memory for new buckets, the
macros end the program (`uthash_fatal`); this is left out.

## Main definitions

* `hashJen`: the hash function
* `UtHash`: a table
* `UtHash.add`, `UtHash.find`, `UtHash.del`: `HASH_ADD_KEYPTR`, `HASH_FIND` and `HASH_DELETE`
* `UtHash.Inv`: what holds of every table

## Main results

* `UtHash.run_chain`: the table is a chain with a lookup that misses nothing
* `UtHash.find_run`: which of several records with one key is found
-/

namespace Psn

open Keyed (key)
open PartialMachine

/-! ### The hash function -/

/-- `HASH_JEN_MIX`. -/
def hashJenMix (a b c : UInt32) : UInt32 × UInt32 × UInt32 :=
  let a := (a - b - c) ^^^ (c >>> 13)
  let b := (b - c - a) ^^^ (a <<< 8)
  let c := (c - a - b) ^^^ (b >>> 13)
  let a := (a - b - c) ^^^ (c >>> 12)
  let b := (b - c - a) ^^^ (a <<< 16)
  let c := (c - a - b) ^^^ (b >>> 5)
  let a := (a - b - c) ^^^ (c >>> 3)
  let b := (b - c - a) ^^^ (a <<< 10)
  let c := (c - a - b) ^^^ (b >>> 15)
  (a, b, c)

/-- Four bytes of a key as a number, with 0 for those behind its end. -/
def hashJenWord (key : CStr) (i : ℕ) : UInt32 :=
  (key.getD i 0).toUInt32 + (key.getD (i + 1) 0).toUInt32 <<< 8 +
    (key.getD (i + 2) 0).toUInt32 <<< 16 + (key.getD (i + 3) 0).toUInt32 <<< 24

/-- The loop of `HASH_JEN` over 12 bytes at a time, and the `switch` for the rest. The lowest byte
of the last word is the place of the length. -/
def hashJenFrom (keylen : UInt32) (i j hashv : UInt32) (key : CStr) : UInt32 :=
  if 12 ≤ key.length then
    let (i, j, hashv) := hashJenMix (i + hashJenWord key 0) (j + hashJenWord key 4)
      (hashv + hashJenWord key 8)
    hashJenFrom keylen i j hashv (key.drop 12)
  else
    (hashJenMix (i + hashJenWord key 0) (j + hashJenWord key 4)
      (hashv + keylen + hashJenWord (0 :: key.drop 8) 0)).2.2
termination_by key.length
decreasing_by
  rw [List.length_drop]
  omega

/-- `HASH_JEN`, without the bucket. -/
def hashJen (key : CStr) : UInt32 :=
  hashJenFrom (UInt32.ofNat key.length) 0x9e3779b9 0x9e3779b9 0xfeedbeef key

/-! ### Tables -/

variable {ν α κ : Type}

/-- A record in a table, with the part of its hash handle that is not a link. -/
structure HashElt (ν α : Type) where
  /-- Where the record is. -/
  addr : ν
  /-- `hashv`. -/
  hashv : UInt32
  /-- The record. -/
  elt : α
  deriving DecidableEq

/-- `UT_hash_bucket`. -/
structure UtHashBucket (ν α : Type) where
  /-- `hh_head` and what is linked to it. -/
  hhHead : List (HashElt ν α)
  /-- `count`. -/
  count : ℕ
  /-- `expand_mult`. -/
  expandMult : ℕ

/-- `UT_hash_table`. -/
structure UtHashTable (ν α : Type) where
  /-- `buckets`. -/
  buckets : List (UtHashBucket ν α)
  /-- `num_buckets`. -/
  numBuckets : ℕ
  /-- `log2_num_buckets`. -/
  log2NumBuckets : ℕ
  /-- `num_items`. -/
  numItems : ℕ
  /-- `ideal_chain_maxlen`. -/
  idealChainMaxlen : ℕ
  /-- `nonideal_items`. -/
  nonidealItems : ℕ
  /-- `ineff_expands`. -/
  ineffExpands : ℕ
  /-- `noexpand`. -/
  noexpand : Bool

/-- A table as the program has it: a pointer to the first record, which is NULL when there is none,
and from there the table. -/
structure UtHash (ν α : Type) where
  /-- The records in the order of `next`. -/
  chain : List (HashElt ν α)
  /-- `head->hh.tbl`. -/
  tbl : Option (UtHashTable ν α)

/-- A bucket with nothing in it. -/
def UtHashBucket.empty : UtHashBucket ν α := ⟨[], 0, 0⟩

/-- `HASH_MAKE_TABLE`. -/
def UtHashTable.make : UtHashTable ν α := ⟨List.replicate 32 .empty, 32, 5, 0, 0, 0, 0, false⟩

/-- `HASH_TO_BKT`. -/
def hashToBkt (hashv : UInt32) (numBkts : ℕ) : ℕ := hashv.toNat &&& (numBkts - 1)

/-- The body of the inner loop of `HASH_EXPAND_BUCKETS`, for the bucket that the record comes to. -/
def UtHashBucket.push (ideal : ℕ) (bucket : UtHashBucket ν α) (e : HashElt ν α) :
    UtHashBucket ν α :=
  ⟨e :: bucket.hhHead, bucket.count + 1,
    if bucket.count + 1 > ideal then (bucket.count + 1) / ideal else bucket.expandMult⟩

/-- The same body, with `nonideal_items`. -/
def rehash (ideal numBkts : ℕ) (s : List (UtHashBucket ν α) × ℕ) (e : HashElt ν α) :
    List (UtHashBucket ν α) × ℕ :=
  let bkt := hashToBkt e.hashv numBkts
  (s.1.modify bkt fun bucket => bucket.push ideal e,
    if ((s.1[bkt]?.getD .empty).count + 1 > ideal) then s.2 + 1 else s.2)

/-- The chain length that `HASH_EXPAND_BUCKETS` aims at. -/
def UtHashTable.ideal (tbl : UtHashTable ν α) : ℕ :=
  tbl.numItems >>> (tbl.log2NumBuckets + 1) +
    if tbl.numItems &&& (tbl.numBuckets * 2 - 1) ≠ 0 then 1 else 0

/-- `HASH_EXPAND_BUCKETS`, of fewer than `2 ^ 31` buckets. A division by 0 has no result. -/
def hashExpandBuckets (tbl : UtHashTable ν α) : Option (UtHashTable ν α) :=
  let ideal := tbl.ideal
  let r := tbl.buckets.foldl (fun s bucket => bucket.hhHead.foldl
    (rehash ideal (tbl.numBuckets * 2)) s) (List.replicate (2 * tbl.numBuckets) .empty, 0)
  let ineffExpands := if r.2 > tbl.numItems >>> 1 then tbl.ineffExpands + 1 else 0
  if ideal = 0 ∧ tbl.buckets.any (fun bucket => !bucket.hhHead.isEmpty) then none
  else some ⟨r.1, tbl.numBuckets * 2, tbl.log2NumBuckets + 1, tbl.numItems, ideal, r.2,
    ineffExpands, decide (ineffExpands > 1) || tbl.noexpand⟩

/-- `HASH_ADD_TO_BKT`. -/
def hashAddToBkt (tbl : UtHashTable ν α) (bkt : ℕ) (e : HashElt ν α) :
    Option (UtHashTable ν α) :=
  (tbl.buckets[bkt]?).bind fun head =>
    let head : UtHashBucket ν α := ⟨e :: head.hhHead, head.count + 1, head.expandMult⟩
    let tbl := { tbl with buckets := tbl.buckets.set bkt head }
    if head.count ≥ (head.expandMult + 1) * 10 ∧ tbl.noexpand = false then hashExpandBuckets tbl
    else some tbl

/-- A table without records. -/
def UtHash.empty : UtHash ν α := ⟨[], none⟩

section

variable [Keyed α κ] (hash : κ → UInt32)

/-- A record that is about to be added. -/
def HashElt.new (addr : ν) (a : α) : HashElt ν α := ⟨addr, hash (key a), a⟩

/-- `HASH_ADD_KEYPTR`. -/
def UtHash.add (t : UtHash ν α) (addr : ν) (a : α) : Option (UtHash ν α) :=
  let tbl := t.tbl.getD .make
  let e := HashElt.new hash addr a
  (hashAddToBkt { tbl with numItems := tbl.numItems + 1 } (hashToBkt e.hashv tbl.numBuckets) e).map
    fun tbl => ⟨t.chain ++ [e], some tbl⟩

/-- `HASH_FIND`, with `HASH_FIND_IN_BKT`. -/
def UtHash.find [DecidableEq κ] (t : UtHash ν α) (k : κ) : Option (HashElt ν α) :=
  t.tbl.bind fun tbl => (tbl.buckets[hashToBkt (hash k) tbl.numBuckets]?).bind fun head =>
    head.hhHead.find? fun e => key e.elt = k

end

/-- `HASH_DELETE`, with `HASH_DEL_IN_BKT`. Deleting what is not in the table has no result. -/
def UtHash.del [DecidableEq ν] (t : UtHash ν α) (addr : ν) : Option (UtHash ν α) :=
  (t.chain.find? fun e => e.addr = addr).bind fun e =>
    if t.chain.length = 1 then some .empty
    else t.tbl.map fun tbl => ⟨t.chain.eraseP fun e => e.addr = addr, some { tbl with
      buckets := tbl.buckets.modify (hashToBkt e.hashv tbl.numBuckets) fun head =>
        { head with hhHead := head.hhHead.eraseP fun e => e.addr = addr, count := head.count - 1 }
      numItems := tbl.numItems - 1 }⟩

/-! ### Buckets -/

/-- With a power of two as the number of buckets, the mask is a remainder. -/
theorem hashToBkt_eq (hashv : UInt32) (k : ℕ) : hashToBkt hashv (2 ^ k) = hashv.toNat % 2 ^ k := by
  rw [hashToBkt, Nat.and_two_pow_sub_one_eq_mod]

/-- So the bucket is always one of them. -/
theorem hashToBkt_lt (hashv : UInt32) (k : ℕ) : hashToBkt hashv (2 ^ k) < 2 ^ k := by
  rw [hashToBkt_eq]
  exact Nat.mod_lt _ (Nat.two_pow_pos k)

/-- The bucket among half as many. -/
theorem hashToBkt_double {hashv : UInt32} {k i : ℕ} (h : hashToBkt hashv (2 ^ (k + 1)) = i) :
    hashToBkt hashv (2 ^ k) = i % 2 ^ k := by
  rw [hashToBkt_eq] at h ⊢
  rw [← h, Nat.mod_mod_of_dvd]
  exact Nat.pow_dvd_pow 2 (Nat.le_succ k)

/-- Records that are put into a bucket one after the other stand there in reverse. -/
theorem foldl_push (ideal : ℕ) (l : List (HashElt ν α)) : ∀ bucket : UtHashBucket ν α,
    (l.foldl (UtHashBucket.push ideal) bucket).hhHead = l.reverse ++ bucket.hhHead ∧
      (l.foldl (UtHashBucket.push ideal) bucket).count = bucket.count + l.length := by
  induction l with
  | nil => exact fun _ => ⟨rfl, rfl⟩
  | cons e l ih =>
    intro bucket
    obtain ⟨hhead, hcount⟩ := ih (bucket.push ideal e)
    rw [List.foldl_cons, hhead, hcount, UtHashBucket.push, List.reverse_cons, List.length_cons]
    refine ⟨by simp, ?_⟩
    show bucket.count + 1 + l.length = bucket.count + (l.length + 1)
    omega

/-- What comes to a bucket in `HASH_EXPAND_BUCKETS`. -/
theorem foldl_rehash (ideal n i : ℕ) (l : List (HashElt ν α)) :
    ∀ s : List (UtHashBucket ν α) × ℕ, (l.foldl (rehash ideal n) s).1[i]? =
      s.1[i]?.map fun bucket =>
        (l.filter fun e => hashToBkt e.hashv n = i).foldl (UtHashBucket.push ideal) bucket := by
  induction l with
  | nil =>
    intro s
    simp
  | cons e l ih =>
    intro s
    rw [List.foldl_cons, ih, rehash, List.getElem?_modify, Option.map_eq_map, Option.map_map]
    by_cases h : hashToBkt e.hashv n = i
    · rw [List.filter_cons_of_pos (by simpa using h)]
      simp [h, Function.comp_def]
    · rw [List.filter_cons_of_neg (by simpa using h)]
      simp [h, Function.comp_def]

/-- Every record is in the bucket for its hash. -/
def Sorted (n : ℕ) (buckets : List (UtHashBucket ν α)) : Prop :=
  ∀ i bucket, buckets[i]? = some bucket → ∀ e ∈ bucket.hhHead, hashToBkt e.hashv n = i

/-- What is asked for in all buckets is in one of them. -/
theorem filter_flatMap_hhHead {n i : ℕ} {buckets : List (UtHashBucket ν α)}
    (h : Sorted n buckets) {bucket : UtHashBucket ν α} (hbucket : buckets[i]? = some bucket)
    {p : HashElt ν α → Bool} (hp : ∀ e, p e = true → hashToBkt e.hashv n = i) :
    (buckets.flatMap UtHashBucket.hhHead).filter p = bucket.hhHead.filter p := by
  obtain ⟨hlt, hget⟩ := List.getElem?_eq_some_iff.mp hbucket
  have hsplit : buckets = buckets.take i ++ bucket :: buckets.drop (i + 1) := by
    rw [← hget, List.getElem_cons_drop, List.take_append_drop]
  have hnone : ∀ part : List (UtHashBucket ν α), (∀ b ∈ part, ∃ j, buckets[j]? = some b ∧ j ≠ i) →
      (part.flatMap UtHashBucket.hhHead).filter p = [] := by
    intro part hpart
    refine List.filter_eq_nil_iff.mpr fun e he hpe => ?_
    obtain ⟨b, hb, heb⟩ := List.mem_flatMap.mp he
    obtain ⟨j, hj, hji⟩ := hpart b hb
    exact hji ((h j b hj e heb).symm.trans (hp e hpe))
  have hpre := hnone (buckets.take i) (by
    intro b hb
    obtain ⟨j, hj, rfl⟩ := List.mem_take_iff_getElem.mp hb
    exact ⟨j, List.getElem?_eq_getElem _, by omega⟩)
  have hpost := hnone (buckets.drop (i + 1)) (by
    intro b hb
    obtain ⟨j, hj, rfl⟩ := List.mem_drop_iff_getElem.mp hb
    exact ⟨i + 1 + j, List.getElem?_eq_getElem _, by omega⟩)
  rw [hsplit, List.flatMap_append, List.flatMap_cons, List.filter_append, List.filter_append, hpre,
    hpost, List.nil_append, List.append_nil]

/-! ### What holds of every table -/

/-- A table for a chain of records. -/
structure UtHashTable.Inv (tbl : UtHashTable ν α) (chain : List (HashElt ν α)) : Prop where
  numBuckets : tbl.numBuckets = 2 ^ tbl.log2NumBuckets
  length : tbl.buckets.length = 2 ^ tbl.log2NumBuckets
  numItems : tbl.numItems = chain.length
  count : ∀ bucket ∈ tbl.buckets, bucket.count = bucket.hhHead.length
  perm : ∀ (i : ℕ) (bucket : UtHashBucket ν α), tbl.buckets[i]? = some bucket →
    bucket.hhHead.Perm (chain.filter fun e => hashToBkt e.hashv (2 ^ tbl.log2NumBuckets) = i)

/-- The records that a lookup for a hash goes through. -/
def UtHashTable.searched (tbl : UtHashTable ν α) (hashv : UInt32) : List (HashElt ν α) :=
  (tbl.buckets[hashToBkt hashv tbl.numBuckets]?).elim [] UtHashBucket.hhHead

namespace UtHashTable.Inv

variable {tbl : UtHashTable ν α} {chain : List (HashElt ν α)}

/-- What the buckets hold. -/
theorem sorted (h : tbl.Inv chain) : Sorted (2 ^ tbl.log2NumBuckets) tbl.buckets :=
  fun i bucket hbucket _ he =>
    of_decide_eq_true (List.mem_filter.mp ((h.perm i bucket hbucket).subset he)).2

/-- Every hash has its bucket. -/
theorem exists_bucket (h : tbl.Inv chain) (hashv : UInt32) :
    ∃ bucket, tbl.buckets[hashToBkt hashv (2 ^ tbl.log2NumBuckets)]? = some bucket :=
  ⟨_, List.getElem?_eq_getElem (by rw [h.length]; exact hashToBkt_lt hashv _)⟩

/-- A search goes through the records of one bucket. -/
theorem searched_eq (h : tbl.Inv chain) {hashv : UInt32} {bucket : UtHashBucket ν α}
    (hbucket : tbl.buckets[hashToBkt hashv (2 ^ tbl.log2NumBuckets)]? = some bucket) :
    tbl.searched hashv = bucket.hhHead := by
  rw [UtHashTable.searched, h.numBuckets, hbucket]
  rfl

/-- A lookup goes through all records with its hash. -/
theorem searched_perm (h : tbl.Inv chain) (hashv : UInt32) :
    (tbl.searched hashv).Perm (chain.filter fun e =>
      hashToBkt e.hashv (2 ^ tbl.log2NumBuckets) =
        hashToBkt hashv (2 ^ tbl.log2NumBuckets)) := by
  obtain ⟨bucket, hbucket⟩ := h.exists_bucket hashv
  rw [h.searched_eq hbucket]
  exact h.perm _ bucket hbucket

end UtHashTable.Inv

/-- A table that is made for the first record is empty. -/
theorem UtHashTable.inv_make : (UtHashTable.make : UtHashTable ν α).Inv [] where
  numBuckets := rfl
  length := rfl
  numItems := rfl
  count := by
    intro bucket hbucket
    rw [List.eq_of_mem_replicate hbucket]
    rfl
  perm := by
    intro i bucket hbucket
    rw [List.eq_of_mem_replicate (List.mem_of_getElem? hbucket)]
    exact List.Perm.refl _

/-- The length that `HASH_EXPAND_BUCKETS` divides by is not 0. -/
theorem UtHashTable.Inv.ideal_ne_zero {tbl : UtHashTable ν α} {chain : List (HashElt ν α)}
    (h : tbl.Inv chain) (hne : chain ≠ []) : tbl.ideal ≠ 0 := by
  have hnum : tbl.numItems ≠ 0 := by
    rw [h.numItems]
    exact fun hzero => hne (List.length_eq_zero_iff.mp hzero)
  rw [UtHashTable.ideal, h.numBuckets, ← Nat.pow_succ, Nat.and_two_pow_sub_one_eq_mod,
    Nat.shiftRight_eq_div_pow]
  by_cases hmod : tbl.numItems % 2 ^ (tbl.log2NumBuckets + 1) = 0
  · have hdiv : tbl.numItems / 2 ^ (tbl.log2NumBuckets + 1) ≠ 0 := by
      intro hzero
      have hsum := Nat.div_add_mod tbl.numItems (2 ^ (tbl.log2NumBuckets + 1))
      rw [hzero, hmod] at hsum
      exact hnum hsum.symm
    exact fun hzero => hdiv (Nat.eq_zero_of_add_eq_zero hzero).1
  · rw [if_pos hmod]
    exact Nat.succ_ne_zero _

/-- Putting records into other buckets leaves the number of buckets. -/
theorem length_foldl_rehash (ideal n : ℕ) (l : List (HashElt ν α)) :
    ∀ s : List (UtHashBucket ν α) × ℕ, (l.foldl (rehash ideal n) s).1.length = s.1.length := by
  induction l with
  | nil => exact fun _ => rfl
  | cons e l ih =>
    intro s
    rw [List.foldl_cons, ih, rehash, List.length_modify]

/-- A bucket after the loops of `HASH_EXPAND_BUCKETS`. -/
theorem rehash_buckets {k i : ℕ} {buckets : List (UtHashBucket ν α)}
    (hsorted : Sorted (2 ^ k) buckets) (hlength : buckets.length = 2 ^ k) (ideal m : ℕ)
    {bucket' : UtHashBucket ν α} (h : ((buckets.flatMap UtHashBucket.hhHead).foldl
      (rehash ideal (2 ^ (k + 1))) (List.replicate m .empty, 0)).1[i]? = some bucket') :
    ∃ bucket, buckets[i % 2 ^ k]? = some bucket ∧
      bucket'.hhHead = (bucket.hhHead.filter fun e =>
        hashToBkt e.hashv (2 ^ (k + 1)) = i).reverse ∧
      bucket'.count = bucket'.hhHead.length := by
  rw [foldl_rehash] at h
  obtain ⟨bucket₀, hbucket₀, rfl⟩ := Option.map_eq_some_iff.mp h
  rw [List.eq_of_mem_replicate (List.mem_of_getElem? hbucket₀)]
  have hbucket : buckets[i % 2 ^ k]? = some _ :=
    List.getElem?_eq_getElem (by rw [hlength]; exact Nat.mod_lt _ (Nat.two_pow_pos k))
  obtain ⟨hhead, hcount⟩ := foldl_push ideal ((buckets.flatMap UtHashBucket.hhHead).filter
    fun e => hashToBkt e.hashv (2 ^ (k + 1)) = i) .empty
  refine ⟨_, hbucket, ?_, ?_⟩
  · rw [hhead, filter_flatMap_hhHead hsorted hbucket fun e he =>
      hashToBkt_double (of_decide_eq_true he)]
    exact List.append_nil _
  · rw [hcount, hhead, List.length_append, List.length_reverse, Nat.add_comm]
    rfl

/-- **`HASH_EXPAND_BUCKETS`** is defined, keeps every record, and turns the order around in which
those with one hash are found. -/
theorem hashExpandBuckets_spec {tbl : UtHashTable ν α} {chain : List (HashElt ν α)}
    (h : tbl.Inv chain) (hne : chain ≠ []) :
    ∃ tbl', hashExpandBuckets tbl = some tbl' ∧ tbl'.Inv chain ∧
      tbl'.log2NumBuckets = tbl.log2NumBuckets + 1 ∧
      ∀ hashv, tbl'.searched hashv = ((tbl.searched hashv).filter fun e =>
        hashToBkt e.hashv (2 ^ (tbl.log2NumBuckets + 1)) =
          hashToBkt hashv (2 ^ (tbl.log2NumBuckets + 1))).reverse := by
  have hideal := h.ideal_ne_zero hne
  rw [hashExpandBuckets, ← List.foldl_flatMap, h.numBuckets, ← Nat.pow_succ]
  have hbuckets := fun i bucket' => @rehash_buckets ν α tbl.log2NumBuckets i tbl.buckets h.sorted
    h.length tbl.ideal (2 * 2 ^ tbl.log2NumBuckets) bucket'
  have hlength := length_foldl_rehash tbl.ideal (2 ^ (tbl.log2NumBuckets + 1))
    (tbl.buckets.flatMap UtHashBucket.hhHead)
    (List.replicate (2 * 2 ^ tbl.log2NumBuckets) .empty, 0)
  rw [List.length_replicate] at hlength
  generalize hr : (tbl.buckets.flatMap UtHashBucket.hhHead).foldl _ _ = r at hbuckets hlength ⊢
  rw [if_neg fun hzero => hideal hzero.1]
  have hpow : (2 : ℕ) ^ (tbl.log2NumBuckets + 1) = 2 * 2 ^ tbl.log2NumBuckets := by
    rw [Nat.pow_succ, Nat.mul_comm]
  refine ⟨_, rfl, ⟨rfl, ?_, h.numItems, ?_, ?_⟩, rfl, fun hashv => ?_⟩
  · show r.1.length = 2 ^ (tbl.log2NumBuckets + 1)
    rw [hlength, hpow]
  · intro bucket' hbucket'
    obtain ⟨i, hi⟩ := List.getElem?_of_mem hbucket'
    obtain ⟨bucket, -, -, hcount⟩ := hbuckets i bucket' hi
    exact hcount
  · intro i bucket' hbucket'
    obtain ⟨bucket, hbucket, hhead, -⟩ := hbuckets i bucket' hbucket'
    rw [hhead]
    refine (List.reverse_perm _).trans (((h.perm _ bucket hbucket).filter _).trans ?_)
    rw [List.filter_filter]
    refine List.Perm.of_eq (List.filter_congr fun e _ => ?_)
    show (decide (hashToBkt e.hashv (2 ^ (tbl.log2NumBuckets + 1)) = i) && _) = _
    by_cases he : hashToBkt e.hashv (2 ^ (tbl.log2NumBuckets + 1)) = i
    · rw [decide_eq_true he, decide_eq_true (hashToBkt_double he)]
      rfl
    · rw [decide_eq_false he]
      rfl
  · have hlt : hashToBkt hashv (2 ^ (tbl.log2NumBuckets + 1)) < r.1.length := by
      rw [hlength, ← hpow]
      exact hashToBkt_lt hashv _
    obtain ⟨bucket, hbucket, hhead, -⟩ := hbuckets _ _ (List.getElem?_eq_getElem hlt)
    rw [← hashToBkt_double rfl] at hbucket
    rw [h.searched_eq hbucket, ← hhead, UtHashTable.searched]
    show (r.1[hashToBkt hashv (2 ^ (tbl.log2NumBuckets + 1))]?).elim [] _ = _
    rw [List.getElem?_eq_getElem hlt]
    rfl

/-- A record comes to the head of its bucket. -/
structure UtHashTable.Linked (tbl tbl₁ : UtHashTable ν α) (e : HashElt ν α)
    (head : UtHashBucket ν α) : Prop where
  hhead : tbl.buckets[hashToBkt e.hashv (2 ^ tbl.log2NumBuckets)]? = some head
  numBuckets : tbl₁.numBuckets = tbl.numBuckets
  log2NumBuckets : tbl₁.log2NumBuckets = tbl.log2NumBuckets
  numItems : tbl₁.numItems = tbl.numItems + 1
  buckets : tbl₁.buckets = tbl.buckets.set (hashToBkt e.hashv (2 ^ tbl.log2NumBuckets))
    ⟨e :: head.hhHead, head.count + 1, head.expandMult⟩

namespace UtHashTable.Linked

variable {tbl tbl₁ : UtHashTable ν α} {chain : List (HashElt ν α)} {e : HashElt ν α}
  {head : UtHashBucket ν α}

/-- A record that is linked and put into its bucket is one more record of the chain. -/
theorem inv (hl : tbl.Linked tbl₁ e head) (h : tbl.Inv chain) : tbl₁.Inv (chain ++ [e]) where
  numBuckets := by rw [hl.numBuckets, hl.log2NumBuckets, h.numBuckets]
  length := by rw [hl.buckets, hl.log2NumBuckets, List.length_set, h.length]
  numItems := by rw [hl.numItems, h.numItems, List.length_append, List.length_singleton]
  count := by
    intro bucket hbucket
    rw [hl.buckets] at hbucket
    rcases List.mem_or_eq_of_mem_set hbucket with hbucket | rfl
    · exact h.count bucket hbucket
    · show head.count + 1 = (e :: head.hhHead).length
      rw [h.count head (List.mem_of_getElem? hl.hhead), List.length_cons]
  perm := by
    intro i bucket hbucket
    rw [hl.buckets] at hbucket
    rw [hl.log2NumBuckets, List.filter_append]
    by_cases hi : hashToBkt e.hashv (2 ^ tbl.log2NumBuckets) = i
    · subst hi
      rw [List.getElem?_set_self (List.getElem?_eq_some_iff.mp hl.hhead).1] at hbucket
      rw [← Option.some.inj hbucket, List.filter_cons_of_pos (by simp), List.filter_nil]
      exact ((h.perm _ head hl.hhead).cons e).trans (List.perm_append_singleton _ _).symm
    · rw [List.getElem?_set_ne hi] at hbucket
      rw [List.filter_cons_of_neg (by simpa using hi), List.filter_nil, List.append_nil]
      exact h.perm i bucket hbucket

/-- It is found first. -/
theorem searched (hl : tbl.Linked tbl₁ e head) (h : tbl.Inv chain) (hashv : UInt32) :
    tbl₁.searched hashv = (if hashToBkt e.hashv (2 ^ tbl.log2NumBuckets) =
      hashToBkt hashv (2 ^ tbl.log2NumBuckets) then [e] else []) ++ tbl.searched hashv := by
  rw [UtHashTable.searched, UtHashTable.searched, hl.numBuckets, hl.buckets, h.numBuckets]
  by_cases hi : hashToBkt e.hashv (2 ^ tbl.log2NumBuckets) =
      hashToBkt hashv (2 ^ tbl.log2NumBuckets)
  · rw [if_pos hi, ← hi, List.getElem?_set_self (List.getElem?_eq_some_iff.mp hl.hhead).1,
      hl.hhead]
    rfl
  · rw [if_neg hi, List.getElem?_set_ne hi]
    rfl

end UtHashTable.Linked

section Hashed

variable [Keyed α κ]

/-- The hash values are those of the keys. -/
def Hashed (hash : κ → UInt32) (chain : List (HashElt ν α)) : Prop :=
  ∀ e ∈ chain, e.hashv = hash (key e.elt)

/-- What holds of every table of the program. -/
structure UtHash.Inv (hash : κ → UInt32) (t : UtHash ν α) : Prop where
  addrs : (t.chain.map HashElt.addr).Nodup
  hashed : Hashed hash t.chain
  table : ∀ tbl, t.tbl = some tbl → tbl.Inv t.chain ∧ t.chain ≠ []
  chain_eq_nil : t.tbl = none → t.chain = []

/-- A list without a table is empty. -/
theorem UtHash.inv_empty (hash : κ → UInt32) : (UtHash.empty : UtHash ν α).Inv hash where
  addrs := List.nodup_nil
  hashed := fun _ he => absurd he List.not_mem_nil
  table := fun _ h => absurd h (Option.some_ne_none _).symm
  chain_eq_nil := fun _ => rfl

end Hashed

section Keys

variable [Keyed α κ] [DecidableEq κ] {hash : κ → UInt32}

/-- The records with a key, in the order in which a lookup comes to them. -/
def UtHashTable.sameKey (hash : κ → UInt32) (tbl : UtHashTable ν α) (k : κ) :
    List (HashElt ν α) := (tbl.searched (hash k)).filter fun e => key e.elt = k

/-- **`HASH_ADD_TO_BKT`** is defined. The new record is the first one that is found, unless the
table grows, which turns the order around for every key. -/
theorem hashAddToBkt_spec {tbl : UtHashTable ν α} {chain : List (HashElt ν α)}
    (h : tbl.Inv chain) {e : HashElt ν α} (hhashed : Hashed hash (chain ++ [e])) :
    ∃ tbl' grew, hashAddToBkt { tbl with numItems := tbl.numItems + 1 }
        (hashToBkt e.hashv tbl.numBuckets) e = some tbl' ∧ tbl'.Inv (chain ++ [e]) ∧
      tbl'.log2NumBuckets = tbl.log2NumBuckets + Bool.toNat grew ∧
      ∀ k, tbl'.sameKey hash k = if grew
        then ((if key e.elt = k then [e] else []) ++ tbl.sameKey hash k).reverse
        else (if key e.elt = k then [e] else []) ++ tbl.sameKey hash k := by
  obtain ⟨head, hhead⟩ := h.exists_bucket e.hashv
  generalize htbl₁ : ({ tbl with
      numItems := tbl.numItems + 1
      buckets := tbl.buckets.set (hashToBkt e.hashv (2 ^ tbl.log2NumBuckets))
        ⟨e :: head.hhHead, head.count + 1, head.expandMult⟩ } : UtHashTable ν α) = tbl₁
  have hlinked : tbl.Linked tbl₁ e head := by
    subst htbl₁
    exact ⟨hhead, rfl, rfl, rfl, rfl⟩
  have hcalled : hashAddToBkt { tbl with numItems := tbl.numItems + 1 }
      (hashToBkt e.hashv tbl.numBuckets) e =
        if head.count + 1 ≥ (head.expandMult + 1) * 10 ∧ tbl₁.noexpand = false then
          hashExpandBuckets tbl₁ else some tbl₁ := by
    have hbkt : hashToBkt e.hashv tbl.numBuckets =
        hashToBkt e.hashv (2 ^ tbl.log2NumBuckets) := by rw [h.numBuckets]
    rw [hashAddToBkt, hbkt]
    show (tbl.buckets[hashToBkt e.hashv (2 ^ tbl.log2NumBuckets)]?).bind _ = _
    rw [hhead, Option.bind_some, ← htbl₁]
  have hinv := hlinked.inv h
  have hkeys : ∀ k, tbl₁.sameKey hash k =
      (if key e.elt = k then [e] else []) ++ tbl.sameKey hash k := by
    intro k
    rw [UtHashTable.sameKey, hlinked.searched h, List.filter_append]
    refine congrArg (· ++ _) ?_
    by_cases hk : key e.elt = k
    · have hhash : e.hashv = hash k := by
        rw [← hk]
        exact hhashed e (List.mem_append_right _ List.mem_cons_self)
      rw [if_pos hk, if_pos (by rw [hhash]), List.filter_cons_of_pos (by simpa using hk)]
      rfl
    · rw [if_neg hk]
      split
      · rw [List.filter_cons_of_neg (by simpa using hk)]
        rfl
      · rfl
  rw [hcalled]
  split
  · obtain ⟨tbl', hexpand, hinv', hlog, hsearched⟩ :=
      hashExpandBuckets_spec hinv (List.append_ne_nil_of_right_ne_nil _ (List.cons_ne_nil e []))
    refine ⟨tbl', true, hexpand, hinv', ?_, fun k => ?_⟩
    · rw [hlog, hlinked.log2NumBuckets]
      rfl
    · rw [if_pos rfl, ← hkeys, UtHashTable.sameKey, hsearched, List.filter_reverse,
        List.filter_filter]
      refine congrArg List.reverse (List.filter_congr fun x hx => ?_)
      have hmem := (List.mem_filter.mp ((hinv.searched_perm (hash k)).subset hx)).1
      by_cases hk : key x.elt = k
      · rw [hhashed x hmem, hk]
        simp
      · simp [hk]
  · exact ⟨tbl₁, false, rfl, hinv, hlinked.log2NumBuckets, hkeys⟩

/-- What a search comes upon is in the chain and has the key, -/
theorem mem_chain_of_mem_sameKey {tbl : UtHashTable ν α} {chain : List (HashElt ν α)}
    (h : tbl.Inv chain) {k : κ} {e : HashElt ν α} (he : e ∈ tbl.sameKey hash k) :
    e ∈ chain ∧ key e.elt = k := by
  obtain ⟨hmem, hkey⟩ := List.mem_filter.mp he
  exact ⟨(List.mem_filter.mp ((h.searched_perm (hash k)).subset hmem)).1, of_decide_eq_true hkey⟩

/-- and everything in the chain that has the key is come upon. -/
theorem mem_sameKey {tbl : UtHashTable ν α} {chain : List (HashElt ν α)} (h : tbl.Inv chain)
    (hhashed : Hashed hash chain) {e : HashElt ν α} (he : e ∈ chain) :
    e ∈ tbl.sameKey hash (key e.elt) := by
  refine List.mem_filter.mpr ⟨(h.searched_perm _).symm.subset ?_, decide_eq_true rfl⟩
  exact List.mem_filter.mpr ⟨he, decide_eq_true (by rw [hhashed e he])⟩

/-- The records with a key, in the order in which a lookup comes to them. -/
def UtHash.sameKey (hash : κ → UInt32) (t : UtHash ν α) (k : κ) : List (HashElt ν α) :=
  t.tbl.elim [] fun tbl => tbl.sameKey hash k

/-- `log2_num_buckets`. -/
def UtHash.log2 (t : UtHash ν α) : ℕ := (t.tbl.getD .make).log2NumBuckets

/-- **`HASH_FIND`** finds the first of the records with the key. -/
theorem UtHash.find_eq (t : UtHash ν α) (k : κ) : t.find hash k = (t.sameKey hash k).head? := by
  rw [UtHash.find, UtHash.sameKey]
  cases t.tbl with
  | none => rfl
  | some tbl =>
    rw [Option.bind_some, Option.elim_some, UtHashTable.sameKey, List.head?_filter,
      UtHashTable.searched]
    cases tbl.buckets[hashToBkt (hash k) tbl.numBuckets]? with
    | none => rfl
    | some head => rfl

/-- Both, for a list. -/
theorem UtHash.Inv.mem_sameKey_iff {t : UtHash ν α} (h : t.Inv hash) {k : κ}
    {e : HashElt ν α} : e ∈ t.sameKey hash k ↔ e ∈ t.chain ∧ key e.elt = k := by
  rw [UtHash.sameKey]
  cases htbl : t.tbl with
  | none => simp [h.chain_eq_nil htbl]
  | some tbl =>
    have hinv := (h.table tbl htbl).1
    refine ⟨mem_chain_of_mem_sameKey hinv, ?_⟩
    rintro ⟨hmem, rfl⟩
    exact mem_sameKey hinv h.hashed hmem

/-- **`HASH_ADD_KEYPTR`** is defined, and puts the record at the end of the chain. -/
theorem UtHash.Inv.add {t : UtHash ν α} (h : t.Inv hash) {addr : ν}
    (hfresh : addr ∉ t.chain.map HashElt.addr) (a : α) :
    ∃ t' grew, t.add hash addr a = some t' ∧ t'.Inv hash ∧
      t'.chain = t.chain ++ [HashElt.new hash addr a] ∧ t'.log2 = t.log2 + Bool.toNat grew ∧
      ∀ k, t'.sameKey hash k = if grew
        then ((if key a = k then [HashElt.new hash addr a] else []) ++ t.sameKey hash k).reverse
        else (if key a = k then [HashElt.new hash addr a] else []) ++ t.sameKey hash k := by
  have hinv : (t.tbl.getD .make).Inv t.chain := by
    cases htbl : t.tbl with
    | none =>
      rw [h.chain_eq_nil htbl]
      exact UtHashTable.inv_make
    | some tbl => exact (h.table tbl htbl).1
  have hhashed : Hashed hash (t.chain ++ [HashElt.new hash addr a]) := by
    intro e he
    rcases List.mem_append.mp he with he | he
    · exact h.hashed e he
    · rw [List.mem_singleton.mp he]
      rfl
  have hkeys : ∀ k, (t.tbl.getD .make).sameKey hash k = t.sameKey hash k := by
    intro k
    rw [UtHash.sameKey]
    cases t.tbl with
    | none =>
      rw [Option.getD_none, UtHashTable.sameKey,
        (UtHashTable.inv_make.searched_perm (hash k)).eq_nil]
      rfl
    | some tbl => rfl
  obtain ⟨tbl', grew, hadd, hinv', hlog, hsame⟩ := hashAddToBkt_spec hinv hhashed
  refine ⟨⟨t.chain ++ [HashElt.new hash addr a], some tbl'⟩, grew, ?_, ⟨?_, hhashed, ?_, ?_⟩, rfl,
    hlog, fun k => ?_⟩
  · rw [UtHash.add, hadd]
    rfl
  · rw [List.map_append, List.map_singleton]
    refine List.nodup_append.mpr ⟨h.addrs, List.nodup_singleton _, fun x hx y hy heq => ?_⟩
    rw [List.mem_singleton.mp hy] at heq
    have heq : x = addr := heq
    exact hfresh (heq ▸ hx)
  · rintro tbl htbl
    cases htbl
    exact ⟨hinv', List.append_ne_nil_of_right_ne_nil _ (List.cons_ne_nil _ [])⟩
  · exact fun hnone => absurd hnone (Option.some_ne_none _)
  · rw [← hkeys]
    exact hsame k

/-- The loops that look for a record by its address find the only one. -/
theorem eraseP_addr [DecidableEq ν] {addr : ν} {l : List (HashElt ν α)}
    (h : (l.map HashElt.addr).Nodup) :
    l.eraseP (fun e => e.addr = addr) = l.filter fun e => e.addr ≠ addr := by
  induction l with
  | nil => rfl
  | cons e l ih =>
    rw [List.map_cons, List.nodup_cons] at h
    by_cases he : e.addr = addr
    · rw [List.eraseP_cons_of_pos (by simpa using he), List.filter_cons_of_neg (by simpa using he)]
      have hne : ∀ x ∈ l, x.addr ≠ addr := by
        intro x hx hxe
        refine h.1 ?_
        rw [he, ← hxe]
        exact List.mem_map_of_mem hx
      exact (List.filter_eq_self.mpr fun x hx => by simpa using hne x hx).symm
    · rw [List.eraseP_cons_of_neg (by simpa using he), List.filter_cons_of_pos (by simpa using he),
        ih h.2]

/-- A record is gone from its bucket. -/
theorem UtHashTable.Inv.delInBkt [DecidableEq ν] {tbl tbl' : UtHashTable ν α}
    {chain : List (HashElt ν α)} (h : tbl.Inv chain) (haddrs : (chain.map HashElt.addr).Nodup)
    {e : HashElt ν α} (he : e ∈ chain) (hnum : tbl'.numBuckets = tbl.numBuckets)
    (hlog : tbl'.log2NumBuckets = tbl.log2NumBuckets) (hitems : tbl'.numItems = tbl.numItems - 1)
    (hbuckets : tbl'.buckets = tbl.buckets.modify (hashToBkt e.hashv (2 ^ tbl.log2NumBuckets))
      fun head => { head with
        hhHead := head.hhHead.eraseP fun x => x.addr = e.addr, count := head.count - 1 }) :
    tbl'.Inv (chain.filter fun x => x.addr ≠ e.addr) ∧
      ∀ hashv, tbl'.searched hashv = (tbl.searched hashv).filter fun x => x.addr ≠ e.addr := by
  have hbucket : ∀ (i : ℕ) (bucket' : UtHashBucket ν α), tbl'.buckets[i]? = some bucket' →
      ∃ bucket : UtHashBucket ν α, tbl.buckets[i]? = some bucket ∧
        bucket'.hhHead = (bucket.hhHead.filter fun x => x.addr ≠ e.addr) ∧
          bucket'.count = bucket'.hhHead.length := by
    intro i bucket' hi
    rw [hbuckets, List.getElem?_modify, Option.map_eq_map] at hi
    obtain ⟨bucket, hold, heq⟩ := Option.map_eq_some_iff.mp hi
    have hperm := h.perm i bucket hold
    have hcount := h.count bucket (List.mem_of_getElem? hold)
    refine ⟨bucket, hold, ?_⟩
    by_cases hbkt : hashToBkt e.hashv (2 ^ tbl.log2NumBuckets) = i
    · have hmem : e ∈ bucket.hhHead :=
        hperm.symm.subset (List.mem_filter.mpr ⟨he, decide_eq_true hbkt⟩)
      have hnodup : (bucket.hhHead.map HashElt.addr).Nodup :=
        (hperm.map _).nodup_iff.mpr (haddrs.sublist (List.filter_sublist.map _))
      rw [if_pos hbkt] at heq
      subst heq
      refine ⟨eraseP_addr hnodup, ?_⟩
      show bucket.count - 1 = (bucket.hhHead.eraseP _).length
      rw [List.length_eraseP_of_mem hmem (by simp), hcount]
    · rw [if_neg hbkt] at heq
      subst heq
      refine ⟨(List.filter_eq_self.mpr fun x hx => ?_).symm, hcount⟩
      obtain ⟨hx, hxi⟩ := List.mem_filter.mp (hperm.subset hx)
      have hne : x.addr ≠ e.addr := fun heq =>
        hbkt (List.inj_on_of_nodup_map haddrs hx he heq ▸ of_decide_eq_true hxi)
      simpa using hne
  have hlength : tbl'.buckets.length = 2 ^ tbl.log2NumBuckets := by
    rw [hbuckets, List.length_modify, h.length]
  refine ⟨⟨?_, ?_, ?_, fun bucket' hbucket' => ?_, fun i bucket' hbucket' => ?_⟩, fun hashv => ?_⟩
  · rw [hnum, hlog, h.numBuckets]
  · rw [hlength, hlog]
  · rw [hitems, h.numItems, ← eraseP_addr haddrs, List.length_eraseP_of_mem he (by simp)]
  · obtain ⟨i, hi⟩ := List.getElem?_of_mem hbucket'
    obtain ⟨bucket, -, -, hcount⟩ := hbucket i bucket' hi
    exact hcount
  · obtain ⟨bucket, hold, hhead, -⟩ := hbucket i bucket' hbucket'
    rw [hhead, hlog, List.filter_comm]
    exact (h.perm i bucket hold).filter _
  · have hlt : hashToBkt hashv tbl'.numBuckets < tbl'.buckets.length := by
      rw [hlength, hnum, h.numBuckets]
      exact hashToBkt_lt hashv _
    obtain ⟨bucket, hold, hhead, -⟩ := hbucket _ _ (List.getElem?_eq_getElem hlt)
    rw [UtHashTable.searched, UtHashTable.searched, ← hnum, hold, List.getElem?_eq_getElem hlt,
      Option.elim_some, Option.elim_some, hhead]

/-- **`HASH_DELETE`** is defined for every record in the table, and takes out no other. -/
theorem UtHash.Inv.del [DecidableEq ν] {t : UtHash ν α} (h : t.Inv hash) {addr : ν}
    (hmem : addr ∈ t.chain.map HashElt.addr) :
    ∃ t', t.del addr = some t' ∧ t'.Inv hash ∧
      t'.chain = t.chain.filter (fun e => e.addr ≠ addr) ∧
      (t'.chain ≠ [] → t'.log2 = t.log2) ∧
      ∀ k, t'.sameKey hash k = (t.sameKey hash k).filter fun e => e.addr ≠ addr := by
  have haddrs := h.addrs
  obtain ⟨e, he, rfl⟩ := List.mem_map.mp hmem
  have hfind : t.chain.find? (fun x => x.addr = e.addr) = some e := by
    cases hfound : t.chain.find? fun x => x.addr = e.addr with
    | none => exact absurd (decide_eq_true rfl) (List.find?_eq_none.mp hfound e he)
    | some x =>
      have haddr : x.addr = e.addr := by simpa using List.find?_some hfound
      rw [List.inj_on_of_nodup_map haddrs (List.mem_of_find?_eq_some hfound) he haddr]
  obtain ⟨tbl, htbl⟩ : ∃ tbl, t.tbl = some tbl := by
    cases htbl : t.tbl with
    | none => exact absurd he (by rw [h.chain_eq_nil htbl]; exact List.not_mem_nil)
    | some tbl => exact ⟨tbl, rfl⟩
  have hinv := (h.table tbl htbl).1
  rw [UtHash.del, hfind, Option.bind_some]
  by_cases hone : t.chain.length = 1
  · obtain ⟨first, hfirst⟩ := List.length_eq_one_iff.mp hone
    have hnil : t.chain.filter (fun x => x.addr ≠ e.addr) = [] := by
      rw [hfirst] at he ⊢
      rw [List.mem_singleton.mp he]
      simp
    rw [if_pos hone]
    refine ⟨.empty, rfl, inv_empty hash, hnil.symm, fun hne => absurd rfl hne, fun k => ?_⟩
    refine (List.filter_eq_nil_iff.mpr fun x hx => ?_).symm
    exact List.filter_eq_nil_iff.mp hnil x (h.mem_sameKey_iff.mp hx).1
  · have hbkt : hashToBkt e.hashv tbl.numBuckets = hashToBkt e.hashv (2 ^ tbl.log2NumBuckets) := by
      rw [hinv.numBuckets]
    rw [if_neg hone, htbl, Option.map_some, eraseP_addr haddrs, hbkt]
    generalize htbl' : ({ tbl with
      buckets := tbl.buckets.modify (hashToBkt e.hashv (2 ^ tbl.log2NumBuckets)) fun head =>
        { head with hhHead := head.hhHead.eraseP fun x => x.addr = e.addr, count := head.count - 1 }
      numItems := tbl.numItems - 1 } : UtHashTable ν α) = tbl'
    have hlog : tbl'.log2NumBuckets = tbl.log2NumBuckets := by rw [← htbl']
    obtain ⟨hinv', hsearched⟩ : tbl'.Inv _ ∧ _ := hinv.delInBkt haddrs he (by rw [← htbl']) hlog
      (by rw [← htbl']) (by rw [← htbl'])
    refine ⟨⟨_, some tbl'⟩, rfl, ⟨haddrs.sublist (List.filter_sublist.map _), fun x hx =>
      h.hashed x (List.mem_filter.mp hx).1, fun tbl₁ htbl₁ => ?_, fun hnone => ?_⟩, rfl,
      fun _ => ?_, fun k => ?_⟩
    · obtain rfl := Option.some.inj htbl₁
      refine ⟨hinv', fun hnil => hone ?_⟩
      have hnil : t.chain.filter (fun x => x.addr ≠ e.addr) = [] := hnil
      have hlength : (t.chain.eraseP fun x => x.addr = e.addr).length = _ :=
        List.length_eraseP_of_mem he (by simp)
      rw [eraseP_addr haddrs, hnil, List.length_nil] at hlength
      have hpos := List.length_pos_of_mem he
      omega
    · exact absurd hnone (Option.some_ne_none tbl')
    · show tbl'.log2NumBuckets = _
      rw [hlog, UtHash.log2, htbl]
      rfl
    · show tbl'.sameKey hash k = _
      rw [UtHash.sameKey, htbl, Option.elim_some, UtHashTable.sameKey, hsearched,
        UtHashTable.sameKey, List.filter_comm]

/-- A lookup finds a record with the key if there is one. -/
theorem UtHash.Inv.find {t : UtHash ν α} (h : t.Inv hash) (k : κ) :
    (t.find hash k).elim (∀ e ∈ t.chain, key e.elt ≠ k) fun e => e ∈ t.chain ∧ key e.elt = k := by
  rw [t.find_eq k]
  cases hsame : t.sameKey hash k with
  | nil =>
    intro e he hkey
    have hmem := h.mem_sameKey_iff.mpr ⟨he, hkey⟩
    rw [hsame] at hmem
    cases hmem
  | cons e rest =>
    have hmem : e ∈ t.sameKey hash k := by
      rw [hsame]
      exact List.mem_cons_self
    exact h.mem_sameKey_iff.mp hmem

end Keys

/-! ### Runs -/

/-- The list turned around as often as this. -/
def turned (n : ℕ) (l : List (HashElt ν α)) : List (HashElt ν α) :=
  if n % 2 = 0 then l else l.reverse

/-- Turning nothing. -/
theorem turned_nil (n : ℕ) : turned n ([] : List (HashElt ν α)) = [] := by
  rw [turned, List.reverse_nil, ite_self]

/-- The list is turned once for each time that the buckets are doubled. -/
theorem turned_turned (m n : ℕ) (l : List (HashElt ν α)) :
    turned m (turned n l) = turned (n + m) l := by
  rw [turned, turned, turned]
  rcases Nat.mod_two_eq_zero_or_one m with hm | hm <;>
    rcases Nat.mod_two_eq_zero_or_one n with hn | hn <;>
      simp [Nat.add_mod, hm, hn]

/-- No record gets lost by it. -/
theorem turned_ne_nil {n : ℕ} {l : List (HashElt ν α)} (h : l ≠ []) : turned n l ≠ [] := by
  rw [turned]
  split
  · exact h
  · exact fun hnil => h (List.reverse_eq_nil_iff.mp hnil)

/-- More than `2 ^ 31` buckets, or so many records that a counter may wrap around. -/
def UtHash.Outgrown (t : UtHash ν α) : Prop := 31 < t.log2 ∨ 2 ^ 28 ≤ t.chain.length

instance (t : UtHash ν α) : Decidable t.Outgrown := inferInstanceAs (Decidable (_ ∨ _))

/-- What a program does with a table. -/
inductive HashOp (ν α κ : Type)
  /-- `HASH_ADD_KEYPTR`. -/
  | add (addr : ν) (a : α)
  /-- `HASH_FIND`. -/
  | find (k : κ)
  /-- `HASH_DELETE`. -/
  | del (addr : ν)

section Runs

variable [Keyed α κ] [DecidableEq κ] [DecidableEq ν] (hash : κ → UInt32)

/-- One operation. A record that is in the table must not be added again, and the table must not
outgrow its counters. -/
def UtHash.step (t : UtHash ν α) :
    HashOp ν α κ → Option (Option (HashElt ν α) × UtHash ν α)
  | .add addr a =>
    if addr ∈ t.chain.map HashElt.addr then none
    else (t.add hash addr a).bind fun t' => if t'.Outgrown then none else some (none, t')
  | .find k => some (t.find hash k, t)
  | .del addr => (t.del addr).map fun t' => (none, t')

/-- One operation on a chain without buckets, and what it may return. -/
def chainStep (chain : List (HashElt ν α)) :
    HashOp ν α κ → Option ((Option (HashElt ν α) → Prop) × List (HashElt ν α))
  | .add addr a =>
    if addr ∈ chain.map HashElt.addr then none
    else some (fun o => o = none, chain ++ [HashElt.new hash addr a])
  | .find k => some (fun o => o.elim (∀ e ∈ chain, key e.elt ≠ k) fun e =>
      e ∈ chain ∧ key e.elt = k, chain)
  | .del addr =>
    if addr ∈ chain.map HashElt.addr then
      some (fun o => o = none, chain.filter fun e => e.addr ≠ addr)
    else none

/-- The table does not outgrow its counters with this operation. -/
def HashOp.Fits (t : UtHash ν α) : HashOp ν α κ → Prop
  | .add addr a => ∀ t', t.add hash addr a = some t' → ¬t'.Outgrown
  | .find _ => True
  | .del _ => True

variable {hash}

/-- A record that is not in the chain cannot be deleted from it. -/
theorem UtHash.del_of_not_mem {t : UtHash ν α} {addr : ν}
    (h : addr ∉ t.chain.map HashElt.addr) : t.del addr = none := by
  have hfind : t.chain.find? (fun e => e.addr = addr) = none :=
    List.find?_eq_none.mpr fun e he heq =>
      h (of_decide_eq_true heq ▸ List.mem_map_of_mem he)
  rw [UtHash.del, hfind]
  rfl

/-- An add that has a result is one to the table and one to its chain. -/
theorem UtHash.step_add {t t' : UtHash ν α} {addr : ν} {a : α} {out : Option (HashElt ν α)}
    (h : UtHash.step hash t (.add addr a) = some (out, t')) :
    addr ∉ t.chain.map HashElt.addr ∧ t.add hash addr a = some t' ∧ ¬t'.Outgrown ∧ out = none := by
  rw [UtHash.step] at h
  obtain ⟨hmem, h⟩ := Option.ite_none_left_eq_some.mp h
  obtain ⟨t₁, hadd, h⟩ := Option.bind_eq_some_iff.mp h
  obtain ⟨hfits, h⟩ := Option.ite_none_left_eq_some.mp h
  obtain ⟨rfl, rfl⟩ := Prod.mk.inj (Option.some.inj h)
  exact ⟨hmem, hadd, hfits, rfl⟩

/-- One operation on the table is one on the chain, unless the table outgrows its counters. -/
theorem UtHash.Inv.step {t : UtHash ν α} (h : t.Inv hash) (op : HashOp ν α κ) :
    (UtHash.step hash t op = none ∧
        (chainStep hash t.chain op = none ∨ ¬HashOp.Fits hash t op)) ∨
      ∃ out t' allowed, UtHash.step hash t op = some (out, t') ∧ HashOp.Fits hash t op ∧
        t'.Inv hash ∧ chainStep hash t.chain op = some (allowed, t'.chain) ∧ allowed out := by
  cases op with
  | add addr a =>
    rw [UtHash.step, chainStep]
    by_cases hmem : addr ∈ t.chain.map HashElt.addr
    · rw [if_pos hmem, if_pos hmem]
      exact .inl ⟨rfl, .inl rfl⟩
    · obtain ⟨t', grew, hadd, hinv, hchain, -, -⟩ := h.add hmem a
      rw [if_neg hmem, if_neg hmem, hadd, Option.bind_some]
      by_cases hout : t'.Outgrown
      · rw [if_pos hout]
        exact .inl ⟨rfl, .inr fun hfits => hfits t' hadd hout⟩
      · rw [if_neg hout]
        refine .inr
          ⟨none, t', fun o => o = none, rfl, fun t₁ hadd₁ => ?_, hinv, by rw [hchain], rfl⟩
        obtain rfl := Option.some_inj.mp (hadd.symm.trans hadd₁)
        exact hout
  | find k => exact .inr ⟨_, t, _, rfl, trivial, h, rfl, h.find k⟩
  | del addr =>
    rw [UtHash.step, chainStep]
    by_cases hmem : addr ∈ t.chain.map HashElt.addr
    · obtain ⟨t', hdel, hinv, hchain, -, -⟩ := h.del hmem
      rw [if_pos hmem, hdel]
      exact .inr ⟨none, t', fun o => o = none, rfl, trivial, hinv, by rw [hchain], rfl⟩
    · rw [if_neg hmem, UtHash.del_of_not_mem hmem]
      exact .inl ⟨rfl, .inl rfl⟩

/-- A run of the table and one of the chain go the same way, as far as the counters go. -/
theorem UtHash.Inv.exists_run (ops : List (HashOp ν α κ)) : ∀ {t : UtHash ν α}, t.Inv hash →
    (run (UtHash.step hash) t ops = none ∧ (run (chainStep hash) t.chain ops = none ∨
        ¬Along (UtHash.step hash) (HashOp.Fits hash) t ops)) ∨
      ∃ outs t' allowed, run (UtHash.step hash) t ops = some (outs, t') ∧
        Along (UtHash.step hash) (HashOp.Fits hash) t ops ∧ t'.Inv hash ∧
        run (chainStep hash) t.chain ops = some (allowed, t'.chain) ∧
          List.Forall₂ (fun ok out => ok out) allowed outs := by
  induction ops with
  | nil => exact fun h => .inr ⟨[], _, [], rfl, trivial, h, rfl, .nil⟩
  | cons op ops ih =>
    intro t h
    rcases h.step op with ⟨hnone, hwhy⟩ | ⟨out, t', ok, hstep, hfits, hinv, hchain, hok⟩
    · left
      rw [run_cons, run_cons, hnone]
      refine ⟨rfl, hwhy.imp (fun hchain => ?_) fun hfits halong => hfits halong.1⟩
      rw [hchain]
      rfl
    · rw [run_cons_of_step hstep, run_cons_of_step hchain]
      rcases ih hinv with ⟨hnone, hwhy⟩ |
        ⟨outs, t'', allowed, hrun, halong, hinv', hrun', hall⟩
      · left
        rw [hnone]
        refine ⟨rfl, hwhy.imp (fun hchain => ?_) fun hout halong => hout (halong.2 out t' hstep)⟩
        rw [hchain]
        rfl
      · right
        rw [hrun, hrun']
        refine ⟨out :: outs, t'', ok :: allowed, rfl, ⟨hfits, fun out' t₁ hstep' => ?_⟩, hinv', rfl,
          .cons hok hall⟩
        obtain ⟨-, rfl⟩ := Prod.mk.inj (Option.some.inj (hstep.symm.trans hstep'))
        exact halong

/-- **The table is a chain.** A run of operations on an empty table is defined if and only if no
record is added that is there, none is deleted that is not, and the table does not outgrow its
counters: no add makes one of `2 ^ 31` buckets grow or comes to `2 ^ 28` records. Its records are
those of the chain, and each lookup finds a record with its key if there is one at that time. -/
theorem UtHash.run_chain (ops : List (HashOp ν α κ)) :
    (run (UtHash.step hash) .empty ops = none ∧ (run (chainStep hash) [] ops = none ∨
        ¬Along (UtHash.step hash) (HashOp.Fits hash) .empty ops)) ∨
      ∃ outs t allowed, run (UtHash.step hash) .empty ops = some (outs, t) ∧
        Along (UtHash.step hash) (HashOp.Fits hash) .empty ops ∧
        run (chainStep hash) [] ops = some (allowed, t.chain) ∧
          List.Forall₂ (fun ok out => ok out) allowed outs := by
  rcases UtHash.Inv.exists_run ops (inv_empty hash) with
    hnone | ⟨outs, t, allowed, hrun, halong, -, hchain, hall⟩
  · exact .inl hnone
  · exact .inr ⟨outs, t, allowed, hrun, halong, hchain, hall⟩

/-- A table that a run reaches has what holds of every table. -/
theorem UtHash.inv_of_run {ops : List (HashOp ν α κ)} {t : UtHash ν α}
    {outs : List (Option (HashElt ν α))}
    (hrun : run (UtHash.step hash) .empty ops = some (outs, t)) : t.Inv hash := by
  rcases UtHash.Inv.exists_run ops (inv_empty hash) with
    ⟨hnone, -⟩ | ⟨_, _, _, hsome, -, hinv, -, -⟩
  · rw [hnone] at hrun
    cases hrun
  · obtain ⟨-, rfl⟩ := Prod.mk.inj (Option.some.inj (hsome.symm.trans hrun))
    exact hinv

/-- The operation leaves the records with this key alone. -/
def HashOp.Spares (k : κ) (t : UtHash ν α) : HashOp ν α κ → Prop
  | .add _ a => key a ≠ k
  | .find _ => True
  | .del addr => ∀ e ∈ t.chain, key e.elt = k → e.addr ≠ addr

/-- An operation that leaves the records with a key alone does not change the order in which they
are found, unless the table grows. -/
theorem UtHash.Inv.step_sameKey {t t' : UtHash ν α} (h : t.Inv hash) {op : HashOp ν α κ}
    {out : Option (HashElt ν α)} (hstep : UtHash.step hash t op = some (out, t')) {k : κ}
    (hspares : op.Spares k t) :
    t'.Inv hash ∧ t'.sameKey hash k = turned (t'.log2 - t.log2) (t.sameKey hash k) ∧
      (t.sameKey hash k ≠ [] → t.log2 ≤ t'.log2) := by
  cases op with
  | add addr a =>
    obtain ⟨hmem, hadd', -, -⟩ := UtHash.step_add hstep
    obtain ⟨t₁, grew, hadd, hinv, -, hlog, hsame⟩ := h.add hmem a
    obtain rfl := Option.some_inj.mp (hadd.symm.trans hadd')
    have hk : ¬key a = k := hspares
    refine ⟨hinv, ?_, fun _ => by omega⟩
    rw [hsame, if_neg hk, List.nil_append, hlog, Nat.add_sub_cancel_left, turned]
    cases grew <;> rfl
  | find k' =>
    obtain ⟨-, rfl⟩ := Prod.mk.inj (Option.some.inj hstep)
    rw [Nat.sub_self, turned, if_pos rfl]
    exact ⟨h, rfl, fun _ => Nat.le_refl _⟩
  | del addr =>
    rw [UtHash.step] at hstep
    by_cases hmem : addr ∈ t.chain.map HashElt.addr
    · obtain ⟨t₁, hdel, hinv, hchain, hlog, hsame⟩ := h.del hmem
      rw [hdel] at hstep
      obtain ⟨-, rfl⟩ := Prod.mk.inj (Option.some.inj hstep)
      have hkept : (t.sameKey hash k).filter (fun e => e.addr ≠ addr) = t.sameKey hash k := by
        refine List.filter_eq_self.mpr fun e he => ?_
        obtain ⟨hmem, hkey⟩ := h.mem_sameKey_iff.mp he
        simpa using hspares e hmem hkey
      rw [hsame, hkept]
      by_cases hnil : t.sameKey hash k = []
      · rw [hnil, turned_nil]
        exact ⟨hinv, rfl, fun hne => absurd rfl hne⟩
      · have hlog' : t₁.log2 = t.log2 := by
          refine hlog fun hempty => hnil ?_
          rw [← hkept, ← hsame]
          refine List.eq_nil_iff_forall_not_mem.mpr fun e he => ?_
          have hin := (hinv.mem_sameKey_iff.mp he).1
          rw [hempty] at hin
          cases hin
        rw [hlog', Nat.sub_self, turned, if_pos rfl]
        exact ⟨hinv, rfl, fun _ => Nat.le_refl _⟩
    · rw [UtHash.del_of_not_mem hmem] at hstep
      cases hstep

/-- What becomes of the records with one key, in a run that adds and deletes none of them. -/
theorem UtHash.Inv.run_sameKey {k : κ} {ops : List (HashOp ν α κ)} :
    ∀ {t t' : UtHash ν α} {outs : List (Option (HashElt ν α))}, t.Inv hash →
      run (UtHash.step hash) t ops = some (outs, t') →
      Along (UtHash.step hash) (fun t op => op.Spares k t) t ops →
      t'.sameKey hash k = turned (t'.log2 - t.log2) (t.sameKey hash k) ∧
        (t.sameKey hash k ≠ [] → t.log2 ≤ t'.log2) := by
  induction ops with
  | nil =>
    intro t t' outs _ hrun _
    obtain ⟨-, rfl⟩ := Prod.mk.inj (Option.some.inj hrun)
    rw [Nat.sub_self, turned, if_pos rfl]
    exact ⟨rfl, fun _ => Nat.le_refl _⟩
  | cons op ops ih =>
    intro t t' outs h hrun halong
    obtain ⟨out, t₁, outs', hstep, hrest, -⟩ := run_cons_eq_some.mp hrun
    obtain ⟨hinv, hsame, hle⟩ := h.step_sameKey hstep halong.1
    obtain ⟨hsame', hle'⟩ := ih hinv hrest (halong.2 out t₁ hstep)
    by_cases hnil : t.sameKey hash k = []
    · rw [hsame', hsame, hnil, turned_nil, turned_nil, turned_nil]
      exact ⟨rfl, fun hne => absurd rfl hne⟩
    · have hle := hle hnil
      have hle' := hle' (hsame ▸ turned_ne_nil hnil)
      rw [hsame', hsame, turned_turned]
      exact ⟨congrArg (turned · _) (by omega), fun _ => by omega⟩

/-- **Which of several records is found.** Between two points of a run at which the records with a
key stay as they are, a lookup finds the same one of them if the table has grown an even number of
times, and otherwise the one that was the last in its bucket. -/
theorem UtHash.find_run {ops ops' : List (HashOp ν α κ)} {t t' : UtHash ν α}
    {outs outs' : List (Option (HashElt ν α))}
    (hrun : run (UtHash.step hash) .empty ops = some (outs, t))
    (hrun' : run (UtHash.step hash) t ops' = some (outs', t')) {k : κ}
    (hspares : Along (UtHash.step hash) (fun t op => op.Spares k t) t ops') :
    t'.find hash k = if (t'.log2 - t.log2) % 2 = 0 then t.find hash k
      else (t.sameKey hash k).getLast? := by
  rw [t'.find_eq, UtHash.find_eq, ((UtHash.inv_of_run hrun).run_sameKey hrun' hspares).1, turned]
  split
  · rfl
  · rw [List.head?_reverse]

end Runs

/-- A user with a number for a key. -/
def numbered (name : CStr) (h : name.length < 32) (n : ℕ) : User ℕ :=
  ⟨⟨name, h⟩, ⟨name, h⟩, n⟩

/-- Two records for one name. -/
def addTwice : List (HashOp ℕ (User ℕ) CStr) :=
  [.add 0 (numbered (lit "bob") (by decide) 0), .add 1 (numbered (lit "bob") (by decide) 1)]

/-- Eight records for another name. -/
def addOthers : List (HashOp ℕ (User ℕ) CStr) :=
  (List.range 8).map fun n => .add (n + 2) (numbered (lit "alice") (by decide) n)

/-- When all names have the same hash, the tenth record makes the table grow, and the older of the
two records is found. -/
theorem UtHash.find_run_grown : ∃ outs t outs' t',
    run (UtHash.step fun _ => 0) .empty addTwice = some (outs, t) ∧
      run (UtHash.step fun _ => 0) t addOthers = some (outs', t') ∧
        (t.find (fun _ => 0) (lit "bob")).map HashElt.addr = some 1 ∧
          (t'.find (fun _ => 0) (lit "bob")).map HashElt.addr = some 0 := by
  have hrun : ∃ outs t, run (UtHash.step fun _ => 0) .empty addTwice = some (outs, t) ∧
      t.log2 = 5 ∧ (t.find (fun _ => 0) (lit "bob")).map HashElt.addr = some 1 ∧
        (t.sameKey (fun _ => 0) (lit "bob")).getLast?.map HashElt.addr = some 0 ∧
          ∃ outs' t', run (UtHash.step fun _ => 0) t addOthers = some (outs', t') ∧ t'.log2 = 6 :=
    ⟨_, _, rfl, rfl, rfl, rfl, _, _, rfl, rfl⟩
  obtain ⟨outs, t, hrun, hlog, hfind, hlast, outs', t', hrun', hlog'⟩ := hrun
  have hothers : ∀ op ∈ addOthers, ∃ addr n,
      op = .add addr (numbered (lit "alice") (by decide) n) := by
    intro op hop
    obtain ⟨n, -, rfl⟩ := List.mem_map.mp hop
    exact ⟨_, n, rfl⟩
  refine ⟨outs, t, outs', t', hrun, hrun', hfind, ?_⟩
  rw [UtHash.find_run hrun hrun', hlog, hlog', if_neg (by decide), hlast]
  refine (along_of_forall hothers t).mono fun t op hop => ?_
  obtain ⟨addr, n, rfl⟩ := hop
  show lit "alice" ≠ lit "bob"
  decide

end Psn

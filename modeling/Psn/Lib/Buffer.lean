import Mathlib.Data.List.Basic

/-!
# Byte buffers with checked stores

A buffer is the list of its bytes, and its length is its capacity. A store outside the capacity
has no result, so a function that is defined by stores is defined exactly where it stays inside
its buffers. A string in a buffer is what stands before the first zero byte.

## Main definitions

* `Buffer.Sized`: a buffer of a fixed capacity
* `Buffer.store`: write one byte
* `Buffer.overwrite`: write several bytes from the start
* `Buffer.terminated`: read a zero-terminated string

## Main results

* `store_append`, `store_eq_none_iff`: what a store does, and when it is out of bounds
* `terminated_append`: a string that was written with its terminator is read back
-/

namespace Buffer

/-- Write one byte, inside the capacity. -/
def store (buf : List UInt8) (i : ℕ) (b : UInt8) : Option (List UInt8) :=
  if i < buf.length then some (buf.set i b) else none

theorem store_of_lt {buf : List UInt8} {i : ℕ} (h : i < buf.length) (b : UInt8) :
    store buf i b = some (buf.set i b) := if_pos h

theorem length_of_store {buf buf' : List UInt8} {i : ℕ} {b : UInt8}
    (h : store buf i b = some buf') : buf'.length = buf.length := by
  obtain ⟨-, h⟩ := Option.ite_none_right_eq_some.mp h
  rw [← Option.some_inj.mp h, List.length_set]

theorem store_eq_none_iff {buf : List UInt8} {i : ℕ} {b : UInt8} :
    store buf i b = none ↔ buf.length ≤ i := by
  simp [store]

/-- A store right behind a prefix replaces the byte that stands there. -/
theorem store_append (pre : List UInt8) (a b : UInt8) (rest : List UInt8) :
    store (pre ++ a :: rest) pre.length b = some (pre ++ b :: rest) := by
  rw [store_of_lt (by simp), List.set_append_right _ _ (Nat.le_refl _), Nat.sub_self,
    List.set_cons_zero]

/-- Write bytes from the start of a buffer. -/
def overwrite (buf bytes : List UInt8) : List UInt8 := bytes ++ buf.drop bytes.length

theorem length_overwrite {buf bytes : List UInt8} (h : bytes.length ≤ buf.length) :
    (overwrite buf bytes).length = buf.length := by
  rw [overwrite, List.length_append, List.length_drop]
  omega

@[simp] theorem take_overwrite (buf bytes : List UInt8) :
    (overwrite buf bytes).take bytes.length = bytes :=
  List.take_left

/-- A buffer of a fixed capacity. -/
abbrev Sized (n : ℕ) := {bytes : List UInt8 // bytes.length = n}

/-- Read the string at the start of a buffer; without a terminator there is none. -/
def terminated (buf : List UInt8) : Option (List UInt8) :=
  if 0 ∈ buf then some (buf.takeWhile (· ≠ 0)) else none

theorem terminated_append {s : List UInt8} (h : 0 ∉ s) (rest : List UInt8) :
    terminated (s ++ 0 :: rest) = some s := by
  have htake : (s ++ 0 :: rest).takeWhile (· ≠ 0) = s := by
    rw [List.takeWhile_append_of_pos fun b hb => by
      simpa using fun hzero : b = 0 => h (hzero ▸ hb)]
    simp
  rw [terminated, if_pos (by simp), htake]

end Buffer

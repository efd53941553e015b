import Mathlib.Data.List.Basic

/-!
# Memory that has to be written before it is read

A block of memory fresh from the allocator has contents that nothing may depend on. Its cells are
`none` until they are written. Writing outside the block has no result, and neither has reading a
cell that is outside it or was never written.

A block that is filled from its start is described by the bytes that are there already
(`Cells.filled`), and writing behind them or reading from them stays in this form.

## Main definitions

* `Cells.alloc`, `Cells.write`, `Cells.read`: a fresh block, and its accesses
* `Cells.filled`: a block whose first bytes have been written

## Main results

* `write_filled`: writing behind what is there
* `read_map_some`: what has been written can be read
-/

namespace Cells

/-- A fresh block of `n` cells. -/
def alloc (n : ℕ) : List (Option UInt8) := List.replicate n none

/-- Write bytes into the block from a position on. -/
def write (buf : List (Option UInt8)) (pos : ℕ) (bytes : List UInt8) :
    Option (List (Option UInt8)) :=
  if pos + bytes.length ≤ buf.length then
    some (buf.take pos ++ bytes.map some ++ buf.drop (pos + bytes.length))
  else none

/-- Read bytes of the block from a position on. -/
def read (buf : List (Option UInt8)) (pos count : ℕ) : Option (List UInt8) :=
  if pos + count ≤ buf.length then ((buf.drop pos).take count).mapM id else none

/-- A block of `n` cells in which `bytes` have been written from the start. -/
def filled (n : ℕ) (bytes : List UInt8) : List (Option UInt8) :=
  bytes.map some ++ List.replicate (n - bytes.length) none

@[simp] theorem filled_nil (n : ℕ) : filled n [] = alloc n := by simp [filled, alloc]

theorem length_filled {n : ℕ} {bytes : List UInt8} (h : bytes.length ≤ n) :
    (filled n bytes).length = n := by
  rw [filled, List.length_append, List.length_map, List.length_replicate]
  omega

/-- A block with nothing left to write. -/
theorem filled_of_length {n : ℕ} {bytes : List UInt8} (h : bytes.length = n) :
    filled n bytes = bytes.map some := by
  rw [filled, h, Nat.sub_self, List.replicate_zero, List.append_nil]

/-- **Writing behind what is there.** -/
theorem write_filled {n : ℕ} {done bytes : List UInt8} (h : done.length + bytes.length ≤ n) :
    write (filled n done) done.length bytes = some (filled n (done ++ bytes)) := by
  have hdone : done.length ≤ n := by omega
  have htake : (filled n done).take done.length = done.map some := by
    rw [filled, List.take_append_of_le_length (by simp), List.take_of_length_le (by simp)]
  have hdrop : (filled n done).drop (done.length + bytes.length) =
      List.replicate (n - (done ++ bytes).length) none := by
    rw [filled, List.drop_append, List.drop_of_length_le (by simp), List.length_map,
      Nat.add_sub_cancel_left, List.drop_replicate, List.nil_append, List.length_append]
    congr 1
    omega
  rw [write, if_pos (by rw [length_filled hdone]; exact h), htake, hdrop, filled, List.map_append]

theorem mapM_map_some (l : List UInt8) : (l.map some).mapM id = some l := by
  induction l with
  | nil => rfl
  | cons a l ih => simp [ih]

/-- **What has been written can be read.** -/
theorem read_map_some (bytes : List UInt8) {pos count : ℕ} (h : pos + count ≤ bytes.length) :
    read (bytes.map some) pos count = some ((bytes.drop pos).take count) := by
  rw [read, if_pos (by rw [List.length_map]; exact h), ← List.map_drop, ← List.map_take,
    mapM_map_some]

end Cells

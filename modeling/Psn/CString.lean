import Mathlib.Data.List.Basic
import Mathlib.Data.Int.Init

/-!
# C strings and fixed-size fields

Strings are byte strings without their terminator. A field `char x[n]` holds a string that
leaves room for the terminator, and `Field n` carries that bound, so a field whose contents run
past its end cannot be built. Copying a longer string, or a NULL pointer, is undefined in C and
has no result here: every function of the model that copies strings is therefore partial.
-/

namespace Psn

/-- The bytes of a C string, without the terminator. -/
abbrev CStr := List UInt8

/-- The bytes of a string literal. -/
def lit (s : String) : CStr := s.toList.map fun c => UInt8.ofNat c.toNat

/-- The contents of a field `char x[n]`, read as a string. -/
abbrev Field (n : ℕ) := {s : CStr // s.length < n}

/-- A field that holds the empty string. -/
def Field.nil (n : ℕ) : Field (n + 1) := ⟨[], Nat.succ_pos n⟩

/-- `strcpy` into a field of `n` bytes. A NULL source and a source that does not fit are
undefined behaviour. -/
def strcpy (n : ℕ) : Option CStr → Option (Field n)
  | none => none
  | some src => if h : src.length < n then some ⟨src, h⟩ else none

@[simp] theorem strcpy_null (n : ℕ) : strcpy n none = none := rfl

theorem strcpy_of_lt {n : ℕ} {src : CStr} (h : src.length < n) :
    strcpy n (some src) = some ⟨src, h⟩ := by
  simp [strcpy, h]

theorem strcpy_eq_some {n : ℕ} {src : Option CStr} {f : Field n} :
    strcpy n src = some f ↔ src = some f.1 := by
  cases src with
  | none => simp
  | some s =>
    by_cases h : s.length < n
    · simp [strcpy_of_lt h, Subtype.ext_iff]
    · have hne : s ≠ f.1 := by rintro rfl; exact h f.2
      simp [strcpy, h, hne]

/-- `sprintf` into a buffer of `n` bytes, given the text it produces. -/
def sprintf (n : ℕ) (text : CStr) : Option (Field n) := strcpy n (some text)

theorem sprintf_of_lt {n : ℕ} {text : CStr} (h : text.length < n) :
    sprintf n text = some ⟨text, h⟩ :=
  strcpy_of_lt h

theorem sprintf_eq_some {n : ℕ} {text : CStr} {f : Field n} :
    sprintf n text = some f ↔ text = f.1 := by
  rw [sprintf, strcpy_eq_some, Option.some_inj]

/-- `!strcmp(a, b)`, undefined when `a` is NULL. -/
def strcmpEq (a : Option CStr) (b : CStr) : Option Bool := a.map fun s => decide (s = b)

@[simp] theorem strcmpEq_some (a b : CStr) : strcmpEq (some a) b = some (decide (a = b)) := rfl

@[simp] theorem strcmpEq_none (b : CStr) : strcmpEq none b = none := rfl

/-- The value of `int len = strlen(s)` for a string of `n` bytes. -/
def intOfSize (n : ℕ) : ℤ := (Int32.ofNat n).toInt

theorem intOfSize_of_lt {n : ℕ} (h : n < 2147483648) : intOfSize n = n :=
  Int32.toInt_ofNat_of_lt h

end Psn

import Psn.Lib.Buffer
import Psn.CString

/-!
# The hex layer

Keys are stored in the configuration as strings of hex digits. `buf_to_hex_str` and
`hex_str_to_buf` work in place on buffers of fixed capacity, with 32-bit lengths.

Two details matter for the callers. `buf_to_hex_str` advances its output pointer while it writes,
and then writes the terminator relative to the advanced pointer, so for `n` bytes it touches
offset `4 * n` and not only `2 * n`. And the capacity check of `hex_str_to_buf` computes
`inlen - 1` in an `unsigned int`.

## Scope

The encoder is right as long as it stays inside of its buffer, and the decoder on strings of hex
digits. Where `sscanf` converts nothing the decoder stores the number before once more, and the
first time there is none: `hexStrToBufLoop` has no result then. The round trip of the two is in
`Psn.HexCodec`.

## Main results

* `exists_bufToHexStr`, `bufToHexStr_eq_none`: when the encoder stays inside its buffer
* `hexStrToBuf_of_hexBytes`, `hexStrToBuf_hexOf`: the decoder on hex digits, and on those of the
  encoder
-/

namespace Psn

open Buffer

/-! ### Digits -/

/-- A hex digit in lower case. -/
def hexDigit (d : ℕ) : UInt8 := if d < 10 then UInt8.ofNat (48 + d) else UInt8.ofNat (87 + d)

/-- The value of a hex digit in either case. -/
def hexValue (c : UInt8) : Option ℕ :=
  if 48 ≤ c ∧ c ≤ 57 then some (c.toNat - 48)
  else if 97 ≤ c ∧ c ≤ 102 then some (c.toNat - 87)
  else if 65 ≤ c ∧ c ≤ 70 then some (c.toNat - 55)
  else none

/-- `isspace` in the C locale. -/
def isSpace (c : UInt8) : Bool := c = 32 || (9 ≤ c && c ≤ 13)

/-- A digit that is written is read back. -/
theorem hexValue_hexDigit : ∀ d < 16, hexValue (hexDigit d) = some d := by decide

/-- It does not end the string. -/
theorem hexDigit_ne_zero : ∀ d < 16, hexDigit d ≠ 0 := by decide

theorem hexDigit_lt : ∀ d < 16, hexDigit d < 128 := by decide

theorem div_lt_sixteen (b : UInt8) : b.toNat / 16 < 16 := by
  have := b.toNat_lt
  omega

theorem mod_lt_sixteen (b : UInt8) : b.toNat % 16 < 16 := Nat.mod_lt _ (by decide)

/-- The hex digits of a string of bytes, two for each. -/
def hexOf (bytes : List UInt8) : CStr :=
  bytes.flatMap fun b => [hexDigit (b.toNat / 16), hexDigit (b.toNat % 16)]

@[simp] theorem hexOf_nil : hexOf [] = [] := rfl

/-- Two digits for each byte, the high one first. -/
theorem hexOf_cons (b : UInt8) (bytes : List UInt8) :
    hexOf (b :: bytes) = hexDigit (b.toNat / 16) :: hexDigit (b.toNat % 16) :: hexOf bytes := rfl

@[simp] theorem length_hexOf (bytes : List UInt8) : (hexOf bytes).length = 2 * bytes.length := by
  induction bytes with
  | nil => rfl
  | cons b bytes ih =>
    rw [hexOf_cons, List.length_cons, List.length_cons, ih, List.length_cons]
    omega

/-- What holds of the sixteen digits holds of every string of them. -/
theorem forall_mem_hexOf {P : UInt8 → Prop} (h : ∀ d < 16, P (hexDigit d)) (bytes : List UInt8) :
    ∀ c ∈ hexOf bytes, P c := by
  intro c hc
  obtain ⟨b, -, hc⟩ := List.mem_flatMap.mp hc
  rcases List.mem_cons.mp hc with rfl | hc
  · exact h _ (div_lt_sixteen b)
  · rw [List.mem_singleton.mp hc]
    exact h _ (mod_lt_sixteen b)

theorem zero_not_mem_hexOf (bytes : List UInt8) : 0 ∉ hexOf bytes := fun h =>
  forall_mem_hexOf (P := (· ≠ 0)) hexDigit_ne_zero bytes 0 h rfl

/-! ### Encoding -/

/-- `sprintf(hex_out + pos, "%02x", b)`: two digits and a terminator. -/
def sprintf02x (hexOut : List UInt8) (pos : ℕ) (b : UInt8) : Option (List UInt8) := do
  let hexOut ← store hexOut pos (hexDigit (b.toNat / 16))
  let hexOut ← store hexOut (pos + 1) (hexDigit (b.toNat % 16))
  store hexOut (pos + 2) 0

/-- The loop of `buf_to_hex_str`. -/
def bufToHexStrLoop : (bufIn : List UInt8) → (pos : ℕ) → (hexOut : List UInt8) →
    Option (List UInt8)
  | [], _, hexOut => some hexOut
  | b :: bufIn, pos, hexOut => do
    let hexOut ← sprintf02x hexOut pos b
    bufToHexStrLoop bufIn (pos + 2) hexOut

/-- `buf_to_hex_str`: the output buffer and `*outlen` afterwards. -/
def bufToHexStr (bufIn : List UInt8) (inlen : UInt32) (hexOut : List UInt8) (outlen : ℕ) :
    Option (List UInt8 × ℕ) :=
  if outlen < (inlen * 2 + 1).toNat then some (hexOut, outlen)
  else if bufIn.length < inlen.toNat then none
  else do
    let hexOut ← bufToHexStrLoop (bufIn.take inlen.toNat) 0 hexOut
    let outlen := 2 * inlen.toNat
    -- the pointer stands behind the digits already
    let hexOut ← store hexOut (outlen + outlen) 0
    return (hexOut, outlen)

/-- The buffer is written in place. -/
theorem length_of_sprintf02x {hexOut hexOut' : List UInt8} {pos : ℕ} {b : UInt8}
    (h : sprintf02x hexOut pos b = some hexOut') : hexOut'.length = hexOut.length := by
  obtain ⟨out₁, h₁, h⟩ := Option.bind_eq_some_iff.mp h
  obtain ⟨out₂, h₂, h₃⟩ := Option.bind_eq_some_iff.mp h
  rw [length_of_store h₃, length_of_store h₂, length_of_store h₁]

theorem length_of_bufToHexStrLoop {bytes : List UInt8} :
    ∀ {pos : ℕ} {hexOut hexOut' : List UInt8},
      bufToHexStrLoop bytes pos hexOut = some hexOut' → hexOut'.length = hexOut.length := by
  induction bytes with
  | nil =>
    intro pos hexOut hexOut' h
    rw [← Option.some_inj.mp h]
  | cons b bytes ih =>
    intro pos hexOut hexOut' h
    obtain ⟨out, hout, hrest⟩ := Option.bind_eq_some_iff.mp h
    rw [ih hrest, length_of_sprintf02x hout]

/-- The encoder keeps the capacity of its buffer. -/
theorem length_of_bufToHexStr {bufIn hexOut : List UInt8} {inlen : UInt32} {outlen : ℕ}
    {r : List UInt8 × ℕ} (h : bufToHexStr bufIn inlen hexOut outlen = some r) :
    r.1.length = hexOut.length := by
  rw [bufToHexStr] at h
  split at h
  · rw [← Option.some_inj.mp h]
  split at h
  · cases h
  obtain ⟨out₁, h₁, h⟩ := Option.bind_eq_some_iff.mp h
  obtain ⟨out₂, h₂, h⟩ := Option.bind_eq_some_iff.mp h
  rw [← Option.some_inj.mp h, length_of_store h₂, length_of_bufToHexStrLoop h₁]

/-- The two digits and a NUL behind them, which the next byte overwrites. -/
theorem sprintf02x_append (pre : List UInt8) (x y z b : UInt8) (tail : List UInt8) :
    sprintf02x (pre ++ x :: y :: z :: tail) pre.length b =
      some (pre ++ hexOf [b] ++ 0 :: tail) := by
  have h₂ : ∀ d₁ d₂, store (pre ++ d₁ :: y :: z :: tail) (pre.length + 1) d₂ =
      some (pre ++ d₁ :: d₂ :: z :: tail) := fun d₁ d₂ => by
    simpa using store_append (pre ++ [d₁]) y d₂ (z :: tail)
  have h₃ : ∀ d₁ d₂, store (pre ++ d₁ :: d₂ :: z :: tail) (pre.length + 2) 0 =
      some (pre ++ d₁ :: d₂ :: 0 :: tail) := fun d₁ d₂ => by
    simpa using store_append (pre ++ [d₁, d₂]) z 0 tail
  simp only [sprintf02x, store_append, h₂, h₃, Option.bind_eq_bind, Option.bind_some, hexOf_cons,
    hexOf_nil, List.append_assoc, List.cons_append, List.nil_append]

/-- The loop writes the digits of its input, and a terminator unless there is no input. -/
theorem bufToHexStrLoop_append (bytes : List UInt8) :
    ∀ (pre rest : List UInt8), 2 * bytes.length < rest.length →
      ∃ rest', bufToHexStrLoop bytes pre.length (pre ++ rest) =
          some (pre ++ hexOf bytes ++ rest') ∧
        rest'.length + 2 * bytes.length = rest.length ∧
        rest'.head? = if bytes = [] then rest.head? else some 0 := by
  induction bytes with
  | nil =>
    intro pre rest _
    exact ⟨rest, by simp [bufToHexStrLoop], by simp, by simp⟩
  | cons b bytes ih =>
    intro pre rest hlen
    rw [List.length_cons] at hlen
    obtain ⟨x, y, z, tail, rfl⟩ : ∃ x y z tail, rest = x :: y :: z :: tail := by
      match rest, hlen with
      | x :: y :: z :: tail, _ => exact ⟨x, y, z, tail, rfl⟩
    simp only [List.length_cons] at hlen
    have hpos : (pre ++ hexOf [b]).length = pre.length + 2 := by simp
    obtain ⟨rest', hloop, hlength, hhead⟩ := ih (pre ++ hexOf [b]) (0 :: tail) (by
      rw [List.length_cons]
      omega)
    refine ⟨rest', ?_, ?_, ?_⟩
    · rw [bufToHexStrLoop, sprintf02x_append, Option.bind_eq_bind, Option.bind_some, ← hpos,
        hloop]
      simp [hexOf_cons]
    · simp only [List.length_cons] at hlength ⊢
      omega
    · rw [hhead]
      by_cases hnil : bytes = [] <;> simp [hnil]

section Capacity

variable {bufIn hexOut : List UInt8} {n outlen : ℕ}

/-- Lengths below `2 ^ 31` are what they are in 32 bits. -/
theorem toNat_ofNat_of_size (hsize : n < 2147483648) : (UInt32.ofNat n).toNat = n := by
  have h : UInt32.size = 4294967296 := rfl
  exact UInt32.toNat_ofNat_of_lt' (by omega)

/-- The encoder behind its check. -/
theorem bufToHexStr_of_fits (hn : n ≤ bufIn.length) (hsize : n < 2147483648)
    (hout : 2 * n + 1 ≤ outlen) :
    bufToHexStr bufIn (UInt32.ofNat n) hexOut outlen =
      (bufToHexStrLoop (bufIn.take n) 0 hexOut).bind fun hexOut =>
        (store hexOut (2 * n + 2 * n) 0).bind fun hexOut => some (hexOut, 2 * n) := by
  have hlen := toNat_ofNat_of_size hsize
  have hneed : (UInt32.ofNat n * 2 + 1).toNat = 2 * n + 1 := by
    rw [UInt32.toNat_add, UInt32.toNat_mul, hlen]
    simp only [UInt32.toNat_ofNat, Nat.reducePow, Nat.reduceMod]
    omega
  rw [bufToHexStr, if_neg (by omega), if_neg (by omega), hlen]
  rfl

/-- **The encoder inside its buffer.** With a capacity of more than `4 * n` for `n` bytes, the
encoder leaves their digits as a string. -/
theorem exists_bufToHexStr (hn : n ≤ bufIn.length) (hsize : n < 2147483648)
    (hout : 2 * n + 1 ≤ outlen) (hcap : 4 * n < hexOut.length) :
    ∃ hexOut', bufToHexStr bufIn (UInt32.ofNat n) hexOut outlen = some (hexOut', 2 * n) ∧
      hexOut'.length = hexOut.length ∧ terminated hexOut' = some (hexOf (bufIn.take n)) := by
  have htake : (bufIn.take n).length = n := by simp [hn]
  obtain ⟨rest', hloop, hlength, hhead⟩ := bufToHexStrLoop_append (bufIn.take n) [] hexOut
    (by rw [htake]; omega)
  simp only [List.length_nil, List.nil_append, htake] at hloop hlength
  have hdigits : (hexOf (bufIn.take n)).length = 2 * n := by rw [length_hexOf, htake]
  have hstore : store (hexOf (bufIn.take n) ++ rest') (2 * n + 2 * n) 0 =
      some (hexOf (bufIn.take n) ++ rest'.set (2 * n) 0) := by
    rw [store_of_lt (by rw [List.length_append, hdigits]; omega),
      List.set_append_right _ _ (by omega), hdigits, Nat.add_sub_cancel]
  -- the byte behind the digits is zero: the loop's terminator, or the last store if `n = 0`
  obtain ⟨tail, htail⟩ : ∃ tail, rest'.set (2 * n) 0 = 0 :: tail := by
    match rest', hhead with
    | [], _ => simp only [List.length_nil] at hlength; omega
    | r :: tail, hhead =>
      rcases Nat.eq_zero_or_pos n with rfl | hpos
      · exact ⟨tail, rfl⟩
      · have hne : bufIn.take n ≠ [] := List.ne_nil_of_length_pos (by omega)
        obtain ⟨k, hk⟩ : ∃ k, 2 * n = k + 1 := ⟨2 * n - 1, by omega⟩
        rw [if_neg hne, List.head?_cons, Option.some_inj] at hhead
        exact ⟨tail.set k 0, by rw [hk, List.set_cons_succ, hhead]⟩
  refine ⟨hexOf (bufIn.take n) ++ rest'.set (2 * n) 0, ?_, ?_, ?_⟩
  · rw [bufToHexStr_of_fits hn hsize hout, hloop, Option.bind_some, hstore, Option.bind_some]
  · rw [List.length_append, List.length_set, hdigits]
    omega
  · rw [htail, terminated_append (zero_not_mem_hexOf _)]

/-- The encoder leaves its buffer when the capacity is at most `4 * n`, although it would hold
the digits. -/
theorem bufToHexStr_eq_none (hn : n ≤ bufIn.length) (hsize : n < 2147483648)
    (hout : 2 * n + 1 ≤ outlen) (hroom : 2 * n < hexOut.length) (hcap : hexOut.length ≤ 4 * n) :
    bufToHexStr bufIn (UInt32.ofNat n) hexOut outlen = none := by
  have htake : (bufIn.take n).length = n := by simp [hn]
  obtain ⟨rest', hloop, hlength, -⟩ := bufToHexStrLoop_append (bufIn.take n) [] hexOut
    (by rw [htake]; omega)
  simp only [List.length_nil, List.nil_append, htake] at hloop hlength
  have hstore : store (hexOf (bufIn.take n) ++ rest') (2 * n + 2 * n) 0 = none := by
    rw [store_eq_none_iff, List.length_append, length_hexOf, htake]
    omega
  rw [bufToHexStr_of_fits hn hsize hout, hloop, Option.bind_some, hstore, Option.bind_none]

end Capacity

/-! ### Decoding -/

/-- `sscanf(s, "%02x", &current)`: skip white space, then convert at most two characters. The
result is `none` when nothing was converted, and `current` keeps its value. -/
def sscanf02x (s : CStr) : Option ℕ :=
  match s.dropWhile isSpace with
  | [] => none
  | [c] => hexValue c
  | c :: d :: _ =>
    if c = 43 then hexValue d
    -- a minus sign negates in an `unsigned int`
    else if c = 45 then (hexValue d).map fun v => (4294967296 - v) % 4294967296
    else (hexValue c).map fun hi =>
      match hexValue d with
      | some lo => 16 * hi + lo
      | none => hi

/-- The loop of `hex_str_to_buf`. Storing `current` before anything was converted is
undefined. -/
def hexStrToBufLoop : (count i : ℕ) → (hexIn : CStr) → (current : Option ℕ) →
    (bufOut : List UInt8) → Option (List UInt8)
  | 0, _, _, _, bufOut => some bufOut
  | count + 1, i, hexIn, current, bufOut => do
    let current ← (sscanf02x hexIn).or current
    let bufOut ← store bufOut i (UInt8.ofNat current)
    hexStrToBufLoop count (i + 1) (hexIn.drop 2) (some current) bufOut

/-- `hex_str_to_buf`: the output buffer and `*outlen` afterwards. The string must have `inlen`
characters. -/
def hexStrToBuf (hexIn : CStr) (inlen : UInt32) (bufOut : List UInt8) (outlen : ℕ) :
    Option (List UInt8 × ℕ) :=
  if outlen < ((inlen - 1) / 2).toNat then some (bufOut, outlen)
  else if hexIn.length < inlen.toNat then none
  else do
    let bufOut ← hexStrToBufLoop (inlen / 2).toNat 0 hexIn none bufOut
    return (bufOut, (inlen / 2).toNat)

/-- The decoder writes in place as well. -/
theorem length_of_hexStrToBufLoop {count : ℕ} :
    ∀ {i : ℕ} {hexIn : CStr} {current : Option ℕ} {bufOut bufOut' : List UInt8},
      hexStrToBufLoop count i hexIn current bufOut = some bufOut' →
        bufOut'.length = bufOut.length := by
  induction count with
  | zero =>
    intro i hexIn current bufOut bufOut' h
    rw [← Option.some_inj.mp h]
  | succ count ih =>
    intro i hexIn current bufOut bufOut' h
    obtain ⟨v, -, h⟩ := Option.bind_eq_some_iff.mp h
    obtain ⟨out, hout, hrest⟩ := Option.bind_eq_some_iff.mp h
    rw [ih hrest, length_of_store hout]

/-- The decoder keeps the capacity of its buffer. -/
theorem length_of_hexStrToBuf {hexIn : CStr} {inlen : UInt32} {bufOut : List UInt8} {outlen : ℕ}
    {r : List UInt8 × ℕ} (h : hexStrToBuf hexIn inlen bufOut outlen = some r) :
    r.1.length = bufOut.length := by
  rw [hexStrToBuf] at h
  split at h
  · rw [← Option.some_inj.mp h]
  split at h
  · cases h
  obtain ⟨out, hout, h⟩ := Option.bind_eq_some_iff.mp h
  rw [← Option.some_inj.mp h, length_of_hexStrToBufLoop hout]

/-- What is known of a character with a hex value. -/
theorem of_hexValue {c : UInt8} {v : ℕ} (h : hexValue c = some v) :
    v < 16 ∧ isSpace c = false ∧ c ≠ 43 ∧ c ≠ 45 := by
  have hrange : (48 ≤ c.toNat ∧ c.toNat ≤ 57 ∧ v = c.toNat - 48) ∨
      (97 ≤ c.toNat ∧ c.toNat ≤ 102 ∧ v = c.toNat - 87) ∨
      (65 ≤ c.toNat ∧ c.toNat ≤ 70 ∧ v = c.toNat - 55) := by
    simp only [hexValue, UInt8.le_iff_toNat_le, UInt8.reduceToNat] at h
    split at h
    · cases h; omega
    split at h
    · cases h; omega
    split at h
    · cases h; omega
    · cases h
  have hne : ∀ d : UInt8, d.toNat < 48 → c ≠ d := by
    rintro d hd rfl
    omega
  refine ⟨by omega, ?_, hne 43 (by decide), hne 45 (by decide)⟩
  simp only [isSpace, Bool.or_eq_false_iff, Bool.and_eq_false_iff, decide_eq_false_iff_not,
    UInt8.le_iff_toNat_le, UInt8.reduceToNat]
  exact ⟨hne 32 (by decide), by omega⟩

/-- The bytes that a string of hex digits stands for. -/
def hexBytes : CStr → Option (List UInt8)
  | [] => some []
  | [_] => none
  | c :: d :: rest => do
    let hi ← hexValue c
    let lo ← hexValue d
    let bytes ← hexBytes rest
    return UInt8.ofNat (16 * hi + lo) :: bytes

/-- A string of digits is read two at a time. -/
theorem hexBytes_cons_eq_some {c d : UInt8} {rest : CStr} {bytes : List UInt8}
    (h : hexBytes (c :: d :: rest) = some bytes) :
    ∃ hi lo bytes', hexValue c = some hi ∧ hexValue d = some lo ∧ hexBytes rest = some bytes' ∧
      bytes = UInt8.ofNat (16 * hi + lo) :: bytes' := by
  obtain ⟨hi, hhi, h⟩ := Option.bind_eq_some_iff.mp h
  obtain ⟨lo, hlo, h⟩ := Option.bind_eq_some_iff.mp h
  obtain ⟨bytes', hbytes', h⟩ := Option.bind_eq_some_iff.mp h
  exact ⟨hi, lo, bytes', hhi, hlo, hbytes', (Option.some_inj.mp h).symm⟩

/-- The digits of some bytes are those bytes. -/
theorem hexBytes_hexOf (bytes : List UInt8) : hexBytes (hexOf bytes) = some bytes := by
  induction bytes with
  | nil => rfl
  | cons b bytes ih =>
    have hb : 16 * (b.toNat / 16) + b.toNat % 16 = b.toNat := Nat.div_add_mod _ _
    simp only [hexOf_cons, hexBytes, hexValue_hexDigit _ (div_lt_sixteen b),
      hexValue_hexDigit _ (mod_lt_sixteen b), ih, hb, UInt8.ofNat_toNat, Option.bind_eq_bind,
      Option.bind_some, Option.pure_def]

/-- So there is an even number of them. -/
theorem length_of_hexBytes {s : CStr} :
    ∀ {bytes : List UInt8}, hexBytes s = some bytes → s.length = 2 * bytes.length := by
  induction s using hexBytes.induct with
  | case1 =>
    intro bytes h
    cases h
    rfl
  | case2 => exact fun h => nomatch h
  | case3 c d rest ih =>
    intro bytes h
    obtain ⟨hi, lo, bytes', -, -, hbytes', rfl⟩ := hexBytes_cons_eq_some h
    rw [List.length_cons, List.length_cons, List.length_cons, ih hbytes']
    omega

/-- On two digits `sscanf` reads their number. -/
theorem sscanf02x_of_hexValue {c d : UInt8} {hi lo : ℕ} (hc : hexValue c = some hi)
    (hd : hexValue d = some lo) (rest : CStr) :
    sscanf02x (c :: d :: rest) = some (16 * hi + lo) := by
  obtain ⟨-, hspace, hplus, hminus⟩ := of_hexValue hc
  rw [sscanf02x, List.dropWhile_cons_of_neg (by rw [hspace]; simp)]
  simp only [if_neg hplus, if_neg hminus, hc, hd, Option.map_some]

/-- The loop writes the bytes one after the other, behind those that it has written. -/
theorem hexStrToBufLoop_of_hexBytes {s : CStr} :
    ∀ {bytes : List UInt8} (pre rest : List UInt8) (current : Option ℕ),
      hexBytes s = some bytes → bytes.length ≤ rest.length →
      hexStrToBufLoop bytes.length pre.length s current (pre ++ rest) =
        some (pre ++ bytes ++ rest.drop bytes.length) := by
  induction s using hexBytes.induct with
  | case1 =>
    intro bytes pre rest current h _
    cases h
    simp [hexStrToBufLoop]
  | case2 => exact fun _ _ _ h => nomatch h
  | case3 c d s ih =>
    intro bytes pre rest current h hlen
    obtain ⟨hi, lo, bytes', hc, hd, hbytes', rfl⟩ := hexBytes_cons_eq_some h
    rw [List.length_cons] at hlen
    obtain ⟨x, tail, rfl⟩ : ∃ x tail, rest = x :: tail := by
      match rest, hlen with
      | x :: tail, _ => exact ⟨x, tail, rfl⟩
    have hrest := ih (pre ++ [UInt8.ofNat (16 * hi + lo)]) tail (some (16 * hi + lo)) hbytes'
      (by simpa using hlen)
    rw [List.length_append, List.length_singleton, List.append_assoc] at hrest
    rw [List.length_cons, hexStrToBufLoop, sscanf02x_of_hexValue hc hd]
    simp only [Option.some_or, Option.bind_eq_bind, Option.bind_some, store_append,
      List.drop_succ_cons, List.drop_zero]
    simpa using hrest

/-- **The decoder on hex digits.** All strings but the empty one are decoded to the bytes that
they stand for. -/
theorem hexStrToBuf_of_hexBytes {s : CStr} {bytes bufOut : List UInt8} {outlen : ℕ}
    (h : hexBytes s = some bytes) (hne : bytes ≠ []) (hsize : bytes.length < 1073741824)
    (hout : bytes.length ≤ outlen) (hcap : bytes.length ≤ bufOut.length) :
    hexStrToBuf s (UInt32.ofNat s.length) bufOut outlen =
      some (overwrite bufOut bytes, bytes.length) := by
  have hpos := List.length_pos_iff.mpr hne
  have hs := length_of_hexBytes h
  have hlen : (UInt32.ofNat s.length).toNat = 2 * bytes.length := by
    rw [hs, toNat_ofNat_of_size (by omega)]
  have hhalf : (UInt32.ofNat s.length / 2).toNat = bytes.length := by
    rw [UInt32.toNat_div, hlen]
    exact Nat.mul_div_cancel_left _ (by decide)
  have hcheck : ((UInt32.ofNat s.length - 1) / 2).toNat = bytes.length - 1 := by
    have hone : (1 : UInt32) ≤ UInt32.ofNat s.length := by
      rw [UInt32.le_iff_toNat_le, hlen]
      exact show 1 ≤ 2 * bytes.length by omega
    rw [UInt32.toNat_div, UInt32.toNat_sub_of_le _ _ hone, hlen]
    exact show (2 * bytes.length - 1) / 2 = bytes.length - 1 by omega
  rw [hexStrToBuf, if_neg (by omega), if_neg (by omega), hhalf]
  have hloop := hexStrToBufLoop_of_hexBytes [] bufOut none h hcap
  rw [List.length_nil, List.nil_append, List.nil_append] at hloop
  rw [hloop]
  rfl

/-- **The decoder undoes the encoder**, on all but the empty string. -/
theorem hexStrToBuf_hexOf {bytes bufOut : List UInt8} {outlen : ℕ} (hne : bytes ≠ [])
    (hsize : bytes.length < 1073741824) (hout : bytes.length ≤ outlen)
    (hcap : bytes.length ≤ bufOut.length) :
    hexStrToBuf (hexOf bytes) (UInt32.ofNat (hexOf bytes).length) bufOut outlen =
      some (overwrite bufOut bytes, bytes.length) :=
  hexStrToBuf_of_hexBytes (hexBytes_hexOf bytes) hne hsize hout hcap

/-- The loop of the decoder treats buffers of one capacity alike, whatever they hold. -/
theorem hexStrToBufLoop_take {count : ℕ} :
    ∀ {i : ℕ} {hexIn : CStr} {current : Option ℕ} {bufOut bufOut' out : List UInt8},
      bufOut'.length = bufOut.length → bufOut'.take i = bufOut.take i →
      hexStrToBufLoop count i hexIn current bufOut = some out →
        ∃ out', hexStrToBufLoop count i hexIn current bufOut' = some out' ∧
          out'.take (i + count) = out.take (i + count) := by
  induction count with
  | zero =>
    intro i hexIn current bufOut bufOut' out _ htake h
    rw [← Option.some_inj.mp h]
    exact ⟨bufOut', rfl, htake⟩
  | succ count ih =>
    intro i hexIn current bufOut bufOut' out hlen htake h
    obtain ⟨v, hv, h⟩ := Option.bind_eq_some_iff.mp h
    obtain ⟨buf, hbuf, hrest⟩ := Option.bind_eq_some_iff.mp h
    obtain ⟨hi, hbuf⟩ := Option.ite_none_right_eq_some.mp hbuf
    obtain rfl := Option.some_inj.mp hbuf
    have hi' : i < bufOut'.length := by omega
    have hlen' : (bufOut'.set i (UInt8.ofNat v)).length =
        (bufOut.set i (UInt8.ofNat v)).length := by simp [hlen]
    have htake' : (bufOut'.set i (UInt8.ofNat v)).take (i + 1) =
        (bufOut.set i (UInt8.ofNat v)).take (i + 1) := by
      rw [List.take_succ_eq_append_getElem (by simpa using hi'),
        List.take_succ_eq_append_getElem (by simpa using hi), List.getElem_set_self,
        List.getElem_set_self, List.take_set_of_le (Nat.le_refl i),
        List.take_set_of_le (Nat.le_refl i), htake]
    obtain ⟨out', hout', hsame⟩ := ih hlen' htake' hrest
    refine ⟨out', ?_, by rw [← Nat.add_right_comm, Nat.add_assoc] at hsame; exact hsame⟩
    rw [hexStrToBufLoop, hv]
    simp only [Option.bind_eq_bind, Option.bind_some, store_of_lt hi']
    exact hout'

/-- What the decoder reports of a string that is not empty is decided by the string, and not by
what its buffer held before. -/
theorem hexStrToBuf_take {hexIn : CStr} {bufOut bufOut' : List UInt8} {r : List UInt8 × ℕ}
    (hne : hexIn ≠ []) (hsize : hexIn.length < 4097) (hlen : bufOut'.length = bufOut.length)
    (h : hexStrToBuf hexIn (UInt32.ofNat hexIn.length) bufOut 2048 = some r) :
    ∃ r', hexStrToBuf hexIn (UInt32.ofNat hexIn.length) bufOut' 2048 = some r' ∧
      r'.1.take r'.2 = r.1.take r.2 := by
  have hpos := List.length_pos_iff.mpr hne
  have hinlen : (UInt32.ofNat hexIn.length).toNat = hexIn.length :=
    toNat_ofNat_of_size (by omega)
  have hcheck : ((UInt32.ofNat hexIn.length - 1) / 2).toNat ≤ 2048 := by
    have hone : (1 : UInt32) ≤ UInt32.ofNat hexIn.length := by
      rw [UInt32.le_iff_toNat_le, hinlen]
      exact hpos
    rw [UInt32.toNat_div, UInt32.toNat_sub_of_le _ _ hone, hinlen]
    exact show (hexIn.length - 1) / 2 ≤ 2048 by omega
  rw [hexStrToBuf, if_neg (by omega), if_neg (by omega)] at h
  obtain ⟨out, hout, h⟩ := Option.bind_eq_some_iff.mp h
  obtain ⟨out', hout', hsame⟩ := hexStrToBufLoop_take hlen (by simp) hout
  refine ⟨(out', (UInt32.ofNat hexIn.length / 2).toNat), ?_, ?_⟩
  · rw [hexStrToBuf, if_neg (by omega), if_neg (by omega), hout']
    rfl
  · rw [← Option.some_inj.mp h]
    simpa using hsame

end Psn

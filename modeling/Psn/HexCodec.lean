import Mathlib.Algebra.Group.Nat.Even
import Psn.Loading

/-!
# The two directions of the hex codec

`buf_to_hex_str` and `hex_str_to_buf` undo each other wherever both stay inside their buffers. On
strings of digits that somebody else wrote, the only thing lost on the way is the case of the
letters.

How much room they need is another matter. Both compare their second length with the capacity in
32-bit arithmetic, and neither comparison is the one that the stores behind it call for. The
encoder asks for `2 * inlen + 1` characters and writes at `4 * inlen`. The decoder asks for
`(inlen - 1) / 2` bytes and writes `inlen / 2`, and for the empty string `inlen - 1` wraps around.
A refusal leaves `*outlen` as it was, so that a caller who does not look twice takes the capacity
for a length.

## Main results

* `hex_inverse`: decoding undoes encoding, and encoding undoes decoding up to the case of letters
* `EncoderCall.result_eq_none_iff`, `DecoderCall.result_eq_none_iff`: when a call that was not
  refused leaves its buffer
* `capacity_checks_iff`: when the checks of the capacity are exact
* `EncoderCall.exact_iff_le`, `DecoderCall.exact_iff_ne_nil`: the same for the calls of `psn.c`
-/

namespace Psn

open Buffer

/-! ### Characters -/

/-- A hex digit as `"%02x"` prints it. -/
def IsLowerHexDigit (c : UInt8) : Prop := (48 ≤ c ∧ c ≤ 57) ∨ (97 ≤ c ∧ c ≤ 102)

/-- A hex digit as `"%02x"` scans it. -/
def IsHexDigit (c : UInt8) : Prop := IsLowerHexDigit c ∨ (65 ≤ c ∧ c ≤ 70)

instance : DecidablePred IsLowerHexDigit := fun _ => instDecidableOr

instance : DecidablePred IsHexDigit := fun _ => instDecidableOr

/-- `tolower` in the C locale. -/
def toLower (c : UInt8) : UInt8 := if 65 ≤ c ∧ c ≤ 90 then c + 32 else c

theorem isLowerHexDigit_hexDigit : ∀ d < 16, IsLowerHexDigit (hexDigit d) := by decide

/-- What is scanned as a digit is printed as the same digit in lower case. -/
theorem exists_hexValue {c : UInt8} (hc : IsHexDigit c) :
    ∃ v, hexValue c = some v ∧ v < 16 ∧ hexDigit v = toLower c := by
  have hall : ∀ n < 256, IsHexDigit (UInt8.ofNat n) →
      ∃ v < 16, hexValue (UInt8.ofNat n) = some v ∧
        hexDigit v = toLower (UInt8.ofNat n) := by decide +kernel
  obtain ⟨v, hlt, hv, hdigit⟩ := hall c.toNat c.toNat_lt (by rwa [UInt8.ofNat_toNat])
  rw [UInt8.ofNat_toNat] at hv hdigit
  exact ⟨v, hv, hlt, hdigit⟩

/-- The byte of two digits is printed as these digits. -/
theorem hexOf_digits {hi lo : ℕ} (hhi : hi < 16) (hlo : lo < 16) (bytes : List UInt8) :
    hexOf (UInt8.ofNat (16 * hi + lo) :: bytes) = hexDigit hi :: hexDigit lo :: hexOf bytes := by
  have hbyte : (UInt8.ofNat (16 * hi + lo)).toNat = 16 * hi + lo :=
    UInt8.toNat_ofNat_of_lt' (by exact show 16 * hi + lo < 256 by omega)
  have hdiv : (16 * hi + lo) / 16 = hi := by omega
  have hmod : (16 * hi + lo) % 16 = lo := by omega
  rw [hexOf_cons, hbyte, hdiv, hmod]

/-! ### Both ways -/

/-- A string of hex digits of even length stands for bytes, and these are printed as the string in
lower case. -/
theorem exists_hexBytes {s : CStr} :
    Even s.length → (∀ c ∈ s, IsHexDigit c) →
      ∃ bytes, hexBytes s = some bytes ∧ hexOf bytes = s.map toLower := by
  induction s using hexBytes.induct with
  | case1 => exact fun _ _ => ⟨[], rfl, rfl⟩
  | case2 c =>
    intro heven _
    exact absurd heven (by simp)
  | case3 c d rest ih =>
    intro heven hs
    obtain ⟨hc, hd, hrest⟩ : IsHexDigit c ∧ IsHexDigit d ∧ ∀ c ∈ rest, IsHexDigit c := by
      simpa using hs
    have heven' : Even rest.length := by
      rw [Nat.even_iff] at heven ⊢
      simp only [List.length_cons] at heven
      omega
    obtain ⟨bytes, hbytes, hlower⟩ := ih heven' hrest
    obtain ⟨hi, hhi, hlt, hdigit⟩ := exists_hexValue hc
    obtain ⟨lo, hlo, hlt', hdigit'⟩ := exists_hexValue hd
    refine ⟨UInt8.ofNat (16 * hi + lo) :: bytes, ?_, ?_⟩
    · rw [hexBytes, hhi, hlo, hbytes]
      rfl
    · rw [hexOf_digits hlt hlt', hdigit, hdigit', hlower, List.map_cons, List.map_cons]

/-- The bytes `b` at the start of any buffer are encoded as a string of lower-case hex digits,
two for each, and the decoder turns that string, with its `strlen`, into `b` again. -/
def DecodesEncoded (b : List UInt8) : Prop :=
  ∀ (rest hexOut bufOut : List UInt8) (outlen outlen' : ℕ),
    4 * b.length < hexOut.length → 2 * b.length + 1 ≤ outlen →
    b.length ≤ bufOut.length → b.length ≤ outlen' →
    ∃ hexOut' digits bufOut',
      bufToHexStr (b ++ rest) (UInt32.ofNat b.length) hexOut outlen =
          some (hexOut', 2 * b.length) ∧
        terminated hexOut' = some digits ∧ digits.length = 2 * b.length ∧
        (∀ c ∈ digits, IsLowerHexDigit c) ∧
        hexStrToBuf digits (UInt32.ofNat digits.length) bufOut outlen' =
          some (bufOut', b.length) ∧
        bufOut'.take b.length = b

/-- The string `s` is decoded to half as many bytes, and the encoder turns these into `s` in
lower case. -/
def EncodesDecoded (s : CStr) : Prop :=
  ∀ (bufOut hexOut : List UInt8) (outlen outlen' : ℕ),
    s.length / 2 ≤ bufOut.length → s.length / 2 ≤ outlen →
    2 * s.length < hexOut.length → s.length + 1 ≤ outlen' →
    ∃ bufOut' hexOut',
      hexStrToBuf s (UInt32.ofNat s.length) bufOut outlen = some (bufOut', s.length / 2) ∧
        bufToHexStr bufOut' (UInt32.ofNat (s.length / 2)) hexOut outlen' =
          some (hexOut', s.length) ∧
        terminated hexOut' = some (s.map toLower)

theorem decodesEncoded {b : List UInt8} (hne : b ≠ []) (hsize : b.length < 1073741824) :
    DecodesEncoded b := by
  intro rest hexOut bufOut outlen outlen' hcap hout hcap' hout'
  have hle : b.length ≤ (b ++ rest).length := by simp
  obtain ⟨hexOut', henc, -, hdigits⟩ :=
    exists_bufToHexStr hle (Nat.lt_trans hsize (by decide)) hout hcap
  rw [List.take_left] at hdigits
  exact ⟨hexOut', hexOf b, overwrite bufOut b, henc, hdigits, length_hexOf b,
    forall_mem_hexOf isLowerHexDigit_hexDigit b, hexStrToBuf_hexOf hne hsize hout' hcap',
    take_overwrite bufOut b⟩

theorem encodesDecoded {s : CStr} (hne : s ≠ []) (heven : Even s.length)
    (hsize : s.length < 2147483648) (hs : ∀ c ∈ s, IsHexDigit c) : EncodesDecoded s := by
  intro bufOut hexOut outlen outlen' hcap hout hcap' hout'
  obtain ⟨bytes, hbytes, hlower⟩ := exists_hexBytes heven hs
  have hlen : s.length = 2 * bytes.length := length_of_hexBytes hbytes
  have hhalf : s.length / 2 = bytes.length := by omega
  have hbne : bytes ≠ [] := by
    rintro rfl
    exact hne (List.eq_nil_of_length_eq_zero hlen)
  rw [hhalf] at hcap hout ⊢
  have hle : bytes.length ≤ (overwrite bufOut bytes).length := by
    rw [length_overwrite hcap]
    exact hcap
  have hfits : 2 * bytes.length + 1 ≤ outlen' := by omega
  have hroom : 4 * bytes.length < hexOut.length := by omega
  obtain ⟨hexOut', henc, -, hdigits⟩ := exists_bufToHexStr hle (by omega) hfits hroom
  rw [take_overwrite, hlower] at hdigits
  refine ⟨overwrite bufOut bytes, hexOut',
    hexStrToBuf_of_hexBytes hbytes hbne (by omega) hout hcap, ?_, hdigits⟩
  rw [henc, hlen]

/-- **The hex codec.** Decoding undoes encoding, on every string of bytes but the empty one.
Encoding undoes decoding up to the case of the letters, on every string of hex digits of even
length but the empty one. -/
theorem hex_inverse :
    (∀ b : List UInt8, b ≠ [] → b.length < 1073741824 → DecodesEncoded b) ∧
      ∀ s : CStr, s ≠ [] → Even s.length → s.length < 2147483648 →
        (∀ c ∈ s, IsHexDigit c) → EncodesDecoded s :=
  ⟨fun _ => decodesEncoded, fun _ => encodesDecoded⟩

theorem hex_inverse_af07 : DecodesEncoded [175, 7] ∧ EncodesDecoded [65, 102, 48, 55] :=
  ⟨hex_inverse.1 [175, 7] (by simp) (by decide),
    hex_inverse.2 [65, 102, 48, 55] (by simp) ⟨2, rfl⟩ (by decide)
      (by simp [IsHexDigit, IsLowerHexDigit])⟩

/-! ### The decoder with any scratch -/

/-- `hex_str_to_buf` with a value of `current` to start with. The source leaves it open. -/
def hexStrToBufFrom (current : Option ℕ) (hexIn : CStr) (inlen : UInt32) (bufOut : List UInt8)
    (outlen : ℕ) : Option (List UInt8 × ℕ) :=
  if outlen < ((inlen - 1) / 2).toNat then some (bufOut, outlen)
  else if hexIn.length < inlen.toNat then none
  else do
    let bufOut ← hexStrToBufLoop (inlen / 2).toNat 0 hexIn current bufOut
    return (bufOut, (inlen / 2).toNat)

theorem hexStrToBufFrom_none : hexStrToBufFrom none = hexStrToBuf := rfl

theorem hexStrToBufLoop_from {count : ℕ} :
    ∀ {i : ℕ} {hexIn : CStr} {current : Option ℕ} {bufOut out : List UInt8},
      hexStrToBufLoop count i hexIn none bufOut = some out →
        hexStrToBufLoop count i hexIn current bufOut = some out := by
  cases count with
  | zero => exact id
  | succ count =>
    intro i hexIn current bufOut out h
    obtain ⟨v, hv, h⟩ := Option.bind_eq_some_iff.mp h
    rw [Option.or_none] at hv
    rw [hexStrToBufLoop, hv, Option.some_or, Option.bind_eq_bind, Option.bind_some]
    exact h

/-- Where the decoder does not depend on what `current` held, any value gives its result. -/
theorem hexStrToBufFrom_of_hexStrToBuf {hexIn : CStr} {inlen : UInt32} {bufOut : List UInt8}
    {outlen : ℕ} {r : List UInt8 × ℕ} (h : hexStrToBuf hexIn inlen bufOut outlen = some r)
    (current : Option ℕ) : hexStrToBufFrom current hexIn inlen bufOut outlen = some r := by
  rw [← hexStrToBufFrom_none, hexStrToBufFrom] at h
  rw [hexStrToBufFrom]
  split
  · rwa [if_pos ‹_›] at h
  split
  · rwa [if_neg ‹_›, if_pos ‹_›] at h
  rw [if_neg ‹_›, if_neg ‹_›] at h
  obtain ⟨out, hout, h⟩ := Option.bind_eq_some_iff.mp h
  exact Option.bind_eq_some_iff.mpr ⟨out, hexStrToBufLoop_from hout, h⟩

/-- The decoder's loop is defined where its stores fit. -/
theorem exists_hexStrToBufLoop {count : ℕ} :
    ∀ {i : ℕ} {bufOut : List UInt8} (hexIn : CStr) (current : ℕ), i + count ≤ bufOut.length →
      ∃ out, hexStrToBufLoop count i hexIn (some current) bufOut = some out := by
  induction count with
  | zero => exact fun _ _ _ => ⟨_, rfl⟩
  | succ count ih =>
    intro i bufOut hexIn current hroom
    obtain ⟨v, hv⟩ : ∃ v, (sscanf02x hexIn).or (some current) = some v := by
      cases sscanf02x hexIn with
      | none => exact ⟨current, rfl⟩
      | some v => exact ⟨v, rfl⟩
    have hroom' : i + 1 + count ≤ (bufOut.set i (UInt8.ofNat v)).length := by
      rw [List.length_set]
      omega
    obtain ⟨out, hout⟩ := ih (hexIn.drop 2) v hroom'
    refine ⟨out, ?_⟩
    rw [hexStrToBufLoop, hv, Option.bind_eq_bind, Option.bind_some, store_of_lt (by omega)]
    exact hout

/-- The decoder's loop is undefined where one of its stores does not fit. -/
theorem le_of_hexStrToBufLoop {count : ℕ} :
    ∀ {i : ℕ} {hexIn : CStr} {current : Option ℕ} {bufOut out : List UInt8}, i ≤ bufOut.length →
      hexStrToBufLoop count i hexIn current bufOut = some out → i + count ≤ bufOut.length := by
  induction count with
  | zero => exact fun hi _ => hi
  | succ count ih =>
    intro i hexIn current bufOut out _ h
    obtain ⟨v, -, h⟩ := Option.bind_eq_some_iff.mp h
    obtain ⟨buf, hbuf, hrest⟩ := Option.bind_eq_some_iff.mp h
    have hlen := length_of_store hbuf
    obtain ⟨hi, -⟩ := Option.ite_none_right_eq_some.mp hbuf
    have hle := ih (by omega) hrest
    omega

/-! ### The checks -/

section Checks

variable {buf : List UInt8} {result : Option (List UInt8 × ℕ)} {refuses : Prop}
  {capacity need room produced : ℕ}

/-- A call with a check of its capacity is exact if the check sees the room that is needed, there
is nothing left to report when it refuses, and the stores behind it stay in the room there is. -/
theorem exact_iff_of_check (hrefused : refuses → result = some (buf, capacity))
    (hexists : ¬ refuses → room ≤ capacity → ∃ out, result = some (out, produced))
    (hle : ∀ r, ¬ refuses → result = some r → room ≤ capacity) :
    ((refuses ↔ capacity < need) ∧
        ∃ out, result = some (out, if capacity < need then 0 else produced)) ↔
      (refuses ↔ capacity < need) ∧ (refuses → capacity = 0) ∧ (¬ refuses → room ≤ capacity) := by
  refine and_congr_right fun hexact => ?_
  by_cases h : refuses
  · have hlt := hexact.mp h
    constructor
    · rintro ⟨out, hout⟩
      rw [hrefused h, if_pos hlt] at hout
      exact ⟨fun _ => congrArg Prod.snd (Option.some_inj.mp hout), fun hn => absurd h hn⟩
    · rintro ⟨hzero, -⟩
      exact ⟨buf, by rw [hrefused h, if_pos hlt, hzero h]⟩
  · have hroom : ¬ capacity < need := fun hlt => h (hexact.mpr hlt)
    rw [if_neg hroom]
    constructor
    · rintro ⟨out, hout⟩
      exact ⟨fun hr => absurd hr h, fun _ => hle _ h hout⟩
    · rintro ⟨-, hroom'⟩
      exact hexists h (hroom' h)

end Checks

/-- A call of `buf_to_hex_str`: as much input as it says, and an output buffer of the stated
capacity. -/
structure EncoderCall where
  /-- the input, and what stands behind it -/
  bufIn : List UInt8
  /-- how much of it is to be encoded -/
  inlen : UInt32
  /-- the output buffer -/
  hexOut : List UInt8
  le_length : inlen.toNat ≤ bufIn.length

/-- A call of `hex_str_to_buf`: as many characters as it says, and an output buffer of the stated
capacity. -/
structure DecoderCall where
  /-- the string -/
  hexIn : CStr
  /-- how much of it is to be decoded -/
  inlen : UInt32
  /-- the output buffer -/
  bufOut : List UInt8
  /-- what `current` happens to hold -/
  current : ℕ
  le_length : inlen.toNat ≤ hexIn.length

namespace EncoderCall

variable (c : EncoderCall)

/-- The capacity, `*outlen` at the call. -/
def capacity : ℕ := c.hexOut.length

/-- What the call leaves. -/
def result : Option (List UInt8 × ℕ) := bufToHexStr c.bufIn c.inlen c.hexOut c.capacity

/-- The check, as it is computed. -/
def Refuses : Prop := c.capacity < (c.inlen * 2 + 1).toNat

/-- The room for the digits and their terminator. -/
def need : ℕ := 2 * c.inlen.toNat + 1

/-- The call is refused exactly when there is not enough room. It stays inside its buffer, and
`*outlen` is the number of characters produced. -/
def Exact : Prop :=
  (c.Refuses ↔ c.capacity < c.need) ∧
    ∃ hexOut, c.result =
      some (hexOut, if c.capacity < c.need then 0 else 2 * c.inlen.toNat)

variable {c}

theorem toNat_check : (c.inlen * 2 + 1).toNat = c.need % 4294967296 := by
  rw [UInt32.toNat_add, UInt32.toNat_mul, need, Nat.mul_comm]
  simp only [UInt32.toNat_ofNat, Nat.reducePow, Nat.reduceMod, Nat.mod_add_mod]

theorem result_of_refuses (h : c.Refuses) : c.result = some (c.hexOut, c.capacity) := if_pos h

/-- Behind the check, the result is that of the loop and of the last terminator. -/
theorem result_of_accepts (h : ¬ c.Refuses) :
    c.result = (bufToHexStrLoop (c.bufIn.take c.inlen.toNat) 0 c.hexOut).bind fun hexOut =>
      (store hexOut (2 * c.inlen.toNat + 2 * c.inlen.toNat) 0).bind fun hexOut =>
        some (hexOut, 2 * c.inlen.toNat) := by
  rw [result, bufToHexStr, if_neg (show ¬ c.capacity < (c.inlen * 2 + 1).toNat from h),
    if_neg (Nat.not_lt.mpr c.le_length)]
  rfl

theorem exists_result (h : ¬ c.Refuses) (hroom : 4 * c.inlen.toNat + 1 ≤ c.capacity) :
    ∃ out, c.result = some (out, 2 * c.inlen.toNat) := by
  have htake : (c.bufIn.take c.inlen.toNat).length = c.inlen.toNat := by simp [c.le_length]
  have hroom' : 4 * c.inlen.toNat + 1 ≤ c.hexOut.length := hroom
  obtain ⟨rest, hloop, hlength, -⟩ := bufToHexStrLoop_append (c.bufIn.take c.inlen.toNat) []
    c.hexOut (by rw [htake]; omega)
  rw [List.length_nil, List.nil_append, List.nil_append] at hloop
  rw [htake] at hlength
  have hlast : 2 * c.inlen.toNat + 2 * c.inlen.toNat <
      (hexOf (c.bufIn.take c.inlen.toNat) ++ rest).length := by
    rw [List.length_append, length_hexOf, htake]
    omega
  rw [result_of_accepts h, hloop, Option.bind_some, store_of_lt hlast, Option.bind_some]
  exact ⟨_, rfl⟩

theorem le_of_result {r : List UInt8 × ℕ} (h : ¬ c.Refuses) (hr : c.result = some r) :
    4 * c.inlen.toNat + 1 ≤ c.capacity := by
  rw [result_of_accepts h] at hr
  obtain ⟨out, hout, hr⟩ := Option.bind_eq_some_iff.mp hr
  obtain ⟨out', hout', -⟩ := Option.bind_eq_some_iff.mp hr
  have hlen : out.length = c.capacity := length_of_bufToHexStrLoop hout
  obtain ⟨hlt, -⟩ := Option.ite_none_right_eq_some.mp hout'
  omega

/-- The encoder is exact on more than four times the room of its input, or on no room at all. -/
theorem exact_iff : c.Exact ↔ c.capacity = 0 ∨ 4 * c.inlen.toNat < c.capacity := by
  have hneed : c.need = 2 * c.inlen.toNat + 1 := rfl
  rw [Exact, exact_iff_of_check result_of_refuses exists_result fun _ => le_of_result, Refuses,
    toNat_check]
  omega

end EncoderCall

namespace DecoderCall

variable (c : DecoderCall)

/-- The capacity, `*outlen` at the call. -/
def capacity : ℕ := c.bufOut.length

/-- What the call leaves. -/
def result : Option (List UInt8 × ℕ) :=
  hexStrToBufFrom (some c.current) c.hexIn c.inlen c.bufOut c.capacity

/-- The check, as it is computed. -/
def Refuses : Prop := c.capacity < ((c.inlen - 1) / 2).toNat

/-- The room for the bytes. -/
def need : ℕ := c.inlen.toNat / 2

/-- The call is refused exactly when there is not enough room. It stays inside its buffer, and
`*outlen` is the number of bytes produced. -/
def Exact : Prop :=
  (c.Refuses ↔ c.capacity < c.need) ∧
    ∃ bufOut, c.result = some (bufOut, if c.capacity < c.need then 0 else c.need)

variable {c}

theorem toNat_check_zero (h : c.inlen = 0) : ((c.inlen - 1) / 2).toNat = 2147483647 := by
  rw [h]
  rfl

theorem toNat_check_of_ne (h : c.inlen ≠ 0) :
    ((c.inlen - 1) / 2).toNat = (c.inlen.toNat - 1) / 2 := by
  have hpos : c.inlen.toNat ≠ 0 := fun hzero => h (UInt32.toNat_inj.mp hzero)
  have hone : (1 : UInt32) ≤ c.inlen := by
    rw [UInt32.le_iff_toNat_le]
    exact Nat.one_le_iff_ne_zero.mpr hpos
  rw [UInt32.toNat_div, UInt32.toNat_sub_of_le _ _ hone]
  rfl

theorem result_of_refuses (h : c.Refuses) : c.result = some (c.bufOut, c.capacity) := if_pos h

/-- Behind the check, the result is that of the loop. -/
theorem result_of_accepts (h : ¬ c.Refuses) :
    c.result = (hexStrToBufLoop c.need 0 c.hexIn (some c.current) c.bufOut).bind fun bufOut =>
      some (bufOut, c.need) := by
  have hhalf : (c.inlen / 2).toNat = c.need := by rw [UInt32.toNat_div]; rfl
  rw [result, hexStrToBufFrom, if_neg (show ¬ c.capacity < ((c.inlen - 1) / 2).toNat from h),
    if_neg (Nat.not_lt.mpr c.le_length), hhalf]
  rfl

theorem exists_result (h : ¬ c.Refuses) (hroom : c.need ≤ c.capacity) :
    ∃ out, c.result = some (out, c.need) := by
  have hroom' : 0 + c.need ≤ c.bufOut.length := by
    rw [Nat.zero_add]
    exact hroom
  obtain ⟨out, hout⟩ := exists_hexStrToBufLoop c.hexIn c.current hroom'
  exact ⟨out, by rw [result_of_accepts h, hout, Option.bind_some]⟩

theorem le_of_result {r : List UInt8 × ℕ} (h : ¬ c.Refuses) (hr : c.result = some r) :
    c.need ≤ c.capacity := by
  rw [result_of_accepts h] at hr
  obtain ⟨out, hout, -⟩ := Option.bind_eq_some_iff.mp hr
  have hle := le_of_hexStrToBufLoop (Nat.zero_le _) hout
  rwa [Nat.zero_add] at hle

/-- The decoder is exact where there is room for its bytes, or no room at all and a check that
sees it. On the empty string it is exact only with a capacity that no caller has. -/
theorem exact_iff :
    c.Exact ↔ if c.inlen = 0 then 2147483647 ≤ c.capacity
      else c.inlen.toNat / 2 ≤ c.capacity ∨ (c.capacity = 0 ∧ 3 ≤ c.inlen.toNat) := by
  have hneed : c.need = c.inlen.toNat / 2 := rfl
  rw [Exact, exact_iff_of_check result_of_refuses exists_result fun _ => le_of_result, Refuses]
  split
  · have hlen : c.inlen.toNat = 0 := by rw [‹c.inlen = 0›]; rfl
    rw [toNat_check_zero ‹_›]
    omega
  · rw [toNat_check_of_ne ‹_›]
    omega

end DecoderCall

/-- With the buffers of `psn_serialize_config`, the encoder is exact on keys of at most `1024`
bytes. -/
theorem EncoderCall.exact_iff_le {c : EncoderCall} (hcap : c.capacity = 4097) :
    c.Exact ↔ c.inlen.toNat ≤ 1024 := by
  rw [EncoderCall.exact_iff, hcap]
  omega

/-- With the buffers of `psn_deserialize_config` and the `strlen` of what was copied into one of
them, the decoder is exact on every string but the empty one. -/
theorem DecoderCall.exact_iff_ne_nil {c : DecoderCall}
    (hinlen : c.inlen = UInt32.ofNat c.hexIn.length) (hlen : c.hexIn.length < 4097)
    (hcap : c.capacity = 2048) : c.Exact ↔ c.hexIn ≠ [] := by
  have hN : c.inlen.toNat = c.hexIn.length := by
    rw [hinlen]
    exact toNat_ofNat_of_size (by omega)
  have hzero : c.inlen = 0 ↔ c.hexIn = [] := by
    rw [← UInt32.toNat_inj, hN]
    exact List.length_eq_zero_iff
  rw [DecoderCall.exact_iff, hcap]
  split
  · exact iff_of_false (by decide) (not_not.mpr (hzero.mp ‹_›))
  · exact iff_of_true (by omega) fun hnil => absurd (hzero.mpr hnil) ‹_›

/-- What goes to `rsa_import` for the empty string is the whole buffer, as it was before. -/
theorem decodeKey_nil (pkKeyBuf : Sized 2048) : decodeKey pkKeyBuf (some []) = some pkKeyBuf.1 :=
  decodeKey_eq_some.mpr ⟨[], _, rfl, by decide, hexStrToBuf_nil pkKeyBuf.1,
    List.take_of_length_le (Nat.le_of_eq pkKeyBuf.2)⟩

end Psn

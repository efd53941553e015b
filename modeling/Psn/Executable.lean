import Psn.Json
import Psn.Topic
import Psn.Types

/-!
# An executable instance

The model leaves the keys, the tables of users and the JSON library abstract. Here they are given
concretely, so that the functions of the client can be run: a key is its exported form, a table is
a list that is searched from its end, and a document is printed as jansson prints it.

An import accepts what libtomcrypt accepts as an RSA key in the format of PKCS #1, as long as the
lengths in it fit one byte: a DER sequence of modulus and exponent for a public key, of version
zero and eight numbers for a private one. Everything else is refused, and a refused import leaves
the key that was there. Whether the numbers fit each other is not checked.
-/

namespace Psn

/-- A key given by the bytes that exporting it yields; a key that was never made has none. -/
structure DerKey where
  /-- The exported form. -/
  der : Option Bytes
  deriving DecidableEq, Repr

/-- A DER integer of less than 128 bytes, and what follows it. -/
def derInteger : Bytes → Option (Bytes × Bytes)
  | 2 :: len :: rest =>
    if 0 < len ∧ len < 128 ∧ len.toNat ≤ rest.length then
      some (rest.take len.toNat, rest.drop len.toNat)
    else none
  | _ => none

/-- A sequence of the given number of DER integers with nothing behind them. -/
def derIntegers : ℕ → Bytes → Option (List Bytes)
  | 0, rest => if rest = [] then some [] else none
  | n + 1, rest => do
    let (integer, rest) ← derInteger rest
    let integers ← derIntegers n rest
    return integer :: integers

/-- The bytes are an RSA key: modulus and exponent, or version zero and the eight numbers of a
private key. -/
def isRsaKey : Bytes → Bool
  | 48 :: len :: body =>
    len < 128 && len.toNat == body.length &&
      ((derIntegers 2 body).isSome || (derIntegers 9 body).any fun integers =>
        integers.head? = some [0])
  | _ => false

instance : Tomcrypt DerKey where
  zero := ⟨none⟩
  unset k := k.der.isNone
  unset_zero := rfl
  rsaExport _ outlen k := k.der.filter fun b => decide (b.length ≤ outlen) && !b.isEmpty
  rsaExport_length h := by
    have hb := (Option.filter_eq_some_iff.mp h).2
    rw [Bool.and_eq_true] at hb
    simpa using hb.1
  rsaExport_ne_nil h := by
    have hb := (Option.filter_eq_some_iff.mp h).2
    rw [Bool.and_eq_true] at hb
    simpa using hb.2
  rsaImport b key := if isRsaKey b then (true, ⟨some b⟩) else (false, key)
  rsaEncryptKey plain inlen outlen _ k :=
    -- OAEP with SHA-1 leaves 86 of the 128 bytes to the message
    if k.der.isSome && inlen ≤ 86 && 128 ≤ outlen then
      some ((plain.take inlen ++ List.replicate 128 0).take 128)
    else none

/-- The private key with the primes 61 and 53: version, modulus, both exponents, the primes, the
exponents modulo the primes less one, and the coefficient. -/
def tinyKey : Bytes :=
  [48, 29, 2, 1, 0, 2, 2, 12, 161, 2, 1, 17, 2, 2, 10, 193, 2, 1, 61, 2, 1, 53, 2, 1, 53, 2, 1, 49,
    2, 1, 38]

/-- Its public part. -/
def tinyPublicKey : Bytes := [48, 7, 2, 2, 12, 161, 2, 1, 17]

theorem rsaImport_tinyPublicKey (key : DerKey) :
    Tomcrypt.rsaImport tinyPublicKey key = (true, ⟨some tinyPublicKey⟩) := rfl

instance : UserTable (List (User DerKey)) DerKey := KeyedChain.ofList (User DerKey)

/-- A connected client with empty lists and without a key. -/
def concreteProc (name : UserName) : Proc (List (User DerKey)) DerKey where
  connected := true
  psn :=
    { mosq := some 1
      username := name.field
      shownName := name.field
      password := ⟨[], by decide⟩
      hostname := ⟨lit "localhost", by decide⟩
      port := 1883
      friends := []
      friendRequestsOutgoing := []
      friendRequestsIncoming := []
      pkKey := ⟨none⟩ }

/-- A user name. -/
def alice : UserName where
  bytes := lit "alice"
  ne_nil := by decide
  length_le := by decide
  nul_not_mem := by decide
  slash_not_mem := by decide
  plus_not_mem := by decide
  hash_not_mem := by decide

/-- Another user name. -/
def bob : UserName where
  bytes := lit "bob"
  ne_nil := by decide
  length_le := by decide
  nul_not_mem := by decide
  slash_not_mem := by decide
  plus_not_mem := by decide
  hash_not_mem := by decide

/-- Two user names. -/
def couple : Bool → UserName
  | false => alice
  | true => bob

theorem couple_injective : Function.Injective couple := by
  intro a b h
  cases a <;> cases b <;> first | rfl | exact absurd h (by decide)

/-- Two connected clients. -/
def coupleProc (b : Bool) : Proc (List (User DerKey)) DerKey := concreteProc (couple b)

mutual

/-- The text of a document whose strings need no escapes. -/
def textOf : Json → CStr
  | .null => lit "null"
  | .bool b => lit (if b then "true" else "false")
  | .integer i => lit (toString i)
  | .real literal => literal
  | .string s => lit "\"" ++ s ++ lit "\""
  | .array items => lit "[" ++ textOfItems items ++ lit "]"
  | .object members => lit "\x7b" ++ textOfMembers members ++ lit "\x7d"

/-- The elements of an array, separated by commas. -/
def textOfItems : List Json → CStr
  | [] => []
  | [item] => textOf item
  | item :: next :: items => textOf item ++ lit ", " ++ textOfItems (next :: items)

/-- The members of an object, separated by commas. -/
def textOfMembers : List (CStr × Json) → CStr
  | [] => []
  | [(key, value)] => lit "\"" ++ key ++ lit "\": " ++ textOf value
  | (key, value) :: next :: members =>
    lit "\"" ++ key ++ lit "\": " ++ textOf value ++ lit ", " ++ textOfMembers (next :: members)

end

/-- A jansson that takes ASCII for all of UTF-8 and can parse the text of one document. -/
def asciiJansson (doc : Json) : Jansson where
  utf8 s := s.all (· < 128)
  utf8_ascii s h := by simpa using h
  dumps root := some (textOf root)
  loads text := if text = textOf doc then some doc else none

theorem dumps_asciiJansson (doc root : Json) :
    (asciiJansson doc).dumps root = some (textOf root) := rfl

theorem loads_asciiJansson (doc : Json) : (asciiJansson doc).loads (textOf doc) = some doc :=
  if_pos rfl

end Psn

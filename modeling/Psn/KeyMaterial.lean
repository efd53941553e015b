import Psn.Profile

/-!
# Whose key is saved

`psn_serialize_config` exports all keys into one buffer and turns them into hex digits in another.
A failure of `rsa_export` leaves both as they were, so a failure that is missed saves the key of
another user, or what the stack held. The loops look at the result of each export. The export of
the own key is not looked at: after a failure the 2048 bytes of the buffer are turned into digits,
and the terminator behind them is written outside of the other buffer.

Which exports fail is decided by the keys, and a key is any value, so the statements cover every
pattern of failures.

## Main results

* `keyMaterial_iff`: when the saved keys are the right ones
-/

namespace Psn

open KeyedChain Tomcrypt

variable {τ κ : Type} [Tomcrypt κ]

/-- The string that is to be saved for a key: the digits of the exported bytes, if the export
succeeded. -/
def keyString (exported : Option Bytes) : Option Json := exported.map fun out => .string (hexOf out)

/-- The name and the key of an object. -/
def objectKey (obj : Json) : Option Json × Option Json :=
  (jsonObjectGet (some obj) (lit "name"), jsonObjectGet (some obj) (lit "pubkey"))

/-- The objects in the three arrays of a document. -/
def savedObjects (root : Json) : List Json :=
  jsonArrayItems (jsonObjectGet (some root) (lit "friends")) ++
    jsonArrayItems (jsonObjectGet (some root) (lit "friendrqsinc")) ++
    jsonArrayItems (jsonObjectGet (some root) (lit "friendrqsout"))

variable [UserTable τ κ]

/-- The document has one object for each user, with his name and the digits of his own key, and the
digits of the own private key. What could not be exported is absent. -/
def KeyMaterial (J : Jansson) (psn : PsnT τ κ) (stack : KeyBuffers) : Prop :=
  ∃ root effects, configRoot J psn stack = some (root, effects) ∧
    ((savedObjects root).map objectKey).Perm ((allUsers psn).map fun s =>
      (jsonString J s.name.1, keyString (exportedKey s.pubKey))) ∧
    jsonObjectGet (some root) (lit "privkey") =
      keyString (rsaExport .pkPrivate 2048 psn.pkKey)

omit [UserTable τ κ] in
theorem objectKey_savedUser (J : Jansson) (s : User κ) :
    objectKey (savedUser J s) = (jsonString J s.name.1, keyString (exportedKey s.pubKey)) := by
  have hname : jsonObjectGet (some (savedUser J s)) (lit "name") = jsonString J s.name.1 := by
    rw [savedUser]
    split <;> simp (disch := decide) only [jsonObjectGet_set_of_ne, jsonObjectGet_set_self,
      jsonObjectGet_nil, Option.or_none]
  have hkey : jsonObjectGet (some (savedUser J s)) (lit "pubkey") =
      keyString (exportedKey s.pubKey) := by
    rw [savedUser]
    split
    · rename_i hnone
      simp (disch := decide) only [hnone, keyString, jsonObjectGet_set_of_ne, jsonObjectGet_nil,
        Option.map_none]
    · rename_i out hout
      rw [hout, jsonObjectGet_set_self, jsonString_hexOf, Option.some_or]
      rfl
  rw [objectKey, hname, hkey]

open scoped List in
/-- Two lists, each in two parts whose second parts stand first. -/
theorem perm_append_parts {α : Type} (a b c d : List α) :
    a ++ (b ++ (c ++ d)) ~ (c ++ a) ++ (d ++ b) :=
  calc a ++ (b ++ (c ++ d)) ~ a ++ (c ++ (d ++ b)) := by
        refine List.Perm.append_left a ?_
        rw [← List.append_assoc c d b]
        exact List.perm_append_comm
    _ = (a ++ c) ++ (d ++ b) := (List.append_assoc a c (d ++ b)).symm
    _ ~ (c ++ a) ++ (d ++ b) := List.perm_append_comm.append_right _

/-- The three arrays hold each user once, although not always in his own list. -/
theorem savedObjects_savedRoot (J : Jansson) (psn : PsnT τ κ) (out : Bytes) :
    (savedObjects (savedRoot J psn out)).Perm ((allUsers psn).map (savedUser J)) := by
  have hparts : ∀ l : List (User κ), (l.filter hasKey ++ l.filter fun s => !hasKey s).Perm l :=
    List.filter_append_perm hasKey
  rw [savedObjects, get_friends_savedRoot, get_friendrqsinc_savedRoot,
    get_friendrqsout_savedRoot, savedArrays_eq]
  simp only [jsonArrayItems, ← List.map_append, allUsers]
  refine List.Perm.map _ ?_
  simp only [List.append_assoc]
  exact ((perm_append_parts _ _ _ _).trans ((hparts _).append (hparts _))).append_left _

/-- **When the saved keys are the right ones.** This is so exactly if the own key is exported, and
no exported key is so long that its digits and the store behind them leave the hex buffer. Other
users' keys may be missing or fail in any pattern. -/
theorem keyMaterial_iff (J : Jansson) (psn : PsnT τ κ) (stack : KeyBuffers) :
    KeyMaterial J psn stack ↔ FitsBuffers psn := by
  constructor
  · rintro ⟨root, effects, hroot, -⟩
    exact fitsBuffers_of_configRoot hroot
  · intro h
    obtain ⟨out, hown, hlen⟩ := h.own
    obtain ⟨effects, hroot⟩ := exists_configRoot J h.users hown hlen stack
    refine ⟨_, effects, hroot, ?_, ?_⟩
    · have hobjects := (savedObjects_savedRoot J psn out).map objectKey
      rw [List.map_map] at hobjects
      simpa only [Function.comp_def, objectKey_savedUser] using hobjects
    · rw [get_privkey_savedRoot, hown]
      rfl

/-- A client without a key cannot be saved: the failed export of its own key is not noticed. -/
theorem not_keyMaterial_no_key :
    rsaExport .pkPrivate 2048 (concreteProc alice).psn.pkKey = none ∧
      ¬KeyMaterial (asciiJansson .null) (concreteProc alice).psn blankStack := by
  have hnone : rsaExport .pkPrivate 2048 (concreteProc alice).psn.pkKey = none := rfl
  refine ⟨hnone, ?_⟩
  rintro ⟨root, effects, hroot, -⟩
  obtain ⟨out, hout, -⟩ := (fitsBuffers_of_configRoot hroot).own
  rw [hnone] at hout
  cases hout

end Psn

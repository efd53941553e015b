import Psn.CString

/-!
# JSON documents

The configuration is a JSON document built and read through jansson, which is not part of the
repository. Documents are a type here, and the accessors that the client calls are defined on
pointers to them, where NULL is `none`. What turns a document into text and back, and which
strings are valid UTF-8, is a parameter (`Jansson`).
-/

namespace Psn

/-- A JSON document. The members of an object stand in insertion order. -/
inductive Json
  | null
  | bool (b : Bool)
  | integer (i : ℤ)
  | real (literal : CStr)
  | string (s : CStr)
  | array (items : List Json)
  | object (members : List (CStr × Json))

/-- The part of jansson that is not about the structure of documents. -/
structure Jansson where
  /-- Whether a string is valid UTF-8. -/
  utf8 : CStr → Bool
  utf8_ascii : ∀ s : CStr, (∀ c ∈ s, c < 128) → utf8 s = true
  /-- `json_dumps` without flags. -/
  dumps : Json → Option CStr
  /-- `json_loads` without flags. -/
  loads : CStr → Option Json

/-- `json_string`: NULL unless the string is valid UTF-8. -/
def jsonString (J : Jansson) (s : CStr) : Option Json :=
  if J.utf8 s then some (.string s) else none

/-- The members of an object under construction. -/
abbrev Members := List (CStr × Json)

/-- Put a member into an object, in the place of one with the same key. -/
def setMember : Members → (key : CStr) → (value : Json) → Members
  | [], key, value => [(key, value)]
  | m :: members, key, value =>
    if m.1 = key then (key, value) :: members else m :: setMember members key value

/-- `json_object_set_new`: a NULL value is refused. -/
def jsonObjectSetNew (members : Members) (key : CStr) : Option Json → Members
  | some value => setMember members key value
  | none => members

/-- `json_object_get`. -/
def jsonObjectGet (obj : Option Json) (key : CStr) : Option Json :=
  match obj with
  | some (.object members) => members.lookup key
  | _ => none

/-- `json_string_value`. -/
def jsonStringValue : Option Json → Option CStr
  | some (.string s) => some s
  | _ => none

/-- `json_integer_value`. -/
def jsonIntegerValue : Option Json → ℤ
  | some (.integer i) => i
  | _ => 0

/-- The elements that a loop up to `json_array_size` gets from `json_array_get`. -/
def jsonArrayItems : Option Json → List Json
  | some (.array items) => items
  | _ => []

theorem jsonString_of_utf8 {J : Jansson} {s : CStr} (h : J.utf8 s = true) :
    jsonString J s = some (.string s) := if_pos h

/-- A string comes back from its document if it is valid UTF-8, and otherwise is lost. -/
theorem jsonStringValue_jsonString {J : Jansson} {s : CStr} :
    jsonStringValue (jsonString J s) = some s ↔ J.utf8 s = true := by
  cases h : J.utf8 s <;> simp [jsonString, jsonStringValue, h]

theorem lookup_setMember_self (members : Members) (key : CStr) (value : Json) :
    (setMember members key value).lookup key = some value := by
  induction members with
  | nil => simp [setMember]
  | cons m members ih =>
    by_cases hm : m.1 = key
    · simp [setMember, hm]
    · have hbeq : (key == m.1) = false := beq_eq_false_iff_ne.mpr (Ne.symm hm)
      rw [setMember, if_neg hm, List.lookup_cons, hbeq]
      exact ih

theorem lookup_setMember_of_ne (members : Members) {key key' : CStr} (value : Json)
    (h : key' ≠ key) : (setMember members key value).lookup key' = members.lookup key' := by
  have hbeq : (key' == key) = false := beq_eq_false_iff_ne.mpr h
  induction members with
  | nil => rw [setMember, List.lookup_cons, hbeq]
  | cons m members ih =>
    by_cases hm : m.1 = key
    · rw [setMember, if_pos hm, List.lookup_cons, List.lookup_cons, hm, hbeq]
    · rw [setMember, if_neg hm, List.lookup_cons, List.lookup_cons, ih]

@[simp] theorem jsonObjectGet_nil (key : CStr) : jsonObjectGet (some (.object [])) key = none := rfl

/-- A member that was put into an object is found in it. -/
theorem jsonObjectGet_set_self (members : Members) (key : CStr) (value : Option Json) :
    jsonObjectGet (some (.object (jsonObjectSetNew members key value))) key =
      value.or (jsonObjectGet (some (.object members)) key) := by
  cases value with
  | none => rfl
  | some value => exact lookup_setMember_self members key value

/-- The other members are found as before. -/
theorem jsonObjectGet_set_of_ne (members : Members) {key key' : CStr} (value : Option Json)
    (h : key' ≠ key) :
    jsonObjectGet (some (.object (jsonObjectSetNew members key value))) key' =
      jsonObjectGet (some (.object members)) key' := by
  cases value with
  | none => rfl
  | some value => exact lookup_setMember_of_ne members value h

end Psn

import Psn.Profile
import Mathlib.Data.List.TakeWhile

/-!
# The text of a saved profile

`json_dumps` prints a document on one line, with a comma and a blank between the members of an
object or the elements of an array, and strings with escapes. In which order it prints the members
of an object depends on its version, but the length of the text does not. So the length of the
file that a profile is saved to is known: it is a sum over the users, in which a key counts with two
digits for each byte.

## Main definitions

* `printJson`: the text of a document
* `Prints`: a jansson that prints documents so, up to the order of members
* `printingJansson`: one that does
* `profileLength`: the length of the text of a profile

## Main results

* `zero_not_mem_printJson`: no text has zero bytes
* `length_printJson_savedRoot`: the text of a saved profile has that length
-/

namespace Psn

open Buffer KeyedChain Tomcrypt

/-! ### Printing -/

/-- A byte in a string of a document. -/
def escape (c : UInt8) : CStr :=
  if c = 34 then lit "\\\""
  else if c = 92 then lit "\\\\"
  else if c = 8 then lit "\\b"
  else if c = 12 then lit "\\f"
  else if c = 10 then lit "\\n"
  else if c = 13 then lit "\\r"
  else if c = 9 then lit "\\t"
  else if c < 32 then
    lit "\\u00" ++ [48 + c / 16, if c % 16 < 10 then 48 + c % 16 else 55 + c % 16]
  else [c]

/-- A string of a document, with its quotes. -/
def printString (s : CStr) : CStr := lit "\"" ++ s.flatMap escape ++ lit "\""

mutual

/-- The text of a document. -/
def printJson : Json → CStr
  | .null => lit "null"
  | .bool b => lit (if b then "true" else "false")
  | .integer i => lit (toString i)
  | .real literal => literal.takeWhile (· ≠ 0)
  | .string s => printString s
  | .array items => lit "[" ++ printItems items ++ lit "]"
  | .object members => lit "\x7b" ++ printMembers members ++ lit "\x7d"

/-- The elements of an array. -/
def printItems : List Json → CStr
  | [] => []
  | [item] => printJson item
  | item :: next :: items => printJson item ++ lit ", " ++ printItems (next :: items)

/-- The members of an object. -/
def printMembers : List (CStr × Json) → CStr
  | [] => []
  | [(key, value)] => printString key ++ lit ": " ++ printJson value
  | (key, value) :: next :: members =>
    printString key ++ lit ": " ++ printJson value ++ lit ", " ++ printMembers (next :: members)

end

/-- This jansson prints every object, in a text without zero bytes, and as long as `printJson` has
it. -/
def Prints (J : Jansson) : Prop :=
  ∀ members, ∃ text, J.dumps (.object members) = some text ∧ 0 ∉ text ∧
    text.length = (printJson (.object members)).length

/-! ### No text has zero bytes -/

theorem zero_not_mem_escape (c : UInt8) : 0 ∉ escape c := by
  have hall : ∀ n < 256, 0 ∉ escape (UInt8.ofNat n) := by decide +kernel
  have hc := hall c.toNat c.toNat_lt
  rwa [UInt8.ofNat_toNat] at hc

theorem zero_not_mem_printString (s : CStr) : 0 ∉ printString s := by
  have hquote : 0 ∉ lit "\"" := by decide
  simp only [printString, List.mem_append, List.mem_flatMap, not_or, not_exists, not_and]
  exact ⟨⟨hquote, fun c _ => zero_not_mem_escape c⟩, hquote⟩

/-- The digits of a number are not zero bytes. -/
theorem zero_not_mem_repr (n : ℕ) : 0 ∉ lit n.repr := by
  rw [lit, Nat.toList_repr]
  intro h
  obtain ⟨c, hc, hzero⟩ := List.mem_map.mp h
  have hdigit : 48 ≤ c.toNat ∧ c.toNat ≤ 57 :=
    Char.isDigit_iff_toNat.mp (Nat.isDigit_of_mem_toDigits (by decide) (by decide) hc)
  have hval := congrArg UInt8.toNat hzero
  rw [UInt8.toNat_ofNat', Nat.mod_eq_of_lt (by omega)] at hval
  simp at hval
  omega

theorem zero_not_mem_toString (i : ℤ) : 0 ∉ lit (toString i) := by
  cases i with
  | ofNat n => exact zero_not_mem_repr n
  | negSucc n =>
    show 0 ∉ lit ("-" ++ (n + 1).repr)
    rw [lit, String.toList_append, List.map_append, List.mem_append, not_or]
    exact ⟨by decide, zero_not_mem_repr (n + 1)⟩

mutual

theorem zero_not_mem_printJson : ∀ j : Json, 0 ∉ printJson j
  | .null => by decide
  | .bool b => by cases b <;> decide
  | .integer i => by
    rw [printJson]
    exact zero_not_mem_toString i
  | .real literal => fun h => by
    rw [printJson] at h
    simpa using List.mem_takeWhile_imp h
  | .string s => by
    rw [printJson]
    exact zero_not_mem_printString s
  | .array items => by
    have hitems := zero_not_mem_printItems items
    simp only [printJson, List.mem_append, not_or]
    exact ⟨⟨by decide, hitems⟩, by decide⟩
  | .object members => by
    have hmembers := zero_not_mem_printMembers members
    simp only [printJson, List.mem_append, not_or]
    exact ⟨⟨by decide, hmembers⟩, by decide⟩

theorem zero_not_mem_printItems : ∀ items : List Json, 0 ∉ printItems items
  | [] => List.not_mem_nil
  | [item] => zero_not_mem_printJson item
  | item :: next :: items => by
    have hitem := zero_not_mem_printJson item
    have hitems := zero_not_mem_printItems (next :: items)
    simp only [printItems, List.mem_append, not_or]
    exact ⟨⟨hitem, by decide⟩, hitems⟩

theorem zero_not_mem_printMembers : ∀ members : List (CStr × Json), 0 ∉ printMembers members
  | [] => List.not_mem_nil
  | [(key, value)] => by
    have hvalue := zero_not_mem_printJson value
    simp only [printMembers, List.mem_append, not_or]
    exact ⟨⟨zero_not_mem_printString key, by decide⟩, hvalue⟩
  | (key, value) :: next :: members => by
    have hvalue := zero_not_mem_printJson value
    have hmembers := zero_not_mem_printMembers (next :: members)
    simp only [printMembers, List.mem_append, not_or]
    exact ⟨⟨⟨⟨zero_not_mem_printString key, by decide⟩, hvalue⟩, by decide⟩, hmembers⟩

end

/-- A jansson that keeps the members of an object in order, takes ASCII for all of UTF-8 and can
parse the text of one document. -/
def printingJansson (doc : Json) : Jansson :=
  { asciiJansson doc with
    dumps := fun root => some (printJson root)
    loads := fun text => if text = printJson doc then some doc else none }

theorem prints_printingJansson (doc : Json) : Prints (printingJansson doc) := fun members =>
  ⟨_, rfl, zero_not_mem_printJson (.object members), rfl⟩

/-! ### Lengths -/

/-- The length of a list of texts with a comma and a blank between any two of them. -/
def joined : List ℕ → ℕ
  | [] => 0
  | [n] => n
  | n :: m :: lens => n + 2 + joined (m :: lens)

/-- The length of a string with its quotes and escapes. -/
def quotedLength (s : CStr) : ℕ := 2 + (s.flatMap escape).length

theorem length_printString (s : CStr) : (printString s).length = quotedLength s := by
  have hquote : (lit "\"").length = 1 := rfl
  rw [printString, List.length_append, List.length_append, hquote, quotedLength]
  omega

theorem length_printItems (items : List Json) :
    (printItems items).length = joined (items.map fun item => (printJson item).length) := by
  induction items with
  | nil => rfl
  | cons item items ih =>
    cases items with
    | nil => simp [printItems, joined]
    | cons next items =>
      have hsep : (lit ", ").length = 2 := rfl
      rw [printItems, List.length_append, List.length_append, ih, hsep]
      simp only [List.map_cons, joined]

/-- The length of a member of an object. -/
def memberLength (m : CStr × Json) : ℕ := quotedLength m.1 + 2 + (printJson m.2).length

theorem length_printMembers (members : List (CStr × Json)) :
    (printMembers members).length = joined (members.map memberLength) := by
  have hcolon : (lit ": ").length = 2 := rfl
  induction members with
  | nil => rfl
  | cons m members ih =>
    cases members with
    | nil =>
      simp only [printMembers, List.length_append, length_printString, hcolon, joined, memberLength,
        List.map_cons, List.map_nil]
    | cons next members =>
      have hsep : (lit ", ").length = 2 := rfl
      rw [printMembers, List.length_append, List.length_append, ih, hsep, List.length_append,
        List.length_append, length_printString, hcolon]
      simp only [List.map_cons, joined, memberLength]

theorem length_printJson_array (items : List Json) :
    (printJson (.array items)).length =
      2 + joined (items.map fun item => (printJson item).length) := by
  have hopen : (lit "[").length = 1 := rfl
  have hclose : (lit "]").length = 1 := rfl
  rw [printJson, List.length_append, List.length_append, length_printItems, hopen, hclose]
  omega

theorem length_printJson_object (members : Members) :
    (printJson (.object members)).length = 2 + joined (members.map memberLength) := by
  have hopen : (lit "\x7b").length = 1 := rfl
  have hclose : (lit "\x7d").length = 1 := rfl
  rw [printJson, List.length_append, List.length_append, length_printMembers, hopen, hclose]
  omega

theorem length_printJson_string (s : CStr) : (printJson (.string s)).length = quotedLength s := by
  rw [printJson, length_printString]

/-- Hex digits need no escapes. -/
theorem quotedLength_hexOf (bytes : Bytes) : quotedLength (hexOf bytes) = 2 + 2 * bytes.length := by
  have hplain : ∀ d < 16, escape (hexDigit d) = [hexDigit d] := by decide
  have hself : (hexOf bytes).flatMap escape = (hexOf bytes).flatMap fun c => [c] :=
    List.flatMap_congr fun c hc =>
      forall_mem_hexOf (P := fun c => escape c = [c]) hplain bytes c hc
  rw [quotedLength, hself, List.flatMap_singleton', length_hexOf]

/-! ### The length of a profile -/

/-- A member with a key that is not there yet comes last. -/
theorem setMember_of_lookup_none {members : Members} {key : CStr} (h : members.lookup key = none)
    (value : Json) : setMember members key value = members ++ [(key, value)] := by
  induction members with
  | nil => rfl
  | cons m members ih =>
    have hne : m.1 ≠ key := by
      rintro rfl
      simp at h
    have hbeq : (key == m.1) = false := beq_eq_false_iff_ne.mpr (Ne.symm hne)
    rw [List.lookup_cons, hbeq] at h
    rw [setMember, if_neg hne, ih h, List.cons_append]

/-- The lengths of the members of an object, when one was put into it. -/
theorem memberLengths_set {members : Members} {key : CStr}
    (h : jsonObjectGet (some (.object members)) key = none) (value : Option Json) :
    (jsonObjectSetNew members key value).map memberLength =
      members.map memberLength ++ (value.map fun v => memberLength (key, v)).toList := by
  cases value with
  | none => simp [jsonObjectSetNew]
  | some value =>
    rw [jsonObjectSetNew, setMember_of_lookup_none h, List.map_append]
    rfl

/-- The lengths of the members of an object that was built with different keys. -/
theorem memberLengths_foldl {entries : List (CStr × Option Json)} : ∀ {members : Members},
    (∀ e ∈ entries, jsonObjectGet (some (.object members)) e.1 = none) →
      (entries.map Prod.fst).Nodup →
      (entries.foldl (fun ms e => jsonObjectSetNew ms e.1 e.2) members).map memberLength =
        members.map memberLength ++
          entries.flatMap fun e => (e.2.map fun v => memberLength (e.1, v)).toList := by
  induction entries with
  | nil => simp
  | cons e entries ih =>
    intro members hnone hnodup
    obtain ⟨hnotin, hnodup⟩ := List.nodup_cons.mp hnodup
    have hrest : ∀ e' ∈ entries,
        jsonObjectGet (some (.object (jsonObjectSetNew members e.1 e.2))) e'.1 = none := by
      intro e' he'
      have hne : e'.1 ≠ e.1 := fun heq => hnotin (heq ▸ List.mem_map_of_mem he')
      rw [jsonObjectGet_set_of_ne members e.2 hne, hnone e' (List.mem_cons_of_mem e he')]
    rw [List.foldl_cons, ih hrest hnodup, memberLengths_set (hnone e List.mem_cons_self),
      List.flatMap_cons, List.append_assoc]

variable {τ κ : Type} [Tomcrypt κ] [UserTable τ κ]

/-- The length of a member with the given string, whose key is `n` bytes long. A string that is not
valid UTF-8 is left out. -/
def stringMember (J : Jansson) (n : ℕ) (s : CStr) : List ℕ :=
  if J.utf8 s then [n + 4 + quotedLength s] else []

omit [UserTable τ κ] in
/-- The length of the object of a user. -/
def userLength (J : Jansson) (s : User κ) : ℕ :=
  2 + joined (stringMember J 4 s.name.1 ++ stringMember J 10 s.shownName.1 ++
    ((exportedKey s.pubKey).map fun out => 12 + 2 * out.length).toList)

omit [UserTable τ κ] in
/-- The length of an array of users. -/
def usersLength (J : Jansson) (users : List (User κ)) : ℕ := 2 + joined (users.map (userLength J))

/-- The length of the text of a profile, given the bytes of the own key. -/
def profileLength (J : Jansson) (psn : PsnT τ κ) (out : Bytes) : ℕ :=
  2 + joined (stringMember J 8 psn.username.1 ++ stringMember J 8 psn.hostname.1 ++
    [8 + (lit (toString psn.port.toInt)).length,
      11 + usersLength J (items psn.friends ++
        (items psn.friendRequestsIncoming).filter (fun s => !hasKey s) ++
        (items psn.friendRequestsOutgoing).filter fun s => !hasKey s),
      16 + usersLength J ((items psn.friendRequestsIncoming).filter hasKey),
      16 + usersLength J ((items psn.friendRequestsOutgoing).filter hasKey),
      13 + 2 * out.length])

theorem memberLength_jsonString (J : Jansson) (key s : CStr) {n : ℕ}
    (hn : quotedLength key = n + 2) :
    ((jsonString J s).map fun v => memberLength (key, v)).toList = stringMember J n s := by
  rw [jsonString, stringMember]
  split
  · simp [memberLength, hn, length_printJson_string]
  · rfl

theorem memberLength_hexOf (J : Jansson) (key : CStr) (bytes : Bytes) {n : ℕ}
    (hn : quotedLength key = n) :
    ((jsonString J (hexOf bytes)).map fun v => memberLength (key, v)).toList =
      [n + 4 + 2 * bytes.length] := by
  have hlen : memberLength (key, .string (hexOf bytes)) = n + 4 + 2 * bytes.length := by
    rw [memberLength, hn, length_printJson_string, quotedLength_hexOf]
    omega
  rw [jsonString_hexOf, Option.map_some, hlen, Option.toList_some]

/-- The text of an object that was built with different keys. -/
theorem length_printJson_built (entries : List (CStr × Option Json))
    (h : (entries.map Prod.fst).Nodup) :
    (printJson (.object (entries.foldl (fun ms e => jsonObjectSetNew ms e.1 e.2) []))).length =
      2 + joined (entries.flatMap fun e => (e.2.map fun v => memberLength (e.1, v)).toList) := by
  rw [length_printJson_object, memberLengths_foldl (fun e _ => jsonObjectGet_nil e.1) h]
  rfl

omit [UserTable τ κ] in
theorem length_printJson_savedUser (J : Jansson) (s : User κ) :
    (printJson (savedUser J s)).length = userLength J s := by
  have hname := memberLength_jsonString J (lit "name") s.name.1 (n := 4) (by decide)
  have hshown := memberLength_jsonString J (lit "shown_name") s.shownName.1 (n := 10) (by decide)
  rw [savedUser, userLength]
  cases exportedKey s.pubKey with
  | none =>
    refine (length_printJson_built [(lit "name", jsonString J s.name.1),
      (lit "shown_name", jsonString J s.shownName.1)]
      (show [lit "name", lit "shown_name"].Nodup by decide)).trans ?_
    simp [hname, hshown]
  | some out =>
    have hkey := memberLength_hexOf J (lit "pubkey") out (n := 8) (by decide)
    refine (length_printJson_built [(lit "name", jsonString J s.name.1),
      (lit "shown_name", jsonString J s.shownName.1), (lit "pubkey", jsonString J (hexOf out))]
      (show [lit "name", lit "shown_name", lit "pubkey"].Nodup by decide)).trans ?_
    simp [hname, hshown, hkey]

omit [UserTable τ κ] in
theorem memberLength_users (J : Jansson) (key : CStr) (users : List (User κ)) {n : ℕ}
    (hn : quotedLength key = n) :
    ((some (Json.array (users.map (savedUser J)))).map fun v => memberLength (key, v)).toList =
      [n + 2 + usersLength J users] := by
  rw [Option.map_some, Option.toList_some, memberLength, hn, length_printJson_array, List.map_map,
    usersLength]
  exact congrArg (fun lens => [n + 2 + (2 + joined lens)])
    (List.map_congr_left fun s _ => length_printJson_savedUser J s)

/-- **The text of a saved profile** is as long as the users and their keys make it. -/
theorem length_printJson_savedRoot (J : Jansson) (psn : PsnT τ κ) (out : Bytes) :
    (printJson (savedRoot J psn out)).length = profileLength J psn out := by
  have husername := memberLength_jsonString J (lit "username") psn.username.1 (n := 8) (by decide)
  have hhostname := memberLength_jsonString J (lit "hostname") psn.hostname.1 (n := 8) (by decide)
  have hport : quotedLength (lit "port") = 6 := by decide
  have hkey := memberLength_hexOf J (lit "privkey") out (n := 9) (by decide)
  have hfriends := memberLength_users J (lit "friends") (items psn.friends ++
    (items psn.friendRequestsIncoming).filter (fun s => !hasKey s) ++
    (items psn.friendRequestsOutgoing).filter fun s => !hasKey s) (n := 9) (by decide)
  have hincoming := memberLength_users J (lit "friendrqsinc")
    ((items psn.friendRequestsIncoming).filter hasKey) (n := 14) (by decide)
  have houtgoing := memberLength_users J (lit "friendrqsout")
    ((items psn.friendRequestsOutgoing).filter hasKey) (n := 14) (by decide)
  have hinteger : (printJson (.integer psn.port.toInt)).length =
      (lit (toString psn.port.toInt)).length := by rw [printJson]
  rw [savedRoot, savedArrays_eq, profileLength]
  refine (length_printJson_built [(lit "username", jsonString J psn.username.1),
    (lit "hostname", jsonString J psn.hostname.1),
    (lit "port", some (.integer psn.port.toInt)), (lit "friends", some (.array _)),
    (lit "friendrqsinc", some (.array _)), (lit "friendrqsout", some (.array _)),
    (lit "privkey", jsonString J (hexOf out))]
    (show [lit "username", lit "hostname", lit "port", lit "friends", lit "friendrqsinc",
      lit "friendrqsout", lit "privkey"].Nodup by decide)).trans ?_
  simp only [List.flatMap_cons, List.flatMap_nil, husername, hhostname, hfriends, hincoming,
    houtgoing, hkey]
  simp [memberLength, hport, hinteger]

end Psn

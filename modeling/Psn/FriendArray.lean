import Psn.Executable
import Psn.Session

/-!
# The exported friend list

`psn_get_friend_list` counts the friends, allocates an array of that many pointers, and stores a
copy of each name in a second loop. The array is reached through the out-parameter: the code writes
`*friends[i]`, which takes the `i`-th pointer behind `friends` and stores to the first entry of what
that points to, where `(*friends)[i]` would be the `i`-th entry of the array. The caller has
one pointer there. So the first friend is stored as intended, and for the second one the code
follows a pointer that is not the caller's.

## Main results

* `psnGetFriendList_eq`: the strings behind the out-parameter, as the whole interface uses them
* `friendListComplete_iff`: when the exported list is complete
-/

namespace Psn

open KeyedChain

variable {τ κ : Type}

/-- The loop that counts the friends. -/
def countFriends (users : List (User κ)) : ℕ := users.foldl (fun len _ => len + 1) 0

/-- The loop that stores the names, at its `i`-th friend. `cells` are the pointers behind `friends`,
and each of them points to an array of pointers to strings. -/
def fillFriends (cells : List (List (Option CStr))) : List (User κ) → ℕ →
    Option (List (List (Option CStr)))
  | [], _ => some cells
  | s :: users, i => do
    -- `friends[i]`
    let array ← cells[i]?
    -- `*friends[i] = calloc(...)`, and the copy of the name
    if array = [] then none
    else fillFriends (cells.set i (array.set 0 (some s.name.1))) users (i + 1)

variable [UserTable τ κ]

/-- `psn_get_friend_list`: the returned length and the array behind the out-parameter, which is one
pointer. -/
def psnGetFriendListArray (psn : PsnT τ κ) : Option (ℤ × List (Option CStr)) := do
  let len := countFriends (items psn.friends)
  let cells ← fillFriends [List.replicate len none] (items psn.friends) 0
  let array ← cells[0]?
  return (intOfSize len, array)

/-- `psn_cli_print_friend_list`: the lines that it prints. -/
def psnCliPrintFriendList (psn : PsnT τ κ) : Option (List CStr) := do
  let (len, friends) ← psnGetFriendListArray psn
  (friends.take len.toNat).mapM fun s => s.map fun name => lit "* " ++ name ++ lit "\n"

omit [UserTable τ κ] in
theorem countFriends_eq (users : List (User κ)) : countFriends users = users.length := by
  have hcount : ∀ n, users.foldl (fun len _ => len + 1) n = n + users.length := by
    induction users with
    | nil => exact fun _ => rfl
    | cons s users ih =>
      intro n
      rw [List.foldl_cons, ih, List.length_cons]
      omega
  rw [countFriends, hcount, Nat.zero_add]

omit [UserTable τ κ] in
/-- Behind the caller's pointer there is nothing that the loop may take. -/
theorem fillFriends_eq_none {cells : List (List (Option CStr))} {users : List (User κ)} {i : ℕ}
    (hi : cells.length ≤ i) (hne : users ≠ []) : fillFriends cells users i = none := by
  obtain ⟨s, users, rfl⟩ := List.exists_cons_of_ne_nil hne
  rw [fillFriends, List.getElem?_eq_none hi]
  rfl

omit [UserTable τ κ] in
theorem fillFriends_cons {cells : List (List (Option CStr))} {i : ℕ} {array : List (Option CStr)}
    (hcell : cells[i]? = some array) (hne : array ≠ []) (s : User κ) (users : List (User κ)) :
    fillFriends cells (s :: users) i =
      fillFriends (cells.set i (array.set 0 (some s.name.1))) users (i + 1) := by
  rw [fillFriends, hcell]
  exact if_neg hne

/-- The function is defined for at most one friend. -/
theorem psnGetFriendListArray_eq (psn : PsnT τ κ) :
    psnGetFriendListArray psn =
      if (keys psn.friends).length ≤ 1 then
        some (((keys psn.friends).length : ℤ), (keys psn.friends).map some)
      else none := by
  rw [psnGetFriendListArray, countFriends_eq, keys]
  rcases items psn.friends with - | ⟨s, - | ⟨u, users⟩⟩
  · rfl
  · rfl
  · have hfill : fillFriends [List.replicate (s :: u :: users).length none] (s :: u :: users) 0 =
        none := by
      rw [fillFriends_cons rfl (by simp)]
      exact fillFriends_eq_none (Nat.le_refl _) (List.cons_ne_nil u users)
    rw [hfill, if_neg (by simp)]
    rfl

/-- The strings behind the out-parameter. -/
theorem psnGetFriendList_eq (psn : PsnT τ κ) :
    (psnGetFriendList psn).map (List.map some) = (psnGetFriendListArray psn).map Prod.snd := by
  rw [psnGetFriendList, psnGetFriendListArray_eq]
  split <;> rfl

/-- The command line prints its one friend, or none. -/
theorem psnCliPrintFriendList_eq (psn : PsnT τ κ) :
    psnCliPrintFriendList psn =
      (psnGetFriendList psn).map (List.map fun name => lit "* " ++ name ++ lit "\n") := by
  rw [psnCliPrintFriendList, psnGetFriendListArray_eq, psnGetFriendList]
  rcases keys psn.friends with - | ⟨s, - | ⟨u, names⟩⟩
  · rfl
  · rfl
  · rw [if_neg (by simp), if_neg (by simp)]
    rfl

/-- The number of friends is returned, and the array holds their names in the order of the list. -/
def FriendListComplete (psn : PsnT τ κ) : Prop :=
  psnGetFriendListArray psn =
    some (((keys psn.friends).length : ℤ), (keys psn.friends).map some)

/-- **The exported list.** It is complete exactly if there is at most one friend. -/
theorem friendListComplete_iff (psn : PsnT τ κ) :
    FriendListComplete psn ↔ (keys psn.friends).length ≤ 1 := by
  rw [FriendListComplete, psnGetFriendListArray_eq, Option.ite_none_right_eq_some]
  simp

/-- A client with two friends. -/
def twoFriends : PsnT (List (User DerKey)) DerKey :=
  { (concreteProc alice).psn with
    friends := [⟨alice.field, alice.field, ⟨none⟩⟩, ⟨bob.field, bob.field, ⟨none⟩⟩] }

/-- For the second friend, the code follows a pointer that is not the caller's. -/
theorem not_friendListComplete_two :
    psnGetFriendListArray twoFriends = none ∧ ¬FriendListComplete twoFriends := by
  refine ⟨rfl, fun h => ?_⟩
  cases h

end Psn

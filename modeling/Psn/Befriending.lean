import Psn.Outcomes
import Psn.Profile

/-!
# Two ways to become a friend

A record reaches the friend list in two ways. `psn_accept_friend_req` unlinks it from the incoming
list and links the same record into the friends. The callback unlinks the record from the outgoing
list and links a new one, made from the name alone, so what the old record held besides its name
is lost: a shown name of its own, and the public key.

## Main definitions

* `Move`, `Moves`: the two transitions
* `FoundUnder`: what a lookup comes upon
* `KeepsRecord`: the record moves as it is

## Main results

* `keepsRecord_iff`: when the record moves as it is
-/

namespace Psn

open KeyedChain Tomcrypt

variable {τ κ : Type} [Tomcrypt κ] [UserTable τ κ]

/-- The two ways into the friend list: a call of `psn_accept_friend_req`, or a message that answers
an own request. -/
inductive Move
  | accept (io : PublishIo)
  | answer (m : Message)

omit [Tomcrypt κ] [UserTable τ κ] in
/-- The list of requests that a record comes from. -/
def Move.requests (psn : PsnT τ κ) : Move → τ
  | .accept _ => psn.friendRequestsIncoming
  | .answer _ => psn.friendRequestsOutgoing

/-- The user `target` moves into the friend list: the acceptance succeeds, or the message makes him
a friend who was none. -/
def Moves (p : Proc τ κ) (target : CStr) : Move → PsnT τ κ → Prop
  | .accept io, psn' =>
    ∃ r, psnAcceptFriendReq p target io = some r ∧ r.err = .success ∧ r.proc.psn = psn'
  | .answer m, psn' => ∃ effects, psnMessageCallback p.psn m = some (psn', effects) ∧
      target ∉ keys p.psn.friends ∧ target ∈ keys psn'.friends

omit [Tomcrypt κ] in
/-- A lookup of `name` comes upon a record like `user`. Which one it comes upon if there are several
under one name depends on the buckets, so all of them have to be like `user`. -/
def FoundUnder (t : τ) (name : CStr) (user : User κ) : Prop :=
  name ∈ keys t ∧ ∀ v ∈ items t, v.name.1 = name → v = user

omit [Tomcrypt κ] in
theorem FoundUnder.find {t : τ} {name : CStr} {user : User κ} (h : FoundUnder t name user) :
    ∃ inList, find t name = some inList ∧ record t inList = user := by
  obtain ⟨inList, hfind⟩ := exists_find_of_mem h.1
  exact ⟨inList, hfind, h.2 _ (record_mem t inList) (key_record_of_find hfind)⟩

/-- One record leaves the list of requests, one enters the friends, and what is found there under
the name is the record that was found in the list of requests: it has the same name, shown name
and public key. -/
def KeepsRecord (psn psn' : PsnT τ κ) (target : CStr) (move : Move) : Prop :=
  ∃ fromList new, find (move.requests psn) target = some fromList ∧
    items (move.requests psn') = (items (move.requests psn)).eraseIdx fromList ∧
    items psn'.friends = items psn.friends ++ [new] ∧
    FoundUnder psn'.friends target (record (move.requests psn) fromList)

/-- For an acceptance, nobody else is a friend under the name; for an answer, the record holds no
more than the name. -/
def Move.Keeps (psn : PsnT τ κ) (target : CStr) : Move → Prop
  | .accept _ => ∀ fromList, find psn.friendRequestsIncoming target = some fromList →
      ∀ v ∈ items psn.friends, v.name.1 = target →
        v = record psn.friendRequestsIncoming fromList
  | .answer _ => ∀ fromList, find psn.friendRequestsOutgoing target = some fromList →
      (record psn.friendRequestsOutgoing fromList).shownName.1 = target ∧
        (record psn.friendRequestsOutgoing fromList).pubKey = zero

omit [Tomcrypt κ] in
/-- After a record was added, a lookup comes upon the records that were there and the new one. -/
theorem foundUnder_add {t : τ} {new user : User κ} :
    FoundUnder (add t new) new.name.1 user ↔
      new = user ∧ ∀ v ∈ items t, v.name.1 = new.name.1 → v = user := by
  constructor
  · rintro ⟨-, h⟩
    exact ⟨h new (by simp) rfl, fun v hv => h v (by simp [hv])⟩
  · rintro ⟨rfl, h⟩
    refine ⟨by simp, fun v hv hname => ?_⟩
    rw [items_add] at hv
    rcases List.mem_append.mp hv with hv | hv
    · exact h v hv hname
    · exact List.mem_singleton.mp hv

omit [Tomcrypt κ] in
/-- Of two records that are added under one name, both are found alike only if they are alike. -/
theorem keepsRecord_iff_of_add {psn psn' : PsnT τ κ} {target : CStr} (move : Move)
    {fromList : Fin (items (move.requests psn)).length} {new : User κ}
    (hfind : find (move.requests psn) target = some fromList)
    (hrequests : move.requests psn' = del (move.requests psn) fromList)
    (hfriends : psn'.friends = add psn.friends new) (hname : new.name.1 = target) :
    KeepsRecord psn psn' target move ↔
      new = record (move.requests psn) fromList ∧
        ∀ v ∈ items psn.friends, v.name.1 = target →
          v = record (move.requests psn) fromList := by
  subst hname
  rw [← foundUnder_add, ← hfriends]
  constructor
  · rintro ⟨fromList', new', hfind', -, -, hfound⟩
    obtain rfl := Option.some_inj.mp (hfind.symm.trans hfind')
    exact hfound
  · intro hfound
    exact ⟨fromList, new, hfind, by rw [hrequests, items_del], by rw [hfriends, items_add], hfound⟩

/-- What an acceptance does. -/
theorem keepsRecord_accept_iff {p : Proc τ κ} {target : CStr} {io : PublishIo} {r : Reply τ κ}
    (h : psnAcceptFriendReq p target io = some r) (hsuccess : r.err = .success) :
    KeepsRecord p.psn r.proc.psn target (.accept io) ↔ (Move.accept io).Keeps p.psn target := by
  rcases psnAcceptFriendReq_eq_some h with ⟨-, -, hne, -⟩ | ⟨-, -, herr, -⟩ |
    ⟨inList, -, hfind, -, -, -, hpsn⟩
  · exact absurd hsuccess hne
  · rw [herr] at hsuccess
    cases hsuccess
  · have hname : (record p.psn.friendRequestsIncoming inList).name.1 = target :=
      key_record_of_find hfind
    rw [keepsRecord_iff_of_add (.accept io) hfind (by rw [hpsn]; rfl) (by rw [hpsn]; rfl)
      hname]
    constructor
    · rintro ⟨-, hothers⟩ fromList hfrom
      obtain rfl := Option.some_inj.mp (hfind.symm.trans hfrom)
      exact hothers
    · exact fun hkeeps => ⟨rfl, hkeeps inList hfind⟩

/-- A message that makes somebody a friend is an answer of his. -/
theorem accepted_of_psnMessageCallback {psn psn' : PsnT τ κ} {m : Message} {target : CStr}
    {effects : List Effect} (h : psnMessageCallback psn m = some (psn', effects))
    (hbefore : target ∉ keys psn.friends) (hafter : target ∈ keys psn'.friends) :
    ∃ fromList new, find psn.friendRequestsOutgoing target = some fromList ∧
      callocUser (κ := κ) (some target) = some new ∧
      psn' = { psn with
        friendRequestsOutgoing := del psn.friendRequestsOutgoing fromList
        friends := add psn.friends new } := by
  cases psnMessageCallback_eq_some h with
  | ignored => exact absurd hafter hbefore
  | displayed => exact absurd hafter hbefore
  | frequest source hsource hr =>
    cases hr with
    | known => exact absurd hafter hbefore
    | recorded => exact absurd hafter hbefore
    | accepted hi hf fromList ho new hnew =>
      have hname := (callocUser_eq_some hnew).1
      obtain rfl : target = source := by
        rw [keys_add, key_user, List.mem_append, List.mem_singleton] at hafter
        rw [Option.some_inj.mp hname]
        exact hafter.resolve_left hbefore
      exact ⟨fromList, new, ho, hnew, rfl⟩

/-- What an answer does. -/
theorem keepsRecord_answer_iff {psn psn' : PsnT τ κ} {m : Message} {target : CStr}
    {effects : List Effect} (h : psnMessageCallback psn m = some (psn', effects))
    (hbefore : target ∉ keys psn.friends) (hafter : target ∈ keys psn'.friends) :
    KeepsRecord psn psn' target (.answer m) ↔ (Move.answer m).Keeps psn target := by
  obtain ⟨fromList, new, hfind, hnew, rfl⟩ := accepted_of_psnMessageCallback h hbefore hafter
  obtain ⟨hname, hshown, hkey⟩ := callocUser_eq_some hnew
  have hname : new.name.1 = target := (Option.some_inj.mp hname).symm
  have hfrom : (record psn.friendRequestsOutgoing fromList).name.1 = target :=
    key_record_of_find hfind
  have hothers : ∀ v ∈ items psn.friends, v.name.1 = target →
      v = record psn.friendRequestsOutgoing fromList := fun v hv hv' =>
    absurd (List.mem_map.mpr ⟨v, hv, hv'⟩) hbefore
  rw [keepsRecord_iff_of_add (.answer m) hfind rfl rfl hname]
  constructor
  · rintro ⟨heq, -⟩ fromList' hfind'
    obtain rfl := Option.some_inj.mp (hfind.symm.trans hfind')
    have heq : new = record psn.friendRequestsOutgoing fromList := heq
    rw [← heq]
    exact ⟨by rw [hshown, hname], hkey⟩
  · intro hkeeps
    obtain ⟨hshown', hkey'⟩ := hkeeps fromList hfind
    refine ⟨?_, hothers⟩
    show new = record psn.friendRequestsOutgoing fromList
    calc new = ⟨new.name, new.shownName, new.pubKey⟩ := rfl
      _ = ⟨(record psn.friendRequestsOutgoing fromList).name,
            (record psn.friendRequestsOutgoing fromList).shownName,
            (record psn.friendRequestsOutgoing fromList).pubKey⟩ := by
        rw [hshown, hkey, hkey', Subtype.ext (hname.trans hfrom.symm),
          Subtype.ext (hfrom.trans hshown'.symm)]
      _ = record psn.friendRequestsOutgoing fromList := rfl

/-- **When a record moves as it is.** An acceptance moves the record itself, so it fails to do so
only for a name under which there is a different friend already. An answer to an own request makes
a new record, which is like the old one exactly if the old one held no more than the name. -/
theorem keepsRecord_iff {p : Proc τ κ} {target : CStr} {move : Move} {psn' : PsnT τ κ}
    (h : Moves p target move psn') :
    KeepsRecord p.psn psn' target move ↔ move.Keeps p.psn target := by
  cases move with
  | accept io =>
    obtain ⟨r, hr, hsuccess, rfl⟩ := h
    exact keepsRecord_accept_iff hr hsuccess
  | answer m =>
    obtain ⟨effects, hm, hbefore, hafter⟩ := h
    exact keepsRecord_answer_iff hm hbefore hafter

/-- A client with bob, whose key is known, in the two lists of requests. -/
def requested (incoming outgoing : List (User DerKey)) : Proc (List (User DerKey)) DerKey where
  connected := true
  psn := { profile [] incoming with friendRequestsOutgoing := outgoing }

/-- Bob's acceptance of a request reaches alice. -/
def bobAnswers : Message := ⟨frequestTopic alice.bytes bob.bytes, []⟩

/-- The key of a user who was asked is lost when he answers. -/
theorem not_keepsRecord_answer :
    ∃ psn', Moves (requested [] [keyedBob]) bob.bytes (.answer bobAnswers) psn' ∧
      ¬KeepsRecord (requested [] [keyedBob]).psn psn' bob.bytes
        (.answer bobAnswers) := by
  obtain ⟨psn', effects, h⟩ := exists_psnMessageCallback (requested [] [keyedBob]).psn
    alice bob []
  have hbefore : bob.bytes ∉ keys (requested [] [keyedBob]).psn.friends := by decide
  have hafter : bob.bytes ∈ keys psn'.friends := by
    have hmessage : psnMessageCallback (requested [] [keyedBob]).psn bobAnswers =
        some ({ (requested [] []).psn with friends := [bobWith ⟨none⟩] },
          [.print (.requestAccepted bob.bytes)]) := by rfl
    cases hmessage.symm.trans h
    decide
  refine ⟨psn', ⟨effects, h, hbefore, hafter⟩, fun hkeeps => ?_⟩
  obtain ⟨-, hkey⟩ := (keepsRecord_answer_iff h hbefore hafter).mp hkeeps ⟨0, by decide⟩ rfl
  exact absurd hkey (by decide)

/-- A user who is accepted keeps his key. -/
theorem keepsRecord_iff_accepted :
    ∃ psn', Moves (requested [keyedBob] []) bob.bytes (.accept .ok) psn' ∧
      KeepsRecord (requested [keyedBob] []).psn psn' bob.bytes (.accept .ok) := by
  obtain ⟨r, hr⟩ : ∃ r,
      psnAcceptFriendReq (requested [keyedBob] []) bob.bytes .ok = some r ∧
        r.err = .success := ⟨_, rfl, rfl⟩
  have hmoves : Moves (requested [keyedBob] []) bob.bytes (.accept .ok) r.proc.psn :=
    ⟨r, hr.1, hr.2, rfl⟩
  refine ⟨r.proc.psn, hmoves, (keepsRecord_iff hmoves).mpr fun fromList _ v hv => ?_⟩
  cases hv

end Psn

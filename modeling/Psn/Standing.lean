import Mathlib.Tactic.Common

/-!
# The standing of one user

What a client's three lists say about one user is how often he occurs in each of them. Every
operation that names him changes these three numbers, and no other operation does, so a client is
a family of independent machines with three counters, one for each user name. This file is the
machine; `Psn.Refinement` shows that the lists follow it.

The friend lists exist to keep two promises about every user, and both are statements about his
standing alone: he is recorded at most once as a friend or as somebody who waits for an answer
(`Unique`), and a request to him is pending only while neither is the case (`Exclusive`). The
first is kept by every operation. The second is kept by all of them but `request`, which records
a request without looking at the standing.

## Main results

* `Unique.step`: no operation breaks `Unique`
* `exclusive_request_iff`: a request keeps `Exclusive` exactly if the user is a stranger
* `Known.step`, `receive_of_known`: a user who was heard of stays known, and hearing of him
  again changes nothing
-/

namespace Psn

/-- How often a user occurs in the incoming, the friend and the outgoing list. -/
@[ext] structure Standing where
  /-- Occurrences among those who wait for an answer. -/
  incoming : ℕ
  /-- Occurrences among the friends. -/
  friends : ℕ
  /-- Occurrences among those who were asked. -/
  outgoing : ℕ
  deriving DecidableEq, Repr

namespace Standing

/-- Nothing is recorded about a stranger. -/
def stranger : Standing := ⟨0, 0, 0⟩

/-- Ask the user to become a friend. -/
def request (s : Standing) : Standing := { s with outgoing := s.outgoing + 1 }

/-- Make him a friend. -/
def befriend (s : Standing) : Standing := { s with friends := s.friends + 1 }

/-- Accept his request, if there is one. -/
def accept (s : Standing) : Standing :=
  if 0 < s.incoming then { s with incoming := s.incoming - 1, friends := s.friends + 1 } else s

/-- Refuse his request, if there is one. -/
def refuse (s : Standing) : Standing := { s with incoming := s.incoming - 1 }

/-- End the friendship, if there is one. -/
def delete (s : Standing) : Standing := { s with friends := s.friends - 1 }

/-- The user was heard of before: he waits for an answer or is a friend. -/
def Known (s : Standing) : Prop := 0 < s.incoming ∨ 0 < s.friends

instance (s : Standing) : Decidable s.Known := inferInstanceAs (Decidable (_ ∨ _))

/-- Receive a request from the user. To a user who was asked it is his consent. -/
def receive (s : Standing) : Standing :=
  if s.Known then s
  else if 0 < s.outgoing then { s with friends := s.friends + 1, outgoing := s.outgoing - 1 }
  else { s with incoming := s.incoming + 1 }

/-- The operations on a standing. -/
inductive Act
  | request
  | accept
  | refuse
  | delete
  | receive
  deriving DecidableEq, Repr

/-- One operation. -/
def step (s : Standing) : Act → Standing
  | .request => s.request
  | .accept => s.accept
  | .refuse => s.refuse
  | .delete => s.delete
  | .receive => s.receive

/-! ### Small facts -/

theorem receive_of_known {s : Standing} (h : s.Known) : s.receive = s := if_pos h

theorem receive_of_asked {s : Standing} (h : ¬s.Known) (ho : 0 < s.outgoing) :
    s.receive = { s with friends := s.friends + 1, outgoing := s.outgoing - 1 } := by
  rw [receive, if_neg h, if_pos ho]

theorem receive_of_stranger {s : Standing} (h : ¬s.Known) (ho : s.outgoing = 0) :
    s.receive = { s with incoming := s.incoming + 1 } := by
  rw [receive, if_neg h, if_neg (by omega)]

theorem accept_of_pos {s : Standing} (h : 0 < s.incoming) :
    s.accept = { s with incoming := s.incoming - 1, friends := s.friends + 1 } := if_pos h

theorem accept_of_zero {s : Standing} (h : s.incoming = 0) : s.accept = s :=
  if_neg (by omega)

/-- All that accepting can do. -/
theorem accept_cases (s : Standing) :
    s.accept = s ∨ (0 < s.incoming ∧
      s.accept = { s with incoming := s.incoming - 1, friends := s.friends + 1 }) := by
  rcases Nat.eq_zero_or_pos s.incoming with hi | hi
  · exact Or.inl (accept_of_zero hi)
  · exact Or.inr ⟨hi, accept_of_pos hi⟩

/-- All that hearing of the user can do. -/
theorem receive_cases (s : Standing) :
    (s.Known ∧ s.receive = s) ∨ ((s.incoming = 0 ∧ s.friends = 0) ∧
      ((s.outgoing = 0 ∧ s.receive = { s with incoming := s.incoming + 1 }) ∨
        (0 < s.outgoing ∧
          s.receive = { s with friends := s.friends + 1, outgoing := s.outgoing - 1 }))) := by
  by_cases hk : s.Known
  · exact Or.inl ⟨hk, receive_of_known hk⟩
  · refine Or.inr ⟨by simpa [Known] using hk, ?_⟩
    rcases Nat.eq_zero_or_pos s.outgoing with ho | ho
    · exact Or.inl ⟨ho, receive_of_stranger hk ho⟩
    · exact Or.inr ⟨ho, receive_of_asked hk ho⟩

/-! ### Where a record comes from -/

/-- Only hearing of a user makes him wait for an answer. -/
theorem incoming_step {s : Standing} {a : Act} (h : 0 < (s.step a).incoming) :
    0 < s.incoming ∨ a = .receive := by
  cases a with
  | request => exact Or.inl h
  | accept =>
    rcases s.accept_cases with hsame | ⟨hi, -⟩
    · rw [step, hsame] at h
      exact Or.inl h
    · exact Or.inl hi
  | refuse => exact Or.inl (Nat.lt_of_lt_of_le h (Nat.sub_le _ _))
  | delete => exact Or.inl h
  | receive => exact Or.inr rfl

/-- A friend was one before, or waited and is accepted, or was asked and is heard of. -/
theorem friends_step {s : Standing} {a : Act} (h : 0 < (s.step a).friends) :
    0 < s.friends ∨ (a = .accept ∧ 0 < s.incoming) ∨ (a = .receive ∧ 0 < s.outgoing) := by
  cases a with
  | request => exact Or.inl h
  | accept =>
    rcases s.accept_cases with hsame | ⟨hi, -⟩
    · rw [step, hsame] at h
      exact Or.inl h
    · exact Or.inr (Or.inl ⟨rfl, hi⟩)
  | refuse => exact Or.inl h
  | delete => exact Or.inl (Nat.lt_of_lt_of_le h (Nat.sub_le _ _))
  | receive =>
    rcases s.receive_cases with ⟨-, hr⟩ | ⟨-, ⟨-, hr⟩ | ⟨ho, -⟩⟩
    · rw [step, hr] at h
      exact Or.inl h
    · rw [step, hr] at h
      exact Or.inl h
    · exact Or.inr (Or.inr ⟨rfl, ho⟩)

/-- Only asking a user makes him one who was asked. -/
theorem outgoing_step {s : Standing} {a : Act} (h : 0 < (s.step a).outgoing) :
    0 < s.outgoing ∨ a = .request := by
  cases a with
  | request => exact Or.inr rfl
  | accept =>
    rcases s.accept_cases with hsame | ⟨-, hmove⟩
    · rw [step, hsame] at h
      exact Or.inl h
    · rw [step, hmove] at h
      exact Or.inl h
  | refuse => exact Or.inl h
  | delete => exact Or.inl h
  | receive =>
    rcases s.receive_cases with ⟨-, hr⟩ | ⟨-, ⟨-, hr⟩ | ⟨ho, -⟩⟩
    · rw [step, hr] at h
      exact Or.inl h
    · rw [step, hr] at h
      exact Or.inl h
    · exact Or.inl ho

/-! ### At most one record of a user who was heard of -/

/-- The user is recorded at most once as a friend or as waiting for an answer. -/
def Unique (s : Standing) : Prop := s.incoming + s.friends ≤ 1

theorem unique_stranger : stranger.Unique := by simp [Unique, stranger]

theorem Unique.receive {s : Standing} (h : s.Unique) : s.receive.Unique := by
  rcases s.receive_cases with ⟨-, hr⟩ | ⟨hzero, ⟨-, hr⟩ | ⟨-, hr⟩⟩
  · rwa [hr]
  · rw [hr]
    simp [Unique, hzero]
  · rw [hr]
    simp [Unique, hzero]

theorem Unique.accept {s : Standing} (h : s.Unique) : s.accept.Unique := by
  rcases s.accept_cases with hsame | ⟨hi, hmove⟩
  · rwa [hsame]
  · rw [hmove]
    simp only [Unique] at h ⊢
    omega

/-- **No operation records a user twice.** -/
theorem Unique.step {s : Standing} (h : s.Unique) (a : Act) : (s.step a).Unique := by
  cases a with
  | request => exact h
  | accept => exact h.accept
  | refuse =>
    simp only [Unique, Standing.step, refuse] at h ⊢
    omega
  | delete =>
    simp only [Unique, Standing.step, delete] at h ⊢
    omega
  | receive => exact h.receive

/-! ### Requests pend only with strangers -/

/-- At most one record of the user in all three lists together. -/
def Exclusive (s : Standing) : Prop := s.incoming + s.friends + s.outgoing ≤ 1

theorem exclusive_stranger : stranger.Exclusive := by simp [Exclusive, stranger]

theorem exclusive_request_iff {s : Standing} : s.request.Exclusive ↔ s = stranger := by
  simp only [Exclusive, request, stranger, Standing.ext_iff]
  omega

theorem Exclusive.receive {s : Standing} (h : s.Exclusive) : s.receive.Exclusive := by
  rcases s.receive_cases with ⟨-, hr⟩ | ⟨hzero, ⟨ho, hr⟩ | ⟨ho, hr⟩⟩
  · rwa [hr]
  · rw [hr]
    simp [Exclusive, hzero, ho]
  · rw [hr]
    simp only [Exclusive] at h ⊢
    omega

/-- Only a request can break exclusion. -/
theorem Exclusive.step {s : Standing} (h : s.Exclusive) {a : Act} (ha : a ≠ .request) :
    (s.step a).Exclusive := by
  cases a with
  | request => exact absurd rfl ha
  | accept =>
    rcases s.accept_cases with hsame | ⟨hi, hmove⟩
    · rwa [Standing.step, hsame]
    · simp only [Standing.step, hmove, Exclusive] at h ⊢
      omega
  | refuse =>
    simp only [Exclusive, Standing.step, refuse] at h ⊢
    omega
  | delete =>
    simp only [Exclusive, Standing.step, delete] at h ⊢
    omega
  | receive => exact h.receive

/-! ### A user who was heard of stays known -/

theorem known_receive (s : Standing) : s.receive.Known := by
  rcases s.receive_cases with ⟨hk, hr⟩ | ⟨-, ⟨-, hr⟩ | ⟨-, hr⟩⟩
  · rwa [hr]
  · rw [hr]
    exact Or.inl (Nat.succ_pos _)
  · rw [hr]
    exact Or.inr (Nat.succ_pos _)

theorem Known.accept {s : Standing} (h : s.Known) : s.accept.Known := by
  rcases s.accept_cases with hsame | ⟨-, hmove⟩
  · rwa [hsame]
  · rw [hmove]
    exact Or.inr (Nat.succ_pos _)

/-- Only a refusal or a deletion makes a client forget a user. -/
theorem Known.step {s : Standing} (h : s.Known) {a : Act} (hr : a ≠ .refuse)
    (hd : a ≠ .delete) : (s.step a).Known := by
  cases a with
  | request => exact h
  | accept => exact h.accept
  | refuse => exact absurd rfl hr
  | delete => exact absurd rfl hd
  | receive => rw [Standing.step, receive_of_known h]; exact h

/-! ### A user who was asked stays wanted -/

/-- The user was asked, or is a friend. -/
def Wanted (s : Standing) : Prop := 0 < s.outgoing ∨ 0 < s.friends

theorem wanted_request (s : Standing) : s.request.Wanted := Or.inl (Nat.succ_pos _)

theorem wanted_accept {s : Standing} (h : 0 < s.incoming) : s.accept.Wanted := by
  rw [accept_of_pos h]
  exact Or.inr (Nat.succ_pos _)

/-- Only a deletion makes a client no longer want a user. -/
theorem Wanted.step {s : Standing} (h : s.Wanted) {a : Act} (hd : a ≠ .delete) :
    (s.step a).Wanted := by
  cases a with
  | request => exact wanted_request s
  | accept =>
    rcases s.accept_cases with hsame | ⟨hi, -⟩
    · rwa [Standing.step, hsame]
    · exact wanted_accept hi
  | refuse => exact h
  | delete => exact absurd rfl hd
  | receive =>
    rcases s.receive_cases with ⟨-, hr⟩ | ⟨-, ⟨-, hr⟩ | ⟨-, hr⟩⟩
    · rwa [Standing.step, hr]
    · rw [Standing.step, hr]
      exact h
    · rw [Standing.step, hr]
      exact Or.inr (Nat.succ_pos _)

/-- A user becomes wanted by a request, or by the acceptance of his own. -/
theorem wanted_step {s : Standing} {a : Act} (h : (s.step a).Wanted) :
    s.Wanted ∨ a = .request ∨ (a = .accept ∧ 0 < s.incoming) := by
  rcases h with ho | hf
  · rcases outgoing_step ho with ho | ha
    · exact Or.inl (Or.inl ho)
    · exact Or.inr (Or.inl ha)
  · rcases friends_step hf with hf | ha | ⟨-, ho⟩
    · exact Or.inl (Or.inr hf)
    · exact Or.inr (Or.inr ha)
    · exact Or.inl (Or.inl ho)

/-- Hearing of a user who is known or wanted does not make him wait for an answer. -/
theorem receive_incoming {s : Standing} (h : s.Known ∨ s.Wanted) :
    s.receive.incoming = s.incoming := by
  by_cases hk : s.Known
  · rw [receive_of_known hk]
  · have ho : 0 < s.outgoing := by
      rcases h.resolve_left hk with ho | hf
      · exact ho
      · exact absurd (Or.inr hf) hk
    rw [receive_of_asked hk ho]

/-- A user who is known or wanted does not begin to wait for an answer. -/
theorem incoming_step_le {s : Standing} (h : s.Known ∨ s.Wanted) (a : Act) :
    (s.step a).incoming ≤ s.incoming := by
  cases a with
  | request => exact Nat.le_refl _
  | accept =>
    rcases s.accept_cases with hsame | ⟨-, hmove⟩
    · exact Nat.le_of_eq (by rw [step, hsame])
    · rw [step, hmove]
      exact Nat.sub_le _ _
  | refuse => exact Nat.sub_le _ _
  | delete => exact Nat.le_refl _
  | receive => exact Nat.le_of_eq (receive_incoming h)

/-! ### Requests that arrive in the middle of an operation -/

/-- Two standings put the user into the same lists. -/
def Alike (s t : Standing) : Prop :=
  (0 < s.incoming ↔ 0 < t.incoming) ∧ (0 < s.friends ↔ 0 < t.friends) ∧
    (0 < s.outgoing ↔ 0 < t.outgoing)

theorem Alike.refl (s : Standing) : Alike s s := ⟨Iff.rfl, Iff.rfl, Iff.rfl⟩

/-- A request that is received just before one is recorded, instead of just after: this is
harmless unless the user was a stranger. -/
theorem alike_receive_request_iff (s : Standing) :
    Alike s.receive.request s.request.receive ↔ s.Known ∨ 0 < s.outgoing := by
  by_cases hk : s.Known
  · have hk' : s.request.Known := hk
    rw [receive_of_known hk, receive_of_known hk']
    exact iff_of_true (Alike.refl _) (Or.inl hk)
  · have hk' : ¬s.request.Known := hk
    rw [receive_of_asked hk' (Nat.succ_pos _)]
    have hzero : s.incoming = 0 ∧ s.friends = 0 := by simpa [Known] using hk
    rcases Nat.eq_zero_or_pos s.outgoing with ho | ho
    · rw [receive_of_stranger hk ho]
      simp [Alike, request, hk, ho, hzero]
    · rw [receive_of_asked hk ho]
      have hback : s.outgoing - 1 + 1 = s.outgoing := Nat.sub_add_cancel ho
      simp [Alike, request, hback, ho]

/-- A request that is received while the user is in none of the lists, on his way from the
incoming list to the friends: this is harmless only if he was asked more than once. -/
theorem alike_receive_befriend_iff {s : Standing} (hu : s.Unique) (hi : 0 < s.incoming) :
    Alike s.refuse.receive.befriend s.accept ↔ 2 ≤ s.outgoing := by
  have hone : s.incoming = 1 ∧ s.friends = 0 := by
    simp only [Unique] at hu
    omega
  have hk : ¬s.refuse.Known := by simp [Known, refuse, hone]
  rw [accept_of_pos hi]
  rcases Nat.eq_zero_or_pos s.refuse.outgoing with ho | ho
  · rw [receive_of_stranger hk ho]
    have ho : s.outgoing = 0 := ho
    simp [Alike, befriend, refuse, hone, ho]
  · rw [receive_of_asked hk ho]
    simp only [refuse] at ho
    simp only [Alike, befriend, refuse, hone, true_and]
    omega

end Standing

end Psn

import Mathlib.Data.List.TakeWhile
import Psn.Subs

/-!
# Matching a topic byte by byte

`mosquitto_topic_matches_sub` compares a topic with a filter in one loop over the bytes of both,
without cutting them into levels. The broker uses it for access control. A filter without `#` it
decides as the levels say. Behind a filter `foo/#` the loop looks one byte ahead for the end of the
topic, to let `foo` pass as well, and there it is wrong in both directions: the last byte of the
topic is not compared, and the look comes too late when the loop takes several bytes in one turn or
has taken none.

The bytes are compared with the levels of `topicMatchesSub`, which is what a filter means. The two
functions go through a filter in different steps, so the induction is on the filter for one byte at
a time, with two lemmas about the levels for each kind of byte: one that both strings have, and a
`+`, which takes the rest of a level. What has to be known of the part that is left is `Rest`: its
wildcards are where the check of the filter lets them stand, given the byte in front of it.

With a `#` behind the filter this is not enough, since the place where the loop looks ahead is a
place inside of the filter. `Reaches` says which places the loop gets to, and `PassesHash` is said
in terms of it. That the first byte has no look ahead behind it is the only difference between
`PassesHash` and `PassesAfter`.

## Scope

The filters are those that pass the check of wildcards, and the topics those that have none. For
these the function always has a result; `topicMatchesLoop` has none when both strings are empty, and
then the caller finds what stood in `*result` before. Filters are compared here one by one. What
follows for the broker, whose lists of rights hold filters like `users/bob/#`, is in `Psn.Acl` and
`Psn.StaticAcl`.

The tree of subscriptions uses no part of this. It compares level by level, and a subscription to
`foo/#` gets what the levels say.

## Main definitions

* `topicMatchesLoop`, `mosquittoTopicMatchesSub`: the function
* `PassesHash`: what it lets pass for a filter that ends in `#`

## Main results

* `mosquittoTopicMatchesSub_eq`: a filter without `#`
* `mosquittoTopicMatchesSub_hash`: a filter that ends in `#`
-/

namespace Psn

/-! ### The function -/

/-- The check behind every turn: one byte is left of the topic, and one byte and `/#` of the
filter. -/
def isParent : CStr → CStr → Bool
  | [_, x, y], [_] => decide (x = slash) && decide (y = hash)
  | _, _ => false

/-- The loop of `mosquitto_topic_matches_sub`, with what is left of both strings. There is no result
when nothing is left of either: `*result` stays as it was. -/
def topicMatchesLoop : CStr → CStr → Option Bool
  | [], [] => none
  | [], _ :: _ => some false
  | _ :: _, [] => some false
  | s :: sub, t :: topic =>
    if s = t then
      if topic = [] ∧ (sub = [] ∨ sub = [plus]) then some true
      else if isParent sub topic then some true
      else topicMatchesLoop sub topic
    else if s = plus then
      let topic := (t :: topic).dropWhile (· ≠ slash)
      if topic = [] ∧ sub = [] then some true
      else if isParent sub topic then some true
      else topicMatchesLoop sub topic
    else if s = hash then some (decide (sub = []))
    else some false

/-- Either both start with `$` or none of them does. -/
def DollarAgrees (sub topic : CStr) : Prop :=
  sub.head? = some dollar ↔ topic.head? = some dollar

instance (sub topic : CStr) : Decidable (DollarAgrees sub topic) :=
  inferInstanceAs (Decidable (_ ↔ _))

/-- `mosquitto_topic_matches_sub`. -/
def mosquittoTopicMatchesSub (sub topic : CStr) : Option Bool :=
  if (sub ≠ [] ∧ topic ≠ []) ∧ (sub.head? = some dollar ∧ topic.head? ≠ some dollar ∨
      topic.head? = some dollar ∧ sub.head? ≠ some dollar) then some false
  else topicMatchesLoop sub topic

/-! ### What is left of a filter -/

/-- What the check of a filter has seen of one byte: what stands behind a `+`, what stands in front
of a wildcard, that nothing stands behind a `#`, and that the rest passes. -/
theorem posCheckFrom_cons {c x : UInt8} {str : CStr}
    (h : topicWildcardPosCheckFrom c (x :: str) = true) :
    (x = plus → str.headD 0 = 0 ∨ str.headD 0 = slash) ∧
      (x = plus ∨ x = hash → c = 0 ∨ c = slash) ∧ (x = hash → str.headD 0 = 0) ∧
        topicWildcardPosCheckFrom x str = true := by
  rw [topicWildcardPosCheckFrom] at h
  split at h
  · cases h
  · rename_i hplus
    split at h
    · cases h
    · rename_i hhash
      refine ⟨fun hx => ?_, ?_, fun hx => ?_, h⟩
      · by_contra hne
        exact hplus ⟨hx, .inr (not_or.mp hne)⟩
      · rintro (hx | hx)
        · by_contra hne
          exact hplus ⟨hx, .inl (not_or.mp hne)⟩
        · by_contra hne
          exact hhash ⟨hx, .inl (not_or.mp hne)⟩
      · by_contra hne
        exact hhash ⟨hx, .inr hne⟩

/-- What is left of a filter, behind the byte `c`: its wildcards are where they may be. There is no
`#` in it. -/
structure Rest (c : UInt8) (sub : CStr) : Prop where
  /-- The check goes on from the byte in front. -/
  pos : topicWildcardPosCheckFrom c sub = true
  /-- It is a string: the check reads a NUL as the end. -/
  nul_not_mem : 0 ∉ sub
  /-- Filters that end in `#` are cut in front of it. -/
  hash_not_mem : hash ∉ sub

/-- One byte further. -/
theorem Rest.tail {c s : UInt8} {sub : CStr} (h : Rest c (s :: sub)) : Rest s sub where
  pos := (posCheckFrom_cons h.pos).2.2.2
  nul_not_mem hmem := h.nul_not_mem (List.mem_cons_of_mem s hmem)
  hash_not_mem hmem := h.hash_not_mem (List.mem_cons_of_mem s hmem)

/-- The next byte is no `#`, -/
theorem Rest.ne_hash {c s : UInt8} {sub : CStr} (h : Rest c (s :: sub)) : s ≠ hash := by
  rintro rfl
  exact h.hash_not_mem List.mem_cons_self

/-- and no end of the string. -/
theorem Rest.ne_nul {c s : UInt8} {sub : CStr} (h : Rest c (s :: sub)) : s ≠ 0 := by
  rintro rfl
  exact h.nul_not_mem List.mem_cons_self

/-- Behind a `+` there is a separator, or nothing. -/
theorem Rest.eq_of_plus {c : UInt8} {sub : CStr} (h : Rest c (plus :: sub)) :
    sub = [] ∨ ∃ sub', sub = slash :: sub' := by
  cases sub with
  | nil => exact .inl rfl
  | cons s sub =>
    rcases (posCheckFrom_cons h.pos).1 rfl with hs | hs
    · exact absurd hs h.tail.ne_nul
    · exact .inr ⟨sub, by rw [show s = slash from hs]⟩

/-- A `+` stands at the start of a level. -/
theorem Rest.ne_plus {c s : UInt8} {sub : CStr} (h : Rest c (s :: sub)) (hc : c ≠ 0)
    (hslash : c ≠ slash) : s ≠ plus := fun hs =>
  ((posCheckFrom_cons h.pos).2.1 (.inl hs)).elim hc hslash

/-! ### Levels of what is left -/

/-- A level without wildcards is compared as it is. -/
theorem levelsMatch_of_ne {f t : CStr} (hhash : f ≠ [hash]) (hplus : f ≠ [plus])
    (fs ts : List CStr) :
    levelsMatch (f :: fs) (t :: ts) = (decide (f = t) && levelsMatch fs ts) := by
  rw [levelsMatch, if_neg hhash, decide_eq_false hplus, Bool.false_or]

/-- The string starts with the first byte of its first level. -/
theorem head_of_levels_eq {sub l : CStr} {x : UInt8} {ls : List CStr}
    (h : levels sub = (x :: l) :: ls) : ∃ sub', sub = x :: sub' := by
  cases sub with
  | nil => exact absurd (List.cons.inj h).1 (List.cons_ne_nil x l).symm
  | cons y sub =>
    rw [levels_cons] at h
    split at h
    · exact absurd (List.cons.inj h).1 (List.cons_ne_nil x l).symm
    · obtain ⟨l', ls', hl⟩ := List.exists_cons_of_ne_nil (levels_ne_nil sub)
      rw [hl, List.modifyHead_cons] at h
      exact ⟨sub, by rw [(List.cons.inj (List.cons.inj h).1).1]⟩

/-- A separator in front is an empty level in front. -/
theorem levels_slash_cons (a : CStr) : levels (slash :: a) = [] :: levels a := by
  rw [levels_cons, if_pos rfl]

/-- The levels of a string that goes on inside a level. -/
theorem exists_levels_cons {c : UInt8} (hc : c ≠ slash) (a : CStr) :
    ∃ l ls, levels a = l :: ls ∧ levels (c :: a) = (c :: l) :: ls := by
  obtain ⟨l, ls, hl⟩ := List.exists_cons_of_ne_nil (levels_ne_nil a)
  exact ⟨l, ls, hl, by rw [levels_cons, if_neg hc, hl, List.modifyHead_cons]⟩

/-- The first level of what is left inside a level is no wildcard. -/
theorem Rest.level_ne {s : UInt8} {sub l : CStr} {ls : List CStr} (h : Rest s sub) (hs : s ≠ 0)
    (hslash : s ≠ slash) (hl : levels sub = l :: ls) : l ≠ [hash] ∧ l ≠ [plus] := by
  constructor
  · rintro rfl
    obtain ⟨sub, rfl⟩ := head_of_levels_eq hl
    exact h.ne_hash rfl
  · rintro rfl
    obtain ⟨sub, rfl⟩ := head_of_levels_eq hl
    exact h.ne_plus hs hslash rfl

section Steps

variable {c s t : UInt8} {sub topic : CStr}

/-- A byte that both have. -/
theorem Rest.matches_cons (h : Rest c (s :: sub)) (hs : s ≠ plus) (topic : CStr) :
    topicMatchesSub (s :: sub) (s :: topic) = topicMatchesSub sub topic := by
  rw [topicMatchesSub, topicMatchesSub]
  -- a separator starts a level in both, any other byte goes on with one in both
  by_cases hslash : s = slash
  · rw [hslash, levels_slash_cons, levels_slash_cons,
      levelsMatch_of_ne (List.cons_ne_nil hash []).symm (List.cons_ne_nil plus []).symm,
      decide_eq_true rfl, Bool.true_and]
  · obtain ⟨l, ls, hl, hsub⟩ := exists_levels_cons hslash sub
    obtain ⟨l', ls', hl', htopic⟩ := exists_levels_cons hslash topic
    obtain ⟨hhash, hplus⟩ := h.tail.level_ne h.ne_nul hslash hl
    have hcons : (s :: l = s :: l') = (l = l') :=
      propext ⟨fun heq => (List.cons.inj heq).2, fun heq => heq ▸ rfl⟩
    rw [hsub, htopic, hl, hl', levelsMatch_of_ne hhash hplus,
      levelsMatch_of_ne (fun heq => h.ne_hash (List.cons.inj heq).1)
        (fun heq => hs (List.cons.inj heq).1)]
    simp only [hcons]

/-- A byte in which they differ. -/
theorem Rest.matches_of_ne (h : Rest c (s :: sub)) (hs : s ≠ plus) (ht : s ≠ t) :
    topicMatchesSub (s :: sub) (t :: topic) = false := by
  rw [topicMatchesSub]
  by_cases hslash : s = slash
  · obtain ⟨l, ls, hl, htopic⟩ := exists_levels_cons (fun heq => ht (hslash.trans heq.symm)) topic
    rw [hslash, levels_slash_cons, htopic,
      levelsMatch_of_ne (List.cons_ne_nil hash []).symm (List.cons_ne_nil plus []).symm,
      decide_eq_false (List.cons_ne_nil t l).symm, Bool.false_and]
  · obtain ⟨l, ls, hl, hsub⟩ := exists_levels_cons hslash sub
    have hne : s :: l ≠ (levels (t :: topic)).headD [] := by
      rw [levels_cons]
      split
      · exact List.cons_ne_nil s l
      · obtain ⟨l', ls', hl'⟩ := List.exists_cons_of_ne_nil (levels_ne_nil topic)
        rw [hl', List.modifyHead_cons]
        exact fun heq => ht (List.cons.inj heq).1
    obtain ⟨first, rest, hlevels⟩ := List.exists_cons_of_ne_nil (levels_ne_nil (t :: topic))
    rw [hlevels, List.headD_cons] at hne
    rw [hsub, hlevels, levelsMatch_of_ne (fun heq => h.ne_hash (List.cons.inj heq).1)
      (fun heq => hs (List.cons.inj heq).1), decide_eq_false hne, Bool.false_and]

/-- A filter that goes on does not match a topic that ends. -/
theorem Rest.matches_nil (h : Rest c (s :: sub)) (hs : s :: sub ≠ [plus]) :
    topicMatchesSub (s :: sub) [] = false := by
  have hnil : levels ([] : CStr) = [[]] := levels_of_not_mem List.not_mem_nil
  -- the topic has no level left, and only a `#` would match that
  have hrest : ∀ {d : UInt8} {rest : CStr}, Rest d rest → levelsMatch (levels rest) [] = false := by
    intro d rest hrest
    obtain ⟨l, ls, hl⟩ := List.exists_cons_of_ne_nil (levels_ne_nil rest)
    have hne : l ≠ [hash] := by
      rintro rfl
      obtain ⟨rest, rfl⟩ := head_of_levels_eq hl
      exact hrest.ne_hash rfl
    rw [hl, levelsMatch, decide_eq_false hne, Bool.false_and]
  rw [topicMatchesSub, hnil]
  by_cases hslash : s = slash
  · rw [hslash, levels_slash_cons,
      levelsMatch_of_ne (List.cons_ne_nil hash []).symm (List.cons_ne_nil plus []).symm,
      hrest h.tail, Bool.and_false]
  · by_cases hplus : s = plus
    · obtain rfl : s = plus := hplus
      obtain rfl | ⟨sub, rfl⟩ := h.eq_of_plus
      · exact absurd rfl hs
      · rw [levels_cons, if_neg hslash, levels_slash_cons, List.modifyHead_cons, levelsMatch,
          if_neg (show ¬[plus] = [hash] by decide), hrest h.tail.tail, Bool.and_false]
    · obtain ⟨l, ls, hl, hsub⟩ := exists_levels_cons hslash sub
      rw [hsub, levelsMatch_of_ne (fun heq => h.ne_hash (List.cons.inj heq).1)
        (fun heq => hplus (List.cons.inj heq).1), decide_eq_false (List.cons_ne_nil s l),
        Bool.false_and]

end Steps

/-- An empty rest matches an empty rest only. -/
theorem nil_matches (topic : CStr) : topicMatchesSub [] topic = decide (topic = []) := by
  have hnil : levels ([] : CStr) = [[]] := levels_of_not_mem List.not_mem_nil
  cases topic with
  | nil => rfl
  | cons t topic =>
    rw [topicMatchesSub, hnil, decide_eq_false (List.cons_ne_nil t topic)]
    by_cases ht : t = slash
    · obtain ⟨l, ls, hl⟩ := List.exists_cons_of_ne_nil (levels_ne_nil topic)
      rw [ht, levels_slash_cons, hl,
        levelsMatch_of_ne (List.cons_ne_nil hash []).symm (List.cons_ne_nil plus []).symm,
        levelsMatch, Bool.and_false]
    · obtain ⟨l, ls, hl, htopic⟩ := exists_levels_cons ht topic
      rw [htopic, levelsMatch_of_ne (List.cons_ne_nil hash []).symm
        (List.cons_ne_nil plus []).symm, decide_eq_false (List.cons_ne_nil t l).symm,
        Bool.false_and]

/-- The levels of what is left of a topic behind its first level. -/
theorem levels_dropWhile (topic : CStr) :
    ∃ first ls, levels topic = first :: ls ∧
      levels (topic.dropWhile (· ≠ slash)) = [] :: ls := by
  -- the topic may end with its first level
  cases hrest : topic.dropWhile (· ≠ slash) with
  | nil =>
    have hslash : slash ∉ topic := fun hmem =>
      absurd rfl (of_decide_eq_true (List.dropWhile_eq_nil_iff.mp hrest slash hmem))
    exact ⟨topic, [], levels_of_not_mem hslash, levels_of_not_mem List.not_mem_nil⟩
  | cons t rest =>
    obtain rfl : t = slash := by
      have hhead := List.head_dropWhile_not (l := topic) (· ≠ slash) (by rw [hrest]; simp)
      simp only [hrest, List.head_cons] at hhead
      simpa using hhead
    have htake : slash ∉ topic.takeWhile (· ≠ slash) := fun hmem => by
      simpa using List.mem_takeWhile_imp hmem
    refine ⟨topic.takeWhile (· ≠ slash), levels rest, ?_, levels_slash_cons rest⟩
    calc levels topic = levels (topic.takeWhile (· ≠ slash) ++ slash :: rest) := by
          rw [← hrest, List.takeWhile_append_dropWhile]
      _ = _ := by rw [levels_append_slash, levels_of_not_mem htake]; rfl

/-- A `+` takes a level. -/
theorem Rest.plus_matches {c : UInt8} {sub : CStr} (h : Rest c (plus :: sub)) (topic : CStr) :
    topicMatchesSub (plus :: sub) topic =
      topicMatchesSub sub (topic.dropWhile (· ≠ slash)) := by
  obtain ⟨ls, hsub, hplus⟩ : ∃ ls, levels sub = [] :: ls ∧ levels (plus :: sub) = [plus] :: ls := by
    obtain rfl | ⟨sub, rfl⟩ := h.eq_of_plus
    · exact ⟨[], rfl, rfl⟩
    · refine ⟨levels sub, levels_slash_cons sub, ?_⟩
      rw [levels_cons, if_neg (show ¬plus = slash by decide), levels_slash_cons,
        List.modifyHead_cons]
  obtain ⟨first, ls', htopic, hrest⟩ := levels_dropWhile topic
  rw [topicMatchesSub, topicMatchesSub, hsub, hplus, htopic, hrest, levelsMatch,
    if_neg (show ¬[plus] = [hash] by decide), decide_eq_true rfl, Bool.true_or, Bool.true_and,
    levelsMatch_of_ne (List.cons_ne_nil hash []).symm (List.cons_ne_nil plus []).symm,
    decide_eq_true rfl, Bool.true_and]

/-! ### Filters without `#` -/

/-- The look ahead compares no byte of the topic. -/
theorem isParent_eq_true {sub topic : CStr} : isParent sub topic = true ↔
    ∃ x k, sub = [x, slash, hash] ∧ topic = [k] := by
  constructor
  · intro h
    rw [isParent.eq_def] at h
    split at h
    · rename_i x y z k
      obtain ⟨hy, hz⟩ := Bool.and_eq_true _ _ ▸ h
      exact ⟨x, k, by rw [of_decide_eq_true hy, of_decide_eq_true hz], rfl⟩
    · cases h
  · rintro ⟨x, k, rfl, rfl⟩
    rfl

/-- It finds nothing in a filter without `#`. -/
theorem Rest.not_isParent {c : UInt8} {sub : CStr} (h : Rest c sub) (topic : CStr) :
    ¬isParent sub topic = true := by
  rw [isParent_eq_true]
  rintro ⟨x, k, rfl, -⟩
  exact h.hash_not_mem (by simp)

/-- The loop on a filter without `#`. -/
theorem Rest.loop_eq {c : UInt8} {sub : CStr} (h : Rest c sub) {topic : CStr}
    (hplus : plus ∉ topic) (hne : topic ≠ []) :
    topicMatchesLoop sub topic = some (topicMatchesSub sub topic) := by
  induction sub generalizing c topic with
  | nil =>
    obtain ⟨t, topic, rfl⟩ := List.exists_cons_of_ne_nil hne
    rw [nil_matches, decide_eq_false hne]
    rfl
  | cons s sub ih =>
    -- the turns that leave nothing of the topic
    have hend : ∀ {sub' : CStr}, sub' ≠ [] → topicMatchesLoop sub' [] = some false := by
      intro sub' hsub'
      obtain ⟨x, rest, rfl⟩ := List.exists_cons_of_ne_nil hsub'
      rfl
    obtain ⟨t, topic, rfl⟩ := List.exists_cons_of_ne_nil hne
    rw [topicMatchesLoop]
    by_cases hst : s = t
    · obtain rfl : s = t := hst
      have hs : s ≠ plus := fun hs => hplus (by simp [hs])
      rw [if_pos rfl, h.matches_cons hs, if_neg (h.tail.not_isParent topic)]
      -- both bytes are taken; with the topic at its end, the filter may have a `+` left
      by_cases htopic : topic = []
      · obtain rfl : topic = [] := htopic
        by_cases hsub : sub = [] ∨ sub = [plus]
        · rw [if_pos ⟨rfl, hsub⟩]
          rcases hsub with rfl | rfl
          · rfl
          · rfl
        · obtain ⟨hnil, hplus'⟩ := not_or.mp hsub
          obtain ⟨x, rest, rfl⟩ := List.exists_cons_of_ne_nil hnil
          rw [if_neg fun hand => hsub hand.2, hend hnil, h.tail.matches_nil hplus']
      · rw [if_neg fun hand => htopic hand.1]
        exact ih h.tail (fun hmem => hplus (List.mem_cons_of_mem s hmem)) htopic
    · rw [if_neg hst]
      by_cases hs : s = plus
      · obtain rfl : s = plus := hs
        rw [if_pos rfl, h.plus_matches]
        dsimp only
        rw [if_neg (h.tail.not_isParent _)]
        -- the inner loop has stopped at the end of the topic, or in front of a separator
        by_cases hrest : (t :: topic).dropWhile (· ≠ slash) = []
        · rw [hrest]
          by_cases hsub : sub = []
          · rw [if_pos ⟨rfl, hsub⟩, hsub]
            rfl
          · rw [if_neg fun hand => hsub hand.2, hend hsub]
            obtain hnil | ⟨sub, rfl⟩ := h.eq_of_plus
            · exact absurd hnil hsub
            · rw [h.tail.matches_nil fun heq => absurd (List.cons.inj heq).1 (by decide)]
        · rw [if_neg fun hand => hrest hand.1]
          exact ih h.tail (fun hmem => hplus ((List.dropWhile_sublist _).subset hmem)) hrest
      · rw [if_neg hs, if_neg h.ne_hash, h.matches_of_ne hs hst]

/-! ### Filters that end in `#` -/

/-- The loop gets from `sub` and `topic` to `u` and `v`: what lies between matches, and a `+` at the
end of it has taken a whole level. -/
def Reaches (sub topic u v : CStr) : Prop :=
  ∃ e g, sub = e ++ u ∧ topic = g ++ v ∧ topicMatchesSub e g = true ∧
    (e.getLast? = some plus → ∀ k ∈ v.head?, k = slash)

section Reaches

variable {c s t : UInt8} {sub topic u v : CStr}

/-- The loop starts somewhere. -/
theorem reaches_refl (sub topic : CStr) : Reaches sub topic sub topic :=
  ⟨[], [], rfl, rfl, rfl, fun h => absurd h (Option.some_ne_none plus).symm⟩

/-- Nothing of the filter has taken nothing of the topic. -/
theorem Reaches.eq_nil {e g : CStr} (he : e = []) (h : topicMatchesSub e g = true) : g = [] := by
  rw [he, nil_matches] at h
  exact of_decide_eq_true h

/-- The check of a filter has checked every part that it starts with. -/
theorem posCheckFrom_of_append {e : CStr} (h : topicWildcardPosCheckFrom c (e ++ u) = true)
    (hhash : hash ∉ e) : topicWildcardPosCheckFrom c e = true := by
  induction e generalizing c with
  | nil => rfl
  | cons x e ih =>
    obtain ⟨hnext, hbefore, -, htail⟩ := posCheckFrom_cons h
    have hx : x ≠ hash := fun hx => hhash (by simp [hx])
    rw [topicWildcardPosCheckFrom, if_neg ?_, if_neg fun hand => hx hand.1,
      ih htail fun hmem => hhash (List.mem_cons_of_mem x hmem)]
    rintro ⟨hplus, hout | hout⟩
    · exact (hbefore (.inl hplus)).elim hout.1 hout.2
    · cases e with
      | nil => exact hout.1 rfl
      | cons y e => exact (hnext hplus).elim hout.1 hout.2

/-- A part of what is left of a filter. -/
theorem Rest.of_append {e : CStr} (h : Rest c (e ++ u)) : Rest c e where
  pos := posCheckFrom_of_append h.pos fun hmem => h.hash_not_mem (List.mem_append_left u hmem)
  nul_not_mem hmem := h.nul_not_mem (List.mem_append_left u hmem)
  hash_not_mem hmem := h.hash_not_mem (List.mem_append_left u hmem)

/-- A turn on a byte that both have. -/
theorem Rest.reaches_cons (h : Rest c (s :: sub)) (hs : s ≠ plus) :
    Reaches (s :: sub) (s :: topic) u v ↔
      u = s :: sub ∧ v = s :: topic ∨ Reaches sub topic u v := by
  constructor
  · rintro ⟨e, g, hsub, htopic, hmatch, hlast⟩
    cases e with
    | nil =>
      rw [Reaches.eq_nil rfl hmatch] at htopic
      exact .inl ⟨hsub.symm, htopic.symm⟩
    | cons x e =>
      obtain ⟨rfl, rfl⟩ := List.cons.inj hsub
      have he : Rest c (s :: e) := Rest.of_append (u := u) h
      cases g with
      | nil =>
        rw [he.matches_nil fun heq => hs (List.cons.inj heq).1] at hmatch
        cases hmatch
      | cons y g =>
        obtain ⟨rfl, rfl⟩ := List.cons.inj htopic
        rw [he.matches_cons hs] at hmatch
        refine .inr ⟨e, g, rfl, rfl, hmatch, fun hplus => hlast ?_⟩
        rw [List.getLast?_cons, hplus]
        rfl
  · rintro (⟨rfl, rfl⟩ | ⟨e, g, rfl, rfl, hmatch, hlast⟩)
    · exact reaches_refl _ _
    · have he : Rest c (s :: e) := Rest.of_append (u := u) h
      refine ⟨s :: e, s :: g, rfl, rfl, (he.matches_cons hs g).trans hmatch, fun hplus => ?_⟩
      cases e with
      | nil => exact absurd (Option.some.inj hplus) hs
      | cons x e => exact hlast (by rwa [List.getLast?_cons_cons] at hplus)

/-- No turn on a byte in which they differ. -/
theorem Rest.reaches_of_ne (h : Rest c (s :: sub)) (hs : s ≠ plus) (ht : s ≠ t)
    (hreach : Reaches (s :: sub) (t :: topic) u v) : u = s :: sub := by
  obtain ⟨e, g, hsub, htopic, hmatch, -⟩ := hreach
  cases e with
  | nil => exact hsub.symm
  | cons x e =>
    obtain ⟨rfl, rfl⟩ := List.cons.inj hsub
    have he : Rest c (s :: e) := Rest.of_append (u := u) h
    cases g with
    | nil =>
      rw [he.matches_nil fun heq => hs (List.cons.inj heq).1] at hmatch
      cases hmatch
    | cons y g =>
      rw [he.matches_of_ne hs fun hy => ht (hy.trans (List.cons.inj htopic).1.symm)] at hmatch
      cases hmatch

/-- What is left behind a level starts with a separator. -/
theorem head_dropWhile (topic : CStr) : ∀ k ∈ (topic.dropWhile (· ≠ slash)).head?, k = slash := by
  intro k hk
  by_contra hne
  have hhead := List.head?_dropWhile_not (· ≠ slash) topic
  rw [hk] at hhead
  exact absurd (of_decide_eq_true (p := k = slash) (by simpa using hhead)) hne

/-- And of that, nothing more belongs to the level. -/
theorem dropWhile_eq_self {v : CStr} (h : ∀ k ∈ v.head?, k = slash) :
    v.dropWhile (· ≠ slash) = v := by
  cases v with
  | nil => rfl
  | cons k v => rw [List.dropWhile_cons_of_neg (by simp [h k rfl])]

/-- A turn in which a `+` takes a level. -/
theorem Rest.reaches_plus (h : Rest c (plus :: sub)) (hu : u ≠ plus :: sub) :
    Reaches (plus :: sub) topic u v ↔ Reaches sub (topic.dropWhile (· ≠ slash)) u v := by
  constructor
  · rintro ⟨e, g, hsub, rfl, hmatch, hlast⟩
    cases e with
    | nil => exact absurd hsub.symm hu
    | cons x e =>
      obtain ⟨rfl, rfl⟩ := List.cons.inj hsub
      have he : Rest c (plus :: e) := Rest.of_append (u := u) h
      rw [he.plus_matches] at hmatch
      refine ⟨e, g.dropWhile (· ≠ slash), rfl, ?_, hmatch, fun hplus => hlast ?_⟩
      · rw [List.dropWhile_append]
        split
        · rename_i hempty
          -- the `+` has taken all of `g`, and is the last of `e`
          have hnil := List.isEmpty_iff.mp hempty
          rw [hnil] at hmatch
          have hend : e = [] := by
            obtain rfl | ⟨e, rfl⟩ := he.eq_of_plus
            · rfl
            · rw [he.tail.matches_nil fun heq => absurd (List.cons.inj heq).1 (by decide)] at hmatch
              cases hmatch
          rw [hnil, List.nil_append, dropWhile_eq_self (hlast (by rw [hend]; rfl))]
        · rfl
      · rw [List.getLast?_cons, hplus]
        rfl
  · rintro ⟨e, g, rfl, hrest, hmatch, hlast⟩
    have he : Rest c (plus :: e) := Rest.of_append (u := u) h
    -- `g` stands behind the level that the `+` takes, so it is that level and then `g`
    have hg : g.dropWhile (· ≠ slash) = g := by
      refine dropWhile_eq_self fun k hk => head_dropWhile topic k ?_
      rw [hrest, List.head?_append, hk]
      rfl
    have htake : (topic.takeWhile (· ≠ slash) ++ g).dropWhile (· ≠ slash) = g := by
      rw [List.dropWhile_append_of_pos fun a ha =>
        List.mem_takeWhile_imp (p := fun x => decide (x ≠ slash)) ha, hg]
    refine ⟨plus :: e, topic.takeWhile (· ≠ slash) ++ g, rfl, ?_, ?_, fun hplus => ?_⟩
    · rw [List.append_assoc, ← hrest, List.takeWhile_append_dropWhile]
    · rw [he.plus_matches, htake, hmatch]
    · cases e with
      | nil =>
        rw [Reaches.eq_nil rfl hmatch, List.nil_append] at hrest
        exact hrest ▸ head_dropWhile topic
      | cons x e => exact hlast (by rwa [List.getLast?_cons_cons] at hplus)

end Reaches

/-- What the function lets pass for the filter `f/#`: what goes on below a topic that `f` matches,
or what ends where one byte is left of `f`, whichever byte that is. -/
def PassesHash (f topic : CStr) : Prop :=
  (∃ r, r ≠ [] ∧ Reaches f topic [] (slash :: r)) ∨
    1 < f.length ∧ ∃ x k, Reaches f topic [x] [k]

/-- The same, where the loop looks ahead. -/
def PassesAfter (f topic : CStr) : Prop :=
  (∃ r, r ≠ [] ∧ Reaches f topic [] (slash :: r)) ∨ ∃ x k, Reaches f topic [x] [k]

/-- The look ahead finds `/#` only with one byte of `f` in front of it. -/
theorem isParent_hash {f topic : CStr} :
    isParent (f ++ [slash, hash]) topic = true ↔ ∃ x k, f = [x] ∧ topic = [k] := by
  rw [isParent_eq_true]
  refine exists_congr fun x => exists_congr fun k => and_congr_left fun _ => ?_
  show f ++ [slash, hash] = [x] ++ [slash, hash] ↔ _
  exact List.append_left_inj _

/-- With one byte in all, no turn has been made. -/
theorem reaches_singleton {f topic : CStr} {x k : UInt8} (hf : f.length ≤ 1) :
    Reaches f topic [x] [k] ↔ f = [x] ∧ topic = [k] := by
  constructor
  · rintro ⟨e, g, rfl, rfl, hmatch, -⟩
    have he : e = [] := by
      rw [List.length_append, List.length_singleton] at hf
      exact List.length_eq_zero_iff.mp (by omega)
    rw [he, Reaches.eq_nil he hmatch]
    exact ⟨rfl, rfl⟩
  · rintro ⟨rfl, rfl⟩
    exact reaches_refl _ _

/-- The look ahead lets pass what the loop would miss. -/
theorem passesAfter_iff {f topic : CStr} :
    PassesAfter f topic ↔ isParent (f ++ [slash, hash]) topic = true ∨ PassesHash f topic := by
  rw [isParent_hash, PassesHash, PassesAfter]
  by_cases hf : 1 < f.length
  · constructor
    · rintro (h | h)
      · exact .inr (.inl h)
      · exact .inr (.inr ⟨hf, h⟩)
    · rintro (⟨x, k, rfl, -⟩ | h | ⟨-, h⟩)
      · exact absurd hf (by simp)
      · exact .inl h
      · exact .inr h
  · constructor
    · rintro (h | ⟨x, k, h⟩)
      · exact .inr (.inl h)
      · exact .inl ⟨x, k, (reaches_singleton (Nat.not_lt.mp hf)).mp h⟩
    · rintro (⟨x, k, h⟩ | h | ⟨hlt, -⟩)
      · exact .inr ⟨x, k, (reaches_singleton (Nat.not_lt.mp hf)).mpr h⟩
      · exact .inl h
      · exact absurd hlt hf

section Hash

variable {c s t : UInt8} {f topic : CStr}

/-- At the end of `f`, only what goes on with more than a separator passes. -/
theorem passesHash_nil (topic : CStr) :
    PassesHash [] topic ↔ ∃ r, r ≠ [] ∧ topic = slash :: r := by
  constructor
  · rintro (⟨r, hr, e, g, he, rfl, hmatch, -⟩ | ⟨hlt, -⟩)
    · obtain ⟨rfl, -⟩ := List.append_eq_nil_iff.mp he.symm
      rw [Reaches.eq_nil rfl hmatch]
      exact ⟨r, hr, rfl⟩
    · exact absurd hlt (by simp)
  · rintro ⟨r, hr, rfl⟩
    exact .inl ⟨r, hr, reaches_refl _ _⟩

/-- Behind a byte that both have the loop has looked ahead. -/
theorem Rest.passesHash_cons (h : Rest c (s :: f)) (hs : s ≠ plus) :
    PassesHash (s :: f) (s :: topic) ↔ PassesAfter f topic := by
  refine or_congr (exists_congr fun r => and_congr_right fun _ => ?_) ?_
  · rw [h.reaches_cons hs]
    exact or_iff_right fun heq => absurd heq.1 (List.cons_ne_nil s f).symm
  · rw [List.length_cons, ← exists_and_left]
    refine exists_congr fun x => ?_
    rw [← exists_and_left]
    refine exists_congr fun k => ?_
    rw [h.reaches_cons hs]
    constructor
    · rintro ⟨hlt, ⟨heq, -⟩ | hreach⟩
      · rw [← (List.cons.inj heq).2] at hlt
        exact absurd hlt (by simp)
      · exact hreach
    · intro hreach
      refine ⟨Nat.succ_lt_succ ?_, .inr hreach⟩
      obtain ⟨e, g, rfl, -⟩ := hreach
      rw [List.length_append, List.length_singleton]
      omega

/-- Behind one in which they differ it has stopped. -/
theorem Rest.not_passesHash_of_ne (h : Rest c (s :: f)) (hs : s ≠ plus) (ht : s ≠ t) :
    ¬PassesHash (s :: f) (t :: topic) := by
  rintro (⟨r, -, hreach⟩ | ⟨hlt, x, k, hreach⟩)
  · exact absurd (h.reaches_of_ne hs ht hreach) (List.cons_ne_nil s f).symm
  · rw [← h.reaches_of_ne hs ht hreach] at hlt
    exact absurd hlt (by simp)

/-- Behind a `+` it has looked ahead once, for all bytes that were taken. -/
theorem Rest.passesHash_plus (h : Rest c (plus :: f)) :
    PassesHash (plus :: f) topic ↔ PassesAfter f (topic.dropWhile (· ≠ slash)) := by
  refine or_congr (exists_congr fun r => and_congr_right fun _ => ?_) ?_
  · exact h.reaches_plus (List.cons_ne_nil plus f).symm
  · rw [List.length_cons, ← exists_and_left]
    refine exists_congr fun x => ?_
    rw [← exists_and_left]
    refine exists_congr fun k => ?_
    constructor
    · rintro ⟨hlt, hreach⟩
      refine (h.reaches_plus fun heq => ?_).mp hreach
      rw [← (List.cons.inj heq).2] at hlt
      exact absurd hlt (by simp)
    · intro hreach
      have hf : f ≠ [] := by
        obtain ⟨e, g, rfl, -⟩ := hreach
        simp
      refine ⟨Nat.succ_lt_succ (List.length_pos_of_ne_nil hf), (h.reaches_plus fun heq => ?_).mpr
        hreach⟩
      exact hf (List.cons.inj heq).2.symm

/-- The turns that end with the filter do not happen. -/
theorem hash_ne (f : CStr) : ¬(f ++ [slash, hash] = [] ∨ f ++ [slash, hash] = [plus]) := by
  rintro (heq | heq)
  · exact absurd (List.append_eq_nil_iff.mp heq).2 (List.cons_ne_nil slash [hash])
  · exact absurd (congrArg List.length heq) (by simp)

/-- Where the loop goes on from a turn. -/
theorem loop_after (hiff : topicMatchesLoop (f ++ [slash, hash]) topic = some true ↔
      PassesHash f topic) :
    (if isParent (f ++ [slash, hash]) topic = true then some true
      else topicMatchesLoop (f ++ [slash, hash]) topic) = some true ↔ PassesAfter f topic := by
  rw [passesAfter_iff, ← hiff]
  split
  · rename_i hparent
    exact ⟨fun _ => .inl hparent, fun _ => rfl⟩
  · rename_i hparent
    exact (or_iff_right hparent).symm

/-- The loop on `/#`. -/
theorem loop_slash_hash (hhash : hash ∉ topic) :
    topicMatchesLoop [slash, hash] topic = some true ↔ ∃ r, r ≠ [] ∧ topic = slash :: r := by
  cases topic with
  | nil => exact iff_of_false (by simp [topicMatchesLoop]) (by simp)
  | cons t topic =>
    rw [topicMatchesLoop]
    by_cases ht : slash = t
    · obtain rfl : slash = t := ht
      rw [if_pos rfl, if_neg fun hand => absurd hand.2 (by simp [plus, hash]),
        if_neg (by simp [isParent])]
      cases topic with
      | nil => exact iff_of_false (by simp [topicMatchesLoop]) (by simp)
      | cons k topic =>
        have hk : hash ≠ k := fun hk => hhash (by simp [hk])
        rw [topicMatchesLoop, if_neg hk, if_neg (show ¬hash = plus by decide), if_pos rfl]
        exact iff_of_true rfl ⟨k :: topic, List.cons_ne_nil k topic, rfl⟩
    · rw [if_neg ht, if_neg (show ¬slash = plus by decide), if_neg (show ¬slash = hash by decide)]
      refine iff_of_false (by simp) ?_
      rintro ⟨r, -, heq⟩
      exact ht (List.cons.inj heq).1.symm

/-- A topic without bytes does not pass. -/
theorem not_passesHash_nil : ¬PassesHash f [] := by
  rintro (⟨r, -, e, g, -, hg, -⟩ | ⟨-, x, k, e, g, -, hg, -⟩)
  · exact absurd (List.append_eq_nil_iff.mp hg.symm).2 (List.cons_ne_nil slash r)
  · exact absurd (List.append_eq_nil_iff.mp hg.symm).2 (List.cons_ne_nil k [])

/-- The loop on a filter that ends in `#`. -/
theorem Rest.loop_hash (h : Rest c f) (hplus : plus ∉ topic) (hhash : hash ∉ topic) :
    topicMatchesLoop (f ++ [slash, hash]) topic = some true ↔ PassesHash f topic := by
  induction f generalizing c topic with
  | nil =>
    rw [passesHash_nil, List.nil_append]
    exact loop_slash_hash hhash
  | cons s f ih =>
    cases topic with
    | nil => exact iff_of_false (by simp [topicMatchesLoop]) not_passesHash_nil
    | cons t topic =>
      rw [List.cons_append, topicMatchesLoop]
      by_cases hst : s = t
      · obtain rfl : s = t := hst
        have hs : s ≠ plus := fun hs => hplus (by simp [hs])
        rw [if_pos rfl, if_neg fun hand => hash_ne f hand.2, h.passesHash_cons hs]
        exact loop_after (ih h.tail (fun hmem => hplus (List.mem_cons_of_mem s hmem))
          fun hmem => hhash (List.mem_cons_of_mem s hmem))
      · rw [if_neg hst]
        by_cases hs : s = plus
        · obtain rfl : s = plus := hs
          rw [if_pos rfl, h.passesHash_plus]
          dsimp only
          rw [if_neg fun hand => hash_ne f (.inl hand.2)]
          exact loop_after (ih h.tail (fun hmem => hplus ((List.dropWhile_sublist _).subset hmem))
            fun hmem => hhash ((List.dropWhile_sublist _).subset hmem))
        · rw [if_neg hs, if_neg h.ne_hash]
          exact iff_of_false (by simp) (h.not_passesHash_of_ne hs hst)

end Hash

/-! ### The function on filters and topics -/

/-- A filter has been checked from its start. -/
theorem posCheckFrom_of_isFilter {sub : CStr} (h : IsFilter sub) :
    topicWildcardPosCheckFrom 0 sub = true := by
  by_contra hne
  have hcheck := h.2
  rw [topicWildcardPosCheck, if_pos (Bool.eq_false_iff.mpr hne)] at hcheck
  cases hcheck

/-- A `#` that something follows is no filter. -/
theorem hash_not_mem_of_posCheckFrom {f str : CStr} (hnul : 0 ∉ f) (hstr : str.headD 0 ≠ 0)
    {c : UInt8} (h : topicWildcardPosCheckFrom c (f ++ str) = true) : hash ∉ f := by
  induction f generalizing c with
  | nil => exact List.not_mem_nil
  | cons x f ih =>
    obtain ⟨-, -, hhash, htail⟩ := posCheckFrom_cons h
    have hrest := ih (fun hmem => hnul (List.mem_cons_of_mem x hmem)) htail
    rw [List.mem_cons, not_or]
    refine ⟨fun hx => ?_, hrest⟩
    cases f with
    | nil => exact hstr (hhash hx.symm)
    | cons y f => exact hnul (by rw [← show y = 0 from hhash hx.symm]; simp)

/-- A topic has no wildcards. -/
theorem wildcards_of_isTopic {topic : CStr} (h : IsTopic topic) : plus ∉ topic ∧ hash ∉ topic := by
  refine not_or.mp fun hor => ?_
  have hcheck := h.2
  rw [topicWildcardLenCheck, if_pos hor] at hcheck
  cases hcheck

/-- The check for a `$` in front refuses at once, -/
theorem mosquittoTopicMatchesSub_of_not {sub topic : CStr} (hsub : sub ≠ []) (htopic : topic ≠ [])
    (h : ¬DollarAgrees sub topic) : mosquittoTopicMatchesSub sub topic = some false := by
  have hone : sub.head? = some dollar ∧ topic.head? ≠ some dollar ∨
      topic.head? = some dollar ∧ sub.head? ≠ some dollar := by
    by_contra hne
    obtain ⟨hleft, hright⟩ := not_or.mp hne
    exact h ⟨fun hs => by_contra fun ht => hleft ⟨hs, ht⟩,
      fun ht => by_contra fun hs => hright ⟨ht, hs⟩⟩
  rw [mosquittoTopicMatchesSub, if_pos ⟨⟨hsub, htopic⟩, hone⟩]

/-- or leaves it all to the loop. -/
theorem mosquittoTopicMatchesSub_of_agrees {sub topic : CStr} (h : DollarAgrees sub topic) :
    mosquittoTopicMatchesSub sub topic = topicMatchesLoop sub topic := by
  rw [mosquittoTopicMatchesSub, if_neg]
  rintro ⟨-, ⟨hs, ht⟩ | ⟨ht, hs⟩⟩
  · exact ht (h.mp hs)
  · exact hs (h.mpr ht)

/-! ### Filters that start with a letter -/

section Letter

variable {s : UInt8} {f topic : CStr}

/-- Where a filter starts with a letter, only a topic with a `$` is refused at once. -/
theorem Rest.not_agrees (h : ¬DollarAgrees (s :: f) topic) (hdollar : s ≠ dollar) :
    ∃ rest, topic = dollar :: rest := by
  have hs : ¬(s :: f).head? = some dollar := fun heq => hdollar (Option.some.inj heq)
  have htopic : topic.head? = some dollar := by
    by_contra hne
    exact h (iff_of_false hs hne)
  cases topic with
  | nil => cases htopic
  | cons t rest => exact ⟨rest, by rw [Option.some.inj htopic]⟩

/-- Such a filter without `#` lets pass what the levels say. -/
theorem Rest.passes {sub : CStr} (h : Rest 0 sub) (hhead : sub.head? = some s) (hs : s ≠ plus)
    (hdollar : s ≠ dollar) (htopic : IsTopic topic) :
    mosquittoTopicMatchesSub sub topic = some true ↔ topicMatchesSub sub topic = true := by
  obtain ⟨f, rfl⟩ : ∃ f, sub = s :: f := ⟨sub.tail, List.eq_cons_of_mem_head? hhead⟩
  by_cases hagrees : DollarAgrees (s :: f) topic
  · rw [mosquittoTopicMatchesSub_of_agrees hagrees,
      h.loop_eq (wildcards_of_isTopic htopic).1 htopic.1, Option.some.injEq]
  · obtain ⟨rest, rfl⟩ := Rest.not_agrees hagrees hdollar
    rw [mosquittoTopicMatchesSub_of_not (List.cons_ne_nil s f) htopic.1 hagrees,
      h.matches_of_ne hs hdollar, Option.some.injEq]

/-- Such a filter with a `#` behind it. -/
theorem Rest.passes_hash (h : Rest 0 (s :: f)) (hs : s ≠ plus) (hdollar : s ≠ dollar)
    (htopic : IsTopic topic) :
    mosquittoTopicMatchesSub (s :: f ++ [slash, hash]) topic = some true ↔
      PassesHash (s :: f) topic := by
  have hwild := wildcards_of_isTopic htopic
  by_cases hagrees : DollarAgrees (s :: f ++ [slash, hash]) topic
  · rw [mosquittoTopicMatchesSub_of_agrees hagrees, h.loop_hash hwild.1 hwild.2]
  · obtain ⟨rest, rfl⟩ := Rest.not_agrees hagrees hdollar
    rw [mosquittoTopicMatchesSub_of_not (show s :: f ++ [slash, hash] ≠ [] from
      List.cons_ne_nil s _) htopic.1 hagrees]
    exact iff_of_false (by simp) (h.not_passesHash_of_ne hs hdollar)

end Letter

/-! ### Filters without wildcards -/

section Literal

variable {f : CStr}

/-- Where there are no wildcards, none is misplaced. -/
theorem rest_of_literal (hnul : 0 ∉ f) (hplus : plus ∉ f) (hhash : hash ∉ f) : Rest 0 f where
  pos := by
    rw [← List.append_nil f, topicWildcardPosCheckFrom_append hplus hhash]
    rfl
  nul_not_mem := hnul
  hash_not_mem := hhash

/-- Without wildcards, only the topic itself matches. -/
theorem Rest.matches_literal {c : UInt8} (h : Rest c f) (hplus : plus ∉ f) {g : CStr} :
    topicMatchesSub f g = true ↔ g = f := by
  induction f generalizing c g with
  | nil => rw [nil_matches, decide_eq_true_iff]
  | cons s f ih =>
    have hs : s ≠ plus := fun hs => hplus (by simp [hs])
    cases g with
    | nil =>
      rw [h.matches_nil fun heq => hs (List.cons.inj heq).1]
      exact iff_of_false (by simp) (List.cons_ne_nil s f).symm
    | cons t g =>
      by_cases hst : s = t
      · obtain rfl : s = t := hst
        rw [h.matches_cons hs, ih h.tail fun hmem => hplus (List.mem_cons_of_mem s hmem),
          List.cons_inj_right]
      · rw [h.matches_of_ne hs hst]
        exact iff_of_false (by simp) fun heq => hst (List.cons.inj heq).1.symm

/-- The loop gets nowhere else. -/
theorem Rest.reaches_literal {c : UInt8} (h : Rest c f) (hplus : plus ∉ f) {topic u v : CStr} :
    Reaches f topic u v ↔ ∃ e, f = e ++ u ∧ topic = e ++ v := by
  constructor
  · rintro ⟨e, g, rfl, rfl, hmatch, -⟩
    have he : plus ∉ e := fun hmem => hplus (List.mem_append_left u hmem)
    exact ⟨e, rfl, by rw [(h.of_append.matches_literal he).mp hmatch]⟩
  · rintro ⟨e, rfl, rfl⟩
    have he : plus ∉ e := fun hmem => hplus (List.mem_append_left u hmem)
    refine ⟨e, e, rfl, rfl, (h.of_append.matches_literal he).mpr rfl, fun hlast => ?_⟩
    exact absurd (List.mem_of_getLast? hlast) he

/-- What passes for `f/#`, without wildcards in `f`. -/
theorem Rest.passesHash_literal {c : UInt8} (h : Rest c f) (hplus : plus ∉ f)
    (hlength : 1 < f.length) {topic : CStr} :
    PassesHash f topic ↔
      (∃ r, r ≠ [] ∧ topic = f ++ slash :: r) ∨ ∃ k, topic = f.dropLast ++ [k] := by
  refine or_congr (exists_congr fun r => and_congr_right fun _ => ?_) ?_
  · rw [h.reaches_literal hplus]
    constructor
    · rintro ⟨e, rfl, rfl⟩
      rw [List.append_nil]
    · rintro rfl
      exact ⟨f, (List.append_nil f).symm, rfl⟩
  · rw [and_iff_right hlength]
    constructor
    · rintro ⟨x, k, hreach⟩
      obtain ⟨e, rfl, rfl⟩ := (h.reaches_literal hplus).mp hreach
      exact ⟨k, by rw [List.dropLast_concat]⟩
    · rintro ⟨k, rfl⟩
      have hne : f ≠ [] := List.ne_nil_of_length_pos (by omega)
      refine ⟨f.getLast hne, k, (h.reaches_literal hplus).mpr ⟨f.dropLast, ?_, rfl⟩⟩
      exact (List.dropLast_append_getLast hne).symm

/-- What passes for `f/#`, when `f` starts with a letter. -/
theorem Rest.passes_literal {s : UInt8} (h : Rest 0 f) (hplus : plus ∉ f)
    (hhead : f.head? = some s) (hdollar : s ≠ dollar) (hlength : 1 < f.length) {topic : CStr}
    (htopic : IsTopic topic) :
    mosquittoTopicMatchesSub (f ++ [slash, hash]) topic = some true ↔
      (∃ r, r ≠ [] ∧ topic = f ++ slash :: r) ∨ ∃ k, topic = f.dropLast ++ [k] := by
  rw [← h.passesHash_literal hplus hlength]
  obtain ⟨f, rfl⟩ : ∃ f', f = s :: f' := ⟨f.tail, List.eq_cons_of_mem_head? hhead⟩
  exact h.passes_hash (fun hs => hplus (by simp [hs])) hdollar htopic

end Literal

/-! ### The two kinds of filters -/

/-- **A filter without `#`.** The loop over the bytes decides what the levels say, except that a
wildcard does not stand for a `$` in front. -/
theorem mosquittoTopicMatchesSub_eq {sub topic : CStr} (hsub : IsFilter sub) (hnul : 0 ∉ sub)
    (hhash : hash ∉ sub) (htopic : IsTopic topic) :
    mosquittoTopicMatchesSub sub topic =
      some (decide (DollarAgrees sub topic) && topicMatchesSub sub topic) := by
  by_cases h : DollarAgrees sub topic
  · rw [mosquittoTopicMatchesSub_of_agrees h, decide_eq_true h, Bool.true_and]
    exact Rest.loop_eq ⟨posCheckFrom_of_isFilter hsub, hnul, hhash⟩
      (wildcards_of_isTopic htopic).1 htopic.1
  · rw [mosquittoTopicMatchesSub_of_not hsub.1 htopic.1 h, decide_eq_false h, Bool.false_and]

/-- The filter of a chat, and a message for it. -/
theorem mosquittoTopicMatchesSub_eq_chat :
    mosquittoTopicMatchesSub (lit "chat/+/bob") (lit "chat/alice/bob") = some true :=
  (mosquittoTopicMatchesSub_eq (by decide) (by simp [lit]) (by simp [lit, hash]) (by decide)).trans
    (by decide)

/-- **A filter that ends in `#`.** For the filter `f/#` the loop lets pass what goes on below a
topic that `f` matches, if it goes on with more than a separator, and what ends where one byte is
left of `f`: with that byte or with any other, but not when it is the only byte of `f`, and not
behind a `+` that the byte would still belong to. -/
theorem mosquittoTopicMatchesSub_hash {f topic : CStr} (hsub : IsFilter (f ++ [slash, hash]))
    (hnul : 0 ∉ f) (htopic : IsTopic topic) :
    mosquittoTopicMatchesSub (f ++ [slash, hash]) topic = some true ↔
      DollarAgrees (f ++ [slash, hash]) topic ∧
        ((∃ g r, topic = g ++ slash :: r ∧ r ≠ [] ∧ topicMatchesSub f g = true) ∨
          ∃ e x g k, f = e ++ [x] ∧ e ≠ [] ∧ topic = g ++ [k] ∧ topicMatchesSub e g = true ∧
            (e.getLast? = some plus → k = slash)) := by
  by_cases h : DollarAgrees (f ++ [slash, hash]) topic
  · have hpos := posCheckFrom_of_isFilter hsub
    have hhash := hash_not_mem_of_posCheckFrom hnul (by decide) hpos
    have hwild := wildcards_of_isTopic htopic
    have hrest : Rest 0 f := ⟨posCheckFrom_of_append hpos hhash, hnul, hhash⟩
    rw [mosquittoTopicMatchesSub_of_agrees h, hrest.loop_hash hwild.1 hwild.2,
      and_iff_right h]
    -- `Reaches` at the end of `f`, and at its last byte
    refine or_congr ⟨?_, ?_⟩ ⟨?_, ?_⟩
    · rintro ⟨r, hr, e, g, he, rfl, hmatch, -⟩
      rw [List.append_nil] at he
      exact ⟨g, r, rfl, hr, he ▸ hmatch⟩
    · rintro ⟨g, r, rfl, hr, hmatch⟩
      refine ⟨r, hr, f, g, (List.append_nil f).symm, rfl, hmatch, fun _ k hk => ?_⟩
      exact (Option.some.inj hk).symm
    · rintro ⟨hlt, x, k, e, g, rfl, rfl, hmatch, hlast⟩
      refine ⟨e, x, g, k, rfl, ?_, rfl, hmatch, fun hplus => hlast hplus k rfl⟩
      rintro rfl
      exact absurd hlt (by simp)
    · rintro ⟨e, x, g, k, rfl, he, rfl, hmatch, hlast⟩
      refine ⟨?_, x, k, e, g, rfl, rfl, hmatch, fun hplus k' hk => ?_⟩
      · rw [List.length_append, List.length_singleton]
        have hpos := List.length_pos_of_ne_nil he
        omega
      · rw [← Option.some.inj hk]
        exact hlast hplus
  · rw [mosquittoTopicMatchesSub_of_not hsub.1 htopic.1 h]
    exact iff_of_false (by simp) fun hand => h hand.1

/-- The topic is not below the filter. -/
theorem mosquittoTopicMatchesSub_hash_box :
    mosquittoTopicMatchesSub (lit "users/bob/#") (lit "users/box") = some true :=
  (mosquittoTopicMatchesSub_hash (f := lit "users/bob") (by decide) (by simp [lit])
    (by decide)).mpr ⟨by decide, .inr ⟨lit "users/bo", 98, lit "users/bo", 120, rfl,
      List.cons_ne_nil _ _, rfl, by decide, by decide⟩⟩

end Psn

import Psn.Topic
import Psn.Types

/-!
# Publishing through libmosquitto

`mosquitto_publish` checks its arguments, copies the message into the client's queue and then
tries to send it. The message counts as handed over once it is queued: a send that fails leaves
it there for the library's retries. `PublishIo` is what the run decides, that is, whether memory
could be allocated and what the send returned.
-/

namespace Psn

/-- `enum mosq_err_t`. -/
inductive MosqErr
  | connPending
  | success
  | nomem
  | protocol
  | inval
  | noConn
  | connRefused
  | notFound
  | connLost
  | tls
  | payloadSize
  | notSupported
  | auth
  | aclDenied
  | unknown
  | errno
  | eai
  deriving DecidableEq, Repr

/-- `MQTT_MAX_PAYLOAD`. -/
def mqttMaxPayload : ℤ := 268435455

/-- `_mosquitto_topic_wildcard_len_check`. -/
def topicWildcardLenCheck (topic : CStr) : MosqErr :=
  if plus ∈ topic ∨ hash ∈ topic then .inval
  else if topic.length > 65535 then .inval
  else .success

/-- The scan of `_mosquitto_topic_wildcard_pos_check`, with the byte `c` before the rest of the
string: a wildcard fills a level, and `#` is the last. -/
def topicWildcardPosCheckFrom (c : UInt8) : CStr → Bool
  | [] => true
  | x :: str =>
    if x = plus ∧ ((c ≠ 0 ∧ c ≠ slash) ∨ (str.headD 0 ≠ 0 ∧ str.headD 0 ≠ slash)) then false
    else if x = hash ∧ ((c ≠ 0 ∧ c ≠ slash) ∨ str.headD 0 ≠ 0) then false
    else topicWildcardPosCheckFrom x str

/-- `_mosquitto_topic_wildcard_pos_check`. -/
def topicWildcardPosCheck (str : CStr) : MosqErr :=
  if topicWildcardPosCheckFrom 0 str = false then .inval
  else if str.length > 65535 then .inval
  else .success

/-- What the run decides about one call of `mosquitto_publish`. -/
structure PublishIo where
  /-- Every allocation succeeded. -/
  alloc : Bool
  /-- What sending the queued message returned. -/
  sent : MosqErr
  deriving DecidableEq, Repr

/-- A publish for which there was memory and a connection. -/
def PublishIo.ok : PublishIo := ⟨true, .success⟩

/-- `mosquitto_publish` with QoS 1 and without retain: its return code, and the message if it was
queued. -/
def mosquittoPublish (mosq : Option Mosq) (topic : CStr) (payloadlen : ℤ) (payload : CStr)
    (io : PublishIo) : MosqErr × List Effect :=
  match mosq with
  | none => (.inval, [])
  | some m =>
    if topic = [] then (.inval, [])
    else if payloadlen < 0 ∨ payloadlen > mqttMaxPayload then (.payloadSize, [])
    else if topicWildcardLenCheck topic ≠ .success then (.inval, [])
    else if !io.alloc then (.nomem, [])
    else (io.sent, [.publish m topic (payload.take payloadlen.toNat)])

/-- Whatever the outcome, the only effect of a publish is the message on its topic. -/
theorem mem_mosquittoPublish {mosq : Option Mosq} {topic payload : CStr} {len : ℤ}
    {io : PublishIo} {e : Effect} (h : e ∈ (mosquittoPublish mosq topic len payload io).2) :
    ∃ m, mosq = some m ∧ e = .publish m topic (payload.take len.toNat) := by
  unfold mosquittoPublish at h
  cases mosq with
  | none => simp at h
  | some m =>
    refine ⟨m, rfl, ?_⟩
    by_cases htopic : topic = []
    · simp [htopic] at h
    by_cases hlen : len < 0 ∨ len > mqttMaxPayload
    · simp [htopic, hlen] at h
    by_cases hwild : topicWildcardLenCheck topic ≠ .success
    · simp [htopic, hlen, hwild] at h
    cases halloc : io.alloc with
    | false => simp [htopic, hlen, hwild, halloc] at h
    | true => simpa [htopic, hlen, hwild, halloc] using h

/-- A publish that passes every check and finds memory hands its message over. -/
theorem mosquittoPublish_ok {m : Mosq} {topic payload : CStr} {io : PublishIo}
    (htopic : topic ≠ []) (hlen : (payload.length : ℤ) ≤ mqttMaxPayload)
    (hwild : topicWildcardLenCheck topic = .success) (hio : io.alloc = true) :
    mosquittoPublish (some m) topic payload.length payload io =
      (io.sent, [.publish m topic payload]) := by
  have hrange : ¬((payload.length : ℤ) < 0 ∨ (payload.length : ℤ) > mqttMaxPayload) := by omega
  simp [mosquittoPublish, htopic, hrange, hwild, hio]

/-- A friend request between user names passes the check of its topic. -/
theorem topicWildcardLenCheck_frequestTopic (t s : UserName) :
    topicWildcardLenCheck (frequestTopic t.bytes s.bytes) = .success := by
  have hplus : plus ∉ frequestTopic t.bytes s.bytes :=
    not_mem_frequestTopic (by decide) (by decide) t.plus_not_mem s.plus_not_mem
  have hhash : hash ∉ frequestTopic t.bytes s.bytes :=
    not_mem_frequestTopic (by decide) (by decide) t.hash_not_mem s.hash_not_mem
  have hlength : ¬(frequestTopic t.bytes s.bytes).length > 65535 := by
    have ht := t.length_le
    have hs := s.length_le
    rw [length_frequestTopic]
    omega
  rw [topicWildcardLenCheck, if_neg (not_or.mpr ⟨hplus, hhash⟩), if_neg hlength]

/-- A friend request between user names is handed over whenever there is memory. -/
theorem mosquittoPublish_frequestTopic (m : Mosq) (t s : UserName) (payload : CStr)
    (hlen : payload.length ≤ 268435455) :
    mosquittoPublish (some m) (frequestTopic t.bytes s.bytes) payload.length payload .ok =
      (.success, [.publish m (frequestTopic t.bytes s.bytes) payload]) := by
  refine mosquittoPublish_ok ?_ ?_ (topicWildcardLenCheck_frequestTopic t s) rfl
  · intro hnil
    have hlength := length_frequestTopic t.bytes s.bytes
    rw [hnil, List.length_nil] at hlength
    omega
  · rw [mqttMaxPayload]
    omega

/-! ### Subscription filters -/

/-- Bytes that are no wildcards pass the scan. -/
theorem topicWildcardPosCheckFrom_append {a : CStr} (hplus : plus ∉ a) (hhash : hash ∉ a)
    (str : CStr) : ∀ c, topicWildcardPosCheckFrom c (a ++ str) =
      topicWildcardPosCheckFrom (a.getLastD c) str := by
  induction a with
  | nil => exact fun _ => rfl
  | cons x a ih =>
    intro c
    have hx : x ≠ plus ∧ x ≠ hash :=
      ⟨fun h => hplus (by simp [h]), fun h => hhash (by simp [h])⟩
    have ih := ih (fun h => hplus (List.mem_cons_of_mem x h))
      (fun h => hhash (List.mem_cons_of_mem x h)) x
    rw [List.cons_append, topicWildcardPosCheckFrom, if_neg fun h => hx.1 h.1,
      if_neg fun h => hx.2 h.1, ih]
    cases a <;> rfl

/-- A `#` before a separator does not. -/
theorem topicWildcardPosCheckFrom_hash (a str : CStr) :
    ∀ c, topicWildcardPosCheckFrom c (a ++ hash :: slash :: str) = false := by
  induction a with
  | nil =>
    intro c
    rw [List.nil_append, topicWildcardPosCheckFrom, if_neg fun h => absurd h.1 (by decide),
      if_pos ⟨rfl, Or.inr (by simp [slash])⟩]
  | cons x a ih =>
    intro c
    rw [List.cons_append, topicWildcardPosCheckFrom, ih x]
    split
    · rfl
    split <;> rfl

/-- In a name with a subscription that is a filter, no level is `#`. -/
theorem hash_not_mem_levels {name : CStr} (h : topicWildcardPosCheck (usersSub name) = .success) :
    [hash] ∉ levels name := by
  intro hmem
  obtain ⟨pre, post, hl⟩ := List.append_of_mem hmem
  have hsub : usersSub name = (lit "users/" ++ (pre.map (· ++ [slash])).flatten) ++
      hash :: slash :: ((post.map (· ++ [slash])).flatten ++ [hash]) := by
    rw [usersSub, show lit "/#" = [slash] ++ [hash] from rfl, ← List.append_assoc,
      List.append_assoc (lit "users/"), append_slash, hl]
    simp
  rw [topicWildcardPosCheck, hsub, topicWildcardPosCheckFrom_hash, if_pos rfl] at h
  cases h

/-- The subscriptions of a user are filters. -/
theorem topicWildcardPosCheck_usersSub (u : UserName) :
    topicWildcardPosCheck (usersSub u.bytes) = .success := by
  have hsub : usersSub u.bytes = (lit "users/" ++ u.bytes ++ [slash]) ++ [hash] := by
    rw [usersSub, show lit "/#" = [slash] ++ [hash] from rfl]
    simp
  have hplus : plus ∉ lit "users/" ++ u.bytes ++ [slash] := by
    simp only [List.mem_append, not_or]
    exact ⟨⟨by decide, u.plus_not_mem⟩, by decide⟩
  have hhash : hash ∉ lit "users/" ++ u.bytes ++ [slash] := by
    simp only [List.mem_append, not_or]
    exact ⟨⟨by decide, u.hash_not_mem⟩, by decide⟩
  have hscan : topicWildcardPosCheckFrom 0 (usersSub u.bytes) = true := by
    rw [hsub, topicWildcardPosCheckFrom_append hplus hhash, List.getLastD_concat]
    decide
  have hlength : ¬(usersSub u.bytes).length > 65535 := by
    have hu := u.length_le
    have husers : (lit "users/").length = 6 := rfl
    simp only [hsub, List.length_append, List.length_singleton, husers]
    omega
  rw [topicWildcardPosCheck, hscan, if_neg (by simp), if_neg hlength]

theorem topicWildcardPosCheck_chatSub (u : UserName) :
    topicWildcardPosCheck (chatSub u.bytes) = .success := by
  have hsub : chatSub u.bytes = lit "chat/" ++ plus :: slash :: (u.bytes ++ []) := by
    rw [chatSub, show lit "chat/+/" = lit "chat/" ++ [plus, slash] from rfl]
    simp
  have hscan : topicWildcardPosCheckFrom 0 (chatSub u.bytes) = true := by
    have hname : topicWildcardPosCheckFrom slash (u.bytes ++ []) = true := by
      rw [topicWildcardPosCheckFrom_append u.plus_not_mem u.hash_not_mem]
      rfl
    rw [hsub, topicWildcardPosCheckFrom_append (by decide) (by decide),
      topicWildcardPosCheckFrom, if_neg (by simp [slash, plus, lit]),
      if_neg (by simp [plus, hash]), topicWildcardPosCheckFrom, if_neg (by simp [slash, plus]),
      if_neg (by simp [slash, hash]), hname]
  have hlength : ¬(chatSub u.bytes).length > 65535 := by
    have hu := u.length_le
    have hchat : (lit "chat/").length = 5 := rfl
    simp only [hsub, List.length_append, List.length_cons, List.length_nil, hchat]
    omega
  rw [topicWildcardPosCheck, hscan, if_neg (by simp), if_neg hlength]

end Psn

import Psn.Api

/-!
# The flag `connected`

Whether a client is connected is kept in a static flag, apart from the handle of the client.
`psn_connect` sets it when it succeeds and `psn_disconnect` clears it when it succeeds. A
`psn_connect` that fails leaves it alone, and so does `psn_free`, and where the flag was set
before it then speaks of a client that is not connected, or is gone.

`frame_apiStep` says what any operation does to the flag, to the handle and to the user name.

## Scope

The flag is one for the whole process, and here there is one client. What becomes of it with several
of them is in `Psn.Instances`.

Only the calls that connect, disconnect or free a client can change it; this is what the frame
lemmas are for. An operation of the library can fail in every way that `mosquitto.h` documents, and
its result is part of the call. That the broker closes the connection later is not a call, and the
flag does not notice it: the program sets no callback for it.

A client that is freed is still there as far as `psn->mosq` is concerned. What the library does with
a handle whose client is gone is not seen here: its result is part of the call like any other. Which
clients the handles still have is followed in `Psn.Clients`.

## Main results

* `psnConnect_eq_some`, `exists_psnConnect`: the outcomes of `psn_connect`
* `frame_apiStep`: the frame of the whole interface
* `truthful_iff`: when the flag tells the truth
-/

namespace Psn

open KeyedChain PartialMachine

variable {τ κ : Type}

/-! ### The outcomes of `psn_connect` -/

/-- What `psn_connect` does with a new client until it is connected. -/
def openingEffects (psn : PsnT τ κ) (m : Mosq) : List Effect :=
  [.new psn.username.1 m, .messageCallbackSet m, .usernamePwSet m psn.username.1 psn.password.1,
    .connect m psn.hostname.1 psn.port]

/-- What `psn_connect` does with a client that is connected. -/
def subscribingEffects (psn : PsnT τ κ) (m : Mosq) : List Effect :=
  [.subscribe m (usersSub psn.username.1), .subscribe m (chatSub psn.username.1), .loopStart m]

/-- A user name fits into the buffer for the topic, -/
theorem length_usersSub_lt (u : Field 32) : (usersSub u.1).length < 128 := by
  have hu := u.2
  have husers : (lit "users/").length = 6 := rfl
  have hrest : (lit "/#").length = 2 := rfl
  simp only [usersSub, List.length_append, husers, hrest]
  omega

/-- for both subscriptions. -/
theorem length_chatSub_lt (u : Field 32) : (chatSub u.1).length < 128 := by
  have hu := u.2
  have hchat : (lit "chat/+/").length = 7 := rfl
  simp only [chatSub, List.length_append, hchat]
  omega

/-- The test for a client is the wrong way round: without one, the program reinitialises what is not
there. -/
theorem connectClient_eq_some {psn psn' : PsnT τ κ} {io : ConnectIo} {m : Mosq} :
    connectClient psn io = some (psn', m) ↔
      psn.mosq ≠ none ∧ io.new = some m ∧ psn' = { psn with mosq := some m } := by
  rw [connectClient]
  cases hmosq : psn.mosq with
  | none => simp
  | some old =>
    cases hnew : io.new with
    | none => simp
    | some m' =>
      simp only [Option.bind_eq_bind, Option.bind_some, Option.pure_def, Option.some.injEq,
        Prod.mk.injEq, ne_eq, reduceCtorEq, not_false_eq_true, true_and]
      constructor
      · rintro ⟨rfl, rfl⟩
        exact ⟨rfl, rfl⟩
      · rintro ⟨rfl, rfl⟩
        exact ⟨rfl, rfl⟩

/-- The outcomes of `psn_connect`: it needs a handle that is not NULL and a new client. The client
cannot connect, or its loop does not start, or all is well and the flag is set. -/
theorem psnConnect_eq_some {p : Proc τ κ} {io : ConnectIo} {r : Reply τ κ}
    (h : psnConnect p io = some r) :
    p.psn.mosq ≠ none ∧ ∃ m, io.new = some m ∧ r.proc.psn = { p.psn with mosq := some m } ∧
      ((io.connect ≠ .success ∧ r.err = .couldNotConnect ∧ r.proc.connected = p.connected ∧
          r.effects = openingEffects p.psn m) ∨
        (io.connect = .success ∧ io.loopStart ≠ .success ∧ r.err = .fail ∧
          r.proc.connected = p.connected ∧
          r.effects = openingEffects p.psn m ++ subscribingEffects p.psn m) ∨
        (io.connect = .success ∧ io.loopStart = .success ∧ r.err = .success ∧
          r.proc.connected = true ∧
          r.effects = openingEffects p.psn m ++ subscribingEffects p.psn m)) := by
  obtain ⟨⟨psn, m⟩, hclient, h⟩ := Option.bind_eq_some_iff.mp h
  obtain ⟨hmosq, hnew, rfl⟩ := connectClient_eq_some.mp hclient
  refine ⟨hmosq, m, hnew, ?_⟩
  simp only at h
  split at h
  · rename_i hconnect
    cases h
    exact ⟨rfl, Or.inl ⟨hconnect, rfl, rfl, rfl⟩⟩
  rename_i hconnect
  have hconnect : io.connect = .success := by simpa using hconnect
  rw [sprintf_of_lt (length_usersSub_lt p.psn.username),
    sprintf_of_lt (length_chatSub_lt p.psn.username)] at h
  simp only [Option.bind_eq_bind, Option.bind_some] at h
  split at h
  · rename_i hloop
    cases h
    exact ⟨rfl, Or.inr (Or.inl ⟨hconnect, hloop, rfl, rfl, rfl⟩)⟩
  · rename_i hloop
    cases h
    exact ⟨rfl, Or.inr (Or.inr ⟨hconnect, by simpa using hloop, rfl, rfl, rfl⟩)⟩

/-- With a handle that is not NULL and a new client, `psn_connect` is defined. -/
theorem exists_psnConnect {p : Proc τ κ} {io : ConnectIo} (hmosq : p.psn.mosq ≠ none)
    (hnew : io.new ≠ none) : ∃ r, psnConnect p io = some r := by
  obtain ⟨m, hm⟩ := Option.ne_none_iff_exists'.mp hnew
  rw [psnConnect, connectClient_eq_some.mpr ⟨hmosq, hm, rfl⟩]
  simp only [Option.bind_eq_bind, Option.bind_some, Option.pure_def,
    sprintf_of_lt (length_usersSub_lt p.psn.username),
    sprintf_of_lt (length_chatSub_lt p.psn.username)]
  split
  · exact ⟨_, rfl⟩
  split <;> exact ⟨_, rfl⟩

/-! ### The frame of the interface -/

section Frame

variable [Tomcrypt κ] [UserTable τ κ]

/-- The flag after an operation. -/
def ApiOp.flag (p : Proc τ κ) : ApiOp κ → Bool
  | .connect io => if io.connect = .success ∧ io.loopStart = .success then true else p.connected
  | .disconnect => if p.psn.mosq = none then p.connected else false
  | _ => p.connected

/-- The handle after an operation. -/
def ApiOp.handle (p : Proc τ κ) : ApiOp κ → Option Mosq
  | .connect io => io.new
  | _ => p.psn.mosq

/-- The user name that an operation sets, if it sets one. -/
def ApiOp.rename (J : Jansson) : ApiOp κ → Option CStr
  | .setUsername username _ => some username
  | .deserializeConfig srcStr _ =>
    jsonStringValue (jsonObjectGet (J.loads srcStr) (lit "username"))
  | _ => none

/-- What an operation does to the flag, to the handle and to the user name. -/
structure ApiOp.Framed (J : Jansson) (p : Proc τ κ) (op : ApiOp κ) (q : Proc τ κ) : Prop where
  connected_eq : q.connected = op.flag p
  mosq_eq : q.psn.mosq = op.handle p
  username_eq : q.psn.username.1 = (op.rename J).getD p.psn.username.1

variable {J : Jansson} {p q : Proc τ κ} {o : Output}

/-- `psn_init` leaves the flag as it is. -/
theorem framed_init {io : InitIo} (h : p.apiStep J (.init io) = some (o, q)) :
    ApiOp.Framed J p (.init io) q := by
  obtain rfl : (psnInit p io).proc = q := congrArg Prod.snd (Option.some_inj.mp h)
  rw [psnInit]
  split
  · exact ⟨rfl, rfl, rfl⟩
  split <;> exact ⟨rfl, rfl, rfl⟩

/-- So does `psn_free`, and the handle stays as well. -/
theorem framed_free (h : p.apiStep J .free = some (o, q)) : ApiOp.Framed J p .free q := by
  obtain ⟨r, hr, -, rfl⟩ := exists_reply h
  rw [psnFree] at hr
  split at hr
  · cases hr
    exact ⟨rfl, rfl, rfl⟩
  · cases hr

/-- Only the last outcome of `psn_connect` sets the flag, and all of them leave the new client. -/
theorem framed_connect {io : ConnectIo} (h : p.apiStep J (.connect io) = some (o, q)) :
    ApiOp.Framed J p (.connect io) q := by
  obtain ⟨r, hr, -, rfl⟩ := exists_reply h
  obtain ⟨-, m, hm, hpsn, houtcome⟩ := psnConnect_eq_some hr
  refine ⟨?_, by rw [hpsn, ApiOp.handle, hm], by rw [hpsn]; rfl⟩
  rw [ApiOp.flag]
  rcases houtcome with ⟨hc, -, hconn, -⟩ | ⟨-, hl, -, hconn, -⟩ | ⟨hc, hl, -, hconn, -⟩
  · rw [hconn, if_neg fun hs => hc hs.1]
  · rw [hconn, if_neg fun hs => hl hs.2]
  · rw [hconn, if_pos ⟨hc, hl⟩]

/-- `psn_disconnect` clears the flag when it succeeds. -/
theorem framed_disconnect (h : p.apiStep J .disconnect = some (o, q)) :
    ApiOp.Framed J p .disconnect q := by
  obtain rfl : (psnDisconnect p).proc = q := congrArg Prod.snd (Option.some_inj.mp h)
  suffices hframe : (psnDisconnect p).proc.connected = ApiOp.flag p .disconnect ∧
      (psnDisconnect p).proc.psn.mosq = p.psn.mosq ∧
      (psnDisconnect p).proc.psn.username.1 = p.psn.username.1 from
    ⟨hframe.1, hframe.2.1, hframe.2.2⟩
  simp only [psnDisconnect, ApiOp.flag]
  cases hmosq : p.psn.mosq with
  | none => exact ⟨rfl, hmosq, rfl⟩
  | some m =>
    cases hconn : p.connected with
    | false => exact ⟨hconn, hmosq, rfl⟩
    | true => exact ⟨rfl, hmosq, rfl⟩

/-- The name is set, or the call is refused. -/
theorem framed_setUsername {username password : CStr}
    (h : p.apiStep J (.setUsername username password) = some (o, q)) :
    ApiOp.Framed J p (.setUsername username password) q := by
  obtain ⟨r, hr, -, rfl⟩ := exists_reply h
  obtain ⟨_, -, hr⟩ := Option.bind_eq_some_iff.mp hr
  obtain ⟨_, -, hr⟩ := Option.bind_eq_some_iff.mp hr
  obtain ⟨u, hu, hr⟩ := Option.bind_eq_some_iff.mp hr
  cases Option.some_inj.mp hr
  exact ⟨rfl, rfl, (Option.some_inj.mp (strcpy_eq_some.mp hu)).symm⟩

/-- The shown name has nothing to do with the session. -/
theorem framed_setShownName {shownName : CStr}
    (h : p.apiStep J (.setShownName shownName) = some (o, q)) :
    ApiOp.Framed J p (.setShownName shownName) q := by
  obtain ⟨r, hr, -, rfl⟩ := exists_reply h
  obtain ⟨_, -, hr⟩ := Option.bind_eq_some_iff.mp hr
  cases Option.some_inj.mp hr
  exact ⟨rfl, rfl, rfl⟩

/-- Nor has the server. -/
theorem framed_setServer {hostname : CStr} {port : Int32}
    (h : p.apiStep J (.setServer hostname port) = some (o, q)) :
    ApiOp.Framed J p (.setServer hostname port) q := by
  obtain ⟨r, hr, -, rfl⟩ := exists_reply h
  obtain ⟨_, -, hr⟩ := Option.bind_eq_some_iff.mp hr
  cases Option.some_inj.mp hr
  exact ⟨rfl, rfl, rfl⟩

/-- The operations on the lists read the session and leave it alone. -/
theorem framed_lists {op : Op} (h : p.apiStep J (.lists op) = some (o, q)) :
    ApiOp.Framed J p (.lists op) q := by
  have hsession := session_step h
  simp only [Proc.session, Prod.mk.injEq] at hsession
  exact ⟨hsession.1, hsession.2.1, congrArg Subtype.val hsession.2.2⟩

/-- A message that is published changes nothing of the client. -/
theorem framed_sendEncryptedMessage {target message : CStr} {prng : Bytes} {io : PublishIo}
    (h : p.apiStep J (.sendEncryptedMessage target message prng io) = some (o, q)) :
    ApiOp.Framed J p (.sendEncryptedMessage target message prng io) q := by
  obtain ⟨r, hr, -, rfl⟩ := exists_reply h
  rw [psnSendEncryptedMessage] at hr
  split at hr
  · cases hr
    exact ⟨rfl, rfl, rfl⟩
  · obtain ⟨_, -, hr⟩ := Option.bind_eq_some_iff.mp hr
    cases hr
    exact ⟨rfl, rfl, rfl⟩

/-- Loading a profile may set the name, on the paths that come to it. -/
theorem framed_deserializeConfig {srcStr : CStr} {pkKeyBuf : Buffer.Sized 2048}
    (h : p.apiStep J (.deserializeConfig srcStr pkKeyBuf) = some (o, q)) :
    ApiOp.Framed J p (.deserializeConfig srcStr pkKeyBuf) q := by
  obtain ⟨⟨err, psn, effects⟩, hr, heq⟩ := Option.map_eq_some_iff.mp h
  cases heq
  obtain ⟨-, hmosq, -, husername, -⟩ := fields_of_psnDeserializeConfig hr
  exact ⟨rfl, hmosq, by rw [ApiOp.rename, husername]; rfl⟩

/-- **The frame of the interface.** -/
theorem frame_apiStep {op : ApiOp κ} (h : p.apiStep J op = some (o, q)) :
    ApiOp.Framed J p op q := by
  cases op with
  | init io => exact framed_init h
  | free => exact framed_free h
  | generateNewKey made pkKey =>
    obtain rfl : (psnGenerateNewKey p made pkKey).proc = q :=
      congrArg Prod.snd (Option.some_inj.mp h)
    exact ⟨rfl, rfl, rfl⟩
  | connect io => exact framed_connect h
  | disconnect => exact framed_disconnect h
  | setUsername username password => exact framed_setUsername h
  | setShownName shownName => exact framed_setShownName h
  | setServer hostname port => exact framed_setServer h
  | getFriendList =>
    obtain ⟨_, -, heq⟩ := Option.map_eq_some_iff.mp h
    cases heq
    exact ⟨rfl, rfl, rfl⟩
  | lists op => exact framed_lists h
  | sendEncryptedMessage target message prng io => exact framed_sendEncryptedMessage h
  | serializeConfig stack cap =>
    obtain ⟨_, -, heq⟩ := Option.map_eq_some_iff.mp h
    cases heq
    exact ⟨rfl, rfl, rfl⟩
  | deserializeConfig srcStr pkKeyBuf => exact framed_deserializeConfig h

end Frame

/-! ### When the flag tells the truth -/

/-- The calls that connect and disconnect a client. -/
inductive ConnOp
  | connect (io : ConnectIo)
  | disconnect
  | free
  deriving DecidableEq, Repr

/-- The call leaves a connection alone. -/
def Idle (e : ConnOp × Output) : Prop := e.1 = .disconnect ∧ e.2.err ≠ some .success

/-- The last `psn_connect` of the history succeeded with the client `m`, and neither a `psn_free`
nor a successful `psn_disconnect` came after it. -/
def Established (history : List (ConnOp × Output)) (m : Mosq) : Prop :=
  ∃ pre io o post, history = pre ++ (.connect io, o) :: post ∧ io.new = some m ∧
    o.err = some .success ∧ ∀ e ∈ post, Idle e

/-- Nobody has connected. -/
theorem not_established_nil (m : Mosq) : ¬Established [] m := by
  rintro ⟨pre, io, o, post, h, -⟩
  simp at h

/-- The last call has connected the client, or has left the connection that there was. -/
theorem established_append_singleton {history : List (ConnOp × Output)} {e : ConnOp × Output}
    {m : Mosq} : Established (history ++ [e]) m ↔
      (∃ io, e.1 = .connect io ∧ io.new = some m ∧ e.2.err = some .success) ∨
        (Idle e ∧ Established history m) := by
  constructor
  · rintro ⟨pre, io, o, post, h, hnew, herr, hpost⟩
    rcases List.eq_nil_or_concat post with rfl | ⟨post, e', rfl⟩
    · obtain ⟨-, he⟩ := List.append_inj' h rfl
      cases he
      exact Or.inl ⟨io, rfl, hnew, herr⟩
    · rw [List.concat_eq_append, ← List.cons_append, ← List.append_assoc] at h
      obtain ⟨rfl, he⟩ := List.append_inj' h rfl
      cases he
      exact Or.inr ⟨hpost e (by simp), pre, io, o, post, rfl, hnew, herr,
        fun e he => hpost e (by simp [he])⟩
  · rintro (⟨io, hop, hnew, herr⟩ | ⟨hidle, pre, io, o, post, rfl, hnew, herr, hpost⟩)
    · exact ⟨history, io, e.2, [], by rw [← hop], hnew, herr, by simp⟩
    · refine ⟨pre, io, o, post ++ [e], by simp, hnew, herr, fun e' he' => ?_⟩
      rcases List.mem_append.mp he' with he' | he'
      · exact hpost e' he'
      · rwa [List.mem_singleton.mp he']

/-- A `psn_connect` that fails ends whatever there was: its client is not connected. -/
@[simp] theorem established_connect {history : List (ConnOp × Output)} {io : ConnectIo}
    {o : Output} {m : Mosq} : Established (history ++ [(.connect io, o)]) m ↔
      io.new = some m ∧ o.err = some .success := by
  simp [established_append_singleton, Idle]

/-- A `psn_disconnect` ends it only if it succeeds. -/
@[simp] theorem established_disconnect {history : List (ConnOp × Output)} {o : Output} {m : Mosq} :
    Established (history ++ [(.disconnect, o)]) m ↔
      o.err ≠ some .success ∧ Established history m := by
  simp [established_append_singleton, Idle]

/-- A client that was freed has no connection. -/
@[simp] theorem not_established_free {history : List (ConnOp × Output)} {o : Output} {m : Mosq} :
    ¬Established (history ++ [(.free, o)]) m := by
  simp [established_append_singleton, Idle]

variable [UserTable τ κ]

/-- One of the calls. -/
def Proc.connStep (p : Proc τ κ) : ConnOp → Option (Output × Proc τ κ)
  | .connect io => (psnConnect p io).map Reply.result
  | .disconnect => some (psnDisconnect p).result
  | .free => (psnFree p).map Reply.result

/-- What `psn_connect` can come to. -/
theorem connStep_connect {p q : Proc τ κ} {io : ConnectIo} {o : Output}
    (h : p.connStep (.connect io) = some (o, q)) :
    ∃ m, io.new = some m ∧ q.psn = { p.psn with mosq := some m } ∧
      ((io.connect = .success ∧ io.loopStart = .success ∧ o.err = some .success ∧
          q.connected = true) ∨
        (¬(io.connect = .success ∧ io.loopStart = .success) ∧ o.err ≠ some .success ∧
          q.connected = p.connected)) := by
  obtain ⟨r, hr, rfl, rfl⟩ := exists_reply h
  obtain ⟨-, m, hm, hpsn, ⟨hc, herr, hconn, -⟩ | ⟨-, hl, herr, hconn, -⟩ |
    ⟨hc, hl, herr, hconn, -⟩⟩ := psnConnect_eq_some hr
  · exact ⟨m, hm, hpsn, Or.inr ⟨fun hs => hc hs.1, by simp [herr], hconn⟩⟩
  · exact ⟨m, hm, hpsn, Or.inr ⟨fun hs => hl hs.2, by simp [herr], hconn⟩⟩
  · exact ⟨m, hm, hpsn, Or.inl ⟨hc, hl, by simp [herr], hconn⟩⟩

/-- What `psn_disconnect` can come to. -/
theorem connStep_disconnect {p q : Proc τ κ} {o : Output}
    (h : p.connStep .disconnect = some (o, q)) :
    q.psn = p.psn ∧
      ((p.psn.mosq ≠ none ∧ p.connected = true ∧ o.err = some .success ∧ q.connected = false) ∨
        ((p.psn.mosq = none ∨ p.connected = false) ∧ o.err ≠ some .success ∧
          q.connected = p.connected)) := by
  obtain ⟨rfl, rfl⟩ := Prod.mk.inj (Option.some_inj.mp h)
  rw [psnDisconnect]
  cases hmosq : p.psn.mosq with
  | none => exact ⟨rfl, Or.inr ⟨Or.inl rfl, by simp, rfl⟩⟩
  | some m =>
    cases hconn : p.connected with
    | false => exact ⟨rfl, Or.inr ⟨Or.inr rfl, by simp, hconn⟩⟩
    | true => exact ⟨rfl, Or.inl ⟨by simp, rfl, rfl, rfl⟩⟩

/-- `psn_free` changes nothing as long as nobody is recorded. -/
theorem connStep_free {p q : Proc τ κ} {o : Output} (h : p.connStep .free = some (o, q)) :
    q = p := by
  obtain ⟨r, hr, -, rfl⟩ := exists_reply h
  rw [psnFree] at hr
  split at hr
  · cases hr
    rfl
  · cases hr

omit [UserTable τ κ] in
/-- The flag is set exactly if there is a connection, and then it is that of the client. -/
structure Truthful (s : List (ConnOp × Output) × Proc τ κ) : Prop where
  /-- The flag says whether there is a connection. -/
  flag : s.2.connected = true ↔ ∃ m, Established s.1 m
  /-- And it is the one that messages are sent through. -/
  client : ∀ m, Established s.1 m → s.2.psn.mosq = some m

/-- What holds in any case: nobody is recorded, the flag is never set without a client, and a
connection is that of the client. -/
structure Grounded (s : List (ConnOp × Output) × Proc τ κ) : Prop where
  /-- With records in the lists, `psn_free` would be undefined. -/
  friends : items s.2.psn.friends = []
  incoming : items s.2.psn.friendRequestsIncoming = []
  outgoing : items s.2.psn.friendRequestsOutgoing = []
  /-- The flag is never set without a client, though it may be one that is gone. -/
  handle : s.2.connected = true → s.2.psn.mosq ≠ none
  /-- Where there is a connection, it is that of the client. -/
  client : ∀ m, Established s.1 m → s.2.psn.mosq = some m

/-- All of this goes with every call. -/
theorem Grounded.step {s t : List (ConnOp × Output) × Proc τ κ} {op : ConnOp} {o : Output}
    (h : Grounded s) (hstep : logged Proc.connStep s op = some (o, t)) : Grounded t := by
  obtain ⟨hstep, htrace⟩ := logged_eq_some.mp hstep
  cases op with
  | connect io =>
    obtain ⟨m, hm, hpsn, -⟩ := connStep_connect hstep
    refine ⟨by rw [hpsn]; exact h.friends, by rw [hpsn]; exact h.incoming,
      by rw [hpsn]; exact h.outgoing, fun _ => by simp [hpsn], fun m' hm' => ?_⟩
    rw [htrace, established_connect] at hm'
    rw [hpsn, ← hm, hm'.1]
  | disconnect =>
    obtain ⟨hpsn, houtcome⟩ := connStep_disconnect hstep
    refine ⟨by rw [hpsn]; exact h.friends, by rw [hpsn]; exact h.incoming,
      by rw [hpsn]; exact h.outgoing, fun hconn => ?_, fun m' hm' => ?_⟩
    · rw [hpsn]
      rcases houtcome with ⟨hmosq, -⟩ | ⟨-, -, hsame⟩
      · exact hmosq
      · exact h.handle (hsame ▸ hconn)
    · rw [htrace, established_disconnect] at hm'
      rw [hpsn]
      exact h.client m' hm'.2
  | free =>
    have hsame := connStep_free hstep
    refine ⟨hsame ▸ h.friends, hsame ▸ h.incoming, hsame ▸ h.outgoing, fun hconn => ?_,
      fun m' hm' => ?_⟩
    · rw [hsame] at hconn ⊢
      exact h.handle hconn
    · rw [htrace] at hm'
      exact absurd hm' not_established_free

omit [UserTable τ κ] in
/-- What a call must not do while the flag is set: fail to connect a new client, or destroy the
old one. -/
def KeepsTruth (p : Proc τ κ) : ConnOp → Prop
  | .connect io => p.connected = true → io.new ≠ none →
      io.connect = .success ∧ io.loopStart = .success
  | .disconnect => True
  | .free => p.connected = false

/-- Where the flag tells the truth, the condition decides whether it still does after a call. -/
theorem keepsTruth_iff {s : List (ConnOp × Output) × Proc τ κ} {op : ConnOp} (hg : Grounded s)
    (hs : Truthful s) : KeepsTruth s.2 op ↔
      ∀ o t, logged Proc.connStep s op = some (o, t) → Truthful t := by
  cases op with
  | connect io =>
    constructor
    · intro hkeep o t hstep
      refine ⟨?_, (hg.step hstep).client⟩
      obtain ⟨hstep, htrace⟩ := logged_eq_some.mp hstep
      obtain ⟨m, hm, -, ⟨-, -, herr, hconn⟩ | ⟨hfail, herr, hconn⟩⟩ := connStep_connect hstep
      · exact iff_of_true hconn ⟨m, by simp [htrace, hm, herr]⟩
      · -- the new client is not connected, so the flag has to be clear already
        refine iff_of_false (fun htrue => ?_) (by simp [htrace, herr])
        exact hfail (hkeep (hconn ▸ htrue) (by simp [hm]))
    · intro hnext hconn hnew
      obtain ⟨r, hr⟩ := exists_psnConnect (hg.handle hconn) hnew
      have hstep : s.2.connStep (.connect io) = some (r.result.1, r.proc) := by
        rw [Proc.connStep, hr]
        rfl
      have ht := hnext _ (s.1 ++ [(.connect io, r.result.1)], r.proc)
        (logged_eq_some.mpr ⟨hstep, rfl⟩)
      obtain ⟨m, -, -, ⟨hc, hl, -⟩ | ⟨-, herr, hsame⟩⟩ := connStep_connect hstep
      · exact ⟨hc, hl⟩
      · obtain ⟨m', hm'⟩ := ht.flag.mp (hsame.trans hconn)
        exact absurd (established_connect.mp hm').2 herr
  | disconnect =>
    refine iff_of_true trivial fun o t hstep => ⟨?_, (hg.step hstep).client⟩
    obtain ⟨hstep, htrace⟩ := logged_eq_some.mp hstep
    obtain ⟨-, ⟨-, -, herr, hconn⟩ | ⟨-, herr, hconn⟩⟩ := connStep_disconnect hstep
    · exact iff_of_false (by simp [hconn]) (by simp [htrace, herr])
    · rw [hconn, htrace, hs.flag]
      simp [herr]
  | free =>
    constructor
    · intro hclear o t hstep
      have hclear : s.2.connected = false := hclear
      refine ⟨?_, (hg.step hstep).client⟩
      obtain ⟨hstep, htrace⟩ := logged_eq_some.mp hstep
      rw [connStep_free hstep, htrace]
      exact iff_of_false (by simp [hclear]) (by simp)
    · intro hnext
      by_contra hkeep
      have hconn : s.2.connected = true := by simpa [KeepsTruth] using hkeep
      have hstep : ∃ o, s.2.connStep .free = some (o, s.2) := by
        rw [Proc.connStep, psnFree, if_pos ⟨hg.friends, hg.incoming, hg.outgoing⟩]
        exact ⟨_, rfl⟩
      obtain ⟨o, hstep⟩ := hstep
      have ht := hnext o (s.1 ++ [(.free, o)], s.2) (logged_eq_some.mpr ⟨hstep, rfl⟩)
      obtain ⟨m, hm⟩ := ht.flag.mp hconn
      exact not_established_free hm

/-- **When the flag tells the truth.** In every run from `psn_init`, with any outcome of the calls
of libmosquitto, the flag is set exactly while the last `psn_connect` succeeded and nothing ended
the connection since, in every state of the run, exactly if no `psn_connect` fails and no
`psn_free` is called while the flag is set. -/
theorem truthful_iff (p : Proc τ κ) (hp : p.connected = false) (ops : List ConnOp) :
    Always (logged Proc.connStep) Truthful ([], p.init) ops ↔
      Along Proc.connStep KeepsTruth p.init ops := by
  have hnil : ∀ m, ¬Established [] m := not_established_nil
  have hclear : p.init.connected ≠ true := by simp [Proc.init, hp]
  rw [← along_logged (s := ([], p.init))]
  refine always_iff_along (J := Grounded) (fun hg hstep => hg.step hstep)
    (fun hg hs => keepsTruth_iff hg hs) ?_ ?_
  · exact ⟨items_empty, items_empty, items_empty, fun hconn => absurd hconn hclear,
      fun m hm => absurd hm (hnil m)⟩
  · exact ⟨iff_of_false hclear fun hm => hm.elim hnil, fun m hm => absurd hm (hnil m)⟩

/-- A client that connects, disconnects and then cannot connect any more. -/
theorem truthful_iff_reconnect :
    Always (logged Proc.connStep) Truthful ([], offlineProc.init)
      [.connect ⟨some 2, .success, .success⟩, .disconnect, .connect ⟨some 3, .errno, .success⟩,
        .free] := by
  refine (truthful_iff offlineProc rfl _).mpr ⟨(fun h => nomatch h), fun o t ht => ?_⟩
  cases ht
  refine ⟨trivial, fun o t ht => ?_⟩
  cases ht
  refine ⟨(fun h => nomatch h), fun o t ht => ?_⟩
  cases ht
  exact ⟨rfl, fun o t _ => trivial⟩

/-- After `psn_free` the flag is still set. -/
theorem not_truthful_freed :
    ¬Always (logged Proc.connStep) Truthful ([], offlineProc.init)
      [.connect ⟨some 2, .success, .success⟩, .free] := by
  intro h
  obtain ⟨outs, s, hrun, hconn, o, hhistory⟩ : ∃ outs s,
      run (logged Proc.connStep) ([], offlineProc.init)
        [.connect ⟨some 2, .success, .success⟩, .free] = some (outs, s) ∧
      s.2.connected = true ∧ ∃ o, s.1.getLast? = some (.free, o) :=
    ⟨_, _, rfl, rfl, _, rfl⟩
  obtain ⟨history, hs⟩ := List.getLast?_eq_some_iff.mp hhistory
  obtain ⟨m, hm⟩ := (h.of_run hrun).flag.mp hconn
  rw [hs] at hm
  exact not_established_free hm

end Psn

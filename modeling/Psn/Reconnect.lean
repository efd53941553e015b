import Psn.Connection

/-!
# Subscriptions and reconnects

`psn_connect` connects a client with a clean session and subscribes it, once. When the connection
is lost, the loop thread of the library connects again, with the same clean session, and nobody
subscribes.

A `Link` is one client with its connection and with what the broker keeps about it. The client
queues packets and writes them to the connection, the broker processes them in order, the
connection can break at any time, and the loop thread connects again. Meanwhile the program calls
the interface. A broker that processes a `CONNECT` with a clean session forgets the subscriptions
of the client.

## Main results

* `moved_of_linkStep`: what a step does
* `LinkInv.step`, `LinkInv.run`: the filters of the session after a step and after a run
* `served_iff`: when a client that is connected is subscribed
-/

namespace Psn

open KeyedChain PartialMachine

/-! ### The link -/

/-- What a client sends. -/
inductive Packet
  | connect (cleanSession : Bool)
  | subscribe (sub : CStr)
  /-- Messages, acknowledgements and pings. -/
  | other
  deriving DecidableEq, Repr

/-- The socket of a client. -/
inductive Socket
  /-- `INVALID_SOCKET`. -/
  | invalid
  /-- The connection is broken, and the client has not noticed. -/
  | broken
  | connected
  deriving DecidableEq, Repr

/-- The clean session flag that `psn_connect` creates its client with. -/
def cleanSession : Bool := true

/-- A client, its connection and its session with the broker. -/
structure Link (τ κ : Type) where
  /-- The process that the client belongs to. -/
  proc : Proc τ κ
  /-- The packets that wait to be written, `out_packet`. -/
  outPackets : List Packet
  /-- The socket. -/
  sock : Socket
  /-- The packets that were written and wait for the broker. -/
  wire : List Packet
  /-- The session is established. -/
  session : Bool
  /-- The filters that the broker holds for the client. -/
  subs : List CStr

variable {τ κ : Type}

/-- The packets that the broker has not processed, in order. -/
def Link.pending (L : Link τ κ) : List Packet := L.wire ++ L.outPackets

/-- `_mosquitto_packet_queue`. -/
def Link.packetQueue (L : Link τ κ) (packet : Packet) : Link τ κ :=
  { L with outPackets := L.outPackets ++ [packet] }

/-- `_mosquitto_reconnect`, given whether the socket could be connected and the `CONNECT` queued. -/
def Link.reconnect (L : Link τ κ) (ok : Bool) : Link τ κ :=
  -- packets that were not written are freed
  let L := { L with outPackets := [] }
  if ok then
    { L with sock := .connected, wire := [], session := false }.packetQueue
      (.connect cleanSession)
  else L

/-- `mosquitto_subscribe`, given whether there was memory for the packet. -/
def Link.subscribe (L : Link τ κ) (alloc : Bool) (sub : CStr) : Link τ κ :=
  if L.sock = .invalid then L
  else if topicWildcardPosCheck sub ≠ .success then L
  else if alloc = false then L
  else L.packetQueue (.subscribe sub)

/-- What an effect of a successful `psn_connect` does to its client; `alloc` says for which filters
there was memory. -/
def Link.perform (alloc : CStr → Bool) (L : Link τ κ) : Effect → Link τ κ
  | .connect _ _ _ => L.reconnect true
  | .subscribe _ sub => L.subscribe (alloc sub) sub
  | _ => L

/-- The link after a successful `psn_connect`; `old` is what the broker held for the client id. -/
def Link.start (alloc : CStr → Bool) (old : List CStr) (r : Reply τ κ) : Link τ κ :=
  r.effects.foldl (Link.perform alloc) ⟨r.proc, [], .invalid, [], false, old⟩

/-- What the broker does with a packet. -/
def Link.receive (L : Link τ κ) : Packet → Link τ κ
  | .connect clean => { L with session := true, subs := if clean then [] else L.subs }
  | .subscribe sub => if L.session then { L with subs := L.subs ++ [sub] } else L
  | .other => L

/-! ### Steps -/

/-- The operation connects or disconnects nothing and leaves the user name alone. -/
def ApiOp.isOrdinary : ApiOp κ → Bool
  | .setUsername _ _ | .deserializeConfig _ _ => false
  | op => !op.isSession

/-- The operations that a program may call in a session. -/
abbrev OrdinaryOp (κ : Type) := {op : ApiOp κ // op.isOrdinary = true}

/-- What can happen to a link. -/
inductive LinkEvent (κ : Type)
  /-- The client writes a packet. -/
  | write
  /-- The broker processes a packet. -/
  | process
  /-- The broker refuses a `CONNECT` and closes the connection. -/
  | refuse
  /-- The connection is lost. -/
  | cut
  /-- `mosquitto_loop` fails and closes the socket. -/
  | loopFailed
  /-- `mosquitto_loop_forever` calls `mosquitto_reconnect`. -/
  | reconnect (ok : Bool)
  /-- The library queues a ping, an acknowledgement or a message again. -/
  | send
  /-- The program calls the interface, or a message arrives. -/
  | call (op : OrdinaryOp κ)

variable [Tomcrypt κ] [UserTable τ κ] in
/-- One step. -/
def Link.step (J : Jansson) (L : Link τ κ) : LinkEvent κ → Option (Unit × Link τ κ)
  | .write =>
    match L.outPackets with
    | [] => none
    | packet :: packets =>
      if L.sock = .invalid then none
      else if L.sock = .broken then some ((), { L with outPackets := packets })
      else some ((), { L with outPackets := packets, wire := L.wire ++ [packet] })
  | .process =>
    match L.wire with
    | [] => none
    | packet :: packets =>
      if L.sock = .connected then some ((), { L with wire := packets }.receive packet) else none
  | .refuse =>
    match L.wire with
    | .connect _ :: _ =>
      if L.sock = .connected then
        some ((), { L with sock := .broken, wire := [], session := false })
      else none
    | _ => none
  | .cut =>
    if L.sock = .connected then
      some ((), { L with sock := .broken, wire := [], session := false })
    else none
  | .loopFailed => if L.sock = .broken then some ((), { L with sock := .invalid }) else none
  | .reconnect ok => if L.sock = .invalid then some ((), L.reconnect ok) else none
  | .send => if L.sock = .invalid then none else some ((), L.packetQueue .other)
  | .call op =>
    (L.proc.apiStep J op.1).map fun r =>
      let queued := if L.sock = .invalid then [] else r.1.messages.map fun _ => Packet.other
      ((), { L with proc := r.2, outPackets := L.outPackets ++ queued })

/-! ### What the steps do -/

/-- The packets that matter for the session. -/
def sessionPackets (packets : List Packet) : List Packet := packets.filter fun p => p ≠ .other

@[simp] theorem sessionPackets_append (ps qs : List Packet) :
    sessionPackets (ps ++ qs) = sessionPackets ps ++ sessionPackets qs := List.filter_append ..

@[simp] theorem sessionPackets_other : sessionPackets [.other] = [] := rfl

@[simp] theorem sessionPackets_replicate_other (n : ℕ) :
    sessionPackets (List.replicate n .other) = [] := by
  simp [sessionPackets]

theorem sessionPackets_cons {packet : Packet} (h : packet ≠ .other) (packets : List Packet) :
    sessionPackets (packet :: packets) = packet :: sessionPackets packets := by
  simp [sessionPackets, h]

@[simp] theorem sessionPackets_map_subscribe (subs : List CStr) :
    sessionPackets (subs.map .subscribe) = subs.map .subscribe := by
  simp [sessionPackets]

/-- What a step does. -/
inductive Link.Moved [Tomcrypt κ] [UserTable τ κ] (J : Jansson) (L : Link τ κ) :
    LinkEvent κ → Link τ κ → Prop
  | written (packet : Packet) (packets : List Packet) (hsock : L.sock = .connected)
      (hout : L.outPackets = packet :: packets) :
      Moved J L .write { L with outPackets := packets, wire := L.wire ++ [packet] }
  | lost (packet : Packet) (packets : List Packet) (hsock : L.sock = .broken)
      (hout : L.outPackets = packet :: packets) : Moved J L .write { L with outPackets := packets }
  | processed (packet : Packet) (packets : List Packet) (hsock : L.sock = .connected)
      (hwire : L.wire = packet :: packets) :
      Moved J L .process ({ L with wire := packets }.receive packet)
  | closed (e : LinkEvent κ) (he : e = .refuse ∨ e = .cut) :
      Moved J L e { L with sock := .broken, wire := [], session := false }
  | failed (hsock : L.sock = .broken) : Moved J L .loopFailed { L with sock := .invalid }
  | reconnected (ok : Bool) (hsock : L.sock = .invalid) :
      Moved J L (.reconnect ok) (L.reconnect ok)
  | sent : Moved J L .send (L.packetQueue .other)
  | called (op : OrdinaryOp κ) (o : Output) (q : Proc τ κ)
      (hstep : L.proc.apiStep J op.1 = some (o, q)) (queued : List Packet)
      (hqueued : sessionPackets queued = []) :
      Moved J L (.call op) { L with proc := q, outPackets := L.outPackets ++ queued }

theorem moved_of_linkStep [Tomcrypt κ] [UserTable τ κ] {J : Jansson} {L L' : Link τ κ}
    {e : LinkEvent κ} {u : Unit} (h : L.step J e = some (u, L')) : L.Moved J e L' := by
  cases e with
  | write =>
    cases hout : L.outPackets with
    | nil => simp [Link.step, hout] at h
    | cons packet packets =>
      cases hsock : L.sock with
      | invalid => simp [Link.step, hout, hsock] at h
      | broken =>
        have heq : { L with outPackets := packets } = L' := by
          simpa [Link.step, hout, hsock] using h
        exact heq ▸ .lost packet packets hsock hout
      | connected =>
        have heq : { L with outPackets := packets, wire := L.wire ++ [packet] } = L' := by
          simpa [Link.step, hout, hsock] using h
        exact heq ▸ .written packet packets hsock hout
  | process =>
    cases hwire : L.wire with
    | nil => simp [Link.step, hwire] at h
    | cons packet packets =>
      obtain ⟨hsock, heq⟩ :
          L.sock = .connected ∧ { L with wire := packets }.receive packet = L' := by
        simpa [Link.step, hwire] using h
      exact heq ▸ .processed packet packets hsock hwire
  | refuse =>
    rw [Link.step] at h
    split at h
    · obtain ⟨-, heq⟩ := Option.ite_none_right_eq_some.mp h
      cases heq
      exact .closed .refuse (Or.inl rfl)
    · cases h
  | cut =>
    obtain ⟨-, heq⟩ := Option.ite_none_right_eq_some.mp h
    cases heq
    exact .closed .cut (Or.inr rfl)
  | loopFailed =>
    obtain ⟨hsock, heq⟩ := Option.ite_none_right_eq_some.mp h
    cases heq
    exact .failed hsock
  | reconnect ok =>
    obtain ⟨hsock, heq⟩ := Option.ite_none_right_eq_some.mp h
    cases heq
    exact .reconnected ok hsock
  | send =>
    obtain ⟨-, heq⟩ := Option.ite_none_left_eq_some.mp h
    cases heq
    exact .sent
  | call op =>
    obtain ⟨⟨o, q⟩, hq, heq⟩ := Option.map_eq_some_iff.mp h
    cases heq
    refine .called op o q hq _ ?_
    split
    · rfl
    · simp

/-! ### What the steps keep -/

/-- The session is one with the filters `S`: they are held by the broker or on their way to it, in
this order, and before it is established a `CONNECT` comes first. -/
structure LinkInv (S : List CStr) (L : Link τ κ) : Prop where
  established : L.session = true → L.sock = .connected ∧
    ∃ rest, sessionPackets L.pending = rest.map .subscribe ∧ L.subs ++ rest = S
  opening : L.session = false → L.sock = .connected →
    sessionPackets L.pending = .connect cleanSession :: S.map .subscribe

variable {S : List CStr} {L L' : Link τ κ}

/-- Without a connection there is no session. -/
theorem LinkInv.session_eq_false (h : LinkInv S L) (hsock : L.sock ≠ .connected) :
    L.session = false := by
  by_contra hne
  exact hsock (h.established (by simpa using hne)).1

/-- A link that is down is about to get any session. -/
theorem linkInv_of_down (S : List CStr) (hsession : L.session = false)
    (hsock : L.sock ≠ .connected) : LinkInv S L where
  established h := absurd (hsession.symm.trans h) (by simp)
  opening _ h := absurd h hsock

/-- Packets that do not matter for the session may be added. -/
theorem LinkInv.congr (h : LinkInv S L) (hsession : L'.session = L.session)
    (hsock : L'.sock = L.sock) (hsubs : L'.subs = L.subs)
    (hpending : sessionPackets L'.pending = sessionPackets L.pending) : LinkInv S L' where
  established h' := by
    rw [hsock, hsubs, hpending]
    exact h.established (hsession ▸ h')
  opening h' hs' := by
    rw [hpending]
    exact h.opening (hsession ▸ h') (hsock ▸ hs')

/-- The broker processes the packet that was written first. -/
theorem LinkInv.receive (h : LinkInv S L) (hsock : L.sock = .connected) {packet : Packet}
    {packets : List Packet} (hwire : L.wire = packet :: packets) :
    LinkInv S ({ L with wire := packets }.receive packet) := by
  have hpending : L.pending = packet :: (packets ++ L.outPackets) := by
    rw [Link.pending, hwire, List.cons_append]
  cases packet with
  | other =>
    refine h.congr rfl rfl rfl ?_
    rw [hpending]
    rfl
  | connect clean =>
    cases hup : L.session with
    | true =>
      obtain ⟨-, rest, hrest, -⟩ := h.established hup
      rw [hpending, sessionPackets_cons (by simp)] at hrest
      cases rest <;> cases hrest
    | false =>
      have hopening := h.opening hup hsock
      rw [hpending, sessionPackets_cons (by simp), List.cons.injEq] at hopening
      obtain ⟨hclean, hrest⟩ := hopening
      obtain rfl : clean = cleanSession := by simpa using hclean
      exact ⟨fun _ => ⟨hsock, S, hrest, rfl⟩, fun hdown => (nomatch hdown)⟩
  | subscribe sub =>
    cases hup : L.session with
    | true =>
      obtain ⟨-, rest, hrest, hsubs⟩ := h.established hup
      rw [hpending, sessionPackets_cons (by simp)] at hrest
      cases rest with
      | nil => cases hrest
      | cons sub' rest =>
        rw [List.map_cons, List.cons.injEq] at hrest
        obtain rfl : sub = sub' := by simpa using hrest.1
        rw [Link.receive, if_pos rfl]
        refine ⟨fun _ => ⟨hsock, rest, hrest.2, ?_⟩, fun hdown => (nomatch hdown)⟩
        rw [← hsubs, List.append_assoc, List.singleton_append]
    | false =>
      have hopening := h.opening hup hsock
      rw [hpending, sessionPackets_cons (by simp), List.cons.injEq] at hopening
      cases hopening.1

/-- A reconnect leaves a session without filters, or none. -/
theorem LinkInv.reconnect (h : LinkInv S L) (hsock : L.sock = .invalid) (ok : Bool) :
    LinkInv [] (L.reconnect ok) := by
  cases ok with
  | false =>
    have hdown := h.session_eq_false (by simp [hsock])
    exact linkInv_of_down [] hdown (by simp [Link.reconnect, hsock])
  | true => exact ⟨fun hup => (nomatch hup), fun _ _ => rfl⟩

/-- The filters of the session after an event. -/
def LinkEvent.filters (S : List CStr) : LinkEvent κ → List CStr
  | .reconnect _ => []
  | _ => S

section Step

variable [Tomcrypt κ] [UserTable τ κ] {J : Jansson}

/-- What a step does to the session. -/
theorem LinkInv.step (h : LinkInv S L) {e : LinkEvent κ} {u : Unit}
    (hstep : L.step J e = some (u, L')) : LinkInv (e.filters S) L' := by
  cases moved_of_linkStep hstep with
  | written packet packets hsock hout =>
    refine h.congr rfl rfl rfl ?_
    simp [Link.pending, hout]
  | lost packet packets hsock hout =>
    exact linkInv_of_down S (h.session_eq_false (by simp [hsock])) (by simp [hsock])
  | processed packet packets hsock hwire => exact h.receive hsock hwire
  | closed e he =>
    rcases he with rfl | rfl <;> exact linkInv_of_down S rfl (by simp)
  | failed hsock => exact linkInv_of_down S (h.session_eq_false (by simp [hsock])) (by simp)
  | reconnected ok hsock => exact h.reconnect hsock ok
  | sent =>
    refine h.congr rfl rfl rfl ?_
    simp [Link.pending, Link.packetQueue]
  | called op o q hq queued hqueued =>
    refine h.congr rfl rfl rfl ?_
    simp [Link.pending, hqueued]

/-- The filters of the session after a run. -/
theorem LinkInv.run {events : List (LinkEvent κ)} : ∀ {S : List CStr} {L L' : Link τ κ}
    {outs : List Unit}, LinkInv S L → run (Link.step J) L events = some (outs, L') →
      LinkInv (events.foldl LinkEvent.filters S) L' := by
  induction events with
  | nil =>
    intro S L L' outs h hrun
    cases hrun
    exact h
  | cons e events ih =>
    intro S L L' outs h hrun
    obtain ⟨u, M, rest, hstep, hrest, -⟩ := run_cons_eq_some.mp hrun
    exact ih (h.step hstep) hrest

omit [Tomcrypt κ] [UserTable τ κ] in
/-- A reconnect clears the filters, and nothing brings them back. -/
theorem foldl_filters (events : List (LinkEvent κ)) : ∀ S : List CStr,
    ((∀ ok, .reconnect ok ∉ events) → events.foldl LinkEvent.filters S = S) ∧
      (∀ ok, .reconnect ok ∈ events → events.foldl LinkEvent.filters S = []) := by
  have hnil : ∀ events : List (LinkEvent κ), events.foldl LinkEvent.filters [] = [] := by
    intro events
    induction events with
    | nil => rfl
    | cons e events ih => cases e <;> exact ih
  induction events with
  | nil => exact fun S => ⟨fun _ => rfl, fun ok h => nomatch h⟩
  | cons e events ih =>
    intro S
    rw [List.foldl_cons]
    cases e with
    | reconnect ok =>
      rw [LinkEvent.filters, hnil]
      exact ⟨fun h => absurd List.mem_cons_self (h ok), fun _ _ => rfl⟩
    | _ =>
      obtain ⟨hkeep, hclear⟩ := ih S
      refine ⟨fun h => hkeep fun ok hok => h ok (List.mem_cons_of_mem _ hok), fun ok hok => ?_⟩
      exact hclear ok ((List.mem_cons.mp hok).resolve_left (by simp))

/-- The user keeps his name. -/
theorem username_of_linkStep {e : LinkEvent κ} {u : Unit} (hstep : L.step J e = some (u, L')) :
    L'.proc.psn.username.1 = L.proc.psn.username.1 := by
  cases moved_of_linkStep hstep with
  | called op o q hq =>
    have hrename : op.1.rename J = none := by
      obtain ⟨op, hop⟩ := op
      cases op with
      | setUsername | deserializeConfig => cases hop
      | _ => rfl
    rw [(frame_apiStep hq).username_eq, hrename, Option.getD_none]
  | processed packet =>
    cases packet with
    | subscribe sub =>
      rw [Link.receive]
      split <;> rfl
    | _ => rfl
  | reconnected ok => cases ok <;> rfl
  | _ => rfl

end Step

/-! ### When a client is subscribed -/

/-- `psn_connect` queues the subscription: its filter is valid, and there is memory. -/
def Queued (alloc : CStr → Bool) (sub : CStr) : Prop :=
  topicWildcardPosCheck sub = .success ∧ alloc sub = true

instance (alloc : CStr → Bool) (sub : CStr) : Decidable (Queued alloc sub) :=
  inferInstanceAs (Decidable (_ ∧ _))

/-- The subscriptions that `psn_connect` queues. -/
def queuedSubs (alloc : CStr → Bool) (username : CStr) : List CStr :=
  [usersSub username, chatSub username].filter fun sub => Queued alloc sub

theorem subscribe_eq (hsock : L.sock = .connected) (alloc : CStr → Bool) (sub : CStr) :
    L.subscribe (alloc sub) sub = { L with outPackets :=
      L.outPackets ++ ([sub].filter fun sub => Queued alloc sub).map .subscribe } := by
  rw [Link.subscribe, if_neg (by simp [hsock])]
  by_cases hcheck : topicWildcardPosCheck sub = .success
  · cases halloc : alloc sub with
    | false => simp [Queued, hcheck, halloc]
    | true => simp [Queued, hcheck, halloc, Link.packetQueue]
  · simp [Queued, hcheck]

/-- Nothing of this changes the process. -/
theorem proc_start (alloc : CStr → Bool) (old : List CStr) (r : Reply τ κ) :
    (Link.start alloc old r).proc = r.proc := by
  have hperform : ∀ (L : Link τ κ) (e : Effect), (L.perform alloc e).proc = L.proc := by
    intro L e
    cases e with
    | connect => rfl
    | subscribe m sub =>
      rw [Link.perform, Link.subscribe]
      repeat' split
      all_goals rfl
    | _ => rfl
  have hfold : ∀ (effects : List Effect) (L : Link τ κ),
      (effects.foldl (Link.perform alloc) L).proc = L.proc := by
    intro effects
    induction effects with
    | nil => exact fun _ => rfl
    | cons e effects ih => exact fun L => (ih _).trans (hperform L e)
  exact hfold r.effects _

/-- After a successful `psn_connect` the client has queued its `CONNECT` and the subscriptions. -/
theorem linkInv_start {p : Proc τ κ} {io : ConnectIo} {r : Reply τ κ}
    (h : psnConnect p io = some r) (hr : r.err = .success) (alloc : CStr → Bool)
    (old : List CStr) :
    LinkInv (queuedSubs alloc p.psn.username.1) (Link.start alloc old r) := by
  obtain ⟨-, m, -, -, ⟨-, herr, -⟩ | ⟨-, -, herr, -⟩ | ⟨-, -, -, -, heffects⟩⟩ :=
    psnConnect_eq_some h
  · exact absurd (herr.symm.trans hr) (by simp)
  · exact absurd (herr.symm.trans hr) (by simp)
  have hstart : Link.start alloc old r = ⟨r.proc, .connect cleanSession ::
      (queuedSubs alloc p.psn.username.1).map .subscribe, .connected, [], false, old⟩ := by
    simp only [Link.start, heffects, openingEffects, subscribingEffects, List.cons_append,
      List.nil_append, List.foldl_cons, List.foldl_nil, Link.perform]
    rw [subscribe_eq rfl alloc (usersSub p.psn.username.1),
      subscribe_eq rfl alloc (chatSub p.psn.username.1)]
    simp [Link.reconnect, Link.packetQueue, queuedSubs, ← List.map_append,
      ← List.filter_append]
  rw [hstart]
  refine ⟨fun hup => (nomatch hup), fun _ _ => ?_⟩
  rw [Link.pending, List.nil_append, sessionPackets_cons (by simp), sessionPackets_map_subscribe]

/-- The broker holds both subscriptions of the user. -/
def Link.Served (L : Link τ κ) : Prop :=
  usersSub L.proc.psn.username.1 ∈ L.subs ∧ chatSub L.proc.psn.username.1 ∈ L.subs

/-- The broker sends the client what is published on the topic, and the library passes it to
`psn_message_callback`. -/
def Link.Delivers (L : Link τ κ) (topic : CStr) : Prop :=
  ∃ sub ∈ L.subs, topicMatchesSub sub topic = true

/-- Every friend request and every chat message to the user is delivered. -/
def Link.Reached (L : Link τ κ) : Prop :=
  ∀ source, L.Delivers (frequestTopic L.proc.psn.username.1 source) ∧
    (slash ∉ source → L.Delivers (chatTopic source L.proc.psn.username.1))

/-- The subscriptions of a user are enough to reach him. -/
theorem Link.Served.reached (h : L.Served)
    (hfilter : topicWildcardPosCheck (usersSub L.proc.psn.username.1) = .success) : L.Reached := by
  have hhash := hash_not_mem_levels hfilter
  exact fun source => ⟨⟨_, h.1, usersSub_matches hhash source⟩,
    fun hsource => ⟨_, h.2, chatSub_matches hhash hsource⟩⟩

/-- When all packets are processed, the broker holds the filters of the session. -/
theorem LinkInv.subs_eq (h : LinkInv S L) (hup : L.session = true) (hdrained : L.pending = []) :
    L.subs = S := by
  obtain ⟨-, rest, hrest, hsubs⟩ := h.established hup
  rw [hdrained] at hrest
  have hnil : rest = [] := List.map_eq_nil_iff.mp hrest.symm
  rw [← hsubs, hnil, List.append_nil]

theorem queued_of_mem {alloc : CStr → Bool} {username sub : CStr}
    (h : sub ∈ queuedSubs alloc username) : Queued alloc sub := by
  simpa using (List.mem_filter.mp h).2

variable [Tomcrypt κ] [UserTable τ κ]

/-- The user keeps his name in a run. -/
theorem username_of_run {J : Jansson} {events : List (LinkEvent κ)} {outs : List Unit}
    (hrun : run (Link.step J) L events = some (outs, L')) :
    L'.proc.psn.username.1 = L.proc.psn.username.1 := by
  refine invariant_of_run (Link.step J)
    (I := fun M => M.proc.psn.username.1 = L.proc.psn.username.1) (P := fun _ => True)
    ?_ rfl (fun _ _ => trivial) hrun
  intro M e u M' hM _ hstep
  exact (username_of_linkStep hstep).trans hM

/-- **Subscriptions and reconnects.** After a successful `psn_connect`, whatever is lost and
reconnected and whatever the program calls, when the session is established and all packets are
processed, the broker holds both subscriptions, and friend requests and chat messages get through,
exactly if both subscriptions were queued and the library has not connected again. After that,
nothing gets through. -/
theorem served_iff (J : Jansson) {p : Proc τ κ} {io : ConnectIo} {r : Reply τ κ}
    (h : psnConnect p io = some r) (hr : r.err = .success) (alloc : CStr → Bool)
    (old : List CStr) {events : List (LinkEvent κ)} {outs : List Unit} {L : Link τ κ}
    (hrun : run (Link.step J) (Link.start alloc old r) events = some (outs, L))
    (hup : L.session = true) (hdrained : L.pending = []) :
    (L.Served ∧ L.Reached ↔
      Queued alloc (usersSub p.psn.username.1) ∧ Queued alloc (chatSub p.psn.username.1) ∧
        ∀ ok, .reconnect ok ∉ events) ∧
    ((∃ ok, .reconnect ok ∈ events) → ∀ topic, ¬L.Delivers topic) := by
  have hname : L.proc.psn.username.1 = p.psn.username.1 := by
    obtain ⟨-, m, -, hpsn, -⟩ := psnConnect_eq_some h
    rw [username_of_run hrun, proc_start, hpsn]
  have hsubs := ((linkInv_start h hr alloc old).run hrun).subs_eq hup hdrained
  obtain ⟨hkeep, hclear⟩ := foldl_filters events (queuedSubs alloc p.psn.username.1)
  have hlost : (∃ ok, .reconnect ok ∈ events) → L.subs = [] := by
    rintro ⟨ok, hok⟩
    rw [hsubs, hclear ok hok]
  refine ⟨⟨?_, ?_⟩, fun hrec topic => ?_⟩
  · rintro ⟨⟨husers, hchat⟩, -⟩
    have hno : ∀ ok, .reconnect ok ∉ events := by
      intro ok hok
      rw [hlost ⟨ok, hok⟩] at husers
      cases husers
    rw [hsubs, hkeep hno, hname] at husers hchat
    exact ⟨queued_of_mem husers, queued_of_mem hchat, hno⟩
  · rintro ⟨husers, hchat, hno⟩
    have hserved : L.Served := by
      rw [Link.Served, hsubs, hkeep hno, hname]
      exact ⟨List.mem_filter.mpr ⟨by simp, by simpa using husers⟩,
        List.mem_filter.mpr ⟨by simp, by simpa using hchat⟩⟩
    exact ⟨hserved, hserved.reached (by rw [hname]; exact husers.1)⟩
  · rintro ⟨sub, hsub, -⟩
    rw [hlost hrec] at hsub
    cases hsub

/-- Write and process a `CONNECT` and two subscriptions. -/
def settleEvents : List (LinkEvent DerKey) :=
  [.write, .write, .write, .process, .process, .process]

/-- Before the connection is lost, alice is reached. -/
theorem served_iff_settled :
    ∃ r outs L, psnConnect offlineProc ⟨some 2, .success, .success⟩ = some r ∧
      run (Link.step (asciiJansson .null)) (Link.start (fun _ => true) [] r) settleEvents =
        some (outs, L) ∧ L.Served ∧ L.Reached := by
  obtain ⟨r, outs, L, hconnect, herr, hrun, hup, hdrained⟩ : ∃ r outs L,
      psnConnect offlineProc ⟨some 2, .success, .success⟩ = some r ∧ r.err = .success ∧
      run (Link.step (asciiJansson .null)) (Link.start (fun _ => true) [] r) settleEvents =
        some (outs, L) ∧ L.session = true ∧ L.pending = [] :=
    ⟨_, _, _, rfl, rfl, rfl, rfl, rfl⟩
  obtain ⟨hiff, -⟩ :=
    served_iff (asciiJansson .null) hconnect herr (fun _ => true) [] hrun hup hdrained
  refine ⟨r, outs, L, hconnect, hrun, hiff.mpr ⟨⟨topicWildcardPosCheck_usersSub alice, rfl⟩,
    ⟨topicWildcardPosCheck_chatSub alice, rfl⟩, fun ok hok => ?_⟩⟩
  simp [settleEvents] at hok

/-- After a reconnect she is connected and has no subscription. -/
theorem not_served_reconnect :
    ∃ r outs L, psnConnect offlineProc ⟨some 2, .success, .success⟩ = some r ∧
      r.err = .success ∧
      run (Link.step (asciiJansson .null)) (Link.start (fun _ => true) [] r)
        (settleEvents ++ [.cut, .loopFailed, .reconnect true, .write, .process]) =
          some (outs, L) ∧
      L.session = true ∧ L.pending = [] ∧ ¬L.Served := by
  refine ⟨_, _, _, rfl, rfl, rfl, rfl, rfl, ?_⟩
  rintro ⟨husers, -⟩
  cases husers

end Psn

import Psn.Connection
import Psn.Lib.Handles

/-!
# The clients of the library

libmosquitto keeps a client behind every handle that it gave out and that was not destroyed. The
effects of a call of the interface are performed on these clients, and a call that uses a handle
without a client has no result. What is recorded of a client is for whom it was created and
authenticated and what it subscribed to.

`psn_connect` decides between creating a client and reusing the old one. It asks whether the
handle is NULL, and takes the wrong branch: a NULL handle is reused, and where there is a handle a
new client is made and the old one is forgotten.

The name of the user is kept twice, in the client since it was made and in the instance, where the
setters change it at any time.

## Main results

* `keepsOneClient_iff`: when an instance has one live client
* `identity_iff`: when a session keeps the name it was opened with
-/

namespace Psn

open KeyedChain PartialMachine

/-- A client of the library: the names it was created and authenticated with, and its
subscriptions. -/
structure Client where
  /-- The client id. -/
  id : CStr
  /-- The name of the login. -/
  username : CStr
  /-- The filters that `mosquitto_subscribe` was called with, in order. -/
  subs : List CStr
  deriving DecidableEq, Repr

/-- The clients that exist. -/
abbrev Clients := Handles Mosq Client

/-- What an effect does to the clients. A call with a handle that has no client is undefined. -/
def Clients.perform (cs : Clients) : Effect → Option Clients
  | .new id mosq => cs.create mosq ⟨id, [], []⟩
  | .usernamePwSet mosq username _ => cs.modify mosq fun c => { c with username := username }
  | .subscribe mosq sub => cs.modify mosq fun c => { c with subs := c.subs ++ [sub] }
  | .destroy mosq => cs.destroy mosq
  | .publish mosq _ _ | .messageCallbackSet mosq | .connect mosq _ _ | .loopStart mosq
  | .disconnect mosq | .loopStop mosq => cs.modify mosq id
  | .print _ => some cs

/-- Perform the effects of a call in order. -/
def Clients.performAll (cs : Clients) (effects : List Effect) : Option Clients :=
  effects.foldlM Clients.perform cs

@[simp] theorem performAll_nil (cs : Clients) : cs.performAll [] = some cs := rfl

theorem performAll_cons (cs : Clients) (e : Effect) (effects : List Effect) :
    cs.performAll (e :: effects) = (cs.perform e).bind fun cs => cs.performAll effects := by
  rw [Clients.performAll, List.foldlM_cons]
  rfl

/-- Notices are printed and messages are published, and nothing else happens. -/
def Traffic (effects : List Effect) : Prop :=
  ∀ e ∈ effects, (∃ notice, e = .print notice) ∨
    ∃ mosq topic payload, e = .publish mosq topic payload

/-- Traffic leaves the clients as they are, and needs those that it goes through. -/
theorem performAll_traffic {effects : List Effect} : ∀ {cs cs' : Clients},
    Traffic effects → cs.performAll effects = some cs' →
    cs' = cs ∧ ∀ mosq topic payload, .publish mosq topic payload ∈ effects →
      (cs mosq).isSome := by
  induction effects with
  | nil => exact fun _ h => ⟨(Option.some_inj.mp h).symm, fun _ _ _ he => nomatch he⟩
  | cons e effects ih =>
    intro cs cs' htraffic h
    rw [performAll_cons] at h
    obtain ⟨cs₁, hcs₁, h⟩ := Option.bind_eq_some_iff.mp h
    obtain ⟨hsame, hlive⟩ := ih (fun e' he' => htraffic e' (List.mem_cons_of_mem e he')) h
    rcases htraffic e List.mem_cons_self with ⟨notice, rfl⟩ | ⟨m, t, p, rfl⟩
    · obtain rfl := Option.some_inj.mp hcs₁
      refine ⟨hsame, fun mosq topic payload he => ?_⟩
      exact hlive mosq topic payload (List.mem_of_ne_of_mem (by simp) he)
    · obtain ⟨hm, rfl⟩ := Handles.modify_id_eq_some.mp hcs₁
      refine ⟨hsame, fun mosq topic payload he => ?_⟩
      rcases List.mem_cons.mp he with he | he
      · rw [(Effect.publish.inj he).1]
        exact hm
      · exact hlive mosq topic payload he

variable {τ κ : Type}

/-- The client that `psn_connect` leaves behind. -/
theorem performAll_psnConnect {p : Proc τ κ} {io : ConnectIo} {r : Reply τ κ} {cs cs' : Clients}
    (h : psnConnect p io = some r) (hcs : cs.performAll r.effects = some cs') :
    ∃ m subs, r.proc.psn.mosq = some m ∧ cs m = none ∧
      cs' = Function.update cs m (some ⟨p.psn.username.1, p.psn.username.1, subs⟩) ∧
      ∀ sub ∈ subs, sub = usersSub p.psn.username.1 ∨ sub = chatSub p.psn.username.1 := by
  obtain ⟨-, m, -, hpsn, houtcome⟩ := psnConnect_eq_some h
  have hmosq : r.proc.psn.mosq = some m := by rw [hpsn]
  have heffects : r.effects = openingEffects p.psn m ∨
      r.effects = openingEffects p.psn m ++ subscribingEffects p.psn m := by
    rcases houtcome with ⟨-, -, -, h⟩ | ⟨-, -, -, -, h⟩ | ⟨-, -, -, -, h⟩
    · exact Or.inl h
    · exact Or.inr h
    · exact Or.inr h
  have hfresh : cs m = none := by
    have hnew : ∃ cs₁, cs.create m ⟨p.psn.username.1, [], []⟩ = some cs₁ := by
      rcases heffects with heffects | heffects <;> rw [heffects] at hcs <;>
        obtain ⟨cs₁, h₁, -⟩ := Option.bind_eq_some_iff.mp ((performAll_cons ..).symm.trans hcs) <;>
        exact ⟨cs₁, h₁⟩
    obtain ⟨cs₁, h₁⟩ := hnew
    exact (Handles.create_eq_some.mp h₁).1
  have hcreate : ∀ c, cs.create m c = some (Function.update cs m (some c)) := fun c =>
    Handles.create_eq_some.mpr ⟨hfresh, rfl⟩
  rcases heffects with heffects | heffects
  · refine ⟨m, [], hmosq, hfresh, ?_, by simp⟩
    rw [heffects] at hcs
    simpa [openingEffects, performAll_cons, Clients.perform, hcreate] using hcs.symm
  · refine ⟨m, [usersSub p.psn.username.1, chatSub p.psn.username.1], hmosq, hfresh, ?_,
      by simp⟩
    rw [heffects] at hcs
    simpa [openingEffects, subscribingEffects, performAll_cons, Clients.perform, hcreate] using
      hcs.symm

section TakeDown

variable [UserTable τ κ] {p : Proc τ κ} {cs cs' : Clients}

omit [UserTable τ κ] in
/-- `psn_disconnect` uses the client, if it does anything, and leaves it there. -/
theorem performAll_psnDisconnect (h : cs.performAll (psnDisconnect p).effects = some cs') :
    cs' = cs := by
  rw [psnDisconnect] at h
  cases hmosq : p.psn.mosq with
  | none =>
    rw [hmosq] at h
    exact (Option.some_inj.mp h).symm
  | some m =>
    rw [hmosq] at h
    cases hconn : p.connected with
    | false =>
      rw [hconn] at h
      exact (Option.some_inj.mp h).symm
    | true =>
      rw [hconn] at h
      obtain ⟨cs₁, h₁, h⟩ := Option.bind_eq_some_iff.mp ((performAll_cons ..).symm.trans h)
      obtain ⟨cs₂, h₂, h⟩ := Option.bind_eq_some_iff.mp ((performAll_cons ..).symm.trans h)
      rw [← Option.some_inj.mp h, (Handles.modify_id_eq_some.mp h₂).2,
        (Handles.modify_id_eq_some.mp h₁).2]

/-- `psn_free` destroys the client that the instance points to. -/
theorem performAll_psnFree {r : Reply τ κ} (hr : psnFree p = some r)
    (h : cs.performAll r.effects = some cs') :
    r.proc = p ∧ ∀ m, cs' m = if p.psn.mosq = some m then none else cs m := by
  rw [psnFree] at hr
  obtain ⟨-, hr⟩ := Option.ite_none_right_eq_some.mp hr
  cases hr
  refine ⟨rfl, fun m => ?_⟩
  cases hmosq : p.psn.mosq with
  | none =>
    rw [hmosq] at h
    rw [← Option.some_inj.mp h, if_neg (by simp)]
  | some old =>
    rw [hmosq] at h
    obtain ⟨cs₁, h₁, h⟩ := Option.bind_eq_some_iff.mp ((performAll_cons ..).symm.trans h)
    rw [← Option.some_inj.mp h, (Handles.destroy_eq_some.mp h₁).2, Function.update_apply]
    simp only [Option.some.injEq, eq_comm]

end TakeDown

/-! ### A process and its clients -/

/-- A process together with the clients of the library. -/
structure Host (τ κ : Type) where
  /-- The process. -/
  proc : Proc τ κ
  /-- The clients. -/
  clients : Clients

/-- A step of the process, the effects of which are performed. -/
def Host.step {α : Type} (step : Proc τ κ → α → Option (Output × Proc τ κ)) (h : Host τ κ)
    (a : α) : Option (Output × Host τ κ) :=
  (step h.proc a).bind fun r =>
    (h.clients.performAll r.1.effects).map fun cs => (r.1, ⟨r.2, cs⟩)

theorem hostStep_eq_some {α : Type} {step : Proc τ κ → α → Option (Output × Proc τ κ)}
    {h h' : Host τ κ} {a : α} {o : Output} :
    h.step step a = some (o, h') ↔
      step h.proc a = some (o, h'.proc) ∧ h.clients.performAll o.effects = some h'.clients := by
  rw [Host.step, Option.bind_eq_some_iff]
  constructor
  · rintro ⟨r, hr, hmap⟩
    obtain ⟨cs, hcs, heq⟩ := Option.map_eq_some_iff.mp hmap
    cases heq
    exact ⟨hr, hcs⟩
  · rintro ⟨hstep, hcs⟩
    exact ⟨_, hstep, by rw [hcs]; rfl⟩

/-- After `psn_init` there is no client yet. -/
def Host.start [UserTable τ κ] (p : Proc τ κ) : Host τ κ := ⟨p.init, Handles.empty⟩

/-! ### One live client -/

/-- The library function that `psn_connect` asks for a client, and the client that it hands over
to be reused. -/
inductive ConnectEntry
  | new
  | reinitialise (mosq : Option Mosq)
  deriving DecidableEq, Repr

/-- The test that `psn_connect` begins with: `psn->mosq == NULL`. -/
def connectEntry (psn : PsnT τ κ) : ConnectEntry :=
  if psn.mosq = none then .reinitialise psn.mosq else .new

/-- The handle that `psn_connect` works with from then on. The result of `mosquitto_reinitialise`
is not looked at. -/
def connectMosq (psn : PsnT τ κ) (io : ConnectIo) : Option Mosq :=
  match connectEntry psn with
  | .new => io.new
  | .reinitialise mosq => mosq

/-- `psn_connect` goes on exactly if this handle is not NULL. -/
theorem connectClient_eq (psn : PsnT τ κ) (io : ConnectIo) :
    connectClient psn io = (connectMosq psn io).map fun m => ({ psn with mosq := some m }, m) := by
  rw [connectClient, connectMosq, connectEntry]
  cases hmosq : psn.mosq with
  | none => simp
  | some m => cases io.new <;> simp

/-- What `psn_connect` owes to the library: it creates a client if there is none and reuses the
one there is, and the handle that it works with is NULL only if the creation failed, and has a
client otherwise. -/
structure ConnectSound (h : Host τ κ) (io : ConnectIo) : Prop where
  creates : (∀ m, h.clients m = none) → connectEntry h.proc.psn = .new
  reuses : ∀ m, (h.clients m).isSome → connectEntry h.proc.psn = .reinitialise (some m)
  null : connectMosq h.proc.psn io = none → connectEntry h.proc.psn = .new ∧ io.new = none
  live : ∀ m, connectMosq h.proc.psn io = some m →
    (h.clients m).isSome ∨ (connectEntry h.proc.psn = .new ∧ io.new = some m)

/-- Every client that exists is the one the instance points to. -/
def OneClient (h : Host τ κ) : Prop := ∀ m, (h.clients m).isSome → h.proc.psn.mosq = some m

/-- There is a handle, and no client. -/
def ConnectsAfresh (h : Host τ κ) (op : ConnOp) : Prop :=
  ∀ io, op = .connect io → h.proc.psn.mosq ≠ none ∧ ∀ m, h.clients m = none

/-- `psn_connect` is sound only for a handle that is not NULL and has no client any more. -/
theorem connectSound_iff {h : Host τ κ} {io : ConnectIo} :
    ConnectSound h io ↔ h.proc.psn.mosq ≠ none ∧ ∀ m, h.clients m = none := by
  constructor
  · intro hsound
    have hmosq : h.proc.psn.mosq ≠ none := by
      intro hnull
      have hentry : connectEntry h.proc.psn = .reinitialise none := by
        rw [connectEntry, if_pos hnull, hnull]
      have hnone : ∀ m, h.clients m = none := by
        intro m
        by_contra hm
        have hreuse := hsound.reuses m (Option.isSome_iff_ne_none.mpr hm)
        rw [hentry] at hreuse
        cases hreuse
      rw [hsound.creates hnone] at hentry
      cases hentry
    refine ⟨hmosq, fun m => ?_⟩
    by_contra hm
    have hreuse := hsound.reuses m (Option.isSome_iff_ne_none.mpr hm)
    rw [connectEntry, if_neg hmosq] at hreuse
    cases hreuse
  · rintro ⟨hmosq, hnone⟩
    have hentry : connectEntry h.proc.psn = .new := if_neg hmosq
    have hhandle : connectMosq h.proc.psn io = io.new := by rw [connectMosq, hentry]
    refine ⟨fun _ => hentry, fun m hm => ?_, fun hnull => ⟨hentry, hhandle ▸ hnull⟩,
      fun m hm => Or.inr ⟨hentry, hhandle ▸ hm⟩⟩
    rw [hnone m] at hm
    cases hm

section OneClient

variable [UserTable τ κ]

/-- Where one client at most exists, and `psn_connect` finds none, this remains so. -/
theorem OneClient.step {h h' : Host τ κ} {op : ConnOp} {o : Output} (hone : OneClient h)
    (hfresh : ConnectsAfresh h op) (hstep : h.step Proc.connStep op = some (o, h')) :
    OneClient h' := by
  obtain ⟨hproc, hclients⟩ := hostStep_eq_some.mp hstep
  intro m' hm'
  cases op with
  | connect io =>
    obtain ⟨r, hr, rfl, hq⟩ := exists_reply hproc
    obtain ⟨m, subs, hmosq, -, hcs, -⟩ := performAll_psnConnect hr hclients
    rw [← hq, hmosq]
    by_contra hne
    rw [hcs, Function.update_of_ne fun heq => hne (by rw [heq]), (hfresh io rfl).2] at hm'
    cases hm'
  | disconnect =>
    obtain ⟨hpsn, -⟩ := connStep_disconnect hproc
    obtain ⟨rfl, -⟩ := Prod.mk.inj (Option.some_inj.mp hproc)
    rw [performAll_psnDisconnect hclients] at hm'
    rw [hpsn]
    exact hone m' hm'
  | free =>
    obtain ⟨r, hr, rfl, hq⟩ := exists_reply hproc
    obtain ⟨hsame, hcs⟩ := performAll_psnFree hr hclients
    rw [hcs] at hm'
    rw [← hq, hsame]
    split at hm'
    · assumption
    · exact hone m' hm'

/-- The contract of `psn_connect` and of the whole instance, over a run. -/
def KeepsOneClient (h : Host τ κ) (ops : List ConnOp) : Prop :=
  Along (Host.step Proc.connStep) (fun h op => ∀ io, op = .connect io → ConnectSound h io) h ops ∧
    Always (Host.step Proc.connStep) OneClient h ops

/-- The contract of every `psn_connect` of a run decides whether the instance keeps its. -/
theorem keepsOneClient_iff_along (p : Proc τ κ) (ops : List ConnOp) :
    KeepsOneClient (Host.start p) ops ↔
      Along (Host.step Proc.connStep) ConnectsAfresh (Host.start p) ops := by
  constructor
  · rintro ⟨hsound, -⟩
    exact hsound.mono fun h op hop io hio => connectSound_iff.mp (hop io hio)
  · intro hfresh
    refine ⟨hfresh.mono fun h op hop io hio => connectSound_iff.mpr (hop io hio), ?_⟩
    refine Along.always (fun hone hop hstep => hone.step hop hstep) (fun m hm => ?_) hfresh
    cases hm

/-- An instance whose handle is NULL, without users and clients. -/
structure Unconnected (h : Host τ κ) : Prop where
  mosq : h.proc.psn.mosq = none
  friends : items h.proc.psn.friends = []
  incoming : items h.proc.psn.friendRequestsIncoming = []
  outgoing : items h.proc.psn.friendRequestsOutgoing = []

/-- To disconnect or to free such an instance is defined and changes nothing. -/
theorem Unconnected.step {h : Host τ κ} {op : ConnOp} (hun : Unconnected h)
    (hop : ∀ io, op ≠ .connect io) : ∃ o, h.step Proc.connStep op = some (o, h) := by
  cases op with
  | connect io => exact absurd rfl (hop io)
  | disconnect =>
    refine ⟨⟨some .fail, []⟩, hostStep_eq_some.mpr ⟨?_, rfl⟩⟩
    rw [Proc.connStep, psnDisconnect, hun.mosq]
    rfl
  | free =>
    refine ⟨⟨some .success, []⟩, hostStep_eq_some.mpr ⟨?_, rfl⟩⟩
    rw [Proc.connStep, psnFree, if_pos ⟨hun.friends, hun.incoming, hun.outgoing⟩, hun.mosq]
    rfl

/-- From there, `psn_connect` never finds what it needs. -/
theorem Unconnected.along_iff {h : Host τ κ} (hun : Unconnected h) {ops : List ConnOp} :
    Along (Host.step Proc.connStep) ConnectsAfresh h ops ↔ ∀ io, .connect io ∉ ops := by
  induction ops with
  | nil => exact iff_of_true trivial fun io hio => nomatch hio
  | cons op ops ih =>
    constructor
    · rintro ⟨hfresh, hnext⟩ io hio
      have hop : ∀ io, op ≠ .connect io := fun io hio => (hfresh io hio).1 hun.mosq
      rcases List.mem_cons.mp hio with hio | hio
      · exact hop io hio.symm
      · obtain ⟨o, hstep⟩ := hun.step hop
        exact ih.mp (hnext o h hstep) io hio
    · intro hnot
      have hop : ∀ io, op ≠ .connect io := fun io hio => hnot io (by simp [hio])
      refine ⟨fun io hio => absurd hio (hop io), fun o h' hstep' => ?_⟩
      obtain ⟨o', hstep⟩ := hun.step hop
      rw [hstep, Option.some_inj, Prod.mk.injEq] at hstep'
      rw [← hstep'.2]
      exact ih.mpr fun io hio => hnot io (List.mem_cons_of_mem op hio)

/-- **One live client.** Whatever the calls of libmosquitto return, the instance has one live client
at most, and `psn_connect` gets it in the right way and never works with a NULL handle, over a run
exactly if every `psn_connect` finds a handle that is not NULL and has no client any more. If the
handle is NULL at first, as in a zero-initialised instance, this means that `psn_connect` is never
called. -/
theorem keepsOneClient_iff (p : Proc τ κ) (ops : List ConnOp) :
    (KeepsOneClient (Host.start p) ops ↔
      Along (Host.step Proc.connStep) ConnectsAfresh (Host.start p) ops) ∧
    (p.psn.mosq = none → (KeepsOneClient (Host.start p) ops ↔ ∀ io, .connect io ∉ ops)) := by
  refine ⟨keepsOneClient_iff_along p ops, fun hmosq => ?_⟩
  have hun : Unconnected (Host.start p) := ⟨hmosq, items_empty, items_empty, items_empty⟩
  rw [keepsOneClient_iff_along, hun.along_iff]

/-- A zero-initialised instance, in a process where nothing was connected. -/
def Proc.zeroed : Proc (List (User DerKey)) DerKey where
  connected := false
  psn :=
    { mosq := none
      username := Field.nil 31
      shownName := Field.nil 31
      password := Field.nil 31
      hostname := Field.nil 255
      port := 0
      friends := []
      friendRequestsOutgoing := []
      friendRequestsIncoming := []
      pkKey := Tomcrypt.zero }

/-- To disconnect and free what was never connected does no harm. -/
theorem keepsOneClient_iff_never_connected :
    KeepsOneClient (Host.start Proc.zeroed) [.disconnect, .free] := by
  refine ((keepsOneClient_iff Proc.zeroed [.disconnect, .free]).2 rfl).mpr fun io hio => ?_
  simp at hio

/-- The first `psn_connect` asks for a NULL client to be reused. -/
theorem not_keepsOneClient_first :
    ¬KeepsOneClient (Host.start Proc.zeroed) [.connect ⟨some 1, .success, .success⟩] := by
  rintro ⟨⟨hsound, -⟩, -⟩
  have hentry := (hsound _ rfl).creates fun m => rfl
  cases hentry

end OneClient

/-! ### The name of a session -/

/-- The client that the instance works with. -/
def Host.client (h : Host τ κ) : Option Client := h.proc.psn.mosq.bind h.clients

/-- The client was created, authenticated and subscribed under the name. -/
structure Client.Named (c : Client) (name : CStr) : Prop where
  id : c.id = name
  username : c.username = name
  subs : ∀ sub ∈ c.subs, sub = usersSub name ∨ sub = chatSub name

/-- While the flag is set, the client bears the name of the instance. -/
def Identity (h : Host τ κ) : Prop :=
  h.proc.connected = true → ∀ c, h.client = some c → c.Named h.proc.psn.username.1

section Identity

variable [Tomcrypt κ] [UserTable τ κ] {J : Jansson}

/-- The operation does not change the name of the instance during a session. -/
def KeepsName (J : Jansson) (h : Host τ κ) (op : ApiOp κ) : Prop :=
  (h.step (Proc.apiStep J) op).isSome → h.proc.connected = true → h.client.isSome →
    ∀ name, op.rename J = some name → name = h.proc.psn.username.1

/-- Apart from the calls that connect, disconnect and free, an operation is traffic. -/
theorem traffic_of_apiStep {p q : Proc τ κ} {op : ApiOp κ} {o : Output}
    (h : p.apiStep J op = some (o, q)) (hsession : op.isSession = false) :
    Traffic o.effects := by
  intro e he
  by_cases hlists : ∃ op', op = .lists op'
  · obtain ⟨op', rfl⟩ := hlists
    refine (effect_of_step h he).imp_right ?_
    rintro ⟨mosq, topic, payload, heq, -⟩
    exact ⟨mosq, topic, payload, heq⟩
  by_cases hsend : ∃ target message prng io, op = .sendEncryptedMessage target message prng io
  · obtain ⟨target, message, prng, io, rfl⟩ := hsend
    obtain ⟨r, hr, rfl, -⟩ := exists_reply h
    rcases psnSendEncryptedMessage_eq_some hr with ⟨-, heffects⟩ | ⟨-, encrypted, heffects⟩
    · simp [heffects] at he
    · rw [Reply.result_effects, heffects] at he
      obtain ⟨_, -, rfl⟩ := mem_mosquittoPublish he
      exact Or.inr ⟨_, _, _, rfl⟩
  · exact Or.inl (notices_of_apiStep h hsession (fun op' heq => hlists ⟨op', heq⟩)
      (fun target message prng io heq => hsend ⟨target, message, prng, io, heq⟩) e he)

/-- It changes neither the flag nor the client. -/
theorem frame_of_not_isSession {h h' : Host τ κ} {op : ApiOp κ} {o : Output}
    (hstep : h.step (Proc.apiStep J) op = some (o, h')) (hsession : op.isSession = false) :
    h'.proc.connected = h.proc.connected ∧ h'.client = h.client ∧
      h'.proc.psn.username.1 = (op.rename J).getD h.proc.psn.username.1 := by
  obtain ⟨hproc, hclients⟩ := hostStep_eq_some.mp hstep
  obtain ⟨hconn, hmosq, hname⟩ := frame_apiStep hproc
  have hflag : op.flag h.proc = h.proc.connected ∧ op.handle h.proc = h.proc.psn.mosq := by
    cases op with
    | connect | disconnect | free => cases hsession
    | _ => exact ⟨rfl, rfl⟩
  obtain ⟨hsame, -⟩ := performAll_traffic (traffic_of_apiStep hproc hsession) hclients
  refine ⟨hconn.trans hflag.1, ?_, hname⟩
  rw [Host.client, Host.client, hmosq, hflag.2, hsame]

/-- An operation that sets no name keeps it. -/
theorem keepsName_of_rename {h : Host τ κ} {op : ApiOp κ} (hrename : op.rename J = none) :
    KeepsName J h op := by
  intro _ _ _ name hname
  rw [hrename] at hname
  cases hname

/-- Where the client bears the name of the instance, the condition decides whether it still does
after an operation. -/
theorem keepsName_iff {h : Host τ κ} {op : ApiOp κ} (hs : Identity h) :
    KeepsName J h op ↔
      ∀ o h', h.step (Proc.apiStep J) op = some (o, h') → Identity h' := by
  by_cases hsession : op.isSession = false
  · constructor
    · intro hkeep o h' hstep hconn' c hc
      obtain ⟨hconn, hclient, hname⟩ := frame_of_not_isSession hstep hsession
      rw [hconn] at hconn'
      rw [hclient] at hc
      have hsame : h'.proc.psn.username.1 = h.proc.psn.username.1 := by
        rw [hname]
        cases hrename : op.rename J with
        | none => rfl
        | some name => exact hkeep (by simp [hstep]) hconn' (by simp [hc]) name hrename
      rw [hsame]
      exact hs hconn' c hc
    · intro hnext hdefined hconn hsome name hrename
      obtain ⟨⟨o, h'⟩, hstep⟩ := Option.isSome_iff_exists.mp hdefined
      obtain ⟨c, hc⟩ := Option.isSome_iff_exists.mp hsome
      obtain ⟨hconn', hclient, hname⟩ := frame_of_not_isSession hstep hsession
      have hnamed := hnext o h' hstep (hconn'.trans hconn) c (hclient.trans hc)
      rw [hname, hrename] at hnamed
      exact hnamed.id.symm.trans (hs hconn c hc).id
  cases op with
  | connect io =>
    refine iff_of_true (keepsName_of_rename rfl) fun o h' hstep _ c hc => ?_
    obtain ⟨hproc, hclients⟩ := hostStep_eq_some.mp hstep
    obtain ⟨-, -, hname⟩ := frame_apiStep hproc
    obtain ⟨r, hr, rfl, hq⟩ := exists_reply hproc
    obtain ⟨m, subs, hmosq, -, hcs, hsubs⟩ := performAll_psnConnect hr hclients
    rw [Host.client, ← hq, hmosq, Option.bind_some, hcs, Function.update_self] at hc
    rw [← Option.some_inj.mp hc, hname]
    exact ⟨rfl, rfl, hsubs⟩
  | disconnect =>
    refine iff_of_true (keepsName_of_rename rfl) fun o h' hstep hconn c hc => ?_
    obtain ⟨hconn', hmosq, -⟩ := frame_apiStep (hostStep_eq_some.mp hstep).1
    have hnull : h.proc.psn.mosq = none := by
      by_contra hne
      rw [hconn', ApiOp.flag, if_neg hne] at hconn
      cases hconn
    simp only [Host.client, hmosq, ApiOp.handle, hnull] at hc
    cases hc
  | free =>
    refine iff_of_true (keepsName_of_rename rfl) fun o h' hstep _ c hc => ?_
    obtain ⟨hproc, hclients⟩ := hostStep_eq_some.mp hstep
    obtain ⟨r, hr, rfl, hq⟩ := exists_reply hproc
    obtain ⟨hsame, hcs⟩ := performAll_psnFree hr hclients
    obtain ⟨m, hmosq, hm⟩ := Option.bind_eq_some_iff.mp hc
    rw [← hq, hsame] at hmosq
    rw [hcs, if_pos hmosq] at hm
    cases hm
  | _ => exact absurd rfl hsession

/-- While the flag is set, what is published goes through the client of the session and has his
name as its source, and what is displayed was sent to this name. -/
def SpeaksAs (J : Jansson) (h : Host τ κ) (op : ApiOp κ) : Prop :=
  h.proc.connected = true → ∀ o h', h.step (Proc.apiStep J) op = some (o, h') →
    (∀ mosq topic payload, .publish mosq topic payload ∈ o.effects →
      ∃ c t, h.proc.psn.mosq = some mosq ∧ h.clients mosq = some c ∧
        (topic = frequestTopic t c.username ∨ topic = chatTopic c.username t)) ∧
    ∀ m sender text, op = .lists (.receive m) → .print (.message sender text) ∈ o.effects →
      ∀ c, h.client = some c →
        subTopicTokenise m.topic = [some (lit "chat"), some sender, some c.username]

/-- A client that bears the name of the instance speaks as itself. -/
theorem Identity.speaksAs {h : Host τ κ} (hs : Identity h) (op : ApiOp κ) : SpeaksAs J h op := by
  intro hconn o h' hstep
  obtain ⟨hproc, hclients⟩ := hostStep_eq_some.mp hstep
  constructor
  · intro mosq topic payload he
    obtain ⟨hmosq, t, ht⟩ := topic_of_publish_api hproc he
    have hsession : op.isSession = false := by
      by_contra hsession
      have hsilent : Silent o.effects := by
        refine silent_of_apiStep hproc (fun op' heq => ?_) fun target message prng io heq => ?_
        · exact hsession (by rw [heq]; rfl)
        · exact hsession (by rw [heq]; rfl)
      exact hsilent.publish_not_mem mosq topic payload he
    obtain ⟨-, hlive⟩ := performAll_traffic (traffic_of_apiStep hproc hsession) hclients
    obtain ⟨c, hc⟩ := Option.isSome_iff_exists.mp (hlive mosq topic payload he)
    have hclient : h.client = some c := by rw [Host.client, hmosq, Option.bind_some, hc]
    refine ⟨c, t, hmosq, hc, ?_⟩
    rw [(hs hconn c hclient).username]
    exact ht
  · rintro m sender text rfl hprint c hc
    rw [(hs hconn c hc).username]
    exact (displayed_of_print hproc hprint).2.1

/-- **The name of a session.** In every run from `psn_init`, with any outcome of the calls of
libmosquitto, the client bears the name of the instance while the flag is set, in every state of
the run, exactly if no operation changes this name while the flag is set and the client lives.
Then the messages of a session name the authenticated user as their source, and the messages that
are displayed were sent to him. -/
theorem identity_iff (J : Jansson) (p : Proc τ κ) (hp : p.connected = false)
    (ops : List (ApiOp κ)) :
    (Always (Host.step (Proc.apiStep J)) Identity (Host.start p) ops ↔
      Along (Host.step (Proc.apiStep J)) (KeepsName J) (Host.start p) ops) ∧
    (Along (Host.step (Proc.apiStep J)) (KeepsName J) (Host.start p) ops →
      Along (Host.step (Proc.apiStep J)) (SpeaksAs J) (Host.start p) ops) := by
  have hstart : Identity (Host.start p) := by
    intro hconn
    rw [Host.start, Proc.init, hp] at hconn
    cases hconn
  have hiff : Always (Host.step (Proc.apiStep J)) Identity (Host.start p) ops ↔
      Along (Host.step (Proc.apiStep J)) (KeepsName J) (Host.start p) ops :=
    always_iff_along (J := fun _ => True) (fun _ _ => trivial) (fun _ hs => keepsName_iff hs)
      trivial hstart
  refine ⟨hiff, fun hkeep => ?_⟩
  exact (hiff.mpr hkeep).along.mono fun h op hs => hs.speaksAs op

end Identity

/-- Open a session, close it, and open one under another name. -/
def reopenAsBob : List (ApiOp DerKey) :=
  [.connect ⟨some 2, .success, .success⟩, .disconnect, .setUsername bob.bytes [],
    .connect ⟨some 3, .success, .success⟩]

/-- A name that is set between two sessions does no harm. -/
theorem identity_iff_reopened :
    Always (Host.step (Proc.apiStep (asciiJansson .null))) Identity (Host.start offlineProc)
        reopenAsBob ∧
      Along (Host.step (Proc.apiStep (asciiJansson .null))) (SpeaksAs (asciiJansson .null))
        (Host.start offlineProc) reopenAsBob := by
  obtain ⟨hiff, hspeaks⟩ := identity_iff (asciiJansson .null) offlineProc rfl reopenAsBob
  have hkeep : Along (Host.step (Proc.apiStep (asciiJansson .null)))
      (KeepsName (asciiJansson .null)) (Host.start offlineProc) reopenAsBob := by
    refine ⟨fun _ hconn => (nomatch hconn), fun o h hstep => ?_⟩
    cases hstep
    refine ⟨fun _ _ _ _ hrename => (nomatch hrename), fun o h hstep => ?_⟩
    cases hstep
    refine ⟨fun _ hconn => (nomatch hconn), fun o h hstep => ?_⟩
    cases hstep
    exact ⟨fun _ _ _ _ hrename => (nomatch hrename), fun o h _ => trivial⟩
  exact ⟨hiff.mpr hkeep, hspeaks hkeep⟩

/-- In a session of alice the name is set to bob. -/
theorem not_identity_set_username :
    ¬Always (Host.step (Proc.apiStep (asciiJansson .null))) Identity (Host.start offlineProc)
      [.connect ⟨some 2, .success, .success⟩, .setUsername bob.bytes []] := by
  intro h
  obtain ⟨outs, t, c, hrun, hconn, hc, hid, hname⟩ : ∃ outs t c,
      run (Host.step (Proc.apiStep (asciiJansson .null))) (Host.start offlineProc)
        [.connect ⟨some 2, .success, .success⟩, .setUsername bob.bytes []] = some (outs, t) ∧
      t.proc.connected = true ∧ t.client = some c ∧ c.id = alice.bytes ∧
      t.proc.psn.username.1 = bob.bytes :=
    ⟨_, _, _, rfl, rfl, rfl, rfl, rfl⟩
  have hnamed := (h.of_run hrun hconn c hc).id
  rw [hid, hname] at hnamed
  exact absurd hnamed (by decide)

end Psn

import Psn.Lib.PartialMachine
import Psn.PacketRead

/-!
# A connection as a queue of packets

One side queues packets and writes what the socket takes, the other reads what has come in. Both do
so in pieces of any size, and neither knows where the other stopped.

`Inlet` is the reading side alone, with a peer that may send any bytes. `Channel` has a peer that
runs `_mosquitto_packet_write`. Whatever the order of the calls and the sizes of the pieces, what
has been handed on at one end is the beginning of what was queued at the other, in the same order
and without a gap, and it is all of it once nothing is left in between.

## Scope

A connection is one socket while it is open. What happens when it is closed is not part of this: a
client that gets another one starts with empty buffers, and what it then sends again is in
`Psn.Inflight`.

The queue of packets is a list, and memory does not run out. The thread that writes and the one that
queues take turns, as the locks make them do.

## Main definitions

* `Inlet.step`: bytes arrive, and calls of `_mosquitto_packet_read`
* `packetQueue`, `packetWrite`: the sending side
* `Channel.step`: both

## Main results

* `Inlet.run_received`: what the reading side hands on
* `packetWrite_spec`: what a call writes
* `Channel.run_handed`: a connection is a queue
* `Channel.exists_delivery`: it never gets stuck
-/

namespace Psn

open PartialMachine

/-! ### The reading side -/

/-- The reading side of a connection. -/
structure Inlet where
  /-- What has come in and has not been read. -/
  wire : Bytes
  /-- `in_packet`. -/
  inPacket : MosqPacket
  /-- The packets that were handed on. -/
  handed : List Frame
  /-- A call failed, and the socket was closed. -/
  closed : Bool
  /-- All that has come in. -/
  arrived : Bytes

/-- The start of a connection. -/
def Inlet.init : Inlet := ⟨[], packetCleanup MosqPacket.calloc, [], false, []⟩

/-- What happens on the reading side. -/
inductive InletAct
  /-- Bytes come in. -/
  | arrive (bytes : Bytes)
  /-- `_mosquitto_packet_read` is called. What it can read is the beginning of what has come in, in
  pieces, and `handled` is what `_mosquitto_packet_handle` returns. -/
  | receive (cut : List Segment) (alloc : Bool) (handled : MosqErr)

/-- The bytes that come in. -/
def InletAct.bytes : InletAct → Bytes
  | .arrive bytes => bytes
  | .receive _ _ _ => []

/-- A packet that was read, as it is handed on. -/
def MosqPacket.toFrame (p : MosqPacket) : Option Frame :=
  (Cells.read p.payload 0 p.remainingLength).map fun body => ⟨p.command, body⟩

/-- The reading side after a call, with what it left of `cut` still to be read. -/
def Inlet.settle (c : Inlet) (cut : List Segment) (handled : MosqErr) :
    ReadStep → Option (MosqErr × Inlet)
  | .undefined => none
  | .error (rc, r) => some (rc, { c with
      wire := streamBytes r.sock ++ c.wire.drop (streamBytes cut).length
      inPacket := r.inPacket
      closed := decide (rc ≠ .success) })
  | .ok r => r.inPacket.toFrame.map fun f => (handled, { c with
      wire := streamBytes r.sock ++ c.wire.drop (streamBytes cut).length
      inPacket := packetCleanup r.inPacket
      handed := c.handed ++ [f]
      closed := decide (handled ≠ .success) })

/-- One step of the reading side. It has no result where the call does something undefined. -/
def Inlet.step (c : Inlet) : InletAct → Option (MosqErr × Inlet)
  | .arrive bytes => some (.success, { c with
      wire := c.wire ++ bytes
      arrived := c.arrived ++ bytes })
  | .receive cut alloc handled =>
    if c.closed ∨ ¬streamBytes cut <+: c.wire then some (.noConn, c)
    else c.settle cut handled (packetReceive alloc ⟨c.inPacket, cut⟩)

/-- The reading side is where a reader of single bytes is after what has been taken. -/
structure Inlet.Follows (c : Inlet) (taken : Bytes) (st : ReadState) : Prop where
  arrived_eq : c.arrived = taken ++ c.wire
  feed_eq : Framing.feed ReadState.step .idle taken = (st, c.handed)
  shows_of_open : c.closed = false → c.inPacket.Shows st

theorem Inlet.follows_init : Inlet.init.Follows [] .idle :=
  ⟨rfl, rfl, fun _ => rfl⟩

theorem MosqPacket.Complete.toFrame_eq {p : MosqPacket} {f : Frame} (h : p.Complete f) :
    p.toFrame = some f := by
  have hread : Cells.read (f.body.map some) 0 f.body.length = some f.body := by
    rw [Cells.read_map_some f.body (by omega), List.drop_zero, List.take_length]
  rw [MosqPacket.toFrame, h.payload_eq, h.remainingLength_eq, hread, Option.map_some, h.command_eq]

theorem MosqPacket.shows_cleanup (p : MosqPacket) : (packetCleanup p).Shows .idle := rfl

/-- A step of the reading side follows the bytes, and does nothing undefined. -/
theorem Inlet.follows_step {c : Inlet} {taken : Bytes} {st : ReadState} (h : c.Follows taken st)
    (hstray : (Framing.feed ReadState.step .idle c.arrived).1 ≠ .stray) (a : InletAct) :
    ∃ rc c', c.step a = some (rc, c') ∧ c'.arrived = c.arrived ++ a.bytes ∧
      ∃ taken' st', c'.Follows taken' st' := by
  cases a with
  | arrive bytes =>
    refine ⟨_, _, rfl, rfl, taken, st, ?_, h.feed_eq, h.shows_of_open⟩
    simp only [h.arrived_eq, List.append_assoc]
  | receive cut alloc handled =>
    have harrived : c.arrived = c.arrived ++ InletAct.bytes (.receive cut alloc handled) :=
      (List.append_nil _).symm
    rw [Inlet.step]
    split
    · exact ⟨_, _, rfl, harrived, taken, st, h⟩
    · rename_i hgo
      rw [not_or, not_not] at hgo
      obtain ⟨hopen, later, hwire⟩ := hgo
      have hshows := h.shows_of_open (by simpa using hopen)
      have hfeed : Framing.feed ReadState.step .idle (taken ++ streamBytes cut) =
          ((Framing.feed ReadState.step st (streamBytes cut)).1,
            c.handed ++ (Framing.feed ReadState.step st (streamBytes cut)).2) := by
        rw [Framing.feed_append, h.feed_eq]
      have hcut : (Framing.feed ReadState.step st (streamBytes cut)).1 ≠ .stray := by
        intro heq
        rw [heq] at hfeed
        apply hstray
        rw [h.arrived_eq, ← hwire, ← List.append_assoc, Framing.feed_append, hfeed, feed_stray]
      have hspec := packetReceive_spec (r := ⟨c.inPacket, cut⟩) hshows hcut alloc
      have hdrop : c.wire.drop (streamBytes cut).length = later := by
        rw [← hwire, List.drop_left]
      generalize packetReceive alloc ⟨c.inPacket, cut⟩ = out at hspec
      cases out with
      | undefined => exact hspec.elim
      | error e =>
        obtain ⟨rc, r⟩ := e
        obtain ⟨more, st', hstream, hmore, hcases⟩ := hspec
        refine ⟨_, _, rfl, harrived, taken ++ more, st', ?_, ?_, ?_⟩
        · simp only [hdrop]
          rw [h.arrived_eq, ← hwire, hstream, List.append_assoc, List.append_assoc]
        · rw [Framing.feed_append, h.feed_eq]
          simp only [hmore, List.append_nil]
        · intro hrc
          have hsuccess : rc = .success := by simpa using hrc
          rcases hcases with ⟨hp, -⟩ | ⟨hm, -⟩ | ⟨-, hshows', -⟩
          · simp [hp] at hsuccess
          · simp [hm] at hsuccess
          · exact hshows'
      | ok r =>
        obtain ⟨more, f, hstream, hmore, hcomplete, -⟩ := hspec
        have hsettle : c.settle cut handled (.ok r) = some (handled, { c with
            wire := streamBytes r.sock ++ c.wire.drop (streamBytes cut).length
            inPacket := packetCleanup r.inPacket
            handed := c.handed ++ [f]
            closed := decide (handled ≠ .success) }) := by
          rw [Inlet.settle, hcomplete.toFrame_eq, Option.map_some]
        refine ⟨_, _, hsettle, harrived, taken ++ more, .idle, ?_, ?_,
          fun _ => MosqPacket.shows_cleanup _⟩
        · simp only [hdrop]
          rw [h.arrived_eq, ← hwire, hstream, List.append_assoc, List.append_assoc]
        · rw [Framing.feed_append, h.feed_eq]
          simp only [hmore]

theorem Inlet.exists_follows (acts : List InletAct) : ∀ {c : Inlet} {taken : Bytes}
    {st : ReadState}, c.Follows taken st →
    (Framing.feed ReadState.step .idle (c.arrived ++ acts.flatMap InletAct.bytes)).1 ≠ .stray →
    ∃ rcs c', run Inlet.step c acts = some (rcs, c') ∧
      c'.arrived = c.arrived ++ acts.flatMap InletAct.bytes ∧
      ∃ taken' st', c'.Follows taken' st' := by
  induction acts with
  | nil =>
    intro c taken st h _
    exact ⟨[], c, rfl, (List.append_nil _).symm, taken, st, h⟩
  | cons a acts ih =>
    intro c taken st h hstray
    rw [List.flatMap_cons, ← List.append_assoc] at hstray
    have hnow : (Framing.feed ReadState.step .idle c.arrived).1 ≠ .stray := by
      intro heq
      apply hstray
      rw [List.append_assoc, Framing.feed_append, heq, feed_stray]
    obtain ⟨rc, c₁, hstep, harrived, taken₁, st₁, h₁⟩ := Inlet.follows_step h hnow a
    obtain ⟨rcs, c', hrun, harrived', hfollows⟩ := ih h₁ (by rwa [harrived])
    refine ⟨rc :: rcs, c', run_cons_eq_some.mpr ⟨rc, c₁, rcs, hstep, hrun, rfl⟩, ?_, hfollows⟩
    rw [harrived', harrived, List.flatMap_cons, List.append_assoc]

/-- What has been handed on is the beginning of what the bytes amount to. -/
theorem Inlet.Follows.handed_prefix {c : Inlet} {taken : Bytes} {st : ReadState}
    (h : c.Follows taken st) :
    c.handed <+: (Framing.feed ReadState.step .idle c.arrived).2 ∧
      (c.wire = [] → c.handed = (Framing.feed ReadState.step .idle c.arrived).2) := by
  have hfeed := h.feed_eq
  constructor
  · have := Framing.outputs_prefix ReadState.step (List.prefix_append taken c.wire) .idle
    rwa [← h.arrived_eq, hfeed] at this
  · intro hwire
    rw [h.arrived_eq, hwire, List.append_nil, hfeed]

/-- **What the reading side hands on** does not depend on how the bytes come in. Whatever the peer
sends, as long as no command in it is zero, no call does anything undefined, and the packets that
the calls hand on are the first of those that the bytes make up when they are read one by one, and
all of them when nothing is left unread. -/
theorem Inlet.run_received (acts : List InletAct)
    (hstray : (Framing.feed ReadState.step .idle (acts.flatMap InletAct.bytes)).1 ≠ .stray) :
    ∃ rcs c, run Inlet.step Inlet.init acts = some (rcs, c) ∧
      c.handed <+: (Framing.feed ReadState.step .idle (acts.flatMap InletAct.bytes)).2 ∧
      (c.wire = [] →
        c.handed = (Framing.feed ReadState.step .idle (acts.flatMap InletAct.bytes)).2) := by
  obtain ⟨rcs, c, hrun, harrived, taken, st, h⟩ :=
    Inlet.exists_follows acts Inlet.follows_init hstray
  have harrived' : c.arrived = acts.flatMap InletAct.bytes := harrived
  rw [← harrived']
  exact ⟨rcs, c, hrun, h.handed_prefix⟩

/-- A PINGRESP in two pieces, and bytes that make up no packet. -/
theorem Inlet.run_received_pingresp : ∃ rcs c, run Inlet.step Inlet.init
    [.arrive [0xD0], .receive [.data [0xD0] (by simp)] true .success, .arrive [0, 0x30, 0xFF]] =
      some (rcs, c) ∧ c.handed <+: (Framing.feed ReadState.step .idle
    ([InletAct.arrive [0xD0], .receive [.data [0xD0] (by simp)] true .success,
      .arrive [0, 0x30, 0xFF]].flatMap InletAct.bytes)).2 := by
  obtain ⟨rcs, c, hrun, hprefix, -⟩ := Inlet.run_received
    [.arrive [0xD0], .receive [.data [0xD0] (by simp)] true .success, .arrive [0, 0x30, 0xFF]]
    (by decide)
  exact ⟨rcs, c, hrun, hprefix⟩

/-- A call that can read all that has come in comes to its end or hands on a packet. -/
theorem Inlet.exists_receive {c : Inlet} {taken : Bytes} {st : ReadState} (h : c.Follows taken st)
    (hopen : c.closed = false)
    (hstray : (Framing.feed ReadState.step .idle c.arrived).1 ≠ .stray)
    (hrefused : (Framing.feed ReadState.step .idle c.arrived).1 ≠ .refused)
    (hne : c.wire ≠ []) :
    ∃ rc c', c.step (.receive [.data c.wire hne] true .success) = some (rc, c') ∧
      (c'.wire = [] ∨ c'.closed = false ∧ c'.wire.length < c.wire.length) := by
  have hcut : streamBytes [.data c.wire hne] = c.wire := List.append_nil c.wire
  have hprefix : streamBytes [.data c.wire hne] <+: c.wire := by rw [hcut]
  have hdrop : c.wire.drop (streamBytes [.data c.wire hne]).length = [] := by
    rw [hcut, List.drop_length]
  have hflow : Flowing [.data c.wire hne] := by
    intro s hs
    rw [List.mem_singleton.mp hs]
    exact hne
  have hall : Framing.feed ReadState.step .idle c.arrived =
      ((Framing.feed ReadState.step st c.wire).1,
        c.handed ++ (Framing.feed ReadState.step st c.wire).2) := by
    rw [h.arrived_eq, Framing.feed_append, h.feed_eq]
  have hstray' : (Framing.feed ReadState.step st (streamBytes [.data c.wire hne])).1 ≠ .stray := by
    rw [hcut]
    rwa [hall] at hstray
  have hspec := packetReceive_spec (r := ⟨c.inPacket, [.data c.wire hne]⟩)
    (h.shows_of_open hopen) hstray' true
  have hgo : ¬(c.closed = true ∨ ¬streamBytes [.data c.wire hne] <+: c.wire) := by
    rw [not_or, not_not]
    exact ⟨by simp [hopen], hprefix⟩
  rw [Inlet.step, if_neg hgo]
  generalize packetReceive true ⟨c.inPacket, [.data c.wire hne]⟩ = out at hspec
  cases out with
  | undefined => exact hspec.elim
  | error e =>
    obtain ⟨rc, r⟩ := e
    obtain ⟨more, st', hstream, hmore, hcases⟩ := hspec
    refine ⟨_, _, rfl, .inl ?_⟩
    rcases hcases with ⟨-, hst⟩ | ⟨-, hfalse⟩ | ⟨-, -, hend⟩
    · have hwire : c.wire = more ++ streamBytes r.sock := hcut.symm.trans hstream
      refine absurd ?_ hrefused
      rw [hall, hwire, Framing.feed_append, hmore, hst]
      simp only [feed_refused]
    · exact absurd hfalse (by simp)
    · simp only [hdrop, hend hflow, streamBytes_nil, List.append_nil]
  | ok r =>
    obtain ⟨more, f, hstream, hmore, hcomplete, -⟩ := hspec
    have hmore_ne : more ≠ [] := by
      rintro rfl
      simp at hmore
    have hlength : c.wire.length = more.length + (streamBytes r.sock).length := by
      rw [← List.length_append, ← hstream]
      exact congrArg List.length hcut.symm
    have hpos := List.length_pos_iff.mpr hmore_ne
    rw [Inlet.settle, hcomplete.toFrame_eq, Option.map_some]
    refine ⟨_, _, rfl, .inr ⟨rfl, ?_⟩⟩
    simp only [hdrop, List.append_nil]
    omega

/-! ### The sending side -/

/-- What the socket does with a write. -/
inductive Accept
  /-- It takes some bytes, up to `n + 1`. -/
  | upTo (n : ℕ)
  | eagain
  | connReset
  | other
  deriving DecidableEq, Repr

/-- What `_mosquitto_packet_write` returns after a write that took no bytes. -/
def Accept.rc : Accept → MosqErr
  | .upTo _ => .success
  | .eagain => .success
  | .connReset => .connLost
  | .other => .errno

/-- The sending side of a connection. -/
structure Outlet where
  /-- `current_out_packet`. -/
  current : Option MosqPacket
  /-- `out_packet` and what is linked behind it. -/
  outPacket : List MosqPacket
  /-- `sock` is a socket. -/
  connected : Bool

/-- `_mosquitto_packet_queue`, up to the attempt to write. -/
def packetQueue (mosq : Outlet) (packet : MosqPacket) : Outlet :=
  { mosq with
    outPacket := mosq.outPacket ++ [{ packet with pos := 0, toProcess := packet.packetLength }] }

/-- What the loop that writes one packet comes to. -/
structure WroteOne where
  /-- What went out. -/
  wire : Bytes
  /-- The packet with its position. -/
  packet : MosqPacket
  /-- What the call returns, if it does not go on. -/
  stop : Option MosqErr
  /-- What the socket does with later writes. -/
  sched : List Accept

/-- The loop that writes one packet. -/
def writeOne : MosqPacket → List Accept → CallOutcome MosqErr WroteOne
  | p, [] => .ok ⟨[], p, if p.toProcess = 0 then none else some .success, []⟩
  | p, a :: sched =>
    if p.toProcess = 0 then .ok ⟨[], p, none, a :: sched⟩
    else if let .upTo n := a then
      CallOutcome.ofOption (Cells.read p.payload p.pos (min (n + 1) p.toProcess)) >>= fun bytes =>
      writeOne { p with
        toProcess := p.toProcess - bytes.length
        pos := p.pos + bytes.length } sched >>= fun w =>
      .ok { w with wire := bytes ++ w.wire }
    else .ok ⟨[], p, some a.rc, sched⟩

/-- What a call of `_mosquitto_packet_write` comes to. -/
structure Wrote where
  /-- The return code. -/
  rc : MosqErr
  /-- The sending side after it. -/
  mosq : Outlet
  /-- What went out. -/
  wire : Bytes
  /-- The calls of `on_publish`. -/
  published : List UInt16
  /-- A call of `on_disconnect`. -/
  disconnected : Bool

/-- The call returns in the middle of a packet. -/
def WroteOne.stopped (w : WroteOne) (outPacket : List MosqPacket) (rc : MosqErr) : Wrote :=
  ⟨rc, ⟨some w.packet, outPacket, true⟩, w.wire, [], false⟩

/-- The call of `on_publish` for a packet that is done. -/
def MosqPacket.published (p : MosqPacket) : List UInt16 :=
  if p.command &&& 0xF6 = publishCmd then [p.mid] else []

/-- The loop over the packets, from one that is being written on. It is left when a packet cannot
be written on, behind a `DISCONNECT`, and behind the last packet. -/
def writeFrom : MosqPacket → List MosqPacket → List Accept → CallOutcome MosqErr Wrote
  | p, [], sched => writeOne p sched >>= fun w => .ok (w.stop.elim
      ⟨.success, ⟨none, [], decide (p.command &&& 0xF0 ≠ disconnectCmd)⟩, w.wire, p.published,
        decide (p.command &&& 0xF0 = disconnectCmd)⟩
      (w.stopped []))
  | p, q :: rest, sched => writeOne p sched >>= fun w => w.stop.elim
      (if p.command &&& 0xF0 = disconnectCmd then
        .ok ⟨.success, ⟨some q, rest, false⟩, w.wire, p.published, true⟩
      else writeFrom q rest w.sched >>= fun out =>
        .ok { out with wire := w.wire ++ out.wire, published := p.published ++ out.published })
      fun rc => .ok (w.stopped (q :: rest) rc)

/-- `_mosquitto_packet_write`. -/
def packetWrite (mosq : Outlet) (sched : List Accept) : CallOutcome MosqErr Wrote :=
  if !mosq.connected then .ok ⟨.noConn, mosq, [], [], false⟩
  else match mosq.current, mosq.outPacket with
    | some p, outPacket => writeFrom p outPacket sched
    | none, [] => .ok ⟨.success, mosq, [], [], false⟩
    | none, p :: outPacket => writeFrom p outPacket sched

/-- The packet has `rest` left to write. -/
def MosqPacket.Pends (p : MosqPacket) (rest : Bytes) : Prop :=
  ∃ written, p.payload = (written ++ rest).map some ∧ p.pos = written.length ∧
    p.toProcess = rest.length

theorem MosqPacket.Pends.toProcess_eq {p : MosqPacket} {rest : Bytes} (h : p.Pends rest) :
    p.toProcess = 0 ↔ rest = [] := by
  obtain ⟨-, -, -, hto⟩ := h
  rw [hto, List.length_eq_zero_iff]

/-- A queued packet has all of its bytes left. -/
theorem MosqPacket.Carries.pends {p : MosqPacket} {f : Frame} (h : p.Carries f) :
    { p with pos := 0, toProcess := p.packetLength }.Pends (frame f) :=
  ⟨[], h.payload_eq, rfl, h.packetLength_eq⟩

/-- A write takes bytes from what is left. -/
theorem MosqPacket.Pends.read {p : MosqPacket} {rest : Bytes} (h : p.Pends rest) {k : ℕ}
    (hk : k ≤ p.toProcess) :
    Cells.read p.payload p.pos k = some (rest.take k) ∧
      { p with toProcess := p.toProcess - (rest.take k).length,
               pos := p.pos + (rest.take k).length }.Pends (rest.drop k) := by
  obtain ⟨written, hpayload, hpos, hto⟩ := h
  have hlen : (rest.take k).length = k := by rw [List.length_take]; omega
  constructor
  · rw [hpayload, hpos, Cells.read_map_some (written ++ rest) (by simp; omega), List.drop_left]
  · refine ⟨written ++ rest.take k, ?_, ?_, ?_⟩
    · rw [hpayload, List.append_assoc, List.take_append_drop]
    · simp only [hpos, List.length_append]
    · simp only [hlen, hto, List.length_drop]

/-- Writing one packet takes bytes from what is left of it. -/
theorem writeOne_spec (sched : List Accept) : ∀ {p : MosqPacket} {rest : Bytes}, p.Pends rest →
    ∃ w rest', writeOne p sched = .ok w ∧ rest = w.wire ++ rest' ∧ w.packet.Pends rest' ∧
      w.packet.command = p.command ∧ (w.stop = none ↔ rest' = []) := by
  induction sched with
  | nil =>
    intro p rest h
    refine ⟨_, rest, rfl, rfl, h, rfl, ?_⟩
    rw [← h.toProcess_eq]
    simp
  | cons a sched ih =>
    intro p rest h
    by_cases hzero : p.toProcess = 0
    · have hnil : rest = [] := h.toProcess_eq.mp hzero
      have hdone : writeOne p (a :: sched) = .ok ⟨[], p, none, a :: sched⟩ := by
        cases a <;> simp [writeOne, hzero]
      exact ⟨_, rest, hdone, rfl, h, rfl, iff_of_true rfl hnil⟩
    · have hne : rest ≠ [] := fun hnil => hzero (h.toProcess_eq.mpr hnil)
      cases a with
      | upTo n =>
        obtain ⟨hread, hpends⟩ := h.read (Nat.min_le_right (n + 1) p.toProcess)
        obtain ⟨w, rest', hw, hrest, hpends', hcommand, hstop⟩ := ih hpends
        refine ⟨{ w with wire := rest.take (min (n + 1) p.toProcess) ++ w.wire }, rest', ?_, ?_,
          hpends', hcommand, hstop⟩
        · rw [writeOne, if_neg hzero]
          simp only [hread, CallOutcome.ofOption_some, CallOutcome.ok_bind, hw]
        · rw [List.append_assoc, ← hrest, List.take_append_drop]
      | eagain => exact ⟨⟨[], p, some .success, sched⟩, rest, by simp [writeOne, hzero, Accept.rc],
          rfl, h, rfl, by simp [hne]⟩
      | connReset => exact ⟨⟨[], p, some .connLost, sched⟩, rest,
          by simp [writeOne, hzero, Accept.rc], rfl, h, rfl, by simp [hne]⟩
      | other => exact ⟨⟨[], p, some .errno, sched⟩, rest, by simp [writeOne, hzero, Accept.rc],
          rfl, h, rfl, by simp [hne]⟩

/-- What packets have left to write, one behind the other. Their commands are among those of
`fs`. -/
inductive PendAll (fs : List Frame) : List MosqPacket → Bytes → Prop
  | nil : PendAll fs [] []
  | cons {p : MosqPacket} {ps : List MosqPacket} {rest bytes : Bytes} {f : Frame} (mem : f ∈ fs)
      (command_eq : p.command = f.command) (ne_nil : rest ≠ []) (head : p.Pends rest)
      (tail : PendAll fs ps bytes) : PendAll fs (p :: ps) (rest ++ bytes)

theorem PendAll.mono {fs gs : List Frame} {ps : List MosqPacket} {bytes : Bytes}
    (h : PendAll fs ps bytes) (hsub : fs ⊆ gs) : PendAll gs ps bytes := by
  induction h with
  | nil => exact .nil
  | cons mem command_eq ne_nil head _ ih => exact .cons (hsub mem) command_eq ne_nil head ih

theorem PendAll.append {fs : List Frame} {ps qs : List MosqPacket} {bytes more : Bytes}
    (h : PendAll fs ps bytes) (hq : PendAll fs qs more) :
    PendAll fs (ps ++ qs) (bytes ++ more) := by
  induction h with
  | nil => exact hq
  | cons mem command_eq ne_nil head _ ih =>
    rw [List.cons_append, List.append_assoc]
    exact .cons mem command_eq ne_nil head ih

/-- What the sending side has left to write. -/
def Outlet.Pends (mosq : Outlet) (fs : List Frame) (bytes : Bytes) : Prop :=
  PendAll fs (mosq.current.toList ++ mosq.outPacket) bytes

/-- A call goes on where the last one stopped, and writes the packets in order. -/
theorem writeFrom_spec {fs : List Frame} {outPacket : List MosqPacket} : ∀ {p : MosqPacket}
    (sched : List Accept) {bytes : Bytes}, PendAll fs (p :: outPacket) bytes →
    ∃ out left, writeFrom p outPacket sched = .ok out ∧ bytes = out.wire ++ left ∧
      out.mosq.Pends fs left ∧
      ((∀ f ∈ fs, f.command &&& 0xF0 ≠ disconnectCmd) → out.mosq.connected = true) := by
  induction outPacket with
  | nil =>
    intro p sched bytes h
    cases h with
    | @cons _ _ rest bytes' f mem command_eq ne_nil head tail =>
      obtain ⟨w, rest', hw, hrest, hp', hcommand, hstop⟩ := writeOne_spec sched head
      rw [writeFrom, hw, CallOutcome.ok_bind]
      cases hw' : w.stop with
      | some rc =>
        have hne : rest' ≠ [] := fun hnil => by simp [hstop.mpr hnil] at hw'
        exact ⟨_, rest' ++ bytes', rfl, by rw [hrest, List.append_assoc]; rfl,
          .cons mem (hcommand.trans command_eq) hne hp' tail, fun _ => rfl⟩
      | none =>
        have hnil : rest' = [] := hstop.mp hw'
        rw [hnil, List.append_nil] at hrest
        refine ⟨_, bytes', rfl, by rw [hrest]; rfl, tail, fun hfs => ?_⟩
        have hcommand' := hfs f mem
        rw [← command_eq] at hcommand'
        simpa using hcommand'
  | cons q outPacket ih =>
    intro p sched bytes h
    cases h with
    | @cons _ _ rest bytes' f mem command_eq ne_nil head tail =>
      obtain ⟨w, rest', hw, hrest, hp', hcommand, hstop⟩ := writeOne_spec sched head
      rw [writeFrom, hw, CallOutcome.ok_bind]
      cases hw' : w.stop with
      | some rc =>
        have hne : rest' ≠ [] := fun hnil => by simp [hstop.mpr hnil] at hw'
        exact ⟨_, rest' ++ bytes', rfl, by rw [hrest, List.append_assoc]; rfl,
          .cons mem (hcommand.trans command_eq) hne hp' tail, fun _ => rfl⟩
      | none =>
        have hnil : rest' = [] := hstop.mp hw'
        rw [hnil, List.append_nil] at hrest
        rw [Option.elim_none]
        by_cases hdisc : p.command &&& 0xF0 = disconnectCmd
        · rw [if_pos hdisc]
          refine ⟨_, bytes', rfl, by rw [hrest], tail, fun hfs => ?_⟩
          exact absurd (command_eq ▸ hdisc) (hfs f mem)
        · rw [if_neg hdisc]
          obtain ⟨out, left, hout, hbytes, hpends, hconn⟩ := ih w.sched tail
          rw [hout, CallOutcome.ok_bind]
          exact ⟨_, left, rfl, by rw [hrest, hbytes, List.append_assoc], hpends, hconn⟩

/-- **What a call writes** is the beginning of what there is to write, whatever the socket takes,
and the rest stays for the next one. -/
theorem packetWrite_spec {mosq : Outlet} {fs : List Frame} {bytes : Bytes}
    (h : mosq.Pends fs bytes) (sched : List Accept) :
    ∃ out left, packetWrite mosq sched = .ok out ∧ bytes = out.wire ++ left ∧
      out.mosq.Pends fs left ∧
      ((∀ f ∈ fs, f.command &&& 0xF0 ≠ disconnectCmd) → mosq.connected = true →
        out.mosq.connected = true) := by
  obtain ⟨current, outPacket, connected⟩ := mosq
  cases connected with
  | false => exact ⟨_, bytes, rfl, rfl, h, fun _ hfalse => hfalse⟩
  | true =>
    cases current with
    | some p =>
      obtain ⟨out, left, hout, hbytes, hpends, hconn⟩ := writeFrom_spec sched h
      exact ⟨out, left, hout, hbytes, hpends, fun hfs _ => hconn hfs⟩
    | none =>
      cases outPacket with
      | nil => exact ⟨_, bytes, rfl, rfl, h, fun _ _ => rfl⟩
      | cons p outPacket =>
        obtain ⟨out, left, hout, hbytes, hpends, hconn⟩ := writeFrom_spec sched h
        exact ⟨out, left, hout, hbytes, hpends, fun hfs _ => hconn hfs⟩

theorem writeOne_wire_ne_nil {p : MosqPacket} {rest : Bytes} (h : p.Pends rest) (hne : rest ≠ [])
    {n : ℕ} {sched : List Accept} {w : WroteOne} (hw : writeOne p (.upTo n :: sched) = .ok w) :
    w.wire ≠ [] := by
  have hzero : p.toProcess ≠ 0 := fun hzero => hne (h.toProcess_eq.mp hzero)
  obtain ⟨hread, -⟩ := h.read (Nat.min_le_right (n + 1) p.toProcess)
  rw [writeOne, if_neg hzero] at hw
  simp only [hread, CallOutcome.ofOption_some, CallOutcome.ok_bind] at hw
  obtain ⟨w', -, hw'⟩ := CallOutcome.bind_eq_ok.mp hw
  have htake : rest.take (min (n + 1) p.toProcess) ≠ [] := by
    rw [Ne, List.take_eq_nil_iff, not_or]
    exact ⟨by omega, hne⟩
  cases hw'
  exact List.append_ne_nil_of_left_ne_nil htake _

theorem writeFrom_wire_ne_nil {p : MosqPacket} {outPacket : List MosqPacket} {sched : List Accept}
    {w : WroteOne} (hw : writeOne p sched = .ok w) (hne : w.wire ≠ []) {out : Wrote}
    (hout : writeFrom p outPacket sched = .ok out) : out.wire ≠ [] := by
  cases outPacket with
  | nil =>
    rw [writeFrom, hw, CallOutcome.ok_bind] at hout
    cases hout
    cases w.stop <;> exact hne
  | cons q rest =>
    rw [writeFrom, hw, CallOutcome.ok_bind] at hout
    cases hstop : w.stop with
    | some rc =>
      rw [hstop] at hout
      cases hout
      exact hne
    | none =>
      rw [hstop, Option.elim_none] at hout
      split at hout
      · cases hout
        exact hne
      · obtain ⟨out', -, hout'⟩ := CallOutcome.bind_eq_ok.mp hout
        cases hout'
        exact List.append_ne_nil_of_left_ne_nil hne _

/-- A socket that takes some bytes takes some of what there is. -/
theorem packetWrite_wire_ne_nil {mosq : Outlet} {fs : List Frame} {bytes : Bytes}
    (h : mosq.Pends fs bytes) (hne : bytes ≠ []) (hconn : mosq.connected = true) {n : ℕ}
    {out : Wrote} (hout : packetWrite mosq [.upTo n] = .ok out) : out.wire ≠ [] := by
  have hfrom : ∀ p outPacket, PendAll fs (p :: outPacket) bytes →
      writeFrom p outPacket [.upTo n] = .ok out → out.wire ≠ [] := by
    intro p outPacket hall hwrite
    cases hall with
    | cons _ _ rest_ne head _ =>
      obtain ⟨w, -, hw, -⟩ := writeOne_spec [.upTo n] head
      exact writeFrom_wire_ne_nil hw (writeOne_wire_ne_nil head rest_ne hw) hwrite
  obtain ⟨current, outPacket, connected⟩ := mosq
  obtain rfl : connected = true := hconn
  cases current with
  | some p => exact hfrom p outPacket h hout
  | none =>
    cases outPacket with
    | nil =>
      cases h
      exact absurd rfl hne
    | cons p outPacket => exact hfrom p outPacket h hout

/-! ### Both -/

/-- A packet that a sender built. -/
structure OutPacket where
  /-- The packet. -/
  packet : MosqPacket
  /-- What it is. -/
  frame : Frame
  carries : packet.Carries frame
  wellFormed : frame.WellFormed

/-- A connection. -/
structure Channel where
  /-- The sending side. -/
  outlet : Outlet
  /-- The reading side. -/
  inlet : Inlet
  /-- All that has been queued. -/
  queued : List Frame

/-- A new connection. -/
def Channel.init : Channel := ⟨⟨none, [], true⟩, Inlet.init, []⟩

/-- What happens on a connection. -/
inductive ChannelAct
  /-- A packet is queued. -/
  | queue (p : OutPacket)
  /-- `_mosquitto_packet_write` is called on the sending side. -/
  | write (sched : List Accept)
  /-- `_mosquitto_packet_read` is called on the reading side. -/
  | receive (cut : List Segment) (alloc : Bool) (handled : MosqErr)

/-- The connection after a write. -/
def Channel.wrote (c : Channel) : CallOutcome MosqErr Wrote → Option (MosqErr × Channel)
  | .undefined => none
  | .error rc => some (rc, c)
  | .ok out => (c.inlet.step (.arrive out.wire)).map fun r =>
      (out.rc, { c with outlet := out.mosq, inlet := r.2 })

/-- One step of a connection. -/
def Channel.step (c : Channel) : ChannelAct → Option (MosqErr × Channel)
  | .queue p => some (.success, { c with
      outlet := packetQueue c.outlet p.packet
      queued := c.queued ++ [p.frame] })
  | .write sched => c.wrote (packetWrite c.outlet sched)
  | .receive cut alloc handled =>
    (c.inlet.step (.receive cut alloc handled)).map fun r => (r.1, { c with inlet := r.2 })

/-- What was queued is what has come in and what is left to write, and the reading side follows. -/
structure Channel.Inv (c : Channel) : Prop where
  wellFormed : ∀ f ∈ c.queued, f.WellFormed
  split : ∃ left, c.outlet.Pends c.queued left ∧
    c.queued.flatMap frame = c.inlet.arrived ++ left
  follows : ∃ taken st, c.inlet.Follows taken st

theorem Channel.inv_init : Channel.init.Inv :=
  ⟨by simp [Channel.init], ⟨[], .nil, rfl⟩, [], .idle, Inlet.follows_init⟩

/-- What is queued can be read back. -/
theorem Channel.Inv.feed_queued {c : Channel} (h : c.Inv) :
    Framing.feed ReadState.step .idle (c.queued.flatMap frame) = (.idle, c.queued) :=
  Framing.Delimits.feed_flatMap fun f hf => delimits_frame (h.wellFormed f hf)

/-- What has come in has no command that is zero and no length that is too long. -/
theorem Channel.Inv.feed_arrived_ne {c : Channel} (h : c.Inv) {st : ReadState}
    (hst : ∀ byte, st.step byte = (st, [])) (hne : st ≠ .idle) :
    (Framing.feed ReadState.step .idle c.inlet.arrived).1 ≠ st := by
  intro heq
  obtain ⟨left, -, hsplit⟩ := h.split
  have hqueued := h.feed_queued
  rw [hsplit, Framing.feed_append, heq, Framing.feed_of_absorbing hst] at hqueued
  exact hne (congrArg Prod.fst hqueued)

theorem Channel.Inv.feed_arrived_ne_stray {c : Channel} (h : c.Inv) :
    (Framing.feed ReadState.step .idle c.inlet.arrived).1 ≠ .stray :=
  h.feed_arrived_ne (fun _ => rfl) (by simp)

/-- A step has a result and keeps the invariant. -/
theorem Channel.inv_step {c : Channel} (h : c.Inv) (a : ChannelAct) :
    ∃ rc c', c.step a = some (rc, c') ∧ c'.Inv := by
  obtain ⟨left, hpends, hsplit⟩ := h.split
  obtain ⟨taken, st, hfollows⟩ := h.follows
  cases a with
  | queue p =>
    refine ⟨_, _, rfl, ?_, ⟨left ++ frame p.frame, ?_, ?_⟩, taken, st, hfollows⟩
    · intro f hf
      rcases List.mem_append.mp hf with hf | hf
      · exact h.wellFormed f hf
      · rw [List.mem_singleton.mp hf]
        exact p.wellFormed
    · have hpends' := hpends.mono (List.subset_append_left c.queued [p.frame])
      have hone : PendAll (c.queued ++ [p.frame])
          [{ p.packet with pos := 0, toProcess := p.packet.packetLength }] (frame p.frame) := by
        rw [← List.append_nil (frame p.frame)]
        exact .cons (List.mem_append_right c.queued (List.mem_singleton_self p.frame))
          p.carries.command_eq (List.cons_ne_nil _ _) p.carries.pends .nil
      have hall := hpends'.append hone
      rwa [List.append_assoc] at hall
    · simp only [List.flatMap_append, List.flatMap_cons, List.flatMap_nil, List.append_nil, hsplit,
        List.append_assoc]
  | write sched =>
    obtain ⟨out, left', hout, hleft, hpends', -⟩ := packetWrite_spec hpends sched
    have hstep : c.step (.write sched) = some (out.rc, { c with
        outlet := out.mosq
        inlet := { c.inlet with
          wire := c.inlet.wire ++ out.wire
          arrived := c.inlet.arrived ++ out.wire } }) := by
      rw [Channel.step, hout]
      rfl
    refine ⟨_, _, hstep, h.wellFormed, ⟨left', hpends', ?_⟩, taken, st, ?_⟩
    · simp only [hsplit, hleft, List.append_assoc]
    · refine ⟨?_, hfollows.feed_eq, hfollows.shows_of_open⟩
      simp only [hfollows.arrived_eq, List.append_assoc]
  | receive cut alloc handled =>
    obtain ⟨rc, inlet, hinlet, harrived, taken', st', hfollows'⟩ :=
      Inlet.follows_step hfollows h.feed_arrived_ne_stray (.receive cut alloc handled)
    have harrived' : inlet.arrived = c.inlet.arrived := by
      rw [harrived]
      exact List.append_nil _
    have hstep : c.step (.receive cut alloc handled) = some (rc, { c with inlet := inlet }) := by
      rw [Channel.step, hinlet]
      rfl
    refine ⟨_, _, hstep, h.wellFormed, ⟨left, hpends, ?_⟩, taken', st', hfollows'⟩
    simp only [harrived', hsplit]

/-- What has been handed on is the beginning of what was queued. -/
theorem Channel.Inv.handed_prefix {c : Channel} (h : c.Inv) : c.inlet.handed <+: c.queued := by
  obtain ⟨left, -, hsplit⟩ := h.split
  obtain ⟨taken, st, hfollows⟩ := h.follows
  have hall := Framing.outputs_prefix ReadState.step
    (List.prefix_append c.inlet.arrived left) .idle
  rw [← hsplit, h.feed_queued] at hall
  exact hfollows.handed_prefix.1.trans hall

/-- When nothing is left in between, it is all of it. -/
theorem Channel.Inv.handed_eq {c : Channel} (h : c.Inv) (hcurrent : c.outlet.current = none)
    (hout : c.outlet.outPacket = []) (hwire : c.inlet.wire = []) :
    c.inlet.handed = c.queued := by
  obtain ⟨left, hpends, hsplit⟩ := h.split
  obtain ⟨taken, st, hfollows⟩ := h.follows
  have hleft : left = [] := by
    rw [Outlet.Pends, hcurrent, hout] at hpends
    cases hpends
    rfl
  rw [hleft, List.append_nil] at hsplit
  rw [hfollows.handed_prefix.2 hwire, ← hsplit, h.feed_queued]

theorem Channel.exists_run_inv (acts : List ChannelAct) :
    ∃ rcs c, run Channel.step Channel.init acts = some (rcs, c) ∧ c.Inv :=
  exists_run Channel.step (P := fun _ => True) (fun h _ => Channel.inv_step h _)
    Channel.inv_init fun _ _ => trivial

/-- **A connection is a queue.** In every run of queueing, writing and reading, with pieces of any
size, no call does anything undefined, and what has been handed on is the beginning of what was
queued. When nothing is left to write or to read, it is all of it. -/
theorem Channel.run_handed (acts : List ChannelAct) :
    ∃ rcs c, run Channel.step Channel.init acts = some (rcs, c) ∧
      c.inlet.handed <+: c.queued ∧
      (c.outlet.current = none → c.outlet.outPacket = [] → c.inlet.wire = [] →
        c.inlet.handed = c.queued) := by
  obtain ⟨rcs, c, hrun, hinv⟩ := Channel.exists_run_inv acts
  exact ⟨rcs, c, hrun, hinv.handed_prefix, hinv.handed_eq⟩

/-- A sending side that has nothing left to write has no packets. -/
theorem Outlet.Pends.of_nil {mosq : Outlet} {fs : List Frame} (h : mosq.Pends fs []) :
    mosq.current = none ∧ mosq.outPacket = [] := by
  have hnil : mosq.current.toList ++ mosq.outPacket = [] := by
    rw [Outlet.Pends] at h
    generalize hps : mosq.current.toList ++ mosq.outPacket = ps at h
    generalize hbytes : ([] : Bytes) = bytes at h
    cases h with
    | nil => rfl
    | cons _ _ ne_nil _ _ => exact absurd hbytes.symm (List.append_ne_nil_of_left_ne_nil ne_nil _)
  rw [List.append_eq_nil_iff, Option.toList_eq_nil_iff] at hnil
  exact hnil

/-- The sending side can write all it has, some bytes at a time. -/
theorem Channel.exists_drain_outlet {c : Channel} (h : c.Inv) (hconn : c.outlet.connected = true)
    (hcmd : ∀ f ∈ c.queued, f.command &&& 0xF0 ≠ disconnectCmd) :
    ∃ acts rcs c', run Channel.step c acts = some (rcs, c') ∧ c'.Inv ∧ c'.queued = c.queued ∧
      c'.inlet.closed = c.inlet.closed ∧ c'.outlet.Pends c'.queued [] := by
  obtain ⟨left, hpends, hsplit⟩ := h.split
  induction hn : left.length using Nat.strong_induction_on generalizing c left with
  | _ n ih =>
    by_cases hnil : left = []
    · exact ⟨[], [], c, rfl, h, rfl, rfl, hnil ▸ hpends⟩
    · obtain ⟨out, left', hout, hleft, hpends', hconn'⟩ := packetWrite_spec hpends [.upTo 0]
      have hwire := packetWrite_wire_ne_nil hpends hnil hconn hout
      have hlt : left'.length < n := by
        have hpos := List.length_pos_iff.mpr hwire
        have hlength := congrArg List.length hleft
        rw [List.length_append] at hlength
        omega
      have hstep : c.step (.write [.upTo 0]) = some (out.rc, { c with
          outlet := out.mosq
          inlet := { c.inlet with
            wire := c.inlet.wire ++ out.wire
            arrived := c.inlet.arrived ++ out.wire } }) := by
        rw [Channel.step, hout]
        rfl
      obtain ⟨rc, c₁, hstep₁, hinv₁⟩ := Channel.inv_step h (.write [.upTo 0])
      obtain ⟨-, rfl⟩ := Prod.mk.inj (Option.some_inj.mp (hstep.symm.trans hstep₁))
      obtain ⟨acts, rcs, c', hrun, hinv', hqueued', hclosed', hpends''⟩ :=
        ih left'.length hlt hinv₁ (hconn' hcmd hconn) hcmd left' hpends'
          (by simp only [hsplit, hleft, List.append_assoc]) rfl
      exact ⟨.write [.upTo 0] :: acts, _, c', run_cons_eq_some.mpr ⟨_, _, _, hstep, hrun, rfl⟩,
        hinv', hqueued', hclosed', hpends''⟩

/-- The reading side can read all that has come in. -/
theorem Channel.exists_drain_inlet {c : Channel} (h : c.Inv) (hopen : c.inlet.closed = false)
    (hpends : c.outlet.Pends c.queued []) :
    ∃ acts rcs c', run Channel.step c acts = some (rcs, c') ∧ c'.Inv ∧ c'.queued = c.queued ∧
      c'.outlet = c.outlet ∧ c'.inlet.wire = [] := by
  induction hn : c.inlet.wire.length using Nat.strong_induction_on generalizing c with
  | _ n ih =>
    by_cases hnil : c.inlet.wire = []
    · exact ⟨[], [], c, rfl, h, rfl, rfl, hnil⟩
    · obtain ⟨taken, st, hfollows⟩ := h.follows
      obtain ⟨rc, inlet, hinlet, hcases⟩ := Inlet.exists_receive hfollows hopen
        h.feed_arrived_ne_stray (h.feed_arrived_ne (fun _ => rfl) (by simp)) hnil
      have hstep : c.step (.receive [.data c.inlet.wire hnil] true .success) =
          some (rc, { c with inlet := inlet }) := by
        rw [Channel.step, hinlet]
        rfl
      obtain ⟨rc', c₁, hstep₁, hinv₁⟩ :=
        Channel.inv_step h (.receive [.data c.inlet.wire hnil] true .success)
      obtain ⟨-, rfl⟩ := Prod.mk.inj (Option.some_inj.mp (hstep.symm.trans hstep₁))
      rcases hcases with hwire | ⟨hopen₁, hlt⟩
      · exact ⟨_, _, _, run_cons_eq_some.mpr ⟨_, _, _, hstep, run_nil _, rfl⟩, hinv₁, rfl, rfl,
          hwire⟩
      · obtain ⟨acts, rcs, c', hrun, hinv', hqueued', houtlet', hwire'⟩ :=
          ih inlet.wire.length (hn ▸ hlt) hinv₁ hopen₁ hpends rfl
        exact ⟨_ :: acts, _, c', run_cons_eq_some.mpr ⟨_, _, _, hstep, hrun, rfl⟩, hinv', hqueued',
          houtlet', hwire'⟩

/-- **A connection never gets stuck.** Wherever a run has come to, as long as neither side has
closed the socket and no `DISCONNECT` is queued, writing and reading on deliver all that was
queued. -/
theorem Channel.exists_delivery {acts : List ChannelAct} {rcs : List MosqErr} {c : Channel}
    (hrun : run Channel.step Channel.init acts = some (rcs, c))
    (hconn : c.outlet.connected = true) (hopen : c.inlet.closed = false)
    (hcmd : ∀ f ∈ c.queued, f.command &&& 0xF0 ≠ disconnectCmd) :
    ∃ more rcs' c', run Channel.step c more = some (rcs', c') ∧ c'.queued = c.queued ∧
      c'.inlet.handed = c'.queued := by
  obtain ⟨rcs', c', hrun', hinv⟩ := Channel.exists_run_inv acts
  obtain ⟨rfl, rfl⟩ := Prod.mk.inj (Option.some_inj.mp (hrun.symm.trans hrun'))
  obtain ⟨acts₁, rcs₁, c₁, hrun₁, hinv₁, hqueued₁, hclosed₁, hpends₁⟩ :=
    Channel.exists_drain_outlet hinv hconn hcmd
  obtain ⟨acts₂, rcs₂, c₂, hrun₂, hinv₂, hqueued₂, houtlet₂, hwire₂⟩ :=
    Channel.exists_drain_inlet hinv₁ (hclosed₁.trans hopen) hpends₁
  obtain ⟨hcurrent, hout⟩ := hpends₁.of_nil
  exact ⟨acts₁ ++ acts₂, rcs₁ ++ rcs₂, c₂, run_append_eq_some.mpr ⟨_, _, _, hrun₁, hrun₂, rfl⟩,
    hqueued₂.trans hqueued₁,
    hinv₂.handed_eq (houtlet₂ ▸ hcurrent) (houtlet₂ ▸ hout) hwire₂⟩

/-- A PINGREQ that has been queued. -/
theorem Channel.exists_delivery_pingreq : ∃ (c : Channel) (more : List ChannelAct)
    (rcs : List MosqErr) (c' : Channel), c.queued = [⟨pingreqCmd, []⟩] ∧
      run Channel.step c more = some (rcs, c') ∧ c'.inlet.handed = [⟨pingreqCmd, []⟩] := by
  obtain ⟨packet, -, hcarries⟩ := sendSimpleCommand_carries pingreqCmd
  have hwell : Frame.WellFormed ⟨pingreqCmd, []⟩ := ⟨by decide, by decide⟩
  have hrun : run Channel.step Channel.init [.queue ⟨packet, _, hcarries, hwell⟩] =
      some (_, _) := rfl
  obtain ⟨more, rcs, c', hmore, hqueued, hhanded⟩ := Channel.exists_delivery hrun rfl rfl
    fun f hf => List.mem_singleton.mp hf ▸ (show pingreqCmd &&& 0xF0 ≠ disconnectCmd by decide)
  exact ⟨_, more, rcs, c', rfl, hmore, hhanded.trans hqueued⟩

end Psn

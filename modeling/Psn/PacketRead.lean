import Psn.Lib.Framing
import Psn.Packet

/-!
# Reading packets from the socket

`_mosquitto_packet_read` is called whenever there is something to read, and takes what there is. A
read may give fewer bytes than were asked for, or none, at any point, also in the middle of the
length; then the call returns, and `in_packet` keeps what has been read for the next one.

`ReadState.step` reads the same format one byte at a time. The calls agree with it: what they hand
on, and what they keep, is what it makes of the bytes that they took from the socket, so it does
not depend on how these came in. One case is left out: a command that is zero cannot be told from
none in `in_packet`, and what the calls make of it does depend on the reads.

## Main definitions

* `Segment`, `netRead`: what the socket has for the reader, and `_mosquitto_net_read`
* `readCommand`, `readDigits`, `readPayload`, `packetReceive`: `_mosquitto_packet_read`, up to the
  call that handles the packet
* `ReadState.step`: reading the format byte by byte

## Main results

* `delimits_frame`: a frame is read back
* `packetReceive_spec`: what a call does is what its bytes do one by one
-/

namespace Psn

/-! ### The socket -/

/-- What the socket has for its reader at one point: bytes, nothing for now, or the end of the
connection in one of its forms. -/
inductive Segment
  | data (bytes : Bytes) (ne_nil : bytes ≠ [])
  | eagain
  | eof
  | connReset
  | other
  deriving DecidableEq

/-- A read that is cut short gives some bytes, -/
theorem take_ne_nil {bytes : Bytes} {count : ℕ} (h : 0 < count ∧ count < bytes.length) :
    bytes.take count ≠ [] :=
  List.ne_nil_of_length_pos (by rw [List.length_take]; omega)

/-- and leaves some. -/
theorem drop_ne_nil {bytes : Bytes} {count : ℕ} (h : 0 < count ∧ count < bytes.length) :
    bytes.drop count ≠ [] :=
  List.ne_nil_of_length_pos (by rw [List.length_drop]; omega)

/-- `_mosquitto_net_read` of `count` bytes. -/
def netRead : List Segment → ℕ → Segment × List Segment
  | [], _ => (.eagain, [])
  | .data bytes ne_nil :: rest, count =>
    if h : 0 < count ∧ count < bytes.length then
      (.data (bytes.take count) (take_ne_nil h), .data (bytes.drop count) (drop_ne_nil h) :: rest)
    else if count = 0 then (.eof, .data bytes ne_nil :: rest)
    else (.data bytes ne_nil, rest)
  | .eagain :: rest, _ => (.eagain, rest)
  | .eof :: rest, _ => (.eof, .eof :: rest)
  | .connReset :: rest, _ => (.connReset, .connReset :: rest)
  | .other :: rest, _ => (.other, .other :: rest)

/-- What `_mosquitto_packet_read` returns after a read that gave no bytes. The loops for the command
and the length have a test of their own for the end of the connection. The loop for the payload,
which `inPayload` stands for, goes by `errno` alone: `_mosquitto_net_read` has set it to zero. -/
def Segment.rc (inPayload : Bool) : Segment → MosqErr
  | .data _ _ => .success
  | .eagain => .success
  | .eof => if inPayload then .errno else .connLost
  | .connReset => .connLost
  | .other => .errno

/-- The bytes of a segment. -/
def Segment.bytes : Segment → Bytes
  | .data bytes _ => bytes
  | .eagain => []
  | .eof => []
  | .connReset => []
  | .other => []

/-- The bytes that the socket has. -/
def streamBytes (sock : List Segment) : Bytes := sock.flatMap Segment.bytes

@[simp] theorem streamBytes_nil : streamBytes [] = [] := rfl

@[simp] theorem streamBytes_cons (s : Segment) (sock : List Segment) :
    streamBytes (s :: sock) = s.bytes ++ streamBytes sock := rfl

/-- A read takes bytes from the front of the stream. -/
theorem streamBytes_netRead (sock : List Segment) (count : ℕ) :
    streamBytes sock = (netRead sock count).1.bytes ++ streamBytes (netRead sock count).2 := by
  cases sock with
  | nil => rfl
  | cons s rest =>
    cases s with
    | data bytes ne_nil =>
      rw [netRead]
      by_cases h : 0 < count ∧ count < bytes.length
      · simp [h, Segment.bytes, ← List.append_assoc]
      · by_cases hcount : count = 0 <;> simp [h, hcount, Segment.bytes]
    | eagain => rfl
    | eof => rfl
    | connReset => rfl
    | other => rfl

/-- A read gives no more than was asked for. -/
theorem length_netRead_le (sock : List Segment) (count : ℕ) :
    (netRead sock count).1.bytes.length ≤ count := by
  cases sock with
  | nil => exact Nat.zero_le count
  | cons s rest =>
    cases s with
    | data bytes ne_nil =>
      rw [netRead]
      by_cases h : 0 < count ∧ count < bytes.length
      · simp [h, Segment.bytes]
      · by_cases hcount : count = 0
        · simp [hcount, Segment.bytes]
        · have hle : bytes.length ≤ count := by omega
          simpa [h, hcount, Segment.bytes] using hle
    | eagain => exact Nat.zero_le count
    | eof => exact Nat.zero_le count
    | connReset => exact Nat.zero_le count
    | other => exact Nat.zero_le count

/-! ### The call -/

/-- What `_mosquitto_packet_read` works on: `in_packet` and the socket. -/
structure Reader where
  /-- `in_packet`. -/
  inPacket : MosqPacket
  /-- What the socket has. -/
  sock : List Segment

/-- A step of `_mosquitto_packet_read`: it goes on, or the call returns a code. -/
abbrev ReadStep := CallOutcome (MosqErr × Reader) Reader

/-- Go on with the bytes of a read of up to `count`, or return its code. -/
def Reader.read (r : Reader) (inPayload : Bool) (count : ℕ) (f : Bytes → Reader → ReadStep) :
    ReadStep :=
  if (netRead r.sock count).1.bytes = [] then
    .error ((netRead r.sock count).1.rc inPayload, { r with sock := (netRead r.sock count).2 })
  else f (netRead r.sock count).1.bytes { r with sock := (netRead r.sock count).2 }

/-- Read the command, if there is none yet. -/
def readCommand (r : Reader) : ReadStep :=
  if r.inPacket.command = 0 then
    r.read false 1 fun bytes r =>
      .ok { r with inPacket := { r.inPacket with command := bytes.headD 0 } }
  else .ok r

/-- The packet with one more byte of its length. -/
def MosqPacket.addDigit (p : MosqPacket) (byte : UInt8) : MosqPacket :=
  { p with
    remainingCount := p.remainingCount + 1
    remainingLength := p.remainingLength + (byte &&& 127).toNat * p.remainingMult
    remainingMult := p.remainingMult * 128 }

/-- The loop that reads the remaining length, with `left` more bytes of it allowed. -/
def readDigits : ℕ → Reader → ReadStep
  | 0, r => r.read false 1 fun _ r => .error (.protocol,
      { r with inPacket := { r.inPacket with remainingCount := r.inPacket.remainingCount + 1 } })
  | left + 1, r => r.read false 1 fun bytes r =>
      if bytes.headD 0 &&& 128 ≠ 0 then
        readDigits left { r with inPacket := r.inPacket.addDigit (bytes.headD 0) }
      else .ok { r with inPacket := r.inPacket.addDigit (bytes.headD 0) }

/-- Allocate the payload, when its length is known. -/
def allocPayload (alloc : Bool) (r : Reader) : ReadStep :=
  if r.inPacket.remainingLength > 0 then
    if !alloc then .error (.nomem, r)
    else .ok { r with inPacket := { r.inPacket with
      payload := Cells.alloc r.inPacket.remainingLength
      toProcess := r.inPacket.remainingLength
      haveRemaining := true } }
  else .ok { r with inPacket := { r.inPacket with haveRemaining := true } }

/-- Read the remaining length and allocate the payload, if that has not been done. -/
def readRemaining (alloc : Bool) (r : Reader) : ReadStep :=
  if r.inPacket.haveRemaining then .ok r
  else readDigits (4 - r.inPacket.remainingCount) r >>= allocPayload alloc

/-- The loop that reads the payload. Every read that it goes on after gives at least one byte, so
`to_process` passes are enough. -/
def readPayload : ℕ → Reader → ReadStep
  | 0, r => .ok r
  | fuel + 1, r =>
    if r.inPacket.toProcess = 0 then .ok r
    else r.read true r.inPacket.toProcess fun bytes r =>
      match Cells.write r.inPacket.payload r.inPacket.pos bytes with
      | none => .undefined
      | some payload => readPayload fuel { r with inPacket := { r.inPacket with
          payload := payload
          toProcess := r.inPacket.toProcess - bytes.length
          pos := r.inPacket.pos + bytes.length } }

/-- Read what is left of the payload, and go back to its start. -/
def receivePayload (r : Reader) : ReadStep :=
  readPayload r.inPacket.toProcess r >>= fun r =>
    .ok { r with inPacket := { r.inPacket with pos := 0 } }

/-- `_mosquitto_packet_read` up to the call that handles the packet. -/
def packetReceive (alloc : Bool) (r : Reader) : ReadStep :=
  readCommand r >>= fun r => readRemaining alloc r >>= receivePayload

/-- `_mosquitto_packet_cleanup`. -/
def packetCleanup (packet : MosqPacket) : MosqPacket :=
  { packet with
    command := 0
    haveRemaining := false
    remainingCount := 0
    remainingMult := 1
    remainingLength := 0
    payload := []
    toProcess := 0
    pos := 0 }

/-! ### The format, byte by byte -/

/-- How far a reader of single bytes is. -/
inductive ReadState
  /-- Between two packets. -/
  | idle
  /-- In the length, of which `count` bytes have been read. -/
  | length (command : UInt8) (count mult sum : ℕ)
  /-- In what follows it, of which `done` has been read. -/
  | body (command : UInt8) (n : ℕ) (done : Bytes)
  /-- A fifth byte of length. -/
  | refused
  /-- A command that is zero. -/
  | stray
  deriving DecidableEq

/-- Reading one byte. -/
def ReadState.step : ReadState → UInt8 → ReadState × List Frame
  | .idle, byte => if byte = 0 then (.stray, []) else (.length byte 0 1 0, [])
  | .length command count mult sum, byte =>
    if count = 4 then (.refused, [])
    else if byte &&& 128 ≠ 0 then
      (.length command (count + 1) (mult * 128) (sum + (byte &&& 127).toNat * mult), [])
    else if sum + (byte &&& 127).toNat * mult = 0 then (.idle, [⟨command, []⟩])
    else (.body command (sum + (byte &&& 127).toNat * mult) [], [])
  | .body command n done, byte =>
    if done.length + 1 = n then (.idle, [⟨command, done ++ [byte]⟩])
    else (.body command n (done ++ [byte]), [])
  | .refused, _ => (.refused, [])
  | .stray, _ => (.stray, [])

/-- The state behind the last byte of the length, and the frame if that is its end. -/
def afterLength (command : UInt8) (n : ℕ) : ReadState × List Frame :=
  if n = 0 then (.idle, [⟨command, []⟩]) else (.body command n [], [])

section Format

open Framing

/-- The last digit of a length has its top bit clear, -/
theorem lastDigit {d : ℕ} (h : d < 128) :
    UInt8.ofNat d &&& 128 = 0 ∧ (UInt8.ofNat d &&& 127).toNat = d := by
  have key : ∀ d < 128, UInt8.ofNat d &&& 128 = 0 ∧ (UInt8.ofNat d &&& 127).toNat = d := by
    decide +kernel
  exact key d h

/-- and the others have it set. -/
theorem innerDigit {d : ℕ} (h : d < 128) :
    (UInt8.ofNat d ||| 0x80) &&& 128 ≠ 0 ∧ ((UInt8.ofNat d ||| 0x80) &&& 127).toNat = d := by
  have key : ∀ d < 128, (UInt8.ofNat d ||| 0x80) &&& 128 ≠ 0 ∧
      ((UInt8.ofNat d ||| 0x80) &&& 127).toNat = d := by
    decide +kernel
  exact key d h

/-- The digits of a length add up to it. -/
theorem feed_base128 {command : UInt8} {ds : List ℕ} (hne : ds ≠ [])
    (hlt : ∀ d ∈ ds, d < 128) {count mult sum : ℕ} (hcount : count + ds.length ≤ 4) :
    feed ReadState.step (.length command count mult sum) (base128 ds) =
      afterLength command (sum + Nat.ofDigits 128 ds * mult) := by
  induction ds using base128.induct generalizing count mult sum with
  | case1 => exact absurd rfl hne
  | case2 d =>
    obtain ⟨htop, hlow⟩ := lastDigit (hlt d List.mem_cons_self)
    have hc : count ≠ 4 := by rw [List.length_singleton] at hcount; omega
    rw [base128, feed_singleton, ReadState.step, if_neg hc, if_neg (by simpa using htop), hlow,
      Nat.ofDigits_singleton, afterLength]
  | case3 d e ds ih =>
    obtain ⟨htop, hlow⟩ := innerDigit (hlt d List.mem_cons_self)
    rw [List.length_cons] at hcount
    have hc : count ≠ 4 := by rw [List.length_cons] at hcount; omega
    have hrest : feed ReadState.step (.length command (count + 1) (mult * 128) (sum + d * mult))
        (base128 (e :: ds)) =
        afterLength command (sum + d * mult + Nat.ofDigits 128 (e :: ds) * (mult * 128)) :=
      ih (List.cons_ne_nil e ds) (fun x hx => hlt x (List.mem_cons_of_mem d hx)) (by omega)
    have hsum : sum + d * mult + Nat.ofDigits 128 (e :: ds) * (mult * 128) =
        sum + Nat.ofDigits 128 (d :: e :: ds) * mult := by
      have hd : Nat.ofDigits 128 (d :: e :: ds) = d + 128 * Nat.ofDigits 128 (e :: ds) :=
        Nat.ofDigits_cons
      rw [hd]
      ring
    rw [base128, feed_cons, ReadState.step, if_neg hc, if_pos htop, hlow, hrest, hsum,
      List.nil_append]

/-- A part of what follows the length. -/
theorem feed_body {command : UInt8} {n : ℕ} {done bytes : Bytes}
    (h : done.length + bytes.length < n) :
    feed ReadState.step (.body command n done) bytes = (.body command n (done ++ bytes), []) := by
  induction bytes generalizing done with
  | nil => simp
  | cons b bytes ih =>
    rw [List.length_cons] at h
    have hne : done.length + 1 ≠ n := by omega
    rw [feed_cons, ReadState.step, if_neg hne, ih (by simp; omega)]
    simp

/-- The last part of what follows the length. -/
theorem feed_body_last {command : UInt8} {n : ℕ} {done bytes : Bytes} (hne : bytes ≠ [])
    (h : done.length + bytes.length = n) :
    feed ReadState.step (.body command n done) bytes =
      (.idle, [⟨command, done ++ bytes⟩]) := by
  obtain ⟨init, last, rfl⟩ : ∃ init last, bytes = init ++ [last] :=
    ⟨bytes.dropLast, bytes.getLast hne, (List.dropLast_concat_getLast hne).symm⟩
  rw [List.length_append, List.length_singleton] at h
  rw [feed_append, feed_body (by omega), feed_singleton, ReadState.step,
    if_pos (by rw [List.length_append]; omega)]
  simp

/-- **A frame is read back.** -/
theorem delimits_frame {f : Frame} (h : f.WellFormed) :
    Delimits ReadState.step .idle frame f := by
  obtain ⟨command, body⟩ := f
  have hcommand : command ≠ 0 := h.1
  have hcount : (lengthDigits body.length).length ≤ 4 := length_lengthDigits_le_iff.mpr h.2
  have hdigits : feed ReadState.step (.length command 0 1 0)
      (base128 (lengthDigits body.length)) = afterLength command body.length := by
    rw [feed_base128 (lengthDigits_ne_nil _) (fun _ hd => lt_of_mem_lengthDigits hd)
      (by omega), ofDigits_lengthDigits]
    simp
  rw [Delimits, frame, Frame.head, List.cons_append, feed_cons, ReadState.step, if_neg hcommand,
    feed_append, hdigits, afterLength]
  by_cases hnil : body = []
  · subst hnil
    rfl
  · rw [if_neg (by simpa using hnil), feed_body_last hnil (by simp)]
    rfl

end Format

/-! ### The calls and the bytes -/

/-- Every read of the socket gives bytes until there are none left. -/
def Flowing (sock : List Segment) : Prop := ∀ s ∈ sock, s.bytes ≠ []

/-- The codes after a read that gave no bytes. -/
def SocketRc (rc : MosqErr) : Prop := rc = .success ∨ rc = .connLost ∨ rc = .errno

/-- What the socket reports is an error of the socket. -/
theorem socketRc_rc (inPayload : Bool) (s : Segment) : SocketRc (s.rc inPayload) := by
  cases s <;> cases inPayload <;> simp [Segment.rc, SocketRc]

/-- And a read leaves it so. -/
theorem flowing_netRead {sock : List Segment} (h : Flowing sock) (count : ℕ) :
    Flowing (netRead sock count).2 := by
  cases sock with
  | nil => simpa [netRead] using h
  | cons s rest =>
    have hs : s.bytes ≠ [] := h s List.mem_cons_self
    have hrest : Flowing rest := fun t ht => h t (List.mem_cons_of_mem s ht)
    cases s with
    | data bytes ne_nil =>
      rw [netRead]
      by_cases hc : 0 < count ∧ count < bytes.length
      · rw [dif_pos hc]
        intro t ht
        rcases List.mem_cons.mp ht with rfl | ht
        · exact drop_ne_nil hc
        · exact hrest t ht
      · rw [dif_neg hc]
        split
        · exact h
        · exact hrest
    | eagain => exact absurd rfl hs
    | eof => exact absurd rfl hs
    | connReset => exact absurd rfl hs
    | other => exact absurd rfl hs

/-- A read that gives no bytes of a socket with bytes only has come to its end. -/
theorem netRead_of_flowing {sock : List Segment} (h : Flowing sock) {count : ℕ}
    (hcount : 0 < count) (hnil : (netRead sock count).1.bytes = []) :
    (netRead sock count).2 = [] := by
  cases sock with
  | nil => rfl
  | cons s rest =>
    have hs : s.bytes ≠ [] := h s List.mem_cons_self
    cases s with
    | data bytes ne_nil =>
      rw [netRead] at hnil
      by_cases hc : 0 < count ∧ count < bytes.length
      · rw [dif_pos hc] at hnil
        exact absurd hnil (take_ne_nil hc)
      · rw [dif_neg hc, if_neg (by omega)] at hnil
        exact absurd hnil ne_nil
    | eagain => exact absurd rfl hs
    | eof => exact absurd rfl hs
    | connReset => exact absurd rfl hs
    | other => exact absurd rfl hs

/-- **The rule for a read**: it gives no bytes and the call returns, or it gives some. -/
theorem Reader.read_rule {r : Reader} {inPayload : Bool} {count : ℕ} {f : Bytes → Reader → ReadStep}
    {P : ReadStep → Prop} (hcount : 0 < count)
    (hnone : ∀ rc sock, SocketRc rc → streamBytes r.sock = streamBytes sock →
      (Flowing r.sock → sock = []) → P (.error (rc, { r with sock := sock })))
    (hsome : ∀ bytes sock, bytes ≠ [] → bytes.length ≤ count →
      streamBytes r.sock = bytes ++ streamBytes sock → (Flowing r.sock → Flowing sock) →
      P (f bytes { r with sock := sock })) : P (r.read inPayload count f) := by
  have hstream := streamBytes_netRead r.sock count
  rw [Reader.read]
  split
  · rename_i hnil
    rw [hnil, List.nil_append] at hstream
    exact hnone _ _ (socketRc_rc _ _) hstream fun h => netRead_of_flowing h hcount hnil
  · rename_i hne
    exact hsome _ _ hne (length_netRead_le _ _) hstream fun h => flowing_netRead h count

/-- What comes behind a read comes behind each of its outcomes. -/
theorem Reader.read_bind (r : Reader) (inPayload : Bool) (count : ℕ)
    (f : Bytes → Reader → ReadStep) (g : Reader → ReadStep) :
    (r.read inPayload count f >>= g) = r.read inPayload count fun bytes r => f bytes r >>= g := by
  rw [Reader.read, Reader.read]
  split <;> rfl

/-- `in_packet` keeps what a reader of single bytes knows. -/
def MosqPacket.Shows (p : MosqPacket) : ReadState → Prop
  | .idle => p = packetCleanup p
  | .length command count mult sum => command ≠ 0 ∧ count ≤ 4 ∧
      p = { packetCleanup p with
        command := command, remainingCount := count, remainingMult := mult,
        remainingLength := sum }
  | .body command n done => command ≠ 0 ∧ done.length < n ∧ p.command = command ∧
      p.haveRemaining = true ∧ p.remainingLength = n ∧ p.payload = Cells.filled n done ∧
      p.pos = done.length ∧ p.toProcess = n - done.length
  | .refused => False
  | .stray => False

/-- `in_packet` holds a whole packet, from the start of what follows the length. -/
structure MosqPacket.Complete (p : MosqPacket) (f : Frame) : Prop where
  command_eq : p.command = f.command
  payload_eq : p.payload = f.body.map some
  remainingLength_eq : p.remainingLength = f.body.length
  pos_eq : p.pos = 0

/-- What a call has done with the bytes it took from `sock`, when `in_packet` kept `st` before. -/
def ReceiveSpec (alloc : Bool) (st : ReadState) (sock : List Segment) : ReadStep → Prop
  | .undefined => False
  | .error (rc, r) => ∃ taken st', streamBytes sock = taken ++ streamBytes r.sock ∧
      Framing.feed ReadState.step st taken = (st', []) ∧
      ((rc = .protocol ∧ st' = .refused) ∨ (rc = .nomem ∧ alloc = false) ∨
        (SocketRc rc ∧ r.inPacket.Shows st' ∧ (Flowing sock → r.sock = [])))
  | .ok r => ∃ taken f, streamBytes sock = taken ++ streamBytes r.sock ∧
      Framing.feed ReadState.step st taken = (.idle, [f]) ∧ r.inPacket.Complete f ∧
      (Flowing sock → Flowing r.sock)

/-- What has been taken before belongs to it. -/
theorem ReceiveSpec.append {alloc : Bool} {st st₁ : ReadState} {sock sock₁ : List Segment}
    {taken : Bytes} {out : ReadStep} (hstream : streamBytes sock = taken ++ streamBytes sock₁)
    (hfeed : Framing.feed ReadState.step st taken = (st₁, []))
    (hflow : Flowing sock → Flowing sock₁) (h : ReceiveSpec alloc st₁ sock₁ out) :
    ReceiveSpec alloc st sock out := by
  cases out with
  | undefined => exact h
  | error e =>
    obtain ⟨taken₁, st', hstream₁, hfeed₁, hcases⟩ := h
    refine ⟨taken ++ taken₁, st', by rw [hstream, hstream₁, List.append_assoc], ?_, ?_⟩
    · rw [Framing.feed_append, hfeed]
      simp [hfeed₁]
    · rcases hcases with hp | hm | ⟨hrc, hshows, hnil⟩
      · exact .inl hp
      · exact .inr (.inl hm)
      · exact .inr (.inr ⟨hrc, hshows, fun hf => hnil (hflow hf)⟩)
  | ok r =>
    obtain ⟨taken₁, f, hstream₁, hfeed₁, hcomplete, hflow₁⟩ := h
    refine ⟨taken ++ taken₁, f, by rw [hstream, hstream₁, List.append_assoc], ?_, hcomplete,
      fun hf => hflow₁ (hflow hf)⟩
    rw [Framing.feed_append, hfeed]
    simp [hfeed₁]

/-- With nothing left of the payload there is nothing to read, -/
theorem readPayload_of_toProcess {r : Reader} (h : r.inPacket.toProcess = 0) (fuel : ℕ) :
    readPayload fuel r = .ok r := by
  cases fuel with
  | zero => rfl
  | succ fuel => rw [readPayload, if_pos h]

/-- and the packet has arrived. -/
theorem receivePayload_of_toProcess {r : Reader} (h : r.inPacket.toProcess = 0) :
    receivePayload r = .ok { r with inPacket := { r.inPacket with pos := 0 } } := by
  rw [receivePayload, readPayload_of_toProcess h, CallOutcome.ok_bind]

/-- Reading the payload takes its bytes. -/
theorem receiveSpec_readPayload {alloc : Bool} {command : UInt8} {n : ℕ} {done : Bytes} {fuel : ℕ}
    {r : Reader} (h : r.inPacket.Shows (.body command n done)) (hfuel : n - done.length ≤ fuel) :
    ReceiveSpec alloc (.body command n done) r.sock
      (readPayload fuel r >>= fun r =>
        .ok { r with inPacket := { r.inPacket with pos := 0 } }) := by
  induction fuel generalizing done r with
  | zero =>
    have hlt : done.length < n := h.2.1
    omega
  | succ fuel ih =>
    obtain ⟨hcommand, hlt, hc, hhave, hlength, hpayload, hpos, hto⟩ := h
    have hne : r.inPacket.toProcess ≠ 0 := by omega
    rw [readPayload, if_neg hne, Reader.read_bind]
    refine Reader.read_rule (by omega) ?_ ?_
    · intro rc sock hrc hstream hend
      exact ⟨[], _, hstream, rfl,
        .inr (.inr ⟨hrc, ⟨hcommand, hlt, hc, hhave, hlength, hpayload, hpos, hto⟩, hend⟩)⟩
    · intro bytes sock hbytes hle hstream hflow
      have hpos' : 0 < bytes.length := List.length_pos_iff.mpr hbytes
      have hwrite : Cells.write r.inPacket.payload r.inPacket.pos bytes =
          some (Cells.filled n (done ++ bytes)) := by
        rw [hpayload, hpos]
        exact Cells.write_filled (by omega)
      simp only [hwrite]
      by_cases hlast : done.length + bytes.length = n
      · rw [readPayload_of_toProcess (by simp only; omega), CallOutcome.ok_bind]
        refine ⟨bytes, ⟨command, done ++ bytes⟩, hstream, feed_body_last hbytes hlast, ?_, hflow⟩
        exact ⟨hc, Cells.filled_of_length (by simp; omega), by simp; omega, rfl⟩
      · have hmore : done.length + bytes.length < n := by omega
        refine ReceiveSpec.append hstream (feed_body hmore) hflow (ih ?_ (by simp; omega))
        refine ⟨hcommand, by simp; omega, hc, hhave, hlength, rfl, ?_, ?_⟩
        · simp only [hpos, List.length_append]
        · simp only [hto, List.length_append]
          omega

/-- The loop over the payload, by what is still to come. -/
theorem receiveSpec_receivePayload {alloc : Bool} {command : UInt8} {n : ℕ} {done : Bytes}
    {r : Reader} (h : r.inPacket.Shows (.body command n done)) :
    ReceiveSpec alloc (.body command n done) r.sock (receivePayload r) :=
  receiveSpec_readPayload h (Nat.le_of_eq h.2.2.2.2.2.2.2.symm)

/-- `in_packet` when the length is known and nothing has been allocated for it. -/
structure MosqPacket.HasLength (p : MosqPacket) (command : UInt8) (n : ℕ) : Prop where
  command_ne : command ≠ 0
  command_eq : p.command = command
  remainingLength_eq : p.remainingLength = n
  payload_eq : p.payload = []
  toProcess_eq : p.toProcess = 0
  pos_eq : p.pos = 0

/-- What follows the length, from its allocation on. -/
theorem receiveSpec_allocPayload {alloc : Bool} {command : UInt8} {count mult sum n : ℕ}
    {r : Reader} {sock : List Segment} {byte : UInt8} (h : r.inPacket.HasLength command n)
    (hstream : streamBytes sock = [byte] ++ streamBytes r.sock)
    (hfeed : Framing.feed ReadState.step (.length command count mult sum) [byte] =
      afterLength command n) (hflow : Flowing sock → Flowing r.sock) :
    ReceiveSpec alloc (.length command count mult sum) sock
      (allocPayload alloc r >>= receivePayload) := by
  obtain ⟨hne, hcommand, hlength, hpayload, hto, hpos⟩ := h
  rw [allocPayload, hlength]
  by_cases hn : n > 0
  · rw [afterLength, if_neg (by omega)] at hfeed
    rw [if_pos hn]
    cases alloc with
    | false => exact ⟨[byte], _, hstream, hfeed, .inr (.inl ⟨rfl, rfl⟩)⟩
    | true =>
      refine ReceiveSpec.append hstream hfeed hflow (receiveSpec_receivePayload
        ⟨hne, hn, hcommand, rfl, hlength, ?_, hpos, rfl⟩)
      simp
  · have hzero : n = 0 := by omega
    rw [afterLength, if_pos hzero] at hfeed
    have hdone := receivePayload_of_toProcess
      (r := ⟨{ r.inPacket with haveRemaining := true }, r.sock⟩) hto
    rw [if_neg hn, CallOutcome.ok_bind, hdone]
    refine ⟨[byte], ⟨command, []⟩, hstream, hfeed, ⟨hcommand, ?_, ?_, rfl⟩, hflow⟩
    · simp [hpayload]
    · simp [hlength, hzero]

/-- Reading the length takes its bytes. -/
theorem receiveSpec_readDigits {alloc : Bool} {command : UInt8} {left count mult sum : ℕ}
    {r : Reader} (h : r.inPacket.Shows (.length command count mult sum))
    (hleft : left + count = 4) :
    ReceiveSpec alloc (.length command count mult sum) r.sock
      (readDigits left r >>= fun r => allocPayload alloc r >>= receivePayload) := by
  have hshows := h
  obtain ⟨hne, hcount, hp⟩ := h
  induction left generalizing count mult sum r with
  | zero =>
    rw [readDigits, Reader.read_bind]
    refine Reader.read_rule (by omega) ?_ ?_
    · intro rc sock hrc hstream hend
      exact ⟨[], _, hstream, rfl, .inr (.inr ⟨hrc, hshows, hend⟩)⟩
    · intro bytes sock hbytes hle hstream hflow
      obtain ⟨byte, rfl⟩ : ∃ byte, bytes = [byte] :=
        List.length_eq_one_iff.mp (by have := List.length_pos_iff.mpr hbytes; omega)
      have hfour : count = 4 := by omega
      refine ⟨[byte], .refused, hstream, ?_, .inl ⟨rfl, rfl⟩⟩
      rw [Framing.feed_singleton, ReadState.step, if_pos hfour]
  | succ left ih =>
    rw [readDigits, Reader.read_bind]
    refine Reader.read_rule (by omega) ?_ ?_
    · intro rc sock hrc hstream hend
      exact ⟨[], _, hstream, rfl, .inr (.inr ⟨hrc, hshows, hend⟩)⟩
    · intro bytes sock hbytes hle hstream hflow
      obtain ⟨byte, rfl⟩ : ∃ byte, bytes = [byte] :=
        List.length_eq_one_iff.mp (by have := List.length_pos_iff.mpr hbytes; omega)
      have hfour : count ≠ 4 := by omega
      have hmore : r.inPacket.addDigit byte = { packetCleanup (r.inPacket.addDigit byte) with
          command := command, remainingCount := count + 1, remainingMult := mult * 128,
          remainingLength := sum + (byte &&& 127).toNat * mult } := by
        rw [hp]
        rfl
      by_cases htop : byte &&& 128 ≠ 0
      · rw [List.headD_cons, if_pos htop]
        have hnext : MosqPacket.Shows (r.inPacket.addDigit byte) (.length command (count + 1)
            (mult * 128) (sum + (byte &&& 127).toNat * mult)) := ⟨hne, by omega, hmore⟩
        refine ReceiveSpec.append hstream ?_ hflow (ih (by omega) hnext (by omega) hmore)
        rw [Framing.feed_singleton, ReadState.step, if_neg hfour, if_pos htop]
      · rw [List.headD_cons, if_neg htop, CallOutcome.ok_bind]
        refine receiveSpec_allocPayload (n := sum + (byte &&& 127).toNat * mult) ?_ hstream ?_ hflow
        · rw [hp]
          exact ⟨hne, rfl, rfl, rfl, rfl, rfl⟩
        · rw [Framing.feed_singleton, ReadState.step, if_neg hfour, if_neg htop, afterLength]

/-- Reading on from the length, with a command there already. -/
theorem receiveSpec_length {alloc : Bool} {command : UInt8} {count mult sum : ℕ} {r : Reader}
    (h : r.inPacket.Shows (.length command count mult sum)) :
    ReceiveSpec alloc (.length command count mult sum) r.sock
      (readRemaining alloc r >>= receivePayload) := by
  have hhave : r.inPacket.haveRemaining = false := by rw [h.2.2]; rfl
  have hcount : r.inPacket.remainingCount = count := by rw [h.2.2]
  have hbind : (readRemaining alloc r >>= receivePayload) =
      readDigits (4 - count) r >>= fun r => allocPayload alloc r >>= receivePayload := by
    rw [readRemaining, if_neg (by simp [hhave]), hcount]
    cases readDigits (4 - count) r <;> rfl
  rw [hbind]
  exact receiveSpec_readDigits h (by have := h.2.1; omega)

/-- Once out of step, or refused, the bytes mean nothing. -/
theorem feed_stray (bytes : Bytes) :
    Framing.feed ReadState.step .stray bytes = (.stray, []) :=
  Framing.feed_of_absorbing (fun _ => rfl) bytes

theorem feed_refused (bytes : Bytes) :
    Framing.feed ReadState.step .refused bytes = (.refused, []) :=
  Framing.feed_of_absorbing (fun _ => rfl) bytes

/-- **What a call does is what its bytes do one by one**, unless a command is zero. -/
theorem packetReceive_spec {st : ReadState} {r : Reader} (h : r.inPacket.Shows st)
    (hstray : (Framing.feed ReadState.step st (streamBytes r.sock)).1 ≠ .stray) (alloc : Bool) :
    ReceiveSpec alloc st r.sock (packetReceive alloc r) := by
  rw [packetReceive]
  cases st with
  | idle =>
    have hcommand : r.inPacket.command = 0 := by
      rw [show r.inPacket = packetCleanup r.inPacket from h]
      rfl
    rw [readCommand, if_pos hcommand, Reader.read_bind]
    refine Reader.read_rule (by omega) ?_ ?_
    · intro rc sock hrc hstream hend
      exact ⟨[], _, hstream, rfl, .inr (.inr ⟨hrc, h, hend⟩)⟩
    · intro bytes sock hbytes hle hstream hflow
      obtain ⟨byte, rfl⟩ : ∃ byte, bytes = [byte] :=
        List.length_eq_one_iff.mp (by have := List.length_pos_iff.mpr hbytes; omega)
      have hbyte : byte ≠ 0 := by
        rintro rfl
        rw [hstream, Framing.feed_append] at hstray
        exact hstray (by rw [Framing.feed_singleton, ReadState.step, if_pos rfl, feed_stray])
      rw [List.headD_cons, CallOutcome.ok_bind]
      have hfeed : Framing.feed ReadState.step .idle [byte] = (.length byte 0 1 0, []) := by
        rw [Framing.feed_singleton, ReadState.step, if_neg hbyte]
      refine ReceiveSpec.append hstream hfeed hflow (receiveSpec_length ?_)
      · refine ⟨hbyte, Nat.zero_le 4, ?_⟩
        rw [show r.inPacket = packetCleanup r.inPacket from h]
        rfl
  | length command count mult sum =>
    have hcommand : r.inPacket.command ≠ 0 := by
      rw [h.2.2]
      exact h.1
    rw [readCommand, if_neg hcommand, CallOutcome.ok_bind]
    exact receiveSpec_length h
  | body command n done =>
    have hcommand : r.inPacket.command ≠ 0 := by
      rw [h.2.2.1]
      exact h.1
    have hhave : r.inPacket.haveRemaining = true := h.2.2.2.1
    rw [readCommand, if_neg hcommand, CallOutcome.ok_bind, readRemaining, if_pos hhave,
      CallOutcome.ok_bind]
    exact receiveSpec_receivePayload h
  | refused => exact h.elim
  | stray => exact h.elim

end Psn

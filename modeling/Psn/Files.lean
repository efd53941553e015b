import Psn.Api
import Psn.Cli
import Psn.FriendArray
import Psn.Printing

/-!
# The files of the command line

`psn_cli_save_file` has the profile serialized into a buffer of 2048 bytes and writes the string
that is there to a file. `psn_cli_load_file` reads up to 2048 bytes of a file into a buffer of the
same size and stores a terminator behind them. Neither compares a length with the buffer, and the
text of a profile grows with every user, so a profile can become too long for its file.

The states that the client gets into are those of `cliStep`, in which a line is interpreted or a
message arrives. The option `-c` does what the commands `load_file` and `connect` do.

## Main definitions

* `psnCliSaveFile`, `psnCliLoadFile`: the two functions
* `execCall`, `cliStep`: what a call and a line do to the client
* `CarriesWhole`, `FitsFile`: a profile that is carried whole, and the bounds it keeps

## Main results

* `configText_of_lt`, `configText_eq_none`: which files are read back
* `always_carriesWhole_iff`: the runs in which every profile is carried whole
-/

namespace Psn

open Buffer KeyedChain PartialMachine Tomcrypt

variable {τ κ : Type} [Tomcrypt κ] [UserTable τ κ]

/-! ### Saving and loading a file -/

/-- `psn_cli_save_file`: what it writes to the file. Nobody looks whether `fopen` opened it. -/
def psnCliSaveFile (J : Jansson) (psn : PsnT τ κ) (stack : KeyBuffers) (opened : Bool) :
    Option (Bytes × List Effect) := do
  let (_, configString, effects) ← psnSerializeConfig J psn stack 2048
  if opened then return (configString.1.takeWhile (· ≠ 0), effects) else none

/-- The string in `config_string` once the file is read and the terminator is stored. -/
def configText (file : Bytes) (configString : Sized 2048) : Option CStr := do
  -- for a file that fills the buffer, this is the size of the buffer
  let len := min file.length 2048
  let configString ← store (overwrite configString.1 (file.take 2048)) len 0
  terminated configString

/-- `psn_cli_load_file`: its result, the instance and the effects. A file that cannot be opened is
`none`. -/
def psnCliLoadFile (J : Jansson) (psn : PsnT τ κ) (file : Option Bytes)
    (configString pkKeyBuf : Sized 2048) : Option (ℤ × PsnT τ κ × List Effect) :=
  match file with
  | none => some (-1, psn, [])
  | some file => do
    let text ← configText file configString
    let (_, psn, effects) ← psnDeserializeConfig J psn text pkKeyBuf
    return (0, psn, effects)

/-! ### The states of the command line -/

/-- What the run decides about the calls of a line: the results of the libraries, the bytes in the
stack buffers, and the file. -/
structure CliIo (κ : Type) where
  /-- The results for `psn_connect`. -/
  connect : ConnectIo
  /-- The results for `mosquitto_publish`. -/
  publish : PublishIo
  /-- The random bytes for `rsa_encrypt_key`. -/
  prng : Bytes
  /-- Whether `rsa_make_key` succeeds. -/
  made : Bool
  /-- The key that it leaves. -/
  pkKey : κ
  /-- The stack buffers of `psn_serialize_config`. -/
  stack : KeyBuffers
  /-- `config_string` of `psn_cli_load_file`. -/
  configString : Sized 2048
  /-- `pk_key_buf` of `psn_deserialize_config`. -/
  pkKeyBuf : Sized 2048
  /-- The file to load, if it can be opened. -/
  file : Option Bytes
  /-- The file to save can be opened. -/
  opened : Bool

/-- The process after an operation. -/
def Proc.after (J : Jansson) (p : Proc τ κ) (op : ApiOp κ) : Option (Proc τ κ) :=
  (p.apiStep J op).map Prod.snd

/-- A call on the client. A string that is NULL is read by every function that gets one. -/
def execCall (J : Jansson) (io : CliIo κ) (p : Proc τ κ) : CliCall → Option (Proc τ κ)
  | .setUsername username password => do p.after J (.setUsername (← username) (← password))
  | .setShownName shownName => do p.after J (.setShownName (← shownName))
  | .setServer hostname port => do p.after J (.setServer (← hostname) port)
  | .makeFriendReq target message => do
    p.after J (.lists (.makeFriendReq (← target) (← message) io.publish))
  | .acceptFriendReq target => do p.after J (.lists (.acceptFriendReq (← target) io.publish))
  | .refuseFriendReq target => do p.after J (.lists (.refuseFriendReq (← target)))
  | .deleteFriend target => do p.after J (.lists (.deleteFriend (← target)))
  | .sendMessage targetUser message => do
    p.after J (.lists (.sendMessage (← targetUser) (← message) io.publish))
  | .sendEncryptedMessage targetUser message => do
    p.after J (.sendEncryptedMessage (← targetUser) (← message) io.prng io.publish)
  | .generateNewKey => p.after J (.generateNewKey io.made io.pkKey)
  | .connect => p.after J (.connect io.connect)
  | .disconnect => p.after J .disconnect
  | .loadFile filename => do
    let _ ← filename
    let (_, psn, _) ← psnCliLoadFile J p.psn io.file io.configString io.pkKeyBuf
    return { p with psn }
  | .saveFile filename => do
    let _ ← filename
    let _ ← psnCliSaveFile J p.psn io.stack io.opened
    return p
  | .printFriendList => (psnCliPrintFriendList p.psn).map fun _ => p
  | .printHelp => some p

/-- A step of the client: `main` interprets a line, or a message arrives. -/
inductive CliStep (κ : Type)
  | line (raw : Field 2048) (io : CliIo κ)
  | receive (m : Message)

/-- A step. What it prints and publishes is left out. -/
def cliStep (J : Jansson) (p : Proc τ κ) : CliStep κ → Option (Unit × Proc τ κ)
  | .line raw io =>
    ((lineOutcome (textOfLine raw.1)).perform (execCall J io) p).map fun q => ((), q)
  | .receive m => (p.after J (.lists (.receive m))).map fun q => ((), q)

/-! ### Profiles that are carried whole -/

/-- The file path carries the profile whole: what is saved is the text of its document, and with
this text in the file, it is what a load hands over, whatever the stack buffers hold. -/
def CarriesWhole (J : Jansson) (psn : PsnT τ κ) : Prop :=
  ∀ stack : KeyBuffers, ∃ root effects text, configRoot J psn stack = some (root, effects) ∧
    J.dumps root = some text ∧ psnCliSaveFile J psn stack true = some (text, effects) ∧
    ∀ configString : Sized 2048, configText text configString = some text

/-- The exported keys fit the hex buffer, and the text leaves room for its terminator. -/
structure FitsFile (J : Jansson) (psn : PsnT τ κ) : Prop where
  users : ∀ s ∈ allUsers psn, FitsHexStr (exportedKey s.pubKey)
  own : ∃ out, rsaExport .pkPrivate 2048 psn.pkKey = some out ∧ out.length ≤ 1024 ∧
    profileLength J psn out < 2048

theorem fitsFile_iff {J : Jansson} {psn : PsnT τ κ} : FitsFile J psn ↔
    (∀ s ∈ allUsers psn, ∀ out ∈ exportedKey s.pubKey, out.length ≤ 1024) ∧
      ∃ out ∈ rsaExport .pkPrivate 2048 psn.pkKey, out.length ≤ 1024 ∧
        profileLength J psn out < 2048 :=
  ⟨fun h => ⟨h.users, h.own⟩, fun h => ⟨h.1, h.2⟩⟩

instance (J : Jansson) : DecidablePred fun p : Proc τ κ => FitsFile J p.psn :=
  fun _ => decidable_of_iff _ fitsFile_iff.symm

/-- A short text is read back from its file, with the terminator inside the buffer. -/
theorem configText_of_lt {text : CStr} (hzero : 0 ∉ text) (hlen : text.length < 2048)
    (configString : Sized 2048) : configText text configString = some text := by
  obtain ⟨b, rest, hrest⟩ : ∃ b rest, configString.1.drop text.length = b :: rest :=
    List.exists_cons_of_length_pos (by
      rw [List.length_drop, configString.2]
      omega)
  rw [configText, Nat.min_eq_left (by omega), List.take_of_length_le (by omega), overwrite, hrest,
    store_append]
  exact terminated_append hzero rest

/-- For a file that fills the buffer, the terminator is stored outside of it. -/
theorem configText_eq_none {file : Bytes} (hlen : 2048 ≤ file.length) (configString : Sized 2048) :
    configText file configString = none := by
  have htake : (file.take 2048).length = 2048 := by
    rw [List.length_take]
    omega
  have hbuf : (overwrite configString.1 (file.take 2048)).length ≤ 2048 := by
    rw [length_overwrite (by rw [htake, configString.2]), configString.2]
  rw [configText, Nat.min_eq_right hlen, store_eq_none_iff.mpr hbuf]
  rfl

/-- What `psn_serialize_config` and `psn_cli_save_file` do with a document that was built. -/
theorem psnCliSaveFile_of_configRoot {J : Jansson} {psn : PsnT τ κ} {stack : KeyBuffers}
    {root : Json} {effects : List Effect} {text : CStr}
    (hroot : configRoot J psn stack = some (root, effects)) (htext : J.dumps root = some text)
    (hzero : 0 ∉ text) : psnCliSaveFile J psn stack true =
      if text.length < 2048 then some (text, effects) else none := by
  have hwhole : text.takeWhile (· ≠ 0) = text := List.takeWhile_eq_self_iff.mpr fun b hb => by
    simpa using fun heq : b = 0 => hzero (heq ▸ hb)
  rw [psnCliSaveFile, psnSerializeConfig, hroot]
  simp only [Option.bind_eq_bind, Option.bind_some, htext]
  by_cases hlen : text.length < 2048
  · rw [strcpy_of_lt hlen, if_pos hlen]
    simp only [Option.bind_some, Option.pure_def, if_true, hwhole]
  · rw [strcpy, dif_neg hlen, if_neg hlen]
    rfl

/-- The profiles that are carried whole are those that fit. -/
theorem carriesWhole_iff_fitsFile {J : Jansson} (hJ : Prints J) (psn : PsnT τ κ) :
    CarriesWhole J psn ↔ FitsFile J psn := by
  have hprints : ∀ out, ∃ text, J.dumps (savedRoot J psn out) = some text ∧ 0 ∉ text ∧
      text.length = profileLength J psn out := by
    intro out
    rw [← length_printJson_savedRoot]
    exact hJ _
  constructor
  · intro h
    obtain ⟨root, effects, text, hroot, htext, hsave, -⟩ := h blankStack
    have hfits := fitsBuffers_of_configRoot hroot
    obtain ⟨out, hown, hlen⟩ := hfits.own
    obtain ⟨text', htext', hzero, htextLen⟩ := hprints out
    obtain ⟨effects', hsaved⟩ := exists_configRoot J hfits.users hown hlen blankStack
    rw [psnCliSaveFile_of_configRoot hsaved htext' hzero] at hsave
    obtain ⟨hlt, -⟩ := Option.ite_none_right_eq_some.mp hsave
    exact ⟨hfits.users, out, hown, hlen, htextLen ▸ hlt⟩
  · rintro ⟨husers, out, hown, hlen, hlt⟩ stack
    obtain ⟨text, htext, hzero, htextLen⟩ := hprints out
    obtain ⟨effects, hsaved⟩ := exists_configRoot J husers hown hlen stack
    have hshort : text.length < 2048 := htextLen ▸ hlt
    refine ⟨_, effects, text, hsaved, htext, ?_, configText_of_lt hzero hshort⟩
    rw [psnCliSaveFile_of_configRoot hsaved htext hzero, if_pos hshort]

/-- **The file path.** In a run of the command line every profile is carried whole exactly if each
has an own key, no exported key is longer than 1024 bytes, and the text is shorter than 2048 bytes,
which its users and the digits of its keys add up to. -/
theorem always_carriesWhole_iff {J : Jansson} (hJ : Prints J) (p : Proc τ κ)
    (steps : List (CliStep κ)) :
    Always (cliStep J) (fun q => CarriesWhole J q.psn) p steps ↔
      Always (cliStep J) (fun q => FitsFile J q.psn) p steps :=
  ⟨Always.mono fun (q : Proc τ κ) => (carriesWhole_iff_fitsFile hJ q.psn).mp,
    Always.mono fun (q : Proc τ κ) => (carriesWhole_iff_fitsFile hJ q.psn).mpr⟩

/-- What the libraries do when everything succeeds: a key of 608 bytes is made. -/
def willingIo : CliIo DerKey where
  connect := ⟨some 1, .success, .success⟩
  publish := .ok
  prng := []
  made := true
  pkKey := ⟨some (List.replicate 608 48)⟩
  stack := blankStack
  configString := blankStack.pkKeyBuf
  pkKeyBuf := blankStack.pkKeyBuf
  file := none
  opened := true

/-- A client at its start, with a handle in the memory of the instance. -/
def startProc : Proc (List (User DerKey)) DerKey where
  connected := false
  psn :=
    { mosq := some 1
      username := Field.nil 31
      shownName := Field.nil 31
      password := Field.nil 31
      hostname := Field.nil 255
      port := 0
      friends := []
      friendRequestsOutgoing := []
      friendRequestsIncoming := []
      pkKey := ⟨none⟩ }

/-- A client logs in, gets eight requests from names of 31 letters, and makes a key. -/
def eightRequests : List (CliStep DerKey) :=
  [.line ⟨lit "set name alice secret", by decide⟩ willingIo,
    .line ⟨lit "set server localhost 1883", by decide⟩ willingIo,
    .line ⟨lit "connect", by decide⟩ willingIo] ++
  (List.range 8).map (fun i =>
    .receive ⟨frequestTopic alice.bytes (List.replicate 31 (97 + UInt8.ofNat i)), lit "hi"⟩) ++
  [.line ⟨lit "genkey", by decide⟩ willingIo]

/-- Then the text of the profile is longer than the buffer. -/
theorem not_carriesWhole_eightRequests :
    ¬∀ (p : Proc (List (User DerKey)) DerKey) (steps : List (CliStep DerKey)),
      Always (cliStep (printingJansson .null)) (fun q => CarriesWhole (printingJansson .null) q.psn)
        p steps := by
  intro h
  have hlong : (run (cliStep (printingJansson .null)) startProc eightRequests).any (fun r =>
      decide (r.2.psn.pkKey = willingIo.pkKey ∧
        2048 ≤ profileLength (printingJansson .null) r.2.psn (List.replicate 608 48))) = true := by
    decide +kernel
  have hexport : rsaExport .pkPrivate 2048 willingIo.pkKey = some (List.replicate 608 48) := by
    decide +kernel
  obtain ⟨⟨bs, q⟩, hrun, hq⟩ := (Option.any_eq_true _ _).mp hlong
  obtain ⟨hkey, hlen⟩ := of_decide_eq_true hq
  have hcarries := (h startProc eightRequests).of_run hrun
  obtain ⟨-, out, hown, -, hlt⟩ :=
    (carriesWhole_iff_fitsFile (prints_printingJansson .null) q.psn).mp hcarries
  rw [hkey, hexport] at hown
  obtain rfl : List.replicate 608 48 = out := Option.some_inj.mp hown
  exact absurd hlt (Nat.not_lt.mpr hlen)

/-- The same client, with a key. -/
def keyedStart : Proc (List (User DerKey)) DerKey :=
  { startProc with psn := { startProc.psn with pkKey := ⟨some tinyKey⟩ } }

/-- The client logs in, gets a request, accepts it and saves its profile. -/
def oneRequest : List (CliStep DerKey) :=
  [.line ⟨lit "set name alice secret", by decide⟩ willingIo,
    .line ⟨lit "set server localhost 1883", by decide⟩ willingIo,
    .line ⟨lit "connect", by decide⟩ willingIo,
    .receive ⟨frequestTopic alice.bytes bob.bytes, lit "hi"⟩,
    .line ⟨lit "accept bob", by decide⟩ willingIo,
    .line ⟨lit "save_file alice.json", by decide⟩ willingIo]

/-- It has the friend in the end, and all its profiles fit, so all of them are carried whole. -/
theorem always_carriesWhole_iff_oneRequest : ∃ bs q,
    run (cliStep (printingJansson .null)) keyedStart oneRequest = some (bs, q) ∧
      keys q.psn.friends = [bob.bytes] ∧
      Always (cliStep (printingJansson .null))
        (fun q => CarriesWhole (printingJansson .null) q.psn) keyedStart oneRequest := by
  have hfits : Always (cliStep (printingJansson .null))
      (fun q => FitsFile (printingJansson .null) q.psn) keyedStart oneRequest := by
    decide +kernel
  have hfriend : (run (cliStep (printingJansson .null)) keyedStart oneRequest).any (fun r =>
      decide (keys r.2.psn.friends = [bob.bytes])) = true := by
    decide +kernel
  obtain ⟨⟨bs, q⟩, hrun, hq⟩ := (Option.any_eq_true _ _).mp hfriend
  exact ⟨bs, q, hrun, of_decide_eq_true hq,
    (always_carriesWhole_iff (prints_printingJansson .null) keyedStart oneRequest).mpr hfits⟩

end Psn

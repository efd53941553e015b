import Psn.Hex
import Psn.Types
import Psn.Lib.Tokens

/-!
# The command line

`main` of `psn_cli.c` reads a line, takes it apart with `strtok` and calls the functions of
`psn.h`, and a few of its own. Every command takes the fields it wants from the position that
`strtok` keeps, so each one is a program over the tokeniser, and what it computes from a line is a
function of the fields of the line. For `msg` and `enc` it is also the rest of the line behind the
target, because they take their last token with no separators at all.

Every command compares what it took with NULL before it uses it, except `testenv`.

## Scope

The calls are those of `psn.h` and of the helpers of `psn_cli.c`, with the strings that they are
handed. What they do is not part of this: a line makes some calls and prints some texts, and where a
string is NULL the call is made with NULL. What the loop around the commands does with the end of
the input is in `Psn.CommandLoop`.

## Main definitions

* `CliCall`, `Outcome`: what a line makes `main` do
* `command`: one round of the loop in `main`, without the read
* `lineOutcome`: what it does with a line, as a function of the line
* `commandForms`, `commandForm`: the commands as their user sees them, and the one of a line

## Main results

* `reads_command`: `command` computes `lineOutcome`
* `checksArguments_iff`: the lines for which the calls are those that were asked for
-/

namespace Psn

open Buffer Tokens

/-! ### What a line makes `main` do -/

/-- A call of a function of the client or of the command line. The pointers that `strtok` returned
are passed on as they are, so a string may be NULL. -/
inductive CliCall
  | setUsername (username password : Option CStr)
  | setShownName (shownName : Option CStr)
  | setServer (hostname : Option CStr) (port : Int32)
  | makeFriendReq (target message : Option CStr)
  | acceptFriendReq (target : Option CStr)
  | refuseFriendReq (target : Option CStr)
  | deleteFriend (target : Option CStr)
  | sendMessage (targetUser message : Option CStr)
  | sendEncryptedMessage (targetUser message : Option CStr)
  | generateNewKey
  | connect
  | disconnect
  | loadFile (filename : Option CStr)
  | saveFile (filename : Option CStr)
  | printFriendList
  | printHelp
  deriving DecidableEq

/-- The strings of a call, in order. -/
def CliCall.strings : CliCall → List (Option CStr)
  | .setUsername s t | .makeFriendReq s t | .sendMessage s t | .sendEncryptedMessage s t => [s, t]
  | .setShownName s | .setServer s _ | .acceptFriendReq s | .refuseFriendReq s | .deleteFriend s
  | .loadFile s | .saveFile s => [s]
  | .generateNewKey | .connect | .disconnect | .printFriendList | .printHelp => []

/-- What `main` prints itself. -/
inductive CliNotice
  | exiting
  | missingArgument
  | setMissingArgument
  | wrongArgument
  | network
  | user
  | me
  | notFound (token : CStr)
  deriving DecidableEq

/-- The text of a notice, as `printf` writes it. -/
def CliNotice.text {τ κ : Type} (psn : PsnT τ κ) : CliNotice → CStr
  | .exiting => lit "Exiting ...\n"
  | .missingArgument => lit "* ERROR: missing argument\n"
  | .setMissingArgument => lit "*ERROR: missing argument\n"
  | .wrongArgument => lit "* ERROR: wrong argument\n"
  | .network => lit "hostname: " ++ psn.hostname.1 ++ lit "\nport: " ++
      lit (toString psn.port.toInt) ++ lit "\n"
  | .user => lit "username: " ++ psn.username.1 ++ lit "\nshown name: " ++ psn.shownName.1 ++
      lit "\n"
  | .me => psn.username.1 ++ lit "\n"
  | .notFound token => token ++ lit ": command not found type 'usage' for help\n"

/-- What one round of the loop does: its calls, what it prints and whether it sets `end`. -/
structure Outcome where
  /-- The calls, in order. -/
  calls : List CliCall
  /-- What it prints itself. -/
  printed : List CliNotice
  /-- `end`. -/
  ended : Bool
  deriving DecidableEq

/-- Make some calls. -/
def Outcome.calling (calls : List CliCall) : Outcome := ⟨calls, [], false⟩

/-- Print something and call nothing. -/
def Outcome.printing (notice : CliNotice) : Outcome := ⟨[], [notice], false⟩

/-- The calls of a round on a state that they work on. -/
def Outcome.perform {σ : Type} (exec : σ → CliCall → Option σ) (s : σ) (o : Outcome) : Option σ :=
  o.calls.foldlM exec s

/-! ### The commands -/

/-- The separators `delims`. -/
def delims (c : UInt8) : Bool := c = 32 || c = 10

/-- The empty set of separators. -/
def noDelims (_ : UInt8) : Bool := false

/-- `isdigit`. -/
def isDigit (c : UInt8) : Bool := 48 ≤ c && c ≤ 57

/-- `atoi`, which is `strtol` cut down to an `int`. -/
def atoi (s : CStr) : Int32 :=
  let s := s.dropWhile isSpace
  let digits := if s.head? = some 45 ∨ s.head? = some 43 then s.tail else s
  let n := (digits.takeWhile isDigit).foldl (fun n d => 10 * n + (d.toNat - 48 : ℤ)) 0
  let n := if s.head? = some 45 then -n else n
  Int32.ofInt (max (-9223372036854775808) (min 9223372036854775807 n))

/-- A program over the line. -/
abbrev LineM := StateT Cursor Option

/-- `set name`. -/
def setName : LineM Outcome := do
  let username ← nextToken delims
  let password ← nextToken delims
  if username = none ∨ password = none then return .printing .missingArgument
  return .calling [.setUsername username password]

/-- `set server`. -/
def setServer : LineM Outcome := do
  let hostname ← nextToken delims
  let portStr ← nextToken delims
  if hostname = none ∨ portStr = none then return .printing .missingArgument
  let port := atoi (portStr.getD [])
  return .calling [.setServer hostname port]

/-- `set user`, which reads a field and does nothing with it. -/
def setUser : LineM Outcome := do
  let _ ← nextToken delims
  return .calling []

/-- A command that calls a function on one field. -/
def oneArgument (call : Option CStr → CliCall) : LineM Outcome := do
  let target ← nextToken delims
  if target = none then return .printing .missingArgument
  return .calling [call target]

/-- A command that calls a function on one field and the rest of the line. -/
def targetAndRest (call : Option CStr → Option CStr → CliCall) : LineM Outcome := do
  let targetUser ← nextToken delims
  let message ← nextToken noDelims
  if targetUser = none ∨ message = none then return .printing .missingArgument
  return .calling [call targetUser message]

/-- What follows the second token of `set`. -/
def setSubcommand : Option CStr → LineM Outcome
  | none => return .printing .setMissingArgument
  | some token =>
    if token = lit "name" then setName
    else if token = lit "shown" then oneArgument .setShownName
    else if token = lit "server" then setServer
    else if token = lit "user" then setUser
    else return .printing .wrongArgument

/-- `set`. -/
def setCommand : LineM Outcome := nextToken delims >>= setSubcommand

/-- What follows the second token of `show`. -/
def showSubcommand : Option CStr → LineM Outcome
  | none => return .printing .missingArgument
  | some token =>
    if token = lit "friends" then return .calling [.printFriendList]
    else if token = lit "network" then return .printing .network
    else if token = lit "user" then return .printing .user
    else return .printing .wrongArgument

/-- `show`. -/
def showCommand : LineM Outcome := nextToken delims >>= showSubcommand

/-- `add`. -/
def addCommand : LineM Outcome := do
  let target ← nextToken delims
  let message ← nextToken delims
  if target = none then return .printing .missingArgument
  if message ≠ none then return .calling [.makeFriendReq target message]
  return .calling [.makeFriendReq target (some [])]

/-- `testenv`. -/
def testenvCommand : LineM Outcome := do
  let username ← nextToken delims
  return .calling
    [.setUsername username (some []), .setServer (some (lit "localhost")) 1335, .connect]

/-- What follows the first token of a line. -/
def dispatch : Option CStr → LineM Outcome
  | none => return .calling []
  | some token =>
    if token = lit "exit" then return ⟨[], [.exiting], true⟩
    else if token = lit "set" then setCommand
    else if token = lit "show" then showCommand
    else if token = lit "add" then addCommand
    else if token = lit "accept" then oneArgument .acceptFriendReq
    else if token = lit "refuse" then oneArgument .refuseFriendReq
    else if token = lit "delete" then oneArgument .deleteFriend
    else if token = lit "msg" then targetAndRest .sendMessage
    else if token = lit "enc" then targetAndRest .sendEncryptedMessage
    else if token = lit "genkey" then return .calling [.generateNewKey]
    else if token = lit "connect" then return .calling [.connect]
    else if token = lit "disconnect" then return .calling [.disconnect]
    else if token = lit "load_file" then oneArgument .loadFile
    else if token = lit "save_file" then oneArgument .saveFile
    else if token = lit "me" then return .printing .me
    else if token = lit "testenv" then testenvCommand
    else if token = lit "usage" ∨ token = lit "help" then return .calling [.printHelp]
    else return .printing (.notFound token)

/-- One round of the loop in `main`, once the line is in the buffer. -/
def command : LineM Outcome := nextToken delims >>= dispatch

/-! ### The commands on the fields of a line -/

/-- The outcome of a command that wants one field. -/
def oneArgumentOutcome (call : Option CStr → CliCall) : List CStr → Outcome
  | target :: _ => .calling [call (some target)]
  | [] => .printing .missingArgument

/-- The outcome of `set name`. -/
def setNameOutcome : List CStr → Outcome
  | username :: password :: _ => .calling [.setUsername (some username) (some password)]
  | _ => .printing .missingArgument

/-- The outcome of `set server`. -/
def setServerOutcome : List CStr → Outcome
  | hostname :: portStr :: _ => .calling [.setServer (some hostname) (atoi portStr)]
  | _ => .printing .missingArgument

/-- The outcome of `set`. -/
def setOutcome : Option CStr → List CStr → Outcome
  | none, _ => .printing .setMissingArgument
  | some token, args =>
    if token = lit "name" then setNameOutcome args
    else if token = lit "shown" then oneArgumentOutcome .setShownName args
    else if token = lit "server" then setServerOutcome args
    else if token = lit "user" then .calling []
    else .printing .wrongArgument

/-- The outcome of `show`. -/
def showOutcome : Option CStr → Outcome
  | none => .printing .missingArgument
  | some token =>
    if token = lit "friends" then .calling [.printFriendList]
    else if token = lit "network" then .printing .network
    else if token = lit "user" then .printing .user
    else .printing .wrongArgument

/-- The outcome of `add`. -/
def addOutcome : List CStr → Outcome
  | target :: args => .calling [.makeFriendReq (some target) (some (args.headD []))]
  | [] => .printing .missingArgument

/-- The outcome of a command that wants one field and the rest of the line behind it. -/
def targetAndRestOutcome (call : Option CStr → Option CStr → CliCall) (args : List CStr)
    (rest : CStr) : Outcome :=
  match args with
  | target :: _ =>
    if rest = [] then .printing .missingArgument else .calling [call (some target) (some rest)]
  | [] => .printing .missingArgument

/-- What `testenv` does: it passes its first field on, whether there is one or not. -/
def testenvOutcome (args : List CStr) : Outcome :=
  .calling [.setUsername args.head? (some []), .setServer (some (lit "localhost")) 1335, .connect]

/-- The rest of a line behind its first field. -/
def restOf (l : CStr) : CStr := (nextField delims l).2

/-- The outcome of a command, from what follows it. -/
def commandOutcome : Option CStr → CStr → Outcome
  | none, _ => .calling []
  | some token, rest =>
    let args := fields delims rest
    if token = lit "exit" then ⟨[], [.exiting], true⟩
    else if token = lit "set" then setOutcome args.head? args.tail
    else if token = lit "show" then showOutcome args.head?
    else if token = lit "add" then addOutcome args
    else if token = lit "accept" then oneArgumentOutcome .acceptFriendReq args
    else if token = lit "refuse" then oneArgumentOutcome .refuseFriendReq args
    else if token = lit "delete" then oneArgumentOutcome .deleteFriend args
    else if token = lit "msg" then targetAndRestOutcome .sendMessage args (restOf rest)
    else if token = lit "enc" then targetAndRestOutcome .sendEncryptedMessage args (restOf rest)
    else if token = lit "genkey" then .calling [.generateNewKey]
    else if token = lit "connect" then .calling [.connect]
    else if token = lit "disconnect" then .calling [.disconnect]
    else if token = lit "load_file" then oneArgumentOutcome .loadFile args
    else if token = lit "save_file" then oneArgumentOutcome .saveFile args
    else if token = lit "me" then .printing .me
    else if token = lit "testenv" then testenvOutcome args
    else if token = lit "usage" ∨ token = lit "help" then .calling [.printHelp]
    else .printing (.notFound token)

/-- What `main` does with a line. -/
def lineOutcome (l : CStr) : Outcome := commandOutcome (fields delims l).head? (restOf l)

/-! ### What the commands compute -/

@[simp] theorem nextField_noDelims (l : CStr) :
    (nextField noDelims l).1 = if l = [] then none else some l := by
  cases l with
  | nil => rfl
  | cons b l =>
    have hfields : fields noDelims (b :: l) = [b :: l] :=
      fields_of_forall (fun _ _ => rfl) (List.cons_ne_nil b l)
    simp [hfields]

theorem reads_setName : Reads setName fun l => setNameOutcome (fields delims l) := by
  refine (reads_token_bind rfl fun u => reads_token_bind rfl fun w =>
    (reads_pure _).ite (reads_pure _)).congr fun l => ?_
  simp only [nextField_fst, fields_nextField]
  rcases fields delims l with - | ⟨_, - | ⟨_, _⟩⟩ <;> simp [setNameOutcome]

theorem reads_setServer : Reads setServer fun l => setServerOutcome (fields delims l) := by
  refine (reads_token_bind rfl fun u => reads_token_bind rfl fun w =>
    (reads_pure _).ite (reads_pure _)).congr fun l => ?_
  simp only [nextField_fst, fields_nextField]
  rcases fields delims l with - | ⟨_, - | ⟨_, _⟩⟩ <;> simp [setServerOutcome]

theorem reads_setUser : Reads setUser fun _ => .calling [] :=
  reads_token_bind rfl fun _ => reads_pure _

theorem reads_oneArgument (call : Option CStr → CliCall) :
    Reads (oneArgument call) fun l => oneArgumentOutcome call (fields delims l) := by
  refine (reads_token_bind rfl fun u => (reads_pure _).ite (reads_pure _)).congr fun l => ?_
  rw [nextField_fst]
  cases fields delims l <;> simp [oneArgumentOutcome]

theorem reads_targetAndRest (call : Option CStr → Option CStr → CliCall) :
    Reads (targetAndRest call) fun l =>
      targetAndRestOutcome call (fields delims l) (restOf l) := by
  refine (reads_token_bind rfl fun u => reads_token_bind rfl fun w =>
    (reads_pure _).ite (reads_pure _)).congr fun l => ?_
  rw [nextField_fst, nextField_noDelims, ← restOf]
  cases fields delims l with
  | nil => simp [targetAndRestOutcome]
  | cons target args => by_cases hrest : restOf l = [] <;> simp [targetAndRestOutcome, hrest]

theorem reads_addCommand : Reads addCommand fun l => addOutcome (fields delims l) := by
  refine (reads_token_bind rfl fun u => reads_token_bind rfl fun w =>
    (reads_pure _).ite ((reads_pure _).ite (reads_pure _))).congr fun l => ?_
  simp only [nextField_fst, fields_nextField]
  rcases fields delims l with - | ⟨_, - | ⟨_, _⟩⟩ <;> simp [addOutcome]

theorem reads_testenvCommand :
    Reads testenvCommand fun l => testenvOutcome (fields delims l) :=
  (reads_token_bind rfl fun _ => reads_pure _).congr fun l => by
    rw [nextField_fst, testenvOutcome]

theorem reads_setSubcommand :
    ∀ t, Reads (setSubcommand t) fun l => setOutcome t (fields delims l)
  | none => reads_pure _
  | some _ => reads_setName.ite ((reads_oneArgument _).ite (reads_setServer.ite
      (reads_setUser.ite (reads_pure _))))

theorem reads_setCommand :
    Reads setCommand fun l => setOutcome (fields delims l).head? (fields delims l).tail :=
  (reads_token_bind rfl reads_setSubcommand).congr fun l => by
    rw [nextField_fst, fields_nextField]

theorem reads_showSubcommand : ∀ t, Reads (showSubcommand t) fun _ => showOutcome t
  | none => reads_pure _
  | some _ => (reads_pure _).ite ((reads_pure _).ite ((reads_pure _).ite (reads_pure _)))

theorem reads_showCommand : Reads showCommand fun l => showOutcome (fields delims l).head? :=
  (reads_token_bind rfl reads_showSubcommand).congr fun l => by rw [nextField_fst]

theorem reads_dispatch : ∀ t, Reads (dispatch t) (commandOutcome t)
  | none => reads_pure _
  | some _ =>
    (reads_pure _).ite <| reads_setCommand.ite <| reads_showCommand.ite <|
      reads_addCommand.ite <| (reads_oneArgument _).ite <| (reads_oneArgument _).ite <|
      (reads_oneArgument _).ite <| (reads_targetAndRest _).ite <| (reads_targetAndRest _).ite <|
      (reads_pure _).ite <| (reads_pure _).ite <| (reads_pure _).ite <|
      (reads_oneArgument _).ite <| (reads_oneArgument _).ite <| (reads_pure _).ite <|
      reads_testenvCommand.ite <| (reads_pure _).ite (reads_pure _)

/-- **The interpreter.** What a round does is a function of the line. -/
theorem reads_command : Reads command lineOutcome :=
  (reads_token_bind rfl reads_dispatch).congr fun l => by rw [nextField_fst, lineOutcome, restOf]

/-! ### What a line asks for -/

/-- A command as its user sees it. -/
structure CommandForm where
  /-- The words that name it. -/
  words : List CStr
  /-- How many fields it requires behind them. -/
  required : ℕ
  /-- The second field is not a field but the unsplit rest of the line. -/
  rest : Bool
  /-- What it calls, given the strings behind its words. -/
  calls : List CStr → List CliCall

/-- The commands that call anything. -/
def commandForms : List CommandForm :=
  [⟨[lit "set", lit "name"], 2, false, fun args => [.setUsername args[0]? args[1]?]⟩,
    ⟨[lit "set", lit "shown"], 1, false, fun args => [.setShownName args[0]?]⟩,
    ⟨[lit "set", lit "server"], 2, false,
      fun args => [.setServer args[0]? (atoi (args[1]?.getD []))]⟩,
    ⟨[lit "show", lit "friends"], 0, false, fun _ => [.printFriendList]⟩,
    ⟨[lit "add"], 1, false, fun args => [.makeFriendReq args[0]? (some (args[1]?.getD []))]⟩,
    ⟨[lit "accept"], 1, false, fun args => [.acceptFriendReq args[0]?]⟩,
    ⟨[lit "refuse"], 1, false, fun args => [.refuseFriendReq args[0]?]⟩,
    ⟨[lit "delete"], 1, false, fun args => [.deleteFriend args[0]?]⟩,
    ⟨[lit "msg"], 2, true, fun args => [.sendMessage args[0]? args[1]?]⟩,
    ⟨[lit "enc"], 2, true, fun args => [.sendEncryptedMessage args[0]? args[1]?]⟩,
    ⟨[lit "genkey"], 0, false, fun _ => [.generateNewKey]⟩,
    ⟨[lit "connect"], 0, false, fun _ => [.connect]⟩,
    ⟨[lit "disconnect"], 0, false, fun _ => [.disconnect]⟩,
    ⟨[lit "load_file"], 1, false, fun args => [.loadFile args[0]?]⟩,
    ⟨[lit "save_file"], 1, false, fun args => [.saveFile args[0]?]⟩,
    ⟨[lit "testenv"], 1, false, fun args =>
      [.setUsername args[0]? (some []), .setServer (some (lit "localhost")) 1335, .connect]⟩,
    ⟨[lit "usage"], 0, false, fun _ => [.printHelp]⟩,
    ⟨[lit "help"], 0, false, fun _ => [.printHelp]⟩]

/-- The command of a line. -/
def commandForm (l : CStr) : Option CommandForm :=
  commandForms.find? fun form => form.words.isPrefixOf (fields delims l)

/-- What a line has behind the words of its command: its fields in order, or the first of them and
the rest of the line, if there is one. -/
def CommandForm.arguments (form : CommandForm) (l : CStr) : List CStr :=
  let args := (fields delims l).drop form.words.length
  if form.rest then args.take 1 ++ [restOf (restOf l)].filter (· ≠ []) else args

/-- The line has all the fields that its command requires. -/
def CommandForm.Complete (form : CommandForm) (l : CStr) : Prop :=
  form.required ≤ (form.arguments l).length

instance (form : CommandForm) (l : CStr) : Decidable (form.Complete l) :=
  inferInstanceAs (Decidable (_ ≤ _))

/-- The calls that a line asks for. -/
def askedCalls (l : CStr) : List CliCall :=
  match commandForm l with
  | none => []
  | some form => if form.Complete l then form.calls (form.arguments l) else []

theorem askedCalls_of_form {l : CStr} {form : CommandForm} {fs : List CStr}
    (hl : fields delims l = fs)
    (h : (commandForms.find? fun form => form.words.isPrefixOf fs) = some form) :
    askedCalls l = if form.Complete l then form.calls (form.arguments l) else [] := by
  rw [askedCalls, commandForm, hl, h]

theorem askedCalls_of_none {l : CStr} {fs : List CStr} (hl : fields delims l = fs)
    (h : (commandForms.find? fun form => form.words.isPrefixOf fs) = none) :
    askedCalls l = [] := by
  rw [askedCalls, commandForm, hl, h]

/-- A command with one required field. -/
theorem calls_oneArgument {l : CStr} {w : CStr} {call : Option CStr → CliCall}
    (hl : fields delims l = w :: fields delims (restOf l))
    (h : (commandForms.find? fun form =>
      form.words.isPrefixOf (w :: fields delims (restOf l))) =
        some ⟨[w], 1, false, fun args => [call args[0]?]⟩) :
    (oneArgumentOutcome call (fields delims (restOf l))).calls = askedCalls l := by
  rw [askedCalls_of_form hl h]
  cases hargs : fields delims (restOf l) with
  | nil => simp [CommandForm.Complete, CommandForm.arguments, hl, hargs, oneArgumentOutcome,
      Outcome.printing]
  | cons target args => simp [CommandForm.Complete, CommandForm.arguments, hl, hargs,
      oneArgumentOutcome, Outcome.calling]

/-- A command with one required field and the rest of the line. -/
theorem calls_targetAndRest {l : CStr} {w : CStr} {call : Option CStr → Option CStr → CliCall}
    (hl : fields delims l = w :: fields delims (restOf l))
    (h : (commandForms.find? fun form =>
      form.words.isPrefixOf (w :: fields delims (restOf l))) =
        some ⟨[w], 2, true, fun args => [call args[0]? args[1]?]⟩) :
    (targetAndRestOutcome call (fields delims (restOf l)) (restOf (restOf l))).calls =
      askedCalls l := by
  rw [askedCalls_of_form hl h]
  cases hargs : fields delims (restOf l) with
  | nil =>
    have hrest : restOf (restOf l) = [] ∨ restOf (restOf l) ≠ [] := eq_or_ne _ _
    rcases hrest with hrest | hrest <;>
      simp [CommandForm.Complete, CommandForm.arguments, hl, hargs, targetAndRestOutcome,
        Outcome.printing, hrest]
  | cons target args =>
    by_cases hrest : restOf (restOf l) = [] <;>
      simp [CommandForm.Complete, CommandForm.arguments, hl, hargs, targetAndRestOutcome,
        Outcome.printing, Outcome.calling, hrest]

/-- The first words of the commands. -/
def commandWords : List CStr :=
  [lit "exit", lit "set", lit "show", lit "add", lit "accept", lit "refuse", lit "delete",
    lit "msg", lit "enc", lit "genkey", lit "connect", lit "disconnect", lit "load_file",
    lit "save_file", lit "me", lit "testenv", lit "usage", lit "help"]

theorem commandWords_of_form :
    ∀ w ∈ commandForms.map CommandForm.words, w.head? ∈ commandWords.map some := by decide

/-- The commands with two words. -/
theorem setWords_of_form : ∀ w ∈ commandForms.map CommandForm.words, w.head? = some (lit "set") →
    w ∈ [[lit "set", lit "name"], [lit "set", lit "shown"], [lit "set", lit "server"]] := by
  decide

theorem showWords_of_form : ∀ w ∈ commandForms.map CommandForm.words,
    w.head? = some (lit "show") → w = [lit "show", lit "friends"] := by decide

theorem find?_commandForms_eq_none {fs : List CStr}
    (h : ∀ w ∈ commandForms.map CommandForm.words, ¬w <+: fs) :
    (commandForms.find? fun form => form.words.isPrefixOf fs) = none :=
  List.find?_eq_none.mpr fun form hmem hpre =>
    h form.words (List.mem_map_of_mem hmem) (List.isPrefixOf_iff_prefix.mp hpre)

theorem head_of_words {w : List CStr} {token : CStr} {args : List CStr}
    (hw : w ∈ commandForms.map CommandForm.words) (h : w <+: token :: args) :
    w.head? = some token := by
  have hmem := commandWords_of_form w hw
  cases w with
  | nil => exact absurd hmem (by decide)
  | cons a w => rw [List.head?_cons, (List.cons_prefix_cons.mp h).1]

theorem calls_setOutcome {l : CStr} {args : List CStr}
    (hl : fields delims l = lit "set" :: args) :
    (setOutcome args.head? args.tail).calls = askedCalls l := by
  cases args with
  | nil => exact (askedCalls_of_none hl rfl).symm
  | cons sub args =>
    by_cases hname : sub = lit "name"
    · subst hname
      rw [askedCalls_of_form hl rfl]
      rcases args with - | ⟨username, - | ⟨password, args⟩⟩ <;>
        simp [CommandForm.Complete, CommandForm.arguments, hl, setOutcome, setNameOutcome,
          Outcome.calling, Outcome.printing]
    by_cases hshown : sub = lit "shown"
    · subst hshown
      rw [askedCalls_of_form hl rfl]
      cases args <;>
        simp [CommandForm.Complete, CommandForm.arguments, hl, setOutcome, oneArgumentOutcome,
          Outcome.calling, Outcome.printing, hname]
    by_cases hserver : sub = lit "server"
    · subst hserver
      rw [askedCalls_of_form hl rfl]
      rcases args with - | ⟨hostname, - | ⟨portStr, args⟩⟩ <;>
        simp [CommandForm.Complete, CommandForm.arguments, hl, setOutcome, setServerOutcome,
          Outcome.calling, Outcome.printing, hname, hshown]
    · rw [askedCalls_of_none hl]
      · by_cases huser : sub = lit "user"
        · subst huser; rfl
        · simp [setOutcome, Outcome.printing, hname, hshown, hserver, huser]
      · refine find?_commandForms_eq_none fun w hw hpre => ?_
        have hw' := setWords_of_form w hw (head_of_words hw hpre)
        simp only [List.mem_cons, List.not_mem_nil, or_false] at hw'
        rcases hw' with rfl | rfl | rfl <;>
          simp_all [List.cons_prefix_cons]

theorem calls_showOutcome {l : CStr} {args : List CStr}
    (hl : fields delims l = lit "show" :: args) :
    (showOutcome args.head?).calls = askedCalls l := by
  cases args with
  | nil => exact (askedCalls_of_none hl rfl).symm
  | cons sub args =>
    by_cases hfriends : sub = lit "friends"
    · subst hfriends
      rw [askedCalls_of_form hl rfl]
      simp [CommandForm.Complete, showOutcome, Outcome.calling]
    · rw [askedCalls_of_none hl]
      · by_cases hnetwork : sub = lit "network"
        · subst hnetwork; rfl
        · by_cases huser : sub = lit "user"
          · subst huser; rfl
          · simp [showOutcome, Outcome.printing, hfriends, hnetwork, huser]
      · refine find?_commandForms_eq_none fun w hw hpre => ?_
        rw [showWords_of_form w hw (head_of_words hw hpre)] at hpre
        exact hfriends (List.cons_prefix_cons.mp (List.cons_prefix_cons.mp hpre).2).1.symm

theorem calls_addOutcome {l : CStr} {args : List CStr}
    (hl : fields delims l = lit "add" :: args) : (addOutcome args).calls = askedCalls l := by
  rw [askedCalls_of_form hl rfl]
  rcases args with - | ⟨target, - | ⟨message, args⟩⟩ <;>
    simp [CommandForm.Complete, CommandForm.arguments, hl, addOutcome, Outcome.calling,
      Outcome.printing]

theorem calls_testenvOutcome {l : CStr} {u : CStr} {args : List CStr}
    (hl : fields delims l = lit "testenv" :: u :: args) :
    (testenvOutcome (u :: args)).calls = askedCalls l := by
  rw [askedCalls_of_form hl rfl]
  simp [CommandForm.Complete, CommandForm.arguments, hl, testenvOutcome, Outcome.calling]

theorem calls_lineOutcome {l : CStr} (h : fields delims l ≠ [lit "testenv"]) :
    (lineOutcome l).calls = askedCalls l := by
  have hargs : fields delims (restOf l) = (fields delims l).tail := fields_nextField l
  rw [lineOutcome]
  cases hl : fields delims l with
  | nil => exact (askedCalls_of_none hl rfl).symm
  | cons token args =>
    rw [hl, List.tail_cons] at hargs
    rw [hl] at h
    subst hargs
    by_cases hknown : token ∈ commandWords
    · simp only [commandWords, List.mem_cons, List.not_mem_nil, or_false] at hknown
      rcases hknown with rfl | rfl | rfl | rfl | rfl | rfl | rfl | rfl | rfl | rfl | rfl | rfl |
        rfl | rfl | rfl | rfl | rfl | rfl
      · exact (askedCalls_of_none hl rfl).symm
      · exact calls_setOutcome hl
      · exact calls_showOutcome hl
      · exact calls_addOutcome hl
      · exact calls_oneArgument hl rfl
      · exact calls_oneArgument hl rfl
      · exact calls_oneArgument hl rfl
      · exact calls_targetAndRest hl rfl
      · exact calls_targetAndRest hl rfl
      · exact (askedCalls_of_form hl rfl).symm
      · exact (askedCalls_of_form hl rfl).symm
      · exact (askedCalls_of_form hl rfl).symm
      · exact calls_oneArgument hl rfl
      · exact calls_oneArgument hl rfl
      · exact (askedCalls_of_none hl rfl).symm
      · cases hargs : fields delims (restOf l) with
        | nil => exact absurd (by rw [hargs]) h
        | cons u args =>
          rw [hargs] at hl
          rw [← calls_testenvOutcome hl, ← hargs]
          rfl
      · exact (askedCalls_of_form hl rfl).symm
      · exact (askedCalls_of_form hl rfl).symm
    · have hnone : (commandForms.find? fun form =>
          form.words.isPrefixOf (token :: fields delims (restOf l))) = none :=
        find?_commandForms_eq_none fun w hw hpre => hknown (by
          have hmem := commandWords_of_form w hw
          rw [head_of_words hw hpre] at hmem
          simpa using hmem)
      rw [askedCalls_of_none hl hnone]
      simp only [commandWords, List.mem_cons, List.not_mem_nil, or_false, not_or] at hknown
      simp only [List.head?_cons, commandOutcome, hknown, if_false, or_self]
      rfl

/-- What the interpreter owes for a line that was read into the buffer: it passes only strings that
are there; for a line with all the fields of its command they are those fields; and a line that
lacks one makes no call, so that whatever the calls work on stays as it was. -/
structure ChecksArguments (l : CStr) (o : Outcome) : Prop where
  nonNull : ∀ call ∈ o.calls, none ∉ call.strings
  inOrder : ∀ form, commandForm l = some form → form.Complete l →
    o.calls = form.calls (form.arguments l)
  rejected : (∀ form, commandForm l = some form → ¬form.Complete l) →
    o.calls = [] ∧ ∀ {σ : Type} (exec : σ → CliCall → Option σ) (s : σ), o.perform exec s = some s

theorem none_not_mem_strings {form : CommandForm} (hform : form ∈ commandForms)
    {args : List CStr} (h : form.required ≤ args.length) :
    ∀ call ∈ form.calls args, none ∉ call.strings := by
  simp only [commandForms, List.mem_cons, List.not_mem_nil, or_false] at hform
  rcases hform with rfl | rfl | rfl | rfl | rfl | rfl | rfl | rfl | rfl | rfl | rfl | rfl |
    rfl | rfl | rfl | rfl | rfl | rfl <;>
    simp [CliCall.strings] at h ⊢ <;> grind

theorem mem_of_commandForm {l : CStr} {form : CommandForm} (h : commandForm l = some form) :
    form ∈ commandForms := List.mem_of_find?_eq_some h

/-- Making the calls that a line asks for is all that the interpreter owes for it. -/
theorem checksArguments_of_calls {l : CStr} {o : Outcome} (h : o.calls = askedCalls l) :
    ChecksArguments l o := by
  rw [askedCalls] at h
  cases hform : commandForm l with
  | none =>
    rw [hform] at h
    refine ⟨fun call hcall => ?_, fun form hform' => ?_, fun _ => ⟨h, fun exec s => ?_⟩⟩
    · simp [h] at hcall
    · rw [hform] at hform'
      cases hform'
    · rw [Outcome.perform, h]
      rfl
  | some form =>
    rw [hform] at h
    by_cases hcomplete : form.Complete l
    · simp only [if_pos hcomplete] at h
      refine ⟨?_, fun form' hform' _ => ?_, fun hlacks => ?_⟩
      · rw [h]
        exact none_not_mem_strings (mem_of_commandForm hform) hcomplete
      · rw [hform] at hform'
        cases hform'
        exact h
      · exact absurd hcomplete (hlacks form hform)
    · simp only [if_neg hcomplete] at h
      refine ⟨fun call hcall => ?_, fun form' hform' hcomplete' => ?_,
        fun _ => ⟨h, fun exec s => ?_⟩⟩
      · simp [h] at hcall
      · rw [hform] at hform'
        cases hform'
        exact absurd hcomplete' hcomplete
      · rw [Outcome.perform, h]
        rfl

/-- The string that a line leaves in the buffer. It ends at the first zero byte. -/
def textOfLine (raw : Bytes) : CStr := raw.takeWhile (· ≠ 0)

theorem holds_textOfLine (buf raw : Bytes) :
    (Cursor.start (overwrite buf (raw ++ [0]))).Holds (textOfLine raw) := by
  have hsplit := List.takeWhile_append_dropWhile (p := (· ≠ (0 : UInt8))) (l := raw)
  refine ⟨fun hmem => by simpa using List.mem_takeWhile_imp hmem, ?_⟩
  rw [Cursor.start, overwrite, textOfLine]
  generalize buf.drop (raw ++ [0]).length = tail
  cases hrest : raw.dropWhile (· ≠ (0 : UInt8)) with
  | nil =>
    rw [hrest, List.append_nil] at hsplit
    exact ⟨tail, by rw [hsplit, List.append_assoc]; rfl⟩
  | cons b rest =>
    have hb := List.head?_dropWhile_not (· ≠ (0 : UInt8)) raw
    rw [hrest] at hb
    obtain rfl : b = 0 := by simpa using hb
    rw [hrest] at hsplit
    refine ⟨rest ++ 0 :: tail, ?_⟩
    calc raw ++ [0] ++ tail
        = (raw.takeWhile (· ≠ 0) ++ 0 :: rest) ++ [0] ++ tail := by rw [hsplit]
      _ = raw.takeWhile (· ≠ 0) ++ 0 :: (rest ++ 0 :: tail) := by simp

/-- Without a field, `testenv` passes NULL on. -/
theorem not_checksArguments_of_testenv {l : CStr} (h : fields delims l = [lit "testenv"]) :
    ¬ChecksArguments l (lineOutcome l) := by
  have hargs : fields delims (restOf l) = (fields delims l).tail := fields_nextField l
  rw [h, List.tail_cons] at hargs
  intro hchecks
  refine hchecks.nonNull (.setUsername none (some [])) ?_ (by simp [CliCall.strings])
  rw [lineOutcome, h]
  change _ ∈ (testenvOutcome (fields delims (restOf l))).calls
  rw [hargs]
  simp [testenvOutcome, Outcome.calling]

/-- **The arguments.** For a line of any bytes that fits the buffer, and whatever the buffer held
before, the interpreter checks its arguments exactly if the line is not a lone `testenv`. -/
theorem checksArguments_iff (raw : Field 2048) :
    (∀ buf : Sized 2048, ∃ o c,
      command (Cursor.start (overwrite buf.1 (raw.1 ++ [0]))) = some (o, c) ∧
        ChecksArguments (textOfLine raw.1) o) ↔
      fields delims (textOfLine raw.1) ≠ [lit "testenv"] := by
  constructor
  · intro h htestenv
    obtain ⟨o, c, hcommand, hchecks⟩ := h ⟨List.replicate 2048 0, List.length_replicate⟩
    obtain ⟨c', hcommand', -⟩ := reads_command _ _ (holds_textOfLine _ raw.1)
    rw [hcommand] at hcommand'
    cases hcommand'
    exact not_checksArguments_of_testenv htestenv hchecks
  · intro h buf
    obtain ⟨c, hcommand, -⟩ := reads_command _ _ (holds_textOfLine buf.1 raw.1)
    exact ⟨_, c, hcommand, checksArguments_of_calls (calls_lineOutcome h)⟩

/-- The line `testenv`. -/
def testenvLine : Field 2048 := ⟨lit "testenv", by decide⟩

/-- For a lone `testenv`, a NULL pointer is passed on as the name. -/
theorem not_checksArguments_testenv :
    ¬∀ (raw : Field 2048) (buf : Sized 2048), ∃ o c,
      command (Cursor.start (overwrite buf.1 (raw.1 ++ [0]))) = some (o, c) ∧
        ChecksArguments (textOfLine raw.1) o := by
  intro h
  obtain ⟨o, c, hcommand, hchecks⟩ :=
    h testenvLine ⟨List.replicate 2048 0, List.length_replicate⟩
  obtain ⟨c', hcommand', -⟩ := reads_command _ _ (holds_textOfLine _ testenvLine.1)
  rw [hcommand] at hcommand'
  cases hcommand'
  exact not_checksArguments_of_testenv (by decide) hchecks

end Psn

import Mathlib.Data.List.DropRight
import Psn.Lib.Tokens
import Psn.StaticAcl

/-!
# The file of access rights

The broker reads its access rights from a file, and reads it again when it is told to. Each line of
the file adds to a list: to that of the user named last, or to the patterns. Before a file is read
again the lists are to be emptied, but `_acl_cleanup` returns at once when no user has a list of his
own, and the patterns stay. So with files that have patterns only, as those for the rights of the
protocol, no right is ever taken away again.

## Scope

A file is a list of bytes, or it cannot be opened. Lines that do not fit into the buffer of 1024
bytes are read in pieces, as `fgets` does it; the files that are rendered have none. A file with an
error in it is read up to that line, and the broker goes on with what it has got. Memory does not
run out here.

## Main definitions

* `aclfileParse`: the broker reads the file
* `reload`: it reads it again, `reloads` for a whole history
* `renderAcl`: a file for given rights

## Main results

* `aclfileParse_renderAcl`: the broker reads the rights that were written down
* `reload_eq_iff`: when reading the file again leaves the rights in the file
* `reloads_access`: what a client may do after any number of files with patterns only
-/

namespace Psn

/-! ### Reading the file -/

/-- `char buf[1024]`. -/
def aclBufSize : ℕ := 1024

/-- What the calls `fgets(buf, 1024, aclfile)` read, one after the other. The present one has read
`line`. A call ends behind a line feed, or when there is only room for the zero. -/
def fgetsLines (line : List UInt8) : List UInt8 → List (List UInt8)
  | [] => if line = [] then [] else [line]
  | c :: file =>
    if c = 10 ∨ line.length + 2 = aclBufSize then (line ++ [c]) :: fgetsLines [] file
    else fgetsLines (line ++ [c]) file

/-- The string in `buf`, without line feeds and carriage returns at its end. -/
def aclBuf (line : List UInt8) : CStr :=
  (line.takeWhile fun c => c ≠ 0).rdropWhile fun c => c = 10 ∨ c = 13

/-- What a line asks for. -/
inductive AclLine
  | topic (acl : Acl)
  | pattern (acl : Acl)
  | user (username : CStr)
  deriving DecidableEq

/-- `topic_pattern`: to which list a right goes. -/
def aclRule (token : CStr) (acl : Acl) : AclLine :=
  if token = lit "topic" then .topic acl else .pattern acl

/-- The separator of `strtok_r`. -/
def isBlank (c : UInt8) : Bool := c = 32

/-- The body of the loop, up to the change of the lists. -/
def aclLine (buf : CStr) : Except MosqErr (Option AclLine) :=
  if buf.head? = some hash then .ok none
  else
    match Tokens.fields isBlank buf with
    | [] => .ok none
    | token :: args =>
      if token = lit "topic" ∨ token = lit "pattern" then
        match args with
        | [] => .error .inval
        | [topic] => .ok (some (aclRule token ⟨topic, mosqAclRead ||| mosqAclWrite⟩))
        | access :: topic :: _ =>
          if access = lit "read" then .ok (some (aclRule token ⟨topic, mosqAclRead⟩))
          else if access = lit "write" then .ok (some (aclRule token ⟨topic, mosqAclWrite⟩))
          else .error .inval
      else if token = lit "user" then
        match args with
        -- `return 1`
        | [] => .error .nomem
        | username :: _ => .ok (some (.user username))
      else .ok none

/-- The loops of `_add_acl`. -/
def addAclUser (user : Option CStr) (acl : Acl) : List AclUser → List AclUser
  | [] => [⟨user, [acl]⟩]
  | aclUser :: rest =>
    if aclUser.username = user then ⟨aclUser.username, aclUser.acl ++ [acl]⟩ :: rest
    else aclUser :: addAclUser user acl rest

/-- `_add_acl`. -/
def addAcl (db : AclDb) (user : Option CStr) (acl : Acl) : AclDb :=
  { db with aclList := addAclUser user acl db.aclList }

/-- `_add_acl_pattern`. -/
def addAclPattern (db : AclDb) (acl : Acl) : AclDb :=
  { db with aclPatterns := db.aclPatterns ++ [acl] }

/-- The loop of `_aclfile_parse`, over what `fgets` reads. -/
def aclfileLoop (db : AclDb) (user : Option CStr) : List (List UInt8) → AclDb × MosqErr
  | [] => (db, .success)
  | line :: lines =>
    match aclLine (aclBuf line) with
    | .error rc => (db, rc)
    | .ok none => aclfileLoop db user lines
    | .ok (some (.topic acl)) => aclfileLoop (addAcl db user acl) user lines
    | .ok (some (.pattern acl)) => aclfileLoop (addAclPattern db acl) user lines
    | .ok (some (.user username)) => aclfileLoop db (some username) lines

/-- `_aclfile_parse`, for a file that cannot be opened or has these bytes. -/
def aclfileParse (db : AclDb) : Option (List UInt8) → AclDb × MosqErr
  | none => (db, .nomem)
  | some file => aclfileLoop db none (fgetsLines [] file)

/-- `_acl_cleanup`. -/
def aclCleanup (db : AclDb) : AclDb := if db.aclList = [] then db else ⟨[], []⟩

/-- The broker reads its file again. It goes on, whatever comes of it. -/
def reload (db : AclDb) (file : Option (List UInt8)) : AclDb :=
  (aclfileParse (aclCleanup db) file).1

/-- The broker has read these files, the last one last. -/
def reloads (files : List (Option (List UInt8))) : AclDb := files.foldl reload ⟨[], []⟩

/-- The part of `mosquitto_security_apply_default` for access rights: a client gets the list of its
user. -/
def applyAcl (db : AclDb) (context : AclContext) : AclContext :=
  { context with aclList := db.aclList.find? fun aclUser => aclUser.username = context.username }

/-- What a file says by itself. -/
def aclfileSays (file : Option (List UInt8)) : AclDb := (aclfileParse ⟨[], []⟩ file).1

/-! ### What is written down is read -/

/-- A name or a topic that can stand in the file. -/
structure IsAclWord (w : CStr) : Prop where
  ne_nil : w ≠ []
  blank_not_mem : 32 ∉ w
  not_mem : 0 ∉ w ∧ 10 ∉ w ∧ 13 ∉ w

/-- A right that can stand in the file. -/
structure Acl.WellFormed (acl : Acl) : Prop where
  topic : IsAclWord acl.topic
  access : acl.access = mosqAclRead ∨ acl.access = mosqAclWrite ∨
    acl.access = mosqAclRead ||| mosqAclWrite

/-- What stands in front of a topic. -/
def accessWord (access : ℕ) : CStr :=
  if access = mosqAclRead then lit "read " else
    if access = mosqAclWrite then lit "write " else []

/-- A line for a right. -/
def renderRule (token : CStr) (acl : Acl) : CStr :=
  token ++ 32 :: accessWord acl.access ++ acl.topic

/-- The lines for the rights of a user. -/
def renderUser (aclUser : AclUser) : List CStr :=
  (aclUser.username.elim [] fun username => [lit "user " ++ username]) ++
    aclUser.acl.map (renderRule (lit "topic"))

/-- The lines of a file for these rights. -/
def aclLines (db : AclDb) : List CStr :=
  db.aclList.flatMap renderUser ++ db.aclPatterns.map (renderRule (lit "pattern"))

/-- A file for these rights. -/
def renderAcl (db : AclDb) : List UInt8 := (aclLines db).flatMap fun line => line ++ [10]

/-- Rights that can stand in a file. Only the first list may be the one of the clients without a
user name: once the file has named a user, it cannot get back to them. -/
structure AclDb.WellFormed (db : AclDb) : Prop where
  username : ∀ aclUser ∈ db.aclList, ∀ username ∈ aclUser.username, IsAclWord username
  nodup : (db.aclList.map AclUser.username).Nodup
  named : ∀ aclUser ∈ db.aclList.tail, aclUser.username ≠ none
  acl_ne_nil : ∀ aclUser ∈ db.aclList, aclUser.acl ≠ []
  acl : ∀ aclUser ∈ db.aclList, ∀ acl ∈ aclUser.acl, acl.WellFormed
  pattern : ∀ acl ∈ db.aclPatterns, acl.WellFormed
  length_le : ∀ line ∈ aclLines db, line.length + 2 ≤ aclBufSize

/-- A call of `fgets` reads a line that fits into the buffer. -/
theorem fgetsLines_append {line : List UInt8} (hline : 10 ∉ line) (file : List UInt8)
    {read : List UInt8} (hlength : read.length + line.length + 2 ≤ aclBufSize) :
    fgetsLines read (line ++ 10 :: file) = (read ++ line ++ [10]) :: fgetsLines [] file := by
  induction line generalizing read with
  | nil => rw [List.nil_append, fgetsLines, if_pos (.inl rfl), List.append_nil]
  | cons c line ih =>
    rw [List.length_cons] at hlength
    have hc : ¬(c = 10 ∨ read.length + 2 = aclBufSize) := by
      rintro (rfl | hfull)
      · exact hline List.mem_cons_self
      · omega
    have hlength' : (read ++ [c]).length + line.length + 2 ≤ aclBufSize := by
      rw [List.length_append, List.length_singleton]
      omega
    rw [List.cons_append, fgetsLines, if_neg hc,
      ih (fun hmem => hline (List.mem_cons_of_mem c hmem)) hlength', List.append_assoc read,
      List.singleton_append]

/-- Lines that fit are read one by one. -/
theorem fgetsLines_flatMap {lines : List CStr}
    (hlines : ∀ line ∈ lines, 10 ∉ line ∧ line.length + 2 ≤ aclBufSize) :
    fgetsLines [] (lines.flatMap fun line => line ++ [10]) =
      lines.map fun line => line ++ [10] := by
  induction lines with
  | nil => rfl
  | cons line lines ih =>
    obtain ⟨hline, hlength⟩ := hlines line List.mem_cons_self
    rw [List.flatMap_cons, List.append_assoc, List.singleton_append,
      fgetsLines_append hline _ (by simpa using hlength), List.map_cons, List.nil_append,
      ih fun other hother => hlines other (List.mem_cons_of_mem _ hother)]

/-- What is cut off is the line feed. -/
theorem aclBuf_append {line : CStr} (hline : 0 ∉ line ∧ 10 ∉ line ∧ 13 ∉ line) :
    aclBuf (line ++ [10]) = line := by
  have hnul : ∀ c ∈ line ++ [10], decide (c ≠ 0) = true := by
    intro c hc
    rcases List.mem_append.mp hc with hc | hc
    · exact decide_eq_true fun heq => hline.1 (heq ▸ hc)
    · rw [List.mem_singleton.mp hc]
      rfl
  rw [aclBuf, List.takeWhile_eq_self_iff.mpr hnul, List.rdropWhile_concat_pos _ _ _ (by simp),
    List.rdropWhile_eq_self_iff]
  intro hne hend
  have hlast := List.getLast_mem hne
  rcases of_decide_eq_true hend with h | h
  · exact hline.2.1 (h ▸ hlast)
  · exact hline.2.2 (h ▸ hlast)

/-- A word has no blanks in it, -/
theorem isBlank_of_not_mem {w : CStr} (h : 32 ∉ w) : ∀ c ∈ w, isBlank c = false :=
  fun _ hc => decide_eq_false fun heq => h (heq ▸ hc)

/-- so it is one token. -/
theorem IsAclWord.fields {w : CStr} (h : IsAclWord w) : Tokens.fields isBlank w = [w] :=
  Tokens.fields_of_forall (isBlank_of_not_mem h.blank_not_mem) h.ne_nil

/-- A word in front of a blank is the first field. -/
theorem fields_word {w : CStr} (hblank : 32 ∉ w) (hne : w ≠ []) (rest : CStr) :
    Tokens.fields isBlank (w ++ 32 :: rest) = w :: Tokens.fields isBlank rest :=
  Tokens.fields_append_cons (isBlank_of_not_mem hblank) hne rfl rest

/-- A rule that was written is read, -/
theorem aclLine_rule {token : CStr} (htoken : token = lit "topic" ∨ token = lit "pattern")
    {acl : Acl} (h : acl.WellFormed) :
    aclLine (renderRule token acl) = .ok (some (aclRule token acl)) := by
  have htopic := h.topic.fields
  have hhead : (renderRule token acl).head? ≠ some hash := by
    rcases htoken with rfl | rfl
    · exact fun heq => absurd (Option.some.inj heq) (by decide)
    · exact fun heq => absurd (Option.some.inj heq) (by decide)
  have htoken' : 32 ∉ token ∧ token ≠ [] := by
    rcases htoken with rfl | rfl
    · exact ⟨by decide, by decide⟩
    · exact ⟨by decide, by decide⟩
  rw [aclLine, if_neg hhead, renderRule, List.append_assoc, List.cons_append,
    fields_word htoken'.1 htoken'.2]
  obtain ⟨topic, access⟩ := acl
  rcases h.access with haccess | haccess | haccess
  · obtain rfl : access = mosqAclRead := haccess
    have hfields : Tokens.fields isBlank (accessWord mosqAclRead ++ topic) =
        [lit "read", topic] := by
      rw [show accessWord mosqAclRead ++ topic = lit "read" ++ 32 :: topic from rfl,
        fields_word (by decide) (by decide), htopic]
    rw [hfields]
    dsimp only
    rw [if_pos htoken, if_pos rfl]
  · obtain rfl : access = mosqAclWrite := haccess
    have hfields : Tokens.fields isBlank (accessWord mosqAclWrite ++ topic) =
        [lit "write", topic] := by
      rw [show accessWord mosqAclWrite ++ topic = lit "write" ++ 32 :: topic from rfl,
        fields_word (by decide) (by decide), htopic]
    rw [hfields]
    dsimp only
    rw [if_pos htoken, if_neg (by decide), if_pos rfl]
  · obtain rfl : access = mosqAclRead ||| mosqAclWrite := haccess
    have hfields : Tokens.fields isBlank (accessWord (mosqAclRead ||| mosqAclWrite) ++ topic) =
        [topic] := htopic
    rw [hfields]
    dsimp only
    rw [if_pos htoken]

/-- and so is the line that names a user. -/
theorem aclLine_user {username : CStr} (h : IsAclWord username) :
    aclLine (lit "user " ++ username) = .ok (some (.user username)) := by
  have hfields : Tokens.fields isBlank (lit "user " ++ username) = [lit "user", username] := by
    rw [show lit "user " ++ username = lit "user" ++ 32 :: username from rfl,
      fields_word (by decide) (by decide), h.fields]
  have hhead : (lit "user " ++ username).head? ≠ some hash := fun heq =>
    absurd (Option.some.inj heq) (by decide)
  rw [aclLine, if_neg hhead, hfields]
  rfl

/-! The loop, over the lines of a file that was written down. -/

/-- The first right of a user starts his list, -/
theorem addAclUser_of_not_mem {user : Option CStr} {users : List AclUser}
    (h : user ∉ users.map AclUser.username) (acl : Acl) :
    addAclUser user acl users = users ++ [⟨user, [acl]⟩] := by
  induction users with
  | nil => rfl
  | cons aclUser users ih =>
    obtain ⟨hhead, htail⟩ := not_or.mp (List.mem_cons.not.mp h)
    rw [addAclUser, if_neg (Ne.symm hhead), ih htail, List.cons_append]

/-- and the others are appended to it. -/
theorem addAclUser_append {user : Option CStr} {users : List AclUser}
    (h : user ∉ users.map AclUser.username) (acls : List Acl) (acl : Acl) :
    addAclUser user acl (users ++ [⟨user, acls⟩]) = users ++ [⟨user, acls ++ [acl]⟩] := by
  induction users with
  | nil => rw [List.nil_append, addAclUser, if_pos rfl, List.nil_append]
  | cons aclUser users ih =>
    obtain ⟨hhead, htail⟩ := not_or.mp (List.mem_cons.not.mp h)
    rw [List.cons_append, addAclUser, if_neg (Ne.symm hhead), ih htail, List.cons_append]

/-- So the rights of a user make up his list. -/
theorem foldl_addAcl {db : AclDb} {user : Option CStr} (h : user ∉ db.aclList.map AclUser.username)
    {acls : List Acl} (hne : acls ≠ []) :
    acls.foldl (fun db acl => addAcl db user acl) db =
      { db with aclList := db.aclList ++ [⟨user, acls⟩] } := by
  induction acls using List.reverseRecOn with
  | nil => exact absurd rfl hne
  | append_singleton acls acl ih =>
    rw [List.foldl_append, List.foldl_cons, List.foldl_nil]
    by_cases hacls : acls = []
    · rw [hacls, List.foldl_nil, addAcl, addAclUser_of_not_mem h, List.nil_append]
    · rw [ih hacls, addAcl, addAclUser_append h]

theorem IsAclWord.aclBuf_append {pre w : CStr} (h : IsAclWord w)
    (hpre : 0 ∉ pre ∧ 10 ∉ pre ∧ 13 ∉ pre) : aclBuf (pre ++ w ++ [10]) = pre ++ w := by
  refine Psn.aclBuf_append ?_
  simp only [List.mem_append, not_or]
  exact ⟨⟨hpre.1, h.not_mem.1⟩, ⟨hpre.2.1, h.not_mem.2.1⟩, hpre.2.2, h.not_mem.2.2⟩

/-- Such a line has no line feed or zero of its own. -/
theorem aclBuf_rule {token : CStr} (htoken : token = lit "topic" ∨ token = lit "pattern")
    {acl : Acl} (h : acl.WellFormed) :
    aclBuf (renderRule token acl ++ [10]) = renderRule token acl := by
  refine h.topic.aclBuf_append ?_
  rcases htoken with rfl | rfl <;> rcases h.access with haccess | haccess | haccess <;>
    · rw [haccess]
      decide

/-- The rules below the line of a user go to his list, -/
theorem aclfileLoop_rules {acls : List Acl} (h : ∀ acl ∈ acls, acl.WellFormed)
    (db : AclDb) (user : Option CStr) (rest : List (List UInt8)) :
    aclfileLoop db user
        ((acls.map (renderRule (lit "topic"))).map (fun line => line ++ [10]) ++ rest) =
      aclfileLoop (acls.foldl (fun db acl => addAcl db user acl) db) user rest := by
  induction acls generalizing db with
  | nil => rfl
  | cons acl acls ih =>
    have hacl := h acl List.mem_cons_self
    rw [List.map_cons, List.map_cons, List.cons_append, aclfileLoop, aclBuf_rule (.inl rfl) hacl,
      aclLine_rule (.inl rfl) hacl]
    exact ih (fun other hother => h other (List.mem_cons_of_mem _ hother)) (addAcl db user acl)

/-- and patterns go to theirs. -/
theorem aclfileLoop_patternRules {acls : List Acl} (h : ∀ acl ∈ acls, acl.WellFormed)
    (db : AclDb) (user : Option CStr) :
    aclfileLoop db user
        ((acls.map (renderRule (lit "pattern"))).map fun line => line ++ [10]) =
      ({ db with aclPatterns := db.aclPatterns ++ acls }, .success) := by
  induction acls generalizing db with
  | nil => rw [List.append_nil]; rfl
  | cons acl acls ih =>
    have hacl := h acl List.mem_cons_self
    rw [List.map_cons, List.map_cons, aclfileLoop, aclBuf_rule (.inr rfl) hacl,
      aclLine_rule (.inr rfl) hacl]
    have hrest := ih (fun other hother => h other (List.mem_cons_of_mem _ hother))
      (addAclPattern db acl)
    rw [addAclPattern, List.append_assoc, List.singleton_append] at hrest
    exact hrest

/-- The lines of one user add his list. -/
theorem aclfileLoop_user {aclUser : AclUser}
    (hname : ∀ username ∈ aclUser.username, IsAclWord username) (hne : aclUser.acl ≠ [])
    (hacl : ∀ acl ∈ aclUser.acl, acl.WellFormed) {db : AclDb}
    (hnew : aclUser.username ∉ db.aclList.map AclUser.username) {user : Option CStr}
    (huser : aclUser.username = none → user = none) (rest : List (List UInt8)) :
    aclfileLoop db user ((renderUser aclUser).map (fun line => line ++ [10]) ++ rest) =
      aclfileLoop { db with aclList := db.aclList ++ [aclUser] } aclUser.username rest := by
  obtain ⟨username, acls⟩ := aclUser
  cases username with
  | none =>
    rw [huser rfl, renderUser]
    exact (aclfileLoop_rules hacl db none rest).trans (by rw [foldl_addAcl hnew hne])
  | some username =>
    have hword := hname username rfl
    have hbuf : aclBuf (lit "user " ++ username ++ [10]) = lit "user " ++ username :=
      hword.aclBuf_append (by decide)
    rw [renderUser, Option.elim_some, List.singleton_append, List.map_cons, List.cons_append,
      aclfileLoop, hbuf, aclLine_user hword]
    exact (aclfileLoop_rules hacl db (some username) rest).trans (by rw [foldl_addAcl hnew hne])

/-- The lines of all users add their lists, one after the other. -/
theorem aclfileLoop_users {users : List AclUser}
    (hname : ∀ aclUser ∈ users, ∀ username ∈ aclUser.username, IsAclWord username)
    (hne : ∀ aclUser ∈ users, aclUser.acl ≠ [])
    (hacl : ∀ aclUser ∈ users, ∀ acl ∈ aclUser.acl, acl.WellFormed)
    (hnamed : ∀ aclUser ∈ users.tail, aclUser.username ≠ none) (db : AclDb)
    (hnodup : ((db.aclList ++ users).map AclUser.username).Nodup) (user : Option CStr)
    (huser : ∀ aclUser ∈ users.head?, aclUser.username = none → user = none)
    (rest : List (List UInt8)) :
    ∃ user', aclfileLoop db user
        ((users.flatMap renderUser).map (fun line => line ++ [10]) ++ rest) =
      aclfileLoop { db with aclList := db.aclList ++ users } user' rest := by
  induction users generalizing db user with
  | nil => exact ⟨user, by rw [List.append_nil]; rfl⟩
  | cons aclUser users ih =>
    have hnew : aclUser.username ∉ db.aclList.map AclUser.username := by
      rw [List.map_append, List.map_cons] at hnodup
      intro hmem
      exact (List.nodup_append.mp hnodup).2.2 _ hmem _ List.mem_cons_self rfl
    have hstep := aclfileLoop_user (hname aclUser List.mem_cons_self)
      (hne aclUser List.mem_cons_self) (hacl aclUser List.mem_cons_self) hnew
      (huser aclUser rfl) ((users.flatMap renderUser).map (fun line => line ++ [10]) ++ rest)
    obtain ⟨user', hrest⟩ := ih
      (fun other hother => hname other (List.mem_cons_of_mem _ hother))
      (fun other hother => hne other (List.mem_cons_of_mem _ hother))
      (fun other hother => hacl other (List.mem_cons_of_mem _ hother))
      (fun other hother => hnamed other (List.mem_of_mem_tail hother))
      { db with aclList := db.aclList ++ [aclUser] } (by simpa using hnodup) aclUser.username
      (fun other hother heq => absurd heq (hnamed other (List.mem_of_mem_head? hother)))
    refine ⟨user', ?_⟩
    rw [List.flatMap_cons, List.map_append, List.append_assoc, hstep, hrest, List.append_assoc,
      List.singleton_append]

theorem renderRule_newline {token : CStr} (htoken : token = lit "topic" ∨ token = lit "pattern")
    {acl : Acl} (h : acl.WellFormed) : 10 ∉ renderRule token acl := by
  rw [renderRule, List.mem_append, not_or]
  refine ⟨?_, h.topic.not_mem.2.1⟩
  rcases htoken with rfl | rfl <;> rcases h.access with haccess | haccess | haccess <;>
    · rw [haccess]
      decide

theorem AclDb.WellFormed.newline {db : AclDb} (h : db.WellFormed) :
    ∀ line ∈ aclLines db, 10 ∉ line := by
  intro line hline
  rcases List.mem_append.mp hline with hline | hline
  · obtain ⟨aclUser, haclUser, hline⟩ := List.mem_flatMap.mp hline
    rcases List.mem_append.mp hline with hline | hline
    · cases husername : aclUser.username with
      | none =>
        rw [husername] at hline
        cases hline
      | some username =>
        rw [husername] at hline
        rw [List.mem_singleton.mp hline, List.mem_append, not_or]
        exact ⟨by decide, (h.username aclUser haclUser username husername).not_mem.2.1⟩
    · obtain ⟨acl, hacl, rfl⟩ := List.mem_map.mp hline
      exact renderRule_newline (.inl rfl) (h.acl aclUser haclUser acl hacl)
  · obtain ⟨acl, hacl, rfl⟩ := List.mem_map.mp hline
    exact renderRule_newline (.inr rfl) (h.pattern acl hacl)

/-- **The broker reads the rights that were written down**, for all rights that can stand in a
file. -/
theorem aclfileParse_renderAcl {db : AclDb} (h : db.WellFormed) :
    aclfileParse ⟨[], []⟩ (some (renderAcl db)) = (db, .success) := by
  have hlines : fgetsLines [] (renderAcl db) = (aclLines db).map fun line => line ++ [10] :=
    fgetsLines_flatMap fun line hline => ⟨h.newline line hline, h.length_le line hline⟩
  obtain ⟨user, husers⟩ := aclfileLoop_users h.username h.acl_ne_nil h.acl h.named
    ⟨[], []⟩ h.nodup none (fun _ _ _ => rfl)
    ((db.aclPatterns.map (renderRule (lit "pattern"))).map fun line => line ++ [10])
  rw [aclfileParse, hlines, aclLines, List.map_append, husers, aclfileLoop_patternRules h.pattern]
  rfl

/-- Rights of the clients without a name and of a user, with those of the protocol. -/
def sharedAcl : AclDb :=
  ⟨[⟨none, [⟨lit "news/#", mosqAclRead⟩]⟩,
      ⟨some (lit "bob"), [⟨lit "news/+", mosqAclRead ||| mosqAclWrite⟩,
        ⟨lit "log", mosqAclWrite⟩]⟩],
    protoPatterns⟩

theorem protoPatterns_wellFormed : ∀ acl ∈ protoPatterns, acl.WellFormed := by
  intro acl hacl
  simp only [protoPatterns, List.mem_cons, List.not_mem_nil, or_false] at hacl
  rcases hacl with rfl | rfl | rfl | rfl
  · exact ⟨⟨by decide, by decide, by decide⟩, .inl rfl⟩
  · exact ⟨⟨by decide, by decide, by decide⟩, .inr (.inl rfl)⟩
  · exact ⟨⟨by decide, by decide, by decide⟩, .inr (.inl rfl)⟩
  · exact ⟨⟨by decide, by decide, by decide⟩, .inl rfl⟩

theorem aclfileParse_renderAcl_sharedAcl :
    aclfileParse ⟨[], []⟩ (some (renderAcl sharedAcl)) = (sharedAcl, .success) := by
  refine aclfileParse_renderAcl ⟨?_, by decide, ?_, ?_, ?_, protoPatterns_wellFormed, by decide⟩
  · refine List.forall_mem_cons.mpr ⟨nofun, List.forall_mem_singleton.mpr fun username h => ?_⟩
    obtain rfl := Option.some.inj h
    exact ⟨by decide, by decide, by decide⟩
  · exact List.forall_mem_singleton.mpr (Option.some_ne_none _)
  · exact List.forall_mem_cons.mpr ⟨List.cons_ne_nil _ _,
      List.forall_mem_singleton.mpr (List.cons_ne_nil _ _)⟩
  · refine List.forall_mem_cons.mpr ⟨?_, List.forall_mem_singleton.mpr ?_⟩
    · exact List.forall_mem_singleton.mpr ⟨⟨by decide, by decide, by decide⟩, .inl rfl⟩
    · exact List.forall_mem_cons.mpr ⟨⟨⟨by decide, by decide, by decide⟩, .inr (.inr rfl)⟩,
        List.forall_mem_singleton.mpr ⟨⟨by decide, by decide, by decide⟩, .inr (.inl rfl)⟩⟩

/-! ### Reading the file again -/

/-- Patterns that are there already stay, and nothing depends on them. -/
theorem aclfileLoop_patterns (patterns : List Acl) (user : Option CStr) (db : AclDb)
    (lines : List (List UInt8)) :
    aclfileLoop ⟨db.aclList, patterns ++ db.aclPatterns⟩ user lines =
      (⟨(aclfileLoop db user lines).1.aclList,
        patterns ++ (aclfileLoop db user lines).1.aclPatterns⟩, (aclfileLoop db user lines).2) := by
  induction lines generalizing user db with
  | nil => rfl
  | cons line lines ih =>
    rw [aclfileLoop, aclfileLoop]
    cases aclLine (aclBuf line) with
    | error rc => rfl
    | ok asked =>
      cases asked with
      | none => exact ih user db
      | some asked =>
        cases asked with
        | topic acl => exact ih user (addAcl db user acl)
        | pattern acl =>
          have h := ih user (addAclPattern db acl)
          rw [addAclPattern, ← List.append_assoc] at h
          exact h
        | user username => exact ih (some username) db

theorem aclfileParse_patterns (patterns : List Acl) (file : Option (List UInt8)) :
    aclfileParse ⟨[], patterns⟩ file =
      (⟨(aclfileSays file).aclList, patterns ++ (aclfileSays file).aclPatterns⟩,
        (aclfileParse ⟨[], []⟩ file).2) := by
  cases file with
  | none =>
    rw [aclfileSays, aclfileParse, aclfileParse, List.append_nil]
  | some file =>
    have h := aclfileLoop_patterns patterns none ⟨[], []⟩ (fgetsLines [] file)
    rw [List.append_nil] at h
    exact h

theorem reload_of_own {db : AclDb} (h : db.aclList ≠ []) (file : Option (List UInt8)) :
    reload db file = aclfileSays file := by
  rw [reload, aclCleanup, if_neg h, aclfileSays]

theorem reload_of_no_own {db : AclDb} (h : db.aclList = []) (file : Option (List UInt8)) :
    reload db file =
      ⟨(aclfileSays file).aclList, db.aclPatterns ++ (aclfileSays file).aclPatterns⟩ := by
  obtain ⟨users, patterns⟩ := db
  obtain rfl : users = [] := h
  rw [reload, aclCleanup, if_pos rfl, aclfileParse_patterns]

/-- **When reading the file again leaves the rights in the file**: when a user had a list of his
own, or there were no patterns. When no user had one, the old patterns stay in front of those in
the file. -/
theorem reload_eq_iff (db : AclDb) (file : Option (List UInt8)) :
    (reload db file = aclfileSays file ↔ db.aclList ≠ [] ∨ db.aclPatterns = []) ∧
      reload db file = ⟨(aclfileSays file).aclList,
        (if db.aclList = [] then db.aclPatterns else []) ++ (aclfileSays file).aclPatterns⟩ := by
  by_cases hown : db.aclList = []
  · rw [reload_of_no_own hown, or_iff_right fun h => h hown, if_pos hown]
    refine ⟨?_, rfl⟩
    constructor
    · intro h
      exact List.append_left_eq_self.mp (congrArg AclDb.aclPatterns h)
    · intro h
      rw [h, List.nil_append]
  · rw [reload_of_own hown, if_neg hown, List.nil_append]
    exact ⟨iff_of_true rfl (.inl hown), rfl⟩

theorem reloads_append (files : List (Option (List UInt8))) (file : Option (List UInt8)) :
    reloads (files ++ [file]) = reload (reloads files) file := by
  rw [reloads, List.foldl_append, ← reloads]
  rfl

/-- The lists of the users are always those in the last file. -/
theorem aclList_reloads (files : List (Option (List UInt8))) (file : Option (List UInt8)) :
    (reloads (files ++ [file])).aclList = (aclfileSays file).aclList := by
  rw [reloads_append]
  by_cases hown : (reloads files).aclList = []
  · rw [reload_of_no_own hown]
  · rw [reload_of_own hown]

/-- Files with patterns only add up. -/
theorem reloads_of_patterns {files : List (Option (List UInt8))}
    (hpatterns : ∀ file ∈ files, (aclfileSays file).aclList = []) :
    reloads files = ⟨[], files.flatMap fun file => (aclfileSays file).aclPatterns⟩ := by
  induction files using List.reverseRecOn with
  | nil => rfl
  | append_singleton files file ih =>
    have ih := ih fun other hother => hpatterns other (List.mem_append_left _ hother)
    rw [reloads_append, ih, reload_of_no_own rfl, hpatterns file (by simp), List.flatMap_append,
      List.flatMap_singleton]

/-- **What a client may do after any number of files with patterns only.** A client with a user
name may do what one of the files gives it, be it the first or the last, and everything if none has
a pattern. So no right is taken away again. -/
theorem reloads_access {files : List (Option (List UInt8))}
    (hpatterns : ∀ file ∈ files, (aclfileSays file).aclList = []) {context : AclContext}
    {username topic : CStr} (access : ℕ) (huser : context.username = some username)
    (hbridge : context.bridge = false) (hne : topic ≠ []) :
    mosquittoAclCheckDefault ((reloads files).aclPatterns.length + 1) (reloads files)
        (applyAcl (reloads files) context) topic access = some .success ↔
      (∀ file ∈ files, (aclfileSays file).aclPatterns = []) ∨
        ∃ file ∈ files, ∃ acl ∈ (aclfileSays file).aclPatterns,
          (acl.instantiate context.id username).Grants topic access := by
  have huser' : (applyAcl (reloads files) context).username = some username := huser
  obtain ⟨rc, hrc, -, hiff⟩ := mosquittoAclCheckDefault_eq access huser' hne
    (Nat.lt_succ_self (reloads files).aclPatterns.length)
  rw [hrc, Option.some.injEq, hiff, reloads_of_patterns hpatterns]
  constructor
  · rintro (⟨-, hnone⟩ | hand | ⟨aclUser, huser, -⟩ | ⟨acl, hacl, hgrants⟩)
    · exact .inl (List.flatMap_eq_nil_iff.mp hnone)
    · exact absurd (hbridge.symm.trans hand) Bool.false_ne_true
    · cases huser
    · obtain ⟨file, hfile, hacl⟩ := List.mem_flatMap.mp hacl
      exact .inr ⟨file, hfile, acl, hacl, hgrants⟩
  · rintro (hnone | ⟨file, hfile, acl, hacl, hgrants⟩)
    · exact .inl ⟨rfl, List.flatMap_eq_nil_iff.mpr hnone⟩
    · exact .inr (.inr (.inr ⟨acl, List.mem_flatMap.mpr ⟨file, hfile, hacl⟩, hgrants⟩))

/-- A file with one right, and later one with another right only. -/
def twoFiles : List (Option (List UInt8)) :=
  [some (lit "pattern write chat/%u/#"), some (lit "pattern write users/+/frequest/%u")]

theorem reloads_access_bob :
    mosquittoAclCheckDefault ((reloads twoFiles).aclPatterns.length + 1) (reloads twoFiles)
      (applyAcl (reloads twoFiles) bobContext) (lit "chat/bob/alice") mosqAclWrite =
        some .success := by
  have hpatterns : ∀ file ∈ twoFiles, (aclfileSays file).aclList = [] := by decide
  have hgrants : (Acl.instantiate (lit "bob") (lit "bob") ⟨lit "chat/%u/#", mosqAclWrite⟩).Grants
      (lit "chat/bob/alice") mosqAclWrite := ⟨by decide, by decide⟩
  exact (reloads_access hpatterns mosqAclWrite rfl rfl (List.cons_ne_nil _ _)).mpr
    (.inr ⟨_, List.mem_cons_self, ⟨lit "chat/%u/#", mosqAclWrite⟩, by decide, hgrants⟩)

end Psn

import Psn.Cli

/-!
# The command loop

The loop in `main` reads a line with `gets` and interprets it, until a line sets `end`. It does not
look at what `gets` returned. At the end of the input `gets` leaves the buffer as it was, which is
as `strtok` left it: cut behind the first field of the last line. So the command of the last line
is interpreted again, without its arguments, and then again, for ever.

The calls that a line makes work on a state of any kind here; a call that does not return ends the
loop without a result.

What a round leaves in the buffer matters only then, and then it is all that matters.
`Cursor.Holds`, from the model of `strtok`, says which text a buffer stands for. A line that was
interpreted leaves one whose fields start with the same command.

## Scope

A line that does not fit into the buffer is undefined, since `gets` does not know its size. Where a
result speaks of an input, its lines fit. What the commands do to a client is in `Psn.Cli`; here
they are calls that are made in order.

## Main results

* `exists_restart_command`: what a round leaves in the buffer
* `commandLoop_eq_none`: at the end of the input the loop does not end
* `endsWithInput_iff`: the inputs with which it does
-/

namespace Psn

open Buffer Tokens

/-- `gets`, which does not know the capacity of the buffer. -/
def gets (line stdin : Bytes) : Option (Bytes × Bytes) :=
  if stdin = [] then some (line, [])
  else
    let l := stdin.takeWhile (· ≠ 10)
    if l.length < line.length then
      some (overwrite line (l ++ [0]), (stdin.dropWhile (· ≠ 10)).drop 1)
    else none

variable {σ : Type} (exec : σ → CliCall → Option σ)

/-- The loop in `main`, for a number of rounds: the outcomes and the state at its end. -/
def commandLoop : ℕ → σ → Bytes → Bytes → Option (List Outcome × σ)
  | 0, _, _, _ => none
  | fuel + 1, s, line, stdin => do
    let (line, stdin) ← gets line stdin
    let (o, c) ← command (Cursor.start line)
    let s ← o.perform exec s
    if o.ended then return ([o], s)
    let (os, s) ← commandLoop fuel s c.bytes stdin
    return (o :: os, s)

/-- The lines of an input. The last one may lack its newline. -/
def inputLines : Bytes → List Bytes
  | [] => []
  | b :: bs =>
    if b = 10 then [] :: inputLines bs
    else
      match inputLines bs with
      | [] => [[b]]
      | l :: ls => (b :: l) :: ls

/-- The first line ends at the first newline, or with the input. -/
theorem inputLines_eq {stdin : Bytes} (h : stdin ≠ []) :
    inputLines stdin = stdin.takeWhile (· ≠ 10) ::
      inputLines ((stdin.dropWhile (· ≠ 10)).drop 1) := by
  induction stdin with
  | nil => exact absurd rfl h
  | cons b bs ih =>
    rw [inputLines]
    by_cases hb : b = 10
    · simp [hb]
    · rw [if_neg hb, List.takeWhile_cons_of_pos (by simpa using hb),
        List.dropWhile_cons_of_pos (by simpa using hb)]
      cases bs with
      | nil => simp [inputLines]
      | cons b' bs => rw [ih (List.cons_ne_nil b' bs)]

/-- What a line makes `main` do. -/
def inputOutcome (l : Bytes) : Outcome := lineOutcome (textOfLine l)

/-- The line is the command `exit`. -/
def IsExit (l : Bytes) : Prop := (fields delims (textOfLine l)).head? = some (lit "exit")

/-- Only `exit` ends the loop: not `set`, -/
theorem ended_setOutcome (token : Option CStr) (args : List CStr) :
    (setOutcome token args).ended = false := by
  cases token with
  | none => rfl
  | some token =>
    have hname : (setNameOutcome args).ended = false := by
      unfold setNameOutcome
      split <;> rfl
    have hshown : (oneArgumentOutcome .setShownName args).ended = false := by cases args <;> rfl
    have hserver : (setServerOutcome args).ended = false := by
      unfold setServerOutcome
      split <;> rfl
    simp only [setOutcome, apply_ite Outcome.ended, hname, hshown, hserver, Outcome.calling,
      Outcome.printing, ite_self]

/-- not `show`, -/
theorem ended_showOutcome (token : Option CStr) : (showOutcome token).ended = false := by
  cases token with
  | none => rfl
  | some token =>
    simp only [showOutcome, apply_ite Outcome.ended, Outcome.calling, Outcome.printing, ite_self]

/-- and none of the commands with arguments. -/
theorem ended_oneArgumentOutcome (call : Option CStr → CliCall) (args : List CStr) :
    (oneArgumentOutcome call args).ended = false := by cases args <;> rfl

/-- The same for those with a text behind the name. -/
theorem ended_targetAndRestOutcome (call : Option CStr → Option CStr → CliCall)
    (args : List CStr) (rest : CStr) : (targetAndRestOutcome call args rest).ended = false := by
  cases args with
  | nil => rfl
  | cons target args =>
    simp only [targetAndRestOutcome, apply_ite Outcome.ended, Outcome.calling, Outcome.printing,
      ite_self]

/-- Only `exit` ends the loop. -/
theorem ended_lineOutcome (l : CStr) :
    (lineOutcome l).ended = true ↔ (fields delims l).head? = some (lit "exit") := by
  rw [lineOutcome]
  cases (fields delims l).head? with
  | none => simp [commandOutcome, Outcome.calling]
  | some token =>
    have hadd : ∀ args, (addOutcome args).ended = false := fun args => by cases args <;> rfl
    have htestenv : ∀ args, (testenvOutcome args).ended = false := fun _ => rfl
    simp only [commandOutcome, apply_ite Outcome.ended, ended_setOutcome, ended_showOutcome, hadd,
      ended_oneArgumentOutcome, ended_targetAndRestOutcome, htestenv, Outcome.calling,
      Outcome.printing, ite_self]
    simp

/-! ### A round -/

/-- **One round.** A round interprets the string in the buffer and leaves its first field there. -/
theorem exists_restart_command {buf l : Bytes} (hl : (Cursor.start buf).Holds l) :
    ∃ c t, command (Cursor.start buf) = some (lineOutcome l, c) ∧ c.bytes.length = buf.length ∧
      (Cursor.start c.bytes).Holds t ∧ (fields delims t).head? = (fields delims l).head? := by
  obtain ⟨c, t, hcommand, hlen, ht, hfields⟩ :=
    exists_restart (p := delims) rfl reads_dispatch hl
  refine ⟨c, t, ?_, hlen, ht, ?_⟩
  · rwa [nextField_fst] at hcommand
  · rw [hfields]
    cases (fields delims l).head? <;> rfl

variable {exec}

/-- One round: a line is read, its calls are made, and unless it ends the loop, the next round
starts with what `strtok` has left. -/
theorem commandLoop_succ {line line' stdin stdin' l : Bytes}
    (hgets : gets line stdin = some (line', stdin')) (hl : (Cursor.start line').Holds l) :
    ∃ line'' t, line''.length = line'.length ∧ (Cursor.start line'').Holds t ∧
      (fields delims t).head? = (fields delims l).head? ∧
      ∀ fuel s, commandLoop exec (fuel + 1) s line stdin =
        ((lineOutcome l).perform exec s).bind fun s =>
          if (lineOutcome l).ended then some ([lineOutcome l], s)
          else (commandLoop exec fuel s line'' stdin').map fun r =>
            (lineOutcome l :: r.1, r.2) := by
  obtain ⟨c, t, hcommand, hlen, ht, hfields⟩ := exists_restart_command hl
  refine ⟨c.bytes, t, hlen, ht, hfields, fun fuel s => ?_⟩
  rw [commandLoop, hgets]
  change (command (Cursor.start line')).bind _ = _
  rw [hcommand]
  cases hperform : (lineOutcome l).perform exec s with
  | none => simp [hperform]
  | some s' => cases hrest : commandLoop exec fuel s' c.bytes stdin' <;> simp [hperform, hrest]

/-- **At the end of the input.** Unless the buffer starts with `exit`, the loop goes on. -/
theorem commandLoop_eq_none {fuel : ℕ} : ∀ {s : σ} {line l : Bytes}, (Cursor.start line).Holds l →
    (fields delims l).head? ≠ some (lit "exit") → commandLoop exec fuel s line [] = none := by
  induction fuel with
  | zero => exact fun _ _ => rfl
  | succ fuel ih =>
    intro s line l hl hexit
    have hgets : gets line [] = some (line, []) := rfl
    obtain ⟨line', t, -, ht, hfields, hloop⟩ := commandLoop_succ hgets hl
    have hended : (lineOutcome l).ended = false := by
      simpa using (ended_lineOutcome l).not.mpr hexit
    have hrest : ∀ s', commandLoop exec fuel s' line' [] = none := fun s' =>
      ih ht (hfields ▸ hexit)
    rw [hloop, Option.bind_eq_none_iff]
    intro s' _
    simp [hended, hrest]

/-- `gets` takes one line, without the newline, and puts a NUL behind it. -/
theorem gets_of_ne {line stdin line' stdin' : Bytes} (h : stdin ≠ [])
    (hgets : gets line stdin = some (line', stdin')) :
    ∃ l, inputLines stdin = l :: inputLines stdin' ∧ l.length < line.length ∧
      line' = overwrite line (l ++ [0]) := by
  rw [gets, if_neg h] at hgets
  obtain ⟨hlen, heq⟩ := Option.ite_none_right_eq_some.mp hgets
  cases heq
  exact ⟨_, inputLines_eq h, hlen, rfl⟩

/-- It does so for every line that fits. -/
theorem gets_of_inputLines {line stdin l : Bytes} {ls : List Bytes}
    (h : inputLines stdin = l :: ls) (hlen : l.length < line.length) :
    ∃ stdin', gets line stdin = some (overwrite line (l ++ [0]), stdin') ∧
      inputLines stdin' = ls := by
  have hne : stdin ≠ [] := by rintro rfl; cases h
  rw [inputLines_eq hne] at h
  cases h
  refine ⟨(stdin.dropWhile (· ≠ 10)).drop 1, ?_, rfl⟩
  rw [gets, if_neg hne]
  exact if_pos hlen

/-- The buffer is as long as before. -/
theorem length_overwrite_line {line l : Bytes} (h : l.length < line.length) :
    (overwrite line (l ++ [0])).length = line.length :=
  length_overwrite (by rw [List.length_append, List.length_singleton]; exact h)

/-! ### Whole inputs -/

/-- The calls of the lines return. -/
def Performs (exec : σ → CliCall → Option σ) (s : σ) (ls : List Bytes) : Prop :=
  (ls.foldlM (fun s l => (inputOutcome l).perform exec s) s).isSome

/-- The calls of several lines are made one line after the other. -/
theorem performs_cons {s : σ} {l : Bytes} {ls : List Bytes} :
    Performs exec s (l :: ls) ↔
      ∃ s', (inputOutcome l).perform exec s = some s' ∧ Performs exec s' ls := by
  rw [Performs, List.foldlM_cons]
  cases (inputOutcome l).perform exec s <;> simp [Performs]

/-- The input has a line `exit`, and the lines before it can be read and interpreted. -/
def EndsByExit (exec : σ → CliCall → Option σ) (capacity : ℕ) (s : σ) (ls : List Bytes) : Prop :=
  ∃ pre l post, ls = pre ++ l :: post ∧ (∀ m ∈ pre ++ [l], m.length < capacity) ∧ IsExit l ∧
    Performs exec s pre

/-- The loop ends, and has interpreted some first lines of its input, each once and in order. -/
def Ends (exec : σ → CliCall → Option σ) (s : σ) (line stdin : Bytes) : Prop :=
  ∃ fuel trace s', commandLoop exec fuel s line stdin = some (trace, s') ∧
    ∃ k, trace = ((inputLines stdin).take k).map inputOutcome

/-- A loop that ends has read an `exit`. -/
theorem endsByExit_of_commandLoop {fuel : ℕ} : ∀ {s : σ} {line stdin : Bytes}
    {r : List Outcome × σ}, stdin ≠ [] → commandLoop exec fuel s line stdin = some r →
      EndsByExit exec line.length s (inputLines stdin) := by
  induction fuel with
  | zero =>
    intro s line stdin r _ h
    cases h
  | succ fuel ih =>
    intro s line stdin r hne h
    obtain ⟨⟨line₁, stdin₁⟩, hgets, -⟩ := Option.bind_eq_some_iff.mp h
    obtain ⟨l, hlines, hlen, rfl⟩ := gets_of_ne hne hgets
    obtain ⟨line₂, t, hlen₂, ht, hfields, hloop⟩ :=
      commandLoop_succ hgets (holds_textOfLine line l)
    rw [hloop] at h
    obtain ⟨s₁, hperform, h⟩ := Option.bind_eq_some_iff.mp h
    rw [hlines]
    by_cases hexit : IsExit l
    · exact ⟨[], l, _, rfl, by simpa using hlen, hexit, rfl⟩
    have hended : (lineOutcome (textOfLine l)).ended = false := by
      simpa using (ended_lineOutcome _).not.mpr hexit
    rw [if_neg (by simp [hended])] at h
    obtain ⟨r', hrest, -⟩ := Option.map_eq_some_iff.mp h
    have hne₁ : stdin₁ ≠ [] := by
      rintro rfl
      rw [commandLoop_eq_none ht (hfields ▸ hexit)] at hrest
      cases hrest
    obtain ⟨pre, m, post, hsplit, hpre, hm, hperforms⟩ := ih hne₁ hrest
    rw [hlen₂, length_overwrite_line hlen] at hpre
    refine ⟨l :: pre, m, post, by rw [hsplit]; rfl, ?_, hm,
      performs_cons.mpr ⟨s₁, hperform, hperforms⟩⟩
    intro m' hm'
    rcases List.mem_cons.mp hm' with rfl | hm'
    · exact hlen
    · exact hpre m' hm'

/-- `exit` makes no call. -/
theorem outcome_of_isExit {l : Bytes} (h : IsExit l) :
    lineOutcome (textOfLine l) = ⟨[], [.exiting], true⟩ := by
  rw [lineOutcome, h]
  rfl

/-- Such a line ends the loop. -/
theorem ends_of_isExit {s : σ} {line stdin l : Bytes} {ls : List Bytes}
    (hlines : inputLines stdin = l :: ls) (hlen : l.length < line.length) (hexit : IsExit l) :
    Ends exec s line stdin := by
  obtain ⟨stdin', hgets, -⟩ := gets_of_inputLines hlines hlen
  obtain ⟨line', t, -, -, -, hloop⟩ :=
    commandLoop_succ hgets (holds_textOfLine line l)
  refine ⟨1, [inputOutcome l], s, ?_, 1, ?_⟩
  · rw [hloop, inputOutcome, outcome_of_isExit hexit]
    rfl
  · rw [hlines]
    rfl

/-- A loop that reads an `exit` ends. -/
theorem ends_of_endsByExit {pre : List Bytes} : ∀ {s : σ} {line stdin l : Bytes}
    {post : List Bytes}, inputLines stdin = pre ++ l :: post →
      (∀ m ∈ pre ++ [l], m.length < line.length) → IsExit l → Performs exec s pre →
      Ends exec s line stdin := by
  induction pre with
  | nil =>
    intro s line stdin l post hlines hlen hexit _
    exact ends_of_isExit hlines (hlen l (by simp)) hexit
  | cons m pre ih =>
    intro s line stdin l post hlines hlen hexit hperforms
    have hm : m.length < line.length := hlen m (by simp)
    by_cases hexit' : IsExit m
    · exact ends_of_isExit hlines hm hexit'
    obtain ⟨stdin₁, hgets, hlines₁⟩ := gets_of_inputLines hlines hm
    obtain ⟨line₂, t, hlen₂, ht, hfields, hloop⟩ :=
      commandLoop_succ hgets (holds_textOfLine line m)
    obtain ⟨s₁, hperform, hperforms₁⟩ := performs_cons.mp hperforms
    rw [length_overwrite_line hm] at hlen₂
    have hlenRest : ∀ m' ∈ pre ++ [l], m'.length < line₂.length := fun m' hm' =>
      hlen₂ ▸ hlen m' (List.mem_cons_of_mem m hm')
    obtain ⟨fuel, trace, s', hrest, k, htrace⟩ := ih hlines₁ hlenRest hexit hperforms₁
    have hended : (lineOutcome (textOfLine m)).ended = false := by
      simpa using (ended_lineOutcome _).not.mpr hexit'
    refine ⟨fuel + 1, inputOutcome m :: trace, s', ?_, k + 1, ?_⟩
    · rw [hloop]
      rw [inputOutcome] at hperform
      simp [hperform, hended, hrest, inputOutcome]
    · rw [hlines, List.cons_append, List.take_succ_cons, List.map_cons, htrace, hlines₁]
      rfl

/-- **The end of the input.** Whatever the buffer holds at first, the loop ends exactly if the
input has an `exit` that it gets to. -/
theorem endsWithInput_iff (exec : σ → CliCall → Option σ) (s : σ) (stdin : Bytes) :
    (∀ line : Sized 2048, Ends exec s line.1 stdin) ↔
      EndsByExit exec 2048 s (inputLines stdin) := by
  constructor
  · intro h
    obtain ⟨fuel, trace, s', hloop, -⟩ := h ⟨List.replicate 2048 0, List.length_replicate⟩
    by_cases hne : stdin = []
    · subst hne
      have hzero : (Cursor.start (List.replicate 2048 0)).Holds [] :=
        ⟨List.not_mem_nil, List.replicate 2047 0, rfl⟩
      rw [commandLoop_eq_none hzero (by simp)] at hloop
      cases hloop
    · have hends := endsByExit_of_commandLoop hne hloop
      rwa [List.length_replicate] at hends
  · rintro ⟨pre, l, post, hlines, hlen, hexit, hperforms⟩ line
    exact ends_of_endsByExit hlines (fun m hm => line.2.symm ▸ hlen m hm) hexit hperforms

/-- A state that counts the calls. -/
def countCalls (n : ℕ) (_ : CliCall) : Option ℕ := some (n + 1)

/-- With `help` as the only line, the loop does not end: the commands are printed for ever. -/
theorem not_endsWithInput_help :
    ¬∀ (stdin : Bytes) (line : Sized 2048), Ends countCalls 0 line.1 stdin := by
  intro h
  obtain ⟨fuel, trace, s', hloop, -⟩ :=
    h (lit "help\n") ⟨List.replicate 2048 0, List.length_replicate⟩
  obtain ⟨pre, l, post, hlines, -, hexit, -⟩ := endsByExit_of_commandLoop (by decide) hloop
  have hone : inputLines (lit "help\n") = [lit "help"] := by decide
  have hl : l ∈ [lit "help"] := by
    rw [← hone, hlines]
    simp
  rw [List.mem_singleton.mp hl, IsExit] at hexit
  exact absurd hexit (by decide)

end Psn

import Mathlib.Data.List.Induction
import Psn.Connection
import Psn.Independence
import Psn.Lib.Projection

/-!
# Several instances in one process

The functions of `psn.h` take the instance that they work on as an argument, but the flag
`connected` is one for the whole process. An instance is in nobody's way as long as its calls do
not turn the flag: a `psn_connect` that succeeds while no other instance is connected lets the
others send, and a `psn_disconnect` that succeeds keeps them from it.

## Scope

The instances share the flag and nothing else: the clients of the library that they hold are
different, and so are their lists. Calls are made one after the other. The callback runs in a thread
of the library, and here it is an operation like the others, since it does not look at the flag.

## Main results

* `alone_of_along`: an instance whose neighbours leave the flag alone behaves as if it were alone
* `undisturbed_iff`: and only such an instance does
-/

namespace Psn

open KeyedChain PartialMachine

variable {ι τ κ : Type} [DecidableEq ι]

/-- A process with several instances. -/
structure Process (ι τ κ : Type) where
  /-- `connected`. -/
  connected : Bool
  /-- The instances. -/
  psn : ι → PsnT τ κ

/-- The process as the functions see it that work on the instance `i`. -/
def Process.at (P : Process ι τ κ) (i : ι) : Proc τ κ := ⟨P.connected, P.psn i⟩

/-- What the caller and the other clients see of a call: the return code and the messages. -/
def Output.seen (o : Output) : Option PsnErr × List Message := (o.err, o.messages)

/-- The call, if it works on the instance `i`. -/
def callOn {κ : Type} (i : ι) (a : ι × ApiOp κ) : Option (ApiOp κ) :=
  if a.1 = i then some a.2 else none

/-- The calls of a run that work on the instance `i`, each with what is seen of it. -/
def callsOn {κ : Type} (i : ι) (calls : List (ι × ApiOp κ)) (outs : List Output) :
    List (ApiOp κ × Option PsnErr × List Message) :=
  partTrace (callOn i) Output.seen calls outs

/-- A call that would succeed in connecting the instance. -/
def Connects {τ κ : Type} (psn : PsnT τ κ) (io : ConnectIo) : Prop :=
  psn.mosq ≠ none ∧ io.new ≠ none ∧ io.connect = .success ∧ io.loopStart = .success

/-- A call on another instance than `i` does not turn the flag: it succeeds in connecting only
while the flag is set, and in disconnecting only while it is clear. -/
def LeavesFlag (i : ι) (P : Process ι τ κ) (a : ι × ApiOp κ) : Prop :=
  a.1 ≠ i → (∀ io, a.2 = .connect io → Connects (P.psn a.1) io → P.connected = true) ∧
    (a.2 = .disconnect → (P.psn a.1).mosq ≠ none → P.connected = false)

variable [Tomcrypt κ] [UserTable τ κ]

/-- One call on one of the instances. -/
def Process.step (J : Jansson) (P : Process ι τ κ) (a : ι × ApiOp κ) :
    Option (Output × Process ι τ κ) :=
  ((P.at a.1).apiStep J a.2).map fun r =>
    (r.1, ⟨r.2.connected, Function.update P.psn a.1 r.2.psn⟩)

/-- One call on an instance that is alone in its process. -/
def aloneStep (J : Jansson) (p : Proc τ κ) (op : ApiOp κ) :
    Option ((Option PsnErr × List Message) × Proc τ κ) :=
  (p.apiStep J op).map fun r => (r.1.seen, r.2)

theorem processStep_eq_some {J : Jansson} {P Q : Process ι τ κ} {a : ι × ApiOp κ} {o : Output}
    (h : P.step J a = some (o, Q)) :
    (P.at a.1).apiStep J a.2 = some (o, Q.at a.1) ∧ ∀ j, j ≠ a.1 → Q.psn j = P.psn j := by
  obtain ⟨r, hr, heq⟩ := Option.map_eq_some_iff.mp h
  cases heq
  refine ⟨?_, fun j hj => Function.update_of_ne hj _ _⟩
  simp only [Process.at, Function.update_self]
  exact hr

/-- A call that does not turn the flag leaves it. -/
theorem LeavesFlag.connected_eq {J : Jansson} {i : ι} {P Q : Process ι τ κ} {a : ι × ApiOp κ}
    {o : Output} (h : LeavesFlag i P a) (hne : a.1 ≠ i) (hstep : P.step J a = some (o, Q)) :
    Q.connected = P.connected := by
  obtain ⟨j, op⟩ := a
  obtain ⟨hproc, -⟩ := processStep_eq_some hstep
  obtain ⟨hconn, -, -⟩ := frame_apiStep hproc
  refine hconn.trans ?_
  cases op with
  | connect io =>
    rw [ApiOp.flag]
    split
    · rename_i hs
      obtain ⟨r, hr, -, -⟩ := exists_reply hproc
      obtain ⟨hmosq, m, hnew, -⟩ := psnConnect_eq_some hr
      exact ((h hne).1 io rfl ⟨hmosq, by simp [hnew], hs.1, hs.2⟩).symm
    · rfl
  | disconnect =>
    rw [ApiOp.flag]
    split
    · rfl
    · rename_i hmosq
      exact ((h hne).2 rfl hmosq).symm
  | _ => rfl

/-- A call that turns the flag is defined. -/
theorem exists_turn (J : Jansson) {i : ι} {P : Process ι τ κ} {a : ι × ApiOp κ}
    (h : ¬LeavesFlag i P a) :
    a.1 ≠ i ∧ ∃ o Q, P.step J a = some (o, Q) ∧ Q.connected ≠ P.connected := by
  obtain ⟨j, op⟩ := a
  obtain ⟨hne, hturn⟩ := Classical.not_imp.mp h
  refine ⟨hne, ?_⟩
  rcases not_and_or.mp hturn with hturn | hturn
  · simp only [not_forall] at hturn
    obtain ⟨io, rfl, ⟨hmosq, hnew, hc, hl⟩, hclear⟩ := hturn
    obtain ⟨r, hr⟩ := exists_psnConnect (p := P.at j) hmosq hnew
    have hstep : P.step J (j, .connect io) =
        some (r.result.1, ⟨r.proc.connected, Function.update P.psn j r.proc.psn⟩) := by
      rw [Process.step, Proc.apiStep, hr]
      rfl
    refine ⟨_, _, hstep, ?_⟩
    obtain ⟨hconn, -, -⟩ := frame_apiStep (processStep_eq_some hstep).1
    rw [ApiOp.flag, if_pos ⟨hc, hl⟩] at hconn
    exact fun heq => hclear (heq.symm.trans hconn)
  · simp only [Classical.not_imp] at hturn
    obtain ⟨rfl, hmosq, hset⟩ := hturn
    have hmosq : (P.at j).psn.mosq ≠ none := hmosq
    refine ⟨_, _, rfl, ?_⟩
    have hdisconnect : (P.at j).apiStep J .disconnect = some (psnDisconnect (P.at j)).result := rfl
    obtain ⟨hconn, -, -⟩ := frame_apiStep hdisconnect
    rw [ApiOp.flag, if_neg hmosq] at hconn
    exact fun heq => hset (heq.symm.trans hconn)

/-- **An instance whose neighbours leave the flag alone** behaves as if it were alone. -/
theorem alone_of_along {J : Jansson} {i : ι} {P Q : Process ι τ κ} {calls : List (ι × ApiOp κ)}
    {outs : List Output} (h : Along (Process.step J) (LeavesFlag i) P calls)
    (hrun : run (Process.step J) P calls = some (outs, Q)) :
    ∃ seen, run (aloneStep J) (P.at i) (calls.filterMap (callOn i)) = some (seen, Q.at i) ∧
      callsOn i calls outs = (calls.filterMap (callOn i)).zip seen := by
  refine run_part (fun P => P.at i) ?_ ?_ h hrun
  · intro P a o Q hleaves hstep hother
    have hne : a.1 ≠ i := fun heq => by simp [callOn, heq] at hother
    obtain ⟨-, hsame⟩ := processStep_eq_some hstep
    simp only [Process.at, hleaves.connected_eq hne hstep, hsame i (Ne.symm hne)]
  · intro P a op o Q _ hstep hown
    obtain ⟨rfl, hop⟩ := Option.ite_none_right_eq_some.mp hown
    obtain rfl := Option.some_inj.mp hop
    rw [aloneStep, (processStep_eq_some hstep).1]
    rfl

/-- After any part of the calls, the next call on the instance `i` and the calls on it before
return and publish what they do when it is alone, and leave the same lists. -/
def Undisturbed (J : Jansson) (i : ι) (P : Process ι τ κ) (calls : List (ι × ApiOp κ)) : Prop :=
  ∀ pre post op outs Q, calls = pre ++ post →
    run (Process.step J) P (pre ++ [(i, op)]) = some (outs, Q) →
      ∃ seen q, run (aloneStep J) (P.at i) (pre.filterMap (callOn i) ++ [op]) = some (seen, q) ∧
        callsOn i (pre ++ [(i, op)]) outs = (pre.filterMap (callOn i) ++ [op]).zip seen ∧
        SameLists q.psn (Q.psn i)

omit [Tomcrypt κ] in
/-- Whether the flag is set shows in the next `psn_send_message`. -/
theorem connected_eq_of_seen {p q : Proc τ κ} {target message : CStr} {io : PublishIo}
    {r r' : Reply τ κ} (h : psnSendMessage p target message io = some r)
    (h' : psnSendMessage q target message io = some r') (herr : r.err = r'.err) :
    p.connected = q.connected := by
  rw [err_psnSendMessage h, err_psnSendMessage h'] at herr
  cases hp : p.connected with
  | false =>
    cases hq : q.connected with
    | false => rfl
    | true =>
      rw [hp, hq, if_pos rfl, if_neg (by simp)] at herr
      split at herr <;> cases herr
  | true =>
    cases hq : q.connected with
    | false =>
      rw [hp, hq, if_neg (by simp), if_pos rfl] at herr
      split at herr <;> cases herr
    | true => rfl

@[simp] theorem filterMap_callOn_self {κ : Type} (i : ι) (calls : List (ι × ApiOp κ))
    (op : ApiOp κ) :
    (calls ++ [(i, op)]).filterMap (callOn i) = calls.filterMap (callOn i) ++ [op] := by
  simp [callOn]

/-- A call on another instance that is followed by a `psn_send_message` must not turn the flag. -/
theorem connected_eq_of_undisturbed {J : Jansson} {i : ι} {P Q Q' : Process ι τ κ}
    {calls : List (ι × ApiOp κ)} {a : ι × ApiOp κ} {outs : List Output} {o : Output}
    (hun : Undisturbed J i P (calls ++ [a]))
    (hbefore : Along (Process.step J) (LeavesFlag i) P calls)
    (hrun : run (Process.step J) P calls = some (outs, Q)) (hne : a.1 ≠ i)
    (hstep : Q.step J a = some (o, Q')) : Q'.connected = Q.connected := by
  let send : ApiOp κ := .lists (.sendMessage [] [] .ok)
  obtain ⟨r, hr⟩ := exists_psnSendMessage (Q'.at i) [] [] .ok
  have hsend : Q'.step J (i, send) =
      some (r.result.1, ⟨r.proc.connected, Function.update Q'.psn i r.proc.psn⟩) := by
    rw [Process.step, Proc.apiStep, Proc.step, hr]
    rfl
  have hown : callOn i (i, send) = some send := by simp [callOn]
  have hafter := run_append_singleton.mpr ⟨outs, Q, o, hrun, hstep, rfl⟩
  -- the run with the other call, and the one without it
  obtain ⟨seen, q, halone, htrace, -⟩ := hun (calls ++ [a]) [] send _ _ (by simp)
    (run_append_singleton.mpr ⟨_, Q', _, hafter, hsend, rfl⟩)
  obtain ⟨cs, hcs, htraceBefore⟩ := alone_of_along hbefore hrun
  have hother : callOn i a = none := if_neg hne
  have hcalls : (calls ++ [a]).filterMap (callOn i) = calls.filterMap (callOn i) := by
    simp [hother]
  rw [hcalls] at halone htrace
  obtain ⟨cs', q', s, hcs', hs, rfl⟩ := run_append_singleton.mp halone
  obtain ⟨rfl, rfl⟩ := Prod.mk.inj (Option.some_inj.mp (hcs.symm.trans hcs'))
  obtain ⟨⟨o', q''⟩, ho', heq⟩ := Option.map_eq_some_iff.mp hs
  obtain ⟨r', hr', rfl, -⟩ := exists_reply ho'
  have hlength := length_of_run hrun
  have hlengthAlone := length_of_run hcs
  rw [callsOn, partTrace_append (by simp [hlength]), partTrace_append hlength.symm,
    List.zip_append hlengthAlone.symm, ← callsOn, htraceBefore,
    partTrace_cons_of_none hother, partTrace_nil, List.append_nil,
    partTrace_cons_of_some hown, partTrace_nil] at htrace
  have hlast : [(send, r.result.1.seen)] = [(send, s)] := List.append_cancel_left htrace
  have hseen : r.result.1.seen = r'.result.1.seen := by
    rw [(Prod.mk.inj (List.cons.inj hlast).1).2, ← (Prod.mk.inj heq).1]
  have herr : r.err = r'.err := Option.some_inj.mp (congrArg Prod.fst hseen)
  exact connected_eq_of_seen hr hr' herr

/-- An instance is undisturbed exactly if no call on another instance turns the flag. -/
theorem undisturbed_iff (J : Jansson) (i : ι) (P : Process ι τ κ)
    (calls : List (ι × ApiOp κ)) :
    Undisturbed J i P calls ↔ Along (Process.step J) (LeavesFlag i) P calls := by
  constructor
  · intro hun
    induction calls using List.reverseRecOn with
    | nil => trivial
    | append_singleton calls a ih =>
      have hbefore : Along (Process.step J) (LeavesFlag i) P calls :=
        ih fun pre post op outs Q hcalls => hun pre (post ++ [a]) op outs Q (by simp [hcalls])
      refine along_append_singleton.mpr ⟨hbefore, fun outs Q hrun => ?_⟩
      by_contra hturns
      obtain ⟨hne, o, Q', hstep, hturned⟩ := exists_turn J hturns
      exact hturned (connected_eq_of_undisturbed hun hbefore hrun hne hstep)
  · intro hleaves pre post op outs Q hcalls hrun
    have hown : Along (Process.step J) (LeavesFlag i) P (pre ++ [(i, op)]) :=
      along_append_singleton.mpr
        ⟨(hcalls ▸ hleaves).of_append, fun _ _ _ hne => absurd rfl hne⟩
    obtain ⟨seen, halone, htrace⟩ := alone_of_along hown hrun
    rw [filterMap_callOn_self] at halone htrace
    exact ⟨seen, Q.at i, halone, htrace, SameLists.refl _⟩

/-- **Instances do not interfere** as long as they leave the flag to each other. An instance behaves
in a run as if it were alone exactly if no call on another instance turns the flag. Of two such
runs with the same calls on the instance, in any interleavings with calls on others, these calls
return and publish the same and leave the same instance. -/
theorem instances_independent (J : Jansson) (i : ι) (P : Process ι τ κ) :
    (∀ calls, Undisturbed J i P calls ↔ Along (Process.step J) (LeavesFlag i) P calls) ∧
    ∀ calls calls' outs outs' Q Q', calls.filterMap (callOn i) = calls'.filterMap (callOn i) →
      run (Process.step J) P calls = some (outs, Q) →
      run (Process.step J) P calls' = some (outs', Q') →
      Along (Process.step J) (LeavesFlag i) P calls →
      Along (Process.step J) (LeavesFlag i) P calls' →
        callsOn i calls outs = callsOn i calls' outs' ∧ Q.psn i = Q'.psn i := by
  refine ⟨undisturbed_iff J i P, ?_⟩
  intro calls calls' outs outs' Q Q' hcalls hrun hrun' hleaves hleaves'
  obtain ⟨seen, halone, htrace⟩ := alone_of_along hleaves hrun
  obtain ⟨seen', halone', htrace'⟩ := alone_of_along hleaves' hrun'
  rw [hcalls, halone', Option.some_inj, Prod.mk.injEq] at halone
  obtain ⟨rfl, hsame⟩ := halone
  exact ⟨by rw [htrace, htrace', hcalls], congrArg Proc.psn hsame.symm⟩

/-- Two instances that were never connected, in one process. -/
def offlinePair : Process Bool (List (User DerKey)) DerKey where
  connected := false
  psn b := (coupleProc b).psn

/-- Alice connects and asks carol to become a friend. -/
def askCarol : List (Bool × ApiOp DerKey) :=
  [(false, .connect ⟨some 2, .success, .success⟩),
    (false, .lists (.makeFriendReq (lit "carol") (lit "hi") .ok))]

/-- In between, bob connects as well. -/
def askCarolTogether : List (Bool × ApiOp DerKey) :=
  [(false, .connect ⟨some 2, .success, .success⟩),
    (true, .connect ⟨some 3, .success, .success⟩),
    (false, .lists (.makeFriendReq (lit "carol") (lit "hi") .ok))]

/-- That bob connects while alice is connected does no harm. -/
theorem instances_independent_together :
    ∃ outs outs' Q Q',
      run (Process.step (asciiJansson .null)) offlinePair askCarol = some (outs, Q) ∧
      run (Process.step (asciiJansson .null)) offlinePair askCarolTogether = some (outs', Q') ∧
      callsOn false askCarol outs = callsOn false askCarolTogether outs' ∧
      Q.psn false = Q'.psn false := by
  obtain ⟨hiff, hsame⟩ := instances_independent (asciiJansson .null) false offlinePair
  have hown : ∀ {P : Process Bool (List (User DerKey)) DerKey} {op : ApiOp DerKey},
      LeavesFlag false P (false, op) := fun hne => absurd rfl hne
  have hask : Along (Process.step (asciiJansson .null)) (LeavesFlag false) offlinePair
      askCarol := ⟨hown, fun o Q _ => ⟨hown, fun o' Q' _ => trivial⟩⟩
  have htogether : Along (Process.step (asciiJansson .null)) (LeavesFlag false) offlinePair
      askCarolTogether := by
    refine ⟨hown, fun o Q hstep => ?_⟩
    cases hstep
    refine ⟨fun _ => ⟨fun _ _ _ => rfl, fun h => nomatch h⟩, fun o Q _ => ?_⟩
    exact ⟨hown, fun o' Q' _ => trivial⟩
  exact ⟨_, _, _, _, rfl, rfl, hsame askCarol askCarolTogether _ _ _ _ rfl rfl rfl hask htogether⟩

/-- In between, bob connects and disconnects. -/
def askCarolBetween : List (Bool × ApiOp DerKey) :=
  [(false, .connect ⟨some 2, .success, .success⟩),
    (true, .connect ⟨some 3, .success, .success⟩), (true, .disconnect),
    (false, .lists (.makeFriendReq (lit "carol") (lit "hi") .ok))]

/-- When bob disconnects, the request of alice is refused. -/
theorem not_instances_independent_disconnect :
    ∃ outs outs' Q Q',
      askCarol.filterMap (callOn false) = askCarolBetween.filterMap (callOn false) ∧
      run (Process.step (asciiJansson .null)) offlinePair askCarol = some (outs, Q) ∧
      run (Process.step (asciiJansson .null)) offlinePair askCarolBetween = some (outs', Q') ∧
      outs.map Output.err = [some .success, some .success] ∧
      outs'.map Output.err =
        [some .success, some .success, some .success, some .notConnected] ∧
      callsOn false askCarol outs ≠ callsOn false askCarolBetween outs' := by
  refine ⟨_, _, _, _, rfl, rfl, rfl, rfl, rfl, fun heq => ?_⟩
  have hcode := congrArg (List.map fun e => e.2.1) heq
  exact absurd hcode (by decide)

end Psn

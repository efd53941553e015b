import Mathlib.Data.List.Basic

/-!
# Runs of a partial machine with outputs

A partial machine reads actions one at a time. An action either has no successor or has exactly
one, and a step that is taken produces an output. `run` feeds a list of actions to the machine
and collects the outputs; it is `none` as soon as one action has no successor.

The rules below are the ones a verification of such a machine goes through: a run splits where
its list of actions splits, an invariant kept by every step is kept by every run, and a
condition checked before each step (`Along`) can be traded for a property of each state that is
visited (`Always`).

## Main definitions

* `PartialMachine.run`: the run of a list of actions
* `PartialMachine.Along`: every step of a run meets a condition on the state before it
* `PartialMachine.Always`: every state a run visits has a property

## Main results

* `run_append`, `run_append_eq_some`: splitting a run
* `invariant_of_run`, `invariant_of_along`: the invariant rules
* `exists_run`: a machine that can always step can run
* `always_iff_along`: an invariant whose preservation is *decided* by a condition
* `along_append_singleton`, `along_logged`: conditions along a longer run, and of a machine that
  remembers its past (`logged`)
* `run_insert_of_noop`: an action that changes nothing can be inserted into a run
-/

namespace PartialMachine

variable {σ α β : Type*}

/-- Run a list of actions from a state, collecting the outputs in order. -/
def run (step : σ → α → Option (β × σ)) : σ → List α → Option (List β × σ)
  | s, [] => some ([], s)
  | s, a :: as => (step s a).bind fun r => (run step r.2 as).map fun q => (r.1 :: q.1, q.2)

variable {step : σ → α → Option (β × σ)}

@[simp] theorem run_nil (s : σ) : run step s [] = some ([], s) := rfl

theorem run_cons (s : σ) (a : α) (as : List α) :
    run step s (a :: as) =
      (step s a).bind fun r => (run step r.2 as).map fun q => (r.1 :: q.1, q.2) := rfl

theorem run_cons_of_step {s t : σ} {a : α} {b : β} (h : step s a = some (b, t)) (as : List α) :
    run step s (a :: as) = (run step t as).map fun q => (b :: q.1, q.2) := by
  simp [run_cons, h]

theorem run_cons_eq_some {s t : σ} {a : α} {as : List α} {bs : List β} :
    run step s (a :: as) = some (bs, t) ↔
      ∃ b u cs, step s a = some (b, u) ∧ run step u as = some (cs, t) ∧ bs = b :: cs := by
  rw [run_cons]
  constructor
  · intro h
    obtain ⟨⟨b, u⟩, hstep, hrest⟩ := Option.bind_eq_some_iff.mp h
    obtain ⟨⟨cs, v⟩, hrun, heq⟩ := Option.map_eq_some_iff.mp hrest
    simp only [Prod.mk.injEq] at heq
    obtain ⟨rfl, rfl⟩ := heq
    exact ⟨b, u, cs, hstep, hrun, rfl⟩
  · rintro ⟨b, u, cs, hstep, hrun, rfl⟩
    simp [hstep, hrun]

/-- A run has one output for each action. -/
theorem length_of_run {as : List α} : ∀ {s t : σ} {bs : List β},
    run step s as = some (bs, t) → bs.length = as.length := by
  induction as with
  | nil =>
    intro s t bs h
    simp only [run_nil, Option.some.injEq, Prod.mk.injEq] at h
    simp [← h.1]
  | cons a as ih =>
    intro s t bs h
    obtain ⟨b, u, cs, -, hrest, rfl⟩ := run_cons_eq_some.mp h
    simp [ih hrest]

/-! ### Splitting a run -/

theorem run_append (s : σ) (as cs : List α) :
    run step s (as ++ cs) =
      (run step s as).bind fun r => (run step r.2 cs).map fun q => (r.1 ++ q.1, q.2) := by
  induction as generalizing s with
  | nil => simp
  | cons a as ih =>
    rw [List.cons_append, run_cons, run_cons]
    cases step s a with
    | none => rfl
    | some r =>
      simp only [Option.bind_some, ih, Option.bind_map, Option.map_bind]
      cases run step r.2 as with
      | none => rfl
      | some q => simp [Function.comp_def]

theorem run_append_eq_some {s t : σ} {as cs : List α} {ds : List β} :
    run step s (as ++ cs) = some (ds, t) ↔
      ∃ bs u es, run step s as = some (bs, u) ∧ run step u cs = some (es, t) ∧
        ds = bs ++ es := by
  rw [run_append]
  constructor
  · intro h
    obtain ⟨⟨bs, u⟩, hfst, hrest⟩ := Option.bind_eq_some_iff.mp h
    obtain ⟨⟨es, v⟩, hsnd, heq⟩ := Option.map_eq_some_iff.mp hrest
    simp only [Prod.mk.injEq] at heq
    obtain ⟨rfl, rfl⟩ := heq
    exact ⟨bs, u, es, hfst, hsnd, rfl⟩
  · rintro ⟨bs, u, es, hfst, hsnd, rfl⟩
    simp [hfst, hsnd]

theorem run_append_singleton {s t : σ} {as : List α} {a : α} {ds : List β} :
    run step s (as ++ [a]) = some (ds, t) ↔
      ∃ bs u b, run step s as = some (bs, u) ∧ step u a = some (b, t) ∧ ds = bs ++ [b] := by
  rw [run_append_eq_some]
  constructor
  · rintro ⟨bs, u, es, hfst, hsnd, rfl⟩
    obtain ⟨b, v, cs, hstep, hnil, rfl⟩ := run_cons_eq_some.mp hsnd
    simp only [run_nil, Option.some.injEq, Prod.mk.injEq] at hnil
    obtain ⟨rfl, rfl⟩ := hnil
    exact ⟨bs, u, b, hfst, hstep, rfl⟩
  · rintro ⟨bs, u, b, hfst, hstep, rfl⟩
    exact ⟨bs, u, [b], hfst, run_cons_eq_some.mpr ⟨b, t, [], hstep, rfl, rfl⟩, rfl⟩

/-! ### Conditions before each step, properties of each state -/

/-- Every step of the run meets the condition `C` on the state before it. -/
def Along (step : σ → α → Option (β × σ)) (C : σ → α → Prop) : σ → List α → Prop
  | _, [] => True
  | s, a :: as => C s a ∧ ∀ b t, step s a = some (b, t) → Along step C t as

/-- A condition on actions alone. -/
theorem along_of_forall {P : α → Prop} {as : List α} (hP : ∀ a ∈ as, P a) :
    ∀ s, Along step (fun _ a => P a) s as := by
  induction as with
  | nil => exact fun _ => trivial
  | cons a as ih =>
    exact fun _ => ⟨hP a List.mem_cons_self, fun _ t _ =>
      ih (fun c hc => hP c (List.mem_cons_of_mem a hc)) t⟩

/-- A condition on actions can be added to one on states and actions. -/
theorem Along.and_forall {C : σ → α → Prop} {P : α → Prop} {as : List α} :
    ∀ {s : σ}, Along step C s as → (∀ a ∈ as, P a) → Along step (fun s a => P a ∧ C s a) s as := by
  induction as with
  | nil => exact fun _ _ => trivial
  | cons a as ih =>
    intro s h hP
    exact ⟨⟨hP a List.mem_cons_self, h.1⟩, fun b t ht =>
      ih (h.2 b t ht) fun c hc => hP c (List.mem_cons_of_mem a hc)⟩

/-- A weaker condition is met as well. -/
theorem Along.mono {C D : σ → α → Prop} (hCD : ∀ s a, C s a → D s a) {as : List α} :
    ∀ {s : σ}, Along step C s as → Along step D s as := by
  induction as with
  | nil => exact fun _ => trivial
  | cons a as ih =>
    intro s h
    exact ⟨hCD s a h.1, fun b t ht => ih (h.2 b t ht)⟩

/-- An invariant holds before each step. -/
theorem Along.of_invariant {I : σ → Prop} (hstep : ∀ {s a b t}, I s → step s a = some (b, t) → I t)
    {as : List α} : ∀ {s : σ}, I s → Along step (fun s _ => I s) s as := by
  induction as with
  | nil => exact fun _ => trivial
  | cons a as ih => exact fun hs => ⟨hs, fun b t ht => ih (hstep hs ht)⟩

/-- Every state that the run visits, the first and the last included, has the property `I`. -/
def Always (step : σ → α → Option (β × σ)) (I : σ → Prop) : σ → List α → Prop
  | s, [] => I s
  | s, a :: as => I s ∧ ∀ b t, step s a = some (b, t) → Always step I t as

theorem always_cons_of_some {I : σ → Prop} {s t : σ} {a : α} {b : β} {as : List α}
    (hstep : step s a = some (b, t)) : Always step I s (a :: as) ↔ I s ∧ Always step I t as := by
  refine and_congr_right fun _ => ⟨fun h => h b t hstep, fun h b' t' ht => ?_⟩
  cases hstep.symm.trans ht
  exact h

theorem always_cons_of_none {I : σ → Prop} {s : σ} {a : α} {as : List α} (hstep : step s a = none) :
    Always step I s (a :: as) ↔ I s :=
  and_iff_left fun _ _ ht => by cases hstep.symm.trans ht

/-- What can be decided of a state can be decided of a run, by following it. -/
instance Always.decidable {I : σ → Prop} [DecidablePred I] :
    ∀ (s : σ) (as : List α), Decidable (Always step I s as)
  | s, [] => inferInstanceAs (Decidable (I s))
  | s, a :: as =>
    match h : step s a with
    | none => decidable_of_iff (I s) (always_cons_of_none h).symm
    | some (_, t) =>
      haveI : Decidable (Always step I t as) := Always.decidable t as
      decidable_of_iff (I s ∧ Always step I t as) (always_cons_of_some h).symm

theorem Always.head {I : σ → Prop} {s : σ} {as : List α} (h : Always step I s as) : I s := by
  cases as with
  | nil => exact h
  | cons a as => exact h.1

/-- A weaker property holds in every state as well. -/
theorem Always.mono {I K : σ → Prop} (hIK : ∀ s, I s → K s) {as : List α} :
    ∀ {s : σ}, Always step I s as → Always step K s as := by
  induction as with
  | nil => exact fun h => hIK _ h
  | cons a as ih => exact fun h => ⟨hIK _ h.1, fun b t ht => ih (h.2 b t ht)⟩

/-- What holds in every state holds in the last one. -/
theorem Always.of_run {I : σ → Prop} {as : List α} : ∀ {s t : σ} {bs : List β},
    Always step I s as → run step s as = some (bs, t) → I t := by
  induction as with
  | nil =>
    intro s t bs h hrun
    simp only [run_nil, Option.some.injEq, Prod.mk.injEq] at hrun
    exact hrun.2 ▸ h
  | cons a as ih =>
    intro s t bs h hrun
    obtain ⟨b, u, cs, hu, hrest, -⟩ := run_cons_eq_some.mp hrun
    exact ih (h.2 b u hu) hrest

/-- What holds in every state holds before each step. -/
theorem Always.along {I : σ → Prop} {as : List α} : ∀ {s : σ},
    Always step I s as → Along step (fun s _ => I s) s as := by
  induction as with
  | nil => exact fun _ => trivial
  | cons a as ih => exact fun h => ⟨h.1, fun b t ht => ih (h.2 b t ht)⟩

/-- The invariant rule for a condition that speaks about the state before the step. -/
theorem invariant_of_along {I : σ → Prop} {C : σ → α → Prop}
    (hstep : ∀ {s a b t}, I s → C s a → step s a = some (b, t) → I t) {as : List α} :
    ∀ {s t bs}, I s → Along step C s as → run step s as = some (bs, t) → I t := by
  induction as with
  | nil =>
    intro s t bs hs _ hrun
    simp only [run_nil, Option.some.injEq, Prod.mk.injEq] at hrun
    exact hrun.2 ▸ hs
  | cons a as ih =>
    intro s t bs hs hC hrun
    obtain ⟨b, u, cs, hu, hrest, -⟩ := run_cons_eq_some.mp hrun
    exact ih (hstep hs hC.1 hu) (hC.2 b u hu) hrest

/-- **The invariant rule.** What every allowed step keeps, every run of allowed actions keeps. -/
theorem invariant_of_run (step : σ → α → Option (β × σ)) {I : σ → Prop} {P : α → Prop}
    (hstep : ∀ {s a b t}, I s → P a → step s a = some (b, t) → I t) {as : List α} {s t : σ}
    {bs : List β} (hs : I s) (hP : ∀ a ∈ as, P a) (hrun : run step s as = some (bs, t)) : I t :=
  invariant_of_along hstep hs (along_of_forall hP s) hrun

/-- A machine that can take every allowed step where its invariant holds can run every list of
allowed actions. -/
theorem exists_run (step : σ → α → Option (β × σ)) {I : σ → Prop} {P : α → Prop}
    (hstep : ∀ {s a}, I s → P a → ∃ b t, step s a = some (b, t) ∧ I t) {as : List α} :
    ∀ {s}, I s → (∀ a ∈ as, P a) → ∃ bs t, run step s as = some (bs, t) ∧ I t := by
  induction as with
  | nil => exact fun {s} hs _ => ⟨[], s, rfl, hs⟩
  | cons a as ih =>
    intro s hs hP
    obtain ⟨b, u, hu, hIu⟩ := hstep hs (hP a List.mem_cons_self)
    obtain ⟨bs, t, hrun, hIt⟩ := ih hIu fun c hc => hP c (List.mem_cons_of_mem a hc)
    exact ⟨b :: bs, t, by simp [run_cons, hu, hrun], hIt⟩

/-- Along a run of allowed steps, what they keep holds always. -/
theorem Along.always {I : σ → Prop} {C : σ → α → Prop}
    (hstep : ∀ {s a b t}, I s → C s a → step s a = some (b, t) → I t) {as : List α} :
    ∀ {s}, I s → Along step C s as → Always step I s as := by
  induction as with
  | nil => exact fun hs _ => hs
  | cons a as ih =>
    intro s hs hC
    exact ⟨hs, fun b t ht => ih (hstep hs hC.1 ht) (hC.2 b t ht)⟩

theorem Along.append {C : σ → α → Prop} {as cs : List α} : ∀ {s t : σ} {bs : List β},
    Along step C s as → run step s as = some (bs, t) → Along step C t cs →
      Along step C s (as ++ cs) := by
  induction as with
  | nil =>
    intro s t bs _ hrun hcs
    simp only [run_nil, Option.some.injEq, Prod.mk.injEq] at hrun
    exact hrun.2 ▸ hcs
  | cons a as ih =>
    intro s t bs h hrun hcs
    obtain ⟨b, u, cs, hu, hrest, -⟩ := run_cons_eq_some.mp hrun
    refine ⟨h.1, fun b' u' hu' => ?_⟩
    obtain ⟨rfl, rfl⟩ := Prod.mk.inj (Option.some_inj.mp (hu.symm.trans hu'))
    exact ih (h.2 b u hu) hrest hcs

/-- A condition along a run is met along its first part. -/
theorem Along.of_append {C : σ → α → Prop} {as cs : List α} : ∀ {s : σ},
    Along step C s (as ++ cs) → Along step C s as := by
  induction as with
  | nil => exact fun _ => trivial
  | cons a as ih => exact fun h => ⟨h.1, fun b t ht => ih (h.2 b t ht)⟩

/-- **Ranking.** If no step raises the rank and every marked step lowers it, a run has no more
marked steps than the rank it starts with. -/
theorem countP_add_rank_le {I : σ → Prop} {C : σ → α → Prop} {r : σ → ℕ} {q : α → Bool}
    (hstep : ∀ {s a b t}, I s → C s a → step s a = some (b, t) →
      I t ∧ r t + (if q a then 1 else 0) ≤ r s) {as : List α} :
    ∀ {s t bs}, I s → Along step C s as → run step s as = some (bs, t) →
      I t ∧ r t + as.countP q ≤ r s := by
  induction as with
  | nil =>
    intro s t bs hs _ hrun
    simp only [run_nil, Option.some.injEq, Prod.mk.injEq] at hrun
    obtain ⟨-, rfl⟩ := hrun
    exact ⟨hs, Nat.le_refl _⟩
  | cons a as ih =>
    intro s t bs hs hC hrun
    obtain ⟨b, u, cs, hu, hrest, -⟩ := run_cons_eq_some.mp hrun
    obtain ⟨hIu, hru⟩ := hstep hs hC.1 hu
    obtain ⟨hIt, hrt⟩ := ih hIu (hC.2 b u hu) hrest
    refine ⟨hIt, ?_⟩
    rw [List.countP_cons]
    omega

/-- **Trading a property for a condition.** Let `J` be an invariant. If, where `J` and `I` hold,
the condition decides whether the next state has `I`, then along a run `I` holds always exactly
when every step meets the condition. -/
theorem always_iff_along {I J : σ → Prop} {C : σ → α → Prop}
    (hJ : ∀ {s a b t}, J s → step s a = some (b, t) → J t)
    (hstep : ∀ {s a}, J s → I s → (C s a ↔ ∀ b t, step s a = some (b, t) → I t))
    {as : List α} : ∀ {s}, J s → I s → (Always step I s as ↔ Along step C s as) := by
  induction as with
  | nil => exact fun {s} _ hs => iff_of_true hs trivial
  | cons a as ih =>
    intro s hJs hs
    constructor
    · rintro ⟨-, hnext⟩
      exact ⟨(hstep hJs hs).mpr fun b t ht => (hnext b t ht).head,
        fun b t ht => (ih (hJ hJs ht) (hnext b t ht).head).mp (hnext b t ht)⟩
    · rintro ⟨hC, hnext⟩
      exact ⟨hs, fun b t ht =>
        (ih (hJ hJs ht) ((hstep hJs hs).mp hC b t ht)).mpr (hnext b t ht)⟩

/-- A condition holds along a run and its last step exactly if it holds along the run and before the
step. -/
theorem along_append_singleton {C : σ → α → Prop} {as : List α} {a : α} : ∀ {s : σ},
    Along step C s (as ++ [a]) ↔
      Along step C s as ∧ ∀ bs t, run step s as = some (bs, t) → C t a := by
  induction as with
  | nil =>
    intro s
    constructor
    · rintro ⟨hC, -⟩
      refine ⟨trivial, fun bs t hrun => ?_⟩
      simp only [run_nil, Option.some.injEq, Prod.mk.injEq] at hrun
      exact hrun.2 ▸ hC
    · rintro ⟨-, hC⟩
      exact ⟨hC [] s rfl, fun b t _ => trivial⟩
  | cons c as ih =>
    intro s
    constructor
    · rintro ⟨hC, hnext⟩
      refine ⟨⟨hC, fun b u hu => (ih.mp (hnext b u hu)).1⟩, fun bs t hrun => ?_⟩
      obtain ⟨b, u, bs, hu, hrest, rfl⟩ := run_cons_eq_some.mp hrun
      exact (ih.mp (hnext b u hu)).2 bs t hrest
    · rintro ⟨⟨hC, hnext⟩, hlast⟩
      refine ⟨hC, fun b u hu => ih.mpr ⟨hnext b u hu, fun bs t hrest => ?_⟩⟩
      exact hlast (b :: bs) t (run_cons_eq_some.mpr ⟨b, u, bs, hu, hrest, rfl⟩)

/-! ### Machines that remember -/

/-- The machine that remembers its actions and their outputs. -/
def logged (step : σ → α → Option (β × σ)) (s : List (α × β) × σ) (a : α) :
    Option (β × (List (α × β) × σ)) :=
  (step s.2 a).map fun r => (r.1, (s.1 ++ [(a, r.1)], r.2))

theorem logged_eq_some {s t : List (α × β) × σ} {a : α} {b : β} :
    logged step s a = some (b, t) ↔ step s.2 a = some (b, t.2) ∧ t.1 = s.1 ++ [(a, b)] := by
  rw [logged, Option.map_eq_some_iff]
  constructor
  · rintro ⟨r, hr, heq⟩
    cases heq
    exact ⟨hr, rfl⟩
  · rintro ⟨hstep, htrace⟩
    exact ⟨(b, t.2), hstep, by rw [← htrace]⟩

/-- A condition that does not ask for the past does not need it. -/
theorem along_logged {C : σ → α → Prop} {as : List α} : ∀ {s : List (α × β) × σ},
    Along (logged step) (fun s a => C s.2 a) s as ↔ Along step C s.2 as := by
  induction as with
  | nil => exact fun {_} => Iff.rfl
  | cons a as ih =>
    intro s
    refine and_congr_right fun _ => ⟨fun h b t ht => ?_, fun h b t ht => ?_⟩
    · exact ih.mp (h b (s.1 ++ [(a, b)], t) (logged_eq_some.mpr ⟨ht, rfl⟩))
    · exact ih.mpr (h b t.2 (logged_eq_some.mp ht).1)

/-! ### Actions that change nothing -/

/-- An action that leaves the state alone wherever `I` holds can be inserted at any point of a
run that reaches `I`: only its own output is added. -/
theorem run_insert_of_noop {I : σ → Prop} {d : α} {b₀ : β}
    (hnoop : ∀ {s}, I s → step s d = some (b₀, s)) {s t : σ} {as : List α} {bs : List β}
    (hrun : run step s as = some (bs, t)) (hI : I t) (cs : List α) :
    run step s (as ++ d :: cs) =
      (run step t cs).map fun q => (bs ++ b₀ :: q.1, q.2) := by
  rw [run_append, hrun, Option.bind_some, run_cons_of_step (hnoop hI), Option.map_map]
  rfl

end PartialMachine

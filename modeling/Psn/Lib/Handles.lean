import Mathlib.Logic.Function.Basic

/-!
# Objects behind handles

A library that hands out handles keeps an object behind each handle that is in use. A handle is
created once, is used as long as its object lives, and is destroyed. Anything else is an error of
the caller: to use or to destroy a handle without an object, or to create one that is in use.
The operations are partial accordingly.

## Main results

* `create_eq_some`, `modify_eq_some`, `destroy_eq_some`: when the operations are defined and what
  they do
-/

/-- The objects of type `C` behind the handles of type `H`. -/
abbrev Handles (H C : Type*) := H → Option C

namespace Handles

variable {H C : Type*}

/-- No handle is in use. -/
def empty : Handles H C := fun _ => none

@[simp] theorem empty_apply (h : H) : (empty : Handles H C) h = none := rfl

/-- Apply a function to the object behind a handle that is in use. -/
def modify [DecidableEq H] (s : Handles H C) (h : H) (f : C → C) : Option (Handles H C) :=
  (s h).map fun c => Function.update s h (some (f c))

/-- Put an object behind a handle that is not in use. -/
def create [DecidableEq H] (s : Handles H C) (h : H) (c : C) : Option (Handles H C) :=
  if (s h).isSome then none else some (Function.update s h (some c))

/-- Remove the object behind a handle that is in use. -/
def destroy [DecidableEq H] (s : Handles H C) (h : H) : Option (Handles H C) :=
  (s h).map fun _ => Function.update s h none

variable [DecidableEq H] {s t : Handles H C} {h : H}

theorem create_eq_some {c : C} :
    s.create h c = some t ↔ s h = none ∧ t = Function.update s h (some c) := by
  cases hs : s h with
  | none => simp [create, hs, eq_comm]
  | some c' => simp [create, hs]

theorem modify_eq_some {f : C → C} :
    s.modify h f = some t ↔ ∃ c, s h = some c ∧ t = Function.update s h (some (f c)) := by
  simp [modify, Option.map_eq_some_iff, eq_comm]

theorem destroy_eq_some :
    s.destroy h = some t ↔ (s h).isSome ∧ t = Function.update s h none := by
  cases hs : s h with
  | none => simp [destroy, hs]
  | some c => simp [destroy, hs, eq_comm]

/-- To use an object without changing it changes nothing. -/
theorem modify_id_eq_some : s.modify h id = some t ↔ (s h).isSome ∧ t = s := by
  rw [modify_eq_some]
  constructor
  · rintro ⟨c, hc, rfl⟩
    refine ⟨by simp [hc], ?_⟩
    rw [id, ← hc, Function.update_eq_self]
  · rintro ⟨hsome, rfl⟩
    obtain ⟨c, hc⟩ := Option.isSome_iff_exists.mp hsome
    refine ⟨c, hc, ?_⟩
    rw [id, ← hc, Function.update_eq_self]

@[simp] theorem modify_update (c : C) (f : C → C) :
    modify (Function.update s h (some c)) h f = some (Function.update s h (some (f c))) := by
  simp [modify]

end Handles

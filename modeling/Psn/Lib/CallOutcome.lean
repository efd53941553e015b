import Mathlib.Tactic.Basic

/-!
# What a call comes to

A call returns a value, reports an error, or does something that the language leaves undefined.
Calls in sequence stop at the first that returns no value. A sequence is free of undefined
behaviour when each call is, given what the calls before it returned.

## Main definitions

* `CallOutcome`: what a call comes to, as a monad
* `CallOutcome.Defined`: the call does nothing undefined
* `CallOutcome.ofOption`: a partial operation, undefined where it has no result

## Main results

* `defined_bind`: a sequence of calls
* `bind_eq_ok`: what has been returned when a sequence returns
-/

/-- What a call comes to. -/
inductive CallOutcome (ε α : Type)
  | undefined
  | error (e : ε)
  | ok (a : α)
  deriving DecidableEq, Repr

namespace CallOutcome

variable {ε α β : Type}

/-- Go on with the value that was returned. -/
def andThen : CallOutcome ε α → (α → CallOutcome ε β) → CallOutcome ε β
  | undefined, _ => undefined
  | error e, _ => error e
  | ok a, f => f a

instance : Monad (CallOutcome ε) where
  pure := ok
  bind := andThen

/-- A partial operation. -/
def ofOption : Option α → CallOutcome ε α
  | none => undefined
  | some a => ok a

/-- The call does nothing undefined. -/
def Defined : CallOutcome ε α → Prop
  | undefined => False
  | error _ => True
  | ok _ => True

@[simp] theorem pure_eq (a : α) : (pure a : CallOutcome ε α) = ok a := rfl

@[simp] theorem undefined_bind (f : α → CallOutcome ε β) : (undefined >>= f) = undefined := rfl

@[simp] theorem error_bind (e : ε) (f : α → CallOutcome ε β) : (error e >>= f) = error e := rfl

@[simp] theorem ok_bind (a : α) (f : α → CallOutcome ε β) : (ok a >>= f) = f a := rfl

@[simp] theorem ofOption_some (a : α) : (ofOption (some a) : CallOutcome ε α) = ok a := rfl

@[simp] theorem ofOption_none : (ofOption none : CallOutcome ε α) = undefined := rfl

@[simp] theorem not_defined_undefined : ¬(undefined : CallOutcome ε α).Defined := id

@[simp] theorem defined_error (e : ε) : (error e : CallOutcome ε α).Defined := trivial

@[simp] theorem defined_ok (a : α) : (ok a : CallOutcome ε α).Defined := trivial

/-- **A sequence of calls** does nothing undefined. -/
theorem defined_bind {x : CallOutcome ε α} {f : α → CallOutcome ε β} (hx : x.Defined)
    (hf : ∀ a, x = ok a → (f a).Defined) : (x >>= f).Defined := by
  cases x with
  | undefined => exact hx.elim
  | error e => trivial
  | ok a => exact hf a rfl

theorem bind_eq_ok {x : CallOutcome ε α} {f : α → CallOutcome ε β} {b : β} :
    (x >>= f) = ok b ↔ ∃ a, x = ok a ∧ f a = ok b := by
  cases x with
  | undefined => simp
  | error e => simp
  | ok a => simp

end CallOutcome

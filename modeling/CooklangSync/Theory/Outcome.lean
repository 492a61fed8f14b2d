import Mathlib.Init

/-!
# Outcome — results of code that may fail or panic

An operation of the modelled program returns a value, returns an error that its caller handles,
or panics.  `Outcome` keeps the three apart, so that "never panics" is a statement about a value
and not an assumption of the embedding.
-/

namespace CooklangSync.Theory

inductive Outcome (ε α : Type) where
  | ok (value : α)
  | err (error : ε)
  | panic
  deriving DecidableEq, Repr

namespace Outcome

variable {ε α β : Type}

/-- Sequencing: an error or a panic ends the computation. -/
protected def bind : Outcome ε α → (α → Outcome ε β) → Outcome ε β
  | ok a, f => f a
  | err e, _ => err e
  | panic, _ => panic

instance : Monad (Outcome ε) where
  pure := ok
  bind := Outcome.bind

/-- An indexing operation that panics out of bounds. -/
def ofBounds : Option α → Outcome ε α
  | some a => ok a
  | none => panic

/-- An absent value is reported as the error `e`. -/
def okOr (e : ε) : Option α → Outcome ε α
  | some a => ok a
  | none => err e

@[simp] theorem ok_bind (a : α) (f : α → Outcome ε β) : (ok a >>= f) = f a := rfl
@[simp] theorem err_bind (e : ε) (f : α → Outcome ε β) : (err e >>= f) = err e := rfl
@[simp] theorem panic_bind (f : α → Outcome ε β) : (panic >>= f) = panic := rfl
@[simp] theorem pure_eq_ok (a : α) : (pure a : Outcome ε α) = ok a := rfl
@[simp] theorem ofBounds_some (a : α) : (ofBounds (some a) : Outcome ε α) = ok a := rfl
@[simp] theorem ofBounds_none : (ofBounds none : Outcome ε α) = panic := rfl
@[simp] theorem okOr_some (e : ε) (a : α) : okOr e (some a) = ok a := rfl
@[simp] theorem okOr_none (e : ε) : (okOr e none : Outcome ε α) = err e := rfl

theorem bind_eq_ok {x : Outcome ε α} {f : α → Outcome ε β} {b : β} (h : (x >>= f) = ok b) :
    ∃ a, x = ok a ∧ f a = ok b := by
  cases x with
  | ok a => exact ⟨a, rfl, h⟩
  | err e => cases h
  | panic => cases h

end Outcome

end CooklangSync.Theory

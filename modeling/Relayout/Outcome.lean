import Relayout.Failure.Basic

/-!
# Outcomes

A computation that ended: done with a value, or failed. Either may say how long
it took. Mapping and chaining act on values and pass failures on unchanged.
-/

namespace Relayout

structure Remarks where
  /-- How long it took, in milliseconds. -/
  duration : Option Num
  deriving DecidableEq, Repr

/-- How a computation ended. -/
inductive Outcome (α : Type) where
  | done (value : α) (remarks : Remarks)
  | fail (failure : Failure) (remarks : Remarks)

namespace Outcome

def isDone {α : Type} : Outcome α → Bool
  | done .. => true
  | fail .. => false

def isFail {α : Type} : Outcome α → Bool
  | done .. => false
  | fail .. => true

def elim {α β : Type} (onDone : α → β) (onFail : Failure → β) : Outcome α → β
  | done value _ => onDone value
  | fail failure _ => onFail failure

/-- Apply a function that may itself stop to the value, and keep the remarks. -/
def map {α β : Type} (f : α → Except Fault β) : Outcome α → Except Fault (Outcome β)
  | done value remarks => do return done (← f value) remarks
  | fail failure remarks => return fail failure remarks

/-- Go on with the value; the next outcome brings its own remarks. -/
def bind {α β : Type} (f : α → Outcome β) : Outcome α → Outcome β
  | done value _ => f value
  | fail failure remarks => fail failure remarks

def unwrap {α : Type} : Outcome α → Except Fault α
  | done value _ => .ok value
  | fail failure _ => .error (.failure failure)

def unwrapOr {α : Type} (default : α) : Outcome α → α
  | done value _ => value
  | fail .. => default

/-- Run to an outcome. A defect is a mistake of the caller and goes on upward. -/
def attempt {α : Type} : Except Fault α → Except Fault (Outcome α)
  | .ok value => .ok (done value ⟨none⟩)
  | .error (.failure failure) => .ok (fail failure ⟨none⟩)
  | .error (.defect d) => .error (.defect d)

end Outcome

end Relayout

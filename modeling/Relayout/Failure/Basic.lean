import Relayout.Failure.Diagnostic

/-!
# Failures

A failure carries its reason, a message, diagnostics and possibly the failure
that caused it. Wrapping puts a new message and more context around a failure
and keeps the rest, so a chain of wraps has the reason and the diagnostics of
its innermost link.
-/

namespace Relayout

inductive Failure where
  | mk (reason : Reason) (message : Text) (context : Option Json.Members)
      (diagnostics : List Diagnostic) (recoverable : Bool) (cause : Option Failure)

namespace Failure

def reason : Failure → Reason
  | mk reason .. => reason

/-- The message, with the locations around the failing part in front. -/
def message : Failure → Text
  | mk _ message .. => message

/-- Named facts about the failure. -/
def context : Failure → Option Json.Members
  | mk _ _ context .. => context

/-- The diagnostics of this link. -/
def diagnostics : Failure → List Diagnostic
  | mk _ _ _ diagnostics .. => diagnostics

def recoverable : Failure → Bool
  | mk _ _ _ _ recoverable _ => recoverable

/-- The failure that this one wraps or was raised for. -/
def cause : Failure → Option Failure
  | mk _ _ _ _ _ cause => cause

/-- Members laid over others: a name that is there keeps its place and takes the new value. -/
def overlay (under upper : Json.Members) : Json.Members :=
  upper.foldl (fun done (name, value) => Json.set done name value) under

/-- A failure around `inner` with a new message and more context. -/
def wrap (inner : Failure) (message : Text) (context : Json.Members) : Failure :=
  mk inner.reason message (some (overlay (inner.context.getD []) context)) inner.diagnostics
    inner.recoverable (some inner)

def hasReason (f : Failure) (reason : Reason) : Bool :=
  f.reason = reason

/-- The innermost failure of the chain. -/
def rootCause : Failure → Failure
  | mk _ _ _ _ _ (some cause) => cause.rootCause
  | f@(mk _ _ _ _ _ none) => f

/-- The entries not seen before, each once, in order; and all references seen by then. -/
def unseen (seen : List Nat) : List Diagnostic → List Diagnostic × List Nat
  | [] => ([], seen)
  | d :: rest =>
    if d.ref ∈ seen then unseen seen rest
    else
      let (found, seen) := unseen (d.ref :: seen) rest
      (d :: found, seen)

/-- The diagnostics of a chain that have not been seen before. -/
def diagnosticsAfter (seen : List Nat) : Failure → List Diagnostic
  | mk _ _ _ diagnostics _ cause =>
    let (found, seen) := unseen seen diagnostics
    match cause with
    | some inner => found ++ diagnosticsAfter seen inner
    | none => found

/-- Every diagnostic of the chain once, from the outermost failure inward. -/
def allDiagnostics (f : Failure) : List Diagnostic :=
  diagnosticsAfter [] f

end Failure

/-- A mistake of the caller that is no conversion failure. -/
inductive Defect where
  /-- An access does not lie within its bytes. -/
  | outside
  /-- A number without a whole value was to be stored as a 64-bit whole number. -/
  | notWhole
  /-- A value is not of the kind that its use demands. -/
  | wrongKind
  deriving DecidableEq, Repr

/-- What can stop a computation. -/
inductive Fault where
  | failure (failure : Failure)
  | defect (defect : Defect)

end Relayout

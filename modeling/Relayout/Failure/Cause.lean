import Relayout.Failure.Basic

/-!
# What goes wrong, as data

One constructor per reason, with the facts that its message and its diagnostic
quote. A cause raised at a node of a destination carries the node's path.
-/

namespace Relayout

/-- One of the two memories of a conversion. -/
inductive Side where
  | source
  | destination
  deriving DecidableEq, Repr

/-- What went wrong, and where. -/
inductive Cause where
  | kindMismatch (expected actual : Text) (path : List Text)
  | noConversionPath (source dest : Text) (path : List Text)
  | invalidLength (len : Text) (path : List Text)
  | lengthMismatch (expected actual : Num) (path : List Text)
  | missingField (field : Text) (path : List Text)
  | invalidLayout (field : Text) (size : Num) (path : List Text)
  | unknownTag (tag : Num)
  | outOfBounds (side : Side) (start finish length : Num)
  | invalidDescriptor (detail : Text)
  | invalidConfig (detail : Text)
  deriving DecidableEq, Repr

namespace Side

def name : Side → Text
  | .source => "source"
  | .destination => "destination"

end Side

namespace Cause

def reason : Cause → Reason
  | kindMismatch .. => .kindMismatch
  | noConversionPath .. => .noConversionPath
  | invalidLength .. => .invalidLength
  | lengthMismatch .. => .lengthMismatch
  | missingField .. => .missingField
  | invalidLayout .. => .invalidLayout
  | unknownTag .. => .unknownTag
  | outOfBounds .. => .outOfBounds
  | invalidDescriptor .. => .invalidDescriptor
  | invalidConfig .. => .invalidConfig

def message : Cause → Text
  | kindMismatch expected actual _ =>
    "Can't convert " ++ actual ++ " to " ++ expected ++ " due to kind mismatch"
  | noConversionPath source dest _ => "Can't convert from " ++ source ++ " to " ++ dest
  | invalidLength len _ => "Invalid type description due to non-size array length: " ++ len
  | lengthMismatch expected actual _ =>
    "Can't convert array of " ++ actual.toText ++ " elements to array of " ++ expected.toText
      ++ " due to length mismatch"
  | missingField field _ => "The field '" ++ field ++ "' is not defined"
  | invalidLayout field size _ =>
    "The destination slot '" ++ field ++ "' lies outside its " ++ size.toText ++ "-byte parent"
  | unknownTag tag => "No constructor is defined for source tag " ++ tag.toText
  | outOfBounds side start finish length =>
    "The " ++ side.name ++ " range [" ++ start.toText ++ ", " ++ finish.toText
      ++ ") exceeds its " ++ length.toText ++ "-byte buffer"
  | invalidDescriptor detail => "Invalid type descriptor: " ++ detail
  | invalidConfig detail => "Invalid configuration: " ++ detail

/-- The named facts of a cause, in the order in which they fill its template. -/
def params : Cause → Json.Members
  | kindMismatch expected actual _ => [("expected", .str expected), ("actual", .str actual)]
  | noConversionPath source dest _ => [("source", .str source), ("dest", .str dest)]
  | invalidLength len _ => [("len", .str len)]
  | lengthMismatch expected actual _ => [("expected", .num expected), ("actual", .num actual)]
  | missingField field _ => [("field", .str field)]
  | invalidLayout field size _ => [("field", .str field), ("size", .num size)]
  | unknownTag tag => [("tag", .num tag)]
  | outOfBounds side start finish length =>
    [("side", .str side.name), ("start", .num start), ("end", .num finish), ("length", .num length)]
  | invalidDescriptor detail => [("detail", .str detail)]
  | invalidConfig detail => [("detail", .str detail)]

/-- The path of the destination node at which a build cause was raised. -/
def path? : Cause → Option (List Text)
  | kindMismatch _ _ path => some path
  | noConversionPath _ _ path => some path
  | invalidLength _ path => some path
  | lengthMismatch _ _ path => some path
  | missingField _ path => some path
  | invalidLayout _ _ path => some path
  | _ => none

/-- The context of a failure repeats its facts, except where the input itself is at fault. -/
def context? (c : Cause) : Option Json.Members :=
  match c.reason.stage with
  | .input => none
  | _ => some c.params

def diagnostic (ref : Nat) (c : Cause) : Diagnostic :=
  .ofReason ref c.reason (some c.params) c.path?

/-- The failure of a cause, with one diagnostic. -/
def failure (c : Cause) (ref : Nat := 0) : Failure :=
  .mk c.reason c.message c.context? [c.diagnostic ref] false none

end Cause

instance : Coe Cause Failure := ⟨Cause.failure⟩

end Relayout

import Relayout.Json.Basic
import Relayout.Text.Substitution

/-!
# Diagnostics

Every way of failing has a reason, and every reason a diagnostic code with a
message template. A diagnostic is a template whose places have been filled, one
parameter after the other: a parameter fills the first place that bears its
name at that moment, be it in the template or in a text that an earlier
parameter brought in.
-/

namespace Relayout

/-- Why a build, an application or an input failed. -/
inductive Reason where
  | kindMismatch
  | noConversionPath
  | invalidLength
  | lengthMismatch
  | missingField
  | invalidLayout
  | unknownTag
  | outOfBounds
  | invalidDescriptor
  | invalidConfig
  deriving DecidableEq, Repr

/-- The stage at which a failure arises. -/
inductive Stage where
  | build
  | apply
  | input
  deriving DecidableEq, Repr

/-- How grave a diagnostic is. -/
inductive Severity where
  | error
  | warning
  | info
  deriving DecidableEq, Repr

namespace Severity

def name : Severity → Text
  | .error => "error"
  | .warning => "warning"
  | .info => "info"

def ofName? (t : Text) : Option Severity :=
  [error, warning, info].find? (·.name = t)

end Severity

namespace Stage

def name : Stage → Text
  | .build => "Build"
  | .apply => "Apply"
  | .input => "Input"

end Stage

namespace Reason

/-- All reasons, in the order of their codes. -/
def all : List Reason :=
  [kindMismatch, noConversionPath, invalidLength, lengthMismatch, missingField, invalidLayout,
   unknownTag, outOfBounds, invalidDescriptor, invalidConfig]

def name : Reason → Text
  | kindMismatch => "kind-mismatch"
  | noConversionPath => "no-conversion-path"
  | invalidLength => "invalid-length"
  | lengthMismatch => "length-mismatch"
  | missingField => "missing-field"
  | invalidLayout => "invalid-layout"
  | unknownTag => "unknown-tag"
  | outOfBounds => "out-of-bounds"
  | invalidDescriptor => "invalid-descriptor"
  | invalidConfig => "invalid-config"

def ofName? (t : Text) : Option Reason :=
  all.find? (·.name = t)

def code : Reason → Text
  | kindMismatch => "C0100"
  | noConversionPath => "C0101"
  | invalidLength => "C0102"
  | lengthMismatch => "C0103"
  | missingField => "C0104"
  | invalidLayout => "C0105"
  | unknownTag => "C0200"
  | outOfBounds => "C0201"
  | invalidDescriptor => "C0300"
  | invalidConfig => "C0301"

def ofCode? (t : Text) : Option Reason :=
  all.find? (·.code = t)

def stage : Reason → Stage
  | unknownTag => .apply
  | outOfBounds => .apply
  | invalidDescriptor => .input
  | invalidConfig => .input
  | _ => .build

def severity (_ : Reason) : Severity :=
  .error

/-- The message template of a reason. A place is a parameter's name in braces. -/
def template : Reason → Text
  | kindMismatch => "Kind mismatch: expected \x7bexpected\x7d, got \x7bactual\x7d"
  | noConversionPath => "No conversion from \x7bsource\x7d to \x7bdest\x7d"
  | invalidLength => "Array length is not a size: \x7blen\x7d"
  | lengthMismatch => "Array length mismatch: expected \x7bexpected\x7d, got \x7bactual\x7d"
  | missingField => "Field not defined in source: \x7bfield\x7d"
  | invalidLayout => "Destination slot \x7bfield\x7d overruns its parent of \x7bsize\x7d bytes"
  | unknownTag => "Unknown source tag: \x7btag\x7d"
  | outOfBounds =>
    "\x7bside\x7d range [\x7bstart\x7d, \x7bend\x7d) exceeds buffer of \x7blength\x7d bytes"
  | invalidDescriptor => "Invalid type descriptor: \x7bdetail\x7d"
  | invalidConfig => "Invalid configuration: \x7bdetail\x7d"

end Reason

/-- A diagnostic. `ref` tells entries apart that say the same: two occurrences
are one entry exactly when their references agree. -/
structure Diagnostic where
  ref : Nat
  code : Text
  severity : Severity
  message : Text
  path : Option (List Text)
  data : Option Json.Members

namespace Diagnostic

/-- The place that a parameter fills. -/
def place (key : Text) : Text :=
  Text.unit '\x7b' :: (key ++ [Text.unit '\x7d'])

/-- Fill the places of a template, one parameter after the other. -/
def fill (template : Text) (params : Json.Members) : Text :=
  params.foldl (fun message (key, value) => Text.replaceFirst (place key) value.display message)
    template

/-- The diagnostic of a reason. Without parameters the template stays unfilled. -/
def ofReason (ref : Nat) (reason : Reason) (params : Option Json.Members)
    (path : Option (List Text)) : Diagnostic where
  ref
  code := reason.code
  severity := reason.severity
  message := fill reason.template (params.getD [])
  path
  data := params

end Diagnostic

end Relayout

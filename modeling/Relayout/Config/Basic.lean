import Relayout.Failure.Cause
import Relayout.Memory

/-!
# Configuration

Three settings govern a converter: the byte order of both memories, whether
ranges are checked, and what happens to a source tag that has no constructor.
Settings arrive as JSON values from several layers; a later layer overrides an
earlier one setting by setting, and the result is checked once.
-/

namespace Relayout

/-- What a converter does with a source tag that it has no constructor for. -/
inductive UnknownTagPolicy where
  /-- The application fails. -/
  | fail
  /-- The destination stays as it is, and the tag is reported. -/
  | ignore
  deriving DecidableEq, Repr

/-- The settings of a converter, with a value of type `α` for each. -/
structure Settings (α : Type) where
  littleEndian : α
  boundsCheck : α
  unknownTag : α
  deriving DecidableEq, Repr

/-- Settings of which some may be missing. -/
abbrev Layer := Settings (Option Json)

/-- A checked configuration. -/
structure Config where
  littleEndian : Bool
  boundsCheck : Bool
  unknownTag : UnknownTagPolicy
  deriving DecidableEq, Repr

namespace UnknownTagPolicy

def all : List UnknownTagPolicy :=
  [fail, ignore]

def name : UnknownTagPolicy → Text
  | fail => "fail"
  | ignore => "ignore"

def ofName? (t : Text) : Option UnknownTagPolicy :=
  all.find? (·.name = t)

/-- The names of all policies in running text. -/
def names : Text :=
  Text.join ", " (all.map name)

end UnknownTagPolicy

namespace Config

def default : Config :=
  ⟨true, true, .fail⟩

/-- The byte order of both memories. -/
def byteOrder (c : Config) : ByteOrder :=
  if c.littleEndian then .little else .big

def toSettings (c : Config) : Settings Json :=
  ⟨.bool c.littleEndian, .bool c.boundsCheck, .str c.unknownTag.name⟩

/-- The configuration as a layer that states every setting. -/
def toLayer (c : Config) : Layer :=
  ⟨some (.bool c.littleEndian), some (.bool c.boundsCheck), some (.str c.unknownTag.name)⟩

end Config

namespace Settings

def override (under : Settings Json) (layer : Layer) : Settings Json where
  littleEndian := (Json.stated layer.littleEndian).getD under.littleEndian
  boundsCheck := (Json.stated layer.boundsCheck).getD under.boundsCheck
  unknownTag := (Json.stated layer.unknownTag).getD under.unknownTag

/-- The defaults with layers laid over them, later ones over earlier ones. -/
def merge (layers : List Layer) : Settings Json :=
  layers.foldl override Config.default.toSettings

def ofMembers (members : Json.Members) : Layer :=
  ⟨Json.lookup? "littleEndian" members, Json.lookup? "boundsCheck" members,
    Json.lookup? "unknownTag" members⟩

/-! ## Checking -/

def isBool : Option Json → Bool
  | some (.bool _) => true
  | _ => false

def policy? : Option Json → Option UnknownTagPolicy
  | some (.str t) => UnknownTagPolicy.ofName? t
  | _ => none

/-- One sentence, if a condition fails. -/
def complaint (ok : Bool) (sentence : Text) : List Text :=
  if ok then [] else [sentence]

/-- What is wrong with settings, one sentence each. -/
def errors (s : Layer) : List Text :=
  complaint (isBool s.littleEndian) "littleEndian must be a boolean"
    ++ complaint (isBool s.boundsCheck) "boundsCheck must be a boolean"
    ++ complaint (policy? s.unknownTag).isSome ("unknownTag must be one of " ++ UnknownTagPolicy.names)

/-- Settings as they stand, whatever they are: a truth value is judged as a
condition, and every policy but `ignore` fails. -/
def coerce (s : Settings Json) : Config where
  littleEndian := s.littleEndian.holds
  boundsCheck := s.boundsCheck.holds
  unknownTag := if policy? (some s.unknownTag) = some .ignore then .ignore else .fail

def toLayer (s : Settings Json) : Layer :=
  ⟨some s.littleEndian, some s.boundsCheck, some s.unknownTag⟩

/-- The configuration of one layer over the defaults, if it is valid. -/
def resolve (layer : Layer) : Except Cause Config :=
  let s := merge [layer]
  match errors s.toLayer with
  | [] => .ok s.coerce
  | es => .error (.invalidConfig (Text.join "; " es))

end Settings

end Relayout

import Relayout.Config.Basic
import Relayout.Config.FileTree
import Relayout.Json.Parser
import Relayout.Json.Printer
import Relayout.Text.Blank

/-!
# Where configurations come from

The environment holds texts, a file holds a JSON object, and a caller may give
overrides. Each of the environment and the file yields a whole configuration,
defaults filling what it does not state, and each later one replaces all
settings of the earlier; overrides replace only what they state.
-/

namespace Relayout

abbrev Environment := List (Text × Text)

namespace Config

def refusal (detail : Text) : Fault :=
  .failure (Cause.invalidConfig detail).failure

/-! ## From the environment -/

/-- A truth value in words, in any case and between blanks. No unit outside ASCII
is the capital of a letter in these words. -/
def parseBool (raw : Option Text) (fallback : Bool) : Except Fault Bool :=
  match raw with
  | none => .ok fallback
  | some [] => .ok fallback
  | some t =>
    let word := t.trim.toLower
    if word ∈ [Text.ofString "1", Text.ofString "true", Text.ofString "yes"] then .ok true
    else if word ∈ [Text.ofString "0", Text.ofString "false", Text.ofString "no"] then .ok false
    else .error (refusal ("expected a boolean, got '" ++ t ++ "'"))

/-- A policy by its exact name. The refusal quotes what was found in its place, if that
can be quoted. -/
def parsePolicy (raw : Option Json) (fallback : UnknownTagPolicy) :
    Except Fault UnknownTagPolicy :=
  match raw with
  | none => .ok fallback
  | some (.str []) => .ok fallback
  | some v =>
    match Settings.policy? (some v) with
    | some policy => .ok policy
    | none =>
      if v.displays then
        .error (refusal ("unknownTag must be one of " ++ UnknownTagPolicy.names
          ++ ", got '" ++ v.display ++ "'"))
      else .error (.defect .wrongKind)

def defaultPrefix : Text := "STRUCTCONV"

def valueOf? (env : Environment) (name : Text) : Option Text :=
  (env.find? (·.1 = name)).map (·.2)

/-- The configuration that variables with a common prefix state. -/
def fromEnvironment (env : Environment) (stem : Text := defaultPrefix) : Except Fault Config := do
  let littleEndian ← parseBool (valueOf? env (stem ++ "_LITTLE_ENDIAN")) default.littleEndian
  let boundsCheck ← parseBool (valueOf? env (stem ++ "_BOUNDS_CHECK")) default.boundsCheck
  let policy := (valueOf? env (stem ++ "_UNKNOWN_TAG")).map Json.str
  return ⟨littleEndian, boundsCheck, ← parsePolicy policy default.unknownTag⟩

/-! ## From an object -/

/-- A setting under either of its spellings; the first one counts unless it is
missing or null. -/
def pick (members : Json.Members) (camel snake : Text) : Option Json :=
  match Json.stated (Json.lookup? camel members) with
  | some v => some v
  | none => Json.lookup? snake members

def readBool (v : Option Json) (fallback : Bool) : Except Fault Bool :=
  match v with
  | none => .ok fallback
  | some (.bool b) => .ok b
  | some other => .error (refusal ("expected a boolean, got " ++ other.print))

/-- The configuration that an object states, each setting in either spelling. -/
def fromMembers (members : Json.Members) : Except Fault Config := do
  let littleEndian ← readBool (pick members "littleEndian" "little_endian") default.littleEndian
  let boundsCheck ← readBool (pick members "boundsCheck" "bounds_check") default.boundsCheck
  let policy := pick members "unknownTag" "unknown_tag"
  return ⟨littleEndian, boundsCheck, ← parsePolicy policy default.unknownTag⟩

/-! ## From a file -/

/-- The configuration in a JSON file. The path must lead somewhere and end in
`.json`, in any case, before the file is read. -/
def fromFile (tree : FileTree) (path : Text) : Except Fault Config := do
  let entry ←
    match tree.find? path with
    | some entry => pure entry
    | none => throw (refusal ("config file not found: " ++ path))
  let extension := FileTree.extension path
  if extension.toLower ≠ Text.ofString ".json" then
    throw (refusal ("unsupported config file format: " ++ extension))
  let content ←
    match entry with
    | .file content => pure content
    | .directory => throw (refusal (path ++ " is not JSON (it is a directory)"))
  match Json.parse? content with
  | none => throw (refusal (path ++ " is not JSON (malformed text)"))
  | some (.obj members) => fromMembers members
  | some _ => throw (refusal (path ++ " must hold a JSON object"))

/-! ## All together -/

/-- The file that is read when none is named. -/
def defaultFile : Text := "structconv.config.json"

/-- What a caller may say about loading. -/
structure LoadOptions where
  configFile : Option Text
  overrides : Option Json

/-- The file to read: the named one, else the default one if it is there. The empty
name names none. -/
def fileToRead (tree : FileTree) (configFile : Option Text) : Option Text :=
  match configFile with
  | some (u :: rest) => some (u :: rest)
  | _ => if (tree.find? defaultFile).isSome then some defaultFile else none

def overrideLayer : Option Json → Layer
  | some (.obj members) => Settings.ofMembers members
  | _ => ⟨none, none, none⟩

/-- Environment, then file, then overrides. -/
def load (env : Environment) (tree : FileTree) (options : LoadOptions) :
    Except Fault (Settings Json) := do
  let fromEnv ← fromEnvironment env
  let base ←
    match fileToRead tree options.configFile with
    | some path => do
      let fromFile ← fromFile tree path
      pure (Settings.merge [fromEnv.toLayer, fromFile.toLayer])
    | none => pure fromEnv.toSettings
  return Settings.merge [base.toLayer, overrideLayer options.overrides]

end Config

end Relayout

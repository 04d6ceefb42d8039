import Relayout.Num.Notation

/-!
# JSON values

Descriptors and configuration files arrive as JSON. An object is an ordered
list of members with distinct names: names that spell an array index come first,
in increasing order, and all others follow in the order of their first
appearance. A repeated name keeps its place and takes the last value.
-/

namespace Relayout

inductive Json where
  | null
  | bool (value : Bool)
  | num (value : Num)
  | str (value : Text)
  | arr (items : List Json)
  | obj (members : List (Text × Json))
  deriving Repr, Inhabited

namespace Json

abbrev Members := List (Text × Json)

/-- The array index that a name spells: decimal digits without leading zeros, below 2³² − 1. -/
def indexName? (name : Text) : Option Nat :=
  if name.isEmpty ∨ ¬ name.all Text.isDigit then none
  else if 1 < name.length ∧ name.head? = some (Text.digit 0) then none
  else
    let n := Text.natValue name
    if n < twoPow 32 - 1 then some n else none

/-- Whether a member named `a` stands before one named `b` that is already there. -/
def precedes (a b : Text) : Bool :=
  match indexName? a, indexName? b with
  | some i, some j => i < j
  | some _, none => true
  | none, _ => false

/-- Insert a new name before the first name that it precedes. -/
def insertNew (name : Text) (value : Json) : Members → Members
  | [] => [(name, value)]
  | (other, v) :: rest =>
    if precedes name other then (name, value) :: (other, v) :: rest
    else (other, v) :: insertNew name value rest

/-- Replace the value of a name that is there. -/
def replaceOld (name : Text) (value : Json) : Members → Members
  | [] => []
  | (other, v) :: rest =>
    if other = name then (name, value) :: rest
    else (other, v) :: replaceOld name value rest

def set (members : Members) (name : Text) (value : Json) : Members :=
  if members.any (·.1 = name) then replaceOld name value members
  else insertNew name value members

/-- The object with these members, given in order of appearance. -/
def ofMembers (members : Members) : Json :=
  .obj (members.foldl (fun done (name, value) => set done name value) [])

def lookup? (name : Text) (members : Members) : Option Json :=
  (members.find? (·.1 = name)).map (·.2)

/-- The value of a member of an object; other values have no members. -/
def get? (name : Text) : Json → Option Json
  | .obj members => lookup? name members
  | _ => none

/-- What states something: an absent value and null state nothing. -/
def stated : Option Json → Option Json
  | some .null => none
  | v => v

/-- A value as it stands for a condition: nothing, `false`, zero, not-a-number
and the empty text do not hold. -/
def holds : Json → Bool
  | .null => false
  | .bool b => b
  | .num x => !(x.eqv 0) && x ≠ .nan
  | .str t => !t.isEmpty
  | .arr _ => true
  | .obj _ => true

mutual

/-- A value put into running text: a text as it is, a list as its items with
commas between them, an object as a fixed mark. -/
def display : Json → Text
  | .null => "null"
  | .bool b => if b then "true" else "false"
  | .num x => x.toText
  | .str t => t
  | .arr items => Text.join [Text.unit ','] (displayItems items)
  | .obj _ => "[object Object]"

/-- The items of a list in running text; a null item is empty. -/
def displayItems : List Json → List Text
  | [] => []
  | item :: rest =>
    (match item with | .null => [] | _ => display item) :: displayItems rest

end

mutual

/-- Whether a value can be put into running text. An object cannot if a member of its
own hides the operation that does it, for a member is never an operation. -/
def displays : Json → Bool
  | .arr items => allDisplay items
  | .obj members => !members.any (·.1 = Text.ofString "toString")
  | _ => true

def allDisplay : List Json → Bool
  | [] => true
  | item :: rest => displays item && allDisplay rest

end

end Json

end Relayout

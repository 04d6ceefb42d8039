import Relayout.Json.Basic

/-!
# Printing JSON

The compact form: no blanks, members in their order, numbers in their shortest
form. In a quoted text a quotation mark, a backslash, the controls and a
surrogate without its partner are escaped; every other unit stands for itself.
-/

namespace Relayout.Json

/-- A hexadecimal digit, small letters. -/
def hexDigit (n : Nat) : UInt16 :=
  if n < 10 then Text.digit n else ('a'.toNat + (n - 10)).toUInt16

/-- A unit as an escape with four hexadecimal digits. -/
def hexEscape (u : UInt16) : Text :=
  let n := u.toNat
  [Text.unit '\\', Text.unit 'u', hexDigit (n / 4096), hexDigit (n / 256 % 16),
    hexDigit (n / 16 % 16), hexDigit (n % 16)]

/-- The letter that stands for a unit after a backslash, where it has one. -/
def escapeLetter? (u : UInt16) : Option UInt16 :=
  if u = Text.unit '"' then some (Text.unit '"')
  else if u = Text.unit '\\' then some (Text.unit '\\')
  else if u = 0x08 then some (Text.unit 'b')
  else if u = 0x09 then some (Text.unit 't')
  else if u = 0x0A then some (Text.unit 'n')
  else if u = 0x0C then some (Text.unit 'f')
  else if u = 0x0D then some (Text.unit 'r')
  else none

/-- A unit that is not part of a surrogate pair, as it stands in a quoted text. -/
def quoteUnit (u : UInt16) : Text :=
  match escapeLetter? u with
  | some letter => [Text.unit '\\', letter]
  | none =>
    if u < 0x20 || Text.isHighSurrogate u || Text.isLowSurrogate u then hexEscape u else [u]

/-- The units between the quotation marks. -/
def quoteUnits : Text → Text
  | [] => []
  | [u] => quoteUnit u
  | u :: v :: rest =>
    if Text.isHighSurrogate u && Text.isLowSurrogate v then
      u :: v :: quoteUnits rest
    else
      quoteUnit u ++ quoteUnits (v :: rest)

def quote (t : Text) : Text :=
  Text.unit '"' :: (quoteUnits t ++ [Text.unit '"'])

/-- A number; not-a-number and the infinities have no form and become null. -/
def printNum (x : Num) : Text :=
  match x with
  | .nan => "null"
  | .infinite _ => "null"
  | _ => x.toText

mutual

def print : Json → Text
  | .null => "null"
  | .bool b => if b then "true" else "false"
  | .num x => printNum x
  | .str t => quote t
  | .arr items => Text.unit '[' :: (printItems items ++ [Text.unit ']'])
  | .obj members => Text.unit '{' :: (printMembers members ++ [Text.unit '}'])

def printItems : List Json → Text
  | [] => []
  | [item] => print item
  | item :: next :: rest => print item ++ Text.unit ',' :: printItems (next :: rest)

def printMembers : List (Text × Json) → Text
  | [] => []
  | [(name, value)] => quote name ++ Text.unit ':' :: print value
  | (name, value) :: next :: rest =>
    quote name ++ Text.unit ':' :: (print value ++ Text.unit ',' :: printMembers (next :: rest))

end

end Relayout.Json

import Relayout.Json.Basic

/-!
# Reading JSON

A reader takes a text and gives a value with the rest of the text, or nothing.
The grammar is strict: blanks are space, tab, line feed and carriage return; a
number has no leading zero and digits on both sides of its point; a quoted text
holds no control, but its escapes may spell any unit.
-/

namespace Relayout.Json

/-! ## Blanks and digits -/

/-- A blank between tokens. -/
def isSpace (u : UInt16) : Bool :=
  u = 0x20 || u = 0x09 || u = 0x0A || u = 0x0D

def skipSpace (s : Text) : Text :=
  s.dropWhile isSpace

/-- The value of a hexadecimal digit, in either case. -/
def hexValue? (u : UInt16) : Option Nat :=
  if Text.isDigit u then some (Text.digitValue u)
  else if Text.unit 'a' ≤ u && u ≤ Text.unit 'f' then some (u.toNat - 'a'.toNat + 10)
  else if Text.unit 'A' ≤ u && u ≤ Text.unit 'F' then some (u.toNat - 'A'.toNat + 10)
  else none

/-- The unit that four hexadecimal digits spell. -/
def hexUnit? (a b c d : UInt16) : Option UInt16 := do
  let a ← hexValue? a
  let b ← hexValue? b
  let c ← hexValue? c
  let d ← hexValue? d
  return (4096 * a + 256 * b + 16 * c + d).toUInt16

/-! ## Quoted texts -/

/-- The unit that a letter after a backslash stands for. -/
def unescapeLetter? (u : UInt16) : Option UInt16 :=
  if u = Text.unit '"' then some u
  else if u = Text.unit '\\' then some u
  else if u = Text.unit '/' then some u
  else if u = Text.unit 'b' then some 0x08
  else if u = Text.unit 't' then some 0x09
  else if u = Text.unit 'n' then some 0x0A
  else if u = Text.unit 'f' then some 0x0C
  else if u = Text.unit 'r' then some 0x0D
  else none

/-- A quoted text after its opening mark, up to and including the closing one. -/
def readQuoted? : Text → Option (Text × Text)
  | [] => none
  | u :: rest =>
    if u = Text.unit '"' then some ([], rest)
    else if u = Text.unit '\\' then
      match rest with
      | [] => none
      | letter :: rest' =>
        if letter = Text.unit 'u' then
          match rest' with
          | a :: b :: c :: d :: rest'' =>
            match hexUnit? a b c d with
            | some v => (readQuoted? rest'').map fun (t, s) => (v :: t, s)
            | none => none
          | _ => none
        else
          match unescapeLetter? letter with
          | some v => (readQuoted? rest').map fun (t, s) => (v :: t, s)
          | none => none
    else if u < 0x20 then none
    else (readQuoted? rest).map fun (t, s) => (u :: t, s)

/-! ## Numbers -/

/-- A run of digits, possibly empty. -/
def readDigits (s : Text) : Text × Text :=
  (s.takeWhile Text.isDigit, s.dropWhile Text.isDigit)

/-- The whole part: one zero, or digits that do not start with zero. -/
def readWhole? (s : Text) : Option (Text × Text) :=
  match s with
  | [] => none
  | u :: rest =>
    if u = Text.digit 0 then some ([u], rest)
    else if Text.isDigit u then some (readDigits s)
    else none

/-- The digits after a point; a point needs at least one. -/
def readFraction? (s : Text) : Option (Text × Text) :=
  match s with
  | [] => some ([], [])
  | u :: rest =>
    if u = Text.unit '.' then
      match readDigits rest with
      | ([], _) => none
      | found => some found
    else some ([], s)

/-- The power of ten after an exponent mark; a mark needs at least one digit. -/
def readExponent? (s : Text) : Option (Int × Text) :=
  match s with
  | [] => some (0, [])
  | u :: rest =>
    if u = Text.unit 'e' || u = Text.unit 'E' then
      let (negative, digits) : Bool × Text :=
        match rest with
        | [] => (false, [])
        | v :: rest' =>
          if v = Text.unit '-' then (true, rest')
          else if v = Text.unit '+' then (false, rest')
          else (false, rest)
      match readDigits digits with
      | ([], _) => none
      | (found, s') =>
        let n : Int := Text.natValue found
        some (if negative then -n else n, s')
    else some (0, s)

def readUnsigned? (negative : Bool) (s : Text) : Option (Num × Text) := do
  let (whole, s) ← readWhole? s
  let (fraction, s) ← readFraction? s
  let (exponent, s) ← readExponent? s
  return (Num.ofDecimal negative (Text.natValue (whole ++ fraction)) (exponent - fraction.length), s)

def readNum? (s : Text) : Option (Num × Text) :=
  match s with
  | [] => none
  | u :: rest => if u = Text.unit '-' then readUnsigned? true rest else readUnsigned? false s

/-! ## Values -/

def readWord? (word s : Text) : Option Text :=
  if word.isPrefixOf s then some (s.drop word.length) else none

mutual

/-- A value after optional blanks. Every step that does not read a unit lowers
`fuel`, so twice the length of the text is enough. -/
def readValue? : (fuel : Nat) → Text → Option (Json × Text)
  | 0, _ => none
  | fuel + 1, s =>
    match skipSpace s with
    | [] => none
    | u :: rest =>
      if u = Text.unit '{' then
        match skipSpace rest with
        | [] => none
        | v :: rest' =>
          if v = Text.unit '}' then some (.obj [], rest')
          else (readMembers? fuel (v :: rest')).map fun (ms, s') => (ofMembers ms, s')
      else if u = Text.unit '[' then
        match skipSpace rest with
        | [] => none
        | v :: rest' =>
          if v = Text.unit ']' then some (.arr [], rest')
          else (readItems? fuel (v :: rest')).map fun (items, s') => (.arr items, s')
      else if u = Text.unit '"' then
        (readQuoted? rest).map fun (t, s') => (.str t, s')
      else if u = Text.unit 't' then
        (readWord? "true" (u :: rest)).map fun s' => (.bool true, s')
      else if u = Text.unit 'f' then
        (readWord? "false" (u :: rest)).map fun s' => (.bool false, s')
      else if u = Text.unit 'n' then
        (readWord? "null" (u :: rest)).map fun s' => (.null, s')
      else
        (readNum? (u :: rest)).map fun (x, s') => (.num x, s')

/-- One or more items, and the bracket that closes them. -/
def readItems? : (fuel : Nat) → Text → Option (List Json × Text)
  | 0, _ => none
  | fuel + 1, s =>
    match readValue? fuel s with
    | none => none
    | some (item, s') =>
      match skipSpace s' with
      | [] => none
      | u :: rest =>
        if u = Text.unit ']' then some ([item], rest)
        else if u = Text.unit ',' then
          (readItems? fuel rest).map fun (items, s'') => (item :: items, s'')
        else none

/-- One or more members, and the brace that closes them. -/
def readMembers? : (fuel : Nat) → Text → Option (List (Text × Json) × Text)
  | 0, _ => none
  | fuel + 1, s =>
    match skipSpace s with
    | [] => none
    | q :: rest =>
      if q = Text.unit '"' then
        match readQuoted? rest with
        | none => none
        | some (name, s') =>
          match skipSpace s' with
          | [] => none
          | colon :: afterColon =>
            if colon = Text.unit ':' then
              match readValue? fuel afterColon with
              | none => none
              | some (value, s'') =>
                match skipSpace s'' with
                | [] => none
                | u :: rest' =>
                  if u = Text.unit '}' then some ([(name, value)], rest')
                  else if u = Text.unit ',' then
                    (readMembers? fuel rest').map fun (ms, s₃) => ((name, value) :: ms, s₃)
                  else none
            else none
      else none

end

/-- A whole document: one value with nothing but blanks around it. -/
def parse? (s : Text) : Option Json :=
  match readValue? (2 * s.length + 2) s with
  | some (value, rest) => if (skipSpace rest).isEmpty then some value else none
  | none => none

end Relayout.Json

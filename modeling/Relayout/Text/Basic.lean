/-!
# Texts

A text is a sequence of 16-bit code units. Names of fields, constructors and
primitives come from documents whose string escapes may spell half of a
surrogate pair, so a text is not always a sequence of characters; everything
that compares, joins or quotes names works on units.
-/

namespace Relayout

/-- A sequence of 16-bit code units. -/
abbrev Text := List UInt16

namespace Text

/-- The code units of one character: one unit below U+10000, a surrogate pair above. -/
def unitsOf (c : Char) : Text :=
  let n := c.toNat
  if n < 0x10000 then
    [n.toUInt16]
  else
    [(0xD800 + (n - 0x10000) / 0x400).toUInt16, (0xDC00 + (n - 0x10000) % 0x400).toUInt16]

/-- The code units of a literal. -/
def ofString (s : String) : Text :=
  s.toList.flatMap unitsOf

instance : Coe String Text := ⟨ofString⟩

/-- The single unit of a character below U+10000. -/
def unit (c : Char) : UInt16 :=
  c.toNat.toUInt16

/-- The first half of a surrogate pair. -/
def isHighSurrogate (u : UInt16) : Bool :=
  0xD800 ≤ u && u ≤ 0xDBFF

/-- The second half of a surrogate pair. -/
def isLowSurrogate (u : UInt16) : Bool :=
  0xDC00 ≤ u && u ≤ 0xDFFF

def isDigit (u : UInt16) : Bool :=
  unit '0' ≤ u && u ≤ unit '9'

/-- The digit's value; only meaningful for digits. -/
def digitValue (u : UInt16) : Nat :=
  u.toNat - '0'.toNat

def digit (n : Nat) : UInt16 :=
  ('0'.toNat + n).toUInt16

/-- Decimal digits of a natural number, the most significant first. The
accumulator holds the digits already found, and `fuel` bounds their number. -/
def digitsInto : (fuel : Nat) → Nat → Text → Text
  | 0, _, acc => acc
  | fuel + 1, n, acc =>
    if n < 10 then
      digit n :: acc
    else
      digitsInto fuel (n / 10) (digit (n % 10) :: acc)

/-- A natural number in decimal, without leading zeros. -/
def ofNat (n : Nat) : Text :=
  digitsInto (n.log2 + 1) n []

/-- The number that a run of decimal digits denotes. -/
def natValue (digits : Text) : Nat :=
  digits.foldl (fun n u => 10 * n + digitValue u) 0

/-- The texts in order, with `separator` between neighbours. -/
def join (separator : Text) : List Text → Text
  | [] => []
  | [t] => t
  | t :: rest => t ++ separator ++ join separator rest

/-- ASCII capitals become small letters; every other unit stays. -/
def toLower (t : Text) : Text :=
  t.map fun u => if unit 'A' ≤ u && u ≤ unit 'Z' then u + 32 else u

/-- Split around the first occurrence of `pattern`: what stands before it and
what stands after it. -/
def splitFirst? (pattern : Text) : Text → Option (Text × Text)
  | [] => if pattern.isEmpty then some ([], []) else none
  | u :: rest =>
    if pattern.isPrefixOf (u :: rest) then
      some ([], (u :: rest).drop pattern.length)
    else
      (splitFirst? pattern rest).map fun (before, after) => (u :: before, after)

end Text

end Relayout

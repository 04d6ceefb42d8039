import Relayout.Num.Shortest
import Relayout.Text.Basic

/-!
# Numbers as texts

Writing takes the fewest digits that read back. Values from 10⁻⁶ up to but not
including 10²¹ are written positionally, all others with a signed exponent; a
whole number has no point, and zero has no sign. Reading takes a sign, digits
and a power of ten to the nearest double.
-/

namespace Relayout.Num

/-! ## Writing -/

def dropTrailingZeros (digits : Text) : Text :=
  (digits.reverse.dropWhile (· = Text.digit 0)).reverse

/-- Lay out significant digits with the decimal point after the first `point` of them. -/
def layOut (digits : Text) (point : Int) : Text :=
  let count : Int := digits.length
  let zeros (n : Int) : Text := List.replicate n.toNat (Text.digit 0)
  if count ≤ point ∧ point ≤ 21 then
    digits ++ zeros (point - count)
  else if 0 < point ∧ point ≤ 21 then
    digits.take point.toNat ++ [Text.unit '.'] ++ digits.drop point.toNat
  else if -6 < point ∧ point ≤ 0 then
    [Text.digit 0, Text.unit '.'] ++ zeros (-point) ++ digits
  else
    let exponent := point - 1
    let sign := if exponent < 0 then Text.unit '-' else Text.unit '+'
    let fraction := if digits.length ≤ 1 then [] else Text.unit '.' :: digits.drop 1
    digits.take 1 ++ fraction ++ [Text.unit 'e', sign] ++ Text.ofNat exponent.natAbs

/-- A positive rational, rounded to a double, in its shortest form. -/
def positiveText (q : Rat) : Text :=
  if q.den = 1 ∧ q.num.natAbs ≤ twoPow 53 then Text.ofNat q.num.natAbs
  else
    let d := shortest q
    let all := Text.ofNat d.digits
    layOut (dropTrailingZeros all) (all.length + d.exponent)

def toText : Num → Text
  | .nan => "NaN"
  | .infinite negative => if negative then "-Infinity" else "Infinity"
  | .negZero => "0"
  | .rat q => if q < 0 then Text.unit '-' :: positiveText (-q) else positiveText q

/-! ## Reading -/

/-- The double nearest to `digits` times ten to the power `exponent`. Powers far
outside the range of doubles are decided without computing them. -/
def ofDecimal (negative : Bool) (digits : Nat) (exponent : Int) : Num :=
  if digits = 0 then zero negative
  else if 400 < exponent then .infinite negative
  else if exponent + digits.log2 < -400 then zero negative
  else
    let magnitude := mkRat (digits * tenPow exponent.toNat) (tenPow (-exponent).toNat)
    match round (if negative then -magnitude else magnitude) with
    | .rat q => if q = 0 then zero negative else .rat q
    | x => x

end Relayout.Num

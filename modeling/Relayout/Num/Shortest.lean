import Relayout.Num.Basic

/-!
# The fewest digits that read back

A finite double stands for the interval of reals that round to it: halfway to
each neighbour, the ends included when its significand is even. Its shortest
decimal is found on the grids of one, two, three, … significant digits. The
first grid with a point in the interval wins; of two such points the nearer is
taken, and of two equally near ones the even.
-/

namespace Relayout.Num

/-- A decimal: `digits` times ten to the power `exponent`. -/
structure Decimal where
  digits : Nat
  exponent : Int
  deriving DecidableEq, Repr

namespace Shortest

/-- A positive double in quarters of its unit: the value is `4 * units`, and
`low` and `high` are the ends of its interval. Every count is times two to the
power `exponent`. The neighbour below a power of two is half as far away. -/
structure Interval where
  units : Nat
  low : Nat
  high : Nat
  exponent : Int

/-- The interval of the value with these bits, without sign. -/
def interval (bits : Nat) : Interval :=
  let (units, e) := Format.binary64.parts bits
  let narrow := bits % twoPow 52 = 0 ∧ twoPow 53 ≤ bits
  { units
    low := if narrow then 4 * units - 1 else 4 * units - 2
    high := 4 * units + 2
    exponent := e - 2 }

/-- Numerator and denominator of the unit of `x` over ten to the power `grid`. -/
def ratio (x : Interval) (grid : Int) : Nat × Nat :=
  (twoPow x.exponent.toNat * tenPow (-grid).toNat, twoPow (-x.exponent).toNat * tenPow grid.toNat)

/-- Whether the point `c` of a grid with the given ratio lies in the interval. -/
def Interval.holds (x : Interval) (ratio : Nat × Nat) (c : Nat) : Bool :=
  let point := c * ratio.2
  if x.units % 2 = 0 then
    x.low * ratio.1 ≤ point && point ≤ x.high * ratio.1
  else
    x.low * ratio.1 < point && point < x.high * ratio.1

/-- The point of one grid that lies in the interval and is nearest to the value. -/
def onGrid? (x : Interval) (grid : Int) : Option Decimal :=
  let r := ratio x grid
  let exact := 4 * x.units * r.1
  let c := exact / r.2
  match x.holds r c, x.holds r (c + 1) with
  | false, false => none
  | true, false => some ⟨c, grid⟩
  | false, true => some ⟨c + 1, grid⟩
  | true, true =>
    let below := exact - c * r.2
    let above := (c + 1) * r.2 - exact
    if below < above ∨ (below = above ∧ c % 2 = 0) then some ⟨c, grid⟩ else some ⟨c + 1, grid⟩

/-- Whether the value lies below ten to the power `k`. -/
def below (x : Interval) (k : Int) : Bool :=
  let r := ratio x k
  4 * x.units * r.1 < r.2

/-- The least power of ten above the value, from an estimate by the binary logarithm. -/
def leadingPower (x : Interval) : Int :=
  let estimate := (((4 * x.units).log2 : Int) + x.exponent) * 30103 / 100000
  if below x (estimate - 1) then estimate - 1
  else if below x estimate then estimate
  else if below x (estimate + 1) then estimate + 1
  else estimate + 2

/-- The first of the grids with one to seventeen significant digits that has a
point in the interval; if none had, the value itself. -/
def ofInterval (x : Interval) : Decimal :=
  let k := leadingPower x
  match (List.range 17).findSome? fun n => onGrid? x (k - (n + 1 : Nat)) with
  | some d => d
  | none =>
    ⟨4 * x.units * twoPow x.exponent.toNat * Nat.pow 5 (-x.exponent).toNat, min 0 x.exponent⟩

end Shortest

/-- The shortest decimal that reads back to the double nearest to a positive rational. -/
def shortest (q : Rat) : Decimal :=
  Shortest.ofInterval (Shortest.interval (Format.binary64.magnitudeBits q.num.natAbs q.den))

end Relayout.Num

/-!
# Numbers

A number is a double-precision value: not-a-number, an infinity, negative zero,
or a rational. Arithmetic on the rationals is exact and then rounded to the
nearest double, ties to the even neighbour, so whole numbers of at most 53 bits
behave exactly. Sizes, offsets, lengths and tags are numbers because a
descriptor may state any of them as any double.
-/

namespace Relayout

/-! ## Powers -/

def twoPow (k : Nat) : Nat :=
  Nat.pow 2 k

def tenPow (k : Nat) : Nat :=
  Nat.pow 10 k

/-! ## Interchange formats -/

/-- A binary interchange format: how many bits hold the fraction, and how many the exponent. -/
structure Format where
  fraction : Nat
  exponent : Nat
  deriving DecidableEq, Repr

/-- A double-precision value. Positive zero is the rational zero. -/
inductive Num where
  | nan
  | infinite (negative : Bool)
  | negZero
  | rat (value : Rat)
  deriving DecidableEq, Repr

namespace Format

def binary32 : Format := ⟨23, 8⟩

def binary64 : Format := ⟨52, 11⟩

/-- The exponent of the least unit: every finite value is a whole multiple of two to this power. -/
def minExponent (f : Format) : Int :=
  2 - (twoPow (f.exponent - 1) : Int) - f.fraction

/-- The bits of positive infinity: the least magnitude that is not finite. -/
def infinityBits (f : Format) : Nat :=
  (twoPow f.exponent - 1) * twoPow f.fraction

def signBit (f : Format) : Nat :=
  twoPow (f.fraction + f.exponent)

/-- The whole number nearest to `n / d`, a half going to the even neighbour. -/
def roundHalfEven (n d : Nat) : Nat :=
  let q := n / d
  let r := n % d
  if 2 * r < d then q
  else if d < 2 * r then q + 1
  else if q % 2 = 0 then q
  else q + 1

/-- The whole part of the binary logarithm of `n / d`, for positive `n` and `d`. -/
def floorLog2 (n d : Nat) : Int :=
  let k : Int := n.log2 - d.log2
  if d * twoPow k.toNat ≤ n * twoPow (-k).toNat then k else k - 1

/-- The exponent of the unit to which `n / d` is rounded: the leading bit and
`fraction` bits after it are kept, but no unit is finer than the least. -/
def unitExponent (f : Format) (n d : Nat) : Int :=
  max f.minExponent (floorLog2 n d - f.fraction)

/-- The bits, without sign, of the value nearest to `n / d`. The count of units
already holds the leading bit of a normal value, which adds one to the biased
exponent; rounding up to the next power of two carries the same way. -/
def magnitudeBits (f : Format) (n d : Nat) : Nat :=
  if n = 0 then 0
  else
    let e := f.unitExponent n d
    let units := roundHalfEven (n * twoPow (-e).toNat) (d * twoPow e.toNat)
    min f.infinityBits ((e - f.minExponent).toNat * twoPow f.fraction + units)

/-- A whole number times a power of two. -/
def scale (units : Nat) (e : Int) : Rat :=
  if 0 ≤ e then (units * twoPow e.toNat : Nat) else mkRat units (twoPow (-e).toNat)

/-- Significand and exponent of the finite value with these bits, without sign. -/
def parts (f : Format) (bits : Nat) : Nat × Int :=
  let biased := bits / twoPow f.fraction
  let low := bits % twoPow f.fraction
  if biased = 0 then (low, f.minExponent)
  else (twoPow f.fraction + low, f.minExponent + (biased - 1))

def decode (f : Format) (bits : Nat) : Num :=
  let negative := bits / f.signBit % 2 = 1
  let magnitude := bits % f.signBit
  if f.infinityBits < magnitude then .nan
  else if magnitude = f.infinityBits then .infinite negative
  else if magnitude = 0 then (if negative then .negZero else .rat 0)
  else
    let (units, e) := f.parts magnitude
    .rat (if negative then -scale units e else scale units e)

/-- The word of this format nearest to a value. Not-a-number has one word, with
the sign clear and only the first fraction bit set. -/
def encode (f : Format) : Num → Nat
  | .nan => f.infinityBits + twoPow (f.fraction - 1)
  | .infinite negative => (if negative then f.signBit else 0) + f.infinityBits
  | .negZero => f.signBit
  | .rat q => (if q < 0 then f.signBit else 0) + f.magnitudeBits q.num.natAbs q.den

end Format

namespace Num

/-! ## Construction -/

/-- The double nearest to a rational. A whole number of at most 53 bits is its own. -/
def round (q : Rat) : Num :=
  if q.den = 1 ∧ q.num.natAbs ≤ twoPow 53 then .rat q
  else Format.binary64.decode (Format.binary64.encode (.rat q))

/-- The double nearest to a whole number. -/
def ofInt (i : Int) : Num :=
  round i

/-- The double nearest to a natural number. -/
def ofNat (n : Nat) : Num :=
  round n

instance (n : Nat) : OfNat Num n := ⟨ofNat n⟩

def zero (negative : Bool) : Num :=
  if negative then .negZero else .rat 0

/-! ## Views -/

/-- The rational value; not-a-number and the infinities have none. -/
def value? : Num → Option Rat
  | .negZero => some 0
  | .rat q => some q
  | _ => none

/-- The sign: set for negative values, negative zero and negative infinity. -/
def isNegative : Num → Bool
  | .infinite negative => negative
  | .negZero => true
  | .rat q => q < 0
  | .nan => false

/-- A finite whole number. -/
def isWhole (x : Num) : Bool :=
  match x.value? with
  | some q => q.den = 1
  | none => false

def toInt? (x : Num) : Option Int :=
  match x.value? with
  | some q => if q.den = 1 then some q.num else none
  | none => none

def toNat? (x : Num) : Option Nat :=
  match x.toInt? with
  | some (.ofNat n) => some n
  | _ => none

/-- The value without its fraction, rounded toward zero; zero for not-a-number and the infinities. -/
def truncate (x : Num) : Int :=
  match x.value? with
  | some q => q.num.tdiv q.den
  | none => 0

/-- The position that a number names in a run of bytes: its fraction is dropped,
not-a-number is position zero, and there is none below zero or above the largest
whole number of 53 bits. -/
def index? (x : Num) : Option Nat :=
  match x with
  | .infinite _ => none
  | _ =>
    match x.truncate with
    | .ofNat n => if n < twoPow 53 then some n else none
    | .negSucc _ => none

/-! ## Order -/

/-- Numeric order; not-a-number is below nothing and above nothing. -/
def lt : Num → Num → Bool
  | .nan, _ => false
  | _, .nan => false
  | .infinite a, .infinite b => a && !b
  | .infinite a, _ => a
  | _, .infinite b => !b
  | x, y => x.value?.getD 0 < y.value?.getD 0

/-- Numeric equality: the two zeros are equal and not-a-number equals nothing. -/
def eqv : Num → Num → Bool
  | .nan, _ => false
  | _, .nan => false
  | .infinite a, .infinite b => a == b
  | .infinite _, _ => false
  | _, .infinite _ => false
  | x, y => x.value?.getD 0 = y.value?.getD 0

def le (x y : Num) : Bool :=
  x.lt y || x.eqv y

/-- The larger of two numbers; not-a-number if either is, and positive zero over negative zero. -/
def max (x y : Num) : Num :=
  match x, y with
  | .nan, _ => .nan
  | _, .nan => .nan
  | .negZero, y => if y.lt .negZero then .negZero else y
  | x, y => if x.lt y then y else x

/-! ## Arithmetic -/

/-- The sum, rounded. -/
def add : Num → Num → Num
  | .nan, _ => .nan
  | _, .nan => .nan
  | .infinite a, .infinite b => if a = b then .infinite a else .nan
  | .infinite a, _ => .infinite a
  | _, .infinite b => .infinite b
  | .negZero, .negZero => .negZero
  | x, y => round (x.value?.getD 0 + y.value?.getD 0)

/-- The product, rounded; a zero product has the sign of the operands' product. -/
def mul : Num → Num → Num
  | .nan, _ => .nan
  | _, .nan => .nan
  | .infinite a, y => if y.eqv (.rat 0) then .nan else .infinite (a != y.isNegative)
  | x, .infinite b => if x.eqv (.rat 0) then .nan else .infinite (b != x.isNegative)
  | x, y =>
    let product := x.value?.getD 0 * y.value?.getD 0
    if product = 0 then zero (x.isNegative != y.isNegative) else round product

/-- The quotient, rounded; a zero divisor gives an infinity. -/
def div : Num → Num → Num
  | .nan, _ => .nan
  | _, .nan => .nan
  | .infinite _, .infinite _ => .nan
  | .infinite a, y => .infinite (a != y.isNegative)
  | x, .infinite b => zero (x.isNegative != b)
  | x, y =>
    let a := x.value?.getD 0
    let b := y.value?.getD 0
    if b = 0 then
      if a = 0 then .nan else .infinite (x.isNegative != y.isNegative)
    else if a = 0 then
      zero (x.isNegative != y.isNegative)
    else
      round (a / b)

def neg : Num → Num
  | .nan => .nan
  | .infinite a => .infinite (!a)
  | .negZero => .rat 0
  | .rat q => if q = 0 then .negZero else .rat (-q)

def ceil : Num → Num
  | .rat q => if q.ceil = 0 ∧ q < 0 then .negZero else .rat q.ceil
  | x => x

instance : Add Num := ⟨add⟩
instance : Mul Num := ⟨mul⟩
instance : Div Num := ⟨div⟩
instance : Neg Num := ⟨neg⟩

/-- `offset` raised to a multiple of `align`; an alignment of one or less changes nothing. -/
def alignTo (offset align : Num) : Num :=
  if align.le 1 then offset else (offset / align).ceil * align

/-- How many of the numbers 0, 1, 2, … are below `x`. Below infinity only those
are counted that fit in 53 bits: more positions no memory has. -/
def countBelow : Num → Nat
  | .nan => 0
  | .infinite negative => if negative then 0 else twoPow 53
  | .negZero => 0
  | .rat q => q.ceil.toNat

/-! ## Whole numbers are exact -/

/-- A whole number up to two to the power 53 is its own double. -/
theorem ofNat_eq_rat {n : Nat} (h : n ≤ twoPow 53) : ofNat n = .rat n := by
  have hden : (n : Rat).den = 1 := Rat.den_natCast n
  have hnum : (n : Rat).num.natAbs = n := by rw [Rat.num_natCast, Int.natAbs_natCast]
  rw [ofNat, round, if_pos ⟨hden, by rw [hnum]; exact h⟩]

/-- The value of such a number is the number itself. -/
theorem value?_ofNat {n : Nat} (h : n ≤ twoPow 53) : (ofNat n).value? = some (n : Rat) := by
  rw [ofNat_eq_rat h, value?]

/-- A whole number below the limit names the position of its own value. -/
theorem index?_ofNat {n : Nat} (h : n < twoPow 53) : (ofNat n).index? = some n := by
  have htrunc : (Num.rat (n : Rat)).truncate = n := by
    simp [truncate, value?]
  rw [ofNat_eq_rat (by omega)]
  simp [index?, htrunc, h]

/-! ## Words -/

def ofBits64 (bits : Nat) : Num :=
  Format.binary64.decode bits

def ofBits32 (bits : Nat) : Num :=
  Format.binary32.decode bits

def toBits64 (x : Num) : Nat :=
  Format.binary64.encode x

/-- The single-precision word nearest to a number. -/
def toBits32 (x : Num) : Nat :=
  Format.binary32.encode x

end Num

end Relayout

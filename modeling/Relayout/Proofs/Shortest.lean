import Relayout.Num.Notation
import Relayout.Proofs.Exact
import Relayout.Proofs.Nearest

/-!
# The shortest decimal reads back

The interval of a double holds the rationals that are rounded to it, and the
shortest decimal is one of them. So is what is written when no grid has a point
in the interval, and no argument about the grids that are searched is needed:

- the shortest decimal lies in the interval (`contains_ofInterval`);
- whatever lies in the interval of a finite double is rounded to it (`round_of_contains`).
-/

namespace Relayout

namespace Num

def Decimal.value (d : Decimal) : ℚ :=
  d.digits * 10 ^ d.exponent

namespace Shortest

/-! ## The interval of a double -/

/-- A rational lies in an interval, whose ends count only if the units are even. -/
structure Interval.Contains (x : Interval) (q : ℚ) : Prop where
  low : (x.low : ℚ) * 2 ^ x.exponent ≤ q
  high : q ≤ (x.high : ℚ) * 2 ^ x.exponent
  odd : x.units % 2 = 1 →
    (x.low : ℚ) * 2 ^ x.exponent < q ∧ q < (x.high : ℚ) * 2 ^ x.exponent

/-- A power is the quotient of its positive and its negative part. -/
theorem zpow_eq_div (b : ℚ) (e : Int) : b ^ e = b ^ e.toNat / b ^ (-e).toNat := by
  rcases le_total 0 e with he | he
  · have hneg : (-e).toNat = 0 := by omega
    rw [hneg, pow_zero, div_one, ← zpow_natCast, Int.toNat_of_nonneg he]
  · have hpos : e.toNat = 0 := by omega
    rw [hpos, pow_zero, one_div, ← zpow_natCast, Int.toNat_of_nonneg (by omega), zpow_neg, inv_inv]

/-- The unit of an interval, measured on a grid. -/
theorem ratio_spec (x : Interval) (g : Int) :
    ((ratio x g).1 : ℚ) * 10 ^ g = (ratio x g).2 * 2 ^ x.exponent ∧ (0 : ℚ) < (ratio x g).2 := by
  have hB : (2 : ℚ) ^ (-x.exponent).toNat ≠ 0 := by positivity
  have hD : (10 : ℚ) ^ (-g).toNat ≠ 0 := by positivity
  have hratio : ((ratio x g).1 : ℚ) = 2 ^ x.exponent.toNat * 10 ^ (-g).toNat ∧
      ((ratio x g).2 : ℚ) = 2 ^ (-x.exponent).toNat * 10 ^ g.toNat := by
    constructor
    · exact_mod_cast rfl
    · exact_mod_cast rfl
  rw [hratio.1, hratio.2, zpow_eq_div 10 g, zpow_eq_div 2 x.exponent]
  refine ⟨by field_simp, by positivity⟩

/-- Comparing with a point of a grid is comparing on the grid. -/
theorem mul_ratio_le {x : Interval} {g : Int} (m c : Nat) :
    (m * (ratio x g).1 ≤ c * (ratio x g).2 ↔ (m : ℚ) * 2 ^ x.exponent ≤ c * 10 ^ g) ∧
      (c * (ratio x g).2 ≤ m * (ratio x g).1 ↔ (c : ℚ) * 10 ^ g ≤ m * 2 ^ x.exponent) := by
  obtain ⟨hcross, hpos⟩ := ratio_spec x g
  have hten : (0 : ℚ) < 10 ^ g := by positivity
  have hm : ((m * (ratio x g).1 : Nat) : ℚ) * 10 ^ g = m * 2 ^ x.exponent * (ratio x g).2 := by
    push_cast
    rw [mul_assoc, hcross]
    ring
  have hc : ((c * (ratio x g).2 : Nat) : ℚ) * 10 ^ g = c * 10 ^ g * (ratio x g).2 := by
    push_cast
    ring
  constructor
  · rw [← Nat.cast_le (α := ℚ), ← mul_le_mul_iff_left₀ hten, hm, hc, mul_le_mul_iff_left₀ hpos]
  · rw [← Nat.cast_le (α := ℚ), ← mul_le_mul_iff_left₀ hten, hm, hc, mul_le_mul_iff_left₀ hpos]

/-- A point that passes the test lies in the interval. -/
theorem contains_of_holds {x : Interval} {g : Int} {c : Nat} (h : x.holds (ratio x g) c = true) :
    x.Contains ((c : ℚ) * 10 ^ g) := by
  simp only [Interval.holds] at h
  split at h
  · rename_i heven
    simp only [Bool.and_eq_true, decide_eq_true_eq] at h
    exact ⟨(mul_ratio_le _ _).1.mp h.1, (mul_ratio_le _ _).2.mp h.2, fun hodd => by omega⟩
  · simp only [Bool.and_eq_true, decide_eq_true_eq] at h
    have hlow := lt_of_not_ge (mt (mul_ratio_le x.low c).2.mpr (Nat.not_le_of_lt h.1))
    have hhigh := lt_of_not_ge (mt (mul_ratio_le x.high c).1.mpr (Nat.not_le_of_lt h.2))
    exact ⟨hlow.le, hhigh.le, fun _ => ⟨hlow, hhigh⟩⟩

theorem contains_of_onGrid? {x : Interval} {g : Int} {d : Decimal} (h : onGrid? x g = some d) :
    x.Contains d.value := by
  simp only [onGrid?] at h
  split at h
  · cases h
  · rename_i hc _
    cases h
    exact contains_of_holds hc
  · rename_i _ hc
    cases h
    exact contains_of_holds hc
  · rename_i hc hc'
    split at h
    · cases h
      exact contains_of_holds hc
    · cases h
      exact contains_of_holds hc'

/-- The shortest decimal lies in the interval, if the value itself does. -/
theorem contains_ofInterval {x : Interval} (hx : x.Contains (4 * x.units * 2 ^ x.exponent)) :
    x.Contains (ofInterval x).value := by
  simp only [ofInterval]
  split
  · rename_i d hd
    obtain ⟨n, -, hn⟩ := List.exists_of_findSome?_eq_some hd
    exact contains_of_onGrid? hn
  · -- no grid has a point, so the value is written out
    have hvalue : Decimal.value ⟨4 * x.units * twoPow x.exponent.toNat *
        Nat.pow 5 (-x.exponent).toNat, min 0 x.exponent⟩ = 4 * x.units * 2 ^ x.exponent := by
      have hten : (10 : ℚ) = 5 * 2 := by norm_num
      rw [Decimal.value, twoPow_eq, Nat.pow_eq]
      push_cast
      rcases le_total 0 x.exponent with he | he
      · have hneg : (-x.exponent).toNat = 0 := by omega
        rw [min_eq_left he, hneg, zpow_zero, pow_zero, mul_one, mul_one, ← zpow_natCast,
          Int.toNat_of_nonneg he]
      · have hpos : x.exponent.toNat = 0 := by omega
        have hfive : (5 : ℚ) ^ (-x.exponent).toNat * 5 ^ x.exponent = 1 := by
          rw [← zpow_natCast, Int.toNat_of_nonneg (by omega), ← zpow_add₀ (by norm_num),
            Int.add_left_neg, zpow_zero]
        rw [min_eq_right he, hpos, pow_zero, mul_one, hten, mul_zpow, mul_assoc,
          ← mul_assoc (5 ^ _), hfive, one_mul]
    rw [hvalue]
    exact hx

/-- The neighbour below is half as far exactly at the least value of a binade. -/
theorem narrow_iff {bits u : Nat} {e : Int} (hparts : Format.binary64.parts bits = (u, e))
    (hu : u ≠ 0) : (bits % twoPow 52 = 0 ∧ twoPow 53 ≤ bits) ↔
      e ≠ Format.binary64.minExponent ∧ u = twoPow 52 := by
  obtain ⟨hbits, hunits, he, -⟩ := Format.binary64.parts_spec hparts
  have hfraction : Format.binary64.fraction = 52 := rfl
  rw [hfraction] at hbits hunits
  rw [twoPow_eq] at *
  rw [twoPow_eq]
  constructor
  · rintro ⟨hmod, hle⟩
    omega
  · rintro ⟨hne, rfl⟩
    omega

/-- What lies in the interval of a finite value is near to its units. -/
theorem near_of_contains {bits u : Nat} {e : Int} {q : ℚ}
    (hparts : Format.binary64.parts bits = (u, e)) (hu : u ≠ 0)
    (h : (interval bits).Contains q) :
    Format.Near u e q ∧ (e ≠ Format.binary64.minExponent → u = twoPow 52 →
      ((u : ℚ) - 1 / 4) * 2 ^ e ≤ q) := by
  have hquarter : (2 : ℚ) ^ (e - 2) = 2 ^ e / 4 := by
    rw [zpow_sub₀ (by norm_num)]
    norm_num
  have hpos : (0 : ℚ) < 2 ^ e := by positivity
  have htwo : ((4 * u - 2 : Nat) : ℚ) = 4 * u - 2 := by
    rw [Nat.cast_sub (by omega)]
    push_cast
    rfl
  have hone : ((4 * u - 1 : Nat) : ℚ) = 4 * u - 1 := by
    rw [Nat.cast_sub (by omega)]
    push_cast
    rfl
  obtain ⟨hlow, hhigh, hodd⟩ := h
  simp only [interval, hparts] at hlow hhigh hodd
  rw [hquarter] at hlow hhigh hodd
  push_cast at hhigh hodd
  -- only above the least value of a binade does the interval reach half a unit down
  split at hlow
  · rename_i hnarrow
    rw [hone] at hlow
    have heven : ¬u % 2 = 1 := by
      rw [((narrow_iff hparts hu).mp hnarrow).2, Format.twoPow_even (by decide)]
      decide
    exact ⟨⟨by linarith, by linarith, fun h => absurd h heven⟩, fun _ _ => by linarith⟩
  · rename_i hwide
    rw [if_neg hwide, htwo] at hodd
    rw [htwo] at hlow
    exact ⟨⟨by linarith, by linarith, fun h => ⟨by linarith [(hodd h).1], by linarith [(hodd h).2]⟩⟩,
      fun hne hu52 => absurd ((narrow_iff hparts hu).mpr ⟨hne, hu52⟩) hwide⟩

end Shortest

/-! ## Finite doubles -/

/-- A finite double: negative zero, or a rational that is its own rounding. -/
def Finite : Num → Prop
  | .negZero => True
  | .rat q => round q = .rat q
  | _ => False

/-- The number without the sign of a zero. -/
def plain : Num → Num
  | .negZero => .rat 0
  | x => x

def magnitude (q : ℚ) : Nat :=
  Format.binary64.magnitudeBits q.num.natAbs q.den

/-- The word of a rational is its sign and its magnitude. -/
theorem encode_signed {q : ℚ} (hq : 0 < q) (negative : Bool) :
    Format.binary64.encode (.rat (if negative then -q else q)) =
      (if negative then Format.binary64.signBit else 0) + magnitude q := by
  cases negative with
  | false => simp [Format.encode, magnitude, not_lt.mpr hq.le]
  | true => simp [Format.encode, magnitude, hq]

theorem magnitude_le (q : ℚ) : magnitude q ≤ Format.binary64.infinityBits := by
  rw [magnitude, Format.magnitudeBits]
  split
  · exact Nat.zero_le _
  · exact Nat.min_le_left _ _

/-- A finite double other than zero is a number of units, and its bits say which. -/
theorem units_of_finite (negative : Bool) {q : ℚ} (hq : 0 < q)
    (hfinite : (Num.rat (if negative then -q else q)).Finite) :
    ∃ (u : Nat) (e : Int), Format.binary64.parts (magnitude q) = (u, e) ∧ q = u * 2 ^ e ∧ u ≠ 0 ∧
      magnitude q ≠ 0 ∧ magnitude q < Format.binary64.infinityBits := by
  have hround : Format.binary64.decode ((if negative then Format.binary64.signBit else 0) + magnitude q) =
      .rat (if negative then -q else q) := by
    rw [← encode_signed hq, ← round_eq_decode]
    exact hfinite
  have hne : magnitude q ≠ 0 := by
    intro hzero
    rw [hzero] at hround
    cases negative with
    | false =>
        have hdecode : Format.binary64.decode 0 = .rat 0 := by decide
        simp only [Bool.false_eq_true, if_false, Nat.zero_add, hdecode, Num.rat.injEq] at hround
        exact hq.ne hround
    | true =>
        have hdecode : Format.binary64.decode Format.binary64.signBit = .negZero := by decide
        simp only [if_true, Nat.add_zero, hdecode] at hround
        cases hround
  have hlt : magnitude q < Format.binary64.infinityBits := by
    refine Nat.lt_of_le_of_ne (magnitude_le q) fun hinf => ?_
    have hdecode : Format.binary64.decode ((if negative then Format.binary64.signBit else 0) +
        Format.binary64.infinityBits) = .infinite negative := by
      cases negative with
      | false => decide
      | true => decide
    rw [hinf, hdecode] at hround
    cases hround
  have hparts : Format.binary64.parts (magnitude q) =
      ((Format.binary64.parts (magnitude q)).1, (Format.binary64.parts (magnitude q)).2) := rfl
  have hqu : q = (Format.binary64.parts (magnitude q)).1 * 2 ^ (Format.binary64.parts (magnitude q)).2 := by
    rw [Format.binary64.decode_magnitude negative hlt hne hparts, Format.scale_eq,
      Num.rat.injEq] at hround
    cases negative with
    | false => exact hround.symm
    | true => exact (neg_injective hround).symm
  refine ⟨_, _, hparts, hqu, fun hzero => ?_, hne, hlt⟩
  rw [hzero, Nat.cast_zero, zero_mul] at hqu
  exact hq.ne' hqu

/-- The negative of a finite double is one. -/
theorem finite_of_neg {q : ℚ} (hq : 0 < q) (hfinite : (Num.rat (-q)).Finite) :
    (Num.rat q).Finite := by
  obtain ⟨u, e, hparts, hqu, -, hne, hlt⟩ := units_of_finite true hq hfinite
  have hdecode := Format.binary64.decode_magnitude false hlt hne hparts
  rw [Format.scale_eq, ← hqu, ← encode_signed hq, ← round_eq_decode] at hdecode
  exact hdecode

namespace Shortest

/-- The interval around a positive finite double. -/
def around (q : ℚ) : Interval :=
  interval (magnitude q)

/-- The interval around a double holds the double. -/
theorem contains_self {q : ℚ} (hq : 0 < q) (hfinite : (Num.rat q).Finite) :
    (around q).Contains q ∧ 4 * (around q).units * 2 ^ (around q).exponent = q := by
  obtain ⟨u, e, hparts, hqu, hu, -, -⟩ := units_of_finite false hq hfinite
  have hpos : (0 : ℚ) < 2 ^ (e - 2) := by positivity
  have hvalue : q = ((4 * u : Nat) : ℚ) * 2 ^ (e - 2) := by
    rw [hqu, zpow_sub₀ (by norm_num)]
    push_cast
    ring
  have hlow : (around q).low < 4 * u := by
    simp only [around, interval, hparts]
    split
    · omega
    · omega
  have hhigh : 4 * u < (around q).high := by
    simp only [around, interval, hparts]
    omega
  have hexp : (around q).exponent = e - 2 := by simp only [around, interval, hparts]
  have hunits : (around q).units = u := by simp only [around, interval, hparts]
  have hlow' : ((around q).low : ℚ) * 2 ^ (e - 2) < q := by
    conv_rhs => rw [hvalue]
    exact mul_lt_mul_of_pos_right (by exact_mod_cast hlow) hpos
  have hhigh' : q < ((around q).high : ℚ) * 2 ^ (e - 2) := by
    conv_lhs => rw [hvalue]
    exact mul_lt_mul_of_pos_right (by exact_mod_cast hhigh) hpos
  refine ⟨⟨hexp ▸ hlow'.le, hexp ▸ hhigh'.le, fun _ => hexp ▸ ⟨hlow', hhigh'⟩⟩, ?_⟩
  rw [hunits, hexp]
  conv_rhs => rw [hvalue]
  push_cast
  ring

/-- **Whatever lies in the interval of a double is rounded to it**, under either sign. -/
theorem round_of_contains {q r : ℚ} (hq : 0 < q) (hfinite : (Num.rat q).Finite)
    (h : (around q).Contains r) :
    0 < r ∧ round r = .rat q ∧ round (-r) = .rat (-q) := by
  obtain ⟨u, e, hparts, hqu, hu, hne, hlt⟩ := units_of_finite false hq hfinite
  obtain ⟨near, hnarrow⟩ := near_of_contains hparts hu h
  have hr : 0 < r := by
    have hone : (1 : ℚ) ≤ u := by exact_mod_cast Nat.pos_of_ne_zero hu
    have hpos : (0 : ℚ) < ((u : ℚ) - 1 / 2) * 2 ^ e := mul_pos (by linarith) (by positivity)
    exact lt_of_lt_of_le hpos near.low
  obtain ⟨hbits, hunits, he, hnormal⟩ := Format.binary64.parts_spec hparts
  have hmagnitude : magnitude r = magnitude q := by
    have hdiv : (r.num.natAbs : ℚ) / r.den = r := by rw [← Format.abs_eq_div, abs_of_pos hr]
    rw [magnitude, Format.binary64.magnitudeBits_of_near (by simpa using hr.ne') r.den_nz (by decide)
      hunits he hnormal (hdiv.symm ▸ near) (hdiv.symm ▸ hnarrow), ← hbits]
    exact Nat.min_eq_right hlt.le
  have hround : ∀ negative : Bool,
      round (if negative then -r else r) = .rat (if negative then -q else q) := by
    intro negative
    rw [round_eq_decode, encode_signed hr, hmagnitude,
      Format.binary64.decode_magnitude negative hlt hne hparts, Format.scale_eq, ← hqu]
  exact ⟨hr, hround false, hround true⟩

theorem two_zpow_le_ten : (2 : ℚ) ^ (1200 : Int) ≤ 10 ^ (400 : Int) := by
  have height : (2 : ℚ) ^ (1200 : Int) = 8 ^ (400 : Int) := by
    rw [show (8 : ℚ) = 2 ^ (3 : Int) by norm_num, ← zpow_mul]
    norm_num
  rw [height]
  exact zpow_le_zpow_left₀ (by norm_num) (by norm_num) (by norm_num)

/-- Every double lies well within the range that a power of ten is cut off at. -/
theorem bounds_of_contains {q r : ℚ} (hq : 0 < q) (hfinite : (Num.rat q).Finite)
    (h : (around q).Contains r) : (10 : ℚ) ^ (-400 : Int) ≤ r ∧ r ≤ 10 ^ (400 : Int) := by
  obtain ⟨u, e, hparts, hqu, hu, hne, hlt⟩ := units_of_finite false hq hfinite
  obtain ⟨near, -⟩ := near_of_contains hparts hu h
  obtain ⟨hbits, hunits, he, -⟩ := Format.binary64.parts_spec hparts
  have hmin : Format.binary64.minExponent = -1074 := by decide
  have hfrac : twoPow Format.binary64.fraction = 2 ^ 52 := rfl
  have hinf : Format.binary64.infinityBits = 2047 * 2 ^ 52 := by decide
  rw [hmin] at he hbits
  rw [hfrac] at hbits hunits
  rw [hinf] at hlt
  have htwo : (1 : ℚ) ≤ 2 := by norm_num
  have hone : (1 : ℚ) ≤ u := by exact_mod_cast Nat.pos_of_ne_zero hu
  have hmax : (u : ℚ) ≤ 2 ^ (53 : Int) := by exact_mod_cast (by omega : u ≤ 2 ^ 53)
  constructor
  · have hhalf : (2 : ℚ) ^ (-1 : Int) ≤ (u : ℚ) - 1 / 2 := by
      rw [zpow_neg_one]
      linarith
    calc (10 : ℚ) ^ (-400 : Int) ≤ 2 ^ (-1200 : Int) := by
          rw [zpow_neg, zpow_neg]
          exact inv_anti₀ (by positivity) two_zpow_le_ten
      _ ≤ 2 ^ (-1 + e) := zpow_le_zpow_right₀ htwo (by omega)
      _ = 2 ^ (-1 : Int) * 2 ^ e := zpow_add₀ (by norm_num) _ _
      _ ≤ ((u : ℚ) - 1 / 2) * 2 ^ e := mul_le_mul_of_nonneg_right hhalf (by positivity)
      _ ≤ r := near.low
  · have hdouble : (u : ℚ) + 1 / 2 ≤ 2 ^ (54 : Int) := by
      rw [show (54 : Int) = 53 + 1 by norm_num, zpow_add_one₀ (by norm_num)]
      linarith
    calc r ≤ ((u : ℚ) + 1 / 2) * 2 ^ e := near.high
      _ ≤ 2 ^ (54 : Int) * 2 ^ e := mul_le_mul_of_nonneg_right hdouble (by positivity)
      _ = 2 ^ (54 + e) := (zpow_add₀ (by norm_num) _ _).symm
      _ ≤ 2 ^ (1200 : Int) := zpow_le_zpow_right₀ htwo (by omega)
      _ ≤ 10 ^ (400 : Int) := two_zpow_le_ten

end Shortest

end Num

end Relayout

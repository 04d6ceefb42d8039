import Relayout.Num.Basic
import Mathlib

/-!
# Rounding in an interchange format

A finite value of a format is a whole number of units, each a power of two.
Encoding a rational picks the unit by its binary logarithm and rounds the
count; decoding multiplies out again. Two facts follow for every format:

- a value that needs no more bits than the format has comes back unchanged
  (`decode_encode`);
- rounding never crosses a power of two downwards (`le_decode_encode`).
-/

namespace Relayout

theorem twoPow_eq (k : Nat) : twoPow k = 2 ^ k := rfl

namespace Format

variable (f : Format)

/-! ## Units as powers of two -/

theorem scale_eq (units : Nat) (e : Int) : scale units e = (units : ℚ) * 2 ^ e := by
  rw [scale]
  by_cases he : 0 ≤ e
  · obtain ⟨k, rfl⟩ := Int.eq_ofNat_of_zero_le he
    rw [if_pos he, Int.toNat_natCast, twoPow_eq]
    push_cast
    rfl
  · obtain ⟨k, hk⟩ := Int.eq_ofNat_of_zero_le (a := -e) (by omega)
    have hek : e = -(k : Int) := by omega
    rw [if_neg he, hk, Int.toNat_natCast, twoPow_eq, Rat.mkRat_eq_div, hek, zpow_neg,
      zpow_natCast, div_eq_mul_inv]
    push_cast
    rfl

theorem two_zpow_add_fraction (e : Int) :
    (2 : ℚ) ^ (e + f.fraction) = (twoPow f.fraction : ℚ) * 2 ^ e := by
  rw [zpow_add₀ (by norm_num), zpow_natCast, twoPow_eq, mul_comm]
  push_cast
  rfl

/-- The quotient that is rounded is `n / d` measured in units of two to the power `e`. -/
theorem shifted_div (n d : Nat) (e : Int) :
    ((n * twoPow (-e).toNat : Nat) : ℚ) / ((d * twoPow e.toNat : Nat) : ℚ) =
      (n : ℚ) / d * 2 ^ (-e) := by
  rcases le_total 0 e with he | he
  · obtain ⟨k, rfl⟩ := Int.eq_ofNat_of_zero_le he
    have hk : (-(k : Int)).toNat = 0 := by omega
    rw [hk, Int.toNat_natCast, twoPow_eq, twoPow_eq, zpow_neg, zpow_natCast]
    push_cast
    rw [mul_one, div_mul_eq_div_div, div_eq_mul_inv]
  · obtain ⟨k, hk⟩ := Int.eq_ofNat_of_zero_le (a := -e) (by omega)
    have he0 : e.toNat = 0 := by omega
    rw [he0, hk, Int.toNat_natCast, twoPow_eq, twoPow_eq, zpow_natCast]
    push_cast
    rw [mul_one, mul_div_right_comm]

/-- The binary logarithm brackets the quotient between two powers of two. -/
theorem floorLog2_spec {n d : Nat} (hn : n ≠ 0) (hd : d ≠ 0) :
    (2 : ℚ) ^ floorLog2 n d ≤ (n : ℚ) / d ∧ (n : ℚ) / d < 2 ^ (floorLog2 n d + 1) := by
  have hd0 : (0 : ℚ) < d := by exact_mod_cast Nat.pos_of_ne_zero hd
  have hnlo : (2 : ℚ) ^ n.log2 ≤ n := by exact_mod_cast Nat.log2_self_le hn
  have hnhi : (n : ℚ) < 2 ^ (n.log2 + 1) := by exact_mod_cast Nat.lt_log2_self
  have hdlo : (2 : ℚ) ^ d.log2 ≤ d := by exact_mod_cast Nat.log2_self_le hd
  have hdhi : (d : ℚ) < 2 ^ (d.log2 + 1) := by exact_mod_cast Nat.lt_log2_self
  have hhi : (n : ℚ) / d < 2 ^ ((n.log2 : Int) - d.log2 + 1) := by
    rw [div_lt_iff₀ hd0]
    calc (n : ℚ) < 2 ^ (n.log2 + 1) := hnhi
      _ = 2 ^ ((n.log2 : Int) - d.log2 + 1) * 2 ^ d.log2 := by
          rw [← zpow_natCast, ← zpow_natCast, ← zpow_add₀ (by norm_num)]
          congr 1
          push_cast
          ring
      _ ≤ 2 ^ ((n.log2 : Int) - d.log2 + 1) * d := by gcongr
  have hlo : (2 : ℚ) ^ ((n.log2 : Int) - d.log2 - 1) ≤ (n : ℚ) / d := by
    rw [le_div_iff₀ hd0]
    calc (2 : ℚ) ^ ((n.log2 : Int) - d.log2 - 1) * d
        ≤ 2 ^ ((n.log2 : Int) - d.log2 - 1) * 2 ^ (d.log2 + 1) := by gcongr
      _ = 2 ^ n.log2 := by
          rw [← zpow_natCast, ← zpow_natCast, ← zpow_add₀ (by norm_num)]
          congr 1
          push_cast
          ring
      _ ≤ n := hnlo
  -- the integer test decides on which side of the upper power the quotient lies
  have htest : d * twoPow ((n.log2 : Int) - d.log2).toNat ≤
        n * twoPow (-((n.log2 : Int) - d.log2)).toNat ↔
      (2 : ℚ) ^ ((n.log2 : Int) - d.log2) ≤ (n : ℚ) / d := by
    have hpos : (0 : ℚ) < ((d * twoPow ((n.log2 : Int) - d.log2).toNat : Nat) : ℚ) := by
      rw [twoPow_eq]
      positivity
    rw [← Nat.cast_le (α := ℚ), ← one_le_div₀ hpos, shifted_div, zpow_neg, ← div_eq_mul_inv,
      one_le_div₀ (by positivity)]
  rw [floorLog2]
  by_cases ht : d * twoPow ((n.log2 : Int) - d.log2).toNat ≤
      n * twoPow (-((n.log2 : Int) - d.log2)).toNat
  · simp only [if_pos ht]
    exact ⟨htest.mp ht, hhi⟩
  · simp only [if_neg ht, Int.sub_add_cancel]
    rw [htest] at ht
    exact ⟨hlo, lt_of_not_ge ht⟩

/-! ## Rounding a quotient -/

theorem roundHalfEven_down {n d : Nat} (h : 2 * (n % d) ≤ d)
    (htie : 2 * (n % d) = d → n / d % 2 = 0) : roundHalfEven n d = n / d := by
  simp only [roundHalfEven]
  split
  · rfl
  · rw [if_neg (by omega), if_pos (htie (by omega))]

theorem roundHalfEven_up {n d : Nat} (h : d ≤ 2 * (n % d))
    (htie : 2 * (n % d) = d → n / d % 2 = 1) : roundHalfEven n d = n / d + 1 := by
  simp only [roundHalfEven]
  rw [if_neg (by omega)]
  split
  · rfl
  · have hodd := htie (by omega)
    rw [if_neg (by omega)]

/-- The nearest whole number is at most a half away, and an odd one less than a half. -/
theorem roundHalfEven_eq {n d u : Nat} (hd : d ≠ 0) (hlo : (u : ℚ) - 1 / 2 ≤ (n : ℚ) / d)
    (hhi : (n : ℚ) / d ≤ u + 1 / 2)
    (hodd : u % 2 = 1 → (u : ℚ) - 1 / 2 < (n : ℚ) / d ∧ (n : ℚ) / d < u + 1 / 2) :
    roundHalfEven n d = u := by
  have hd0 : (0 : ℚ) < d := by exact_mod_cast Nat.pos_of_ne_zero hd
  have hsplit : (n : ℚ) = d * (n / d : Nat) + (n % d : Nat) := by
    exact_mod_cast (Nat.div_add_mod n d).symm
  have hrem : ((n % d : Nat) : ℚ) < d := by
    exact_mod_cast Nat.mod_lt n (Nat.pos_of_ne_zero hd)
  have hnonneg : (0 : ℚ) ≤ ((n % d : Nat) : ℚ) := Nat.cast_nonneg _
  rw [le_div_iff₀ hd0] at hlo
  rw [div_le_iff₀ hd0] at hhi
  rw [lt_div_iff₀ hd0, div_lt_iff₀ hd0] at hodd
  have hle : n / d ≤ u := by
    by_contra hlt
    have hlt' : (u : ℚ) + 1 ≤ (n / d : Nat) := by exact_mod_cast Nat.lt_of_not_le hlt
    nlinarith
  have hge : u ≤ n / d + 1 := by
    by_contra hlt
    have hlt' : ((n / d : Nat) : ℚ) + 2 ≤ u := by exact_mod_cast Nat.lt_of_not_le hlt
    nlinarith
  rcases Nat.lt_or_eq_of_le hle with hlt | rfl
  · obtain rfl : u = n / d + 1 := by omega
    push_cast at hlo hodd
    refine roundHalfEven_up ?_ fun htie => ?_
    · have hhalf : (d : ℚ) ≤ 2 * (n % d : Nat) := by linarith
      exact_mod_cast hhalf
    · by_contra heven
      have hhalf : (d : ℚ) < 2 * (n % d : Nat) := by linarith [(hodd (by omega)).1]
      exact hhalf.ne (by exact_mod_cast htie.symm)
  · refine roundHalfEven_down ?_ fun htie => ?_
    · have hhalf : 2 * ((n % d : Nat) : ℚ) ≤ d := by linarith
      exact_mod_cast hhalf
    · by_contra hne
      have hhalf : 2 * ((n % d : Nat) : ℚ) < d := by linarith [(hodd (by omega)).2]
      exact hhalf.ne (by exact_mod_cast htie)

/-- Rounding does not fall below the whole part. -/
theorem div_le_roundHalfEven (n d : Nat) : n / d ≤ roundHalfEven n d := by
  simp only [roundHalfEven]
  split
  · exact Nat.le_refl _
  · split
    · exact Nat.le_succ _
    · split
      · exact Nat.le_refl _
      · exact Nat.le_succ _

/-! ## From units to bits and back -/

/-- The units of a magnitude: those of its bits, or the leading bit of a normal
value on top of them. -/
theorem parts_add {units : Nat} {e : Int} (hu : units < 2 * twoPow f.fraction)
    (he : f.minExponent ≤ e) (hnormal : e = f.minExponent ∨ twoPow f.fraction ≤ units) :
    f.parts ((e - f.minExponent).toNat * twoPow f.fraction + units) = (units, e) := by
  have hpos : 0 < twoPow f.fraction := Nat.two_pow_pos _
  rw [parts]
  by_cases hlow : units < twoPow f.fraction
  · -- a subnormal value: the exponent is the least one
    have hmin : e = f.minExponent := hnormal.resolve_right (by omega)
    have hz : (e - f.minExponent).toNat = 0 := by omega
    rw [hz, Nat.zero_mul, Nat.zero_add, Nat.div_eq_of_lt hlow, Nat.mod_eq_of_lt hlow]
    simp only [if_pos, hmin]
  · have hsplit : (e - f.minExponent).toNat * twoPow f.fraction + units =
        (units - twoPow f.fraction) + ((e - f.minExponent).toNat + 1) * twoPow f.fraction := by
      rw [Nat.add_mul, Nat.one_mul]
      omega
    have hrest : units - twoPow f.fraction < twoPow f.fraction := by omega
    rw [hsplit, Nat.add_mul_div_right _ _ hpos, Nat.add_mul_mod_self_right,
      Nat.div_eq_of_lt hrest, Nat.mod_eq_of_lt hrest]
    have hne : ¬ 0 + ((e - f.minExponent).toNat + 1) = 0 := by omega
    simp only [if_neg hne, Prod.mk.injEq]
    constructor
    · omega
    · push_cast
      omega

/-- The sign bit lies above every magnitude. -/
theorem infinityBits_lt_signBit : f.infinityBits < f.signBit := by
  have hfrac : 0 < twoPow f.fraction := Nat.two_pow_pos _
  have hexp : 0 < twoPow f.exponent := Nat.two_pow_pos _
  have hsign : f.signBit = twoPow f.exponent * twoPow f.fraction := by
    rw [signBit, twoPow_eq, twoPow_eq, twoPow_eq, ← pow_add, Nat.add_comm]
  rw [infinityBits, hsign]
  exact Nat.mul_lt_mul_of_pos_right (by omega) hfrac

/-- Sign and magnitude of a word that is put together from them. -/
theorem sign_magnitude (negative : Bool) {bits : Nat} (hbits : bits < f.signBit) :
    (((if negative then f.signBit else 0) + bits) / f.signBit % 2 = 1 ↔ negative = true) ∧
      ((if negative then f.signBit else 0) + bits) % f.signBit = bits := by
  have hpos : 0 < f.signBit := by omega
  cases negative with
  | false =>
      simp [Nat.div_eq_of_lt hbits, Nat.mod_eq_of_lt hbits]
  | true =>
      simp [Nat.add_div_left _ hpos, Nat.div_eq_of_lt hbits, Nat.mod_eq_of_lt hbits]

/-- A word with a finite magnitude stands for its units. -/
theorem decode_magnitude (negative : Bool) {bits units : Nat} {e : Int}
    (hfin : bits < f.infinityBits) (hne : bits ≠ 0) (hparts : f.parts bits = (units, e)) :
    f.decode ((if negative then f.signBit else 0) + bits) =
      .rat (if negative then -scale units e else scale units e) := by
  obtain ⟨hsign, hmag⟩ := f.sign_magnitude negative (hfin.trans f.infinityBits_lt_signBit)
  simp only [decode, hmag, hsign, hparts]
  rw [if_neg (by omega), if_neg (by omega), if_neg hne]

/-- The magnitude of the infinities. -/
theorem decode_infinityBits : f.decode f.infinityBits = .infinite false := by
  obtain ⟨hsign, hmag⟩ := f.sign_magnitude false f.infinityBits_lt_signBit
  simp only [Bool.false_eq_true, if_false, Nat.zero_add, iff_false] at hsign hmag
  simp only [decode, hmag, hsign, decide_false]
  rw [if_neg (by omega)]
  simp

/-! ## Values that fit come back unchanged -/

theorem abs_eq_div (q : ℚ) : |q| = (q.num.natAbs : ℚ) / q.den := by
  conv_lhs => rw [← Rat.num_div_den q]
  rw [abs_div, Nat.abs_cast, ← Int.cast_abs, Int.abs_eq_natAbs, Int.cast_natCast]

/-- Within half a unit of a count of units; an end counts only if the count is even. -/
structure Near (u : Nat) (e : Int) (q : ℚ) : Prop where
  low : ((u : ℚ) - 1 / 2) * 2 ^ e ≤ q
  high : q ≤ ((u : ℚ) + 1 / 2) * 2 ^ e
  odd : u % 2 = 1 → ((u : ℚ) - 1 / 2) * 2 ^ e < q ∧ q < ((u : ℚ) + 1 / 2) * 2 ^ e

/-- A count of units is near to itself. -/
theorem near_self (u : Nat) (e : Int) : Near u e (u * 2 ^ e) := by
  have hpos : (0 : ℚ) < 2 ^ e := by positivity
  refine ⟨?_, ?_, fun _ => ⟨?_, ?_⟩⟩
  all_goals linarith

/-- In the units that are picked, a value is rounded to the count that it is near to. -/
theorem magnitudeBits_of_unit {n d u : Nat} {e : Int} (hn : n ≠ 0) (hd : d ≠ 0)
    (hunit : f.unitExponent n d = e) (near : Near u e ((n : ℚ) / d)) :
    f.magnitudeBits n d =
      min f.infinityBits ((e - f.minExponent).toNat * twoPow f.fraction + u) := by
  have hpos : (0 : ℚ) < 2 ^ e := by positivity
  have hD : d * twoPow e.toNat ≠ 0 :=
    Nat.mul_ne_zero hd (Nat.pos_iff_ne_zero.mp (Nat.two_pow_pos _))
  have hround : roundHalfEven (n * twoPow (-e).toNat) (d * twoPow e.toNat) = u := by
    refine roundHalfEven_eq hD ?_ ?_ fun h => ⟨?_, ?_⟩
    all_goals rw [shifted_div, zpow_neg, ← div_eq_mul_inv]
    · rw [le_div_iff₀ hpos]
      exact near.low
    · rw [div_le_iff₀ hpos]
      exact near.high
    · rw [lt_div_iff₀ hpos]
      exact (near.odd h).1
    · rw [div_lt_iff₀ hpos]
      exact (near.odd h).2
  rw [magnitudeBits, if_neg hn, hunit]
  simp only [hround]

/-- A quotient that fits the fraction is a whole number of the units that
encoding picks, and as many as a value of this exponent may have. -/
theorem exists_units {n d units : Nat} {e : Int} (hn : n ≠ 0) (hd : d ≠ 0)
    (hq : (n : ℚ) / d = units * 2 ^ e) (hunits : units < 2 * twoPow f.fraction)
    (he : f.minExponent ≤ e) :
    ∃ u : Nat, (n : ℚ) / d = u * 2 ^ f.unitExponent n d ∧ u < 2 * twoPow f.fraction ∧
      (f.unitExponent n d = f.minExponent ∨ twoPow f.fraction ≤ u) := by
  obtain ⟨hlo, hhi⟩ := floorLog2_spec hn hd
  have htwo : (1 : ℚ) < 2 := by norm_num
  have hwidth : ((2 * twoPow f.fraction : Nat) : ℚ) = 2 ^ ((f.fraction : Int) + 1) := by
    rw [zpow_add₀ (by norm_num), zpow_natCast, twoPow_eq]
    push_cast
    ring
  -- the unit that encoding picks is no coarser than the one at hand
  have hlog : floorLog2 n d - f.fraction ≤ e := by
    have hlt : (2 : ℚ) ^ floorLog2 n d < 2 ^ ((f.fraction : Int) + 1 + e) := by
      calc (2 : ℚ) ^ floorLog2 n d ≤ units * 2 ^ e := hq ▸ hlo
        _ < ((2 * twoPow f.fraction : Nat) : ℚ) * 2 ^ e := by
            have hcast : (units : ℚ) < ((2 * twoPow f.fraction : Nat) : ℚ) := by
              exact_mod_cast hunits
            gcongr
        _ = 2 ^ ((f.fraction : Int) + 1 + e) := by
            rw [hwidth, ← zpow_add₀ (by norm_num)]
    have := (zpow_lt_zpow_iff_right₀ htwo).mp hlt
    omega
  obtain ⟨e₀, he₀⟩ : ∃ e₀, f.unitExponent n d = e₀ := ⟨_, rfl⟩
  have he₀max : e₀ = max f.minExponent (floorLog2 n d - f.fraction) := he₀.symm
  obtain ⟨u, hqu⟩ : ∃ u : Nat, (n : ℚ) / d = u * 2 ^ e₀ := by
    refine ⟨units * 2 ^ (e - e₀).toNat, ?_⟩
    rw [hq]
    push_cast
    rw [mul_assoc, ← zpow_natCast, Int.toNat_of_nonneg (by omega), ← zpow_add₀ (by norm_num),
      Int.sub_add_cancel]
  rw [he₀]
  refine ⟨u, hqu, ?_, ?_⟩
  · have hlt : (u : ℚ) * 2 ^ e₀ < 2 ^ ((f.fraction : Int) + 1) * 2 ^ e₀ := by
      calc (u : ℚ) * 2 ^ e₀ < 2 ^ (floorLog2 n d + 1) := hqu ▸ hhi
        _ ≤ 2 ^ ((f.fraction : Int) + 1 + e₀) := zpow_le_zpow_right₀ htwo.le (by omega)
        _ = 2 ^ ((f.fraction : Int) + 1) * 2 ^ e₀ := zpow_add₀ (by norm_num) _ _
    have hcast : (u : ℚ) < ((2 * twoPow f.fraction : Nat) : ℚ) :=
      hwidth ▸ lt_of_mul_lt_mul_right hlt (by positivity)
    exact_mod_cast hcast
  · by_cases hlow : e₀ = f.minExponent
    · exact Or.inl hlow
    · right
      have hfl : floorLog2 n d = (f.fraction : Int) + e₀ := by omega
      rw [hfl, hqu, zpow_add₀ (by norm_num), zpow_natCast] at hlo
      have hcast : (2 : ℚ) ^ f.fraction ≤ u := le_of_mul_le_mul_right hlo (by positivity)
      rw [twoPow_eq]
      exact_mod_cast hcast

/-- The bits of a value below the last power of two are those of a finite value. -/
theorem bits_lt_infinityBits {units : Nat} {e : Int} (hexp : 2 ≤ f.exponent)
    (hunits : units < 2 * twoPow f.fraction)
    (he : e = f.minExponent ∨ e + f.fraction < (twoPow (f.exponent - 1) : Int)) :
    (e - f.minExponent).toNat * twoPow f.fraction + units < f.infinityBits := by
  have hexp2 : twoPow f.exponent = 2 * twoPow (f.exponent - 1) := by
    rw [twoPow_eq, twoPow_eq, ← Nat.pow_succ', Nat.succ_eq_add_one, Nat.sub_add_cancel (by omega)]
  have hhalf : 2 ≤ twoPow (f.exponent - 1) := Nat.le_self_pow (by omega) 2
  have hmin : f.minExponent = 2 - (twoPow (f.exponent - 1) : Int) - f.fraction := rfl
  have hsteps : (e - f.minExponent).toNat + 2 ≤ twoPow f.exponent - 1 := by omega
  calc (e - f.minExponent).toNat * twoPow f.fraction + units
      < ((e - f.minExponent).toNat + 2) * twoPow f.fraction := by
        rw [Nat.add_mul]
        omega
    _ ≤ (twoPow f.exponent - 1) * twoPow f.fraction := Nat.mul_le_mul_right _ hsteps

/-- Zero is its own rounding. -/
theorem decode_encode_zero (hexp : 2 ≤ f.exponent) : f.decode (f.encode (.rat 0)) = .rat 0 := by
  have hzero : 0 < 2 * twoPow f.fraction := Nat.mul_pos (by omega) (Nat.two_pow_pos _)
  have hpos : 0 < f.infinityBits :=
    Nat.lt_of_le_of_lt (Nat.zero_le _) (f.bits_lt_infinityBits hexp hzero (Or.inl rfl))
  have henc : f.encode (.rat 0) = 0 := by simp [encode, magnitudeBits]
  simp only [henc, decode, Nat.zero_mod, Nat.zero_div]
  rw [if_neg (by omega), if_neg (by omega)]
  simp

/-- **A value with no more bits than the format has is its own rounding.** -/
theorem decode_encode {q : ℚ} {units : Nat} {e : Int} (hexp : 2 ≤ f.exponent)
    (hq : |q| = units * 2 ^ e) (hunits : units < 2 * twoPow f.fraction)
    (he : f.minExponent ≤ e) (hfin : |q| < 2 ^ (twoPow (f.exponent - 1) : Int)) :
    f.decode (f.encode (.rat q)) = .rat q := by
  by_cases hq0 : q = 0
  · subst hq0
    exact f.decode_encode_zero hexp
  have hn : q.num.natAbs ≠ 0 := by simpa using hq0
  have hd : q.den ≠ 0 := q.den_nz
  obtain ⟨u, hu, hult, hnormal⟩ := f.exists_units hn hd (abs_eq_div q ▸ hq) hunits he
  obtain ⟨e₀, he₀⟩ : ∃ e₀, f.unitExponent q.num.natAbs q.den = e₀ := ⟨_, rfl⟩
  have hmin : f.minExponent ≤ e₀ := he₀ ▸ Int.le_max_left _ _
  rw [he₀] at hu hnormal
  have hqu : |q| = u * 2 ^ e₀ := (abs_eq_div q).trans hu
  have hune : u ≠ 0 := by
    intro h0
    rw [h0, Nat.cast_zero, zero_mul] at hqu
    exact hq0 (abs_eq_zero.mp hqu)
  have hbits : (e₀ - f.minExponent).toNat * twoPow f.fraction + u < f.infinityBits := by
    refine f.bits_lt_infinityBits hexp hult (hnormal.imp_right fun hle => ?_)
    have hcast : (twoPow f.fraction : ℚ) ≤ u := by exact_mod_cast hle
    have hpow : (2 : ℚ) ^ (e₀ + f.fraction) < 2 ^ (twoPow (f.exponent - 1) : Int) := by
      calc (2 : ℚ) ^ (e₀ + f.fraction) = (twoPow f.fraction : ℚ) * 2 ^ e₀ := f.two_zpow_add_fraction e₀
        _ ≤ u * 2 ^ e₀ := by gcongr
        _ < 2 ^ (twoPow (f.exponent - 1) : Int) := hqu ▸ hfin
    exact (zpow_lt_zpow_iff_right₀ (by norm_num : (1 : ℚ) < 2)).mp hpow
  have henc : f.encode (.rat q) = (if decide (q < 0) = true then f.signBit else 0) +
      ((e₀ - f.minExponent).toNat * twoPow f.fraction + u) := by
    have near : Near u e₀ ((q.num.natAbs : ℚ) / q.den) := hu ▸ near_self u e₀
    rw [encode, f.magnitudeBits_of_unit hn hd he₀ near, Nat.min_eq_right hbits.le]
    simp
  rw [henc, f.decode_magnitude _ hbits (by omega) (f.parts_add hult hmin hnormal), scale_eq, ← hqu]
  by_cases hneg : q < 0
  · simp [hneg, abs_of_neg]
  · simp [hneg, abs_of_nonneg (not_lt.mp hneg)]

/-! ## Every value of a word comes back -/

/-- A finite value of a word is a whole number of units within the format. -/
theorem units_of_decode {bits : Nat} {q : ℚ} (hexp : 2 ≤ f.exponent) (h : f.decode bits = .rat q) :
    ∃ (units : Nat) (e : Int), |q| = units * 2 ^ e ∧ units < 2 * twoPow f.fraction ∧
      f.minExponent ≤ e ∧ e + f.fraction < (twoPow (f.exponent - 1) : Int) := by
  have hhalf : 2 ≤ twoPow (f.exponent - 1) := Nat.le_self_pow (by omega) 2
  have hexp2 : twoPow f.exponent = 2 * twoPow (f.exponent - 1) := by
    rw [twoPow_eq, twoPow_eq, ← Nat.pow_succ', Nat.succ_eq_add_one, Nat.sub_add_cancel (by omega)]
  have hmin : f.minExponent = 2 - (twoPow (f.exponent - 1) : Int) - f.fraction := rfl
  have hpos : 0 < twoPow f.fraction := Nat.two_pow_pos _
  simp only [decode] at h
  split at h
  · cases h
  · split at h
    · cases h
    · rename_i hgt hne
      split at h
      · split at h
        · cases h
        · cases h
          exact ⟨0, f.minExponent, by simp, by omega, le_refl _, by omega⟩
      · have hlow := Nat.mod_lt (bits % f.signBit) hpos
        have hbiased : bits % f.signBit / twoPow f.fraction < twoPow f.exponent - 1 := by
          rw [Nat.div_lt_iff_lt_mul hpos]
          exact Nat.lt_of_le_of_ne (Nat.le_of_not_lt hgt) hne
        have habs : |q| = scale (f.parts (bits % f.signBit)).1 (f.parts (bits % f.signBit)).2 := by
          have hnonneg : 0 ≤ scale (f.parts (bits % f.signBit)).1 (f.parts (bits % f.signBit)).2 := by
            rw [scale_eq]
            positivity
          split at h
          · cases h
            rw [abs_neg, abs_of_nonneg hnonneg]
          · cases h
            exact abs_of_nonneg hnonneg
        rw [scale_eq] at habs
        refine ⟨_, _, habs, ?_⟩
        simp only [parts]
        generalize bits % f.signBit / twoPow f.fraction = biased at hbiased
        split
        · exact ⟨by dsimp only; omega, by dsimp only; omega, by dsimp only; omega⟩
        · exact ⟨by dsimp only; omega, by dsimp only; omega, by dsimp only; omega⟩

/-- The word of not-a-number stands for it. -/
theorem decode_encode_nan (hfrac : f.fraction ≠ 0) : f.decode (f.encode .nan) = .nan := by
  have hhalf : 0 < twoPow (f.fraction - 1) := Nat.two_pow_pos _
  have hfull : twoPow f.fraction = 2 * twoPow (f.fraction - 1) := by
    rw [twoPow_eq, twoPow_eq, ← Nat.pow_succ', Nat.succ_eq_add_one, Nat.sub_add_cancel (by omega)]
  have hsign : f.signBit = f.infinityBits + twoPow f.fraction := by
    have hone : 1 ≤ twoPow f.exponent := Nat.two_pow_pos _
    rw [infinityBits, signBit, ← Nat.succ_mul, Nat.succ_eq_add_one, Nat.sub_add_cancel hone,
      twoPow_eq, twoPow_eq, twoPow_eq, ← Nat.pow_add, Nat.add_comm]
  have hlt : f.infinityBits + twoPow (f.fraction - 1) < f.signBit := by omega
  simp only [encode, decode, Nat.mod_eq_of_lt hlt]
  rw [if_pos (by omega)]

/-- **Whatever a word of a narrower format stands for has a word of its own in a wider one.** -/
theorem decode_encode_decode {g : Format} {bits : Nat} (hexp : 2 ≤ f.exponent)
    (hfrac : f.fraction ≠ 0) (hfraction : f.fraction ≤ g.fraction)
    (hexponent : f.exponent ≤ g.exponent) (hmin : g.minExponent ≤ f.minExponent) :
    g.decode (g.encode (f.decode bits)) = f.decode bits := by
  have hpos : 0 < g.infinityBits := by
    have htwo : 0 < 2 * twoPow g.fraction := Nat.mul_pos (by omega) (Nat.two_pow_pos _)
    exact Nat.lt_of_le_of_lt (Nat.zero_le _)
      (g.bits_lt_infinityBits (hexp.trans hexponent) htwo (Or.inl rfl))
  cases hx : f.decode bits with
  | nan => exact g.decode_encode_nan (by omega)
  | infinite negative =>
      obtain ⟨hsign, hmag⟩ := g.sign_magnitude negative g.infinityBits_lt_signBit
      simp only [encode, decode, hmag, hsign]
      simp
  | negZero =>
      obtain ⟨hsign, hmag⟩ := g.sign_magnitude true (hpos.trans g.infinityBits_lt_signBit)
      simp only [if_true, Nat.add_zero] at hsign hmag
      simp only [encode, decode, hmag, hsign]
      rw [if_neg (by omega), if_neg (by omega)]
      simp
  | rat q =>
      obtain ⟨units, e, hq, hunits, he, hfin⟩ := f.units_of_decode hexp hx
      have hfrac2 : twoPow f.fraction ≤ twoPow g.fraction := Nat.pow_le_pow_right (by omega) hfraction
      have hexp2 : twoPow (f.exponent - 1) ≤ twoPow (g.exponent - 1) :=
        Nat.pow_le_pow_right (by omega) (by omega)
      have hu : (units : ℚ) < 2 ^ (f.fraction + 1) := by
        rw [pow_succ, mul_comm]
        exact_mod_cast hunits
      refine g.decode_encode (hexp.trans hexponent) hq (by omega) (hmin.trans he) ?_
      calc |q| = units * 2 ^ e := hq
        _ < 2 ^ (f.fraction + 1) * 2 ^ e := by gcongr
        _ = 2 ^ (e + f.fraction + 1) := by
          rw [add_assoc, zpow_add₀ (by norm_num), ← Nat.cast_succ, zpow_natCast, mul_comm]
        _ ≤ 2 ^ (twoPow (g.exponent - 1) : Int) :=
          zpow_le_zpow_right₀ (by norm_num) (by omega)

/-- A word stands for what its lowest bits stand for. -/
theorem decode_mod (bits : Nat) : f.decode (bits % (f.signBit * 2)) = f.decode bits := by
  simp only [decode, Nat.mod_mul_right_div_self, Nat.mod_mul_right_mod, Nat.mod_mod]

/-! ## Rounding does not fall below a power of two -/

/-- The units of a magnitude are at least those of the bits that it begins with. -/
theorem le_scale_parts {bits : Nat} {e : Int} (he : f.minExponent ≤ e)
    (hbits : ((e - f.minExponent).toNat + 1) * twoPow f.fraction ≤ bits) :
    (2 : ℚ) ^ (e + f.fraction) ≤ scale (f.parts bits).1 (f.parts bits).2 := by
  have hpos : 0 < twoPow f.fraction := Nat.two_pow_pos _
  have hdiv : (e - f.minExponent).toNat + 1 ≤ bits / twoPow f.fraction :=
    (Nat.le_div_iff_mul_le hpos).mpr hbits
  have hparts : f.parts bits = (twoPow f.fraction + bits % twoPow f.fraction,
      f.minExponent + ((bits / twoPow f.fraction : Nat) - 1)) := by
    simp only [parts]
    rw [if_neg (by omega)]
  rw [hparts, scale_eq]
  have hexp : e ≤ f.minExponent + ((bits / twoPow f.fraction : Nat) - 1) := by omega
  calc (2 : ℚ) ^ (e + f.fraction) = (twoPow f.fraction : ℚ) * 2 ^ e := f.two_zpow_add_fraction e
    _ ≤ ((twoPow f.fraction + bits % twoPow f.fraction : Nat) : ℚ) *
          2 ^ (f.minExponent + ((bits / twoPow f.fraction : Nat) - 1) : Int) := by
        have hleft : (twoPow f.fraction : ℚ) ≤
            ((twoPow f.fraction + bits % twoPow f.fraction : Nat) : ℚ) := by
          exact_mod_cast Nat.le_add_right _ _
        have hright := zpow_le_zpow_right₀ (by norm_num : (1 : ℚ) ≤ 2) hexp
        gcongr

/-- **A value of at least a normal power of two does not round below it.** -/
theorem le_decode_encode {q : ℚ} {k : Int} (hk : f.minExponent + f.fraction ≤ k)
    (hq : (2 : ℚ) ^ k ≤ q) :
    f.decode (f.encode (.rat q)) = .infinite false ∨
      ∃ r : ℚ, (2 : ℚ) ^ k ≤ r ∧ f.decode (f.encode (.rat q)) = .rat r := by
  have hqpos : 0 < q := lt_of_lt_of_le (by positivity) hq
  have hn : q.num.natAbs ≠ 0 := by simpa using hqpos.ne'
  have hd : q.den ≠ 0 := q.den_nz
  obtain ⟨hlo, hhi⟩ := floorLog2_spec hn hd
  have hqdiv : (q.num.natAbs : ℚ) / q.den = q := by rw [← abs_eq_div, abs_of_pos hqpos]
  rw [hqdiv] at hlo hhi
  have hkK : k ≤ floorLog2 q.num.natAbs q.den := by
    have hlt := lt_of_le_of_lt hq hhi
    have := (zpow_lt_zpow_iff_right₀ (by norm_num : (1 : ℚ) < 2)).mp hlt
    omega
  obtain ⟨e, he⟩ : ∃ e, f.unitExponent q.num.natAbs q.den = e := ⟨_, rfl⟩
  have hemax : e = max f.minExponent (floorLog2 q.num.natAbs q.den - f.fraction) := he.symm
  have hmin : f.minExponent ≤ e := by omega
  have hfl : floorLog2 q.num.natAbs q.den = (f.fraction : Int) + e := by omega
  -- the quotient in units of the leading bit is at least that bit
  have hD : 0 < q.den * twoPow e.toNat := Nat.mul_pos q.den_pos (Nat.two_pow_pos _)
  have hunits : twoPow f.fraction ≤
      roundHalfEven (q.num.natAbs * twoPow (-e).toNat) (q.den * twoPow e.toNat) := by
    refine Nat.le_trans ?_ (div_le_roundHalfEven _ _)
    rw [Nat.le_div_iff_mul_le hD, ← Nat.cast_le (α := ℚ), Nat.cast_mul,
      ← le_div_iff₀ (by exact_mod_cast hD), shifted_div, hqdiv, zpow_neg, ← div_eq_mul_inv,
      le_div_iff₀ (by positivity), twoPow_eq, Nat.cast_pow, ← zpow_natCast, Nat.cast_ofNat,
      ← zpow_add₀ (by norm_num), ← hfl]
    exact hlo
  obtain ⟨bits, hbits⟩ : ∃ bits, bits = (e - f.minExponent).toNat * twoPow f.fraction +
      roundHalfEven (q.num.natAbs * twoPow (-e).toNat) (q.den * twoPow e.toNat) := ⟨_, rfl⟩
  have henc : f.encode (.rat q) = min f.infinityBits bits := by
    simp only [encode, magnitudeBits, if_neg hn, if_neg (not_lt.mpr hqpos.le), he, Nat.zero_add,
      hbits]
  rw [henc]
  by_cases hfin : f.infinityBits ≤ bits
  · left
    rw [Nat.min_eq_left hfin, f.decode_infinityBits]
  · right
    have hle : ((e - f.minExponent).toNat + 1) * twoPow f.fraction ≤ bits := by
      rw [hbits, Nat.add_mul]
      omega
    have hpos : 0 < twoPow f.fraction := Nat.two_pow_pos _
    have hne : bits ≠ 0 := by
      intro h0
      rw [h0, Nat.add_mul] at hle
      omega
    have hparts : f.parts bits = ((f.parts bits).1, (f.parts bits).2) := rfl
    have hdec := f.decode_magnitude false (Nat.lt_of_not_le hfin) hne hparts
    simp only [Bool.false_eq_true, if_false, Nat.zero_add] at hdec
    refine ⟨_, le_trans (zpow_le_zpow_right₀ (by norm_num) ?_) (f.le_scale_parts hmin hle), ?_⟩
    · omega
    · rw [Nat.min_eq_right (by omega), hdec]

end Format
end Relayout

import Relayout.Proofs.Nearest

/-!
# The nearest value of a format

The values of a format within one binade are the multiples of one unit, and all
values of the binades below are smaller than that binade. So the count of units
that rounding picks is the nearest of all values, not only of those of its own
binade, and between two that are equally near the one with the even word is
taken (`nearest_encode`).
-/

namespace Relayout

namespace Format

variable (f : Format)

/-! ## What it is to be nearest -/

/-- Some word of the format stands for the value. -/
def Represents (v : ℚ) : Prop :=
  ∃ bits, f.decode bits = .rat v

/-- Of the values of the format, `v` is the nearest to `q`; between two that are equally near it
is the one whose word is even. -/
structure Nearest (q v : ℚ) : Prop where
  represented : f.Represents v
  closest : ∀ w, f.Represents w → |q - v| ≤ |q - w|
  even : ∀ w, f.Represents w → w ≠ v → |q - w| = |q - v| →
    ∃ bits, f.decode bits = .rat v ∧ bits % 2 = 0

variable {f}

/-- A value of the format is nearest to itself. -/
theorem nearest_self {q : ℚ} (hq : f.Represents q) : f.Nearest q q where
  represented := hq
  closest w _ := by
    rw [sub_self, abs_zero]
    exact abs_nonneg _
  even w _ hne htie := by
    rw [sub_self, abs_zero, abs_eq_zero, sub_eq_zero] at htie
    exact absurd htie.symm hne

variable (f)

/-! ## Picking a count of units -/

/-- The rounded quotient is at most a half away, and less if it is odd. -/
theorem roundHalfEven_near {n d : Nat} (hd : d ≠ 0) :
    2 * (d * roundHalfEven n d) ≤ 2 * n + d ∧ 2 * n ≤ 2 * (d * roundHalfEven n d) + d ∧
      (roundHalfEven n d % 2 = 1 →
        2 * (d * roundHalfEven n d) < 2 * n + d ∧ 2 * n < 2 * (d * roundHalfEven n d) + d) := by
  have hsplit := Nat.div_add_mod n d
  have hrem := Nat.mod_lt n (Nat.pos_of_ne_zero hd)
  rcases Nat.lt_trichotomy (2 * (n % d)) d with hlt | htie | hgt
  · rw [roundHalfEven_down hlt.le fun h => absurd h hlt.ne]
    omega
  · rcases Nat.mod_two_eq_zero_or_one (n / d) with heven | hodd
    · rw [roundHalfEven_down htie.le fun _ => heven]
      omega
    · rw [roundHalfEven_up htie.ge fun _ => hodd, Nat.mul_succ]
      omega
  · rw [roundHalfEven_up hgt.le fun h => absurd h hgt.ne', Nat.mul_succ]
    omega

/-- A count of units that a positive value is rounded to. The value lies in the binade that is
measured in these units, or below all binades. -/
structure Picked (a : ℚ) (u : Nat) (e : Int) : Prop where
  near : Near u e a
  least : f.minExponent ≤ e
  normal : e = f.minExponent ∨ (2 : ℚ) ^ (e + f.fraction) ≤ a
  below : a < 2 ^ (e + f.fraction + 1)

theorem exists_picked {n d : Nat} (hn : n ≠ 0) (hd : d ≠ 0) :
    ∃ u e, f.Picked ((n : ℚ) / d) u e ∧ f.magnitudeBits n d =
      min f.infinityBits ((e - f.minExponent).toNat * twoPow f.fraction + u) := by
  obtain ⟨hlo, hhi⟩ := floorLog2_spec hn hd
  obtain ⟨e, he⟩ : ∃ e, f.unitExponent n d = e := ⟨_, rfl⟩
  have hmax : e = max f.minExponent (floorLog2 n d - f.fraction) := he.symm
  have hD : d * twoPow e.toNat ≠ 0 :=
    Nat.mul_ne_zero hd (Nat.pos_iff_ne_zero.mp (Nat.two_pow_pos _))
  obtain ⟨u, hu⟩ : ∃ u, roundHalfEven (n * twoPow (-e).toNat) (d * twoPow e.toNat) = u := ⟨_, rfl⟩
  have hD0 : (0 : ℚ) < (d * twoPow e.toNat : Nat) := by exact_mod_cast Nat.pos_of_ne_zero hD
  have hpos : (0 : ℚ) < 2 ^ e := by positivity
  -- a bound in units is one in whole numbers
  have hscale : ∀ x : ℚ, x * 2 ^ e ≤ (n : ℚ) / d ↔
      x * (d * twoPow e.toNat : Nat) ≤ (n * twoPow (-e).toNat : Nat) := by
    intro x
    rw [← le_div_iff₀ hD0, shifted_div, zpow_neg, ← div_eq_mul_inv, le_div_iff₀ hpos]
  have hscale' : ∀ x : ℚ, (n : ℚ) / d ≤ x * 2 ^ e ↔
      ((n * twoPow (-e).toNat : Nat) : ℚ) ≤ x * (d * twoPow e.toNat : Nat) := by
    intro x
    rw [← div_le_iff₀ hD0, shifted_div, zpow_neg, ← div_eq_mul_inv, div_le_iff₀ hpos]
  obtain ⟨hlow, hhigh, hodd⟩ := roundHalfEven_near (n := n * twoPow (-e).toNat) hD
  rw [hu] at hlow hhigh hodd
  have near : Near u e ((n : ℚ) / d) := by
    generalize n * twoPow (-e).toNat = N at *
    generalize d * twoPow e.toNat = D at *
    refine ⟨(hscale _).mpr ?_, (hscale' _).mpr ?_, fun h => ⟨?_, ?_⟩⟩
    · have hcast : (2 * (D * u) : ℚ) ≤ 2 * N + D := by exact_mod_cast hlow
      linarith
    · have hcast : (2 * N : ℚ) ≤ 2 * (D * u) + D := by exact_mod_cast hhigh
      linarith
    · have hcast : (2 * (D * u) : ℚ) < 2 * N + D := by exact_mod_cast (hodd h).1
      rw [← not_le, hscale', not_le]
      linarith
    · have hcast : (2 * N : ℚ) < 2 * (D * u) + D := by exact_mod_cast (hodd h).2
      rw [← not_le, hscale, not_le]
      linarith
  refine ⟨u, e, ⟨near, by omega, ?_, ?_⟩, f.magnitudeBits_of_unit hn hd he near⟩
  · rcases (by omega : e = f.minExponent ∨ e + f.fraction = floorLog2 n d) with h | h
    · exact Or.inl h
    · exact Or.inr (h ▸ hlo)
  · exact lt_of_lt_of_le hhi (zpow_le_zpow_right₀ (by norm_num) (by omega))

namespace Picked

variable {f} {a : ℚ} {u : Nat} {e : Int}

/-- The units of its own binade are nowhere nearer. -/
theorem le_grid (h : f.Picked a u e) (k : Nat) :
    |a - u * 2 ^ e| ≤ |a - k * 2 ^ e| ∧
      (k ≠ u → u % 2 = 1 → |a - u * 2 ^ e| < |a - k * 2 ^ e|) := by
  have hpos : (0 : ℚ) < 2 ^ e := by positivity
  have hlow := h.near.low
  have hhigh := h.near.high
  have hhalf : |a - u * 2 ^ e| ≤ 2 ^ e / 2 := abs_le.mpr ⟨by linarith, by linarith⟩
  rcases Nat.lt_trichotomy k u with hlt | rfl | hgt
  · have hcast : (k : ℚ) + 1 ≤ u := by exact_mod_cast hlt
    have hstep : (k : ℚ) * 2 ^ e + 2 ^ e ≤ u * 2 ^ e := by nlinarith
    have hfar := le_abs_self (a - k * 2 ^ e)
    refine ⟨by linarith, fun _ hodd => ?_⟩
    have hstrict := (h.near.odd hodd).1
    linarith
  · exact ⟨le_refl _, fun hne => absurd rfl hne⟩
  · have hcast : (u : ℚ) + 1 ≤ k := by exact_mod_cast hgt
    have hstep : (u : ℚ) * 2 ^ e + 2 ^ e ≤ k * 2 ^ e := by nlinarith
    have hfar := neg_abs_le (a - k * 2 ^ e)
    refine ⟨by linarith, fun _ hodd => ?_⟩
    have hstrict := (h.near.odd hodd).2
    linarith

/-- **No count of other units is nearer.** In finer units all that the fraction holds lies below
the binade. -/
theorem le_units (h : f.Picked a u e) {units : Nat} {e' : Int}
    (hunits : units < 2 * twoPow f.fraction) (he' : f.minExponent ≤ e') :
    |a - u * 2 ^ e| ≤ |a - units * 2 ^ e'| ∧
      ((units : ℚ) * 2 ^ e' ≠ u * 2 ^ e → u % 2 = 1 →
        |a - u * 2 ^ e| < |a - units * 2 ^ e'|) := by
  rcases le_or_gt e e' with hcoarse | hfine
  · have hgrid : (units : ℚ) * 2 ^ e' = (units * 2 ^ (e' - e).toNat : Nat) * 2 ^ e := by
      push_cast
      rw [mul_assoc, ← zpow_natCast, Int.toNat_of_nonneg (by omega), ← zpow_add₀ (by norm_num),
        Int.sub_add_cancel]
    rw [hgrid]
    obtain ⟨hle, hlt⟩ := h.le_grid (units * 2 ^ (e' - e).toNat)
    refine ⟨hle, fun hne => hlt fun heq => hne ?_⟩
    rw [heq]
  · have hbinade : (2 : ℚ) ^ (e + f.fraction) ≤ a := h.normal.resolve_left (by omega)
    have hbelow : (units : ℚ) * 2 ^ e' < 2 ^ (e + f.fraction) := by
      have hcast : (units : ℚ) < 2 * twoPow f.fraction := by exact_mod_cast hunits
      calc (units : ℚ) * 2 ^ e' < 2 * twoPow f.fraction * 2 ^ e' := by gcongr
        _ = 2 ^ (e' + 1 + f.fraction) := by
          rw [f.two_zpow_add_fraction, zpow_add_one₀ (by norm_num)]
          ring
        _ ≤ 2 ^ (e + f.fraction) := zpow_le_zpow_right₀ (by norm_num) (by omega)
    have hclose := (h.le_grid (twoPow f.fraction)).1
    rw [← f.two_zpow_add_fraction, abs_of_nonneg (sub_nonneg.mpr hbinade)] at hclose
    have hlt : |a - u * 2 ^ e| < |a - units * 2 ^ e'| :=
      lt_of_le_of_lt hclose (lt_of_lt_of_le (by linarith) (le_abs_self _))
    exact ⟨hlt.le, fun _ _ => hlt⟩

theorem units_le (h : f.Picked a u e) : u ≤ 2 * twoPow f.fraction := by
  have hpos : (0 : ℚ) < 2 ^ e := by positivity
  have hbelow := h.below
  have hlow := h.near.low
  rw [zpow_add_one₀ (by norm_num), f.two_zpow_add_fraction] at hbelow
  have hlt : (u : ℚ) < (2 * twoPow f.fraction + 1 : Nat) := by
    push_cast
    nlinarith
  exact Nat.le_of_lt_succ (by exact_mod_cast hlt)

theorem normal_units (h : f.Picked a u e) : e = f.minExponent ∨ twoPow f.fraction ≤ u := by
  refine h.normal.imp_right fun hbinade => ?_
  have hpos : (0 : ℚ) < 2 ^ e := by positivity
  have hhigh := h.near.high
  rw [f.two_zpow_add_fraction] at hbinade
  have hlt : (twoPow f.fraction : ℚ) < (u + 1 : Nat) := by
    push_cast
    nlinarith
  exact Nat.le_of_lt_succ (by exact_mod_cast hlt)

theorem units_ne_zero (h : f.Picked a u e) (ha : (2 : ℚ) ^ f.minExponent ≤ a) : u ≠ 0 := by
  rintro rfl
  have hpos : (0 : ℚ) < 2 ^ f.minExponent := by positivity
  rcases h.normal_units with rfl | hle
  · have hhigh := h.near.high
    push_cast at hhigh
    linarith
  · have hfull : 0 < twoPow f.fraction := Nat.two_pow_pos _
    omega

/-- The bits stand for the count of units, also where it carries into the next binade. -/
theorem scale_parts (h : f.Picked a u e) :
    scale (f.parts ((e - f.minExponent).toNat * twoPow f.fraction + u)).1
      (f.parts ((e - f.minExponent).toNat * twoPow f.fraction + u)).2 = u * 2 ^ e := by
  have hpos : 0 < twoPow f.fraction := Nat.two_pow_pos _
  have hleast := h.least
  rcases Nat.lt_or_eq_of_le h.units_le with hlt | rfl
  · rw [f.parts_add hlt h.least h.normal_units, scale_eq]
  · have hcarry : (e - f.minExponent).toNat * twoPow f.fraction + 2 * twoPow f.fraction =
        (e + 1 - f.minExponent).toNat * twoPow f.fraction + twoPow f.fraction := by
      have hsteps : (e + 1 - f.minExponent).toNat = (e - f.minExponent).toNat + 1 := by omega
      rw [hsteps]
      ring
    rw [hcarry, f.parts_add (by omega) (by omega) (Or.inr le_rfl), scale_eq,
      zpow_add_one₀ (by norm_num)]
    push_cast
    ring

theorem bits_lt (h : f.Picked a u e) (hexp : 2 ≤ f.exponent)
    (hfin : e + f.fraction + 1 < (twoPow (f.exponent - 1) : Int)) :
    (e - f.minExponent).toNat * twoPow f.fraction + u < f.infinityBits := by
  have hpos : 0 < twoPow f.fraction := Nat.two_pow_pos _
  have hleast := h.least
  have hsteps : (e + 1 - f.minExponent).toNat = (e - f.minExponent).toNat + 1 := by omega
  calc (e - f.minExponent).toNat * twoPow f.fraction + u
      ≤ (e + 1 - f.minExponent).toNat * twoPow f.fraction + twoPow f.fraction := by
        rw [hsteps, Nat.succ_mul]
        have := h.units_le
        omega
    _ < f.infinityBits := f.bits_lt_infinityBits hexp (by omega) (Or.inr (by omega))

end Picked

/-! ## Encoding takes the nearest value -/

/-- A finite value, without its sign, is a count of units. -/
theorem Represents.units {f : Format} {w : ℚ} (hexp : 2 ≤ f.exponent) (h : f.Represents w) :
    ∃ (units : Nat) (e : Int), |w| = units * 2 ^ e ∧ units < 2 * twoPow f.fraction ∧
      f.minExponent ≤ e := by
  obtain ⟨bits, hbits⟩ := h
  obtain ⟨units, e, hw, hunits, he, -⟩ := f.units_of_decode hexp hbits
  exact ⟨units, e, hw, hunits, he⟩

/-- A value with the sign of `q` whose magnitude was picked is nearest to `q`. -/
theorem Picked.nearest {f : Format} {q r : ℚ} {u : Nat} {e : Int} {bits : Nat}
    (hexp : 2 ≤ f.exponent) (hq0 : q ≠ 0) (h : f.Picked |q| u e) (hr : r = u * 2 ^ e)
    (hdecode : f.decode bits = .rat (if q < 0 then -r else r)) (hbits : bits % 2 = u % 2) :
    f.Nearest q (if q < 0 then -r else r) := by
  obtain ⟨v, hv⟩ : ∃ v, (if q < 0 then -r else r) = v := ⟨_, rfl⟩
  have hr0 : 0 ≤ r := by
    rw [hr]
    positivity
  have hpos : 0 < |q| := abs_pos.mpr hq0
  -- on its own side of zero the distance is that of the magnitudes
  have hdist : |q - v| = |(|q| - r)| ∧ |q - -v| = |q| + r ∧ |v| = r := by
    rw [← hv]
    by_cases hneg : q < 0
    · rw [if_pos hneg, abs_of_neg hneg, neg_neg, abs_neg, abs_of_nonneg hr0]
      refine ⟨?_, ?_, rfl⟩
      · rw [← abs_neg]
        congr 1
        ring
      · rw [abs_of_neg (by linarith)]
        ring
    · have hnonneg := not_lt.mp hneg
      rw [if_neg hneg, abs_of_nonneg hnonneg, abs_of_nonneg hr0]
      refine ⟨rfl, ?_, rfl⟩
      rw [sub_neg_eq_add, abs_of_nonneg (by linarith)]
  obtain ⟨hsame, hother, habs⟩ := hdist
  rw [hv] at hdecode ⊢
  refine ⟨⟨bits, hdecode⟩, fun w hw => ?_, fun w hw hne htie => ⟨bits, hdecode, ?_⟩⟩
  · obtain ⟨units, e', hunits, hlt, he'⟩ := hw.units hexp
    calc |q - v| = |(|q| - u * 2 ^ e)| := by rw [hsame, hr]
      _ ≤ |(|q| - |w|)| := hunits ▸ (h.le_units hlt he').1
      _ ≤ |q - w| := abs_abs_sub_abs_le q w
  · by_contra hodd
    have hodd : u % 2 = 1 := by omega
    obtain ⟨units, e', hunits, hlt, he'⟩ := hw.units hexp
    by_cases hmag : |w| = r
    · -- of the two values of this magnitude the other one is farther away
      have hrpos : 0 < r := by
        rw [hr]
        have hu : 0 < u := by omega
        positivity
      have hneg : w = -v := (abs_eq_abs.mp (hmag.trans habs.symm)).resolve_left hne
      rw [hneg, hother, hsame] at htie
      have hlt : |(|q| - r)| < |q| + r := abs_lt.mpr ⟨by linarith, by linarith⟩
      exact hlt.ne htie.symm
    · have hstrict := (h.le_units hlt he').2 (by rwa [← hunits, ← hr]) hodd
      rw [← hunits, ← hr, ← hsame] at hstrict
      exact (lt_of_lt_of_le hstrict (abs_abs_sub_abs_le q w)).ne htie.symm

theorem signBit_even (hfrac : f.fraction ≠ 0) : f.signBit % 2 = 0 :=
  twoPow_even (by omega)

/-- **Encoding takes the nearest value**, if the number is neither as large as the last power of
two nor below all units. -/
theorem nearest_encode {q : ℚ} (hexp : 2 ≤ f.exponent) (hfrac : f.fraction ≠ 0)
    (hq : q = 0 ∨ (2 : ℚ) ^ f.minExponent ≤ |q|)
    (hfin : |q| < 2 ^ ((twoPow (f.exponent - 1) : Int) - 1)) :
    ∃ v, f.decode (f.encode (.rat q)) = .rat v ∧ f.Nearest q v := by
  rcases eq_or_ne q 0 with rfl | hq0
  · have hzero := f.decode_encode_zero hexp
    exact ⟨0, hzero, nearest_self ⟨_, hzero⟩⟩
  have hn : q.num.natAbs ≠ 0 := by simpa using hq0
  obtain ⟨u, e, hpicked, hbits⟩ := f.exists_picked hn q.den_nz
  rw [← abs_eq_div] at hpicked
  have hu := hpicked.units_ne_zero (hq.resolve_left hq0)
  have hhalf : 2 ≤ twoPow (f.exponent - 1) := Nat.le_self_pow (by omega) 2
  have hmin : f.minExponent = 2 - (twoPow (f.exponent - 1) : Int) - f.fraction := rfl
  have hlast : e + f.fraction + 1 < (twoPow (f.exponent - 1) : Int) := by
    rcases hpicked.normal with rfl | hbinade
    · omega
    · have := (zpow_lt_zpow_iff_right₀ (by norm_num : (1 : ℚ) < 2)).mp (lt_of_le_of_lt hbinade hfin)
      omega
  have hlt := hpicked.bits_lt hexp hlast
  have hencode : f.encode (.rat q) = (if decide (q < 0) = true then f.signBit else 0) +
      ((e - f.minExponent).toNat * twoPow f.fraction + u) := by
    rw [encode, hbits, Nat.min_eq_right hlt.le]
    simp
  have hdecode := f.decode_magnitude (decide (q < 0)) hlt (by omega) (Prod.eta (f.parts _)).symm
  rw [← hencode, hpicked.scale_parts] at hdecode
  simp only [decide_eq_true_eq] at hdecode
  have hsign := f.signBit_even hfrac
  have hsteps : (e - f.minExponent).toNat * twoPow f.fraction % 2 = 0 := by
    rw [Nat.mul_mod, twoPow_even hfrac, Nat.mul_zero, Nat.zero_mod]
  refine ⟨_, hdecode, hpicked.nearest hexp hq0 rfl hdecode ?_⟩
  rw [hencode]
  split
  · omega
  · omega

end Format

end Relayout

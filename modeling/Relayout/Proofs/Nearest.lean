import Relayout.Proofs.Rounding

/-!
# What rounds to a value

A value of a format is a count of units. Whatever lies within half a unit of it
is rounded to it, where an end counts only if the count is even, and just below
the least value of a binade the units are half as large
(`magnitudeBits_of_near`).
-/

namespace Relayout

namespace Format

variable (f : Format)

/-- Bits are their units, or on top of them the leading bit of a normal value. -/
theorem parts_spec {bits units : Nat} {e : Int} (h : f.parts bits = (units, e)) :
    bits = (e - f.minExponent).toNat * twoPow f.fraction + units ∧
      units < 2 * twoPow f.fraction ∧ f.minExponent ≤ e ∧
        (e = f.minExponent ∨ twoPow f.fraction ≤ units) := by
  have hpos : 0 < twoPow f.fraction := Nat.two_pow_pos _
  have hlow := Nat.mod_lt bits hpos
  have hsplit := Nat.div_add_mod bits (twoPow f.fraction)
  simp only [parts] at h
  split at h
  · rename_i hzero
    obtain ⟨rfl, rfl⟩ := Prod.mk.inj h
    rw [hzero, Nat.mul_zero, Nat.zero_add] at hsplit
    rw [Int.sub_self, Int.toNat_zero, Nat.zero_mul, Nat.zero_add]
    exact ⟨hsplit.symm, by omega, le_refl _, Or.inl rfl⟩
  · rename_i hbiased
    obtain ⟨rfl, rfl⟩ := Prod.mk.inj h
    have hsteps : (f.minExponent + (((bits / twoPow f.fraction : Nat) : Int) - 1) -
        f.minExponent).toNat = bits / twoPow f.fraction - 1 := by omega
    obtain ⟨k, hk⟩ : ∃ k, bits / twoPow f.fraction = k + 1 := ⟨_, (Nat.succ_pred hbiased).symm⟩
    rw [hsteps, hk]
    rw [hk, Nat.mul_add, Nat.mul_one, Nat.mul_comm] at hsplit
    refine ⟨?_, by omega, by omega, Or.inr (by omega)⟩
    rw [Nat.add_sub_cancel]
    omega

theorem twoPow_even {k : Nat} (hk : k ≠ 0) : twoPow k % 2 = 0 := by
  obtain ⟨j, rfl⟩ := Nat.exists_eq_succ_of_ne_zero hk
  rw [twoPow_eq, pow_succ, Nat.mul_mod_left]

/-- What is near to a count within the fraction lies below the next binade. -/
theorem Near.lt_binade {u : Nat} {e : Int} {q : ℚ} (near : Near u e q) (hfrac : f.fraction ≠ 0)
    (hunits : u < 2 * twoPow f.fraction) : q < 2 ^ (e + f.fraction + 1) := by
  have hpos : (0 : ℚ) < 2 ^ e := by positivity
  have heven := twoPow_even hfrac
  rw [zpow_add₀ (by norm_num), f.two_zpow_add_fraction, zpow_one]
  rcases Nat.lt_or_ge (u + 1) (2 * twoPow f.fraction) with hlt | hge
  · have hcast : (u : ℚ) + 1 ≤ 2 * twoPow f.fraction := by exact_mod_cast hlt.le
    nlinarith [near.high]
  · have hcast : (u : ℚ) + 1 = 2 * twoPow f.fraction := by exact_mod_cast (by omega)
    nlinarith [(near.odd (by omega)).2]

/-- Just below the least value of a binade the units are half as large, so only a
quarter of one leads back up. -/
theorem magnitudeBits_below_binade {n d u : Nat} {e : Int} (hn : n ≠ 0) (hd : d ≠ 0)
    (hu : u = twoPow f.fraction) (he : f.minExponent < e)
    (hnarrow : ((u : ℚ) - 1 / 4) * 2 ^ e ≤ (n : ℚ) / d)
    (hlt : (n : ℚ) / d < 2 ^ (e + f.fraction)) :
    f.magnitudeBits n d =
      min f.infinityBits ((e - f.minExponent).toNat * twoPow f.fraction + u) := by
  have htwo : (1 : ℚ) < 2 := by norm_num
  have hpos : (0 : ℚ) < 2 ^ (e - 1) := by positivity
  have hwidth := f.two_zpow_add_fraction e
  obtain ⟨hlo, hhi⟩ := floorLog2_spec hn hd
  have hone : (1 : ℚ) ≤ u := by
    rw [hu]
    exact_mod_cast Nat.two_pow_pos _
  have hhalf : (2 : ℚ) ^ e = 2 * 2 ^ (e - 1) := by
    rw [zpow_sub_one₀ (by norm_num)]
    ring
  have hunit : f.unitExponent n d = e - 1 := by
    have hge : (2 : ℚ) ^ (e + f.fraction - 1) ≤ (n : ℚ) / d := by
      rw [zpow_sub_one₀ (by norm_num), hwidth, ← hu]
      nlinarith
    have habove := (zpow_lt_zpow_iff_right₀ htwo).mp (lt_of_le_of_lt hge hhi)
    have hbelow := (zpow_lt_zpow_iff_right₀ htwo).mp (lt_of_le_of_lt hlo hlt)
    rw [unitExponent]
    omega
  -- the value is near to twice the count in half the unit
  have near : Near (2 * u) (e - 1) ((n : ℚ) / d) := by
    rw [hwidth, ← hu, hhalf] at hlt
    rw [hhalf] at hnarrow
    refine ⟨?_, ?_, fun h => absurd h (by omega)⟩
    all_goals
      push_cast
      linarith
  have hsteps : (e - f.minExponent).toNat = (e - 1 - f.minExponent).toNat + 1 := by omega
  rw [f.magnitudeBits_of_unit hn hd hunit near, hsteps, Nat.add_mul, hu]
  congr 1
  omega

/-- **What is near to a value is rounded to it.** -/
theorem magnitudeBits_of_near {n d u : Nat} {e : Int} (hn : n ≠ 0) (hd : d ≠ 0)
    (hfrac : f.fraction ≠ 0) (hunits : u < 2 * twoPow f.fraction) (he : f.minExponent ≤ e)
    (hnormal : e = f.minExponent ∨ twoPow f.fraction ≤ u) (near : Near u e ((n : ℚ) / d))
    (hnarrow : e ≠ f.minExponent → u = twoPow f.fraction → ((u : ℚ) - 1 / 4) * 2 ^ e ≤ (n : ℚ) / d) :
    f.magnitudeBits n d =
      min f.infinityBits ((e - f.minExponent).toNat * twoPow f.fraction + u) := by
  have htwo : (1 : ℚ) < 2 := by norm_num
  obtain ⟨hlo, hhi⟩ := floorLog2_spec hn hd
  have hbelow := (zpow_lt_zpow_iff_right₀ htwo).mp
    (lt_of_le_of_lt hlo (near.lt_binade f hfrac hunits))
  by_cases hbinade : e = f.minExponent ∨ (2 : ℚ) ^ (e + f.fraction) ≤ (n : ℚ) / d
  · refine f.magnitudeBits_of_unit hn hd ?_ near
    rw [unitExponent]
    rcases hbinade with hmin | hge
    · omega
    · have habove := (zpow_lt_zpow_iff_right₀ htwo).mp (lt_of_le_of_lt hge hhi)
      omega
  · rw [not_or, not_le] at hbinade
    obtain ⟨hne, hlt⟩ := hbinade
    have hu : u = twoPow f.fraction := by
      have hge := hnormal.resolve_left hne
      have hpos : (0 : ℚ) < 2 ^ e := by positivity
      have hcast : (u : ℚ) < twoPow f.fraction + 1 := by
        rw [f.two_zpow_add_fraction] at hlt
        nlinarith [near.low]
      have hle : u < twoPow f.fraction + 1 := by exact_mod_cast hcast
      omega
    exact f.magnitudeBits_below_binade hn hd hu (lt_of_le_of_ne he (Ne.symm hne)) (hnarrow hne hu) hlt

end Format

end Relayout

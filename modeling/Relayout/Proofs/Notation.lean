import Relayout.Proofs.Numerals
import Relayout.Proofs.Shortest

/-!
# Written numbers are numerals

Laying out digits moves the point and the power of ten, never the value. With the
shortest decimal this makes every finite double a numeral that denotes it
(`numeral_toText`); only the sign of zero is not written.
-/

namespace Relayout.Num

open Relayout.Json

/-! ## Reading a decimal that rounds to a double -/

/-- The powers that are cut off lie outside the range of doubles. -/
theorem exponent_bounds {m : Nat} {k : Int} (hm : m ≠ 0)
    (hlow : (10 : ℚ) ^ (-400 : Int) ≤ m * 10 ^ k) (hhigh : (m : ℚ) * 10 ^ k ≤ 10 ^ (400 : Int)) :
    ¬400 < k ∧ ¬k + m.log2 < -400 := by
  have hten : (1 : ℚ) < 10 := by norm_num
  have hone : (1 : ℚ) ≤ m := by exact_mod_cast Nat.pos_of_ne_zero hm
  have hpos : (0 : ℚ) < 10 ^ k := by positivity
  constructor
  · intro hk
    have hle : (10 : ℚ) ^ k ≤ 10 ^ (400 : Int) :=
      le_trans (le_mul_of_one_le_left hpos.le hone) hhigh
    have := (zpow_le_zpow_iff_right₀ hten).mp hle
    omega
  · intro hk
    have hlog : (m : ℚ) < 10 ^ ((m.log2 : Int) + 1) := by
      have htwo : (m : ℚ) < 2 ^ (m.log2 + 1) := by exact_mod_cast Nat.lt_log2_self
      have hpow : (2 : ℚ) ^ (m.log2 + 1) ≤ 10 ^ (m.log2 + 1) := by gcongr; norm_num
      exact_mod_cast htwo.trans_le hpow
    have hlt : (10 : ℚ) ^ (-400 : Int) < 10 ^ ((m.log2 : Int) + 1 + k) := by
      rw [zpow_add₀ (by norm_num)]
      exact lt_of_le_of_lt hlow (mul_lt_mul_of_pos_right hlog hpos)
    have := (zpow_lt_zpow_iff_right₀ hten).mp hlt
    omega

theorem ofDecimal_of_round {m : Nat} {k : Int} {q : ℚ} (negative : Bool) (hm : m ≠ 0)
    (hbounds : (10 : ℚ) ^ (-400 : Int) ≤ m * 10 ^ k ∧ (m : ℚ) * 10 ^ k ≤ 10 ^ (400 : Int))
    (hq : q ≠ 0) (hplus : round (m * 10 ^ k) = .rat q) (hminus : round (-(m * 10 ^ k)) = .rat (-q)) :
    ofDecimal negative m k = .rat (if negative then -q else q) := by
  obtain ⟨hhigh, hlow⟩ := exponent_bounds hm hbounds.1 hbounds.2
  have hvalue : mkRat (m * tenPow k.toNat) (tenPow (-k).toNat) = (m : ℚ) * 10 ^ k := by
    rw [Rat.mkRat_eq_div, Shortest.zpow_eq_div, tenPow, tenPow, Nat.pow_eq, Nat.pow_eq]
    push_cast
    rw [mul_div_assoc]
  rw [ofDecimal, if_neg hm, if_neg hhigh, if_neg hlow, hvalue]
  cases negative with
  | false => simp [hplus, hq]
  | true => simp [hminus, hq]

/-! ## Laying out digits -/

/-- A whole part alone is a number. -/
theorem unsigned_whole {w : Text} (negative : Bool) (h : Whole w) :
    Unsigned negative w (ofDecimal negative (Text.natValue w) 0) := by
  have hnumber : Unsigned negative _ _ := Unsigned.mk h Fraction.none Power.none
  simpa using hnumber

/-- A number without its sign whose digits and power of ten come to a value. -/
def Amounts (t : Text) (r : ℚ) : Prop :=
  ∀ negative, ∃ (m : Nat) (k : Int),
    Unsigned negative t (ofDecimal negative m k) ∧ (m : ℚ) * 10 ^ k = r

theorem digits_zeros (n : Nat) : Text.Digits (List.replicate n (Text.digit 0)) := by
  intro v hv
  rw [List.eq_of_mem_replicate hv]
  decide

section LayOut

variable {u : UInt16} {rest : Text} {point : Int}

/-- Zeros up to the point. -/
theorem amounts_padded (hdigits : Text.Digits (u :: rest)) (hu : u ≠ Text.digit 0) (n : Nat) :
    Amounts (u :: rest ++ List.replicate n (Text.digit 0))
      (Text.natValue (u :: rest) * 10 ^ (n : Int)) := by
  intro negative
  have hwhole : Whole (u :: rest ++ List.replicate n (Text.digit 0)) :=
    Whole.digits hu (Text.digits_append.mpr ⟨hdigits, digits_zeros n⟩)
  refine ⟨_, _, unsigned_whole negative hwhole, ?_⟩
  rw [Text.natValue_append, Text.natValue_zeros, List.length_replicate, Nat.add_zero, zpow_zero,
    mul_one, zpow_natCast]
  push_cast
  rfl

/-- The point among the digits. -/
theorem amounts_pointed (hdigits : Text.Digits (u :: rest)) (hu : u ≠ Text.digit 0) {n : Nat}
    (hn : n < rest.length) :
    Amounts ((u :: rest).take (n + 1) ++ (Text.unit '.' :: (u :: rest).drop (n + 1)))
      (Text.natValue (u :: rest) * 10 ^ ((n : Int) - rest.length)) := by
  intro negative
  have hsplit : (u :: rest).take (n + 1) ++ (u :: rest).drop (n + 1) = u :: rest :=
    List.take_append_drop _ _
  have hparts := Text.digits_append.mp (hsplit ▸ hdigits)
  have hwhole : Whole ((u :: rest).take (n + 1)) := Whole.digits hu hparts.1
  have hne : (u :: rest).drop (n + 1) ≠ [] := by
    rw [ne_eq, List.drop_eq_nil_iff, List.length_cons]
    omega
  have hnumber : Unsigned negative _ _ :=
    Unsigned.mk hwhole (Fraction.point hne hparts.2) Power.none
  rw [List.append_nil, hsplit] at hnumber
  refine ⟨_, _, hnumber, ?_⟩
  rw [List.length_drop, List.length_cons]
  congr 2
  omega

/-- Zeros between the point and the digits. -/
theorem amounts_small (hdigits : Text.Digits (u :: rest)) (n : Nat) :
    Amounts ([Text.digit 0, Text.unit '.'] ++ List.replicate n (Text.digit 0) ++ (u :: rest))
      (Text.natValue (u :: rest) * 10 ^ (-(n : Int) - (u :: rest).length)) := by
  intro negative
  have hds : Text.Digits (List.replicate n (Text.digit 0) ++ (u :: rest)) :=
    Text.digits_append.mpr ⟨digits_zeros n, hdigits⟩
  have hnumber : Unsigned negative _ _ :=
    Unsigned.mk Whole.zero (Fraction.point (by simp) hds) Power.none
  rw [List.append_nil] at hnumber
  refine ⟨_, _, hnumber, ?_⟩
  have hzero : Text.natValue [Text.digit 0] = 0 := rfl
  rw [Text.natValue_append, hzero, Nat.zero_mul, Nat.zero_add, Text.natValue_append,
    Text.natValue_zeros, Nat.zero_mul, Nat.zero_add, List.length_append, List.length_replicate]
  congr 2
  push_cast
  omega

/-- One digit before the point, and a power of ten with its sign. -/
theorem amounts_scientific (hdigits : Text.Digits (u :: rest)) (hu : u ≠ Text.digit 0) (e : Int) :
    Amounts ([u] ++ (if (u :: rest).length ≤ 1 then [] else Text.unit '.' :: rest) ++
        [Text.unit 'e', if e < 0 then Text.unit '-' else Text.unit '+'] ++ Text.ofNat e.natAbs)
      (Text.natValue (u :: rest) * 10 ^ (e - rest.length)) := by
  intro negative
  have hwhole : Whole [u] := Whole.digits hu fun v hv => hdigits v (by
    rw [List.mem_singleton.mp hv]
    exact List.mem_cons_self)
  have hfraction : Fraction (if (u :: rest).length ≤ 1 then [] else Text.unit '.' :: rest) rest := by
    cases rest with
    | nil => exact Fraction.none
    | cons v rest =>
        rw [if_neg (by simp)]
        exact Fraction.point (List.cons_ne_nil _ _) fun w hw => hdigits w (List.mem_cons_of_mem _ hw)
  have hmark : IsMark (Text.unit 'e') := Or.inl rfl
  have hpower : Power ([Text.unit 'e', if e < 0 then Text.unit '-' else Text.unit '+'] ++
      Text.ofNat e.natAbs) e := by
    by_cases he : e < 0
    · have hvalue : e = -(Text.natValue (Text.ofNat e.natAbs) : Int) := by
        rw [Text.natValue_ofNat]
        omega
      rw [if_pos he]
      conv => arg 2; rw [hvalue]
      exact Power.minus hmark (Text.ofNat_ne_nil _) (Text.digits_ofNat _)
    · have hvalue : e = (Text.natValue (Text.ofNat e.natAbs) : Int) := by
        rw [Text.natValue_ofNat]
        omega
      rw [if_neg he]
      conv => arg 2; rw [hvalue]
      exact Power.plus hmark (Text.ofNat_ne_nil _) (Text.digits_ofNat _)
  have hnumber : Unsigned negative _ _ := Unsigned.mk hwhole hfraction hpower
  refine ⟨_, _, ?_, rfl⟩
  rwa [List.append_assoc, List.append_assoc]

/-- **Digits laid out are a number of the same value**, wherever the point falls. -/
theorem amounts_layOut (hdigits : Text.Digits (u :: rest)) (hu : u ≠ Text.digit 0) (point : Int) :
    Amounts (layOut (u :: rest) point)
      (Text.natValue (u :: rest) * 10 ^ (point - ((u :: rest).length : Int))) := by
  have hlen : (u :: rest).length = rest.length + 1 := rfl
  simp only [layOut]
  split
  · rename_i hpoint
    have hn : ((point - ((u :: rest).length : Int)).toNat : Int) = point - (u :: rest).length :=
      Int.toNat_of_nonneg (by omega)
    rw [← hn]
    exact amounts_padded hdigits hu _
  · split
    · rename_i hpoint
      obtain ⟨p, rfl⟩ := Int.eq_ofNat_of_zero_le hpoint.1.le
      obtain ⟨n, rfl⟩ := Nat.exists_eq_succ_of_ne_zero (n := p) (by omega)
      have hn : n < rest.length := by omega
      have hexp : ((n + 1 : Nat) : Int) - ((u :: rest).length : Int) = (n : Int) - rest.length := by
        omega
      rw [Int.toNat_natCast, List.append_assoc, List.singleton_append, Nat.succ_eq_add_one, hexp]
      exact amounts_pointed hdigits hu hn
    · split
      · rename_i hpoint
        have hn : point = -((-point).toNat : Int) := by omega
        conv => arg 2; rw [hn]
        exact amounts_small hdigits _
      · have hexp : point - ((u :: rest).length : Int) = point - 1 - rest.length := by omega
        rw [hexp]
        exact amounts_scientific hdigits hu _

end LayOut

/-! ## Finite doubles -/

theorem dropTrailingZeros_spec (digits : Text) :
    ∃ k, digits = dropTrailingZeros digits ++ List.replicate k (Text.digit 0) := by
  have hzeros : ∀ u ∈ digits.reverse.takeWhile (· = Text.digit 0), u = Text.digit 0 := by
    intro u hu
    simpa using List.mem_takeWhile_imp hu
  refine ⟨(digits.reverse.takeWhile (· = Text.digit 0)).length, ?_⟩
  have hsplit := List.takeWhile_append_dropWhile (p := (· = Text.digit 0)) (l := digits.reverse)
  rw [List.eq_replicate_of_mem hzeros] at hsplit
  have hback := congrArg List.reverse hsplit
  rw [List.reverse_append, List.reverse_replicate, List.reverse_reverse] at hback
  exact hback.symm

/-- A natural number is a whole part. -/
theorem whole_ofNat (n : Nat) : Whole (Text.ofNat n) := by
  by_cases hn : n = 0
  · subst hn
    exact Whole.zero
  · obtain ⟨u, rest, hdigits, hu⟩ := Text.head_ofNat hn
    have hds := Text.digits_ofNat n
    rw [hdigits] at hds ⊢
    exact Whole.digits hu hds

theorem amounts_ofNat (n : Nat) : Amounts (Text.ofNat n) n := by
  intro negative
  refine ⟨_, _, unsigned_whole negative (whole_ofNat n), ?_⟩
  rw [Text.natValue_ofNat, zpow_zero, mul_one]

/-- The digits of a decimal without the zeros at their end, laid out, come to its value. -/
theorem amounts_decimal {d : Decimal} (hd : d.digits ≠ 0) :
    Amounts (layOut (dropTrailingZeros (Text.ofNat d.digits))
      ((Text.ofNat d.digits).length + d.exponent)) d.value := by
  obtain ⟨u, rest, hall, hu⟩ := Text.head_ofNat hd
  obtain ⟨k, hk⟩ := dropTrailingZeros_spec (Text.ofNat d.digits)
  have hdigits := Text.digits_ofNat d.digits
  have hvalue := Text.natValue_ofNat d.digits
  have hlength := congrArg List.length hk
  rw [hk] at hdigits hvalue
  rw [Text.natValue_append, Text.natValue_zeros, List.length_replicate, Nat.add_zero] at hvalue
  rw [List.length_append, List.length_replicate] at hlength
  cases hkept : dropTrailingZeros (Text.ofNat d.digits) with
  | nil =>
      rw [hkept, hall, List.nil_append] at hk
      exact absurd (List.eq_of_mem_replicate (hk ▸ List.mem_cons_self)) hu
  | cons v kept =>
      rw [hkept] at hdigits hvalue hlength hk
      rw [hall] at hk
      obtain ⟨rfl, -⟩ := List.cons.inj hk
      have hamounts := amounts_layOut (Text.digits_append.mp hdigits).1 hu
        ((Text.ofNat d.digits).length + d.exponent)
      have hshift : (((Text.ofNat d.digits).length : Int) + d.exponent) - ((u :: kept).length : Int) =
          (k : Int) + d.exponent := by omega
      have hsame : (Text.natValue (u :: kept) : ℚ) * 10 ^ ((k : Int) + d.exponent) = d.value := by
        rw [Decimal.value, ← hvalue, zpow_add₀ (by norm_num), zpow_natCast]
        push_cast
        ring
      rwa [hshift, hsame] at hamounts

/-- What is written for a positive double comes to a value that rounds to it. -/
theorem amounts_positiveText {q : ℚ} (hq : 0 < q) (hfinite : (Num.rat q).Finite) :
    ∃ r, (Shortest.around q).Contains r ∧ Amounts (positiveText q) r := by
  obtain ⟨hself, hunits⟩ := Shortest.contains_self hq hfinite
  rw [positiveText]
  split
  · rename_i hwhole
    refine ⟨q, hself, ?_⟩
    have hnat : (q.num.natAbs : ℚ) = q := by
      have habs := Format.abs_eq_div q
      rw [abs_of_pos hq, hwhole.1, Nat.cast_one, div_one] at habs
      exact habs.symm
    have hamounts := amounts_ofNat q.num.natAbs
    rwa [hnat] at hamounts
  · have hcontains : (Shortest.around q).Contains (shortest q).value :=
      Shortest.contains_ofInterval (hunits.symm ▸ hself)
    refine ⟨_, hcontains, amounts_decimal ?_⟩
    intro hzero
    have hpos := (Shortest.round_of_contains hq hfinite hcontains).1
    rw [Decimal.value, hzero, Nat.cast_zero, zero_mul] at hpos
    exact lt_irrefl _ hpos

/-- What is written for a positive double is a number that denotes it under either sign. -/
theorem unsigned_positiveText {q : ℚ} (negative : Bool) (hq : 0 < q) (hfinite : (Num.rat q).Finite) :
    Unsigned negative (positiveText q) (.rat (if negative then -q else q)) := by
  obtain ⟨r, hcontains, hamounts⟩ := amounts_positiveText hq hfinite
  obtain ⟨m, k, hnumber, rfl⟩ := hamounts negative
  obtain ⟨hpos, hplus, hminus⟩ := Shortest.round_of_contains hq hfinite hcontains
  have hm : m ≠ 0 := by
    rintro rfl
    rw [Nat.cast_zero, zero_mul] at hpos
    exact lt_irrefl _ hpos
  rw [ofDecimal_of_round negative hm (Shortest.bounds_of_contains hq hfinite hcontains) hq.ne' hplus
    hminus] at hnumber
  exact hnumber

/-- **A finite double is written as a numeral that denotes it**, but for the sign of zero. -/
theorem numeral_toText {x : Num} (h : x.Finite) : Numeral x.toText x.plain := by
  have hzero : Numeral (Text.ofNat 0) (.rat 0) := Numeral.positive (unsigned_whole false Whole.zero)
  cases x with
  | nan => exact h.elim
  | infinite negative => exact h.elim
  | negZero => exact hzero
  | rat q =>
      show Numeral (if q < 0 then _ else _) (.rat q)
      rcases lt_trichotomy q 0 with hq | rfl | hq
      · have hneg : (Num.rat (-q)).Finite := finite_of_neg (neg_pos.mpr hq) (by rwa [neg_neg])
        have hnumber := unsigned_positiveText true (neg_pos.mpr hq) hneg
        rw [if_pos rfl, neg_neg] at hnumber
        rw [if_pos hq]
        exact Numeral.negative hnumber
      · exact hzero
      · rw [if_neg (not_lt.mpr hq.le)]
        exact Numeral.positive (unsigned_positiveText false hq h)

end Relayout.Num

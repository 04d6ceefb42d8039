import Relayout.Proofs.DestLayout

/-!
# Sizes that may be lost

Sizes are sums, products and maxima of doubles. Beyond the limit of exactness
they are rounded, and the product of zero and infinity is lost for good. An
amount is a number that such a computation can come to. None of the operations
leads back below the limit, so a size below the limit was computed from sizes
below it, the size of an item of an empty array apart. It follows that a type
whose size lies below the limit is laid out exactly wherever it has bytes.
-/

namespace Relayout

namespace Num

variable {x y al : Num} {a b : Nat}

/-- A tracked natural number, or one that is lost. -/
def Amount (x : Num) : Prop :=
  x = .nan ∨ ∃ n, x.Tracks n

theorem Tracks.amount (h : x.Tracks a) : x.Amount :=
  Or.inr ⟨a, h⟩

/-- An amount below the limit is exact. -/
theorem Amount.is (h : x.Amount) (hx : x.Small) : ∃ n, x.Is n ∧ n < exactLimit := by
  rcases h with rfl | ⟨n, hn⟩
  · exact absurd hx not_small_nan
  · obtain ⟨hlimit, his⟩ := hn.of_small hx
    exact ⟨n, his, hlimit⟩

theorem mul_comm (x y : Num) : x * y = y * x := by
  have hbne : ∀ a b : Bool, (a != b) = (b != a) := by decide
  -- finite factors commute as rationals do, and the sign of a zero does not depend on the order
  have hfinite : ∀ {x y : Num} {p q : ℚ}, x.value? = some p → y.value? = some q → x * y =
      if p * q = 0 then zero (x.isNegative != y.isNegative) else round (p * q) := by
    intro x y p q hx hy
    cases x <;> cases y <;> cases hx <;> cases hy <;> rfl
  have hcomm : ∀ {x y : Num} {p q : ℚ}, x.value? = some p → y.value? = some q → x * y = y * x := by
    intro x y p q hx hy
    rw [hfinite hx hy, hfinite hy hx, Rat.mul_comm p q, hbne]
  cases x with
  | nan => exact (mul_nan y).symm
  | infinite s =>
      cases y with
      | infinite s' => exact congrArg Num.infinite (hbne s s')
      | _ => rfl
  | negZero =>
      cases y with
      | negZero => rfl
      | rat q => exact hcomm rfl rfl
      | _ => rfl
  | rat p =>
      cases y with
      | negZero => exact hcomm rfl rfl
      | rat q => exact hcomm rfl rfl
      | _ => rfl

/-- The place of a number in the order of maxima: from minus infinity over the finite numbers,
negative zero just before zero, to plus infinity and then to not-a-number. -/
def rank : Num → ℕ ×ₗ ℚ ×ₗ ℕ
  | infinite true => toLex (0, toLex (0, 0))
  | negZero => toLex (1, toLex (0, 0))
  | rat q => toLex (1, toLex (q, 1))
  | infinite false => toLex (2, toLex (0, 0))
  | nan => toLex (3, toLex (0, 0))

theorem rank_injective : Function.Injective rank := by
  intro x y h
  rcases x with _ | (_ | _) | _ | p <;> rcases y with _ | (_ | _) | _ | q <;>
    simp [rank, Prod.ext_iff] at h ⊢
  exact h

/-- The larger of two numbers is the one of higher rank. -/
theorem max_eq (x y : Num) : x.max y = if x.rank ≤ y.rank then y else x := by
  have hlex : ∀ {a b : ℕ} {p q : ℚ} {i j : ℕ},
      (toLex (a, toLex (p, i)) : ℕ ×ₗ ℚ ×ₗ ℕ) ≤ toLex (b, toLex (q, j)) ↔
        a < b ∨ a = b ∧ (p < q ∨ p = q ∧ i ≤ j) := by
    intro a b p q i j
    rw [Prod.Lex.toLex_le_toLex, Prod.Lex.toLex_le_toLex]
  have hle : ∀ p q : ℚ, (p < q ∨ p = q) ↔ p ≤ q := fun p q => le_iff_lt_or_eq.symm
  rcases x with _ | (_ | _) | _ | p <;> rcases y with _ | (_ | _) | _ | q <;>
    simp [Num.max, lt, rank, value?, hlex, hle]
  -- of two finite numbers the rationals decide, and between the zeros the last component
  case negZero.rat =>
    by_cases h : q < 0
    · simp [h]
    · simp [h, not_lt.mp h]
  case rat.negZero =>
    by_cases h : p < 0
    · simp [h]
    · simp [h]
  case rat.rat =>
    rcases lt_trichotomy p q with h | rfl | h
    · simp [h, h.le]
    · simp
    · simp [not_lt.mpr h.le, not_le.mpr h]

theorem max_right_comm (x y z : Num) : (x.max y).max z = (x.max z).max y := by
  have hrank : ∀ x y : Num, (x.max y).rank = x.rank ⊔ y.rank := by
    intro x y
    rw [max_eq, apply_ite rank, max_def]
  apply rank_injective
  rw [hrank, hrank, hrank, hrank]
  exact sup_right_comm _ _ _

/-- A sum below the limit has terms below it. -/
theorem Amount.add (hx : x.Amount) (hy : y.Amount) :
    (x + y).Amount ∧ ((x + y).Small → x.Small ∧ y.Small) := by
  rcases hx with rfl | ⟨n, hn⟩
  · rw [nan_add]
    exact ⟨Or.inl rfl, fun h => absurd h not_small_nan⟩
  · rcases hy with rfl | ⟨m, hm⟩
    · rw [add_nan]
      exact ⟨Or.inl rfl, fun h => absurd h not_small_nan⟩
    · refine ⟨(hn.add hm).amount, fun h => ?_⟩
      obtain ⟨hlimit, -⟩ := (hn.add hm).of_small h
      exact ⟨small_of_is (hn.is (by omega)) (by omega), small_of_is (hm.is (by omega)) (by omega)⟩

/-- A maximum below the limit is one of numbers below it. -/
theorem Amount.max (hx : x.Amount) (hy : y.Amount) :
    (x.max y).Amount ∧ ((x.max y).Small → x.Small ∧ y.Small) := by
  rcases hx with rfl | ⟨n, hn⟩
  · rw [nan_max]
    exact ⟨Or.inl rfl, fun h => absurd h not_small_nan⟩
  · rcases hy with rfl | ⟨m, hm⟩
    · rw [max_nan]
      exact ⟨Or.inl rfl, fun h => absurd h not_small_nan⟩
    · refine ⟨(hn.max hm).amount, fun h => ?_⟩
      obtain ⟨hlimit, -⟩ := (hn.max hm).of_small h
      obtain ⟨hn', hm'⟩ := Nat.max_lt.mp hlimit
      exact ⟨small_of_is (hn.is hn') hn', small_of_is (hm.is hm') hm'⟩

/-- An offset that is below the limit once it is aligned was so before. -/
theorem Amount.alignTo (hx : x.Amount) (hal : al.Is a) (ha : IsAlignment a) :
    (x.alignTo al).Amount ∧ ((x.alignTo al).Small → x.Small) := by
  rcases hx with rfl | ⟨n, hn⟩
  · rw [nan_alignTo]
    exact ⟨Or.inl rfl, fun h => absurd h not_small_nan⟩
  · have hup := hn.alignTo hal ha
    refine ⟨hup.amount, fun h => ?_⟩
    obtain ⟨hlimit, -⟩ := hup.of_small h
    have hle := le_roundUp (n := n) ha
    exact small_of_is (hn.is (by omega)) (by omega)

theorem zero_is (s : Bool) : (zero s).Is 0 := by
  cases s <;> simp [zero, Is, value?]

/-- The product of a natural number and a number beyond the limit is beyond it,
unless the natural number is zero: then it is zero or lost. -/
theorem Is.mul_large (hx : x.Is a) (hy : y.Large) :
    x * y = .nan ∨ (a = 0 ∧ (x * y).Is 0) ∨ (0 < a ∧ (x * y).Large) := by
  have hlimit : (0 : ℚ) < exactLimit := by
    rw [exactLimit_cast]
    positivity
  rcases hy with rfl | ⟨q, hq, rfl⟩
  · rcases hx.cases with rfl | ⟨rfl, rfl⟩
    · have hmul : Num.rat (a : ℚ) * .infinite false =
          if (Num.rat (a : ℚ)).eqv (.rat 0) then .nan
          else .infinite (false != (Num.rat (a : ℚ)).isNegative) := rfl
      have hnonneg : (Num.rat (a : ℚ)).isNegative = false := by simp [isNegative]
      rw [hmul, eqv_of_value (p := (a : ℚ)) (q := 0) rfl rfl, hnonneg]
      by_cases ha : a = 0
      · left
        simp [ha]
      · refine Or.inr (Or.inr ⟨Nat.pos_of_ne_zero ha, Or.inl ?_⟩)
        simp [ha]
    · exact Or.inl rfl
  · have hqpos : 0 < q := lt_of_lt_of_le hlimit hq
    rcases hx.cases with rfl | ⟨rfl, rfl⟩
    · have hmul : Num.rat (a : ℚ) * .rat q = if (a : ℚ) * q = 0
          then zero ((Num.rat (a : ℚ)).isNegative != (Num.rat q).isNegative)
          else round ((a : ℚ) * q) := rfl
      rw [hmul]
      by_cases ha : a = 0
      · refine Or.inr (Or.inl ⟨ha, ?_⟩)
        rw [ha, if_pos (by simp)]
        exact zero_is _
      · have hone : (1 : ℚ) ≤ a := by exact_mod_cast Nat.pos_of_ne_zero ha
        have hge : (exactLimit : ℚ) ≤ a * q := le_trans hq (le_mul_of_one_le_left hqpos.le hone)
        rw [if_neg (lt_of_lt_of_le hlimit hge).ne']
        exact Or.inr (Or.inr ⟨Nat.pos_of_ne_zero ha, large_round hge⟩)
    · refine Or.inr (Or.inl ⟨rfl, ?_⟩)
      have hmul : Num.negZero * .rat q = if (0 : ℚ) * q = 0
          then zero (Num.negZero.isNegative != (Num.rat q).isNegative)
          else round (0 * q) := rfl
      rw [hmul, if_pos (zero_mul q)]
      exact zero_is _

/-- A product below the limit is exact, and its second factor is below the limit
if there is anything to multiply. -/
theorem Amount.mul (hx : x.Is a) (hy : y.Amount) :
    (x * y).Amount ∧ ((x * y).Small → (a = 0 ∧ (x * y).Is 0) ∨ y.Small) := by
  rcases hy with rfl | ⟨b, hb⟩
  · rw [mul_nan]
    exact ⟨Or.inl rfl, fun h => absurd h not_small_nan⟩
  · by_cases hlimit : b < exactLimit
    · exact ⟨(hx.mul_tracks (hb.is hlimit)).amount,
        fun _ => Or.inr (small_of_is (hb.is hlimit) hlimit)⟩
    · rcases hx.mul_large (hb.large (by omega)) with h | ⟨ha, h⟩ | ⟨ha, h⟩
      · rw [h]
        exact ⟨Or.inl rfl, fun h => absurd h not_small_nan⟩
      · exact ⟨(tracks_of_is h).amount, fun _ => Or.inl ⟨ha, h⟩⟩
      · have htracks := tracks_of_large h (Nat.le_refl _)
        exact ⟨htracks.amount, fun h => absurd (htracks.of_small h).1 (Nat.lt_irrefl _)⟩

/-! ### Alignments of sums -/

/-- The multiple of eight bytes or less next to a large double is a double. -/
theorem round_aligned {r : ℚ} {units j : Nat} {e : Int} (hr : (exactLimit : ℚ) ≤ r)
    (hunits : r = units * 2 ^ e) (hlimit : units < exactLimit) (hmax : r < 2 ^ (1024 : Int))
    (hj : j ≤ 3) :
    round (r / 2 ^ j) = .rat (r / 2 ^ j) ∧
      round ((r / 2 ^ j).ceil * 2 ^ j) = .rat ((r / 2 ^ j).ceil * 2 ^ j) := by
  have hrpos : 0 < r := lt_of_lt_of_le (by rw [exactLimit_cast]; positivity) hr
  have hscaled : r / 2 ^ j = units * 2 ^ (e - j) := by
    rw [hunits, zpow_sub₀ (by norm_num), zpow_natCast, mul_div_assoc]
  -- as there are fewer than 2⁵³ units in a number of that size, units are greater than one
  have he : 0 < e := by
    by_contra hle
    have hone : (2 : ℚ) ^ e ≤ 1 := zpow_le_one_of_nonpos₀ (by norm_num) (by omega)
    have hlt : r < exactLimit := by
      calc r = units * 2 ^ e := hunits
        _ ≤ units := mul_le_of_le_one_right (Nat.cast_nonneg _) hone
        _ < exactLimit := by exact_mod_cast hlimit
    exact absurd hr (not_le.mpr hlt)
  have hpow : (1 : ℚ) ≤ 2 ^ j := one_le_pow₀ (by norm_num)
  have hquot : 0 < r / 2 ^ j := by positivity
  refine ⟨round_exact (e := e - j) (by rw [abs_of_pos hquot, hscaled]) hlimit (by omega) ?_, ?_⟩
  · rw [abs_of_pos hquot]
    exact lt_of_le_of_lt (div_le_self hrpos.le hpow) hmax
  · by_cases hje : (j : Int) ≤ e
    · -- the number is a multiple already
      obtain ⟨k, hk⟩ := Int.eq_ofNat_of_zero_le (sub_nonneg.mpr hje)
      have hwhole : r / 2 ^ j = ((units * 2 ^ k : Nat) : ℚ) := by
        rw [hscaled, hk]
        push_cast
        rw [zpow_natCast]
      have hceil : ((r / 2 ^ j).ceil : ℚ) * 2 ^ j = r := by
        rw [hwhole, ← Int.cast_natCast, Rat.ceil_intCast, Int.cast_natCast, ← hwhole]
        field_simp
      rw [hceil]
      exact round_exact (e := e) (by rw [abs_of_pos hrpos, hunits]) hlimit (by omega)
        (by rwa [abs_of_pos hrpos])
    · have hsmall : r / 2 ^ j ≤ (exactLimit - 1 : Int) := by
        have hunit : (2 : ℚ) ^ (e - j) ≤ 1 := zpow_le_one_of_nonpos₀ (by norm_num) (by omega)
        have hle : (units : Int) ≤ exactLimit - 1 := by omega
        calc r / 2 ^ j = units * 2 ^ (e - j) := hscaled
          _ ≤ units := mul_le_of_le_one_right (Nat.cast_nonneg _) hunit
          _ ≤ (exactLimit - 1 : Int) := by exact_mod_cast hle
      have hceil : (r / 2 ^ j).ceil ≤ exactLimit - 1 := Rat.ceil_le_iff.mpr hsmall
      have hnonneg : 0 < (r / 2 ^ j).ceil := by
        have := lt_of_lt_of_le hquot Rat.le_ceil
        exact_mod_cast this
      obtain ⟨c, hc⟩ := Int.eq_ofNat_of_zero_le hnonneg.le
      rw [hc] at hceil ⊢
      have habs : |((c : Int) : ℚ) * 2 ^ j| = c * 2 ^ (j : Int) := by
        rw [Int.cast_natCast, zpow_natCast]
        exact abs_of_nonneg (mul_nonneg (Nat.cast_nonneg c) (pow_nonneg (by norm_num) j))
      refine round_exact (e := j) habs (by omega) (by omega) ?_
      have hcast : (c : ℚ) ≤ 2 ^ (53 : Int) := by
        rw [← exactLimit_cast]
        exact_mod_cast (show c ≤ exactLimit by omega)
      calc |((c : Int) : ℚ) * 2 ^ j| = c * 2 ^ (j : Int) := habs
        _ ≤ 2 ^ (53 : Int) * 2 ^ (3 : Int) := by
            have hthree : (2 : ℚ) ^ (j : Int) ≤ 2 ^ (3 : Int) :=
              zpow_le_zpow_right₀ (by norm_num) (by omega)
            gcongr
        _ < 2 ^ (1024 : Int) := by
            rw [← zpow_add₀ (by norm_num)]
            exact zpow_lt_zpow_right₀ (by norm_num) (by norm_num)

/-- A sum of finite numbers is a rounded one. -/
theorem add_eq_rat {r : ℚ} (hx : x.Is a) (h : x + y = .rat r) : ∃ q, round q = .rat r := by
  rcases hx.cases with rfl | ⟨rfl, rfl⟩
  · cases y with
    | nan => cases h
    | infinite s => cases h
    | negZero => exact ⟨_, h⟩
    | rat q => exact ⟨_, h⟩
  · cases y with
    | nan => cases h
    | infinite s => cases h
    | negZero => cases h
    | rat q => exact ⟨_, h⟩

/-- An alignment does not lower a large double. -/
theorem large_alignTo_not_lt {q r : ℚ} (h : round q = .rat r) (hr : (exactLimit : ℚ) ≤ r)
    (hal : al.Is a) (ha : IsAlignment a) : ((Num.rat r).alignTo al).lt (.rat r) = false := by
  obtain ⟨units, e, habs, hunits, -, hmax⟩ :=
    Format.binary64.units_of_decode (by decide) (round_eq_decode q ▸ h)
  have hrpos : 0 < r := lt_of_lt_of_le (by rw [exactLimit_cast]; positivity) hr
  rw [abs_of_pos hrpos] at habs
  have hfin : r < 2 ^ (1024 : Int) := by
    have hlimit : (units : ℚ) < 2 ^ (53 : Int) := by
      rw [← exactLimit_cast]
      exact_mod_cast hunits
    have hexp : e ≤ 971 := by
      have hbound : (Format.binary64.fraction : Int) = 52 ∧
        (twoPow (Format.binary64.exponent - 1) : Int) = 1024 := by decide
      omega
    calc r = units * 2 ^ e := habs
      _ < 2 ^ (53 : Int) * 2 ^ e := by gcongr
      _ ≤ 2 ^ (53 : Int) * 2 ^ (971 : Int) := by gcongr; norm_num
      _ = 2 ^ (1024 : Int) := by rw [← zpow_add₀ (by norm_num)]; norm_num
  obtain ⟨j, hj, haj⟩ := ha.pow
  obtain ⟨hquot, hup⟩ := round_aligned hr habs hunits hfin hj
  rw [← haj] at hquot hup
  have hapos : (0 : ℚ) < a := by exact_mod_cast ha.pos
  have hle : r ≤ (r / a).ceil * a := (div_le_iff₀ hapos).mp Rat.le_ceil
  have hdiv : Num.rat r / .rat (a : ℚ) = round (r / a) := by
    show (if (a : ℚ) = 0 then _ else if r = 0 then _ else _) = _
    rw [if_neg hapos.ne', if_neg hrpos.ne']
    rfl
  have hmul : Num.rat ((r / a).ceil : ℚ) * .rat (a : ℚ) = round ((r / a).ceil * a) := by
    show (if ((r / a).ceil : ℚ) * a = 0 then _ else _) = _
    rw [if_neg (lt_of_lt_of_le hrpos hle).ne']
    rfl
  rw [alignTo_eq hal ha]
  split
  · exact not_lt_self _
  · rw [hdiv, hquot, ceil_rat (div_nonneg hrpos.le hapos.le), hmul, hup]
    exact decide_eq_false (not_lt.mpr hle)

/-- An alignment does not lower the sum of a natural number and an amount. -/
theorem add_alignTo_not_lt (hx : x.Is a) (hy : y.Amount) (hal : al.Is b) (hb : IsAlignment b) :
    ((x + y).alignTo al).lt (x + y) = false := by
  rcases hy with rfl | ⟨m, hm⟩
  · rw [add_nan, nan_alignTo]
    rfl
  · have hsum := (tracks_of_is hx).add hm
    by_cases hlimit : a + m < exactLimit
    · have hup := le_roundUp (n := a + m) hb
      have haligned := hsum.alignTo hal hb
      by_cases hlarge : roundUp (a + m) b < exactLimit
      · rw [lt_of_is (haligned.is hlarge) (hsum.is hlimit)]
        exact decide_eq_false (by omega)
      · exact ((haligned.large (by omega)).lt (hsum.is hlimit) hlimit).2
    · rcases hsum.large (by omega) with hinf | ⟨r, hr, hrat⟩
      · rw [hinf, alignTo_eq hal hb]
        split
        · rfl
        · rw [infinite_ceil_div_mul hb]
          rfl
      · obtain ⟨q, hq⟩ := add_eq_rat hx hrat
        rw [hrat]
        exact large_alignTo_not_lt hq hr hal hb

end Num

/-! ## Sizes of descriptors -/

namespace Desc

open Relayout.Num

/-- An offset that is below the limit once it is aligned was so before. -/
theorem amount_alignTo {x al : Num} (hx : x.Amount) (hal : Aligns al) :
    (x.alignTo al).Amount ∧ ((x.alignTo al).Small → x.Small) := by
  rcases hal with rfl | ⟨a, haa, ha⟩
  · rw [alignTo_nan]
    exact ⟨.inl rfl, fun h => absurd h not_small_nan⟩
  · exact hx.alignTo ha haa

theorem amount_of_size_prim {name : Text} {x : Num} (h : (prim name).size = .ok x) : x.Amount := by
  rw [size] at h
  rcases primSize_ok h with rfl | ⟨p, -, rfl⟩
  · exact .inl rfl
  · exact (tracks_ofNat p.size).amount

/-- An end of fields below the limit lies behind fields whose sizes are below it. -/
theorem endOfFields_small {fields : List (Field Desc)} (hoffsets : ∀ f ∈ fields, ∃ o, f.offset.Is o)
    (hfields : ∀ f ∈ fields, ∀ y, f.type.size = .ok y → y.Amount) {finish x : Num}
    (hfinish : finish.Amount) (h : endOfFields fields finish = .ok x) :
    x.Amount ∧ (x.Small → finish.Small ∧ ∀ f ∈ fields, ∀ y, f.type.size = .ok y → y.Small) := by
  induction fields generalizing finish with
  | nil =>
      rw [endOfFields] at h
      cases h
      exact ⟨hfinish, fun hx => ⟨hx, by simp⟩⟩
  | cons f rest ih =>
      rw [endOfFields] at h
      obtain ⟨y, hy, h⟩ := bind_eq_ok.mp h
      obtain ⟨o, ho⟩ := hoffsets f List.mem_cons_self
      obtain ⟨hend, hpart⟩ := (tracks_of_is ho).amount.add (hfields f List.mem_cons_self y hy)
      obtain ⟨hmax, hboth⟩ := hfinish.max hend
      obtain ⟨hx, hrest⟩ := ih (fun g hg => hoffsets g (List.mem_cons_of_mem _ hg))
        (fun g hg => hfields g (List.mem_cons_of_mem _ hg)) hmax h
      refine ⟨hx, fun hsmall => ?_⟩
      obtain ⟨hbefore, hothers⟩ := hrest hsmall
      obtain ⟨hfirst, hlast⟩ := hboth hbefore
      refine ⟨hfirst, List.forall_mem_cons.mpr ⟨fun z hz => ?_, hothers⟩⟩
      rw [hy] at hz
      cases hz
      exact (hpart hlast).2

/-- A payload below the limit is the largest of payloads below it. -/
theorem largestPayload_small {ctors : List (Ctor Desc)}
    (hctors : ∀ c ∈ ctors, ∀ y, c.type.size = .ok y → y.Amount) {largest x : Num}
    (hlargest : largest.Amount) (h : largestPayload ctors largest = .ok x) :
    x.Amount ∧ (x.Small → largest.Small ∧ ∀ c ∈ ctors, ∀ y, c.type.size = .ok y → y.Small) := by
  induction ctors generalizing largest with
  | nil =>
      rw [largestPayload] at h
      cases h
      exact ⟨hlargest, fun hx => ⟨hx, by simp⟩⟩
  | cons c rest ih =>
      rw [largestPayload] at h
      obtain ⟨y, hy, h⟩ := bind_eq_ok.mp h
      obtain ⟨hmax, hboth⟩ := hlargest.max (hctors c List.mem_cons_self y hy)
      obtain ⟨hx, hrest⟩ := ih (fun g hg => hctors g (List.mem_cons_of_mem _ hg)) hmax h
      refine ⟨hx, fun hsmall => ?_⟩
      obtain ⟨hbefore, hothers⟩ := hrest hsmall
      obtain ⟨hfirst, hlast⟩ := hboth hbefore
      refine ⟨hfirst, List.forall_mem_cons.mpr ⟨fun z hz => ?_, hothers⟩⟩
      rw [hy] at hz
      cases hz
      exact hlast

theorem struct_small {fields : List (Field Desc)} (hoffsets : ∀ f ∈ fields, ∃ o, f.offset.Is o)
    (hfields : ∀ f ∈ fields, ∀ y, f.type.size = .ok y → y.Amount) {x : Num}
    (h : size (.struct fields) = .ok x) :
    x.Amount ∧ (x.Small → ∀ f ∈ fields, ∀ y, f.type.size = .ok y → y.Small) := by
  rw [size] at h
  obtain ⟨finish, hfinish, h⟩ := bind_eq_ok.mp h
  obtain ⟨widest, hwidest, h⟩ := bind_eq_ok.mp h
  cases h
  obtain ⟨hend, hparts⟩ := endOfFields_small hoffsets hfields
    (tracks_of_is (is_ofNat (Nat.zero_le _))).amount hfinish
  obtain ⟨hx, hbefore⟩ := amount_alignTo hend (align_aligns hwidest)
  exact ⟨hx, fun hsmall => (hparts (hbefore hsmall)).2⟩

theorem variant_small {ctors : List (Ctor Desc)}
    (hctors : ∀ c ∈ ctors, ∀ y, c.type.size = .ok y → y.Amount) {x : Num}
    (h : size (.variant ctors) = .ok x) :
    x.Amount ∧ (x.Small → ∀ c ∈ ctors, ∀ y, c.type.size = .ok y → y.Small) := by
  rw [size] at h
  obtain ⟨payload, hpayload, h⟩ := bind_eq_ok.mp h
  obtain ⟨offset, hoffset, h⟩ := bind_eq_ok.mp h
  obtain ⟨widest, hwidest, h⟩ := bind_eq_ok.mp h
  cases h
  rw [payloadOffset] at hoffset
  obtain ⟨inner, hinner, hoffset⟩ := bind_eq_ok.mp hoffset
  cases hoffset
  have hone : Aligns 1 := aligns_of_is (is_ofNat (by decide)) (Or.inl rfl)
  obtain ⟨hstart, -⟩ := amount_alignTo (tracks_of_is tagSize_is).amount (alignCtors_aligns hinner hone)
  obtain ⟨hlargest, hparts⟩ := largestPayload_small hctors
    (tracks_of_is (is_ofNat (Nat.zero_le _))).amount hpayload
  obtain ⟨hsum, hboth⟩ := hstart.add hlargest
  obtain ⟨hx, hbefore⟩ := amount_alignTo hsum (align_aligns hwidest)
  exact ⟨hx, fun hsmall => (hparts (hboth (hbefore hsmall)).2).2⟩

/-- The size of an array, and of its items if there are any. -/
theorem array_small {elem : Desc} {n : Num} {k : Nat} (hn : n.Is k)
    (helem : ∀ y, elem.size = .ok y → y.Amount) {x : Num}
    (h : size (.array elem (.nat n)) = .ok x) :
    ∃ y, elem.size = .ok y ∧ x = n * y ∧ x.Amount ∧ (x.Small → (k = 0 ∧ x.Is 0) ∨ y.Small) := by
  rw [size] at h
  obtain ⟨length, hlength, h⟩ := bind_eq_ok.mp h
  obtain ⟨y, hy, h⟩ := bind_eq_ok.mp h
  cases h
  cases hlength
  obtain ⟨hx, hpart⟩ := (helem y hy).mul hn
  exact ⟨y, hy, rfl, hx, hpart⟩

/-- **Every size of a valid descriptor is an amount.** -/
theorem amount_of_size {d : Desc} (valid : d.Valid) {x : Num} (h : d.size = .ok x) : x.Amount := by
  induction valid generalizing x with
  | prim name => exact amount_of_size_prim h
  | nat hvalue =>
      rw [size] at h
      cases h
  | @array elem len helem hlen ih _ =>
      cases hlen with
      | nat hvalue =>
          obtain ⟨n, hn⟩ := hvalue
          obtain ⟨y, -, -, hx, -⟩ := array_small hn (fun y hy => ih hy) h
          exact hx
      | _ =>
          rw [size] at h
          obtain ⟨length, hlength, h⟩ := bind_eq_ok.mp h
          cases hlength
  | struct hoffsets hfields ih => exact (struct_small hoffsets (fun f hf y hy => ih f hf hy) h).1
  | variant hids hctors ih => exact (variant_small (fun c hc y hy => ih c hc hy) h).1

/-- A size below the limit is exact, whatever else the descriptor states. -/
theorem bytes_is {d : Desc} (valid : d.Valid) {x : Num} (h : d.size = .ok x) (hx : x.Small) :
    x.Is d.bytes ∧ d.bytes < exactLimit := by
  obtain ⟨n, hn, hlimit⟩ := (amount_of_size valid h).is hx
  exact bytes_of_is h hn ▸ ⟨hn, hlimit⟩

end Desc

/-! ## Sizes of destination types -/

namespace Dest

open Relayout.Num

/-- Slots that end below the limit have sizes below it. -/
theorem placeSlots_small {parts : List (Text × Dest)}
    (halign : ∀ part ∈ parts, ∃ a, IsAlignment a ∧ part.2.align.Is a)
    (hsize : ∀ part ∈ parts, part.2.size.Amount) {offset : Num} (hoffset : offset.Amount) :
    (placeSlots parts offset).2.Amount ∧ ((placeSlots parts offset).2.Small →
      offset.Small ∧ ∀ part ∈ parts, part.2.size.Small) := by
  induction parts generalizing offset with
  | nil => exact ⟨hoffset, fun h => ⟨h, by simp⟩⟩
  | cons part rest ih =>
      obtain ⟨name, type⟩ := part
      obtain ⟨a, haa, ha⟩ := halign _ List.mem_cons_self
      obtain ⟨hstart, hbefore⟩ := hoffset.alignTo ha haa
      obtain ⟨hnext, hboth⟩ := hstart.add (hsize _ List.mem_cons_self)
      obtain ⟨hend, hrest⟩ := ih (fun q hq => halign q (List.mem_cons_of_mem _ hq))
        (fun q hq => hsize q (List.mem_cons_of_mem _ hq)) hnext
      refine ⟨hend, fun h => ?_⟩
      obtain ⟨hsum, hothers⟩ := hrest h
      obtain ⟨hfirst, hpart⟩ := hboth hsum
      exact ⟨hbefore hfirst, List.forall_mem_cons.mpr ⟨hpart, hothers⟩⟩

/-- A largest size below the limit is that of types whose sizes are below it. -/
theorem largest_small {parts : List (Text × Dest)} (hsize : ∀ part ∈ parts, part.2.size.Amount)
    {largest : Num} (hlargest : largest.Amount) :
    (parts.foldl (fun m part => m.max part.2.size) largest).Amount ∧
      ((parts.foldl (fun m part => m.max part.2.size) largest).Small →
        largest.Small ∧ ∀ part ∈ parts, part.2.size.Small) := by
  induction parts generalizing largest with
  | nil => exact ⟨hlargest, fun h => ⟨h, by simp⟩⟩
  | cons part rest ih =>
      obtain ⟨hmax, hboth⟩ := hlargest.max (hsize _ List.mem_cons_self)
      obtain ⟨hend, hrest⟩ := ih (fun q hq => hsize q (List.mem_cons_of_mem _ hq)) hmax
      refine ⟨hend, fun h => ?_⟩
      obtain ⟨hfirst, hothers⟩ := hrest h
      exact ⟨(hboth hfirst).1, List.forall_mem_cons.mpr ⟨(hboth hfirst).2, hothers⟩⟩

section

variable {parts : List (Text × Dest)}
  (halign : ∀ part ∈ parts, ∃ a, IsAlignment a ∧ part.2.align.Is a)
  (hsize : ∀ part ∈ parts, part.2.size.Amount)

include halign hsize

theorem record_small : (recordOf parts).size.Amount ∧
    ((recordOf parts).size.Small → ∀ part ∈ parts, part.2.size.Small) := by
  have hone : (1 : Num).Is 1 := is_ofNat (by decide)
  obtain ⟨a, haa, ha⟩ := widestAlign_is halign hone (Or.inl rfl)
  obtain ⟨hend, hparts⟩ :=
    placeSlots_small halign hsize (tracks_of_is (is_ofNat (Nat.zero_le _))).amount
  obtain ⟨hamount, hbefore⟩ := hend.alignTo ha haa
  exact ⟨hamount, fun h => (hparts (hbefore h)).2⟩

theorem variant_small {ids : List (Text × Num)} {made : Dest}
    (hmade : variantOf parts ids = .ok made) : made.size.Amount ∧
      (made.size.Small → ∀ part ∈ parts, part.2.size.Small) := by
  have hone : (1 : Num).Is 1 := is_ofNat (by decide)
  have h4 : IsAlignment 4 := Or.inr (Or.inr (Or.inl rfl))
  obtain ⟨name, cases, -, rfl⟩ := variantOf_eq hmade
  obtain ⟨a, haa, ha⟩ := widestAlign_is halign hone (Or.inl rfl)
  obtain ⟨hlargest, hparts⟩ :=
    largest_small hsize (tracks_of_is (is_ofNat (Nat.zero_le _))).amount
  obtain ⟨hsum, hboth⟩ := ((tracks_of_is Desc.tagSize_is).alignTo ha haa).amount.add hlargest
  obtain ⟨hamount, hbefore⟩ := hsum.alignTo (Desc.tagSize_is.max h4 ha haa) (h4.max haa)
  exact ⟨hamount, fun h => (hparts (hboth (hbefore h)).2).2⟩

end

/-- The size of a type that the combinators make is an amount. -/
theorem amount_of_made {d : Dest} (made : Made d) : d.size.Amount := by
  induction made with
  | prim p => exact (tracks_ofNat p.size).amount
  | array helem hmade ih =>
      obtain ⟨name, count, hcount, rfl⟩ := arrayOf_eq hmade
      show (_ * _ : Num).Amount
      rw [Num.mul_comm]
      exact (ih.mul hcount).1
  | record names hparts ih => exact (record_small (fun q hq => align_of_made (hparts q hq)) ih).1
  | variant names hparts hmade ih =>
      exact (variant_small (fun q hq => align_of_made (hparts q hq)) ih hmade).1

/-- **A type that the combinators make is settled if its size lies below the limit.** -/
theorem settled_of_made {d : Dest} (made : Made d) (small : d.size.Small) : Settled d := by
  induction made with
  | prim p => exact .prim p
  | @array elem made length helem hmade ih =>
      obtain ⟨name, count, hcount, rfl⟩ := arrayOf_eq hmade
      have hsmall : (length * elem.size).Small := Num.mul_comm elem.size length ▸ small
      rcases ((amount_of_made helem).mul hcount).2 hsmall with ⟨rfl, hzero⟩ | helemSmall
      · have his : (elem.size * length).Is (0 * elem.bytes) := by
          rw [Num.mul_comm, Nat.zero_mul]
          exact hzero
        exact .array (fun h => absurd h (Nat.lt_irrefl 0)) hcount his
          (by rw [Nat.zero_mul]; decide)
      · have settled := ih helemSmall
        have hprod := settled.size_is.1.mul_tracks hcount
        rw [Nat.mul_comm] at hprod
        obtain ⟨hlimit, his⟩ := hprod.of_small small
        exact .array (fun _ => settled) hcount his hlimit
  | @record parts names hparts ih =>
      have halign := fun q hq => align_of_made (hparts q hq)
      have hsmall := (record_small halign fun q hq => amount_of_made (hparts q hq)).2 small
      have hsettled := fun q hq => ih q hq (hsmall q hq)
      obtain ⟨n, hplaced, his, hlimit⟩ :=
        record_placed halign (fun q hq => (hsettled q hq).size_is.1) small
      refine .record (fun s hs => ?_) hplaced his hlimit
      exact hsettled (s.name, s.type) (placeSlots_parts parts 0 ▸ List.mem_map_of_mem hs)
  | @variant parts ids made names hparts hmade ih =>
      have halign := fun q hq => align_of_made (hparts q hq)
      have hsmall := (variant_small halign (fun q hq => amount_of_made (hparts q hq)) hmade).2 small
      have hsettled := fun q hq => ih q hq (hsmall q hq)
      obtain ⟨surface, cases, payloadOffset, p, n, rfl, hmap, hoffset, htag, hfits, hpn, -, his,
        hlimit⟩ := variant_placed halign (fun q hq => (hsettled q hq).size_is.1) hmade small
      refine .variant (fun c hc => ?_) hoffset htag hfits hpn his hlimit
      exact hsettled (c.name, c.type) (hmap ▸ List.mem_map_of_mem hc)

end Dest

end Relayout

import Relayout.Proofs.Rounding

/-!
# Whole numbers in double precision

Sizes, offsets and positions are doubles. Below two to the power 53 every
natural number is one of them and arithmetic is exact; from there on results
are rounded, but never back below that limit. `Tracks` states both at once, so
a computed size that is below the limit is the size that exact arithmetic gives.
-/

namespace Relayout

/-- The least power of two after which whole numbers have gaps. -/
def exactLimit : Nat := twoPow 53

/-- `n` raised to a multiple of `a`. -/
def roundUp (n a : Nat) : Nat := (n + a - 1) / a * a

namespace Num

/-- The number is the natural number `n`; zero may have either sign. -/
def Is (x : Num) (n : Nat) : Prop := x.value? = some (n : ℚ)

def Small (x : Num) : Prop := x.lt (.ofNat exactLimit) = true

/-- The number does not lie below the limit of exactness. -/
def Large (x : Num) : Prop :=
  x = .infinite false ∨ ∃ q : ℚ, (exactLimit : ℚ) ≤ q ∧ x = .rat q

/-- The number is `n` if `n` lies below the limit, and beyond the limit if `n` does. -/
def Tracks (x : Num) (n : Nat) : Prop := if n < exactLimit then x.Is n else x.Large

theorem exactLimit_eq : exactLimit = 2 ^ 53 := rfl

theorem exactLimit_cast : (exactLimit : ℚ) = 2 ^ (53 : Int) := by
  rw [exactLimit_eq]
  norm_num

/-! ## Numbers that are natural -/

theorem is_ofNat {n : Nat} (h : n ≤ exactLimit) : (ofNat n).Is n := value?_ofNat h

theorem Is.cases {x : Num} {n : Nat} (h : x.Is n) : x = .rat n ∨ (x = .negZero ∧ n = 0) := by
  cases x with
  | nan => simp [Is, value?] at h
  | infinite b => simp [Is, value?] at h
  | negZero =>
      simp only [Is, value?, Option.some.injEq] at h
      exact Or.inr ⟨rfl, by exact_mod_cast h.symm⟩
  | rat q =>
      simp only [Is, value?, Option.some.injEq] at h
      exact Or.inl (by rw [h])

theorem Is.eq_ofNat {x : Num} {n : Nat} (h : x.Is n) (hn : n ≠ 0) (hlimit : n ≤ exactLimit) :
    x = ofNat n := by
  rcases h.cases with rfl | ⟨-, h0⟩
  · exact (ofNat_eq_rat hlimit).symm
  · exact absurd h0 hn

theorem Is.unique {x : Num} {a b : Nat} (ha : x.Is a) (hb : x.Is b) : a = b := by
  have h : some (a : ℚ) = some (b : ℚ) := ha.symm.trans hb
  exact_mod_cast Option.some.inj h

theorem Is.toNat? {x : Num} {n : Nat} (h : x.Is n) : x.toNat? = some n := by
  simp [Num.toNat?, toInt?, show x.value? = some (n : ℚ) from h]

theorem is_of_toNat? {x : Num} {n : Nat} (h : x.toNat? = some n) : x.Is n := by
  simp only [Num.toNat?, toInt?] at h
  cases hv : x.value? with
  | none => simp [hv] at h
  | some q =>
      simp only [hv] at h
      by_cases hq : q.den = 1
      · rw [if_pos hq] at h
        have hnum : q.num = (n : Int) := by
          cases hi : q.num with
          | ofNat m => simp_all
          | negSucc m => simp [hi] at h
        have : q = (n : ℚ) := by
          rw [← Rat.num_div_den q, hq, hnum]
          simp
        rw [Is, hv, this]
      · simp [hq] at h

theorem Is.index? {x : Num} {n : Nat} (h : x.Is n) (hn : n < exactLimit) :
    x.index? = some n := by
  rcases h.cases with rfl | ⟨rfl, rfl⟩
  · have hcast : (Num.rat (n : ℚ)) = ofNat n := (ofNat_eq_rat hn.le).symm
    rw [hcast]
    exact index?_ofNat hn
  · decide

/-! ## Comparing finite values -/

theorem lt_of_value {x y : Num} {p q : ℚ} (hx : x.value? = some p) (hy : y.value? = some q) :
    x.lt y = decide (p < q) := by
  cases x <;> cases y <;> cases hx <;> cases hy <;> rfl

theorem eqv_of_value {x y : Num} {p q : ℚ} (hx : x.value? = some p) (hy : y.value? = some q) :
    x.eqv y = decide (p = q) := by
  cases x <;> cases y <;> cases hx <;> cases hy <;> rfl

theorem lt_of_is {x y : Num} {a b : Nat} (hx : x.Is a) (hy : y.Is b) : x.lt y = decide (a < b) := by
  rw [lt_of_value hx hy]
  simp

theorem eqv_of_is {x y : Num} {a b : Nat} (hx : x.Is a) (hy : y.Is b) : x.eqv y = decide (a = b) := by
  rw [eqv_of_value hx hy]
  simp

theorem not_lt_self (x : Num) : x.lt x = false := by
  have hself : ∀ q : ℚ, decide (q < q) = false := fun q => decide_eq_false (lt_irrefl q)
  rcases x with _ | (_ | _) | _ | q
  · rfl
  · rfl
  · rfl
  · exact hself 0
  · exact hself q

/-- A number is natural exactly when it is whole and not below zero. -/
theorem isWhole_not_lt_iff {x : Num} :
    (x.isWhole = true ∧ x.lt 0 = false) ↔ ∃ n, x.Is n := by
  have hzero : (0 : Num).Is 0 := is_ofNat (Nat.zero_le _)
  constructor
  · rintro ⟨hwhole, hpos⟩
    rw [isWhole] at hwhole
    cases hv : x.value? with
    | none => simp [hv] at hwhole
    | some q =>
        simp only [hv, decide_eq_true_eq] at hwhole
        rw [lt_of_value hv hzero, decide_eq_false_iff_not, Nat.cast_zero, not_lt] at hpos
        refine ⟨q.num.toNat, ?_⟩
        have hnum : (q.num.toNat : Int) = q.num := Int.toNat_of_nonneg (Rat.num_nonneg.mpr hpos)
        rw [Is, hv, ← Int.cast_natCast, hnum]
        conv_lhs => rw [← Rat.num_div_den q, hwhole]
        simp
  · rintro ⟨n, h⟩
    constructor
    · rw [isWhole, show x.value? = some (n : ℚ) from h]
      simp
    · rw [lt_of_is h hzero]
      simp

/-! ## Rounding at the limit -/

/-- A rational that fits 53 bits is its own double. -/
theorem round_exact {q : ℚ} {units : Nat} {e : Int} (hq : |q| = units * 2 ^ e)
    (hunits : units < exactLimit) (he : -1074 ≤ e) (hfin : |q| < 2 ^ (1024 : Int)) :
    round q = .rat q := by
  rw [round]
  split
  · rfl
  · have hmin : Format.binary64.minExponent = -1074 := by decide
    exact Format.binary64.decode_encode (by decide) hq hunits (hmin ▸ he) hfin

/-- Rounding goes through the word of a number, whole numbers of at most 53 bits included. -/
theorem round_eq_decode (q : ℚ) :
    round q = Format.binary64.decode (Format.binary64.encode (.rat q)) := by
  by_cases hq : q.den = 1 ∧ q.num.natAbs ≤ twoPow 53
  · have habs : |q| = (q.num.natAbs : ℚ) := by rw [Format.abs_eq_div, hq.1, Nat.cast_one, div_one]
    have hfin : |q| < 2 ^ (twoPow 10 : Int) := by
      calc |q| ≤ (twoPow 53 : Nat) := by
            rw [habs]
            exact_mod_cast hq.2
        _ < 2 ^ (twoPow 10 : Int) := by
            rw [zpow_natCast, twoPow_eq]
            exact_mod_cast Nat.pow_lt_pow_right (by omega) (by decide : 53 < twoPow 10)
    rw [round, if_pos hq]
    symm
    rcases Nat.lt_or_eq_of_le hq.2 with hlt | heq
    · exact Format.binary64.decode_encode (by decide) (e := 0) (by rw [habs, zpow_zero, mul_one])
        hlt (by decide) hfin
    · have hunits : |q| = (twoPow 52 : Nat) * 2 ^ (1 : Int) := by
        rw [habs, heq, twoPow_eq, twoPow_eq]
        norm_num
      exact Format.binary64.decode_encode (by decide) hunits (by decide) (by decide) hfin
  · rw [round, if_neg hq]

/-- Rounding does not fall below a power of two. -/
theorem le_round {q : ℚ} {k : Int} (hk : -1022 ≤ k) (hq : (2 : ℚ) ^ k ≤ q) :
    round q = .infinite false ∨ ∃ r : ℚ, (2 : ℚ) ^ k ≤ r ∧ round q = .rat r := by
  rw [round]
  split
  · exact Or.inr ⟨q, hq, rfl⟩
  · have hmin : Format.binary64.minExponent + (Format.binary64.fraction : Int) = -1022 := by decide
    exact Format.binary64.le_decode_encode (hmin ▸ hk) hq

theorem large_round {q : ℚ} (hq : (exactLimit : ℚ) ≤ q) : (round q).Large := by
  rw [exactLimit_cast] at hq
  rcases le_round (by norm_num) hq with h | ⟨r, hr, h⟩
  · exact Or.inl h
  · exact Or.inr ⟨r, exactLimit_cast ▸ hr, h⟩

/-! ## Tracking -/

theorem tracks_of_is {x : Num} {n : Nat} (h : x.Is n) : x.Tracks n := by
  rw [Tracks]
  split
  · exact h
  · rename_i hn
    rcases h.cases with rfl | ⟨rfl, rfl⟩
    · exact Or.inr ⟨n, by exact_mod_cast Nat.le_of_not_lt hn, rfl⟩
    · exact absurd (by decide) hn

theorem tracks_ofNat (n : Nat) : (ofNat n).Tracks n := by
  by_cases hn : n ≤ exactLimit
  · exact tracks_of_is (is_ofNat hn)
  · rw [Tracks, if_neg (by omega)]
    exact large_round (by exact_mod_cast (Nat.lt_of_not_le hn).le)

theorem Tracks.is {x : Num} {n : Nat} (h : x.Tracks n) (hn : n < exactLimit) : x.Is n := by
  rwa [Tracks, if_pos hn] at h

theorem Tracks.large {x : Num} {n : Nat} (h : x.Tracks n) (hn : exactLimit ≤ n) : x.Large := by
  rwa [Tracks, if_neg (by omega)] at h

theorem tracks_of_large {x : Num} {n : Nat} (h : x.Large) (hn : exactLimit ≤ n) : x.Tracks n := by
  rwa [Tracks, if_neg (by omega)]

/-- A number beyond the limit exceeds every exact one. -/
theorem Large.lt {x y : Num} {a : Nat} (hx : x.Is a) (ha : a < exactLimit) (hy : y.Large) :
    x.lt y = true ∧ y.lt x = false := by
  have hlim : (a : ℚ) < exactLimit := by exact_mod_cast ha
  rcases hy with rfl | ⟨q, hq, rfl⟩
  · rcases hx.cases with rfl | ⟨rfl, rfl⟩ <;> exact ⟨rfl, rfl⟩
  · have hval : (Num.rat q).value? = some q := rfl
    have haq : (a : ℚ) < q := lt_of_lt_of_le hlim hq
    rw [lt_of_value hx hval, lt_of_value hval hx]
    simp [haq, haq.le]

/-- Comparing an exact number with a tracked one compares what they stand for. -/
theorem lt_iff {x y : Num} {a b : Nat} (hx : x.Is a) (ha : a < exactLimit) (hy : y.Tracks b) :
    x.lt y = true ↔ a < b := by
  by_cases hb : b < exactLimit
  · rw [lt_of_is hx (hy.is hb), decide_eq_true_eq]
  · have hab : a < b := by omega
    exact iff_of_true ((hy.large (by omega)).lt hx ha).1 hab

/-- A tracked number that lies below the limit is exact. -/
theorem Tracks.of_small {x : Num} {n : Nat} (h : x.Tracks n) (hx : x.Small) :
    n < exactLimit ∧ x.Is n := by
  by_cases hn : n < exactLimit
  · exact ⟨hn, h.is hn⟩
  · exfalso
    have hlim : (ofNat exactLimit).Is exactLimit := is_ofNat (Nat.le_refl _)
    rw [Small] at hx
    rcases h.large (by omega) with rfl | ⟨q, hq, rfl⟩
    · rcases hlim.cases with h0 | ⟨-, h0⟩
      · rw [h0] at hx
        exact Bool.noConfusion hx
      · exact absurd h0 (by decide)
    · rw [lt_of_value rfl hlim, decide_eq_true_eq] at hx
      exact absurd hx (not_lt.mpr hq)

theorem small_of_is {x : Num} {n : Nat} (h : x.Is n) (hn : n < exactLimit) : x.Small :=
  (lt_iff h hn (tracks_ofNat exactLimit)).mpr hn

theorem Tracks.eq_of_is {x : Num} {n k : Nat} (h : x.Tracks n) (hk : x.Is k)
    (hlimit : k < exactLimit) : n = k :=
  (h.of_small (small_of_is hk hlimit)).2.unique hk

/-! ## Sums -/

theorem Is.add_eq {x y : Num} {a b : Nat} (hx : x.Is a) (hy : y.Is b) :
    x + y = ofNat (a + b) ∨ (a + b = 0 ∧ x + y = .negZero) := by
  rcases hx.cases with rfl | ⟨rfl, rfl⟩ <;> rcases hy.cases with rfl | ⟨rfl, rfl⟩
  · left
    show round ((a : ℚ) + b) = round ((a + b : Nat) : ℚ)
    rw [Nat.cast_add]
  · left
    show round ((a : ℚ) + 0) = round ((a + 0 : Nat) : ℚ)
    rw [add_zero, Nat.add_zero]
  · left
    show round (0 + (b : ℚ)) = round ((0 + b : Nat) : ℚ)
    rw [zero_add, Nat.zero_add]
  · exact Or.inr ⟨rfl, rfl⟩

/-- Sums are exact up to the limit and stay beyond it. -/
theorem Tracks.add {x y : Num} {a b : Nat} (hx : x.Tracks a) (hy : y.Tracks b) :
    (x + y).Tracks (a + b) := by
  have hlim0 : (0 : ℚ) ≤ exactLimit := Nat.cast_nonneg _
  by_cases ha : a < exactLimit
  · by_cases hb : b < exactLimit
    · rcases (hx.is ha).add_eq (hy.is hb) with h | ⟨h0, h⟩
      · exact h ▸ tracks_ofNat _
      · rw [h, h0]
        exact tracks_of_is (by simp [Is, value?])
    · refine tracks_of_large ?_ (by omega)
      rcases hy.large (by omega) with rfl | ⟨q, hq, rfl⟩ <;>
        rcases (hx.is ha).cases with rfl | ⟨rfl, rfl⟩
      · exact Or.inl rfl
      · exact Or.inl rfl
      · exact large_round (le_add_of_nonneg_of_le (Nat.cast_nonneg a) hq)
      · exact large_round (le_add_of_nonneg_of_le (le_refl 0) hq)
  · refine tracks_of_large ?_ (by omega)
    by_cases hb : b < exactLimit
    · rcases hx.large (by omega) with rfl | ⟨q, hq, rfl⟩ <;>
        rcases (hy.is hb).cases with rfl | ⟨rfl, rfl⟩
      · exact Or.inl rfl
      · exact Or.inl rfl
      · exact large_round (le_add_of_le_of_nonneg hq (Nat.cast_nonneg b))
      · exact large_round (le_add_of_le_of_nonneg hq (le_refl 0))
    · rcases hx.large (by omega) with rfl | ⟨q, hq, rfl⟩ <;>
        rcases hy.large (by omega) with rfl | ⟨r, hr, rfl⟩
      · exact Or.inl rfl
      · exact Or.inl rfl
      · exact Or.inl rfl
      · exact large_round (le_add_of_le_of_nonneg hq (le_trans hlim0 hr))

theorem Is.add {x y : Num} {a b : Nat} (hx : x.Is a) (hy : y.Is b) (h : a + b < exactLimit) :
    (x + y).Is (a + b) :=
  ((tracks_of_is hx).add (tracks_of_is hy)).is h

/-! ## Products -/

theorem Is.mul_eq {x y : Num} {a b : Nat} (hx : x.Is a) (hy : y.Is b) :
    x * y = ofNat (a * b) ∨ (a * b = 0 ∧ x * y = .negZero) := by
  have hnonneg : ∀ n : Nat, (Num.rat (n : ℚ)).isNegative = false := fun n => by
    simp [isNegative]
  have hzero : ∀ s : Bool, zero s = ofNat 0 ∨ zero s = .negZero := fun s => by
    cases s
    · exact Or.inl (ofNat_eq_rat (Nat.zero_le _)).symm
    · exact Or.inr rfl
  by_cases hab : a * b = 0
  · have hprod : ∃ s, x * y = zero s := by
      have hq : (a : ℚ) * b = 0 := by exact_mod_cast hab
      rcases hx.cases with rfl | ⟨rfl, rfl⟩ <;> rcases hy.cases with rfl | ⟨rfl, rfl⟩
      · exact ⟨_, if_pos hq⟩
      · exact ⟨_, if_pos (mul_zero _)⟩
      · exact ⟨_, if_pos (zero_mul _)⟩
      · exact ⟨_, if_pos (zero_mul _)⟩
    obtain ⟨s, hs⟩ := hprod
    rw [hs, hab]
    exact (hzero s).imp_right fun h => ⟨rfl, h⟩
  · left
    have hq : ¬ (a : ℚ) * b = 0 := by exact_mod_cast hab
    rcases hx.cases with rfl | ⟨rfl, rfl⟩
    · rcases hy.cases with rfl | ⟨rfl, rfl⟩
      · show (if (a : ℚ) * b = 0 then _ else round ((a : ℚ) * b)) = _
        rw [if_neg hq, ofNat, Nat.cast_mul]
      · exact absurd (Nat.mul_zero _) hab
    · exact absurd (Nat.zero_mul _) hab

theorem Is.mul_tracks {x y : Num} {a b : Nat} (hx : x.Is a) (hy : y.Is b) :
    (x * y).Tracks (a * b) := by
  rcases hx.mul_eq hy with h | ⟨h0, h⟩
  · exact h ▸ tracks_ofNat _
  · rw [h, h0]
    exact tracks_of_is (by simp [Is, value?])

theorem Is.mul {x y : Num} {a b : Nat} (hx : x.Is a) (hy : y.Is b) (h : a * b < exactLimit) :
    (x * y).Is (a * b) :=
  (hx.mul_tracks hy).is h

/-- Item `j` of items of `k` bytes each begins after `j * k` bytes and ends with the items. -/
theorem Is.item {x : Num} {k j count : Nat} (hx : x.Is k) (hj : j < count)
    (hcount : count ≤ exactLimit) (hlimit : count * k < exactLimit) :
    (ofNat j * x).Is (j * k) ∧ j * k + k ≤ count * k := by
  have hend : j * k + k ≤ count * k := by
    rw [← Nat.succ_mul]
    exact Nat.mul_le_mul_right k hj
  exact ⟨(is_ofNat (by omega)).mul hx (by omega), hend⟩

/-! ## Maxima -/

/-- A tracked number is an infinity, a zero or a rational that is not negative. -/
theorem Tracks.cases {x : Num} {n : Nat} (h : x.Tracks n) :
    x = .infinite false ∨ (x = .negZero ∧ n = 0) ∨ ∃ q : ℚ, 0 ≤ q ∧ x = .rat q := by
  by_cases hn : n < exactLimit
  · rcases (h.is hn).cases with rfl | ⟨rfl, rfl⟩
    · exact Or.inr (Or.inr ⟨n, Nat.cast_nonneg n, rfl⟩)
    · exact Or.inr (Or.inl ⟨rfl, rfl⟩)
  · rcases h.large (by omega) with rfl | ⟨q, hq, rfl⟩
    · exact Or.inl rfl
    · exact Or.inr (Or.inr ⟨q, le_trans (Nat.cast_nonneg _) hq, rfl⟩)

theorem Tracks.not_lt_negZero {x : Num} {n : Nat} (h : x.Tracks n) : x.lt .negZero = false := by
  rcases h.cases with rfl | ⟨rfl, -⟩ | ⟨q, hq, rfl⟩
  · rfl
  · rfl
  · rw [lt_of_value (p := q) (q := 0) rfl rfl]
    simpa using hq

/-- The larger of two tracked numbers is one of them, and the other is not above it. -/
theorem max_cases {x y : Num} {a b : Nat} (hx : x.Tracks a) (hy : y.Tracks b) :
    (x.max y = y ∧ (x.lt y = true ∨ a = 0)) ∨ (x.max y = x ∧ x.lt y = false) := by
  rcases hx.cases with rfl | ⟨rfl, rfl⟩ | ⟨q, hq, rfl⟩
  · right
    rcases hy.cases with rfl | ⟨rfl, rfl⟩ | ⟨r, hr, rfl⟩ <;> exact ⟨rfl, rfl⟩
  · left
    refine ⟨?_, Or.inr rfl⟩
    have hstep : Num.negZero.max y = if y.lt .negZero then .negZero else y := by
      rcases hy.cases with rfl | ⟨rfl, rfl⟩ | ⟨r, hr, rfl⟩ <;> rfl
    rw [hstep, hy.not_lt_negZero]
    rfl
  · have hstep : (Num.rat q).max y = if (Num.rat q).lt y then y else .rat q := by
      rcases hy.cases with rfl | ⟨rfl, rfl⟩ | ⟨r, hr, rfl⟩ <;> rfl
    cases hlt : (Num.rat q).lt y with
    | true =>
        left
        exact ⟨by rw [hstep, hlt]; rfl, Or.inl rfl⟩
    | false =>
        right
        exact ⟨by rw [hstep, hlt]; rfl, rfl⟩

theorem Tracks.max {x y : Num} {a b : Nat} (hx : x.Tracks a) (hy : y.Tracks b) :
    (x.max y).Tracks (a.max b) := by
  by_cases ha : a < exactLimit
  · -- below the limit the comparison is that of the naturals
    have hlt := lt_iff (hx.is ha) ha hy
    rcases max_cases hx hy with ⟨h, hab⟩ | ⟨h, hab⟩
    · have hle : a ≤ b := by
        rcases hab with hab | hab
        · exact (hlt.mp hab).le
        · omega
      rw [h, show a.max b = b from Nat.max_eq_right hle]
      exact hy
    · have hle : b ≤ a := by
        rw [← Bool.not_eq_true, hlt] at hab
        omega
      rw [h, show a.max b = a from Nat.max_eq_left hle]
      exact hx
  · have hmax : exactLimit ≤ a.max b := Nat.le_trans (by omega) (Nat.le_max_left a b)
    refine tracks_of_large ?_ hmax
    rcases max_cases hx hy with ⟨h, hab⟩ | ⟨h, -⟩
    · rw [h]
      by_cases hb : b < exactLimit
      · rcases hab with hab | hab
        · rw [((hx.large (by omega)).lt (hy.is hb) hb).2] at hab
          exact Bool.noConfusion hab
        · rw [hab] at ha
          exact absurd (by decide) ha
      · exact hy.large (by omega)
    · rw [h]
      exact hx.large (by omega)

/-! ## Not-a-number -/

theorem not_small_nan : ¬Small .nan := by
  simp [Small, lt]

theorem Is.ne_nan {x : Num} {n : Nat} (h : x.Is n) : x ≠ .nan := by
  rintro rfl
  cases h

theorem Small.ne_nan {x : Num} (h : x.Small) : x ≠ .nan := by
  rintro rfl
  exact not_small_nan h

theorem nan_add (y : Num) : Num.nan + y = .nan := rfl

theorem add_nan (x : Num) : x + Num.nan = .nan := by
  cases x <;> rfl

theorem nan_max (y : Num) : Num.nan.max y = .nan := rfl

theorem max_nan (x : Num) : x.max .nan = .nan := by
  cases x <;> rfl

theorem lt_nan (x : Num) : x.lt .nan = false := by
  cases x <;> rfl

theorem eqv_nan (x : Num) : x.eqv .nan = false := by
  cases x <;> rfl

theorem nan_alignTo (al : Num) : Num.nan.alignTo al = .nan := by
  rw [alignTo]
  split
  · rfl
  · rfl

theorem mul_nan (x : Num) : x * Num.nan = .nan := by
  cases x <;> rfl

theorem alignTo_nan (x : Num) : x.alignTo .nan = .nan := by
  rw [alignTo]
  split
  · rename_i h
    cases h
  · exact mul_nan _

/-! ## Alignment -/

theorem roundUp_one (n : Nat) : roundUp n 1 = n := by simp [roundUp]

/-- The alignments that types can have. -/
def IsAlignment (a : Nat) : Prop := a = 1 ∨ a = 2 ∨ a = 4 ∨ a = 8

theorem IsAlignment.max {a b : Nat} (ha : IsAlignment a) (hb : IsAlignment b) :
    IsAlignment (a.max b) := by
  rcases ha with rfl | rfl | rfl | rfl <;> rcases hb with rfl | rfl | rfl | rfl <;>
    simp [IsAlignment]

theorem IsAlignment.pos {a : Nat} (ha : IsAlignment a) : 0 < a := by
  rcases ha with h | h | h | h <;> omega

theorem IsAlignment.lt_limit {a : Nat} (ha : IsAlignment a) : a < exactLimit := by
  rcases ha with h | h | h | h <;> rw [h] <;> decide

/-- The larger of two alignments is exact. -/
theorem Is.max {x y : Num} {a b : Nat} (hx : x.Is a) (ha : IsAlignment a) (hy : y.Is b)
    (hb : IsAlignment b) : (x.max y).Is (a.max b) :=
  ((tracks_of_is hx).max (tracks_of_is hy)).is (ha.max hb).lt_limit

theorem le_roundUp {n a : Nat} (ha : IsAlignment a) : n ≤ roundUp n a := by
  rcases ha with rfl | rfl | rfl | rfl <;> simp only [roundUp] <;> omega

theorem IsAlignment.pow {a : Nat} (ha : IsAlignment a) : ∃ j : Nat, j ≤ 3 ∧ (a : ℚ) = 2 ^ j := by
  rcases ha with rfl | rfl | rfl | rfl
  · exact ⟨0, by omega, by norm_num⟩
  · exact ⟨1, by omega, by norm_num⟩
  · exact ⟨2, by omega, by norm_num⟩
  · exact ⟨3, by omega, by norm_num⟩

/-- The quotient of a whole number by an alignment is exact. -/
theorem round_div {n a : Nat} (ha : IsAlignment a) (hn : n < exactLimit) :
    round ((n : ℚ) / a) = .rat ((n : ℚ) / a) := by
  obtain ⟨j, hj, haj⟩ := ha.pow
  have hnonneg : (0 : ℚ) ≤ (n : ℚ) / a := by positivity
  have hunits : |(n : ℚ) / a| = n * 2 ^ (-(j : Int)) := by
    rw [abs_of_nonneg hnonneg, haj, zpow_neg, zpow_natCast, div_eq_mul_inv]
  have hone : (1 : ℚ) ≤ a := by exact_mod_cast (show 1 ≤ a by rcases ha with h | h | h | h <;> omega)
  have hfin : |(n : ℚ) / a| < 2 ^ (1024 : Int) := by
    rw [abs_of_nonneg hnonneg]
    calc (n : ℚ) / a ≤ n := div_le_self (Nat.cast_nonneg n) hone
      _ < exactLimit := by exact_mod_cast hn
      _ = 2 ^ (53 : Int) := exactLimit_cast
      _ ≤ 2 ^ (1024 : Int) := zpow_le_zpow_right₀ (by norm_num) (by norm_num)
  exact round_exact hunits hn (by omega) hfin

theorem ceil_div {n a : Nat} (ha : IsAlignment a) :
    ((n : ℚ) / a).ceil = ((n + a - 1) / a : Nat) := by
  have hpos : 0 < a := by rcases ha with h | h | h | h <;> omega
  have hposq : (0 : ℚ) < a := by exact_mod_cast hpos
  apply le_antisymm
  · rw [Rat.ceil_le_iff, div_le_iff₀ hposq]
    have : n ≤ (n + a - 1) / a * a := le_roundUp ha
    exact_mod_cast this
  · rw [← Int.sub_one_lt_iff, Rat.lt_ceil_iff, lt_div_iff₀ hposq]
    have hlt : (((n + a - 1) / a : Nat) : Int) * a < n + a := by
      have hle : (n + a - 1) / a * a ≤ n + a - 1 := Nat.div_mul_le_self _ _
      have hlt : (n + a - 1) / a * a < n + a := by omega
      exact_mod_cast hlt
    obtain ⟨c, hc⟩ : ∃ c, c = (n + a - 1) / a := ⟨_, rfl⟩
    rw [← hc] at hlt ⊢
    have hltq : (c : ℚ) * a < n + a := by exact_mod_cast hlt
    push_cast
    linarith

theorem ceil_rat {q : ℚ} (hq : 0 ≤ q) : (Num.rat q).ceil = .rat q.ceil := by
  show (if q.ceil = 0 ∧ q < 0 then _ else _) = _
  rw [if_neg fun h => absurd h.2 (not_lt.mpr hq)]

/-- A quotient by an alignment, raised to a whole number, is exact below the limit. -/
theorem Is.ceil_div {x : Num} {n a : Nat} (hx : x.Is n) (hn : n < exactLimit)
    (ha : IsAlignment a) : (x / .rat (a : ℚ)).ceil.Is ((n + a - 1) / a) := by
  have haq : ¬ (a : ℚ) = 0 := by
    exact_mod_cast (show ¬ a = 0 by rcases ha with h | h | h | h <;> omega)
  have hzero : ∀ s : Bool, (zero s).ceil.Is ((0 + a - 1) / a) := by
    intro s
    have h0 : (0 + a - 1) / a = 0 := Nat.div_eq_of_lt (by
      rcases ha with h | h | h | h <;> omega)
    rw [h0]
    cases s
    · exact (ceil_rat (le_refl 0)).symm ▸ rfl
    · simp [zero, ceil, Is, value?]
  rcases hx.cases with rfl | ⟨rfl, rfl⟩
  · have hdiv : Num.rat (n : ℚ) / .rat (a : ℚ) =
        if (n : ℚ) = 0 then zero ((Num.rat (n : ℚ)).isNegative != (Num.rat (a : ℚ)).isNegative)
        else round ((n : ℚ) / a) := if_neg haq
    rw [hdiv]
    by_cases h0 : n = 0
    · subst h0
      exact hzero _
    · rw [if_neg (by exact_mod_cast h0), round_div ha hn, ceil_rat (by positivity), Num.ceil_div ha,
        Is, value?, Int.cast_natCast]
  · have hdiv : Num.negZero / .rat (a : ℚ) =
        zero (Num.negZero.isNegative != (Num.rat (a : ℚ)).isNegative) := if_neg haq
    rw [hdiv]
    exact hzero _

theorem infinite_mul {a : Nat} (ha : IsAlignment a) :
    Num.infinite false * .rat (a : ℚ) = .infinite false := by
  have hapos : (0 : ℚ) < a := by exact_mod_cast ha.pos
  have hneg : (Num.rat (a : ℚ)).isNegative = false := by simp [isNegative]
  show (if (Num.rat (a : ℚ)).eqv (.rat 0) then _ else _) = _
  rw [eqv_of_value (p := (a : ℚ)) (q := 0) rfl rfl, decide_eq_false hapos.ne', hneg]
  rfl

/-- Infinity stays infinite when it is raised to an alignment. -/
theorem infinite_ceil_div_mul {a : Nat} (ha : IsAlignment a) :
    (Num.infinite false / .rat (a : ℚ)).ceil * .rat (a : ℚ) = .infinite false := by
  have hneg : (Num.rat (a : ℚ)).isNegative = false := by simp [isNegative]
  have hdiv : Num.infinite false / .rat (a : ℚ) =
      .infinite (false != (Num.rat (a : ℚ)).isNegative) := rfl
  rw [hdiv, hneg]
  exact infinite_mul ha

/-- Beyond the limit, raising to an alignment stays beyond it. -/
theorem Large.ceil_div_mul {x : Num} {a : Nat} (hx : x.Large) (ha : IsAlignment a) :
    ((x / .rat (a : ℚ)).ceil * .rat (a : ℚ)).Large := by
  have hapos : (0 : ℚ) < a := by exact_mod_cast ha.pos
  rcases hx with rfl | ⟨q, hq, rfl⟩
  · exact Or.inl (infinite_ceil_div_mul ha)
  · obtain ⟨j, hj, haj⟩ := ha.pow
    have hqpos : 0 < q := lt_of_lt_of_le (by rw [exactLimit_cast]; positivity) hq
    have hdiv : Num.rat q / .rat (a : ℚ) = round (q / a) := by
      show (if (a : ℚ) = 0 then _ else if q = 0 then _ else _) = _
      rw [if_neg hapos.ne', if_neg hqpos.ne']
      rfl
    have hge : (2 : ℚ) ^ (53 - (j : Int)) ≤ q / a := by
      rw [haj, zpow_sub₀ (by norm_num), zpow_natCast, ← exactLimit_cast]
      gcongr
    rw [hdiv]
    rcases le_round (by omega) hge with h | ⟨r, hr, h⟩
    · rw [h]
      exact Or.inl (infinite_mul ha)
    · have hrpos : 0 < r := lt_of_lt_of_le (by positivity) hr
      have hceil : (exactLimit : ℚ) ≤ r.ceil * a := by
        calc (exactLimit : ℚ) = 2 ^ (53 - (j : Int)) * a := by
              rw [haj, zpow_sub₀ (by norm_num), zpow_natCast, exactLimit_cast,
                div_mul_cancel₀ _ (by positivity)]
          _ ≤ r.ceil * a := by
              have := Rat.le_ceil (x := r)
              gcongr
              exact le_trans hr this
      have hne : ¬ (r.ceil : ℚ) * a = 0 := by
        intro h0
        rw [h0, exactLimit_cast] at hceil
        norm_num at hceil
      rw [h, ceil_rat hrpos.le]
      show (if (r.ceil : ℚ) * a = 0 then _ else round ((r.ceil : ℚ) * a)).Large
      rw [if_neg hne]
      exact large_round hceil

/-- An alignment of one changes nothing, every other one divides and multiplies. -/
theorem alignTo_eq {al : Num} {a : Nat} (hal : al.Is a) (ha : IsAlignment a) (x : Num) :
    x.alignTo al = if a = 1 then x else (x / .rat (a : ℚ)).ceil * .rat (a : ℚ) := by
  have hone : (1 : Num).Is 1 := is_ofNat (by decide)
  have hle : al.le 1 = decide (a = 1) := by
    rw [Num.le, lt_of_is hal hone, eqv_of_is hal hone]
    rcases ha with rfl | rfl | rfl | rfl <;> rfl
  have halrat : al = .rat a := by
    rcases hal.cases with h | ⟨-, h⟩
    · exact h
    · exact absurd h ha.pos.ne'
  rw [Num.alignTo, hle, halrat]
  simp only [decide_eq_true_eq]

/-- Raising a tracked number to an alignment tracks raising the natural number. -/
theorem Tracks.alignTo {x al : Num} {n a : Nat} (hx : x.Tracks n) (hal : al.Is a)
    (ha : IsAlignment a) : (x.alignTo al).Tracks (roundUp n a) := by
  have halrat : (Num.rat (a : ℚ)).Is a := rfl
  rw [alignTo_eq hal ha]
  split
  · rename_i hone
    rw [hone, roundUp_one]
    exact hx
  · by_cases hn : n < exactLimit
    · exact ((hx.is hn).ceil_div hn ha).mul_tracks halrat
    · exact tracks_of_large ((hx.large (by omega)).ceil_div_mul ha)
        (Nat.le_trans (by omega) (le_roundUp ha))

theorem Is.alignTo {x al : Num} {n a : Nat} (hx : x.Is n) (hal : al.Is a) (ha : IsAlignment a)
    (h : roundUp n a < exactLimit) : (x.alignTo al).Is (roundUp n a) :=
  ((tracks_of_is hx).alignTo hal ha).is h

end Num
end Relayout

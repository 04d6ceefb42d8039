import Relayout.Proofs.Canonical

/-!
# Numbers up to the sign of zero

Layouts and positions are computed from numbers that a document states, and a
document does not state the sign of a zero. `Same` is equality but for that sign:
comparisons cannot tell two such numbers apart, and sums, products, maxima and
alignments of them are the same again.
-/

namespace Relayout.Num

/-- Equal but for the sign of zero. -/
def Same (x y : Num) : Prop :=
  x.plain = y.plain

namespace Same

theorem refl (x : Num) : x.Same x :=
  rfl

theorem symm {x y : Num} (h : x.Same y) : y.Same x :=
  Eq.symm h

theorem trans {x y z : Num} (h : x.Same y) (h' : y.Same z) : x.Same z :=
  Eq.trans h h'

end Same

theorem same_plain (x : Num) : x.plain.Same x :=
  plain_plain x

theorem negZero_same : negZero.Same (.rat 0) :=
  rfl

theorem same_zero (a b : Bool) : (zero a).Same (zero b) := by
  cases a <;> cases b <;> rfl

/-- Numbers that are the same are equal or the two zeros. -/
theorem Same.cases {x y : Num} (h : x.Same y) :
    x = y ∨ (x = .negZero ∧ y = .rat 0) ∨ (x = .rat 0 ∧ y = .negZero) := by
  cases x with
  | negZero =>
      cases y with
      | rat q =>
          have hq : (0 : ℚ) = q := Num.rat.inj h
          exact Or.inr (Or.inl ⟨rfl, by rw [← hq]⟩)
      | negZero => exact Or.inl rfl
      | _ => cases h
  | rat q =>
      cases y with
      | negZero =>
          have hq : q = 0 := Num.rat.inj h
          exact Or.inr (Or.inr ⟨by rw [hq], rfl⟩)
      | rat r => exact Or.inl h
      | _ => cases h
  | _ =>
      cases y with
      | negZero => cases h
      | _ => exact Or.inl h

/-- A function that cannot tell the two zeros apart cannot tell numbers apart that
are the same. -/
theorem eq_of_zero {α : Type} (f : Num → α) (hzero : f .negZero = f (.rat 0)) {x y : Num}
    (h : x.Same y) : f x = f y := by
  rcases h.cases with rfl | ⟨rfl, rfl⟩ | ⟨rfl, rfl⟩
  · rfl
  · exact hzero
  · exact hzero.symm

/-- An operation that comes to the same for the two zeros comes to the same for
numbers that are the same. -/
theorem same_of_zero (f : Num → Num) (hzero : (f .negZero).Same (f (.rat 0))) {x y : Num}
    (h : x.Same y) : (f x).Same (f y) :=
  eq_of_zero (fun x => (f x).plain) hzero h

/-! ## Comparisons -/

section Comparisons

variable {x x' y y' : Num}

theorem Same.isWhole (h : x.Same x') : x.isWhole = x'.isWhole :=
  eq_of_zero Num.isWhole rfl h

theorem Same.index? (h : x.Same x') : x.index? = x'.index? :=
  eq_of_zero Num.index? rfl h

theorem Same.lt (h : x.Same x') (h' : y.Same y') : x.lt y = x'.lt y' := by
  have hleft : x.lt y = x'.lt y := eq_of_zero (·.lt y) (by cases y <;> rfl) h
  have hright : x'.lt y = x'.lt y' := eq_of_zero x'.lt (by cases x' <;> rfl) h'
  exact hleft.trans hright

theorem Same.eqv (h : x.Same x') (h' : y.Same y') : x.eqv y = x'.eqv y' := by
  have hleft : x.eqv y = x'.eqv y := eq_of_zero (·.eqv y) (by cases y <;> rfl) h
  have hright : x'.eqv y = x'.eqv y' := eq_of_zero x'.eqv (by cases x' <;> rfl) h'
  exact hleft.trans hright

end Comparisons

/-! ## Arithmetic -/

section Arithmetic

variable {x x' y y' : Num}

theorem zeros_add : negZero + rat 0 = rat 0 ∧ rat 0 + negZero = rat 0 := by
  have hround : round (0 + 0) = rat 0 := by
    rw [add_zero]
    exact ofNat_eq_rat (Nat.zero_le _)
  exact ⟨hround, hround⟩

theorem Same.add (h : x.Same x') (h' : y.Same y') : (x + y).Same (x' + y') := by
  have hleft : (x + y).Same (x' + y) := same_of_zero (· + y) (by
    cases y with
    | negZero =>
        rw [zeros_add.2]
        exact negZero_same
    | _ => exact .refl _) h
  have hright : (x' + y).Same (x' + y') := same_of_zero (x' + ·) (by
    cases x' with
    | negZero =>
        rw [zeros_add.1]
        exact negZero_same
    | _ => exact .refl _) h'
  exact hleft.trans hright

/-- A zero times a finite number is a zero, in either order. -/
theorem mul_zero_eq {z y : Num} {q : ℚ} (hz : z.value? = some 0) (hy : y.value? = some q) :
    (∃ negative, z * y = zero negative) ∧ ∃ negative, y * z = zero negative := by
  refine ⟨⟨z.isNegative != y.isNegative, ?_⟩, y.isNegative != z.isNegative, ?_⟩
  · show z.mul y = _
    unfold Num.mul
    split
    all_goals simp_all [value?]
  · show y.mul z = _
    unfold Num.mul
    split
    all_goals simp_all [value?]

theorem Same.mul (h : x.Same x') (h' : y.Same y') : (x * y).Same (x' * y') := by
  have hzeros : ∀ y : Num, (negZero * y).Same (.rat 0 * y) ∧ (y * negZero).Same (y * .rat 0) := by
    intro y
    cases hy : y.value? with
    | some q =>
        obtain ⟨⟨a, ha⟩, a', ha'⟩ := mul_zero_eq (z := negZero) rfl hy
        obtain ⟨⟨b, hb⟩, b', hb'⟩ := mul_zero_eq (z := .rat 0) rfl hy
        rw [ha, hb, ha', hb']
        exact ⟨same_zero a b, same_zero a' b'⟩
    | none =>
        cases y with
        | nan => exact ⟨.refl _, .refl _⟩
        | infinite b => exact ⟨.refl _, .refl _⟩
        | _ => cases hy
  exact (same_of_zero (· * y) (hzeros y).1 h).trans (same_of_zero (x' * ·) (hzeros x').2 h')

/-- A zero over a number other than zero is a zero or no number. -/
theorem Same.div (h : x.Same x') {a : Num} (ha : a.eqv (.rat 0) = false) : (x / a).Same (x' / a) := by
  refine same_of_zero (· / a) ?_ h
  cases a with
  | nan => exact .refl _
  | infinite b => exact same_zero _ _
  | negZero => simp [Num.eqv, value?] at ha
  | rat q =>
      have hq : q ≠ 0 := of_decide_eq_false ha
      show (if q = 0 then _ else if (0 : ℚ) = 0 then zero _ else _ : Num).Same
        (if q = 0 then _ else if (0 : ℚ) = 0 then zero _ else _)
      rw [if_neg hq, if_neg hq, if_pos rfl, if_pos rfl]
      exact same_zero _ _

theorem Same.ceil (h : x.Same x') : x.ceil.Same x'.ceil := by
  refine same_of_zero Num.ceil ?_ h
  have hnegative : negZero.ceil = negZero := rfl
  have hceil : (0 : ℚ).ceil = 0 := rfl
  have hpositive : (rat 0).ceil = rat 0 := by
    rw [Num.ceil, if_neg (by simp), hceil, Int.cast_zero]
  rw [hnegative, hpositive]
  exact negZero_same

theorem max_zeros (y : Num) : (negZero.max y).Same ((rat 0).max y) ∧
    (y.max negZero).Same (y.max (.rat 0)) := by
  cases y with
  | nan => exact ⟨.refl _, .refl _⟩
  | infinite b => cases b <;> exact ⟨rfl, rfl⟩
  | negZero => exact ⟨rfl, rfl⟩
  | rat q =>
      have hleft : ((rat q).lt negZero) = decide (q < 0) := rfl
      have hright : ((rat 0).lt (rat q)) = decide (0 < q) := rfl
      have hleft' : ((rat q).lt (rat 0)) = decide (q < 0) := rfl
      simp only [Num.max, hleft, hright, hleft', decide_eq_true_eq]
      rcases lt_trichotomy q 0 with hq | hq | hq
      · rw [if_pos hq, if_neg hq.not_gt, if_pos hq]
        exact ⟨negZero_same, negZero_same⟩
      · rw [hq]
        exact ⟨.refl _, .refl _⟩
      · rw [if_neg hq.not_gt, if_pos hq, if_neg hq.not_gt]
        exact ⟨.refl _, .refl _⟩

theorem Same.max (h : x.Same x') (h' : y.Same y') : (x.max y).Same (x'.max y') := by
  have hleft : (x.max y).Same (x'.max y) := same_of_zero (·.max y) (max_zeros y).1 h
  have hright : (x'.max y).Same (x'.max y') := same_of_zero x'.max (max_zeros x').2 h'
  exact hleft.trans hright

/-- An alignment above one is no zero. -/
theorem Same.alignTo (h : x.Same x') (a : Num) : (x.alignTo a).Same (x'.alignTo a) := by
  rw [Num.alignTo, Num.alignTo]
  split
  · exact h
  · rename_i ha
    have hzero : a.eqv (.rat 0) = false := by
      cases a with
      | nan => rfl
      | infinite b => rfl
      | negZero => exact absurd rfl ha
      | rat q =>
          refine decide_eq_false ?_
          rintro rfl
          exact absurd rfl ha
    exact Same.mul (Same.ceil (h.div hzero)) (.refl a)

end Arithmetic

end Relayout.Num

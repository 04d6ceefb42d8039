import Relayout.Json.Parser
import Mathlib

/-!
# Numerals

A natural number is written with digits that denote it. A numeral is a whole
part, a fraction and a power of ten after an optional minus; `Numeral` is its
grammar, and reading a number takes exactly the texts that the grammar allows:

- a numeral is read whole if nothing follows that could go on with it (`Numeral.read`);
- whatever is read off a text is a numeral (`readNum?_sound`).
-/

namespace Relayout

namespace Text

/-! ## Digits and the numbers they denote -/

theorem digitValue_digit : ∀ n < 10, digitValue (digit n) = n := by decide

theorem isDigit_digit : ∀ n < 10, isDigit (digit n) = true := by decide

theorem digit_eq_zero : ∀ n < 10, digit n = digit 0 → n = 0 := by decide

/-- A run of decimal digits. -/
def Digits (t : Text) : Prop :=
  ∀ u ∈ t, isDigit u = true

theorem digits_append {a b : Text} : Digits (a ++ b) ↔ Digits a ∧ Digits b :=
  List.forall_mem_append

theorem natValue_append (a b : Text) :
    natValue (a ++ b) = natValue a * 10 ^ b.length + natValue b := by
  induction b using List.reverseRecOn with
  | nil => simp [natValue]
  | append_singleton b u ih =>
      rw [← List.append_assoc, natValue, List.foldl_append, List.foldl_cons, List.foldl_nil,
        ← natValue, ih]
      rw [natValue, natValue, natValue, List.foldl_append, List.foldl_cons, List.foldl_nil,
        List.length_append, List.length_singleton, pow_succ]
      ring

theorem natValue_singleton {n : Nat} (h : n < 10) : natValue [digit n] = n := by
  rw [natValue, List.foldl_cons, List.foldl_nil, digitValue_digit n h]
  omega

theorem natValue_zeros (k : Nat) : natValue (List.replicate k (digit 0)) = 0 := by
  induction k with
  | zero => rfl
  | succ k ih => rw [List.replicate_succ', natValue_append, ih, natValue_singleton (by omega)]; simp

/-- The digits found are put in front of those that are already there. -/
theorem digitsInto_append (fuel n : Nat) (acc : Text) :
    digitsInto fuel n acc = digitsInto fuel n [] ++ acc := by
  induction fuel generalizing n acc with
  | zero => rfl
  | succ fuel ih =>
      rw [digitsInto, digitsInto]
      split
      · rfl
      · rw [ih, ih (n / 10) [digit (n % 10)], List.append_assoc]
        rfl

/-- One step of writing: the digits of the tenth, then the last digit. -/
theorem digitsInto_succ {n : Nat} (fuel : Nat) (h : 10 ≤ n) :
    digitsInto (fuel + 1) n [] = digitsInto fuel (n / 10) [] ++ [digit (n % 10)] := by
  rw [digitsInto, if_neg (by omega), digitsInto_append]

theorem digits_digitsInto (fuel n : Nat) : Digits (digitsInto fuel n []) := by
  induction fuel generalizing n with
  | zero => simp [digitsInto, Digits]
  | succ fuel ih =>
      by_cases h : n < 10
      · rw [digitsInto, if_pos h]
        simp [Digits, isDigit_digit n h]
      · rw [digitsInto_succ fuel (by omega), digits_append]
        refine ⟨ih _, ?_⟩
        simp [Digits, isDigit_digit (n % 10) (by omega)]

theorem natValue_digitsInto {fuel n : Nat} (h : n < 2 ^ fuel) :
    natValue (digitsInto fuel n []) = n := by
  induction fuel generalizing n with
  | zero =>
      obtain rfl : n = 0 := by omega
      rfl
  | succ fuel ih =>
      by_cases hn : n < 10
      · rw [digitsInto, if_pos hn, natValue_singleton hn]
      · have hfuel : n / 10 < 2 ^ fuel := by omega
        rw [digitsInto_succ fuel (by omega), natValue_append, ih hfuel,
          natValue_singleton (by omega), List.length_singleton]
        omega

/-- Only zero is written with a zero in front. -/
theorem head_digitsInto {fuel n : Nat} (h : n < 2 ^ fuel) (hn : n ≠ 0) :
    ∃ u rest, digitsInto fuel n [] = u :: rest ∧ u ≠ digit 0 := by
  induction fuel generalizing n with
  | zero => omega
  | succ fuel ih =>
      by_cases hten : n < 10
      · rw [digitsInto, if_pos hten]
        exact ⟨_, _, rfl, fun h0 => hn (digit_eq_zero n hten h0)⟩
      · obtain ⟨u, rest, hdigits, hu⟩ := ih (n := n / 10) (by omega) (by omega)
        rw [digitsInto_succ fuel (by omega), hdigits]
        exact ⟨u, rest ++ [digit (n % 10)], rfl, hu⟩

theorem digits_ofNat (n : Nat) : Digits (ofNat n) :=
  digits_digitsInto _ n

/-- A number in decimal denotes itself. -/
theorem natValue_ofNat (n : Nat) : natValue (ofNat n) = n :=
  natValue_digitsInto Nat.lt_log2_self

theorem head_ofNat {n : Nat} (hn : n ≠ 0) : ∃ u rest, ofNat n = u :: rest ∧ u ≠ digit 0 :=
  head_digitsInto Nat.lt_log2_self hn

theorem ofNat_ne_nil (n : Nat) : ofNat n ≠ [] := by
  intro h
  by_cases hn : n = 0
  · subst hn
    cases h
  · obtain ⟨u, rest, hdigits, -⟩ := head_ofNat hn
    rw [h] at hdigits
    cases hdigits


end Text

namespace Json

/-! ## The grammar of numerals -/

/-- The whole part: one zero, or digits that do not start with zero. -/
inductive Whole : Text → Prop
  | zero : Whole [Text.digit 0]
  | digits {u : UInt16} {rest : Text} (hu : u ≠ Text.digit 0) (h : Text.Digits (u :: rest)) :
      Whole (u :: rest)

/-- The part after the whole one, with its digits: nothing, or a point and digits. -/
inductive Fraction : Text → Text → Prop
  | none : Fraction [] []
  | point {ds : Text} (hne : ds ≠ []) (h : Text.Digits ds) : Fraction (Text.unit '.' :: ds) ds

/-- The mark of a power of ten, in either case. -/
def IsMark (u : UInt16) : Prop :=
  u = Text.unit 'e' ∨ u = Text.unit 'E'

instance (u : UInt16) : Decidable (IsMark u) :=
  inferInstanceAs (Decidable (_ ∨ _))

/-- The power of ten at the end, with its exponent: nothing, or a mark, a sign
that may be left out, and digits. -/
inductive Power : Text → Int → Prop
  | none : Power [] 0
  | plain {u : UInt16} {ds : Text} (hu : IsMark u) (hne : ds ≠ []) (h : Text.Digits ds) :
      Power (u :: ds) (Text.natValue ds)
  | plus {u : UInt16} {ds : Text} (hu : IsMark u) (hne : ds ≠ []) (h : Text.Digits ds) :
      Power (u :: Text.unit '+' :: ds) (Text.natValue ds)
  | minus {u : UInt16} {ds : Text} (hu : IsMark u) (hne : ds ≠ []) (h : Text.Digits ds) :
      Power (u :: Text.unit '-' :: ds) (-(Text.natValue ds : Int))

/-- A number without its sign, with the number that it denotes after the given sign. -/
inductive Unsigned (negative : Bool) : Text → Num → Prop
  | mk {whole fraction ds power : Text} {e : Int} (hwhole : Whole whole)
      (hfraction : Fraction fraction ds) (hpower : Power power e) :
      Unsigned negative (whole ++ (fraction ++ power))
        (Num.ofDecimal negative (Text.natValue (whole ++ ds)) (e - ds.length))

/-- A text that spells a number, with the number. -/
inductive Numeral : Text → Num → Prop
  | positive {t : Text} {x : Num} (h : Unsigned false t x) : Numeral t x
  | negative {t : Text} {x : Num} (h : Unsigned true t x) : Numeral (Text.unit '-' :: t) x

/-! ## What may follow -/

/-- The text does not start with a digit. -/
def NoDigit (t : Text) : Prop :=
  ∀ u ∈ t.head?, Text.isDigit u = false

/-- The text does not go on with a numeral. -/
def Stops (t : Text) : Prop :=
  ∀ u ∈ t.head?, Text.isDigit u = false ∧ u ≠ Text.unit '.' ∧ ¬IsMark u

theorem Stops.noDigit {t : Text} (h : Stops t) : NoDigit t :=
  fun u hu => (h u hu).1

theorem stops_nil : Stops [] := by
  simp [Stops]

theorem stops_cons {u : UInt16} (t : Text)
    (h : Text.isDigit u = false ∧ u ≠ Text.unit '.' ∧ ¬IsMark u) : Stops (u :: t) := by
  simpa [Stops] using h

theorem isDigit_of_isMark {u : UInt16} (h : IsMark u) : Text.isDigit u = false := by
  rcases h with rfl | rfl <;> decide

theorem ne_point_of_isMark {u : UInt16} (h : IsMark u) : u ≠ Text.unit '.' := by
  rcases h with rfl | rfl <;> decide

theorem Power.noDigit {p rest : Text} {e : Int} (h : Power p e) (hrest : NoDigit rest) :
    NoDigit (p ++ rest) := by
  cases h with
  | none => exact hrest
  | plain hu => simpa [NoDigit] using isDigit_of_isMark hu
  | plus hu => simpa [NoDigit] using isDigit_of_isMark hu
  | minus hu => simpa [NoDigit] using isDigit_of_isMark hu

theorem Fraction.noDigit {f ds rest : Text} (h : Fraction f ds) (hrest : NoDigit rest) :
    NoDigit (f ++ rest) := by
  cases h with
  | none => exact hrest
  | point => simp [NoDigit]; decide

/-! ## Reading a numeral -/

theorem readDigits_append {ds rest : Text} (hds : Text.Digits ds) (hrest : NoDigit rest) :
    readDigits (ds ++ rest) = (ds, rest) := by
  have hnone : rest.takeWhile Text.isDigit = [] ∧ rest.dropWhile Text.isDigit = rest := by
    cases rest with
    | nil => exact ⟨rfl, rfl⟩
    | cons u rest =>
        have hu : Text.isDigit u = false := hrest u rfl
        simp [hu]
  rw [readDigits, List.takeWhile_append_of_pos hds, List.dropWhile_append_of_pos hds, hnone.1,
    hnone.2, List.append_nil]

theorem Whole.read {w rest : Text} (h : Whole w) (hrest : NoDigit rest) :
    readWhole? (w ++ rest) = some (w, rest) := by
  cases h with
  | zero => rfl
  | @digits u w hu hds =>
      have hdigit : Text.isDigit u = true := hds u List.mem_cons_self
      rw [List.cons_append, readWhole?, if_neg hu, if_pos hdigit, ← List.cons_append,
        readDigits_append hds hrest]

theorem Fraction.read {f ds rest : Text} (h : Fraction f ds) (hdigit : NoDigit rest)
    (hpoint : ∀ u ∈ rest.head?, u ≠ Text.unit '.') : readFraction? (f ++ rest) = some (ds, rest) := by
  cases h with
  | none =>
      cases rest with
      | nil => rfl
      | cons u rest => rw [List.nil_append, readFraction?, if_neg (hpoint u rfl)]
  | point hne hds =>
      rw [List.cons_append, readFraction?, if_pos rfl, readDigits_append hds hdigit]
      cases ds with
      | nil => exact absurd rfl hne
      | cons u ds => rfl

/-- The sign in front of an exponent, set for minus; it may be left out. -/
def takeSign : Text → Bool × Text
  | [] => (false, [])
  | v :: rest =>
    if v = Text.unit '-' then (true, rest)
    else if v = Text.unit '+' then (false, rest)
    else (false, v :: rest)

theorem takeSign_plus (rest : Text) : takeSign (Text.unit '+' :: rest) = (false, rest) := rfl

theorem takeSign_minus (rest : Text) : takeSign (Text.unit '-' :: rest) = (true, rest) := rfl

theorem takeSign_digits {ds rest : Text} (hne : ds ≠ []) (hds : Text.Digits ds) :
    takeSign (ds ++ rest) = (false, ds ++ rest) := by
  cases ds with
  | nil => exact absurd rfl hne
  | cons v ds =>
      have hv : Text.isDigit v = true := hds v List.mem_cons_self
      have hminus : v ≠ Text.unit '-' := by rintro rfl; exact absurd hv (by decide)
      have hplus : v ≠ Text.unit '+' := by rintro rfl; exact absurd hv (by decide)
      rw [List.cons_append, takeSign, if_neg hminus, if_neg hplus]

/-- After a mark stand a sign and digits. -/
theorem readExponent?_mark {u : UInt16} (hu : IsMark u) (rest : Text) :
    readExponent? (u :: rest) =
      match readDigits (takeSign rest).2 with
      | ([], _) => none
      | (found, tail) =>
        some (if (takeSign rest).1 then -(Text.natValue found : Int) else Text.natValue found, tail) := by
  have hmark : (u = Text.unit 'e' || u = Text.unit 'E') = true := by simpa [IsMark] using hu
  rw [readExponent?.eq_def]
  simp only [if_pos hmark]
  cases rest <;> rfl

/-- The digits of a power of ten are read whole, whatever sign was taken. -/
theorem readExponent?_of_digits {u : UInt16} {rest ds tail : Text} {negative : Bool}
    (hu : IsMark u) (hne : ds ≠ []) (hds : Text.Digits ds) (htail : NoDigit tail)
    (hsign : takeSign rest = (negative, ds ++ tail)) :
    readExponent? (u :: rest) =
      some (if negative then -(Text.natValue ds : Int) else Text.natValue ds, tail) := by
  rw [readExponent?_mark hu, hsign, readDigits_append hds htail]
  cases ds with
  | nil => exact absurd rfl hne
  | cons v ds => rfl

theorem Power.read {p rest : Text} {e : Int} (h : Power p e) (hrest : Stops rest) :
    readExponent? (p ++ rest) = some (e, rest) := by
  cases h with
  | none =>
      cases rest with
      | nil => rfl
      | cons u rest =>
          have hmark : ¬(u = Text.unit 'e' || u = Text.unit 'E') = true := by
            simpa [IsMark] using (hrest u rfl).2.2
          rw [List.nil_append, readExponent?.eq_def]
          simp only [if_neg hmark]
  | plain hu hne hds =>
      exact readExponent?_of_digits hu hne hds hrest.noDigit (takeSign_digits hne hds)
  | plus hu hne hds => exact readExponent?_of_digits hu hne hds hrest.noDigit (takeSign_plus _)
  | minus hu hne hds => exact readExponent?_of_digits hu hne hds hrest.noDigit (takeSign_minus _)

theorem Power.ne_point {p rest : Text} {e : Int} (h : Power p e) (hrest : Stops rest) :
    ∀ u ∈ (p ++ rest).head?, u ≠ Text.unit '.' := by
  cases h with
  | none => exact fun u hu => (hrest u hu).2.1
  | plain hu => simpa using ne_point_of_isMark hu
  | plus hu => simpa using ne_point_of_isMark hu
  | minus hu => simpa using ne_point_of_isMark hu

theorem Unsigned.read {negative : Bool} {t rest : Text} {x : Num} (h : Unsigned negative t x)
    (hrest : Stops rest) : readUnsigned? negative (t ++ rest) = some (x, rest) := by
  obtain ⟨hwhole, hfraction, hpower⟩ := h
  have hdigit := hpower.noDigit hrest.noDigit
  rw [readUnsigned?, List.append_assoc, List.append_assoc, hwhole.read (hfraction.noDigit hdigit)]
  simp only [Option.bind_eq_bind, Option.bind_some, hfraction.read hdigit (hpower.ne_point hrest),
    hpower.read hrest]
  rfl

/-- A number starts with a digit, or with a minus. -/
theorem Unsigned.head {negative : Bool} {t : Text} {x : Num} (h : Unsigned negative t x) :
    ∃ u rest, t = u :: rest ∧ Text.isDigit u = true := by
  obtain ⟨hwhole, -, -⟩ := h
  cases hwhole with
  | zero => exact ⟨_, _, rfl, by decide⟩
  | digits hu hds => exact ⟨_, _, rfl, hds _ List.mem_cons_self⟩

theorem Numeral.head {t : Text} {x : Num} (h : Numeral t x) :
    ∃ u rest, t = u :: rest ∧ (u = Text.unit '-' ∨ Text.isDigit u = true) := by
  cases h with
  | positive h =>
      obtain ⟨u, rest, rfl, hu⟩ := h.head
      exact ⟨u, rest, rfl, Or.inr hu⟩
  | negative h => exact ⟨_, _, rfl, Or.inl rfl⟩

/-- A numeral is read whole if no part of a numeral follows. -/
theorem Numeral.read {t rest : Text} {x : Num} (h : Numeral t x) (hrest : Stops rest) :
    readNum? (t ++ rest) = some (x, rest) := by
  cases h with
  | positive h =>
      obtain ⟨u, t', rfl, hu⟩ := h.head
      have hminus : u ≠ Text.unit '-' := by rintro rfl; exact absurd hu (by decide)
      have hread := h.read hrest
      rw [List.cons_append] at hread ⊢
      rw [readNum?, if_neg hminus, hread]
  | negative h => rw [List.cons_append, readNum?, if_pos rfl, h.read hrest]

/-! ## What is read is a numeral -/

theorem readDigits_sound {s ds rest : Text} (h : readDigits s = (ds, rest)) :
    s = ds ++ rest ∧ Text.Digits ds := by
  rw [readDigits, Prod.mk.injEq] at h
  obtain ⟨rfl, rfl⟩ := h
  exact ⟨List.takeWhile_append_dropWhile.symm, fun u hu => List.mem_takeWhile_imp hu⟩

theorem readWhole?_sound {s w rest : Text} (h : readWhole? s = some (w, rest)) :
    s = w ++ rest ∧ Whole w := by
  cases s with
  | nil => cases h
  | cons u s =>
      rw [readWhole?] at h
      split at h
      · rename_i hzero
        cases h
        exact ⟨rfl, hzero ▸ Whole.zero⟩
      · rename_i hzero
        split at h
        · rename_i hdigit
          obtain ⟨hs, hds⟩ := readDigits_sound (Option.some.inj h)
          cases w with
          | nil => simp [readDigits, hdigit] at h
          | cons v w =>
              obtain ⟨rfl, -⟩ := List.cons.inj hs
              exact ⟨hs, Whole.digits hzero hds⟩
        · cases h

theorem readFraction?_sound {s ds rest : Text} (h : readFraction? s = some (ds, rest)) :
    ∃ f, s = f ++ rest ∧ Fraction f ds := by
  cases s with
  | nil =>
      cases h
      exact ⟨[], rfl, Fraction.none⟩
  | cons u s =>
      rw [readFraction?] at h
      split at h
      · rename_i hpoint
        split at h
        · cases h
        · rename_i hne
          obtain ⟨rfl, hds⟩ := readDigits_sound (Option.some.inj h)
          refine ⟨u :: ds, rfl, hpoint ▸ Fraction.point ?_ hds⟩
          rintro rfl
          exact hne _ (Option.some.inj h)
      · cases h
        exact ⟨[], rfl, Fraction.none⟩

theorem takeSign_sound {s t : Text} {negative : Bool} (h : takeSign s = (negative, t)) :
    s = t ∧ negative = false ∨ s = Text.unit '+' :: t ∧ negative = false ∨
      s = Text.unit '-' :: t ∧ negative = true := by
  cases s with
  | nil =>
      cases h
      exact Or.inl ⟨rfl, rfl⟩
  | cons v s =>
      rw [takeSign] at h
      split at h
      · rename_i hv
        cases h
        exact Or.inr (Or.inr ⟨hv ▸ rfl, rfl⟩)
      · split at h
        · rename_i hv
          cases h
          exact Or.inr (Or.inl ⟨hv ▸ rfl, rfl⟩)
        · cases h
          exact Or.inl ⟨rfl, rfl⟩

theorem readExponent?_sound {s rest : Text} {e : Int} (h : readExponent? s = some (e, rest)) :
    ∃ p, s = p ++ rest ∧ Power p e := by
  cases s with
  | nil =>
      cases h
      exact ⟨[], rfl, Power.none⟩
  | cons u s =>
      by_cases hu : IsMark u
      · rw [readExponent?_mark hu] at h
        split at h
        · cases h
        · rename_i ds tail hne hdigits
          obtain ⟨hs, hds⟩ := readDigits_sound hdigits
          have hnil : ds ≠ [] := by
            rintro rfl
            exact hne rfl
          obtain ⟨rfl, rfl⟩ := Prod.mk.inj (Option.some.inj h)
          obtain ⟨negative, hneg⟩ : ∃ negative, (takeSign s).1 = negative := ⟨_, rfl⟩
          have hsign : takeSign s = (negative, ds ++ tail) := Prod.ext hneg hs
          rw [hneg]
          rcases takeSign_sound hsign with ⟨rfl, rfl⟩ | ⟨rfl, rfl⟩ | ⟨rfl, rfl⟩
          · exact ⟨u :: ds, rfl, Power.plain hu hnil hds⟩
          · exact ⟨u :: Text.unit '+' :: ds, rfl, Power.plus hu hnil hds⟩
          · exact ⟨u :: Text.unit '-' :: ds, rfl, Power.minus hu hnil hds⟩
      · have hmark : ¬(u = Text.unit 'e' || u = Text.unit 'E') = true := by simpa [IsMark] using hu
        rw [readExponent?.eq_def] at h
        simp only [if_neg hmark] at h
        cases h
        exact ⟨[], rfl, Power.none⟩

theorem readUnsigned?_sound {negative : Bool} {s rest : Text} {x : Num}
    (h : readUnsigned? negative s = some (x, rest)) : ∃ t, s = t ++ rest ∧ Unsigned negative t x := by
  simp only [readUnsigned?, Option.bind_eq_bind, Option.bind_eq_some_iff] at h
  obtain ⟨⟨whole, s₁⟩, hwhole, ⟨ds, s₂⟩, hfraction, ⟨e, s₃⟩, hpower, hx⟩ := h
  obtain ⟨rfl, rfl⟩ := Prod.mk.inj (Option.some.inj hx)
  obtain ⟨rfl, hw⟩ := readWhole?_sound hwhole
  obtain ⟨fraction, hs₁, hf⟩ := readFraction?_sound hfraction
  obtain ⟨power, hs₂, hp⟩ := readExponent?_sound hpower
  dsimp only at hs₁ hs₂
  exact ⟨_, by rw [hs₁, hs₂, List.append_assoc, List.append_assoc], Unsigned.mk hw hf hp⟩

theorem readNum?_sound {s rest : Text} {x : Num} (h : readNum? s = some (x, rest)) :
    ∃ t, s = t ++ rest ∧ Numeral t x := by
  cases s with
  | nil => cases h
  | cons u s =>
      rw [readNum?] at h
      split at h
      · rename_i hminus
        obtain ⟨t, rfl, ht⟩ := readUnsigned?_sound h
        exact ⟨u :: t, rfl, hminus ▸ Numeral.negative ht⟩
      · obtain ⟨t, ht, hx⟩ := readUnsigned?_sound h
        exact ⟨t, ht, Numeral.positive hx⟩

end Json

end Relayout

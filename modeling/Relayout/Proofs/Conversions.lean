import Relayout.Proofs.NearestValue
import Relayout.Proofs.Bounds

/-!
# What primitives are converted to

A primitive that is built from its own source primitive is copied bit for bit.
From any other it takes the number that the source stands for: an integer type
the number of its range that is congruent to it, a real type the nearest of its
values. Nothing but the bytes of the primitive is written (`apply_conveys`).
-/

namespace Relayout

open Relayout.Num

/-! ## The numbers of source primitives -/

/-- The number that a word of a source primitive stands for. Of the whole ones `char`, `short`,
`int` and `long` are signed. -/
def PrimName.number (n : Nat) : PrimName → Num
  | .unit => .rat 0
  | .bool => .rat n
  | .char => .rat (Word.signed 1 n)
  | .byte => .rat n
  | .short => .rat (Word.signed 2 n)
  | .int => .rat (Word.signed 4 n)
  | .long => .rat (Word.signed 8 n)
  | .float => .ofBits32 n
  | .double => .ofBits64 n

/-- A signed word is no larger than its range. -/
theorem Word.natAbs_signed {width n : Nat} (hn : n < range width) :
    (signed width n).natAbs ≤ range width := by
  rw [signed]
  split <;> omega

def PrimName.integers : List PrimName :=
  [char, byte, short, int, long]

/-- An integer source primitive is read as the number that it stands for. -/
theorem PrimName.number_integer {q : PrimName} (hq : q ∈ integers)
    {n : Nat} (hn : n < Word.range q.size) :
    ∃ x : Int, Scalar.ofWord n q = .whole x ∧ q.number n = .rat x ∧
      x.natAbs ≤ Word.range q.size := by
  simp only [integers, List.mem_cons, List.not_mem_nil, or_false] at hq
  rcases hq with rfl | rfl | rfl | rfl | rfl
  case inr.inl => exact ⟨n, rfl, by rw [number]; push_cast; rfl, by omega⟩
  all_goals exact ⟨_, rfl, rfl, Word.natAbs_signed hn⟩

/-! ## Integer types -/

namespace Prim

def integers : List Prim :=
  [char, byte, int16, uint16, int32, uint32, int64, uint64]

/-- The top bit of the type counts negatively. -/
def isSigned : Prim → Bool
  | char | int16 | int32 | int64 => true
  | _ => false

/-- A whole number lies in the range of an integer type. -/
def Holds (p : Prim) (v : Int) : Prop :=
  if p.isSigned then -2 ^ (8 * p.size - 1) ≤ v ∧ v < 2 ^ (8 * p.size - 1)
  else 0 ≤ v ∧ v < 2 ^ (8 * p.size)

/-- A whole number as a value of an integer type. Those of 64 bits are kept apart. -/
def ofInt (p : Prim) (v : Int) : Value :=
  if p.size = 8 then .long v else .int v

/-- The number of the range that is congruent to a whole number. -/
def reduce (p : Prim) (x : Int) : Int :=
  if p.isSigned then x.bmod (2 ^ (8 * p.size)) else x % 2 ^ (8 * p.size)

/-- Of all whole numbers, `v` is the one that lies in the range of the type and is congruent to
`x`, and if `x` lies in the range it is `x`. -/
structure Reduces (p : Prim) (x v : Int) : Prop where
  holds : p.Holds v
  congruent : v ≡ x [ZMOD 2 ^ (8 * p.size)]
  unique : ∀ w, p.Holds w → w ≡ x [ZMOD 2 ^ (8 * p.size)] → w = v
  exact : p.Holds x → v = x

theorem size_pos {p : Prim} (hp : p ∈ integers) : 0 < p.size := by
  revert p
  decide

theorem holds_reduce {p : Prim} (hp : p ∈ integers) (x : Int) : p.Holds (p.reduce x) := by
  have hpos := size_pos hp
  have hhalf : (2 : Int) ^ (8 * p.size) = 2 * 2 ^ (8 * p.size - 1) := by
    rw [← pow_succ', Nat.sub_add_cancel (by omega)]
  have hrange : (0 : Int) < 2 ^ (8 * p.size - 1) := by positivity
  rw [Holds, reduce]
  split
  · have hle := Int.le_bmod (x := x) (m := 2 ^ (8 * p.size)) (Nat.two_pow_pos _)
    have hlt := Int.bmod_lt (x := x) (m := 2 ^ (8 * p.size)) (Nat.two_pow_pos _)
    push_cast at hle hlt
    omega
  · exact ⟨Int.emod_nonneg x (by omega), Int.emod_lt_of_pos x (by omega)⟩

theorem reduce_congruent (p : Prim) (x : Int) : p.reduce x ≡ x [ZMOD 2 ^ (8 * p.size)] := by
  rw [reduce]
  split
  · have h := Int.bmod_emod (x := x) (m := 2 ^ (8 * p.size))
    push_cast at h
    exact h
  · exact Int.mod_modEq x _

/-- Two numbers of the range that are congruent are one. -/
theorem holds_unique {p : Prim} (hp : p ∈ integers) {v w : Int} (hv : p.Holds v) (hw : p.Holds w)
    (h : v ≡ w [ZMOD 2 ^ (8 * p.size)]) : v = w := by
  have hpos := size_pos hp
  have hhalf : (2 : Int) ^ (8 * p.size) = 2 * 2 ^ (8 * p.size - 1) := by
    rw [← pow_succ', Nat.sub_add_cancel (by omega)]
  have hclose : |w - v| < 2 ^ (8 * p.size) := by
    rw [Holds] at hv hw
    rw [abs_lt]
    split at hv
    · rename_i hsigned
      rw [if_pos hsigned] at hw
      omega
    · rename_i hunsigned
      rw [if_neg hunsigned] at hw
      omega
  exact (sub_eq_zero.mp (Int.eq_zero_of_abs_lt_dvd h.dvd hclose)).symm

theorem reduces_reduce {p : Prim} (hp : p ∈ integers) (x : Int) : p.Reduces x (p.reduce x) where
  holds := holds_reduce hp x
  congruent := reduce_congruent p x
  unique _ hw h := holds_unique hp hw (holds_reduce hp x) (h.trans (reduce_congruent p x).symm)
  exact hx := holds_unique hp (holds_reduce hp x) hx (reduce_congruent p x)

/-- A scalar is cast to an integer type modulo the range. -/
theorem cast_integer {p : Prim} (hp : p ∈ integers) (x : Scalar) :
    cast x p = p.ofInt (p.reduce x.integer) := by
  cases p with
  | unit => exact absurd hp (by decide)
  | bool => exact absurd hp (by decide)
  | float => exact absurd hp (by decide)
  | double => exact absurd hp (by decide)
  | _ => rfl

end Prim

/-! ## Real types -/

namespace Format

/-- What a number is rounded to: a finite one to the nearest value, anything else to itself. -/
inductive RoundsTo (f : Format) : Num → Num → Prop
  | nan : RoundsTo f .nan .nan
  | infinite (negative : Bool) : RoundsTo f (.infinite negative) (.infinite negative)
  | negZero : RoundsTo f .negZero .negZero
  | rat {q v : ℚ} (h : f.Nearest q v) : RoundsTo f (.rat q) (.rat v)

variable {f : Format}

/-- What a word stands for is rounded to itself. -/
theorem roundsTo_decode (bits : Nat) : f.RoundsTo (f.decode bits) (f.decode bits) := by
  cases h : f.decode bits with
  | nan => exact .nan
  | infinite negative => exact .infinite negative
  | negZero => exact .negZero
  | rat q => exact .rat (nearest_self ⟨bits, h⟩)

/-- A whole number is rounded to the nearest value, and to itself if it fits the fraction. -/
theorem decode_encode_int (hexp : 2 ≤ f.exponent) (hfrac : f.fraction ≠ 0) (hmin : f.minExponent ≤ 0)
    (hwide : f.fraction + 1 < twoPow (f.exponent - 1)) {x : Int}
    (hx : (x.natAbs : ℚ) < 2 ^ ((twoPow (f.exponent - 1) : Int) - 1)) :
    f.RoundsTo (.rat x) (f.decode (f.encode (.rat x))) ∧
      (x.natAbs < 2 * twoPow f.fraction → f.decode (f.encode (.rat x)) = .rat x) := by
  have habs : |(x : ℚ)| = x.natAbs := by
    rw [← Int.cast_abs, Int.abs_eq_natAbs, Int.cast_natCast]
  constructor
  · have hleast : (x : ℚ) = 0 ∨ (2 : ℚ) ^ f.minExponent ≤ |(x : ℚ)| := by
      rcases Nat.eq_zero_or_pos x.natAbs with h | h
      · exact Or.inl (by exact_mod_cast Int.natAbs_eq_zero.mp h)
      · right
        rw [habs]
        calc (2 : ℚ) ^ f.minExponent ≤ 2 ^ (0 : Int) := zpow_le_zpow_right₀ (by norm_num) hmin
          _ ≤ x.natAbs := by
            rw [zpow_zero]
            exact_mod_cast h
    obtain ⟨v, hv, hnearest⟩ := f.nearest_encode hexp hfrac hleast (habs ▸ hx)
    exact hv ▸ .rat hnearest
  · intro hfits
    refine f.decode_encode (e := 0) hexp (by rw [habs, zpow_zero, mul_one]) hfits hmin ?_
    have hcast : (x.natAbs : ℚ) < 2 ^ (f.fraction + 1) := by
      rw [pow_succ']
      exact_mod_cast hfits
    calc |(x : ℚ)| < 2 ^ (f.fraction + 1) := habs ▸ hcast
      _ = 2 ^ ((f.fraction + 1 : Nat) : Int) := (zpow_natCast _ _).symm
      _ ≤ 2 ^ (twoPow (f.exponent - 1) : Int) :=
        zpow_le_zpow_right₀ (by norm_num) (by exact_mod_cast hwide.le)

end Format

namespace Prim

def format? : Prim → Option Format
  | float => some .binary32
  | double => some .binary64
  | _ => none

/-- The source primitives whose numbers are all values of a real type. -/
def exactFrom : Prim → List PrimName
  | float => [.char, .byte, .short]
  | double => [.char, .byte, .short, .int, .float]
  | _ => []

/-- What a word of a source primitive is cast to is what its number is rounded to. -/
def CastsTo (p : Prim) (f : Format) (q : PrimName) (n : Nat) : Prop :=
  ∃ y, p.cast (Scalar.ofWord n q) = .real y ∧ f.RoundsTo (q.number n) y ∧
    (q ∈ p.exactFrom → y = q.number n)

/-- No source primitive is wider than eight bytes. -/
theorem lt_of_natAbs {q : PrimName} {x : Int} (hx : x.natAbs ≤ Word.range q.size) :
    (x.natAbs : ℚ) < 2 ^ (65 : Int) := by
  have hsize : q.size ≤ 8 := by cases q <;> decide
  have hrange : Word.range q.size ≤ Word.range 8 := Nat.pow_le_pow_right (by decide) hsize
  have hlt : Word.range 8 < 2 ^ 65 := by decide
  exact_mod_cast lt_of_le_of_lt (hx.trans hrange) hlt

/-- A whole number that is exact as a double is rounded to single precision only once. -/
theorem ofBits32_toWord32 {x : Int} (hx : x.natAbs ≤ twoPow 53) :
    Num.ofBits32 (Scalar.whole x).toWord32 =
      Format.binary32.decode (Format.binary32.encode (.rat x)) := by
  have hdouble : Num.ofBits64 (Scalar.whole x).toWord64 = .rat x :=
    (ofBits64_toWord64 _).trans (ofInt_exact hx)
  rw [Scalar.toWord32, Scalar.narrow, hdouble]
  rfl

/-- An integer source primitive is rounded once, and one that fits the fraction not at all. -/
theorem castsTo_integer {p : Prim} {f : Format} (hf : f = .binary32 ∨ f = .binary64) {q : PrimName}
    (hq : q ∈ PrimName.integers) {n : Nat} (hn : n < Word.range q.size)
    (hcast : ∀ x : Int, x.natAbs ≤ Word.range q.size →
      p.cast (.whole x) = .real (f.decode (f.encode (.rat x))))
    (hexact : q ∈ p.exactFrom → Word.range q.size < 2 * twoPow f.fraction) :
    p.CastsTo f q n := by
  obtain ⟨x, hx, hnumber, hle⟩ := PrimName.number_integer hq hn
  have hlt := lt_of_natAbs hle
  have hround : f.RoundsTo (.rat x) (f.decode (f.encode (.rat x))) ∧
      (x.natAbs < 2 * twoPow f.fraction → f.decode (f.encode (.rat x)) = .rat x) := by
    rcases hf with rfl | rfl
    all_goals
      exact Format.decode_encode_int (by decide) (by decide) (by decide) (by decide)
        (hlt.trans_le (zpow_le_zpow_right₀ (by norm_num) (by decide)))
  refine ⟨f.decode (f.encode (.rat x)), ?_, ?_, fun hmem => ?_⟩
  · rw [hx, hcast x hle]
  · rw [hnumber]
    exact hround.1
  · rw [hnumber]
    exact hround.2 (lt_of_le_of_lt hle (hexact hmem))

theorem castsTo_float {q : PrimName} (hq : q ∈ float.widensFrom) {n : Nat}
    (hn : n < Word.range q.size) : float.CastsTo .binary32 q n := by
  have hinteger : ∀ q ∈ float.widensFrom, q ∈ PrimName.integers := by decide
  have hsize : ∀ q ∈ float.widensFrom, q.size ≤ 4 := by decide
  have hexact : ∀ q ∈ float.exactFrom, Word.range q.size < 2 * twoPow Format.binary32.fraction := by
    decide
  refine castsTo_integer (Or.inl rfl) (hinteger q hq) hn (fun x hx => ?_) (hexact q)
  have hrange : Word.range q.size ≤ Word.range 4 := Nat.pow_le_pow_right (by decide) (hsize q hq)
  exact congrArg Value.real (ofBits32_toWord32 (hx.trans (hrange.trans (by decide))))

theorem castsTo_double {q : PrimName} (hq : q ∈ double.widensFrom) {n : Nat}
    (hn : n < Word.range q.size) : double.CastsTo .binary64 q n := by
  have hcases : ∀ q ∈ double.widensFrom, q = .float ∨ q ∈ PrimName.integers := by decide
  rcases hcases q hq with rfl | hinteger
  · -- a float is widened as it is
    refine ⟨Num.ofBits64 (Scalar.widen n), rfl, ?_, fun _ => ofBits64_widen n⟩
    show Format.binary64.RoundsTo (Num.ofBits32 n) (Num.ofBits64 (Scalar.widen n))
    rw [← ofBits64_widen]
    exact Format.roundsTo_decode _
  · have hexact : ∀ q ∈ double.exactFrom, q ∈ PrimName.integers →
        Word.range q.size < 2 * twoPow Format.binary64.fraction := by
      decide
    exact castsTo_integer (Or.inr rfl) hinteger hn
      (fun x _ => congrArg Value.real (Num.round_eq_decode _)) fun hmem => hexact q hmem hinteger

/-- **A source primitive is rounded to the nearest value of a real type.** -/
theorem castsTo {p : Prim} {f : Format} (hf : p.format? = some f) {q : PrimName}
    (hq : q ∈ p.widensFrom) {n : Nat} (hn : n < Word.range q.size) : p.CastsTo f q n := by
  cases p with
  | float =>
      cases hf
      exact castsTo_float hq hn
  | double =>
      cases hf
      exact castsTo_double hq hn
  | _ => cases hf

/-- **A source primitive is reduced to the range of an integer type.** -/
theorem cast_reduces {p : Prim} (hp : p ∈ integers) {q : PrimName} (hq : q ∈ p.widensFrom) {n : Nat}
    (hn : n < Word.range q.size) : ∃ x v : Int, q.number n = .rat x ∧ p.Reduces x v ∧
      p.cast (Scalar.ofWord n q) = ofInt p v := by
  have hinteger : ∀ p ∈ integers, ∀ q ∈ p.widensFrom, q ∈ PrimName.integers := by decide
  obtain ⟨x, hx, hnumber, -⟩ := PrimName.number_integer (hinteger p hp q hq) hn
  exact ⟨x, p.reduce x, hnumber, reduces_reduce hp x, by rw [hx, cast_integer hp, Scalar.integer]⟩

/-! ## Runs -/

/-- A type is not widened from its own source primitive. -/
theorem source_not_widened (p : Prim) : p.source ∉ p.widensFrom := by
  cases p <;> decide

/-- Only the types of numbers are widened to. -/
theorem numeric_of_widens {p : Prim} {q : PrimName} (h : q ∈ p.widensFrom) :
    p ∈ integers ∨ p.format?.isSome := by
  cases p with
  | unit => cases h
  | bool => cases h
  | _ => decide

/-- What an application leaves in the destination, after a primitive at position `i` of the source
was converted to one at position `o`, as it is found at `d`. -/
structure Conveys (p : Prim) (q : PrimName) (order : ByteOrder) (src dst : Memory) (i o : Nat)
    (d : Num) (dst' : Memory) : Prop where
  /-- The memory keeps its length. -/
  size : dst'.size = dst.size
  /-- The bytes around the primitive stay. -/
  neighbours : ∀ j, ¬(o ≤ j ∧ j < o + p.size) → dst'.bytes[j]? = dst.bytes[j]?
  /-- From its own source primitive the bytes are copied. -/
  copied : q = p.source → dst'.slice o p.size = src.slice i p.size
  /-- From any other an integer is reduced to its range. -/
  reduced : q ≠ p.source → p ∈ integers → ∃ x v : Int,
    q.number (src.wordAt order i q.size) = .rat x ∧ p.Reduces x v ∧
      (Dest.ofPrim p).decode dst' order d = .ok (ofInt p v)
  /-- From any other a real is rounded to the nearest of its values, and to the same number from
  the primitives that it is exact for. -/
  rounded : q ≠ p.source → ∀ f ∈ p.format?, ∃ y,
    f.RoundsTo (q.number (src.wordAt order i q.size)) y ∧
      (q ∈ p.exactFrom → y = q.number (src.wordAt order i q.size)) ∧
      (Dest.ofPrim p).decode dst' order d = .ok (.real y)
  /-- No other types take any but their own source primitive. -/
  total : q ≠ p.source → p ∈ integers ∨ p.format?.isSome

end Prim

namespace Plan

open Memory

variable {src dst : Memory} {s d : Num} {i o : Nat}

/-- A store leaves all bytes but its own. -/
theorem neighbours_of_store {dst' : Memory} {new : List UInt8} (h : dst.store d new = .ok dst')
    (hd : dst.position d new.length = .ok o) {j : Nat} (hj : ¬(o ≤ j ∧ j < o + new.length)) :
    dst'.bytes[j]? = dst.bytes[j]? := by
  refine getElem?_of_store h fun o' ho' => ?_
  have hindex := (position_eq_ok.mp hd).1
  rw [hindex] at ho'
  cases ho'
  exact hj

/-- What is copied is found at its new place. -/
theorem copy_conveys {width : Nat} (hs : src.position s width = .ok i)
    (hd : dst.position d width = .ok o) :
    ∃ dst', copy src s d width dst = .done dst' ∧ dst'.size = dst.size ∧
      (∀ j, ¬(o ≤ j ∧ j < o + width) → dst'.bytes[j]? = dst.bytes[j]?) ∧
      dst'.slice o width = src.slice i width := by
  have hlength := length_slice (position_eq_ok.mp hs).2
  have hload : src.load s width = .ok (src.slice i width) := load_eq_ok.mpr ⟨i, hs, rfl⟩
  generalize src.slice i width = new at hlength hload
  subst hlength
  obtain ⟨dst', hstore⟩ : ∃ dst', dst.store d new = .ok dst' :=
    ⟨_, store_eq_ok.mpr ⟨o, hd, rfl⟩⟩
  refine ⟨dst', ?_, size_of_store hstore, fun j hj => neighbours_of_store hstore hd hj, ?_⟩
  · rw [copy, hload]
    simp only [hstore]
    rfl
  · obtain ⟨o', ho', hslice⟩ := load_eq_ok.mp (load_of_store hstore)
    have hsame : o' = o := by
      have h := (position_eq_ok.mp ho').1
      rw [(position_eq_ok.mp hd).1] at h
      exact (Option.some.inj h).symm
    rw [← hsame, hslice]

/-- What is widened is found as it is cast. -/
theorem convertScalar_conveys {p : Prim} {q : PrimName} (hq : q ∈ p.widensFrom) (order : ByteOrder)
    (hs : src.position s q.size = .ok i) (hd : dst.position d p.size = .ok o) :
    ∃ dst', convertScalar order src q p s d dst = .done dst' ∧ dst'.size = dst.size ∧
      (∀ j, ¬(o ≤ j ∧ j < o + p.size) → dst'.bytes[j]? = dst.bytes[j]?) ∧
      (Dest.ofPrim p).decode dst' order d =
        .ok (p.cast (Scalar.ofWord (src.wordAt order i q.size) q)) := by
  have hunit : p ≠ .unit := by
    rintro rfl
    cases hq
  have hload : src.loadWord order s q.size = .ok (src.wordAt order i q.size) := by
    rw [loadWord, load_eq_ok.mpr ⟨i, hs, rfl⟩]
    rfl
  have hlt := wordAt_lt order (position_eq_ok.mp hs).2
  obtain ⟨k, hword, hvalue⟩ := Prim.word_eq_cast hq hlt
  have hlength := Word.length_toBytes order p.size k
  have hd' : dst.position d (Word.toBytes order p.size k).length = .ok o := hlength.symm ▸ hd
  obtain ⟨dst', hstore⟩ : ∃ dst', dst.store d (Word.toBytes order p.size k) = .ok dst' :=
    ⟨_, store_eq_ok.mpr ⟨o, hd', rfl⟩⟩
  refine ⟨dst', ?_, size_of_store hstore, fun j hj => ?_, ?_⟩
  · rw [convertScalar, Scalar.load_eq, if_neg (ne_unit_of_widens hq), hload]
    simp only [Except.map]
    rw [Prim.store_eq, hword]
    simp only [if_neg hunit, storeWord, hstore]
    rfl
  · exact neighbours_of_store hstore hd' (by rwa [hlength])
  · have hback := load_of_store hstore
    rw [hlength] at hback
    rw [Dest.decode_prim, Prim.load_eq, if_neg hunit, loadWord, hback]
    simp only [Except.map, Word.ofBytes_toBytes, hvalue]
    rfl

/-- **What a plan for a primitive conveys.** -/
theorem run_conveys {p : Prim} {name : Text} {plan : Plan}
    (built : Built (Dest.ofPrim p) (.prim name) plan) :
    ∃ q : PrimName, name = q.name ∧ ∀ (order : ByteOrder) (policy : UnknownTagPolicy)
      {src dst : Memory} {s d : Num} {i o : Nat}, src.position s q.size = .ok i →
      dst.position d p.size = .ok o → ∃ dst', plan.run order policy src s d dst = .done dst' ∧
        p.Conveys q order src dst i o d dst' := by
  rcases built_prim built with ⟨hname, rfl⟩ | ⟨q, hq, hname, rfl⟩
  · refine ⟨p.source, by simpa using hname, ?_⟩
    intro order policy src dst s d i o hs hd
    by_cases hunit : p = .unit
    · subst hunit
      refine ⟨dst, rfl, rfl, fun _ _ => rfl, fun _ => ?_, fun h => absurd rfl h,
        fun h => absurd rfl h, fun h => absurd rfl h⟩
      have hempty : ∀ (m : Memory) (n : Nat), m.slice n 0 = [] := fun m n => by simp [slice]
      exact (hempty dst o).trans (hempty src i).symm
    · obtain ⟨dst', hrun, hsize, hneighbours, hslice⟩ := copy_conveys hs hd
      refine ⟨dst', ?_, hsize, hneighbours, fun _ => hslice, fun h => absurd rfl h,
        fun h => absurd rfl h, fun h => absurd rfl h⟩
      rw [if_neg hunit, run]
      exact hrun
  · have hname : name = q.name := by simpa using hname
    refine ⟨q, hname, ?_⟩
    intro order policy src dst s d i o hs hd
    obtain ⟨dst', hrun, hsize, hneighbours, hdecode⟩ := convertScalar_conveys hq order hs hd
    have hlt := wordAt_lt order (position_eq_ok.mp hs).2
    refine ⟨dst', by rw [run, hrun], hsize, hneighbours, ?_, ?_, ?_, ?_⟩
    · rintro rfl
      exact absurd hq p.source_not_widened
    · intro _ hp
      obtain ⟨x, v, hnumber, hreduces, hcast⟩ := Prim.cast_reduces hp hq hlt
      exact ⟨x, v, hnumber, hreduces, by rw [hdecode, hcast]⟩
    · intro _ f hf
      obtain ⟨y, hcast, hrounds, hexact⟩ := Prim.castsTo hf hq hlt
      exact ⟨y, hrounds, hexact, by rw [hdecode, hcast]⟩
    · exact fun _ => Prim.numeric_of_widens hq

end Plan

namespace Converter

/-- **What a converter for a primitive conveys**, in either byte order and wherever the ranges lie
in their memories. -/
theorem apply_conveys {p : Prim} {name : Text} {options : Layer} {c : Converter}
    (h : (build (Dest.ofPrim p) (.prim name) options).result = .ok c) :
    ∃ q : PrimName, name = q.name ∧ ∀ {src dst : Memory} {s d : Num} {i o : Nat},
      src.Addressable → dst.Addressable → s.Is i → i + q.size ≤ src.size →
      d.Is o → o + p.size ≤ dst.size → ∃ dst', c.apply src dst s d = .done dst' ∧
        p.Conveys q c.config.byteOrder src dst i o d dst' := by
  have built := builtFor_of_build h
  obtain ⟨q, rfl, hconveys⟩ := Plan.run_conveys built.plan
  refine ⟨q, rfl, ?_⟩
  intro src dst s d i o hsrc hdst hs hfits hd hfits'
  have hsource : c.sourceSize = .ofNat q.size := by
    have hextent := built.extent
    rw [Dest.ofPrim, Dest.sourceExtent, Desc.size, Desc.primSize_name] at hextent
    exact (Except.ok.inj hextent).symm
  have hdest : c.dest.size = .ofNat p.size := by rw [built.same, Dest.ofPrim, Dest.size, Dest.surface]
  have hchecks : c.checkRanges src.size dst.size s d = .ok () := by
    have hleft : checkRange .source src.size s c.sourceSize = .ok () :=
      (checkRange_ok hsrc (hsource ▸ tracks_ofNat q.size)).mpr ⟨i, hs, hfits⟩
    have hright : checkRange .destination dst.size d c.dest.size = .ok () :=
      (checkRange_ok hdst (hdest ▸ tracks_ofNat p.size)).mpr ⟨o, hd, hfits'⟩
    exact checkRanges_of_ok hleft hright
  rw [apply, runAs, hchecks]
  exact hconveys _ _ (Memory.position_of_is hsrc hs hfits) (Memory.position_of_is hdst hd hfits')

/-- The word of 16777217 with the higher bytes first, behind one other byte. -/
def between : Memory :=
  ⟨#[0xFF, 0x01, 0x00, 0x00, 0x01]⟩

/-- A converter to single precision that takes the higher bytes first. -/
def narrowing : Converter :=
  (build (Dest.ofPrim .float) (.prim "int") ⟨some (.bool false), none, none⟩).result.toOption.get
    (by decide +kernel)

/-- The whole number lies halfway between two values of single precision. The even one is taken. -/
theorem apply_conveys_sample : ∃ dst', narrowing.apply between (.zeros 6) 1 2 = .done dst' ∧
    Prim.float.Conveys .int .big between (.zeros 6) 1 2 2 dst' := by
  have hbuilt : (build (Dest.ofPrim .float) (.prim "int") ⟨some (.bool false), none, none⟩).result =
      .ok narrowing := eq_ok_get _
  have horder : narrowing.config.byteOrder = .big := by decide +kernel
  have hname : ∀ q : PrimName, Text.ofString "int" = q.name → q = .int := by
    intro q
    cases q <;> decide
  have hsrc : between.Addressable := by
    rw [Memory.Addressable]
    decide
  have hdst : (Memory.zeros 6).Addressable := by
    rw [Memory.Addressable]
    decide
  obtain ⟨q, hq, hconveys⟩ := apply_conveys hbuilt
  obtain rfl := hname q hq
  rw [← horder]
  exact hconveys hsrc hdst (is_ofNat (by decide)) (by decide) (is_ofNat (by decide)) (by decide)

end Converter

end Relayout

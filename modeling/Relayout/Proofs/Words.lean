import Relayout.Proofs.Exact
import Relayout.Dest.Prim

/-!
# What words stand for

A primitive is one word. Reading turns the word of a source primitive into a
scalar, storing turns a scalar into the word of a destination primitive, and
`Prim.cast` says what the two come to: whole numbers modulo the range of the
type, reals rounded to its precision. Copying a word bit for bit is the cast
from the source primitive of the same layout.
-/

namespace Relayout

open Relayout.Num

/-! ## Words and their values -/

namespace Scalar

/-- The scalar that the word of a source primitive stands for. -/
def ofWord (n : Nat) : PrimName → Scalar
  | .unit => whole 0
  | .bool => whole n
  | .char => whole (Word.signed 1 n)
  | .byte => whole n
  | .short => whole (Word.signed 2 n)
  | .int => whole (Word.signed 4 n)
  | .long => whole (Word.signed 8 n)
  | .float => real (widen n)
  | .double => real n

def integer : Scalar → Int
  | whole i => i
  | real bits => (Num.ofBits64 bits).truncate

/-- A source primitive is read as its word, except that nothing is read for a unit. -/
theorem load_eq (m : Memory) (order : ByteOrder) (start : Num) (q : PrimName) :
    load m order start q = if q = .unit then .ok (whole 0)
      else (m.loadWord order start q.size).map fun n => ofWord n q := by
  cases q with
  | bool => cases h : m.loadWord order start 1 <;> simp [load, h, PrimName.size] <;> rfl
  | byte => cases h : m.loadWord order start 1 <;> simp [load, h, PrimName.size] <;> rfl
  | _ => rfl

end Scalar

namespace Prim

def value (n : Nat) : Prim → Value
  | unit => .unit
  | bool => .bool (n ≠ 0)
  | char => .int (Word.signed 1 n)
  | byte => .int n
  | int16 => .int (Word.signed 2 n)
  | uint16 => .int n
  | int32 => .int (Word.signed 4 n)
  | uint32 => .int n
  | int64 => .long (Word.signed 8 n)
  | uint64 => .long n
  | float => .real (.ofBits32 n)
  | double => .real (.ofBits64 n)

/-- The word that a scalar is stored as. -/
def word (x : Scalar) : Prim → Except Defect Nat
  | unit => .ok 0
  | bool => .ok (Word.wrap 1 x.toWhole)
  | char => .ok (Word.wrap 1 x.toWhole)
  | byte => .ok (Word.wrap 1 x.toWhole)
  | int16 => .ok (Word.wrap 2 x.toWhole)
  | uint16 => .ok (Word.wrap 2 x.toWhole)
  | int32 => .ok (Word.wrap 4 x.toWhole)
  | uint32 => .ok (Word.wrap 4 x.toWhole)
  | int64 => x.toExact.map (Word.wrap 8)
  | uint64 => x.toExact.map (Word.wrap 8)
  | float => .ok x.toWord32
  | double => .ok x.toWord64

/-- A scalar as a value of the type: a whole number modulo the range of the
type, or the real of its precision that is nearest. -/
def cast (x : Scalar) : Prim → Value
  | unit => .unit
  | bool => .bool (x.integer ≠ 0)
  | char => .int (x.integer.bmod 256)
  | byte => .int (x.integer % 256)
  | int16 => .int (x.integer.bmod 65536)
  | uint16 => .int (x.integer % 65536)
  | int32 => .int (x.integer.bmod 4294967296)
  | uint32 => .int (x.integer % 4294967296)
  | int64 => .long (x.integer.bmod 18446744073709551616)
  | uint64 => .long (x.integer % 18446744073709551616)
  | float => .real (.ofBits32 x.toWord32)
  | double => .real x.toNum

/-- A destination primitive is read as its word, except that nothing is read for a unit. -/
theorem load_eq (m : Memory) (order : ByteOrder) (start : Num) (p : Prim) :
    load m order start p = if p = unit then .ok .unit
      else (m.loadWord order start p.size).map fun n => value n p := by
  cases p with
  | byte => cases h : m.loadWord order start 1 <;> simp [load, h, size, source, PrimName.size] <;> rfl
  | uint16 => cases h : m.loadWord order start 2 <;> simp [load, h, size, source, PrimName.size] <;> rfl
  | uint32 => cases h : m.loadWord order start 4 <;> simp [load, h, size, source, PrimName.size] <;> rfl
  | uint64 => cases h : m.loadWord order start 8 <;> simp [load, h, size, source, PrimName.size] <;> rfl
  | _ => rfl

/-- A scalar is stored as its word, except that nothing is written for a unit. -/
theorem store_eq (m : Memory) (order : ByteOrder) (start : Num) (x : Scalar) (p : Prim) :
    store m order start x p = match word x p with
      | .error e => .error e
      | .ok n => if p = unit then .ok m else m.storeWord order start p.size n := by
  cases p with
  | int64 =>
      cases h : x.toExact with
      | error e => simp [store, word, h, bind, Except.bind, Except.map]
      | ok i => simp [store, word, h, bind, Except.bind, Except.map, size, source, PrimName.size]
  | uint64 =>
      cases h : x.toExact with
      | error e => simp [store, word, h, bind, Except.bind, Except.map]
      | ok i => simp [store, word, h, bind, Except.bind, Except.map, size, source, PrimName.size]
  | _ => rfl

/-! ## Whole numbers -/

/-- The signed view of a wrapped number is the number modulo the range, balanced around zero. -/
theorem signed_wrap {width : Nat} (hw : width ≠ 0) (i : Int) :
    Word.signed width (Word.wrap width i) = i.bmod (Word.range width) := by
  obtain ⟨w, rfl⟩ := Nat.exists_eq_succ_of_ne_zero hw
  have hpos : 0 < Word.range w := Nat.pow_pos (by decide)
  have hrange := Word.range_succ w
  rw [Nat.succ_eq_add_one] at *
  rw [Word.signed, Word.wrap, Int.bmod]
  have hnonneg := Int.emod_nonneg i (b := (Word.range (w + 1) : Int)) (by omega)
  split <;> split <;> omega

/-- A word read with a sign and wrapped again is the word. -/
theorem wrap_signed {width n : Nat} (hn : n < Word.range width) :
    Word.wrap width (Word.signed width n) = n := by
  rw [Word.wrap, Word.signed]
  have hmod : ((n : Int) % (Word.range width : Int)) = n := Int.emod_eq_of_lt (by omega) (by omega)
  split
  · rw [hmod, Int.toNat_natCast]
  · rw [Int.sub_emod_right, hmod, Int.toNat_natCast]

/-- A wrapped number is a word. -/
theorem wrap_lt (width : Nat) (i : Int) : Word.wrap width i < Word.range width := by
  have hpos : 0 < Word.range width := Nat.pow_pos (by decide)
  have hlt := Int.emod_lt_of_pos i (b := (Word.range width : Int)) (by omega)
  have hnonneg := Int.emod_nonneg i (b := (Word.range width : Int)) (by omega)
  rw [Word.wrap]
  omega

/-- The signed view of a stored number. -/
theorem signed_stored {width : Nat} (hw : width ≠ 0) (i : Int) :
    Word.signed width (Word.wrap width i % Word.range width) = i.bmod (Word.range width) := by
  rw [Nat.mod_eq_of_lt (wrap_lt width i), signed_wrap hw]

/-- The unsigned view of a stored number. -/
theorem unsigned_stored (width : Nat) (i : Int) :
    ((Word.wrap width i % Word.range width : Nat) : Int) = i % (Word.range width : Int) := by
  have hpos : 0 < Word.range width := Nat.pow_pos (by decide)
  rw [Nat.mod_eq_of_lt (wrap_lt width i)]
  exact Int.toNat_of_nonneg (Int.emod_nonneg i (by omega))

theorem ofInt_exact {i : Int} (hi : i.natAbs ≤ twoPow 53) : Num.ofInt i = .rat i := by
  rw [Num.ofInt, Num.round, if_pos ⟨Rat.den_intCast i, by rwa [Rat.num_intCast]⟩]

/-- A whole number that is exact as a double is kept whole. -/
theorem toWhole_whole {i : Int} (hi : i.natAbs ≤ twoPow 53) : (Scalar.whole i).toWhole = i := by
  simp [Scalar.toWhole, Scalar.toNum, ofInt_exact hi, Num.truncate, Num.value?]

/-! ## Reals -/

/-- The word of the nearest double stands for it. -/
theorem ofBits64_toWord64 (x : Scalar) : Num.ofBits64 x.toWord64 = x.toNum := by
  cases x with
  | real bits => rfl
  | whole i =>
      rw [Scalar.toWord64, Scalar.toNum, Num.ofInt, Num.round_eq_decode]
      exact Format.binary64.decode_encode_decode (by decide) (by decide) (by decide) (by decide) (by decide)

/-- Not-a-number stays so when it is widened. -/
theorem ofBits64_widen_nan {n : Nat} (h : Num.ofBits32 n = .nan) :
    Num.ofBits64 (Scalar.widen n) = .nan := by
  have hinf : Format.binary64.infinityBits = 2047 * twoPow 52 := by decide
  have hsign : Format.binary64.signBit = twoPow 63 := rfl
  simp only [Scalar.widen, h, Num.ofBits64, Format.decode, hinf, hsign]
  norm_num [twoPow]
  omega

/-- Not-a-number stays so when it is narrowed. -/
theorem ofBits32_narrow_nan {n : Nat} (h : Num.ofBits64 n = .nan) :
    Num.ofBits32 (Scalar.narrow n) = .nan := by
  have hinf : Format.binary32.infinityBits = 255 * twoPow 23 := by decide
  have hsign : Format.binary32.signBit = twoPow 31 := rfl
  simp only [Scalar.narrow, h, Num.ofBits32, Format.decode, hinf, hsign]
  norm_num [twoPow]
  omega

/-- A widened word stands for the same number. -/
theorem ofBits64_widen (n : Nat) : Num.ofBits64 (Scalar.widen n) = Num.ofBits32 n := by
  by_cases hnan : Num.ofBits32 n = .nan
  · rw [hnan]
    exact ofBits64_widen_nan hnan
  · have hwide : Scalar.widen n = (Num.ofBits32 n).toBits64 := by
      rw [Scalar.widen]
      split
      · contradiction
      · rfl
    rw [hwide]
    exact Format.binary32.decode_encode_decode (by decide) (by decide) (by decide) (by decide)
      (by decide)

/-- **A single-precision word that is widened and narrowed again stands for the same value.** -/
theorem ofBits32_narrow_widen (n : Nat) :
    Num.ofBits32 (Scalar.narrow (Scalar.widen n)) = Num.ofBits32 n := by
  have hwide := ofBits64_widen n
  by_cases hnan : Num.ofBits32 n = .nan
  · rw [hnan]
    exact ofBits32_narrow_nan (hwide.trans hnan)
  · have hnarrow : Scalar.narrow (Scalar.widen n) = (Num.ofBits32 n).toBits32 := by
      rw [Scalar.narrow, hwide]
      split
      · contradiction
      · rfl
    rw [hnarrow]
    exact Format.binary32.decode_encode_decode (by decide) (by decide) (by decide) (by decide)
      (by decide)

/-! ## Copies and widenings are casts -/

/-- **A word that is copied bit for bit is cast from its source primitive.** -/
theorem value_eq_cast (p : Prim) {n : Nat} (hn : n < Word.range p.size) :
    value n p = cast (Scalar.ofWord n p.source) p := by
  have hsigned : ∀ {width : Nat}, width ≠ 0 → n < Word.range width →
      Word.signed width n = (Word.signed width n).bmod (Word.range width) := by
    intro width hw h
    rw [← signed_wrap hw, wrap_signed h]
  have hunsigned : ∀ {width : Nat}, n < Word.range width →
      (n : Int) = Word.signed width n % (Word.range width : Int) := by
    intro width h
    have hwrap := wrap_signed h
    have hpos : (Word.range width : Int) ≠ 0 := by omega
    have := Int.emod_nonneg (Word.signed width n) hpos
    rw [Word.wrap] at hwrap
    omega
  cases p with
  | unit => rfl
  | bool => simp [value, cast, source, Scalar.ofWord, Scalar.integer]
  | char => exact congrArg Value.int (hsigned (by decide) hn)
  | byte =>
      have hlt : n < 256 := hn
      simp only [value, cast, source, Scalar.ofWord, Scalar.integer, Value.int.injEq]
      omega
  | int16 => exact congrArg Value.int (hsigned (by decide) hn)
  | uint16 => exact congrArg Value.int (hunsigned hn)
  | int32 => exact congrArg Value.int (hsigned (by decide) hn)
  | uint32 => exact congrArg Value.int (hunsigned hn)
  | int64 => exact congrArg Value.long (hsigned (by decide) hn)
  | uint64 => exact congrArg Value.long (hunsigned hn)
  | float => exact congrArg Value.real (ofBits32_narrow_widen n).symm
  | double => rfl

/-- Only the widest real takes more than the whole source primitives of at most 32 bits. -/
theorem widensFrom_subset {p : Prim} (hp : p ≠ double) :
    p.widensFrom ⊆ [PrimName.char, .byte, .short, .int] := by
  cases p with
  | double => exact absurd rfl hp
  | _ => decide

/-- The whole source primitives of at most 32 bits are exact as doubles. -/
theorem ofWord_whole {q : PrimName} (hq : q ∈ [PrimName.char, .byte, .short, .int]) {n : Nat}
    (hn : n < Word.range q.size) :
    ∃ i : Int, Scalar.ofWord n q = .whole i ∧ i.natAbs ≤ twoPow 53 := by
  have hsigned : ∀ width ≤ 4, n < Word.range width → (Word.signed width n).natAbs ≤ twoPow 53 := by
    intro width hw hlt
    have hle : Word.range width ≤ Word.range 4 := Nat.pow_le_pow_right (by decide) hw
    have hfour : Word.range 4 ≤ twoPow 53 := by decide
    rw [Word.signed]
    split <;> omega
  simp only [List.mem_cons, List.not_mem_nil, or_false] at hq
  rcases hq with rfl | rfl | rfl | rfl
  · exact ⟨_, rfl, hsigned 1 (by decide) hn⟩
  · have hlt : n < 256 := hn
    have hmax : 256 ≤ twoPow 53 := by decide
    exact ⟨n, rfl, by omega⟩
  · exact ⟨_, rfl, hsigned 2 (by decide) hn⟩
  · exact ⟨_, rfl, hsigned 4 (by decide) hn⟩

/-- **A word that is widened is cast from its source primitive.** -/
theorem word_eq_cast {p : Prim} {q : PrimName} (hq : q ∈ p.widensFrom) {n : Nat}
    (hn : n < Word.range q.size) :
    ∃ k, word (Scalar.ofWord n q) p = .ok k ∧
      value (k % Word.range p.size) p = cast (Scalar.ofWord n q) p := by
  by_cases hp : p = double
  · subst hp
    refine ⟨_, rfl, congrArg Value.real ?_⟩
    exact (Format.binary64.decode_mod _).trans (ofBits64_toWord64 _)
  · -- a real is only ever widened to a double, so a whole number is stored
    obtain ⟨i, hi, hsmall⟩ := ofWord_whole (widensFrom_subset hp hq) hn
    have hwhole := toWhole_whole hsmall
    rw [hi]
    cases p with
    | unit => cases hq
    | bool => cases hq
    | char => cases hq
    | byte =>
        refine ⟨_, rfl, congrArg Value.int ?_⟩
        rw [hwhole]
        exact unsigned_stored 1 i
    | int16 =>
        refine ⟨_, rfl, congrArg Value.int ?_⟩
        rw [hwhole]
        exact signed_stored (by decide) i
    | uint16 =>
        refine ⟨_, rfl, congrArg Value.int ?_⟩
        rw [hwhole]
        exact unsigned_stored 2 i
    | int32 =>
        refine ⟨_, rfl, congrArg Value.int ?_⟩
        rw [hwhole]
        exact signed_stored (by decide) i
    | uint32 =>
        refine ⟨_, rfl, congrArg Value.int ?_⟩
        rw [hwhole]
        exact unsigned_stored 4 i
    | int64 => exact ⟨_, rfl, congrArg Value.long (signed_stored (by decide) i)⟩
    | uint64 => exact ⟨_, rfl, congrArg Value.long (unsigned_stored 8 i)⟩
    | float => exact ⟨_, rfl, congrArg Value.real (Format.binary32.decode_mod _)⟩
    | double => contradiction

end Prim

end Relayout

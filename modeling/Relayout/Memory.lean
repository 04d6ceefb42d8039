import Relayout.Num.Basic
import Relayout.Failure.Basic

/-!
# Memory

A memory is a run of bytes. Accesses name their position by a number: its
fraction is dropped, and the bytes from there on must all lie in the memory.
Words are whole numbers of a few bytes, in either byte order.
-/

namespace Relayout

/-- Which byte of a word comes first. -/
inductive ByteOrder where
  /-- The least significant byte comes first. -/
  | little
  /-- The most significant byte comes first. -/
  | big
  deriving DecidableEq, Repr

/-- A run of bytes. -/
structure Memory where
  bytes : Array UInt8
  deriving DecidableEq, Repr

/-! ## Words -/

namespace Word

/-- The number whose bytes, the least significant first, are these. -/
def combine : List UInt8 → Nat
  | [] => 0
  | b :: rest => b.toNat + 256 * combine rest

/-- The lowest `width` bytes of a number, the least significant first. -/
def split : (width : Nat) → Nat → List UInt8
  | 0, _ => []
  | width + 1, n => (n % 256).toUInt8 :: split width (n / 256)

/-- The number that bytes in a given order stand for. -/
def ofBytes : ByteOrder → List UInt8 → Nat
  | .little, bytes => combine bytes
  | .big, bytes => combine bytes.reverse

/-- The lowest `width` bytes of a number in a given order. -/
def toBytes : ByteOrder → (width : Nat) → Nat → List UInt8
  | .little, width, n => split width n
  | .big, width, n => (split width n).reverse

/-- How many values a word of `width` bytes has. -/
def range (width : Nat) : Nat :=
  Nat.pow 256 width

/-- A whole number modulo the range of a word. -/
def wrap (width : Nat) (i : Int) : Nat :=
  (i % (range width : Int)).toNat

/-- The value of a word whose top bit counts negatively. -/
def signed (width : Nat) (n : Nat) : Int :=
  if 2 * n < range width then n else (n : Int) - (range width : Int)

/-! ### Splitting and combining -/

/-- One byte more has 256 times as many values. -/
theorem range_succ (width : Nat) : range (width + 1) = 256 * range width :=
  Nat.mul_comm _ _

/-- A split has as many bytes as were asked for. -/
theorem length_split (width n : Nat) : (split width n).length = width := by
  induction width generalizing n with
  | zero => rfl
  | succ width ih => simp [split, ih]

/-- Splitting keeps a number modulo the range of the word. -/
theorem combine_split (width n : Nat) : combine (split width n) = n % range width := by
  induction width generalizing n with
  | zero => simp [split, combine, range, Nat.mod_one]
  | succ width ih =>
    have low : (n % 256).toUInt8.toNat = n % 256 := by
      simp
    rw [split, combine, ih, range_succ, Nat.mod_mul, low]

/-- Bytes are the split of the number that they combine to. -/
theorem split_combine (bytes : List UInt8) : split bytes.length (combine bytes) = bytes := by
  induction bytes with
  | nil => rfl
  | cons b rest ih =>
    have hb : b.toNat < 256 := b.toNat_lt
    have low : (b.toNat + 256 * combine rest) % 256 = b.toNat := by omega
    have high : (b.toNat + 256 * combine rest) / 256 = combine rest := by omega
    rw [List.length_cons, combine, split, low, high, ih]
    simp

/-- A word in either order has as many bytes as were asked for. -/
theorem length_toBytes (order : ByteOrder) (width n : Nat) :
    (toBytes order width n).length = width := by
  cases order <;> simp [toBytes, length_split]

/-- A word that is written in an order is read back in that order. -/
theorem ofBytes_toBytes (order : ByteOrder) (width n : Nat) :
    ofBytes order (toBytes order width n) = n % range width := by
  cases order <;> simp [ofBytes, toBytes, combine_split]

/-- Bytes that are read in an order are written back in that order. -/
theorem toBytes_ofBytes (order : ByteOrder) (bytes : List UInt8) :
    toBytes order bytes.length (ofBytes order bytes) = bytes := by
  cases order with
  | little => exact split_combine bytes
  | big =>
    have h := split_combine bytes.reverse
    rw [List.length_reverse] at h
    rw [toBytes, ofBytes, h, List.reverse_reverse]

end Word

namespace Memory

/-! ## Access -/

def size (m : Memory) : Nat :=
  m.bytes.size

def zeros (n : Nat) : Memory :=
  ⟨Array.replicate n 0⟩

/-- The position of an access of `width` bytes, if they all lie in the memory. -/
def position (m : Memory) (start : Num) (width : Nat) : Except Defect Nat :=
  match start.index? with
  | some o => if o + width ≤ m.size then .ok o else .error .outside
  | none => .error .outside

/-- The `width` bytes from a position on. -/
def load (m : Memory) (start : Num) (width : Nat) : Except Defect (List UInt8) :=
  (m.position start width).map fun o => (m.bytes.extract o (o + width)).toList

/-- The array with bytes written over those from `o` on. -/
def overwrite : Array UInt8 → (o : Nat) → List UInt8 → Array UInt8
  | bytes, _, [] => bytes
  | bytes, o, b :: rest => overwrite (bytes.setIfInBounds o b) (o + 1) rest

def store (m : Memory) (start : Num) (new : List UInt8) : Except Defect Memory :=
  (m.position start new.length).map fun o => ⟨overwrite m.bytes o new⟩

/-- The word of `width` bytes at a position. -/
def loadWord (m : Memory) (order : ByteOrder) (start : Num) (width : Nat) : Except Defect Nat :=
  (m.load start width).map (Word.ofBytes order)

/-- Write the lowest `width` bytes of a number at a position. -/
def storeWord (m : Memory) (order : ByteOrder) (start : Num) (width n : Nat) :
    Except Defect Memory :=
  m.store start (Word.toBytes order width n)

/-- Writing over bytes keeps their number. -/
theorem size_overwrite (bytes : Array UInt8) (o : Nat) (new : List UInt8) :
    (overwrite bytes o new).size = bytes.size := by
  induction new generalizing bytes o with
  | nil => rfl
  | cons b rest ih => rw [overwrite, ih, Array.size_setIfInBounds]

/-- A write keeps the size of the memory. -/
theorem size_of_store {m m' : Memory} {start : Num} {new : List UInt8}
    (h : m.store start new = .ok m') : m'.size = m.size := by
  rw [store] at h
  cases hp : m.position start new.length with
  | error e => rw [hp] at h; cases h
  | ok o =>
    rw [hp] at h
    cases h
    exact size_overwrite m.bytes o new

end Memory

end Relayout

import Relayout.Desc.Basic
import Relayout.Memory

/-!
# Scalars in flight

A widening conversion reads a source primitive into a scalar and stores the
scalar as a destination primitive. A scalar is a whole number of any size, or
the word of a double; a single-precision word is widened on reading.
-/

namespace Relayout

/-- A value on its way from one memory to the other. -/
inductive Scalar where
  | whole (value : Int)
  | real (bits : Nat)
  deriving DecidableEq, Repr

namespace Scalar

/-! ## Between the formats -/

/-- A single-precision word as a double-precision word. A finite value or an
infinity stays exact; not-a-number keeps its sign and payload and becomes quiet. -/
def widen (bits : Nat) : Nat :=
  match Num.ofBits32 bits with
  | .nan =>
    bits / twoPow 31 % 2 * twoPow 63 + Format.binary64.infinityBits
      + (bits % twoPow 22 + twoPow 22) * twoPow 29
  | x => x.toBits64

/-- The single-precision word nearest to a double-precision word. Not-a-number
keeps its sign and the leading part of its payload and becomes quiet. -/
def narrow (bits : Nat) : Nat :=
  match Num.ofBits64 bits with
  | .nan =>
    bits / twoPow 63 % 2 * twoPow 31 + Format.binary32.infinityBits
      + (bits / twoPow 29 % twoPow 22 + twoPow 22)
  | x => x.toBits32

/-! ## Views -/

/-- The nearest double. -/
def toNum : Scalar → Num
  | whole i => .ofInt i
  | real bits => .ofBits64 bits

/-- The nearest double as a word. -/
def toWord64 : Scalar → Nat
  | whole i => (Num.ofInt i).toBits64
  | real bits => bits

/-- The nearest single-precision value as a word, taken from the nearest double. -/
def toWord32 (x : Scalar) : Nat :=
  narrow x.toWord64

/-- The whole number for a word of at most 32 bits: that of the nearest double,
its fraction dropped. -/
def toWhole (x : Scalar) : Int :=
  x.toNum.truncate

/-- The whole number for a 64-bit word, which must be exact. -/
def toExact : Scalar → Except Defect Int
  | whole i => .ok i
  | real bits =>
    match (Num.ofBits64 bits).toInt? with
    | some i => .ok i
    | none => .error .notWhole

/-! ## Reading -/

/-- Read a source primitive. Of the whole ones `bool` and `byte` are unsigned,
and `unit` reads as zero without an access. -/
def load (m : Memory) (order : ByteOrder) (start : Num) : PrimName → Except Defect Scalar
  | .unit => .ok (whole 0)
  | .bool => (m.loadWord order start 1).map fun n => whole n
  | .char => (m.loadWord order start 1).map fun n => whole (Word.signed 1 n)
  | .byte => (m.loadWord order start 1).map fun n => whole n
  | .short => (m.loadWord order start 2).map fun n => whole (Word.signed 2 n)
  | .int => (m.loadWord order start 4).map fun n => whole (Word.signed 4 n)
  | .long => (m.loadWord order start 8).map fun n => whole (Word.signed 8 n)
  | .float => (m.loadWord order start 4).map fun n => real (widen n)
  | .double => (m.loadWord order start 8).map real

end Scalar

end Relayout

import Relayout.Scalar
import Relayout.Text.Inherited

/-!
# Primitive destination types

Each primitive has a source primitive of the same layout, which is copied bit
for bit, and narrower ones that it widens from. Storing takes whole numbers
modulo the range of the type and rounds to the nearest real.
-/

namespace Relayout

/-- A decoded value. Whole numbers of 64 bits are kept apart from narrower ones.
A record has members of its own, and may have a base that it inherits others from. -/
inductive Value where
  | unit
  | bool (value : Bool)
  | int (value : Int)
  | long (value : Int)
  | real (value : Num)
  | list (items : List Value)
  | record (members : List (Text × Value)) (base : Option Value)
  | tagged (ctor : Text) (value : Value)
  deriving Repr

namespace Value

def hasMembers : Value → Bool
  | list .. => true
  | record .. => true
  | tagged .. => true
  | _ => false

/-- The record whose fields are set one after the other. Setting the base does not
add a member: a value with members becomes the base, any other is dropped. -/
def ofFields (fields : List (Text × Value)) : Value :=
  let bases := (fields.filter (·.1 = Inherited.baseName)).map (·.2)
  record (fields.filter (·.1 ≠ Inherited.baseName)) (bases.filter hasMembers).getLast?

end Value

inductive Prim where
  | unit
  | bool
  | char
  | byte
  | int16
  | uint16
  | int32
  | uint32
  | int64
  | uint64
  | float
  | double
  deriving DecidableEq, Repr

namespace Prim

def all : List Prim :=
  [unit, bool, char, byte, int16, uint16, int32, uint32, int64, uint64, float, double]

def name : Prim → Text
  | unit => "unit"
  | bool => "bool"
  | char => "char"
  | byte => "byte"
  | int16 => "int16"
  | uint16 => "uint16"
  | int32 => "int32"
  | uint32 => "uint32"
  | int64 => "int64"
  | uint64 => "uint64"
  | float => "float"
  | double => "double"

def ofName? (t : Text) : Option Prim :=
  all.find? (·.name = t)

/-- The source primitive of the same layout. -/
def source : Prim → PrimName
  | unit => .unit
  | bool => .bool
  | char => .char
  | byte => .byte
  | int16 => .short
  | uint16 => .short
  | int32 => .int
  | uint32 => .int
  | int64 => .long
  | uint64 => .long
  | float => .float
  | double => .double

/-- The narrower source primitives that the type widens from. -/
def widensFrom : Prim → List PrimName
  | unit => []
  | bool => []
  | char => []
  | byte => [.char]
  | int16 => [.char, .byte]
  | uint16 => [.char, .byte]
  | int32 => [.char, .byte, .short]
  | uint32 => [.char, .byte, .short]
  | int64 => [.char, .byte, .short, .int]
  | uint64 => [.char, .byte, .short, .int]
  | float => [.char, .byte, .short, .int]
  | double => [.char, .byte, .short, .int, .long, .float]

def size (p : Prim) : Nat :=
  p.source.size

def load (m : Memory) (order : ByteOrder) (start : Num) : Prim → Except Defect Value
  | unit => .ok .unit
  | bool => (m.loadWord order start 1).map fun n => .bool (n ≠ 0)
  | char => (m.loadWord order start 1).map fun n => .int (Word.signed 1 n)
  | byte => (m.loadWord order start 1).map fun n => .int n
  | int16 => (m.loadWord order start 2).map fun n => .int (Word.signed 2 n)
  | uint16 => (m.loadWord order start 2).map fun n => .int n
  | int32 => (m.loadWord order start 4).map fun n => .int (Word.signed 4 n)
  | uint32 => (m.loadWord order start 4).map fun n => .int n
  | int64 => (m.loadWord order start 8).map fun n => .long (Word.signed 8 n)
  | uint64 => (m.loadWord order start 8).map fun n => .long n
  | float => (m.loadWord order start 4).map fun n => .real (.ofBits32 n)
  | double => (m.loadWord order start 8).map fun n => .real (.ofBits64 n)

/-- Write a scalar as a value of the type. -/
def store (m : Memory) (order : ByteOrder) (start : Num) (x : Scalar) : Prim → Except Defect Memory
  | unit => .ok m
  | bool => m.storeWord order start 1 (Word.wrap 1 x.toWhole)
  | char => m.storeWord order start 1 (Word.wrap 1 x.toWhole)
  | byte => m.storeWord order start 1 (Word.wrap 1 x.toWhole)
  | int16 => m.storeWord order start 2 (Word.wrap 2 x.toWhole)
  | uint16 => m.storeWord order start 2 (Word.wrap 2 x.toWhole)
  | int32 => m.storeWord order start 4 (Word.wrap 4 x.toWhole)
  | uint32 => m.storeWord order start 4 (Word.wrap 4 x.toWhole)
  | int64 => do m.storeWord order start 8 (Word.wrap 8 (← x.toExact))
  | uint64 => do m.storeWord order start 8 (Word.wrap 8 (← x.toExact))
  | float => m.storeWord order start 4 x.toWord32
  | double => m.storeWord order start 8 x.toWord64

end Prim

end Relayout

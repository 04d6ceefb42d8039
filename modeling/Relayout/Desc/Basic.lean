import Relayout.Num.Notation

/-!
# Source descriptors

A descriptor is a tree that says at run time how the bytes of a source value
are laid out. Its leaves are named primitives and sizes; a size stands where an
array has its length. Struct fields carry their offsets and variant
constructors their tags, and both may be stated freely.
-/

namespace Relayout

inductive PrimName where
  | unit
  | bool
  | char
  | byte
  | short
  | int
  | long
  | float
  | double
  deriving DecidableEq, Repr

namespace PrimName

/-- All primitives, narrow ones first within their family. -/
def all : List PrimName :=
  [unit, bool, char, byte, short, int, long, float, double]

def name : PrimName → Text
  | unit => "unit"
  | bool => "bool"
  | char => "char"
  | byte => "byte"
  | short => "short"
  | int => "int"
  | long => "long"
  | float => "float"
  | double => "double"

def ofName? (t : Text) : Option PrimName :=
  all.find? (·.name = t)

def size : PrimName → Nat
  | unit => 0
  | bool => 1
  | char => 1
  | byte => 1
  | short => 2
  | int => 4
  | long => 8
  | float => 4
  | double => 8

end PrimName

/-- A named part of a struct at an offset from the struct's start. -/
structure Field (τ : Type) where
  name : Text
  offset : Num
  type : τ
  deriving Repr

/-- A named alternative of a variant, marked in memory by its tag. -/
structure Ctor (τ : Type) where
  name : Text
  id : Num
  type : τ
  deriving Repr

/-- The layout of a source value. -/
inductive Desc where
  | prim (name : Text)
  | nat (value : Num)
  | array (elem len : Desc)
  | struct (fields : List (Field Desc))
  | variant (ctors : List (Ctor Desc))
  deriving Repr, Inhabited

namespace Desc

/-- The kind of a node, as documents and messages name it. -/
def tag : Desc → Text
  | prim _ => "prim"
  | nat _ => "nat"
  | array _ _ => "farr"
  | struct _ => "struct"
  | variant _ => "variant"

/-- Constructors whose tags are their positions. -/
def numbered (ctors : List (Text × Desc)) : List (Ctor Desc) :=
  ctors.mapIdx fun i (name, type) => ⟨name, .ofNat i, type⟩

end Desc

end Relayout

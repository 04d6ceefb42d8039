import Relayout.Desc.Basic
import Relayout.Failure.Cause
import Relayout.Text.Inherited

/-!
# Layout of source values

The size and alignment of a descriptor follow the rules of C: a value is aligned
to its widest part, a struct's size is its last end rounded up to its alignment,
and a variant is a 32-bit tag followed by one payload slot for all constructors.
An unknown primitive, or a size in the place of a type, has no layout. Under an
inherited name the layout is not-a-number, and so is that of all around it.
-/

namespace Relayout.Desc

/-- The width of the tag in front of every variant. -/
def tagSize : Num := 4

/-- The size of a named primitive, looked up in a table. What the table inherits
counts as not-a-number. -/
def primSize (name : Text) : Except Cause Num :=
  match PrimName.ofName? name with
  | some p => .ok (.ofNat p.size)
  | none =>
    match Inherited.find? name with
    | some _ => .ok .nan
    | none => .error (.invalidDescriptor ("unknown primitive '" ++ name ++ "'"))

/-- A size was found where a type is needed. -/
def sizeAsType : Cause :=
  .kindMismatch "type" "size" []

/-- The length that a descriptor states. -/
def lengthOf : Desc → Except Cause Num
  | nat value => .ok value
  | other => .error (.kindMismatch "size" other.tag [])

mutual

def align : Desc → Except Cause Num
  | prim name => do return (← primSize name).max 1
  | nat _ => .error sizeAsType
  | array elem _ => align elem
  | struct fields => alignFields fields 1
  | variant ctors => alignCtors ctors tagSize

/-- The widest of `widest` and the alignments of the fields. -/
def alignFields : List (Field Desc) → (widest : Num) → Except Cause Num
  | [], widest => .ok widest
  | f :: rest, widest => do alignFields rest (widest.max (← align f.type))

/-- The widest of `widest` and the alignments of the payloads. -/
def alignCtors : List (Ctor Desc) → (widest : Num) → Except Cause Num
  | [], widest => .ok widest
  | c :: rest, widest => do alignCtors rest (widest.max (← align c.type))

end

/-- The offset of the payload that the constructors share. -/
def payloadOffset (ctors : List (Ctor Desc)) : Except Cause Num := do
  return tagSize.alignTo (← alignCtors ctors 1)

mutual

/-- The bytes of a value, with the padding that keeps the next one aligned. -/
def size : Desc → Except Cause Num
  | prim name => primSize name
  | nat _ => .error sizeAsType
  | array elem len => do return (← lengthOf len) * (← size elem)
  | struct fields => do
    let finish ← endOfFields fields 0
    return finish.alignTo (← align (struct fields))
  | variant ctors => do
    let payload ← largestPayload ctors 0
    let offset ← payloadOffset ctors
    return (offset + payload).alignTo (← align (variant ctors))

/-- The last of `finish` and the ends of the fields. -/
def endOfFields : List (Field Desc) → (finish : Num) → Except Cause Num
  | [], finish => .ok finish
  | f :: rest, finish => do endOfFields rest (finish.max (f.offset + (← size f.type)))

/-- The largest of `largest` and the sizes of the payloads. -/
def largestPayload : List (Ctor Desc) → (largest : Num) → Except Cause Num
  | [], largest => .ok largest
  | c :: rest, largest => do largestPayload rest (largest.max (← size c.type))

end

/-- Fields laid one after the other from `offset` on, each at the next multiple of its alignment. -/
def placeFields : List (Text × Desc) → (offset : Num) → Except Cause (List (Field Desc))
  | [], _ => .ok []
  | (name, type) :: rest, offset => do
    let offset := offset.alignTo (← align type)
    let next := offset + (← size type)
    return ⟨name, offset, type⟩ :: (← placeFields rest next)

/-- A struct with computed offsets. -/
def structOf (fields : List (Text × Desc)) : Except Cause Desc := do
  return struct (← placeFields fields 0)

end Relayout.Desc

import Relayout.Dest.Prim
import Relayout.Desc.Layout

/-!
# Destination types

A destination type is a tree with a layout that is known beforehand. What a
converter consults of it is its surface: names, sizes, alignments, offsets and
tags. Decoding follows the layout that the type was made with. The combinators
give both the same layout; a patch replaces parts of the surface alone.
-/

namespace Relayout

/-- What every destination type shows of itself. -/
structure Surface where
  name : Text
  size : Num
  align : Num
  deriving DecidableEq, Repr

/-- A named part of a record: the offset that the surface states, and the one
at which the part is decoded. -/
structure Slot (τ : Type) where
  name : Text
  offset : Num
  decodedAt : Num
  type : τ
  deriving Repr

/-- A named alternative of a variant, marked in memory by a 32-bit tag. -/
structure Case (τ : Type) where
  name : Text
  id : UInt32
  type : τ
  deriving Repr

/-- A destination type. `count`, `decodedAt` and the primitive's `codec` belong
to decoding, everything else to the surface. -/
inductive Dest where
  | prim (surface : Surface) (source : Text) (widensFrom : List Text) (codec : Prim)
  | array (surface : Surface) (elem : Dest) (length : Num) (count : Nat)
  | record (surface : Surface) (slots : List (Slot Dest))
  | variant (surface : Surface) (cases : List (Case Dest)) (payloadOffset decodedAt : Num)
  deriving Repr

namespace Dest

def surface : Dest → Surface
  | prim surface .. => surface
  | array surface .. => surface
  | record surface .. => surface
  | variant surface .. => surface

def name (d : Dest) : Text :=
  d.surface.name

def size (d : Dest) : Num :=
  d.surface.size

def align (d : Dest) : Num :=
  d.surface.align

/-! ## Combinators -/

/-- Why a destination type cannot be made. -/
inductive Invalid where
  | length (length : Num)
  | tag (ctor : Text) (id : Num)
  | tagInherited (ctor found : Text)
  | tagTaken (id : UInt32) (holder ctor : Text)
  deriving DecidableEq, Repr

def Invalid.message : Invalid → Text
  | .length n => "array length must be a non-negative integer, got " ++ n.toText
  | .tag ctor id => "variant tag of " ++ ctor ++ " must be a u32, got " ++ id.toText
  | .tagInherited ctor found => "variant tag of " ++ ctor ++ " must be a u32, got " ++ found
  | .tagTaken id holder ctor =>
    "variant tag " ++ Text.ofNat id.toNat ++ " is used by both " ++ holder ++ " and " ++ ctor

def ofPrim (p : Prim) : Dest :=
  prim ⟨p.name, .ofNat p.size, (Num.ofNat p.size).max 1⟩ p.source.name
    (p.widensFrom.map PrimName.name) p

/-- An array of `length` elements, one after the other. -/
def arrayOf (elem : Dest) (length : Num) : Except Invalid Dest :=
  match length.toNat? with
  | some count =>
    .ok (array ⟨elem.name ++ "[" ++ length.toText ++ "]", elem.size * length, elem.align⟩
      elem length count)
  | none => .error (.length length)

/-- Slots laid one after the other from `offset` on, each at the next multiple of
its alignment; with the end of the last one. -/
def placeSlots : List (Text × Dest) → (offset : Num) → List (Slot Dest) × Num
  | [], offset => ([], offset)
  | (name, type) :: rest, offset =>
    let offset := offset.alignTo type.align
    let (slots, finish) := placeSlots rest (offset + type.size)
    (⟨name, offset, offset, type⟩ :: slots, finish)

/-- The widest of `widest` and the alignments of the types. -/
def widestAlign (types : List (Text × Dest)) (widest : Num) : Num :=
  types.foldl (fun a (_, type) => a.max type.align) widest

/-- The parts of a type in its name. -/
def partNames (parts : List (Text × Dest)) : Text :=
  Text.join ", " (parts.map fun (name, type) => name ++ ": " ++ type.name)

def recordOf (parts : List (Text × Dest)) : Dest :=
  let (slots, finish) := placeSlots parts 0
  let align := widestAlign parts 1
  record ⟨Text.unit '\x7b' :: (partNames parts ++ [Text.unit '\x7d']), finish.alignTo align, align⟩
    slots

/-- The tag of the case at position `i`: the stated one, or the position. The tags
are stated in a table, and what the table inherits is no tag. -/
def tagOf (ids : List (Text × Num)) (name : Text) (i : Nat) : Except Invalid Num :=
  match ids.find? (·.1 = name) with
  | some (_, id) => .ok id
  | none =>
    match Inherited.find? name with
    | some found => .error (.tagInherited name found)
    | none => .ok (.ofNat i)

/-- The cases from position `i` on, after those already made. Tags must be
distinct whole numbers of at most 32 bits. -/
def makeCases (ids : List (Text × Num)) :
    List (Text × Dest) → (i : Nat) → (made : List (Case Dest)) →
      Except Invalid (List (Case Dest))
  | [], _, made => .ok made
  | (name, type) :: rest, i, made => do
    let id ← tagOf ids name i
    match id.toNat? with
    | some n =>
      if n < twoPow 32 then
        match made.find? (·.id.toNat = n) with
        | some holder => .error (.tagTaken n.toUInt32 holder.name name)
        | none => makeCases ids rest (i + 1) (made ++ [⟨name, n.toUInt32, type⟩])
      else .error (.tag name id)
    | none => .error (.tag name id)

/-- A tagged union: a 32-bit tag, then one payload slot for all cases. -/
def variantOf (parts : List (Text × Dest)) (ids : List (Text × Num)) : Except Invalid Dest := do
  let widest := widestAlign parts 1
  let payloadOffset := Desc.tagSize.alignTo widest
  let payload := parts.foldl (fun m (_, type) => m.max type.size) 0
  let align := Desc.tagSize.max widest
  let cases ← makeCases ids parts 0 []
  return variant ⟨Text.unit '|' :: (partNames parts ++ "|"), (payloadOffset + payload).alignTo align,
    align⟩ cases payloadOffset payloadOffset

/-! ## Patches -/

/-- Replacements for parts of a surface. A part that a type does not have is not replaced. -/
structure Patch where
  name : Option Text
  size : Option Num
  length : Option Num
  payloadOffset : Option Num
  source : Option Text
  widensFrom : Option (List Text)
  offsets : List (Text × Num)

/-- The type with parts of its surface replaced. -/
def patch (p : Patch) (d : Dest) : Dest :=
  let surface : Surface := ⟨p.name.getD d.name, p.size.getD d.size, d.align⟩
  match d with
  | prim _ source widensFrom codec =>
    prim surface (p.source.getD source) (p.widensFrom.getD widensFrom) codec
  | array _ elem length count => array surface elem (p.length.getD length) count
  | record _ slots =>
    record surface (slots.map fun s =>
      match p.offsets.find? (·.1 = s.name) with
      | some (_, offset) => { s with offset }
      | none => s)
  | variant _ cases payloadOffset decodedAt =>
    variant surface cases (p.payloadOffset.getD payloadOffset) decodedAt

end Dest

end Relayout

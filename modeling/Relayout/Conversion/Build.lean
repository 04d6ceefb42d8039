import Relayout.Conversion.Plan
import Relayout.Desc.Show

/-!
# Matching a destination type with a descriptor

Parts are matched by name: each slot of a record takes the first source field
of its name, each case of a variant the first source constructor of its name.
Whatever the source has beyond that is ignored. A failure inside a part is
passed on with the part's name in front of its message and with the full path.
-/

namespace Relayout

namespace Failure

/-- The failure of a part, seen from the node around it: the part's name stands
in front, and the path is the one already noted, or else the part's own. -/
def within (segment : Text) (path : List Text) (f : Failure) : Failure :=
  let noted := Json.stated (Json.lookup? "path" (f.context.getD []))
  f.wrap (segment ++ ": " ++ f.message) [("path", noted.getD (.arr (path.map .str)))]

end Failure

namespace Plan

/-- A computation for the part `segment` of the node at `path`. -/
def inPart {α : Type} (path : List Text) (segment : Text) (x : List Text → Traced α) : Traced α :=
  let inner := path ++ [segment]
  (x inner).mapFailure (Failure.within segment inner)

/-- A bit-for-bit copy of as many bytes as the destination has. Word sizes are
copied at once, every other size byte by byte. -/
def copyOf (size : Num) : Plan :=
  match size.toNat? with
  | some 1 => word 1
  | some 2 => word 2
  | some 4 => word 4
  | some 8 => word 8
  | _ => bytes size.countBelow

/-- Match a primitive: its own source primitive is copied, the narrower ones
that it widens from are converted. -/
def buildPrim (surface : Surface) (source : Text) (widensFrom : List Text) (codec : Prim)
    (desc : Desc) (path : List Text) : Except Cause Plan :=
  match desc with
  | .prim name =>
    if name = source then .ok (copyOf surface.size)
    else
      match PrimName.ofName? name with
      | some p =>
        if widensFrom.contains name then .ok (widen p codec)
        else .error (.noConversionPath name surface.name path)
      | none => .error (.noConversionPath name surface.name path)
  | other => .error (.kindMismatch surface.name other.display path)

/-- Check the length that a source array states against the destination's. -/
def checkLength (length : Num) (len : Desc) (path : List Text) : Except Cause Unit :=
  match len with
  | .nat n =>
    if n.isWhole && !(n.lt 0) then
      if n.eqv length then .ok () else .error (.lengthMismatch length n path)
    else .error (.invalidLength len.display path)
  | _ => .error (.invalidLength len.display path)

/-- Put an arm into a table; an arm for the same source tag is replaced where it stands. -/
def setArm (arm : Arm Plan) : List (Arm Plan) → List (Arm Plan)
  | [] => [arm]
  | other :: rest => if other.id.eqv arm.id then arm :: rest else other :: setArm arm rest

/-- The events for the source fields that no slot takes. -/
def ignoredFields (slots : List (Slot Dest)) (fields : List (Field Desc)) (path : List Text) :
    List Event :=
  (fields.filter fun f => !slots.any (·.name = f.name)).map fun f => .fieldIgnored path f.name

mutual

/-- Match a destination type at `path` with a descriptor. -/
def build : Dest → Desc → (path : List Text) → Traced Plan
  | .prim surface source widensFrom codec, desc, path =>
    .ofCause (buildPrim surface source widensFrom codec desc path)
  | .array surface elem length _, desc, path =>
    match desc with
    | .array elemDesc len => do
      Traced.ofCause (checkLength length len path)
      let convert ← inPart path "[]" (build elem elemDesc)
      let srcStep ← Traced.ofCause elemDesc.size
      return array (length.toNat?.getD 0) convert srcStep elem.size
    | other => .fail (Cause.kindMismatch surface.name other.display path)
  | .record surface slots, desc, path =>
    match desc with
    | .struct fields => do
      let plans ← buildSlots surface.size fields path slots
      Traced.emitAll (ignoredFields slots fields path)
      return record plans
    | other => .fail (Cause.kindMismatch surface.name other.display path)
  | .variant surface cases payloadOffset _, desc, path =>
    match desc with
    | .variant ctors => do
      let (maxAlign, arms) ← buildCases surface.size payloadOffset ctors path cases 1 []
      return variant surface.name maxAlign arms
    | other => .fail (Cause.kindMismatch surface.name other.display path)

/-- Match the slots of a record of the given size, in order. -/
def buildSlots (size : Num) (fields : List (Field Desc)) (path : List Text) :
    List (Slot Dest) → Traced (List (FieldPlan Plan))
  | [] => .pure []
  | s :: rest =>
    if s.offset.lt 0 || size.lt (s.offset + s.type.size) then
      .fail (Cause.invalidLayout s.name size path)
    else
      match fields.find? (·.name = s.name) with
      | none => .fail (Cause.missingField s.name path)
      | some f => do
        let convert ← inPart path s.name (build s.type f.type)
        return ⟨s.name, f.offset, s.offset, convert⟩ :: (← buildSlots size fields path rest)

/-- Match the cases of a variant of the given size, in order, beginning with
what earlier cases have contributed. -/
def buildCases (size payloadOffset : Num) (ctors : List (Ctor Desc)) (path : List Text) :
    List (Case Dest) → (maxAlign : Num) → (arms : List (Arm Plan)) →
      Traced (Num × List (Arm Plan))
  | [], maxAlign, arms => .pure (maxAlign, arms)
  | c :: rest, maxAlign, arms =>
    match ctors.find? (·.name = c.name) with
    | none => do
      Traced.emit (.ctorSkipped path c.name)
      buildCases size payloadOffset ctors path rest maxAlign arms
    | some ctor =>
      if size.lt (payloadOffset + c.type.size) then
        .fail (Cause.invalidLayout c.name size path)
      else do
        let align ← Traced.ofCause ctor.type.align
        let convert ← inPart path c.name (build c.type ctor.type)
        buildCases size payloadOffset ctors path rest (maxAlign.max align)
          (setArm ⟨ctor.id, c.id, payloadOffset, convert⟩ arms)

end

/-- Match a pair for a policy. Under the lenient one it is matched once more for the
conversions that are strict all the same, and that report is dropped. -/
def buildBoth (policy : UnknownTagPolicy) (dest : Dest) (desc : Desc) (path : List Text) :
    Traced (Plan × Plan) := do
  let plan ← build dest desc path
  match policy with
  | .fail => return (plan, plan)
  | .ignore => return (plan, ← (build dest desc path).muted)

end Plan

end Relayout

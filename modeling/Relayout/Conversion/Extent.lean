import Relayout.Dest.Basic

/-!
# Source extent

The extent of a matched pair is the number of bytes from the start of a source
value that its conversion reads. Source fields and constructors that the
destination does not name are never read, so they are not sized either.
-/

namespace Relayout

namespace Dest

mutual

/-- The bytes of a source value that a conversion into the destination type reads. -/
def sourceExtent : Dest → Desc → Except Cause Num
  | .prim .., desc => desc.size
  | .array _ _ length _, desc =>
    match desc with
    | .array elem _ => do return length * (← elem.size)
    | _ => .ok 0
  | .record _ slots, desc =>
    match desc with
    | .struct fields => slotsExtent fields slots 0
    | _ => .ok 0
  | .variant _ cases _ _, desc =>
    match desc with
    | .variant ctors => do
      let (maxAlign, payload) ← casesExtent ctors cases 1 0
      return Desc.tagSize.max (Desc.tagSize.alignTo maxAlign + payload)
    | _ => .ok 0

/-- The last of `finish` and the ends of the matched fields. -/
def slotsExtent (fields : List (Field Desc)) : List (Slot Dest) → (finish : Num) → Except Cause Num
  | [], finish => .ok finish
  | s :: rest, finish =>
    match fields.find? (·.name = s.name) with
    | some f => do
      slotsExtent fields rest (finish.max (f.offset + (← sourceExtent s.type f.type)))
    | none => slotsExtent fields rest finish

/-- The widest alignment and the largest extent among the matched payloads and those given. -/
def casesExtent (ctors : List (Ctor Desc)) :
    List (Case Dest) → (maxAlign payload : Num) → Except Cause (Num × Num)
  | [], maxAlign, payload => .ok (maxAlign, payload)
  | c :: rest, maxAlign, payload =>
    match ctors.find? (·.name = c.name) with
    | some ctor => do
      let align ← ctor.type.align
      let extent ← sourceExtent c.type ctor.type
      casesExtent ctors rest (maxAlign.max align) (payload.max extent)
    | none => casesExtent ctors rest maxAlign payload

end

end Dest

end Relayout

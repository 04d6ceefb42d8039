import Relayout.Dest.Basic

/-!
# Decoding destination memory

A destination value is read where its type was laid out. A variant reads its tag
first; a tag without a case is a failure, and the payload is read only after
the tag is known. A record is filled field by field.
-/

namespace Relayout.Dest

/-- Decode `count` items, the first at `start`, each `step` further. -/
def decodeItems (item : Num → Except Fault Value) (start step : Num) (i : Nat) :
    (count : Nat) → Except Fault (List Value)
  | 0 => .ok []
  | count + 1 => do
    let v ← item (start + Num.ofNat i * step)
    return v :: (← decodeItems item start step (i + 1) count)

def ofDefect {α : Type} : Except Defect α → Except Fault α
  | .ok a => .ok a
  | .error d => .error (.defect d)

mutual

def decode (m : Memory) (order : ByteOrder) : Dest → (start : Num) → Except Fault Value
  | prim _ _ _ codec, start => ofDefect (codec.load m order start)
  | array _ elem _ count, start => do
    return .list (← decodeItems (fun position => decode m order elem position) start elem.size 0 count)
  | record _ slots, start => do
    return .ofFields (← decodeSlots m order slots start)
  | variant _ cases _ decodedAt, start => do
    let tag ← ofDefect (m.loadWord order start 4)
    decodeCase m order tag cases (start + decodedAt)

def decodeSlots (m : Memory) (order : ByteOrder) :
    List (Slot Dest) → (start : Num) → Except Fault (List (Text × Value))
  | [], _ => .ok []
  | s :: rest, start => do
    let v ← decode m order s.type (start + s.decodedAt)
    return (s.name, v) :: (← decodeSlots m order rest start)

def decodeCase (m : Memory) (order : ByteOrder) (tag : Nat) :
    List (Case Dest) → (start : Num) → Except Fault Value
  | [], _ => .error (.failure (Cause.unknownTag (.ofNat tag)).failure)
  | c :: rest, start =>
    if c.id.toNat = tag then do
      return .tagged c.name (← decode m order c.type start)
    else
      decodeCase m order tag rest start

end

end Relayout.Dest

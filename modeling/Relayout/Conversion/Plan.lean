import Relayout.Dest.Basic
import Relayout.Trace
import Relayout.Config.Basic

/-!
# Conversion plans

A plan is what remains of a destination type and a descriptor once they have
been matched: a tree of copies, widenings and offsets, without names to look up
or checks to make. Running it moves one value from the source memory into the
destination memory. A run that stops early leaves what it had written.
-/

namespace Relayout

/-- How one slot of a record is filled. -/
structure FieldPlan (π : Type) where
  name : Text
  srcOffset : Num
  dstOffset : Num
  convert : π
  deriving Repr

/-- How the payload of one source constructor is converted: it is reached by
the source tag `id`, and the destination is marked with `tag`. -/
structure Arm (π : Type) where
  id : Num
  tag : UInt32
  payloadAt : Num
  convert : π
  deriving Repr

/-- A matched pair of destination type and descriptor. -/
inductive Plan where
  /-- Copy one word of 1, 2, 4 or 8 bytes. -/
  | word (width : Nat)
  /-- Copy so many bytes, one after the other. -/
  | bytes (count : Nat)
  /-- Read a source primitive and store it as another type. -/
  | widen (source : PrimName) (target : Prim)
  /-- Convert items at fixed steps. -/
  | array (count : Nat) (elem : Plan) (srcStep dstStep : Num)
  /-- Fill the slots in order. -/
  | record (fields : List (FieldPlan Plan))
  /-- Choose an arm by the source tag. `maxAlign` is the widest alignment among
  the matched source payloads, and `name` the destination type's. -/
  | variant (name : Text) (maxAlign : Num) (arms : List (Arm Plan))
  deriving Repr

/-! ## Sources -/

/-- The memory that a run reads. Where it shares bytes with the destination, what is
seen of it depends on what the destination holds meanwhile. -/
structure Source where
  length : Nat
  seen : Memory → Memory

/-- A memory that shares nothing with the destination. -/
@[reducible]
def Source.apart (m : Memory) : Source :=
  ⟨m.size, fun _ => m⟩

instance : Coe Memory Source := ⟨Source.apart⟩

/-! ## Runs -/

/-- The state that a run leaves: the destination memory, the events, and what
stopped it, if anything did. -/
structure Run where
  memory : Memory
  events : List Event
  stop : Option Fault

namespace Run

def done (m : Memory) : Run :=
  ⟨m, [], none⟩

def stopped (m : Memory) (f : Fault) : Run :=
  ⟨m, [], some f⟩

/-- A run that wrote, or failed to. -/
def ofStore (m : Memory) : Except Defect Memory → Run
  | .ok written => done written
  | .error d => stopped m (.defect d)

/-- Go on where a run is through. -/
def andThen (r : Run) (next : Memory → Run) : Run :=
  match r with
  | ⟨m, events, some f⟩ => ⟨m, events, some f⟩
  | ⟨m, events, none⟩ =>
    let r' := next m
    ⟨r'.memory, events ++ r'.events, r'.stop⟩

/-- Steps `i`, `i + 1`, … one after the other, `count` of them. -/
def iterate (step : Nat → Memory → Run) (i : Nat) : (count : Nat) → Memory → Run
  | 0, m => done m
  | count + 1, m => (step i m).andThen (iterate step (i + 1) count)

end Run

namespace Plan

/-- The offset of the payload in the source value. -/
def payloadOffset (maxAlign : Num) : Num :=
  Desc.tagSize.alignTo maxAlign

/-- Copy `width` bytes at once: all are read before the first is written. -/
def copy (src : Source) (s : Num) (d : Num) (width : Nat) (m : Memory) : Run :=
  match (src.seen m).load s width with
  | .ok loaded => .ofStore m (m.store d loaded)
  | .error e => .stopped m (.defect e)

/-- Read a source primitive and store it as another type. -/
def convertScalar (order : ByteOrder) (src : Source) (source : PrimName) (target : Prim)
    (s d : Num) (m : Memory) : Run :=
  match Scalar.load (src.seen m) order s source with
  | .ok x => .ofStore m (target.store m order d x)
  | .error e => .stopped m (.defect e)

/-- What happens to a source tag that has no arm. -/
def unmatched (policy : UnknownTagPolicy) (name : Text) (tag : Nat) (m : Memory) : Run :=
  match policy with
  | .fail => .stopped m (.failure (Cause.unknownTag (.ofNat tag)).failure)
  | .ignore => ⟨m, [.unknownTag name tag], none⟩

mutual

/-- Convert the source value at `s` into the destination at `d`. -/
def run (order : ByteOrder) (policy : UnknownTagPolicy) (src : Source) :
    Plan → (s d : Num) → Memory → Run
  | word width, s, d, m => copy src s d width m
  | bytes count, s, d, m =>
    Run.iterate (fun i => copy src (s + .ofNat i) (d + .ofNat i) 1) 0 count m
  | widen source target, s, d, m => convertScalar order src source target s d m
  | array count elem srcStep dstStep, s, d, m =>
    Run.iterate
      (fun i => run order policy src elem (s + .ofNat i * srcStep) (d + .ofNat i * dstStep))
      0 count m
  | record fields, s, d, m => runFields order policy src fields s d m
  | variant name maxAlign arms, s, d, m =>
    match (src.seen m).loadWord order s 4 with
    | .ok tag => runArm order policy src name tag arms (s + payloadOffset maxAlign) d m
    | .error e => .stopped m (.defect e)

def runFields (order : ByteOrder) (policy : UnknownTagPolicy) (src : Source) :
    List (FieldPlan Plan) → (s d : Num) → Memory → Run
  | [], _, _, m => .done m
  | f :: rest, s, d, m =>
    (run order policy src f.convert (s + f.srcOffset) (d + f.dstOffset) m).andThen
      (runFields order policy src rest s d)

/-- Mark the destination with the tag of the arm for `tag`, then convert the
payload found at `s`. -/
def runArm (order : ByteOrder) (policy : UnknownTagPolicy) (src : Source) (name : Text)
    (tag : Nat) : List (Arm Plan) → (s d : Num) → Memory → Run
  | [], _, _, m => unmatched policy name tag m
  | arm :: rest, s, d, m =>
    if arm.id.eqv (.ofNat tag) then
      (Run.ofStore m (m.storeWord order d 4 arm.tag.toNat)).andThen
        (run order policy src arm.convert s (d + arm.payloadAt))
    else
      runArm order policy src name tag rest s d m

end

/-- Convert a payload found at `s` by the arm that was chosen for it. -/
def fillArm (order : ByteOrder) (policy : UnknownTagPolicy) (src : Source) (arm : Arm Plan)
    (s d : Num) (m : Memory) : Run :=
  (Run.ofStore m (m.storeWord order d 4 arm.tag.toNat)).andThen
    (run order policy src arm.convert s (d + arm.payloadAt))

/-- The first arm for a tag is the one that runs. -/
theorem runArm_eq (order : ByteOrder) (policy : UnknownTagPolicy) (src : Source) (name : Text)
    (tag : Nat) (arms : List (Arm Plan)) (s d : Num) (m : Memory) :
    runArm order policy src name tag arms s d m =
      match arms.find? (·.id.eqv (.ofNat tag)) with
      | some arm => fillArm order policy src arm s d m
      | none => unmatched policy name tag m := by
  induction arms with
  | nil => rw [runArm, List.find?_nil]
  | cons arm rest ih =>
    rw [runArm, List.find?_cons]
    cases h : arm.id.eqv (.ofNat tag) with
    | true => simp [fillArm]
    | false => simpa using ih

end Plan

end Relayout

import Relayout.Conversion.Build
import Relayout.Conversion.Extent
import Relayout.Conversion.Heap
import Relayout.Dest.Decode
import Relayout.Outcome

/-!
# Converters

A converter is a plan with the extent of its source and a configuration. It is
built once for a pair of destination type and descriptor and may be applied to
any number of memories. Ranges are checked once, before the first byte moves.
-/

namespace Relayout

/-- What was matched for a pair, and the bytes of a source value that it reads. -/
structure Compiled where
  plan : Plan
  /-- The plan for conversions that fail on every unknown tag. -/
  strict : Plan
  sourceSize : Num
  deriving Repr

/-- A conversion into a fixed destination type. -/
structure Converter where
  dest : Dest
  compiled : Compiled
  config : Config
  deriving Repr

/-- Match a pair for a policy, the destination at `path`, and measure the source. -/
def Compiled.build (policy : UnknownTagPolicy) (dest : Dest) (desc : Desc) (path : List Text) :
    Traced Compiled := do
  let (plan, strict) ← Plan.buildBoth policy dest desc path
  let sourceSize ← Traced.ofCause (dest.sourceExtent desc)
  return ⟨plan, strict, sourceSize⟩

namespace Converter

/-- The bytes of one source value that the converter reads. -/
def sourceSize (c : Converter) : Num :=
  c.compiled.sourceSize

/-! ## Building -/

def report (dest : Dest) (desc : Desc) : Except Failure Compiled → Event
  | .ok _ => .converterBuilt dest.name desc.display
  | .error f => .buildFailed dest.name desc.display f.reason f.message

/-- Build a converter. Options are checked first; the build reports what it
ignores and, at its end, how it went. -/
def build (dest : Dest) (desc : Desc) (options : Layer) : Traced Converter := do
  let config ← Traced.ofCause options.resolve
  let built := Compiled.build config.unknownTag dest desc []
  let compiled ← (⟨built.events ++ [report dest desc built.result], built.result⟩ : Traced Compiled)
  return ⟨dest, compiled, config⟩

/-- Build a converter; a failure comes back as an outcome. -/
def tryBuild (dest : Dest) (desc : Desc) (options : Layer) :
    List Event × Except Fault (Outcome Converter) :=
  let built := build dest desc options
  (built.events, Outcome.attempt (built.result.mapError .failure))

/-! ## Applying -/

/-- The range of `size` bytes from `start` on must begin at a natural number and
end within a memory of `length` bytes. -/
def checkRange (side : Side) (length : Nat) (start size : Num) : Except Cause Unit :=
  let finish := start + size
  if !start.isWhole || start.lt 0 || (Num.ofNat length).lt finish then
    .error (.outOfBounds side start finish (.ofNat length))
  else .ok ()

/-- Both ranges of an application, the source first, if ranges are checked at all. -/
def checkRanges (c : Converter) (srcLength dstLength : Nat) (s d : Num) : Except Cause Unit :=
  if c.config.boundsCheck then do
    checkRange .source srcLength s c.sourceSize
    checkRange .destination dstLength d c.dest.size
  else .ok ()

/-- Convert under a policy of its own, after the range checks. -/
def runAs (c : Converter) (policy : UnknownTagPolicy) (src : Source) (dst : Memory) (s d : Num) :
    Run :=
  match c.checkRanges src.length dst.size s d with
  | .ok () => c.compiled.plan.run c.config.byteOrder policy src s d dst
  | .error cause => .stopped dst (.failure cause.failure)

/-- Convert the source value at `s` into the destination at `d`. -/
def apply (c : Converter) (src : Source) (dst : Memory) (s d : Num) : Run :=
  c.runAs c.config.unknownTag src dst s d

/-- Convert the source value at `s` into fresh memory and decode it. An unknown
tag fails under either policy, for there would be nothing to decode. The ranges
are checked against the length of the fresh memory before it is made. -/
def convert (c : Converter) (src : Memory) (s : Num) : Except Fault Value :=
  match c.dest.size.index? with
  | none => .error (.defect .outside)
  | some n =>
    match c.checkRanges src.size n s 0 with
    | .error cause => .error (.failure cause.failure)
    | .ok () =>
      match c.compiled.strict.run c.config.byteOrder .fail src s 0 (.zeros n) with
      | ⟨_, _, some fault⟩ => .error fault
      | ⟨m, _, none⟩ => c.dest.decode m c.config.byteOrder 0

/-! ## Calls -/

/-- What a call leaves behind. -/
structure Call where
  heap : Heap
  events : List Event
  stop : Option Fault

/-- Apply the converter to what a caller hands over. The destination is written
through its window, and the source window shows what was written so far. -/
def applyIn (c : Converter) (heap : Heap) (src dst : Handle) (s d : Num) : Call :=
  let r := c.apply (heap.source src.window dst.window) (heap.shown dst.window) s d
  ⟨heap.put dst.window r.memory, r.events, r.stop⟩

/-- Convert what a caller hands over. Fresh memory shares no byte with it. -/
def convertIn (c : Converter) (heap : Heap) (src : Handle) (s : Num) : Except Fault Value :=
  c.convert (heap.shown src.window) s

end Converter

end Relayout

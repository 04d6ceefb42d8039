import Relayout.Conversion.Plan
import Relayout.Proofs.Matching
import Relayout.Proofs.Slices
import Relayout.Proofs.Words

/-!
# Trails

What a plan reads, writes and reports depends on what it finds in the source
alone. A trail is the list of these steps with what stops the run after them.
The source may change while a run goes on, if it shares bytes with the
destination. So a trail is determined by a history: what each part of the plan
finds there when it comes to read.
-/

namespace Relayout

open Relayout.Num

inductive Step where
  /-- So many bytes of the source are read. -/
  | read (start : Num) (width : Nat)
  /-- Bytes are written to the destination. -/
  | write (start : Num) (bytes : List UInt8)
  /-- An event is reported. -/
  | report (event : Event)
  deriving Repr

/-- The steps of a run, and what stops it after them. -/
structure Trail where
  steps : List Step
  stop : Option Fault

/-! ## Replaying -/

def Step.on : Step → Memory → Run
  | read .., m => .done m
  | write start bytes, m => .ofStore m (m.store start bytes)
  | report event, m => ⟨m, [event], none⟩

def Step.replay (stop : Option Fault) : List Step → Memory → Run
  | [], m => ⟨m, [], stop⟩
  | step :: rest, m => (step.on m).andThen (replay stop rest)

namespace Run

variable {m : Memory}

/-- Going on twice is going on once with both. -/
theorem andThen_assoc (r : Run) (f g : Memory → Run) :
    (r.andThen f).andThen g = r.andThen fun m => (f m).andThen g := by
  rcases r with ⟨m, events, _ | fault⟩
  · rcases h : f m with ⟨m', events', _ | fault⟩
    · simp [andThen, h]
    · simp [andThen, h]
  · rfl

end Run

namespace Trail

def on (t : Trail) (m : Memory) : Run :=
  Step.replay t.stop t.steps m

def done : Trail :=
  ⟨[], none⟩

def stopped (f : Fault) : Trail :=
  ⟨[], some f⟩

/-- Go on where a trail is through. -/
def andThen (t u : Trail) : Trail :=
  match t.stop with
  | some _ => t
  | none => ⟨t.steps ++ u.steps, u.stop⟩

/-- Parts `i`, `i + 1`, … one after the other, `count` of them. -/
def iterate (part : Nat → Trail) (i : Nat) : (count : Nat) → Trail
  | 0 => done
  | count + 1 => (part i).andThen (iterate part (i + 1) count)

/-- Read bytes and go on with them. -/
def reading (src : Memory) (start : Num) (width : Nat) (next : List UInt8 → Trail) : Trail :=
  match src.load start width with
  | .ok bytes => ⟨.read start width :: (next bytes).steps, (next bytes).stop⟩
  | .error d => ⟨[.read start width], some (.defect d)⟩

def writing (start : Num) (bytes : List UInt8) : Trail :=
  ⟨[.write start bytes], none⟩

theorem on_writing (start : Num) (bytes : List UInt8) (m : Memory) :
    (writing start bytes).on m = .ofStore m (m.store start bytes) := by
  simp only [on, writing, Step.replay, Step.on]
  cases m.store start bytes with
  | ok m' => rfl
  | error d => rfl

theorem on_reading (src : Memory) (start : Num) (width : Nat) (next : List UInt8 → Trail)
    (m : Memory) : (reading src start width next).on m =
      match src.load start width with
      | .ok bytes => (next bytes).on m
      | .error d => .stopped m (.defect d) := by
  rw [reading]
  cases src.load start width with
  | ok bytes => rfl
  | error d => rfl

/-- **A chain of trails is replayed part by part.** -/
theorem on_andThen (t u : Trail) (m : Memory) : (t.andThen u).on m = (t.on m).andThen u.on := by
  obtain ⟨steps, stop⟩ := t
  cases stop with
  | some f =>
      show Step.replay (some f) steps m = (Step.replay (some f) steps m).andThen u.on
      induction steps generalizing m with
      | nil => rfl
      | cons step rest ih =>
          rw [Step.replay, Run.andThen_assoc]
          exact congrArg _ (funext ih)
  | none =>
      show Step.replay u.stop (steps ++ u.steps) m = (Step.replay none steps m).andThen u.on
      induction steps generalizing m with
      | nil => rfl
      | cons step rest ih =>
          rw [List.cons_append, Step.replay, Step.replay, Run.andThen_assoc]
          exact congrArg _ (funext ih)

end Trail

/-! ## Histories -/

/-- What the parts of a run find in the source. A part is known by its place: the numbers
of the parts around it and its own, the outermost first. -/
structure History where
  seen : List Nat → Memory

namespace History

/-- A source that stays as it is. -/
@[reducible]
def always (m : Memory) : History :=
  ⟨fun _ => m⟩

instance : Coe Memory History := ⟨always⟩

/-- What the whole run finds before its parts begin. -/
@[reducible]
def here (h : History) : Memory :=
  h.seen []

/-- What part `i` finds. -/
@[reducible]
def part (h : History) (i : Nat) : History :=
  ⟨fun place => h.seen (i :: place)⟩

/-- What the parts behind the first one find, numbered anew. -/
@[reducible]
def rest (h : History) : History :=
  ⟨fun place => h.seen (place.modifyHead (· + 1))⟩

end History

/-! ## The trail of a plan -/

namespace Plan

/-- Store a scalar as its word; nothing is written for a unit. -/
def storing (order : ByteOrder) (target : Prim) (x : Scalar) (d : Num) : Trail :=
  match target.word x with
  | .error e => .stopped (.defect e)
  | .ok n => if target = .unit then .done else .writing d (Word.toBytes order target.size n)

/-- Read a source primitive and store it; nothing is read for a unit. -/
def widening (order : ByteOrder) (src : Memory) (source : PrimName) (target : Prim) (s d : Num) :
    Trail :=
  if source = .unit then storing order target (.whole 0) d
  else .reading src s source.size fun bytes =>
    storing order target (Scalar.ofWord (Word.ofBytes order bytes) source) d

/-- What happens to a source tag that has no arm. -/
def unmatchedTrail (policy : UnknownTagPolicy) (name : Text) (tag : Nat) : Trail :=
  match policy with
  | .fail => .stopped (.failure (Cause.unknownTag (.ofNat tag)).failure)
  | .ignore => ⟨[.report (.unknownTag name tag)], none⟩

mutual

/-- The steps that convert the source value at `s` into the destination at `d`. -/
def trail (order : ByteOrder) (policy : UnknownTagPolicy) :
    (src : History) → Plan → (s d : Num) → Trail
  | src, word width, s, d => .reading src.here s width fun bytes => .writing d bytes
  | src, bytes count, s, d =>
    .iterate
      (fun i => .reading (src.part i).here (s + .ofNat i) 1 fun bytes =>
        .writing (d + .ofNat i) bytes)
      0 count
  | src, widen source target, s, d => widening order src.here source target s d
  | src, array count elem srcStep dstStep, s, d =>
    .iterate
      (fun i => trail order policy (src.part i) elem (s + .ofNat i * srcStep)
        (d + .ofNat i * dstStep))
      0 count
  | src, record fields, s, d => trailFields order policy src fields s d
  | src, variant name maxAlign arms, s, d =>
    .reading src.here s 4 fun bytes =>
      trailArm order policy (src.part 0) name (Word.ofBytes order bytes) arms
        (s + payloadOffset maxAlign) d

def trailFields (order : ByteOrder) (policy : UnknownTagPolicy) :
    (src : History) → List (FieldPlan Plan) → (s d : Num) → Trail
  | _, [], _, _ => .done
  | src, f :: rest, s, d =>
    (trail order policy (src.part 0) f.convert (s + f.srcOffset) (d + f.dstOffset)).andThen
      (trailFields order policy src.rest rest s d)

def trailArm (order : ByteOrder) (policy : UnknownTagPolicy) (src : History) (name : Text)
    (tag : Nat) : List (Arm Plan) → (s d : Num) → Trail
  | [], _, _ => unmatchedTrail policy name tag
  | arm :: rest, s, d =>
    if arm.id.eqv (.ofNat tag) then
      (Trail.writing d (Word.toBytes order 4 arm.tag.toNat)).andThen
        (trail order policy src arm.convert s (d + arm.payloadAt))
    else
      trailArm order policy src name tag rest s d

end

variable (order : ByteOrder) (policy : UnknownTagPolicy) (src : History)

/-- A store stops, does nothing or writes as many bytes as the type has. It does so wherever the
bytes go. -/
theorem storing_cases (target : Prim) (x : Scalar) :
    (∃ e, ∀ d, storing order target x d = .stopped (.defect e)) ∨
      (target = .unit ∧ ∀ d, storing order target x d = .done) ∨
      ∃ bytes, bytes.length = target.size ∧ ∀ d, storing order target x d = .writing d bytes := by
  cases hword : target.word x with
  | error e => exact Or.inl ⟨e, fun d => by rw [storing, hword]⟩
  | ok n =>
      by_cases hunit : target = .unit
      · exact Or.inr (Or.inl ⟨hunit, fun d => by rw [storing, hword]; exact if_pos hunit⟩)
      · exact Or.inr (Or.inr ⟨_, Word.length_toBytes order target.size n,
          fun d => by rw [storing, hword]; exact if_neg hunit⟩)

/-- The first arm for a tag is the one whose steps are taken. -/
theorem trailArm_eq (name : Text) (tag : Nat) (arms : List (Arm Plan)) (s d : Num) :
    trailArm order policy src name tag arms s d =
      match arms.find? (·.id.eqv (.ofNat tag)) with
      | some arm => (Trail.writing d (Word.toBytes order 4 arm.tag.toNat)).andThen
          (trail order policy src arm.convert s (d + arm.payloadAt))
      | none => unmatchedTrail policy name tag := by
  induction arms with
  | nil => rw [trailArm, List.find?_nil]
  | cons arm rest ih =>
      rw [trailArm, List.find?_cons]
      cases h : arm.id.eqv (.ofNat tag) with
      | true => simp
      | false => simpa using ih

/-- **The steps behind a tag**: those of an unmatched one if no constructor is taken for it, and
otherwise the tag of the case is written and the payload is converted behind it. -/
theorem trailArm_taken {ctors : List (Ctor Desc)} {cases : List (Case Dest)} {payloadOffset : Num}
    {arms : List (Arm Plan)}
    (harms : ∀ tag : Num, (taken ctors tag cases = none → arms.find? (·.id.eqv tag) = none) ∧
      ∀ found, taken ctors tag cases = some found →
        ∃ arm, arms.find? (·.id.eqv tag) = some arm ∧ CaseBuilt payloadOffset found arm)
    (tag : Nat) :
    (taken ctors (.ofNat tag) cases = none ∧ ∀ order policy src name s d,
      trailArm order policy src name tag arms s d = unmatchedTrail policy name tag) ∨
    ∃ c ctor convert, taken ctors (.ofNat tag) cases = some (c, ctor) ∧ c ∈ cases ∧
      ctors.find? (·.name = c.name) = some ctor ∧ Built c.type ctor.type convert ∧
      ∀ order policy src name s d, trailArm order policy src name tag arms s d =
        (Trail.writing d (Word.toBytes order 4 c.id.toNat)).andThen
          (trail order policy src convert s (d + payloadOffset)) := by
  obtain ⟨hnone, hsome⟩ := harms (.ofNat tag)
  cases htaken : taken ctors (.ofNat tag) cases with
  | none =>
      refine Or.inl ⟨rfl, fun order policy src name s d => ?_⟩
      rw [trailArm_eq, hnone htaken]
  | some found =>
      obtain ⟨c, ctor⟩ := found
      obtain ⟨arm, harm, hbuilt⟩ := hsome _ htaken
      obtain ⟨hmem, hctor, -⟩ := taken_spec htaken
      refine Or.inr ⟨c, ctor, arm.convert, rfl, hmem, hctor, hbuilt.convert, ?_⟩
      intro order policy src name s d
      rw [trailArm_eq, harm]
      simp only [hbuilt.tag, hbuilt.payloadAt]

end Plan

end Relayout

import Relayout.Proofs.Matching
import Relayout.Proofs.Zeros
import Relayout.Conversion.Converter

/-!
# Alike descriptors

Descriptors that differ in the signs of zeros only are interchangeable: they have
the same layout, they are matched with the same destination types, and the
converters that are built for them do the same to every memory. The sign is taken
away once (`Desc.plain`, `Plan.plain`), and each computation is compared with
itself on what is left.
-/

namespace Relayout

open Relayout.Num

/-! ## Computations that agree -/

/-- Both computations fail, or both come to values that are related. -/
inductive Agree {ε α β : Type} (r : α → β → Prop) : Except ε α → Except ε β → Prop
  | ok {a : α} {b : β} (h : r a b) : Agree r (.ok a) (.ok b)
  | error (e f : ε) : Agree r (.error e) (.error f)

namespace Agree

variable {ε α β α' β' : Type} {r : α → β → Prop} {q : α' → β' → Prop}

theorem bind {x : Except ε α} {y : Except ε β} {f : α → Except ε α'} {g : β → Except ε β'}
    (h : Agree r x y) (hf : ∀ a b, r a b → Agree q (f a) (g b)) : Agree q (x >>= f) (y >>= g) := by
  cases h with
  | ok hab => exact hf _ _ hab
  | error e e' => exact .error e e'

/-- Of the values it is known which computations came to them. -/
theorem bind_ok {x : Except ε α} {y : Except ε β} {f : α → Except ε α'} {g : β → Except ε β'}
    (h : Agree r x y) (hf : ∀ a b, x = .ok a → r a b → Agree q (f a) (g b)) :
    Agree q (x >>= f) (y >>= g) := by
  cases h with
  | ok hab => exact hf _ _ rfl hab
  | error e e' => exact .error e e'

theorem refl {r : α → α → Prop} (hr : ∀ a, r a a) (x : Except ε α) : Agree r x x := by
  cases x with
  | ok a => exact .ok (hr a)
  | error e => exact .error e e

theorem mapError {ε' : Type} {x : Except ε α} {y : Except ε β} (h : Agree r x y) (f g : ε → ε') :
    Agree r (x.mapError f) (y.mapError g) := by
  cases h with
  | ok hab => exact .ok hab
  | error e e' => exact .error (f e) (g e')

theorem imp {q : α → β → Prop} {x : Except ε α} {y : Except ε β} (h : Agree r x y)
    (hrq : ∀ a b, r a b → q a b) : Agree q x y := by
  cases h with
  | ok hab => exact .ok (hrq _ _ hab)
  | error e e' => exact .error e e'

theorem comp {γ : Type} {q : β → γ → Prop} {x : Except ε α} {y : Except ε β}
    {z : Except ε γ} (h : Agree r x y) (h' : Agree q y z) :
    Agree (fun a c => ∃ b, r a b ∧ q b c) x z := by
  cases h with
  | ok hab =>
      cases h' with
      | ok hbc => exact .ok ⟨_, hab, hbc⟩
  | error e e' =>
      cases h' with
      | error _ e'' => exact .error e e''

/-- Two computations that agree with a third agree with each other. -/
theorem through {γ : Type} {p : α → γ → Prop} {q : α → β → Prop} {x : Except ε α} {y : Except ε β}
    {z : Except ε γ} (h : Agree p x z) (h' : Agree q x y) {r : γ → β → Prop}
    (hr : ∀ a b c, p a c → q a b → r c b) : Agree r z y := by
  cases h with
  | ok hac =>
      cases h' with
      | ok hab => exact .ok (hr _ _ _ hac hab)
  | error e e' =>
      cases h' with
      | error _ e'' => exact .error e' e''

end Agree

namespace Traced

variable {α β α' β' : Type} {r : α → β → Prop} {q : α' → β' → Prop}

theorem result_bind (x : Traced α) (f : α → Traced β) :
    (x >>= f).result = x.result >>= fun a => (f a).result := by
  show (x.bind f).result = _
  rw [Traced.bind]
  cases x.result <;> rfl

theorem agree_bind {x : Traced α} {y : Traced β} {f : α → Traced α'} {g : β → Traced β'}
    (h : Agree r x.result y.result) (hf : ∀ a b, r a b → Agree q (f a).result (g b).result) :
    Agree q (x >>= f).result (y >>= g).result := by
  rw [result_bind, result_bind]
  exact h.bind hf

theorem agree_ofCause {x : Except Cause α} {y : Except Cause β} (h : Agree r x y) :
    Agree r (ofCause x).result (ofCause y).result := by
  cases h with
  | ok hab => exact .ok hab
  | error c c' => exact .error c.failure c'.failure

end Traced

theorem Plan.agree_inPart {α β : Type} {r : α → β → Prop} {path : List Text} {segment : Text}
    {x : List Text → Traced α} {y : List Text → Traced β}
    (h : Agree r (x (path ++ [segment])).result (y (path ++ [segment])).result) :
    Agree r (inPart path segment x).result (inPart path segment y).result :=
  h.mapError _ _

/-! ## Layout -/

namespace Desc

mutual

theorem align_plain : ∀ d : Desc, d.plain.align = d.align
  | prim name => by rw [plain]
  | nat value => by rw [plain, align, align]
  | array elem len => by rw [plain, align, align, align_plain elem]
  | struct fields => by rw [plain, align, align, alignFields_plain fields]
  | variant ctors => by rw [plain, align, align, alignCtors_plain ctors]

theorem alignFields_plain : ∀ (fields : List (Field Desc)) (widest : Num),
    alignFields (plainFields fields) widest = alignFields fields widest
  | [], _ => by rw [plainFields]
  | f :: rest, widest => by
      rw [plainFields, alignFields, alignFields, align_plain f.type]
      exact bind_congr fun a => alignFields_plain rest _

theorem alignCtors_plain : ∀ (ctors : List (Ctor Desc)) (widest : Num),
    alignCtors (plainCtors ctors) widest = alignCtors ctors widest
  | [], _ => by rw [plainCtors]
  | c :: rest, widest => by
      rw [plainCtors, alignCtors, alignCtors, align_plain c.type]
      exact bind_congr fun a => alignCtors_plain rest _

end

theorem lengthOf_plain (len : Desc) : Agree Same (lengthOf len.plain) (lengthOf len) := by
  cases len with
  | nat value =>
      rw [plain]
      exact .ok (same_plain value)
  | _ =>
      rw [plain]
      exact .error _ _

mutual

theorem size_plain : ∀ d : Desc, Agree Same d.plain.size d.size
  | prim name => by
      rw [plain]
      exact .refl Same.refl _
  | nat value => by
      rw [plain, size, size]
      exact .error _ _
  | array elem len => by
      rw [plain, size, size]
      exact (lengthOf_plain len).bind fun _ _ hlen => (size_plain elem).bind fun _ _ hsize =>
        .ok (hlen.mul hsize)
  | struct fields => by
      have halign := align_plain (struct fields)
      rw [plain] at halign
      rw [plain, size, size, halign]
      exact (endOfFields_plain fields (.refl 0)).bind fun _ _ hfinish =>
        (Agree.refl (fun _ => rfl) _).bind fun a b hab => hab ▸ .ok (hfinish.alignTo a)
  | variant ctors => by
      have halign := align_plain (variant ctors)
      rw [plain] at halign
      rw [plain, size, size, halign, payloadOffset, payloadOffset, alignCtors_plain]
      exact (largestPayload_plain ctors (.refl 0)).bind fun _ _ hpayload =>
        (Agree.refl (fun _ => rfl) _).bind fun o o' ho => (Agree.refl (fun _ => rfl) _).bind
          fun a b hab => hab ▸ ho ▸ .ok (((Same.refl o).add hpayload).alignTo a)

theorem endOfFields_plain : ∀ (fields : List (Field Desc)) {x y : Num}, x.Same y →
    Agree Same (endOfFields (plainFields fields) x) (endOfFields fields y)
  | [], _, _, h => by
      rw [plainFields, endOfFields, endOfFields]
      exact .ok h
  | f :: rest, _, _, h => by
      rw [plainFields, endOfFields, endOfFields]
      exact (size_plain f.type).bind fun _ _ hsize =>
        endOfFields_plain rest (h.max ((same_plain f.offset).add hsize))

theorem largestPayload_plain : ∀ (ctors : List (Ctor Desc)) {x y : Num}, x.Same y →
    Agree Same (largestPayload (plainCtors ctors) x) (largestPayload ctors y)
  | [], _, _, h => by
      rw [plainCtors, largestPayload, largestPayload]
      exact .ok h
  | c :: rest, _, _, h => by
      rw [plainCtors, largestPayload, largestPayload]
      exact (size_plain c.type).bind fun _ _ hsize => largestPayload_plain rest (h.max hsize)

end

/-! ## Parts by name -/

theorem find?_plainFields (name : Text) (fields : List (Field Desc)) :
    (plainFields fields).find? (·.name = name) =
      (fields.find? (·.name = name)).map fun f => ⟨f.name, f.offset.plain, f.type.plain⟩ := by
  induction fields with
  | nil => rfl
  | cons f rest ih =>
      rw [plainFields, List.find?_cons, List.find?_cons]
      cases h : decide (f.name = name) with
      | true => simp
      | false => simpa using ih

theorem find?_plainCtors (name : Text) (ctors : List (Ctor Desc)) :
    (plainCtors ctors).find? (·.name = name) =
      (ctors.find? (·.name = name)).map fun c => ⟨c.name, c.id.plain, c.type.plain⟩ := by
  induction ctors with
  | nil => rfl
  | cons c rest ih =>
      rw [plainCtors, List.find?_cons, List.find?_cons]
      cases h : decide (c.name = name) with
      | true => simp
      | false => simpa using ih

end Desc

/-! ## Extent -/

namespace Dest

mutual

theorem sourceExtent_plain : ∀ (dest : Dest) (desc : Desc),
    Agree Same (dest.sourceExtent desc.plain) (dest.sourceExtent desc)
  | .prim .., desc => by
      rw [sourceExtent, sourceExtent]
      exact desc.size_plain
  | .array _ _ length _, desc => by
      cases desc with
      | array elem len =>
          rw [Desc.plain, sourceExtent, sourceExtent]
          exact elem.size_plain.bind fun _ _ hsize => .ok ((Same.refl length).mul hsize)
      | _ =>
          rw [Desc.plain]
          exact .refl Same.refl _
  | .record _ slots, desc => by
      cases desc with
      | struct fields =>
          rw [Desc.plain, sourceExtent, sourceExtent]
          exact slotsExtent_plain fields slots (.refl 0)
      | _ =>
          rw [Desc.plain]
          exact .refl Same.refl _
  | .variant _ cases _ _, desc => by
      cases desc with
      | variant ctors =>
          rw [Desc.plain, sourceExtent, sourceExtent]
          refine (casesExtent_plain ctors cases 1 (.refl 0)).bind ?_
          rintro ⟨a, x⟩ ⟨b, y⟩ ⟨hab, hxy⟩
          have hab : a = b := hab
          subst hab
          exact .ok ((Same.refl _).max ((Same.refl _).add hxy))
      | _ =>
          rw [Desc.plain]
          exact .refl Same.refl _

theorem slotsExtent_plain (fields : List (Field Desc)) : ∀ (slots : List (Slot Dest)) {x y : Num},
    x.Same y →
      Agree Same (slotsExtent (Desc.plainFields fields) slots x) (slotsExtent fields slots y)
  | [], _, _, h => by
      rw [slotsExtent, slotsExtent]
      exact .ok h
  | s :: rest, _, _, h => by
      rw [slotsExtent, slotsExtent, Desc.find?_plainFields]
      cases fields.find? (·.name = s.name) with
      | none => exact slotsExtent_plain fields rest h
      | some f =>
          exact (sourceExtent_plain s.type f.type).bind fun _ _ hextent =>
            slotsExtent_plain fields rest (h.max ((same_plain f.offset).add hextent))

theorem casesExtent_plain (ctors : List (Ctor Desc)) : ∀ (cases : List (Case Dest)) (widest : Num)
    {x y : Num}, x.Same y →
      Agree (fun a b => a.1 = b.1 ∧ a.2.Same b.2)
        (casesExtent (Desc.plainCtors ctors) cases widest x) (casesExtent ctors cases widest y)
  | [], _, _, _, h => by
      rw [casesExtent, casesExtent]
      exact .ok ⟨rfl, h⟩
  | c :: rest, widest, _, _, h => by
      rw [casesExtent, casesExtent, Desc.find?_plainCtors]
      cases ctors.find? (·.name = c.name) with
      | none => exact casesExtent_plain ctors rest widest h
      | some ctor =>
          simp only [Option.map_some, Desc.align_plain]
          exact (Agree.refl (fun _ => rfl) _).bind fun a b hab => hab ▸
            (sourceExtent_plain c.type ctor.type).bind fun _ _ hextent =>
              casesExtent_plain ctors rest _ (h.max hextent)

end

end Dest

namespace Plan

/-! ## Plans without the signs of zeros -/

mutual

/-- The plan without the signs of the zeros that came from the descriptor. -/
def plain : Plan → Plan
  | word width => word width
  | bytes count => bytes count
  | widen source target => widen source target
  | array count elem srcStep dstStep => array count (plain elem) srcStep.plain dstStep
  | record fields => record (plainFields fields)
  | variant name maxAlign arms => variant name maxAlign (plainArms arms)

def plainFields : List (FieldPlan Plan) → List (FieldPlan Plan)
  | [] => []
  | f :: rest => ⟨f.name, f.srcOffset.plain, f.dstOffset, plain f.convert⟩ :: plainFields rest

def plainArms : List (Arm Plan) → List (Arm Plan)
  | [] => []
  | arm :: rest => ⟨arm.id.plain, arm.tag, arm.payloadAt, plain arm.convert⟩ :: plainArms rest

end

/-- The same plan but for the signs of zeros. -/
def Alike (p p' : Plan) : Prop :=
  p.plain = p'.plain

theorem plainArms_setArm (arm : Arm Plan) (arms : List (Arm Plan)) :
    plainArms (setArm arm arms) =
      setArm ⟨arm.id.plain, arm.tag, arm.payloadAt, arm.convert.plain⟩ (plainArms arms) := by
  induction arms with
  | nil => rfl
  | cons other rest ih =>
      have hsame : other.id.plain.eqv arm.id.plain = other.id.eqv arm.id :=
        (same_plain other.id).eqv (same_plain arm.id)
      rw [setArm, plainArms, setArm]
      simp only [hsame]
      split
      · rw [plainArms]
      · rw [plainArms, ih]

/-! ## Matching -/

theorem checkLength_plain (length : Num) (len : Desc) (path : List Text) :
    Agree (fun _ _ => True) (checkLength length len.plain path) (checkLength length len path) := by
  cases len with
  | nat n =>
      have hwhole := (same_plain n).isWhole
      have hlt := (same_plain n).lt (.refl 0)
      have heqv := (same_plain n).eqv (.refl length)
      rw [Desc.plain, checkLength, checkLength, hwhole, hlt, heqv]
      split
      · split
        · exact .ok trivial
        · exact .error _ _
      · exact .error _ _
  | _ =>
      rw [Desc.plain]
      exact .error _ _

theorem buildPrim_plain (surface : Surface) (source : Text) (widensFrom : List Text) (codec : Prim)
    (desc : Desc) (path : List Text) :
    Agree Alike (buildPrim surface source widensFrom codec desc.plain path)
      (buildPrim surface source widensFrom codec desc path) := by
  cases desc with
  | prim name =>
      rw [Desc.plain]
      exact .refl (r := Alike) (fun _ => rfl) _
  | _ =>
      rw [Desc.plain]
      exact .error _ _

mutual

/-- **A type is matched with a descriptor exactly if it is matched with the
descriptor without the signs of its zeros**, and the plans are alike. -/
theorem build_plain : ∀ (dest : Dest) (desc : Desc) (path : List Text),
    Agree Alike (build dest desc.plain path).result (build dest desc path).result
  | .prim surface source widensFrom codec, desc, path => by
      rw [build, build]
      exact Traced.agree_ofCause (buildPrim_plain surface source widensFrom codec desc path)
  | .array surface elem length _, desc, path => by
      cases desc with
      | array elemDesc len =>
          rw [Desc.plain, build, build]
          refine Traced.agree_bind (Traced.agree_ofCause (checkLength_plain length len path)) ?_
          rintro - - -
          refine Traced.agree_bind (agree_inPart (build_plain elem elemDesc _)) ?_
          intro p p' hp
          refine Traced.agree_bind (Traced.agree_ofCause elemDesc.size_plain) ?_
          intro x x' hx
          refine .ok ?_
          rw [Alike, plain, plain, hp, hx]
      | _ =>
          rw [Desc.plain]
          exact .error _ _
  | .record surface slots, desc, path => by
      cases desc with
      | struct fields =>
          rw [Desc.plain, build, build]
          refine Traced.agree_bind (buildSlots_plain surface.size fields path slots) ?_
          intro ps ps' hps
          refine .ok ?_
          rw [Alike, plain, plain, hps]
      | _ =>
          rw [Desc.plain]
          exact .error _ _
  | .variant surface cases payloadOffset _, desc, path => by
      cases desc with
      | variant ctors =>
          rw [Desc.plain, build, build]
          refine Traced.agree_bind
            (buildCases_plain surface.size payloadOffset ctors path cases 1 rfl) ?_
          rintro ⟨a, arms⟩ ⟨b, arms'⟩ ⟨hab, harms⟩
          refine .ok ?_
          rw [Alike, plain, plain, harms, show a = b from hab]
      | _ =>
          rw [Desc.plain]
          exact .error _ _

theorem buildSlots_plain (size : Num) (fields : List (Field Desc)) (path : List Text) :
    ∀ slots : List (Slot Dest),
      Agree (fun ps ps' => plainFields ps = plainFields ps')
        (buildSlots size (Desc.plainFields fields) path slots).result
        (buildSlots size fields path slots).result
  | [] => by
      rw [buildSlots, buildSlots]
      exact .ok rfl
  | s :: rest => by
      rw [buildSlots, buildSlots, Desc.find?_plainFields]
      split
      · exact .error _ _
      · cases fields.find? (·.name = s.name) with
        | none => exact .error _ _
        | some f =>
            refine Traced.agree_bind (agree_inPart (build_plain s.type f.type _)) ?_
            intro p p' hp
            refine Traced.agree_bind (buildSlots_plain size fields path rest) ?_
            intro ps ps' hps
            refine .ok ?_
            rw [plainFields, plainFields, hps, hp, Num.plain_plain]

theorem buildCases_plain (size payloadOffset : Num) (ctors : List (Ctor Desc)) (path : List Text) :
    ∀ (cases : List (Case Dest)) (widest : Num) {arms arms' : List (Arm Plan)},
      plainArms arms = plainArms arms' →
        Agree (fun a b => a.1 = b.1 ∧ plainArms a.2 = plainArms b.2)
          (buildCases size payloadOffset (Desc.plainCtors ctors) path cases widest arms).result
          (buildCases size payloadOffset ctors path cases widest arms').result
  | [], _, _, _, h => by
      rw [buildCases, buildCases]
      exact .ok ⟨rfl, h⟩
  | c :: rest, widest, _, _, h => by
      rw [buildCases, buildCases, Desc.find?_plainCtors]
      cases ctors.find? (·.name = c.name) with
      | none =>
          refine Traced.agree_bind (.ok rfl : Agree Eq _ _) ?_
          rintro - - -
          exact buildCases_plain size payloadOffset ctors path rest widest h
      | some ctor =>
          simp only [Option.map_some, Desc.align_plain]
          split
          · exact .error _ _
          · refine Traced.agree_bind (.refl (r := Eq) (fun _ => rfl) _) ?_
            rintro a _ rfl
            refine Traced.agree_bind (agree_inPart (build_plain c.type ctor.type _)) ?_
            intro p p' hp
            refine buildCases_plain size payloadOffset ctors path rest _ ?_
            rw [plainArms_setArm, plainArms_setArm, h, hp, Num.plain_plain]

end

end Plan

/-! ## Runs -/

namespace Memory

variable {start start' : Num} (h : start.Same start')

include h

/-- Zeros of either sign name the first byte. -/
theorem load_same (m : Memory) (width : Nat) : m.load start width = m.load start' width := by
  rw [load, load, position, position, h.index?]

theorem loadWord_same (m : Memory) (order : ByteOrder) (width : Nat) :
    m.loadWord order start width = m.loadWord order start' width := by
  rw [loadWord, loadWord, load_same h]

theorem scalar_same (m : Memory) (order : ByteOrder) (source : PrimName) :
    Scalar.load m order start source = Scalar.load m order start' source := by
  cases source with
  | unit => rfl
  | _ => simp only [Scalar.load, loadWord_same h]

end Memory

namespace Plan

section Runs

variable (order : ByteOrder) (policy : UnknownTagPolicy) (src : Source)

mutual

/-- **The signs of zeros do not matter to a run**: neither those in the plan nor
that of the source position. -/
theorem run_plain : ∀ (plan : Plan) {s s' : Num} (d : Num) (m : Memory), s.Same s' →
    run order policy src plan.plain s d m = run order policy src plan s' d m
  | word width, _, _, d, m, h => by
      rw [plain, run, run, copy, copy, Memory.load_same h]
  | bytes count, _, _, d, m, h => by
      rw [plain, run, run]
      congr 1
      funext i m
      rw [copy, copy, Memory.load_same (h.add (.refl _))]
  | widen source target, _, _, d, m, h => by
      rw [plain, run, run, convertScalar, convertScalar, Memory.scalar_same h]
  | array count elem srcStep dstStep, _, _, d, m, h => by
      rw [plain, run, run]
      congr 1
      funext i m
      exact run_plain elem _ m (h.add ((Same.refl _).mul (same_plain srcStep)))
  | record fields, _, _, d, m, h => by
      rw [plain, run, run]
      exact runFields_plain fields d m h
  | variant name maxAlign arms, _, _, d, m, h => by
      rw [plain, run, run, Memory.loadWord_same h]
      split
      · exact runArm_plain name _ arms d m (h.add (.refl _))
      · rfl

theorem runFields_plain : ∀ (fields : List (FieldPlan Plan)) {s s' : Num} (d : Num) (m : Memory),
    s.Same s' →
      runFields order policy src (plainFields fields) s d m = runFields order policy src fields s' d m
  | [], _, _, _, _, _ => by rw [plainFields, runFields, runFields]
  | f :: rest, _, _, d, m, h => by
      rw [plainFields, runFields, runFields,
        run_plain f.convert _ m (h.add (same_plain f.srcOffset))]
      congr 1
      funext m
      exact runFields_plain rest d m h

theorem runArm_plain (name : Text) (tag : Nat) : ∀ (arms : List (Arm Plan)) {s s' : Num} (d : Num)
    (m : Memory), s.Same s' →
      runArm order policy src name tag (plainArms arms) s d m =
        runArm order policy src name tag arms s' d m
  | [], _, _, _, _, _ => by rw [plainArms, runArm, runArm]
  | arm :: rest, _, _, d, m, h => by
      have htag := (same_plain arm.id).eqv (.refl (.ofNat tag))
      rw [plainArms, runArm, runArm, htag]
      split
      · congr 1
        funext m
        exact run_plain arm.convert _ m h
      · exact runArm_plain name tag rest d m h

end

theorem Alike.run_eq {p p' : Plan} (h : p.Alike p') (s d : Num) (m : Memory) :
    run order policy src p s d m = run order policy src p' s d m := by
  rw [← run_plain order policy src p d m (.refl s), h, run_plain order policy src p' d m (.refl s)]

end Runs

end Plan

/-! ## Converters -/

/-- The same but for the signs of zeros. -/
structure Compiled.Alike (c c' : Compiled) : Prop where
  plan : c.plan.Alike c'.plan
  strict : c.strict.Alike c'.strict
  sourceSize : c.sourceSize.Same c'.sourceSize

theorem Compiled.once_plain (dest : Dest) (desc : Desc) (path : List Text) :
    Agree Compiled.Alike (Compiled.once dest desc.plain path).result
      (Compiled.once dest desc path).result := by
  refine Traced.agree_bind (Plan.build_plain dest desc path) ?_
  intro p p' hp
  refine Traced.agree_bind (Traced.agree_ofCause (dest.sourceExtent_plain desc)) ?_
  intro x x' hx
  exact .ok ⟨hp, hp, hx⟩

/-- **Alike descriptors are built alike**, or both fail. -/
theorem Compiled.once_alike (dest : Dest) {desc desc' : Desc} (h : desc.Alike desc')
    (path : List Text) :
    Agree Compiled.Alike (Compiled.once dest desc path).result
      (Compiled.once dest desc' path).result := by
  have hleft := Compiled.once_plain dest desc path
  have hright := Compiled.once_plain dest desc' path
  rw [← h] at hright
  refine hleft.through hright ?_
  intro a b c hac hab
  exact ⟨hac.plan.symm.trans hab.plan, hac.strict.symm.trans hab.strict,
    hac.sourceSize.symm.trans hab.sourceSize⟩

namespace Converter

/-- A size that is zero is never out of range from a start that is zero, so its
sign is seen by nobody. -/
theorem checkRange_same {size size' : Num} (h : size.Same size') (side : Side) (length : Nat)
    (start : Num) : checkRange side length start size = checkRange side length start size' := by
  refine eq_of_zero (checkRange side length start) ?_ h
  cases start with
  | negZero =>
      have hlt : (Num.ofNat length).lt .negZero = false := (tracks_ofNat length).not_lt_negZero
      have hlt' : (Num.ofNat length).lt (.rat 0) = false := by
        rw [← Same.lt (.refl _) negZero_same, hlt]
      have hpasses : (!negZero.isWhole || negZero.lt 0) = false := rfl
      have hsum : negZero + negZero = negZero := rfl
      simp only [checkRange, hsum, zeros_add, hlt, hlt', hpasses, Bool.or_false, Bool.false_eq_true, if_false]
  | _ => rfl

/-- Two converters that nobody can tell apart by what they do. -/
structure Interchangeable (c c' : Converter) : Prop where
  dest : c.dest = c'.dest
  sourceSize : c.sourceSize.Same c'.sourceSize
  apply : ∀ (src : Source) dst s d, c.apply src dst s d = c'.apply src dst s d
  convert : ∀ src s, c.convert src s = c'.convert src s

theorem Interchangeable.refl (c : Converter) : c.Interchangeable c :=
  ⟨rfl, .refl _, fun _ _ _ _ => rfl, fun _ _ => rfl⟩

theorem interchangeable_of_alike (dest : Dest) (config : Config) {compiled compiled' : Compiled}
    (h : compiled.Alike compiled') :
    Interchangeable ⟨dest, compiled, config⟩ ⟨dest, compiled', config⟩ := by
  have hranges : ∀ srcLength dstLength s d,
      checkRanges ⟨dest, compiled, config⟩ srcLength dstLength s d =
        checkRanges ⟨dest, compiled', config⟩ srcLength dstLength s d := by
    intro srcLength dstLength s d
    rw [checkRanges, checkRanges, Converter.sourceSize, Converter.sourceSize,
      checkRange_same h.sourceSize]
  refine ⟨rfl, h.sourceSize, ?_, ?_⟩
  · intro src dst s d
    simp only [apply, runAs, hranges, h.plan.run_eq]
  · intro src s
    simp only [convert, hranges, h.strict.run_eq]

end Converter

end Relayout

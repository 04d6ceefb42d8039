import Mathlib.Logic.Relation
import Relayout.Proofs.Alike
import Relayout.Proofs.Lenient

/-!
# Surplus parts of the source

A record takes source fields by the names of its slots, and a variant takes
source constructors by the names of its cases. Whatever else the source has is
never matched, sized or aligned, so it may be anything. A surplus part can be
put in where a record or a variant meets its source with nothing but records
around it: an array asks for the size of its items as a whole, and a variant for
the alignment of its payloads.
-/

namespace Relayout

/-- One surplus part is inserted: a field that the record has no slot for, or a constructor
that the variant has no case for. The field may also be in the type of a field that is taken. -/
inductive Dest.Gains : Dest → Desc → Desc → Prop
  | field {surface : Surface} {slots : List (Slot Dest)} (before after : List (Field Desc))
      {f : Field Desc} (h : ∀ s ∈ slots, s.name ≠ f.name) :
      Gains (.record surface slots) (.struct (before ++ after)) (.struct (before ++ f :: after))
  | ctor {surface : Surface} {cases : List (Case Dest)} {payloadOffset decodedAt : Num}
      (before after : List (Ctor Desc)) {k : Ctor Desc} (h : ∀ c ∈ cases, c.name ≠ k.name) :
      Gains (.variant surface cases payloadOffset decodedAt) (.variant (before ++ after))
        (.variant (before ++ k :: after))
  | inside {surface : Surface} {slots : List (Slot Dest)} (before after : List (Field Desc))
      {f : Field Desc} {type : Desc} (h : ∀ s ∈ slots, s.name = f.name → Gains s.type f.type type) :
      Gains (.record surface slots) (.struct (before ++ f :: after))
        (.struct (before ++ { f with type } :: after))

/-- A destination type that does not tell two descriptors apart. -/
structure Dest.Indifferent (dest : Dest) (desc desc' : Desc) : Prop where
  /-- Both are matched with the same plan, or fail alike. -/
  build : ∀ path, (Plan.build dest desc' path).result = (Plan.build dest desc path).result
  /-- Both have the same extent. -/
  extent : dest.sourceExtent desc' = dest.sourceExtent desc
  /-- Both leave the same tags unknown, in every memory. -/
  strays : ∀ order src s, dest.strays order src desc' s = dest.strays order src desc s

theorem Dest.Indifferent.refl (dest : Dest) (desc : Desc) : dest.Indifferent desc desc :=
  ⟨fun _ => rfl, rfl, fun _ _ _ => rfl⟩

theorem Dest.Indifferent.trans {dest : Dest} {desc desc' desc'' : Desc}
    (h : dest.Indifferent desc desc') (h' : dest.Indifferent desc' desc'') :
    dest.Indifferent desc desc'' :=
  ⟨fun path => (h'.build path).trans (h.build path), h'.extent.trans h.extent,
    fun order src s => (h'.strays order src s).trans (h.strays order src s)⟩

/-! ## Fields that a slot takes -/

/-- A slot takes no field of either struct, or fields at one offset whose types it does not
tell apart. -/
inductive Slot.TakesAlike (s : Slot Dest) (fields fields' : List (Field Desc)) : Prop
  | missing (h : fields.find? (·.name = s.name) = none)
      (h' : fields'.find? (·.name = s.name) = none)
  | found {f f' : Field Desc} (h : fields.find? (·.name = s.name) = some f)
      (h' : fields'.find? (·.name = s.name) = some f') (offset : f'.offset = f.offset)
      (type : s.type.Indifferent f.type f'.type)

namespace Slot

variable {s : Slot Dest} {fields fields' before after : List (Field Desc)}

theorem takesAlike_of_eq (h : fields'.find? (·.name = s.name) = fields.find? (·.name = s.name)) :
    s.TakesAlike fields fields' := by
  rcases hfield : fields.find? (·.name = s.name) with _ | f
  · exact .missing hfield (h.trans hfield)
  · exact .found hfield (h.trans hfield) rfl (.refl _ _)

/-- A slot takes what it took before a field of another name was inserted. -/
theorem takesAlike_insert {f : Field Desc} (h : s.name ≠ f.name) :
    s.TakesAlike (before ++ after) (before ++ f :: after) := by
  apply takesAlike_of_eq
  rw [List.find?_append, List.find?_append, List.find?_cons_of_neg]
  simpa using h.symm

/-- A slot takes the same field of a struct in which a type was replaced, if it does not
tell the two types apart. -/
theorem takesAlike_replace {f : Field Desc} {type : Desc}
    (h : s.name = f.name → s.type.Indifferent f.type type) :
    s.TakesAlike (before ++ f :: after) (before ++ { f with type } :: after) := by
  by_cases hname : f.name = s.name
  · rcases hbefore : before.find? (·.name = s.name) with _ | g
    · have hfound : ∀ g : Field Desc, g.name = s.name →
          (before ++ g :: after).find? (·.name = s.name) = some g := by
        intro g hg
        rw [List.find?_append, hbefore, Option.none_or, List.find?_cons_of_pos]
        simpa using hg
      exact .found (hfound f hname) (hfound { f with type } hname) rfl (h hname.symm)
    · apply takesAlike_of_eq
      rw [List.find?_append, List.find?_append, hbefore, Option.some_or, Option.some_or]
  · apply takesAlike_of_eq
    rw [List.find?_append, List.find?_append, List.find?_cons_of_neg, List.find?_cons_of_neg]
    · simpa using hname
    · simpa using hname

end Slot

/-! ## Records -/

section

variable {slots : List (Slot Dest)} {fields fields' : List (Field Desc)}
  (h : ∀ s ∈ slots, s.TakesAlike fields fields')

include h

theorem Plan.buildSlots_alike (size : Num) (path : List Text) :
    (buildSlots size fields' path slots).result = (buildSlots size fields path slots).result := by
  induction slots with
  | nil => rfl
  | cons s rest ih =>
      obtain ⟨hfirst, hrest⟩ := List.forall_mem_cons.mp h
      unfold buildSlots
      split
      · rfl
      · rcases hfirst with ⟨hnone, hnone'⟩ | ⟨hf, hf', hoffset, htype⟩
        · rw [hnone, hnone']
        · rw [hf, hf']
          have hpart : ∀ {type type' : Desc}, s.type.Indifferent type type' →
              (inPart path s.name (build s.type type')).result =
                (inPart path s.name (build s.type type)).result :=
            fun h => congrArg (Except.mapError _) (h.build _)
          simp only [Traced.result_bind, hpart htype, ih hrest, hoffset]

theorem Dest.slotsExtent_alike (finish : Num) :
    slotsExtent fields' slots finish = slotsExtent fields slots finish := by
  induction slots generalizing finish with
  | nil => rfl
  | cons s rest ih =>
      obtain ⟨hfirst, hrest⟩ := List.forall_mem_cons.mp h
      unfold slotsExtent
      rcases hfirst with ⟨hnone, hnone'⟩ | ⟨hf, hf', hoffset, htype⟩
      · rw [hnone, hnone']
        exact ih hrest finish
      · rw [hf, hf']
        simp only [htype.extent, hoffset, ih hrest]

theorem Dest.slotsStrays_alike (order : ByteOrder) (src : Memory) (s : Num) :
    slotsStrays order src fields' slots s = slotsStrays order src fields slots s := by
  induction slots with
  | nil => rfl
  | cons slot rest ih =>
      obtain ⟨hfirst, hrest⟩ := List.forall_mem_cons.mp h
      unfold slotsStrays
      rcases hfirst with ⟨hnone, hnone'⟩ | ⟨hf, hf', hoffset, htype⟩
      · rw [hnone, hnone', ih hrest]
      · rw [hf, hf']
        simp only [htype.strays, hoffset, ih hrest]

/-- A record does not tell structs apart whose fields its slots take alike. -/
theorem Dest.indifferent_record (surface : Surface) :
    Indifferent (.record surface slots) (.struct fields) (.struct fields') := by
  constructor
  case build =>
    intro path
    unfold Plan.build
    simp only [Traced.result_bind, Plan.buildSlots_alike h]
    rfl
  case extent => exact slotsExtent_alike h 0
  case strays =>
    intro order src s
    exact slotsStrays_alike h order src s

end

/-! ## Variants -/

section

variable {cases : List (Case Dest)} {ctors ctors' : List (Ctor Desc)}
  (h : ∀ c ∈ cases, ctors'.find? (·.name = c.name) = ctors.find? (·.name = c.name))

include h

theorem Plan.buildCases_alike (size payloadOffset : Num) (path : List Text) (maxAlign : Num)
    (arms : List (Arm Plan)) : buildCases size payloadOffset ctors' path cases maxAlign arms =
      buildCases size payloadOffset ctors path cases maxAlign arms := by
  induction cases generalizing maxAlign arms with
  | nil => rfl
  | cons c rest ih =>
      obtain ⟨hfirst, hrest⟩ := List.forall_mem_cons.mp h
      unfold buildCases
      rw [hfirst]
      simp only [ih hrest]

theorem Dest.casesExtent_alike (maxAlign payload : Num) :
    casesExtent ctors' cases maxAlign payload = casesExtent ctors cases maxAlign payload := by
  induction cases generalizing maxAlign payload with
  | nil => rfl
  | cons c rest ih =>
      obtain ⟨hfirst, hrest⟩ := List.forall_mem_cons.mp h
      unfold casesExtent
      rw [hfirst]
      simp only [ih hrest]

/-- A tag is taken by the same constructor, or it stays unknown. -/
theorem Plan.taken_alike (tag : Num) : taken ctors' tag cases = taken ctors tag cases := by
  induction cases with
  | nil => rfl
  | cons c rest ih =>
      obtain ⟨hfirst, hrest⟩ := List.forall_mem_cons.mp h
      rw [taken, taken, hfirst, ih hrest]

/-- The same constructors are matched, so payloads are looked for at the same offset. -/
theorem Plan.payloadAt_alike : payloadAt ctors' cases = payloadAt ctors cases := by
  have hmatched : matched ctors' cases = matched ctors cases :=
    List.filterMap_congr fun c hc => by rw [h c hc]
  have hdefinite : Definite ctors' cases ↔ Definite ctors cases := by
    rw [Definite, Definite, hmatched]
  have hwidest : matchedAlign ctors' cases 1 = matchedAlign ctors cases 1 := by
    rw [matchedAlign_eq, matchedAlign_eq]
    congr 1
    exact List.filterMap_congr fun c hc => by rw [h c hc]
  simp only [payloadAt, hdefinite, payloadStart, hwidest]

/-- A variant does not tell variants apart of which its cases take the same constructors. -/
theorem Dest.indifferent_variant (surface : Surface) (payloadOffset decodedAt : Num) :
    Indifferent (.variant surface cases payloadOffset decodedAt) (.variant ctors)
      (.variant ctors') := by
  constructor
  case build =>
    intro path
    unfold Plan.build
    simp only [Plan.buildCases_alike h]
  case extent =>
    unfold sourceExtent
    simp only [casesExtent_alike h]
  case strays =>
    intro order src s
    unfold strays
    simp only [caseStrays_eq, Plan.taken_alike h, Plan.payloadAt_alike h]

end

/-! ## Insertions -/

/-- **One surplus part makes no difference.** -/
theorem Dest.indifferent_of_gains {dest : Dest} {desc desc' : Desc}
    (h : dest.Gains desc desc') : dest.Indifferent desc desc' := by
  induction h with
  | field before after h =>
      exact indifferent_record (fun s hs => Slot.takesAlike_insert (h s hs)) _
  | ctor before after h =>
      refine indifferent_variant (fun c hc => ?_) _ _ _
      rw [List.find?_append, List.find?_append, List.find?_cons_of_neg]
      simpa using (h c hc).symm
  | inside before after _ ih =>
      exact indifferent_record (fun s hs => Slot.takesAlike_replace (ih s hs)) _

/-- A constructor that none of the parts of a variant is named after. -/
theorem Dest.gains_ctor {parts : List (Text × Dest)} {ids : List (Text × Num)} {made : Dest}
    (hmade : variantOf parts ids = .ok made) (before after : List (Ctor Desc)) {k : Ctor Desc}
    (h : ∀ part ∈ parts, part.1 ≠ k.name) :
    made.Gains (.variant (before ++ after)) (.variant (before ++ k :: after)) := by
  obtain ⟨name, cases, hcases, rfl⟩ := variantOf_eq hmade
  obtain ⟨new, rfl, hmap, -⟩ := makeCases_spec hcases List.Pairwise.nil
  refine .ctor before after fun c hc => ?_
  exact h (c.name, c.type) (hmap ▸ List.mem_map_of_mem hc)

/-- A surplus part inside the type of a field that a part of a record takes. -/
theorem Dest.gains_inside {parts : List (Text × Dest)} (before after : List (Field Desc))
    {f : Field Desc} {type : Desc} (h : ∀ part ∈ parts, part.1 = f.name → part.2.Gains f.type type) :
    (recordOf parts).Gains (.struct (before ++ f :: after))
      (.struct (before ++ { f with type } :: after)) := by
  refine .inside before after fun s hs => ?_
  exact h (s.name, s.type) (placeSlots_parts parts 0 ▸ List.mem_map_of_mem hs)

/-- Surplus parts, one after the other. -/
def Dest.Outgrows (dest : Dest) : Desc → Desc → Prop :=
  Relation.ReflTransGen dest.Gains

theorem Dest.indifferent_of_outgrows {dest : Dest} {desc desc' : Desc}
    (h : dest.Outgrows desc desc') : dest.Indifferent desc desc' := by
  unfold Outgrows at h
  induction h with
  | refl => exact .refl dest desc
  | tail _ hlast ih => exact ih.trans (indifferent_of_gains hlast)

/-- What a type does not tell apart is compiled alike. -/
theorem Dest.Indifferent.compiled {dest : Dest} {desc desc' : Desc}
    (h : dest.Indifferent desc desc') (path : List Text) :
    (Compiled.once dest desc' path).result = (Compiled.once dest desc path).result := by
  unfold Compiled.once
  simp only [Traced.result_bind, h.build, h.extent]

namespace Converter

/-- The source of the sample with surplus parts: a field that is a size and lies far away, and
inside the reading a constructor without a size. -/
def outgrown : Desc :=
  .struct [⟨"extra", .rat (2 ^ 60), .nat 1⟩,
    ⟨"reading", 4, .variant [⟨"other", 9, .nat 1⟩, ⟨"level", 3, .prim "short"⟩]⟩,
    ⟨"flag", 0, .prim "byte"⟩]

/-- A record with two slots of one name, whose types ask for different fields. -/
def doubled : Dest :=
  .record ⟨"doubled", 8, 4⟩
    [⟨"a", 0, 0, .recordOf [("x", .ofPrim .int32)]⟩, ⟨"a", 4, 4, .recordOf [("y", .ofPrim .int32)]⟩]

/-- A reading that is always a level. -/
def level : Dest :=
  (Dest.variantOf [("level", .ofPrim .int32)] []).toOption.get (by decide +kernel)

end Converter

end Relayout

import Relayout.Proofs.Native

/-!
# Which pairs can be matched

`Dest.Converts` says, by recursion on a destination type, from which descriptors
its values can be converted. A build succeeds for exactly these pairs, and for a
type with an exact layout every other build fails for a reason that the pair
itself gives: no slot ever lies outside its parent. Once a pair has been matched
its source can be measured.
-/

namespace Relayout

open Relayout.Num

/-! ## The conversion relation -/

namespace Dest

mutual

/-- The values of the type can be converted from the values that are described. -/
def Converts : Dest → Desc → Prop
  | .prim _ source widensFrom _, desc =>
    match desc with
    | .prim name => name = source ∨ (∃ p, PrimName.ofName? name = some p) ∧ name ∈ widensFrom
    | _ => False
  | .array _ elem length _, desc =>
    match desc with
    | .array elemDesc (.nat n) =>
      (∃ k, n.Is k ∧ length.Is k) ∧ Converts elem elemDesc ∧ ∃ step, elemDesc.size = .ok step
    | _ => False
  | .record _ slots, desc =>
    match desc with
    | .struct fields => SlotsConvert fields slots
    | _ => False
  | .variant _ cases _ _, desc =>
    match desc with
    | .variant ctors => CasesConvert ctors cases
    | _ => False

/-- Every slot has a source field, and can be converted from the first of its name. -/
def SlotsConvert (fields : List (Field Desc)) : List (Slot Dest) → Prop
  | [] => True
  | s :: rest =>
    (∃ f, fields.find? (·.name = s.name) = some f ∧ Converts s.type f.type) ∧
      SlotsConvert fields rest

/-- Every case that has a source constructor can be converted from the first of
its name, whose payload has an alignment. -/
def CasesConvert (ctors : List (Ctor Desc)) : List (Case Dest) → Prop
  | [] => True
  | c :: rest =>
    (∀ ctor, ctors.find? (·.name = c.name) = some ctor →
      (∃ align, ctor.type.align = .ok align) ∧ Converts c.type ctor.type) ∧
      CasesConvert ctors rest

end

theorem slotsConvert_iff {fields : List (Field Desc)} {slots : List (Slot Dest)} :
    SlotsConvert fields slots ↔
      ∀ s ∈ slots, ∃ f, fields.find? (·.name = s.name) = some f ∧ s.type.Converts f.type := by
  induction slots with
  | nil => simp [SlotsConvert]
  | cons s rest ih => rw [SlotsConvert, ih, List.forall_mem_cons]

theorem casesConvert_iff {ctors : List (Ctor Desc)} {cases : List (Case Dest)} :
    CasesConvert ctors cases ↔
      ∀ c ∈ cases, ∀ ctor, ctors.find? (·.name = c.name) = some ctor →
        (∃ align, ctor.type.align = .ok align) ∧ c.type.Converts ctor.type := by
  induction cases with
  | nil => simp [CasesConvert]
  | cons c rest ih => rw [CasesConvert, ih, List.forall_mem_cons]

/-! ## Slots lie within their parent -/

/-- The slots of an exact layout pass the check against the size of their record. -/
theorem Placed.fits {slots : List (Slot Dest)} {start n : Nat} (h : Placed slots start n)
    (hlaid : ∀ s ∈ slots, Laid s.type) {size : Num} (hsize : size.Is n) (hlimit : n < exactLimit) :
    ∀ s ∈ slots, (s.offset.lt 0 || size.lt (s.offset + s.type.size)) = false := by
  have hzero : (0 : Num).Is 0 := is_ofNat (Nat.zero_le _)
  induction slots generalizing start with
  | nil => simp
  | cons s rest ih =>
      obtain ⟨o, ho, -, -, hrest⟩ := h
      have hle := hrest.le
      have hend := ho.add (hlaid s List.mem_cons_self).size_is.1 (by omega)
      have hfirst : (s.offset.lt 0 || size.lt (s.offset + s.type.size)) = false := by
        rw [lt_of_is ho hzero, lt_of_is hsize hend, Bool.or_eq_false_iff]
        exact ⟨decide_eq_false (by omega), decide_eq_false (by omega)⟩
      exact List.forall_mem_cons.mpr
        ⟨hfirst, ih hrest fun g hg => hlaid g (List.mem_cons_of_mem _ hg)⟩

/-- The payloads of an exact layout pass the check against the size of their variant. -/
theorem payload_fits {payloadOffset size : Num} {p n : Nat} {type : Dest} (laid : type.Laid)
    (hoffset : payloadOffset.Is p) (hfit : p + type.bytes ≤ n) (hsize : size.Is n)
    (hlimit : n < exactLimit) : size.lt (payloadOffset + type.size) = false := by
  rw [lt_of_is hsize (hoffset.add laid.size_is.1 (by omega))]
  exact decide_eq_false (by omega)

end Dest

/-! ## Computations that succeed -/

namespace Traced

variable {α β : Type}

/-- The computation comes to a value. -/
def Succeeds (x : Traced α) : Prop :=
  ∃ a, x.result = .ok a

theorem succeeds_pure (a : α) : (Traced.pure a).Succeeds :=
  ⟨a, rfl⟩

theorem not_succeeds_fail (f : Failure) : ¬(Traced.fail f : Traced α).Succeeds := by
  rintro ⟨a, h⟩
  cases h

theorem succeeds_bind {x : Traced α} {f : α → Traced β} :
    (x >>= f).Succeeds ↔ ∃ a, x.result = .ok a ∧ (f a).Succeeds := by
  constructor
  · rintro ⟨b, h⟩
    obtain ⟨a, ha, hb⟩ := result_bind_eq_ok.mp h
    exact ⟨a, ha, b, hb⟩
  · rintro ⟨a, ha, b, hb⟩
    exact ⟨b, result_bind_eq_ok.mpr ⟨a, ha, hb⟩⟩

theorem succeeds_ofCause {x : Except Cause α} : (ofCause x).Succeeds ↔ ∃ a, x = .ok a :=
  exists_congr fun _ => Plan.result_ofCause

end Traced

namespace Plan

open Traced

theorem succeeds_inPart {α : Type} {path : List Text} {segment : Text} {x : List Text → Traced α} :
    (inPart path segment x).Succeeds ↔ (x (path ++ [segment])).Succeeds :=
  exists_congr fun _ => result_inPart

/-! ## One node at a time -/

def Accepts (dest : Dest) : Prop :=
  ∀ (desc : Desc) (path : List Text), (build dest desc path).Succeeds ↔ dest.Converts desc

/-- A pair of different kinds is refused at once. -/
theorem refuses {dest : Dest} {desc : Desc} {path : List Text} {f : Failure}
    (h : build dest desc path = .fail f) (hno : ¬dest.Converts desc) :
    (build dest desc path).Succeeds ↔ dest.Converts desc :=
  iff_of_false (h ▸ not_succeeds_fail f) hno

theorem accepts_prim {surface : Surface} {source : Text} {widensFrom : List Text} {codec : Prim} :
    Accepts (.prim surface source widensFrom codec) := by
  intro desc path
  cases desc with
  | prim name =>
      rw [build, succeeds_ofCause, buildPrim, Dest.Converts]
      by_cases hname : name = source
      · rw [if_pos hname]
        exact iff_of_true ⟨_, rfl⟩ (Or.inl hname)
      · rw [if_neg hname]
        simp only [hname, false_or]
        cases hfound : PrimName.ofName? name with
        | none => simp
        | some p => by_cases hwiden : name ∈ widensFrom <;> simp [hwiden]
  | _ => exact refuses rfl (by simp [Dest.Converts])

/-- The length check accepts one natural number on both sides. -/
theorem checkLength_iff {length : Num} {len : Desc} {path : List Text} :
    checkLength length len path = .ok () ↔ ∃ n k, len = .nat n ∧ n.Is k ∧ length.Is k := by
  cases len with
  | nat n =>
      rw [checkLength]
      cases hnat : n.isWhole && !(n.lt 0) with
      | false =>
          refine iff_of_false (by simp) ?_
          rintro ⟨m, k, hm, hk, -⟩
          cases hm
          obtain ⟨hwhole, hpos⟩ := isWhole_not_lt_iff.mpr ⟨k, hk⟩
          simp [hwhole, hpos] at hnat
      | true =>
          rw [Bool.and_eq_true, Bool.not_eq_true'] at hnat
          obtain ⟨k, hk⟩ := isWhole_not_lt_iff.mp hnat
          -- numbers that are equal are the same natural number
          have heqv : n.eqv length = true ↔ length.Is k := by
            rw [eqv_iff, show n.value? = some (k : ℚ) from hk]
            constructor
            · rintro (⟨q, hq, hlength⟩ | ⟨b, rfl, -⟩)
              · rw [Is, hlength, ← hq]
              · cases hk
            · exact fun h => Or.inl ⟨k, rfl, h⟩
          constructor
          · intro h
            by_cases hlength : n.eqv length = true
            · exact ⟨n, k, rfl, hk, heqv.mp hlength⟩
            · simp [hlength] at h
          · rintro ⟨m, j, hm, hj, hlength⟩
            cases hm
            rw [heqv.mpr (hk.unique hj ▸ hlength)]
            rfl
  | _ => simp [checkLength]

theorem accepts_array {surface : Surface} {elem : Dest} {length : Num} {count : Nat}
    (helem : Accepts elem) : Accepts (.array surface elem length count) := by
  intro desc path
  cases desc with
  | array elemDesc len =>
      rw [build]
      simp only [succeeds_bind, result_ofCause]
      constructor
      · rintro ⟨_, hcheck, convert, hconvert, step, hstep, -⟩
        obtain ⟨n, k, rfl, hn, hlength⟩ := checkLength_iff.mp hcheck
        have hpart : (build elem elemDesc (path ++ [Text.ofString "[]"])).Succeeds :=
          succeeds_inPart.mp ⟨convert, hconvert⟩
        rw [Dest.Converts]
        exact ⟨⟨k, hn, hlength⟩, (helem _ _).mp hpart, step, hstep⟩
      · intro h
        cases len with
        | nat n =>
            rw [Dest.Converts] at h
            obtain ⟨⟨k, hn, hlength⟩, hconverts, step, hstep⟩ := h
            obtain ⟨convert, hconvert⟩ :=
              succeeds_inPart.mpr ((helem elemDesc (path ++ [Text.ofString "[]"])).mpr hconverts)
            exact ⟨(), checkLength_iff.mpr ⟨n, k, rfl, hn, hlength⟩, convert, hconvert, step, hstep,
              succeeds_pure _⟩
        | _ => simp [Dest.Converts] at h
  | _ => exact refuses rfl (by simp [Dest.Converts])

theorem buildSlots_succeeds {size : Num} {fields : List (Field Desc)} {path : List Text}
    {slots : List (Slot Dest)}
    (hfits : ∀ s ∈ slots, (s.offset.lt 0 || size.lt (s.offset + s.type.size)) = false) :
    (buildSlots size fields path slots).Succeeds ↔
      ∀ s ∈ slots, ∃ f, fields.find? (·.name = s.name) = some f ∧
        (build s.type f.type (path ++ [s.name])).Succeeds := by
  induction slots with
  | nil => exact iff_of_true (succeeds_pure _) (by simp)
  | cons s rest ih =>
      obtain ⟨hfirst, hrest⟩ := List.forall_mem_cons.mp hfits
      rw [buildSlots, hfirst, List.forall_mem_cons, ← ih hrest]
      cases hfield : fields.find? (·.name = s.name) with
      | none => simpa using not_succeeds_fail _
      | some f =>
          simp only [Bool.false_eq_true, if_false, succeeds_bind, Option.some.injEq,
            exists_eq_left']
          constructor
          · rintro ⟨convert, hconvert, plans, hplans, -⟩
            exact ⟨succeeds_inPart.mp ⟨convert, hconvert⟩, plans, hplans⟩
          · rintro ⟨hpart, plans, hplans⟩
            obtain ⟨convert, hconvert⟩ := succeeds_inPart.mpr hpart
            exact ⟨convert, hconvert, plans, hplans, succeeds_pure _⟩

theorem accepts_record {surface : Surface} {slots : List (Slot Dest)}
    (hfits : ∀ s ∈ slots, (s.offset.lt 0 || surface.size.lt (s.offset + s.type.size)) = false)
    (h : ∀ s ∈ slots, Accepts s.type) : Accepts (.record surface slots) := by
  intro desc path
  cases desc with
  | struct fields =>
      have hslots : (build (.record surface slots) (.struct fields) path).Succeeds ↔
          (buildSlots surface.size fields path slots).Succeeds := by
        rw [build, succeeds_bind]
        exact exists_congr fun plans => and_iff_left (succeeds_bind.mpr ⟨(), rfl, succeeds_pure _⟩)
      rw [hslots, buildSlots_succeeds hfits, Dest.Converts, Dest.slotsConvert_iff]
      exact forall₂_congr fun s hs => exists_congr fun f => and_congr_right fun _ => h s hs _ _
  | _ => exact refuses rfl (by simp [Dest.Converts])

theorem buildCases_succeeds {size payloadOffset : Num} {ctors : List (Ctor Desc)}
    {path : List Text} {cases : List (Case Dest)}
    (hfits : ∀ c ∈ cases, size.lt (payloadOffset + c.type.size) = false) (widest : Num)
    (arms : List (Arm Plan)) :
    (buildCases size payloadOffset ctors path cases widest arms).Succeeds ↔
      ∀ c ∈ cases, ∀ ctor, ctors.find? (·.name = c.name) = some ctor →
        (∃ align, ctor.type.align = .ok align) ∧
          (build c.type ctor.type (path ++ [c.name])).Succeeds := by
  induction cases generalizing widest arms with
  | nil => exact iff_of_true (succeeds_pure _) (by simp)
  | cons c rest ih =>
      obtain ⟨hfirst, hrest⟩ := List.forall_mem_cons.mp hfits
      rw [buildCases, List.forall_mem_cons]
      cases hctor : ctors.find? (·.name = c.name) with
      | none =>
          simp only [succeeds_bind, ih hrest]
          constructor
          · rintro ⟨-, -, h⟩
            exact ⟨by simp, h⟩
          · rintro ⟨-, h⟩
            exact ⟨(), rfl, h⟩
      | some ctor =>
          simp only [hfirst, Bool.false_eq_true, if_false, succeeds_bind, result_ofCause, ih hrest,
            Option.some.injEq, forall_eq']
          constructor
          · rintro ⟨align, halign, convert, hconvert, h⟩
            exact ⟨⟨⟨align, halign⟩, succeeds_inPart.mp ⟨convert, hconvert⟩⟩, h⟩
          · rintro ⟨⟨⟨align, halign⟩, hpart⟩, h⟩
            obtain ⟨convert, hconvert⟩ := succeeds_inPart.mpr hpart
            exact ⟨align, halign, convert, hconvert, h⟩

theorem accepts_variant {surface : Surface} {cases : List (Case Dest)}
    {payloadOffset decodedAt : Num}
    (hfits : ∀ c ∈ cases, surface.size.lt (payloadOffset + c.type.size) = false)
    (h : ∀ c ∈ cases, Accepts c.type) :
    Accepts (.variant surface cases payloadOffset decodedAt) := by
  intro desc path
  cases desc with
  | variant ctors =>
      have hcases : (build (.variant surface cases payloadOffset decodedAt) (.variant ctors)
          path).Succeeds ↔
          (buildCases surface.size payloadOffset ctors path cases 1 []).Succeeds := by
        rw [build, succeeds_bind]
        exact exists_congr fun table => and_iff_left (succeeds_pure _)
      rw [hcases, buildCases_succeeds hfits, Dest.Converts, Dest.casesConvert_iff]
      exact forall₂_congr fun c hc => forall₂_congr fun ctor _ =>
        and_congr_right fun _ => h c hc _ _
  | _ => exact refuses rfl (by simp [Dest.Converts])

/-- **A build succeeds exactly for the pairs of the conversion relation.** -/
theorem accepts_of_laid {dest : Dest} (laid : dest.Laid) : Accepts dest := by
  -- one lemma for each kind of node
  induction laid with
  | prim p => exact accepts_prim
  | array _ _ _ _ _ ih => exact accepts_array ih
  | record hslots hplaced hsize hlimit ih =>
      exact accepts_record (hplaced.fits hslots hsize hlimit) ih
  | variant hcases hoffset _ hfits _ _ hsize hlimit ih =>
      exact accepts_variant
        (fun c hc => Dest.payload_fits (hcases c hc) hoffset (hfits c hc) hsize hlimit) ih

end Plan

/-! ## Measuring what was matched -/

namespace Dest

/-- Whatever the type can be converted from can be measured. -/
def Measurable (dest : Dest) : Prop :=
  ∀ desc : Desc, dest.Converts desc → ∃ x, dest.sourceExtent desc = .ok x

/-- **The source of a pair that can be matched can be measured.** -/
theorem measurable_of_laid {dest : Dest} (laid : dest.Laid) : Measurable dest := by
  intro desc h
  obtain ⟨plan, hplan⟩ := (Plan.accepts_of_laid laid desc []).mpr h
  exact (native_of_laid laid).hasExtent ⟨[], hplan⟩

end Dest

/-! ## Why a build fails -/

/-- The reasons that a pair can give for not being matched. -/
def Reason.refusals : List Reason :=
  [.kindMismatch, .noConversionPath, .invalidLength, .lengthMismatch, .missingField,
    .invalidDescriptor]

/-- If the layout is refused, the descriptor is the reason. -/
def Desc.Refuses {α : Type} (x : Except Cause α) : Prop :=
  ∀ cause, x = .error cause → cause.reason ∈ Reason.refusals

namespace Desc

theorem refuses_ok {α : Type} (a : α) : Refuses (.ok a) := by
  rintro cause h
  cases h

theorem refuses_error {α : Type} {cause : Cause} (h : cause.reason ∈ Reason.refusals) :
    Refuses (.error cause : Except Cause α) := by
  rintro _ ⟨⟩
  exact h

theorem Refuses.bind {α β : Type} {x : Except Cause α} {f : α → Except Cause β} (hx : Refuses x)
    (hf : ∀ a, Refuses (f a)) : Refuses (x >>= f) := by
  cases x with
  | error cause => exact refuses_error (hx cause rfl)
  | ok a => exact hf a

theorem refuses_primSize (name : Text) : Refuses (primSize name) := by
  rw [primSize]
  cases PrimName.ofName? name with
  | none =>
      simp only
      split
      · exact refuses_ok _
      · exact refuses_error (by simp [Cause.reason, Reason.refusals])
  | some p => exact refuses_ok _

theorem refuses_sizeAsType {α : Type} : Refuses (.error sizeAsType : Except Cause α) :=
  refuses_error (by simp [sizeAsType, Cause.reason, Reason.refusals])

theorem refuses_lengthOf (len : Desc) : Refuses (lengthOf len) := by
  cases len with
  | nat value => exact refuses_ok value
  | _ => exact refuses_error (by simp [Cause.reason, Reason.refusals])

mutual

theorem refuses_align : ∀ d : Desc, Refuses (align d)
  | prim name => (refuses_primSize name).bind fun _ => refuses_ok _
  | nat _ => refuses_sizeAsType
  | array elem _ => refuses_align elem
  | struct fields => refuses_alignFields fields 1
  | variant ctors => refuses_alignCtors ctors tagSize

theorem refuses_alignFields : ∀ (fields : List (Field Desc)) (widest : Num),
    Refuses (alignFields fields widest)
  | [], widest => refuses_ok widest
  | f :: rest, _ => (refuses_align f.type).bind fun _ => refuses_alignFields rest _

theorem refuses_alignCtors : ∀ (ctors : List (Ctor Desc)) (widest : Num),
    Refuses (alignCtors ctors widest)
  | [], widest => refuses_ok widest
  | c :: rest, _ => (refuses_align c.type).bind fun _ => refuses_alignCtors rest _

end

mutual

theorem refuses_size : ∀ d : Desc, Refuses (size d)
  | prim name => refuses_primSize name
  | nat _ => refuses_sizeAsType
  | array elem len => (refuses_lengthOf len).bind fun _ =>
      (refuses_size elem).bind fun _ => refuses_ok _
  | struct fields => (refuses_endOfFields fields 0).bind fun _ =>
      (refuses_align (struct fields)).bind fun _ => refuses_ok _
  | variant ctors => (refuses_largestPayload ctors 0).bind fun _ =>
      ((refuses_alignCtors ctors 1).bind fun _ => refuses_ok _).bind fun _ =>
        (refuses_align (variant ctors)).bind fun _ => refuses_ok _

theorem refuses_endOfFields : ∀ (fields : List (Field Desc)) (finish : Num),
    Refuses (endOfFields fields finish)
  | [], finish => refuses_ok finish
  | f :: rest, _ => (refuses_size f.type).bind fun _ => refuses_endOfFields rest _

theorem refuses_largestPayload : ∀ (ctors : List (Ctor Desc)) (largest : Num),
    Refuses (largestPayload ctors largest)
  | [], largest => refuses_ok largest
  | c :: rest, _ => (refuses_size c.type).bind fun _ => refuses_largestPayload rest _

end

end Desc

namespace Traced

variable {α β : Type}

/-- If the computation fails, the pair is the reason. -/
def Refuses (x : Traced α) : Prop :=
  ∀ f, x.result = .error f → f.reason ∈ Reason.refusals

theorem refuses_pure (a : α) : (Traced.pure a).Refuses := by
  rintro f h
  cases h

theorem refuses_fail {cause : Cause} (h : cause.reason ∈ Reason.refusals) :
    (Traced.fail cause.failure : Traced α).Refuses := by
  rintro _ ⟨⟩
  exact h

theorem refuses_ofCause {x : Except Cause α} (h : Desc.Refuses x) : (ofCause x).Refuses := by
  cases x with
  | error cause => exact refuses_fail (h cause rfl)
  | ok a => exact refuses_pure a

theorem Refuses.bind {x : Traced α} {f : α → Traced β} (hx : x.Refuses)
    (hf : ∀ a, x.result = .ok a → (f a).Refuses) : (x >>= f).Refuses := by
  intro failure h
  cases hresult : x.result with
  | error e =>
      rw [bind_of_error hresult] at h
      cases h
      exact hx _ hresult
  | ok a =>
      refine hf a hresult failure ?_
      rw [← h]
      show _ = (x.bind f).result
      rw [Traced.bind, hresult]

end Traced

namespace Plan

open Traced

/-- Passing a failure on does not change its reason. -/
theorem refuses_inPart {α : Type} {path : List Text} {segment : Text} {x : List Text → Traced α}
    (h : (x (path ++ [segment])).Refuses) : (inPart path segment x).Refuses := by
  intro f hf
  simp only [inPart, Traced.mapFailure] at hf
  cases hresult : (x (path ++ [segment])).result with
  | error inner =>
      rw [hresult] at hf
      cases hf
      exact h inner hresult
  | ok a =>
      rw [hresult] at hf
      cases hf

theorem refuses_buildPrim {surface : Surface} {source : Text} {widensFrom : List Text}
    {codec : Prim} {desc : Desc} {path : List Text} :
    Desc.Refuses (buildPrim surface source widensFrom codec desc path) := by
  intro cause h
  rcases buildPrim_error h with ⟨name, -, rfl⟩ | rfl
  · simp [Cause.reason, Reason.refusals]
  · simp [Cause.reason, Reason.refusals]

theorem refuses_checkLength {length : Num} {len : Desc} {path : List Text} :
    Desc.Refuses (checkLength length len path) := by
  intro cause h
  rcases checkLength_error h with ⟨n, -, rfl⟩ | rfl
  · simp [Cause.reason, Reason.refusals]
  · simp [Cause.reason, Reason.refusals]

theorem refuses_kind {α : Type} {expected actual : Text} {path : List Text} :
    (Traced.fail (Cause.kindMismatch expected actual path) : Traced α).Refuses :=
  refuses_fail (by simp [Cause.reason, Reason.refusals])

theorem refuses_slots {size : Num} {fields : List (Field Desc)} {path : List Text}
    {slots : List (Slot Dest)}
    (hfits : ∀ s ∈ slots, (s.offset.lt 0 || size.lt (s.offset + s.type.size)) = false)
    (h : ∀ s ∈ slots, ∀ desc path, (build s.type desc path).Refuses) :
    (buildSlots size fields path slots).Refuses := by
  induction slots with
  | nil => exact refuses_pure _
  | cons s rest ih =>
      obtain ⟨hfirst, hrest⟩ := List.forall_mem_cons.mp hfits
      obtain ⟨hpart, hparts⟩ := List.forall_mem_cons.mp h
      rw [buildSlots, hfirst]
      cases fields.find? (·.name = s.name) with
      | none => exact refuses_fail (by simp [Cause.reason, Reason.refusals])
      | some f =>
          exact (refuses_inPart (hpart _ _)).bind fun _ _ => (ih hrest hparts).bind fun _ _ =>
            refuses_pure _

theorem refuses_cases {size payloadOffset : Num} {ctors : List (Ctor Desc)}
    {path : List Text} {cases : List (Case Dest)}
    (hfits : ∀ c ∈ cases, size.lt (payloadOffset + c.type.size) = false)
    (h : ∀ c ∈ cases, ∀ desc path, (build c.type desc path).Refuses) (widest : Num)
    (arms : List (Arm Plan)) :
    (buildCases size payloadOffset ctors path cases widest arms).Refuses := by
  induction cases generalizing widest arms with
  | nil => exact refuses_pure _
  | cons c rest ih =>
      obtain ⟨hfirst, hrest⟩ := List.forall_mem_cons.mp hfits
      obtain ⟨hpart, hparts⟩ := List.forall_mem_cons.mp h
      rw [buildCases]
      cases ctors.find? (·.name = c.name) with
      | none => exact (refuses_pure ()).bind fun _ _ => ih hrest hparts _ _
      | some ctor =>
          simp only [hfirst, Bool.false_eq_true, if_false]
          exact (refuses_ofCause (Desc.refuses_align _)).bind fun _ _ =>
            (refuses_inPart (hpart _ _)).bind fun _ _ => ih hrest hparts _ _

/-- **A type with an exact layout is refused for a reason that the pair gives.** -/
theorem refuses_of_laid {dest : Dest} (laid : dest.Laid) :
    ∀ desc path, (build dest desc path).Refuses := by
  induction laid with
  | prim p => exact fun desc path => refuses_ofCause refuses_buildPrim
  | array _ _ _ _ _ ih =>
      intro desc path
      cases desc with
      | array elemDesc len =>
          exact (refuses_ofCause refuses_checkLength).bind fun _ _ =>
            (refuses_inPart (ih _ _)).bind fun _ _ =>
              (refuses_ofCause (Desc.refuses_size elemDesc)).bind fun _ _ => refuses_pure _
      | _ => exact refuses_kind
  | record hslots hplaced hsize hlimit ih =>
      intro desc path
      cases desc with
      | struct fields =>
          exact (refuses_slots (hplaced.fits hslots hsize hlimit) ih).bind fun _ _ =>
            (refuses_pure ()).bind fun _ _ => refuses_pure _
      | _ => exact refuses_kind
  | variant hcases hoffset _ hfits _ _ hsize hlimit ih =>
      intro desc path
      cases desc with
      | variant ctors =>
          have hfits := fun c hc => Dest.payload_fits (hcases c hc) hoffset (hfits c hc) hsize hlimit
          exact (refuses_cases hfits ih 1 []).bind fun _ _ => refuses_pure _
      | _ => exact refuses_kind

end Plan

/-! ## Building a converter -/

namespace Converter

open Traced

theorem build_succeeds {dest : Dest} {desc : Desc} {options : Layer} {config : Config}
    (hoptions : options.resolve = .ok config) :
    (build dest desc options).Succeeds ↔ (Compiled.once dest desc []).Succeeds := by
  rw [build, hoptions, succeeds_bind]
  simp only [Compiled.build_eq]
  constructor
  · rintro ⟨_, -, h⟩
    obtain ⟨compiled, hcompiled, -⟩ := succeeds_bind.mp h
    exact ⟨compiled, hcompiled⟩
  · rintro ⟨compiled, hcompiled⟩
    exact ⟨config, rfl, succeeds_bind.mpr ⟨compiled, hcompiled, succeeds_pure _⟩⟩

/-- For a type with an exact layout, building comes to a converter for exactly the pairs of
the conversion relation. -/
theorem build_succeeds_iff {dest : Dest} (laid : dest.Laid) {desc : Desc} {options : Layer}
    {config : Config} (hoptions : options.resolve = .ok config) :
    (build dest desc options).Succeeds ↔ dest.Converts desc := by
  have haccepts := Plan.accepts_of_laid laid desc []
  rw [build_succeeds hoptions, Compiled.once, succeeds_bind, ← haccepts]
  constructor
  · rintro ⟨plan, hplan, -⟩
    exact ⟨plan, hplan⟩
  · rintro ⟨plan, hplan⟩
    obtain ⟨x, hx⟩ := Dest.measurable_of_laid laid desc (haccepts.mp ⟨plan, hplan⟩)
    exact ⟨plan, hplan, succeeds_bind.mpr ⟨x, by rw [hx]; rfl, succeeds_pure _⟩⟩

/-- **A converter is built for exactly the pairs of the conversion relation.**
Every other pair is refused for a reason of its own, and never because a slot
lies outside its parent; and what was matched can be measured. -/
theorem build_iff_converts {dest : Dest} (made : dest.Made) (small : dest.Small) {options : Layer}
    {config : Config} (hoptions : options.resolve = .ok config) (desc : Desc) :
    ((∃ c, (build dest desc options).result = .ok c) ↔ dest.Converts desc) ∧
      (¬dest.Converts desc → ∃ f, (build dest desc options).result = .error f ∧
        f.reason ∈ Reason.refusals ∧ f.reason ≠ .invalidLayout) ∧
      ∀ plan path, (Plan.build dest desc path).result = .ok plan →
        ∃ x, dest.sourceExtent desc = .ok x := by
  have laid := Dest.laid_of_made made small
  have haccepts := Plan.accepts_of_laid laid
  have hmeasure := Dest.measurable_of_laid laid desc
  have hiff : (build dest desc options).Succeeds ↔ dest.Converts desc :=
    build_succeeds_iff laid hoptions
  have hrefuses : (build dest desc options).Refuses := by
    rw [build, hoptions]
    refine (refuses_pure config).bind fun _ _ => Refuses.bind ?_ fun _ _ => refuses_pure _
    -- the report at the end does not touch the result
    have hcompiled : ∀ policy, (Compiled.build policy dest desc []).Refuses := by
      intro policy
      rw [Compiled.build_eq]
      refine (Plan.refuses_of_laid laid desc []).bind fun plan hplan => ?_
      obtain ⟨x, hx⟩ := hmeasure ((haccepts desc []).mp ⟨plan, hplan⟩)
      rw [hx]
      exact (refuses_pure x).bind fun _ _ => refuses_pure _
    exact hcompiled _
  refine ⟨hiff, fun hno => ?_, fun plan path hplan => ?_⟩
  · cases hresult : (build dest desc options).result with
    | ok c => exact absurd (hiff.mp ⟨c, hresult⟩) hno
    | error f =>
        have hreason := hrefuses f hresult
        refine ⟨f, rfl, hreason, ?_⟩
        rintro hlayout
        rw [hlayout] at hreason
        simp [Reason.refusals] at hreason
  · exact hmeasure ((haccepts desc path).mp ⟨plan, hplan⟩)

theorem build_iff_converts_sample :
    Sample.options.resolve = .ok Sample.converter.config ∧ Sample.dest.Converts Sample.desc := by
  have hoptions : Sample.options.resolve = .ok Sample.converter.config := by decide +kernel
  obtain ⟨hiff, -⟩ := build_iff_converts Sample.made Sample.small hoptions Sample.desc
  refine ⟨hoptions, ?_⟩
  rw [← hiff]
  exact ⟨Sample.converter, Sample.built⟩

end Converter

end Relayout

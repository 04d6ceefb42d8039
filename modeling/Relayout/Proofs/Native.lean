import Relayout.Proofs.PayloadOffset
import Relayout.Proofs.Located

/-!
# Types over the built-in primitives

Arrays, records and variants may show any surface whatsoever. As long as their
leaves are the built-in primitives, the source of a pair that was matched can be
measured: matching has met every size and alignment that measuring asks for. So
a build of a converter fails just when the match does.
-/

namespace Relayout

namespace Dest

/-- A type whose primitives are the built-in ones, whatever the rest of it shows. -/
inductive Native : Dest → Prop
  | prim (p : Prim) : Native (ofPrim p)
  | array {surface : Surface} {elem : Dest} {length : Num} {count : Nat} (helem : Native elem) :
      Native (.array surface elem length count)
  | record {surface : Surface} {slots : List (Slot Dest)} (hslots : ∀ s ∈ slots, Native s.type) :
      Native (.record surface slots)
  | variant {surface : Surface} {cases : List (Case Dest)} {payloadOffset decodedAt : Num}
      (hcases : ∀ c ∈ cases, Native c.type) :
      Native (.variant surface cases payloadOffset decodedAt)

/-- A type whose primitives name known source primitives, as the declaration of the surface
demands, whatever the rest of it shows. -/
inductive Sourced : Dest → Prop
  | prim {surface : Surface} {source : PrimName} {widensFrom : List Text} {codec : Prim} :
      Sourced (.prim surface source.name widensFrom codec)
  | array {surface : Surface} {elem : Dest} {length : Num} {count : Nat} (helem : Sourced elem) :
      Sourced (.array surface elem length count)
  | record {surface : Surface} {slots : List (Slot Dest)} (hslots : ∀ s ∈ slots, Sourced s.type) :
      Sourced (.record surface slots)
  | variant {surface : Surface} {cases : List (Case Dest)} {payloadOffset decodedAt : Num}
      (hcases : ∀ c ∈ cases, Sourced c.type) :
      Sourced (.variant surface cases payloadOffset decodedAt)

theorem Native.sourced {d : Dest} (native : d.Native) : d.Sourced := by
  induction native with
  | prim p => exact .prim
  | array _ ih => exact .array ih
  | record _ ih => exact .record ih
  | variant _ ih => exact .variant ih

theorem native_of_laid {d : Dest} (laid : d.Laid) : d.Native := by
  induction laid with
  | prim p => exact .prim p
  | array _ _ _ _ _ ih => exact .array ih
  | record _ _ _ _ ih => exact .record ih
  | variant _ _ _ _ _ _ _ _ ih => exact .variant ih

theorem native_of_made {d : Dest} (made : d.Made) : d.Native := by
  induction made with
  | prim p => exact .prim p
  | array helem hmade ih =>
      obtain ⟨name, count, -, rfl⟩ := arrayOf_eq hmade
      exact .array ih
  | @record parts names hparts ih =>
      refine .record fun s hs => ?_
      exact ih (s.name, s.type) (placeSlots_parts parts 0 ▸ List.mem_map_of_mem hs)
  | variant names hparts hmade ih =>
      obtain ⟨name, cases, hcases, rfl⟩ := variantOf_eq hmade
      obtain ⟨new, rfl, hnew, -⟩ := makeCases_spec hcases List.Pairwise.nil
      refine .variant fun c hc => ?_
      exact ih (c.name, c.type) (hnew ▸ List.mem_map_of_mem hc)

/-! ## Measuring what was matched -/

/-- The source can be measured wherever the type was matched. -/
def HasExtent (dest : Dest) : Prop :=
  ∀ {desc : Desc} {plan : Plan}, Plan.Built dest desc plan → ∃ x, dest.sourceExtent desc = .ok x

theorem slotsExtent_defined {fields : List (Field Desc)} {slots : List (Slot Dest)}
    {plans : List (FieldPlan Plan)} (h : List.Forall₂ (Plan.SlotBuilt fields) slots plans)
    (hslots : ∀ s ∈ slots, HasExtent s.type) (finish : Num) :
    ∃ x, slotsExtent fields slots finish = .ok x := by
  induction h generalizing finish with
  | nil => exact ⟨finish, rfl⟩
  | @cons s f rest plans hbuilt _ ih =>
      obtain ⟨hfirst, hrest⟩ := List.forall_mem_cons.mp hslots
      obtain ⟨field, hfield, -, -, hbuilt⟩ := hbuilt
      obtain ⟨x, hx⟩ := hfirst hbuilt
      rw [slotsExtent]
      simp only [hfield, hx]
      exact ih hrest _

theorem largestExtent_defined {found : List (Case Dest × Ctor Desc)}
    (h : ∀ one ∈ found, ∃ x, one.1.type.sourceExtent one.2.type = .ok x) (largest : Num) :
    ∃ x, largestExtent found largest = .ok x := by
  induction found generalizing largest with
  | nil => exact ⟨largest, rfl⟩
  | cons one rest ih =>
      obtain ⟨⟨x, hx⟩, hrest⟩ := List.forall_mem_cons.mp h
      simp only [largestExtent, hx]
      exact ih hrest _

/-- A primitive that names a known source primitive is matched with known ones only. -/
theorem known_of_buildPrim {surface : Surface} {source : PrimName} {widensFrom : List Text}
    {codec : Prim} {desc : Desc} {path : List Text} {plan : Plan}
    (h : Plan.buildPrim surface source.name widensFrom codec desc path = .ok plan) :
    ∃ q : PrimName, desc = .prim q.name := by
  cases desc with
  | prim name =>
      rw [Plan.buildPrim] at h
      split at h
      · rename_i hname
        exact ⟨source, congrArg Desc.prim hname⟩
      · split at h
        · rename_i q hq
          have hname : q.name = name := by simpa using List.find?_some hq
          exact ⟨q, congrArg Desc.prim hname.symm⟩
        · cases h
  | _ => cases h

/-- **The source of a pair that was matched can be measured.** -/
theorem Sourced.hasExtent {dest : Dest} (sourced : dest.Sourced) : HasExtent dest := by
  induction sourced with
  | prim =>
      rintro desc plan ⟨path, h⟩
      rw [Plan.build, Plan.result_ofCause] at h
      obtain ⟨q, rfl⟩ := known_of_buildPrim h
      exact ⟨_, Desc.primSize_name q⟩
  | array _ _ =>
      intro desc plan h
      obtain ⟨elemDesc, n, step, convert, rfl, -, -, hstep, -⟩ := Plan.built_array h
      rw [sourceExtent, hstep]
      exact ⟨_, rfl⟩
  | record _ ih =>
      intro desc plan h
      obtain ⟨fields, plans, rfl, -, hplans⟩ := Plan.built_record h
      rw [sourceExtent]
      exact slotsExtent_defined hplans ih 0
  | @variant surface cases payloadOffset decodedAt _ ih =>
      rintro desc plan ⟨path, h⟩
      cases desc with
      | variant ctors =>
          rw [Plan.build] at h
          obtain ⟨⟨maxAlign, table⟩, htable, -⟩ := Traced.result_bind_eq_ok.mp h
          have hmatched : ∀ one ∈ Plan.matched ctors cases,
              ∃ x, one.1.type.sourceExtent one.2.type = .ok x := by
            intro one hone
            obtain ⟨hmem, hctor⟩ := Plan.mem_matched.mp hone
            obtain ⟨convert, hbuilt⟩ := Plan.buildCases_built htable _ hmem _ hctor
            exact ih one.1 hmem hbuilt
          obtain ⟨x, hx⟩ := largestExtent_defined hmatched 0
          rw [sourceExtent, casesExtent_matched (Plan.buildCases_widest htable), hx]
          exact ⟨_, rfl⟩
      | _ => cases h

theorem Native.hasExtent {dest : Dest} (native : dest.Native) : HasExtent dest :=
  native.sourced.hasExtent

end Dest

namespace Converter

variable {dest : Dest} {desc : Desc} {options : Layer} {config : Config}

/-- With valid options a build is that of the pair for whatever policy, with a report at its end. -/
theorem build_of_resolve (dest : Dest) (desc : Desc) (h : options.resolve = .ok config) :
    build dest desc options = ⟨(Compiled.once dest desc []).events ++
        [report dest desc (Compiled.once dest desc []).result],
      (Compiled.once dest desc []).result.map fun compiled => ⟨dest, compiled, config⟩⟩ := by
  have hconfig : (Traced.ofCause options.resolve).result = .ok config := by rw [h]; rfl
  rw [build, Traced.bind_of_ok hconfig, h]
  simp only [Compiled.build_eq]
  generalize Compiled.once dest desc [] = built
  obtain ⟨events, result⟩ := built
  cases result with
  | error e => rfl
  | ok compiled => exact congrArg (Traced.mk · _) (List.append_nil _)

/-- It fails with the failure of the pair, and with no other. -/
theorem error_iff_compiled (h : options.resolve = .ok config) {f : Failure} :
    (build dest desc options).result = .error f ↔
      (Compiled.once dest desc []).result = .error f := by
  rw [build_of_resolve dest desc h]
  cases (Compiled.once dest desc []).result <;> simp [Except.map]

theorem compiled_of_ok (h : options.resolve = .ok config) {c : Converter}
    (hc : (build dest desc options).result = .ok c) :
    (Compiled.once dest desc []).result = .ok c.compiled := by
  rw [build_of_resolve dest desc h] at hc
  cases hcompiled : (Compiled.once dest desc []).result with
  | error e =>
      rw [hcompiled] at hc
      cases hc
  | ok compiled =>
      rw [hcompiled] at hc
      cases hc
      rfl

/-- A converter fails to be built with the failure of the match, and with no other. -/
theorem build_error_iff (native : dest.Native) (hoptions : options.resolve = .ok config)
    {f : Failure} :
    (build dest desc options).result = .error f ↔ (Plan.build dest desc []).result = .error f := by
  rw [error_iff_compiled hoptions, Compiled.once]
  cases hplan : (Plan.build dest desc []).result with
  | error e => rw [Traced.result_bind_of_error hplan, Except.error.injEq, Except.error.injEq]
  | ok plan =>
      obtain ⟨x, hx⟩ := native.hasExtent ⟨[], hplan⟩
      rw [Traced.result_bind_of_ok hplan, hx]
      exact iff_of_false (by rintro ⟨⟩) (by rintro ⟨⟩)

end Converter

end Relayout

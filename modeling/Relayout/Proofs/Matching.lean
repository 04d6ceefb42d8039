import Relayout.Conversion.Converter
import Relayout.Proofs.DestLayout

/-!
# What a plan was built from

A plan that was built for a pair follows the destination type node by node. For
each kind of node there is one lemma that says which descriptor it was matched
with and which plans its parts have. The table of a variant is described by the
constructor that is taken for a tag: the last case, in order, whose first source
constructor bears it.
-/

namespace Relayout.Plan

open Relayout.Num

/-- The plan that the build of a pair comes to. -/
def Built (dest : Dest) (desc : Desc) (plan : Plan) : Prop :=
  ∃ path, (build dest desc path).result = .ok plan

theorem result_ofCause {α : Type} {x : Except Cause α} {a : α} :
    (Traced.ofCause x).result = .ok a ↔ x = .ok a := by
  cases x with
  | error c => simp [Traced.ofCause, Traced.fail]
  | ok b => simp [Traced.ofCause, Traced.pure]

theorem result_inPart {α : Type} {path : List Text} {segment : Text} {x : List Text → Traced α}
    {a : α} : (inPart path segment x).result = .ok a ↔ (x (path ++ [segment])).result = .ok a := by
  simp only [inPart, Traced.mapFailure]
  cases (x (path ++ [segment])).result with
  | error f => simp [Except.mapError]
  | ok b => simp [Except.mapError]

/-! ## Primitives and arrays -/

theorem copyOf_size (p : Prim) :
    copyOf (.ofNat p.size) = if p = .unit then .bytes 0 else .word p.size := by
  have hle : p.size ≤ exactLimit := by cases p <;> decide
  rw [copyOf, (is_ofNat hle).toNat?]
  cases p with
  | unit =>
      have hzero : Num.ofNat 0 = .rat 0 := ofNat_eq_rat (Nat.zero_le _)
      show bytes (Num.ofNat 0).countBelow = bytes 0
      rw [hzero, Num.countBelow]
      exact congrArg bytes (by decide)
  | _ => rfl

/-- A primitive is copied from its own source primitive or widened from a narrower one. -/
theorem built_prim {p : Prim} {desc : Desc} {plan : Plan} (h : Built (.ofPrim p) desc plan) :
    (desc = .prim p.source.name ∧ plan = if p = .unit then .bytes 0 else .word p.size) ∨
      ∃ q ∈ p.widensFrom, desc = .prim q.name ∧ plan = .widen q p := by
  obtain ⟨path, h⟩ := h
  rw [Dest.ofPrim, build, result_ofCause] at h
  cases desc with
  | prim name =>
      rw [buildPrim] at h
      split at h
      · rename_i hname
        cases h
        exact Or.inl ⟨by rw [hname], copyOf_size p⟩
      · split at h
        · rename_i q hq
          split at h
          · rename_i hwiden
            cases h
            obtain ⟨q', hmem, rfl⟩ := List.mem_map.mp (List.contains_iff_mem.mp hwiden)
            rw [PrimName.ofName?_name] at hq
            have heq : q' = q := Option.some.inj hq
            subst heq
            exact Or.inr ⟨q', hmem, rfl, rfl⟩
          · cases h
        · cases h
  | _ => cases h

/-- What is told of a node that is matched with no plan: there is no way between two primitives,
or the descriptor is of another kind. -/
theorem buildPrim_error {surface : Surface} {source : Text} {widensFrom : List Text} {codec : Prim}
    {desc : Desc} {path : List Text} {c : Cause}
    (h : buildPrim surface source widensFrom codec desc path = .error c) :
    (∃ name, desc = .prim name ∧ c = .noConversionPath name surface.name path) ∨
      c = .kindMismatch surface.name desc.display path := by
  cases desc with
  | prim name =>
      refine Or.inl ⟨name, rfl, ?_⟩
      rw [buildPrim] at h
      split at h
      · cases h
      · split at h
        · split at h
          · cases h
          · exact (Except.error.inj h).symm
        · exact (Except.error.inj h).symm
  | _ => exact Or.inr (Except.error.inj h).symm

theorem checkLength_ok {length : Num} {len : Desc} {path : List Text}
    (h : checkLength length len path = .ok ()) : ∃ n, len = .nat n ∧ n.eqv length = true := by
  cases len with
  | nat n =>
      rw [checkLength] at h
      split at h
      · split at h
        · rename_i heqv
          exact ⟨n, rfl, heqv⟩
        · cases h
      · cases h
  | _ => cases h

/-- A length that is refused is another number, or no length at all. -/
theorem checkLength_error {length : Num} {len : Desc} {path : List Text} {c : Cause}
    (h : checkLength length len path = .error c) :
    (∃ n, len = .nat n ∧ c = .lengthMismatch length n path) ∨
      c = .invalidLength len.display path := by
  cases len with
  | nat n =>
      rw [checkLength] at h
      split at h
      · split at h
        · cases h
        · exact Or.inl ⟨n, rfl, (Except.error.inj h).symm⟩
      · exact Or.inr (Except.error.inj h).symm
  | _ => exact Or.inr (Except.error.inj h).symm

/-- An array is matched with an array of an equal length. -/
theorem built_array {surface : Surface} {elem : Dest} {length : Num} {count : Nat} {desc : Desc}
    {plan : Plan} (h : Built (.array surface elem length count) desc plan) :
    ∃ elemDesc n step convert, desc = .array elemDesc (.nat n) ∧ n.eqv length = true ∧
      Built elem elemDesc convert ∧ elemDesc.size = .ok step ∧
      plan = .array (length.toNat?.getD 0) convert step elem.size := by
  obtain ⟨path, h⟩ := h
  cases desc with
  | array elemDesc len =>
      rw [build] at h
      obtain ⟨_, hlength, h⟩ := Traced.result_bind_eq_ok.mp h
      obtain ⟨convert, hconvert, h⟩ := Traced.result_bind_eq_ok.mp h
      obtain ⟨step, hstep, h⟩ := Traced.result_bind_eq_ok.mp h
      cases h
      obtain ⟨n, rfl, heqv⟩ := checkLength_ok (result_ofCause.mp hlength)
      exact ⟨elemDesc, n, step, convert, rfl, heqv, ⟨_, result_inPart.mp hconvert⟩,
        result_ofCause.mp hstep, rfl⟩
  | _ => cases h

/-! ## Records -/

/-- The plan of a slot: it is filled from the first source field of its name. -/
def SlotBuilt (fields : List (Field Desc)) (s : Slot Dest) (f : FieldPlan Plan) : Prop :=
  ∃ field, fields.find? (·.name = s.name) = some field ∧ f.srcOffset = field.offset ∧
    f.dstOffset = s.offset ∧ Built s.type field.type f.convert

/-- What it takes to match the first slot of a record and to go on. -/
theorem buildSlots_cons {size : Num} {fields : List (Field Desc)} {path : List Text}
    {s : Slot Dest} {rest : List (Slot Dest)} {plans : List (FieldPlan Plan)}
    (h : (buildSlots size fields path (s :: rest)).result = .ok plans) :
    (s.offset.lt 0 || size.lt (s.offset + s.type.size)) = false ∧
      ∃ plan plans', SlotBuilt fields s plan ∧
        (buildSlots size fields path rest).result = .ok plans' ∧ plans = plan :: plans' := by
  rw [buildSlots] at h
  split at h
  · cases h
  · rename_i hfits
    split at h
    · cases h
    · rename_i field hfield
      obtain ⟨convert, hconvert, h⟩ := Traced.result_bind_eq_ok.mp h
      obtain ⟨plans', hplans, h⟩ := Traced.result_bind_eq_ok.mp h
      cases h
      exact ⟨Bool.eq_false_iff.mpr hfits, _, plans',
        ⟨field, hfield, rfl, rfl, _, result_inPart.mp hconvert⟩, hplans, rfl⟩

theorem buildSlots_ok {size : Num} {fields : List (Field Desc)} {path : List Text}
    {slots : List (Slot Dest)} {plans : List (FieldPlan Plan)}
    (h : (buildSlots size fields path slots).result = .ok plans) :
    List.Forall₂ (SlotBuilt fields) slots plans := by
  induction slots generalizing plans with
  | nil =>
      rw [buildSlots] at h
      cases h
      exact .nil
  | cons s rest ih =>
      obtain ⟨-, plan, plans', hplan, hplans, rfl⟩ := buildSlots_cons h
      exact .cons hplan (ih hplans)

/-- A record is matched with a struct that has a field for each slot. -/
theorem built_record {surface : Surface} {slots : List (Slot Dest)} {desc : Desc} {plan : Plan}
    (h : Built (.record surface slots) desc plan) :
    ∃ fields plans, desc = .struct fields ∧ plan = .record plans ∧
      List.Forall₂ (SlotBuilt fields) slots plans := by
  obtain ⟨path, h⟩ := h
  cases desc with
  | struct fields =>
      rw [build] at h
      obtain ⟨plans, hplans, h⟩ := Traced.result_bind_eq_ok.mp h
      obtain ⟨-, -, h⟩ := Traced.result_bind_eq_ok.mp h
      cases h
      exact ⟨fields, plans, rfl, rfl, buildSlots_ok hplans⟩
  | _ => cases h

/-! ## Variants -/

/-- The constructor that is taken for a source tag: the last case, in order,
whose first source constructor of its name bears the tag. -/
def taken (ctors : List (Ctor Desc)) (tag : Num) : List (Case Dest) → Option (Case Dest × Ctor Desc)
  | [] => none
  | c :: rest =>
    (taken ctors tag rest).or
      (((ctors.find? (·.name = c.name)).filter (·.id.eqv tag)).map fun ctor => (c, ctor))

/-- The plan of a constructor that is taken. -/
structure CaseBuilt (payloadOffset : Num) (found : Case Dest × Ctor Desc) (arm : Arm Plan) : Prop where
  tag : arm.tag = found.1.id
  payloadAt : arm.payloadAt = payloadOffset
  convert : Built found.1.type found.2.type arm.convert

theorem eqv_iff {x y : Num} : x.eqv y = true ↔
    (∃ q, x.value? = some q ∧ y.value? = some q) ∨ ∃ b, x = .infinite b ∧ y = .infinite b := by
  have hvalue : ∀ {x y : Num} {p q : ℚ}, x.value? = some p → y.value? = some q →
      (x.eqv y = true ↔
        (∃ q, x.value? = some q ∧ y.value? = some q) ∨ ∃ b, x = .infinite b ∧ y = .infinite b) := by
    intro x y p q hx hy
    rw [eqv_of_value hx hy, decide_eq_true_eq, hx, hy]
    constructor
    · rintro rfl
      exact Or.inl ⟨p, rfl, rfl⟩
    · rintro (⟨r, hp, hq⟩ | ⟨b, rfl, -⟩)
      · exact (Option.some.inj hp).trans (Option.some.inj hq).symm
      · cases hx
  cases x with
  | rat p =>
      cases y with
      | rat q => exact hvalue rfl rfl
      | negZero => exact hvalue rfl rfl
      | _ => simp [Num.eqv, Num.value?]
  | negZero =>
      cases y with
      | rat q => exact hvalue rfl rfl
      | negZero => exact hvalue rfl rfl
      | _ => simp [Num.eqv, Num.value?]
  | nan => simp [Num.eqv, Num.value?]
  | infinite b =>
      cases y with
      | infinite b' => cases b <;> cases b' <;> simp [Num.eqv, Num.value?]
      | _ => simp [Num.eqv, Num.value?]

theorem eqv_symm {x y : Num} (h : x.eqv y = true) : y.eqv x = true := by
  rcases eqv_iff.mp h with ⟨q, hx, hy⟩ | ⟨b, hx, hy⟩
  · exact eqv_iff.mpr (Or.inl ⟨q, hy, hx⟩)
  · exact eqv_iff.mpr (Or.inr ⟨b, hy, hx⟩)

theorem eqv_trans {x y z : Num} (hxy : x.eqv y = true) (hyz : y.eqv z = true) :
    x.eqv z = true := by
  rcases eqv_iff.mp hxy with ⟨q, hx, hy⟩ | ⟨b, hx, hy⟩
  · rcases eqv_iff.mp hyz with ⟨r, hy', hz⟩ | ⟨b, rfl, -⟩
    · exact eqv_iff.mpr (Or.inl ⟨q, hx, hz.trans (hy'.symm.trans hy)⟩)
    · cases hy
  · rcases eqv_iff.mp hyz with ⟨r, hy', -⟩ | ⟨b', hy', hz⟩
    · rw [hy] at hy'
      cases hy'
    · rw [hy] at hy'
      cases hy'
      exact eqv_iff.mpr (Or.inr ⟨b, hx, hz⟩)

/-- The arm that was put in last is found for its tag, and all others as before. -/
theorem find?_setArm (arm : Arm Plan) (arms : List (Arm Plan)) (tag : Num) :
    (setArm arm arms).find? (·.id.eqv tag) =
      if arm.id.eqv tag then some arm else arms.find? (·.id.eqv tag) := by
  induction arms with
  | nil =>
      rw [setArm, List.find?_cons, List.find?_nil]
      cases arm.id.eqv tag <;> rfl
  | cons other rest ih =>
      rw [setArm]
      by_cases hsame : other.id.eqv arm.id = true
      · rw [if_pos hsame, List.find?_cons, List.find?_cons]
        cases harm : arm.id.eqv tag with
        | true => rfl
        | false =>
            have hother : other.id.eqv tag = false := by
              by_contra htrue
              rw [Bool.not_eq_false] at htrue
              rw [eqv_trans (eqv_symm hsame) htrue] at harm
              cases harm
            rw [hother]
            rfl
      · rw [if_neg hsame, List.find?_cons, List.find?_cons, ih]
        cases hother : other.id.eqv tag with
        | false => rfl
        | true =>
            cases harm : arm.id.eqv tag with
            | false => rfl
            | true => exact absurd (eqv_trans hother (eqv_symm harm)) hsame

/-- The cases that have a source constructor, each with the first one of its name. -/
def matched (ctors : List (Ctor Desc)) (cases : List (Case Dest)) : List (Case Dest × Ctor Desc) :=
  cases.filterMap fun c => (ctors.find? (·.name = c.name)).map fun ctor => (c, ctor)

section

variable {ctors : List (Ctor Desc)} {c : Case Dest} {ctor : Ctor Desc} {cases : List (Case Dest)}

theorem mem_matched : (c, ctor) ∈ matched ctors cases ↔
    c ∈ cases ∧ ctors.find? (·.name = c.name) = some ctor := by
  simp only [matched, List.mem_filterMap, Option.map_eq_some_iff, Prod.mk.injEq]
  constructor
  · rintro ⟨c', hc', ctor', hctor', rfl, rfl⟩
    exact ⟨hc', hctor'⟩
  · rintro ⟨hc, hctor⟩
    exact ⟨c, hc, ctor, hctor, rfl, rfl⟩

theorem matched_cons_none (h : ctors.find? (·.name = c.name) = none) :
    matched ctors (c :: cases) = matched ctors cases := by
  rw [matched, List.filterMap_cons_none (by rw [h, Option.map_none]), matched]

theorem matched_cons_some (h : ctors.find? (·.name = c.name) = some ctor) :
    matched ctors (c :: cases) = (c, ctor) :: matched ctors cases := by
  rw [matched, List.filterMap_cons_some (by rw [h, Option.map_some]), matched]

end

/-- The widest of `widest` and the alignments of the payloads that are matched. -/
def matchedAlign (ctors : List (Ctor Desc)) : List (Case Dest) → (widest : Nat) → Nat
  | [], widest => widest
  | c :: rest, widest =>
    match ctors.find? (·.name = c.name) with
    | some ctor => matchedAlign ctors rest (widest.max ctor.type.alignment)
    | none => matchedAlign ctors rest widest

/-- The widest of the alignments of the payloads that are matched, in any order. -/
theorem matchedAlign_eq (ctors : List (Ctor Desc)) (cases : List (Case Dest)) (widest : Nat) :
    matchedAlign ctors cases widest = (cases.filterMap fun c =>
      (ctors.find? (·.name = c.name)).map (·.type.alignment)).foldl Nat.max widest := by
  induction cases generalizing widest with
  | nil => rfl
  | cons c rest ih =>
      rw [matchedAlign]
      rcases hctor : ctors.find? (·.name = c.name) with _ | k
      · simp [hctor, ih]
      · simp [hctor, ih]

theorem isAlignment_matchedAlign (ctors : List (Ctor Desc)) (cases : List (Case Dest)) {w : Nat}
    (hw : IsAlignment w) : IsAlignment (matchedAlign ctors cases w) := by
  induction cases generalizing w with
  | nil => exact hw
  | cons c rest ih =>
      rw [matchedAlign]
      split
      · exact ih (hw.max (Desc.isAlignment_alignment _))
      · exact ih hw

/-- The distance from the tag of a source value to the payload of a matched constructor,
when the alignments of all matched payloads are numbers. -/
def payloadStart (ctors : List (Ctor Desc)) (cases : List (Case Dest)) : Nat :=
  roundUp 4 (matchedAlign ctors cases 1)

theorem four_le_payloadStart (ctors : List (Ctor Desc)) (cases : List (Case Dest)) :
    4 ≤ payloadStart ctors cases :=
  le_roundUp (isAlignment_matchedAlign ctors cases (Or.inl rfl))

/-- The alignments of all matched payloads are numbers. -/
def Definite (ctors : List (Ctor Desc)) (cases : List (Case Dest)) : Prop :=
  ∀ found ∈ matched ctors cases, found.2.type.Definite

instance (ctors : List (Ctor Desc)) (cases : List (Case Dest)) :
    Decidable (Definite ctors cases) :=
  inferInstanceAs (Decidable (∀ found ∈ matched ctors cases, found.2.type.Definite))

/-- The offset of the payload of a source value as a plan finds it. -/
def payloadAt (ctors : List (Ctor Desc)) (cases : List (Case Dest)) : Num :=
  if Definite ctors cases then .ofNat (payloadStart ctors cases) else .nan

theorem payloadAt_of_definite {ctors : List (Ctor Desc)} {cases : List (Case Dest)}
    (h : Definite ctors cases) : payloadAt ctors cases = .ofNat (payloadStart ctors cases) :=
  if_pos h

section

variable {ctors : List (Ctor Desc)} {c : Case Dest} {ctor : Ctor Desc} {cases : List (Case Dest)}

theorem definite_cons_none (h : ctors.find? (·.name = c.name) = none) :
    Definite ctors (c :: cases) ↔ Definite ctors cases := by
  rw [Definite, matched_cons_none h, Definite]

theorem definite_cons_some (h : ctors.find? (·.name = c.name) = some ctor) :
    Definite ctors (c :: cases) ↔ ctor.type.Definite ∧ Definite ctors cases := by
  rw [Definite, matched_cons_some h, List.forall_mem_cons, Definite]

end

theorem payloadOffset_eq {maxAlign : Num} {a : Nat} (ha : maxAlign.Is a) (haa : IsAlignment a) :
    payloadOffset maxAlign = .ofNat (roundUp 4 a) := by
  have hup : 4 ≤ roundUp 4 a := le_roundUp haa
  have hlimit : roundUp 4 a < exactLimit := by
    rcases haa with rfl | rfl | rfl | rfl <;> decide
  exact (Desc.tagSize_is.alignTo ha haa hlimit).eq_ofNat (by omega) hlimit.le

section

variable {size payloadOffset : Num} {ctors : List (Ctor Desc)} {path : List Text}
  {cases : List (Case Dest)} {widest maxAlign : Num} {arms table : List (Arm Plan)}

/-- A case without a source constructor is passed over. -/
theorem buildCases_cons_none {c : Case Dest} {rest : List (Case Dest)}
    (hctor : ctors.find? (·.name = c.name) = none)
    (h : (buildCases size payloadOffset ctors path (c :: rest) widest arms).result =
      .ok (maxAlign, table)) :
    (buildCases size payloadOffset ctors path rest widest arms).result = .ok (maxAlign, table) := by
  rw [buildCases] at h
  simp only [hctor] at h
  obtain ⟨-, -, h⟩ := Traced.result_bind_eq_ok.mp h
  exact h

/-- What it takes to match a case with its source constructor and to go on. -/
theorem buildCases_cons_some {c : Case Dest} {rest : List (Case Dest)} {ctor : Ctor Desc}
    (hctor : ctors.find? (·.name = c.name) = some ctor)
    (h : (buildCases size payloadOffset ctors path (c :: rest) widest arms).result =
      .ok (maxAlign, table)) :
    size.lt (payloadOffset + c.type.size) = false ∧
      ∃ align convert, ctor.type.align = .ok align ∧ Built c.type ctor.type convert ∧
        (buildCases size payloadOffset ctors path rest (widest.max align)
          (setArm ⟨ctor.id, c.id, payloadOffset, convert⟩ arms)).result = .ok (maxAlign, table) := by
  rw [buildCases] at h
  simp only [hctor] at h
  split at h
  · cases h
  · rename_i hfits
    obtain ⟨align, halign, h⟩ := Traced.result_bind_eq_ok.mp h
    obtain ⟨convert, hconvert, h⟩ := Traced.result_bind_eq_ok.mp h
    exact ⟨Bool.eq_false_iff.mpr hfits, align, convert, result_ofCause.mp halign,
      ⟨_, result_inPart.mp hconvert⟩, h⟩

/-- **Matching goes from one matched case to the next.** What holds at the end, and before a case
if it holds behind it, holds of all matched cases. -/
theorem buildCases_induct {motive : List (Case Dest × Ctor Desc) → Num → List (Arm Plan) → Prop}
    (h : (buildCases size payloadOffset ctors path cases widest arms).result =
      .ok (maxAlign, table))
    (nil : motive [] maxAlign table)
    (cons : ∀ {c ctor rest widest arms align convert},
      size.lt (payloadOffset + c.type.size) = false → ctor.type.align = .ok align →
      Built c.type ctor.type convert →
      motive rest (widest.max align) (setArm ⟨ctor.id, c.id, payloadOffset, convert⟩ arms) →
      motive ((c, ctor) :: rest) widest arms) :
    motive (matched ctors cases) widest arms := by
  induction cases generalizing widest arms with
  | nil =>
      rw [buildCases] at h
      cases h
      exact nil
  | cons c rest ih =>
      cases hctor : ctors.find? (·.name = c.name) with
      | none =>
          rw [matched_cons_none hctor]
          exact ih (buildCases_cons_none hctor h)
      | some ctor =>
          obtain ⟨hfits, align, convert, halign, hconvert, h⟩ := buildCases_cons_some hctor h
          rw [matched_cons_some hctor]
          exact cons hfits halign hconvert (ih h)

/-- The table finds for each tag the plan of the constructor that is taken for it. -/
theorem buildCases_ok
    (h : (buildCases size payloadOffset ctors path cases widest arms).result =
      .ok (maxAlign, table)) (tag : Num) :
    (taken ctors tag cases = none → table.find? (·.id.eqv tag) = arms.find? (·.id.eqv tag)) ∧
      ∀ found, taken ctors tag cases = some found →
        ∃ arm, table.find? (·.id.eqv tag) = some arm ∧ CaseBuilt payloadOffset found arm := by
  induction cases generalizing widest arms with
  | nil =>
      rw [buildCases] at h
      cases h
      exact ⟨fun _ => rfl, fun found hfound => by cases hfound⟩
  | cons c rest ih =>
      rw [taken]
      cases hctor : ctors.find? (·.name = c.name) with
      | none => simpa using ih (buildCases_cons_none hctor h)
      | some ctor =>
          obtain ⟨-, align, convert, -, hconvert, h⟩ := buildCases_cons_some hctor h
          obtain ⟨hnone, hsome⟩ := ih h
          cases hrest : taken ctors tag rest with
          | some found => simpa [hrest] using hsome found hrest
          | none =>
              -- no later case bears the tag, so this one decides
              have htable := hnone hrest
              rw [find?_setArm] at htable
              cases hid : ctor.id.eqv tag with
              | false =>
                  simp only [hid, Bool.false_eq_true, if_false] at htable
                  simp [hid, htable]
              | true =>
                  simp only [hid, if_true] at htable
                  simp only [Option.filter_some, hid, if_true, Option.map_some, Option.none_or,
                    Option.some.injEq, reduceCtorEq, false_implies, true_and]
                  rintro found rfl
                  exact ⟨_, htable, rfl, rfl, hconvert⟩

/-- Where all sizes are numbers, so are the alignments of the matched payloads. -/
theorem definite_of_small {ctors : List (Ctor Desc)} (small : (Desc.variant ctors).Small)
    (cases : List (Case Dest)) : Definite ctors cases := by
  cases small with
  | variant _ hctors =>
      intro found hfound
      obtain ⟨-, hctor⟩ := mem_matched.mp hfound
      exact (hctors _ (List.mem_of_find?_eq_some hctor)).definite

/-- Once the widest alignment is not-a-number it stays that. -/
theorem buildCases_nan
    (h : (buildCases size payloadOffset ctors path cases .nan arms).result =
      .ok (maxAlign, table)) : maxAlign = .nan := by
  induction cases generalizing arms with
  | nil =>
      rw [buildCases] at h
      cases h
      rfl
  | cons c rest ih =>
      cases hctor : ctors.find? (·.name = c.name) with
      | none => exact ih (buildCases_cons_none hctor h)
      | some ctor =>
          obtain ⟨-, align, convert, -, -, h⟩ := buildCases_cons_some hctor h
          exact ih (nan_max align ▸ h)

theorem buildCases_align {w : Nat}
    (h : (buildCases size payloadOffset ctors path cases widest arms).result =
      .ok (maxAlign, table)) (hw : widest.Is w) (hwa : IsAlignment w) :
    (Definite ctors cases → maxAlign.Is (matchedAlign ctors cases w)) ∧
      (¬Definite ctors cases → maxAlign = .nan) := by
  induction cases generalizing widest arms w with
  | nil =>
      rw [buildCases] at h
      cases h
      exact ⟨fun _ => hw, fun hnot => absurd (by simp [Definite, matched]) hnot⟩
  | cons c rest ih =>
      rw [matchedAlign]
      cases hctor : ctors.find? (·.name = c.name) with
      | none =>
          rw [definite_cons_none hctor]
          exact ih (buildCases_cons_none hctor h) hw hwa
      | some ctor =>
          obtain ⟨-, align, convert, halign, -, h⟩ := buildCases_cons_some hctor h
          rw [definite_cons_some hctor]
          by_cases hdef : ctor.type.Definite
          · obtain ⟨haa, ha⟩ := Desc.alignment_spec hdef halign
            have hrest := ih h (hw.max hwa ha haa) (hwa.max haa)
            exact ⟨fun hall => hrest.1 hall.2, fun hnot => hrest.2 fun hall => hnot ⟨hdef, hall⟩⟩
          · have hnan : align = .nan := Except.ok.inj (halign.symm.trans (not_not.mp hdef))
            rw [hnan, max_nan] at h
            exact ⟨fun hall => absurd hall.1 hdef, fun _ => buildCases_nan h⟩

/-- The offset at which a plan finds the payload. -/
theorem buildCases_payloadAt
    (h : (buildCases size payloadOffset ctors path cases 1 arms).result = .ok (maxAlign, table)) :
    Plan.payloadOffset maxAlign = payloadAt ctors cases := by
  obtain ⟨hdefinite, hnan⟩ := buildCases_align h (is_ofNat (by decide)) (Or.inl rfl)
  by_cases hall : Definite ctors cases
  · rw [payloadAt, if_pos hall,
      payloadOffset_eq (hdefinite hall) (isAlignment_matchedAlign ctors cases (Or.inl rfl)),
      payloadStart]
  · rw [payloadAt, if_neg hall, hnan hall, Plan.payloadOffset, alignTo_nan]

/-- Every matched case has a plan, whether or not a tag takes it. -/
theorem buildCases_built
    (h : (buildCases size payloadOffset ctors path cases widest arms).result =
      .ok (maxAlign, table)) :
    ∀ c ∈ cases, ∀ ctor, ctors.find? (·.name = c.name) = some ctor →
      ∃ convert, Built c.type ctor.type convert := by
  have hall := buildCases_induct h
    (motive := fun found _ _ => ∀ one ∈ found, ∃ convert, Built one.1.type one.2.type convert)
    (by simp) fun _ _ hconvert ih => List.forall_mem_cons.mpr ⟨⟨_, hconvert⟩, ih⟩
  exact fun c hc ctor hctor => hall (c, ctor) (mem_matched.mpr ⟨hc, hctor⟩)

end

/-- A variant is matched with a variant: its table finds the constructor that is
taken, and the payload is looked for where the matched payloads have their place. -/
theorem built_variant {surface : Surface} {cases : List (Case Dest)} {payloadOffset decodedAt : Num}
    {desc : Desc} {plan : Plan}
    (h : Built (.variant surface cases payloadOffset decodedAt) desc plan) :
    ∃ ctors maxAlign arms, desc = .variant ctors ∧ plan = .variant surface.name maxAlign arms ∧
      Plan.payloadOffset maxAlign = payloadAt ctors cases ∧
      (∀ c ∈ cases, ∀ ctor, ctors.find? (·.name = c.name) = some ctor →
        ∃ convert, Built c.type ctor.type convert) ∧
      ∀ tag : Num, (taken ctors tag cases = none → arms.find? (·.id.eqv tag) = none) ∧
        ∀ found, taken ctors tag cases = some found →
          ∃ arm, arms.find? (·.id.eqv tag) = some arm ∧ CaseBuilt payloadOffset found arm := by
  obtain ⟨path, h⟩ := h
  cases desc with
  | variant ctors =>
      rw [build] at h
      obtain ⟨⟨maxAlign, arms⟩, harms, h⟩ := Traced.result_bind_eq_ok.mp h
      cases h
      exact ⟨ctors, maxAlign, arms, rfl, rfl, buildCases_payloadAt harms, buildCases_built harms,
        buildCases_ok harms⟩
  | _ => cases h

/-- What is taken is a case with the first source constructor of its name, and bears the tag. -/
theorem taken_spec {ctors : List (Ctor Desc)} {tag : Num} {cases : List (Case Dest)}
    {c : Case Dest} {ctor : Ctor Desc} (h : taken ctors tag cases = some (c, ctor)) :
    c ∈ cases ∧ ctors.find? (·.name = c.name) = some ctor ∧ ctor.id.eqv tag = true := by
  induction cases with
  | nil => cases h
  | cons first rest ih =>
      rw [taken] at h
      cases hrest : taken ctors tag rest with
      | some found =>
          rw [hrest] at h
          cases h
          obtain ⟨hmem, hspec⟩ := ih hrest
          exact ⟨List.mem_cons_of_mem _ hmem, hspec⟩
      | none =>
          rw [hrest, Option.none_or, Option.map_eq_some_iff] at h
          obtain ⟨found, hfound, heq⟩ := h
          cases heq
          obtain ⟨hfind, hid⟩ := Option.filter_eq_some_iff.mp hfound
          exact ⟨List.mem_cons_self, hfind, hid⟩

/-- A tag is taken by no case if no first source constructor of a case's name bears it. -/
theorem taken_eq_none {ctors : List (Ctor Desc)} {tag : Num} {cases : List (Case Dest)} :
    taken ctors tag cases = none ↔
      ∀ c ∈ cases, (ctors.find? (·.name = c.name)).filter (·.id.eqv tag) = none := by
  induction cases with
  | nil => simp [taken]
  | cons c rest ih => simp [taken, ih, and_comm]

end Relayout.Plan

namespace Relayout

/-! ## Matching twice -/

/-- The computation with its value changed. -/
def Traced.map {α β : Type} (f : α → β) (x : Traced α) : Traced β :=
  ⟨x.events, x.result.map f⟩

/-- Matching twice is matching once. -/
theorem Plan.buildBoth_eq (policy : UnknownTagPolicy) (dest : Dest) (desc : Desc)
    (path : List Text) :
    buildBoth policy dest desc path = (build dest desc path).map fun plan => (plan, plan) := by
  cases h : (build dest desc path).result with
  | error e =>
      rw [buildBoth, Traced.bind_of_error h, Traced.map, h]
      rfl
  | ok plan =>
      rw [buildBoth, Traced.bind_of_ok h, Traced.map, h]
      cases policy with
      | fail =>
          show (⟨_ ++ [], _⟩ : Traced (Plan × Plan)) = _
          rw [List.append_nil]
          rfl
      | ignore =>
          have hagain : (build dest desc path).muted.result = .ok plan := h
          simp only [Traced.bind_of_ok hagain]
          show (⟨_ ++ ([] ++ []), _⟩ : Traced (Plan × Plan)) = _
          rw [List.append_nil, List.append_nil]
          rfl

/-- Match a pair once and measure the source. -/
def Compiled.once (dest : Dest) (desc : Desc) (path : List Text) : Traced Compiled := do
  let plan ← Plan.build dest desc path
  let sourceSize ← Traced.ofCause (dest.sourceExtent desc)
  return ⟨plan, plan, sourceSize⟩

/-- **Matching for a policy is matching once.** -/
theorem Compiled.build_eq (policy : UnknownTagPolicy) (dest : Dest) (desc : Desc)
    (path : List Text) : build policy dest desc path = once dest desc path := by
  rw [build, once, Plan.buildBoth_eq]
  cases h : (Plan.build dest desc path).result with
  | error e =>
      have hboth : ((Plan.build dest desc path).map fun plan => (plan, plan)).result = .error e := by
        rw [Traced.map, h]
        rfl
      rw [Traced.bind_of_error hboth, Traced.bind_of_error h, Traced.map]
  | ok plan =>
      have hboth : ((Plan.build dest desc path).map fun plan => (plan, plan)).result =
          .ok (plan, plan) := by
        rw [Traced.map, h]
        rfl
      rw [Traced.bind_of_ok hboth, Traced.bind_of_ok h, Traced.map]

/-- What was built has one plan for both kinds of conversion. -/
theorem Compiled.build_ok {policy : UnknownTagPolicy} {dest : Dest} {desc : Desc}
    {path : List Text} {compiled : Compiled}
    (h : (build policy dest desc path).result = .ok compiled) :
    (Plan.build dest desc path).result = .ok compiled.plan ∧ compiled.strict = compiled.plan ∧
      dest.sourceExtent desc = .ok compiled.sourceSize := by
  rw [build_eq] at h
  obtain ⟨plan, hplan, h⟩ := Traced.result_bind_eq_ok.mp h
  obtain ⟨size, hsize, h⟩ := Traced.result_bind_eq_ok.mp h
  cases h
  exact ⟨hplan, rfl, Plan.result_ofCause.mp hsize⟩

end Relayout

import Relayout.Conversion.Extent
import Relayout.Proofs.Matching
import Relayout.Proofs.Ranges

/-!
# Where a payload is looked for

All payloads of a source variant begin at one offset behind its start, which the
widest of their alignments decides. The layout of the variant goes by all of its
constructors, a plan and the extent of its source by the matched ones alone. The
offset is 8 if some payload is aligned to 8, and 4 otherwise. So the two differ
if there are such payloads and none of them is matched. A payload whose alignment
is not-a-number spoils the offset, and one that is not matched spoils that of the
layout alone.
-/

namespace Relayout

open Relayout.Num

/-! ## The offset that a layout gives -/

namespace Desc

/-- Some payload is aligned to eight bytes. -/
def Wide (ctors : List (Ctor Desc)) : Prop :=
  ∃ k ∈ ctors, k.type.align = .ok 8

/-- The alignments of all payloads are numbers. -/
def Numeric (ctors : List (Ctor Desc)) : Prop :=
  ∀ k ∈ ctors, k.type.Definite

theorem wide_cons {k : Ctor Desc} {rest : List (Ctor Desc)} :
    Wide (k :: rest) ↔ k.type.align = .ok 8 ∨ Wide rest := by
  simp [Wide]

theorem align_eq_eight {d : Desc} {x : Num} (definite : d.Definite) (h : d.align = .ok x) :
    d.align = .ok 8 ↔ d.alignment = 8 := by
  obtain ⟨-, hx⟩ := alignment_spec definite h
  have height : (8 : Num).Is 8 := is_ofNat (n := 8) (by decide)
  rw [h, Except.ok.injEq]
  constructor
  · rintro rfl
    exact hx.unique height
  · intro heq
    rw [heq] at hx
    exact hx.eq_ofNat (by decide) (by decide)

/-- The widest alignment is that of eight bytes if it was so before or if some payload has it. -/
theorem alignCtors_eight {ctors : List (Ctor Desc)} {widest x : Num} {w : Nat}
    (numeric : Numeric ctors) (h : alignCtors ctors widest = .ok x) (hw : widest.Is w)
    (hwa : IsAlignment w) : ∃ a, IsAlignment a ∧ x.Is a ∧ (a = 8 ↔ w = 8 ∨ Wide ctors) := by
  induction ctors generalizing widest w with
  | nil =>
      cases h
      exact ⟨w, hwa, hw, by simp [Wide]⟩
  | cons k rest ih =>
      obtain ⟨hfirst, hothers⟩ := List.forall_mem_cons.mp numeric
      rw [alignCtors] at h
      obtain ⟨y, hy, h⟩ := bind_eq_ok.mp h
      obtain ⟨hka, hk⟩ := alignment_spec hfirst hy
      obtain ⟨a, haa, hx, height⟩ := ih hothers h (hw.max hwa hk hka) (hwa.max hka)
      have hmax : w.max k.type.alignment = 8 ↔ w = 8 ∨ k.type.alignment = 8 := by
        rcases hwa with rfl | rfl | rfl | rfl <;> rcases hka with h | h | h | h <;> rw [h] <;> decide
      exact ⟨a, haa, hx, by rw [height, hmax, wide_cons, align_eq_eight hfirst hy, or_assoc]⟩

/-- One alignment that is not-a-number makes the widest one that. -/
theorem alignCtors_spoilt {ctors : List (Ctor Desc)} {widest x : Num} (hnot : ¬Numeric ctors)
    (h : alignCtors ctors widest = .ok x) : x = .nan := by
  by_contra hx
  exact hnot (alignCtors_definite h hx)

/-- **The payloads of a variant begin at its eighth byte if one of them is aligned to eight, and
at its fourth byte otherwise**, if their alignments are numbers. -/
theorem payloadOffset_cases {ctors : List (Ctor Desc)} {x : Num} (h : payloadOffset ctors = .ok x) :
    (Numeric ctors ∧ Wide ctors ∧ x = 8) ∨ (Numeric ctors ∧ ¬Wide ctors ∧ x = 4) ∨
      (¬Numeric ctors ∧ x = .nan) := by
  rw [payloadOffset] at h
  obtain ⟨widest, hwidest, h⟩ := bind_eq_ok.mp h
  cases h
  by_cases numeric : Numeric ctors
  · obtain ⟨a, haa, ha, height⟩ :=
      alignCtors_eight numeric hwidest (is_ofNat (n := 1) (by decide)) (Or.inl rfl)
    have hoffset : tagSize.alignTo widest = .ofNat (roundUp 4 a) := Plan.payloadOffset_eq ha haa
    have hwide : a = 8 ↔ Wide ctors := height.trans (or_iff_right (by decide))
    rw [hoffset, ← hwide]
    rcases haa with rfl | rfl | rfl | rfl
    · exact .inr (.inl ⟨numeric, by decide, rfl⟩)
    · exact .inr (.inl ⟨numeric, by decide, rfl⟩)
    · exact .inr (.inl ⟨numeric, by decide, rfl⟩)
    · exact .inl ⟨numeric, rfl, rfl⟩
  · rw [alignCtors_spoilt numeric hwidest]
    exact .inr (.inr ⟨numeric, alignTo_nan _⟩)

/-- Variants with the same constructors, in whatever order, look for payloads at the same offset. -/
theorem payloadOffset_same {ctors ctors' : List (Ctor Desc)} (h : ∀ k, k ∈ ctors' ↔ k ∈ ctors)
    {x : Num} (hx : payloadOffset ctors = .ok x) : payloadOffset ctors' = .ok x := by
  have hwide : Wide ctors' ↔ Wide ctors := by simp only [Wide, h]
  have hnumeric : Numeric ctors' ↔ Numeric ctors := by simp only [Numeric, h]
  obtain ⟨widest, hwidest, -⟩ := bind_eq_ok.mp hx
  have hdefined := (alignCtors_defined 1).mp ⟨widest, hwidest⟩
  obtain ⟨widest', hwidest'⟩ :=
    (alignCtors_defined 1).mpr fun k hk => hdefined k ((h k).mp hk)
  have hx' : payloadOffset ctors' = .ok (tagSize.alignTo widest') :=
    bind_eq_ok.mpr ⟨widest', hwidest', rfl⟩
  have hspec := payloadOffset_cases hx'
  rw [hwide, hnumeric] at hspec
  rw [hx', Except.ok.injEq]
  rcases payloadOffset_cases hx with ⟨hn, hw, rfl⟩ | ⟨hn, hw, rfl⟩ | ⟨hn, rfl⟩
  · simpa [hn, hw] using hspec
  · simpa [hn, hw] using hspec
  · simpa [hn] using hspec

end Desc

/-! ## The offset that a plan goes by -/

namespace Dest

/-- The largest of `largest` and the extents of the matched payloads. -/
def largestExtent : List (Case Dest × Ctor Desc) → (largest : Num) → Except Cause Num
  | [], largest => .ok largest
  | (c, ctor) :: rest, largest => do
    largestExtent rest (largest.max (← c.type.sourceExtent ctor.type))

/-- The extents of the matched payloads, once their alignments are known. -/
theorem casesExtent_matched {ctors : List (Ctor Desc)} {cases : List (Case Dest)}
    {widest maxAlign : Num}
    (h : Desc.alignCtors ((Plan.matched ctors cases).map Prod.snd) widest = .ok maxAlign)
    (largest : Num) : casesExtent ctors cases widest largest =
      (largestExtent (Plan.matched ctors cases) largest).map fun payload => (maxAlign, payload) := by
  induction cases generalizing widest largest with
  | nil =>
      cases h
      rfl
  | cons c rest ih =>
      rw [casesExtent]
      cases hctor : ctors.find? (·.name = c.name) with
      | none =>
          rw [Plan.matched_cons_none hctor] at h ⊢
          exact ih h largest
      | some ctor =>
          rw [Plan.matched_cons_some hctor] at h ⊢
          obtain ⟨align, halign, h⟩ := bind_eq_ok.mp h
          simp only at halign
          simp only [halign, largestExtent]
          cases c.type.sourceExtent ctor.type with
          | error e => rfl
          | ok extent => exact ih h _

end Dest

namespace Plan

/-- A plan widens its alignment as the layout of the matched constructors does. -/
theorem buildCases_widest {size target : Num} {ctors : List (Ctor Desc)} {path : List Text}
    {cases : List (Case Dest)} {widest maxAlign : Num} {arms table : List (Arm Plan)}
    (h : (buildCases size target ctors path cases widest arms).result = .ok (maxAlign, table)) :
    Desc.alignCtors ((matched ctors cases).map Prod.snd) widest = .ok maxAlign :=
  buildCases_induct h
    (motive := fun found widest _ => Desc.alignCtors (found.map Prod.snd) widest = .ok maxAlign)
    rfl fun _ halign _ ih => bind_eq_ok.mpr ⟨_, halign, ih⟩

/-- The offset at which a plan looks for payloads, beside the one that the layout of the source
variant gives. -/
structure LooksBeside (ctors : List (Ctor Desc)) (cases : List (Case Dest))
    (looked offset : Num) : Prop where
  /-- It is the offset of the variant restricted to the matched constructors, in any order. -/
  restricted : ∀ ks : List (Ctor Desc), (∀ k, k ∈ ks ↔ ∃ c, (c, k) ∈ matched ctors cases) →
    Desc.payloadOffset ks = .ok looked
  /-- It does not lie behind the offset of the whole variant, if that one is a number. -/
  le_iff : looked.le offset = true ↔ Desc.Numeric ctors
  /-- It equals that offset if the matched payloads are as wide as all payloads. -/
  eqv_iff : looked.eqv offset = true ↔ Desc.Numeric ctors ∧
    ((∃ c ctor, (c, ctor) ∈ matched ctors cases ∧ ctor.type.align = .ok 8) ∨
      ∀ ctor ∈ ctors, ctor.type.align ≠ .ok 8)

/-- Among the matched constructors there are wide payloads only if there are among all. -/
theorem wide_matched (ctors : List (Ctor Desc)) (cases : List (Case Dest)) :
    (Desc.Wide ((matched ctors cases).map Prod.snd) ↔
      ∃ c ctor, (c, ctor) ∈ matched ctors cases ∧ ctor.type.align = .ok 8) ∧
    (Desc.Wide ((matched ctors cases).map Prod.snd) → Desc.Wide ctors) := by
  have hwide : Desc.Wide ((matched ctors cases).map Prod.snd) ↔
      ∃ c ctor, (c, ctor) ∈ matched ctors cases ∧ ctor.type.align = .ok 8 := by
    constructor
    · rintro ⟨ctor, hctor, height⟩
      obtain ⟨⟨c, ctor'⟩, hmem, rfl⟩ := List.mem_map.mp hctor
      exact ⟨c, ctor', hmem, height⟩
    · rintro ⟨c, ctor, hmem, height⟩
      exact ⟨ctor, List.mem_map.mpr ⟨_, hmem, rfl⟩, height⟩
  refine ⟨hwide, fun h => ?_⟩
  obtain ⟨c, ctor, hmem, height⟩ := hwide.mp h
  exact ⟨ctor, List.mem_of_find?_eq_some (mem_matched.mp hmem).2, height⟩

theorem numeric_matched {ctors : List (Ctor Desc)} (cases : List (Case Dest))
    (numeric : Desc.Numeric ctors) : Desc.Numeric ((matched ctors cases).map Prod.snd) := by
  intro ctor hctor
  obtain ⟨⟨c, ctor'⟩, hmem, rfl⟩ := List.mem_map.mp hctor
  exact numeric ctor' (List.mem_of_find?_eq_some (mem_matched.mp hmem).2)

theorem looksBeside {ctors : List (Ctor Desc)} {cases : List (Case Dest)} {looked offset : Num}
    (hlooked : Desc.payloadOffset ((matched ctors cases).map Prod.snd) = .ok looked)
    (hoffset : Desc.payloadOffset ctors = .ok offset) : LooksBeside ctors cases looked offset := by
  obtain ⟨hwide, hmono⟩ := wide_matched ctors cases
  have hnone : (∀ ctor ∈ ctors, ctor.type.align ≠ .ok 8) ↔ ¬Desc.Wide ctors := by simp [Desc.Wide]
  have hlooked' := Desc.payloadOffset_cases hlooked
  refine ⟨fun ks hks => Desc.payloadOffset_same (fun k => (hks k).trans (by simp)) hlooked, ?_, ?_⟩
  · rcases Desc.payloadOffset_cases hoffset with ⟨hn, hw, rfl⟩ | ⟨hn, hw, rfl⟩ | ⟨hn, rfl⟩
    · refine iff_of_true ?_ hn
      rcases hlooked' with ⟨-, -, rfl⟩ | ⟨-, -, rfl⟩ | ⟨hnot, -⟩
      · rfl
      · rfl
      · exact absurd (numeric_matched cases hn) hnot
    · refine iff_of_true ?_ hn
      rcases hlooked' with ⟨-, hw', -⟩ | ⟨-, -, rfl⟩ | ⟨hnot, -⟩
      · exact absurd (hmono hw') hw
      · rfl
      · exact absurd (numeric_matched cases hn) hnot
    · exact iff_of_false (by rw [Num.le, lt_nan, eqv_nan]; decide) hn
  · rw [← hwide, hnone]
    rcases Desc.payloadOffset_cases hoffset with ⟨hn, hw, rfl⟩ | ⟨hn, hw, rfl⟩ | ⟨hn, rfl⟩
    · rcases hlooked' with ⟨-, hw', rfl⟩ | ⟨-, hw', rfl⟩ | ⟨hnot, -⟩
      · exact iff_of_true rfl ⟨hn, Or.inl hw'⟩
      · exact iff_of_false (by decide) (by simp [hw, hw'])
      · exact absurd (numeric_matched cases hn) hnot
    · rcases hlooked' with ⟨-, hw', -⟩ | ⟨-, -, rfl⟩ | ⟨hnot, -⟩
      · exact absurd (hmono hw') hw
      · exact iff_of_true rfl ⟨hn, Or.inr hw⟩
      · exact absurd (numeric_matched cases hn) hnot
    · exact iff_of_false (by rw [eqv_nan]; decide) fun h => hn h.1

/-- If every constructor is matched, payloads are looked for where the layout has them. -/
theorem LooksBeside.eq_of_all {ctors : List (Ctor Desc)} {cases : List (Case Dest)}
    {looked offset : Num} (h : LooksBeside ctors cases looked offset)
    (hoffset : Desc.payloadOffset ctors = .ok offset)
    (hall : ∀ ctor ∈ ctors, ∃ c, (c, ctor) ∈ matched ctors cases) : looked = offset := by
  have hlooked := h.restricted ctors fun k =>
    ⟨hall k, fun ⟨_, hc⟩ => List.mem_of_find?_eq_some (mem_matched.mp hc).2⟩
  exact Except.ok.inj (hlooked.symm.trans hoffset)

/-- **A plan looks for payloads where the layout of the matched constructors has them.** That is
where the layout of the source has them, unless a payload aligned to eight bytes is not matched
and none of the matched ones is, or the layout has them nowhere. The extent of the source goes by
the same offset. -/
theorem payloadOffset_matched {surface : Surface} {cases : List (Case Dest)}
    {target decodedAt : Num} {ctors : List (Ctor Desc)} {path : List Text} {name : Text}
    {maxAlign : Num} {arms : List (Arm Plan)}
    (h : (build (.variant surface cases target decodedAt) (.variant ctors) path).result =
      .ok (.variant name maxAlign arms)) {offset : Num}
    (hoffset : Desc.payloadOffset ctors = .ok offset) :
    LooksBeside ctors cases (payloadOffset maxAlign) offset ∧
      ((∀ ctor ∈ ctors, ∃ c, (c, ctor) ∈ matched ctors cases) →
        ∀ order policy (src : Source) s d m tag arm, (src.seen m).loadWord order s 4 = .ok tag →
          arms.find? (·.id.eqv (.ofNat tag)) = some arm →
          run order policy src (.variant name maxAlign arms) s d m =
            fillArm order policy src arm (s + offset) d m) ∧
      (Dest.variant surface cases target decodedAt).sourceExtent (.variant ctors) =
        (Dest.largestExtent (matched ctors cases) 0).map fun payload =>
          Desc.tagSize.max (payloadOffset maxAlign + payload) := by
  rw [build] at h
  obtain ⟨⟨maxAlign', table⟩, htable, h⟩ := Traced.result_bind_eq_ok.mp h
  cases h
  have hwidest := buildCases_widest htable
  have beside := looksBeside (bind_eq_ok.mpr ⟨maxAlign, hwidest, rfl⟩) hoffset
  refine ⟨beside, fun hall order policy src s d m tag arm htag harm => ?_, ?_⟩
  · have hsame : payloadOffset maxAlign = offset := beside.eq_of_all hoffset hall
    rw [run, htag]
    simp only
    rw [runArm_eq, harm, hsame]
  · rw [Dest.sourceExtent, Dest.casesExtent_matched hwidest]
    cases Dest.largestExtent (matched ctors cases) 0 with
    | error e => rfl
    | ok payload => rfl

namespace Sample

/-- A measurement is a level. -/
def measurement : List (Case Dest) :=
  [⟨"level", 0, .ofPrim .int32⟩]

/-- The source knows exact measurements, too. -/
def measured : List (Ctor Desc) :=
  [⟨"level", 0, .prim "int"⟩, ⟨"exact", 1, .prim "double"⟩]

/-- Exact measurements of a type whose name is an inherited one. -/
def unplaced : List (Ctor Desc) :=
  [⟨"level", 0, .prim "int"⟩, ⟨"exact", 1, .prim "toString"⟩]

end Sample

/-- The exact measurements of the sample are not matched, so levels are looked for too early. -/
theorem payloadOffset_matched_sample : ∃ maxAlign arms,
    (build (.variant ⟨"measurement", 8, 4⟩ Sample.measurement 4 4) (.variant Sample.measured)
      []).result = .ok (.variant "measurement" maxAlign arms) ∧
    Desc.payloadOffset Sample.measured = .ok 8 ∧
    (payloadOffset maxAlign).le 8 = true ∧ (payloadOffset maxAlign).eqv 8 = false := by
  have hbuilt := eq_ok_get (x := (build (.variant ⟨"measurement", 8, 4⟩ Sample.measurement 4 4)
    (.variant Sample.measured) []).result) (by decide +kernel)
  obtain ⟨ctors, maxAlign, arms, -, hplan, -⟩ := built_variant ⟨[], hbuilt⟩
  rw [hplan] at hbuilt
  have hoffset : Desc.payloadOffset Sample.measured = .ok 8 := by decide +kernel
  have beside := (payloadOffset_matched hbuilt hoffset).1
  refine ⟨maxAlign, arms, hbuilt, hoffset, beside.le_iff.mpr ?_, ?_⟩
  · simp only [Desc.Numeric, Sample.measured, List.forall_mem_cons]
    exact ⟨by decide +kernel, by decide +kernel, by simp⟩
  · rw [← Bool.not_eq_true, beside.eqv_iff]
    rintro ⟨-, ⟨c, ctor, hmem, height⟩ | hnone⟩
    · have hmatched : matched Sample.measured Sample.measurement =
          [(⟨"level", 0, .ofPrim .int32⟩, ⟨"level", 0, .prim "int"⟩)] := rfl
      rw [hmatched, List.mem_singleton] at hmem
      cases hmem
      exact absurd height (by decide +kernel)
    · exact hnone ⟨"exact", 1, .prim "double"⟩ (by simp [Sample.measured]) (by decide +kernel)

/-- An inherited name gives a payload that is not matched an alignment that is not-a-number, and
with it the layout of the whole variant. The plan looks for levels at the fourth byte. -/
theorem unmatched_payload_nan : ∃ maxAlign arms ctors,
    (build (.variant ⟨"measurement", 8, 4⟩ Sample.measurement 4 4) (.variant ctors) []).result =
      .ok (.variant "measurement" maxAlign arms) ∧
    Desc.payloadOffset ctors = .ok .nan ∧ payloadOffset maxAlign = 4 ∧
    (payloadOffset maxAlign).le .nan = false ∧ (payloadOffset maxAlign).eqv .nan = false ∧
    ∀ ctor ∈ ctors, ctor.type.align ≠ .ok 8 := by
  have hbuilt : (build (.variant ⟨"measurement", 8, 4⟩ Sample.measurement 4 4)
      (.variant Sample.unplaced) []).result = .ok (.variant "measurement" 4 [⟨0, 0, 4, .word 4⟩]) := by
    with_unfolding_all rfl
  refine ⟨4, _, Sample.unplaced, hbuilt, by decide +kernel, by decide +kernel, by decide +kernel,
    by decide +kernel, ?_⟩
  simp only [Sample.unplaced, List.forall_mem_cons]
  exact ⟨by decide +kernel, by decide +kernel, by simp⟩

end Plan

end Relayout

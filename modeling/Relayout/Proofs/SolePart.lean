import Relayout.Proofs.Amounts
import Relayout.Proofs.Native

/-!
# A part that cannot be converted

Put a type that cannot be converted from its source into a record or a variant
as the only part. The record passes the failure on with the name of the part in
front. The variant does the same only if the source of the part has an alignment.
It asks for the alignment before it matches the part, and if there is none it
gives up with that failure instead, which tells neither of the part nor of why
the part could not be matched. Under an inherited name there is no variant at all.
-/

namespace Relayout

open Relayout.Num

/-! ## The only slot and the only case -/

namespace Num

/-- Behind a natural number, an amount and the larger of it and zero end at the same place. -/
theorem Is.add_zero_max {x y : Num} {a : Nat} (hx : x.Is a) (ha : a ≠ 0) (hy : y.Amount) :
    x + (0 : Num).max y = x + y := by
  have hzero : (0 : Num).Is 0 := is_ofNat (Nat.zero_le _)
  rcases hy with rfl | ⟨n, hn⟩
  · rw [max_nan]
  · rcases max_cases (tracks_of_is hzero) hn with ⟨h, -⟩ | ⟨h, hlt⟩
    · rw [h]
    · -- the amount is a zero, and the two zeros add alike
      have hnot : ¬0 < n := by
        rw [← lt_iff hzero (by decide) hn, hlt]
        exact Bool.false_ne_true
      have his : y.Is 0 := by
        have hn0 : n = 0 := by omega
        exact hn0 ▸ hn.is (by rw [hn0]; decide)
      rw [h]
      rcases hx.add_eq hzero with hl | ⟨hl, -⟩
      · rcases hx.add_eq his with hr | ⟨hr, -⟩
        · rw [hl, hr]
        · omega
      · omega

end Num

namespace Dest

variable {part : Dest}

/-- The only slot of a record lies within it. -/
theorem sole_slot (made : part.Made) (c : Text) : ∃ surface offset,
    recordOf [(c, part)] = .record surface [⟨c, offset, offset, part⟩] ∧
      (offset.lt 0 || surface.size.lt (offset + part.size)) = false := by
  have hzero : (0 : Num).Is 0 := is_ofNat (Nat.zero_le _)
  have hone : (1 : Num).Is 1 := is_ofNat (by decide)
  obtain ⟨a, haa, ha⟩ := align_of_made made
  have hwidest := hone.max (Or.inl rfl) ha haa
  have hoffset : ((0 : Num).alignTo part.align).Is (roundUp 0 a) :=
    hzero.alignTo ha haa (by rcases haa with rfl | rfl | rfl | rfl <;> decide)
  refine ⟨_, (0 : Num).alignTo part.align, rfl, ?_⟩
  rw [lt_of_is hoffset hzero]
  exact add_alignTo_not_lt hoffset (amount_of_made made) hwidest (IsAlignment.max (Or.inl rfl) haa)

/-- An inherited name in the place of a tag is refused. -/
theorem variantOf_inherited (part : Dest) {c found : Text} (h : Inherited.find? c = some found) :
    variantOf [(c, part)] [] = .error (.tagInherited c found) := by
  have hcases : makeCases [] [(c, part)] 0 [] = .error (.tagInherited c found) := by
    simp only [makeCases, tagOf, List.find?_nil, h]
    rfl
  rw [variantOf]
  simp only [hcases]
  rfl

/-- The only case of a variant lies within it. -/
theorem sole_case (made : part.Made) {c : Text} (hname : Inherited.find? c = none) :
    ∃ surface target,
    variantOf [(c, part)] [] = .ok (.variant surface [⟨c, 0, part⟩] target target) ∧
      surface.size.lt (target + part.size) = false := by
  have hone : (1 : Num).Is 1 := is_ofNat (by decide)
  have h4 : IsAlignment 4 := Or.inr (Or.inr (Or.inl rfl))
  obtain ⟨a, haa, ha⟩ := align_of_made made
  have hwidest := hone.max (Or.inl rfl) ha haa
  have hwa := IsAlignment.max (Or.inl rfl) haa
  have htarget : (Desc.tagSize.alignTo ((1 : Num).max part.align)).Is (roundUp 4 (Nat.max 1 a)) :=
    Desc.tagSize_is.alignTo hwidest hwa (by rcases hwa with h | h | h | h <;> rw [h] <;> decide)
  have hpos : roundUp 4 (Nat.max 1 a) ≠ 0 := by
    have := le_roundUp (n := 4) hwa
    omega
  have hcases : makeCases [] [(c, part)] 0 [] = .ok [⟨c, 0, part⟩] := by
    have hid : (Num.ofNat 0).toNat? = some 0 := (is_ofNat (Nat.zero_le _)).toNat?
    have htag : tagOf [] c 0 = .ok (.ofNat 0) := by rw [tagOf, List.find?_nil, hname]
    rw [makeCases]
    refine bind_eq_ok.mpr ⟨_, htag, ?_⟩
    simp [hid, makeCases, twoPow]
  refine ⟨_, Desc.tagSize.alignTo ((1 : Num).max part.align), bind_eq_ok.mpr ⟨_, hcases, rfl⟩, ?_⟩
  have hzero : (0 : Num).Is 0 := is_ofNat (Nat.zero_le _)
  have hamount := amount_of_made made
  rw [← htarget.add_zero_max hpos hamount]
  exact add_alignTo_not_lt htarget ((tracks_of_is hzero).amount.max hamount).1
    (Desc.tagSize_is.max h4 hwidest hwa) (h4.max hwa)

end Dest

/-! ## What the only part passes on -/

namespace Plan

open Traced

variable {part : Dest} {desc : Desc} {o : Origin} {segments : List Text}

/-- A record locates the failure of its only part. -/
theorem record_located (made : part.Made) (c : Text) (offset : Num)
    (h : ∀ path, (build part desc path).result = .error (Failure.located o path segments)) :
    (build (Dest.recordOf [(c, part)]) (.struct [⟨c, offset, desc⟩]) []).result =
      .error (Failure.located o [] (c :: segments)) := by
  obtain ⟨surface, start, hrecord, hfits⟩ := Dest.sole_slot made c
  have hfield : [(⟨c, offset, desc⟩ : Field Desc)].find? (·.name = c) = some ⟨c, offset, desc⟩ := by
    simp
  rw [hrecord, build]
  refine result_bind_of_error ?_
  rw [buildSlots, hfits]
  simp only [hfield]
  exact result_bind_of_error (inPart_located h [] c)

/-- A variant asks for the alignment of its only payload first. -/
theorem variant_located (made : part.Made) {c : Text} (hname : Inherited.find? c = none)
    (desc : Desc) : ∃ made' : Dest,
    Dest.variantOf [(c, part)] [] = .ok made' ∧
    (∀ cause, desc.align = .error cause →
      (build made' (.variant (Desc.numbered [(c, desc)])) []).result = .error cause.failure) ∧
    ∀ align, desc.align = .ok align →
      (∀ path, (build part desc path).result = .error (Failure.located o path segments)) →
        (build made' (.variant (Desc.numbered [(c, desc)])) []).result =
          .error (Failure.located o [] (c :: segments)) := by
  obtain ⟨surface, target, hmade, hfits⟩ := Dest.sole_case made hname
  have hctor : (Desc.numbered [(c, desc)]).find? (·.name = c) = some ⟨c, .ofNat 0, desc⟩ := by
    simp [Desc.numbered]
  refine ⟨_, hmade, fun cause halign => ?_, fun align halign h => ?_⟩
  · rw [build]
    refine result_bind_of_error ?_
    rw [buildCases]
    simp only [hctor, hfits, halign]
    exact result_bind_of_error rfl
  · rw [build]
    refine result_bind_of_error ?_
    rw [buildCases]
    simp only [hctor, hfits, halign]
    rw [if_neg Bool.false_ne_true, result_bind_of_ok (x := ofCause (.ok align)) rfl]
    exact result_bind_of_error (inPart_located h [] c)

end Plan

/-- How the node around a part passes the failure of the part on. -/
structure Failure.PassedOn (c : Text) (f passed : Failure) : Prop where
  /-- The reason stays. -/
  reason : passed.reason = f.reason
  /-- The name of the part is put in front of the message. -/
  message : passed.message = c ++ ": " ++ f.message
  /-- The path that is noted begins with the part. -/
  path : ∃ rest, passed.path? = some (.arr (.str c :: rest))

theorem Failure.passedOn_located (o : Origin) (segments : List Text) (c : Text) :
    Failure.PassedOn c (Failure.located o [] segments) (Failure.located o [] (c :: segments)) := by
  constructor
  · rw [Failure.reason_located, Failure.reason_located]
  · rw [Failure.message_located, Failure.message_located, Failure.prefixes, List.append_assoc]
  · exact ⟨segments.map .str, Failure.path?_located o [] c segments⟩

/-- A bare cause notes no path, so it does not tell of a part. -/
theorem Failure.not_passedOn_cause (c : Text) (f : Failure) (cause : Cause) :
    ¬Failure.PassedOn c f cause.failure := by
  intro h
  obtain ⟨rest, hpath⟩ := h.path
  rw [Failure.path?, Cause.lookup?_path] at hpath
  cases hpath

namespace Converter

variable {part : Dest} {desc : Desc} {options : Layer} {config : Config}

/-- **A payload that cannot be converted is reported as a field is, exactly if its source has an
alignment.** Otherwise the variant fails as the alignment does. A case with an inherited name has
no variant that could report anything. -/
theorem payload_reported_iff (made : part.Made) (hoptions : options.resolve = .ok config)
    {f : Failure} (h : (build part desc options).result = .error f) (c : Text) :
    (∀ offset, ∃ passed,
      (build (Dest.recordOf [(c, part)]) (.struct [⟨c, offset, desc⟩]) options).result =
        .error passed ∧ f.PassedOn c passed) ∧
    (∀ found, Inherited.find? c = some found →
      Dest.variantOf [(c, part)] [] = .error (.tagInherited c found)) ∧
    (Inherited.find? c = none → ∃ around passed, Dest.variantOf [(c, part)] [] = .ok around ∧
      (build around (.variant (Desc.numbered [(c, desc)])) options).result = .error passed ∧
      (f.PassedOn c passed ↔ ∃ align, desc.align = .ok align) ∧
      ∀ cause, desc.align = .error cause → passed = cause.failure) := by
  have hplan := (build_error_iff (Dest.native_of_made made) hoptions).mp h
  have hnames : ([(c, part)].map Prod.fst).Nodup := List.nodup_singleton c
  have hparts : ∀ p ∈ [(c, part)], p.2.Made := by simpa using made
  rcases Plan.uniform_build part desc with ⟨plan, hbuilt⟩ | ⟨o, segments, hfail⟩
  · rw [hbuilt] at hplan
    cases hplan
  · rw [hfail] at hplan
    cases hplan
    have hlocated := Failure.passedOn_located o segments c
    refine ⟨fun offset => ?_, fun found => Dest.variantOf_inherited part, fun hname => ?_⟩
    · have hrecord := Dest.native_of_made (.record hnames hparts)
      exact ⟨_, (build_error_iff hrecord hoptions).mpr (Plan.record_located made c offset hfail),
        hlocated⟩
    · obtain ⟨around, hmade, hbare, hinner⟩ := Plan.variant_located made hname desc
      have hvariant := Dest.native_of_made (.variant hnames hparts hmade)
      cases halign : desc.align with
      | error cause =>
          refine ⟨around, _, hmade, (build_error_iff hvariant hoptions).mpr (hbare cause halign), ?_⟩
          refine ⟨iff_of_false (Failure.not_passedOn_cause c _ cause) (by simp), ?_⟩
          rintro _ ⟨⟩
          rfl
      | ok align =>
          refine ⟨around, _, hmade,
            (build_error_iff hvariant hoptions).mpr (hinner align halign hfail), ?_⟩
          exact ⟨iff_of_true hlocated ⟨align, rfl⟩, by simp⟩

/-- A level cannot be converted from a double, and as a payload it is reported as such. -/
theorem payload_reported_iff_sample : ∃ f around passed,
    (build (.ofPrim .int32) (.prim "double") Sample.options).result = .error f ∧
    Dest.variantOf [("level", .ofPrim .int32)] [] = .ok around ∧
    (build around (.variant (Desc.numbered [("level", .prim "double")])) Sample.options).result =
      .error passed ∧ f.PassedOn "level" passed := by
  have hoptions : Sample.options.resolve = .ok Sample.converter.config := by decide +kernel
  have hfail : (build (.ofPrim .int32) (.prim "double") Sample.options).result =
      .error (Cause.noConversionPath "double" "int32" []).failure := by
    with_unfolding_all rfl
  obtain ⟨around, passed, hmade, hpassed, hiff, -⟩ :=
    (payload_reported_iff (.prim .int32) hoptions hfail "level").2.2 (by decide)
  exact ⟨_, around, passed, hfail, hmade, hpassed, hiff.mpr ⟨8, by decide +kernel⟩⟩

/-- No primitive is named text, so a level cannot be converted from one. As a payload it is
reported as an invalid descriptor, without the name of the payload. -/
theorem unknown_payload_unlocated : ∃ f around passed,
    (Dest.ofPrim .int32).Made ∧
    (build (.ofPrim .int32) (.prim "text") Sample.options).result = .error f ∧
    Dest.variantOf [("level", .ofPrim .int32)] [] = .ok around ∧
    (build around (.variant (Desc.numbered [("level", .prim "text")])) Sample.options).result =
      .error passed ∧
    passed.reason ≠ f.reason ∧ passed.message ≠ "level" ++ ": " ++ f.message ∧
    passed.path? = none := by
  refine ⟨(Cause.noConversionPath "text" "int32" []).failure,
    .variant ⟨"|level: int32|", 8, 4⟩ [⟨"level", 0, .ofPrim .int32⟩] 4 4,
    (Cause.invalidDescriptor "unknown primitive 'text'").failure, .prim _, ?_, ?_, ?_, ?_, ?_, ?_⟩
  · with_unfolding_all rfl
  · with_unfolding_all rfl
  · with_unfolding_all rfl
  · decide
  · decide +kernel
  · rfl

end Converter

end Relayout

import Relayout.Conversion.Extent
import Relayout.Proofs.Matching
import Relayout.Proofs.Replay

/-!
# How far a conversion reads

The reach of a pair is the exact number of bytes from the start of a source
value that its conversion reads. The extent that is measured when a converter
is built tracks it, provided that no size of the descriptor exceeds the limit of
exactness.
-/

namespace Relayout

open Relayout.Num

namespace Dest

mutual

/-- The bytes of a source value that a conversion into the type reads. -/
def reach : Dest → Desc → Nat
  | .prim .., desc => desc.bytes
  | .array _ _ _ count, desc =>
    match desc with
    | .array elem _ => count * elem.bytes
    | _ => 0
  | .record _ slots, desc =>
    match desc with
    | .struct fields => slotsReach fields slots
    | _ => 0
  | .variant _ cases _ _, desc =>
    match desc with
    | .variant ctors => Plan.payloadStart ctors cases + casesReach ctors cases
    | _ => 0

/-- The end of the field that reaches farthest. -/
def slotsReach (fields : List (Field Desc)) : List (Slot Dest) → Nat
  | [] => 0
  | s :: rest =>
    Nat.max
      (match fields.find? (·.name = s.name) with
        | some f => f.start + reach s.type f.type
        | none => 0)
      (slotsReach fields rest)

/-- The reach of the payload that reaches farthest. -/
def casesReach (ctors : List (Ctor Desc)) : List (Case Dest) → Nat
  | [] => 0
  | c :: rest =>
    Nat.max
      (match ctors.find? (·.name = c.name) with
        | some ctor => reach c.type ctor.type
        | none => 0)
      (casesReach ctors rest)

end

theorem reach_prim (p : Prim) (desc : Desc) : (ofPrim p).reach desc = desc.bytes := by
  rw [ofPrim, reach]

theorem le_slotsReach {fields : List (Field Desc)} {slot : Slot Dest} {f : Field Desc}
    (hf : fields.find? (·.name = slot.name) = some f) (rest : List (Slot Dest)) :
    f.start + reach slot.type f.type ≤ slotsReach fields (slot :: rest) ∧
      slotsReach fields rest ≤ slotsReach fields (slot :: rest) := by
  rw [slotsReach, hf]
  exact ⟨Nat.le_max_left _ _, Nat.le_max_right _ _⟩

theorem le_casesReach {ctors : List (Ctor Desc)} {cases : List (Case Dest)} {c : Case Dest}
    {ctor : Ctor Desc} (hc : c ∈ cases) (hctor : ctors.find? (·.name = c.name) = some ctor) :
    reach c.type ctor.type ≤ casesReach ctors cases := by
  induction cases with
  | nil => cases hc
  | cons first rest ih =>
      rw [casesReach]
      rcases List.mem_cons.mp hc with rfl | hc
      · rw [hctor]
        exact Nat.le_max_left _ _
      · exact (ih hc).trans (Nat.le_max_right _ _)

/-! ## The extent tracks the reach -/

def ExtentTracks (dest : Dest) : Prop :=
  ∀ {desc : Desc} {x : Num}, desc.Valid → desc.Small → dest.sourceExtent desc = .ok x →
    x.Tracks (dest.reach desc)

theorem slotsExtent_tracks {fields : List (Field Desc)} {slots : List (Slot Dest)}
    (hoffsets : ∀ f ∈ fields, ∃ o, f.offset.Is o)
    (h : ∀ s ∈ slots, ∀ f, fields.find? (·.name = s.name) = some f →
      ∀ y, s.type.sourceExtent f.type = .ok y → y.Tracks (s.type.reach f.type))
    {finish x : Num} {e : Nat} (he : finish.Tracks e)
    (hx : slotsExtent fields slots finish = .ok x) : x.Tracks (e.max (slotsReach fields slots)) := by
  induction slots generalizing finish e with
  | nil =>
      rw [slotsExtent] at hx
      cases hx
      have hzero : Nat.max e 0 = e := Nat.max_zero e
      rw [slotsReach, hzero]
      exact he
  | cons s rest ih =>
      rw [slotsExtent] at hx
      rw [slotsReach]
      cases hfield : fields.find? (·.name = s.name) with
      | none =>
          simp only [hfield] at hx
          simpa using ih (fun g hg => h g (List.mem_cons_of_mem _ hg)) he hx
      | some f =>
          simp only [hfield] at hx
          obtain ⟨y, hy, hx⟩ := bind_eq_ok.mp hx
          have hmem := List.mem_of_find?_eq_some hfield
          have hend := (tracks_of_is (Field.start_is (hoffsets f hmem))).add
            (h s List.mem_cons_self f hfield y hy)
          have hassoc : ∀ a b, Nat.max (Nat.max e a) b = Nat.max e (Nat.max a b) := Nat.max_assoc e
          rw [← hassoc]
          exact ih (fun g hg => h g (List.mem_cons_of_mem _ hg)) (he.max hend) hx

section

variable {ctors : List (Ctor Desc)} {cases : List (Case Dest)} {widest payload maxAlign x : Num}

theorem casesExtent_nan (hx : casesExtent ctors cases .nan payload = .ok (maxAlign, x)) :
    maxAlign = .nan := by
  induction cases generalizing payload with
  | nil =>
      rw [casesExtent] at hx
      cases hx
      rfl
  | cons c rest ih =>
      rw [casesExtent] at hx
      cases hctor : ctors.find? (·.name = c.name) with
      | none =>
          simp only [hctor] at hx
          exact ih hx
      | some ctor =>
          simp only [hctor] at hx
          obtain ⟨align, -, hx⟩ := bind_eq_ok.mp hx
          obtain ⟨y, -, hx⟩ := bind_eq_ok.mp hx
          exact ih (nan_max align ▸ hx)

/-- The alignment that is measured is the widest among the matched payloads, if all of them
are numbers. -/
theorem casesExtent_align {w : Nat} (hw : widest.Is w) (hwa : IsAlignment w)
    (hx : casesExtent ctors cases widest payload = .ok (maxAlign, x)) :
    (Plan.Definite ctors cases → maxAlign.Is (Plan.matchedAlign ctors cases w)) ∧
      (¬Plan.Definite ctors cases → maxAlign = .nan) := by
  induction cases generalizing widest payload w with
  | nil =>
      rw [casesExtent] at hx
      cases hx
      exact ⟨fun _ => hw, fun hnot => absurd (by simp [Plan.Definite, Plan.matched]) hnot⟩
  | cons c rest ih =>
      rw [casesExtent] at hx
      rw [Plan.matchedAlign]
      cases hctor : ctors.find? (·.name = c.name) with
      | none =>
          simp only [hctor] at hx
          rw [Plan.definite_cons_none hctor]
          exact ih hw hwa hx
      | some ctor =>
          simp only [hctor] at hx
          obtain ⟨align, halign, hx⟩ := bind_eq_ok.mp hx
          obtain ⟨y, -, hx⟩ := bind_eq_ok.mp hx
          rw [Plan.definite_cons_some hctor]
          by_cases hdef : ctor.type.Definite
          · obtain ⟨haa, ha⟩ := Desc.alignment_spec hdef halign
            have hrest := ih (hw.max hwa ha haa) (hwa.max haa) hx
            exact ⟨fun hall => hrest.1 hall.2, fun hnot => hrest.2 fun hall => hnot ⟨hdef, hall⟩⟩
          · have hnan : align = .nan := Except.ok.inj (halign.symm.trans (not_not.mp hdef))
            rw [hnan, max_nan] at hx
            exact ⟨fun hall => absurd hall.1 hdef, fun _ => casesExtent_nan hx⟩

end

theorem casesExtent_tracks {ctors : List (Ctor Desc)} {cases : List (Case Dest)}
    (h : ∀ c ∈ cases, ∀ ctor, ctors.find? (·.name = c.name) = some ctor →
      ∀ y, c.type.sourceExtent ctor.type = .ok y → y.Tracks (c.type.reach ctor.type))
    {widest payload maxAlign x : Num} {e : Nat} (he : payload.Tracks e)
    (hx : casesExtent ctors cases widest payload = .ok (maxAlign, x)) :
    x.Tracks (e.max (casesReach ctors cases)) := by
  induction cases generalizing widest payload e with
  | nil =>
      rw [casesExtent] at hx
      cases hx
      have hzero : Nat.max e 0 = e := Nat.max_zero e
      rw [casesReach, hzero]
      exact he
  | cons c rest ih =>
      rw [casesExtent] at hx
      rw [casesReach]
      cases hctor : ctors.find? (·.name = c.name) with
      | none =>
          simp only [hctor] at hx
          simpa using ih (fun g hg => h g (List.mem_cons_of_mem _ hg)) he hx
      | some ctor =>
          simp only [hctor] at hx
          obtain ⟨align, -, hx⟩ := bind_eq_ok.mp hx
          obtain ⟨y, hy, hx⟩ := bind_eq_ok.mp hx
          have hy := h c List.mem_cons_self ctor hctor y hy
          have hassoc : ∀ a b, Nat.max (Nat.max e a) b = Nat.max e (Nat.max a b) := Nat.max_assoc e
          rw [← hassoc]
          exact ih (fun g hg => h g (List.mem_cons_of_mem _ hg)) (he.max hy) hx

/-- The extent of a variant ends behind the tag and the payload that reaches farthest. -/
theorem variantExtent_tracks {surface : Surface} {cases : List (Case Dest)}
    {payloadOffset decodedAt : Num} {ctors : List (Ctor Desc)} (definite : Plan.Definite ctors cases)
    (h : ∀ c ∈ cases, ∀ ctor, ctors.find? (·.name = c.name) = some ctor →
      ∀ y, c.type.sourceExtent ctor.type = .ok y → y.Tracks (c.type.reach ctor.type)) {x : Num}
    (hx : sourceExtent (.variant surface cases payloadOffset decodedAt) (.variant ctors) = .ok x) :
    x.Tracks (reach (.variant surface cases payloadOffset decodedAt) (.variant ctors)) := by
  have hzero : (0 : Num).Tracks 0 := tracks_of_is (is_ofNat (Nat.zero_le _))
  rw [sourceExtent] at hx
  obtain ⟨⟨maxAlign, payload⟩, hcases, hx⟩ := bind_eq_ok.mp hx
  cases hx
  have ha := (casesExtent_align (is_ofNat (by decide)) (Or.inl rfl) hcases).1 definite
  have haa := Plan.isAlignment_matchedAlign ctors cases (Or.inl rfl)
  have hpayload := casesExtent_tracks h hzero hcases
  have hnone : Nat.max 0 (casesReach ctors cases) = casesReach ctors cases := Nat.zero_max _
  rw [hnone] at hpayload
  -- the payload begins after the tag, so the tag alone never reaches farther
  have hup : 4 ≤ roundUp 4 (Plan.matchedAlign ctors cases 1) := le_roundUp haa
  have hend := ((tracks_of_is Desc.tagSize_is).alignTo ha haa).add hpayload
  have hmax : Nat.max 4 (roundUp 4 (Plan.matchedAlign ctors cases 1) + casesReach ctors cases) =
      roundUp 4 (Plan.matchedAlign ctors cases 1) + casesReach ctors cases :=
    Nat.max_eq_right (by omega)
  rw [reach, Plan.payloadStart, ← hmax]
  exact (tracks_of_is Desc.tagSize_is).max hend

theorem extentTracks_array {surface : Surface} {elem : Dest} {length : Num} {count : Nat}
    (hlength : length.Is count) : ExtentTracks (.array surface elem length count) := by
  intro desc x valid small hx
  cases desc with
  | array elemDesc len =>
      rw [sourceExtent] at hx
      obtain ⟨y, hy, hx⟩ := bind_eq_ok.mp hx
      cases hx
      cases valid with
      | array hvalid _ =>
          cases small with
          | array _ hsmall => exact hlength.mul_tracks (Desc.size_is hvalid hsmall hy).1
  | _ =>
      cases hx
      exact tracks_of_is (is_ofNat (Nat.zero_le _))

theorem extentTracks_record {surface : Surface} {slots : List (Slot Dest)}
    (h : ∀ s ∈ slots, ExtentTracks s.type) : ExtentTracks (.record surface slots) := by
  intro desc x valid small hx
  have hzero : (0 : Num).Tracks 0 := tracks_of_is (is_ofNat (Nat.zero_le _))
  cases desc with
  | struct fields =>
      rw [sourceExtent] at hx
      cases valid with
      | struct hoffsets hvalid =>
          cases small with
          | struct _ hsmall =>
              have hmax : Nat.max 0 (slotsReach fields slots) = slotsReach fields slots :=
                Nat.zero_max _
              rw [reach, ← hmax]
              refine slotsExtent_tracks hoffsets (fun s hs f hf y hy => ?_) hzero hx
              have hmem := List.mem_of_find?_eq_some hf
              exact h s hs (hvalid f hmem) (hsmall f hmem) hy
  | _ =>
      cases hx
      exact hzero

theorem extentTracks_variant {surface : Surface} {cases : List (Case Dest)}
    {payloadOffset decodedAt : Num} (h : ∀ c ∈ cases, ExtentTracks c.type) :
    ExtentTracks (.variant surface cases payloadOffset decodedAt) := by
  intro desc x valid small hx
  cases desc with
  | variant ctors =>
      have hdefinite := Plan.definite_of_small small cases
      cases valid with
      | variant _ hvalid =>
          cases small with
          | variant _ hsmall =>
              refine variantExtent_tracks hdefinite (fun c hc ctor hctor y hy => ?_) hx
              have hmem := List.mem_of_find?_eq_some hctor
              exact h c hc (hvalid ctor hmem) (hsmall ctor hmem) hy
  | _ =>
      cases hx
      exact tracks_of_is (is_ofNat (Nat.zero_le _))

/-- The extent tracks the reach wherever the lengths of arrays are natural numbers. -/
theorem extentTracks_of_counted {dest : Dest} (counted : dest.Counted) : ExtentTracks dest := by
  induction counted with
  | prim p =>
      intro desc x valid small hx
      rw [ofPrim, sourceExtent] at hx
      exact tracks_of_is (Desc.size_is valid small hx).1
  | array _ hlength => exact extentTracks_array hlength
  | record _ ih => exact extentTracks_record fun s hs => ih s hs
  | variant _ ih => exact extentTracks_variant fun c hc => ih c hc

/-- **The extent that is measured tracks the reach.** -/
theorem sourceExtent_tracks {dest : Dest} (laid : dest.Laid) : ExtentTracks dest :=
  extentTracks_of_counted laid.settled.counted

end Dest

end Relayout

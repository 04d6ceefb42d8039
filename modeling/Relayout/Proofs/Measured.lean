import Relayout.Proofs.Amounts
import Relayout.Proofs.Extent

/-!
# Extents that are exact

`Measured` says that all positions which a conversion reads are computed
exactly. The step of an array matters only if the array has items, and parts of
the source that are not matched do not matter at all, however large they are. If
the extent that is measured lies below the limit of exactness, the pair is
measured exactly and the extent is its reach. If the size of a source type lies
below the limit, a conversion reads no more than that.
-/

namespace Relayout

open Relayout.Num

namespace Dest

/-! ## Pairs that are measured exactly -/

mutual

/-- The positions that a conversion into the type reads are computed exactly. The
step of an array is asked for only where it is used, and an item fits its step. -/
def Measured : Dest → Desc → Prop
  | .prim .., _ => True
  | .array _ elem _ count, desc =>
    match desc with
    | .array elemDesc _ =>
      0 < count → (Measured elem elemDesc ∧ reach elem elemDesc ≤ elemDesc.bytes) ∧
        ∃ step, elemDesc.size = .ok step ∧ step.Is elemDesc.bytes
    | _ => True
  | .record _ slots, desc =>
    match desc with
    | .struct fields => SlotsMeasured fields slots
    | _ => True
  | .variant _ cases _ _, desc =>
    match desc with
    | .variant ctors => CasesMeasured ctors cases
    | _ => True

/-- The fields that the slots take are measured exactly. -/
def SlotsMeasured (fields : List (Field Desc)) : List (Slot Dest) → Prop
  | [] => True
  | s :: rest =>
    (∀ f, fields.find? (·.name = s.name) = some f →
      f.offset.Is f.start ∧ Measured s.type f.type) ∧ SlotsMeasured fields rest

/-- The payloads that the cases take have alignments that are numbers, and are measured
exactly. -/
def CasesMeasured (ctors : List (Ctor Desc)) : List (Case Dest) → Prop
  | [] => True
  | c :: rest =>
    (∀ ctor, ctors.find? (·.name = c.name) = some ctor →
      ctor.type.Definite ∧ Measured c.type ctor.type) ∧ CasesMeasured ctors rest

end

theorem slotsMeasured_iff {fields : List (Field Desc)} {slots : List (Slot Dest)} :
    SlotsMeasured fields slots ↔ ∀ s ∈ slots, ∀ f, fields.find? (·.name = s.name) = some f →
      f.offset.Is f.start ∧ s.type.Measured f.type := by
  induction slots with
  | nil => simp [SlotsMeasured]
  | cons s rest ih => rw [SlotsMeasured, ih, List.forall_mem_cons]

theorem casesMeasured_iff {ctors : List (Ctor Desc)} {cases : List (Case Dest)} :
    CasesMeasured ctors cases ↔ ∀ c ∈ cases, ∀ ctor, ctors.find? (·.name = c.name) = some ctor →
      ctor.type.Definite ∧ c.type.Measured ctor.type := by
  induction cases with
  | nil => simp [CasesMeasured]
  | cons c rest ih => rw [CasesMeasured, ih, List.forall_mem_cons]

/-- A payload that is measured exactly is found where its offset is a number. -/
theorem CasesMeasured.payloadAt {ctors : List (Ctor Desc)} {cases : List (Case Dest)}
    (h : CasesMeasured ctors cases) :
    Plan.payloadAt ctors cases = .ofNat (Plan.payloadStart ctors cases) := by
  refine Plan.payloadAt_of_definite fun found hfound => ?_
  obtain ⟨hc, hctor⟩ := Plan.mem_matched.mp hfound
  exact (casesMeasured_iff.mp h _ hc _ hctor).1

/-! ## The reach of an item fits its step -/

def ReachFits (dest : Dest) : Prop :=
  ∀ {desc : Desc} {plan : Plan} {x : Num}, Plan.Built dest desc plan → desc.Valid →
    desc.size = .ok x → x.Small → dest.Measured desc ∧ dest.reach desc ≤ desc.bytes

theorem slotsReach_le {fields : List (Field Desc)} {slots : List (Slot Dest)} {n : Nat}
    (h : ∀ s ∈ slots, ∃ f, fields.find? (·.name = s.name) = some f ∧
      f.start + reach s.type f.type ≤ n) : slotsReach fields slots ≤ n := by
  induction slots with
  | nil => exact Nat.zero_le n
  | cons s rest ih =>
      obtain ⟨⟨f, hfield, hfirst⟩, hrest⟩ := List.forall_mem_cons.mp h
      rw [slotsReach, hfield]
      exact Nat.max_le.mpr ⟨hfirst, ih hrest⟩

theorem casesReach_le {ctors : List (Ctor Desc)} {cases : List (Case Dest)} {n : Nat}
    (h : ∀ c ∈ cases, ∀ ctor, ctors.find? (·.name = c.name) = some ctor →
      reach c.type ctor.type ≤ n) : casesReach ctors cases ≤ n := by
  induction cases with
  | nil => exact Nat.zero_le n
  | cons c rest ih =>
      obtain ⟨hfirst, hrest⟩ := List.forall_mem_cons.mp h
      rw [casesReach]
      cases hctor : ctors.find? (·.name = c.name) with
      | none => exact Nat.max_le.mpr ⟨Nat.zero_le n, ih hrest⟩
      | some ctor => exact Nat.max_le.mpr ⟨hfirst ctor hctor, ih hrest⟩

theorem matchedAlign_le {ctors : List (Ctor Desc)} {a : Nat}
    (h : ∀ c ∈ ctors, c.type.alignment ≤ a) (cases : List (Case Dest)) {w : Nat} (hw : w ≤ a) :
    Plan.matchedAlign ctors cases w ≤ a := by
  induction cases generalizing w with
  | nil => exact hw
  | cons c rest ih =>
      rw [Plan.matchedAlign]
      cases hctor : ctors.find? (·.name = c.name) with
      | none => exact ih hw
      | some ctor => exact ih (Nat.max_le.mpr ⟨hw, h ctor (List.mem_of_find?_eq_some hctor)⟩)

/-- A wider alignment puts the payload no nearer to the tag. -/
theorem roundUp_tag_mono {a b : Nat} (ha : IsAlignment a) (hb : IsAlignment b) (h : a ≤ b) :
    roundUp 4 a ≤ roundUp 4 b := by
  rcases ha with rfl | rfl | rfl | rfl <;> rcases hb with rfl | rfl | rfl | rfl <;>
    first | decide | omega

/-- The slots that were built take a field each. -/
theorem found_of_built {fields : List (Field Desc)} {slots : List (Slot Dest)}
    {plans : List (FieldPlan Plan)} (built : List.Forall₂ (Plan.SlotBuilt fields) slots plans) :
    ∀ s ∈ slots, ∃ f convert, fields.find? (·.name = s.name) = some f ∧
      Plan.Built s.type f.type convert := by
  induction built with
  | nil => simp
  | cons hbuilt _ ih =>
      obtain ⟨f, hfield, -, -, hconvert⟩ := hbuilt
      exact List.forall_mem_cons.mpr ⟨⟨f, _, hfield, hconvert⟩, ih⟩

/-- An array that was built has the length of its type. -/
theorem built_length {surface : Surface} {elem : Dest} {length : Num} {count : Nat} {desc : Desc}
    {plan : Plan} (hlength : length.Is count) (valid : desc.Valid)
    (built : Plan.Built (.array surface elem length count) desc plan) :
    ∃ elemDesc n convert, desc = .array elemDesc (.nat n) ∧ n.Is count ∧ elemDesc.Valid ∧
      Plan.Built elem elemDesc convert := by
  obtain ⟨elemDesc, n, step, convert, rfl, heqv, hconvert, -, -⟩ := Plan.built_array built
  cases valid with
  | array hvalid hlen =>
      cases hlen with
      | nat hvalue =>
          obtain ⟨m, hm⟩ := hvalue
          rw [eqv_of_is hm hlength, decide_eq_true_eq] at heqv
          exact ⟨elemDesc, n, convert, rfl, heqv ▸ hm, hvalid, hconvert⟩

/-- The items of an array are measured exactly if their step is exact. -/
theorem measured_items {surface : Surface} {elem : Dest} {length : Num} {count : Nat}
    {elemDesc len : Desc} {plan : Plan} {y : Num} (h : 0 < count → ReachFits elem)
    (built : Plan.Built elem elemDesc plan) (valid : elemDesc.Valid) (hy : elemDesc.size = .ok y)
    (hsmall : y.Small) :
    Measured (.array surface elem length count) (.array elemDesc len) ∧
      count * reach elem elemDesc ≤ count * elemDesc.bytes := by
  rw [Measured]
  refine ⟨fun hpos => ⟨h hpos built valid hy hsmall, y, hy, (Desc.bytes_is valid hy hsmall).1⟩, ?_⟩
  rcases Nat.eq_zero_or_pos count with rfl | hpos
  · simp
  · exact Nat.mul_le_mul_left count (h hpos built valid hy hsmall).2

theorem reachFits_array {surface : Surface} {elem : Dest} {length : Num} {count : Nat}
    (hlength : length.Is count) (h : 0 < count → ReachFits elem) :
    ReachFits (.array surface elem length count) := by
  intro desc plan x built valid hx hsmall
  have hbytes := (Desc.bytes_is valid hx hsmall).1
  obtain ⟨elemDesc, n, convert, rfl, hn, hvalid, hconvert⟩ := built_length hlength valid built
  obtain ⟨y, hy, rfl, -, hitems⟩ := Desc.array_small hn (fun y hy => Desc.amount_of_size hvalid hy) hx
  rw [reach]
  rcases hitems hsmall with ⟨rfl, -⟩ | hitem
  · rw [Measured, Nat.zero_mul]
    exact ⟨fun h => absurd h (Nat.lt_irrefl 0), Nat.zero_le _⟩
  · have hstep := (Desc.bytes_is hvalid hy hitem).1
    have hprod := ((hn.mul_tracks hstep).of_small hsmall).2
    exact ⟨(measured_items h hconvert hvalid hy hitem).1, (hprod.unique hbytes).le⟩

theorem reachFits_record {surface : Surface} {slots : List (Slot Dest)}
    (h : ∀ s ∈ slots, ReachFits s.type) : ReachFits (.record surface slots) := by
  intro desc plan x built valid hx hsmall
  have hbytes := (Desc.bytes_is valid hx hsmall).1
  obtain ⟨fields, plans, rfl, -, hplans⟩ := Plan.built_record built
  have hfound := found_of_built hplans
  cases valid with
  | struct hoffsets hvalid =>
      have hsmalls := (Desc.struct_small hoffsets
        (fun f hf y hy => Desc.amount_of_size (hvalid f hf) hy) hx).2 hsmall
      obtain ⟨m, hm, hends⟩ := Desc.struct_size hoffsets
        (fun f hf y hy => (Desc.bytes_is (hvalid f hf) hy (hsmalls f hf y hy)).1) hx hsmall.ne_nan
      have heq := (hm.of_small hsmall).2.unique hbytes
      have hpart : ∀ s ∈ slots, ∀ f, fields.find? (·.name = s.name) = some f →
          (f.offset.Is f.start ∧ Measured s.type f.type) ∧ f.start + reach s.type f.type ≤ m := by
        intro s hs f hf
        have hmem := List.mem_of_find?_eq_some hf
        obtain ⟨f', convert, hf', hconvert⟩ := hfound s hs
        obtain rfl : f' = f := Option.some.inj (hf'.symm.trans hf)
        obtain ⟨⟨y, hy⟩, hend⟩ := hends f' hmem
        obtain ⟨hmeasured, hle⟩ := h s hs hconvert (hvalid f' hmem) hy (hsmalls f' hmem y hy)
        exact ⟨⟨Field.start_is (hoffsets f' hmem), hmeasured⟩, by omega⟩
      rw [Measured, slotsMeasured_iff, reach, ← heq]
      refine ⟨fun s hs f hf => (hpart s hs f hf).1, slotsReach_le fun s hs => ?_⟩
      obtain ⟨f, convert, hf, -⟩ := hfound s hs
      exact ⟨f, hf, (hpart s hs f hf).2⟩

theorem reachFits_variant {surface : Surface} {cases : List (Case Dest)}
    {payloadOffset decodedAt : Num} (h : ∀ c ∈ cases, ReachFits c.type) :
    ReachFits (.variant surface cases payloadOffset decodedAt) := by
  intro desc plan x built valid hx hsmall
  have hbytes := (Desc.bytes_is valid hx hsmall).1
  obtain ⟨ctors, maxAlign, arms, rfl, -, -, hbuilt, -⟩ := Plan.built_variant built
  cases valid with
  | variant hids hvalid =>
      have hsmalls := (Desc.variant_small
        (fun c hc y hy => Desc.amount_of_size (hvalid c hc) hy) hx).2 hsmall
      obtain ⟨m, a, hm, hawide, htag, hends⟩ := Desc.variant_size
        (fun c hc y hy => (Desc.bytes_is (hvalid c hc) hy (hsmalls c hc y hy)).1) hx hsmall.ne_nan
      have heq := (hm.of_small hsmall).2.unique hbytes
      have hpart : ∀ c ∈ cases, ∀ ctor, ctors.find? (·.name = c.name) = some ctor →
          (ctor.type.Definite ∧ Measured c.type ctor.type) ∧
            reach c.type ctor.type ≤ m - roundUp 4 a := by
        intro c hc ctor hctor
        have hmem := List.mem_of_find?_eq_some hctor
        obtain ⟨convert, hconvert⟩ := hbuilt c hc ctor hctor
        obtain ⟨hdefinite, -, ⟨y, hy⟩, hend⟩ := hends ctor hmem
        obtain ⟨hmeasured, hle⟩ := h c hc hconvert (hvalid ctor hmem) hy (hsmalls ctor hmem y hy)
        exact ⟨⟨hdefinite, hmeasured⟩, by omega⟩
      -- constructors that are not matched can only move the payload farther
      have hle := matchedAlign_le (fun c hc => (hends c hc).2.1) cases hawide.pos
      have hstart := roundUp_tag_mono (Plan.isAlignment_matchedAlign ctors cases (Or.inl rfl))
        hawide hle
      have hpayload : casesReach ctors cases ≤ m - roundUp 4 a :=
        casesReach_le fun c hc ctor hctor => (hpart c hc ctor hctor).2
      rw [Measured, casesMeasured_iff, reach, Plan.payloadStart, ← heq]
      exact ⟨fun c hc ctor hctor => (hpart c hc ctor hctor).1, by omega⟩

/-- An item whose size lies below the limit is measured exactly, and a conversion
reads no more than that size. -/
theorem reachFits_of_counted {dest : Dest} (counted : dest.Counted) : ReachFits dest := by
  induction counted with
  | prim p =>
      intro desc plan x _ _ _ _
      rw [ofPrim, Measured]
      exact ⟨trivial, Nat.le_refl _⟩
  | array _ hlength ih => exact reachFits_array hlength ih
  | record _ ih => exact reachFits_record ih
  | variant _ ih => exact reachFits_variant ih

/-- **A conversion reads no more than the size of the source type.** -/
theorem reach_le_bytes {dest : Dest} (laid : dest.Laid) {desc : Desc} {plan : Plan} {x : Num}
    (built : Plan.Built dest desc plan) (valid : desc.Valid) (small : desc.Small)
    (hx : desc.size = .ok x) : dest.reach desc ≤ desc.bytes := by
  obtain ⟨his, hlimit⟩ := Desc.size_is valid small hx
  exact (reachFits_of_counted laid.settled.counted built valid hx (small_of_is his hlimit)).2

/-! ## An extent below the limit is exact -/

def ExtentMeasures (dest : Dest) : Prop :=
  ∀ {desc : Desc} {plan : Plan} {x : Num}, Plan.Built dest desc plan → desc.Valid →
    dest.sourceExtent desc = .ok x →
    x.Amount ∧ (x.Small → dest.Measured desc ∧ x.Is (dest.reach desc))

theorem extentMeasures_prim (p : Prim) : ExtentMeasures (.ofPrim p) := by
  intro desc plan x _ valid hx
  rw [ofPrim, sourceExtent] at hx
  refine ⟨Desc.amount_of_size valid hx, fun hsmall => ?_⟩
  rw [reach_prim, ofPrim, Measured]
  exact ⟨trivial, (Desc.bytes_is valid hx hsmall).1⟩

theorem extentMeasures_array {surface : Surface} {elem : Dest} {length : Num} {count : Nat}
    (hlength : length.Is count) (h : 0 < count → ReachFits elem) :
    ExtentMeasures (.array surface elem length count) := by
  intro desc plan x built valid hx
  obtain ⟨elemDesc, n, convert, rfl, -, hvalid, hconvert⟩ := built_length hlength valid built
  rw [sourceExtent] at hx
  obtain ⟨y, hy, hx⟩ := bind_eq_ok.mp hx
  cases hx
  obtain ⟨hamount, hitems⟩ := (Desc.amount_of_size hvalid hy).mul hlength
  refine ⟨hamount, fun hsmall => ?_⟩
  rw [reach]
  rcases hitems hsmall with ⟨rfl, hzero⟩ | hitem
  · rw [Measured, Nat.zero_mul]
    exact ⟨fun h => absurd h (Nat.lt_irrefl 0), hzero⟩
  · have hstep := (Desc.bytes_is hvalid hy hitem).1
    exact ⟨(measured_items h hconvert hvalid hy hitem).1,
      ((hlength.mul_tracks hstep).of_small hsmall).2⟩

/-- An extent of slots below the limit ends behind parts whose extents are below it. -/
theorem slotsExtent_small {fields : List (Field Desc)} {slots : List (Slot Dest)}
    (hoffsets : ∀ f ∈ fields, ∃ o, f.offset.Is o)
    (h : ∀ s ∈ slots, ∀ f, fields.find? (·.name = s.name) = some f →
      ∀ y, s.type.sourceExtent f.type = .ok y → y.Amount)
    {finish x : Num} (hfinish : finish.Amount) (hx : slotsExtent fields slots finish = .ok x) :
    x.Amount ∧ (x.Small → finish.Small ∧
      ∀ s ∈ slots, ∀ f, fields.find? (·.name = s.name) = some f →
        ∃ y, s.type.sourceExtent f.type = .ok y ∧ y.Small) := by
  induction slots generalizing finish with
  | nil =>
      rw [slotsExtent] at hx
      cases hx
      exact ⟨hfinish, fun hsmall => ⟨hsmall, by simp⟩⟩
  | cons s rest ih =>
      obtain ⟨hfirst, hrest⟩ := List.forall_mem_cons.mp h
      rw [slotsExtent] at hx
      cases hfield : fields.find? (·.name = s.name) with
      | none =>
          simp only [hfield] at hx
          obtain ⟨hamount, hsmalls⟩ := ih hrest hfinish hx
          refine ⟨hamount, fun hsmall => ⟨(hsmalls hsmall).1, ?_⟩⟩
          refine List.forall_mem_cons.mpr ⟨fun f hf => ?_, (hsmalls hsmall).2⟩
          rw [hfield] at hf
          cases hf
      | some f =>
          simp only [hfield] at hx
          obtain ⟨y, hy, hx⟩ := bind_eq_ok.mp hx
          obtain ⟨o, ho⟩ := hoffsets f (List.mem_of_find?_eq_some hfield)
          obtain ⟨hend, hpart⟩ := (tracks_of_is ho).amount.add (hfirst f hfield y hy)
          obtain ⟨hmax, hboth⟩ := hfinish.max hend
          obtain ⟨hamount, hsmalls⟩ := ih hrest hmax hx
          refine ⟨hamount, fun hsmall => ?_⟩
          obtain ⟨hbefore, hothers⟩ := hsmalls hsmall
          refine ⟨(hboth hbefore).1, List.forall_mem_cons.mpr ⟨fun f' hf' => ?_, hothers⟩⟩
          rw [hfield] at hf'
          cases hf'
          exact ⟨y, hy, (hpart (hboth hbefore).2).2⟩

/-- An extent of payloads below the limit is the largest of extents below it. -/
theorem casesExtent_small {ctors : List (Ctor Desc)} {cases : List (Case Dest)}
    (h : ∀ c ∈ cases, ∀ ctor, ctors.find? (·.name = c.name) = some ctor →
      ∀ y, c.type.sourceExtent ctor.type = .ok y → y.Amount)
    {widest payload maxAlign x : Num} (hpayload : payload.Amount)
    (hx : casesExtent ctors cases widest payload = .ok (maxAlign, x)) :
    x.Amount ∧ (x.Small → payload.Small ∧
      ∀ c ∈ cases, ∀ ctor, ctors.find? (·.name = c.name) = some ctor →
        ∃ y, c.type.sourceExtent ctor.type = .ok y ∧ y.Small) := by
  induction cases generalizing widest payload with
  | nil =>
      rw [casesExtent] at hx
      cases hx
      exact ⟨hpayload, fun hsmall => ⟨hsmall, by simp⟩⟩
  | cons c rest ih =>
      obtain ⟨hfirst, hrest⟩ := List.forall_mem_cons.mp h
      rw [casesExtent] at hx
      cases hctor : ctors.find? (·.name = c.name) with
      | none =>
          simp only [hctor] at hx
          obtain ⟨hamount, hsmalls⟩ := ih hrest hpayload hx
          refine ⟨hamount, fun hsmall => ⟨(hsmalls hsmall).1, ?_⟩⟩
          refine List.forall_mem_cons.mpr ⟨fun ctor h => ?_, (hsmalls hsmall).2⟩
          rw [hctor] at h
          cases h
      | some ctor =>
          simp only [hctor] at hx
          obtain ⟨align, -, hx⟩ := bind_eq_ok.mp hx
          obtain ⟨y, hy, hx⟩ := bind_eq_ok.mp hx
          obtain ⟨hmax, hboth⟩ := hpayload.max (hfirst ctor hctor y hy)
          obtain ⟨hamount, hsmalls⟩ := ih hrest hmax hx
          refine ⟨hamount, fun hsmall => ?_⟩
          obtain ⟨hbefore, hothers⟩ := hsmalls hsmall
          refine ⟨(hboth hbefore).1, List.forall_mem_cons.mpr ⟨fun ctor' h => ?_, hothers⟩⟩
          rw [hctor] at h
          cases h
          exact ⟨y, hy, (hboth hbefore).2⟩

theorem extentMeasures_record {surface : Surface} {slots : List (Slot Dest)}
    (h : ∀ s ∈ slots, ExtentMeasures s.type) : ExtentMeasures (.record surface slots) := by
  intro desc plan x built valid hx
  obtain ⟨fields, plans, rfl, -, hplans⟩ := Plan.built_record built
  have hzero : (0 : Num).Tracks 0 := tracks_of_is (is_ofNat (Nat.zero_le _))
  have hfound := found_of_built hplans
  rw [sourceExtent] at hx
  cases valid with
  | struct hoffsets hvalid =>
      have hpart : ∀ s ∈ slots, ∀ f, fields.find? (·.name = s.name) = some f →
          ∀ y, s.type.sourceExtent f.type = .ok y →
          y.Amount ∧ (y.Small → s.type.Measured f.type ∧ y.Is (s.type.reach f.type)) := by
        intro s hs f hf y hy
        obtain ⟨f', convert, hf', hconvert⟩ := hfound s hs
        obtain rfl : f' = f := Option.some.inj (hf'.symm.trans hf)
        exact h s hs hconvert (hvalid f' (List.mem_of_find?_eq_some hf)) hy
      obtain ⟨hamount, hsmalls⟩ := slotsExtent_small hoffsets
        (fun s hs f hf y hy => (hpart s hs f hf y hy).1) hzero.amount hx
      refine ⟨hamount, fun hsmall => ?_⟩
      obtain ⟨-, hparts⟩ := hsmalls hsmall
      have hmeasured : ∀ s ∈ slots, ∀ f, fields.find? (·.name = s.name) = some f →
          s.type.Measured f.type ∧ ∀ y, s.type.sourceExtent f.type = .ok y →
            y.Tracks (s.type.reach f.type) := by
        intro s hs f hf
        obtain ⟨y, hy, hysmall⟩ := hparts s hs f hf
        obtain ⟨hmeasured, his⟩ := (hpart s hs f hf y hy).2 hysmall
        refine ⟨hmeasured, fun z hz => ?_⟩
        rw [hy] at hz
        cases hz
        exact tracks_of_is his
      have htracks := slotsExtent_tracks hoffsets
        (fun s hs f hf => (hmeasured s hs f hf).2) hzero hx
      have hmax : Nat.max 0 (slotsReach fields slots) = slotsReach fields slots := Nat.zero_max _
      rw [hmax] at htracks
      rw [Measured, slotsMeasured_iff, reach]
      refine ⟨fun s hs f hf => ⟨?_, (hmeasured s hs f hf).1⟩, (htracks.of_small hsmall).2⟩
      exact Field.start_is (hoffsets f (List.mem_of_find?_eq_some hf))

theorem extentMeasures_variant {surface : Surface} {cases : List (Case Dest)}
    {payloadOffset decodedAt : Num} (h : ∀ c ∈ cases, ExtentMeasures c.type) :
    ExtentMeasures (.variant surface cases payloadOffset decodedAt) := by
  intro desc plan x built valid hx
  obtain ⟨ctors, -, -, rfl, -, -, hbuilt, -⟩ := Plan.built_variant built
  have hzero : (0 : Num).Tracks 0 := tracks_of_is (is_ofNat (Nat.zero_le _))
  cases valid with
  | variant _ hvalid =>
      have hpart : ∀ c ∈ cases, ∀ ctor, ctors.find? (·.name = c.name) = some ctor →
          ∀ y, c.type.sourceExtent ctor.type = .ok y →
          y.Amount ∧ (y.Small → c.type.Measured ctor.type ∧ y.Is (c.type.reach ctor.type)) := by
        intro c hc ctor hctor y hy
        obtain ⟨convert, hconvert⟩ := hbuilt c hc ctor hctor
        exact h c hc hconvert (hvalid ctor (List.mem_of_find?_eq_some hctor)) hy
      have hextent := hx
      rw [sourceExtent] at hextent
      obtain ⟨⟨maxAlign, payload⟩, hcases, hextent⟩ := bind_eq_ok.mp hextent
      cases hextent
      obtain ⟨hpayload, hsmalls⟩ := casesExtent_small
        (fun c hc ctor hctor y hy => (hpart c hc ctor hctor y hy).1) hzero.amount hcases
      obtain ⟨ha, hnan⟩ := casesExtent_align (is_ofNat (by decide)) (Or.inl rfl) hcases
      have haligns : Desc.Aligns maxAlign := by
        by_cases hall : Plan.Definite ctors cases
        · exact Desc.aligns_of_is (ha hall)
            (Plan.isAlignment_matchedAlign ctors cases (Or.inl rfl))
        · exact .inl (hnan hall)
      obtain ⟨hstart, -⟩ := Desc.amount_alignTo (tracks_of_is Desc.tagSize_is).amount haligns
      obtain ⟨hsum, hboth⟩ := hstart.add hpayload
      obtain ⟨hamount, hbefore⟩ := (tracks_of_is Desc.tagSize_is).amount.max hsum
      refine ⟨hamount, fun hsmall => ?_⟩
      obtain ⟨hoffset, hlargest⟩ := hboth (hbefore hsmall).2
      obtain ⟨-, hparts⟩ := hsmalls hlargest
      have hdefinite : Plan.Definite ctors cases := by
        by_contra hnot
        rw [hnan hnot, alignTo_nan] at hoffset
        exact not_small_nan hoffset
      have hmeasured : ∀ c ∈ cases, ∀ ctor, ctors.find? (·.name = c.name) = some ctor →
          c.type.Measured ctor.type ∧ ∀ y, c.type.sourceExtent ctor.type = .ok y →
            y.Tracks (c.type.reach ctor.type) := by
        intro c hc ctor hctor
        obtain ⟨y, hy, hysmall⟩ := hparts c hc ctor hctor
        obtain ⟨hmeasured, his⟩ := (hpart c hc ctor hctor y hy).2 hysmall
        refine ⟨hmeasured, fun z hz => ?_⟩
        rw [hy] at hz
        cases hz
        exact tracks_of_is his
      have htracks := variantExtent_tracks hdefinite
        (fun c hc ctor hctor => (hmeasured c hc ctor hctor).2) hx
      rw [Measured, casesMeasured_iff]
      refine ⟨fun c hc ctor hctor => ⟨?_, (hmeasured c hc ctor hctor).1⟩,
        (htracks.of_small hsmall).2⟩
      exact hdefinite _ (Plan.mem_matched.mpr ⟨hc, hctor⟩)

/-- **An extent below the limit is exact, and so are all positions that are read.** -/
theorem extentMeasures_of_counted {dest : Dest} (counted : dest.Counted) : ExtentMeasures dest := by
  induction counted with
  | prim p => exact extentMeasures_prim p
  | array helem hlength _ =>
      exact extentMeasures_array hlength fun hpos => reachFits_of_counted (helem hpos)
  | record _ ih => exact extentMeasures_record ih
  | variant _ ih => exact extentMeasures_variant ih

end Dest

end Relayout
